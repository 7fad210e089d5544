import ApiManagement.ServiceOperations

/-! # Categories, api drafts and their params

The handlers of categories and of the drafts of one iteration. The params of an update are
untrusted JSON: enumeration values fall back to a default, and the members of a dictionary
that the code does not read are ignored. -/
namespace ApiOperations

open TransactionRuns KeyedTables ParentLinkedRows RowForests PythonRuntime ServiceSchema ApiStores
  UserOperations ServiceOperations

structure ParamEntry where
  name : Option JsonValue
  type : Option JsonValue
  location : Option JsonValue
  statusCode : Option JsonValue
  required : Option JsonValue
  defaultValue : Option JsonValue
  description : Option JsonValue
  example' : Option JsonValue
  arrayChildType : Option JsonValue

def entryOf (kvs : List (String × JsonValue)) : ParamEntry where
  name := kvs.lookup "name"
  type := kvs.lookup "type"
  location := kvs.lookup "location"
  statusCode := kvs.lookup "status_code"
  required := kvs.lookup "required"
  defaultValue := kvs.lookup "default_value"
  description := kvs.lookup "description"
  example' := kvs.lookup "example"
  arrayChildType := kvs.lookup "array_child_type"

/-- An element of a list of params: a dictionary with its children, or a value that cannot
be indexed by a string. -/
inductive ParamInput where
  | dict (entry : ParamEntry) (children : List ParamInput)
  | other

mutual

def paramOf : JsonValue → ParamInput
  | .obj kvs => .dict (entryOf kvs) (childrenIn kvs)
  | _ => .other

/-- What iteration over the value yields. Only a non-empty list has usable elements; the
characters of a string and the keys of a dictionary fail like a value without iterator. -/
def paramsOf : JsonValue → List ParamInput
  | .arr xs => elementsOf xs
  | v => if v.truthy then [.other] else []

def elementsOf : List JsonValue → List ParamInput
  | [] => []
  | x :: xs => paramOf x :: elementsOf xs

def childrenIn : List (String × JsonValue) → List ParamInput
  | [] => []
  | (k, v) :: kvs => if k == "children" then paramsOf v else childrenIn kvs

end

def bindVarChar (env : Environment) (n : ℕ) (v : JsonValue) : Tx (Option (VarChar n)) := do
  match ← bound (env.bindText v) with
  | none => pure none
  | some s => do
    let w ← bound (VarChar.ofString n s)
    pure (some w)

/-- A param table of the drafts: how its row is made from an entry. -/
class ParamModel (F : Type) extends ParamFields F where
  record : Environment → ParamEntry → JsonValue → ParamLocation → ParamType →
    Option ParamType → Tx F
  record_type : ∀ {env entry name location t child f},
    record env entry name location t child = .ok f → type f = t ∧ arrayChildType f = child

def requestRecord (env : Environment) (entry : ParamEntry) (name : JsonValue)
    (location : ParamLocation) (type : ParamType) (arrayChildType : Option ParamType) :
    Tx RequestFields := do
  let name? ← bindVarChar env 64 name
  let name ← notNull name?
  let required ← bound (env.bindBoolean (entry.required.getD (.bool false)))
  let defaultValue ← bindVarChar env 256 (entry.defaultValue.getD .null)
  let description ← bound (env.bindText (entry.description.getD .null))
  let example' ← bindVarChar env 256 (entry.example'.getD .null)
  pure ⟨name, location, type, required, defaultValue, description, example', arrayChildType⟩

def responseRecord (env : Environment) (entry : ParamEntry) (name : JsonValue)
    (_location : ParamLocation) (type : ParamType) (arrayChildType : Option ParamType) :
    Tx ResponseFields := do
  let statusCode? ← bound (env.bindInteger (entry.statusCode.getD (.num 200)))
  let statusCode ← notNull statusCode?
  let name? ← bindVarChar env 64 name
  let name ← notNull name?
  let required ← bound (env.bindBoolean (entry.required.getD (.bool false)))
  let description ← bound (env.bindText (entry.description.getD .null))
  let example' ← bindVarChar env 256 (entry.example'.getD .null)
  pure ⟨statusCode, name, type, required, description, example', arrayChildType⟩

theorem requestRecord_eq_ok {env : Environment} {entry : ParamEntry} {name : JsonValue}
    {location : ParamLocation} {type : ParamType} {child : Option ParamType} {f : RequestFields}
    (h : requestRecord env entry name location type child = .ok f) :
    f.location = location ∧ f.type = type ∧ f.arrayChildType = child := by
  simp only [requestRecord, bind_eq_ok, pure_eq_ok] at h
  obtain ⟨_, _, _, _, _, _, _, _, _, _, _, _, rfl⟩ := h
  exact ⟨rfl, rfl, rfl⟩

theorem responseRecord_eq_ok {env : Environment} {entry : ParamEntry} {name : JsonValue}
    {location : ParamLocation} {type : ParamType} {child : Option ParamType} {f : ResponseFields}
    (h : responseRecord env entry name location type child = .ok f) :
    f.type = type ∧ f.arrayChildType = child := by
  simp only [responseRecord, bind_eq_ok, pure_eq_ok] at h
  obtain ⟨_, _, _, _, _, _, _, _, _, _, _, _, _, _, rfl⟩ := h
  exact ⟨rfl, rfl⟩

instance : ParamModel RequestFields where
  record := requestRecord
  record_type h := (requestRecord_eq_ok h).2

instance : ParamModel ResponseFields where
  record := responseRecord
  record_type h := responseRecord_eq_ok h

/-- A child takes the location its parent used; the raw value is handed down. -/
def rawLocation (parentLocation : JsonValue) (entry : ParamEntry) : JsonValue :=
  if parentLocation.truthy then parentLocation else entry.location.getD (.str "body")

def storedLocation (raw : JsonValue) : ParamLocation := (ParamLocation.ofValue raw).getD .body

def storedType (raw : JsonValue) : ParamType := (ParamType.ofValue raw).getD .string

def storedChildType (entry : ParamEntry) : Option ParamType :=
  entry.arrayChildType.bind (fun v => if v.truthy then ParamType.ofValue v else none)

section Process

variable {F : Type} [ParamModel F] (env : Environment) (held : ℕ → Bool) (apiDraftId : ℕ)

mutual

def processParam (parentParamId : Option ℕ) (parentLocation : JsonValue) :
    ParamInput → Table (LinkedRow F) → Tx (Table (LinkedRow F))
  | .other, _ => .error (.raised .typeError)
  | .dict entry children, t => do
    let name ← orAbort entry.name (.raised .keyError)
    let type ← orAbort entry.type (.raised .keyError)
    let location := rawLocation parentLocation entry
    let fields ← ParamModel.record env entry name (storedLocation location) (storedType type)
      (storedChildType entry)
    let t' ← liftRows (insertRow held t apiDraftId parentParamId fields)
    if takesChildren (storedType type) (storedChildType entry) && !children.isEmpty then
      processParamsRecursively (some t.next) location children t'
    else pure t'

def processParamsRecursively (parentParamId : Option ℕ) (parentLocation : JsonValue) :
    List ParamInput → Table (LinkedRow F) → Tx (Table (LinkedRow F))
  | [], t => pure t
  | p :: ps, t => do
    let t' ← processParam parentParamId parentLocation p t
    processParamsRecursively parentParamId parentLocation ps t'

end

end Process

def apiAddCategoryByServiceId (serviceId userId : ℕ) (categoryName : String)
    (description : Option String) (db : Database) : Tx (Database × Reply ApiCategory) := do
  let service ← orAbort (db.services.find? serviceId) (.reply (-1) "Service not found")
  let user := db.users.find? userId
  requireLevelZeroIf (service.ownerId != userId && !isMaintainer db service.id user) user
    (.reply (-2) "You are neither the owner nor the maintainer of this service")
  require (!db.categories.rows.any (fun c =>
    c.serviceId == serviceId && c.name.val == categoryName))
    (.reply (-3) "Category name already exists")
  let name ← bound (VarChar.ofString 64 categoryName)
  let category : ApiCategory := ⟨db.categories.next, serviceId, name, description⟩
  pure ({ db with categories := db.categories.insert category },
    ⟨200, "Add category success", category⟩)

def clearCategory (k : ℕ) (a : ApiRow) : Option ℕ :=
  if a.fields.categoryId = some k then none else a.fields.categoryId

/-- `db.delete(category)` first sets the foreign key of its apis and drafts to NULL. -/
def apiDeleteCategoryById (categoryId userId : ℕ) (db : Database) :
    Tx (Database × Reply Unit) := do
  let category ← orAbort (db.categories.find? categoryId) (.reply (-1) "Category not found")
  let user ← orAbort (db.users.find? userId) (.reply (-2) "User not found")
  let service ← orAbort (db.services.find? category.serviceId) (.raised .attributeError)
  requireLevelZeroIf (service.ownerId != userId && !isMaintainer db service.id (some user))
    (some user) (.reply (-3) "You are neither the owner nor the maintainer of this service")
  pure ({ db with
    live := setCategories (clearCategory category.id) db.live
    drafts := setCategories (clearCategory category.id) db.drafts
    categories := db.categories.restrict (fun c => c.id != category.id) },
    ⟨200, "Delete category success", ()⟩)

def renameCategory (name : VarChar 64) (description : Option String) (c : ApiCategory) :
    ApiCategory :=
  { c with name := name, description := description }

/-- A missing name passes the search for an equal one and is then refused by the column. -/
def apiUpdateCategoryById (categoryId userId : ℕ) (categoryName description : Option String)
    (db : Database) : Tx (Database × Reply ApiCategory) := do
  let category ← orAbort (db.categories.find? categoryId) (.reply (-1) "Category not found")
  let user ← orAbort (db.users.find? userId) (.reply (-2) "User not found")
  let service ← orAbort (db.services.find? category.serviceId) (.raised .attributeError)
  requireLevelZeroIf (service.ownerId != userId) (some user)
    (.reply (-3) "You are not the owner of this service")
  require (!(categoryName.isNone && description.isNone))
    (.reply (-4) "Category name or description is required")
  require (!(categoryName == some category.name.val && description == category.description))
    (.reply (-5) "Category name or description not changed")
  require (!db.categories.rows.any (fun c =>
    c.serviceId == category.serviceId && categoryName == some c.name.val))
    (.reply (-6) "Category name already exists")
  let newName ← notNull categoryName
  let name ← bound (VarChar.ofString 64 newName)
  pure ({ db with
    categories := db.categories.update category.id (renameCategory name description)
      (fun _ => rfl) },
    ⟨200, "Update category success", renameCategory name description category⟩)

def assignCategory (i : ℕ) (k : Option ℕ) (a : ApiRow) : Option ℕ :=
  if a.id = i then k else a.fields.categoryId

/-- Only live apis; the category id −1 stands for none. -/
def apiUpdateApiCategory (apiId : ℕ) (categoryId : ℤ) (userId : ℕ) (db : Database) :
    Tx (Database × Reply Unit) := do
  let api ← orAbort (db.live.apis.find? apiId) (.reply (-1) "Api not found")
  let user ← orAbort (db.users.find? userId) (.reply (-2) "User not found")
  let service ← orAbort (db.services.find? api.container) (.raised .attributeError)
  requireLevelZeroIf (service.ownerId != userId && !isMaintainer db service.id (some user))
    (some user) (.reply (-3) "You are neither the owner nor the maintainer of this service")
  require (api.fields.categoryId.map Int.ofNat != some categoryId)
    (.reply (-4) "Api category not changed")
  if categoryId = -1 then
    pure ({ db with live := setCategories (assignCategory api.id none) db.live },
      ⟨200, "Update api category success", ()⟩)
  else do
    -- no row has a negative id, and none has the id 0
    let category ← orAbort (db.categories.find? categoryId.toNat)
      (.reply (-5) "Category not found")
    require (category.serviceId == api.container)
      (.reply (-6) "Category not belongs to this service")
    pure ({ db with live := setCategories (assignCategory api.id (some category.id)) db.live },
      ⟨200, "Update api category success", ()⟩)

def requireCategory (db : Database) (categoryId : Option ℕ) (serviceId : ℕ) : Tx Unit :=
  match categoryId with
  | none => pure ()
  | some k => do
    let category ← orAbort (db.categories.find? k) (.reply (-2) "Category not found")
    require (category.serviceId == serviceId) (.reply (-3) "Category not belongs to this service")

/-- The first query compares the column with the label as given, which the database refuses
unless the label is one of the enumeration; so the fallback to GET is never taken. -/
def apiAddApi (iterationId userId : ℕ) (name method path : String) (description : Option String)
    (level : String) (categoryId : Option ℕ) (db : Database) :
    Tx (Database × Reply ApiDraft) := do
  let (iteration, _) ← checkServiceIterationPermission db iterationId userId
  require (HttpMethod.ofValue method).isSome (.raised .dataError)
  let apiMethod := (HttpMethod.ofValue method).getD .get
  let taken := fun (a : ApiRow) (c : ℕ) =>
    a.container == c && a.fields.method == apiMethod &&
      (a.fields.path.val == path || a.fields.name.val == name)
  require (!(db.live.apis.rows.any (fun a => taken a iteration.serviceId) ||
      db.drafts.apis.rows.any (fun a => taken a iteration.id)))
    (.reply (-1) "Api method and name/path already exists in this service")
  let apiLevel := (ApiLevel.ofValue level).getD .p2
  requireCategory db categoryId iteration.serviceId
  let name ← bound (VarChar.ofString 128 name)
  let path ← bound (VarChar.ofString 256 path)
  let fields : ApiFields :=
    ⟨userId, categoryId, name, apiMethod, path, description, apiLevel, true⟩
  let drafts ← insertApi (draftReferences db) iteration.id fields db.drafts
  pure ({ db with drafts := drafts },
    ⟨200, "Add api success", ⟨db.drafts.apis.next, iteration.id, fields⟩⟩)

def draftOfIteration (db : Database) (iterationId apiDraftId userId : ℕ) : Tx ApiDraft := do
  let _ ← checkServiceIterationPermission db iterationId userId
  let draft ← orAbort (db.drafts.apis.find? apiDraftId) (.reply (-1) "Api draft not found")
  require (draft.container == iterationId)
    (.reply (-2) "Api draft not belongs to this service iteration")
  pure draft

/-- `_copy_params_recursively` on the root params; no chain of parents is longer than the
table, so the depth bound is not what ends the recursion. -/
def copyParamsRecursively {F : Type} (env : Environment) (held : ℕ → Bool) (apiDraftId : ℕ)
    (source : List (LinkedRow F)) (t : Table (LinkedRow F)) : Tx (Table (LinkedRow F)) :=
  (source.filter (fun p => p.parent.isNone)).foldlM
    (fun u p => liftRows (copyTree held env.fetch apiDraftId (t.rows.length + 1) p none u)) t

def copySuffix (env : Environment) : String := "-copy-" ++ toString env.now

def copyDraft (env : Environment) (refs : References) (iterationId : ℕ) (draft : ApiDraft)
    (f : ApiFields) (st : ApiStore) : Tx ApiStore := do
  let st' ← insertApi refs iterationId f st
  let requests ← copyParamsRecursively env st'.apis.contains st.apis.next
    (env.fetch (st'.requestParamsOf draft.id)) st'.requestParams
  let responses ← copyParamsRecursively env st'.apis.contains st.apis.next
    (env.fetch (st'.responseParamsOf draft.id)) st'.responseParams
  pure { st' with requestParams := requests, responseParams := responses }

def apiCopyApiByApiDraftId (env : Environment) (iterationId apiDraftId userId : ℕ)
    (db : Database) : Tx (Database × Reply Unit) := do
  let draft ← draftOfIteration db iterationId apiDraftId userId
  let name ← bound (VarChar.ofString 128 (draft.fields.name.val ++ copySuffix env))
  let path ← bound (VarChar.ofString 256 (draft.fields.path.val ++ copySuffix env))
  let fields : ApiFields :=
    ⟨userId, draft.fields.categoryId, name, draft.fields.method, path, draft.fields.description,
      draft.fields.level, draft.fields.isEnabled⟩
  let drafts ← copyDraft env (draftReferences db) iterationId draft fields db.drafts
  pure ({ db with drafts := drafts }, ⟨200, "Copy api success", ()⟩)

def removeDraft (apiDraftId : ℕ) (st : ApiStore) : ApiStore :=
  deleteApis (fun a => a.id == apiDraftId) (deleteParamsOf (fun a => a == apiDraftId) st)

def apiDeleteApiByApiDraftId (iterationId apiDraftId userId : ℕ) (db : Database) :
    Tx (Database × Reply Unit) := do
  let _ ← draftOfIteration db iterationId apiDraftId userId
  pure ({ db with drafts := removeDraft apiDraftId db.drafts }, ⟨200, "Delete api success", ()⟩)

def editedFields (draft : ApiDraft) (name : VarChar 128) (method : String) (path : VarChar 256)
    (description : Option String) (level : String) : ApiFields :=
  { draft.fields with
    name := name
    method := (HttpMethod.ofValue method).getD .get
    path := path
    description := description
    level := (ApiLevel.ofValue level).getD .p2 }

/-- The writes of `apiUpdateApiByApiDraftId`. The pending `UPDATE` reaches the database with
the first flush after the deletions, which touch other tables. -/
def rewriteDraft (env : Environment) (draft : ApiDraft) (f : ApiFields)
    (reqParams respParams : JsonValue) (st : ApiStore) : Tx ApiStore := do
  let st' ← rewriteApi draft f (deleteParamsOf (fun a => a == draft.id) st)
  let requests ← processParamsRecursively env st'.apis.contains draft.id none .null
    (paramsOf reqParams) st'.requestParams
  let responses ← processParamsRecursively env st'.apis.contains draft.id none .null
    (paramsOf respParams) st'.responseParams
  pure { st' with requestParams := requests, responseParams := responses }

def apiUpdateApiByApiDraftId (env : Environment) (iterationId apiDraftId userId : ℕ)
    (name method path : String) (description : Option String) (level : String)
    (reqParams respParams : JsonValue) (db : Database) : Tx (Database × Reply Unit) := do
  let draft ← draftOfIteration db iterationId apiDraftId userId
  let name ← bound (VarChar.ofString 128 name)
  let path ← bound (VarChar.ofString 256 path)
  let drafts ← rewriteDraft env draft (editedFields draft name method path description level)
    reqParams respParams db.drafts
  pure ({ db with drafts := drafts }, ⟨200, "Update api success", ()⟩)

def isRoot {F : Type} (r : LinkedRow F) : Bool := r.parent.getD 0 == 0

def organizeReqParams (requestParams : List RequestParam) (location : ParamLocation) :
    List (RoseTree RequestParam) :=
  growForest requestParams
    (requestParams.filter (fun p => isRoot p && p.fields.location == location))

def organizeRespParams (responseParams : List ResponseParam) (statusCode : ℤ) :
    List (RoseTree ResponseParam) :=
  growForest responseParams
    (responseParams.filter (fun p => isRoot p && p.fields.statusCode == statusCode))

/-- The two dictionaries are functions of their keys; a status code without params, a
missing key in the source, has the empty list. -/
structure ApiDetail where
  api : ApiRow
  owner : Option UserInfo
  requestParamsByLocation : ParamLocation → List (RoseTree RequestParam)
  responseParamsByStatusCode : ℤ → List (RoseTree ResponseParam)

def apiDetail (env : Environment) (db : Database) (st : ApiStore) (api : ApiRow) : ApiDetail where
  api := api
  owner := (db.users.find? api.fields.ownerId).map userToJson
  requestParamsByLocation := organizeReqParams (env.fetch (st.requestParamsOf api.id))
  responseParamsByStatusCode := organizeRespParams (env.fetch (st.responseParamsOf api.id))

def apiGetApiById (env : Environment) (apiId userId : ℕ) (isLatest : Bool) (db : Database) :
    Tx (Reply ApiDetail) := do
  let st := if isLatest then db.live else db.drafts
  let api ← orAbort (st.apis.find? apiId) (.reply (-1) "Api not found")
  let user ← orAbort (db.users.find? userId) (.reply (-2) "User not found")
  if user.level != .l0 then
    if isLatest then do
      let service ← orAbort (db.services.find? api.container) (.raised .attributeError)
      require (!(service.ownerId != userId && !isMaintainer db service.id (some user)))
        (.reply (-3) "You are neither the owner nor the maintainer of this service")
    else do
      let iteration ← orAbort (db.iterations.find? api.container) (.raised .attributeError)
      let service ← orAbort (db.services.find? iteration.serviceId) (.raised .attributeError)
      require (!(iteration.creatorId != some userId && !isMaintainer db service.id (some user) &&
          service.ownerId != userId))
        (.reply (-4) (String.append
          "You are neither the owner nor the maintainer of this service, "
          "nor the creator of this service iteration"))
  pure ⟨200, "Get api success", apiDetail env db st api⟩

end ApiOperations
