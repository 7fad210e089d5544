import ApiManagement.DeliveredParams
import ApiManagement.SubmittedParams

/-! # What the tables of the editor say

A row of a table says a typed param, with the rows below it for its children. The payload that
the editor makes of the tables spells these params and no others, so they are what a client gets
when the version is published. -/
namespace TypedTables

open TransactionRuns RowForests PythonRuntime ServiceSchema ServiceOperations ApiOperations
  CodeGenerator OperationRuns DraftEditor ParamTables SubmittedParams ParamRoundTrip UnorderedCode
  DeliveredParams

section Rows

variable {F : Type} [ParamFields F] (read : ItemEntry → Option F)

mutual

def rowTree : Row → Option (RoseTree F)
  | .leaf _ entry => do
    let f ← read entry
    pure (.node f [])
  | .branch _ entry childrenParams => do
    let f ← read entry
    let ts ← rowTrees childrenParams
    if mayHaveChildren f || childrenParams.isEmpty then pure (.node f ts) else none

def rowTrees : List Row → Option (List (RoseTree F))
  | [] => some []
  | row :: rows => do
    let t ← rowTree row
    let ts ← rowTrees rows
    pure (t :: ts)

end

end Rows

/-- The param that the editor makes of an item; empty texts are none where it says so. -/
def requestEntry (location : ParamLocation) (item : ItemEntry) : ParamEntry where
  name := item.name
  type := item.type
  location := some (.str (paramLocationValue location))
  statusCode := none
  required := item.required
  defaultValue := orElseNull item.defaultValue
  description := item.description
  example' := item.example'
  arrayChildType := orElseNull item.arrayChildType

def responseEntry (statusCode : Option ℤ) (item : ItemEntry) : ParamEntry where
  name := item.name
  type := item.type
  location := none
  statusCode := some (orNull (fun c => .num c) statusCode)
  required := item.required
  defaultValue := none
  description := item.description
  example' := item.example'
  arrayChildType := orElseNull item.arrayChildType

def requestRow (location : ParamLocation) (item : ItemEntry) : Option RequestFields :=
  requestNode location (requestEntry location item)

def responseRow (statusCode : Option ℤ) (item : ItemEntry) : Option ResponseFields :=
  statusCode.bind (fun c => responseNode c (responseEntry statusCode item))

structure Tells (form : Form) (reqs : ParamLocation → List (RoseTree RequestFields))
    (resps : String → List (RoseTree ResponseFields)) : Prop where
  requests : ∀ location, rowTrees (requestRow location) (form.request location) =
    some (reqs location)
  responses : ∀ table ∈ form.response,
    rowTrees (responseRow (ScriptStrings.parseInt table.1)) table.2 = some (resps table.1)

section Spelled

variable {F : Type} [ParamFields F]

theorem entryOf_children (kvs : Members) (v : JsonValue) :
    entryOf (kvs ++ [("children", v)]) = entryOf kvs := by
  simp [entryOf, List.lookup_append, List.lookup_cons]

section Items

variable {members : ItemEntry → List (String × Option JsonValue)} {node : ParamEntry → Option F}
  (hk : KeepsFields members)
include hk

theorem childrenIn_members (entry : ItemEntry) : childrenIn (stringify (members entry)) = [] := by
  have h := childrenIn_append (hk.children entry) []
  rwa [List.append_nil] at h

theorem paramOf_leaf (entry : ItemEntry) : paramOf (processItem members (.leaf entry)) =
    .dict (entryOf (stringify (members entry))) [] := by
  rw [processItem, paramOf, childrenIn_members hk]

theorem paramOf_branch (entry : ItemEntry) (nested : List ParamItem) :
    paramOf (processItem members (.branch entry nested)) =
      .dict (entryOf (stringify (members entry))) ((processItems members nested).map paramOf) := by
  rw [processItem, paramOf, entryOf_children, childrenIn_append (hk.children entry), childrenIn,
    if_pos (by rfl), paramsOf, elementsOf_eq_map]

end Items

mutual

/-- The param of the payload is read like the row. -/
theorem treeIn_row {members : ItemEntry → List (String × Option JsonValue)}
    (hk : KeepsFields members) {node : ParamEntry → Option F} :
    ∀ row : Row, treeIn node (paramOf (processItem members row.toItem)) =
      rowTree (fun item => node (entryOf (stringify (members item)))) row
  | .leaf id entry => by
    rw [Row.toItem, paramOf_leaf hk, treeIn, treesIn, rowTree]
    simp
  | .branch id entry childrenParams => by
    rw [Row.toItem, paramOf_branch hk, treeIn, treesIn_rows hk childrenParams, rowTree]
    have hempty : ((processItems members (Row.toItems childrenParams)).map paramOf).isEmpty =
        childrenParams.isEmpty := by
      cases childrenParams <;> rfl
    rw [hempty]

theorem treesIn_rows {members : ItemEntry → List (String × Option JsonValue)}
    (hk : KeepsFields members) {node : ParamEntry → Option F} :
    ∀ rows : List Row, treesIn node ((processItems members (Row.toItems rows)).map paramOf) =
      rowTrees (fun item => node (entryOf (stringify (members item)))) rows
  | [] => rfl
  | row :: rows => by
    rw [Row.toItems, processItems, List.map_cons, treesIn, treeIn_row hk row,
      treesIn_rows hk rows, rowTrees]

end

section Roots

variable {reading : ParamEntry → Option (ParamEntry → Option F)}

theorem rootsIn_append {ps qs : List ParamInput} {ts us : List (RoseTree F)}
    (h : rootsIn reading ps = some ts) (k : rootsIn reading qs = some us) :
    rootsIn reading (ps ++ qs) = some (ts ++ us) := by
  induction ps generalizing ts with
  | nil =>
    cases h
    exact k
  | cons p ps ih =>
    cases p with
    | other => cases h
    | dict entry children =>
      simp only [rootsIn, Option.bind_eq_bind, Option.bind_eq_some_iff] at h
      obtain ⟨node, hnode, t, ht, ts', hts, h⟩ := h
      cases h
      rw [List.cons_append, rootsIn, hnode, ih hts]
      simp [ht]

theorem rootsIn_flatMap {α : Type} {f : α → List ParamInput} {g : α → List (RoseTree F)}
    {xs : List α} (h : ∀ x ∈ xs, rootsIn reading (f x) = some (g x)) :
    rootsIn reading (xs.flatMap f) = some (xs.flatMap g) := by
  induction xs with
  | nil => rfl
  | cons x xs ih =>
    rw [List.flatMap_cons, List.flatMap_cons]
    exact rootsIn_append (h x List.mem_cons_self)
      (ih (fun y hy => h y (List.mem_cons_of_mem _ hy)))

/-- Roots that share what all params below them share. -/
theorem rootsIn_rows {members : ItemEntry → List (String × Option JsonValue)}
    (hk : KeepsFields members) {node : ParamEntry → Option F}
    (hshared : ∀ item, reading (entryOf (stringify (members item))) = some node) :
    ∀ rows : List Row, rootsIn reading ((processItems members (Row.toItems rows)).map paramOf) =
      treesIn node ((processItems members (Row.toItems rows)).map paramOf)
  | [] => rfl
  | row :: rows => by
    rw [Row.toItems, processItems, List.map_cons, treesIn, ← rootsIn_rows hk hshared rows]
    cases row with
    | leaf id entry => rw [Row.toItem, paramOf_leaf hk, rootsIn, hshared]; rfl
    | branch id entry childrenParams =>
      rw [Row.toItem, paramOf_branch hk, rootsIn, hshared]
      rfl

end Roots

end Spelled

/-- Members with different keys, as the backend looks them up. -/
theorem entryOf_stringify {members : List (String × Option JsonValue)}
    (h : (members.map Prod.fst).Nodup) : entryOf (stringify members) =
      { name := (members.lookup "name").join
        type := (members.lookup "type").join
        location := (members.lookup "location").join
        statusCode := (members.lookup "status_code").join
        required := (members.lookup "required").join
        defaultValue := (members.lookup "default_value").join
        description := (members.lookup "description").join
        example' := (members.lookup "example").join
        arrayChildType := (members.lookup "array_child_type").join } := by
  simp only [entryOf, lookup_stringify h]

theorem entryOf_reqMembers (location : ParamLocation) (item : ItemEntry) :
    entryOf (stringify (reqMembers (paramLocationValue location) item)) =
      requestEntry location item := by
  have hkeys : ((reqMembers (paramLocationValue location) item).map Prod.fst).Nodup := by
    show ["name", "type", "location", "required", "default_value", "description", "example",
      "array_child_type"].Nodup
    decide
  rw [entryOf_stringify hkeys]
  rfl

theorem entryOf_respMembers (statusCode : Option ℤ) (item : ItemEntry) :
    entryOf (stringify (respItemMembers statusCode item)) = responseEntry statusCode item := by
  have hkeys : ((respItemMembers statusCode item).map Prod.fst).Nodup := by
    show ["name", "type", "status_code", "required", "description", "example",
      "array_child_type"].Nodup
    decide
  rw [entryOf_stringify hkeys]
  rfl

section Form

variable {form : Form} {reqs : ParamLocation → List (RoseTree RequestFields)}
  {resps : String → List (RoseTree ResponseFields)}

theorem requestForest_form (h : Tells form reqs resps) :
    requestForest (.arr form.reqParams) = some (DraftEditor.locations.flatMap reqs) := by
  rw [requestForest, paramsOf, elementsOf_eq_map, Form.reqParams, transformReqParamsToApiInput,
    List.flatMap_map, List.map_flatMap]
  refine rootsIn_flatMap ?_
  intro location _
  have hk := request_keepsFields (paramLocationValue location)
  have hshared : ∀ item, ((entryOf (stringify (reqMembers (paramLocationValue location)
      item))).location.bind ParamLocation.ofValue).map requestNode =
        some (requestNode location) := by
    intro item
    rw [entryOf_reqMembers, requestEntry, Option.bind_some, location_ofValue, Option.map_some]
  show rootsIn _ ((processItems (reqMembers (paramLocationValue location))
    (Row.toItems (form.request location))).map paramOf) = _
  rw [rootsIn_rows hk hshared, treesIn_rows hk]
  simp only [entryOf_reqMembers]
  exact h.requests location

theorem statusCodeIn_num (c : ℤ) :
    statusCodeIn (some (.num c)) = if isInteger32 c then some c else none := by
  simp [statusCodeIn]

theorem responseRow_eq (statusCode : Option ℤ) (item : ItemEntry) :
    responseRow statusCode item = (statusCode.filter isInteger32).bind (fun c =>
      responseNode c (responseEntry (some c) item)) := by
  cases statusCode with
  | none => rfl
  | some c =>
    by_cases hc : isInteger32 c = true
    · rw [Option.filter_some_pos hc]
      rfl
    · rw [Option.filter_some_neg (by simpa using hc), responseRow, Option.bind_some, responseNode]
      show (statusCodeIn (some (.num c))).bind _ = none
      rw [statusCodeIn_num, if_neg hc]
      rfl

/-- A table whose key is no status code that can be stored has no rows. -/
theorem nil_of_unreadable {F : Type} [ParamFields F] {read : ItemEntry → Option F}
    (hnone : ∀ item, read item = none) {rows : List Row} {ts : List (RoseTree F)}
    (h : rowTrees read rows = some ts) : rows = [] ∧ ts = [] := by
  cases rows with
  | nil =>
    cases h
    exact ⟨rfl, rfl⟩
  | cons row rows =>
    cases row <;> simp [rowTrees, rowTree, hnone] at h

theorem responseForest_form (h : Tells form reqs resps) :
    responseForest (.arr form.respParams) =
      some ((ScriptObjects.objectOrder form.response).flatMap (fun table => resps table.1)) := by
  rw [responseForest, paramsOf, elementsOf_eq_map, Form.respParams, List.map_flatMap]
  refine rootsIn_flatMap ?_
  rintro ⟨key, rows⟩ hmem
  have htells := h.responses _ (ScriptObjects.mem_objectOrder.mp hmem)
  have hk := response_keepsFields (ScriptStrings.parseInt key)
  dsimp only at htells ⊢
  cases hcode : (ScriptStrings.parseInt key).filter isInteger32 with
  | some c =>
    obtain ⟨hparse, hc⟩ := Option.filter_eq_some_iff.mp hcode
    have hshared : ∀ item, (statusCodeIn (entryOf (stringify
        (respItemMembers (ScriptStrings.parseInt key) item))).statusCode).map responseNode =
          some (responseNode c) := by
      intro item
      rw [entryOf_respMembers, hparse]
      show (statusCodeIn (some (.num c))).map responseNode = _
      rw [statusCodeIn_num, if_pos hc, Option.map_some]
    rw [rootsIn_rows hk hshared, treesIn_rows hk]
    simp only [entryOf_respMembers]
    rw [← htells, hparse]
    rfl
  | none =>
    have hnone : ∀ item, responseRow (ScriptStrings.parseInt key) item = none := by
      intro item
      rw [responseRow_eq, hcode]
      rfl
    obtain ⟨hrows, hts⟩ := nil_of_unreadable hnone htells
    rw [hrows, hts]
    rfl

end Form

/-- The api that a form says: tables with keys of one status code are put together. -/
def shownApi (form : Form) (reqs : ParamLocation → List (RoseTree RequestFields))
    (resps : String → List (RoseTree ResponseFields)) : FetchedApi where
  name := form.brief.name
  method := (HttpMethod.ofValue form.brief.method).getD .get
  path := form.brief.path
  description := form.brief.description
  requestParams := reqs
  statusCodes := (form.response.filterMap (fun table => ScriptStrings.parseInt table.1)).dedup
  statusCodes_nodup := List.nodup_dedup _
  responseParams statusCode :=
    (form.response.filter (fun table => ScriptStrings.parseInt table.1 == some statusCode)).flatMap
      (fun table => resps table.1)

def submitted (iterationId : ℕ) (payload : Payload) : Edit where
  iterationId := iterationId
  apiDraftId := payload.apiDraftId
  name := payload.name
  method := payload.method
  path := payload.path
  description := payload.description
  level := payload.level
  reqParams := .arr payload.reqParams
  respParams := .arr payload.respParams

section Shown

variable {F : Type} [ParamFields F] {read : ItemEntry → Option F}

theorem rowTree_value {row : Row} {t : RoseTree F} (h : rowTree read row = some t) :
    ∃ item, read item = some t.value := by
  cases row with
  | leaf id entry =>
    simp only [rowTree, Option.bind_eq_bind, Option.bind_eq_some_iff] at h
    obtain ⟨f, hf, h⟩ := h
    cases h
    exact ⟨entry, hf⟩
  | branch id entry childrenParams =>
    simp only [rowTree, Option.bind_eq_bind, Option.bind_eq_some_iff] at h
    obtain ⟨f, hf, ts, _, h⟩ := h
    split at h
    · cases h
      exact ⟨entry, hf⟩
    · cases h

theorem rowTrees_values : ∀ {rows : List Row} {ts : List (RoseTree F)},
    rowTrees read rows = some ts → ∀ t ∈ ts, ∃ item, read item = some t.value
  | [], _, h, t, ht => by
    cases h
    cases ht
  | row :: rows, _, h, t, ht => by
    simp only [rowTrees, Option.bind_eq_bind, Option.bind_eq_some_iff] at h
    obtain ⟨u, hu, us, hus, h⟩ := h
    cases h
    rcases List.mem_cons.mp ht with rfl | ht
    · exact rowTree_value hu
    · exact rowTrees_values hus t ht

end Shown

theorem requestRow_location {location : ParamLocation} {item : ItemEntry} {f : RequestFields}
    (h : requestRow location item = some f) : f.location = location := by
  simp only [requestRow, requestNode, Option.bind_eq_bind, Option.bind_eq_some_iff] at h
  obtain ⟨_, _, _, _, _, _, _, _, _, _, _, _, _, _, h⟩ := h
  cases h
  rfl

theorem responseRow_code {statusCode : Option ℤ} {item : ItemEntry} {f : ResponseFields}
    (h : responseRow statusCode item = some f) : statusCode = some f.statusCode := by
  obtain ⟨c, rfl, h⟩ := Option.bind_eq_some_iff.mp h
  simp only [responseNode, Option.bind_eq_bind, Option.bind_eq_some_iff] at h
  obtain ⟨code, _, _, _, _, _, _, _, _, _, _, _, _, _, h⟩ := h
  split at h
  · rename_i hcode
    cases h
    rw [hcode]
  · cases h

section Api

variable {form : Form} {reqs : ParamLocation → List (RoseTree RequestFields)}
  {resps : String → List (RoseTree ResponseFields)}

/-- The params with a status code are those of the tables with it. -/
theorem filter_responses (h : Tells form reqs resps) (c : ℤ) :
    (((ScriptObjects.objectOrder form.response).flatMap (fun table => resps table.1)).filter
      (fun t => t.value.statusCode == c)).Perm ((shownApi form reqs resps).responseParams c) := by
  have hfilter : ∀ {tables : List (String × List Row)}, (∀ table ∈ tables, table ∈ form.response) →
      (tables.flatMap (fun table => resps table.1)).filter (fun t => t.value.statusCode == c) =
        (tables.filter (fun table => ScriptStrings.parseInt table.1 == some c)).flatMap
          (fun table => resps table.1) := by
    intro tables
    induction tables with
    | nil => exact fun _ => rfl
    | cons table tables ih =>
      intro hmem
      have hcodes : ∀ t ∈ resps table.1,
          ScriptStrings.parseInt table.1 = some t.value.statusCode := by
        intro t ht
        obtain ⟨item, hitem⟩ := rowTrees_values
          (h.responses table (hmem table List.mem_cons_self)) t ht
        exact responseRow_code hitem
      rw [List.flatMap_cons, List.filter_append,
        ih (fun table' ht => hmem table' (List.mem_cons_of_mem _ ht)), List.filter_cons]
      by_cases hc : ScriptStrings.parseInt table.1 = some c
      · rw [if_pos (beq_iff_eq.mpr hc), List.flatMap_cons, List.filter_eq_self.mpr]
        intro t ht
        rw [beq_iff_eq]
        exact Option.some.inj ((hcodes t ht).symm.trans hc)
      · rw [if_neg (by simpa using hc), List.filter_eq_nil_iff.mpr, List.nil_append]
        intro t ht
        rw [beq_iff_eq]
        exact fun he => hc ((hcodes t ht).trans (congrArg some he))
  rw [hfilter (fun table ht => ScriptObjects.mem_objectOrder.mp ht)]
  exact ((ScriptObjects.objectOrder_perm form.response).filter _).flatMap_right _

theorem mem_shownCodes {c : ℤ} (h : (shownApi form reqs resps).responseParams c ≠ []) :
    c ∈ (shownApi form reqs resps).statusCodes := by
  obtain ⟨t, ht⟩ := List.exists_mem_of_ne_nil _ h
  obtain ⟨table, htable, _⟩ := List.mem_flatMap.mp ht
  obtain ⟨htable, hparse⟩ := List.mem_filter.mp htable
  exact List.mem_dedup.mpr (List.mem_filterMap.mpr ⟨table, htable, beq_iff_eq.mp hparse⟩)

/-- The rest of a payload is what is edited above the tables. -/
theorem handleSubmit_brief {text : Option JsonValue → String} {valid : Bool} {s : Editor}
    {payload : Payload} (h : s.handleSubmit text valid = some payload) :
    payload.apiDraftId = s.apiDetailId ∧ payload.name = s.form.brief.name ∧
      payload.method = s.form.brief.method ∧ payload.path = s.form.brief.path ∧
      payload.description = s.form.brief.description := by
  unfold Editor.handleSubmit at h
  split at h
  · cases h
  · split at h
    · cases h
    · split at h
      · cases h
      · split at h
        · cases h
        · cases h
          exact ⟨rfl, rfl, rfl, rfl, rfl⟩

/-- What the backend is told is the api of the tables. -/
theorem described_shown {text : Option JsonValue → String} {valid : Bool} {s : Editor}
    {payload : Payload} (hsubmit : s.handleSubmit text valid = some payload)
    (h : Tells s.form reqs resps) (iterationId : ℕ) :
    SameFetched ((submitted iterationId payload).described (DraftEditor.locations.flatMap reqs)
      ((ScriptObjects.objectOrder s.form.response).flatMap (fun table => resps table.1)))
      (shownApi s.form reqs resps) := by
  obtain ⟨_, hname, hmethod, hpath, hdescription⟩ := handleSubmit_brief hsubmit
  have hresponses := fun c => ForestIso.of_perm (filter_responses h c)
  refine ⟨hname, ?_, hpath, hdescription, ?_, ?_, ?_⟩
  · exact congrArg (fun m => (HttpMethod.ofValue m).getD .get) hmethod
  · intro location
    have hlocations : ∀ l, ∀ t ∈ reqs l, t.value.location = l := by
      intro l t ht
      obtain ⟨item, hitem⟩ := rowTrees_values (h.requests l) t ht
      exact requestRow_location hitem
    have hall : location ∈ DraftEditor.locations := by cases location <;> decide
    exact ForestIso.of_perm (List.Perm.of_eq (filter_flatMap_key hlocations DraftEditor.locations
      (by decide) location (fun hnot => absurd hall hnot)))
  · exact hresponses
  · intro c hc
    exact iff_of_true (mem_codes.mpr (ne_nil_iso (hresponses c) hc)) (mem_shownCodes hc)

/-- The forests that the payload of an editor spells. -/
theorem forests_submitted {text : Option JsonValue → String} {valid : Bool} {s : Editor}
    {payload : Payload} (hsubmit : s.handleSubmit text valid = some payload)
    (h : Tells s.form reqs resps) (iterationId : ℕ) :
    requestForest (submitted iterationId payload).reqParams =
        some (DraftEditor.locations.flatMap reqs) ∧
      responseForest (submitted iterationId payload).respParams =
        some ((ScriptObjects.objectOrder s.form.response).flatMap
          (fun table => resps table.1)) := by
  obtain ⟨_, hreq, hresp⟩ := handleSubmit_eq_some hsubmit
  rw [submitted, hreq, hresp]
  exact ⟨requestForest_form h, responseForest_form h⟩

/-- Whatever is requested in between: who may read a version gets, up to the order of params, the
code that is generated for what the tables of the editor showed when it was saved. -/
theorem shown_tables_reach_clients {text : Option JsonValue → String} {valid : Bool} {s : Editor}
    {payload : Payload} (hsubmit : s.handleSubmit text valid = some payload)
    (htells : Tells s.form reqs resps) {iterationId : ℕ} {version : String} {serviceId : ℕ}
    {db : Database} (h : Published (submitted iterationId payload) version serviceId db)
    (hlatest : version ≠ "latest") {service : Service} (hs : service ∈ db.services.rows)
    (hsid : service.id = serviceId) (halive : service.isDeleted = false) {serviceUuid : String}
    (huuid : strip (unquote serviceUuid) = service.serviceUuid.val) {userId : ℕ}
    (hread : MayRead db service iterationId version userId) (up : Uppercase) (env : Environment) :
    ∃ reply, serviceGetServiceByUuidAndVersion env serviceUuid version userId db = .ok reply ∧
      ∃ a ∈ reply.data.apis, ∀ env' : Environment, ∃ detail,
        apiGetApiById env' a.id userId reply.data.isLatest db = .ok detail ∧
        ∀ api, Fetches detail.data api → SameCode (generateTSCode up api)
          (generateTSCode up (shownApi s.form reqs resps)) := by
  obtain ⟨hreq, hresp⟩ := forests_submitted hsubmit htells iterationId
  obtain ⟨reply, hreply, hreadable, a, ha, hedited⟩ :=
    h.served hreq hresp hlatest hs hsid halive huuid hread env
  refine ⟨reply, hreply, a, ha, ?_⟩
  intro env'
  obtain ⟨detail, hdetail⟩ := hreadable a ha env'
  refine ⟨detail, hdetail, ?_⟩
  intro api hf
  exact sameCode_of_sameFetched up
    ((hedited env' detail api hdetail hf).trans (described_shown hsubmit htells iterationId))

end Api

def typedItem (name type : String) : ItemEntry :=
  setField .type (some (.str type)) (setField .name (some (.str name))
    (newItem (.generated "a")).entry)

def orderRows : List Row :=
  [.branch (.stored 4) (setField .arrayChildType (some (.str "object"))
    (typedItem "orders" "array")) [.leaf (.generated "b") (typedItem "note" "string")]]

def sinceRows : List Row := [.leaf (.generated "c") (typedItem "since" "int")]

def messageRows : List Row := [.leaf (.generated "d") (typedItem "message" "string")]

def ordersForm : Form where
  brief := ⟨"list", "GET", "/users", none, some ""⟩
  request
    | .query => sinceRows
    | .body => orderRows
    | _ => []
  response := [("200", messageRows)]
  distinct := List.nodup_singleton _

def ordersEditor : Editor := ⟨2, ordersForm, false⟩

def ordersPayload : Payload where
  apiDraftId := 2
  name := "list"
  method := "GET"
  path := "/users"
  description := none
  level := "P2"
  reqParams := ordersForm.reqParams
  respParams := processItems (respItemMembers (some 200)) (Row.toItems messageRows)

def nameText (name : Option JsonValue) : String :=
  match name with
  | some (.str s) => s
  | _ => "undefined"

theorem orders_submitted : ordersEditor.handleSubmit nameText true = some ordersPayload := by
  have horder : ScriptObjects.objectOrder ordersForm.response = ordersForm.response :=
    List.perm_singleton.mp (ScriptObjects.objectOrder_perm _)
  have hresp : ordersEditor.form.respParams = ordersPayload.respParams := by
    rw [Form.respParams, ordersEditor, horder]
    rfl
  have hreq : ordersEditor.form.reqParams.any nameMissing = false := by decide +kernel
  have hfit : pathParamsFit nameText ordersEditor.form.brief.path ordersEditor.form.reqParams =
      true := by decide +kernel
  rw [Editor.handleSubmit, if_neg (by decide), if_neg (by rw [hreq]; decide),
    if_neg (by rw [hfit]; decide), if_neg (by rw [hresp]; decide +kernel), hresp]
  rfl

theorem orders_said : ∃ reqs resps, Tells ordersForm reqs resps := by
  obtain ⟨body, hbody⟩ : ∃ ts, rowTrees (requestRow .body) orderRows = some ts :=
    Option.isSome_iff_exists.mp (by decide +kernel)
  obtain ⟨query, hquery⟩ : ∃ ts, rowTrees (requestRow .query) sinceRows = some ts :=
    Option.isSome_iff_exists.mp (by decide +kernel)
  obtain ⟨message, hmessage⟩ : ∃ ts, rowTrees (responseRow (ScriptStrings.parseInt "200"))
      messageRows = some ts := Option.isSome_iff_exists.mp (by decide +kernel)
  refine ⟨fun location =>
    if location = .query then query else if location = .body then body else [],
    fun _ => message, ?_, ?_⟩
  · intro location
    cases location with
    | query => exact hquery
    | body => exact hbody
    | _ => rfl
  · intro table htable
    rw [List.mem_singleton.mp htable]
    exact hmessage

def saved : Database :=
  play opened [.apiUpdateApiByApiDraftId 2 2 1 "list" "GET" "/users" none "P2"
    (.arr ordersPayload.reqParams) (.arr ordersPayload.respParams)]

def released : Database := play saved [.serviceCommitIteration 2 "0.0.3" 1]

theorem orders_saved : ∃ r, (submitted 2 ordersPayload).save plainEnvironment 1 opened =
    .ok (saved, r) :=
  played (.apiUpdateApiByApiDraftId 2 2 1 "list" "GET" "/users" none "P2"
    (.arr ordersPayload.reqParams) (.arr ordersPayload.respParams)) rfl (by decide +kernel)

theorem orders_released : Published (submitted 2 ordersPayload) "0.0.3" 1 released := by
  obtain ⟨_, hsave⟩ := orders_saved
  obtain ⟨_, hcommit⟩ : ∃ r, serviceCommitIteration plainEnvironment 2 "0.0.3" 1 saved =
      .ok (released, r) := played (.serviceCommitIteration 2 "0.0.3" 1) rfl (by decide +kernel)
  exact .intro (i := ordersIteration) opened_reachable plainEnvironment_faithful hsave (.refl _)
    (by decide +kernel) rfl rfl (by decide +kernel) hcommit (.refl _)

theorem releasedVersion_fits : "0.0.3".length ≤ 32 := by decide

def releasedService : Service := publish none ⟨"0.0.3", releasedVersion_fits⟩ publishedService

theorem order_tables_reach_clients : ∃ reqs resps, Tells ordersForm reqs resps ∧
    ∃ reply, serviceGetServiceByUuidAndVersion plainEnvironment "team%2Fcore" "0.0.3" 1
        released = .ok reply ∧
      ∃ a ∈ reply.data.apis, ∀ env' : Environment, ∃ detail,
        apiGetApiById env' a.id 1 reply.data.isLatest released = .ok detail ∧
        ∀ api, Fetches detail.data api → SameCode (generateTSCode InterfaceNames.plainUppercase api)
          (generateTSCode InterfaceNames.plainUppercase (shownApi ordersForm reqs resps)) := by
  obtain ⟨reqs, resps, htells⟩ := orders_said
  have hservice : releasedService ∈ released.services.rows := by decide +kernel
  exact ⟨reqs, resps, htells, shown_tables_reach_clients orders_submitted htells orders_released
    (by decide) hservice rfl rfl (by decide +kernel) (Or.inl (Or.inl rfl))
    InterfaceNames.plainUppercase plainEnvironment⟩

end TypedTables
