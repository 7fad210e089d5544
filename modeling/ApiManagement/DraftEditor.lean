import ApiManagement.ParamRoundTrip
import ApiManagement.ParamForests

/-! # The draft editor of the web frontend

The editor shows the detail of a draft and saves it as the payload of an update. Between
the two lie the serialization of decoded params, the reading of their members in the browser
and the functions that build the payload: these use `children_params` on one side and
`children` on the other, and give every param the location or status code of its root. -/
namespace DraftEditor

open TransactionRuns KeyedTables ParentLinkedRows RowForests PythonRuntime ServiceSchema ApiStores
  ApiOperations OperationRuns OperationEffects StateInvariant ParamEncoding ParamForests

def paramLocationValue : ParamLocation → String
  | .query => "query"
  | .path => "path"
  | .header => "header"
  | .cookie => "cookie"
  | .body => "body"

def paramTypeValue : ParamType → String
  | .string => "string"
  | .int => "int"
  | .double => "double"
  | .boolean => "boolean"
  | .array => "array"
  | .object => "object"
  | .binary => "binary"

def httpMethodValue : HttpMethod → String
  | .get => "GET"
  | .post => "POST"
  | .put => "PUT"
  | .delete => "DELETE"
  | .patch => "PATCH"

def apiLevelValue : ApiLevel → String
  | .p0 => "P0"
  | .p1 => "P1"
  | .p2 => "P2"
  | .p3 => "P3"
  | .p4 => "P4"

theorem location_ofValue (l : ParamLocation) :
    ParamLocation.ofValue (.str (paramLocationValue l)) = some l := by
  cases l <;> rfl

theorem type_ofValue (t : ParamType) : ParamType.ofValue (.str (paramTypeValue t)) = some t := by
  cases t <;> rfl

theorem method_ofValue (m : HttpMethod) : HttpMethod.ofValue (httpMethodValue m) = some m := by
  cases m <;> rfl

theorem level_ofValue (l : ApiLevel) : ApiLevel.ofValue (apiLevelValue l) = some l := by
  cases l <;> rfl

def orNull {α : Type} (json : α → JsonValue) : Option α → JsonValue
  | none => .null
  | some a => json a

abbrev Members := List (String × JsonValue)

def requestColumns (r : RequestParam) : Members :=
  [("id", .num r.id), ("api_draft_id", .num r.holder), ("name", .str r.fields.name.val),
    ("location", .str (paramLocationValue r.fields.location)),
    ("type", .str (paramTypeValue r.fields.type)), ("required", orNull .bool r.fields.required),
    ("default_value", orNull (fun v => .str v.val) r.fields.defaultValue),
    ("description", orNull .str r.fields.description),
    ("example", orNull (fun v => .str v.val) r.fields.example'),
    ("array_child_type", orNull (fun t => .str (paramTypeValue t)) r.fields.arrayChildType),
    ("parent_param_id", orNull (fun i => .num i) r.parent)]

def responseColumns (r : ResponseParam) : Members :=
  [("id", .num r.id), ("api_draft_id", .num r.holder), ("status_code", .num r.fields.statusCode),
    ("name", .str r.fields.name.val), ("type", .str (paramTypeValue r.fields.type)),
    ("required", orNull .bool r.fields.required),
    ("description", orNull .str r.fields.description),
    ("example", orNull (fun v => .str v.val) r.fields.example'),
    ("array_child_type", orNull (fun t => .str (paramTypeValue t)) r.fields.arrayChildType),
    ("parent_param_id", orNull (fun i => .num i) r.parent)]

def listMember (key : String) : List JsonValue → Members
  | [] => []
  | x :: xs => [(key, .arr (x :: xs))]

section Serialize

variable {F : Type} (columns : LinkedRow F → Members)

mutual

def paramToJson : RoseTree (LinkedRow F) → JsonValue
  | .node r ts => .obj (columns r ++ listMember "children_params" (paramsToJson ts))

def paramsToJson : List (RoseTree (LinkedRow F)) → List JsonValue
  | [] => []
  | t :: ts => paramToJson t :: paramsToJson ts

end

theorem paramsToJson_eq_map (ts : List (RoseTree (LinkedRow F))) :
    paramsToJson columns ts = ts.map (paramToJson columns) := by
  induction ts with
  | nil => rfl
  | cons t ts ih => rw [paramsToJson, ih, List.map_cons]

end Serialize

structure ItemEntry where
  name : Option JsonValue
  type : Option JsonValue
  required : Option JsonValue
  defaultValue : Option JsonValue
  description : Option JsonValue
  example' : Option JsonValue
  arrayChildType : Option JsonValue

def itemEntry (kvs : Members) : ItemEntry where
  name := kvs.lookup "name"
  type := kvs.lookup "type"
  required := kvs.lookup "required"
  defaultValue := kvs.lookup "default_value"
  description := kvs.lookup "description"
  example' := kvs.lookup "example"
  arrayChildType := kvs.lookup "array_child_type"

/-- `branch` carries what `item.children || item.children_params` is, if that is a list. -/
inductive ParamItem where
  | leaf (entry : ItemEntry)
  | branch (entry : ItemEntry) (nested : List ParamItem)

def ParamItem.ofNested (entry : ItemEntry) : Option (List ParamItem) → ParamItem
  | none => .leaf entry
  | some nested => .branch entry nested

mutual

def itemOf : JsonValue → ParamItem
  | .obj kvs => .ofNested (itemEntry kvs)
    ((nestedIn "children" kvs).or (nestedIn "children_params" kvs))
  | _ => .leaf (itemEntry [])

def itemsOf : List JsonValue → List ParamItem
  | [] => []
  | x :: xs => itemOf x :: itemsOf xs

def nestedIn (key : String) : Members → Option (List ParamItem)
  | [] => none
  | (k, .arr xs) :: kvs => if k == key then some (itemsOf xs) else nestedIn key kvs
  | (k, _) :: kvs => if k == key then none else nestedIn key kvs

end

theorem itemsOf_eq_map (xs : List JsonValue) : itemsOf xs = xs.map itemOf := by
  induction xs with
  | nil => rfl
  | cons x xs ih => rw [itemsOf, ih, List.map_cons]

def truthyInJs : JsonValue → Bool
  | .null => false
  | .bool b => b
  | .num q => q != 0
  | .str s => s != ""
  | .arr _ => true
  | .obj _ => true

def orElseNull (x : Option JsonValue) : Option JsonValue :=
  if x.any truthyInJs then x else some .null

def stringify (members : List (String × Option JsonValue)) : Members :=
  members.filterMap (fun m => m.2.map (fun v => (m.1, v)))

def reqMembers (location : String) (item : ItemEntry) : List (String × Option JsonValue) :=
  [("name", item.name), ("type", item.type), ("location", some (.str location)),
    ("required", item.required), ("default_value", orElseNull item.defaultValue),
    ("description", item.description), ("example", item.example'),
    ("array_child_type", orElseNull item.arrayChildType)]

def respMembers (statusCode : ℤ) (item : ItemEntry) : List (String × Option JsonValue) :=
  [("name", item.name), ("type", item.type), ("status_code", some (.num statusCode)),
    ("required", item.required), ("description", item.description), ("example", item.example'),
    ("array_child_type", orElseNull item.arrayChildType)]

section Items

variable (members : ItemEntry → List (String × Option JsonValue))

mutual

def processItem : ParamItem → JsonValue
  | .leaf entry => .obj (stringify (members entry))
  | .branch entry nested =>
    .obj (stringify (members entry) ++ [("children", .arr (processItems nested))])

def processItems : List ParamItem → List JsonValue
  | [] => []
  | item :: items => processItem item :: processItems items

end

theorem processItems_eq_map (items : List ParamItem) :
    processItems members items = items.map (processItem members) := by
  induction items with
  | nil => rfl
  | cons item items ih => rw [processItems, ih, List.map_cons]

end Items

def processReqItems (list : List ParamItem) (location : String) : List JsonValue :=
  processItems (reqMembers location) list

def processRespItems (list : List ParamItem) (statusCode : ℤ) : List JsonValue :=
  processItems (respMembers statusCode) list

/-- The arguments of this function and the next are the entries of the dictionary. -/
def transformReqParamsToApiInput (requestParams : List (String × List ParamItem)) :
    List JsonValue :=
  requestParams.flatMap (fun e => processReqItems e.2 e.1)

/-- The keys are status codes in decimal, which `parseInt` reads. -/
def transformRespParamsToApiInput (responseParams : List (ℤ × List ParamItem)) :
    List JsonValue :=
  responseParams.flatMap (fun e => processRespItems e.2 e.1)

def locations : List ParamLocation := [.query, .path, .header, .cookie, .body]

def savedReqParams (detail : ApiDetail) : JsonValue :=
  .arr (transformReqParamsToApiInput (locations.map (fun l =>
    (paramLocationValue l, itemsOf (paramsToJson requestColumns
      (detail.requestParamsByLocation l))))))

/-- `resp_params`, for the status codes in the order the browser goes through them. -/
def savedRespParams (statusCodes : List ℤ) (detail : ApiDetail) : JsonValue :=
  .arr (transformRespParamsToApiInput (statusCodes.map (fun c =>
    (c, itemsOf (paramsToJson responseColumns (detail.responseParamsByStatusCode c))))))

structure KeysOf (detail : ApiDetail) (statusCodes : List ℤ) : Prop where
  nodup : statusCodes.Nodup
  mem_iff : ∀ c, c ∈ statusCodes ↔ detail.responseParamsByStatusCode c ≠ []

theorem nestedIn_append {key : String} {kvs : Members} (h : key ∉ kvs.map Prod.fst)
    (rest : Members) : nestedIn key (kvs ++ rest) = nestedIn key rest := by
  induction kvs with
  | nil => rfl
  | cons m kvs ih =>
    obtain ⟨k, v⟩ := m
    rw [List.map_cons, List.mem_cons, not_or] at h
    have hk : (k == key) = false := by simpa using Ne.symm h.1
    cases v <;> simp only [List.cons_append, nestedIn, hk, Bool.false_eq_true, if_false] <;>
      exact ih h.2

theorem nestedIn_listMember (key : String) (xs : List JsonValue) :
    nestedIn key (listMember key xs) = if xs = [] then none else some (itemsOf xs) := by
  cases xs with
  | nil => rfl
  | cons x xs => simp [listMember, nestedIn]

theorem nestedIn_listMember_other {key other : String} (h : other ≠ key) (xs : List JsonValue) :
    nestedIn key (listMember other xs) = none := by
  cases xs with
  | nil => rfl
  | cons x xs => simp [listMember, nestedIn, h]

theorem childrenIn_append {kvs : Members} (h : "children" ∉ kvs.map Prod.fst) (rest : Members) :
    childrenIn (kvs ++ rest) = childrenIn rest := by
  induction kvs with
  | nil => rfl
  | cons m kvs ih =>
    obtain ⟨k, v⟩ := m
    rw [List.map_cons, List.mem_cons, not_or] at h
    rw [List.cons_append, childrenIn, if_neg (by simpa using Ne.symm h.1)]
    exact ih h.2

theorem elementsOf_eq_map (xs : List JsonValue) : elementsOf xs = xs.map paramOf := by
  induction xs with
  | nil => rfl
  | cons x xs ih => rw [elementsOf, ih, List.map_cons]

theorem childrenIn_listMember (xs : List JsonValue) :
    childrenIn (listMember "children" xs) = xs.map paramOf := by
  cases xs with
  | nil => rfl
  | cons x xs =>
    rw [listMember, childrenIn, if_pos (by rfl), paramsOf, elementsOf_eq_map]

section Resave

variable {F : Type} (columns : LinkedRow F → Members)
  (members : ItemEntry → List (String × Option JsonValue))

def resaved (t : RoseTree (LinkedRow F)) : JsonValue :=
  processItem members (itemOf (paramToJson columns t))

structure PlainKeys : Prop where
  columns : ∀ r, "children" ∉ (columns r).map Prod.fst ∧
    "children_params" ∉ (columns r).map Prod.fst
  members : ∀ item, "children" ∉ (stringify (members item)).map Prod.fst

variable {columns members}

theorem resaved_node (hk : PlainKeys columns members) (r : LinkedRow F)
    (ts : List (RoseTree (LinkedRow F))) :
    ∃ rest, resaved columns members (.node r ts) =
      .obj (stringify (members (itemEntry (columns r ++ rest))) ++
        listMember "children" (ts.map (resaved columns members))) := by
  refine ⟨listMember "children_params" (paramsToJson columns ts), ?_⟩
  have hnone : nestedIn "children" (columns r ++
      listMember "children_params" (paramsToJson columns ts)) = none := by
    rw [nestedIn_append (hk.columns r).1]
    exact nestedIn_listMember_other (by decide) _
  rw [resaved, paramToJson, itemOf, hnone, Option.none_or, nestedIn_append (hk.columns r).2,
    nestedIn_listMember, paramsToJson_eq_map]
  cases ts with
  | nil => simp [ParamItem.ofNested, processItem, listMember]
  | cons t ts =>
    simp [ParamItem.ofNested, processItem, listMember, processItems_eq_map, itemsOf_eq_map,
      resaved, Function.comp_def]

theorem paramOf_resaved (hk : PlainKeys columns members) (r : LinkedRow F)
    (ts : List (RoseTree (LinkedRow F))) :
    ∃ rest, paramOf (resaved columns members (.node r ts)) =
      .dict (entryOf (stringify (members (itemEntry (columns r ++ rest))) ++
          listMember "children" (ts.map (resaved columns members))))
        (ts.map (fun t => paramOf (resaved columns members t))) := by
  obtain ⟨rest, h⟩ := resaved_node hk r ts
  refine ⟨rest, ?_⟩
  rw [h, paramOf, childrenIn_append (hk.members _), childrenIn_listMember, List.map_map]
  rfl

/-- A decoded tree is stored again with the fields `g` makes of each param, if the entry of
each row is recorded so. -/
theorem stores_resaved [ParamModel F] {env : Environment} (handed : JsonValue → Prop) {g : F → F}
    {rows : List (LinkedRow F)} (hk : PlainKeys columns members)
    (hrecord : ∀ r ∈ rows, ∀ raw rest xs, handed raw →
      Recorded env raw (entryOf (stringify (members (itemEntry (columns r ++ rest))) ++
        listMember "children" xs)) (g r.fields) ∧
      handed (rawLocation raw (entryOf (stringify (members (itemEntry (columns r ++ rest))) ++
        listMember "children" xs))))
    (hmay : ∀ r ∈ rows, ∀ q ∈ rows, r.parent = some q.id → mayHaveChildren (g q.fields) = true) :
    ∀ (n : ℕ) (r : LinkedRow F) (raw : JsonValue), r ∈ rows → handed raw →
      Stores env raw (paramOf (resaved columns members (growTree rows n r)))
        ((growTree rows n r).map (fun q => g q.fields)) := by
  intro n
  induction n with
  | zero =>
    intro r raw hr hraw
    obtain ⟨rest, h⟩ := paramOf_resaved hk r []
    rw [growTree, h, RoseTree.map_node, List.map_nil, List.map_nil]
    exact ⟨(hrecord r hr raw rest _ hraw).1, Or.inr rfl, trivial⟩
  | succ n ih =>
    intro r raw hr hraw
    obtain ⟨rest, h⟩ := paramOf_resaved hk r ((childrenOf rows r.id).map (growTree rows n))
    obtain ⟨hrecorded, hdown⟩ := hrecord r hr raw rest _ hraw
    rw [growTree, h, RoseTree.map_node]
    simp only [List.map_map]
    refine ⟨hrecorded, ?_, ?_⟩
    · cases hc : childrenOf rows r.id with
      | nil => exact Or.inr rfl
      | cons c cs =>
        have hmem : c ∈ childrenOf rows r.id := hc ▸ List.mem_cons_self
        obtain ⟨hm, hp⟩ := List.mem_filter.mp hmem
        exact Or.inl (hmay c hm r hr (beq_iff_eq.mp hp))
    · apply storesAll_map
      intro c hc
      exact ih c _ (List.mem_of_mem_filter hc) hdown

end Resave

def requestTexts (f : RequestFields) : List String :=
  f.name.val :: (f.defaultValue.map VarChar.val).toList ++ f.description.toList ++
    (f.example'.map VarChar.val).toList

def responseTexts (f : ResponseFields) : List String :=
  f.name.val :: f.description.toList ++ (f.example'.map VarChar.val).toList

/-- What was read from a column can be bound to it again. -/
structure BindsBack (env : Environment) (st : ApiStore) (apiId : ℕ) : Prop where
  null_text : env.bindText .null = some none
  null_boolean : env.bindBoolean .null = some none
  boolean : ∀ b, env.bindBoolean (.bool b) = some (some b)
  request_text : ∀ r ∈ st.requestParamsOf apiId, ∀ s ∈ requestTexts r.fields,
    env.bindText (.str s) = some (some s)
  response_text : ∀ r ∈ st.responseParamsOf apiId, ∀ s ∈ responseTexts r.fields,
    env.bindText (.str s) = some (some s)
  status_code : ∀ r ∈ st.responseParamsOf apiId,
    env.bindInteger (.num r.fields.statusCode) = some (some r.fields.statusCode)

section Binding

variable {env : Environment} {n : ℕ}

theorem bindVarChar_val {v : VarChar n} (h : env.bindText (.str v.val) = some (some v.val)) :
    bindVarChar env n (.str v.val) = .ok (some v) := by
  have hv : VarChar.ofString n v.val = some v := VarChar.ofString_eq_some.mpr rfl
  simp only [bindVarChar, bind_eq_ok, bound_eq_ok]
  exact ⟨some v.val, h, bind_eq_ok.mpr ⟨v, bound_eq_ok.mpr hv, rfl⟩⟩

theorem bindVarChar_orNull (hnull : env.bindText .null = some none) {v : Option (VarChar n)}
    (h : ∀ s ∈ (v.map VarChar.val).toList, env.bindText (.str s) = some (some s)) :
    bindVarChar env n (orNull (fun v => .str v.val) v) = .ok v := by
  cases v with
  | none =>
    simp only [bindVarChar, orNull, bind_eq_ok, bound_eq_ok]
    exact ⟨none, hnull, rfl⟩
  | some v => exact bindVarChar_val (h v.val (by simp))

theorem bindText_orNull (hnull : env.bindText .null = some none) {v : Option String}
    (h : ∀ s ∈ v.toList, env.bindText (.str s) = some (some s)) :
    env.bindText (orNull .str v) = some v := by
  cases v with
  | none => exact hnull
  | some s => exact h s (by simp)

theorem bindBoolean_orNull (hnull : env.bindBoolean .null = some none)
    (h : ∀ b, env.bindBoolean (.bool b) = some (some b)) (v : Option Bool) :
    env.bindBoolean (orNull .bool v) = some v := by
  cases v with
  | none => exact hnull
  | some b => exact h b

end Binding

theorem orElseNull_type (t : Option ParamType) :
    orElseNull (some (orNull (fun t => .str (paramTypeValue t)) t)) =
      some (orNull (fun t => .str (paramTypeValue t)) t) := by
  cases t with
  | none => rfl
  | some t => cases t <;> rfl

/-- Only the empty string is turned into null. -/
theorem orElseNull_text {n : ℕ} {v : Option (VarChar n)} (h : v.map VarChar.val ≠ some "") :
    orElseNull (some (orNull (fun v => .str v.val) v)) =
      some (orNull (fun v => .str v.val) v) := by
  cases v with
  | none => rfl
  | some v =>
    have hne : v.val ≠ "" := fun he => h (congrArg some he)
    simp [orElseNull, orNull, truthyInJs, hne]

theorem storedType_value (t : ParamType) : storedType (.str (paramTypeValue t)) = t := by
  rw [storedType, type_ofValue, Option.getD_some]

theorem storedChildType_value {entry : ParamEntry} {t : Option ParamType}
    (h : entry.arrayChildType = some (orNull (fun t => .str (paramTypeValue t)) t)) :
    storedChildType entry = t := by
  rw [storedChildType, h]
  cases t with
  | none => rfl
  | some t => cases t <;> rfl

def requestMembers (location : String) (f : RequestFields) : Members :=
  [("name", .str f.name.val), ("type", .str (paramTypeValue f.type)),
    ("location", .str location), ("required", orNull .bool f.required),
    ("default_value", orNull (fun v => .str v.val) f.defaultValue),
    ("description", orNull .str f.description),
    ("example", orNull (fun v => .str v.val) f.example'),
    ("array_child_type", orNull (fun t => .str (paramTypeValue t)) f.arrayChildType)]

def responseMembers (statusCode : ℤ) (f : ResponseFields) : Members :=
  [("name", .str f.name.val), ("type", .str (paramTypeValue f.type)),
    ("status_code", .num statusCode), ("required", orNull .bool f.required),
    ("description", orNull .str f.description),
    ("example", orNull (fun v => .str v.val) f.example'),
    ("array_child_type", orNull (fun t => .str (paramTypeValue t)) f.arrayChildType)]

theorem stringify_reqMembers {location : String} {r : RequestParam} (rest : Members)
    (h : r.fields.defaultValue.map VarChar.val ≠ some "") :
    stringify (reqMembers location (itemEntry (requestColumns r ++ rest))) =
      requestMembers location r.fields := by
  simp [stringify, reqMembers, itemEntry, requestColumns, requestMembers, List.lookup_cons,
    orElseNull_type, orElseNull_text h]

theorem stringify_respMembers {statusCode : ℤ} {r : ResponseParam} (rest : Members) :
    stringify (respMembers statusCode (itemEntry (responseColumns r ++ rest))) =
      responseMembers statusCode r.fields := by
  simp [stringify, respMembers, itemEntry, responseColumns, responseMembers, List.lookup_cons,
    orElseNull_type]

theorem entryOf_requestMembers (location : String) (f : RequestFields) (xs : List JsonValue) :
    entryOf (requestMembers location f ++ listMember "children" xs) =
      ⟨some (.str f.name.val), some (.str (paramTypeValue f.type)), some (.str location), none,
        some (orNull .bool f.required), some (orNull (fun v => .str v.val) f.defaultValue),
        some (orNull .str f.description), some (orNull (fun v => .str v.val) f.example'),
        some (orNull (fun t => .str (paramTypeValue t)) f.arrayChildType)⟩ := by
  cases xs <;> simp [entryOf, requestMembers, listMember, List.lookup_cons]

theorem entryOf_responseMembers (statusCode : ℤ) (f : ResponseFields) (xs : List JsonValue) :
    entryOf (responseMembers statusCode f ++ listMember "children" xs) =
      ⟨some (.str f.name.val), some (.str (paramTypeValue f.type)), none,
        some (.num statusCode), some (orNull .bool f.required), none,
        some (orNull .str f.description), some (orNull (fun v => .str v.val) f.example'),
        some (orNull (fun t => .str (paramTypeValue t)) f.arrayChildType)⟩ := by
  cases xs <;> simp [entryOf, responseMembers, listMember, List.lookup_cons]

def relocate (location : ParamLocation) (f : RequestFields) : RequestFields :=
  { f with location := location }

def recode (statusCode : ℤ) (f : ResponseFields) : ResponseFields :=
  { f with statusCode := statusCode }

section Records

variable {env : Environment} {st : ApiStore} {apiId : ℕ}

def HandedFrom (location : ParamLocation) (raw : JsonValue) : Prop :=
  raw = .null ∨ raw = .str (paramLocationValue location)

theorem rawLocation_handed {location : ParamLocation} {raw : JsonValue}
    (h : HandedFrom location raw) {entry : ParamEntry}
    (he : entry.location = some (.str (paramLocationValue location))) :
    rawLocation raw entry = .str (paramLocationValue location) := by
  rcases h with rfl | rfl
  · rw [rawLocation, he, if_neg (by simp [JsonValue.truthy]), Option.getD_some]
  · apply if_pos
    cases location <;> rfl

theorem request_recorded (hb : BindsBack env st apiId) {location : ParamLocation}
    {raw : JsonValue} (hraw : HandedFrom location raw) {r : RequestParam}
    (hr : r ∈ st.requestParamsOf apiId) (hdef : r.fields.defaultValue.map VarChar.val ≠ some "")
    (rest : Members) (xs : List JsonValue) :
    Recorded env raw (entryOf (stringify (reqMembers (paramLocationValue location)
        (itemEntry (requestColumns r ++ rest))) ++ listMember "children" xs))
      (relocate location r.fields) ∧
    HandedFrom location (rawLocation raw (entryOf (stringify (reqMembers
      (paramLocationValue location) (itemEntry (requestColumns r ++ rest))) ++
        listMember "children" xs))) := by
  rw [stringify_reqMembers rest hdef, entryOf_requestMembers]
  have hlocation : ∀ entry : ParamEntry,
      entry.location = some (.str (paramLocationValue location)) →
      rawLocation raw entry = .str (paramLocationValue location) :=
    fun entry he => rawLocation_handed hraw he
  have htext := hb.request_text r hr
  simp only [requestTexts, List.mem_cons, List.cons_append, List.mem_append] at htext
  refine ⟨⟨_, _, rfl, rfl, ?_⟩, Or.inr (hlocation _ rfl)⟩
  rw [hlocation _ rfl, storedType_value, storedChildType_value rfl, storedLocation,
    location_ofValue, Option.getD_some]
  simp only [ParamModel.record, requestRecord, bind_eq_ok, bound_eq_ok, notNull_eq_ok, pure_eq_ok,
    Option.getD_some]
  exact ⟨_, bindVarChar_val (htext _ (Or.inl rfl)), _, rfl, _,
    bindBoolean_orNull hb.null_boolean hb.boolean _, _,
    bindVarChar_orNull hb.null_text (fun s hs => htext s (Or.inr (Or.inl (Or.inl hs)))), _,
    bindText_orNull hb.null_text (fun s hs => htext s (Or.inr (Or.inl (Or.inr hs)))), _,
    bindVarChar_orNull hb.null_text (fun s hs => htext s (Or.inr (Or.inr hs))), rfl⟩

theorem response_recorded (hb : BindsBack env st apiId) {statusCode : ℤ} (raw : JsonValue)
    {r : ResponseParam} (hr : r ∈ st.responseParamsOf apiId)
    (hcode : env.bindInteger (.num statusCode) = some (some statusCode)) (rest : Members)
    (xs : List JsonValue) :
    Recorded env raw (entryOf (stringify (respMembers statusCode
        (itemEntry (responseColumns r ++ rest))) ++ listMember "children" xs))
      (recode statusCode r.fields) := by
  rw [stringify_respMembers rest, entryOf_responseMembers]
  have htext := hb.response_text r hr
  simp only [responseTexts, List.mem_cons, List.cons_append, List.mem_append] at htext
  refine ⟨_, _, rfl, rfl, ?_⟩
  rw [storedType_value, storedChildType_value rfl]
  simp only [ParamModel.record, responseRecord, bind_eq_ok, bound_eq_ok, notNull_eq_ok,
    pure_eq_ok, Option.getD_some]
  exact ⟨some statusCode, hcode, _, rfl, _,
    bindVarChar_val (htext _ (Or.inl rfl)), _, rfl, _,
    bindBoolean_orNull hb.null_boolean hb.boolean _, _,
    bindText_orNull hb.null_text (fun s hs => htext s (Or.inr (Or.inl hs))), _,
    bindVarChar_orNull hb.null_text (fun s hs => htext s (Or.inr (Or.inr hs))), rfl⟩

end Records

section Keys

variable {κ α : Type} [DecidableEq κ]

/-- Of lists put together under distinct keys, the elements with one key are its list. -/
theorem filter_flatMap_key {X : κ → List α} {key : α → κ} (hX : ∀ k, ∀ a ∈ X k, key a = k) :
    ∀ (keys : List κ), keys.Nodup → ∀ k, (k ∉ keys → X k = []) →
      (keys.flatMap X).filter (fun a => key a == k) = X k := by
  intro keys
  have own : ∀ k, (X k).filter (fun a => key a == k) = X k := by
    intro k
    rw [List.filter_eq_self]
    intro a ha
    simpa using hX k a ha
  have other : ∀ j k, j ≠ k → (X j).filter (fun a => key a == k) = [] := by
    intro j k hjk
    rw [List.filter_eq_nil_iff]
    intro a ha
    rw [beq_iff_eq, hX j a ha]
    exact hjk
  induction keys with
  | nil =>
    intro _ k hk
    rw [hk List.not_mem_nil]
    rfl
  | cons j keys ih =>
    intro hn k hk
    rw [List.nodup_cons] at hn
    rw [List.flatMap_cons, List.filter_append]
    by_cases hjk : j = k
    · subst hjk
      have hrest : (keys.flatMap X).filter (fun a => key a == j) = [] := by
        rw [List.filter_flatMap, List.flatMap_eq_nil_iff]
        intro x hx
        exact other x j (fun he => hn.1 (he ▸ hx))
      rw [own, hrest, List.append_nil]
    · rw [other j k hjk, List.nil_append]
      exact ih hn.2 k (fun hnot => hk (List.not_mem_cons_of_ne_of_not_mem (Ne.symm hjk) hnot))

end Keys

theorem plainKeys_request (location : String) :
    PlainKeys requestColumns (reqMembers location) := by
  refine ⟨fun r => ⟨by simp [requestColumns], by simp [requestColumns]⟩, ?_⟩
  intro item hm
  obtain ⟨m, hm, hkey⟩ := List.mem_map.mp hm
  obtain ⟨x, hx, hxm⟩ := List.mem_filterMap.mp hm
  obtain ⟨v, _, rfl⟩ := Option.map_eq_some_iff.mp hxm
  simp only [reqMembers, List.mem_cons, List.not_mem_nil, or_false] at hx
  rcases hx with rfl | rfl | rfl | rfl | rfl | rfl | rfl | rfl <;> simp at hkey

theorem plainKeys_response (statusCode : ℤ) :
    PlainKeys responseColumns (respMembers statusCode) := by
  refine ⟨fun r => ⟨by simp [responseColumns], by simp [responseColumns]⟩, ?_⟩
  intro item hm
  obtain ⟨m, hm, hkey⟩ := List.mem_map.mp hm
  obtain ⟨x, hx, hxm⟩ := List.mem_filterMap.mp hm
  obtain ⟨v, _, rfl⟩ := Option.map_eq_some_iff.mp hxm
  simp only [respMembers, List.mem_cons, List.not_mem_nil, or_false] at hx
  rcases hx with rfl | rfl | rfl | rfl | rfl | rfl | rfl <;> simp at hkey

theorem paramsOf_savedReqParams (detail : ApiDetail) :
    paramsOf (savedReqParams detail) = locations.flatMap (fun l =>
      (detail.requestParamsByLocation l).map (fun t =>
        paramOf (resaved requestColumns (reqMembers (paramLocationValue l)) t))) := by
  rw [savedReqParams, paramsOf, elementsOf_eq_map, transformReqParamsToApiInput,
    List.flatMap_map, List.map_flatMap]
  simp only [processReqItems, processItems_eq_map, itemsOf_eq_map, paramsToJson_eq_map,
    List.map_map]
  rfl

theorem paramsOf_savedRespParams (statusCodes : List ℤ) (detail : ApiDetail) :
    paramsOf (savedRespParams statusCodes detail) = statusCodes.flatMap (fun c =>
      (detail.responseParamsByStatusCode c).map (fun t =>
        paramOf (resaved responseColumns (respMembers c) t))) := by
  rw [savedRespParams, paramsOf, elementsOf_eq_map, transformRespParamsToApiInput,
    List.flatMap_map, List.map_flatMap]
  simp only [processRespItems, processItems_eq_map, itemsOf_eq_map, paramsToJson_eq_map,
    List.map_map]
  rfl

/-- The draft is as it was, but for the ids of its params and the order of siblings. -/
structure SameContent (d : ApiDraft) (db db' : Database) : Prop where
  row : d ∈ db'.drafts.apis.rows
  requests : ∀ location, ForestIso
    ((organizeReqParams (db'.drafts.requestParamsOf d.id) location).map shape)
    ((organizeReqParams (db.drafts.requestParamsOf d.id) location).map shape)
  responses : ∀ statusCode, ForestIso
    ((organizeRespParams (db'.drafts.responseParamsOf d.id) statusCode).map shape)
    ((organizeRespParams (db.drafts.responseParamsOf d.id) statusCode).map shape)

def saveUnedited (env : Environment) (iterationId userId : ℕ) (d : ApiDraft)
    (statusCodes : List ℤ) (detail : ApiDetail) (db : Database) : Tx (Database × Reply Unit) :=
  apiUpdateApiByApiDraftId env iterationId d.id userId d.fields.name.val
    (httpMethodValue d.fields.method) d.fields.path.val d.fields.description
    (apiLevelValue d.fields.level) (savedReqParams detail) (savedRespParams statusCodes detail) db

/-- No default is the empty string, and responses carry the status code of their parents. -/
structure Savable (st : ApiStore) (apiId : ℕ) : Prop where
  defaults : ∀ r ∈ st.requestParamsOf apiId, r.fields.defaultValue.map VarChar.val ≠ some ""
  status_codes : Inherited ResponseFields.statusCode (st.responseParamsOf apiId)

theorem editedFields_own (d : ApiDraft) :
    editedFields d d.fields.name (httpMethodValue d.fields.method) d.fields.path
      d.fields.description (apiLevelValue d.fields.level) = d.fields := by
  rw [editedFields, method_ofValue, level_ofValue]
  rfl

section Save

variable {db : Database} {iterationId userId : ℕ} {i : ServiceIteration} {d : ApiDraft}

def movedRequests (rows : List RequestParam) (l : ParamLocation) : List (RoseTree RequestFields) :=
  (organizeReqParams rows l).map (RoseTree.map (fun q => relocate l q.fields))

theorem savedReqParams_stored (hi : Invariant Nests db) (env₀ : Environment) {env : Environment}
    (hdefault : ∀ r ∈ db.drafts.requestParamsOf d.id,
      r.fields.defaultValue.map VarChar.val ≠ some "")
    (hbind : BindsBack env db.drafts d.id) :
    StoresAll env .null (paramsOf (savedReqParams (apiDetail env₀ db db.drafts d)))
      (locations.flatMap (movedRequests (env₀.fetch (db.drafts.requestParamsOf d.id)))) := by
  obtain ⟨hl, hn⟩ := fetched_linked hi.drafts.request_linked env₀ d.id
  rw [paramsOf_savedReqParams]
  apply storesAll_flatMap
  intro l _
  simp only [apiDetail, movedRequests, organizeReqParams, growForest, List.map_map]
  apply storesAll_map
  intro r hr
  apply stores_resaved (HandedFrom l) (plainKeys_request _) ?_ (parent_takes_children hl hn) _ r
    .null (List.mem_of_mem_filter hr) (Or.inl rfl)
  intro q hq raw rest xs hraw
  have hq := env₀.mem_fetch.mp hq
  exact request_recorded hbind hraw hq (hdefault q hq) rest xs

theorem savedRespParams_stored (hi : Invariant Nests db) (env₀ : Environment) {env : Environment}
    (hcodes : Inherited ResponseFields.statusCode (db.drafts.responseParamsOf d.id))
    (hbind : BindsBack env db.drafts d.id) (statusCodes : List ℤ) :
    StoresAll env .null (paramsOf (savedRespParams statusCodes (apiDetail env₀ db db.drafts d)))
      (statusCodes.flatMap (fun c =>
        (organizeRespParams (env₀.fetch (db.drafts.responseParamsOf d.id)) c).map shape)) := by
  obtain ⟨hl, hn⟩ := fetched_linked hi.drafts.response_linked env₀ d.id
  have hinherited : Inherited ResponseFields.statusCode
      (env₀.fetch (db.drafts.responseParamsOf d.id)) :=
    fun r hr q hq => hcodes r (env₀.mem_fetch.mp hr) q (env₀.mem_fetch.mp hq)
  rw [paramsOf_savedRespParams]
  apply storesAll_flatMap
  intro c _
  simp only [apiDetail, organizeRespParams, growForest, List.map_map]
  apply storesAll_map
  intro r hr
  obtain ⟨hr, hroot⟩ := List.mem_filter.mp hr
  rw [Bool.and_eq_true, beq_iff_eq] at hroot
  have hcode : env.bindInteger (.num c) = some (some c) :=
    hroot.2 ▸ hbind.status_code r (env₀.mem_fetch.mp hr)
  have hshape : shape (growTree (env₀.fetch (db.drafts.responseParamsOf d.id))
      (env₀.fetch (db.drafts.responseParamsOf d.id)).length r) =
      (growTree (env₀.fetch (db.drafts.responseParamsOf d.id))
        (env₀.fetch (db.drafts.responseParamsOf d.id)).length r).map
          (fun q => recode c q.fields) := by
    apply RoseTree.map_congr
    intro v hv
    rw [recode, ← hroot.2, ← hinherited.values _ r hr v hv]
  show Stores env .null _ (shape (growTree _ _ r))
  rw [hshape]
  apply stores_resaved (fun _ => True) (plainKeys_response _) ?_ (parent_takes_children hl hn) _ r
    .null hr trivial
  intro q hq raw rest xs _
  exact ⟨response_recorded hbind raw (env₀.mem_fetch.mp hq) hcode rest xs, trivial⟩

/-- Saving succeeds; it moves every request param to the location of its root and changes
nothing else. -/
theorem saved_unedited (hi : Invariant Nests db) (hw : WorkRight db iterationId userId i)
    (hd : d ∈ db.drafts.apisOf iterationId) (hsavable : Savable db.drafts d.id)
    {env₀ : Environment} {statusCodes : List ℤ}
    (hkeys : KeysOf (apiDetail env₀ db db.drafts d) statusCodes) {env : Environment}
    (hbind : BindsBack env db.drafts d.id) :
    ∃ db' r, saveUnedited env iterationId userId d statusCodes (apiDetail env₀ db db.drafts d) db =
        .ok (db', r) ∧ d ∈ db'.drafts.apis.rows ∧
      (∀ l, ForestIso ((organizeReqParams (db'.drafts.requestParamsOf d.id) l).map shape)
        (movedRequests (env₀.fetch (db.drafts.requestParamsOf d.id)) l)) ∧
      ∀ c, ForestIso ((organizeRespParams (db'.drafts.responseParamsOf d.id) c).map shape)
        ((organizeRespParams (env₀.fetch (db.drafts.responseParamsOf d.id)) c).map shape) := by
  obtain ⟨hd, hdc⟩ := ApiStore.mem_apisOf.mp hd
  have hfree : NameFree db.drafts d d.fields := by
    intro b hb hne hc hm hname
    exact hne (congrArg ApiRow.id (hi.drafts.key_unique b hb d hd hc hm hname))
  have hname : VarChar.ofString 128 d.fields.name.val = some d.fields.name :=
    VarChar.ofString_eq_some.mpr rfl
  have hpath : VarChar.ofString 256 d.fields.path.val = some d.fields.path :=
    VarChar.ofString_eq_some.mpr rfl
  obtain ⟨hiff, hcontent⟩ := update_stores hi hw hd hdc
    (savedReqParams_stored hi env₀ hsavable.defaults hbind)
    (savedRespParams_stored hi env₀ hsavable.status_codes hbind statusCodes)
    d.fields.name.val (httpMethodValue d.fields.method) d.fields.path.val
    (apiLevelValue d.fields.level) d.fields.description
  obtain ⟨db', r, h⟩ := hiff.mpr ⟨d.fields.name, d.fields.path, hname, hpath,
    (editedFields_own d).symm ▸ hfree⟩
  obtain ⟨n, p, drafts, hn, hp, rfl, hrow, hholds⟩ := hcontent db' r h
  refine ⟨_, r, h, ?_, ?_, ?_⟩
  · rw [VarChar.ext hn, VarChar.ext hp, editedFields_own, ← hdc] at hrow
    exact hrow
  · intro l
    have hshown := (hholds.shows (a := d) plainEnvironment db).requests l
    have hall : l ∈ locations := by cases l <;> decide
    rw [filter_flatMap_key ?_ locations (by decide) l (fun hnot => absurd hall hnot)] at hshown
    · exact hshown
    · intro k t ht
      obtain ⟨u, hu, rfl⟩ := List.mem_map.mp ht
      rw [RoseTree.map_value]
      rfl
  · intro c
    have hshown := (hholds.shows (a := d) plainEnvironment db).responses c
    rw [filter_flatMap_key ?_ statusCodes hkeys.nodup c ?_] at hshown
    · exact hshown
    · intro k t ht
      obtain ⟨u, hu, rfl⟩ := List.mem_map.mp ht
      obtain ⟨q, hq, rfl⟩ := List.mem_map.mp hu
      have hcode := (List.mem_filter.mp hq).2
      rw [Bool.and_eq_true, beq_iff_eq] at hcode
      rw [shape, RoseTree.map_value, growTree_value]
      exact hcode.2
    · intro hc
      have hnone : (apiDetail env₀ db db.drafts d).responseParamsByStatusCode c = [] := by
        by_contra hne
        exact hc ((hkeys.mem_iff c).mpr hne)
      exact congrArg (List.map shape) hnone

/-- Moving params to the location of their root changes nothing exactly if they are there. -/
theorem movedRequests_iff {rows : List RequestParam} (hl : WellLinked Nests rows)
    (hn : (rows.map LinkedRow.id).Nodup) :
    (∀ l, ForestIso (movedRequests rows l) ((organizeReqParams rows l).map shape)) ↔
      Inherited RequestFields.location rows := by
  constructor
  · intro h
    refine inherited_of_values hl hn ?_
    intro r hr hp v hv
    have hroot : r ∈ rows.filter (fun q => isRoot q && q.fields.location == r.fields.location) :=
      List.mem_filter.mpr ⟨hr, by simp [isRoot, hp]⟩
    have hvalue : v ∈ forestValues (organizeReqParams rows r.fields.location) :=
      mem_forestValues_iff.mpr ⟨_, List.mem_map_of_mem hroot, hv⟩
    have hperm := (h r.fields.location).values
    rw [movedRequests, forestValues_map] at hperm
    have hshown : v.fields ∈
        forestValues ((organizeReqParams rows r.fields.location).map shape) := by
      rw [show (shape : RoseTree RequestParam → RoseTree RequestFields) =
        RoseTree.map LinkedRow.fields from rfl, forestValues_map]
      exact List.mem_map_of_mem hvalue
    obtain ⟨q, _, hq⟩ := List.mem_map.mp (hperm.mem_iff.mpr hshown)
    exact (congrArg RequestFields.location hq).symm
  · intro h l
    have hsame : movedRequests rows l = (organizeReqParams rows l).map shape := by
      apply forest_map_congr
      intro v hv
      obtain ⟨t, ht, hv⟩ := mem_forestValues_iff.mp hv
      obtain ⟨r, hr, rfl⟩ := List.mem_map.mp ht
      obtain ⟨hr, hroot⟩ := List.mem_filter.mp hr
      rw [Bool.and_eq_true, beq_iff_eq] at hroot
      rw [relocate, ← hroot.2, ← h.values _ r hr v hv]
    exact hsame ▸ ForestIso.refl _

theorem sameContent_iff (hi : Invariant Nests db) {env₀ : Environment} {db' : Database}
    (hrow : d ∈ db'.drafts.apis.rows)
    (hreq : ∀ l, ForestIso ((organizeReqParams (db'.drafts.requestParamsOf d.id) l).map shape)
      (movedRequests (env₀.fetch (db.drafts.requestParamsOf d.id)) l))
    (hresp : ∀ c, ForestIso ((organizeRespParams (db'.drafts.responseParamsOf d.id) c).map shape)
      ((organizeRespParams (env₀.fetch (db.drafts.responseParamsOf d.id)) c).map shape)) :
    SameContent d db db' ↔
      Inherited RequestFields.location (db.drafts.requestParamsOf d.id) := by
  obtain ⟨hl, hn⟩ := fetched_linked hi.drafts.request_linked env₀ d.id
  have hp := env₀.fetch_perm (db.drafts.requestParamsOf d.id)
  have hq := env₀.fetch_perm (db.drafts.responseParamsOf d.id)
  have fetched : Inherited RequestFields.location
      (env₀.fetch (db.drafts.requestParamsOf d.id)) ↔
        Inherited RequestFields.location (db.drafts.requestParamsOf d.id) := by
    simp only [Inherited, env₀.mem_fetch]
  have old : ∀ l, ForestIso
      ((organizeReqParams (env₀.fetch (db.drafts.requestParamsOf d.id)) l).map shape)
      ((organizeReqParams (db.drafts.requestParamsOf d.id) l).map shape) :=
    fun l => growForest_perm hp (hp.filter _)
  have moved : (∀ l, ForestIso (movedRequests (env₀.fetch (db.drafts.requestParamsOf d.id)) l)
      ((organizeReqParams (env₀.fetch (db.drafts.requestParamsOf d.id)) l).map shape)) ↔
        Inherited RequestFields.location (env₀.fetch (db.drafts.requestParamsOf d.id)) :=
    movedRequests_iff hl hn
  rw [← fetched, ← moved]
  constructor
  · intro h l
    exact (hreq l).symm.trans ((h.requests l).trans (old l).symm)
  · intro h
    exact ⟨hrow, fun l => (hreq l).trans ((h l).trans (old l)),
      fun c => (hresp c).trans (growForest_perm hq (hq.filter _))⟩

/-- Saving a draft unedited leaves it as it was exactly if every request param is at the
location of its parent. -/
theorem unedited_save_iff (hreach : Reachable db) (hw : WorkRight db iterationId userId i)
    (hd : d ∈ db.drafts.apisOf iterationId) (hsavable : Savable db.drafts d.id)
    {env₀ : Environment} {reply : Reply ApiDetail}
    (hread : apiGetApiById env₀ d.id userId false db = .ok reply) {statusCodes : List ℤ}
    (hkeys : KeysOf reply.data statusCodes) {env : Environment}
    (hbind : BindsBack env db.drafts d.id) :
    ∃ db' r, saveUnedited env iterationId userId d statusCodes reply.data db = .ok (db', r) ∧
      (SameContent d db db' ↔
        Inherited RequestFields.location (db.drafts.requestParamsOf d.id)) := by
  have hi := reachable_invariant hreach
  obtain ⟨reply', hreply, hdata⟩ := readable_of_workRight hi hw hd env₀
  have hsame : reply' = reply := Except.ok.inj (hreply.symm.trans hread)
  subst hsame
  rw [hdata] at hkeys ⊢
  obtain ⟨db', r, h, hrow, hreq, hresp⟩ := saved_unedited hi hw hd hsavable hkeys hbind
  exact ⟨db', r, h, sameContent_iff hi hrow hreq hresp⟩

end Save

theorem plainEnvironment_bindsBack (st : ApiStore) (apiId : ℕ) :
    BindsBack plainEnvironment st apiId := by
  refine ⟨rfl, rfl, fun _ => rfl, fun _ _ _ _ => rfl, fun _ _ _ _ => rfl, ?_⟩
  intro r _
  simp [plainEnvironment]

theorem misplaced_right : WorkRight misplaced 2 1 IterationCopies.secondIteration :=
  ⟨by decide +kernel, rfl, rfl, publishedService, by decide +kernel, rfl, Or.inl rfl⟩

theorem misplaced_responses : misplaced.drafts.responseParamsOf 2 = [] := by decide +kernel

theorem misplaced_savable : Savable misplaced.drafts 2 := by
  constructor
  · decide +kernel
  · rw [misplaced_responses]
    intro r hr
    cases hr

theorem misplaced_keys {d : ApiDraft} (hid : d.id = 2) :
    KeysOf (apiDetail plainEnvironment misplaced misplaced.drafts d) [] := by
  refine ⟨List.nodup_nil, ?_⟩
  intro c
  have hnone : (apiDetail plainEnvironment misplaced misplaced.drafts d).responseParamsByStatusCode
      c = [] := by
    show organizeRespParams (misplaced.drafts.responseParamsOf d.id) c = []
    rw [hid, misplaced_responses]
    rfl
  simp [hnone]

theorem misplaced_not_inherited :
    ¬ Inherited RequestFields.location (misplaced.drafts.requestParamsOf 2) := by
  unfold Inherited
  decide +kernel

/-- The child asked for the query below an object without location; saving puts it into the
body. -/
theorem unedited_save_moves_params :
    ¬ ∀ (db : Database) (iterationId userId : ℕ) (i : ServiceIteration) (d : ApiDraft)
        (env₀ env : Environment) (reply : Reply ApiDetail) (statusCodes : List ℤ),
      Reachable db → WorkRight db iterationId userId i → d ∈ db.drafts.apisOf iterationId →
      Savable db.drafts d.id → apiGetApiById env₀ d.id userId false db = .ok reply →
      KeysOf reply.data statusCodes → BindsBack env db.drafts d.id →
      ∃ db' r, saveUnedited env iterationId userId d statusCodes reply.data db = .ok (db', r) ∧
        SameContent d db db' := by
  intro h
  have hreach : Reachable misplaced := opened_reachable.play _
  have hi := reachable_invariant hreach
  obtain ⟨d, hd, hid⟩ : ∃ d ∈ misplaced.drafts.apisOf 2, d.id = 2 := by decide +kernel
  obtain ⟨reply, hread, hdata⟩ := readable_of_workRight hi misplaced_right hd plainEnvironment
  have hsavable : Savable misplaced.drafts d.id := hid ▸ misplaced_savable
  have hkeys := misplaced_keys hid
  obtain ⟨db', r, hsave, hsame⟩ := h misplaced 2 1 _ d plainEnvironment plainEnvironment reply []
    hreach misplaced_right hd hsavable hread (hdata ▸ hkeys) (plainEnvironment_bindsBack _ _)
  obtain ⟨db'', r', hsave', hrow, hreq, hresp⟩ := saved_unedited hi misplaced_right hd hsavable
    hkeys (plainEnvironment_bindsBack _ _)
  rw [hdata, hsave'] at hsave
  cases hsave
  have hinherited := (sameContent_iff hi hrow hreq hresp).mp hsame
  rw [hid] at hinherited
  exact misplaced_not_inherited hinherited

theorem unedited_save_of_misplaced :
    ∃ d reply db' r, apiGetApiById plainEnvironment d.id 1 false misplaced = .ok reply ∧
      saveUnedited plainEnvironment 2 1 d [] reply.data misplaced = .ok (db', r) ∧
      (SameContent d misplaced db' ↔
        Inherited RequestFields.location (misplaced.drafts.requestParamsOf d.id)) := by
  have hreach : Reachable misplaced := opened_reachable.play _
  obtain ⟨d, hd, hid⟩ : ∃ d ∈ misplaced.drafts.apisOf 2, d.id = 2 := by decide +kernel
  obtain ⟨reply, hread, hdata⟩ := readable_of_workRight (reachable_invariant hreach)
    misplaced_right hd plainEnvironment
  obtain ⟨db', r, h⟩ := unedited_save_iff hreach misplaced_right hd (hid ▸ misplaced_savable) hread
    (hdata ▸ misplaced_keys hid) (plainEnvironment_bindsBack _ _)
  exact ⟨d, reply, db', r, hread, h⟩

end DraftEditor
