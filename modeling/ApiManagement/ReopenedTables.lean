import ApiManagement.TypedTables

/-! # An editor that is opened again

The editor shows the detail of a draft in its tables. What was saved from the tables is shown by
them again, whatever was requested since, as long as nobody edited the draft. -/
namespace ReopenedTables

open TransactionRuns ParentLinkedRows RowForests PythonRuntime ServiceSchema ApiStores
  ApiOperations OperationRuns OperationEffects StateInvariant CodeGenerator DraftEditor ParamTables
  ParamEncoding ParamRoundTrip ConcurrentIterations UnorderedCode DeliveredParams TypedTables

section Rows

variable {F : Type} (columns : LinkedRow F → Members)

def rowWith (id : RowId) (entry : ItemEntry) : List Row → Row
  | [] => .leaf id entry
  | row :: rows => .branch id entry (row :: rows)

mutual

def shownRow : RoseTree (LinkedRow F) → Row
  | .node r ts => rowWith (.stored r.id) (itemEntry (columns r)) (shownRows ts)

def shownRows : List (RoseTree (LinkedRow F)) → List Row
  | [] => []
  | t :: ts => shownRow t :: shownRows ts

end

end Rows

/-- `form.setFieldsValue(apiDetail)`, with the status codes in the order of the reply. -/
def formOf (detail : ApiDetail) (statusCodes : List ℤ) (hn : statusCodes.Nodup) : Form where
  brief :=
    { name := detail.api.fields.name.val
      method := httpMethodValue detail.api.fields.method
      path := detail.api.fields.path.val
      description := detail.api.fields.description
      level := some (apiLevelValue detail.api.fields.level) }
  request location := shownRows requestColumns (detail.requestParamsByLocation location)
  response := statusCodes.map (fun c =>
    (toString c, shownRows responseColumns (detail.responseParamsByStatusCode c)))
  distinct := by
    rw [List.map_map]
    exact hn.map ScriptStrings.toString_injective

section Unedited

variable {F : Type} {columns : LinkedRow F → Members}

theorem itemEntry_shown (kvs : Members) (xs : List JsonValue) :
    itemEntry (kvs ++ listMember "children_params" xs) = itemEntry kvs := by
  cases xs <;> simp [listMember, itemEntry, List.lookup_append, List.lookup_cons]

theorem toItem_rowWith (id : RowId) (entry : ItemEntry) (rows : List Row) :
    (rowWith id entry rows).toItem =
      if rows = [] then .leaf entry else .branch entry (Row.toItems rows) := by
  cases rows <;> rfl

mutual

/-- The rows are the items that the detail is read as. -/
theorem toItem_shownRow (hc : ∀ r, "children" ∉ (columns r).map Prod.fst ∧
    "children_params" ∉ (columns r).map Prod.fst) :
    ∀ t : RoseTree (LinkedRow F), (shownRow columns t).toItem = itemOf (paramToJson columns t)
  | .node r ts => by
    have hnone : nestedIn "children" (columns r ++
        listMember "children_params" (paramsToJson columns ts)) = none := by
      rw [nestedIn_append (hc r).1]
      exact nestedIn_listMember_other (by decide) _
    rw [shownRow, toItem_rowWith, toItems_shownRows hc ts, paramToJson, itemOf, hnone,
      Option.none_or, nestedIn_append (hc r).2, nestedIn_listMember, itemEntry_shown]
    cases ts <;> rfl

theorem toItems_shownRows (hc : ∀ r, "children" ∉ (columns r).map Prod.fst ∧
    "children_params" ∉ (columns r).map Prod.fst) :
    ∀ ts : List (RoseTree (LinkedRow F)),
      Row.toItems (shownRows columns ts) = itemsOf (paramsToJson columns ts)
  | [] => rfl
  | t :: ts => by
    rw [shownRows, Row.toItems, toItem_shownRow hc t, toItems_shownRows hc ts, paramsToJson,
      itemsOf]

end

variable {detail : ApiDetail} {statusCodes : List ℤ}

/-- The tables of a detail, with the status codes that their keys are read as. -/
theorem readKeys_formOf (detail : ApiDetail) {tables : List (String × List Row)}
    (h : ∀ table ∈ tables, ∃ c : ℤ,
      (toString c, shownRows responseColumns (detail.responseParamsByStatusCode c)) = table) :
    tables.map (fun table => (ScriptStrings.parseInt table.1, Row.toItems table.2)) =
      ((tables.filterMap (fun table => ScriptStrings.parseInt table.1)).map (fun c =>
        (c, itemsOf (paramsToJson responseColumns
          (detail.responseParamsByStatusCode c))))).map (fun e => (some e.1, e.2)) := by
  induction tables with
  | nil => rfl
  | cons table tables ih =>
    obtain ⟨c, rfl⟩ := h table List.mem_cons_self
    have hparse := ScriptStrings.parseInt_toString c
    rw [List.map_cons, ih (fun table ht => h table (List.mem_cons_of_mem _ ht)),
      List.filterMap_cons]
    simp only [hparse, List.map_cons, toItems_shownRows (plainKeys_response 0).columns]

/-- An editor in which nothing was edited submits what it was opened with. -/
theorem unedited_params (hkeys : KeysOf detail statusCodes) :
    .arr (formOf detail statusCodes hkeys.nodup).reqParams = savedReqParams detail ∧
    ∃ codes, KeysOf detail codes ∧
      .arr (formOf detail statusCodes hkeys.nodup).respParams = savedRespParams codes detail := by
  have hreq := toItems_shownRows (plainKeys_request "").columns
  constructor
  · rw [savedReqParams, Form.reqParams]
    simp only [formOf, hreq]
  · have horder := ScriptObjects.objectOrder_perm
      (formOf detail statusCodes hkeys.nodup).response
    have hcodes : ((ScriptObjects.objectOrder (formOf detail statusCodes
        hkeys.nodup).response).filterMap (fun table => ScriptStrings.parseInt table.1)).Perm
          statusCodes := by
      refine (horder.filterMap _).trans (List.Perm.of_eq ?_)
      rw [formOf, List.filterMap_map]
      show statusCodes.filterMap (fun c => ScriptStrings.parseInt (toString c)) = statusCodes
      simp only [ScriptStrings.parseInt_toString, List.filterMap_some]
    refine ⟨_, ⟨hcodes.nodup_iff.mpr hkeys.nodup, ?_⟩, ?_⟩
    · intro c
      rw [hcodes.mem_iff]
      exact hkeys.mem_iff c
    · rw [savedRespParams, respParams_of_numbers]
      apply readKeys_formOf
      intro table htable
      obtain ⟨c, _, hc⟩ := List.mem_map.mp (horder.mem_iff.mp htable)
      exact ⟨c, hc⟩

end Unedited

section Values

variable {n : ℕ} {member : Option JsonValue}

theorem freeTextIn_eq {s : String} (h : freeTextIn member = some (some s)) :
    member = some (.str s) ∧ storable s = true := by
  cases member with
  | none => cases h
  | some v =>
    cases v with
    | str t =>
      by_cases ht : storable t = true
      · rw [freeTextIn, if_pos ht] at h
        cases h
        exact ⟨rfl, ht⟩
      · rw [freeTextIn, if_neg ht] at h
        cases h
    | _ => cases h

theorem textIn_eq {v : VarChar n} (h : textIn n member = some (some v)) :
    member = some (.str v.val) ∧ storable v.val = true := by
  unfold textIn at h
  split at h
  · cases h
  · cases h
  · rename_i s hs
    obtain ⟨w, hw, hwv⟩ := Option.map_eq_some_iff.mp h
    cases hwv
    rw [VarChar.ofString_eq_some.mp hw]
    exact freeTextIn_eq hs

theorem freeTextIn_orNull {v : Option String} (h : ∀ s, v = some s → storable s = true) :
    freeTextIn (some (orNull .str v)) = some v := by
  cases v with
  | none => rfl
  | some s => exact if_pos (h s rfl)

theorem textIn_val {v : VarChar n} (h : storable v.val = true) :
    textIn n (some (.str v.val)) = some (some v) := by
  have hfree : freeTextIn (some (.str v.val)) = some (some v.val) := if_pos h
  rw [textIn, hfree]
  show (VarChar.ofString n v.val).map some = _
  rw [VarChar.ofString_eq_some.mpr rfl, Option.map_some]

theorem textIn_orNull {v : Option (VarChar n)} (h : ∀ w, v = some w → storable w.val = true) :
    textIn n (some (orNull (fun w => .str w.val) v)) = some v := by
  cases v with
  | none => rfl
  | some w => exact textIn_val (h w rfl)

theorem flagIn_orNull (v : Option Bool) : flagIn (some (orNull .bool v)) = some v := by
  cases v <;> rfl

theorem childTypeIn_orNull (t : Option ParamType) :
    childTypeIn (some (orNull (fun t => .str (paramTypeValue t)) t)) = some t := by
  cases t with
  | none => rfl
  | some t =>
    show (ParamType.ofValue (.str (paramTypeValue t))).map some = _
    rw [type_ofValue, Option.map_some]

/-- An empty text was turned into null. -/
theorem nonempty_of_orElseNull {v : VarChar n}
    (h : textIn n (orElseNull member) = some (some v)) : v.val ≠ "" := by
  intro hempty
  have hstr := (textIn_eq h).1
  by_cases htruthy : member.any truthyInJs = true
  · rw [orElseNull, if_pos htruthy, hempty] at hstr
    rw [hstr] at htruthy
    cases htruthy
  · rw [orElseNull, if_neg htruthy] at hstr
    cases hstr

end Values

/-- What was stored of a param can be read again from the detail: its texts can be stored, and its
default value is not empty. -/
structure RequestAgain (location : ParamLocation) (f : RequestFields) : Prop where
  location : f.location = location
  name : storable f.name.val = true
  defaultValue : ∀ v, f.defaultValue = some v → storable v.val = true ∧ v.val ≠ ""
  description : ∀ s, f.description = some s → storable s = true
  example' : ∀ v, f.example' = some v → storable v.val = true

theorem requestAgain_of_row {location : ParamLocation} {item : ItemEntry} {f : RequestFields}
    (h : requestRow location item = some f) : RequestAgain location f := by
  simp only [requestRow, requestNode, requestEntry, Option.bind_eq_bind,
    Option.bind_eq_some_iff] at h
  obtain ⟨name, hname, type, _, required, _, defaultValue, hdef, description, hdesc, example', hex,
    child, _, hf⟩ := h
  cases hf
  refine ⟨rfl, (textIn_eq (Option.join_eq_some_iff.mp hname)).2, ?_, ?_, ?_⟩
  · rintro v rfl
    exact ⟨(textIn_eq hdef).2, nonempty_of_orElseNull hdef⟩
  · rintro s rfl
    exact (freeTextIn_eq hdesc).2
  · rintro v rfl
    exact (textIn_eq hex).2

theorem requestRow_again {location : ParamLocation} {r : RequestParam}
    (h : RequestAgain location r.fields) :
    requestRow location (itemEntry (requestColumns r)) = some r.fields := by
  have hdef : r.fields.defaultValue.map VarChar.val ≠ some "" := by
    intro hempty
    obtain ⟨v, hv, hval⟩ := Option.map_eq_some_iff.mp hempty
    exact (h.defaultValue v hv).2 hval
  have hentry : requestEntry location (itemEntry (requestColumns r)) =
      { name := some (.str r.fields.name.val)
        type := some (.str (paramTypeValue r.fields.type))
        location := some (.str (paramLocationValue location))
        statusCode := none
        required := some (orNull .bool r.fields.required)
        defaultValue := some (orNull (fun v => .str v.val) r.fields.defaultValue)
        description := some (orNull .str r.fields.description)
        example' := some (orNull (fun v => .str v.val) r.fields.example')
        arrayChildType :=
          some (orNull (fun t => .str (paramTypeValue t)) r.fields.arrayChildType) } := by
    simp [requestEntry, itemEntry, requestColumns, List.lookup_cons, orElseNull_type,
      orElseNull_text hdef]
  rw [requestRow, hentry, requestNode]
  simp only [Option.bind_eq_bind, Option.bind_some, type_ofValue, textIn_val h.name,
    Option.join_some, flagIn_orNull, childTypeIn_orNull, freeTextIn_orNull h.description,
    textIn_orNull h.example', textIn_orNull (fun v hv => (h.defaultValue v hv).1)]
  rw [← h.location]
  rfl

structure ResponseAgain (f : ResponseFields) : Prop where
  code : isInteger32 f.statusCode = true
  name : storable f.name.val = true
  description : ∀ s, f.description = some s → storable s = true
  example' : ∀ v, f.example' = some v → storable v.val = true

theorem responseAgain_of_row {statusCode : Option ℤ} {item : ItemEntry} {f : ResponseFields}
    (h : responseRow statusCode item = some f) : ResponseAgain f := by
  rw [responseRow_eq] at h
  obtain ⟨c, hc, h⟩ := Option.bind_eq_some_iff.mp h
  simp only [responseNode, responseEntry, Option.bind_eq_bind, Option.bind_eq_some_iff] at h
  obtain ⟨code, _, name, hname, type, _, required, _, description, hdesc, example', hex, child, _,
    hf⟩ := h
  split at hf
  · rename_i hcode
    cases hf
    refine ⟨hcode ▸ (Option.filter_eq_some_iff.mp hc).2,
      (textIn_eq (Option.join_eq_some_iff.mp hname)).2, ?_, ?_⟩
    · rintro s rfl
      exact (freeTextIn_eq hdesc).2
    · rintro v rfl
      exact (textIn_eq hex).2
  · cases hf

theorem responseRow_again {r : ResponseParam} (h : ResponseAgain r.fields) :
    responseRow (some r.fields.statusCode) (itemEntry (responseColumns r)) = some r.fields := by
  have hentry : responseEntry (some r.fields.statusCode) (itemEntry (responseColumns r)) =
      { name := some (.str r.fields.name.val)
        type := some (.str (paramTypeValue r.fields.type))
        location := none
        statusCode := some (.num r.fields.statusCode)
        required := some (orNull .bool r.fields.required)
        defaultValue := none
        description := some (orNull .str r.fields.description)
        example' := some (orNull (fun v => .str v.val) r.fields.example')
        arrayChildType :=
          some (orNull (fun t => .str (paramTypeValue t)) r.fields.arrayChildType) } := by
    simp [responseEntry, itemEntry, responseColumns, List.lookup_cons, orElseNull_type]
    rfl
  rw [responseRow, Option.bind_some, hentry, responseNode]
  simp only [Option.bind_eq_bind, Option.bind_some, statusCodeIn_num, if_pos h.code, type_ofValue,
    textIn_val h.name, Option.join_some, flagIn_orNull, childTypeIn_orNull,
    freeTextIn_orNull h.description, textIn_orNull h.example']
  rfl

section Trees

variable {F : Type} [ParamFields F] {p : F → Prop} {read : ItemEntry → Option F}

mutual

/-- Every param has the property, and only an object or an array of objects has children. -/
def Proper (p : F → Prop) : RoseTree F → Prop
  | .node f ts => p f ∧ (mayHaveChildren f = true ∨ ts = []) ∧ ProperAll p ts

def ProperAll (p : F → Prop) : List (RoseTree F) → Prop
  | [] => True
  | t :: ts => Proper p t ∧ ProperAll p ts

end

mutual

theorem proper_of_row (hp : ∀ item f, read item = some f → p f) :
    ∀ (row : Row) {t : RoseTree F}, rowTree read row = some t → Proper p t
  | .leaf id entry, _, h => by
    simp only [rowTree, Option.bind_eq_bind, Option.bind_eq_some_iff] at h
    obtain ⟨f, hf, h⟩ := h
    cases h
    exact ⟨hp _ _ hf, Or.inr rfl, trivial⟩
  | .branch id entry childrenParams, _, h => by
    simp only [rowTree, Option.bind_eq_bind, Option.bind_eq_some_iff] at h
    obtain ⟨f, hf, ts, hts, h⟩ := h
    split at h
    · rename_i hmay
      cases h
      refine ⟨hp _ _ hf, ?_, proper_of_rows hp childrenParams hts⟩
      rw [Bool.or_eq_true, List.isEmpty_iff] at hmay
      refine hmay.imp_right ?_
      rintro rfl
      cases hts
      rfl
    · cases h

theorem proper_of_rows (hp : ∀ item f, read item = some f → p f) :
    ∀ (rows : List Row) {ts : List (RoseTree F)}, rowTrees read rows = some ts → ProperAll p ts
  | [], _, h => by
    cases h
    trivial
  | row :: rows, _, h => by
    simp only [rowTrees, Option.bind_eq_bind, Option.bind_eq_some_iff] at h
    obtain ⟨t, ht, ts, hts, h⟩ := h
    cases h
    exact ⟨proper_of_row hp row ht, proper_of_rows hp rows hts⟩

end

theorem properAll_iff {ts : List (RoseTree F)} : ProperAll p ts ↔ ∀ t ∈ ts, Proper p t := by
  induction ts with
  | nil => exact iff_of_true trivial (fun _ h => nomatch h)
  | cons t ts ih => rw [ProperAll, ih, List.forall_mem_cons]

/-- The order of siblings does not matter. -/
theorem proper_iso {ts us : List (RoseTree F)} (h : ForestIso ts us) :
    ProperAll p ts ↔ ProperAll p us := by
  induction h with
  | nil => rfl
  | @cons cs ds as bs a hcs _ ihcs ihas =>
    have hnil : cs = [] ↔ ds = [] := by
      rw [← List.isEmpty_iff, ← List.isEmpty_iff, isEmpty_iso hcs]
    rw [ProperAll, ProperAll, Proper, Proper, ihcs, ihas, hnil]
  | swap t u ts => exact and_left_comm
  | trans _ _ ih₁ ih₂ => exact ih₁.trans ih₂

variable {columns : LinkedRow F → Members}

theorem rowTree_rowWith (id : RowId) (entry : ItemEntry) (rows : List Row) :
    rowTree read (rowWith id entry rows) = (read entry).bind (fun f =>
      (rowTrees read rows).bind (fun ts =>
        if mayHaveChildren f || rows.isEmpty then some (.node f ts) else none)) := by
  cases rows with
  | nil => simp [rowWith, rowTree, rowTrees]
  | cons row rows => rfl

mutual

/-- A detail with proper params is shown by tables that say them. -/
theorem rowTree_shown (hread : ∀ r : LinkedRow F, p r.fields →
    read (itemEntry (columns r)) = some r.fields) :
    ∀ t : RoseTree (LinkedRow F), Proper p (shape t) →
      rowTree read (shownRow columns t) = some (shape t)
  | .node r ts, h => by
    rw [shape, RoseTree.map_node] at h ⊢
    obtain ⟨hr, hmay, hts⟩ := h
    have hrows := rowTrees_shown hread ts hts
    have hempty : (shownRows columns ts).isEmpty = ts.isEmpty := by cases ts <;> rfl
    rw [shownRow, rowTree_rowWith, hread r hr, Option.bind_some, hrows, Option.bind_some, if_pos]
    · rfl
    · rw [hempty, Bool.or_eq_true, List.isEmpty_iff]
      exact hmay.imp_right List.map_eq_nil_iff.mp

theorem rowTrees_shown (hread : ∀ r : LinkedRow F, p r.fields →
    read (itemEntry (columns r)) = some r.fields) :
    ∀ ts : List (RoseTree (LinkedRow F)), ProperAll p (ts.map shape) →
      rowTrees read (shownRows columns ts) = some (ts.map shape)
  | [], _ => rfl
  | t :: ts, h => by
    rw [List.map_cons] at h ⊢
    rw [shownRows, rowTrees, rowTree_shown hread t h.1, rowTrees_shown hread ts h.2]
    rfl

end

end Trees

def keyedResponses (detail : ApiDetail) (key : String) : List (RoseTree ResponseFields) :=
  (ScriptStrings.parseInt key).elim [] (fun c =>
    (detail.responseParamsByStatusCode c).map shape)

def shownRequests (detail : ApiDetail) (location : ParamLocation) :
    List (RoseTree RequestFields) := (detail.requestParamsByLocation location).map shape

section Detail

variable {detail : ApiDetail} {statusCodes : List ℤ}

theorem tells_formOf (hn : statusCodes.Nodup)
    (hreq : ∀ location, ProperAll (RequestAgain location) (shownRequests detail location))
    (hresp : ∀ c, ProperAll (fun f => f.statusCode = c ∧ ResponseAgain f)
      ((detail.responseParamsByStatusCode c).map shape)) :
    Tells (formOf detail statusCodes hn) (shownRequests detail) (keyedResponses detail) := by
  constructor
  · intro location
    exact rowTrees_shown (fun r hr => requestRow_again hr) _ (hreq location)
  · intro table htable
    obtain ⟨c, _, rfl⟩ := List.mem_map.mp htable
    rw [keyedResponses, ScriptStrings.parseInt_toString, Option.elim_some]
    refine rowTrees_shown ?_ _ (hresp c)
    rintro r ⟨rfl, hr⟩
    exact responseRow_again hr

theorem responseParams_formOf (hkeys : KeysOf detail statusCodes) (c : ℤ) :
    (shownApi (formOf detail statusCodes hkeys.nodup) (shownRequests detail)
      (keyedResponses detail)).responseParams c =
        (detail.responseParamsByStatusCode c).map shape := by
  show ((statusCodes.map _).filter _).flatMap _ = _
  rw [List.filter_map, List.flatMap_map]
  have hfilter : statusCodes.filter ((fun table : String × List Row =>
      ScriptStrings.parseInt table.1 == some c) ∘ fun d =>
        (toString d, shownRows responseColumns (detail.responseParamsByStatusCode d))) =
      statusCodes.filter (fun d => d == c) := by
    apply List.filter_congr
    intro d _
    show (ScriptStrings.parseInt (toString d) == some c) = (d == c)
    rw [ScriptStrings.parseInt_toString]
    rfl
  rw [hfilter, List.filter_beq]
  by_cases hc : c ∈ statusCodes
  · rw [List.count_eq_one_of_mem hkeys.nodup hc, List.replicate_one, List.flatMap_singleton,
      keyedResponses, ScriptStrings.parseInt_toString, Option.elim_some]
  · rw [List.count_eq_zero_of_not_mem hc, not_not.mp (fun h => hc ((hkeys.mem_iff c).mpr h))]
    rfl

end Detail

section Reopened

variable {text : Option JsonValue → String} {valid : Bool} {s : Editor} {payload : Payload}
  {reqs : ParamLocation → List (RoseTree RequestFields)}
  {resps : String → List (RoseTree ResponseFields)}

theorem proper_responses (htells : Tells s.form reqs resps) (c : ℤ) :
    ProperAll (fun f => f.statusCode = c ∧ ResponseAgain f)
      ((shownApi s.form reqs resps).responseParams c) := by
  rw [properAll_iff]
  intro t ht
  obtain ⟨table, htable, ht⟩ := List.mem_flatMap.mp ht
  obtain ⟨htable, hparse⟩ := List.mem_filter.mp htable
  have hproper := proper_of_rows (p := fun f => f.statusCode = c ∧ ResponseAgain f) ?_ _
    (htells.responses table htable)
  · exact properAll_iff.mp hproper t ht
  · intro item f hf
    rw [beq_iff_eq] at hparse
    refine ⟨?_, responseAgain_of_row hf⟩
    exact Option.some.inj ((responseRow_code hf).symm.trans hparse)

/-- A detail that shows the api of some tables, up to the order of params. -/
theorem shown_again (htells : Tells s.form reqs resps) {edit : Edit} {st : ApiStore} {d : ApiDraft}
    {ts : List (RoseTree RequestFields)} {us : List (RoseTree ResponseFields)}
    (hholds : Holds edit ts us st d)
    (hsame : SameFetched (edit.described ts us) (shownApi s.form reqs resps))
    (env : Environment) (db : Database) {statusCodes : List ℤ}
    (hkeys : KeysOf (apiDetail env db st d) statusCodes) : ∃ reqs' resps',
    Tells (formOf (apiDetail env db st d) statusCodes hkeys.nodup) reqs' resps' ∧
    SameFetched (shownApi (formOf (apiDetail env db st d) statusCodes hkeys.nodup) reqs' resps')
      (shownApi s.form reqs resps) := by
  have hshows := hholds.forests.shows env db
  have hreq : ∀ location, ForestIso (shownRequests (apiDetail env db st d) location)
      (reqs location) :=
    fun location => (hshows.requests location).trans (hsame.requests location)
  have hresp : ∀ c, ForestIso
      (((apiDetail env db st d).responseParamsByStatusCode c).map shape)
      ((shownApi s.form reqs resps).responseParams c) :=
    fun c => (hshows.responses c).trans (hsame.responses c)
  refine ⟨_, _, tells_formOf hkeys.nodup ?_ ?_, ?_⟩
  · intro location
    exact (proper_iso (hreq location)).mpr
      (proper_of_rows (fun _ _ => requestAgain_of_row) _ (htells.requests location))
  · intro c
    exact (proper_iso (hresp c)).mpr (proper_responses htells c)
  · refine ⟨hholds.name.trans hsame.name, ?_, hholds.path.trans hsame.path,
      hholds.description.trans hsame.description, hreq, ?_, ?_⟩
    · show (HttpMethod.ofValue (httpMethodValue d.fields.method)).getD .get = _
      rw [method_ofValue, Option.getD_some, hholds.method]
      exact hsame.method
    · intro c
      rw [responseParams_formOf hkeys]
      exact hresp c
    · intro c hc
      refine iff_of_true (mem_shownCodes ?_) (mem_shownCodes hc)
      rw [responseParams_formOf hkeys]
      exact ne_nil_iso (hresp c) hc

/-- Whatever is requested in between, but for edits of the draft: who may work on the iteration
and opens the draft sees tables that say what the saved ones said. -/
theorem reopened_tables_say_the_same {env : Environment} (hdriver : FaithfulDriver env)
    {db₀ db₁ db : Database} (hreach : Reachable db₀)
    (hsubmit : s.handleSubmit text valid = some payload) (htells : Tells s.form reqs resps)
    {iterationId author : ℕ} {r : Reply Unit}
    (hsave : (submitted iterationId payload).save env author db₀ = .ok (db₁, r))
    (hrun : Runs transaction
      (fun _ request => ¬ Touches iterationId s.apiDetailId request.operation) db₁ db)
    {userId : ℕ} {i : ServiceIteration} (hw : WorkRight db iterationId userId i)
    (env' : Environment) :
    ∃ reply, apiGetApiById env' s.apiDetailId userId false db = .ok reply ∧
      ∀ (statusCodes : List ℤ) (hkeys : KeysOf reply.data statusCodes), ∃ reqs' resps',
        Tells (formOf reply.data statusCodes hkeys.nodup) reqs' resps' ∧
        SameFetched (shownApi (formOf reply.data statusCodes hkeys.nodup) reqs' resps')
          (shownApi s.form reqs resps) := by
  obtain ⟨hreq, hresp⟩ := forests_submitted hsubmit htells iterationId
  obtain ⟨hi, ⟨k, hk⟩, d, hd, hdid, hholds⟩ :=
    holds_of_save hdriver (reachable_invariant hreach) hsave hreq hresp
  have hdid : d.id = s.apiDetailId := hdid.trans (handleSubmit_brief hsubmit).1
  have hopened := opened_of_right hi hk
  have hrun : Runs transaction (fun _ request => ¬ Touches iterationId d.id request.operation)
      db₁ db := hdid ▸ hrun
  obtain ⟨b, hb, hbid, hbc, hholds⟩ := hholds.kept (draft_kept_run hopened hd hrun)
  have hb : b ∈ db.drafts.apisOf iterationId :=
    ApiStore.mem_apisOf.mpr ⟨hb, hbc.trans (ApiStore.mem_apisOf.mp hd).2⟩
  obtain ⟨reply, hreply, hdata⟩ :=
    readable_of_workRight (opened_run hopened hrun).invariant hw hb env'
  rw [hbid, hdid] at hreply
  refine ⟨reply, hreply, ?_⟩
  rw [hdata]
  intro statusCodes hkeys
  exact shown_again htells hholds (described_shown hsubmit htells iterationId) env' db hkeys

end Reopened

def worked : Database := play saved [.apiAddApi 2 1 "pay" "POST" "/pay" none "P2" none]

theorem worked_run :
    Runs transaction (fun _ request => ¬ Touches 2 2 request.operation) saved worked := by
  refine runs_play (.refl saved) _ ?_
  intro operation ho _
  rw [List.mem_singleton.mp ho]
  exact not_false

theorem worked_right : WorkRight worked 2 1 ordersIteration :=
  ⟨by decide +kernel, rfl, rfl, publishedService, by decide +kernel, rfl, Or.inl rfl⟩

theorem order_tables_reopened : ∃ reqs resps, Tells ordersForm reqs resps ∧
    ∃ reply statusCodes, ∃ hkeys : KeysOf reply.data statusCodes,
      apiGetApiById plainEnvironment 2 1 false worked = .ok reply ∧
      ∃ reqs' resps', Tells (formOf reply.data statusCodes hkeys.nodup) reqs' resps' ∧
        SameFetched (shownApi (formOf reply.data statusCodes hkeys.nodup) reqs' resps')
          (shownApi ordersForm reqs resps) := by
  obtain ⟨reqs, resps, htells⟩ := orders_said
  obtain ⟨_, hsave⟩ := orders_saved
  obtain ⟨d, hd, hid⟩ : ∃ d ∈ worked.drafts.apisOf 2, d.id = 2 := by decide +kernel
  have hi := reachable_invariant ((opened_reachable.play _).play _ : Reachable worked)
  obtain ⟨reply, hreply, hdata⟩ := readable_of_workRight hi worked_right hd plainEnvironment
  obtain ⟨reply', hreply', hall⟩ := reopened_tables_say_the_same plainEnvironment_faithful
    opened_reachable orders_submitted htells hsave worked_run worked_right plainEnvironment
  have hsame : reply' = reply := by
    rw [hid] at hreply
    exact Except.ok.inj (hreply'.symm.trans hreply)
  subst hsame
  have hkeys : KeysOf reply'.data (fetchedApi plainEnvironment worked.drafts d).statusCodes := by
    rw [hdata]
    exact ⟨List.nodup_dedup _, (fetches_detail plainEnvironment worked worked.drafts d).codes⟩
  exact ⟨reqs, resps, htells, reply', _, hkeys, hreply', hall _ hkeys⟩

end ReopenedTables
