import ApiManagement.ParamEncoding

/-! # Params written and read back

What a payload spells is defined here without the code: a forest of typed params, or nothing
if the payload is not well formed. An update with such a payload and a reading afterwards
give the forest back, grouped by location or status code. -/
namespace ParamRoundTrip

open TransactionRuns KeyedTables ParentLinkedRows RowForests PythonRuntime ServiceSchema ApiStores
  ApiOperations OperationRuns OperationEffects StateInvariant ParamEncoding

def storable (s : String) : Bool := !s.toList.contains (Char.ofNat 0)

def isInteger32 (n : ℤ) : Bool := -2147483648 ≤ n && n < 2147483648

def freeTextIn : Option JsonValue → Option (Option String)
  | none => some none
  | some .null => some none
  | some (.str s) => if storable s then some (some s) else none
  | some _ => none

def textIn (n : ℕ) (member : Option JsonValue) : Option (Option (VarChar n)) :=
  match freeTextIn member with
  | none => none
  | some none => some none
  | some (some s) => (VarChar.ofString n s).map some

def flagIn : Option JsonValue → Option (Option Bool)
  | none => some (some false)
  | some .null => some none
  | some (.bool b) => some (some b)
  | some _ => none

/-- A missing status code is 200. -/
def statusCodeIn : Option JsonValue → Option ℤ
  | none => some 200
  | some (.num q) => if q.den = 1 && isInteger32 q.num then some q.num else none
  | some _ => none

def childTypeIn : Option JsonValue → Option (Option ParamType)
  | none => some none
  | some .null => some none
  | some v => (ParamType.ofValue v).map some

/-- A param at the location of its root, whatever location it names itself: children need
none, says the description of the payload. -/
def requestNode (location : ParamLocation) (entry : ParamEntry) : Option RequestFields := do
  let name ← (textIn 64 entry.name).join
  let type ← entry.type.bind ParamType.ofValue
  let required ← flagIn entry.required
  let defaultValue ← textIn 256 entry.defaultValue
  let description ← freeTextIn entry.description
  let example' ← textIn 256 entry.example'
  let arrayChildType ← childTypeIn entry.arrayChildType
  pure ⟨name, location, type, required, defaultValue, description, example', arrayChildType⟩

def responseNode (statusCode : ℤ) (entry : ParamEntry) : Option ResponseFields := do
  let code ← statusCodeIn entry.statusCode
  let name ← (textIn 64 entry.name).join
  let type ← entry.type.bind ParamType.ofValue
  let required ← flagIn entry.required
  let description ← freeTextIn entry.description
  let example' ← textIn 256 entry.example'
  let arrayChildType ← childTypeIn entry.arrayChildType
  if code = statusCode then
    pure ⟨code, name, type, required, description, example', arrayChildType⟩
  else none

section Spell

variable {F : Type} [ParamFields F]

mutual

def treeIn (node : ParamEntry → Option F) : ParamInput → Option (RoseTree F)
  | .other => none
  | .dict entry children => do
    let f ← node entry
    let ts ← treesIn node children
    if mayHaveChildren f || children.isEmpty then pure (.node f ts) else none

def treesIn (node : ParamEntry → Option F) : List ParamInput → Option (List (RoseTree F))
  | [] => some []
  | p :: ps => do
    let t ← treeIn node p
    let ts ← treesIn node ps
    pure (t :: ts)

end

def rootsIn (reading : ParamEntry → Option (ParamEntry → Option F)) :
    List ParamInput → Option (List (RoseTree F))
  | [] => some []
  | .other :: _ => none
  | .dict entry children :: ps => do
    let node ← reading entry
    let t ← treeIn node (.dict entry children)
    let ts ← rootsIn reading ps
    pure (t :: ts)

end Spell

def requestForest (payload : JsonValue) : Option (List (RoseTree RequestFields)) :=
  rootsIn (fun entry => (entry.location.bind ParamLocation.ofValue).map requestNode)
    (paramsOf payload)

def responseForest (payload : JsonValue) : Option (List (RoseTree ResponseFields)) :=
  rootsIn (fun entry => (statusCodeIn entry.statusCode).map responseNode) (paramsOf payload)

/-- The database driver binds what a column can hold to that. -/
structure FaithfulDriver (env : Environment) : Prop where
  null_text : env.bindText .null = some none
  text : ∀ s, storable s = true → env.bindText (.str s) = some (some s)
  null_boolean : env.bindBoolean .null = some none
  boolean : ∀ b, env.bindBoolean (.bool b) = some (some b)
  integer : ∀ n : ℤ, isInteger32 n = true → env.bindInteger (.num n) = some (some n)

theorem plainEnvironment_faithful : FaithfulDriver plainEnvironment := by
  refine ⟨rfl, fun _ _ => rfl, rfl, fun _ => rfl, ?_⟩
  intro n _
  simp [plainEnvironment]

section Driver

variable {env : Environment} (hd : FaithfulDriver env)

include hd

theorem bindText_freeTextIn {member : Option JsonValue} {v : Option String}
    (h : freeTextIn member = some v) : env.bindText (member.getD .null) = some v := by
  unfold freeTextIn at h
  split at h
  · cases h
    exact hd.null_text
  · cases h
    exact hd.null_text
  · split at h
    · rename_i hs
      cases h
      exact hd.text _ hs
    · cases h
  · cases h

theorem bindVarChar_textIn {n : ℕ} {member : Option JsonValue} {v : Option (VarChar n)}
    (h : textIn n member = some v) : bindVarChar env n (member.getD .null) = .ok v := by
  unfold textIn at h
  simp only [bindVarChar, bind_eq_ok, bound_eq_ok]
  split at h
  · cases h
  · rename_i he
    cases h
    exact ⟨none, bindText_freeTextIn hd he, rfl⟩
  · rename_i s he
    obtain ⟨w, hw, rfl⟩ := Option.map_eq_some_iff.mp h
    refine ⟨some s, bindText_freeTextIn hd he, ?_⟩
    simp [hw, bound, orAbort, bind, Except.bind, pure, Except.pure]

theorem bindBoolean_flagIn {member : Option JsonValue} {v : Option Bool}
    (h : flagIn member = some v) : env.bindBoolean (member.getD (.bool false)) = some v := by
  unfold flagIn at h
  split at h
  · cases h
    exact hd.boolean false
  · cases h
    exact hd.null_boolean
  · cases h
    exact hd.boolean _
  · cases h

theorem bindInteger_statusCodeIn {member : Option JsonValue} {n : ℤ}
    (h : statusCodeIn member = some n) :
    env.bindInteger (member.getD (.num 200)) = some (some n) := by
  unfold statusCodeIn at h
  split at h
  · cases h
    exact hd.integer 200 (by decide)
  · rename_i q
    split at h
    · rename_i hq
      cases h
      rw [Bool.and_eq_true, decide_eq_true_eq] at hq
      have hcast : q = (q.num : Rat) := Rat.ext rfl hq.1
      rw [Option.getD_some]
      conv_lhs => rw [hcast]
      exact hd.integer q.num hq.2
    · cases h
  · cases h

omit hd in
theorem storedChildType_childTypeIn {entry : ParamEntry} {child : Option ParamType}
    (h : childTypeIn entry.arrayChildType = some child) : storedChildType entry = child := by
  unfold childTypeIn at h
  unfold storedChildType
  split at h
  · rename_i he
    cases h
    rw [he]
    rfl
  · rename_i he
    cases h
    rw [he]
    rfl
  · rename_i v _ he
    obtain ⟨t, ht, rfl⟩ := Option.map_eq_some_iff.mp h
    have htruthy : v.truthy = true := by
      unfold ParamType.ofValue at ht
      split at ht <;> first | rfl | cases ht
    rw [he, Option.bind_some, if_pos htruthy, ht]

theorem name_in {entry : ParamEntry} {name : VarChar 64}
    (h : (textIn 64 entry.name).join = some name) :
    ∃ v, entry.name = some v ∧ bindVarChar env 64 v = .ok (some name) := by
  cases hn : entry.name with
  | none =>
    rw [hn] at h
    cases h
  | some v =>
    refine ⟨v, rfl, ?_⟩
    rw [hn] at h
    exact bindVarChar_textIn hd (Option.join_eq_some_iff.mp h)

theorem requestNode_recorded {location : ParamLocation} {entry : ParamEntry} {raw : JsonValue}
    {f : RequestFields} (h : requestNode location entry = some f)
    (hl : storedLocation (rawLocation raw entry) = location) : Recorded env raw entry f := by
  simp only [requestNode, Option.bind_eq_bind, Option.bind_eq_some_iff] at h
  obtain ⟨name, hname, type, ⟨v, hv, htype⟩, required, hr, defaultValue, hdef, description, hdesc,
    example', hex, child, hchild, hf⟩ := h
  obtain ⟨n, hn, hbind⟩ := name_in hd hname
  refine ⟨n, v, hn, hv, ?_⟩
  have hstored : storedType v = type := by rw [storedType, htype, Option.getD_some]
  rw [hl, hstored, storedChildType_childTypeIn hchild]
  simp only [ParamModel.record, requestRecord, bind_eq_ok, bound_eq_ok, notNull_eq_ok, pure_eq_ok]
  exact ⟨some name, hbind, name, rfl, required, bindBoolean_flagIn hd hr, defaultValue,
    bindVarChar_textIn hd hdef, description, bindText_freeTextIn hd hdesc, example',
    bindVarChar_textIn hd hex, Option.some.inj hf⟩

theorem responseNode_recorded {statusCode : ℤ} {entry : ParamEntry} {raw : JsonValue}
    {f : ResponseFields} (h : responseNode statusCode entry = some f) :
    Recorded env raw entry f := by
  simp only [responseNode, Option.bind_eq_bind, Option.bind_eq_some_iff] at h
  obtain ⟨code, hcode, name, hname, type, ⟨v, hv, htype⟩, required, hr, description, hdesc,
    example', hex, child, hchild, hf⟩ := h
  obtain ⟨n, hn, hbind⟩ := name_in hd hname
  refine ⟨n, v, hn, hv, ?_⟩
  have hstored : storedType v = type := by rw [storedType, htype, Option.getD_some]
  rw [hstored, storedChildType_childTypeIn hchild]
  split at hf
  · simp only [ParamModel.record, responseRecord, bind_eq_ok, bound_eq_ok, notNull_eq_ok,
      pure_eq_ok]
    exact ⟨some code, bindInteger_statusCodeIn hd hcode, code, rfl, some name, hbind, name, rfl,
      required, bindBoolean_flagIn hd hr, description, bindText_freeTextIn hd hdesc, example',
      bindVarChar_textIn hd hex, Option.some.inj hf⟩
  · cases hf

end Driver

section Spelled

variable {F : Type} [ParamModel F] {env : Environment} (node : ParamEntry → Option F)
  (handed : JsonValue → Prop)

mutual

/-- `handed` holds of every raw location the code hands down below this param. -/
theorem stores_of_treeIn
    (hbelow : ∀ raw entry f, handed raw → node entry = some f →
      Recorded env raw entry f ∧ handed (rawLocation raw entry)) :
    ∀ (p : ParamInput) {raw : JsonValue} {t : RoseTree F}, treeIn node p = some t →
      (∀ entry children f, p = .dict entry children → node entry = some f →
        Recorded env raw entry f ∧ handed (rawLocation raw entry)) → Stores env raw p t
  | .other, _, _, h, _ => by
    rw [treeIn] at h
    cases h
  | .dict entry children, raw, t, h, here => by
    simp only [treeIn, Option.bind_eq_bind, Option.bind_eq_some_iff] at h
    obtain ⟨f, hf, ts, hts, h⟩ := h
    obtain ⟨hrecorded, hhanded⟩ := here entry children f rfl hf
    split at h
    · rename_i hmay
      cases h
      rw [Bool.or_eq_true, List.isEmpty_iff] at hmay
      exact ⟨hrecorded, hmay, storesAll_of_treesIn hbelow children hts hhanded⟩
    · cases h

theorem storesAll_of_treesIn
    (hbelow : ∀ raw entry f, handed raw → node entry = some f →
      Recorded env raw entry f ∧ handed (rawLocation raw entry)) :
    ∀ (ps : List ParamInput) {raw : JsonValue} {ts : List (RoseTree F)},
      treesIn node ps = some ts → handed raw → StoresAll env raw ps ts
  | [], _, _, h, _ => by
    rw [treesIn] at h
    cases h
    trivial
  | p :: ps, raw, _, h, hr => by
    simp only [treesIn, Option.bind_eq_bind, Option.bind_eq_some_iff] at h
    obtain ⟨t, ht, ts, hts, h⟩ := h
    cases h
    exact ⟨stores_of_treeIn hbelow p ht (fun entry _ f _ => hbelow raw entry f hr),
      storesAll_of_treesIn hbelow ps hts hr⟩

end

theorem storesAll_of_rootsIn {reading : ParamEntry → Option (ParamEntry → Option F)}
    {raw : JsonValue} (hroot : ∀ entry children node t, reading entry = some node →
      treeIn node (.dict entry children) = some t → Stores env raw (.dict entry children) t) :
    ∀ (ps : List ParamInput) {ts : List (RoseTree F)}, rootsIn reading ps = some ts →
      StoresAll env raw ps ts := by
  intro ps
  induction ps with
  | nil =>
    intro ts h
    rw [rootsIn] at h
    cases h
    trivial
  | cons p ps ih =>
    intro ts h
    cases p with
    | other =>
      rw [rootsIn] at h
      cases h
    | dict entry children =>
      simp only [rootsIn, Option.bind_eq_bind, Option.bind_eq_some_iff] at h
      obtain ⟨node, hnode, t, ht, us, hus, h⟩ := h
      cases h
      exact ⟨hroot entry children node t hnode ht, ih hus⟩

end Spelled

theorem truthy_of_location {v : JsonValue} {location : ParamLocation}
    (h : ParamLocation.ofValue v = some location) : v.truthy = true := by
  unfold ParamLocation.ofValue at h
  split at h <;> first | rfl | cases h

/-- A root's location is truthy, so the code hands it down to all params below. -/
theorem requestForest_stored {env : Environment} (hd : FaithfulDriver env) {payload : JsonValue}
    {ts : List (RoseTree RequestFields)} (h : requestForest payload = some ts) :
    StoresAll env .null (paramsOf payload) ts := by
  refine storesAll_of_rootsIn ?_ _ h
  intro entry children node t hnode ht
  obtain ⟨location, hl, rfl⟩ := Option.map_eq_some_iff.mp hnode
  obtain ⟨v, hv, hvl⟩ := Option.bind_eq_some_iff.mp hl
  have hraw : rawLocation .null entry = v := by
    rw [rawLocation, hv, Option.getD_some, if_neg (by simp [JsonValue.truthy])]
  refine stores_of_treeIn (requestNode location) (fun raw => raw = v) ?_ _ ht ?_
  · rintro raw e f rfl hf
    have hdown : rawLocation raw e = raw := if_pos (truthy_of_location hvl)
    rw [hdown]
    refine ⟨requestNode_recorded hd hf ?_, rfl⟩
    rw [hdown, storedLocation, hvl, Option.getD_some]
  · intro e _ f he hf
    cases he
    refine ⟨requestNode_recorded hd hf ?_, hraw⟩
    rw [hraw, storedLocation, hvl, Option.getD_some]

theorem responseForest_stored {env : Environment} (hd : FaithfulDriver env) {payload : JsonValue}
    {ts : List (RoseTree ResponseFields)} (h : responseForest payload = some ts) :
    StoresAll env .null (paramsOf payload) ts := by
  refine storesAll_of_rootsIn ?_ _ h
  intro entry children node t hnode ht
  obtain ⟨statusCode, _, rfl⟩ := Option.map_eq_some_iff.mp hnode
  have recorded : ∀ raw e f, responseNode statusCode e = some f →
      Recorded env raw e f ∧ True :=
    fun raw e f hf => ⟨responseNode_recorded hd hf, trivial⟩
  exact stores_of_treeIn _ (fun _ => True) (fun raw e f _ => recorded raw e f) _ ht
    (fun e _ f _ => recorded _ e f)

/-- A draft updated with a well-formed payload shows to the user exactly the forests of the
payload. The update succeeds if name and path fit and the draft's name is free. -/
theorem params_round_trip {env : Environment} (hdriver : FaithfulDriver env) {db : Database}
    (hreach : Reachable db) {iterationId userId : ℕ} {i : ServiceIteration}
    (hw : WorkRight db iterationId userId i) {d : ApiDraft} (hd : d ∈ db.drafts.apisOf iterationId)
    {reqParams respParams : JsonValue} {reqs : List (RoseTree RequestFields)}
    {resps : List (RoseTree ResponseFields)} (hreq : requestForest reqParams = some reqs)
    (hresp : responseForest respParams = some resps) (name method path level : String)
    (description : Option String) :
    ((∃ db' r, apiUpdateApiByApiDraftId env iterationId d.id userId name method path description
        level reqParams respParams db = .ok (db', r)) ↔
      ∃ n p, VarChar.ofString 128 name = some n ∧ VarChar.ofString 256 path = some p ∧
        NameFree db.drafts d (editedFields d n method p description level)) ∧
    ∀ db' r, apiUpdateApiByApiDraftId env iterationId d.id userId name method path description
        level reqParams respParams db = .ok (db', r) →
      ∀ env' : Environment, ∃ reply, apiGetApiById env' d.id userId false db' = .ok reply ∧
        Shows reqs resps reply.data := by
  obtain ⟨hd, hdc⟩ := ApiStore.mem_apisOf.mp hd
  have hi := reachable_invariant hreach
  obtain ⟨hiff, hcontent⟩ := update_stores hi hw hd hdc (requestForest_stored hdriver hreq)
    (responseForest_stored hdriver hresp) name method path level description
  refine ⟨hiff, ?_⟩
  intro db' r h env'
  have hi' : Invariant Nests db' := effect_preserves nests_joint
    (apiUpdateApiByApiDraftId_effect h) (payloadGuard_true _) hi
  obtain ⟨n, p, drafts, _, _, rfl, hrow, hholds⟩ := hcontent db' r h
  have hw' : WorkRight { db with drafts := drafts } iterationId userId i :=
    ⟨hw.mem, hw.id, hw.uncommitted, hw.right⟩
  obtain ⟨reply, hreply, hdata⟩ := readable_of_workRight hi' hw'
    (ApiStore.mem_apisOf.mpr ⟨hrow, rfl⟩) env'
  exact ⟨reply, hreply, hdata ▸ hholds.shows (a := ⟨d.id, iterationId, _⟩) env' _⟩

def orderPayload : JsonValue :=
  .arr [.obj [("name", .str "orders"), ("type", .str "array"), ("location", .str "body"),
      ("array_child_type", .str "object"), ("required", .bool true),
      ("children", .arr [.obj [("name", .str "items"), ("type", .str "array"),
          ("array_child_type", .str "object"),
          ("children", .arr [.obj [("name", .str "sku"), ("type", .str "string")],
            .obj [("name", .str "sku"), ("type", .str "string"), ("example", .str "A1")]])],
        .obj [("name", .str "note"), ("type", .str "string"), ("children", .null)]])],
    .obj [("name", .str "since"), ("type", .str "string"), ("location", .str "query"),
      ("default_value", .str "today")]]

def orderReply : JsonValue :=
  .arr [.obj [("name", .str "order"), ("type", .str "object"), ("status_code", .num 201),
      ("children", .arr [.obj [("name", .str "id"), ("type", .str "int"),
        ("status_code", .num 201)]])],
    .obj [("name", .str "message"), ("type", .str "string")]]

theorem orders_round_trip :
    ∃ reqs resps d, requestForest orderPayload = some reqs ∧
      responseForest orderReply = some resps ∧ d.id = 2 ∧
      ((∃ db' r, apiUpdateApiByApiDraftId plainEnvironment 2 d.id 1 "list" "GET" "/users" none "P1"
          orderPayload orderReply opened = .ok (db', r)) ↔
        ∃ n p, VarChar.ofString 128 "list" = some n ∧ VarChar.ofString 256 "/users" = some p ∧
          NameFree opened.drafts d (editedFields d n "GET" p none "P1")) ∧
      ∀ db' r, apiUpdateApiByApiDraftId plainEnvironment 2 d.id 1 "list" "GET" "/users" none "P1"
          orderPayload orderReply opened = .ok (db', r) →
        ∀ env' : Environment, ∃ reply, apiGetApiById env' d.id 1 false db' = .ok reply ∧
          Shows reqs resps reply.data := by
  obtain ⟨reqs, hreq⟩ : ∃ reqs, requestForest orderPayload = some reqs :=
    Option.isSome_iff_exists.mp (by decide +kernel)
  obtain ⟨resps, hresp⟩ : ∃ resps, responseForest orderReply = some resps :=
    Option.isSome_iff_exists.mp (by decide +kernel)
  obtain ⟨d, hd, hid⟩ : ∃ d ∈ opened.drafts.apisOf 2, d.id = 2 := by decide +kernel
  exact ⟨reqs, resps, d, hreq, hresp, hid, params_round_trip plainEnvironment_faithful
    opened_reachable IterationCopies.opened_right hd hreq hresp "list" "GET" "/users" "P1" none⟩

end ParamRoundTrip
