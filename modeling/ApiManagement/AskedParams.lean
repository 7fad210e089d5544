import ApiManagement.ParamEncoding

/-! # The params that a payload asks for

The payload convention has every child at the location of its parent, takes the status codes in
the same way, and keeps the children of objects and of arrays of objects. Where the handler
falls back to a default instead, it stores params that nobody asked for. -/
namespace AskedParams

open TransactionRuns KeyedTables ParentLinkedRows RowForests PythonRuntime ServiceSchema ApiStores
  UserOperations ApiOperations ParamEncoding

structure HandedDown where
  location : Option ParamLocation
  statusCode : JsonValue

/-- A root without a location is in the body. -/
def askedLocation : Option HandedDown → ParamEntry → Option ParamLocation
  | some above, _ => above.location
  | none, entry =>
    match entry.location.getD .null with
    | .null => some .body
    | v => ParamLocation.ofValue v

def askedStatusCode (above : Option HandedDown) (entry : ParamEntry) : JsonValue :=
  entry.statusCode.getD ((above.map HandedDown.statusCode).getD (.num 200))

def askedType (entry : ParamEntry) : Option ParamType := entry.type.bind ParamType.ofValue

def askedChildType (entry : ParamEntry) : Option (Option ParamType) :=
  match entry.arrayChildType with
  | none => some none
  | some v => if v.truthy then (ParamType.ofValue v).map some else some none

def handDown (above : Option HandedDown) (entry : ParamEntry) : HandedDown :=
  ⟨askedLocation above entry, askedStatusCode above entry⟩

/-- A row has the member, as the driver binds it. -/
def HoldsText (env : Environment) (member : Option JsonValue) (text : Option String) : Prop :=
  env.bindText (member.getD .null) = some text

def HoldsBoolean (env : Environment) (member : Option JsonValue) (value : Option Bool) : Prop :=
  env.bindBoolean (member.getD (.bool false)) = some value

structure AskedRequest (env : Environment) (above : Option HandedDown) (entry : ParamEntry)
    (f : RequestFields) : Prop where
  name : HoldsText env entry.name (some f.name.val)
  location : askedLocation above entry = some f.location
  type : askedType entry = some f.type
  required : HoldsBoolean env entry.required f.required
  defaultValue : HoldsText env entry.defaultValue (f.defaultValue.map VarChar.val)
  description : HoldsText env entry.description f.description
  example' : HoldsText env entry.example' (f.example'.map VarChar.val)
  childType : askedChildType entry = some f.arrayChildType

structure AskedResponse (env : Environment) (above : Option HandedDown) (entry : ParamEntry)
    (f : ResponseFields) : Prop where
  statusCode : env.bindInteger (askedStatusCode above entry) = some (some f.statusCode)
  name : HoldsText env entry.name (some f.name.val)
  type : askedType entry = some f.type
  required : HoldsBoolean env entry.required f.required
  description : HoldsText env entry.description f.description
  example' : HoldsText env entry.example' (f.example'.map VarChar.val)
  childType : askedChildType entry = some f.arrayChildType

def KnownTypes (entry : ParamEntry) : Prop :=
  (askedType entry).isSome = true ∧ (askedChildType entry).isSome = true

/-- No fallback is taken for the request param below a parent that hands `raw` down. -/
def PlainRequest (above : Option HandedDown) (raw : JsonValue) (entry : ParamEntry) : Prop :=
  KnownTypes entry ∧ askedLocation above entry = some (storedLocation (rawLocation raw entry))

def PlainResponse (env : Environment) (above : Option HandedDown) (entry : ParamEntry) : Prop :=
  KnownTypes entry ∧
    env.bindInteger (askedStatusCode above entry) =
      env.bindInteger (entry.statusCode.getD (.num 200))

theorem asked_storedType {entry : ParamEntry} {v : JsonValue} (h : entry.type = some v)
    (hk : (askedType entry).isSome = true) : askedType entry = some (storedType v) := by
  obtain ⟨t, ht⟩ := Option.isSome_iff_exists.mp hk
  have hv : ParamType.ofValue v = some t := by
    rw [← ht, askedType, h, Option.bind_some]
  rw [ht, storedType, hv, Option.getD_some]

theorem asked_storedChildType {entry : ParamEntry} (hk : (askedChildType entry).isSome = true) :
    askedChildType entry = some (storedChildType entry) := by
  unfold askedChildType storedChildType at *
  cases he : entry.arrayChildType with
  | none => rfl
  | some v =>
    rw [he] at hk
    by_cases hv : v.truthy = true
    · simp only [hv, if_true, Option.isSome_map, Option.bind_some] at hk ⊢
      obtain ⟨t, ht⟩ := Option.isSome_iff_exists.mp hk
      rw [ht, Option.map_some]
    · simp [hv]

theorem bindVarChar_text {env : Environment} {n : ℕ} {v : JsonValue} {w : Option (VarChar n)}
    (h : bindVarChar env n v = .ok w) : env.bindText v = some (w.map VarChar.val) := by
  simp only [bindVarChar, bind_eq_ok, bound_eq_ok] at h
  obtain ⟨text, ht, h⟩ := h
  cases text with
  | none =>
    rw [pure_eq_ok] at h
    rw [ht, ← h, Option.map_none]
  | some s =>
    simp only [bind_eq_ok, bound_eq_ok, VarChar.ofString_eq_some, pure_eq_ok] at h
    obtain ⟨u, rfl, rfl⟩ := h
    exact ht

section Records

variable {env : Environment} {above : Option HandedDown} {raw : JsonValue} {entry : ParamEntry}

theorem askedRequest_iff {f : RequestFields} (h : Recorded env raw entry f) :
    AskedRequest env above entry f ↔ PlainRequest above raw entry := by
  obtain ⟨name, type, hname, htype, hf⟩ := h
  obtain ⟨hl, ht, hc⟩ := requestRecord_eq_ok hf
  constructor
  · intro ha
    refine ⟨⟨by rw [ha.type]; rfl, by rw [ha.childType]; rfl⟩, ?_⟩
    rw [ha.location, hl]
  · rintro ⟨⟨hkt, hkc⟩, hloc⟩
    have hf' : requestRecord env entry name (storedLocation (rawLocation raw entry))
      (storedType type) (storedChildType entry) = .ok f := hf
    simp only [requestRecord, bind_eq_ok, bound_eq_ok, notNull_eq_ok, pure_eq_ok] at hf'
    obtain ⟨_, hn, n, rfl, r, hr, dv, hdv, desc, hdesc, ex, hex, rfl⟩ := hf'
    exact {
      name := by
        rw [HoldsText, hname]
        exact bindVarChar_text hn
      location := hloc
      type := asked_storedType htype hkt
      required := hr
      defaultValue := bindVarChar_text hdv
      description := hdesc
      example' := bindVarChar_text hex
      childType := asked_storedChildType hkc }

theorem askedResponse_iff {f : ResponseFields} (h : Recorded env raw entry f) :
    AskedResponse env above entry f ↔ PlainResponse env above entry := by
  obtain ⟨name, type, hname, htype, hf⟩ := h
  have hf' : responseRecord env entry name (storedLocation (rawLocation raw entry))
    (storedType type) (storedChildType entry) = .ok f := hf
  simp only [responseRecord, bind_eq_ok, bound_eq_ok, notNull_eq_ok, pure_eq_ok] at hf'
  obtain ⟨_, hcode, code, rfl, _, hn, n, rfl, r, hr, desc, hdesc, ex, hex, rfl⟩ := hf'
  constructor
  · intro ha
    exact ⟨⟨by rw [ha.type]; rfl, by rw [ha.childType]; rfl⟩, ha.statusCode.trans hcode.symm⟩
  · rintro ⟨⟨hkt, hkc⟩, hstatus⟩
    exact {
      statusCode := hstatus.trans hcode
      name := by
        rw [HoldsText, hname]
        exact bindVarChar_text hn
      type := asked_storedType htype hkt
      required := hr
      description := hdesc
      example' := bindVarChar_text hex
      childType := asked_storedChildType hkc }

end Records

class AskedModel (F : Type) extends ParamModel F where
  asked : Environment → Option HandedDown → ParamEntry → F → Prop
  plain : Environment → Option HandedDown → JsonValue → ParamEntry → Prop
  asked_iff : ∀ {env above raw entry} {f : F}, Recorded env raw entry f →
    (asked env above entry f ↔ plain env above raw entry)

instance : AskedModel RequestFields where
  asked := AskedRequest
  plain _ := PlainRequest
  asked_iff := askedRequest_iff

instance : AskedModel ResponseFields where
  asked := AskedResponse
  plain env above _ := PlainResponse env above
  asked_iff := askedResponse_iff

section Asked

variable (F : Type) [AskedModel F] (env : Environment)

variable {F} in
mutual

def Asked (above : Option HandedDown) : ParamInput → RoseTree F → Prop
  | .other, _ => False
  | .dict entry children, .node f ts =>
    AskedModel.asked env above entry f ∧ AskedAll (some (handDown above entry)) children ts

def AskedAll (above : Option HandedDown) : List ParamInput → List (RoseTree F) → Prop
  | [], [] => True
  | p :: ps, t :: ts => Asked above p t ∧ AskedAll above ps ts
  | [], _ :: _ => False
  | _ :: _, [] => False

end

def takes (entry : ParamEntry) : Bool :=
  takesChildren (storedType (entry.type.getD .null)) (storedChildType entry)

mutual

/-- No fallback is taken for the param nor below it. -/
def Plain (above : Option HandedDown) (raw : JsonValue) : ParamInput → Prop
  | .other => False
  | .dict entry children =>
    AskedModel.plain F env above raw entry ∧ (takes entry = true ∨ children = []) ∧
      PlainAll (some (handDown above entry)) (rawLocation raw entry) children

def PlainAll (above : Option HandedDown) (raw : JsonValue) : List ParamInput → Prop
  | [] => True
  | p :: ps => Plain above raw p ∧ PlainAll above raw ps

end

variable {F env}

theorem takes_of_recorded {raw : JsonValue} {entry : ParamEntry} {f : F}
    (h : Recorded env raw entry f) : mayHaveChildren f = takes entry := by
  obtain ⟨name, type, _, htype, hf⟩ := h
  obtain ⟨ht, hc⟩ := ParamModel.record_type hf
  rw [mayHaveChildren, takes, ht, hc, htype, Option.getD_some]

mutual

/-- A param is stored as it is asked for exactly if no fallback is taken. -/
theorem asked_iff_plain : ∀ (p : ParamInput) {above : Option HandedDown} {raw : JsonValue}
    {tree : RoseTree F}, Written env raw p tree → (Asked env above p tree ↔ Plain F env above raw p)
  | .other, _, _, _, h => by
    rw [Written] at h
    exact h.elim
  | .dict entry children, above, raw, .node f ts, h => by
    obtain ⟨hf, hmay, hleaf⟩ := h
    rw [takes_of_recorded hf] at hmay hleaf
    rw [Asked, Plain, AskedModel.asked_iff hf]
    refine and_congr_right (fun _ => ?_)
    by_cases hm : takes entry = true
    · rw [and_iff_right (Or.inl hm)]
      exact askedAll_iff_plainAll children (hmay hm)
    · rw [hleaf (Bool.not_eq_true _ ▸ hm), or_iff_right hm]
      cases children with
      | nil => simp [AskedAll, PlainAll]
      | cons p ps => simp [AskedAll]

theorem askedAll_iff_plainAll : ∀ (ps : List ParamInput) {above : Option HandedDown}
    {raw : JsonValue} {ts : List (RoseTree F)}, WrittenAll env raw ps ts →
    (AskedAll env above ps ts ↔ PlainAll F env above raw ps)
  | [], _, _, [], _ => by rw [AskedAll, PlainAll]
  | [], _, _, _ :: _, h => h.elim
  | _ :: _, _, _, [], h => h.elim
  | p :: ps, _, _, _ :: _, h => by
    rw [AskedAll, PlainAll, asked_iff_plain p h.1, askedAll_iff_plainAll ps h.2]

end

end Asked

/-- Rows laid for two forests are the rows of one. -/
theorem layForest_injective {F : Type} {holder n m : ℕ} {ts us : List (RoseTree F)}
    (h : layForest holder none n ts = layForest holder none m us) : ts = us := by
  have hread : ∀ (vs : List (RoseTree F)) (k : ℕ),
      (growForest (layForest holder none k vs) ((layForest holder none k vs).filter
        (fun r => r.parent == none && true))).map shape = vs.filter (fun _ => true) :=
    fun vs k => growForest_layout vs k (fun _ => true)
  have hts := hread ts n
  rw [h, hread us m] at hts
  simpa using hts.symm

theorem holdsForests_unique {st : ApiStore} {apiId : ℕ} {reqs reqs' : List (RoseTree RequestFields)}
    {resps resps' : List (RoseTree ResponseFields)} (h : HoldsForests st apiId reqs resps)
    (h' : HoldsForests st apiId reqs' resps') : reqs = reqs' ∧ resps = resps' := by
  obtain ⟨⟨_, _, hreq⟩, ⟨_, _, hresp⟩⟩ := h
  obtain ⟨⟨_, _, hreq'⟩, ⟨_, _, hresp'⟩⟩ := h'
  exact ⟨layForest_injective (hreq.symm.trans hreq'), layForest_injective (hresp.symm.trans hresp')⟩

end AskedParams
