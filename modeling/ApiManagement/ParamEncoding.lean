import ApiManagement.VersionFidelity

/-! # Params encoded as rows

`Stores` says which tree a payload param is stored as, without any tables. Processing a
payload appends the rows of its forest in depth-first order, and decoding them gives the
forest back, so an update replaces the params of a draft by exactly what its payload stores. -/
namespace ParamEncoding

open TransactionRuns KeyedTables ParentLinkedRows RowForests PythonRuntime ServiceSchema ApiStores
  ApiOperations DraftWrites OperationRuns StateInvariant VersionFidelity

section Rows

variable {F : Type} {apiDraftId : ℕ}

/-- The table with the rows of a forest laid after its own. -/
structure Laid (apiDraftId : ℕ) (parent : Option ℕ) (t : Table (LinkedRow F))
    (ts : List (RoseTree F)) (t' : Table (LinkedRow F)) : Prop where
  rows : t'.rows = t.rows ++ layForest apiDraftId parent t.next ts
  next : t'.next = t.next + forestSize ts

theorem Laid.cons {parent : Option ℕ} {t u v : Table (LinkedRow F)} {tree : RoseTree F}
    {ts : List (RoseTree F)} (h : Laid apiDraftId parent t [tree] u)
    (k : Laid apiDraftId parent u ts v) : Laid apiDraftId parent t (tree :: ts) v := by
  obtain ⟨hr, hn⟩ := h
  rw [layForest, layForest, List.append_nil] at hr
  rw [forestSize, forestSize, Nat.add_zero] at hn
  constructor
  · rw [k.rows, hr, hn, layForest, List.append_assoc]
  · rw [k.next, hn, forestSize, Nat.add_assoc]

/-- The new rows are the only ones of a draft that had none. -/
theorem Laid.below {t t' : Table (LinkedRow F)} {ts : List (RoseTree F)}
    (h : Laid apiDraftId none t ts t') (hnone : ∀ r ∈ t.rows, r.holder ≠ apiDraftId) :
    t'.rows.filter (fun r => r.holder == apiDraftId) = layForest apiDraftId none t.next ts := by
  have old : t.rows.filter (fun r => r.holder == apiDraftId) = [] := by
    rw [List.filter_eq_nil_iff]
    intro r hr
    simpa using hnone r hr
  have new : (layForest apiDraftId none t.next ts).filter (fun r => r.holder == apiDraftId) =
      layForest apiDraftId none t.next ts := by
    rw [List.filter_eq_self]
    intro r hr
    simpa using (layForest_laid ts r hr).held
  rw [h.rows, List.filter_append, old, new, List.nil_append]

end Rows

section Encode

variable {F : Type} [ParamModel F] (env : Environment)

def Recorded (raw : JsonValue) (entry : ParamEntry) (f : F) : Prop :=
  ∃ name type, entry.name = some name ∧ entry.type = some type ∧
    ParamModel.record env entry name (storedLocation (rawLocation raw entry)) (storedType type)
      (storedChildType entry) = .ok f

mutual

def Stores (raw : JsonValue) : ParamInput → RoseTree F → Prop
  | .other, _ => False
  | .dict entry children, .node f ts =>
    Recorded env raw entry f ∧ (mayHaveChildren f = true ∨ children = []) ∧
      StoresAll (rawLocation raw entry) children ts

def StoresAll (raw : JsonValue) : List ParamInput → List (RoseTree F) → Prop
  | [], [] => True
  | p :: ps, t :: ts => Stores raw p t ∧ StoresAll raw ps ts
  | [], _ :: _ => False
  | _ :: _, [] => False

end

mutual

/-- What is written for a param: its children are left out unless it may have any. -/
def Written (raw : JsonValue) : ParamInput → RoseTree F → Prop
  | .other, _ => False
  | .dict entry children, .node f ts =>
    Recorded env raw entry f ∧ (mayHaveChildren f = true →
      WrittenAll (rawLocation raw entry) children ts) ∧ (mayHaveChildren f = false → ts = [])

def WrittenAll (raw : JsonValue) : List ParamInput → List (RoseTree F) → Prop
  | [], [] => True
  | p :: ps, t :: ts => Written raw p t ∧ WrittenAll raw ps ts
  | [], _ :: _ => False
  | _ :: _, [] => False

end

variable {env}

mutual

/-- Where every child is stored, nothing is left out. -/
theorem written_of_stores : ∀ (p : ParamInput) {raw : JsonValue} {tree : RoseTree F},
    Stores env raw p tree → Written env raw p tree
  | .other, _, _, h => by
    rw [Stores] at h
    exact h.elim
  | .dict entry children, _, .node f ts, h => by
    obtain ⟨hf, hmay, hs⟩ := h
    refine ⟨hf, fun _ => writtenAll_of_stores children hs, ?_⟩
    intro hm
    have hnone : children = [] := hmay.resolve_left (by simp [hm])
    subst hnone
    cases ts with
    | nil => rfl
    | cons t ts => exact hs.elim

theorem writtenAll_of_stores : ∀ (ps : List ParamInput) {raw : JsonValue}
    {ts : List (RoseTree F)}, StoresAll env raw ps ts → WrittenAll env raw ps ts
  | [], _, [], _ => trivial
  | [], _, _ :: _, h => h.elim
  | _ :: _, _, [], h => h.elim
  | p :: ps, _, _ :: _, h => ⟨written_of_stores p h.1, writtenAll_of_stores ps h.2⟩

end

theorem storesAll_append {raw : JsonValue} : ∀ {ps : List ParamInput} {ts : List (RoseTree F)}
    {qs : List ParamInput} {us : List (RoseTree F)}, StoresAll env raw ps ts →
    StoresAll env raw qs us → StoresAll env raw (ps ++ qs) (ts ++ us)
  | [], [], _, _, _, k => k
  | _ :: _, _ :: _, _, _, h, k => ⟨h.1, storesAll_append h.2 k⟩

theorem storesAll_map {α : Type} {raw : JsonValue} {f : α → ParamInput} {g : α → RoseTree F}
    {l : List α} (h : ∀ x ∈ l, Stores env raw (f x) (g x)) :
    StoresAll env raw (l.map f) (l.map g) := by
  induction l with
  | nil => trivial
  | cons x l ih =>
    exact ⟨h x List.mem_cons_self, ih (fun y hy => h y (List.mem_cons_of_mem _ hy))⟩

theorem storesAll_flatMap {α : Type} {raw : JsonValue} {f : α → List ParamInput}
    {g : α → List (RoseTree F)} {l : List α} (h : ∀ x ∈ l, StoresAll env raw (f x) (g x)) :
    StoresAll env raw (l.flatMap f) (l.flatMap g) := by
  induction l with
  | nil => trivial
  | cons x l ih =>
    rw [List.flatMap_cons, List.flatMap_cons]
    exact storesAll_append (h x List.mem_cons_self)
      (ih (fun y hy => h y (List.mem_cons_of_mem _ hy)))

variable {held : ℕ → Bool} {apiDraftId : ℕ}

mutual

theorem processParam_lays (hh : held apiDraftId = true) : ∀ (p : ParamInput)
    {parent : Option ℕ} {raw : JsonValue} {t : Table (LinkedRow F)} {tree : RoseTree F},
    Written env raw p tree → (∀ i, parent = some i → ∃ q ∈ t.rows, q.id = i) →
    ∃ t', processParam env held apiDraftId parent raw p t = .ok t' ∧
      Laid apiDraftId parent t [tree] t'
  | .other, _, _, _, tree, h, _ => by
    rw [Written] at h
    exact h.elim
  | .dict entry children, parent, raw, t, .node f ts, h, hp => by
    obtain ⟨⟨name, type, hname, htype, hf⟩, hmay, hleaf⟩ := h
    obtain ⟨ht, hchild⟩ := ParamModel.record_type hf
    have hinsert := insertRow_succeeds (f := f) hh hp
    have htakes : mayHaveChildren f = takesChildren (storedType type) (storedChildType entry) := by
      rw [mayHaveChildren, ht, hchild]
    simp only [processParam, bind_eq_ok, orAbort_eq_ok, liftRows_eq_ok]
    by_cases hm : mayHaveChildren f = true
    · have hrow : ∃ q ∈ (t.insert ⟨0, apiDraftId, parent, f⟩).rows, q.id = t.next :=
        ⟨_, List.mem_append_right _ List.mem_cons_self, rfl⟩
      obtain ⟨u, hu, hrows, hnext⟩ : ∃ u, processParamsRecursively env held apiDraftId
          (some t.next) (rawLocation raw entry) children
          (t.insert ⟨0, apiDraftId, parent, f⟩) = .ok u ∧
          Laid apiDraftId (some t.next) (t.insert ⟨0, apiDraftId, parent, f⟩) ts u :=
        processParamsRecursively_lays hh children (hmay hm)
          (fun i hi => Option.some.inj hi ▸ hrow)
      have hlaid : Laid apiDraftId parent t [.node f ts] u := by
        constructor
        · rw [hrows, layForest, layForest, layTree, List.append_nil]
          simp
        · rw [hnext, forestSize, forestSize, RoseTree.size, Table.insert_next]
          omega
      refine ⟨u, ⟨name, hname, type, htype, f, hf, _, hinsert, ?_⟩, hlaid⟩
      by_cases hc : children = []
      · subst hc
        rw [if_neg (by simp)]
        rw [processParamsRecursively] at hu
        exact hu
      · rw [if_pos (by simp [← htakes, hm, hc])]
        exact hu
    · rw [Bool.not_eq_true] at hm
      rw [hleaf hm]
      have hlaid : Laid apiDraftId parent t [.node f []] (t.insert ⟨0, apiDraftId, parent, f⟩) := by
        constructor
        · simp [layForest, layTree]
        · simp [forestSize, RoseTree.size]
      refine ⟨_, ⟨name, hname, type, htype, f, hf, _, hinsert, ?_⟩, hlaid⟩
      rw [if_neg (by simp [← htakes, hm])]
      rfl

theorem processParamsRecursively_lays (hh : held apiDraftId = true) : ∀ (ps : List ParamInput)
    {parent : Option ℕ} {raw : JsonValue} {t : Table (LinkedRow F)} {ts : List (RoseTree F)},
    WrittenAll env raw ps ts → (∀ i, parent = some i → ∃ q ∈ t.rows, q.id = i) →
    ∃ t', processParamsRecursively env held apiDraftId parent raw ps t = .ok t' ∧
      Laid apiDraftId parent t ts t'
  | [], parent, _, t, [], _, _ => by
    refine ⟨t, by rw [processParamsRecursively]; rfl, ?_, ?_⟩
    · rw [layForest, List.append_nil]
    · rw [forestSize, Nat.add_zero]
  | [], _, _, _, _ :: _, h, _ => by
    rw [WrittenAll] at h
    exact h.elim
  | _ :: _, _, _, _, [], h, _ => by
    rw [WrittenAll] at h
    exact h.elim
  | p :: ps, parent, raw, t, tree :: ts, h, hp => by
    rw [WrittenAll] at h
    obtain ⟨u, hu, hlu⟩ := processParam_lays hh p h.1 hp
    have hpu : ∀ i, parent = some i → ∃ q ∈ u.rows, q.id = i := by
      intro i hi
      obtain ⟨q, hq, hid⟩ := hp i hi
      exact ⟨q, (processParam_extends p hu).subset hq, hid⟩
    obtain ⟨v, hv, hlv⟩ := processParamsRecursively_lays hh ps h.2 hpu
    refine ⟨v, ?_, hlu.cons hlv⟩
    simp only [processParamsRecursively, bind_eq_ok]
    exact ⟨u, hu, hv⟩

end

mutual

theorem processParam_writes : ∀ (p : ParamInput) {parent : Option ℕ} {raw : JsonValue}
    {t t' : Table (LinkedRow F)}, processParam env held apiDraftId parent raw p t = .ok t' →
    ∃ tree : RoseTree F, Written env raw p tree ∧ Laid apiDraftId parent t [tree] t'
  | .other, _, _, _, _, h => by
    rw [processParam] at h
    cases h
  | .dict entry children, parent, raw, t, t', h => by
    simp only [processParam, bind_eq_ok, orAbort_eq_ok, liftRows_eq_ok] at h
    obtain ⟨name, hname, type, htype, f, hf, u, hu, h⟩ := h
    obtain ⟨ht, hchild⟩ := ParamModel.record_type hf
    obtain ⟨hrows, hnext⟩ := insertRow_rows hu
    have htakes : mayHaveChildren f = takesChildren (storedType type) (storedChildType entry) := by
      rw [mayHaveChildren, ht, hchild]
    have leaf : Laid apiDraftId parent t [.node f []] u :=
      ⟨by simp [hrows, layForest, layTree], by simp [hnext, forestSize, RoseTree.size]⟩
    split at h
    · rename_i hcond
      rw [Bool.and_eq_true, ← htakes] at hcond
      obtain ⟨ts, hts, hlaid⟩ := processParamsRecursively_writes children h
      refine ⟨.node f ts, ⟨⟨name, type, hname, htype, hf⟩, fun _ => hts, ?_⟩, ?_, ?_⟩
      · intro hmay
        rw [hmay] at hcond
        cases hcond.1
      · rw [hlaid.rows, hrows, hnext]
        simp [layForest, layTree]
      · rw [hlaid.next, hnext, forestSize, forestSize, RoseTree.size]
        omega
    · rename_i hcond
      rw [pure_eq_ok] at h
      subst h
      refine ⟨.node f [], ⟨⟨name, type, hname, htype, hf⟩, ?_, fun _ => rfl⟩, leaf⟩
      intro hmay
      have hempty : children = [] := by simpa [← htakes, hmay] using hcond
      rw [hempty]
      trivial

theorem processParamsRecursively_writes : ∀ (ps : List ParamInput) {parent : Option ℕ}
    {raw : JsonValue} {t t' : Table (LinkedRow F)},
    processParamsRecursively env held apiDraftId parent raw ps t = .ok t' →
    ∃ ts : List (RoseTree F), WrittenAll env raw ps ts ∧ Laid apiDraftId parent t ts t'
  | [], _, _, _, _, h => by
    rw [processParamsRecursively, pure_eq_ok] at h
    subst h
    exact ⟨[], trivial, by simp [layForest], rfl⟩
  | p :: ps, _, _, _, _, h => by
    simp only [processParamsRecursively, bind_eq_ok] at h
    obtain ⟨u, hu, h⟩ := h
    obtain ⟨tree, htree, hlu⟩ := processParam_writes p hu
    obtain ⟨ts, hts, hlv⟩ := processParamsRecursively_writes ps h
    exact ⟨tree :: ts, ⟨htree, hts⟩, hlu.cons hlv⟩

end

end Encode

theorem isRoot_laid {F : Type} {holder n : ℕ} (hn : 0 < n) (ts : List (RoseTree F))
    {r : LinkedRow F} (hr : r ∈ layForest holder none n ts) :
    isRoot r = (r.parent == none) := by
  rcases (layForest_laid ts r hr).below with hp | ⟨j, hp, hj, _⟩
  · rw [isRoot, hp]
    rfl
  · have hj : j ≠ 0 := by omega
    rw [isRoot, hp]
    simpa using hj

/-- Rows of a laid out forest, in whatever order, are decoded to the forest. -/
theorem decode_laid {F : Type} {holder n : ℕ} (hn : 0 < n) {ts : List (RoseTree F)}
    {rows : List (LinkedRow F)} (hrows : rows.Perm (layForest holder none n ts)) (p : F → Bool) :
    ForestIso ((growForest rows (rows.filter (fun r => isRoot r && p r.fields))).map shape)
      (ts.filter (fun t => p t.value)) := by
  have hroots : (layForest holder none n ts).filter (fun r => isRoot r && p r.fields) =
      (layForest holder none n ts).filter (fun r => r.parent == none && p r.fields) := by
    apply List.filter_congr
    intro r hr
    rw [isRoot_laid hn ts hr]
  have hiso := growForest_perm hrows (hrows.filter (fun r => isRoot r && p r.fields))
  rw [hroots, growForest_layout] at hiso
  exact hiso

def NameFree (st : ApiStore) (a : ApiRow) (f : ApiFields) : Prop :=
  ∀ b ∈ st.apis.rows, b.id ≠ a.id → b.container = a.container → b.fields.method = f.method →
    b.fields.name ≠ f.name

/-- The params of the api are the rows of these forests and nothing else. -/
structure HoldsForests (st : ApiStore) (apiId : ℕ) (reqs : List (RoseTree RequestFields))
    (resps : List (RoseTree ResponseFields)) : Prop where
  requests : ∃ n, 0 < n ∧ st.requestParamsOf apiId = layForest apiId none n reqs
  responses : ∃ n, 0 < n ∧ st.responseParamsOf apiId = layForest apiId none n resps

section Update

variable {link : RequestFields → RequestFields → Prop} {env : Environment} {a : ApiDraft}
  {f : ApiFields} {reqParams respParams : JsonValue} {st st' : ApiStore}
  {reqs : List (RoseTree RequestFields)} {resps : List (RoseTree ResponseFields)}

theorem rewriteDraft_nameFree (h : rewriteDraft env a f reqParams respParams st = .ok st') :
    NameFree st a f := by
  simp only [rewriteDraft, bind_eq_ok] at h
  obtain ⟨u, hu, _⟩ := h
  exact (rewriteApi_eq_ok.mp hu).1

theorem none_left (hw : WellFormed link st) (i : ℕ) :
    (∀ r ∈ (deleteParamsOf (fun j => j == i) st).requestParams.rows, r.holder ≠ i) ∧
      ∀ r ∈ (deleteParamsOf (fun j => j == i) st).responseParams.rows, r.holder ≠ i := by
  rw [deleteParamsOf_eq hw]
  constructor
  · intro r hr
    simpa using (List.mem_filter.mp hr).2
  · intro r hr
    simpa using (List.mem_filter.mp hr).2

/-- A payload replaces the params of the draft by the forests it is written as. -/
theorem rewriteDraft_succeeds (hw : WellFormed link st) (ha : a ∈ st.apis.rows)
    (hreq : WrittenAll env .null (paramsOf reqParams) reqs)
    (hresp : WrittenAll env .null (paramsOf respParams) resps) (hfree : NameFree st a f) :
    ∃ st', rewriteDraft env a f reqParams respParams st = .ok st' ∧
      HoldsForests st' a.id reqs resps ∧
      st'.apis = st.apis.mapRows (setFields a.id f) (setFields_id a.id f) := by
  let bare := deleteParamsOf (fun i => i == a.id) st
  let apis := st.apis.mapRows (setFields a.id f) (setFields_id a.id f)
  have hrewrite : rewriteApi a f bare = .ok { bare with apis := apis } :=
    rewriteApi_eq_ok.mpr ⟨hfree, rfl⟩
  have hheld : apis.contains a.id = true :=
    Table.contains_iff.mpr ⟨setFields a.id f a, List.mem_map_of_mem ha, setFields_id a.id f a⟩
  have root : ∀ {F : Type} (t : Table (LinkedRow F)) (i : ℕ), none = some i →
      ∃ q ∈ t.rows, q.id = i := by
    intro F t i hi
    cases hi
  obtain ⟨t, ht, hlt⟩ := processParamsRecursively_lays hheld _ hreq (root bare.requestParams)
  obtain ⟨u, hu, hlu⟩ := processParamsRecursively_lays hheld _ hresp (root bare.responseParams)
  refine ⟨{ bare with apis := apis, requestParams := t, responseParams := u }, ?_,
    ⟨⟨_, bare.requestParams.next_pos, hlt.below (none_left hw a.id).1⟩,
      ⟨_, bare.responseParams.next_pos, hlu.below (none_left hw a.id).2⟩⟩, rfl⟩
  simp only [rewriteDraft, bind_eq_ok, pure_eq_ok]
  exact ⟨_, hrewrite, t, ht, u, hu, rfl⟩

/-- After any update the draft has the params its payloads are written as. -/
theorem rewriteDraft_writes (hw : WellFormed link st)
    (h : rewriteDraft env a f reqParams respParams st = .ok st') :
    ∃ reqs resps, WrittenAll env .null (paramsOf reqParams) reqs ∧
      WrittenAll env .null (paramsOf respParams) resps ∧ HoldsForests st' a.id reqs resps := by
  simp only [rewriteDraft, bind_eq_ok, pure_eq_ok] at h
  obtain ⟨u, hu, t, ht, v, hv, rfl⟩ := h
  obtain ⟨_, rfl⟩ := rewriteApi_eq_ok.mp hu
  obtain ⟨reqs, hreqs, hlt⟩ := processParamsRecursively_writes _ ht
  obtain ⟨resps, hresps, hlv⟩ := processParamsRecursively_writes _ hv
  exact ⟨reqs, resps, hreqs, hresps, ⟨_, Table.next_pos _, hlt.below (none_left hw a.id).1⟩,
    ⟨_, Table.next_pos _, hlv.below (none_left hw a.id).2⟩⟩

end Update

structure Shows (reqs : List (RoseTree RequestFields)) (resps : List (RoseTree ResponseFields))
    (detail : ApiDetail) : Prop where
  requests : ∀ location, ForestIso ((detail.requestParamsByLocation location).map shape)
    (reqs.filter (fun t => t.value.location == location))
  responses : ∀ statusCode, ForestIso ((detail.responseParamsByStatusCode statusCode).map shape)
    (resps.filter (fun t => t.value.statusCode == statusCode))

theorem HoldsForests.shows {st : ApiStore} {a : ApiRow}
    {reqs : List (RoseTree RequestFields)} {resps : List (RoseTree ResponseFields)}
    (h : HoldsForests st a.id reqs resps) (env : Environment) (db : Database) :
    Shows reqs resps (apiDetail env db st a) := by
  obtain ⟨⟨n, hn, hreq⟩, ⟨m, hm, hresp⟩⟩ := h
  constructor
  · intro location
    have hp : (env.fetch (st.requestParamsOf a.id)).Perm (layForest a.id none n reqs) :=
      (env.fetch_perm _).trans (List.Perm.of_eq hreq)
    exact decode_laid hn hp (fun f => f.location == location)
  · intro statusCode
    have hp : (env.fetch (st.responseParamsOf a.id)).Perm (layForest a.id none m resps) :=
      (env.fetch_perm _).trans (List.Perm.of_eq hresp)
    exact decode_laid hm hp (fun f => f.statusCode == statusCode)

section Handlers

variable {env : Environment} {db : Database} {iterationId apiDraftId userId : ℕ}
  {i : ServiceIteration} {d : ApiDraft} {reqParams respParams : JsonValue}
  {reqs : List (RoseTree RequestFields)} {resps : List (RoseTree ResponseFields)}

/-- The update of a draft the user may work on succeeds exactly if name and path fit and no
other draft of the iteration has the method and name; the draft then shows the forests that
the payload stores. -/
theorem update_stores (hi : Invariant Nests db) (hw : WorkRight db iterationId userId i)
    (hd : d ∈ db.drafts.apis.rows) (hdc : d.container = iterationId)
    (hreq : StoresAll env .null (paramsOf reqParams) reqs)
    (hresp : StoresAll env .null (paramsOf respParams) resps) (name method path level : String)
    (description : Option String) :
    ((∃ db' r, apiUpdateApiByApiDraftId env iterationId d.id userId name method path description
        level reqParams respParams db = .ok (db', r)) ↔
      ∃ n p, VarChar.ofString 128 name = some n ∧ VarChar.ofString 256 path = some p ∧
        NameFree db.drafts d (editedFields d n method p description level)) ∧
    ∀ db' r, apiUpdateApiByApiDraftId env iterationId d.id userId name method path description
        level reqParams respParams db = .ok (db', r) →
      ∃ n p drafts, n.val = name ∧ p.val = path ∧ db' = { db with drafts := drafts } ∧
        ⟨d.id, iterationId, editedFields d n method p description level⟩ ∈ drafts.apis.rows ∧
        HoldsForests drafts d.id reqs resps := by
  have hdraft : draftOfIteration db iterationId d.id userId = .ok d :=
    draftOfIteration_eq_ok.mpr ⟨⟨i, hw⟩, hd, rfl, hdc⟩
  constructor
  · constructor
    · rintro ⟨db', r, h⟩
      simp only [apiUpdateApiByApiDraftId, bind_eq_ok, bound_eq_ok] at h
      obtain ⟨d', hd', n, hn, p, hp, drafts, hrw, _⟩ := h
      rw [hdraft, Except.ok.injEq] at hd'
      subst hd'
      exact ⟨n, p, hn, hp, rewriteDraft_nameFree hrw⟩
    · rintro ⟨n, p, hn, hp, hfree⟩
      obtain ⟨drafts, hrw, _⟩ := rewriteDraft_succeeds hi.drafts hd
        (writtenAll_of_stores _ hreq) (writtenAll_of_stores _ hresp) hfree
      refine ⟨{ db with drafts := drafts }, ⟨200, "Update api success", ()⟩, ?_⟩
      simp only [apiUpdateApiByApiDraftId, bind_eq_ok, bound_eq_ok, pure_eq_ok]
      exact ⟨d, hdraft, n, hn, p, hp, drafts, hrw, rfl⟩
  · intro db' r h
    simp only [apiUpdateApiByApiDraftId, bind_eq_ok, bound_eq_ok, pure_eq_ok,
      Prod.mk.injEq] at h
    obtain ⟨d', hd', n, hn, p, hp, drafts, hrw, rfl, _⟩ := h
    rw [hdraft, Except.ok.injEq] at hd'
    subst hd'
    obtain ⟨drafts', hrw', hholds, hapis⟩ :=
      rewriteDraft_succeeds hi.drafts hd (writtenAll_of_stores _ hreq)
        (writtenAll_of_stores _ hresp) (rewriteDraft_nameFree hrw)
    have hsame : drafts' = drafts := Except.ok.inj (hrw'.symm.trans hrw)
    subst hsame
    refine ⟨n, p, drafts', VarChar.ofString_eq_some.mp hn, VarChar.ofString_eq_some.mp hp, rfl, ?_,
      hholds⟩
    rw [hapis]
    refine List.mem_map.mpr ⟨d, hd, ?_⟩
    rw [setFields, if_pos rfl, ← hdc]

/-- Who may work on an iteration may read its drafts. -/
theorem readable_of_workRight (hi : Invariant Nests db) (hw : WorkRight db iterationId userId i)
    {a : ApiDraft} (ha : a ∈ db.drafts.apisOf iterationId) (env : Environment) :
    ∃ reply, apiGetApiById env a.id userId false db = .ok reply ∧
      reply.data = apiDetail env db db.drafts a := by
  obtain ⟨s, hs, hsid, hright⟩ := hw.right
  have hr : MaintainerRight db s userId ∨ i.creatorId = some userId := by
    rcases hright with h | h | h
    · exact Or.inl (Or.inl h)
    · exact Or.inr h
    · exact Or.inl (Or.inr (Or.inr h))
  obtain ⟨u, hu⟩ := Table.find?_of_contains (contains_of_workRight hi hw)
  exact draft_api_read hu hw.mem hs hsid hr (hw.id ▸ ha) env

end Handlers

end ParamEncoding
