import ApiManagement.ApiOperations

/-! # What the writes of drafts keep

Every write of one draft leaves the other iterations alone and the draft tables well
formed. For an update the link between a parent and a child follows from what the payload
says about them, so the payload condition is a parameter here. -/
namespace DraftWrites

open TransactionRuns KeyedTables ParentLinkedRows PythonRuntime ServiceSchema ApiStores
  StoreCopies ApiOperations

mutual

/-- `joint` relates the raw location handed down by a param to the raw location of each of
its children, at every depth the code goes to. -/
def ParamRespects (joint : JsonValue → JsonValue → Prop) (parentLocation : JsonValue) :
    ParamInput → Prop
  | .other => True
  | .dict entry children =>
    ∀ type, entry.type = some type →
      takesChildren (storedType type) (storedChildType entry) = true →
      ChildrenRespect joint (rawLocation parentLocation entry) children

def ChildrenRespect (joint : JsonValue → JsonValue → Prop) (location : JsonValue) :
    List ParamInput → Prop
  | [] => True
  | p :: ps =>
    (∀ entry children, p = .dict entry children → joint location (rawLocation location entry)) ∧
      ParamRespects joint location p ∧ ChildrenRespect joint location ps

end

mutual

theorem paramRespects_true : ∀ (p : ParamInput) {location : JsonValue},
    ParamRespects (fun _ _ => True) location p
  | .other, _ => by
    rw [ParamRespects]
    trivial
  | .dict _ children, _ => by
    rw [ParamRespects]
    exact fun _ _ _ => childrenRespect_true children

theorem childrenRespect_true : ∀ (ps : List ParamInput) {location : JsonValue},
    ChildrenRespect (fun _ _ => True) location ps
  | [], _ => by
    rw [ChildrenRespect]
    trivial
  | p :: ps, _ => by
    rw [ChildrenRespect]
    exact ⟨fun _ _ _ => trivial, paramRespects_true p, childrenRespect_true ps⟩

end

def PayloadRespects (joint : JsonValue → JsonValue → Prop) (payload : JsonValue) : Prop :=
  ∀ p ∈ paramsOf payload, ParamRespects joint .null p

section Payload

variable {F : Type} [ParamModel F]

def Made (env : Environment) (location : JsonValue) (f : F) : Prop :=
  ∃ entry name type child,
    ParamModel.record env entry name (storedLocation location) type child = .ok f

variable {env : Environment} {held : ℕ → Bool} {apiDraftId : ℕ}

mutual

theorem processParam_extends : ∀ (p : ParamInput) {parent : Option ℕ} {location : JsonValue}
    {t t' : Table (LinkedRow F)}, processParam env held apiDraftId parent location p t = .ok t' →
    Extends apiDraftId t t'
  | .other, _, _, _, _, h => by
    rw [processParam] at h
    cases h
  | .dict entry children, _, _, _, _, h => by
    simp only [processParam, bind_eq_ok, liftRows_eq_ok] at h
    obtain ⟨_, _, _, _, _, _, u, hu, h⟩ := h
    split at h
    · exact (insertRow_extends hu).trans (processParamsRecursively_extends children h)
    · rw [pure_eq_ok] at h
      exact h ▸ insertRow_extends hu

theorem processParamsRecursively_extends : ∀ (ps : List ParamInput) {parent : Option ℕ}
    {location : JsonValue} {t t' : Table (LinkedRow F)},
    processParamsRecursively env held apiDraftId parent location ps t = .ok t' →
    Extends apiDraftId t t'
  | [], _, _, t, _, h => by
    rw [processParamsRecursively, pure_eq_ok] at h
    exact h ▸ Extends.refl apiDraftId t
  | p :: ps, _, _, _, _, h => by
    simp only [processParamsRecursively, bind_eq_ok] at h
    obtain ⟨u, hu, h⟩ := h
    exact (processParam_extends p hu).trans (processParamsRecursively_extends ps h)

end

variable {link : F → F → Prop} {joint : JsonValue → JsonValue → Prop}

def CreatedBelow (env : Environment) (apiDraftId : ℕ) (parent : Option ℕ) (location : JsonValue)
    (rows : List (LinkedRow F)) : Prop :=
  ∀ i, parent = some i → ∃ q ∈ rows, q.id = i ∧ q.holder = apiDraftId ∧
    Made env location q.fields ∧ mayHaveChildren q.fields = true

theorem CreatedBelow.mono {parent : Option ℕ} {location : JsonValue}
    {rows more : List (LinkedRow F)} (h : CreatedBelow env apiDraftId parent location rows)
    (hs : rows ⊆ more) : CreatedBelow env apiDraftId parent location more := by
  intro i hi
  obtain ⟨q, hq, rest⟩ := h i hi
  exact ⟨q, hs hq, rest⟩

/-- Params made at jointly allowed locations, the first of which takes children, are linked. -/
def JointLinks (env : Environment) (joint : JsonValue → JsonValue → Prop) (link : F → F → Prop) :
    Prop :=
  ∀ l m f g, Made env l f → mayHaveChildren f = true → Made env m g → joint l m → link f g

mutual

theorem processParam_wellLinked (hlink : JointLinks env joint link) :
    ∀ (p : ParamInput) {parent : Option ℕ} {location : JsonValue}
    {t t' : Table (LinkedRow F)}, processParam env held apiDraftId parent location p t = .ok t' →
    WellLinked link t.rows → CreatedBelow env apiDraftId parent location t.rows →
    (parent ≠ none → ∀ entry children, p = .dict entry children →
      joint location (rawLocation location entry)) →
    ParamRespects joint location p → WellLinked link t'.rows
  | .other, _, _, _, _, h, _, _, _, _ => by
    rw [processParam] at h
    cases h
  | .dict entry children, parent, location, t, t', h, hl, hc, hj, hp => by
    simp only [processParam, bind_eq_ok, orAbort_eq_ok, liftRows_eq_ok] at h
    obtain ⟨name, _, type, htype, f, hf, u, hu, h⟩ := h
    have hmade : Made env (rawLocation location entry) f := ⟨entry, name, _, _, hf⟩
    have hfit : ParentFits link t.rows apiDraftId parent f := by
      intro i hi
      obtain ⟨q, hq, hid, hh, hmq, hmay⟩ := hc i hi
      have hjoint := hj (by rw [hi]; simp) entry children rfl
      exact ⟨q, hq, hid, hh, hlink _ _ _ _ hmq hmay hmade hjoint⟩
    have hul := insertRow_wellLinked hu hl hfit
    split at h
    · rename_i hcond
      rw [Bool.and_eq_true] at hcond
      refine processParamsRecursively_wellLinked hlink children h hul ?_ (hp type htype hcond.1)
      intro i hi
      obtain ⟨ht, hch⟩ := ParamModel.record_type hf
      refine ⟨⟨t.next, apiDraftId, parent, f⟩, ?_, Option.some.inj hi, rfl, hmade, ?_⟩
      · rw [(insertRow_rows hu).1]
        simp
      · rw [mayHaveChildren, ht, hch]
        exact hcond.1
    · rw [pure_eq_ok] at h
      exact h ▸ hul

theorem processParamsRecursively_wellLinked (hlink : JointLinks env joint link) :
    ∀ (ps : List ParamInput) {parent : Option ℕ} {location : JsonValue}
    {t t' : Table (LinkedRow F)},
    processParamsRecursively env held apiDraftId parent location ps t = .ok t' →
    WellLinked link t.rows → CreatedBelow env apiDraftId parent location t.rows →
    ChildrenRespect joint location ps → WellLinked link t'.rows
  | [], _, _, _, _, h, hl, _, _ => by
    rw [processParamsRecursively, pure_eq_ok] at h
    exact h ▸ hl
  | p :: ps, parent, location, t, t', h, hl, hc, hr => by
    simp only [processParamsRecursively, bind_eq_ok] at h
    obtain ⟨u, hu, h⟩ := h
    have hul := processParam_wellLinked hlink p hu hl hc (fun _ => hr.1) hr.2.1
    exact processParamsRecursively_wellLinked hlink ps h hul
      (hc.mono (processParam_extends p hu).subset) hr.2.2

end

theorem rootParams_wellLinked (hlink : JointLinks env joint link) :
    ∀ (ps : List ParamInput) {t t' : Table (LinkedRow F)},
    processParamsRecursively env held apiDraftId none .null ps t = .ok t' →
    WellLinked link t.rows → (∀ p ∈ ps, ParamRespects joint .null p) → WellLinked link t'.rows := by
  intro ps
  induction ps with
  | nil =>
    intro t t' h hl _
    rw [processParamsRecursively, pure_eq_ok] at h
    exact h ▸ hl
  | cons p ps ih =>
    intro t t' h hl hr
    simp only [processParamsRecursively, bind_eq_ok] at h
    obtain ⟨u, hu, h⟩ := h
    refine ih h ?_ (fun q hq => hr q (List.mem_cons_of_mem _ hq))
    exact processParam_wellLinked hlink p hu hl (fun i hi => by cases hi)
      (fun hn => absurd rfl hn) (hr p List.mem_cons_self)

end Payload

section OneDraft

variable {link : RequestFields → RequestFields → Prop} {env : Environment} {refs : References}
  {c : ℕ} {f : ApiFields} {st st' : ApiStore}

theorem copyParamsRecursively_extends {F : Type} {held : ℕ → Bool} {holder : ℕ}
    {source : List (LinkedRow F)} {t t' : Table (LinkedRow F)}
    (h : copyParamsRecursively env held holder source t = .ok t') : Extends holder t t' := by
  refine foldlM_preserves ?_ (Extends.refl holder t) h
  intro u p v _ hu hv
  rw [liftRows_eq_ok] at hv
  exact hu.trans (copyTree_extends _ p none u v hv)

theorem copyParamsRecursively_wellLinked {F : Type} {bond : F → F → Prop} {held : ℕ → Bool}
    {holder : ℕ} {source : List (LinkedRow F)} {t t' : Table (LinkedRow F)}
    (h : copyParamsRecursively env held holder source t = .ok t') (hs : source ⊆ t.rows)
    (hl : WellLinked bond t.rows) : WellLinked bond t'.rows := by
  have keep : WellLinked bond t'.rows ∧ t.rows ⊆ t'.rows := by
    refine foldlM_preserves (I := fun u => WellLinked bond u.rows ∧ t.rows ⊆ u.rows) ?_
      ⟨hl, List.Subset.refl _⟩ h
    intro u p v hp hu hv
    rw [liftRows_eq_ok] at hv
    refine ⟨?_, List.Subset.trans hu.2 (copyTree_extends _ p none u v hv).subset⟩
    exact copyTree_wellLinked env.fetch_perm _ p none u v hv hu.1
      (hu.2 (hs (List.mem_of_mem_filter hp))) parentFits_none
  exact keep.1

/-- Params added to both tables below one api. -/
theorem extendParams {h : ℕ} {t : Table RequestParam} {u : Table ResponseParam}
    (hw : WellFormed link st) (ht : Extends h st.requestParams t)
    (hu : Extends h st.responseParams u) (hlt : WellLinked link t.rows)
    (hlu : WellLinked Nests u.rows) (ho : owns st c h = true) :
    WellFormed link { st with requestParams := t, responseParams := u } ∧
      SameOutside c st { st with requestParams := t, responseParams := u } := by
  obtain ⟨a, ha, _, hid⟩ := owns_iff.mp ho
  have hh : st.apis.contains h = true := Table.contains_iff.mpr ⟨a, ha, hid⟩
  have hwt := extendRequests_wellFormed hw ht hlt hh
  have hot : owns { st with requestParams := t } c h = true := ho
  exact ⟨extendResponses_wellFormed hwt hu hlu hh,
    (extendRequests_sameOutside ht ho).trans (extendResponses_sameOutside hu hot)⟩

theorem copyDraft_spec {draft : ApiDraft} (hw : WellFormed link st)
    (h : copyDraft env refs c draft f st = .ok st') :
    WellFormed link st' ∧ SameOutside c st st' ∧ refs.Allow c f ∧
      st'.apis = st.apis.insert ⟨0, c, f⟩ := by
  simp only [copyDraft, bind_eq_ok, pure_eq_ok] at h
  obtain ⟨u, hu, t, ht, v, hv, rfl⟩ := h
  have hwu := insertApi_wellFormed hu hw
  have hou := insertApi_sameOutside hu hw
  obtain ⟨hallow, _, rfl⟩ := insertApi_eq_ok.mp hu
  have ho : owns { st with apis := st.apis.insert ⟨0, c, f⟩ } c st.apis.next = true :=
    owns_iff.mpr ⟨⟨st.apis.next, c, f⟩, by simp, rfl, rfl⟩
  have hlt := copyParamsRecursively_wellLinked ht
    (fun r hr => (ApiStore.mem_requestParamsOf.mp (env.mem_fetch.mp hr)).1) hwu.request_linked
  have hlv := copyParamsRecursively_wellLinked hv
    (fun r hr => (ApiStore.mem_responseParamsOf.mp (env.mem_fetch.mp hr)).1) hwu.response_linked
  obtain ⟨hw', ho'⟩ := extendParams hwu (copyParamsRecursively_extends ht)
    (copyParamsRecursively_extends hv) hlt hlv ho
  exact ⟨hw', hou.trans ho', hallow, rfl⟩

theorem removeDraft_spec {a : ApiDraft} (hw : WellFormed link st) (ha : a ∈ st.apis.rows) :
    WellFormed link (removeDraft a.id st) ∧ SameOutside a.container st (removeDraft a.id st) ∧
      (removeDraft a.id st).apis = st.apis.restrict (fun b => !(b.id == a.id)) := by
  have hg : ∀ i, (i == a.id) = true → owns st a.container i = true := by
    intro i hi
    rw [beq_iff_eq] at hi
    exact owns_iff.mpr ⟨a, ha, rfl, hi.symm⟩
  have hw' := deleteParamsOf_wellFormed hw (fun i => i == a.id)
  have hp : ∀ b ∈ (deleteParamsOf (fun i => i == a.id) st).apis.rows, (b.id == a.id) = true →
      b.container = a.container := by
    intro b hb hid
    rw [beq_iff_eq] at hid
    rw [st.apis.eq_of_key_eq hb ha hid]
  exact ⟨deleteApis_wellFormed hw' _,
    (deleteParamsOf_sameOutside hw hg).trans (deleteApis_sameOutside hw' hp), rfl⟩

variable {joint : JsonValue → JsonValue → Prop}

theorem rewriteDraft_spec {a : ApiDraft} {reqParams respParams : JsonValue}
    (hlink : JointLinks env joint link) (hw : WellFormed link st) (ha : a ∈ st.apis.rows)
    (hp : PayloadRespects joint reqParams)
    (h : rewriteDraft env a f reqParams respParams st = .ok st') :
    WellFormed link st' ∧ SameOutside a.container st st' ∧
      st'.apis = st.apis.mapRows (setFields a.id f) (setFields_id a.id f) := by
  simp only [rewriteDraft, bind_eq_ok, pure_eq_ok] at h
  obtain ⟨u, hu, t, ht, v, hv, rfl⟩ := h
  have hg : ∀ i, (i == a.id) = true → owns st a.container i = true := by
    intro i hi
    rw [beq_iff_eq] at hi
    exact owns_iff.mpr ⟨a, ha, rfl, hi.symm⟩
  have hw' := deleteParamsOf_wellFormed hw (fun i => i == a.id)
  have ha' : a ∈ (deleteParamsOf (fun i => i == a.id) st).apis.rows := ha
  have hwu := rewriteApi_wellFormed ha' hu hw'
  have hou := (deleteParamsOf_sameOutside hw hg).trans (rewriteApi_sameOutside ha' hu)
  obtain ⟨_, rfl⟩ := rewriteApi_eq_ok.mp hu
  have ho : owns { deleteParamsOf (fun i => i == a.id) st with
      apis := st.apis.mapRows (setFields a.id f) (setFields_id a.id f) } a.container a.id = true :=
    owns_iff.mpr ⟨setFields a.id f a, List.mem_map_of_mem ha, setFields_container a.id f a,
      setFields_id a.id f a⟩
  have hlt := rootParams_wellLinked hlink _ ht hwu.request_linked hp
  have hnests : JointLinks (F := ResponseFields) env (fun _ _ => True) Nests :=
    fun _ _ _ _ _ hmay _ _ => hmay
  have hlv := rootParams_wellLinked hnests _ hv hwu.response_linked
    (fun p _ => paramRespects_true p)
  obtain ⟨hw'', ho'⟩ := extendParams hwu (processParamsRecursively_extends _ ht)
    (processParamsRecursively_extends _ hv) hlt hlv ho
  exact ⟨hw'', hou.trans ho', rfl⟩

/-- Params added below one api are not params of another. -/
theorem extendParams_other {h x : ℕ} {t : Table RequestParam} {u : Table ResponseParam}
    (ht : Extends h st.requestParams t) (hu : Extends h st.responseParams u) (hx : x ≠ h) :
    ApiStore.requestParamsOf { st with requestParams := t, responseParams := u } x =
        st.requestParamsOf x ∧
      ApiStore.responseParamsOf { st with requestParams := t, responseParams := u } x =
        st.responseParamsOf x := by
  have hne : (h == x) = false := by simpa using hx.symm
  exact ⟨ht.filter_eq (fun i => i == x) hne, hu.filter_eq (fun i => i == x) hne⟩

theorem copyDraft_other {draft : ApiDraft} (h : copyDraft env refs c draft f st = .ok st') {x : ℕ}
    (hx : x ≠ st.apis.next) :
    st'.requestParamsOf x = st.requestParamsOf x ∧
      st'.responseParamsOf x = st.responseParamsOf x := by
  simp only [copyDraft, bind_eq_ok, pure_eq_ok] at h
  obtain ⟨u, hu, t, ht, v, hv, rfl⟩ := h
  obtain ⟨_, _, rfl⟩ := insertApi_eq_ok.mp hu
  exact extendParams_other (copyParamsRecursively_extends ht) (copyParamsRecursively_extends hv) hx

theorem removeDraft_other {i x : ℕ} (hw : WellFormed link st) (hx : x ≠ i) :
    (removeDraft i st).requestParamsOf x = st.requestParamsOf x ∧
      (removeDraft i st).responseParamsOf x = st.responseParamsOf x := by
  have hne : (x == i) = false := by simpa using hx
  have hw' := deleteParamsOf_wellFormed hw (fun k => k == i)
  have first := deleteParamsOf_other hw (fun k => k == i) hne
  have second := deleteParamsOf_other hw' (x := x)
    ((st.apis.rows.filter (fun a => a.id == i)).map ApiRow.id).contains (by
      rw [← Bool.not_eq_true, List.contains_iff_mem]
      intro hm
      obtain ⟨a, ha, rfl⟩ := List.mem_map.mp hm
      exact hx (beq_iff_eq.mp (List.mem_filter.mp ha).2))
  exact ⟨second.1.trans first.1, second.2.trans first.2⟩

theorem rewriteDraft_other {a : ApiDraft} {reqParams respParams : JsonValue} {x : ℕ}
    (hw : WellFormed link st) (hx : x ≠ a.id)
    (h : rewriteDraft env a f reqParams respParams st = .ok st') :
    st'.requestParamsOf x = st.requestParamsOf x ∧
      st'.responseParamsOf x = st.responseParamsOf x := by
  simp only [rewriteDraft, bind_eq_ok, pure_eq_ok] at h
  obtain ⟨u, hu, t, ht, v, hv, rfl⟩ := h
  obtain ⟨_, rfl⟩ := rewriteApi_eq_ok.mp hu
  have hne : (x == a.id) = false := by simpa using hx
  have first := deleteParamsOf_other hw (fun k => k == a.id) hne
  have second := extendParams_other (processParamsRecursively_extends _ ht)
    (processParamsRecursively_extends _ hv) hx
  exact ⟨second.1.trans first.1, second.2.trans first.2⟩

end OneDraft

end DraftWrites
