import ApiManagement.PairedOutcomes
import ApiManagement.StateInvariant

/-! # Two databases that differ in the contents of one service

Everything agrees but what the rows of the service say: its description and those of its
iterations, and the columns of its categories, apis, drafts and params that are no keys. What
belongs to other services is equal, and the writes of the draft editor take the same course. -/
namespace HiddenContents

open TransactionRuns KeyedTables ParentLinkedRows PythonRuntime ServiceSchema ApiStores
  UserOperations ServiceOperations ApiOperations OperationRuns StateInvariant PairedOutcomes

def serviceColumns : Columns Service (ℕ × ℕ × VarChar 64 × VarChar 32 × Bool × Option ℕ) where
  shown s := (s.id, s.ownerId, s.serviceUuid, s.version, s.isDeleted, s.deletedAt)
  key_eq h := congrArg Prod.fst h

def iterationColumns :
    Columns ServiceIteration (ℕ × ℕ × Option ℕ × Option (VarChar 32) × Bool) where
  shown i := (i.id, i.serviceId, i.creatorId, i.version, i.isCommitted)
  key_eq h := congrArg Prod.fst h

def categoryColumns : Columns ApiCategory (ℕ × ℕ) where
  shown c := (c.id, c.serviceId)
  key_eq h := congrArg Prod.fst h

def apiColumns : Columns ApiRow (ℕ × ℕ × ℕ × Option ℕ) where
  shown a := (a.id, a.container, a.fields.ownerId, a.fields.categoryId)
  key_eq h := congrArg Prod.fst h

def paramColumns {F : Type} : Columns (LinkedRow F) (ℕ × ℕ × Option ℕ) where
  shown r := (r.id, r.holder, r.parent)
  key_eq h := congrArg Prod.fst h

def InSecret (secret : ℕ → Prop) (st : ApiStore) (holder : ℕ) : Prop :=
  ∃ a ∈ st.apis.rows, a.id = holder ∧ secret a.container

structure SameStore (secret : ℕ → Prop) (st₁ st₂ : ApiStore) : Prop where
  apis : SameRows apiColumns (fun a => secret a.container) st₁.apis st₂.apis
  requests : SameRows paramColumns (fun r => InSecret secret st₁ r.holder) st₁.requestParams
    st₂.requestParams
  responses : SameRows paramColumns (fun r => InSecret secret st₁ r.holder) st₁.responseParams
    st₂.responseParams

def IterationOf (db : Database) (serviceId iterationId : ℕ) : Prop :=
  ∃ i ∈ db.iterations.rows, i.id = iterationId ∧ i.serviceId = serviceId

structure SameButContents (serviceId : ℕ) (db₁ db₂ : Database) : Prop where
  users : db₁.users = db₂.users
  links : db₁.userServiceLink = db₂.userServiceLink
  services : SameRows serviceColumns (fun s => s.id = serviceId) db₁.services db₂.services
  iterations : SameRows iterationColumns (fun i => i.serviceId = serviceId) db₁.iterations
    db₂.iterations
  categories : SameRows categoryColumns (fun c => c.serviceId = serviceId) db₁.categories
    db₂.categories
  live : SameStore (fun c => c = serviceId) db₁.live db₂.live
  drafts : SameStore (IterationOf db₁ serviceId) db₁.drafts db₂.drafts

section Shown

variable {s t : Service} {i j : ServiceIteration}

theorem owner_eq (h : serviceColumns.shown s = serviceColumns.shown t) : s.ownerId = t.ownerId :=
  congrArg (fun p => p.2.1) h

theorem uuid_eq (h : serviceColumns.shown s = serviceColumns.shown t) :
    s.serviceUuid = t.serviceUuid :=
  congrArg (fun p => p.2.2.1) h

theorem version_eq (h : serviceColumns.shown s = serviceColumns.shown t) : s.version = t.version :=
  congrArg (fun p => p.2.2.2.1) h

theorem isDeleted_eq (h : serviceColumns.shown s = serviceColumns.shown t) :
    s.isDeleted = t.isDeleted :=
  congrArg (fun p => p.2.2.2.2.1) h

theorem service_eq (h : iterationColumns.shown i = iterationColumns.shown j) :
    i.serviceId = j.serviceId :=
  congrArg (fun p => p.2.1) h

theorem creator_eq (h : iterationColumns.shown i = iterationColumns.shown j) :
    i.creatorId = j.creatorId :=
  congrArg (fun p => p.2.2.1) h

theorem iterationVersion_eq (h : iterationColumns.shown i = iterationColumns.shown j) :
    i.version = j.version :=
  congrArg (fun p => p.2.2.2.1) h

theorem committed_eq (h : iterationColumns.shown i = iterationColumns.shown j) :
    i.isCommitted = j.isCommitted :=
  congrArg (fun p => p.2.2.2.2) h

theorem categoryService_eq {c d : ApiCategory}
    (h : categoryColumns.shown c = categoryColumns.shown d) : c.serviceId = d.serviceId :=
  congrArg Prod.snd h

theorem container_eq {a b : ApiRow} (h : apiColumns.shown a = apiColumns.shown b) :
    a.container = b.container :=
  congrArg (fun p => p.2.1) h

theorem apiCategory_eq {a b : ApiRow} (h : apiColumns.shown a = apiColumns.shown b) :
    a.fields.categoryId = b.fields.categoryId :=
  congrArg (fun p => p.2.2.2) h

theorem holder_eq {F : Type} {q r : LinkedRow F} (h : paramColumns.shown q = paramColumns.shown r) :
    q.holder = r.holder :=
  congrArg (fun p => p.2.1) h

theorem parent_eq {F : Type} {q r : LinkedRow F} (h : paramColumns.shown q = paramColumns.shown r) :
    q.parent = r.parent :=
  congrArg (fun p => p.2.2) h

end Shown

section Equal

variable {secret : ℕ → Prop} {st₁ st₂ : ApiStore}

theorem SameStore.apisOf (h : SameStore secret st₁ st₂) {c : ℕ} (hc : ¬ secret c) :
    st₁.apisOf c = st₂.apisOf c := by
  refine h.apis.filter_column (fun _ _ => container_eq) ?_
  intro a _ ha
  rwa [ha]

theorem not_inSecret {st : ApiStore} {a : ApiRow} (ha : a ∈ st.apis.rows)
    (hc : ¬ secret a.container) : ¬ InSecret secret st a.id := by
  rintro ⟨b, hb, hid, hs⟩
  rw [st.apis.eq_of_key_eq hb ha hid] at hs
  exact hc hs

theorem params_eq {F : Type} {inSecret : ℕ → Prop} {t u : Table (LinkedRow F)}
    (h : SameRows paramColumns (fun r => inSecret r.holder) t u) {i : ℕ} (hi : ¬ inSecret i) :
    t.rows.filter (fun r => r.holder == i) = u.rows.filter (fun r => r.holder == i) := by
  refine h.filter_column (fun _ _ => holder_eq) ?_
  intro r _ hr
  rwa [hr]

theorem SameStore.requestParamsOf (h : SameStore secret st₁ st₂) {a : ApiRow}
    (ha : a ∈ st₁.apis.rows) (hc : ¬ secret a.container) :
    st₁.requestParamsOf a.id = st₂.requestParamsOf a.id :=
  params_eq h.requests (not_inSecret ha hc)

theorem SameStore.responseParamsOf (h : SameStore secret st₁ st₂) {a : ApiRow}
    (ha : a ∈ st₁.apis.rows) (hc : ¬ secret a.container) :
    st₁.responseParamsOf a.id = st₂.responseParamsOf a.id :=
  params_eq h.responses (not_inSecret ha hc)

variable {serviceId : ℕ} {db₁ db₂ : Database} (h : SameButContents serviceId db₁ db₂)

include h

theorem SameButContents.maintainers : maintainers db₁ = maintainers db₂ := by
  funext k
  unfold ServiceSchema.maintainers
  rw [h.users, h.links]

theorem SameButContents.isMaintainer : isMaintainer db₁ = isMaintainer db₂ := by
  funext k user
  unfold ServiceSchema.isMaintainer
  rw [h.links]

theorem SameButContents.draftReferences : draftReferences db₁ = draftReferences db₂ := by
  unfold ApiStores.draftReferences
  rw [h.users, h.iterations.contains_eq, h.categories.contains_eq]

theorem SameButContents.insertService (s : Service) :
    SameButContents serviceId { db₁ with services := db₁.services.insert s }
      { db₂ with services := db₂.services.insert s } :=
  ⟨h.users, h.links, h.services.insert s, h.iterations, h.categories, h.live, h.drafts⟩

/-- The service of an iteration or of an api, unless it is the one. -/
theorem SameButContents.find_service {k : ℕ} (hk : k ≠ serviceId) :
    db₁.services.find? k = db₂.services.find? k := by
  apply h.services.find?_eq
  intro s hid
  rw [service_key] at hid
  rwa [hid]

omit h in
theorem not_iterationOf {i : ServiceIteration} (hi : i ∈ db₁.iterations.rows)
    (hs : i.serviceId ≠ serviceId) : ¬ IterationOf db₁ serviceId i.id := by
  rintro ⟨j, hj, hid, hjs⟩
  rw [db₁.iterations.eq_of_key_eq hj hi hid] at hjs
  exact hs hjs

theorem SameButContents.iterationsOf {k : ℕ} (hk : k ≠ serviceId) :
    db₁.iterations.rows.filter (fun i => i.serviceId == k) =
      db₂.iterations.rows.filter (fun i => i.serviceId == k) := by
  refine h.iterations.filter_column (fun _ _ => service_eq) ?_
  intro i _ hi
  rwa [hi]

theorem SameButContents.categoriesOf {k : ℕ} (hk : k ≠ serviceId) :
    db₁.categories.rows.filter (fun c => c.serviceId == k) =
      db₂.categories.rows.filter (fun c => c.serviceId == k) := by
  refine h.categories.filter_column (fun _ _ => categoryService_eq) ?_
  intro c _ hc
  rwa [hc]

theorem serviceToJson_eq (env : Environment) {s : Service} (hs : s.id ≠ serviceId) :
    serviceToJson env db₁ s = serviceToJson env db₂ s := by
  unfold serviceToJson
  rw [h.users, h.maintainers, h.iterationsOf hs, h.categoriesOf hs, h.live.apisOf hs]

theorem iterationToJson_eq (env : Environment) {i : ServiceIteration}
    (hi : i ∈ db₁.iterations.rows) (hs : i.serviceId ≠ serviceId) :
    iterationToJson env db₁ i = iterationToJson env db₂ i := by
  unfold iterationToJson
  rw [h.users, h.find_service hs, h.drafts.apisOf (not_iterationOf hi hs)]

end Equal

/-- Both queries find a row, or none does. -/
theorem fetch_lockstep {α β : Type} [Keyed α] {columns : Columns α β} {hidden : α → Prop}
    {l m : List α} (env : Environment) (h : List.Forall₂ (Agree columns hidden) l m) (e : Abort) :
    Lockstep (fun a b => a ∈ l ∧ b ∈ m) (orAbort (env.fetch l).head? e)
      (orAbort (env.fetch m).head? e) := by
  have hlength : (env.fetch l).length = (env.fetch m).length := by
    rw [(env.fetch_perm l).length_eq, (env.fetch_perm m).length_eq, h.length_eq]
  cases hl : env.fetch l with
  | nil =>
    rw [hl] at hlength
    rw [List.eq_nil_of_length_eq_zero hlength.symm]
    exact .error e
  | cons a as =>
    cases hm : env.fetch m with
    | nil =>
      rw [hl, hm] at hlength
      cases hlength
    | cons b bs =>
      refine .ok ⟨env.mem_fetch.mp ?_, env.mem_fetch.mp ?_⟩
      · rw [hl]
        exact List.mem_cons_self
      · rw [hm]
        exact List.mem_cons_self

theorem liftRows_lockstep {α β : Type} {R : α → β → Prop} {x : Except RowError α}
    {y : Except RowError β} (h : Lockstep R x y) : Lockstep R (liftRows x) (liftRows y) := by
  cases h with
  | ok h => exact .ok h
  | error e => cases e <;> exact .error _

section Params

variable {F : Type} {inSecret : ℕ → Prop} {t u : Table (LinkedRow F)} {held : ℕ → Bool}
  {holder : ℕ}

theorem insertRow_lockstep {parent : Option ℕ} {f : F}
    (h : SameRows paramColumns (fun r => inSecret r.holder) t u) :
    Lockstep (fun t' u' => t' = t.insert ⟨0, holder, parent, f⟩ ∧
        u' = u.insert ⟨0, holder, parent, f⟩)
      (insertRow held t holder parent f) (insertRow held u holder parent f) := by
  have hparent : parentExists t parent = parentExists u parent := by
    cases parent with
    | none => rfl
    | some p => exact congrFun h.contains_eq p
  unfold insertRow
  rw [hparent]
  refine Lockstep.bind_same _ ?_
  intro _ _
  exact .ok ⟨rfl, rfl⟩

def ParentsSecret (inSecret : ℕ → Prop) (rows : List (LinkedRow F)) : Prop :=
  ∀ r ∈ rows, inSecret r.holder → ∀ p, r.parent = some p →
    ∃ q ∈ rows, q.id = p ∧ inSecret q.holder

theorem parentsSecret_of_wellLinked {link : F → F → Prop} {rows : List (LinkedRow F)}
    (h : WellLinked link rows) : ParentsSecret inSecret rows := by
  intro r hr hs p hp
  obtain ⟨q, hq, hid, hh, _⟩ := h.parent hr hp
  exact ⟨q, hq, hid, hh ▸ hs⟩

theorem ParentsSecret.insert {parent : Option ℕ} {f : F} (h : ParentsSecret inSecret t.rows)
    (hh : ¬ inSecret holder) :
    ParentsSecret inSecret (t.insert ⟨0, holder, parent, f⟩).rows := by
  intro r hr hs p hp
  rcases List.mem_append.mp hr with hr | hr
  · obtain ⟨q, hq, hqs⟩ := h r hr hs p hp
    exact ⟨q, List.mem_append_left _ hq, hqs⟩
  · obtain rfl := List.mem_singleton.mp hr
    exact absurd hs hh

theorem child_not_secret (hp : ParentsSecret inSecret t.rows) {r : LinkedRow F} (hr : r ∈ t.rows)
    (hs : ¬ inSecret r.holder) {c : LinkedRow F} (hc : c ∈ t.rows)
    (hparent : c.parent = some r.id) : ¬ inSecret c.holder := by
  intro hcs
  obtain ⟨q, hq, hid, hqs⟩ := hp c hc hcs r.id hparent
  rw [t.eq_of_key_eq hq hr hid] at hqs
  exact hs hqs

theorem childrenOf_eq (h : SameRows paramColumns (fun r => inSecret r.holder) t u)
    (hp : ParentsSecret inSecret t.rows) {r : LinkedRow F} (hr : r ∈ t.rows)
    (hs : ¬ inSecret r.holder) : childrenOf t.rows r.id = childrenOf u.rows r.id := by
  refine h.filter_eq ?_ ?_
  · intro q c hqc
    rw [parent_eq hqc]
  · intro c hc hparent
    exact child_not_secret hp hr hs hc (beq_iff_eq.mp hparent)

structure GrownAlike (inSecret : ℕ → Prop) (t t' u' : Table (LinkedRow F)) : Prop where
  same : SameRows paramColumns (fun r => inSecret r.holder) t' u'
  parents : ParentsSecret inSecret t'.rows
  subset : t.rows ⊆ t'.rows

/-- The copy of a tree of params, below an api that is not secret itself. -/
theorem copyTree_lockstep {fetch : List (LinkedRow F) → List (LinkedRow F)}
    (hf : ∀ l, (fetch l).Perm l) (hh : ¬ inSecret holder) :
    ∀ (n : ℕ) {r : LinkedRow F} {parent : Option ℕ} {t u : Table (LinkedRow F)},
    SameRows paramColumns (fun r => inSecret r.holder) t u → ParentsSecret inSecret t.rows →
    r ∈ t.rows → ¬ inSecret r.holder →
    Lockstep (GrownAlike inSecret t) (copyTree held fetch holder n r parent t)
      (copyTree held fetch holder n r parent u) := by
  intro n
  induction n with
  | zero => exact fun _ _ _ _ => .error _
  | succ n ih =>
    intro r parent t u h hp hr hs
    rw [copyTree, copyTree]
    refine (insertRow_lockstep h).bind ?_
    rintro t' u' ⟨rfl, rfl⟩
    have hgrown : t.rows ⊆ (t.insert ⟨0, holder, parent, r.fields⟩).rows :=
      List.subset_append_left _ _
    have hp' : ParentsSecret inSecret (t.insert ⟨0, holder, parent, r.fields⟩).rows :=
      hp.insert hh
    rw [← childrenOf_eq (h.insert _) hp' (hgrown hr) hs, ← h.next]
    have hstart : GrownAlike inSecret (t.insert ⟨0, holder, parent, r.fields⟩)
        (t.insert ⟨0, holder, parent, r.fields⟩) (u.insert ⟨0, holder, parent, r.fields⟩) :=
      ⟨h.insert _, hp', List.Subset.refl _⟩
    refine (Lockstep.foldlM ?_ hstart).mono ?_
    · intro a b c hc hab
      obtain ⟨hc, hparent⟩ := List.mem_filter.mp ((hf _).mem_iff.mp hc)
      have hcs := child_not_secret hp' (hgrown hr) hs hc (beq_iff_eq.mp hparent)
      refine (ih hab.same hab.parents (hab.subset hc) hcs).mono ?_
      intro a' b' hab'
      exact ⟨hab'.same, hab'.parents, List.Subset.trans hab.subset hab'.subset⟩
    · intro a b hab
      exact ⟨hab.same, hab.parents, List.Subset.trans hgrown hab.subset⟩

theorem copyParamsRecursively_lockstep (env : Environment) (hh : ¬ inSecret holder)
    {source : List (LinkedRow F)}
    (h : SameRows paramColumns (fun r => inSecret r.holder) t u)
    (hp : ParentsSecret inSecret t.rows) (hs : ∀ r ∈ source, r ∈ t.rows ∧ ¬ inSecret r.holder) :
    Lockstep (GrownAlike inSecret t) (copyParamsRecursively env held holder source t)
      (copyParamsRecursively env held holder source u) := by
  unfold copyParamsRecursively
  rw [h.rows.length_eq]
  have hstart : GrownAlike inSecret t t u := ⟨h, hp, List.Subset.refl _⟩
  refine Lockstep.foldlM ?_ hstart
  intro a b r hr hab
  obtain ⟨hr, hrs⟩ := hs r (List.mem_filter.mp hr).1
  refine (liftRows_lockstep (copyTree_lockstep env.fetch_perm hh _ hab.same hab.parents
    (hab.subset hr) hrs)).mono ?_
  intro a' b' hab'
  exact ⟨hab'.same, hab'.parents, List.Subset.trans hab.subset hab'.subset⟩

end Params

section Payload

variable {F : Type} [ParamModel F] {inSecret : ℕ → Prop} (env : Environment) {held : ℕ → Bool}
  {apiDraftId : ℕ}

mutual

theorem processParam_lockstep : ∀ (p : ParamInput) {parent : Option ℕ} {location : JsonValue}
    {t u : Table (LinkedRow F)}, SameRows paramColumns (fun r => inSecret r.holder) t u →
    Lockstep (SameRows paramColumns (fun r => inSecret r.holder))
      (processParam env held apiDraftId parent location p t)
      (processParam env held apiDraftId parent location p u)
  | .other, _, _, _, _, _ => by
    rw [processParam, processParam]
    exact .error _
  | .dict entry children, parent, location, t, u, h => by
    rw [processParam, processParam]
    refine Lockstep.bind_same _ (fun name _ => ?_)
    refine Lockstep.bind_same _ (fun type _ => ?_)
    refine Lockstep.bind_same _ (fun fields _ => ?_)
    refine (liftRows_lockstep (insertRow_lockstep h)).bind ?_
    rintro t' u' ⟨rfl, rfl⟩
    rw [← h.next]
    split
    · exact processParamsRecursively_lockstep children (h.insert _)
    · exact .ok (h.insert _)

theorem processParamsRecursively_lockstep : ∀ (ps : List ParamInput) {parent : Option ℕ}
    {location : JsonValue} {t u : Table (LinkedRow F)},
    SameRows paramColumns (fun r => inSecret r.holder) t u →
    Lockstep (SameRows paramColumns (fun r => inSecret r.holder))
      (processParamsRecursively env held apiDraftId parent location ps t)
      (processParamsRecursively env held apiDraftId parent location ps u)
  | [], _, _, t, u, h => by
    rw [processParamsRecursively, processParamsRecursively]
    exact .ok h
  | p :: ps, _, _, t, u, h => by
    rw [processParamsRecursively, processParamsRecursively]
    refine (processParam_lockstep p h).bind ?_
    intro t' u' h'
    exact processParamsRecursively_lockstep ps h'

end

end Payload

section Stores

variable {link : RequestFields → RequestFields → Prop} {secret : ℕ → Prop} {st₁ st₂ : ApiStore}
  {refs : References} {c : ℕ} {f : ApiFields}

/-- What is taken in a container that is not secret. -/
theorem taken_eq (h : SameStore secret st₁ st₂) (hc : ¬ secret c) {p : ApiRow → Bool}
    (hp : ∀ a, p a = true → a.container = c) : st₁.apis.rows.any p = st₂.apis.rows.any p := by
  apply h.apis.any_eq
  intro a b hab hs
  have ha : ¬ p a = true := fun hpa => hc (hp a hpa ▸ hs)
  have hb : ¬ p b = true := fun hpb => hc (hp b hpb ▸ container_eq hab.shown ▸ hs)
  rw [Bool.not_eq_true] at ha hb
  rw [ha, hb]

theorem insertApi_lockstep (h : SameStore secret st₁ st₂) (hc : ¬ secret c) :
    Lockstep (fun u₁ u₂ => u₁ = { st₁ with apis := st₁.apis.insert ⟨0, c, f⟩ } ∧
        u₂ = { st₂ with apis := st₂.apis.insert ⟨0, c, f⟩ })
      (insertApi refs c f st₁) (insertApi refs c f st₂) := by
  have hkey : ∀ a : ApiRow, SameKey a c f = true → a.container = c := by
    intro a ha
    simp only [SameKey, Bool.and_eq_true, beq_iff_eq] at ha
    exact ha.1.1
  unfold insertApi
  rw [taken_eq h hc hkey]
  refine Lockstep.bind_same _ (fun _ _ => ?_)
  refine Lockstep.bind_same _ (fun _ _ => ?_)
  exact .ok ⟨rfl, rfl⟩

theorem copyDraft_lockstep (env : Environment) (h : SameStore secret st₁ st₂)
    (hw : WellFormed link st₁) (hc : ¬ secret c) {draft : ApiDraft}
    (hd : draft ∈ st₁.apis.rows) (hds : ¬ secret draft.container) :
    Lockstep (fun _ _ => True) (copyDraft env refs c draft f st₁)
      (copyDraft env refs c draft f st₂) := by
  have hnew : ¬ InSecret secret st₁ st₁.apis.next := by
    rintro ⟨a, ha, hid, _⟩
    exact Table.key_ne_next ha hid
  have hdraft := not_inSecret hd hds
  unfold copyDraft
  refine (insertApi_lockstep h hc).bind ?_
  rintro _ _ ⟨rfl, rfl⟩
  have hheld := (h.apis.insert ⟨0, c, f⟩).contains_eq
  have hrequests :
      ApiStore.requestParamsOf { st₁ with apis := st₁.apis.insert ⟨0, c, f⟩ } draft.id =
        ApiStore.requestParamsOf { st₂ with apis := st₂.apis.insert ⟨0, c, f⟩ } draft.id :=
    h.requestParamsOf hd hds
  have hresponses :
      ApiStore.responseParamsOf { st₁ with apis := st₁.apis.insert ⟨0, c, f⟩ } draft.id =
        ApiStore.responseParamsOf { st₂ with apis := st₂.apis.insert ⟨0, c, f⟩ } draft.id :=
    h.responseParamsOf hd hds
  simp only [← hheld, ← h.apis.next, ← hrequests, ← hresponses]
  refine (copyParamsRecursively_lockstep env hnew h.requests
    (parentsSecret_of_wellLinked hw.request_linked) ?_).bind ?_
  · intro r hr
    obtain ⟨hr, hh⟩ := ApiStore.mem_requestParamsOf.mp (env.mem_fetch.mp hr)
    exact ⟨hr, hh ▸ hdraft⟩
  intro _ _ _
  refine (copyParamsRecursively_lockstep env hnew h.responses
    (parentsSecret_of_wellLinked hw.response_linked) ?_).bind ?_
  · intro r hr
    obtain ⟨hr, hh⟩ := ApiStore.mem_responseParamsOf.mp (env.mem_fetch.mp hr)
    exact ⟨hr, hh ▸ hdraft⟩
  intro _ _ _
  exact .ok trivial

theorem deleteCascade_same {F : Type} {bond : F → F → Prop} {hidden : LinkedRow F → Prop}
    {t u : Table (LinkedRow F)} (h : SameRows paramColumns hidden t u)
    (ht : WellLinked bond t.rows) (hu : WellLinked bond u.rows) (p : ℕ → Bool) :
    SameRows paramColumns hidden (deleteCascade t (fun r => p r.holder))
      (deleteCascade u (fun r => p r.holder)) := by
  rw [deleteCascade_by_holder ht, deleteCascade_by_holder hu]
  apply h.restrict
  intro q r hqr
  rw [holder_eq hqr]

theorem rewriteDraft_lockstep (env : Environment) (h : SameStore secret st₁ st₂)
    (hw₁ : WellFormed link st₁) (hw₂ : WellFormed link st₂) {draft : ApiDraft}
    (hds : ¬ secret draft.container) {reqParams respParams : JsonValue} :
    Lockstep (fun _ _ => True) (rewriteDraft env draft f reqParams respParams st₁)
      (rewriteDraft env draft f reqParams respParams st₂) := by
  have hkey : ∀ b : ApiRow, (b.id != draft.id && SameKey b draft.container f) = true →
      b.container = draft.container := by
    intro b hb
    simp only [SameKey, Bool.and_eq_true, beq_iff_eq] at hb
    exact hb.2.1.1
  have htaken := taken_eq h hds hkey
  have hheld : (st₁.apis.mapRows (setFields draft.id f) (setFields_id draft.id f)).contains =
      (st₂.apis.mapRows (setFields draft.id f) (setFields_id draft.id f)).contains := by
    funext k
    rw [Table.contains_mapRows, Table.contains_mapRows, h.apis.contains_eq]
  unfold rewriteDraft rewriteApi
  simp only [deleteParamsOf, bind_assoc, pure_bind, ← htaken, ← hheld]
  refine Lockstep.bind_same _ (fun _ _ => ?_)
  refine (processParamsRecursively_lockstep env _ (deleteCascade_same h.requests
    hw₁.request_linked hw₂.request_linked (fun i => i == draft.id))).bind ?_
  intro _ _ _
  refine (processParamsRecursively_lockstep env _ (deleteCascade_same h.responses
    hw₁.response_linked hw₂.response_linked (fun i => i == draft.id))).bind ?_
  intro _ _ _
  exact .ok trivial

end Stores

end HiddenContents
