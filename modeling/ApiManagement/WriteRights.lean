import ApiManagement.DraftIsolation

/-! # Who may change a service

Every change to a row of a service is made by its owner, by a current maintainer or by a
user of level 0, with one deliberate exception: the creator of an iteration keeps the right
to work on it, to commit it and to delete it when he is no longer a maintainer. He was one,
or the owner, or of level 0, when he started it. -/
namespace WriteRights

open TransactionRuns KeyedTables ParentLinkedRows PythonRuntime ServiceSchema ApiStores
  ServiceOperations ApiOperations DraftWrites OperationRuns OperationEffects StateInvariant
  DraftIsolation

def actor : Operation → Option ℕ
  | .userRegister _ _ _ _ _ => none
  | .userModifyPassword userId _ _ => some userId
  | .serviceCreateNewService _ userId _ => some userId
  | .serviceAddOrRemoveServiceMaintainerById _ userId _ => some userId
  | .serviceDeleteServiceById _ userId => some userId
  | .serviceRestoreServiceById _ userId => some userId
  | .serviceDeleteIterationById _ userId => some userId
  | .serviceStartIteration _ userId => some userId
  | .serviceCommitIteration _ _ userId => some userId
  | .serviceUpdateDescription _ _ userId => some userId
  | .apiAddCategoryByServiceId _ userId _ _ => some userId
  | .apiDeleteCategoryById _ userId => some userId
  | .apiUpdateCategoryById _ userId _ _ => some userId
  | .apiUpdateApiCategory _ _ userId => some userId
  | .apiAddApi _ userId _ _ _ _ _ _ => some userId
  | .apiCopyApiByApiDraftId _ _ userId => some userId
  | .apiDeleteApiByApiDraftId _ _ userId => some userId
  | .apiUpdateApiByApiDraftId _ _ userId _ _ _ _ _ _ _ => some userId

def namedIteration : Operation → Option ℕ
  | .serviceDeleteIterationById iterationId _ => some iterationId
  | .serviceCommitIteration iterationId _ _ => some iterationId
  | operation => draftIteration operation

structure SameContainer (c : ℕ) (st st' : ApiStore) : Prop where
  apis : st'.apisOf c = st.apisOf c
  requests : ∀ a ∈ st.apisOf c, st'.requestParamsOf a.id = st.requestParamsOf a.id
  responses : ∀ a ∈ st.apisOf c, st'.responseParamsOf a.id = st.responseParamsOf a.id

theorem SameContainer.refl (c : ℕ) (st : ApiStore) : SameContainer c st st :=
  ⟨rfl, fun _ _ => rfl, fun _ _ => rfl⟩

theorem sameContainer_of_outside {c d : ℕ} {st st' : ApiStore} (h : SameOutside c st st')
    (hd : d ≠ c) : SameContainer d st st' :=
  ⟨h.apisOf hd, fun _ ha => h.requestParamsOf hd ha, fun _ ha => h.responseParamsOf hd ha⟩

theorem sameContainer_setCategories {c : ℕ} {st : ApiStore} {g : ApiRow → Option ℕ}
    (hg : ∀ a ∈ st.apisOf c, g a = a.fields.categoryId) :
    SameContainer c st (setCategories g st) := by
  refine ⟨?_, fun _ _ => rfl, fun _ _ => rfl⟩
  have swap : (fun a : ApiRow => a.container == c) ∘ setCategory g = fun a => a.container == c :=
    rfl
  have keep : ∀ a ∈ st.apisOf c, setCategory g a = a := by
    intro a ha
    rw [setCategory, hg a ha]
  rw [ApiStore.apisOf, setCategories_rows, List.filter_map, swap]
  exact (List.map_congr_left keep).trans (List.map_id' _)

/-- No row that belongs to the service differs: its own, its maintainers, its categories,
its live apis, its iterations and their drafts, with all params. -/
structure SameService (serviceId : ℕ) (db db' : Database) : Prop where
  service : db'.services.find? serviceId = db.services.find? serviceId
  maintainers : ∀ u, (u, serviceId) ∈ db'.userServiceLink ↔ (u, serviceId) ∈ db.userServiceLink
  categories : db'.categories.rows.filter (fun c => c.serviceId == serviceId) =
    db.categories.rows.filter (fun c => c.serviceId == serviceId)
  live : SameContainer serviceId db.live db'.live
  iterations : db'.iterations.rows.filter (fun i => i.serviceId == serviceId) =
    db.iterations.rows.filter (fun i => i.serviceId == serviceId)
  drafts : ∀ i ∈ db.iterations.rows, i.serviceId = serviceId →
    SameContainer i.id db.drafts db'.drafts

theorem SameService.refl (serviceId : ℕ) (db : Database) : SameService serviceId db db :=
  ⟨rfl, fun _ => Iff.rfl, rfl, SameContainer.refl _ _, rfl, fun _ _ _ => SameContainer.refl _ _⟩

section Step

variable {link : RequestFields → RequestFields → Prop} {db db' : Database} {env : Environment}
  {operation : Operation}

def MayChange (db : Database) (s : Service) (operation : Operation) (userId : ℕ) : Prop :=
  MaintainerRight db s userId ∨ ∃ i ∈ db.iterations.rows, i.serviceId = s.id ∧
    namedIteration operation = some i.id ∧ i.creatorId = some userId

theorem mayChange_of_creator {s : Service} {i : ServiceIteration} {userId : ℕ}
    (h : CreatorRight db s i userId) (hm : i ∈ db.iterations.rows) (hsid : s.id = i.serviceId)
    (hop : namedIteration operation = some i.id) : MayChange db s operation userId := by
  rcases h with h | h | h
  · exact Or.inl (Or.inl h)
  · exact Or.inr ⟨i, hm, hsid.symm, hop, h⟩
  · exact Or.inl (Or.inr (Or.inr h))

theorem WorkRight.mayChange {iterationId userId : ℕ} {i : ServiceIteration}
    (h : WorkRight db iterationId userId i) (hop : namedIteration operation = some iterationId)
    {t : Service} (ht : t ∈ db.services.rows) (hid : t.id = i.serviceId) :
    MayChange db t operation userId := by
  obtain ⟨s, hs, hsid, hr⟩ := h.right
  have hst : s = t := db.services.eq_of_key_eq hs ht (hsid.trans hid.symm)
  subst hst
  exact mayChange_of_creator hr h.mem hsid (h.id ▸ hop)

section Frames

variable {t : ℕ}

theorem sameService_of_users (users : Table User) :
    SameService t db { db with users := users } :=
  ⟨rfl, fun _ => Iff.rfl, rfl, SameContainer.refl _ _, rfl, fun _ _ _ => SameContainer.refl _ _⟩

theorem sameService_of_services {services : Table Service}
    (h : services.find? t = db.services.find? t) :
    SameService t db { db with services := services } :=
  ⟨h, fun _ => Iff.rfl, rfl, SameContainer.refl _ _, rfl, fun _ _ _ => SameContainer.refl _ _⟩

theorem sameService_of_links {links : Finset (ℕ × ℕ)}
    (h : ∀ u, (u, t) ∈ links ↔ (u, t) ∈ db.userServiceLink) :
    SameService t db { db with userServiceLink := links } :=
  ⟨rfl, h, rfl, SameContainer.refl _ _, rfl, fun _ _ _ => SameContainer.refl _ _⟩

theorem sameService_of_iterations {iterations : Table ServiceIteration}
    (h : iterations.rows.filter (fun i => i.serviceId == t) =
      db.iterations.rows.filter (fun i => i.serviceId == t)) :
    SameService t db { db with iterations := iterations } :=
  ⟨rfl, fun _ => Iff.rfl, rfl, SameContainer.refl _ _, h, fun _ _ _ => SameContainer.refl _ _⟩

theorem sameService_of_categories {categories : Table ApiCategory}
    (h : categories.rows.filter (fun c => c.serviceId == t) =
      db.categories.rows.filter (fun c => c.serviceId == t)) :
    SameService t db { db with categories := categories } :=
  ⟨rfl, fun _ => Iff.rfl, h, SameContainer.refl _ _, rfl, fun _ _ _ => SameContainer.refl _ _⟩

theorem sameService_of_live {live : ApiStore} (h : SameContainer t db.live live) :
    SameService t db { db with live := live } :=
  ⟨rfl, fun _ => Iff.rfl, rfl, h, rfl, fun _ _ _ => SameContainer.refl _ _⟩

theorem sameService_of_drafts {i : ServiceIteration} (hm : i ∈ db.iterations.rows)
    {drafts : ApiStore} (ho : SameOutside i.id db.drafts drafts) (hne : t ≠ i.serviceId) :
    SameService t db { db with drafts := drafts } := by
  refine ⟨rfl, fun _ => Iff.rfl, rfl, SameContainer.refl _ _, rfl, ?_⟩
  intro j hj hjt
  apply sameContainer_of_outside ho
  intro he
  rw [db.iterations.eq_of_key_eq hj hm he] at hjt
  exact hne hjt.symm

/-- An update of one iteration is not seen by the other services. -/
theorem filter_iteration_update {i : ServiceIteration} (hm : i ∈ db.iterations.rows)
    {f : ServiceIteration → ServiceIteration} (hf : ∀ r, key (f r) = key r)
    (hs : ∀ r, (f r).serviceId = r.serviceId) (hne : t ≠ i.serviceId) :
    (db.iterations.update i.id f hf).rows.filter (fun j => j.serviceId == t) =
      db.iterations.rows.filter (fun j => j.serviceId == t) := by
  apply Table.filter_update _ hf
  intro r hr hk
  rw [db.iterations.eq_of_key_eq hr hm hk, hs]
  have : i.serviceId ≠ t := fun h => hne h.symm
  simp [this]

theorem sameService_of_category_deleted (hi : Invariant link db) {c : ApiCategory}
    (hc : c ∈ db.categories.rows) (hne : t ≠ c.serviceId) :
    SameService t db { db with
      live := setCategories (clearCategory c.id) db.live
      drafts := setCategories (clearCategory c.id) db.drafts
      categories := db.categories.restrict (fun d => d.id != c.id) } := by
  have keep : ∀ a : ApiRow, Refers db t a.fields → clearCategory c.id a = a.fields.categoryId := by
    intro a ha
    apply if_neg
    intro hk
    obtain ⟨d, hd, hid, hdt⟩ := ha.2 c.id hk
    rw [db.categories.eq_of_key_eq hd hc hid] at hdt
    exact hne hdt.symm
  refine ⟨rfl, fun _ => Iff.rfl, ?_, sameContainer_setCategories ?_, rfl, ?_⟩
  · apply Table.filter_restrict _
    intro d hd hdt
    rw [bne_iff_ne]
    intro hid
    rw [db.categories.eq_of_key_eq hd hc hid, beq_iff_eq] at hdt
    exact hne hdt.symm
  · intro a ha
    obtain ⟨ha, hat⟩ := ApiStore.mem_apisOf.mp ha
    exact keep a (hat ▸ (hi.live_refers a ha).2)
  · intro i hm hit
    apply sameContainer_setCategories
    intro a ha
    obtain ⟨ha, hai⟩ := ApiStore.mem_apisOf.mp ha
    obtain ⟨j, hj, hid, hr⟩ := hi.draft_refers a ha
    rw [db.iterations.eq_of_key_eq hj hm (hid.trans hai), hit] at hr
    exact keep a hr

end Frames

/-- A write under a right to one service leaves the others as they are. -/
theorem unchanged_or_of_service {s t : Service} {userId : ℕ} (hs : s ∈ db.services.rows)
    (ht : t ∈ db.services.rows) (hactor : actor operation = some userId)
    (hright : MayChange db s operation userId)
    (hother : t.id ≠ s.id → SameService t.id db db') :
    SameService t.id db db' ∨ ∃ u, actor operation = some u ∧ MayChange db t operation u := by
  by_cases h : t.id = s.id
  · obtain rfl := db.services.eq_of_key_eq ht hs h
    exact Or.inr ⟨userId, hactor, hright⟩
  · exact Or.inl (hother h)

theorem unchanged_or_of_work {t : Service} {i : ServiceIteration} {iterationId userId : ℕ}
    (hw : WorkRight db iterationId userId i) (ht : t ∈ db.services.rows)
    (hactor : actor operation = some userId) (hop : namedIteration operation = some iterationId)
    (hother : t.id ≠ i.serviceId → SameService t.id db db') :
    SameService t.id db db' ∨ ∃ u, actor operation = some u ∧ MayChange db t operation u := by
  by_cases h : t.id = i.serviceId
  · exact Or.inr ⟨userId, hactor, WorkRight.mayChange hw hop ht h⟩
  · exact Or.inl (hother h)

/-- Either nothing of a service changes, or the acting user had the right to change it. -/
theorem service_unchanged_or_mayChange (hi : Invariant Nests db)
    (he : Effect env db operation db') {t : Service} (ht : t ∈ db.services.rows) :
    SameService t.id db db' ∨ ∃ u, actor operation = some u ∧ MayChange db t operation u := by
  cases he with
  | userRegistered _ _ _ => exact Or.inl (sameService_of_users _)
  | passwordModified _ _ => exact Or.inl (sameService_of_users _)
  | serviceCreated _ _ _ _ _ _ _ =>
    exact Or.inl (sameService_of_services
      (db.services.find?_insert_other (Table.key_ne_next ht)))
  | @maintainerRemoved _ _ _ s hs hid hr =>
    refine unchanged_or_of_service hs ht rfl (Or.inl hr.maintainer) (fun h => ?_)
    have hne : t.id ≠ _ := fun hts => h (hts.trans hid.symm)
    exact sameService_of_links (fun u => by simp [hne])
  | @maintainerAdded _ _ _ s hs hid hr _ _ =>
    refine unchanged_or_of_service hs ht rfl (Or.inl hr.maintainer) (fun h => ?_)
    have hne : t.id ≠ _ := fun hts => h (hts.trans hid.symm)
    exact sameService_of_links (fun u => by simp [hne])
  | @serviceDeleted _ _ s hs _ hr =>
    refine unchanged_or_of_service hs ht rfl (Or.inl hr.maintainer) (fun h => ?_)
    exact sameService_of_services (db.services.find?_update_other _ h)
  | @serviceRestored _ _ s hs _ hr _ =>
    refine unchanged_or_of_service hs ht rfl (Or.inl hr.maintainer) (fun h => ?_)
    exact sameService_of_services (db.services.find?_update_other _ h)
  | @iterationDeleted _ _ i s hm hid hs hsid hr _ =>
    refine unchanged_or_of_service hs ht rfl
      (mayChange_of_creator hr hm hsid (congrArg some hid.symm)) (fun h => ?_)
    apply sameService_of_iterations
    apply Table.filter_restrict
    intro j hj hjt
    rw [bne_iff_ne]
    intro hji
    rw [db.iterations.eq_of_key_eq hj hm hji, beq_iff_eq] at hjt
    exact h (hjt.symm.trans hsid.symm)
  | iterationInProgress _ => exact Or.inl (SameService.refl _ _)
  | @iterationStarted serviceId userId s drafts hs hid hr _ _ hcopy =>
    refine unchanged_or_of_service hs ht rfl (Or.inl hr) (fun h => ?_)
    obtain ⟨_, _, _, _, _, ho⟩ := started_copies hi hcopy
    refine ⟨rfl, fun _ => Iff.rfl, rfl, SameContainer.refl _ _, ?_, ?_⟩
    · apply db.iterations.filter_insert
      have hne : serviceId ≠ t.id := fun hst => h (hst.symm.trans hid.symm)
      simp [hne]
    · intro i hm _
      exact sameContainer_of_outside ho (Table.key_ne_next hm)
  | @iterationCommitted _ _ _ i s version live hw hs hsid _ _ hcopy =>
    refine unchanged_or_of_work hw ht rfl rfl (fun h => ?_)
    rw [hsid] at hcopy ⊢
    obtain ⟨_, _, _, _, _, ho⟩ := committed_copies hi hw.mem hcopy
    refine ⟨?_, fun _ => Iff.rfl, rfl, sameContainer_of_outside ho h, ?_,
      fun _ _ _ => SameContainer.refl _ _⟩
    · exact db.services.find?_update_other (f := publish i.description version) (fun _ => rfl) h
    · exact filter_iteration_update (f := markCommitted version) hw.mem (fun _ => rfl)
        (fun _ => rfl) h
  | @descriptionUpdated _ _ _ i hw =>
    refine unchanged_or_of_work hw ht rfl rfl (fun h => ?_)
    exact sameService_of_iterations (filter_iteration_update hw.mem _ (fun _ => rfl) h)
  | @categoryAdded serviceId _ _ _ s c hs hid hr hcs _ _ =>
    refine unchanged_or_of_service hs ht rfl (Or.inl hr) (fun h => ?_)
    apply sameService_of_categories
    apply Table.filter_insert
    have hne : c.serviceId ≠ t.id := fun hct => h (hct.symm.trans (hcs.trans hid.symm))
    simp [hne]
  | @categoryDeleted _ _ c s hc _ hs hsid hr =>
    refine unchanged_or_of_service hs ht rfl (Or.inl hr) (fun h => ?_)
    exact sameService_of_category_deleted hi hc (fun hts => h (hts.trans hsid.symm))
  | @categoryUpdated _ _ _ name c s hc _ hs hsid hr _ =>
    refine unchanged_or_of_service hs ht rfl (Or.inl hr.maintainer) (fun h => ?_)
    apply sameService_of_categories
    apply Table.filter_update
    intro d hd hk
    rw [db.categories.eq_of_key_eq hd hc hk]
    have hne : c.serviceId ≠ t.id := fun hct => h (hct.symm.trans hsid.symm)
    simp [renameCategory, hne]
  | @apiCategoryUpdated _ _ _ a s k ha _ hs hsid hr _ =>
    refine unchanged_or_of_service hs ht rfl (Or.inl hr) (fun h => ?_)
    apply sameService_of_live
    apply sameContainer_setCategories
    intro b hb
    obtain ⟨hb, hbt⟩ := ApiStore.mem_apisOf.mp hb
    apply if_neg
    intro hba
    rw [db.live.apis.eq_of_key_eq hb ha hba] at hbt
    exact h (hbt.symm.trans hsid.symm)
  | @draftAdded _ _ _ _ _ _ _ _ i _ _ hw _ _ _ _ _ _ _ hins =>
    refine unchanged_or_of_work hw ht rfl rfl (fun h => ?_)
    have ho := insertApi_sameOutside hins hi.drafts
    exact sameService_of_drafts hw.mem (hw.id ▸ ho) h
  | @draftCopied _ _ _ i _ _ _ hw _ _ _ _ _ _ _ hcopy =>
    refine unchanged_or_of_work hw ht rfl rfl (fun h => ?_)
    have ho := (copyDraft_spec hi.drafts hcopy).2.1
    exact sameService_of_drafts hw.mem (hw.id ▸ ho) h
  | @draftDeleted _ _ _ i d hw hd _ hdc =>
    refine unchanged_or_of_work hw ht rfl rfl (fun h => ?_)
    have ho := (removeDraft_spec hi.drafts hd).2.1
    rw [hdc, ← hw.id] at ho
    exact sameService_of_drafts hw.mem ho h
  | @draftUpdated _ _ _ _ _ _ _ _ _ _ i d _ _ hw hd _ hdc _ _ _ _ hrw =>
    refine unchanged_or_of_work hw ht rfl rfl (fun h => ?_)
    have ho := (rewriteDraft_spec (nests_joint env) hi.drafts hd
      (fun p _ => paramRespects_true p) hrw).2.1
    rw [hdc, ← hw.id] at ho
    exact sameService_of_drafts hw.mem ho h

end Step

/-- The user had the rights of a maintainer in an earlier state of the run, in which he
started the iteration. -/
def StartedWithRight (db : Database) (i : ServiceIteration) (userId : ℕ) : Prop :=
  ∃ db₀ env db₁ s, Reachable db₀ ∧
    transaction db₀ ⟨env, .serviceStartIteration i.serviceId userId⟩ = .ok db₁ ∧
    Runs transaction (fun _ _ => True) db₁ db ∧
    s ∈ db₀.services.rows ∧ s.id = i.serviceId ∧ MaintainerRight db₀ s userId ∧
    (∀ j ∈ db₀.iterations.rows, j.id ≠ i.id) ∧ ∃ j ∈ db₁.iterations.rows, j.id = i.id

theorem iterations_of_effect {env : Environment} {db db' : Database} {operation : Operation}
    (he : Effect env db operation db') {i : ServiceIteration} (hm : i ∈ db'.iterations.rows) :
    (∃ j ∈ db.iterations.rows, j.id = i.id ∧ j.serviceId = i.serviceId ∧
      j.creatorId = i.creatorId) ∨
    ∃ s ∈ db.services.rows, ∃ userId, operation = .serviceStartIteration s.id userId ∧
      MaintainerRight db s userId ∧
      i = ⟨db.iterations.next, s.id, some userId, none, none, false⟩ := by
  have old : ∀ {k : ℕ} (f : ServiceIteration → ServiceIteration)
      (hf : ∀ r, key (f r) = key r), (∀ r, (f r).serviceId = r.serviceId ∧
        (f r).creatorId = r.creatorId) → i ∈ (db.iterations.update k f hf).rows →
      ∃ j ∈ db.iterations.rows, j.id = i.id ∧ j.serviceId = i.serviceId ∧
        j.creatorId = i.creatorId := by
    intro k f hf hkeep hm
    obtain ⟨j, hj, hid, ⟨_, rfl⟩ | ⟨_, rfl⟩⟩ := db.iterations.update_origin hf hm
    · exact ⟨j, hj, hid, (hkeep j).1.symm, (hkeep j).2.symm⟩
    · exact ⟨i, hj, rfl, rfl, rfl⟩
  cases he with
  | iterationDeleted _ _ _ _ _ _ =>
    exact Or.inl ⟨i, List.mem_of_mem_filter hm, rfl, rfl, rfl⟩
  | @iterationStarted serviceId userId s drafts hs hid hr _ _ _ =>
    rcases List.mem_append.mp hm with hm | hm
    · exact Or.inl ⟨i, hm, rfl, rfl, rfl⟩
    · refine Or.inr ⟨s, hs, userId, by rw [hid], hr, ?_⟩
      rw [List.mem_singleton.mp hm, hid]
      rfl
  | @iterationCommitted _ _ _ _ _ version _ _ _ _ _ _ _ =>
    exact Or.inl (old (markCommitted version) (fun _ => rfl) (fun _ => ⟨rfl, rfl⟩) hm)
  | @descriptionUpdated _ description _ _ _ =>
    exact Or.inl (old (setDescription description) (fun _ => rfl) (fun _ => ⟨rfl, rfl⟩) hm)
  | _ => exact Or.inl ⟨i, hm, rfl, rfl, rfl⟩

theorem creators_started_with_right {db : Database} (h : Reachable db) :
    ∀ i ∈ db.iterations.rows, ∀ userId, i.creatorId = some userId →
      StartedWithRight db i userId := by
  obtain ⟨db₀, h₀, hr⟩ := h
  induction hr with
  | refl =>
    intro i hm
    rw [h₀.iterations] at hm
    cases hm
  | @tail u e hrun _ ih =>
    have hu : Reachable u := ⟨db₀, h₀, hrun⟩
    have next : Runs transaction (fun _ _ => True) u (committed (transaction u e) u) :=
      (Runs.refl u).tail trivial
    have carry : ∀ i userId, StartedWithRight u i userId →
        StartedWithRight (committed (transaction u e) u) i userId := by
      rintro i userId ⟨d, env, d', s, hd, hstart, hto, rest⟩
      exact ⟨d, env, d', s, hd, hstart, hto.trans next, rest⟩
    intro i hm userId hc
    rcases committed_cases (transaction u e) u with ⟨v, hv, he⟩ | he
    · rw [he] at hm
      rcases iterations_of_effect (transaction_effect hv) hm with ⟨j, hj, hid, hs, hcj⟩ |
        ⟨s, hs, v', hop, hright, rfl⟩
      · obtain ⟨d, env, d', s, hd, hstart, hto, hsm, hsid, hr, hnew, hnew'⟩ :=
          carry j userId (ih j hj userId (hcj.trans hc))
        exact ⟨d, env, d', s, hd, hs ▸ hstart, hto, hsm, hsid.trans hs, hr, hid ▸ hnew,
          hid ▸ hnew'⟩
      · have hv' : v' = userId := Option.some.inj hc
        subst hv'
        refine ⟨u, e.env, v, s, hu, hop ▸ hv, he ▸ Runs.refl _, hs, rfl, hright,
          fun j hj => Table.key_ne_next hj, _, hm, rfl⟩
    · rw [he] at hm ⊢
      exact ih i hm userId hc

/-- Whoever changes a row of a service is its owner, a current maintainer or of level 0, or
works on an iteration which he started when he was one of these. -/
theorem changes_need_right {db db' : Database} (hreach : Reachable db) {request : Request}
    (h : transaction db request = .ok db') {s : Service} (hs : s ∈ db.services.rows)
    (hchange : ¬ SameService s.id db db') :
    ∃ u, actor request.operation = some u ∧
      (MaintainerRight db s u ∨ ∃ i ∈ db.iterations.rows, i.serviceId = s.id ∧
        namedIteration request.operation = some i.id ∧ i.creatorId = some u ∧
        StartedWithRight db i u) := by
  rcases service_unchanged_or_mayChange (reachable_invariant hreach) (transaction_effect h) hs
    with hsame | ⟨u, hu, hmay⟩
  · exact absurd hsame hchange
  · refine ⟨u, hu, ?_⟩
    rcases hmay with hmay | ⟨i, hm, his, hop, hc⟩
    · exact Or.inl hmay
    · exact Or.inr ⟨i, hm, his, hop, hc, creators_started_with_right hreach i hm u hc⟩

def revoked : Database :=
  play published [.serviceAddOrRemoveServiceMaintainerById 1 1 2, .serviceStartIteration 1 2,
    .serviceAddOrRemoveServiceMaintainerById 1 1 2]

theorem revoked_reachable : Reachable revoked := published_reachable.play _

theorem revoked_has_no_right : ¬ MaintainerRight revoked publishedService 2 := by
  unfold MaintainerRight Maintains AtLevelZero
  decide +kernel

theorem revoked_update_succeeds :
    transaction revoked ⟨plainEnvironment, .serviceUpdateDescription 2 (some "mine") 2⟩ =
      .ok (play revoked [.serviceUpdateDescription 2 (some "mine") 2]) := by
  obtain ⟨r, h⟩ := played (.serviceUpdateDescription 2 (some "mine") 2) rfl
    (show (serviceUpdateDescription 2 (some "mine") 2 revoked).isOk = true by decide +kernel)
  exact map_fst_eq_ok.mpr ⟨r, h⟩

theorem revoked_update_changes :
    ¬ SameService publishedService.id revoked
      (play revoked [.serviceUpdateDescription 2 (some "mine") 2]) := by
  intro h
  have hne : (play revoked [.serviceUpdateDescription 2 (some "mine") 2]).iterations.rows.filter
      (fun i => i.serviceId == 1) ≠ revoked.iterations.rows.filter (fun i => i.serviceId == 1) := by
    decide +kernel
  exact hne h.iterations

/-- The rights of an owner, a current maintainer or level 0 are not what every change needs. -/
theorem revoked_creator_still_writes :
    ¬ ∀ (db db' : Database) (request : Request) (s : Service), Reachable db →
      transaction db request = .ok db' → s ∈ db.services.rows → ¬ SameService s.id db db' →
      ∃ u, actor request.operation = some u ∧ MaintainerRight db s u := by
  intro h
  obtain ⟨u, hu, hr⟩ := h revoked _ _ publishedService revoked_reachable revoked_update_succeeds
    (by decide +kernel) revoked_update_changes
  cases hu
  exact revoked_has_no_right hr

theorem revoked_update_needs_iteration :
    ∃ u, actor (.serviceUpdateDescription 2 (some "mine") 2) = some u ∧
      (MaintainerRight revoked publishedService u ∨ ∃ i ∈ revoked.iterations.rows,
        i.serviceId = publishedService.id ∧
        namedIteration (.serviceUpdateDescription 2 (some "mine") 2) = some i.id ∧
        i.creatorId = some u ∧ StartedWithRight revoked i u) :=
  changes_need_right revoked_reachable revoked_update_succeeds (by decide +kernel)
    revoked_update_changes

end WriteRights
