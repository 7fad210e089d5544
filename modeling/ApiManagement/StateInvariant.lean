import ApiManagement.OperationEffects

/-! # The invariant of reachable databases

Foreign keys point to rows, an api's category belongs to the api's service, uuids are unique,
and both stores are well formed. The relation between the fields of a request param and its
children stays a parameter: what it may be depends on the payloads a run contains. -/
namespace StateInvariant

open TransactionRuns KeyedTables ParentLinkedRows PythonRuntime ServiceSchema ApiStores
  StoreCopies UserOperations ServiceOperations ApiOperations DraftWrites OperationRuns
  OperationEffects

/-- The owner exists, and the category, if any, is one of the service. -/
def Refers (db : Database) (serviceId : ℕ) (f : ApiFields) : Prop :=
  db.users.contains f.ownerId = true ∧
    ∀ k, f.categoryId = some k → ∃ c ∈ db.categories.rows, c.id = k ∧ c.serviceId = serviceId

structure Invariant (link : RequestFields → RequestFields → Prop) (db : Database) : Prop where
  uuid_unique : ∀ s ∈ db.services.rows, ∀ t ∈ db.services.rows,
    s.serviceUuid = t.serviceUuid → s = t
  service_owner : ∀ s ∈ db.services.rows, db.users.contains s.ownerId = true
  iteration_service : ∀ i ∈ db.iterations.rows, db.services.contains i.serviceId = true
  iteration_creator : ∀ i ∈ db.iterations.rows, ∀ u, i.creatorId = some u →
    db.users.contains u = true
  category_service : ∀ c ∈ db.categories.rows, db.services.contains c.serviceId = true
  live_refers : ∀ a ∈ db.live.apis.rows,
    db.services.contains a.container = true ∧ Refers db a.container a.fields
  draft_refers : ∀ a ∈ db.drafts.apis.rows, ∃ i ∈ db.iterations.rows,
    i.id = a.container ∧ Refers db i.serviceId a.fields
  live : WellFormed link db.live
  drafts : WellFormed link db.drafts

theorem initial_invariant {link : RequestFields → RequestFields → Prop} {db : Database}
    (h : Initial db) : Invariant link db := by
  obtain ⟨_, _, hs, _, hi, hc, hl, hd⟩ := h
  constructor
  · rw [hs]; simp
  · rw [hs]; simp
  · rw [hi]; simp
  · rw [hi]; simp
  · rw [hc]; simp
  · rw [hl]; simp [ApiStore.empty]
  · rw [hd]; simp [ApiStore.empty]
  · rw [hl]; exact empty_wellFormed link
  · rw [hd]; exact empty_wellFormed link

section Replace

variable {link : RequestFields → RequestFields → Prop} {db : Database}

theorem Refers.of_users {serviceId : ℕ} {f : ApiFields} {users : Table User}
    (h : Refers db serviceId f)
    (hu : ∀ k, db.users.contains k = true → users.contains k = true) :
    Refers { db with users := users } serviceId f :=
  ⟨hu _ h.1, h.2⟩

theorem Invariant.of_users (hi : Invariant link db) {users : Table User}
    (hu : ∀ k, db.users.contains k = true → users.contains k = true) :
    Invariant link { db with users := users } where
  uuid_unique := hi.uuid_unique
  service_owner s hs := hu _ (hi.service_owner s hs)
  iteration_service := hi.iteration_service
  iteration_creator i hm u hc := hu _ (hi.iteration_creator i hm u hc)
  category_service := hi.category_service
  live_refers a ha := ⟨(hi.live_refers a ha).1, (hi.live_refers a ha).2.of_users hu⟩
  draft_refers a ha := by
    obtain ⟨i, hm, hid, hr⟩ := hi.draft_refers a ha
    exact ⟨i, hm, hid, hr.of_users hu⟩
  live := hi.live
  drafts := hi.drafts

theorem Invariant.of_services (hi : Invariant link db) {services : Table Service}
    (hs : ∀ k, db.services.contains k = true → services.contains k = true)
    (huuid : ∀ s ∈ services.rows, ∀ t ∈ services.rows, s.serviceUuid = t.serviceUuid → s = t)
    (howner : ∀ s ∈ services.rows, db.users.contains s.ownerId = true) :
    Invariant link { db with services := services } where
  uuid_unique := huuid
  service_owner := howner
  iteration_service i hm := hs _ (hi.iteration_service i hm)
  iteration_creator := hi.iteration_creator
  category_service c hc := hs _ (hi.category_service c hc)
  live_refers a ha := ⟨hs _ (hi.live_refers a ha).1, (hi.live_refers a ha).2⟩
  draft_refers := hi.draft_refers
  live := hi.live
  drafts := hi.drafts

/-- A row update that keeps the uuid and the owner. -/
theorem Invariant.of_service_update (hi : Invariant link db) (k : ℕ) (f : Service → Service)
    (hf : ∀ r, key (f r) = key r) (hkeep : ∀ s, (f s).serviceUuid = s.serviceUuid ∧
      (f s).ownerId = s.ownerId) :
    Invariant link { db with services := db.services.update k f hf } := by
  refine hi.of_services (fun _ => db.services.contains_update hf) ?_ ?_
  · intro s hs t ht he
    obtain ⟨x, hx, rfl⟩ := Table.mem_update.mp hs
    obtain ⟨y, hy, rfl⟩ := Table.mem_update.mp ht
    have huuid : ∀ z : Service, (if key z = k then f z else z).serviceUuid = z.serviceUuid := by
      intro z
      split
      · exact (hkeep z).1
      · rfl
    rw [huuid, huuid] at he
    rw [hi.uuid_unique x hx y hy he]
  · apply Table.of_mem_update _ hf hi.service_owner
    intro s hs
    rwa [(hkeep s).2]

theorem Invariant.of_links (hi : Invariant link db) (links : Finset (ℕ × ℕ)) :
    Invariant link { db with userServiceLink := links } :=
  ⟨hi.uuid_unique, hi.service_owner, hi.iteration_service, hi.iteration_creator,
    hi.category_service, hi.live_refers, hi.draft_refers, hi.live, hi.drafts⟩

/-- Iterations without drafts may go. -/
theorem Invariant.of_iterations (hi : Invariant link db) {iterations : Table ServiceIteration}
    (hkeep : ∀ i ∈ db.iterations.rows, (∃ a ∈ db.drafts.apis.rows, a.container = i.id) →
      ∃ j ∈ iterations.rows, j.id = i.id ∧ j.serviceId = i.serviceId)
    (hservice : ∀ i ∈ iterations.rows, db.services.contains i.serviceId = true)
    (hcreator : ∀ i ∈ iterations.rows, ∀ u, i.creatorId = some u →
      db.users.contains u = true) :
    Invariant link { db with iterations := iterations } where
  uuid_unique := hi.uuid_unique
  service_owner := hi.service_owner
  iteration_service := hservice
  iteration_creator := hcreator
  category_service := hi.category_service
  live_refers := hi.live_refers
  draft_refers a ha := by
    obtain ⟨i, hm, hid, hr⟩ := hi.draft_refers a ha
    obtain ⟨j, hj, hji, hjs⟩ := hkeep i hm ⟨a, ha, hid.symm⟩
    exact ⟨j, hj, hji.trans hid, hjs ▸ hr⟩
  live := hi.live
  drafts := hi.drafts

theorem Invariant.of_iteration_update (hi : Invariant link db) (k : ℕ)
    (f : ServiceIteration → ServiceIteration) (hf : ∀ r, key (f r) = key r)
    (hkeep : ∀ i, (f i).serviceId = i.serviceId ∧ (f i).creatorId = i.creatorId) :
    Invariant link { db with iterations := db.iterations.update k f hf } := by
  refine hi.of_iterations ?_ ?_ ?_
  · intro i hm _
    obtain ⟨j, hj, hid, rfl | rfl⟩ := db.iterations.update_image hf hm
    · exact ⟨f i, hj, hid, (hkeep i).1⟩
    · exact ⟨j, hj, rfl, rfl⟩
  · apply Table.of_mem_update _ hf hi.iteration_service
    intro i hs
    rwa [(hkeep i).1]
  · apply Table.of_mem_update _ hf hi.iteration_creator
    intro i hc
    rwa [(hkeep i).2]

/-- Categories without apis may go. -/
theorem Invariant.of_categories (hi : Invariant link db) {categories : Table ApiCategory}
    (hkeep : ∀ c ∈ db.categories.rows,
      (∃ a, (a ∈ db.live.apis.rows ∨ a ∈ db.drafts.apis.rows) ∧
        a.fields.categoryId = some c.id) →
      ∃ d ∈ categories.rows, d.id = c.id ∧ d.serviceId = c.serviceId)
    (hservice : ∀ c ∈ categories.rows, db.services.contains c.serviceId = true) :
    Invariant link { db with categories := categories } := by
  have refers : ∀ (s : ℕ) (a : ApiRow), (a ∈ db.live.apis.rows ∨ a ∈ db.drafts.apis.rows) →
      Refers db s a.fields → Refers { db with categories := categories } s a.fields := by
    intro s a ha hr
    refine ⟨hr.1, ?_⟩
    intro k hk
    obtain ⟨c, hc, rfl, hcs⟩ := hr.2 k hk
    obtain ⟨d, hd, hid, hds⟩ := hkeep c hc ⟨a, ha, hk⟩
    exact ⟨d, hd, hid, hds.trans hcs⟩
  refine ⟨hi.uuid_unique, hi.service_owner, hi.iteration_service, hi.iteration_creator, hservice,
    ?_, ?_, hi.live, hi.drafts⟩
  · intro a ha
    obtain ⟨hs, hr⟩ := hi.live_refers a ha
    exact ⟨hs, refers _ a (Or.inl ha) hr⟩
  · intro a ha
    obtain ⟨i, hm, hid, hr⟩ := hi.draft_refers a ha
    exact ⟨i, hm, hid, refers _ a (Or.inr ha) hr⟩

theorem Invariant.of_live (hi : Invariant link db) {live : ApiStore} (hw : WellFormed link live)
    (hr : ∀ a ∈ live.apis.rows,
      db.services.contains a.container = true ∧ Refers db a.container a.fields) :
    Invariant link { db with live := live } :=
  ⟨hi.uuid_unique, hi.service_owner, hi.iteration_service, hi.iteration_creator,
    hi.category_service, hr, hi.draft_refers, hw, hi.drafts⟩

theorem Invariant.of_drafts (hi : Invariant link db) {drafts : ApiStore}
    (hw : WellFormed link drafts) (hr : ∀ a ∈ drafts.apis.rows,
      ∃ i ∈ db.iterations.rows, i.id = a.container ∧ Refers db i.serviceId a.fields) :
    Invariant link { db with drafts := drafts } :=
  ⟨hi.uuid_unique, hi.service_owner, hi.iteration_service, hi.iteration_creator,
    hi.category_service, hi.live_refers, hr, hi.live, hw⟩

end Replace

section Copies

variable {link : RequestFields → RequestFields → Prop} {db : Database}

theorem apisOf_fetch (st : ApiStore) (c : ℕ) (env : Environment) :
    ((env.fetch (st.apisOf c)).map ApiRow.id).Nodup ∧
      ∀ a, a ∈ env.fetch (st.apisOf c) ↔ a ∈ st.apis.rows ∧ a.container = c := by
  constructor
  · have hp := (env.fetch_perm (st.apisOf c)).map ApiRow.id
    exact hp.nodup_iff.mpr (st.apis.nodup.sublist (List.filter_sublist.map ApiRow.id))
  · intro a
    rw [env.mem_fetch, ApiStore.mem_apisOf]

theorem fetched_distinct {st : ApiStore} (hw : WellFormed link st) {c : ℕ} (env : Environment) :
    ∀ a ∈ env.fetch (st.apisOf c), ∀ b ∈ env.fetch (st.apisOf c),
      a.fields.method = b.fields.method → a.fields.name = b.fields.name → a = b := by
  intro a ha b hb
  obtain ⟨ha, hac⟩ := ((apisOf_fetch _ _ env).2 a).mp ha
  obtain ⟨hb, hbc⟩ := ((apisOf_fetch _ _ env).2 b).mp hb
  exact hw.key_unique a ha b hb (hac.trans hbc.symm)

theorem fetched_linked {F : Type} {link : F → F → Prop} {t : Table (LinkedRow F)}
    (h : WellLinked link t.rows) (env : Environment) (a : ℕ) :
    WellLinked link (env.fetch (t.rows.filter (fun r => r.holder == a))) ∧
      ((env.fetch (t.rows.filter (fun r => r.holder == a))).map LinkedRow.id).Nodup := by
  have hp := env.fetch_perm (t.rows.filter (fun r => r.holder == a))
  constructor
  · intro r hr
    exact (h.filter (fun i => i == a) r (hp.mem_iff.mp hr)).mono hp.symm.subset
  · exact (hp.map _).nodup_iff.mpr (t.nodup.sublist (List.filter_sublist.map _))

theorem parent_takes_children {F : Type} [ParamFields F] {rows : List (LinkedRow F)}
    (hl : WellLinked Nests rows) (hn : (rows.map LinkedRow.id).Nodup) :
    ∀ r ∈ rows, ∀ q ∈ rows, r.parent = some q.id → mayHaveChildren q.fields = true := by
  intro r hr q hq hp
  obtain ⟨x, hx, hid, _, hlink⟩ := hl.parent hr hp
  rwa [List.inj_on_of_nodup_map hn hx hq hid] at hlink

theorem no_draft_of_new_iteration (hi : Invariant link db) :
    ∀ a ∈ db.drafts.apis.rows, a.container ≠ db.iterations.next := by
  intro a ha he
  obtain ⟨i, hm, hid, _⟩ := hi.draft_refers a ha
  exact Table.key_ne_next hm (hid.trans he)

theorem start_copies (hi : Invariant link db) (env : Environment) (serviceId userId : ℕ) :
    ∃ drafts ν μ ρ, copyApis env (draftReferences (insertIteration serviceId userId db)) db.live
        (env.fetch (db.live.apisOf serviceId)) db.iterations.next db.drafts = .ok drafts ∧
      CopiedApis db.live db.iterations.next (env.fetch (db.live.apisOf serviceId)) db.drafts
        drafts ν μ ρ ∧
      WellFormed link drafts ∧ SameOutside db.iterations.next db.drafts drafts := by
  refine copyApis_spec hi.live env _ (apisOf_fetch _ _ env).1 ?_ (fetched_distinct hi.live env)
    db.drafts hi.drafts ?_
  · intro a ha
    obtain ⟨ha, _⟩ := ((apisOf_fetch _ _ env).2 a).mp ha
    obtain ⟨_, hu, hc⟩ := hi.live_refers a ha
    refine ⟨Table.contains_iff.mpr ⟨_, List.mem_append_right _ List.mem_cons_self, rfl⟩, hu, ?_⟩
    intro k hk
    obtain ⟨c, hcm, hid, _⟩ := hc k hk
    exact Table.contains_iff.mpr ⟨c, hcm, hid⟩
  · intro _ _ b hb hbc
    exact absurd hbc (no_draft_of_new_iteration hi b hb)

theorem started_copies (hi : Invariant link db) {env : Environment} {serviceId userId : ℕ}
    {drafts : ApiStore} (h : copyApis env (draftReferences (insertIteration serviceId userId db))
      db.live (env.fetch (db.live.apisOf serviceId)) db.iterations.next db.drafts = .ok drafts) :
    ∃ ν μ ρ, CopiedApis db.live db.iterations.next (env.fetch (db.live.apisOf serviceId)) db.drafts
        drafts ν μ ρ ∧
      WellFormed link drafts ∧ SameOutside db.iterations.next db.drafts drafts := by
  obtain ⟨drafts', ν, μ, ρ, h', rest⟩ := start_copies hi env serviceId userId
  have hsame : drafts' = drafts := Except.ok.inj (h'.symm.trans h)
  exact ⟨ν, μ, ρ, hsame ▸ rest⟩

def cleared (db : Database) (serviceId : ℕ) : ApiStore :=
  deleteApis (fun a => a.container == serviceId) db.live

theorem cleared_container {a : Api} {serviceId : ℕ} :
    a ∈ (cleared db serviceId).apis.rows ↔ a ∈ db.live.apis.rows ∧ a.container ≠ serviceId := by
  simp [cleared, deleteApis_rows]

theorem commit_copies (hi : Invariant link db) (env : Environment) {i : ServiceIteration}
    (hm : i ∈ db.iterations.rows) :
    ∃ live ν μ ρ, copyApis env (liveReferences db) db.drafts (env.fetch (db.drafts.apisOf i.id))
        i.serviceId (cleared db i.serviceId) = .ok live ∧
      CopiedApis db.drafts i.serviceId (env.fetch (db.drafts.apisOf i.id))
        (cleared db i.serviceId) live ν μ ρ ∧
      WellFormed link live ∧ SameOutside i.serviceId db.live live := by
  have hw := deleteApis_wellFormed hi.live (fun a => a.container == i.serviceId)
  have ho : SameOutside i.serviceId db.live (cleared db i.serviceId) :=
    deleteApis_sameOutside hi.live (fun a _ ha => beq_iff_eq.mp ha)
  have hallow : ∀ a ∈ env.fetch (db.drafts.apisOf i.id),
      (liveReferences db).Allow i.serviceId a.fields := by
    intro a ha
    obtain ⟨ha, hac⟩ := ((apisOf_fetch _ _ env).2 a).mp ha
    obtain ⟨j, hj, hid, hu, hc⟩ := hi.draft_refers a ha
    have hij : j = i := db.iterations.eq_of_key_eq hj hm (hid.trans hac)
    subst j
    refine ⟨hi.iteration_service i hm, hu, ?_⟩
    intro k hk
    obtain ⟨c, hcm, hcid, _⟩ := hc k hk
    exact Table.contains_iff.mpr ⟨c, hcm, hcid⟩
  obtain ⟨live, ν, μ, ρ, he, hc, hw', ho'⟩ := copyApis_spec hi.drafts env _
    (apisOf_fetch _ _ env).1 hallow (fetched_distinct hi.drafts env) (cleared db i.serviceId) hw
    (fun _ _ b hb hbc => absurd hbc (cleared_container.mp hb).2)
  exact ⟨live, ν, μ, ρ, he, hc, hw', ho.trans ho'⟩

theorem committed_copies (hi : Invariant link db) {env : Environment} {i : ServiceIteration}
    (hm : i ∈ db.iterations.rows) {live : ApiStore}
    (h : copyApis env (liveReferences db) db.drafts (env.fetch (db.drafts.apisOf i.id))
      i.serviceId (cleared db i.serviceId) = .ok live) :
    ∃ ν μ ρ, CopiedApis db.drafts i.serviceId (env.fetch (db.drafts.apisOf i.id))
        (cleared db i.serviceId) live ν μ ρ ∧
      WellFormed link live ∧ SameOutside i.serviceId db.live live := by
  obtain ⟨live', ν, μ, ρ, h', rest⟩ := commit_copies hi env hm
  have hsame : live' = live := Except.ok.inj (h'.symm.trans h)
  exact ⟨ν, μ, ρ, hsame ▸ rest⟩

end Copies

section Preservation

variable {link : RequestFields → RequestFields → Prop} {joint : JsonValue → JsonValue → Prop}
  {db : Database}

def PayloadGuard (joint : JsonValue → JsonValue → Prop) : Operation → Prop
  | .apiUpdateApiByApiDraftId _ _ _ _ _ _ _ _ reqParams _ => PayloadRespects joint reqParams
  | _ => True

theorem Invariant.of_live_categories (hi : Invariant link db) {g : ApiRow → Option ℕ}
    (hg : ∀ a ∈ db.live.apis.rows, ∀ k, g a = some k →
      ∃ c ∈ db.categories.rows, c.id = k ∧ c.serviceId = a.container) :
    Invariant link { db with live := setCategories g db.live } := by
  refine hi.of_live (setCategories_wellFormed g hi.live) ?_
  intro a ha
  obtain ⟨b, hb, rfl⟩ := List.mem_map.mp ha
  obtain ⟨hs, hr⟩ := hi.live_refers b hb
  exact ⟨hs, hr.1, hg b hb⟩

theorem Invariant.of_draft_categories (hi : Invariant link db) {g : ApiRow → Option ℕ}
    (hg : ∀ a ∈ db.drafts.apis.rows, ∀ k, g a = some k → a.fields.categoryId = some k) :
    Invariant link { db with drafts := setCategories g db.drafts } := by
  refine hi.of_drafts (setCategories_wellFormed g hi.drafts) ?_
  intro a ha
  obtain ⟨b, hb, rfl⟩ := List.mem_map.mp ha
  obtain ⟨i, hm, hid, hr⟩ := hi.draft_refers b hb
  exact ⟨i, hm, hid, hr.1, fun k hk => hr.2 k (hg b hb k hk)⟩

/-- A category is deleted after the foreign keys to it have been set to NULL. -/
theorem Invariant.of_category_deleted (hi : Invariant link db) (k : ℕ) :
    Invariant link { db with
      live := setCategories (clearCategory k) db.live
      drafts := setCategories (clearCategory k) db.drafts
      categories := db.categories.restrict (fun d => d.id != k) } := by
  have clear : ∀ (a : ApiRow) (j : ℕ), clearCategory k a = some j →
      a.fields.categoryId = some j ∧ j ≠ k := by
    intro a j hj
    unfold clearCategory at hj
    split at hj
    · cases hj
    · rename_i hne
      exact ⟨hj, fun he => hne (he ▸ hj)⟩
  have hl := hi.of_live_categories (g := clearCategory k)
    (fun a ha j hj => (hi.live_refers a ha).2.2 j (clear a j hj).1)
  have hd := hl.of_draft_categories (g := clearCategory k) (fun a _ j hj => (clear a j hj).1)
  refine hd.of_categories ?_ ?_
  · rintro c hc ⟨a, ha, hac⟩
    have hne : c.id ≠ k := by
      rcases ha with ha | ha
      · obtain ⟨b, _, rfl⟩ := List.mem_map.mp ha
        exact (clear b c.id hac).2
      · obtain ⟨b, _, rfl⟩ := List.mem_map.mp ha
        exact (clear b c.id hac).2
    exact ⟨c, List.mem_filter.mpr ⟨hc, by simpa using hne⟩, rfl, rfl⟩
  · exact fun c hc => hi.category_service c (List.mem_of_mem_filter hc)

/-- A new iteration with the drafts copied into it. -/
theorem Invariant.of_started (hi : Invariant link db) {serviceId userId : ℕ} {env : Environment}
    (hs : db.services.contains serviceId = true) (hu : db.users.contains userId = true)
    {drafts : ApiStore} (h : copyApis env (draftReferences (insertIteration serviceId userId db))
      db.live (env.fetch (db.live.apisOf serviceId)) db.iterations.next db.drafts = .ok drafts) :
    Invariant link { insertIteration serviceId userId db with drafts := drafts } := by
  obtain ⟨ν, μ, ρ, hc, hw, _⟩ := started_copies hi h
  have hi' : Invariant link (insertIteration serviceId userId db) := by
    refine hi.of_iterations ?_ ?_ ?_
    · exact fun i hm _ => ⟨i, List.mem_append_left _ hm, rfl, rfl⟩
    · intro i hm
      rcases List.mem_append.mp hm with hm | hm
      · exact hi.iteration_service i hm
      · rw [List.mem_singleton.mp hm]
        exact hs
    · intro i hm v hv
      rcases List.mem_append.mp hm with hm | hm
      · exact hi.iteration_creator i hm v hv
      · rw [List.mem_singleton.mp hm] at hv
        exact Option.some.inj hv ▸ hu
  refine hi'.of_drafts hw ?_
  intro a ha
  rw [hc.rows] at ha
  rcases List.mem_append.mp ha with ha | ha
  · exact hi'.draft_refers a ha
  · obtain ⟨b, hb, rfl⟩ := List.mem_map.mp ha
    obtain ⟨hb, hbc⟩ := ((apisOf_fetch _ _ env).2 b).mp hb
    obtain ⟨_, hr⟩ := hi.live_refers b hb
    exact ⟨_, List.mem_append_right _ List.mem_cons_self, rfl, hr.1, fun k hk => hbc ▸ hr.2 k hk⟩

/-- The live apis of a service replaced by copies of an iteration's drafts. -/
theorem Invariant.of_committed (hi : Invariant link db) {i : ServiceIteration}
    (hm : i ∈ db.iterations.rows) {env : Environment} {version : VarChar 32} {live : ApiStore}
    (h : copyApis env (liveReferences db) db.drafts (env.fetch (db.drafts.apisOf i.id))
      i.serviceId (cleared db i.serviceId) = .ok live) :
    Invariant link { db with
      services := db.services.update i.serviceId (publish i.description version) (fun _ => rfl)
      iterations := db.iterations.update i.id (markCommitted version) (fun _ => rfl)
      live := live } := by
  obtain ⟨ν, μ, ρ, hc, hw, _⟩ := committed_copies hi hm h
  have hs := hi.of_service_update i.serviceId (publish i.description version) (fun _ => rfl)
    (fun _ => ⟨rfl, rfl⟩)
  have hit := hs.of_iteration_update i.id (markCommitted version) (fun _ => rfl)
    (fun _ => ⟨rfl, rfl⟩)
  apply hit.of_live hw
  intro a ha
  rw [hc.rows] at ha
  rcases List.mem_append.mp ha with ha | ha
  · obtain ⟨ha, _⟩ := cleared_container.mp ha
    exact hit.live_refers a ha
  · obtain ⟨b, hb, rfl⟩ := List.mem_map.mp ha
    obtain ⟨hb, hbc⟩ := ((apisOf_fetch _ _ env).2 b).mp hb
    obtain ⟨j, hj, hid, hr⟩ := hi.draft_refers b hb
    have hij : j = i := db.iterations.eq_of_key_eq hj hm (hid.trans hbc)
    subst j
    exact ⟨Table.contains_update (f := publish i.description version) _ (fun _ => rfl)
      (hi.iteration_service i hm), hr⟩

theorem Invariant.of_service_inserted (hi : Invariant link db) {s : Service}
    (hfresh : ∀ t ∈ db.services.rows, t.serviceUuid ≠ s.serviceUuid)
    (howner : db.users.contains s.ownerId = true) :
    Invariant link { db with services := db.services.insert s } := by
  refine hi.of_services (fun _ => db.services.contains_insert) ?_ ?_
  · intro x hx y hy he
    rcases List.mem_append.mp hx with hx | hx <;> rcases List.mem_append.mp hy with hy | hy
    · exact hi.uuid_unique x hx y hy he
    · rw [List.mem_singleton.mp hy] at he
      exact absurd he (hfresh x hx)
    · rw [List.mem_singleton.mp hx] at he
      exact absurd he.symm (hfresh y hy)
    · rw [List.mem_singleton.mp hx, List.mem_singleton.mp hy]
  · intro x hx
    rcases List.mem_append.mp hx with hx | hx
    · exact hi.service_owner x hx
    · rw [List.mem_singleton.mp hx]
      exact howner

theorem Invariant.of_iteration_deleted (hi : Invariant link db) {k : ℕ}
    (hnone : db.drafts.apisOf k = []) :
    Invariant link { db with iterations := db.iterations.restrict (fun j => j.id != k) } := by
  refine hi.of_iterations ?_ (fun j hj => hi.iteration_service j (List.mem_of_mem_filter hj))
    (fun j hj => hi.iteration_creator j (List.mem_of_mem_filter hj))
  rintro j hj ⟨a, ha, haj⟩
  have hne : j.id ≠ k := by
    intro hjk
    have hmem : a ∈ db.drafts.apisOf k := ApiStore.mem_apisOf.mpr ⟨ha, haj.trans hjk⟩
    rw [hnone] at hmem
    cases hmem
  exact ⟨j, List.mem_filter.mpr ⟨hj, by simpa using hne⟩, rfl, rfl⟩

theorem Invariant.of_category_inserted (hi : Invariant link db) {c : ApiCategory}
    (hs : db.services.contains c.serviceId = true) :
    Invariant link { db with categories := db.categories.insert c } := by
  refine hi.of_categories (fun d hd _ => ⟨d, List.mem_append_left _ hd, rfl, rfl⟩) ?_
  intro d hd
  rcases List.mem_append.mp hd with hd | hd
  · exact hi.category_service d hd
  · rw [List.mem_singleton.mp hd]
    exact hs

theorem Invariant.of_draft_inserted (hi : Invariant link db) {drafts : ApiStore}
    (hw : WellFormed link drafts) {iterationId : ℕ} {f : ApiFields}
    (hrows : drafts.apis = db.drafts.apis.insert ⟨0, iterationId, f⟩) {i : ServiceIteration}
    (hm : i ∈ db.iterations.rows) (hid : i.id = iterationId) (hr : Refers db i.serviceId f) :
    Invariant link { db with drafts := drafts } := by
  apply hi.of_drafts hw
  intro a ha
  rw [hrows] at ha
  rcases List.mem_append.mp ha with ha | ha
  · exact hi.draft_refers a ha
  · rw [List.mem_singleton.mp ha]
    exact ⟨i, hm, hid, hr⟩

/-- New fields of a draft keep its owner and its category. -/
theorem Invariant.of_draft_rewritten (hi : Invariant link db) {drafts : ApiStore}
    (hw : WellFormed link drafts) {d : ApiRow} {f : ApiFields} (hd : d ∈ db.drafts.apis.rows)
    (hrows : drafts.apis.rows = db.drafts.apis.rows.map (setFields d.id f))
    (howner : f.ownerId = d.fields.ownerId) (hcat : f.categoryId = d.fields.categoryId) :
    Invariant link { db with drafts := drafts } := by
  apply hi.of_drafts hw
  intro a ha
  rw [hrows] at ha
  obtain ⟨b, hb, rfl⟩ := List.mem_map.mp ha
  obtain ⟨j, hj, hjb, hr⟩ := hi.draft_refers b hb
  refine ⟨j, hj, hjb.trans (setFields_container d.id f b).symm, ?_⟩
  unfold setFields
  split
  · rename_i hbd
    rw [db.drafts.apis.eq_of_key_eq hb hd hbd] at hr
    exact ⟨howner ▸ hr.1, fun k hk => hr.2 k (hcat ▸ hk)⟩
  · exact hr

theorem effect_preserves (hlink : ∀ env, JointLinks env joint link) {env : Environment}
    {operation : Operation} {db' : Database} (he : Effect env db operation db')
    (hg : PayloadGuard joint operation) (hi : Invariant link db) : Invariant link db' := by
  cases he with
  | userRegistered _ _ _ => exact hi.of_users (fun _ => db.users.contains_insert)
  | passwordModified _ _ => exact hi.of_users (fun _ => db.users.contains_update _)
  | serviceCreated huuid hfresh howner hu _ _ _ =>
    refine hi.of_service_inserted ?_ (howner ▸ hu)
    intro t ht he
    exact hfresh t ht ((congrArg VarChar.val he).trans huuid)
  | maintainerRemoved _ _ _ => exact hi.of_links _
  | maintainerAdded _ _ _ _ _ => exact hi.of_links _
  | serviceDeleted _ _ _ => exact hi.of_service_update _ _ _ (fun _ => ⟨rfl, rfl⟩)
  | serviceRestored _ _ _ _ => exact hi.of_service_update _ _ _ (fun _ => ⟨rfl, rfl⟩)
  | iterationDeleted _ _ _ _ _ hnone => exact hi.of_iteration_deleted hnone
  | iterationInProgress _ => exact hi
  | iterationStarted hs hid _ _ hu hcopy =>
    exact hi.of_started (Table.contains_iff.mpr ⟨_, hs, hid⟩) hu hcopy
  | iterationCommitted hw _ hsid _ _ hcopy =>
    rw [hsid] at hcopy ⊢
    exact hi.of_committed hw.mem hcopy
  | descriptionUpdated _ => exact hi.of_iteration_update _ _ _ (fun _ => ⟨rfl, rfl⟩)
  | categoryAdded hs hid _ hcs _ _ =>
    exact hi.of_category_inserted (Table.contains_iff.mpr ⟨_, hs, hid.trans hcs.symm⟩)
  | @categoryDeleted _ _ c _ _ _ _ _ _ => exact hi.of_category_deleted c.id
  | @categoryUpdated _ _ _ _ c _ _ _ _ _ _ _ =>
    refine hi.of_categories ?_ ?_
    · intro d hd _
      refine ⟨_, List.mem_map_of_mem hd, ?_⟩
      split
      · exact ⟨rfl, rfl⟩
      · exact ⟨rfl, rfl⟩
    · exact Table.of_mem_update _ _ hi.category_service (fun _ h => h)
  | @apiCategoryUpdated _ _ _ a _ k ha _ _ _ _ hk =>
    apply hi.of_live_categories
    intro b hb j hj
    unfold assignCategory at hj
    split at hj
    · rename_i hba
      rw [db.live.apis.eq_of_key_eq hb ha hba]
      exact hk j hj
    · exact (hi.live_refers b hb).2.2 j hj
  | draftAdded hw _ _ _ _ _ _ hcat hins =>
    have hw' := insertApi_wellFormed hins hi.drafts
    obtain ⟨⟨_, hu, _⟩, _, rfl⟩ := insertApi_eq_ok.mp hins
    exact hi.of_draft_inserted hw' rfl hw.mem hw.id ⟨hu, hcat⟩
  | draftCopied _ hd _ hdc _ hcat _ _ hcopy =>
    obtain ⟨hw', _, ⟨_, hu, _⟩, hrows⟩ := copyDraft_spec hi.drafts hcopy
    obtain ⟨j, hj, hjd, _, hc⟩ := hi.draft_refers _ hd
    exact hi.of_draft_inserted hw' hrows hj (hjd.trans hdc) ⟨hu, fun k hk => hc k (hcat ▸ hk)⟩
  | draftDeleted _ hd _ _ =>
    obtain ⟨hw', _, hrows⟩ := removeDraft_spec hi.drafts hd
    apply hi.of_drafts hw'
    intro a ha
    rw [hrows] at ha
    exact hi.draft_refers a (List.mem_of_mem_filter ha)
  | draftUpdated _ hd _ _ howner hcat _ _ hrw =>
    obtain ⟨hw', _, hrows⟩ := rewriteDraft_spec (hlink env) hi.drafts hd hg hrw
    exact hi.of_draft_rewritten hw' hd (congrArg Table.rows hrows) howner hcat

theorem reachableUnder_invariant (hlink : ∀ env, JointLinks env joint link)
    {guard : Database → Request → Prop}
    (hguard : ∀ db r, guard db r → PayloadGuard joint r.operation)
    (h : ReachableUnder guard db) : Invariant link db := by
  obtain ⟨db₀, h₀, hr⟩ := h
  refine hr.preserves ?_ (initial_invariant h₀)
  intro s e t hs hg ht
  exact effect_preserves hlink (transaction_effect ht) (hguard s e hg) hs

theorem payloadGuard_true (operation : Operation) : PayloadGuard (fun _ _ => True) operation := by
  cases operation
  case apiUpdateApiByApiDraftId => exact fun p _ => paramRespects_true p
  all_goals trivial

theorem nests_joint (env : Environment) :
    JointLinks (F := RequestFields) env (fun _ _ => True) Nests :=
  fun _ _ _ _ _ hmay _ _ => hmay

theorem reachable_invariant (h : Reachable db) : Invariant Nests db :=
  reachableUnder_invariant nests_joint (fun _ r _ => payloadGuard_true r.operation) h

theorem contains_of_workRight (hi : Invariant link db) {iterationId userId : ℕ}
    {i : ServiceIteration} (hw : WorkRight db iterationId userId i) :
    db.users.contains userId = true := by
  obtain ⟨s, hs, _, ho | hc | ⟨u, hu, hid, _⟩⟩ := hw.right
  · exact ho ▸ hi.service_owner s hs
  · exact hi.iteration_creator i hw.mem userId hc
  · exact Table.contains_iff.mpr ⟨u, hu, hid⟩

end Preservation

end StateInvariant
