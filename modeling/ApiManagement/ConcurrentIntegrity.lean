import ApiManagement.CategoryIntegrity
import ApiManagement.ParamForests
import ApiManagement.SessionRights

/-! # Integrity and concurrent sessions

Sessions that overlap can open two iterations for one user and tear a release apart. They never
leave a row that refers to nothing, a category of another service, or params that form no forest,
although the database declares only some of these constraints. -/
namespace ConcurrentIntegrity

open TransactionRuns KeyedTables ServiceSchema ApiStores OperationRuns StateInvariant
  ConcurrentRequests CategoryIntegrity ParamForests ReleaseRaces SessionRights

/-- The apis of one container have different methods or names, and their params are forests. -/
structure StoreIntegrity (st : ApiStore) : Prop where
  keys : ∀ a ∈ st.apis.rows, ∀ b ∈ st.apis.rows, a.container = b.container →
    a.fields.method = b.fields.method → a.fields.name = b.fields.name → a = b
  requestsHeld : ∀ r ∈ st.requestParams.rows, ∃ a ∈ st.apis.rows, a.id = r.holder
  responsesHeld : ∀ r ∈ st.responseParams.rows, ∃ a ∈ st.apis.rows, a.id = r.holder
  requests : Forest (fun _ _ => True) st.requestParams.rows
  responses : Forest (fun _ _ => True) st.responseParams.rows

structure Integrity (db : Database) : Prop where
  owners : ∀ s ∈ db.services.rows, ∃ u ∈ db.users.rows, u.id = s.ownerId
  uuids : ∀ s ∈ db.services.rows, ∀ t ∈ db.services.rows,
    s.serviceUuid = t.serviceUuid → s = t
  iterations : ∀ i ∈ db.iterations.rows, ∃ s ∈ db.services.rows, s.id = i.serviceId
  creators : ∀ i ∈ db.iterations.rows, ∀ k, i.creatorId = some k →
    ∃ u ∈ db.users.rows, u.id = k
  services : ∀ a ∈ db.live.apis.rows, ∃ s ∈ db.services.rows, s.id = a.container
  categories : CategoriesSound db
  live : StoreIntegrity db.live
  drafts : StoreIntegrity db.drafts

theorem storeIntegrity_of_wellFormed {st : ApiStore} (h : WellFormed Nests st) :
    StoreIntegrity st :=
  ⟨h.key_unique, h.request_held, h.response_held,
    forest_of_wellLinked (h.request_linked.weaken (fun _ _ hn => ⟨hn, trivial⟩)),
    forest_of_wellLinked (h.response_linked.weaken (fun _ _ hn => ⟨hn, trivial⟩))⟩

section Server

variable {guard : Server → Event → Prop} {v w : Server} {e : Event}

theorem names_step (hstep : serverStep v e = .ok w) (h : NamesDistinct v.db.categories.rows) :
    NamesDistinct w.db.categories.rows := by
  rcases serverStep_cases hstep with ⟨_, _, he, _⟩ | ⟨_, _, _, _, _, hdb, _⟩ |
    ⟨_, _, _, _, hdb, _⟩ | ⟨_, _, _, _, hdb | ⟨c, _, hw⟩⟩
  · exact effect_preserves_names he h
  · rwa [hdb]
  · rwa [hdb]
  · rwa [hdb]
  · obtain ⟨_, _, hcategories⟩ := writes_keep hw
    rwa [hcategories]

theorem names_reachable (h : ServerReachable guard v) : NamesDistinct v.db.categories.rows := by
  obtain ⟨db₀, h₀, hrun⟩ := h
  refine hrun.preserves (I := fun v => NamesDistinct v.db.categories.rows)
    (fun _ _ _ hv _ hstep => names_step hstep hv) ?_
  rw [h₀.categories]
  intro c hc
  cases hc

/-- However sessions overlap, the rows of the database fit together. -/
theorem integrity_under_interleavings (h : ServerReachable guard v) : Integrity v.db := by
  have hi := (reachable_sound h).invariant
  refine ⟨fun s hs => Table.contains_iff.mp (hi.service_owner s hs), hi.uuid_unique,
    fun i hm => Table.contains_iff.mp (hi.iteration_service i hm),
    fun i hm k hk => Table.contains_iff.mp (hi.iteration_creator i hm k hk),
    fun a ha => Table.contains_iff.mp (hi.live_refers a ha).1, ⟨?_, ?_, names_reachable h⟩,
    storeIntegrity_of_wellFormed hi.live, storeIntegrity_of_wellFormed hi.drafts⟩
  · intro a ha
    exact categoryOf_of_refers (hi.live_refers a ha).2
  · intro a ha
    obtain ⟨i, hm, hid, hr⟩ := hi.draft_refers a ha
    exact ⟨i, hm, hid, categoryOf_of_refers hr⟩

end Server

/-- A release that was torn apart by a late deletion. -/
theorem torn_integrity : Integrity torn.db := by
  have hrun : Runs serverStep (fun _ _ => True) overtaken torn := by
    change Runs _ _ overtaken
      (committed (serverStep overtaken (.finish 0 PythonRuntime.plainEnvironment)) overtaken)
    exact (Runs.refl overtaken).tail trivial
  exact integrity_under_interleavings (overtaken_reachable.run hrun)

end ConcurrentIntegrity
