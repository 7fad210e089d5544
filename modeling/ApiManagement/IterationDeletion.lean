import ApiManagement.StateInvariant

/-! # Deleting an iteration

`db.delete(iteration)` sets the foreign key of the iteration's drafts to NULL before it deletes
the row, and the column takes no NULL. So exactly the iterations without drafts can be deleted;
those started from a service with apis cannot. -/
namespace IterationDeletion

open TransactionRuns KeyedTables ParentLinkedRows PythonRuntime ServiceSchema ApiStores
  ServiceOperations OperationRuns OperationEffects StateInvariant

/-- Every draft is one of an iteration, every param of the drafts one of a draft, and a param's
parent is a param. -/
structure NoOrphans (db : Database) : Prop where
  drafts : ∀ a ∈ db.drafts.apis.rows, db.iterations.contains a.container = true
  requests : ∀ r ∈ db.drafts.requestParams.rows, db.drafts.apis.contains r.holder = true ∧
    ∀ p, r.parent = some p → db.drafts.requestParams.contains p = true
  responses : ∀ r ∈ db.drafts.responseParams.rows, db.drafts.apis.contains r.holder = true ∧
    ∀ p, r.parent = some p → db.drafts.responseParams.contains p = true

/-- The iteration is gone with its drafts and their params, and all else is there. -/
structure Removed (db db' : Database) (iterationId : ℕ) : Prop where
  iterations : db'.iterations.rows = db.iterations.rows.filter (fun i => i.id != iterationId)
  drafts : db'.drafts.apis.rows = db.drafts.apis.rows.filter (fun a => a.container != iterationId)
  requests : db'.drafts.requestParams.rows =
    db.drafts.requestParams.rows.filter (fun r => !owns db.drafts iterationId r.holder)
  responses : db'.drafts.responseParams.rows =
    db.drafts.responseParams.rows.filter (fun r => !owns db.drafts iterationId r.holder)
  others : db' = { db with iterations := db'.iterations, drafts := db'.drafts }
  orphans : NoOrphans db'

section Invariants

variable {link : RequestFields → RequestFields → Prop} {db : Database}

theorem parent_contained {F : Type} {bond : F → F → Prop} {t : Table (LinkedRow F)}
    (h : WellLinked bond t.rows) {r : LinkedRow F} (hr : r ∈ t.rows) {p : ℕ}
    (hp : r.parent = some p) : t.contains p = true := by
  obtain ⟨q, hq, hid, _⟩ := h.parent hr hp
  exact Table.contains_iff.mpr ⟨q, hq, hid⟩

theorem noOrphans (hi : Invariant link db) : NoOrphans db := by
  refine ⟨?_, ?_, ?_⟩
  · intro a ha
    obtain ⟨i, hm, hid, _⟩ := hi.draft_refers a ha
    exact Table.contains_iff.mpr ⟨i, hm, hid⟩
  · intro r hr
    refine ⟨Table.contains_iff.mpr (hi.drafts.request_held r hr), ?_⟩
    intro p hp
    exact parent_contained hi.drafts.request_linked hr hp
  · intro r hr
    refine ⟨Table.contains_iff.mpr (hi.drafts.response_held r hr), ?_⟩
    intro p hp
    exact parent_contained hi.drafts.response_linked hr hp

/-- An iteration without drafts owns nothing. -/
theorem not_owns_of_empty {st : ApiStore} {c : ℕ} (h : st.apisOf c = []) (k : ℕ) :
    owns st c k = false := by
  by_contra hne
  rw [Bool.not_eq_false, owns_iff] at hne
  obtain ⟨a, ha, hac, _⟩ := hne
  have hmem : a ∈ st.apisOf c := ApiStore.mem_apisOf.mpr ⟨ha, hac⟩
  rw [h] at hmem
  cases hmem

theorem removed_of_empty (hi : Invariant link db) {iterationId : ℕ}
    (h : db.drafts.apisOf iterationId = []) :
    Removed db { db with iterations := db.iterations.restrict (fun j => j.id != iterationId) }
      iterationId := by
  have hkeep : Invariant link
      { db with iterations := db.iterations.restrict (fun j => j.id != iterationId) } := by
    refine hi.of_iterations ?_ ?_ ?_
    · rintro i hm ⟨a, ha, hac⟩
      refine ⟨i, List.mem_filter.mpr ⟨hm, ?_⟩, rfl, rfl⟩
      rw [bne_iff_ne]
      intro hid
      have hmem : a ∈ db.drafts.apisOf iterationId := ApiStore.mem_apisOf.mpr ⟨ha, hac.trans hid⟩
      rw [h] at hmem
      cases hmem
    · intro i hm
      exact hi.iteration_service i (List.mem_of_mem_filter hm)
    · intro i hm
      exact hi.iteration_creator i (List.mem_of_mem_filter hm)
  refine ⟨rfl, ?_, ?_, ?_, rfl, noOrphans hkeep⟩
  · apply Eq.symm
    rw [List.filter_eq_self]
    intro a ha
    rw [bne_iff_ne]
    intro hac
    have hmem : a ∈ db.drafts.apisOf iterationId := ApiStore.mem_apisOf.mpr ⟨ha, hac⟩
    rw [h] at hmem
    cases hmem
  · apply Eq.symm
    rw [List.filter_eq_self]
    intro r _
    rw [not_owns_of_empty h, Bool.not_false]
  · apply Eq.symm
    rw [List.filter_eq_self]
    intro r _
    rw [not_owns_of_empty h, Bool.not_false]

end Invariants

/-- All a user who may delete the iteration gets depends on its drafts. -/
theorem serviceDeleteIterationById_eq {db : Database} {i : ServiceIteration} {s : Service}
    {userId : ℕ} (hm : i ∈ db.iterations.rows) (hs : s ∈ db.services.rows)
    (hsi : s.id = i.serviceId) (hr : CreatorRight db s i userId) :
    serviceDeleteIterationById i.id userId db =
      if db.drafts.apisOf i.id = [] then
        .ok ({ db with iterations := db.iterations.restrict (fun j => j.id != i.id) },
          ⟨200, "Delete service iteration success", ()⟩)
      else .error (.raised .integrityError) := by
  have hfound : db.iterations.find? i.id = some i := Table.find?_eq_some.mpr ⟨hm, rfl⟩
  have hservice : db.services.find? i.serviceId = some s := Table.find?_eq_some.mpr ⟨hs, hsi⟩
  have hright : requireLevelZeroIf (s.ownerId != userId && i.creatorId != some userId)
      (db.users.find? userId) (.reply (-2)
        "You are neither the owner of this service, nor the creator of this service iteration") =
        .ok () := requireCreator_eq_ok.mpr hr
  unfold serviceDeleteIterationById
  rw [hfound, orAbort, ok_bind, hservice, orAbort, ok_bind, hright, ok_bind]
  by_cases h : db.drafts.apisOf i.id = []
  · rw [if_pos h, h]
    rfl
  · rw [if_neg h, require, if_neg (by rwa [List.isEmpty_iff]), error_bind]

/-- In every reachable database, for every iteration and every user who may delete it. -/
theorem deletion_works_iff {db : Database} (h : Reachable db) {i : ServiceIteration} {s : Service}
    {userId : ℕ} (hm : i ∈ db.iterations.rows) (hs : s ∈ db.services.rows)
    (hsi : s.id = i.serviceId) (hr : CreatorRight db s i userId) :
    (∃ db' reply, serviceDeleteIterationById i.id userId db = .ok (db', reply) ∧
      reply.status = 200 ∧ Removed db db' i.id) ↔ db.drafts.apisOf i.id = [] := by
  rw [serviceDeleteIterationById_eq hm hs hsi hr]
  constructor
  · rintro ⟨db', reply, hok, _⟩
    by_contra hne
    rw [if_neg hne] at hok
    cases hok
  · intro hempty
    rw [if_pos hempty]
    exact ⟨_, _, rfl, rfl, removed_of_empty (reachable_invariant h) hempty⟩

def openedEmpty : Database :=
  play twoUsers [.serviceCreateNewService "team/core" 1 none, .serviceStartIteration 1 1]

theorem openedEmpty_deletable : ∃ db' reply,
    serviceDeleteIterationById 1 1 openedEmpty = .ok (db', reply) ∧ reply.status = 200 ∧
      Removed openedEmpty db' 1 :=
  (deletion_works_iff (Reachable.play twoUsers_reachable _) (i := ⟨1, 1, some 1, none, none, false⟩)
    (s := ⟨1, 1, ⟨"team/core", by decide⟩, ⟨"0.0.1", by decide⟩, none, false, none⟩)
    (by decide +kernel) (by decide +kernel) rfl (Or.inl rfl)).mpr (by decide +kernel)

/-- The iteration 2 holds a draft of the published api. -/
theorem draft_blocks_deletion : ¬ ∀ db, Reachable db → ∀ i ∈ db.iterations.rows,
    ∀ s ∈ db.services.rows, s.id = i.serviceId → ∀ userId, CreatorRight db s i userId →
      ∃ db' reply, serviceDeleteIterationById i.id userId db = .ok (db', reply) ∧
        reply.status = 200 ∧ Removed db db' i.id := by
  intro hall
  have hmem : ⟨2, 1, some 1, none, none, false⟩ ∈ opened.iterations.rows := by decide +kernel
  have hservice : publishedService ∈ opened.services.rows := by decide +kernel
  obtain ⟨db', reply, hok, _⟩ := hall opened opened_reachable _ hmem publishedService hservice rfl 1
    (Or.inl rfl)
  have hfails : (serviceDeleteIterationById 2 1 opened).isOk = false := by decide +kernel
  rw [hok] at hfails
  cases hfails

end IterationDeletion
