import ApiManagement.VersionFidelity

/-! # The list of versions

`serviceGetAllVersionsByUuid` walks the iterations of a service, `serviceGetServiceByUuidAndVersion`
looks one up by its version. A history beside the database records what there is to list: each
version that the row of a service has shown, and the iterations that were deleted. -/
namespace VersionListing

open TransactionRuns KeyedTables PythonRuntime ServiceSchema ServiceOperations OperationRuns
  OperationEffects StateInvariant IterationCopies KeptContent VersionFidelity

/-- A version that the row of a service has shown, with the iteration committed as it. -/
structure Shown where
  serviceId : ℕ
  iterationId : Option ℕ
  version : String
  deriving DecidableEq

structure History where
  db : Database
  carried : List Shown
  deleted : List ℕ

def committedIteration : Operation → Option ℕ
  | .serviceCommitIteration iterationId _ _ => some iterationId
  | _ => none

def deletedIteration : Operation → List ℕ
  | .serviceDeleteIterationById iterationId _ => [iterationId]
  | _ => []

def newlyShown (db db' : Database) (operation : Operation) : List Shown :=
  (db'.services.rows.filter (fun t =>
    (db.services.find? t.id).map Service.version != some t.version)).map
      (fun t => ⟨t.id, committedIteration operation, t.version.val⟩)

def historyStep (v : History) (request : Request) : Tx History := do
  let db ← transaction v.db request
  pure ⟨db, newlyShown v.db db request.operation ++ v.carried,
    deletedIteration request.operation ++ v.deleted⟩

def HistoryReachable (v : History) : Prop :=
  ∃ db, Initial db ∧ Runs historyStep (fun _ _ => True) ⟨db, [], []⟩ v

theorem historyStep_eq_ok {v w : History} {request : Request} :
    historyStep v request = .ok w ↔ ∃ db, transaction v.db request = .ok db ∧
      w = ⟨db, newlyShown v.db db request.operation ++ v.carried,
        deletedIteration request.operation ++ v.deleted⟩ := by
  simp only [historyStep, bind_eq_ok, pure_eq_ok]
  exact exists_congr fun _ => and_congr_right fun _ => eq_comm

section Step

variable {env : Environment} {db db' : Database} {operation : Operation}

theorem mem_newlyShown {r : Shown} : r ∈ newlyShown db db' operation ↔
    ∃ t ∈ db'.services.rows, (db.services.find? t.id).map Service.version ≠ some t.version ∧
      r = ⟨t.id, committedIteration operation, t.version.val⟩ := by
  simp only [newlyShown, List.mem_map, List.mem_filter, bne_iff_ne, and_assoc]
  exact exists_congr fun _ => and_congr_right fun _ => and_congr_right fun _ => eq_comm

/-- A new version is the first one of a new service, or that of the iteration being
committed. -/
theorem newly_shown (hi : Invariant Nests db) (he : Effect env db operation db') {r : Shown}
    (hr : r ∈ newlyShown db db' operation) : r.iterationId = none ∨
      ∃ i ∈ db'.iterations.rows, r.iterationId = some i.id ∧ i.serviceId = r.serviceId ∧
        i.isCommitted = true ∧ i.version.map VarChar.val = some r.version := by
  obtain ⟨t, ht, hnew, rfl⟩ := mem_newlyShown.mp hr
  rcases services_of_effect he ht with ⟨s, hs, hid⟩ | ⟨hid, _⟩
  · rcases (service_versions he hs ht hid.symm).2 with hv | ⟨k, userId, rfl, i, hm, rfl, his⟩
    · have hfind : db.services.find? t.id = some s := Table.find?_eq_some.mpr ⟨hs, hid⟩
      rw [hfind, Option.map_some, hv] at hnew
      exact absurd rfl hnew
    · obtain ⟨j, hj, hji, version, hval, hrow, _⟩ := commit_outcome hi he
      have hsame : j = i := db.iterations.eq_of_key_eq hj hm hji
      subst hsame
      exact Or.inr ⟨_, hrow, rfl, his.trans hid, rfl, congrArg some hval⟩
  · left
    cases he with
    | @iterationCommitted _ _ _ i s version _ _ _ _ _ _ _ =>
      obtain ⟨q, hq, hqt, _⟩ :=
        db.services.update_origin (f := publish i.description version) (fun _ => rfl) ht
      exact absurd (hqt.trans hid) (Table.key_ne_next hq)
    | _ => rfl

/-- A commit shows its version. -/
theorem commit_shown {k userId : ℕ} {newVersion : String}
    (he : Effect env db (.serviceCommitIteration k newVersion userId) db')
    {i : ServiceIteration} (hm : i ∈ db.iterations.rows) (hid : i.id = k) :
    ⟨i.serviceId, some k, newVersion⟩ ∈
      newlyShown db db' (.serviceCommitIteration k newVersion userId) := by
  cases he with
  | @iterationCommitted _ _ _ j s version _ hw hs hsid hne hval _ =>
    have hji : j = i := db.iterations.eq_of_key_eq hw.mem hm (hw.id.trans hid.symm)
    subst hji
    have hrow : publish j.description version s ∈ (db.services.update s.id
        (publish j.description version) (fun _ => rfl)).rows :=
      Table.mem_update.mpr ⟨s, hs, if_pos rfl⟩
    refine mem_newlyShown.mpr ⟨publish j.description version s, hrow, ?_, ?_⟩
    · have hfind : db.services.find? s.id = some s := Table.find?_eq_some.mpr ⟨hs, rfl⟩
      show (db.services.find? s.id).map Service.version ≠ some version
      rw [hfind, Option.map_some]
      intro h
      exact hne (hval ▸ congrArg VarChar.val (Option.some.inj h).symm)
    · rw [← hsid, ← hval]
      rfl

def OpenWithoutVersion (db : Database) : Prop :=
  ∀ i ∈ db.iterations.rows, i.version = none ↔ i.isCommitted = false

theorem openWithoutVersion_step (he : Effect env db operation db')
    (h : OpenWithoutVersion db) : OpenWithoutVersion db' := by
  cases he with
  | iterationDeleted _ _ _ _ _ _ => exact fun i hi => h i (List.mem_of_mem_filter hi)
  | iterationStarted _ _ _ _ _ _ =>
    intro i hi
    rcases List.mem_append.mp hi with hi | hi
    · exact h i hi
    · rw [List.mem_singleton.mp hi]
      exact ⟨fun _ => rfl, fun _ => rfl⟩
  | @iterationCommitted _ _ _ _ _ version _ _ _ _ _ _ _ =>
    refine Table.of_mem_update (f := markCommitted version) _ (fun _ => rfl) h ?_
    intro i _
    simp [markCommitted]
  | @descriptionUpdated _ description _ _ _ =>
    exact Table.of_mem_update (f := setDescription description) _ (fun _ => rfl) h (fun _ hi => hi)
  | _ => exact h

end Step

/-- The history knows the version of every service and of every iteration, and of what it
knows only deleted iterations are gone. -/
structure Recorded (v : History) : Prop where
  invariant : Invariant Nests v.db
  openWithoutVersion : OpenWithoutVersion v.db
  current : ∀ s ∈ v.db.services.rows,
    ∃ r ∈ v.carried, r.serviceId = s.id ∧ r.version = s.version.val
  shown : ∀ i ∈ v.db.iterations.rows, ∀ x, i.version = some x →
    ⟨i.serviceId, some i.id, x.val⟩ ∈ v.carried
  kept : ∀ r ∈ v.carried, ∀ k ∉ v.deleted, r.iterationId = some k →
    ∃ i ∈ v.db.iterations.rows, i.id = k ∧ i.serviceId = r.serviceId ∧ i.isCommitted = true ∧
      i.version.map VarChar.val = some r.version
  gone : ∀ k ∈ v.deleted, k < v.db.iterations.next ∧ ∀ i ∈ v.db.iterations.rows, i.id ≠ k

section Invariant

variable {v : History} {request : Request} {db' : Database}

theorem initial_recorded {db : Database} (h : Initial db) : Recorded ⟨db, [], []⟩ := by
  constructor
  · exact initial_invariant h
  · rw [OpenWithoutVersion, h.iterations]
    simp
  · rw [h.services]
    simp
  · rw [h.iterations]
    simp
  · simp
  · simp

variable (h : Recorded v)

include h

theorem current_step : ∀ t ∈ db'.services.rows,
    ∃ r ∈ newlyShown v.db db' request.operation ++ v.carried,
      r.serviceId = t.id ∧ r.version = t.version.val := by
  intro t ht
  by_cases hnew : (v.db.services.find? t.id).map Service.version = some t.version
  · obtain ⟨s, hs, hv⟩ := Option.map_eq_some_iff.mp hnew
    obtain ⟨hs, hid⟩ := Table.find?_eq_some.mp hs
    obtain ⟨r, hr, hrs, hrv⟩ := h.current s hs
    exact ⟨r, List.mem_append_right _ hr, hrs.trans hid, hrv.trans (congrArg VarChar.val hv)⟩
  · exact ⟨_, List.mem_append_left _ (mem_newlyShown.mpr ⟨t, ht, hnew, rfl⟩), rfl, rfl⟩

variable (he : Effect request.env v.db request.operation db')

include he

theorem shown_step : ∀ i ∈ db'.iterations.rows, ∀ x, i.version = some x →
    ⟨i.serviceId, some i.id, x.val⟩ ∈ newlyShown v.db db' request.operation ++ v.carried := by
  intro i hi x hx
  obtain ⟨j, hj, hji, hjs, hv⟩ := iteration_versions he hi hx
  rw [← hji, ← hjs]
  rcases hv with hv | ⟨userId, hop⟩
  · exact List.mem_append_right _ (h.shown j hj x hv)
  · rw [hop, ← hji] at he ⊢
    exact List.mem_append_left _ (commit_shown he hj rfl)

theorem kept_step : ∀ r ∈ newlyShown v.db db' request.operation ++ v.carried,
    ∀ k ∉ deletedIteration request.operation ++ v.deleted, r.iterationId = some k →
    ∃ i ∈ db'.iterations.rows, i.id = k ∧ i.serviceId = r.serviceId ∧ i.isCommitted = true ∧
      i.version.map VarChar.val = some r.version := by
  intro r hr k hk hrk
  rw [List.mem_append, not_or] at hk
  rcases List.mem_append.mp hr with hr | hr
  · rcases newly_shown h.invariant he hr with hnone | ⟨i, hi, hik, rest⟩
    · rw [hnone] at hrk
      cases hrk
    · exact ⟨i, hi, Option.some.inj (hik.symm.trans hrk), rest⟩
  · obtain ⟨i, hi, rfl, his, hc, hv⟩ := h.kept r hr k hk.2 hrk
    refine ⟨i, committed_row_stays he hi hc ?_, rfl, his, hc, hv⟩
    intro userId hop
    rw [hop] at hk
    exact hk.1 List.mem_cons_self

theorem gone_step : ∀ k ∈ deletedIteration request.operation ++ v.deleted,
    k < db'.iterations.next ∧ ∀ i ∈ db'.iterations.rows, i.id ≠ k := by
  intro k hk
  rcases List.mem_append.mp hk with hk | hk
  · obtain ⟨env, operation⟩ := request
    cases he with
    | @iterationDeleted _ _ i _ hm hid _ _ _ _ =>
      rw [List.mem_singleton.mp hk, ← hid]
      refine ⟨(v.db.iterations.bounds i hm).2, ?_⟩
      intro j hj
      simpa using (List.mem_filter.mp hj).2
    | _ => cases hk
  · obtain ⟨hlt, hgone⟩ := h.gone k hk
    refine ⟨hlt.trans_le (next_iteration_le he), ?_⟩
    intro i hi hid
    rcases WriteRights.iterations_of_effect he hi with ⟨j, hj, hji, _⟩ | ⟨_, _, _, _, _, rfl⟩
    · exact hgone j hj (hji.trans hid)
    · exact absurd hid hlt.ne'

theorem recorded_step : Recorded ⟨db', newlyShown v.db db' request.operation ++ v.carried,
    deletedIteration request.operation ++ v.deleted⟩ :=
  ⟨effect_preserves nests_joint he (payloadGuard_true request.operation) h.invariant,
    openWithoutVersion_step he h.openWithoutVersion, current_step h, shown_step h he,
    kept_step h he, gone_step h he⟩

end Invariant

theorem recorded_of_reachable {v : History} (h : HistoryReachable v) : Recorded v := by
  obtain ⟨db, h₀, hr⟩ := h
  refine hr.preserves ?_ (initial_recorded h₀)
  intro u request w hu _ hw
  obtain ⟨db', ht, rfl⟩ := historyStep_eq_ok.mp hw
  exact recorded_step hu (transaction_effect ht)

section Read

variable {db : Database} {s : Service} {userId : ℕ} {serviceUuid : String}

theorem versions_listed (hi : Invariant Nests db) (hs : s ∈ db.services.rows)
    (halive : s.isDeleted = false) (huuid : strip (unquote serviceUuid) = s.serviceUuid.val)
    (hr : MaintainerRight db s userId) (env : Environment) :
    ∃ iterations : List ServiceIteration,
      iterations.Perm (db.iterations.rows.filter (fun i => i.serviceId == s.id)) ∧
      ∃ reply, serviceGetAllVersionsByUuid env serviceUuid userId db = .ok reply ∧
        reply.data = ⟨some s.version.val, true⟩ ::
          ((iterations.map (fun i => i.version.map VarChar.val)).filter
            (fun v => v != some s.version.val)).map (fun v => ⟨v, false⟩) := by
  refine ⟨_, List.mergeSort_perm _ (fun i j => j.id ≤ i.id),
    ⟨200, "Get service versions success", _⟩, ?_, rfl⟩
  simp only [serviceGetAllVersionsByUuid, bind_eq_ok, orAbort_eq_ok, pure_eq_ok]
  exact ⟨s, find_service hi hs halive huuid env, (), requireMaintainer_eq_ok.mpr hr, rfl⟩

/-- The lookup of an earlier version that some iteration carries. -/
theorem carried_version_read (hi : Invariant Nests db) (hs : s ∈ db.services.rows)
    (halive : s.isDeleted = false) (huuid : strip (unquote serviceUuid) = s.serviceUuid.val)
    (hr : MaintainerRight db s userId) {version : String} (hv : s.version.val ≠ version)
    (hlatest : version ≠ "latest") {i : ServiceIteration} (hm : i ∈ db.iterations.rows)
    (his : i.serviceId = s.id) (hx : i.version.map VarChar.val = some version)
    (env : Environment) :
    ∃ reply, serviceGetServiceByUuidAndVersion env serviceUuid version userId db = .ok reply ∧
      reply.data.isLatest = false := by
  obtain ⟨u, hu⟩ := Table.find?_of_contains (contains_of_maintainerRight hi hs hr)
  obtain ⟨above, habove, hfalse⟩ := levelAboveZeroIf_of_right (s := s) hu
  have hother : (s.version.val == version || version == "latest") = false := by
    simp [hv, hlatest]
  obtain ⟨x, hix, hxv⟩ := Option.map_eq_some_iff.mp hx
  obtain ⟨j, hj⟩ : ∃ j, (env.fetch (db.iterations.rows.filter (fun j =>
      j.serviceId == s.id && j.version.any (fun w => w.val == version)))).head? = some j := by
    have hfound : i ∈ env.fetch (db.iterations.rows.filter (fun j =>
        j.serviceId == s.id && j.version.any (fun w => w.val == version))) :=
      env.mem_fetch.mpr (List.mem_filter.mpr ⟨hm, by simp [his, hix, hxv]⟩)
    exact ⟨_, List.head?_eq_some_head (List.ne_nil_of_mem hfound)⟩
  refine ⟨⟨200, "Get service success", .earlier (iterationToJson env db j)⟩, ?_, rfl⟩
  simp only [serviceGetServiceByUuidAndVersion, bind_eq_ok, orAbort_eq_ok]
  refine ⟨s, find_service hi hs halive huuid env, ?_⟩
  simp only [hu, hother, Bool.false_eq_true, if_false, bind_eq_ok, orAbort_eq_ok, require_eq_ok,
    pure_eq_ok]
  exact ⟨j, hj, above, habove, (), by rw [hfalse hr]; rfl, rfl⟩

end Read

/-- The iteration was committed as a version of the service, and has not been deleted. -/
def SnapshotKept (v : History) (serviceId : ℕ) (version : String) (iterationId : ℕ) : Prop :=
  iterationId ∉ v.deleted ∧ ⟨serviceId, some iterationId, version⟩ ∈ v.carried

structure Lists (v : History) (s : Service) (entries : List VersionEntry) : Prop where
  latest : ∃ others, entries = ⟨some s.version.val, true⟩ :: others ∧
    ∀ e ∈ others, e.isLatest = false ∧ e.version ≠ some s.version.val
  carried : ∀ x, some x ∈ entries.map VersionEntry.version ↔
    (∃ r ∈ v.carried, r.serviceId = s.id ∧ r.version = x) ∧
      (x = s.version.val ∨ ∃ k, SnapshotKept v s.id x k)
  once : ∀ x, some x ∈ entries.map VersionEntry.version →
    (x ≠ s.version.val → ∀ j k, SnapshotKept v s.id x j → SnapshotKept v s.id x k → j = k) →
    (entries.map VersionEntry.version).count (some x) = 1
  withoutVersion : (entries.map VersionEntry.version).count none =
    (v.db.iterations.rows.filter (fun i => i.serviceId == s.id && !i.isCommitted)).length

section Lists

variable {v : History} {s : Service}

theorem snapshotKept_iff (h : Recorded v) {x : String} {k : ℕ} :
    SnapshotKept v s.id x k ↔ ∃ i ∈ v.db.iterations.rows, i.id = k ∧ i.serviceId = s.id ∧
      i.version.map VarChar.val = some x := by
  constructor
  · rintro ⟨hk, hr⟩
    obtain ⟨i, hi, hid, his, _, hv⟩ := h.kept _ hr k hk rfl
    exact ⟨i, hi, hid, his, hv⟩
  · rintro ⟨i, hi, rfl, his, hv⟩
    obtain ⟨w, hw, rfl⟩ := Option.map_eq_some_iff.mp hv
    constructor
    · intro hdel
      exact (h.gone i.id hdel).2 i hi rfl
    · rw [← his]
      exact h.shown i hi w hw

variable {iterations : List ServiceIteration}
  (hp : iterations.Perm (v.db.iterations.rows.filter (fun i => i.serviceId == s.id)))

include hp

theorem mem_iterations {i : ServiceIteration} :
    i ∈ iterations ↔ i ∈ v.db.iterations.rows ∧ i.serviceId = s.id := by
  rw [hp.mem_iff, List.mem_filter, beq_iff_eq]

theorem mem_versions (h : Recorded v) {x : String} :
    some x ∈ iterations.map (fun i => i.version.map VarChar.val) ↔
      ∃ k, SnapshotKept v s.id x k := by
  rw [List.mem_map]
  constructor
  · rintro ⟨i, hi, hv⟩
    obtain ⟨hm, his⟩ := (mem_iterations hp).mp hi
    exact ⟨i.id, (snapshotKept_iff h).mpr ⟨i, hm, rfl, his, hv⟩⟩
  · rintro ⟨k, hk⟩
    obtain ⟨i, hm, _, his, hv⟩ := (snapshotKept_iff h).mp hk
    exact ⟨i, (mem_iterations hp).mpr ⟨hm, his⟩, hv⟩

/-- A version with one snapshot is the version of one iteration. -/
theorem count_version (h : Recorded v) {x : String} {k : ℕ} (hk : SnapshotKept v s.id x k)
    (hone : ∀ j k, SnapshotKept v s.id x j → SnapshotKept v s.id x k → j = k) :
    (iterations.map (fun i => i.version.map VarChar.val)).count (some x) = 1 := by
  obtain ⟨i, hi, rfl, his, hv⟩ := (snapshotKept_iff h).mp hk
  have hnodup : iterations.Nodup := hp.nodup_iff.mpr (v.db.iterations.nodup.of_map.filter _)
  have hsingle : (iterations.filter (fun j => j.version.map VarChar.val == some x)).Perm [i] := by
    refine (List.perm_ext_iff_of_nodup (hnodup.filter _) (List.nodup_singleton i)).mpr ?_
    intro j
    rw [List.mem_filter, mem_iterations hp, beq_iff_eq, List.mem_singleton]
    constructor
    · rintro ⟨⟨hj, hjs⟩, hjv⟩
      refine v.db.iterations.eq_of_key_eq hj hi ?_
      exact hone _ _ ((snapshotKept_iff h).mpr ⟨j, hj, rfl, hjs, hjv⟩) hk
    · rintro rfl
      exact ⟨⟨hi, his⟩, hv⟩
  rw [List.count, List.countP_map, List.countP_eq_length_filter]
  exact hsingle.length_eq

theorem lists_of_iterations (h : Recorded v) (hs : s ∈ v.db.services.rows) :
    Lists v s (⟨some s.version.val, true⟩ ::
      ((iterations.map (fun i => i.version.map VarChar.val)).filter
        (fun w => w != some s.version.val)).map (fun w => ⟨w, false⟩)) := by
  constructor
  · refine ⟨_, rfl, ?_⟩
    intro e he
    obtain ⟨w, hw, rfl⟩ := List.mem_map.mp he
    exact ⟨rfl, by simpa using (List.mem_filter.mp hw).2⟩
  all_goals
    rw [List.map_cons, List.map_map,
      show VersionEntry.version ∘ (fun w => ⟨w, false⟩) = (id : Option String → _) from rfl,
      List.map_id]
  · intro x
    rw [List.mem_cons, List.mem_filter, mem_versions hp h, bne_iff_ne, Option.some_inj]
    constructor
    · rintro (rfl | ⟨⟨k, hk⟩, _⟩)
      · exact ⟨h.current s hs, Or.inl rfl⟩
      · exact ⟨⟨_, hk.2, rfl, rfl⟩, Or.inr ⟨k, hk⟩⟩
    · rintro ⟨_, rfl | hk⟩
      · exact Or.inl rfl
      · by_cases hx : x = s.version.val
        · exact Or.inl hx
        · exact Or.inr ⟨hk, fun he => hx (Option.some.inj he)⟩
  · intro x hx hone
    by_cases hcur : x = s.version.val
    · subst hcur
      rw [List.count_cons_self, List.count_eq_zero_of_not_mem]
      simp
    · have hne : some x ≠ some s.version.val := fun he => hcur (Option.some.inj he)
      rw [List.mem_cons, List.mem_filter, mem_versions hp h] at hx
      obtain ⟨⟨k, hk⟩, _⟩ := hx.resolve_left hne
      rw [List.count_cons_of_ne hne.symm, List.count_filter (by simpa using hne)]
      exact count_version hp h hk (hone hcur)
  · rw [List.count_cons_of_ne (by simp), List.count_filter (by simp), List.count,
      List.countP_map, hp.countP_eq, List.countP_eq_length_filter, List.filter_filter]
    congr 1
    apply List.filter_congr
    intro i hi
    rw [Bool.and_comm, Bool.eq_iff_iff]
    simp [h.openWithoutVersion i hi]

end Lists

theorem list_read {v : History} (hreach : HistoryReachable v) {s : Service}
    (hs : s ∈ v.db.services.rows) (halive : s.isDeleted = false) {serviceUuid : String}
    (huuid : strip (unquote serviceUuid) = s.serviceUuid.val) {userId : ℕ}
    (hright : MaintainerRight v.db s userId) (env : Environment) :
    ∃ reply, serviceGetAllVersionsByUuid env serviceUuid userId v.db = .ok reply ∧
      Lists v s reply.data := by
  have h := recorded_of_reachable hreach
  obtain ⟨iterations, hp, reply, hreply, hdata⟩ :=
    versions_listed h.invariant hs halive huuid hright env
  exact ⟨reply, hreply, hdata ▸ lists_of_iterations hp h hs⟩

/-- The list starts with the current version of the service; it goes on with the versions the
service carried whose iterations are left, and with one entry without a version for each open
iteration. What it says of a version is what the lookup of that version finds, unless an earlier
one bears the name the lookup reserves for the current version. -/
theorem versions_agree {v : History} (hreach : HistoryReachable v) {s : Service}
    (hs : s ∈ v.db.services.rows) (halive : s.isDeleted = false) {serviceUuid : String}
    (huuid : strip (unquote serviceUuid) = s.serviceUuid.val) {userId : ℕ}
    (hright : MaintainerRight v.db s userId) (env : Environment) :
    ∃ reply, serviceGetAllVersionsByUuid env serviceUuid userId v.db = .ok reply ∧
      Lists v s reply.data ∧
      ∀ entry ∈ reply.data, ∀ version, entry.version = some version →
        (version = "latest" → entry.isLatest = true) → ∀ env' : Environment,
        ∃ detail, serviceGetServiceByUuidAndVersion env' serviceUuid version userId v.db =
          .ok detail ∧ detail.data.isLatest = entry.isLatest := by
  have h := recorded_of_reachable hreach
  obtain ⟨reply, hreply, hlists⟩ := list_read hreach hs halive huuid hright env
  refine ⟨reply, hreply, hlists, ?_⟩
  intro entry hentry version hversion hlatest env'
  obtain ⟨others, hothers, hflags⟩ := hlists.latest
  rw [hothers] at hentry
  rcases List.mem_cons.mp hentry with rfl | hentry
  · obtain ⟨u, hu⟩ := Table.find?_of_contains (contains_of_maintainerRight h.invariant hs hright)
    exact ⟨_, latest_version_read h.invariant hu hs halive huuid
      (Or.inl (Option.some.inj hversion)) hright env', rfl⟩
  · obtain ⟨hflag, hne⟩ := hflags entry hentry
    rw [hversion] at hne
    have hlisted : some version ∈ reply.data.map VersionEntry.version := by
      rw [← hversion, hothers]
      exact List.mem_map_of_mem (List.mem_cons_of_mem _ hentry)
    have hcurrent : version ≠ s.version.val := fun he => hne (congrArg some he)
    obtain ⟨k, hk⟩ := ((hlists.carried version).mp hlisted).2.resolve_left hcurrent
    obtain ⟨i, hi, _, his, hv⟩ := (snapshotKept_iff h).mp hk
    rw [hflag]
    refine carried_version_read h.invariant hs halive huuid hright hcurrent.symm ?_ hi his hv env'
    intro hword
    rw [hlatest hword] at hflag
    cases hflag

def listing : List Operation :=
  [.serviceCreateNewService "team/core" 1 none, .serviceStartIteration 1 1,
    .serviceCommitIteration 1 "latest" 1, .serviceStartIteration 1 1,
    .serviceCommitIteration 2 "0.0.3" 1, .serviceDeleteIterationById 2 1,
    .serviceStartIteration 1 1]

def listed : History :=
  runEvents historyStep ⟨twoUsers, [], []⟩ (listing.map (fun o => ⟨plainEnvironment, o⟩))

theorem toOption_map_eq_some {α β : Type} {x : Tx α} {f : α → β} {b : β} :
    x.toOption.map f = some b ↔ ∃ a, x = .ok a ∧ f a = b := by
  cases x with
  | error e => simp [Except.toOption]
  | ok a => simp [Except.toOption]

def listedService : Service := publish none ⟨"0.0.3", newerVersion_fits⟩ publishedService

theorem listed_reachable : HistoryReachable listed :=
  ⟨twoUsers, twoUsers_initial, runs_runEvents _ _ _ (fun _ _ _ => trivial) (.refl _)⟩

theorem listedService_mem : listedService ∈ listed.db.services.rows := by decide +kernel

theorem listed_versions_agree :
    ∃ reply, serviceGetAllVersionsByUuid plainEnvironment "team%2Fcore" 1 listed.db = .ok reply ∧
      Lists listed listedService reply.data ∧
      ∀ entry ∈ reply.data, ∀ version, entry.version = some version →
        (version = "latest" → entry.isLatest = true) → ∀ env' : Environment,
        ∃ detail, serviceGetServiceByUuidAndVersion env' "team%2Fcore" version 1 listed.db =
          .ok detail ∧ detail.data.isLatest = entry.isLatest :=
  versions_agree listed_reachable listedService_mem rfl (by decide +kernel) (Or.inl rfl)
    plainEnvironment

/-- The first version of a service has no iteration and is gone after the next one, the current
one stays without its iteration, open iterations are listed without a version, and the lookup of
an earlier version called "latest" finds the current one. -/
theorem list_departs_from_history :
    ∃ v s reply, HistoryReachable v ∧ s ∈ v.db.services.rows ∧ s.isDeleted = false ∧
      MaintainerRight v.db s 1 ∧
      serviceGetAllVersionsByUuid plainEnvironment s.serviceUuid.val 1 v.db = .ok reply ∧
      (⟨s.id, none, "0.0.1"⟩ ∈ v.carried ∧
        some "0.0.1" ∉ reply.data.map VersionEntry.version) ∧
      (some "0.0.3" ∈ reply.data.map VersionEntry.version ∧
        ∀ r ∈ v.carried, r.version = "0.0.3" → ∃ k ∈ v.deleted, r.iterationId = some k) ∧
      none ∈ reply.data.map VersionEntry.version ∧
      ∃ entry ∈ reply.data, entry.version = some "latest" ∧ entry.isLatest = false ∧
        ∃ detail, serviceGetServiceByUuidAndVersion plainEnvironment s.serviceUuid.val "latest" 1
          v.db = .ok detail ∧ detail.data.isLatest = true := by
  have hi := (recorded_of_reachable listed_reachable).invariant
  have hright : MaintainerRight listed.db listedService 1 := Or.inl rfl
  obtain ⟨reply, hreply, hlists⟩ := list_read listed_reachable listedService_mem rfl
    (show strip (unquote "team/core") = _ by decide +kernel) hright plainEnvironment
  have hopen : (reply.data.map VersionEntry.version).count none = 1 := by
    rw [hlists.withoutVersion]
    decide +kernel
  have hearlier : some "latest" ∈ reply.data.map VersionEntry.version := by
    have hkept : SnapshotKept listed 1 "latest" 1 := by
      unfold SnapshotKept
      decide +kernel
    exact (hlists.carried "latest").mpr ⟨⟨_, hkept.2, rfl, rfl⟩, Or.inr ⟨1, hkept⟩⟩
  obtain ⟨entry, hentry, hversion⟩ := List.mem_map.mp hearlier
  have hlookup : (serviceGetServiceByUuidAndVersion plainEnvironment "team/core" "latest" 1
      listed.db).toOption.map (fun r => r.data.isLatest) = some true := by decide +kernel
  obtain ⟨detail, hdetail, hflag⟩ := toOption_map_eq_some.mp hlookup
  obtain ⟨others, hothers, hflags⟩ := hlists.latest
  refine ⟨listed, listedService, reply, listed_reachable, listedService_mem, rfl, hright, hreply,
    ⟨by decide +kernel, ?_⟩, ⟨?_, by decide +kernel⟩, ?_, entry, hentry, hversion, ?_, detail,
    hdetail, hflag⟩
  · intro hfirst
    rcases ((hlists.carried _).mp hfirst).2 with hcur | ⟨k, _, hk⟩
    · revert hcur
      decide
    · have hnone : ∀ r ∈ listed.carried, r.version = "0.0.1" → r.iterationId = none := by
        decide +kernel
      cases hnone _ hk rfl
  · rw [hothers]
    exact List.mem_cons_self
  · exact List.count_pos_iff.mp (hopen ▸ Nat.one_pos)
  · rw [hothers] at hentry
    rcases List.mem_cons.mp hentry with rfl | hentry
    · revert hversion
      decide
    · exact (hflags entry hentry).1

end VersionListing
