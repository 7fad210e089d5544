import ApiManagement.ConcurrentRequests

/-! # One open iteration for each user

`serviceStartIteration` looks for an open iteration of the user and inserts a new one later;
no constraint is declared. So a user has at most one open iteration in a service as long as no
two of his starts there overlap, whatever else the sessions do. -/
namespace OpenIterations

open TransactionRuns KeyedTables PythonRuntime ServiceSchema ApiStores ServiceOperations
  OperationRuns OperationEffects StateInvariant WriteRights ConcurrentRequests

/-- No two iterations of one service and one creator are open. -/
def AtMostOneOpen (db : Database) : Prop :=
  ∀ i ∈ db.iterations.rows, ∀ j ∈ db.iterations.rows, i.serviceId = j.serviceId →
    i.creatorId = j.creatorId → i.isCommitted = false → j.isCommitted = false → i = j

def startOf : Event → Option (ℕ × ℕ)
  | .request ⟨_, .serviceStartIteration serviceId userId⟩ => some (serviceId, userId)
  | .check _ ⟨_, .serviceStartIteration serviceId userId⟩ => some (serviceId, userId)
  | _ => none

/-- A start begins while another one of the same user in the same service has checked and not
yet written. -/
def Overlaps (v : Server) (e : Event) : Prop :=
  ∃ serviceId userId n, startOf e = some (serviceId, userId) ∧
    v.sessions n = some (.start serviceId userId)

theorem mem_openIterations {db : Database} {serviceId userId : ℕ} {i : ServiceIteration} :
    i ∈ openIterations db serviceId userId ↔ i ∈ db.iterations.rows ∧
      i.serviceId = serviceId ∧ i.isCommitted = false ∧ i.creatorId = some userId := by
  simp only [openIterations, List.mem_filter, Bool.and_eq_true, beq_iff_eq, Bool.not_eq_true']
  tauto

section Step

variable {v w : Server} {e : Event}

theorem iterations_of_writes {env : Environment} {c : Checked} {db db' : Database}
    (h : writes env c db = .ok db') {i : ServiceIteration} (hm : i ∈ db'.iterations.rows) :
    i.id < db.iterations.next ∨ ∃ serviceId userId, c = .start serviceId userId ∧
      i = ⟨db.iterations.next, serviceId, some userId, none, none, false⟩ := by
  cases c with
  | start serviceId userId =>
    simp only [writes, startNewIteration, bind_eq_ok, pure_eq_ok] at h
    obtain ⟨_, _, drafts, _, rfl⟩ := h
    rcases List.mem_append.mp hm with hm | hm
    · exact Or.inl (db.iterations.bounds i hm).2
    · exact Or.inr ⟨serviceId, userId, rfl, List.mem_singleton.mp hm⟩
  | commit k s newVersion r =>
    simp only [writes, commitWrites, bind_eq_ok, pure_eq_ok] at h
    obtain ⟨version, _, _, _, _, _, rfl⟩ := h
    obtain ⟨j, hj, hid, _⟩ :=
      db.iterations.update_origin (f := markCommitted version) (fun _ => rfl) hm
    exact Or.inl (hid.symm.trans_lt (db.iterations.bounds j hj).2)
  | edit k operation =>
    obtain ⟨drafts, rfl⟩ := editWrites_drafts h
    exact Or.inl (db.iterations.bounds i hm).2

theorem check_start {db : Database} {env : Environment} {operation : Operation}
    {serviceId userId : ℕ} (h : check db ⟨env, operation⟩ = .ok (some (.start serviceId userId))) :
    operation = .serviceStartIteration serviceId userId ∧
      openIterations db serviceId userId = [] := by
  cases operation
  case serviceStartIteration s u =>
    simp only [check, startCheck, bind_eq_ok, pure_eq_ok] at h
    obtain ⟨found, ⟨_, _, _, _, rfl⟩, hc⟩ := h
    cases hf : (env.fetch (openIterations db s u)).head? with
    | some i =>
      rw [hf] at hc
      cases hc
    | none =>
      rw [hf] at hc
      cases hc
      have hp := env.fetch_perm (openIterations db serviceId userId)
      rw [List.head?_eq_none_iff.mp hf] at hp
      exact ⟨rfl, hp.nil_eq.symm⟩
  case serviceCommitIteration =>
    simp only [check, bind_eq_ok, pure_eq_ok] at h
    obtain ⟨_, _, hc⟩ := h
    cases hc
  case apiAddApi =>
    simp only [check, editor, bind_eq_ok, pure_eq_ok] at h
    obtain ⟨_, _, hc⟩ := h
    cases hc
  case apiCopyApiByApiDraftId =>
    simp only [check, editor, bind_eq_ok, pure_eq_ok] at h
    obtain ⟨_, _, hc⟩ := h
    cases hc
  case apiDeleteApiByApiDraftId =>
    simp only [check, editor, bind_eq_ok, pure_eq_ok] at h
    obtain ⟨_, _, hc⟩ := h
    cases hc
  case apiUpdateApiByApiDraftId =>
    simp only [check, editor, bind_eq_ok, pure_eq_ok] at h
    obtain ⟨_, _, hc⟩ := h
    cases hc
  all_goals cases h

/-- A new iteration is that of a start, whole or checked before. -/
theorem serverStep_created (h : serverStep v e = .ok w) {i : ServiceIteration}
    (hm : i ∈ w.db.iterations.rows) :
    i.id < v.db.iterations.next ∨ ∃ serviceId userId,
      i = ⟨v.db.iterations.next, serviceId, some userId, none, none, false⟩ ∧
      ((startOf e = some (serviceId, userId) ∧ openIterations v.db serviceId userId = [] ∧
          w.sessions = v.sessions) ∨
        ∃ n, v.sessions n = some (.start serviceId userId) ∧
          w.sessions = Function.update v.sessions n none) := by
  rcases serverStep_cases h with ⟨⟨env, operation⟩, rfl, he, hsessions⟩ |
    ⟨_, _, _, _, _, hdb, _⟩ | ⟨_, _, _, _, hdb, _⟩ | ⟨n, env, _, hsessions, hdb⟩
  · obtain ⟨db', sessions⟩ := w
    rcases iterations_of_effect he hm with ⟨j, hj, hid, _⟩ | ⟨s, _, userId, hop, _, hi⟩
    · exact Or.inl (hid.symm.trans_lt (v.db.iterations.bounds j hj).2)
    · subst hop
      cases he with
      | iterationInProgress _ => exact Or.inl (v.db.iterations.bounds i hm).2
      | iterationStarted _ _ _ hnone _ _ =>
        exact Or.inr ⟨s.id, userId, hi, Or.inl ⟨rfl, hnone, hsessions⟩⟩
  · rw [hdb] at hm
    exact Or.inl (v.db.iterations.bounds i hm).2
  · rw [hdb] at hm
    exact Or.inl (v.db.iterations.bounds i hm).2
  · rcases hdb with hdb | ⟨c, hc, hw⟩
    · rw [hdb] at hm
      exact Or.inl (v.db.iterations.bounds i hm).2
    · rcases iterations_of_writes hw hm with hlt | ⟨s, u, rfl, hi⟩
      · exact Or.inl hlt
      · exact Or.inr ⟨s, u, hi, Or.inr ⟨n, hc, hsessions⟩⟩

end Step

structure StartsApart (v : Server) : Prop where
  sound : Sound v
  one : AtMostOneOpen v.db
  none_open : ∀ n serviceId userId, v.sessions n = some (.start serviceId userId) →
    openIterations v.db serviceId userId = []
  apart : ∀ m n serviceId userId, v.sessions m = some (.start serviceId userId) →
    v.sessions n = some (.start serviceId userId) → m = n

section Runs

variable {v w : Server} {e : Event}

/-- An iteration that is open after a step was open before, or is new. -/
theorem open_origin (h : serverStep v e = .ok w) {i : ServiceIteration}
    (hm : i ∈ w.db.iterations.rows) (ho : i.isCommitted = false)
    (hlt : i.id < v.db.iterations.next) :
    ∃ j ∈ v.db.iterations.rows, j.id = i.id ∧ j.serviceId = i.serviceId ∧
      j.creatorId = i.creatorId ∧ j.isCommitted = false := by
  obtain ⟨j, hj, hid, hs, hc, hopen⟩ := (serverStep_later h).iterations i hm hlt
  exact ⟨j, hj, hid, hs, hc, hopen ho⟩

theorem one_step (hs : StartsApart v) (h : serverStep v e = .ok w) : AtMostOneOpen w.db := by
  have old_new : ∀ i ∈ w.db.iterations.rows, i.isCommitted = false →
      i.id < v.db.iterations.next → ∀ serviceId userId, i.serviceId = serviceId →
      i.creatorId = some userId → openIterations v.db serviceId userId ≠ [] := by
    intro i hi ho hlt serviceId userId hserv hcre hnone
    obtain ⟨k, hk, _, hks, hkc, hko⟩ := open_origin h hi ho hlt
    have hm : k ∈ openIterations v.db serviceId userId :=
      mem_openIterations.mpr ⟨hk, hks.trans hserv, hko, hkc.trans hcre⟩
    rw [hnone] at hm
    cases hm
  have created : ∀ i ∈ w.db.iterations.rows, i.id < v.db.iterations.next ∨
      ∃ serviceId userId, i = ⟨v.db.iterations.next, serviceId, some userId, none, none, false⟩ ∧
        openIterations v.db serviceId userId = [] := by
    intro i hi
    rcases serverStep_created h hi with hlt | ⟨s, u, rfl, ⟨_, hnone, _⟩ | ⟨n, hn, _⟩⟩
    · exact Or.inl hlt
    · exact Or.inr ⟨s, u, rfl, hnone⟩
    · exact Or.inr ⟨s, u, rfl, hs.none_open n s u hn⟩
  intro i hi j hj hserv hcre hio hjo
  rcases created i hi with hlt | ⟨s, u, rfl, hnone⟩ <;>
    rcases created j hj with hlt' | ⟨s', u', rfl, hnone'⟩
  · obtain ⟨a, ha, hai, has, hac, hao⟩ := open_origin h hi hio hlt
    obtain ⟨b, hb, hbj, hbs, hbc, hbo⟩ := open_origin h hj hjo hlt'
    have hab : a = b := hs.one a ha b hb (has.trans (hserv.trans hbs.symm))
      (hac.trans (hcre.trans hbc.symm)) hao hbo
    subst hab
    exact w.db.iterations.eq_of_key_eq hi hj (hai.symm.trans hbj)
  · exact absurd hnone' (old_new i hi hio hlt s' u' hserv hcre)
  · exact absurd hnone (old_new j hj hjo hlt' s u hserv.symm hcre.symm)
  · exact w.db.iterations.eq_of_key_eq hi hj rfl

/-- A session that has checked a start before the step or checks it now. -/
theorem start_origin (h : serverStep v e = .ok w) {n serviceId userId : ℕ}
    (hn : w.sessions n = some (.start serviceId userId)) :
    v.sessions n = some (.start serviceId userId) ∨
      ∃ env, e = .check n ⟨env, .serviceStartIteration serviceId userId⟩ ∧ w.db = v.db ∧
        openIterations v.db serviceId userId = [] := by
  rcases session_origin h hn with ⟨hold, _⟩ | ⟨⟨env, operation⟩, rfl, hc, hdb⟩ |
    ⟨env, part, d, _, hd, hread, _⟩
  · exact Or.inl hold
  · obtain ⟨rfl, hnone⟩ := check_start hc
    exact Or.inr ⟨env, rfl, hdb, hnone⟩
  · cases d with
    | start s u =>
      cases hread
      exact Or.inl hd
    | commit i s newVersion r => cases hread
    | edit i operation => cases hread

theorem openIterations_stay_empty (h : serverStep v e = .ok w) {serviceId userId : ℕ}
    (hnone : openIterations v.db serviceId userId = [])
    (hother : ∀ i ∈ w.db.iterations.rows, i.id < v.db.iterations.next ∨
      ¬ (i.serviceId = serviceId ∧ i.creatorId = some userId)) :
    openIterations w.db serviceId userId = [] := by
  rw [List.eq_nil_iff_forall_not_mem]
  intro i hm
  obtain ⟨hi, hserv, ho, hcre⟩ := mem_openIterations.mp hm
  rcases hother i hi with hlt | hne
  · obtain ⟨j, hj, _, hjs, hjc, hjo⟩ := open_origin h hi ho hlt
    have hmj : j ∈ openIterations v.db serviceId userId :=
      mem_openIterations.mpr ⟨hj, hjs.trans hserv, hjo, hjc.trans hcre⟩
    rw [hnone] at hmj
    cases hmj
  · exact hne ⟨hserv, hcre⟩

theorem startsApart_step (hs : StartsApart v) (hg : ¬ Overlaps v e)
    (h : serverStep v e = .ok w) : StartsApart w := by
  refine ⟨sound_step hs.sound h, one_step hs h, ?_, ?_⟩
  · intro n serviceId userId hn
    rcases start_origin h hn with hold | ⟨_, _, hdb, hnone⟩
    · refine openIterations_stay_empty h (hs.none_open n _ _ hold) ?_
      intro i hi
      rcases serverStep_created h hi with hlt | ⟨s, u, rfl, ⟨hstart, _⟩ | ⟨m, hm, hsessions⟩⟩
      · exact Or.inl hlt
      · right
        rintro ⟨rfl, hu⟩
        cases hu
        exact hg ⟨_, _, n, hstart, hold⟩
      · right
        rintro ⟨rfl, hu⟩
        cases hu
        have hmn : m = n := hs.apart m n _ _ hm hold
        rw [hsessions, hmn, Function.update_self] at hn
        cases hn
    · rw [hdb]
      exact hnone
  · intro m n serviceId userId hm hn
    rcases start_origin h hm with hm | ⟨_, hcheck, _⟩ <;>
      rcases start_origin h hn with hn | ⟨_, hcheck', _⟩
    · exact hs.apart m n _ _ hm hn
    · subst hcheck'
      exact absurd ⟨_, _, m, rfl, hm⟩ hg
    · subst hcheck
      exact absurd ⟨_, _, n, rfl, hn⟩ hg
    · rw [hcheck] at hcheck'
      cases hcheck'
      rfl

theorem reachable_startsApart (h : ServerReachable (fun v e => ¬ Overlaps v e) v) :
    StartsApart v := by
  obtain ⟨db₀, h₀, hr⟩ := h
  refine hr.preserves (fun _ _ _ hs hg h => startsApart_step hs hg h) ?_
  constructor
  · have hr : ServerReachable (fun _ _ => True) ⟨db₀, fun _ => none⟩ := ⟨db₀, h₀, .refl _⟩
    exact reachable_sound hr
  · intro i hi
    rw [h₀.iterations] at hi
    cases hi
  · intro n s u hn
    cases hn
  · intro m n s u hm
    cases hm

end Runs

/-- The query of a start finds the open iteration. -/
theorem startCheck_finds {db : Database} (hone : AtMostOneOpen db) (env : Environment)
    {s : Service} (hs : s ∈ db.services.rows) {userId : ℕ} (hr : MaintainerRight db s userId)
    {i : ServiceIteration} (hi : i ∈ openIterations db s.id userId) :
    startCheck env s.id userId db = .ok (some i) := by
  have hfirst : (env.fetch (openIterations db s.id userId)).head? = some i := by
    cases hf : (env.fetch (openIterations db s.id userId)).head? with
    | none =>
      have hm := env.mem_fetch.mpr hi
      rw [List.head?_eq_none_iff.mp hf] at hm
      cases hm
    | some j =>
      obtain ⟨hj, hjs, hjo, hjc⟩ := mem_openIterations.mp (env.mem_fetch.mp (List.mem_of_head? hf))
      obtain ⟨hi, his, hio, hic⟩ := mem_openIterations.mp hi
      rw [hone j hj i hi (hjs.trans his.symm) (hjc.trans hic.symm) hjo hio]
  simp only [startCheck, bind_eq_ok, orAbort_eq_ok, requireMaintainer_eq_ok, pure_eq_ok]
  exact ⟨s, Table.find?_eq_some.mpr ⟨hs, rfl⟩, (), hr, hfirst⟩

/-- Unless two starts of one user in one service overlap, he has at most one open iteration
there, and a start that finds one reports it and changes nothing. -/
theorem one_open_iteration {v : Server} (h : ServerReachable (fun v e => ¬ Overlaps v e) v) :
    AtMostOneOpen v.db ∧
      ∀ (env : Environment) (s : Service) (userId : ℕ) (i : ServiceIteration),
      s ∈ v.db.services.rows → MaintainerRight v.db s userId →
      i ∈ openIterations v.db s.id userId →
      serviceStartIteration env s.id userId v.db = .ok (v.db,
        ⟨201, "You have an uncommitted service iteration in progress", i.id⟩) ∧
      check v.db ⟨env, .serviceStartIteration s.id userId⟩ = .ok none := by
  have hone := (reachable_startsApart h).one
  refine ⟨hone, ?_⟩
  intro env s userId i hs hr hi
  have hfound := startCheck_finds hone env hs hr hi
  constructor
  · rw [serviceStartIteration_parts, hfound]
    rfl
  · simp only [check, hfound]
    rfl

/-- User 1 has an open iteration in the published service; a second start reports it. -/
theorem second_start_reports :
    AtMostOneOpen opened ∧ serviceStartIteration plainEnvironment 1 1 opened =
      .ok (opened, ⟨201, "You have an uncommitted service iteration in progress", 2⟩) := by
  have hreach : ServerReachable (fun v e => ¬ Overlaps v e) ⟨opened, fun _ => none⟩ :=
    server_of_reachable (fun _ _ ⟨_, _, _, _, hn⟩ => nomatch hn) opened_reachable
  obtain ⟨hone, hstart⟩ := one_open_iteration hreach
  refine ⟨hone, ?_⟩
  exact (hstart plainEnvironment publishedService 1 ⟨2, 1, some 1, none, none, false⟩
    (by decide +kernel) (Or.inl rfl) (by decide +kernel)).1

/-- Two starts of user 1: both look for an open iteration before either inserts one. -/
def overlappingStarts : List Event :=
  [.check 0 ⟨plainEnvironment, .serviceStartIteration 1 1⟩,
    .check 1 ⟨plainEnvironment, .serviceStartIteration 1 1⟩,
    .finish 0 plainEnvironment, .finish 1 plainEnvironment]

def raced : Server := runEvents serverStep ⟨published, fun _ => none⟩ overlappingStarts

theorem overlapping_starts_open_two :
    ¬ ∀ v, ServerReachable (fun _ _ => True) v → AtMostOneOpen v.db := by
  intro h
  have hreach : ServerReachable (fun _ _ => True) raced :=
    (server_of_reachable (fun _ _ => trivial) published_reachable).run
      (runs_runEvents _ _ _ (fun _ _ _ => trivial) (.refl _))
  have hsame := h raced hreach ⟨2, 1, some 1, none, none, false⟩ (by decide +kernel)
    ⟨3, 1, some 1, none, none, false⟩ (by decide +kernel) rfl rfl rfl rfl
  cases hsame

end OpenIterations
