import ApiManagement.OutsiderWrites
import ApiManagement.ReleaseRaces

/-! # Rights and concurrent sessions

A session writes after it was checked, and its user may have lost the right in between. Every
change to a service is still due to a user who had the right when his request was checked, and
requests of outsiders change nothing however they overlap. -/
namespace SessionRights

open TransactionRuns KeyedTables ParentLinkedRows PythonRuntime ServiceSchema ApiStores
  ServiceOperations ApiOperations OperationRuns OperationEffects StateInvariant DraftIsolation
  WriteRights KeptContent OutsiderReads OutsiderWrites ConcurrentRequests ReleaseRaces

section Checks

variable {db db' : Database} {env : Environment}

def checkedService : Checked → ℕ
  | .start serviceId _ => serviceId
  | .commit iteration _ _ _ => iteration.serviceId
  | .edit iteration _ => iteration.serviceId

@[simp] theorem checkedService_unread (c : Checked) :
    checkedService c.unread = checkedService c := by
  cases c <;> rfl

@[simp] theorem checkedService_read (env : Environment) (db : Database) (part : Part)
    (c : Checked) : checkedService (c.read env db part) = checkedService c := by
  cases c <;> rfl

theorem right_of_work {iterationId userId : ℕ} {i : ServiceIteration} {operation : Operation}
    (hw : WorkRight db iterationId userId i) (hop : namedIteration operation = some iterationId) :
    ∃ s ∈ db.services.rows, s.id = i.serviceId ∧ MayChange db s operation userId := by
  obtain ⟨s, hs, hid, _⟩ := hw.right
  exact ⟨s, hs, hid, WorkRight.mayChange hw hop hs hid⟩

/-- A session is opened only for a user who may change the service. -/
theorem right_of_check {request : Request} {c : Checked}
    (h : check db request = .ok (some c)) :
    ∃ u, actor request.operation = some u ∧ ∃ s ∈ db.services.rows, s.id = checkedService c ∧
      MayChange db s request.operation u := by
  obtain ⟨env, operation⟩ := request
  have edited : ∀ {iterationId userId : ℕ}, editor operation = some (iterationId, userId) →
      namedIteration operation = some iterationId →
      checkServiceIterationPermission db iterationId userId >>=
          (fun p => pure (some (Checked.edit p.1 operation))) = (.ok (some c) : Tx _) →
      ∃ s ∈ db.services.rows, s.id = checkedService c ∧ MayChange db s operation userId := by
    intro iterationId userId hop hnamed h
    simp only [bind_eq_ok, pure_eq_ok, Option.some_inj] at h
    obtain ⟨⟨i, u⟩, hc, rfl⟩ := h
    exact right_of_work (checkServiceIterationPermission_eq_ok.mp hc).1 hnamed
  cases operation
  case serviceStartIteration serviceId userId =>
    simp only [check, startCheck, bind_eq_ok, orAbort_eq_ok, requireMaintainer_eq_ok,
      Table.find?_eq_some, service_key, pure_eq_ok] at h
    obtain ⟨found, ⟨s, ⟨hs, hid⟩, _, hr, rfl⟩, hc⟩ := h
    refine ⟨userId, rfl, s, hs, ?_, Or.inl hr⟩
    split at hc
    · cases hc
    · cases hc
      exact hid
  case serviceCommitIteration iterationId newVersion userId =>
    simp only [check, commitCheck, bind_eq_ok, asCheckResult_eq_ok, orAbort_eq_ok,
      Table.find?_eq_some, service_key, pure_eq_ok] at h
    obtain ⟨_, ⟨⟨i, u⟩, hc, s, _, _, _, rfl⟩, hce⟩ := h
    rw [← Option.some.inj hce]
    exact ⟨userId, rfl, right_of_work (checkServiceIterationPermission_eq_ok.mp hc).1 rfl⟩
  case apiAddApi => exact ⟨_, rfl, edited rfl rfl h⟩
  case apiCopyApiByApiDraftId => exact ⟨_, rfl, edited rfl rfl h⟩
  case apiDeleteApiByApiDraftId => exact ⟨_, rfl, edited rfl rfl h⟩
  case apiUpdateApiByApiDraftId => exact ⟨_, rfl, edited rfl rfl h⟩
  all_goals cases h

/-- The writes of a session leave all other services as they are. -/
theorem sameService_of_writes (hi : Invariant Nests db) {c : Checked} (hr : Remembered db c)
    (h : writes env c db = .ok db') {t : ℕ} (ht : t ≠ checkedService c) :
    SameService t db db' := by
  cases c with
  | start serviceId userId =>
    simp only [writes, startNewIteration, bind_eq_ok, pure_eq_ok] at h
    obtain ⟨_, _, drafts, hcopy, rfl⟩ := h
    obtain ⟨_, _, _, _, _, ho⟩ := started_copies hi hcopy
    refine ⟨rfl, fun _ => Iff.rfl, rfl, SameContainer.refl _ _, ?_, ?_⟩
    · apply db.iterations.filter_insert
      have hne : serviceId ≠ t := fun hst => ht hst.symm
      simp [hne]
    · intro i hm _
      exact sameContainer_of_outside ho (Table.key_ne_next hm)
  | commit i s newVersion r =>
    obtain ⟨hp, hs, hl⟩ := hr
    obtain ⟨j, hj, hid⟩ := committed_iteration_exists h
    have hjs := hp.2 j hj hid
    have hts : t ≠ s.id := fun he => ht (he.trans hs)
    obtain ⟨_, hd, ho⟩ := commitWrites_spec hi hp hs hl h
    simp only [writes, commitWrites, bind_eq_ok, pure_eq_ok] at h
    obtain ⟨version, _, live, _, _, _, rfl⟩ := h
    refine ⟨?_, fun _ => Iff.rfl, rfl, sameContainer_of_outside ho hts, ?_,
      fun _ _ _ => SameContainer.refl _ _⟩
    · exact db.services.find?_update_other (f := publishLoaded s i.description version)
        (fun _ => rfl) hts
    · have hfilter := filter_iteration_update (f := markCommitted version) hj (fun _ => rfl)
        (fun _ => rfl) (fun he => ht (he.trans hjs))
      rwa [hid] at hfilter
  | edit i operation =>
    obtain ⟨hp, userId, hop, hu⟩ := hr
    obtain ⟨j, hj, hid⟩ := edited_iteration_exists hi hop h
    have he := editWrites_effect hi hp hop h
    have hconfined := draft_effect_confined (reopened_invariant hi i.id hu) he
      (draftIteration_of_edited (editedIteration_of_editor hop))
    obtain ⟨drafts, rfl⟩ := editWrites_drafts h
    have ho : SameOutside j.id db.drafts drafts := hid ▸ hconfined.drafts
    exact sameService_of_drafts hj ho (fun he => ht (he.trans (hp.2 j hj hid)))

end Checks

section Sessions

variable {guard : Server → Event → Prop} {v w : Server} {e : Event}

/-- An open session was checked in an earlier state of the run. -/
theorem session_was_checked (h : ServerReachable guard v) {n : ℕ} {c : Checked}
    (hc : v.sessions n = some c) : ∃ v₀ request, ServerReachable guard v₀ ∧
      Runs serverStep guard v₀ v ∧ check v₀.db request = .ok (some c.unread) := by
  obtain ⟨db₀, h₀, hrun⟩ := h
  induction hrun generalizing n c with
  | refl => cases hc
  | @tail u e hu hg ih =>
    have hlast : Runs serverStep guard u (committed (serverStep u e) u) := (Runs.refl u).tail hg
    rcases committed_cases (serverStep u e) u with ⟨w, hw, heq⟩ | heq
    · rw [heq] at hc hlast ⊢
      have earlier : ∀ {d : Checked}, u.sessions n = some d → ∃ v₀ request,
          ServerReachable guard v₀ ∧ Runs serverStep guard v₀ w ∧
            check v₀.db request = .ok (some d.unread) := by
        intro d hold
        obtain ⟨v₀, request, hreach, hr, hcheck⟩ := ih hold
        exact ⟨v₀, request, hreach, hr.trans hlast, hcheck⟩
      rcases session_origin hw hc with ⟨hold, _⟩ | ⟨request, _, hcheck, _⟩ |
        ⟨env, part, d, _, hd, rfl, _⟩
      · exact earlier hold
      · exact ⟨u, request, ⟨db₀, h₀, hu⟩, hlast, (check_unread hcheck).symm ▸ hcheck⟩
      · rw [Checked.unread_read]
        exact earlier hd
    · rw [heq] at hc hlast ⊢
      exact ih hc

/-- A request that is the cause of a step: the step serves it whole, or finishes a session that
was opened for it in an earlier state. -/
inductive CausedBy (guard : Server → Event → Prop) (v : Server) (request : Request)
    (v₀ : Server) : Event → Prop where
  | whole : v₀ = v → CausedBy guard v request v₀ (.request request)
  | late {n : ℕ} {env : Environment} {c : Checked} : v.sessions n = some c →
      ServerReachable guard v₀ → Runs serverStep guard v₀ v →
      check v₀.db request = .ok (some c.unread) → CausedBy guard v request v₀ (.finish n env)

/-- However requests overlap, a step changes a row of a service only for a request whose user
may change the service at the moment when the request is checked. -/
theorem changes_were_allowed (hreach : ServerReachable guard v) (hstep : serverStep v e = .ok w)
    {s : Service} (hs : s ∈ v.db.services.rows) (hchange : ¬ SameService s.id v.db w.db) :
    ∃ request v₀ u s₀, CausedBy guard v request v₀ e ∧ actor request.operation = some u ∧
      s₀ ∈ v₀.db.services.rows ∧ s₀.id = s.id ∧ MayChange v₀.db s₀ request.operation u := by
  have hsound := reachable_sound hreach
  have same_of_eq : w.db = v.db → SameService s.id v.db w.db := by
    intro hdb
    rw [hdb]
    exact SameService.refl _ _
  rcases serverStep_cases hstep with ⟨request, rfl, he, _⟩ | ⟨_, _, _, _, _, hdb, _⟩ |
    ⟨_, _, _, _, hdb, _⟩ | ⟨n, env, rfl, _, hdb | ⟨c, hc, hw⟩⟩
  · rcases service_unchanged_or_mayChange hsound.invariant he hs with hsame | ⟨u, hu, hmay⟩
    · exact absurd hsame hchange
    · exact ⟨request, v, u, s, .whole rfl, hu, hs, rfl, hmay⟩
  · exact absurd (same_of_eq hdb) hchange
  · exact absurd (same_of_eq hdb) hchange
  · exact absurd (same_of_eq hdb) hchange
  · obtain ⟨v₀, request, hreach₀, hrun, hcheck⟩ := session_was_checked hreach hc
    obtain ⟨u, hu, s₀, hs₀, hid, hmay⟩ := right_of_check hcheck
    rw [checkedService_unread] at hid
    have hservice : s.id = checkedService c := by
      by_contra hne
      exact hchange (sameService_of_writes hsound.invariant (hsound.remembered n c hc) hw hne)
    exact ⟨request, v₀, u, s₀, .late hc hreach₀ hrun hcheck, hu, hs₀, hid.trans hservice.symm,
      hmay⟩

end Sessions

theorem overtaken_reachable : ServerReachable (fun _ _ => True) overtaken := by
  obtain ⟨e, he⟩ := deleting_committed.step
  exact deleting_reachable.step trivial he

theorem torn_changed : ¬ SameService 1 overtaken.db torn.db := by
  intro hsame
  have hmem : ∃ i ∈ overtaken.db.iterations.rows, i.id = 2 ∧ i.serviceId = 1 := by decide +kernel
  obtain ⟨i, hi, hid, hs⟩ := hmem
  have hapis := (hsame.drafts i hi hs).apis
  rw [hid] at hapis
  have hlengths : (torn.db.drafts.apisOf 2).length ≠ (overtaken.db.drafts.apisOf 2).length := by
    decide +kernel
  exact hlengths (congrArg List.length hapis)

/-- The late deletion of a draft. -/
theorem late_deletion_was_allowed : ∃ s ∈ overtaken.db.services.rows, s.id = 1 ∧
    ∃ request v₀ u s₀, CausedBy (fun _ _ => True) overtaken request v₀
      (.finish 0 plainEnvironment) ∧ actor request.operation = some u ∧
      s₀ ∈ v₀.db.services.rows ∧ s₀.id = s.id ∧ MayChange v₀.db s₀ request.operation u := by
  have hmem : ∃ s ∈ overtaken.db.services.rows, s.id = 1 := by decide +kernel
  obtain ⟨s, hs, hid⟩ := hmem
  refine ⟨s, hs, hid, changes_were_allowed (w := torn) overtaken_reachable rfl hs ?_⟩
  rw [hid]
  exact torn_changed

section Outsiders

variable {guard : Server → Event → Prop} {v w : Server} {e : Event} {db db' : Database}
  {env : Environment} {s : Service}

/-- Sessions write to services, iterations and apis only. -/
theorem writes_keep {c : Checked} (h : writes env c db = .ok db') : db'.users = db.users ∧
    db'.userServiceLink = db.userServiceLink ∧ db'.categories = db.categories := by
  cases c with
  | start serviceId userId =>
    simp only [writes, startNewIteration, bind_eq_ok, pure_eq_ok] at h
    obtain ⟨_, _, drafts, _, rfl⟩ := h
    exact ⟨rfl, rfl, rfl⟩
  | commit i s newVersion r =>
    simp only [writes, commitWrites, bind_eq_ok, pure_eq_ok] at h
    obtain ⟨version, _, live, _, _, _, rfl⟩ := h
    exact ⟨rfl, rfl, rfl⟩
  | edit i operation =>
    obtain ⟨drafts, rfl⟩ := editWrites_drafts h
    exact ⟨rfl, rfl, rfl⟩

theorem linksHeld_server (hstep : serverStep v e = .ok w) (h : LinksHeld v.db) :
    LinksHeld w.db := by
  rcases serverStep_cases hstep with ⟨_, _, he, _⟩ | ⟨_, _, _, _, _, hdb, _⟩ |
    ⟨_, _, _, _, hdb, _⟩ | ⟨_, _, _, _, hdb | ⟨c, _, hw⟩⟩
  · exact linksHeld_step he h
  · rwa [hdb]
  · rwa [hdb]
  · rwa [hdb]
  · obtain ⟨husers, hlinks, _⟩ := writes_keep hw
    unfold LinksHeld
    rw [husers, hlinks]
    exact h

theorem linksHeld_reachable (h : ServerReachable guard v) : LinksHeld v.db := by
  obtain ⟨db₀, h₀, hrun⟩ := h
  refine hrun.preserves (I := fun v => LinksHeld v.db)
    (fun _ _ _ hv _ hstep => linksHeld_server hstep hv) ?_
  intro p hp
  rw [h₀.links] at hp
  cases hp

theorem not_mayChange_of_outsider {u : ℕ} (h : Outsider db s u) (operation : Operation) :
    ¬ MayChange db s operation u := by
  rintro ((ho | hm | hl) | ⟨i, hi, his, _, hc⟩)
  · exact h.owner ho
  · exact h.maintainer hm
  · exact h.level hl
  · exact h.creator i hi his hc

structure Unharmed (v : Server) (s : Service) (x : Server) : Prop where
  sound : Sound x
  links : LinksHeld x.db
  same : SameService s.id v.db x.db
  outsiders : ∀ u, Outsider v.db s u → Outsider x.db s u
  elsewhere : ∀ n c, x.sessions n = some c → checkedService c ≠ s.id

/-- The requests that an event begins to serve. -/
def Begins (request : Request) : Event → Prop
  | .request r => r = request
  | .check _ r => r = request
  | .read _ _ _ => False
  | .finish _ _ => False

def ByOutsiders (v : Server) (s : Service) (_ : Server) (e : Event) : Prop :=
  ∀ request, Begins request e → ∀ u, actor request.operation = some u → Outsider v.db s u

theorem outsider_of_writes {c : Checked} (hw : writes env c db = .ok db') (hlinks : LinksHeld db)
    (hsame : SameService s.id db db') {u : ℕ} (h : Outsider db s u) : Outsider db' s u := by
  obtain ⟨husers, _, _⟩ := writes_keep hw
  refine ⟨?_, h.owner, ?_, ?_⟩
  · unfold AtLevelZero
    rw [husers]
    exact h.level
  · rintro ⟨_, hm⟩
    have hlink := (hsame.maintainers u).mp hm
    exact h.maintainer ⟨hlinks _ hlink, hlink⟩
  · intro i hi his
    exact h.creator i ((iteration_iff hsame his).mp hi) his

theorem unharmed_step {x y : Server} (hs : s ∈ v.db.services.rows) (h : Unharmed v s x)
    (hg : ByOutsiders v s x e) (hstep : serverStep x e = .ok y) : Unharmed v s y := by
  have hsx : s ∈ x.db.services.rows := service_mem h.same hs rfl
  have hsound := sound_step h.sound hstep
  have hlinks := linksHeld_server hstep h.links
  have helsewhere : ∀ n c, y.sessions n = some c → checkedService c ≠ s.id := by
    intro n c hc
    rcases session_origin hstep hc with ⟨hold, _⟩ | ⟨request, rfl, hcheck, _⟩ |
      ⟨env, part, d, _, hd, rfl, _⟩
    · exact h.elsewhere n c hold
    · obtain ⟨u, hu, t, ht, htid, hmay⟩ := right_of_check hcheck
      intro heq
      rw [x.db.services.eq_of_key_eq ht hsx (htid.trans heq)] at hmay
      exact not_mayChange_of_outsider (h.outsiders u (hg request rfl u hu)) _ hmay
    · rw [checkedService_read]
      exact h.elsewhere n d hd
  rcases serverStep_cases hstep with ⟨request, rfl, he, _⟩ | ⟨_, _, _, _, _, hdb, _⟩ |
    ⟨_, _, _, _, hdb, _⟩ | ⟨n, _, _, _, hdb | ⟨c, hc, hw⟩⟩
  · have hsame : SameService s.id x.db y.db := by
      rcases service_unchanged_or_mayChange h.sound.invariant he hsx with hsame | ⟨u, hu, hmay⟩
      · exact hsame
      · exact absurd hmay (not_mayChange_of_outsider (h.outsiders u (hg request rfl u hu)) _)
    exact ⟨hsound, hlinks, sameService_trans h.same hsame,
      fun u hu => outsider_step he h.links hsame (h.outsiders u hu), helsewhere⟩
  · exact ⟨hsound, hlinks, hdb ▸ h.same, hdb ▸ h.outsiders, helsewhere⟩
  · exact ⟨hsound, hlinks, hdb ▸ h.same, hdb ▸ h.outsiders, helsewhere⟩
  · exact ⟨hsound, hlinks, hdb ▸ h.same, hdb ▸ h.outsiders, helsewhere⟩
  · have hsame := sameService_of_writes h.sound.invariant (h.sound.remembered n c hc) hw
      (fun heq => h.elsewhere n c hc heq.symm)
    exact ⟨hsound, hlinks, sameService_trans h.same hsame,
      fun u hu => outsider_of_writes hw h.links hsame (h.outsiders u hu), helsewhere⟩

/-- However requests of outsiders of a service overlap, with one another and with sessions that
were checked for other services, no row of the service changes. -/
theorem outsiders_race_in_vain (hreach : ServerReachable guard v) (hs : s ∈ v.db.services.rows)
    (helsewhere : ∀ n c, v.sessions n = some c → checkedService c ≠ s.id)
    (hrun : Runs serverStep (ByOutsiders v s) v w) : SameService s.id v.db w.db :=
  (hrun.preserves (fun _ _ _ hx hg hstep => unharmed_step hs hx hg hstep)
    (⟨reachable_sound hreach, linksHeld_reachable hreach, SameService.refl _ _, fun _ hu => hu,
      helsewhere⟩ : Unharmed v s v)).same

end Outsiders

def rush : List Event :=
  [.request ⟨plainEnvironment, .serviceCreateNewService "team/other" 2 none⟩,
    .check 0 ⟨plainEnvironment, .serviceStartIteration 2 2⟩,
    .check 1 ⟨plainEnvironment, .serviceStartIteration 1 2⟩,
    .request ⟨plainEnvironment, .serviceDeleteServiceById 1 2⟩,
    .finish 1 plainEnvironment, .finish 0 plainEnvironment]

theorem rush_changes_nothing : SameService 1 published
    (runEvents serverStep ⟨published, fun _ => none⟩ rush).db := by
  have hacted : ∀ e ∈ rush, ∀ request, Begins request e →
      ∀ u, actor request.operation = some u → u = 2 := by
    intro e he request hbegins u hu
    simp only [rush, List.mem_cons, List.not_mem_nil, or_false] at he
    rcases he with rfl | rfl | rfl | rfl | rfl | rfl
    · cases hbegins
      exact (Option.some.inj hu).symm
    · cases hbegins
      exact (Option.some.inj hu).symm
    · cases hbegins
      exact (Option.some.inj hu).symm
    · cases hbegins
      exact (Option.some.inj hu).symm
    · cases hbegins
    · cases hbegins
  have hrun : Runs serverStep (ByOutsiders ⟨published, fun _ => none⟩ publishedService)
      ⟨published, fun _ => none⟩ (runEvents serverStep ⟨published, fun _ => none⟩ rush) := by
    refine runs_runEvents rush _ _ ?_ (.refl _)
    intro e he _ request hbegins u hu
    rw [hacted e he request hbegins u hu]
    exact visitor_outsider (Or.inl rfl)
  have hreach : ServerReachable (fun _ _ => True) ⟨published, fun _ => none⟩ :=
    server_of_reachable (fun _ _ => trivial) published_reachable
  exact outsiders_race_in_vain hreach publishedService_mem (fun _ _ hc => by cases hc) hrun

end SessionRights
