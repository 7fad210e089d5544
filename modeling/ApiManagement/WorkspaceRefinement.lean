import ApiManagement.ContainerContents
import ApiManagement.VersionedWorkspaces

/-! # Services as projects, iterations as workspaces

The database seen as a depot: the head of a service is its version and the content of its live
apis, a workspace is an iteration with the content of its drafts. Every operation is one event
of the depot, so what holds of all traces of depots holds of all runs of the backend. -/
namespace WorkspaceRefinement

open TransactionRuns KeyedTables ParentLinkedRows PythonRuntime ServiceSchema ApiStores
  StoreCopies ServiceOperations ApiOperations OperationRuns OperationEffects StateInvariant
  IterationCopies DraftIsolation WriteRights KeptContent ContainerContents VersionedWorkspaces

def standing (i : ServiceIteration) : ℕ × Option String :=
  (i.serviceId, if i.isCommitted then i.version.map VarChar.val else none)

def abstraction (db : Database) : Depot ℕ ℕ Content String where
  head k := (db.services.find? k).map (fun s => (s.version.val, content db.live k))
  work i := ((db.iterations.find? i).map standing).map
    (fun p => ⟨p.1, content db.drafts i, p.2⟩)

/-- What an operation that took the database `db` to `db'` is for the depot. -/
def event (db db' : Database) (operation : Operation) : Event ℕ ℕ Content String :=
  match operation with
  | .serviceCreateNewService _ _ _ => .create db.services.next "0.0.1"
  | .serviceStartIteration serviceId userId =>
    if (openIterations db serviceId userId).isEmpty then .branch db.iterations.next serviceId
    else .skip
  | .serviceCommitIteration iterationId newVersion _ => .release iterationId newVersion
  | .serviceDeleteIterationById iterationId _ => .drop iterationId
  | operation =>
    match editedIteration operation with
    | some iterationId => .edit iterationId (content db'.drafts iterationId)
    | none => .skip

def restructures : Operation → Bool
  | .serviceCreateNewService _ _ _ => true
  | .serviceStartIteration _ _ => true
  | .serviceCommitIteration _ _ _ => true
  | .serviceDeleteIterationById _ _ => true
  | _ => false

section Lookups

variable {db db' : Database} {env : Environment} {operation : Operation} {k : ℕ}

theorem abstraction_head : (abstraction db).head k =
    ((db.services.find? k).map Service.version).map (fun v => (v.val, content db.live k)) := by
  rw [Option.map_map]
  rfl

theorem abstraction_work : (abstraction db).work k = ((db.iterations.find? k).map standing).map
    (fun p => ⟨p.1, content db.drafts k, p.2⟩) := rfl

theorem head_of_find? {s : Service} (h : db.services.find? k = some s) :
    (abstraction db).head k = some (s.version.val, content db.live k) := by
  rw [abstraction_head, h, Option.map_some, Option.map_some]

theorem work_of_find? {i : ServiceIteration} (h : db.iterations.find? k = some i) :
    (abstraction db).work k =
      some ⟨(standing i).1, content db.drafts k, (standing i).2⟩ := by
  rw [abstraction_work, h, Option.map_some, Option.map_some]

theorem head_next : (abstraction db).head db.services.next = none := by
  rw [abstraction_head, db.services.find?_next]
  rfl

theorem work_next : (abstraction db).work db.iterations.next = none := by
  rw [abstraction_work, db.iterations.find?_next]
  rfl

theorem standing_uncommitted {i : ServiceIteration} (h : i.isCommitted = false) :
    standing i = (i.serviceId, none) := by
  rw [standing, h]
  rfl

end Lookups

section Frames

variable {db db' : Database} {env : Environment} {operation : Operation} {k : ℕ}

/-- The version of a service is written when it is created and by commits. -/
theorem version_kept (he : Effect env db operation db')
    (hop : ∀ version, ¬ Publishes db k version operation)
    (hnew : k = db.services.next → ∀ uuid userId description,
      operation ≠ .serviceCreateNewService uuid userId description) :
    (db'.services.find? k).map Service.version = (db.services.find? k).map Service.version := by
  cases he with
  | serviceCreated _ _ _ _ _ _ _ =>
    by_cases hk : k = db.services.next
    · exact absurd rfl (hnew hk _ _ _)
    · rw [db.services.find?_insert_other hk]
  | serviceDeleted _ _ _ =>
    exact db.services.map_find?_update (f := setDeleted (some env.now)) (fun _ => rfl)
      (fun _ => rfl) k
  | serviceRestored _ _ _ _ =>
    exact db.services.map_find?_update (f := setDeleted none) (fun _ => rfl) (fun _ => rfl) k
  | @iterationCommitted _ newVersion userId i s version live hw hs hsid _ _ _ =>
    by_cases hk : k = s.id
    · exact absurd ⟨_, userId, rfl, i, hw.mem, hw.id, (hk.trans hsid).symm⟩ (hop newVersion)
    · exact congrArg _ (db.services.find?_update_other (f := publish i.description version)
        (fun _ => rfl) hk)
  | _ => rfl

theorem head_kept (hi : Invariant Nests db) (he : Effect env db operation db')
    (hop : ∀ version, ¬ Publishes db k version operation)
    (hnew : k = db.services.next → ∀ uuid userId description,
      operation ≠ .serviceCreateNewService uuid userId description) :
    (abstraction db').head k = (abstraction db).head k := by
  rw [abstraction_head, abstraction_head, version_kept he hop hnew,
    content_kept (live_kept hi he hop)]

/-- Where an iteration belongs is fixed when it is started, and what it was released as when
it is committed. -/
theorem standing_kept (he : Effect env db operation db')
    (hstart : k = db.iterations.next → ∀ serviceId userId,
      operation ≠ .serviceStartIteration serviceId userId)
    (hcommit : ∀ version userId, operation ≠ .serviceCommitIteration k version userId)
    (hdelete : ∀ userId, operation ≠ .serviceDeleteIterationById k userId) :
    (db'.iterations.find? k).map standing = (db.iterations.find? k).map standing := by
  cases he with
  | @iterationDeleted _ userId i _ _ hid _ _ _ _ =>
    by_cases hki : k = i.id
    · subst hki
      exact absurd (congrArg (Operation.serviceDeleteIterationById · userId) hid.symm)
        (hdelete userId)
    · exact congrArg _ (db.iterations.find?_restrict_other hki)
  | iterationStarted _ _ _ _ _ _ =>
    by_cases hk : k = db.iterations.next
    · exact absurd rfl (hstart hk _ _)
    · exact congrArg _ (db.iterations.find?_insert_other hk)
  | @iterationCommitted _ newVersion userId i _ version _ hw _ _ _ _ _ =>
    by_cases hki : k = i.id
    · subst hki
      exact absurd (congrArg (Operation.serviceCommitIteration · newVersion userId) hw.id.symm)
        (hcommit newVersion userId)
    · exact congrArg _ (db.iterations.find?_update_other (f := markCommitted version)
        (fun _ => rfl) hki)
  | @descriptionUpdated _ description _ _ _ =>
    exact db.iterations.map_find?_update (f := setDescription description) (fun _ => rfl)
      (fun _ => rfl) k
  | _ => rfl

theorem work_kept (hi : Invariant Nests db) (he : Effect env db operation db')
    (hstart : k = db.iterations.next → ∀ serviceId userId,
      operation ≠ .serviceStartIteration serviceId userId)
    (hedit : editedIteration operation ≠ some k)
    (hcommit : ∀ version userId, operation ≠ .serviceCommitIteration k version userId)
    (hdelete : ∀ userId, operation ≠ .serviceDeleteIterationById k userId) :
    (abstraction db').work k = (abstraction db).work k := by
  have hstanding := standing_kept he hstart hcommit hdelete
  by_cases hk : k = db.iterations.next
  · rw [hk, work_next, abstraction_work, ← hk, hstanding, hk, db.iterations.find?_next]
    rfl
  · rw [abstraction_work, abstraction_work, hstanding,
      content_kept (drafts_kept hi he hk hedit)]

section Quiet

variable (hq : restructures operation = false)
include hq

theorem quiet_standing (he : Effect env db operation db') :
    (db'.iterations.find? k).map standing = (db.iterations.find? k).map standing := by
  apply standing_kept he
  · rintro _ _ _ rfl
    cases hq
  · rintro _ _ rfl
    cases hq
  · rintro _ rfl
    cases hq

theorem quiet_head (hi : Invariant Nests db) (he : Effect env db operation db') :
    (abstraction db').head k = (abstraction db).head k := by
  apply head_kept hi he
  · rintro _ ⟨_, _, rfl, _⟩
    cases hq
  · rintro _ _ _ _ rfl
    cases hq

theorem quiet_work (hi : Invariant Nests db) (he : Effect env db operation db')
    (hedit : editedIteration operation ≠ some k) :
    (abstraction db').work k = (abstraction db).work k := by
  apply work_kept hi he _ hedit
  · rintro _ _ rfl
    cases hq
  · rintro _ rfl
    cases hq
  · rintro _ _ _ rfl
    cases hq

end Quiet

end Frames

section Events

variable {db db' : Database} {env : Environment} {operation : Operation}

theorem event_of_edited {i : ℕ} (h : editedIteration operation = some i) :
    event db db' operation = .edit i (content db'.drafts i) := by
  cases operation
  case apiAddApi => cases h; rfl
  case apiCopyApiByApiDraftId => cases h; rfl
  case apiDeleteApiByApiDraftId => cases h; rfl
  case apiUpdateApiByApiDraftId => cases h; rfl
  all_goals cases h

theorem quiet_of_edited {i : ℕ} (h : editedIteration operation = some i) :
    restructures operation = false := by
  cases operation
  case serviceCreateNewService => cases h
  case serviceStartIteration => cases h
  case serviceCommitIteration => cases h
  case serviceDeleteIterationById => cases h
  all_goals rfl

theorem event_of_quiet (hq : restructures operation = false)
    (h : editedIteration operation = none) : event db db' operation = .skip := by
  cases operation
  case serviceCreateNewService => cases hq
  case serviceStartIteration => cases hq
  case serviceCommitIteration => cases hq
  case serviceDeleteIterationById => cases hq
  all_goals first | rfl | cases h

theorem edit_step (hi : Invariant Nests db) (he : Effect env db operation db') {i : ℕ}
    (h : editedIteration operation = some i) :
    Step nothing (abstraction db) (.edit i (content db'.drafts i)) (abstraction db') := by
  obtain ⟨it, hm, hid, hu⟩ := edited_uncommitted he h
  have hfind : db.iterations.find? i = some it := Table.find?_eq_some.mpr ⟨hm, hid⟩
  have hwork : (abstraction db).work i = some ⟨it.serviceId, content db.drafts i, none⟩ := by
    rw [work_of_find? hfind, standing_uncommitted hu]
  have hquiet := quiet_of_edited h
  have hstep : abstraction db' = (abstraction db).setWork i
      (some ⟨it.serviceId, content db'.drafts i, none⟩) := by
    refine Depot.ext (funext fun k => quiet_head hquiet hi he) (funext fun j => ?_)
    by_cases hj : j = i
    · subst hj
      rw [Depot.setWork_work, abstraction_work, quiet_standing hquiet he, hfind, Option.map_some,
        Option.map_some, standing_uncommitted hu]
    · rw [Depot.setWork_work_other hj]
      exact quiet_work hquiet hi he (fun hed => hj (Option.some.inj (hed.symm.trans h)))
  rw [hstep]
  exact Step.edit hwork rfl

theorem quiet_step (hi : Invariant Nests db) (he : Effect env db operation db')
    (hq : restructures operation = false) (h : editedIteration operation = none) :
    abstraction db' = abstraction db := by
  refine Depot.ext (funext fun k => quiet_head hq hi he) (funext fun j => ?_)
  apply quiet_work hq hi he
  rw [h]
  exact (Option.some_ne_none j).symm

theorem create_step (hi : Invariant Nests db) {serviceUuid : String} {userId : ℕ}
    {description : Option String}
    (he : Effect env db (.serviceCreateNewService serviceUuid userId description) db') :
    Step nothing (abstraction db) (.create db.services.next "0.0.1") (abstraction db') := by
  have hstep : abstraction db' =
      (abstraction db).setHead db.services.next ("0.0.1", nothing) := by
    refine Depot.ext (funext fun k => ?_) (funext fun j => ?_)
    · by_cases hk : k = db.services.next
      · subst hk
        rw [Depot.setHead_head]
        cases he with
        | serviceCreated _ _ _ _ hv _ _ =>
          rw [head_of_find? (db.services.find?_insert _)]
          have hnone : db.live.apisOf db.services.next = [] := by
            rw [ApiStore.apisOf, List.filter_eq_nil_iff]
            intro a ha
            obtain ⟨s, hs, hid⟩ := Table.contains_iff.mp (hi.live_refers a ha).1
            simpa [← hid] using Table.key_ne_next hs
          rw [content_eq_nothing.mpr hnone]
          exact congrArg (fun v => some (v, nothing)) hv
      · rw [Depot.setHead_head_other hk]
        refine head_kept hi he ?_ (fun h => absurd h hk)
        rintro _ ⟨_, _, hop, _⟩
        cases hop
    · rw [Depot.setHead_work]
      refine work_kept hi he ?_ ?_ ?_ ?_
      · rintro _ _ _ hop
        cases hop
      · intro hop
        cases hop
      · intro _ _ hop
        cases hop
      · intro _ hop
        cases hop
  rw [hstep]
  exact Step.create head_next

theorem branch_step (hi : Invariant Nests db) {serviceId userId : ℕ}
    (he : Effect env db (.serviceStartIteration serviceId userId) db')
    (hnone : openIterations db serviceId userId = []) :
    Step nothing (abstraction db) (.branch db.iterations.next serviceId) (abstraction db') := by
  cases he with
  | iterationInProgress hopen =>
    rw [hnone] at hopen
    cases hopen
  | @iterationStarted _ _ s drafts hs hid hr ho hu hcopy =>
    obtain ⟨ν, μ, ρ, hc, _⟩ := started_copies hi hcopy
    have hcontent : content drafts db.iterations.next = content db.live serviceId :=
      ((content_eq_iff hi.live).mpr
        (Snapshot.coarsen ⟨ν, μ, ρ, started_replica hi hc⟩ uncategorised)).symm
    have he : Effect env db _ _ := Effect.iterationStarted hs hid hr ho hu hcopy
    have hstep : abstraction { insertIteration serviceId userId db with drafts := drafts } =
        (abstraction db).setWork db.iterations.next
          (some ⟨serviceId, content db.live serviceId, none⟩) := by
      refine Depot.ext (funext fun k => ?_) (funext fun j => ?_)
      · rw [Depot.setWork_head]
        refine head_kept hi he ?_ ?_
        · rintro _ ⟨_, _, hop, _⟩
          cases hop
        · intro _ _ _ _ hop
          cases hop
      · by_cases hj : j = db.iterations.next
        · subst hj
          rw [Depot.setWork_work, work_of_find? (db.iterations.find?_insert _), ← hcontent]
          rfl
        · rw [Depot.setWork_work_other hj]
          refine work_kept hi he (fun h => absurd h hj) ?_ ?_ ?_
          · intro hop
            cases hop
          · intro _ _ hop
            cases hop
          · intro _ hop
            cases hop
    rw [hstep]
    exact Step.branch work_next (head_of_find? (Table.find?_eq_some.mpr ⟨hs, hid⟩))

theorem release_step (hi : Invariant Nests db) {iterationId userId : ℕ} {newVersion : String}
    (he : Effect env db (.serviceCommitIteration iterationId newVersion userId) db') :
    Step nothing (abstraction db) (.release iterationId newVersion) (abstraction db') := by
  cases he with
  | @iterationCommitted _ _ _ i s version live hw hs hsid hne hv hcopy =>
    have he : Effect env db _ _ := Effect.iterationCommitted hw hs hsid hne hv hcopy
    have hsfind : db.services.find? i.serviceId = some s :=
      Table.find?_eq_some.mpr ⟨hs, hsid⟩
    have hifind : db.iterations.find? iterationId = some i :=
      Table.find?_eq_some.mpr ⟨hw.mem, hw.id⟩
    have hwork : (abstraction db).work iterationId =
        some ⟨i.serviceId, content db.drafts iterationId, none⟩ := by
      rw [work_of_find? hifind, standing_uncommitted hw.uncommitted]
    obtain ⟨_, hm, hid, _, _, _, hdrafts, hsnap⟩ := commit_outcome hi he
    rw [db.iterations.eq_of_key_eq hm hw.mem (hid.trans hw.id.symm)] at hsnap
    have hcontent : content live i.serviceId = content db.drafts iterationId :=
      ((content_eq_iff hi.drafts).mpr (hsnap.coarsen uncategorised)).symm
    have hstep : abstraction { db with
          services := db.services.update s.id (publish i.description version) (fun _ => rfl)
          iterations := db.iterations.update i.id (markCommitted version) (fun _ => rfl)
          live := live } =
        ((abstraction db).setHead i.serviceId
          (newVersion, content db.drafts iterationId)).setWork iterationId
          (some ⟨i.serviceId, content db.drafts iterationId, some newVersion⟩) := by
      refine Depot.ext (funext fun k => ?_) (funext fun j => ?_)
      · rw [Depot.setWork_head]
        by_cases hk : k = i.serviceId
        · subst hk
          rw [Depot.setHead_head, ← hcontent, ← hv]
          refine head_of_find? (s := publish i.description version s) ?_
          rw [← hsid]
          exact db.services.find?_update (f := publish i.description version) (fun _ => rfl)
            (hsid ▸ hsfind)
        · rw [Depot.setHead_head_other hk]
          refine head_kept hi he ?_ ?_
          · rintro _ ⟨_, _, hop, j, hj, hji, hjs⟩
            cases hop
            rw [db.iterations.eq_of_key_eq hj hw.mem (hji.trans hw.id.symm)] at hjs
            exact hk hjs.symm
          · intro _ _ _ _ hop
            cases hop
      · by_cases hj : j = iterationId
        · subst hj
          have hfind : (db.iterations.update i.id (markCommitted version) (fun _ => rfl)).find?
              j = some (markCommitted version i) := by
            rw [hw.id]
            exact db.iterations.find?_update (f := markCommitted version) (fun _ => rfl) hifind
          rw [Depot.setWork_work, work_of_find? hfind, ← hv]
          rfl
        · rw [Depot.setWork_work_other hj]
          refine work_kept hi he ?_ ?_ ?_ ?_
          · intro _ _ _ hop
            cases hop
          · intro hop
            cases hop
          · intro _ _ hop
            cases hop
            exact hj rfl
          · intro _ hop
            cases hop
    rw [hstep]
    exact Step.release hwork rfl (head_of_find? hsfind) (fun h => hne h.symm)

theorem drop_step (hi : Invariant Nests db) {iterationId userId : ℕ}
    (he : Effect env db (.serviceDeleteIterationById iterationId userId) db') :
    Step nothing (abstraction db) (.drop iterationId) (abstraction db') := by
  cases he with
  | @iterationDeleted _ _ i s hm hid hs hsid hr hnone =>
    have he : Effect env db _ _ := Effect.iterationDeleted hm hid hs hsid hr hnone
    have hstep : abstraction { db with
          iterations := db.iterations.restrict (fun j => j.id != i.id) } =
        (abstraction db).setWork iterationId none := by
      refine Depot.ext (funext fun k => ?_) (funext fun j => ?_)
      · rw [Depot.setWork_head]
        refine head_kept hi he ?_ ?_
        · rintro _ ⟨_, _, hop, _⟩
          cases hop
        · intro _ _ _ _ hop
          cases hop
      · by_cases hj : j = iterationId
        · subst hj
          rw [Depot.setWork_work, abstraction_work, ← hid]
          have hgone : (db.iterations.restrict (fun j => j.id != i.id)).find? i.id = none :=
            db.iterations.find?_restrict
          rw [hgone]
          rfl
        · rw [Depot.setWork_work_other hj]
          refine work_kept hi he ?_ ?_ ?_ ?_
          · intro _ _ _ hop
            cases hop
          · intro hop
            cases hop
          · intro _ _ hop
            cases hop
          · intro _ hop
            cases hop
            exact hj rfl
    rw [hstep]
    refine Step.drop (work_of_find? (Table.find?_eq_some.mpr ⟨hm, hid⟩)) ?_
    exact content_eq_nothing.mpr (hid ▸ hnone)

theorem effect_step (hi : Invariant Nests db) (he : Effect env db operation db') :
    Step nothing (abstraction db) (event db db' operation) (abstraction db') := by
  cases hed : editedIteration operation with
  | some i =>
    rw [event_of_edited hed]
    exact edit_step hi he hed
  | none =>
    by_cases hq : restructures operation = true
    · cases operation
      case serviceCreateNewService => exact create_step hi he
      case serviceStartIteration serviceId userId =>
        by_cases hnone : openIterations db serviceId userId = []
        · rw [event, hnone]
          exact branch_step hi he hnone
        · cases he with
          | iterationInProgress hopen =>
            rw [event, if_neg (fun h => hnone (List.isEmpty_iff.mp h))]
            exact Step.skip
          | iterationStarted _ _ _ h _ _ => exact absurd h hnone
      case serviceCommitIteration => exact release_step hi he
      case serviceDeleteIterationById => exact drop_step hi he
      all_goals cases hq
    · rw [Bool.not_eq_true] at hq
      rw [event_of_quiet hq hed, quiet_step hi he hq hed]
      exact Step.skip

end Events

def events (db : Database) : List Request → List (Event ℕ ℕ Content String)
  | [] => []
  | request :: requests =>
    match transaction db request with
    | .ok db' => event db db' request.operation :: events db' requests
    | .error _ => events db requests

theorem trace_of_requests (requests : List Request) : ∀ db, Invariant Nests db →
    Trace nothing (abstraction db) (events db requests)
      (abstraction (runEvents transaction db requests)) := by
  induction requests with
  | nil => exact fun _ _ => .nil
  | cons request requests ih =>
    intro db hi
    cases h : transaction db request with
    | ok db' =>
      have he := transaction_effect h
      have hi' := effect_preserves nests_joint he (payloadGuard_true request.operation) hi
      have hrun : runEvents transaction db (request :: requests) =
          runEvents transaction db' requests := by
        rw [runEvents, List.foldl_cons, h]
        rfl
      rw [events, h, hrun]
      exact (ih db' hi').cons (effect_step hi he)
    | error e =>
      have hrun : runEvents transaction db (request :: requests) =
          runEvents transaction db requests := by
        rw [runEvents, List.foldl_cons, h]
        rfl
      rw [events, h, hrun]
      exact ih db hi

def noProjects : Depot ℕ ℕ Content String := ⟨fun _ => none, fun _ => none⟩

theorem abstraction_initial {db : Database} (h : Initial db) : abstraction db = noProjects := by
  refine Depot.ext (funext fun k => ?_) (funext fun i => ?_)
  · rw [abstraction_head, h.services]
    rfl
  · rw [abstraction_work, h.iterations]
    rfl

/-- The backend refines the depot: whatever the requests of a run are, the ones that commit are
events of the depot one after another, from the depot without projects. -/
theorem backend_refines_depot {db : Database} (h : Initial db) (requests : List Request) :
    Trace nothing noProjects (events db requests)
      (abstraction (runEvents transaction db requests)) := by
  rw [← abstraction_initial h]
  exact trace_of_requests requests db (initial_invariant h)

theorem published_trace :
    Trace nothing noProjects (events twoUsers (publishing.map (⟨plainEnvironment, ·⟩)))
      (abstraction published) :=
  backend_refines_depot twoUsers_initial _

theorem noProjects_sound : Sound nothing noProjects := by
  refine ⟨?_, ?_⟩
  · intro _ _ h
    cases h
  · intro _ _ _ h
    cases h

theorem reachable_sound {db : Database} (h : Reachable db) : Sound nothing (abstraction db) := by
  obtain ⟨db₀, h₀, hr⟩ := h
  obtain ⟨requests, rfl⟩ := hr.exists_runEvents
  have htrace := trace_of_requests requests db₀ (initial_invariant h₀)
  rw [abstraction_initial h₀] at htrace
  exact htrace.preserves (fun _ _ _ hd hs => hd.step hs) noProjects_sound

/-- A workspace of the depot that was released is a committed iteration. -/
theorem released_workspace {db : Database} {k serviceId : ℕ} {c : Content} {v : String}
    (h : (abstraction db).work k = some ⟨serviceId, c, some v⟩) :
    ∃ i ∈ db.iterations.rows, i.id = k ∧ i.serviceId = serviceId ∧ i.isCommitted = true ∧
      i.version.map VarChar.val = some v ∧ content db.drafts k = c := by
  rw [abstraction_work, Option.map_map, Option.map_eq_some_iff] at h
  obtain ⟨i, hfind, hi⟩ := h
  obtain ⟨hm, hid⟩ := Table.find?_eq_some.mp hfind
  simp only [Function.comp_apply, standing, Workspace.mk.injEq] at hi
  obtain ⟨hs, hc, hv⟩ := hi
  cases hcommitted : i.isCommitted with
  | false =>
    rw [hcommitted] at hv
    cases hv
  | true =>
    rw [hcommitted, if_pos rfl] at hv
    exact ⟨i, hm, hid, hs, hcommitted, hv, hc⟩

/-- In every reachable database a service has no live apis, or these are the drafts of an
iteration of it that was committed under the version the service shows. -/
theorem live_is_release {db : Database} (h : Reachable db) {s : Service}
    (hs : s ∈ db.services.rows) : db.live.apisOf s.id = [] ∨
      ∃ i ∈ db.iterations.rows, i.serviceId = s.id ∧ i.isCommitted = true ∧
        i.version = some s.version ∧
        Snapshot uncategorised db.drafts i.id db.live s.id := by
  have hi := reachable_invariant h
  rcases (reachable_sound h).head s.id _ _
    (head_of_find? (Table.find?_eq_some.mpr ⟨hs, rfl⟩)) with hnone | ⟨k, hk⟩
  · exact Or.inl (content_eq_nothing.mp hnone)
  · obtain ⟨i, hm, hid, his, hc, hv, hcontent⟩ := released_workspace hk
    rw [← hid] at hcontent
    refine Or.inr ⟨i, hm, his, hc, ?_, (content_eq_iff hi.drafts).mp hcontent⟩
    obtain ⟨v, hiv, hval⟩ := Option.map_eq_some_iff.mp hv
    rw [hiv, VarChar.ext hval]

theorem published_live_is_release : published.live.apisOf 1 = [] ∨
    ∃ i ∈ published.iterations.rows, i.serviceId = 1 ∧ i.isCommitted = true ∧
      i.version = some publishedService.version ∧
      Snapshot uncategorised published.drafts i.id published.live 1 :=
  live_is_release published_reachable publishedService_mem

/-- Once an iteration with a draft in it has been committed, no requests delete it, commit it
again or change its drafts, apart from their categories. -/
theorem releases_stay {db : Database} (h : Reachable db) {i : ServiceIteration}
    (hm : i ∈ db.iterations.rows) {v : VarChar 32} (hv : i.version = some v)
    (hc : i.isCommitted = true) (hne : db.drafts.apisOf i.id ≠ []) (requests : List Request) :
    ∃ j ∈ (runEvents transaction db requests).iterations.rows, j.id = i.id ∧
      j.serviceId = i.serviceId ∧ j.isCommitted = true ∧ j.version = some v ∧
      Snapshot uncategorised db.drafts i.id (runEvents transaction db requests).drafts i.id := by
  have hi := reachable_invariant h
  have hwork : (abstraction db).work i.id =
      some ⟨i.serviceId, content db.drafts i.id, some v.val⟩ := by
    have hfind : db.iterations.find? i.id = some i := Table.find?_eq_some.mpr ⟨hm, rfl⟩
    rw [work_of_find? hfind, standing, hc, hv]
    rfl
  have hstays := released_trace (trace_of_requests requests db hi) hwork
    (fun hnone => hne (content_eq_nothing.mp hnone))
  obtain ⟨j, hj, hid, hjs, hjc, hjv, hcontent⟩ := released_workspace hstays
  refine ⟨j, hj, hid, hjs, hjc, ?_, (content_eq_iff hi.drafts).mp hcontent.symm⟩
  obtain ⟨w, hjw, hval⟩ := Option.map_eq_some_iff.mp hjv
  rw [hjw, VarChar.ext hval]

def publishedIteration : ServiceIteration :=
  ⟨1, 1, some 1, some publishedService.version, some "core", true⟩

def attempts : List Request :=
  ([.apiDeleteApiByApiDraftId 1 1 1, .serviceCommitIteration 1 "0.0.3" 1,
    .serviceDeleteIterationById 1 1] : List Operation).map (⟨plainEnvironment, ·⟩)

theorem published_iteration_stays :
    ∃ j ∈ (runEvents transaction published attempts).iterations.rows, j.id = 1 ∧
      j.serviceId = 1 ∧ j.isCommitted = true ∧ j.version = some ⟨"0.0.2", by decide⟩ ∧
      Snapshot uncategorised published.drafts 1
        (runEvents transaction published attempts).drafts 1 :=
  releases_stay published_reachable (i := publishedIteration) (by decide +kernel) rfl rfl
    (by decide +kernel) attempts

end WorkspaceRefinement
