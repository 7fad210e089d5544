import ApiManagement.StateInvariant

/-! # Isolation of draft work

A draft operation names an iteration, and often a draft as well; whatever it is given, it
reaches no row outside the iteration. A commit reaches the live rows of one service and two
columns of the iteration. -/
namespace DraftIsolation

open TransactionRuns KeyedTables ParentLinkedRows PythonRuntime ServiceSchema ApiStores
  StoreCopies ServiceOperations ApiOperations DraftWrites OperationRuns OperationEffects
  StateInvariant

def editedIteration : Operation → Option ℕ
  | .apiAddApi iterationId _ _ _ _ _ _ _ => some iterationId
  | .apiCopyApiByApiDraftId iterationId _ _ => some iterationId
  | .apiDeleteApiByApiDraftId iterationId _ _ => some iterationId
  | .apiUpdateApiByApiDraftId iterationId _ _ _ _ _ _ _ _ _ => some iterationId
  | _ => none

def draftIteration : Operation → Option ℕ
  | .serviceUpdateDescription iterationId _ _ => some iterationId
  | operation => editedIteration operation

def hideDescription (iterationId : ℕ) (j : ServiceIteration) : ServiceIteration :=
  if j.id = iterationId then { j with description := none } else j

/-- The databases differ at most in the description of one iteration, its drafts and the
params of these. -/
structure SameButIteration (iterationId : ℕ) (db db' : Database) : Prop where
  users : db'.users = db.users
  services : db'.services = db.services
  links : db'.userServiceLink = db.userServiceLink
  categories : db'.categories = db.categories
  live : db'.live = db.live
  iterations : db'.iterations.rows.map (hideDescription iterationId) =
    db.iterations.rows.map (hideDescription iterationId)
  drafts : SameOutside iterationId db.drafts db'.drafts

theorem SameButIteration.refl (iterationId : ℕ) (db : Database) :
    SameButIteration iterationId db db :=
  ⟨rfl, rfl, rfl, rfl, rfl, rfl, SameOutside.refl _ _⟩

def hideCommit (iterationId : ℕ) (j : ServiceIteration) : ServiceIteration :=
  if j.id = iterationId then { j with version := none, isCommitted := false } else j

/-- The databases differ at most in the commit columns of one iteration, in the row of one
service and in the live apis and params of that service. -/
structure SameButService (iterationId serviceId : ℕ) (db db' : Database) : Prop where
  users : db'.users = db.users
  services : db'.services.rows.filter (fun s => s.id != serviceId) =
    db.services.rows.filter (fun s => s.id != serviceId)
  links : db'.userServiceLink = db.userServiceLink
  categories : db'.categories = db.categories
  iterations : db'.iterations.rows.map (hideCommit iterationId) =
    db.iterations.rows.map (hideCommit iterationId)
  drafts : db'.drafts = db.drafts
  live : SameOutside serviceId db.live db'.live

section Step

variable {link : RequestFields → RequestFields → Prop} {db db' : Database} {env : Environment}
  {operation : Operation}

theorem draft_effect_confined (hi : Invariant Nests db) (he : Effect env db operation db')
    {iterationId : ℕ} (hop : draftIteration operation = some iterationId) :
    SameButIteration iterationId db db' := by
  cases he with
  | @descriptionUpdated _ description _ i hw =>
    cases hop
    refine ⟨rfl, rfl, rfl, rfl, rfl, ?_, SameOutside.refl _ _⟩
    refine db.iterations.map_update (f := setDescription description) (fun _ => rfl) ?_
    intro r hr
    rw [hw.id, iteration_key] at hr
    simp [hideDescription, setDescription, hr]
  | draftAdded _ _ _ _ _ _ _ _ hins =>
    cases hop
    exact ⟨rfl, rfl, rfl, rfl, rfl, rfl, insertApi_sameOutside hins hi.drafts⟩
  | draftCopied _ _ _ _ _ _ _ _ hcopy =>
    cases hop
    exact ⟨rfl, rfl, rfl, rfl, rfl, rfl, (copyDraft_spec hi.drafts hcopy).2.1⟩
  | draftDeleted _ hd _ hc =>
    cases hop
    have ho := (removeDraft_spec hi.drafts hd).2.1
    rw [hc] at ho
    exact ⟨rfl, rfl, rfl, rfl, rfl, rfl, ho⟩
  | @draftUpdated _ _ _ _ _ _ _ _ _ _ _ _ _ _ hw hd _ hc _ _ _ _ hrw =>
    cases hop
    have ho := (rewriteDraft_spec (nests_joint env) hi.drafts hd
      (fun p _ => paramRespects_true p) hrw).2.1
    rw [hc] at ho
    exact ⟨rfl, rfl, rfl, rfl, rfl, rfl, ho⟩
  | _ => cases hop

theorem commit_effect_confined (hi : Invariant link db) {iterationId userId : ℕ}
    {newVersion : String}
    (he : Effect env db (.serviceCommitIteration iterationId newVersion userId) db') :
    ∃ i ∈ db.iterations.rows, i.id = iterationId ∧
      SameButService iterationId i.serviceId db db' := by
  cases he with
  | @iterationCommitted _ _ _ i s version live hw _ hsid _ _ hcopy =>
    rw [hsid] at hcopy ⊢
    obtain ⟨_, _, _, _, _, ho⟩ := committed_copies hi hw.mem hcopy
    refine ⟨i, hw.mem, hw.id, rfl, ?_, rfl, rfl, ?_, rfl, ho⟩
    · refine db.services.filter_update (f := publish i.description version) (fun _ => rfl) ?_
      intro r _ hr
      rw [service_key] at hr
      simp [publish, hr]
    · refine db.iterations.map_update (f := markCommitted version) (fun _ => rfl) ?_
      intro r hr
      rw [hw.id, iteration_key] at hr
      simp [hideCommit, markCommitted, hr]

end Step

/-- Draft operations stay within the iteration they name, and a commit within the service of
its iteration, whether they succeed or fail. -/
theorem draft_work_is_isolated {db : Database} (hreach : Reachable db) (request : Request) :
    (∀ iterationId, draftIteration request.operation = some iterationId →
      SameButIteration iterationId db (committed (transaction db request) db)) ∧
    (∀ iterationId newVersion userId,
      request.operation = .serviceCommitIteration iterationId newVersion userId →
      committed (transaction db request) db = db ∨
        ∃ i ∈ db.iterations.rows, i.id = iterationId ∧
          SameButService iterationId i.serviceId db (committed (transaction db request) db)) := by
  have hi := reachable_invariant hreach
  rcases committed_cases (transaction db request) db with ⟨db', ht, he⟩ | he
  · rw [he]
    constructor
    · intro iterationId hop
      exact draft_effect_confined hi (transaction_effect ht) hop
    · intro iterationId newVersion userId hop
      have heff := transaction_effect ht
      rw [hop] at heff
      exact Or.inr (commit_effect_confined hi heff)
  · rw [he]
    exact ⟨fun iterationId _ => SameButIteration.refl iterationId db, fun _ _ _ _ => Or.inl rfl⟩

theorem deletion_of_copied_draft_is_isolated :
    SameButIteration 2 opened (committed
      (transaction opened ⟨plainEnvironment, .apiDeleteApiByApiDraftId 2 2 1⟩) opened) :=
  (draft_work_is_isolated opened_reachable ⟨plainEnvironment, .apiDeleteApiByApiDraftId 2 2 1⟩).1
    2 rfl

end DraftIsolation
