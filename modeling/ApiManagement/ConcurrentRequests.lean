import ApiManagement.KeptContent

/-! # Concurrent requests

Every request has a database session of its own, and a statement sees what is committed when
it is executed. The requests that work on iterations begin with checks, and what other
sessions commit between these checks and the writes is not noticed: the rows that a session
has loaded stay as they were, and every later statement sees the new rows. A request is
checked in one step and writes in another; it may also do both in one step, as every other
request does. A commit of an iteration reads in between, in as many steps as it has
statements, and what it has inserted from these rows is seen by others at its end. -/
namespace ConcurrentRequests

open TransactionRuns KeyedTables ParentLinkedRows PythonRuntime ServiceSchema ApiStores
  StoreCopies ServiceOperations ApiOperations DraftWrites OperationRuns OperationEffects
  StateInvariant IterationCopies DraftIsolation WriteRights KeptContent

section Parts

variable (env : Environment)

def startCheck (serviceId userId : ℕ) (db : Database) : Tx (Option ServiceIteration) := do
  let service ← orAbort (db.services.find? serviceId) (.reply (-1) "Service not found")
  let user := db.users.find? userId
  requireLevelZeroIf (service.ownerId != userId && !isMaintainer db service.id user) user
    (.reply (-2) "You are neither the owner nor the maintainer of this service")
  pure (env.fetch (openIterations db serviceId userId)).head?

/-- `serviceCommitIteration` up to the comparison of the versions. The service is loaded with
the iteration in the permission check. -/
def commitCheck (iterationId : ℕ) (newVersion : String) (userId : ℕ) (db : Database) :
    Tx (ServiceIteration × Service) := do
  let (iteration, _) ← asCheckResult (checkServiceIterationPermission db iterationId userId)
  let service ← orAbort (db.services.find? iteration.serviceId) (.raised .attributeError)
  require (newVersion != service.version.val)
    (.reply (-1) "New version is the same as current version")
  pure (iteration, service)

structure Reading where
  gone : Option (List ℕ)
  drafts : Option (List ApiDraft)
  requests : ℕ → Option (Table RequestParam)
  responses : ℕ → Option (Table ResponseParam)

def Reading.nothing : Reading := ⟨none, none, fun _ => none, fun _ => none⟩

inductive Part where
  | apis
  | drafts
  | requests (apiDraftId : ℕ)
  | responses (apiDraftId : ℕ)

/-- One statement is executed, once and in its turn: the live apis are deleted before the
drafts are loaded, and each draft is loaded before its params. -/
def Reading.read (iterationId serviceId : ℕ) (db : Database) (r : Reading) : Part → Reading
  | .apis =>
    if r.gone.isNone then
      { r with gone := some ((db.live.apisOf serviceId).map ApiRow.id) } else r
  | .drafts =>
    if r.gone.isSome && r.drafts.isNone then
      { r with drafts := some (env.fetch (db.drafts.apisOf iterationId)) } else r
  | .requests apiDraftId =>
    if r.drafts.isSome && (r.requests apiDraftId).isNone then
      { r with requests := Function.update r.requests apiDraftId db.drafts.requestParams } else r
  | .responses apiDraftId =>
    if (r.requests apiDraftId).isSome && (r.responses apiDraftId).isNone then
      { r with responses := Function.update r.responses apiDraftId db.drafts.responseParams }
    else r

/-- Where the params of a draft are found, when it is copied at last. -/
def Reading.source (r : Reading) (now : ApiStore) (draft : ApiDraft) : ApiStore :=
  { now with
    requestParams := (r.requests draft.id).getD now.requestParams
    responseParams := (r.responses draft.id).getD now.responseParams }

def Reading.goneIds (r : Reading) (serviceId : ℕ) (db : Database) : List ℕ :=
  r.gone.getD ((db.live.apisOf serviceId).map ApiRow.id)

def Reading.draftRows (r : Reading) (iterationId : ℕ) (db : Database) : List ApiDraft :=
  r.drafts.getD (env.fetch (db.drafts.apisOf iterationId))

/-- `UPDATE` of the columns assigned; an assignment of the value loaded is no change. -/
def publishLoaded (loaded : Service) (description : Option String) (version : VarChar 32)
    (s : Service) : Service :=
  { s with
    description := if description = loaded.description then s.description else description
    version := version }

theorem markCommitted_id (version : VarChar 32) (i : ServiceIteration) :
    Keyed.key (markCommitted version i) = Keyed.key i := rfl

/-- The rest of `serviceCommitIteration`: what is not read yet is read now. The `UPDATE` of a
row that is gone is noticed. -/
def commitWrites (iteration : ServiceIteration) (service : Service) (newVersion : String)
    (reading : Reading) (db : Database) : Tx Database := do
  let version ← bound (VarChar.ofString 32 newVersion)
  let cleared := deleteApis (fun a => (reading.goneIds service.id db).contains a.id) db.live
  let live ← copyEach env (liveReferences db) (reading.source db.drafts)
    (reading.draftRows env iteration.id db) service.id cleared
  require (db.iterations.contains iteration.id) (.raised .staleDataError)
  pure { db with
    services := db.services.update service.id
      (publishLoaded service iteration.description version) (fun _ => rfl)
    iterations := db.iterations.update iteration.id (markCommitted version)
      (markCommitted_id version)
    live := live }

def addWrites (iteration : ServiceIteration) (userId : ℕ) (name method path : String)
    (description : Option String) (level : String) (categoryId : Option ℕ) (db : Database) :
    Tx (Database × Reply ApiDraft) := do
  require (HttpMethod.ofValue method).isSome (.raised .dataError)
  let apiMethod := (HttpMethod.ofValue method).getD .get
  let taken := fun (a : ApiRow) (c : ℕ) =>
    a.container == c && a.fields.method == apiMethod &&
      (a.fields.path.val == path || a.fields.name.val == name)
  require (!(db.live.apis.rows.any (fun a => taken a iteration.serviceId) ||
      db.drafts.apis.rows.any (fun a => taken a iteration.id)))
    (.reply (-1) "Api method and name/path already exists in this service")
  let apiLevel := (ApiLevel.ofValue level).getD .p2
  requireCategory db categoryId iteration.serviceId
  let name ← bound (VarChar.ofString 128 name)
  let path ← bound (VarChar.ofString 256 path)
  let fields : ApiFields :=
    ⟨userId, categoryId, name, apiMethod, path, description, apiLevel, true⟩
  let drafts ← insertApi (draftReferences db) iteration.id fields db.drafts
  pure ({ db with drafts := drafts },
    ⟨200, "Add api success", ⟨db.drafts.apis.next, iteration.id, fields⟩⟩)

def loadDraft (iterationId apiDraftId : ℕ) (db : Database) : Tx ApiDraft := do
  let draft ← orAbort (db.drafts.apis.find? apiDraftId) (.reply (-1) "Api draft not found")
  require (draft.container == iterationId)
    (.reply (-2) "Api draft not belongs to this service iteration")
  pure draft

def copyWrites (iterationId apiDraftId userId : ℕ) (db : Database) :
    Tx (Database × Reply Unit) := do
  let draft ← loadDraft iterationId apiDraftId db
  let name ← bound (VarChar.ofString 128 (draft.fields.name.val ++ copySuffix env))
  let path ← bound (VarChar.ofString 256 (draft.fields.path.val ++ copySuffix env))
  let fields : ApiFields :=
    ⟨userId, draft.fields.categoryId, name, draft.fields.method, path, draft.fields.description,
      draft.fields.level, draft.fields.isEnabled⟩
  let drafts ← copyDraft env (draftReferences db) iterationId draft fields db.drafts
  pure ({ db with drafts := drafts }, ⟨200, "Copy api success", ()⟩)

def deleteWrites (iterationId apiDraftId : ℕ) (db : Database) : Tx (Database × Reply Unit) := do
  let _ ← loadDraft iterationId apiDraftId db
  pure ({ db with drafts := removeDraft apiDraftId db.drafts }, ⟨200, "Delete api success", ()⟩)

def updateWrites (iterationId apiDraftId : ℕ) (name method path : String)
    (description : Option String) (level : String) (reqParams respParams : JsonValue)
    (db : Database) : Tx (Database × Reply Unit) := do
  let draft ← loadDraft iterationId apiDraftId db
  let name ← bound (VarChar.ofString 128 name)
  let path ← bound (VarChar.ofString 256 path)
  let drafts ← rewriteDraft env draft (editedFields draft name method path description level)
    reqParams respParams db.drafts
  pure ({ db with drafts := drafts }, ⟨200, "Update api success", ()⟩)

end Parts

section Together

variable {env : Environment} {db : Database}

theorem serviceStartIteration_parts (serviceId userId : ℕ) :
    serviceStartIteration env serviceId userId db = (do
      match ← startCheck env serviceId userId db with
      | some iteration =>
        pure (db, ⟨201, "You have an uncommitted service iteration in progress", iteration.id⟩)
      | none => do
        let db' ← startNewIteration env serviceId userId db
        pure (db', ⟨200, "Start service iteration success", db.iterations.next⟩)) := by
  rewrite [startCheck, bind_assoc]
  refine bind_congr (fun service => ?_)
  rewrite [bind_assoc]
  refine bind_congr (fun _ => ?_)
  rfl

theorem apiAddApi_parts (iterationId userId : ℕ) (name method path : String)
    (description : Option String) (level : String) (categoryId : Option ℕ) :
    apiAddApi iterationId userId name method path description level categoryId db = (do
      let (iteration, _) ← checkServiceIterationPermission db iterationId userId
      addWrites iteration userId name method path description level categoryId db) := rfl

theorem draftOfIteration_parts (iterationId apiDraftId userId : ℕ) :
    draftOfIteration db iterationId apiDraftId userId = (do
      let _ ← checkServiceIterationPermission db iterationId userId
      loadDraft iterationId apiDraftId db) := rfl

theorem apiCopyApiByApiDraftId_parts (iterationId apiDraftId userId : ℕ) :
    apiCopyApiByApiDraftId env iterationId apiDraftId userId db = (do
      let _ ← checkServiceIterationPermission db iterationId userId
      copyWrites env iterationId apiDraftId userId db) := by
  simp only [apiCopyApiByApiDraftId, draftOfIteration_parts, copyWrites, bind_assoc]

theorem apiDeleteApiByApiDraftId_parts (iterationId apiDraftId userId : ℕ) :
    apiDeleteApiByApiDraftId iterationId apiDraftId userId db = (do
      let _ ← checkServiceIterationPermission db iterationId userId
      deleteWrites iterationId apiDraftId db) := by
  simp only [apiDeleteApiByApiDraftId, draftOfIteration_parts, deleteWrites, bind_assoc]

theorem apiUpdateApiByApiDraftId_parts (iterationId apiDraftId userId : ℕ)
    (name method path : String) (description : Option String) (level : String)
    (reqParams respParams : JsonValue) :
    apiUpdateApiByApiDraftId env iterationId apiDraftId userId name method path description level
      reqParams respParams db = (do
      let _ ← checkServiceIterationPermission db iterationId userId
      updateWrites env iterationId apiDraftId name method path description level reqParams
        respParams db) := by
  simp only [apiUpdateApiByApiDraftId, draftOfIteration_parts, updateWrites, bind_assoc]

/-- Rows that have not changed since they were loaded are updated as the handler does. -/
theorem commitWrites_loaded {i : ServiceIteration} {s : Service} {newVersion : String}
    (hi : i ∈ db.iterations.rows) (hs : s ∈ db.services.rows) :
    commitWrites env i s newVersion .nothing db = commitDatabase env i s newVersion db := by
  have hcleared : deleteApis (fun a => (Reading.nothing.goneIds s.id db).contains a.id) db.live =
      deleteApis (fun a => a.container == s.id) db.live := by
    apply deleteApis_congr
    intro a ha
    rw [Bool.eq_iff_iff, List.contains_iff_mem, beq_iff_eq]
    constructor
    · intro hm
      obtain ⟨b, hb, hid⟩ := List.mem_map.mp hm
      obtain ⟨hb, hc⟩ := ApiStore.mem_apisOf.mp hb
      rw [← db.live.apis.eq_of_key_eq hb ha hid, hc]
    · intro hc
      exact List.mem_map_of_mem (ApiStore.mem_apisOf.mpr ⟨ha, hc⟩)
  have hcontains : db.iterations.contains i.id = true := Table.contains_iff.mpr ⟨i, hi, rfl⟩
  have hupdate : ∀ version, db.services.update s.id (publishLoaded s i.description version)
      (fun _ => rfl) = db.services.update s.id (publish i.description version) (fun _ => rfl) := by
    intro version
    apply Table.update_congr
    intro t ht hid
    have hts : t = s := db.services.eq_of_key_eq ht hs hid
    subst hts
    unfold publishLoaded publish
    by_cases hd : i.description = t.description
    · rw [if_pos hd, hd]
    · rw [if_neg hd]
  simp only [commitWrites, commitDatabase, hcleared, hcontains, hupdate, require, if_true,
    copyApis_eq]
  rfl

theorem serviceCommitIteration_parts (iterationId : ℕ) (newVersion : String) (userId : ℕ) :
    Prod.fst <$> serviceCommitIteration env iterationId newVersion userId db = (do
      let (iteration, service) ← commitCheck iterationId newVersion userId db
      commitWrites env iteration service newVersion .nothing db) := by
  unfold serviceCommitIteration commitCheck
  cases hc : asCheckResult (checkServiceIterationPermission db iterationId userId) with
  | error e => rfl
  | ok p =>
    obtain ⟨i, u⟩ := p
    have hi := (checkServiceIterationPermission_eq_ok.mp (asCheckResult_eq_ok.mp hc)).1.mem
    cases hs : db.services.find? i.serviceId with
    | none =>
      simp only [ok_bind, hs]
      rfl
    | some s =>
      have hcommit : commitWrites env i s newVersion .nothing db =
          commitDatabase env i s newVersion db :=
        commitWrites_loaded hi (Table.find?_eq_some.mp hs).1
      cases hv : newVersion != s.version.val with
      | false =>
        simp only [ok_bind, hs, orAbort, hv]
        rfl
      | true =>
        simp only [ok_bind, hs, orAbort, hv, require, if_true, pure_bind, hcommit, map_bind,
          map_pure, bind_pure]

end Together

inductive Checked where
  | start (serviceId userId : ℕ)
  | commit (iteration : ServiceIteration) (service : Service) (newVersion : String)
      (reading : Reading)
  | edit (iteration : ServiceIteration) (operation : Operation)

def editor : Operation → Option (ℕ × ℕ)
  | .apiAddApi iterationId userId _ _ _ _ _ _ => some (iterationId, userId)
  | .apiCopyApiByApiDraftId iterationId _ userId => some (iterationId, userId)
  | .apiDeleteApiByApiDraftId iterationId _ userId => some (iterationId, userId)
  | .apiUpdateApiByApiDraftId iterationId _ userId _ _ _ _ _ _ _ => some (iterationId, userId)
  | _ => none

def check (db : Database) (request : Request) : Tx (Option Checked) :=
  match request.operation with
  | .serviceStartIteration serviceId userId => do
    let found ← startCheck request.env serviceId userId db
    pure (if found.isSome then none else some (.start serviceId userId))
  | .serviceCommitIteration iterationId newVersion userId => do
    let (iteration, service) ← commitCheck iterationId newVersion userId db
    pure (some (.commit iteration service newVersion .nothing))
  | operation =>
    match editor operation with
    | none => pure none
    | some (iterationId, userId) => do
      let (iteration, _) ← checkServiceIterationPermission db iterationId userId
      pure (some (.edit iteration operation))

def editWrites (env : Environment) (iteration : ServiceIteration) (operation : Operation)
    (db : Database) : Tx Database :=
  match operation with
  | .apiAddApi _ userId name method path description level categoryId =>
    Prod.fst <$> addWrites iteration userId name method path description level categoryId db
  | .apiCopyApiByApiDraftId iterationId apiDraftId userId =>
    Prod.fst <$> copyWrites env iterationId apiDraftId userId db
  | .apiDeleteApiByApiDraftId iterationId apiDraftId _ =>
    Prod.fst <$> deleteWrites iterationId apiDraftId db
  | .apiUpdateApiByApiDraftId iterationId apiDraftId _ name method path description level
      reqParams respParams =>
    Prod.fst <$> updateWrites env iterationId apiDraftId name method path description level
      reqParams respParams db
  | _ => pure db

/-- Only a commit of an iteration reads before its last step. -/
def Checked.read (env : Environment) (db : Database) (part : Part) : Checked → Checked
  | .commit iteration service newVersion reading =>
    .commit iteration service newVersion (reading.read env iteration.id service.id db part)
  | c => c

def Checked.unread : Checked → Checked
  | .commit iteration service newVersion _ => .commit iteration service newVersion .nothing
  | c => c

@[simp] theorem Checked.unread_read (env : Environment) (db : Database) (part : Part)
    (c : Checked) : (c.read env db part).unread = c.unread := by
  cases c <;> rfl

def writes (env : Environment) : Checked → Database → Tx Database
  | .start serviceId userId => startNewIteration env serviceId userId
  | .commit iteration service newVersion reading =>
    commitWrites env iteration service newVersion reading
  | .edit iteration operation => editWrites env iteration operation

structure Server where
  db : Database
  sessions : ℕ → Option Checked

inductive Event where
  | request (request : Request)
  | check (session : ℕ) (request : Request)
  | read (session : ℕ) (env : Environment) (part : Part)
  | finish (session : ℕ) (env : Environment)

/-- A session that finishes is closed, whether it commits or is rolled back. -/
def serverStep (v : Server) : Event → Tx Server
  | .request request => do
    let db ← transaction v.db request
    pure { v with db := db }
  | .check session request => do
    let checked ← check v.db request
    pure { v with sessions := Function.update v.sessions session checked }
  | .read session env part =>
    let checked := (v.sessions session).map (Checked.read env v.db part)
    pure { v with sessions := Function.update v.sessions session checked }
  | .finish session env =>
    let db := match v.sessions session with
      | none => v.db
      | some checked => committed (writes env checked v.db) v.db
    pure ⟨db, Function.update v.sessions session none⟩

def ServerReachable (guard : Server → Event → Prop) (v : Server) : Prop :=
  ∃ db₀, Initial db₀ ∧ Runs serverStep guard ⟨db₀, fun _ => none⟩ v

section Stale

variable {env : Environment} {db db' : Database}

def reopen (userId : ℕ) (i : ServiceIteration) : ServiceIteration :=
  { i with creatorId := some userId, isCommitted := false }

def reopened (iterationId userId : ℕ) (db : Database) : Database :=
  { db with iterations := db.iterations.update iterationId (reopen userId) (fun _ => rfl) }

theorem draftReferences_reopened (iterationId userId : ℕ) :
    draftReferences (reopened iterationId userId db) = draftReferences db := by
  have hcontains : (reopened iterationId userId db).iterations.contains =
      db.iterations.contains := funext fun _ =>
    db.iterations.contains_update_eq (f := reopen userId) (fun _ => rfl)
  unfold draftReferences
  rw [hcontains]
  rfl

theorem addWrites_congr {i j : ServiceIteration} (hid : j.id = i.id)
    (hs : j.serviceId = i.serviceId) : addWrites j = addWrites i := by
  unfold addWrites
  rw [hid, hs]

theorem addWrites_reopened (k u : ℕ) (i : ServiceIteration) (userId : ℕ)
    (name method path : String) (description : Option String) (level : String)
    (categoryId : Option ℕ) :
    addWrites i userId name method path description level categoryId (reopened k u db) =
      (fun p => (reopened k u p.1, p.2)) <$>
        addWrites i userId name method path description level categoryId db := by
  unfold addWrites
  rw [draftReferences_reopened]
  simp only [map_bind, map_pure]
  rfl

theorem copyWrites_reopened (k u iterationId apiDraftId userId : ℕ) :
    copyWrites env iterationId apiDraftId userId (reopened k u db) =
      (fun p => (reopened k u p.1, p.2)) <$> copyWrites env iterationId apiDraftId userId db := by
  unfold copyWrites
  rw [draftReferences_reopened]
  simp only [map_bind, map_pure]
  rfl

theorem deleteWrites_reopened (k u iterationId apiDraftId : ℕ) :
    deleteWrites iterationId apiDraftId (reopened k u db) =
      (fun p => (reopened k u p.1, p.2)) <$> deleteWrites iterationId apiDraftId db := by
  unfold deleteWrites
  simp only [map_bind, map_pure]
  rfl

theorem updateWrites_reopened (k u iterationId apiDraftId : ℕ) (name method path : String)
    (description : Option String) (level : String) (reqParams respParams : JsonValue) :
    updateWrites env iterationId apiDraftId name method path description level reqParams
        respParams (reopened k u db) =
      (fun p => (reopened k u p.1, p.2)) <$>
        updateWrites env iterationId apiDraftId name method path description level reqParams
          respParams db := by
  unfold updateWrites
  simp only [map_bind, map_pure]
  rfl

theorem editWrites_drafts {i : ServiceIteration} {operation : Operation}
    (h : editWrites env i operation db = .ok db') :
    ∃ drafts, db' = { db with drafts := drafts } := by
  cases operation
  case apiAddApi iterationId userId name method path description level categoryId =>
    obtain ⟨r, hr⟩ := map_fst_eq_ok.mp h
    simp only [addWrites, bind_eq_ok, pure_eq_ok, Prod.mk.injEq] at hr
    obtain ⟨_, _, _, _, _, _, _, _, _, _, drafts, _, rfl, _⟩ := hr
    exact ⟨drafts, rfl⟩
  case apiCopyApiByApiDraftId iterationId apiDraftId userId =>
    obtain ⟨r, hr⟩ := map_fst_eq_ok.mp h
    simp only [copyWrites, bind_eq_ok, pure_eq_ok, Prod.mk.injEq] at hr
    obtain ⟨_, _, _, _, _, _, drafts, _, rfl, _⟩ := hr
    exact ⟨drafts, rfl⟩
  case apiDeleteApiByApiDraftId iterationId apiDraftId userId =>
    obtain ⟨r, hr⟩ := map_fst_eq_ok.mp h
    simp only [deleteWrites, bind_eq_ok, pure_eq_ok, Prod.mk.injEq] at hr
    obtain ⟨_, _, rfl, _⟩ := hr
    exact ⟨_, rfl⟩
  case apiUpdateApiByApiDraftId iterationId apiDraftId userId name method path description level
      reqParams respParams =>
    obtain ⟨r, hr⟩ := map_fst_eq_ok.mp h
    simp only [updateWrites, bind_eq_ok, pure_eq_ok, Prod.mk.injEq] at hr
    obtain ⟨_, _, _, _, _, _, drafts, _, rfl, _⟩ := hr
    exact ⟨drafts, rfl⟩
  all_goals exact ⟨db.drafts, (pure_eq_ok.mp h).symm⟩

theorem stale_edit {i j : ServiceIteration} {operation : Operation} {userId : ℕ}
    (hop : editor operation = some (i.id, userId)) (hj : j ∈ db.iterations.rows)
    (hid : j.id = i.id) (hs : j.serviceId = i.serviceId)
    (hservice : db.services.contains j.serviceId = true)
    (h : editWrites env i operation db = .ok db') :
    Effect env (reopened i.id userId db) operation (reopened i.id userId db') := by
  obtain ⟨s, hsm, hsid⟩ := Table.contains_iff.mp hservice
  have hcheck : checkServiceIterationPermission (reopened i.id userId db) i.id userId =
      .ok (reopen userId j, db.users.find? userId) := by
    refine checkServiceIterationPermission_eq_ok.mpr ⟨⟨?_, hid, rfl, s, hsm, hsid, ?_⟩, rfl⟩
    · exact List.mem_map.mpr ⟨j, hj, if_pos hid⟩
    · exact Or.inr (Or.inl rfl)
  have ht : transaction (reopened i.id userId db) ⟨env, operation⟩ =
      .ok (reopened i.id userId db') := by
    cases operation
    case apiAddApi iterationId u name method path description level categoryId =>
      cases hop
      obtain ⟨r, hr⟩ := map_fst_eq_ok.mp h
      refine map_fst_eq_ok.mpr ⟨r, ?_⟩
      rw [apiAddApi_parts, hcheck, ok_bind]
      show addWrites (reopen userId j) _ _ _ _ _ _ _ _ = _
      rw [addWrites_congr (i := i) (j := reopen userId j) hid hs, addWrites_reopened, hr]
      rfl
    case apiCopyApiByApiDraftId iterationId apiDraftId u =>
      cases hop
      obtain ⟨r, hr⟩ := map_fst_eq_ok.mp h
      refine map_fst_eq_ok.mpr ⟨r, ?_⟩
      rw [apiCopyApiByApiDraftId_parts, hcheck, ok_bind, copyWrites_reopened, hr]
      rfl
    case apiDeleteApiByApiDraftId iterationId apiDraftId u =>
      cases hop
      obtain ⟨r, hr⟩ := map_fst_eq_ok.mp h
      refine map_fst_eq_ok.mpr ⟨r, ?_⟩
      rw [apiDeleteApiByApiDraftId_parts, hcheck, ok_bind, deleteWrites_reopened, hr]
      rfl
    case apiUpdateApiByApiDraftId iterationId apiDraftId u name method path description level
        reqParams respParams =>
      cases hop
      obtain ⟨r, hr⟩ := map_fst_eq_ok.mp h
      refine map_fst_eq_ok.mpr ⟨r, ?_⟩
      rw [apiUpdateApiByApiDraftId_parts, hcheck, ok_bind, updateWrites_reopened, hr]
      rfl
    all_goals cases hop
  exact transaction_effect ht

theorem reopened_invariant {link : RequestFields → RequestFields → Prop}
    (hi : Invariant link db) (k : ℕ) {u : ℕ} (hu : db.users.contains u = true) :
    Invariant link (reopened k u db) := by
  have horigin : ∀ i ∈ (reopened k u db).iterations.rows, ∃ j ∈ db.iterations.rows, j.id = i.id ∧
      j.serviceId = i.serviceId ∧ (i.creatorId = some u ∨ i.creatorId = j.creatorId) := by
    intro i hm
    obtain ⟨j, hj, hid, ⟨_, rfl⟩ | ⟨_, rfl⟩⟩ :=
      db.iterations.update_origin (f := reopen u) (fun _ => rfl) hm
    · exact ⟨j, hj, hid, rfl, Or.inl rfl⟩
    · exact ⟨i, hj, hid, rfl, Or.inr rfl⟩
  refine hi.of_iterations ?_ ?_ ?_
  · intro i hm _
    obtain ⟨j, hj, hid, rfl | rfl⟩ :=
      db.iterations.update_image (k := k) (f := reopen u) (fun _ => rfl) hm
    · exact ⟨_, hj, hid, rfl⟩
    · exact ⟨j, hj, rfl, rfl⟩
  · intro i hm
    obtain ⟨j, hj, _, hs, _⟩ := horigin i hm
    rw [← hs]
    exact hi.iteration_service j hj
  · intro i hm v hv
    obtain ⟨j, hj, _, _, hc | hc⟩ := horigin i hm
    · rw [hc] at hv
      rw [← Option.some.inj hv]
      exact hu
    · exact hi.iteration_creator j hj v (hc ▸ hv)

theorem invariant_of_stale_edit (hi : Invariant Nests db) {k u : ℕ} {operation : Operation}
    {drafts : ApiStore} (hu : db.users.contains u = true)
    (he : Effect env (reopened k u db) operation (reopened k u { db with drafts := drafts })) :
    Invariant Nests { db with drafts := drafts } := by
  have hopened : Invariant Nests (reopened k u { db with drafts := drafts }) :=
    effect_preserves nests_joint he (payloadGuard_true operation) (reopened_invariant hi k hu)
  refine hopened.of_iterations ?_ hi.iteration_service hi.iteration_creator
  intro i hm _
  obtain ⟨j, hj, hid, ⟨_, rfl⟩ | ⟨_, rfl⟩⟩ :=
    db.iterations.update_origin (f := reopen u) (fun _ => rfl) hm
  · exact ⟨j, hj, hid, rfl⟩
  · exact ⟨i, hj, rfl, rfl⟩

end Stale

/-- Nothing that a session may have loaded disappears but iterations, categories and live apis.
They stay with their service, and an iteration with its creator; it is not opened again. -/
structure Later (db db' : Database) : Prop where
  users : ∀ k, db.users.contains k = true → db'.users.contains k = true
  services : ∀ k, db.services.contains k = true → db'.services.contains k = true
  next : db.iterations.next ≤ db'.iterations.next
  iterations : ∀ i ∈ db'.iterations.rows, i.id < db.iterations.next →
    ∃ j ∈ db.iterations.rows, j.id = i.id ∧ j.serviceId = i.serviceId ∧
      j.creatorId = i.creatorId ∧ (i.isCommitted = false → j.isCommitted = false)
  nextCategory : db.categories.next ≤ db'.categories.next
  categories : ∀ c ∈ db'.categories.rows, c.id < db.categories.next →
    ∃ d ∈ db.categories.rows, d.id = c.id ∧ d.serviceId = c.serviceId
  nextApi : db.live.apis.next ≤ db'.live.apis.next
  apis : ∀ a ∈ db'.live.apis.rows, a.id < db.live.apis.next →
    ∃ b ∈ db.live.apis.rows, b.id = a.id ∧ b.container = a.container

theorem Later.refl (db : Database) : Later db db :=
  ⟨fun _ h => h, fun _ h => h, le_rfl, fun i hm _ => ⟨i, hm, rfl, rfl, rfl, fun h => h⟩, le_rfl,
    fun c hc _ => ⟨c, hc, rfl, rfl⟩, le_rfl, fun a ha _ => ⟨a, ha, rfl, rfl⟩⟩

section Later

variable {env : Environment} {db db' : Database} {operation : Operation}

theorem iterations_later {k : ℕ} (f : ServiceIteration → ServiceIteration)
    (hf : ∀ i, key (f i) = key i)
    (hkeep : ∀ i, (f i).serviceId = i.serviceId ∧ (f i).creatorId = i.creatorId ∧
      ((f i).isCommitted = false → i.isCommitted = false)) :
    ∀ i ∈ (db.iterations.update k f hf).rows, ∃ j ∈ db.iterations.rows, j.id = i.id ∧
      j.serviceId = i.serviceId ∧ j.creatorId = i.creatorId ∧
      (i.isCommitted = false → j.isCommitted = false) := by
  intro i hm
  obtain ⟨j, hj, hid, ⟨_, rfl⟩ | ⟨_, rfl⟩⟩ := db.iterations.update_origin hf hm
  · exact ⟨j, hj, hid, (hkeep j).1.symm, (hkeep j).2.1.symm, (hkeep j).2.2⟩
  · exact ⟨i, hj, rfl, rfl, rfl, fun h => h⟩

theorem services_stay {k : ℕ} (f : Service → Service) (hf : ∀ s, key (f s) = key s) :
    ∀ j, db.services.contains j = true → (db.services.update k f hf).contains j = true :=
  fun _ => db.services.contains_update hf

theorem categories_later {k : ℕ} (f : ApiCategory → ApiCategory) (hf : ∀ c, key (f c) = key c)
    (hkeep : ∀ c, (f c).serviceId = c.serviceId) :
    ∀ c ∈ (db.categories.update k f hf).rows, ∃ d ∈ db.categories.rows, d.id = c.id ∧
      d.serviceId = c.serviceId := by
  intro c hc
  obtain ⟨d, hd, hid, ⟨_, rfl⟩ | ⟨_, rfl⟩⟩ := db.categories.update_origin hf hc
  · exact ⟨d, hd, hid, (hkeep d).symm⟩
  · exact ⟨c, hd, rfl, rfl⟩

theorem moved_later (g : ApiRow → Option ℕ) (st : ApiStore) :
    ∀ a ∈ (setCategories g st).apis.rows, ∃ b ∈ st.apis.rows, b.id = a.id ∧
      b.container = a.container := by
  intro a ha
  rw [setCategories_rows] at ha
  obtain ⟨b, hb, rfl⟩ := List.mem_map.mp ha
  exact ⟨b, hb, rfl, rfl⟩

/-- Live apis are replaced by new ones. -/
theorem replaced_later {refs : References} {source : ApiRow → ApiStore} {drafts : List ApiRow}
    {c : ℕ} {p : ApiRow → Bool} {live : ApiStore}
    (h : copyEach env refs source drafts c (deleteApis p db.live) = .ok live) :
    db.live.apis.next ≤ live.apis.next ∧ ∀ a ∈ live.apis.rows, a.id < db.live.apis.next →
      ∃ b ∈ db.live.apis.rows, b.id = a.id ∧ b.container = a.container := by
  obtain ⟨hnext, hrows⟩ := copyEach_adds h
  refine ⟨hnext, ?_⟩
  intro a ha hlt
  have hold := hrows a ha hlt
  rw [deleteApis_rows] at hold
  exact ⟨a, List.mem_of_mem_filter hold, rfl, rfl⟩

theorem effect_later (he : Effect env db operation db') : Later db db' := by
  have hrefl := Later.refl db
  cases he with
  | userRegistered _ _ _ => exact { hrefl with users := fun _ => db.users.contains_insert }
  | @passwordModified _ _ _ u hash _ _ =>
    exact { hrefl with users := fun _ =>
      db.users.contains_update (f := UserOperations.setPassword hash) (fun _ => rfl) }
  | serviceCreated _ _ _ _ _ _ _ =>
    exact { hrefl with services := fun _ => db.services.contains_insert }
  | serviceDeleted _ _ _ =>
    exact { hrefl with services := services_stay (setDeleted (some env.now)) (fun _ => rfl) }
  | serviceRestored _ _ _ _ =>
    exact { hrefl with services := services_stay (setDeleted none) (fun _ => rfl) }
  | iterationDeleted _ _ _ _ _ _ =>
    refine { hrefl with iterations := ?_ }
    intro i hm _
    exact ⟨i, List.mem_of_mem_filter hm, rfl, rfl, rfl, fun h => h⟩
  | iterationStarted _ _ _ _ _ _ =>
    refine { hrefl with next := Nat.le_succ _, iterations := ?_ }
    intro i hm hlt
    rcases List.mem_append.mp hm with hm | hm
    · exact ⟨i, hm, rfl, rfl, rfl, fun h => h⟩
    · rw [List.mem_singleton.mp hm] at hlt
      exact absurd hlt (lt_irrefl _)
  | @iterationCommitted _ _ _ j _ version _ _ _ _ _ _ hcopy =>
    rw [copyApis_eq] at hcopy
    obtain ⟨hnext, hapis⟩ := replaced_later hcopy
    refine { hrefl with
      services := services_stay (publish j.description version) (fun _ => rfl)
      iterations := ?_
      nextApi := hnext
      apis := hapis }
    intro i hm _
    refine iterations_later (markCommitted version) (fun _ => rfl) ?_ i hm
    intro j
    exact ⟨rfl, rfl, fun h => nomatch h⟩
  | @descriptionUpdated _ description _ _ _ =>
    refine { hrefl with iterations := ?_ }
    intro i hm _
    exact iterations_later (setDescription description) (fun _ => rfl)
      (fun _ => ⟨rfl, rfl, fun h => h⟩) i hm
  | categoryAdded _ _ _ _ _ _ =>
    refine { hrefl with nextCategory := Nat.le_succ _, categories := ?_ }
    intro c hc hlt
    rcases List.mem_append.mp hc with hc | hc
    · exact ⟨c, hc, rfl, rfl⟩
    · rw [List.mem_singleton.mp hc] at hlt
      exact absurd hlt (lt_irrefl _)
  | @categoryDeleted _ _ c _ _ _ _ _ _ =>
    refine { hrefl with categories := ?_, apis := ?_ }
    · intro d hd _
      exact ⟨d, List.mem_of_mem_filter hd, rfl, rfl⟩
    · exact fun a ha _ => moved_later _ _ a ha
  | @categoryUpdated _ _ description name _ _ _ _ _ _ _ _ =>
    refine { hrefl with categories := ?_ }
    exact fun c hc _ =>
      categories_later (renameCategory name description) (fun _ => rfl) (fun _ => rfl) c hc
  | apiCategoryUpdated _ _ _ _ _ _ =>
    exact { hrefl with apis := fun a ha _ => moved_later _ _ a ha }
  | _ =>
    exact ⟨hrefl.users, hrefl.services, hrefl.next, hrefl.iterations, hrefl.nextCategory,
      hrefl.categories, hrefl.nextApi, hrefl.apis⟩

theorem start_later {serviceId userId : ℕ}
    (h : startNewIteration env serviceId userId db = .ok db') : Later db db' := by
  have hrefl := Later.refl db
  simp only [startNewIteration, bind_eq_ok, pure_eq_ok] at h
  obtain ⟨_, _, drafts, _, rfl⟩ := h
  refine { hrefl with next := Nat.le_succ _, iterations := ?_ }
  intro i hm hlt
  rcases List.mem_append.mp hm with hm | hm
  · exact ⟨i, hm, rfl, rfl, rfl, fun h => h⟩
  · rw [List.mem_singleton.mp hm] at hlt
    exact absurd hlt (lt_irrefl _)

theorem commit_later {i : ServiceIteration} {s : Service} {newVersion : String} {r : Reading}
    (h : commitWrites env i s newVersion r db = .ok db') : Later db db' := by
  have hrefl := Later.refl db
  simp only [commitWrites, bind_eq_ok, pure_eq_ok] at h
  obtain ⟨version, _, _, hcopy, _, _, rfl⟩ := h
  obtain ⟨hnext, hapis⟩ := replaced_later hcopy
  refine { hrefl with
    services := services_stay (publishLoaded s i.description version) (fun _ => rfl)
    iterations := ?_
    nextApi := hnext
    apis := hapis }
  intro j hm _
  refine iterations_later (markCommitted version) (fun _ => rfl) ?_ j hm
  intro j
  refine ⟨rfl, rfl, ?_⟩
  intro h
  cases h

theorem writes_later {c : Checked} (h : writes env c db = .ok db') : Later db db' := by
  cases c with
  | start serviceId userId => exact start_later h
  | commit i s newVersion r => exact commit_later h
  | edit i operation =>
    obtain ⟨drafts, rfl⟩ := editWrites_drafts h
    have hrefl := Later.refl db
    exact ⟨hrefl.users, hrefl.services, hrefl.next, hrefl.iterations, hrefl.nextCategory,
      hrefl.categories, hrefl.nextApi, hrefl.apis⟩

end Later

def Placed (db : Database) (i : ServiceIteration) : Prop :=
  i.id < db.iterations.next ∧ ∀ j ∈ db.iterations.rows, j.id = i.id → j.serviceId = i.serviceId

/-- What a commit to the service has read: apis of the service, if they are still there, and
drafts whose categories, if they are still there, are the service's. -/
structure Loaded (db : Database) (serviceId : ℕ) (r : Reading) : Prop where
  gone : ∀ ids, r.gone = some ids → ∀ k ∈ ids, k < db.live.apis.next ∧
    ∀ a ∈ db.live.apis.rows, a.id = k → a.container = serviceId
  nodup : ∀ drafts, r.drafts = some drafts → (drafts.map ApiRow.id).Nodup
  categories : ∀ drafts, r.drafts = some drafts → ∀ a ∈ drafts, ∀ k,
    a.fields.categoryId = some k → k < db.categories.next ∧
      ∀ c ∈ db.categories.rows, c.id = k → c.serviceId = serviceId
  requests : ∀ k t, r.requests k = some t → WellLinked Nests t.rows
  responses : ∀ k t, r.responses k = some t → WellLinked Nests t.rows

def Remembered (db : Database) : Checked → Prop
  | .start _ _ => True
  | .commit i s _ r => Placed db i ∧ s.id = i.serviceId ∧ Loaded db s.id r
  | .edit i operation => Placed db i ∧
    ∃ userId, editor operation = some (i.id, userId) ∧ db.users.contains userId = true

structure Sound (v : Server) : Prop where
  invariant : Invariant Nests v.db
  remembered : ∀ n c, v.sessions n = some c → Remembered v.db c

section Sound

variable {env : Environment} {db db' : Database}

theorem placed_of_mem {i : ServiceIteration} (hm : i ∈ db.iterations.rows) : Placed db i := by
  refine ⟨(db.iterations.bounds i hm).2, ?_⟩
  intro j hj hid
  rw [db.iterations.eq_of_key_eq hj hm hid]

theorem Placed.later {i : ServiceIteration} (h : Placed db i) (hl : Later db db') :
    Placed db' i := by
  refine ⟨h.1.trans_le hl.next, ?_⟩
  intro j hj hid
  obtain ⟨k, hk, hkj, hs, _⟩ := hl.iterations j hj (hid ▸ h.1)
  rw [← hs]
  exact h.2 k hk (hkj.trans hid)

theorem loaded_nothing (serviceId : ℕ) : Loaded db serviceId .nothing :=
  ⟨fun _ h => (nomatch h), fun _ h => (nomatch h), fun _ h => (nomatch h), fun _ _ h => (nomatch h),
    fun _ _ h => (nomatch h)⟩

theorem Loaded.later {serviceId : ℕ} {r : Reading} (h : Loaded db serviceId r)
    (hl : Later db db') : Loaded db' serviceId r := by
  refine ⟨?_, h.nodup, ?_, h.requests, h.responses⟩
  · intro ids hr k hk
    obtain ⟨hlt, hold⟩ := h.gone ids hr k hk
    refine ⟨hlt.trans_le hl.nextApi, ?_⟩
    intro a ha hid
    obtain ⟨b, hb, hba, hc⟩ := hl.apis a ha (hid ▸ hlt)
    rw [← hc]
    exact hold b hb (hba.trans hid)
  · intro drafts hr a ha k hk
    obtain ⟨hlt, hold⟩ := h.categories drafts hr a ha k hk
    refine ⟨hlt.trans_le hl.nextCategory, ?_⟩
    intro c hc hid
    obtain ⟨d, hd, hdc, hs⟩ := hl.categories c hc (hid ▸ hlt)
    rw [← hs]
    exact hold d hd (hdc.trans hid)

/-- The live apis that a query for those of a service finds. -/
theorem gone_now (db : Database) (serviceId : ℕ) :
    ∀ k ∈ (db.live.apisOf serviceId).map ApiRow.id, k < db.live.apis.next ∧
      ∀ a ∈ db.live.apis.rows, a.id = k → a.container = serviceId := by
  intro k hk
  obtain ⟨a, ha, rfl⟩ := List.mem_map.mp hk
  obtain ⟨ha, hc⟩ := ApiStore.mem_apisOf.mp ha
  refine ⟨(db.live.apis.bounds a ha).2, ?_⟩
  intro b hb hid
  rw [db.live.apis.eq_of_key_eq hb ha hid, hc]

/-- The categories of the drafts that a query for those of an iteration finds. -/
theorem categories_now (hi : Invariant Nests db) {i : ServiceIteration} (hp : Placed db i) :
    ∀ a ∈ db.drafts.apisOf i.id, ∀ k, a.fields.categoryId = some k → k < db.categories.next ∧
      ∀ c ∈ db.categories.rows, c.id = k → c.serviceId = i.serviceId := by
  intro a ha k hk
  obtain ⟨ha, hc⟩ := ApiStore.mem_apisOf.mp ha
  obtain ⟨j, hj, hid, _, hcategory⟩ := hi.draft_refers a ha
  obtain ⟨c, hcm, hck, hcs⟩ := hcategory k hk
  refine ⟨hck ▸ (db.categories.bounds c hcm).2, ?_⟩
  intro d hd hdk
  rw [db.categories.eq_of_key_eq hd hcm (hdk.trans hck.symm), hcs]
  exact hp.2 j hj (hid.trans hc)

theorem eq_some_of_update {α : Type} {f : ℕ → Option α} {n k : ℕ} {x y : α}
    (h : Function.update f n (some x) k = some y) : k = n ∧ x = y ∨ f k = some y := by
  by_cases hk : k = n
  · rw [hk, Function.update_self] at h
    exact Or.inl ⟨hk, Option.some.inj h⟩
  · rw [Function.update_of_ne hk] at h
    exact Or.inr h

theorem loaded_read (hi : Invariant Nests db) {i : ServiceIteration} {serviceId : ℕ}
    (hp : Placed db i) (hs : serviceId = i.serviceId) {r : Reading} (h : Loaded db serviceId r)
    (part : Part) : Loaded db serviceId (r.read env i.id serviceId db part) := by
  cases part with
  | apis =>
    simp only [Reading.read]
    split
    · refine ⟨?_, h.nodup, h.categories, h.requests, h.responses⟩
      intro ids hr
      rw [← Option.some.inj hr]
      exact gone_now db serviceId
    · exact h
  | drafts =>
    simp only [Reading.read]
    split
    · refine ⟨h.gone, ?_, ?_, h.requests, h.responses⟩
      · intro drafts hr
        rw [← Option.some.inj hr]
        exact (apisOf_fetch db.drafts i.id env).1
      · intro drafts hr a ha
        rw [← Option.some.inj hr] at ha
        exact hs ▸ categories_now hi hp a (env.mem_fetch.mp ha)
    · exact h
  | requests apiDraftId =>
    simp only [Reading.read]
    split
    · refine ⟨h.gone, h.nodup, h.categories, ?_, h.responses⟩
      intro k t ht
      rcases eq_some_of_update ht with ⟨_, rfl⟩ | hold
      · exact hi.drafts.request_linked
      · exact h.requests k t hold
    · exact h
  | responses apiDraftId =>
    simp only [Reading.read]
    split
    · refine ⟨h.gone, h.nodup, h.categories, h.requests, ?_⟩
      intro k t ht
      rcases eq_some_of_update ht with ⟨_, rfl⟩ | hold
      · exact hi.drafts.response_linked
      · exact h.responses k t hold
    · exact h

theorem Remembered.read (hi : Invariant Nests db) {c : Checked} (h : Remembered db c)
    (part : Part) : Remembered db (c.read env db part) := by
  cases c with
  | start serviceId userId => trivial
  | commit i s newVersion r =>
    obtain ⟨hp, hs, hl⟩ := h
    exact ⟨hp, hs, loaded_read hi hp hs hl part⟩
  | edit i operation => exact h

theorem Remembered.later {c : Checked} (h : Remembered db c) (hl : Later db db') :
    Remembered db' c := by
  cases c with
  | start serviceId userId => trivial
  | commit i s newVersion r =>
    obtain ⟨hp, hs, hr⟩ := h
    exact ⟨hp.later hl, hs, hr.later hl⟩
  | edit i operation =>
    obtain ⟨hp, userId, hop, hu⟩ := h
    exact ⟨hp.later hl, userId, hop, hl.users userId hu⟩

/-- What a check loads is there. -/
theorem check_remembered (hi : Invariant Nests db) {request : Request} {c : Checked}
    (h : check db request = .ok (some c)) : Remembered db c := by
  obtain ⟨env, operation⟩ := request
  have edited : ∀ {iterationId userId : ℕ}, editor operation = some (iterationId, userId) →
      (do
        let (iteration, _) ← checkServiceIterationPermission db iterationId userId
        pure (some (Checked.edit iteration operation))) = (.ok (some c) : Tx _) →
      Remembered db c := by
    intro iterationId userId hop h
    simp only [bind_eq_ok, pure_eq_ok, Option.some_inj] at h
    obtain ⟨⟨i, u⟩, hc, rfl⟩ := h
    have hw := (checkServiceIterationPermission_eq_ok.mp hc).1
    exact ⟨placed_of_mem hw.mem, userId, hw.id.symm ▸ hop, contains_of_workRight hi hw⟩
  cases operation
  case serviceStartIteration serviceId userId =>
    simp only [check, bind_eq_ok, pure_eq_ok] at h
    obtain ⟨found, _, hc⟩ := h
    cases found with
    | some i => cases hc
    | none =>
      rw [← Option.some.inj hc]
      trivial
  case serviceCommitIteration iterationId newVersion userId =>
    simp only [check, commitCheck, bind_eq_ok, asCheckResult_eq_ok, orAbort_eq_ok,
      Table.find?_eq_some, service_key, pure_eq_ok] at h
    obtain ⟨_, ⟨⟨i, u⟩, hc, s, ⟨hs, hsid⟩, _, _, rfl⟩, hce⟩ := h
    rw [← Option.some.inj hce]
    exact ⟨placed_of_mem (checkServiceIterationPermission_eq_ok.mp hc).1.mem, hsid,
      loaded_nothing _⟩
  case apiAddApi => exact edited rfl h
  case apiCopyApiByApiDraftId => exact edited rfl h
  case apiDeleteApiByApiDraftId => exact edited rfl h
  case apiUpdateApiByApiDraftId => exact edited rfl h
  all_goals cases h

/-- What a commit copies in the end. -/
theorem Loaded.copies (hi : Invariant Nests db) {i : ServiceIteration} {serviceId : ℕ}
    (hp : Placed db i) (hs : serviceId = i.serviceId) {r : Reading} (h : Loaded db serviceId r)
    {live : ApiStore}
    (hcopy : copyEach env (liveReferences db) (r.source db.drafts) (r.draftRows env i.id db)
      serviceId (deleteApis (fun a => (r.goneIds serviceId db).contains a.id) db.live) =
        .ok live) :
    (∀ a ∈ r.draftRows env i.id db, (liveReferences db).Allow serviceId a.fields ∧
      Refers db serviceId a.fields) ∧
      ∃ ν μ ρ, CopiedEach (r.source db.drafts) serviceId (r.draftRows env i.id db)
          (deleteApis (fun a => (r.goneIds serviceId db).contains a.id) db.live) live ν μ ρ ∧
        WellFormed Nests live ∧ SameOutside serviceId db.live live := by
  have hgone : ∀ a ∈ db.live.apis.rows,
      (r.goneIds serviceId db).contains a.id = true → a.container = serviceId := by
    intro a ha hm
    rw [List.contains_iff_mem, Reading.goneIds] at hm
    cases hr : r.gone with
    | none =>
      rw [hr, Option.getD_none] at hm
      exact (gone_now db serviceId a.id hm).2 a ha rfl
    | some ids =>
      rw [hr, Option.getD_some] at hm
      exact (h.gone ids hr a.id hm).2 a ha rfl
  have hnodup : ((r.draftRows env i.id db).map ApiRow.id).Nodup := by
    rw [Reading.draftRows]
    cases hr : r.drafts with
    | none => exact (apisOf_fetch db.drafts i.id env).1
    | some drafts => exact h.nodup drafts hr
  have hcategories : ∀ a ∈ r.draftRows env i.id db, ∀ k, a.fields.categoryId = some k →
      ∀ c ∈ db.categories.rows, c.id = k → c.serviceId = serviceId := by
    intro a ha k hk
    rw [Reading.draftRows] at ha
    cases hr : r.drafts with
    | none =>
      rw [hr, Option.getD_none, env.mem_fetch] at ha
      exact hs ▸ (categories_now hi hp a ha k hk).2
    | some drafts =>
      rw [hr, Option.getD_some] at ha
      exact (h.categories drafts hr a ha k hk).2
  have hrequests : ∀ a ∈ r.draftRows env i.id db,
      WellLinked Nests (r.source db.drafts a).requestParams.rows := by
    intro a _
    show WellLinked Nests ((r.requests a.id).getD db.drafts.requestParams).rows
    cases hr : r.requests a.id with
    | none => exact hi.drafts.request_linked
    | some t => exact h.requests a.id t hr
  have hresponses : ∀ a ∈ r.draftRows env i.id db,
      WellLinked Nests (r.source db.drafts a).responseParams.rows := by
    intro a _
    show WellLinked Nests ((r.responses a.id).getD db.drafts.responseParams).rows
    cases hr : r.responses a.id with
    | none => exact hi.drafts.response_linked
    | some t => exact h.responses a.id t hr
  obtain ⟨hallow, ν, μ, ρ, hc, hw, ho⟩ := copyEach_of_ok hnodup hrequests hresponses
    (deleteApis_wellFormed hi.live _) hcopy
  refine ⟨?_, ν, μ, ρ, hc, hw, (deleteApis_sameOutside hi.live hgone).trans ho⟩
  intro a ha
  have hall := hallow a ha
  refine ⟨hall, hall.2.1, ?_⟩
  intro k hk
  obtain ⟨c, hcm, hck⟩ := Table.contains_iff.mp (hall.2.2 k hk)
  exact ⟨c, hcm, hck, hcategories a ha k hk c hcm hck⟩

theorem check_unread {request : Request} {c : Checked} (h : check db request = .ok (some c)) :
    c.unread = c := by
  obtain ⟨env, operation⟩ := request
  have edited : ∀ {iterationId userId : ℕ},
      checkServiceIterationPermission db iterationId userId >>=
          (fun p => pure (some (Checked.edit p.1 operation))) = (.ok (some c) : Tx _) →
      c.unread = c := by
    intro iterationId userId h
    simp only [bind_eq_ok, pure_eq_ok, Option.some_inj] at h
    obtain ⟨_, _, rfl⟩ := h
    rfl
  cases operation
  case serviceStartIteration serviceId userId =>
    simp only [check, bind_eq_ok, pure_eq_ok] at h
    obtain ⟨found, _, hc⟩ := h
    cases found with
    | some i => cases hc
    | none =>
      rw [← Option.some.inj hc]
      rfl
  case serviceCommitIteration iterationId newVersion userId =>
    simp only [check, bind_eq_ok, pure_eq_ok] at h
    obtain ⟨_, _, hc⟩ := h
    rw [← Option.some.inj hc]
    rfl
  case apiAddApi => exact edited h
  case apiCopyApiByApiDraftId => exact edited h
  case apiDeleteApiByApiDraftId => exact edited h
  case apiUpdateApiByApiDraftId => exact edited h
  all_goals cases h

/-- The live apis of the service replaced by copies of the drafts that were read. -/
theorem commitWrites_spec {i : ServiceIteration} {s : Service} {newVersion : String}
    {r : Reading} (hi : Invariant Nests db) (hp : Placed db i) (hs : s.id = i.serviceId)
    (hr : Loaded db s.id r) (h : commitWrites env i s newVersion r db = .ok db') :
    Invariant Nests db' ∧ db'.drafts = db.drafts ∧ SameOutside s.id db.live db'.live := by
  simp only [commitWrites, bind_eq_ok, pure_eq_ok] at h
  obtain ⟨version, _, live, hcopy, _, _, rfl⟩ := h
  obtain ⟨hrefers, ν, μ, ρ, hc, hw, ho⟩ := hr.copies hi hp hs hcopy
  have hrows := (hi.of_service_update s.id (publishLoaded s i.description version)
    (fun _ => rfl) (fun _ => ⟨rfl, rfl⟩)).of_iteration_update i.id (markCommitted version)
    (fun _ => rfl) (fun _ => ⟨rfl, rfl⟩)
  refine ⟨hrows.of_live hw ?_, rfl, ho⟩
  intro a ha
  have hstay : ∀ j, db.services.contains j = true → (db.services.update s.id
      (publishLoaded s i.description version) (fun _ => rfl)).contains j = true :=
    services_stay _ _
  rw [hc.rows] at ha
  rcases List.mem_append.mp ha with ha | ha
  · rw [deleteApis_rows] at ha
    obtain ⟨hservice, href⟩ := hi.live_refers a (List.mem_of_mem_filter ha)
    exact ⟨hstay _ hservice, href⟩
  · obtain ⟨b, hb, rfl⟩ := List.mem_map.mp ha
    obtain ⟨hallow, href⟩ := hrefers b hb
    exact ⟨hstay _ hallow.1, href⟩

theorem committed_iteration_exists {i : ServiceIteration} {s : Service} {newVersion : String}
    {r : Reading} (h : commitWrites env i s newVersion r db = .ok db') :
    ∃ j ∈ db.iterations.rows, j.id = i.id := by
  simp only [commitWrites, bind_eq_ok, require_eq_ok] at h
  obtain ⟨_, _, _, _, _, hm, _⟩ := h
  exact Table.contains_iff.mp hm

/-- An edit finds its iteration still there: a draft refers to it. -/
theorem edited_iteration_exists (hi : Invariant Nests db) {i : ServiceIteration}
    {operation : Operation} {userId : ℕ} (hop : editor operation = some (i.id, userId))
    (h : editWrites env i operation db = .ok db') : ∃ j ∈ db.iterations.rows, j.id = i.id := by
  have of_draft : ∀ {apiDraftId : ℕ} {d : ApiDraft}, loadDraft i.id apiDraftId db = .ok d →
      ∃ j ∈ db.iterations.rows, j.id = i.id := by
    intro apiDraftId d h
    simp only [loadDraft, bind_eq_ok, orAbort_eq_ok, require_eq_ok, Table.find?_eq_some,
      pure_eq_ok, beq_iff_eq] at h
    obtain ⟨a, ⟨ha, _⟩, _, hc, rfl⟩ := h
    obtain ⟨j, hj, hid, _⟩ := hi.draft_refers a ha
    exact ⟨j, hj, hid.trans hc⟩
  cases operation
  case apiAddApi iterationId u name method path description level categoryId =>
    obtain ⟨r, hr⟩ := map_fst_eq_ok.mp h
    simp only [addWrites, bind_eq_ok, pure_eq_ok, Prod.mk.injEq] at hr
    obtain ⟨_, _, _, _, _, _, _, _, _, _, drafts, hins, _⟩ := hr
    exact Table.contains_iff.mp (insertApi_eq_ok.mp hins).1.1
  case apiCopyApiByApiDraftId iterationId apiDraftId u =>
    cases hop
    obtain ⟨r, hr⟩ := map_fst_eq_ok.mp h
    simp only [copyWrites, bind_eq_ok] at hr
    obtain ⟨d, hd, _⟩ := hr
    exact of_draft hd
  case apiDeleteApiByApiDraftId iterationId apiDraftId u =>
    cases hop
    obtain ⟨r, hr⟩ := map_fst_eq_ok.mp h
    simp only [deleteWrites, bind_eq_ok] at hr
    obtain ⟨d, hd, _⟩ := hr
    exact of_draft hd
  case apiUpdateApiByApiDraftId iterationId apiDraftId u name method path description level
      reqParams respParams =>
    cases hop
    obtain ⟨r, hr⟩ := map_fst_eq_ok.mp h
    simp only [updateWrites, bind_eq_ok] at hr
    obtain ⟨d, hd, _⟩ := hr
    exact of_draft hd
  all_goals cases hop

/-- What an edit of a stale session does. -/
theorem editWrites_effect (hi : Invariant Nests db) {i : ServiceIteration}
    {operation : Operation} {userId : ℕ} (hp : Placed db i)
    (hop : editor operation = some (i.id, userId))
    (h : editWrites env i operation db = .ok db') :
    Effect env (reopened i.id userId db) operation (reopened i.id userId db') := by
  obtain ⟨j, hj, hid⟩ := edited_iteration_exists hi hop h
  exact stale_edit hop hj hid (hp.2 j hj hid) (hi.iteration_service j hj) h

theorem writes_invariant (hi : Invariant Nests db) {c : Checked} (hr : Remembered db c)
    (h : writes env c db = .ok db') : Invariant Nests db' := by
  cases c with
  | start serviceId userId =>
    simp only [writes, startNewIteration, bind_eq_ok, require_eq_ok, Bool.and_eq_true,
      pure_eq_ok] at h
    obtain ⟨_, ⟨hs, hu⟩, drafts, hcopy, rfl⟩ := h
    exact hi.of_started hs hu hcopy
  | commit i s newVersion r =>
    obtain ⟨hp, hs, hr⟩ := hr
    exact (commitWrites_spec hi hp hs hr h).1
  | edit i operation =>
    obtain ⟨hp, userId, hop, hu⟩ := hr
    have he := editWrites_effect hi hp hop h
    obtain ⟨drafts, rfl⟩ := editWrites_drafts h
    exact invariant_of_stale_edit hi hu he

end Sound

section Runs

variable {v w : Server} {e : Event}

/-- What a step can do. -/
theorem serverStep_cases (h : serverStep v e = .ok w) :
    (∃ request, e = .request request ∧ Effect request.env v.db request.operation w.db ∧
      w.sessions = v.sessions) ∨
    (∃ n request c, e = .check n request ∧ check v.db request = .ok c ∧ w.db = v.db ∧
      w.sessions = Function.update v.sessions n c) ∨
    (∃ n env part, e = .read n env part ∧ w.db = v.db ∧ w.sessions =
      Function.update v.sessions n ((v.sessions n).map (Checked.read env v.db part))) ∨
    (∃ n env, e = .finish n env ∧ w.sessions = Function.update v.sessions n none ∧
      (w.db = v.db ∨ ∃ c, v.sessions n = some c ∧ writes env c v.db = .ok w.db)) := by
  cases e with
  | request request =>
    simp only [serverStep, bind_eq_ok, pure_eq_ok] at h
    obtain ⟨db', ht, rfl⟩ := h
    exact Or.inl ⟨request, rfl, transaction_effect ht, rfl⟩
  | check n request =>
    simp only [serverStep, bind_eq_ok, pure_eq_ok] at h
    obtain ⟨c, hc, rfl⟩ := h
    exact Or.inr (Or.inl ⟨n, request, c, rfl, hc, rfl, rfl⟩)
  | read n env part =>
    simp only [serverStep, pure_eq_ok] at h
    subst h
    exact Or.inr (Or.inr (Or.inl ⟨n, env, part, rfl, rfl, rfl⟩))
  | finish n env =>
    refine Or.inr (Or.inr (Or.inr ⟨n, env, rfl, ?_⟩))
    simp only [serverStep, pure_eq_ok] at h
    subst h
    refine ⟨rfl, ?_⟩
    cases hn : v.sessions n with
    | none => exact Or.inl rfl
    | some c =>
      rcases committed_cases (writes env c v.db) v.db with ⟨db', hw, he⟩ | he
      · right
        refine ⟨c, rfl, ?_⟩
        simp only [he]
        exact hw
      · left
        simp only [he]

theorem serverStep_later (h : serverStep v e = .ok w) : Later v.db w.db := by
  rcases serverStep_cases h with ⟨_, _, he, _⟩ | ⟨_, _, _, _, _, hdb, _⟩ |
    ⟨_, _, _, _, hdb, _⟩ | ⟨_, _, _, _, hdb | ⟨c, _, hw⟩⟩
  · exact effect_later he
  · rw [hdb]
    exact Later.refl _
  · rw [hdb]
    exact Later.refl _
  · rw [hdb]
    exact Later.refl _
  · exact writes_later hw

/-- Where a session that is open after a step comes from. -/
theorem session_origin (h : serverStep v e = .ok w) {n : ℕ} {c : Checked}
    (hc : w.sessions n = some c) :
    (v.sessions n = some c ∧ ∀ env, e ≠ .finish n env) ∨
    (∃ request, e = .check n request ∧ check v.db request = .ok (some c) ∧ w.db = v.db) ∨
    (∃ env part d, e = .read n env part ∧ v.sessions n = some d ∧ c = d.read env v.db part ∧
      w.db = v.db) := by
  rcases serverStep_cases h with ⟨_, rfl, _, hsessions⟩ |
    ⟨m, request, d, rfl, hd, hdb, hsessions⟩ | ⟨m, env, part, rfl, hdb, hsessions⟩ |
    ⟨m, env, rfl, hsessions, _⟩
  · exact Or.inl ⟨hsessions ▸ hc, fun _ he => nomatch he⟩
  · rw [hsessions] at hc
    by_cases hm : n = m
    · subst hm
      rw [Function.update_self] at hc
      exact Or.inr (Or.inl ⟨request, rfl, hc ▸ hd, hdb⟩)
    · rw [Function.update_of_ne hm] at hc
      exact Or.inl ⟨hc, fun _ he => nomatch he⟩
  · rw [hsessions] at hc
    by_cases hm : n = m
    · subst hm
      rw [Function.update_self, Option.map_eq_some_iff] at hc
      obtain ⟨d, hd, rfl⟩ := hc
      exact Or.inr (Or.inr ⟨env, part, d, rfl, hd, rfl, hdb⟩)
    · rw [Function.update_of_ne hm] at hc
      exact Or.inl ⟨hc, fun _ he => nomatch he⟩
  · rw [hsessions] at hc
    by_cases hm : n = m
    · rw [hm, Function.update_self] at hc
      cases hc
    · rw [Function.update_of_ne hm] at hc
      refine Or.inl ⟨hc, ?_⟩
      rintro _ he
      cases he
      exact hm rfl

theorem invariant_step (hs : Sound v) (h : serverStep v e = .ok w) : Invariant Nests w.db := by
  rcases serverStep_cases h with ⟨_, _, he, _⟩ | ⟨_, _, _, _, _, hdb, _⟩ |
    ⟨_, _, _, _, hdb, _⟩ | ⟨n, _, _, _, hdb | ⟨c, hc, hw⟩⟩
  · exact effect_preserves nests_joint he (payloadGuard_true _) hs.invariant
  · exact hdb ▸ hs.invariant
  · exact hdb ▸ hs.invariant
  · exact hdb ▸ hs.invariant
  · exact writes_invariant hs.invariant (hs.remembered n c hc) hw

theorem sound_step (hs : Sound v) (h : serverStep v e = .ok w) : Sound w := by
  refine ⟨invariant_step hs h, ?_⟩
  intro n c hc
  rcases session_origin h hc with ⟨hold, _⟩ | ⟨request, _, hcheck, hdb⟩ |
    ⟨env, part, d, _, hd, rfl, hdb⟩
  · exact (hs.remembered n c hold).later (serverStep_later h)
  · exact hdb ▸ check_remembered hs.invariant hcheck
  · exact hdb ▸ (hs.remembered n d hd).read hs.invariant part

theorem sound_run {guard : Server → Event → Prop} (hs : Sound v)
    (hr : Runs serverStep guard v w) : Sound w :=
  hr.preserves (fun _ _ _ hs _ h => sound_step hs h) hs

theorem reachable_sound {guard : Server → Event → Prop} (h : ServerReachable guard v) :
    Sound v := by
  obtain ⟨db₀, h₀, hr⟩ := h
  refine sound_run ⟨initial_invariant h₀, ?_⟩ hr
  intro n c hc
  cases hc

/-- Whole requests, one after the other. -/
theorem server_of_reachable {guard : Server → Event → Prop}
    (hguard : ∀ db request, guard ⟨db, fun _ => none⟩ (.request request)) {db : Database}
    (h : Reachable db) : ServerReachable guard ⟨db, fun _ => none⟩ := by
  obtain ⟨db₀, h₀, hr⟩ := h
  refine ⟨db₀, h₀, ?_⟩
  induction hr with
  | refl => exact .refl _
  | @tail u request _ _ ih =>
    have hstep : committed (serverStep ⟨u, fun _ => none⟩ (.request request))
        ⟨u, fun _ => none⟩ = ⟨committed (transaction u request) u, fun _ => none⟩ := by
      simp only [serverStep]
      cases transaction u request with
      | error e => rfl
      | ok t => rfl
    rw [← hstep]
    exact ih.tail (hguard u request)

theorem ServerReachable.mono {guard other : Server → Event → Prop}
    (h : ServerReachable guard v) (hg : ∀ x e, guard x e → other x e) :
    ServerReachable other v := by
  obtain ⟨db₀, h₀, hr⟩ := h
  exact ⟨db₀, h₀, hr.mono hg⟩

theorem ServerReachable.step {guard : Server → Event → Prop} (h : ServerReachable guard v)
    (hg : guard v e) (hstep : serverStep v e = .ok w) : ServerReachable guard w := by
  obtain ⟨db₀, h₀, hr⟩ := h
  have htail := hr.tail hg
  rw [hstep] at htail
  exact ⟨db₀, h₀, htail⟩

theorem ServerReachable.run {guard : Server → Event → Prop} (h : ServerReachable guard v)
    (hr : Runs serverStep guard v w) : ServerReachable guard w := by
  obtain ⟨db₀, h₀, hr₀⟩ := h
  exact ⟨db₀, h₀, hr₀.trans hr⟩

end Runs

end ConcurrentRequests
