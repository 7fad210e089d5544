import ApiManagement.StoreCopies
import ApiManagement.UserOperations

/-! # Services and their iterations

The handlers of services, maintainers and iterations. An iteration starts as a copy of the
live apis into the draft tables; its commit deletes the live apis of the service and copies
the drafts back. -/
namespace ServiceOperations

open TransactionRuns KeyedTables ParentLinkedRows PythonRuntime ServiceSchema ApiStores
  UserOperations

structure ServiceDetail where
  service : Service
  owner : Option UserInfo
  maintainers : List UserInfo
  iterations : List ServiceIteration
  apiCategories : List ApiCategory
  apis : List Api

structure IterationDetail where
  iteration : ServiceIteration
  service : Option Service
  creator : Option UserInfo
  apiDrafts : List ApiDraft

def serviceToJson (env : Environment) (db : Database) (s : Service) : ServiceDetail where
  service := s
  owner := (db.users.find? s.ownerId).map userToJson
  maintainers := (env.fetch (maintainers db s.id)).map userToJson
  iterations := env.fetch (db.iterations.rows.filter (fun i => i.serviceId == s.id))
  apiCategories := env.fetch (db.categories.rows.filter (fun c => c.serviceId == s.id))
  apis := env.fetch (db.live.apisOf s.id)

def iterationToJson (env : Environment) (db : Database) (i : ServiceIteration) :
    IterationDetail where
  iteration := i
  service := db.services.find? i.serviceId
  creator := (i.creatorId.bind db.users.find?).map userToJson
  apiDrafts := env.fetch (db.drafts.apisOf i.id)

def checkServiceIterationPermission (db : Database) (iterationId userId : ℕ) :
    Tx (ServiceIteration × Option User) := do
  let iteration ← orAbort (db.iterations.find? iterationId)
    (.reply (-10) "Service iteration not found or committed")
  require (!iteration.isCommitted) (.reply (-10) "Service iteration not found or committed")
  require (!iteration.isCommitted) (.reply (-20) "Service iteration has been committed")
  let service ← orAbort (db.services.find? iteration.serviceId) (.raised .attributeError)
  let user := db.users.find? userId
  requireLevelZeroIf (service.ownerId != userId && iteration.creatorId != some userId) user
    (.reply (-30)
      "You are neither the owner of this service, nor the creator of this service iteration")
  pure (iteration, user)

def serviceCreateNewService (env : Environment) (serviceUuid : String) (ownerId : ℕ)
    (description : Option String) (db : Database) : Tx (Database × Reply ServiceDetail) := do
  require (!db.services.rows.any (fun s => s.serviceUuid.val == serviceUuid))
    (.reply (-1) "Service UUID already exists")
  let uuid ← bound (VarChar.ofString 64 serviceUuid)
  let version ← bound (VarChar.ofString 32 "0.0.1")
  require (db.users.contains ownerId) (.raised .integrityError)
  let service : Service := ⟨db.services.next, ownerId, uuid, version, description, false, none⟩
  let db' := { db with services := db.services.insert service }
  pure (db', ⟨200, "Create service success", serviceToJson env db' service⟩)

def serviceAddOrRemoveServiceMaintainerById (serviceId userId candidateId : ℕ) (db : Database) :
    Tx (Database × Reply Bool) := do
  let service ← orAbort (db.services.find? serviceId) (.reply (-1) "Service not found")
  requireLevelZeroIf (service.ownerId != userId) (db.users.find? userId)
    (.reply (-2) "You are not the owner of this service")
  require (service.ownerId != candidateId)
    (.reply (-4) "Service owner cannot be added as a maintainer")
  let candidate ← orAbort (db.users.find? candidateId) (.reply (-3) "Candidate not found")
  if isMaintainer db service.id (some candidate) then
    pure ({ db with userServiceLink := db.userServiceLink.erase (candidate.id, service.id) },
      ⟨200, "Remove service maintainer success", false⟩)
  else
    pure ({ db with userServiceLink := insert (candidate.id, service.id) db.userServiceLink },
      ⟨200, "Add service maintainer success", true⟩)

def setDeleted (at? : Option ℕ) (s : Service) : Service :=
  { s with isDeleted := at?.isSome, deletedAt := at? }

def serviceDeleteServiceById (env : Environment) (id userId : ℕ) (db : Database) :
    Tx (Database × Reply Unit) := do
  let service ← orAbort (db.services.find? id) (.reply (-1) "Service not found")
  requireLevelZeroIf (service.ownerId != userId) (db.users.find? userId)
    (.reply (-2) "You are not the owner of this service")
  pure ({ db with
    services := db.services.update service.id (setDeleted (some env.now)) (fun _ => rfl) },
    ⟨200, "Delete service success", ()⟩)

def serviceRestoreServiceById (id userId : ℕ) (db : Database) : Tx (Database × Reply Unit) := do
  let service ← orAbort (db.services.find? id) (.reply (-1) "Service not found")
  requireLevelZeroIf (service.ownerId != userId) (db.users.find? userId)
    (.reply (-2) "You are not the owner of this service")
  require service.isDeleted (.reply (-3) "Service is not deleted")
  pure ({ db with services := db.services.update service.id (setDeleted none) (fun _ => rfl) },
    ⟨200, "Restore service success", ()⟩)

/-- `db.delete(iteration)` first sets the foreign key of its drafts to NULL, which the
column does not take. -/
def serviceDeleteIterationById (iterationId userId : ℕ) (db : Database) :
    Tx (Database × Reply Unit) := do
  let iteration ← orAbort (db.iterations.find? iterationId)
    (.reply (-1) "No service iteration found")
  let service ← orAbort (db.services.find? iteration.serviceId) (.raised .attributeError)
  requireLevelZeroIf (service.ownerId != userId && iteration.creatorId != some userId)
    (db.users.find? userId)
    (.reply (-2)
      "You are neither the owner of this service, nor the creator of this service iteration")
  require (db.drafts.apisOf iteration.id).isEmpty (.raised .integrityError)
  pure ({ db with iterations := db.iterations.restrict (fun i => i.id != iteration.id) },
    ⟨200, "Delete service iteration success", ()⟩)

def insertIteration (serviceId userId : ℕ) (db : Database) : Database :=
  { db with iterations := db.iterations.insert ⟨0, serviceId, some userId, none, none, false⟩ }

/-- The writes of `serviceStartIteration`: a new iteration, and in it a draft of each live
api of the service. -/
def startNewIteration (env : Environment) (serviceId userId : ℕ) (db : Database) :
    Tx Database := do
  require (db.services.contains serviceId && db.users.contains userId) (.raised .integrityError)
  let db' := insertIteration serviceId userId db
  let drafts ← copyApis env (draftReferences db') db.live
    (env.fetch (db.live.apisOf serviceId)) db.iterations.next db.drafts
  pure { db' with drafts := drafts }

def openIterations (db : Database) (serviceId userId : ℕ) : List ServiceIteration :=
  db.iterations.rows.filter (fun i =>
    i.serviceId == serviceId && !i.isCommitted && i.creatorId == some userId)

def serviceStartIteration (env : Environment) (serviceId userId : ℕ) (db : Database) :
    Tx (Database × Reply ℕ) := do
  let service ← orAbort (db.services.find? serviceId) (.reply (-1) "Service not found")
  let user := db.users.find? userId
  requireLevelZeroIf (service.ownerId != userId && !isMaintainer db service.id user) user
    (.reply (-2) "You are neither the owner nor the maintainer of this service")
  match (env.fetch (openIterations db serviceId userId)).head? with
  | some iteration =>
    pure (db, ⟨201, "You have an uncommitted service iteration in progress", iteration.id⟩)
  | none => do
    let db' ← startNewIteration env serviceId userId db
    pure (db', ⟨200, "Start service iteration success", db.iterations.next⟩)

def publish (description : Option String) (version : VarChar 32) (s : Service) : Service :=
  { s with description := description, version := version }

def markCommitted (version : VarChar 32) (i : ServiceIteration) : ServiceIteration :=
  { i with version := some version, isCommitted := true }

/-- The writes of `serviceCommitIteration` up to `db.commit()`. -/
def commitDatabase (env : Environment) (iteration : ServiceIteration) (service : Service)
    (newVersion : String) (db : Database) : Tx Database := do
  let version ← bound (VarChar.ofString 32 newVersion)
  let cleared := deleteApis (fun a => a.container == service.id) db.live
  let live ← copyApis env (liveReferences db) db.drafts
    (env.fetch (db.drafts.apisOf iteration.id)) service.id cleared
  pure { db with
    services := db.services.update service.id (publish iteration.description version)
      (fun _ => rfl)
    iterations := db.iterations.update iteration.id (markCommitted version) (fun _ => rfl)
    live := live }

/-- The mail sent after the commit: its body names the acting user, and its recipients are
the owner's address, NULL or not, and the non-empty ones of the maintainers. -/
def notifyMaintainers (env : Environment) (db : Database) (service : Service)
    (user : Option User) : Except Raised Unit := do
  let owner ← orAbort (db.users.find? service.ownerId) .attributeError
  let _ ← orAbort user .attributeError
  let recipients := owner.email ::
    ((maintainers db service.id).map User.email).filter (fun e => e.any (fun v => v.val != ""))
  require (!(env.mailConfigured && recipients.contains none)) .typeError

structure CommitInfo where
  serviceId : ℕ
  serviceIterationId : ℕ
  version : String
  deriving DecidableEq

/-- The failure of the permission check is returned as the check's whole result. -/
def asCheckResult {α : Type} : Tx α → Tx α
  | .error (.reply status message) => .error (.checkResult status message)
  | x => x

@[simp] theorem asCheckResult_eq_ok {α : Type} {x : Tx α} {a : α} :
    asCheckResult x = .ok a ↔ x = .ok a := by
  cases x with
  | ok b => simp [asCheckResult]
  | error e => cases e <;> simp [asCheckResult]

/-- The second component is what happens after the commit. -/
def serviceCommitIteration (env : Environment) (iterationId : ℕ) (newVersion : String)
    (userId : ℕ) (db : Database) : Tx (Database × Except Raised (Reply CommitInfo)) := do
  let (iteration, user) ← asCheckResult (checkServiceIterationPermission db iterationId userId)
  let service ← orAbort (db.services.find? iteration.serviceId) (.raised .attributeError)
  require (newVersion != service.version.val)
    (.reply (-1) "New version is the same as current version")
  let db' ← commitDatabase env iteration service newVersion db
  pure (db', do
    notifyMaintainers env db' service user
    pure ⟨200, "Commit service iteration success", ⟨service.id, iteration.id, newVersion⟩⟩)

def setDescription (description : Option String) (i : ServiceIteration) : ServiceIteration :=
  { i with description := description }

def serviceUpdateDescription (iterationId : ℕ) (description : Option String) (userId : ℕ)
    (db : Database) : Tx (Database × Reply Unit) := do
  let (iteration, _) ← checkServiceIterationPermission db iterationId userId
  pure ({ db with
    iterations := db.iterations.update iteration.id (setDescription description) (fun _ => rfl) },
    ⟨200, "Update service description success", ()⟩)

/-- What `serviceGetServiceByUuidAndVersion` serializes: the service for its latest version,
an iteration for an earlier one. -/
inductive VersionDetail where
  | latest (detail : ServiceDetail)
  | earlier (detail : IterationDetail)

def VersionDetail.isLatest : VersionDetail → Bool
  | .latest _ => true
  | .earlier _ => false

def VersionDetail.apis : VersionDetail → List ApiRow
  | .latest d => d.apis
  | .earlier d => d.apiDrafts

def serviceGetServiceByUuidAndVersion (env : Environment) (serviceUuid version : String)
    (userId : ℕ) (db : Database) : Tx (Reply VersionDetail) := do
  let uuid := strip (unquote serviceUuid)
  let service ← orAbort (env.fetch (db.services.rows.filter (fun s =>
    s.serviceUuid.val == uuid && !s.isDeleted))).head? (.reply (-1) "Service not found")
  let user := db.users.find? userId
  let stranger := service.ownerId != userId && !isMaintainer db service.id user
  if service.version.val == version || version == "latest" then do
    let above ← levelAboveZeroIf stranger user
    require (!above)
      (.reply (-3) "You are neither the owner nor the maintainer of this service")
    pure ⟨200, "Get service success", .latest (serviceToJson env db service)⟩
  else do
    let iteration ← orAbort (env.fetch (db.iterations.rows.filter (fun i =>
      i.serviceId == service.id && i.version.any (fun v => v.val == version)))).head?
      (.reply (-2) "Service version not found")
    let above ← levelAboveZeroIf stranger user
    require (!(above && iteration.creatorId != some userId))
      (.reply (-4) "You are not the creator of this service iteration")
    pure ⟨200, "Get service success", .earlier (iterationToJson env db iteration)⟩

structure VersionEntry where
  version : Option String
  isLatest : Bool
  deriving DecidableEq

/-- The latest version first, then the other iterations by descending id, those without a
version included. -/
def serviceGetAllVersionsByUuid (env : Environment) (serviceUuid : String) (userId : ℕ)
    (db : Database) : Tx (Reply (List VersionEntry)) := do
  let uuid := strip (unquote serviceUuid)
  let service ← orAbort (env.fetch (db.services.rows.filter (fun s =>
    s.serviceUuid.val == uuid && !s.isDeleted))).head? (.reply (-1) "Service not found")
  let iterations := (db.iterations.rows.filter (fun i => i.serviceId == service.id)).mergeSort
    (fun i j => j.id ≤ i.id)
  let user := db.users.find? userId
  requireLevelZeroIf (service.ownerId != userId && !isMaintainer db service.id user) user
    (.reply (-2) "You are neither the owner nor the maintainer of this service")
  let others := (iterations.map (fun i => i.version.map VarChar.val)).filter
    (fun v => v != some service.version.val)
  pure ⟨200, "Get service versions success",
    ⟨some service.version.val, true⟩ :: others.map (fun v => ⟨v, false⟩)⟩

end ServiceOperations
