import ApiManagement.OpenapiExport
import ApiManagement.OperationRuns
import Mathlib.Algebra.Group.Int.Defs

/-! # Reading, and what a caller is told

The handlers that change nothing, and for every operation of the service layer the response its
caller gets: a reply, a failure or an exception. -/
namespace ReadOperations

open TransactionRuns KeyedTables PythonRuntime ServiceSchema UserOperations ServiceOperations
  ApiOperations OpenapiExport OperationRuns

/-- `ilike` is the operator of that name on a text and a pattern, `collate` the collation of the
database, and `accessToken` signs the id and the name of a user. -/
structure Surroundings extends Environment where
  ilike : String → String → Bool
  collate : String → String → Ordering
  accessToken : ℕ → VarChar 64 → Tx String
  numerals : Numerals

def userGetUserById (id : ℕ) (db : Database) : Tx (Reply UserInfo) := do
  let user ← orAbort (db.users.find? id) (.reply (-1) "User not found")
  pure ⟨200, "Get user success", userToJson user⟩

def compareColumn (collate : String → String → Ordering) : Option String → Option String → Ordering
  | none, none => .eq
  | none, some _ => .gt
  | some _, none => .lt
  | some a, some b => collate a b

def userGetUserByUsernameOrNicknameOrEmail (out : Surroundings)
    (usernameOrNicknameOrEmail : String) (db : Database) : Tx (Reply (List UserInfo)) := do
  let keyword := strip (unquote usernameOrNicknameOrEmail)
  let pattern := "%" ++ keyword ++ "%"
  let nickname := fun (u : User) => u.nickname.map VarChar.val
  let email := fun (u : User) => u.email.map VarChar.val
  let found := out.fetch (db.users.rows.filter (fun u => out.ilike u.username.val pattern ||
    (nickname u).any (out.ilike · pattern) || (email u).any (out.ilike · pattern)))
  let order := fun (u v : User) => ((compareColumn out.collate (nickname u) (nickname v)).then
    (out.collate u.username.val v.username.val)).then
      (compareColumn out.collate (email u) (email v))
  pure ⟨200, "Get users success", (found.mergeSort (fun u v => order u v != .gt)).map userToJson⟩

def userLogin (out : Surroundings) (username password : String) (db : Database) :
    Tx (Reply String) := do
  let user ← orAbort (out.fetch (db.users.rows.filter (fun u =>
    u.username.val == username || u.email.any (fun v => v.val == username)))).head?
    (.reply (-1) "User not found")
  require (out.checkPassword password user.password.val) (.reply (-2) "Wrong password")
  let token ← out.accessToken user.id user.username
  pure ⟨200, "Login success", token⟩

/-- `LIMIT` and `OFFSET` are 64-bit; the database refuses a negative one. -/
def page {α : Type} (pageSize currentPage : ℤ) (rows : List α) : Tx (List α) := do
  let offset := (currentPage - 1) * pageSize
  require (0 ≤ pageSize && pageSize < 2 ^ 63 && 0 ≤ offset && offset < 2 ^ 63)
    (.raised .dataError)
  pure ((rows.drop offset.toNat).take pageSize.toNat)

structure ServiceEntry where
  id : ℕ
  serviceUuid : VarChar 64
  version : VarChar 32
  description : Option String
  ownerId : ℕ
  owner : Option (Option UserInfo)
  isDeleted : Bool
  deletedAt : Option (Option ℕ)

def serviceEntry (withOwner withDeletedAt : Bool) (db : Database) (s : Service) : ServiceEntry where
  id := s.id
  serviceUuid := s.serviceUuid
  version := s.version
  description := s.description
  ownerId := s.ownerId
  owner := if withOwner then some ((db.users.find? s.ownerId).map userToJson) else none
  isDeleted := s.isDeleted
  deletedAt := if withDeletedAt then some s.deletedAt else none

structure ServicePage where
  services : List ServiceEntry
  total : ℕ

def newestFirst (services : List Service) : List Service :=
  services.mergeSort (fun s t => t.id ≤ s.id)

def serviceGetAllServices (userId : ℕ) (pageSize currentPage : ℤ) (db : Database) :
    Tx (Reply ServicePage) := do
  requireLevelZeroIf true (db.users.find? userId)
    (.reply (-1) "You don't have permission to view all services")
  let services ← page pageSize currentPage (newestFirst db.services.rows)
  pure ⟨200, "Get services success",
    services.map (serviceEntry true true db), db.services.rows.length⟩

/-- The level is read before the ids are compared. -/
def requireSelfOrLevelZero (db : Database) (userId myId : ℕ) (failure : Abort) : Tx Unit := do
  let user ← orAbort (db.users.find? myId) (.raised .attributeError)
  require (!(user.level != .l0 && userId != myId)) failure

def serviceGetHisNewestServicesByOwnerId (ownerId myId : ℕ) (pageSize currentPage : ℤ)
    (db : Database) : Tx (Reply ServicePage) := do
  requireSelfOrLevelZero db ownerId myId
    (.reply (-1) "You are not the owner of these services")
  let owned := db.services.rows.filter (fun s => !s.isDeleted && s.ownerId == ownerId)
  let services ← page pageSize currentPage (newestFirst owned)
  pure ⟨200, "Get services success",
    services.map (serviceEntry (ownerId != myId) false db), owned.length⟩

def serviceGetHisMaintainedServicesByUserId (userId myId : ℕ) (pageSize currentPage : ℤ)
    (db : Database) : Tx (Reply ServicePage) := do
  requireSelfOrLevelZero db userId myId
    (.reply (-1) "You don't have authorization to view other users' maintained services")
  let maintained := db.services.rows.filter (fun s =>
    !s.isDeleted && (maintainers db s.id).any (fun u => u.id == userId))
  let services ← page pageSize currentPage (newestFirst maintained)
  pure ⟨200, "Get services success",
    services.map (serviceEntry true false db), maintained.length⟩

def deletedLater (s t : Service) : Bool :=
  match s.deletedAt, t.deletedAt with
  | none, _ => true
  | some _, none => false
  | some a, some b => b ≤ a

def serviceGetAllDeletedServicesByUserId (env : Environment) (userId : ℕ)
    (pageSize currentPage : ℤ) (db : Database) : Tx (Reply ServicePage) := do
  let deleted := db.services.rows.filter (fun s => s.isDeleted && s.ownerId == userId)
  let services ← page pageSize currentPage ((env.fetch deleted).mergeSort deletedLater)
  pure ⟨200, "Get deleted services success",
    services.map (serviceEntry false true db), deleted.length⟩

def serviceGetServiceById (env : Environment) (id userId : ℕ) (db : Database) :
    Tx (Reply ServiceDetail) := do
  let service ← orAbort (db.services.find? id) (.reply (-1) "Service not found")
  requireLevelZeroIf (service.ownerId != userId) (db.users.find? userId)
    (.reply (-2) "You are not the owner of this service")
  pure ⟨200, "Get service success", serviceToJson env db service⟩

def serviceIsMaintainer (serviceId userId candidateId : ℕ) (db : Database) : Tx (Reply Bool) := do
  let service ← orAbort (db.services.find? serviceId) (.reply (-1) "Service not found")
  requireLevelZeroIf (service.ownerId != userId) (db.users.find? userId)
    (.reply (-2) "You are not the owner of this service")
  pure ⟨200, "Check service maintainer success",
    isMaintainer db service.id (db.users.find? candidateId)⟩

def serviceGetServiceIterationById (env : Environment) (id userId : ℕ) (db : Database) :
    Tx (Reply IterationDetail) := do
  let iteration ← orAbort (db.iterations.find? id) (.reply (-1) "Service iteration not found")
  let service ← orAbort (db.services.find? iteration.serviceId) (.raised .attributeError)
  requireLevelZeroIf (iteration.creatorId != some userId && service.ownerId != userId)
    (db.users.find? userId)
    (.reply (-2)
      "You are neither the owner of this service, nor the creator of this service iteration")
  require (!iteration.isCommitted) (.reply (-3) "Service iteration has been committed")
  pure ⟨200, "Get service iteration success", iterationToJson env db iteration⟩

def loadApi (env : Environment) (st : ApiStore) (api : ApiRow) : LoadedApi :=
  ⟨api, env.fetch (st.requestParamsOf api.id), env.fetch (st.responseParamsOf api.id)⟩

def exportSource (env : Environment) (db : Database) : VersionDetail → Tx ExportSource
  | .latest d =>
    pure ⟨d.service.serviceUuid.val, some (d.service.description.getD ""), d.owner,
      some d.service.version.val, d.apis.map (loadApi env db.live)⟩
  | .earlier d => do
    let service ← orAbort d.service (.raised .attributeError)
    pure ⟨service.serviceUuid.val, (truthyText d.iteration.description).or service.description,
      d.creator, d.iteration.version.map VarChar.val, d.apiDrafts.map (loadApi env db.drafts)⟩

structure ExportedVersion where
  openapiObject : JsonValue
  isLatest : Bool

def serviceExportOpenapiByUuidAndVersion (out : Surroundings) (serviceUuid version : String)
    (userId : ℕ) (db : Database) : Tx (Reply ExportedVersion) := do
  let found ← serviceGetServiceByUuidAndVersion out.toEnvironment serviceUuid version userId db
  let source ← exportSource out.toEnvironment db found.data
  let openapi ← openapiTemplate out.numerals source
  pure ⟨200, "Get service success", openapi, found.data.isLatest⟩

def apiGetAllCategoriesByServiceId (serviceId userId : ℕ) (db : Database) :
    Tx (Reply (List ApiCategory)) := do
  let service ← orAbort (db.services.find? serviceId) (.reply (-1) "Service not found")
  requireLevelZeroIf (service.ownerId != userId) (db.users.find? userId)
    (.reply (-2) "You are not the owner of this service")
  pure ⟨200, "Get all categories success",
    (db.categories.rows.filter (fun c => c.serviceId == serviceId)).mergeSort
      (fun c d => c.id ≤ d.id)⟩

/-- The query names a column `is_deleted`, which the class `Api` does not have. -/
def apiGetAllApisByServiceId (serviceId userId : ℕ) (_categoryId : Option ℕ) (db : Database) :
    Tx (Reply (List Api)) := do
  let service ← orAbort (db.services.find? serviceId) (.reply (-1) "Service not found")
  requireLevelZeroIf (service.ownerId != userId) (db.users.find? userId)
    (.reply (-2) "You are not the owner of this service")
  .error (.raised .attributeError)

inductive Query where
  | userGetUserById (id : ℕ)
  | userGetUserByUsernameOrNicknameOrEmail (keyword : String)
  | userLogin (username password : String)
  | serviceGetAllServices (userId : ℕ) (pageSize currentPage : ℤ)
  | serviceGetServiceById (id userId : ℕ)
  | serviceGetHisNewestServicesByOwnerId (ownerId myId : ℕ) (pageSize currentPage : ℤ)
  | serviceGetHisMaintainedServicesByUserId (userId myId : ℕ) (pageSize currentPage : ℤ)
  | serviceGetServiceByUuidAndVersion (serviceUuid version : String) (userId : ℕ)
  | serviceGetAllVersionsByUuid (serviceUuid : String) (userId : ℕ)
  | serviceGetAllDeletedServicesByUserId (userId : ℕ) (pageSize currentPage : ℤ)
  | serviceIsMaintainer (serviceId userId candidateId : ℕ)
  | serviceGetServiceIterationById (id userId : ℕ)
  | serviceExportOpenapiByUuidAndVersion (serviceUuid version : String) (userId : ℕ)
  | apiGetAllCategoriesByServiceId (serviceId userId : ℕ)
  | apiGetAllApisByServiceId (serviceId userId : ℕ) (categoryId : Option ℕ)
  | apiGetApiById (apiId userId : ℕ) (isLatest : Bool)

inductive Call where
  | query (q : Query)
  | operation (o : Operation)

/-- The reply of a call that neither fails nor raises; after a commit, sending the mail may still
raise. -/
def Answer : Call → Type
  | .query (.userGetUserById _) => Reply UserInfo
  | .query (.userGetUserByUsernameOrNicknameOrEmail _) => Reply (List UserInfo)
  | .query (.userLogin _ _) => Reply String
  | .query (.serviceGetAllServices _ _ _) => Reply ServicePage
  | .query (.serviceGetServiceById _ _) => Reply ServiceDetail
  | .query (.serviceGetHisNewestServicesByOwnerId _ _ _ _) => Reply ServicePage
  | .query (.serviceGetHisMaintainedServicesByUserId _ _ _ _) => Reply ServicePage
  | .query (.serviceGetServiceByUuidAndVersion _ _ _) => Reply VersionDetail
  | .query (.serviceGetAllVersionsByUuid _ _) => Reply (List VersionEntry)
  | .query (.serviceGetAllDeletedServicesByUserId _ _ _) => Reply ServicePage
  | .query (.serviceIsMaintainer _ _ _) => Reply Bool
  | .query (.serviceGetServiceIterationById _ _) => Reply IterationDetail
  | .query (.serviceExportOpenapiByUuidAndVersion _ _ _) => Reply ExportedVersion
  | .query (.apiGetAllCategoriesByServiceId _ _) => Reply (List ApiCategory)
  | .query (.apiGetAllApisByServiceId _ _ _) => Reply (List Api)
  | .query (.apiGetApiById _ _ _) => Reply ApiDetail
  | .operation (.serviceCreateNewService _ _ _) => Reply ServiceDetail
  | .operation (.serviceAddOrRemoveServiceMaintainerById _ _ _) => Reply Bool
  | .operation (.serviceStartIteration _ _) => Reply ℕ
  | .operation (.serviceCommitIteration _ _ _) => Except Raised (Reply CommitInfo)
  | .operation (.apiAddCategoryByServiceId _ _ _ _) => Reply ApiCategory
  | .operation (.apiUpdateCategoryById _ _ _ _) => Reply ApiCategory
  | .operation (.apiAddApi _ _ _ _ _ _ _ _) => Reply ApiDraft
  | .operation _ => Reply Unit

/-- Whose access token the request carries; the handlers without one do not ask. -/
def caller : Call → Option ℕ
  | .query (.userGetUserById _) => none
  | .query (.userGetUserByUsernameOrNicknameOrEmail _) => none
  | .query (.userLogin _ _) => none
  | .query (.serviceGetAllServices userId _ _) => some userId
  | .query (.serviceGetServiceById _ userId) => some userId
  | .query (.serviceGetHisNewestServicesByOwnerId _ myId _ _) => some myId
  | .query (.serviceGetHisMaintainedServicesByUserId _ myId _ _) => some myId
  | .query (.serviceGetServiceByUuidAndVersion _ _ userId) => some userId
  | .query (.serviceGetAllVersionsByUuid _ userId) => some userId
  | .query (.serviceGetAllDeletedServicesByUserId userId _ _) => some userId
  | .query (.serviceIsMaintainer _ userId _) => some userId
  | .query (.serviceGetServiceIterationById _ userId) => some userId
  | .query (.serviceExportOpenapiByUuidAndVersion _ _ userId) => some userId
  | .query (.apiGetAllCategoriesByServiceId _ userId) => some userId
  | .query (.apiGetAllApisByServiceId _ userId _) => some userId
  | .query (.apiGetApiById _ userId _) => some userId
  | .operation (.userRegister _ _ _ _ _) => none
  | .operation (.userModifyPassword userId _ _) => some userId
  | .operation (.serviceCreateNewService _ userId _) => some userId
  | .operation (.serviceAddOrRemoveServiceMaintainerById _ userId _) => some userId
  | .operation (.serviceDeleteServiceById _ userId) => some userId
  | .operation (.serviceRestoreServiceById _ userId) => some userId
  | .operation (.serviceDeleteIterationById _ userId) => some userId
  | .operation (.serviceStartIteration _ userId) => some userId
  | .operation (.serviceCommitIteration _ _ userId) => some userId
  | .operation (.serviceUpdateDescription _ _ userId) => some userId
  | .operation (.apiAddCategoryByServiceId _ userId _ _) => some userId
  | .operation (.apiDeleteCategoryById _ userId) => some userId
  | .operation (.apiUpdateCategoryById _ userId _ _) => some userId
  | .operation (.apiUpdateApiCategory _ _ userId) => some userId
  | .operation (.apiAddApi _ userId _ _ _ _ _ _) => some userId
  | .operation (.apiCopyApiByApiDraftId _ _ userId) => some userId
  | .operation (.apiDeleteApiByApiDraftId _ _ userId) => some userId
  | .operation (.apiUpdateApiByApiDraftId _ _ userId _ _ _ _ _ _ _) => some userId

def respond (out : Surroundings) (db : Database) : (c : Call) → Tx (Answer c)
  | .query (.userGetUserById id) => userGetUserById id db
  | .query (.userGetUserByUsernameOrNicknameOrEmail keyword) =>
    userGetUserByUsernameOrNicknameOrEmail out keyword db
  | .query (.userLogin username password) => userLogin out username password db
  | .query (.serviceGetAllServices userId pageSize currentPage) =>
    serviceGetAllServices userId pageSize currentPage db
  | .query (.serviceGetServiceById id userId) =>
    serviceGetServiceById out.toEnvironment id userId db
  | .query (.serviceGetHisNewestServicesByOwnerId ownerId myId pageSize currentPage) =>
    serviceGetHisNewestServicesByOwnerId ownerId myId pageSize currentPage db
  | .query (.serviceGetHisMaintainedServicesByUserId userId myId pageSize currentPage) =>
    serviceGetHisMaintainedServicesByUserId userId myId pageSize currentPage db
  | .query (.serviceGetServiceByUuidAndVersion serviceUuid version userId) =>
    serviceGetServiceByUuidAndVersion out.toEnvironment serviceUuid version userId db
  | .query (.serviceGetAllVersionsByUuid serviceUuid userId) =>
    serviceGetAllVersionsByUuid out.toEnvironment serviceUuid userId db
  | .query (.serviceGetAllDeletedServicesByUserId userId pageSize currentPage) =>
    serviceGetAllDeletedServicesByUserId out.toEnvironment userId pageSize currentPage db
  | .query (.serviceIsMaintainer serviceId userId candidateId) =>
    serviceIsMaintainer serviceId userId candidateId db
  | .query (.serviceGetServiceIterationById id userId) =>
    serviceGetServiceIterationById out.toEnvironment id userId db
  | .query (.serviceExportOpenapiByUuidAndVersion serviceUuid version userId) =>
    serviceExportOpenapiByUuidAndVersion out serviceUuid version userId db
  | .query (.apiGetAllCategoriesByServiceId serviceId userId) =>
    apiGetAllCategoriesByServiceId serviceId userId db
  | .query (.apiGetAllApisByServiceId serviceId userId categoryId) =>
    apiGetAllApisByServiceId serviceId userId categoryId db
  | .query (.apiGetApiById apiId userId isLatest) =>
    apiGetApiById out.toEnvironment apiId userId isLatest db
  | .operation (.userRegister username password nickname email role) =>
    Prod.snd <$> userRegister out.toEnvironment username password nickname email role db
  | .operation (.userModifyPassword userId oldPassword newPassword) =>
    Prod.snd <$> userModifyPassword out.toEnvironment userId oldPassword newPassword db
  | .operation (.serviceCreateNewService serviceUuid userId description) =>
    Prod.snd <$> serviceCreateNewService out.toEnvironment serviceUuid userId description db
  | .operation (.serviceAddOrRemoveServiceMaintainerById serviceId userId candidateId) =>
    Prod.snd <$> serviceAddOrRemoveServiceMaintainerById serviceId userId candidateId db
  | .operation (.serviceDeleteServiceById serviceId userId) =>
    Prod.snd <$> serviceDeleteServiceById out.toEnvironment serviceId userId db
  | .operation (.serviceRestoreServiceById serviceId userId) =>
    Prod.snd <$> serviceRestoreServiceById serviceId userId db
  | .operation (.serviceDeleteIterationById iterationId userId) =>
    Prod.snd <$> serviceDeleteIterationById iterationId userId db
  | .operation (.serviceStartIteration serviceId userId) =>
    Prod.snd <$> serviceStartIteration out.toEnvironment serviceId userId db
  | .operation (.serviceCommitIteration iterationId newVersion userId) =>
    Prod.snd <$> serviceCommitIteration out.toEnvironment iterationId newVersion userId db
  | .operation (.serviceUpdateDescription iterationId description userId) =>
    Prod.snd <$> serviceUpdateDescription iterationId description userId db
  | .operation (.apiAddCategoryByServiceId serviceId userId name description) =>
    Prod.snd <$> apiAddCategoryByServiceId serviceId userId name description db
  | .operation (.apiDeleteCategoryById categoryId userId) =>
    Prod.snd <$> apiDeleteCategoryById categoryId userId db
  | .operation (.apiUpdateCategoryById categoryId userId name description) =>
    Prod.snd <$> apiUpdateCategoryById categoryId userId name description db
  | .operation (.apiUpdateApiCategory apiId categoryId userId) =>
    Prod.snd <$> apiUpdateApiCategory apiId categoryId userId db
  | .operation (.apiAddApi iterationId userId name method path description level categoryId) =>
    Prod.snd <$> apiAddApi iterationId userId name method path description level categoryId db
  | .operation (.apiCopyApiByApiDraftId iterationId apiDraftId userId) =>
    Prod.snd <$> apiCopyApiByApiDraftId out.toEnvironment iterationId apiDraftId userId db
  | .operation (.apiDeleteApiByApiDraftId iterationId apiDraftId userId) =>
    Prod.snd <$> apiDeleteApiByApiDraftId iterationId apiDraftId userId db
  | .operation (.apiUpdateApiByApiDraftId iterationId apiDraftId userId name method path
      description level reqParams respParams) =>
    Prod.snd <$> apiUpdateApiByApiDraftId out.toEnvironment iterationId apiDraftId userId name
      method path description level reqParams respParams db

def plainSurroundings : Surroundings where
  toEnvironment := plainEnvironment
  ilike s pattern := decide ((pattern.toLower.toList.drop 1).dropLast <:+: s.toLower.toList)
  collate s t := compare s t
  accessToken _ username := pure username.val
  numerals := ⟨String.toInt?, fun _ => none⟩

end ReadOperations
