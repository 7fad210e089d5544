import ApiManagement.ReadOperations
import ApiManagement.Serialization

/-! # The routes of the backend

What a request of the web is before a handler of the service layer sees it: the route is found by
verb and path, the access token is checked, the query parameters and the members of the body are
taken apart, and the acting user is read from the token once more. -/
namespace HttpRoutes

open TransactionRuns KeyedTables PythonRuntime ServiceSchema UserOperations OpenapiExport
  OperationRuns ReadOperations Serialization

inductive Verb where
  | get | post
  deriving DecidableEq

structure HttpRequest where
  verb : Verb
  path : String
  authorization : Option String
  queryParams : String → Option String
  body : JsonValue

/-- `getToken` is what the token getter of the web framework finds in the header, `tokenId` the
id in the payload of an access token that verifies. -/
structure Web extends Surroundings where
  getToken : Option String → Option String
  tokenId : String → Option ℕ
  lower : String → String
  jsonLoads : String → Option JsonValue

/-- A request that does not get to a handler: status 404, 401, 400 and 500. -/
inductive Refusal where
  | notFound
  | unauthorized
  | badRequest (description : String)
  | failed
  deriving DecidableEq

abbrev Routed := Except Refusal

def splitText (separator : List Char) : ℕ → List Char → List (List Char)
  | 0, s => [s]
  | n + 1, s =>
    match s.dropInfix? separator with
    | none => [s]
    | some (before, after) => before :: splitText separator n after

def bearer : List Char := "Bearer ".toList

def handlerToken (authorization : Option String) : Option String := do
  let header ← authorization
  if bearer.isPrefixOf header.toList then
    ((splitText bearer header.length header.toList)[1]?).map String.ofList
  else none

def userGetUserIdByAccessToken (web : Web) (request : HttpRequest) : Routed ℕ := do
  let token ← orAbort (handlerToken request.authorization) .failed
  orAbort (web.tokenId token) .failed

/-- The least level for a path, which only some paths have. -/
def apiPermissionMap : List (String × UserLevel) := [("/v1/user/getUserById", .l0)]

def authenticate (web : Web) (db : Database) (request : HttpRequest) :
    Routed (Option UserInfo) :=
  match web.tokenId ((web.getToken request.authorization).getD "") with
  | none => pure none
  | some id => do
    let user ← orAbort ((userGetUserById id db).toOption.map Reply.data) .failed
    let refused := (apiPermissionMap.lookup request.path).any
      (fun level => userLevelValue level < userLevelValue user.level)
    pure (if refused then none else some user)

def required (request : HttpRequest) (names : List String) (description : String) :
    Routed Unit :=
  require (names.all (fun n => (truthyText (request.queryParams n)).isSome))
    (.badRequest description)

def HttpRequest.param (request : HttpRequest) (name : String) : String :=
  (request.queryParams name).getD ""

def intText (web : Web) (s : String) : Routed ℤ := orAbort (web.numerals.int s) .failed

def pageNumber (web : Web) (s : Option String) (otherwise : ℤ) : Routed ℤ :=
  match truthyText s with
  | none => pure otherwise
  | some s => intText web s

/-- A negative number is the id of no row, as is zero. -/
def rowId : ℤ → ℕ := Int.toNat

def member (data : JsonValue) (name : String) : Routed JsonValue :=
  match data with
  | .obj members => orAbort (members.lookup name) .failed
  | _ => .error .failed

def intValue (web : Web) : JsonValue → Routed ℤ
  | .num q => pure (if 0 ≤ q then q.floor else q.ceil)
  | .bool b => pure (if b then 1 else 0)
  | .str s => intText web s
  | _ => .error .failed

/-- A value that the driver binds to a column of ids; NULL is the id of no row. -/
def boundId (web : Web) (value : JsonValue) : Routed ℕ := do
  let id ← orAbort (web.bindInteger value) .failed
  pure (rowId (id.getD 0))

def optionalId (web : Web) (value : JsonValue) : Routed (Option ℕ) :=
  if value.truthy then (some ∘ rowId) <$> intValue web value else pure none

/-- A value that is no text is refused here already; the handlers pass it on. -/
def text : JsonValue → Routed String
  | .str s => pure s
  | _ => .error .failed

def optionalText : JsonValue → Routed (Option String)
  | .null => pure none
  | value => some <$> text value

def loads (web : Web) (value : JsonValue) : Routed JsonValue := do
  let s ← text value
  orAbort (web.jsonLoads s) .failed

def string2Bool (web : Web) (s : String) : Bool := web.lower s == "true"

section Handlers

variable (web : Web) (request : HttpRequest)

def getUserById : Routed Call := do
  required request ["id"] "id is required"
  let id ← intText web (request.param "id")
  pure (.query (.userGetUserById (rowId id)))

def getMyInfo : Routed Call := do
  let userId ← userGetUserIdByAccessToken web request
  pure (.query (.userGetUserById userId))

def getUserByUsernameOrNicknameOrEmail : Routed Call := do
  required request ["username_or_nickname_or_email"] "username_or_nickname_or_email is required"
  pure (.query (.userGetUserByUsernameOrNicknameOrEmail
    (request.param "username_or_nickname_or_email")))

def login : Routed Call := do
  let username ← member request.body "username"
  let password ← member request.body "password"
  pure (.query (.userLogin (← text username) (← text password)))

def register : Routed Call := do
  let username ← member request.body "username"
  let password ← member request.body "password"
  let nickname ← member request.body "nickname"
  let email ← member request.body "email"
  let role ← member request.body "role"
  pure (.operation (.userRegister (← text username) (← text password) (← optionalText nickname)
    (← optionalText email) (← text role)))

def modifyPassword : Routed Call := do
  let userId ← userGetUserIdByAccessToken web request
  let oldPassword ← member request.body "old_password"
  let newPassword ← member request.body "new_password"
  pure (.operation (.userModifyPassword userId (← text oldPassword) (← text newPassword)))

def getServiceById : Routed Call := do
  required request ["id"] "id is required"
  let userId ← userGetUserIdByAccessToken web request
  let id ← intText web (request.param "id")
  pure (.query (.serviceGetServiceById (rowId id) userId))

def getAllServices : Routed Call := do
  let userId ← userGetUserIdByAccessToken web request
  let pageSize ← pageNumber web (request.queryParams "page_size") 10
  let currentPage ← pageNumber web (request.queryParams "current_page") 1
  pure (.query (.serviceGetAllServices userId pageSize currentPage))

def ownerOrMe (isMine : Bool) (myId : ℕ) : Routed ℤ :=
  if isMine then pure myId
  else do
    required request ["owner_id"] "owner_id is required when is_my_services is false"
    intText web (request.param "owner_id")

def getHisNewestServicesByOwnerId : Routed Call := do
  let myId ← userGetUserIdByAccessToken web request
  let isMyServices ← orAbort
    (web.jsonLoads (web.lower ((request.queryParams "is_my_services").getD "true"))) .failed
  let ownerId ← ownerOrMe web request isMyServices.truthy myId
  let pageSize ← pageNumber web (request.queryParams "page_size") 10
  let currentPage ← pageNumber web (request.queryParams "current_page") 1
  pure (.query (.serviceGetHisNewestServicesByOwnerId (rowId ownerId) myId pageSize currentPage))

def userOrMe (userId : Option String) (myId : ℕ) : Routed ℤ :=
  match userId with
  | none => pure myId
  | some s => intText web s

def getHisMaintainedServicesByUserId : Routed Call := do
  let myId ← userGetUserIdByAccessToken web request
  let userId ← userOrMe web (request.queryParams "user_id") myId
  let pageSize ← pageNumber web (request.queryParams "page_size") 10
  let currentPage ← pageNumber web (request.queryParams "current_page") 1
  pure (.query (.serviceGetHisMaintainedServicesByUserId (rowId userId) myId pageSize currentPage))

def getServiceByUuidAndVersion : Routed Call := do
  required request ["service_uuid", "version"] "service_uuid and version are required"
  let userId ← userGetUserIdByAccessToken web request
  pure (.query (.serviceGetServiceByUuidAndVersion (request.param "service_uuid")
    (request.param "version") userId))

def getAllVersionsByUuid : Routed Call := do
  required request ["service_uuid"] "service_uuid is required"
  let userId ← userGetUserIdByAccessToken web request
  pure (.query (.serviceGetAllVersionsByUuid (request.param "service_uuid") userId))

def createNewService : Routed Call := do
  let serviceUuid ← member request.body "service_uuid"
  let description ← member request.body "description"
  let ownerId ← userGetUserIdByAccessToken web request
  pure (.operation (.serviceCreateNewService (← text serviceUuid) ownerId
    (← optionalText description)))

def getAllDeletedServicesByUserId : Routed Call := do
  let userId ← userGetUserIdByAccessToken web request
  let pageSize ← pageNumber web (request.queryParams "page_size") 10
  let currentPage ← pageNumber web (request.queryParams "current_page") 1
  pure (.query (.serviceGetAllDeletedServicesByUserId userId pageSize currentPage))

def isServiceMaintainer : Routed Call := do
  required request ["service_id", "candidate_id"] "service_id and candidate_id are required"
  let userId ← userGetUserIdByAccessToken web request
  let serviceId ← intText web (request.param "service_id")
  let candidateId ← intText web (request.param "candidate_id")
  pure (.query (.serviceIsMaintainer (rowId serviceId) userId (rowId candidateId)))

def addOrRemoveServiceMaintainerById : Routed Call := do
  let serviceId ← member request.body "service_id"
  let candidateId ← member request.body "candidate_id"
  let userId ← userGetUserIdByAccessToken web request
  pure (.operation (.serviceAddOrRemoveServiceMaintainerById (rowId (← intValue web serviceId))
    userId (rowId (← intValue web candidateId))))

def deleteServiceById : Routed Call := do
  let id ← member request.body "id"
  let userId ← userGetUserIdByAccessToken web request
  pure (.operation (.serviceDeleteServiceById (← boundId web id) userId))

def restoreServiceById : Routed Call := do
  let id ← member request.body "id"
  let userId ← userGetUserIdByAccessToken web request
  pure (.operation (.serviceRestoreServiceById (← boundId web id) userId))

def deleteIterationById : Routed Call := do
  let iterationId ← member request.body "service_iteration_id"
  let userId ← userGetUserIdByAccessToken web request
  pure (.operation (.serviceDeleteIterationById (← boundId web iterationId) userId))

def getIterationById : Routed Call := do
  required request ["id"] "id is required"
  let userId ← userGetUserIdByAccessToken web request
  let id ← intText web (request.param "id")
  pure (.query (.serviceGetServiceIterationById (rowId id) userId))

def startIteration : Routed Call := do
  let serviceId ← member request.body "service_id"
  let userId ← userGetUserIdByAccessToken web request
  pure (.operation (.serviceStartIteration (← boundId web serviceId) userId))

def commitIteration : Routed Call := do
  let iterationId ← member request.body "service_iteration_id"
  let newVersion ← member request.body "new_version"
  let userId ← userGetUserIdByAccessToken web request
  pure (.operation (.serviceCommitIteration (← boundId web iterationId) (← text newVersion)
    userId))

def updateDescription : Routed Call := do
  let iterationId ← member request.body "service_iteration_id"
  let description ← member request.body "description"
  let userId ← userGetUserIdByAccessToken web request
  pure (.operation (.serviceUpdateDescription (← boundId web iterationId)
    (← optionalText description) userId))

def exportOpenapiByUuidAndVersion : Routed Call := do
  required request ["service_uuid", "version"] "service_uuid and version are required"
  let userId ← userGetUserIdByAccessToken web request
  pure (.query (.serviceExportOpenapiByUuidAndVersion (request.param "service_uuid")
    (request.param "version") userId))

def getAllCategoriesByServiceId : Routed Call := do
  required request ["service_id"] "service_id is required"
  let userId ← userGetUserIdByAccessToken web request
  let serviceId ← intText web (request.param "service_id")
  pure (.query (.apiGetAllCategoriesByServiceId (rowId serviceId) userId))

def getAllApisByServiceId : Routed Call := do
  required request ["service_id", "category_id"] "service_id and category_id are required"
  let userId ← userGetUserIdByAccessToken web request
  let serviceId ← intText web (request.param "service_id")
  let categoryId ← intText web (request.param "category_id")
  pure (.query (.apiGetAllApisByServiceId (rowId serviceId) userId (some (rowId categoryId))))

def getApiById : Routed Call := do
  required request ["api_id"] "api_id is required"
  let isLatest := (request.queryParams "is_latest").getD "true"
  let userId ← userGetUserIdByAccessToken web request
  let apiId ← intText web (request.param "api_id")
  pure (.query (.apiGetApiById (rowId apiId) userId (string2Bool web isLatest)))

def addCategoryByServiceId : Routed Call := do
  let serviceId ← member request.body "service_id"
  let categoryName ← member request.body "category_name"
  let description ← member request.body "description"
  let userId ← userGetUserIdByAccessToken web request
  pure (.operation (.apiAddCategoryByServiceId (rowId (← intValue web serviceId)) userId
    (← text categoryName) (← optionalText description)))

def deleteCategoryById : Routed Call := do
  let categoryId ← member request.body "category_id"
  let userId ← userGetUserIdByAccessToken web request
  pure (.operation (.apiDeleteCategoryById (← boundId web categoryId) userId))

def updateCategoryById : Routed Call := do
  let categoryId ← member request.body "category_id"
  let categoryName ← member request.body "category_name"
  let description ← member request.body "description"
  let userId ← userGetUserIdByAccessToken web request
  pure (.operation (.apiUpdateCategoryById (rowId (← intValue web categoryId)) userId
    (← optionalText categoryName) (← optionalText description)))

def updateApiCategoryById : Routed Call := do
  let apiId ← member request.body "api_id"
  let categoryId ← member request.body "category_id"
  let userId ← userGetUserIdByAccessToken web request
  pure (.operation (.apiUpdateApiCategory (rowId (← intValue web apiId))
    (← intValue web categoryId) userId))

def addApi : Routed Call := do
  let iterationId ← member request.body "service_iteration_id"
  let name ← member request.body "name"
  let method ← member request.body "method"
  let path ← member request.body "path"
  let description ← member request.body "description"
  let level ← member request.body "level"
  let categoryId := ((member request.body "category_id").toOption).getD .null
  let userId ← userGetUserIdByAccessToken web request
  let iterationId ← intValue web iterationId
  let categoryId ← optionalId web categoryId
  pure (.operation (.apiAddApi (rowId iterationId) userId (← text name) (← text method)
    (← text path) (← optionalText description) (← text level) categoryId))

def copyApiByApiDraftId : Routed Call := do
  let iterationId ← member request.body "service_iteration_id"
  let apiDraftId ← member request.body "api_draft_id"
  let userId ← userGetUserIdByAccessToken web request
  pure (.operation (.apiCopyApiByApiDraftId (rowId (← intValue web iterationId))
    (rowId (← intValue web apiDraftId)) userId))

def deleteApiByApiDraftId : Routed Call := do
  let iterationId ← member request.body "service_iteration_id"
  let apiDraftId ← member request.body "api_draft_id"
  let userId ← userGetUserIdByAccessToken web request
  pure (.operation (.apiDeleteApiByApiDraftId (rowId (← intValue web iterationId))
    (rowId (← intValue web apiDraftId)) userId))

def updateApiByApiDraftId : Routed Call := do
  let iterationId ← member request.body "service_iteration_id"
  let apiDraftId ← member request.body "api_draft_id"
  let name ← member request.body "name"
  let method ← member request.body "method"
  let path ← member request.body "path"
  let description ← member request.body "description"
  let level ← member request.body "level"
  let reqParams ← loads web (← member request.body "req_params")
  let respParams ← loads web (← member request.body "resp_params")
  let userId ← userGetUserIdByAccessToken web request
  pure (.operation (.apiUpdateApiByApiDraftId (rowId (← intValue web iterationId))
    (rowId (← intValue web apiDraftId)) userId (← text name) (← text method) (← text path)
    (← optionalText description) (← text level) reqParams respParams))

end Handlers

structure Route where
  verb : Verb
  path : String
  authRequired : Bool
  handler : Web → HttpRequest → Routed Call

def userRouterV1 : List Route :=
  [⟨.get, "/v1/user/getUserById", true, getUserById⟩,
    ⟨.get, "/v1/user/getMyInfo", true, getMyInfo⟩,
    ⟨.get, "/v1/user/getUserByUsernameOrNicknameOrEmail", true,
      fun _ => getUserByUsernameOrNicknameOrEmail⟩,
    ⟨.post, "/v1/user/login", false, fun _ => login⟩,
    ⟨.post, "/v1/user/register", false, fun _ => register⟩,
    ⟨.post, "/v1/user/modifyPassword", true, modifyPassword⟩]

def serviceRouterV1 : List Route :=
  [⟨.get, "/v1/service/getServiceById", true, getServiceById⟩,
    ⟨.get, "/v1/service/getAllServices", true, getAllServices⟩,
    ⟨.get, "/v1/service/getHisNewestServicesByOwnerId", true, getHisNewestServicesByOwnerId⟩,
    ⟨.get, "/v1/service/getHisMaintainedServicesByUserId", true,
      getHisMaintainedServicesByUserId⟩,
    ⟨.get, "/v1/service/getServiceByUuidAndVersion", true, getServiceByUuidAndVersion⟩,
    ⟨.get, "/v1/service/getAllVersionsByUuid", true, getAllVersionsByUuid⟩,
    ⟨.post, "/v1/service/createNewService", true, createNewService⟩,
    ⟨.get, "/v1/service/getAllDeletedServicesByUserId", true, getAllDeletedServicesByUserId⟩,
    ⟨.get, "/v1/service/isServiceMaintainer", true, isServiceMaintainer⟩,
    ⟨.post, "/v1/service/addOrRemoveServiceMaintainerById", true,
      addOrRemoveServiceMaintainerById⟩,
    ⟨.post, "/v1/service/deleteServiceById", true, deleteServiceById⟩,
    ⟨.post, "/v1/service/restoreServiceById", true, restoreServiceById⟩,
    ⟨.post, "/v1/service/deleteIterationById", true, deleteIterationById⟩,
    ⟨.get, "/v1/service/getIterationById", true, getIterationById⟩,
    ⟨.post, "/v1/service/startIteration", true, startIteration⟩,
    ⟨.post, "/v1/service/commitIteration", true, commitIteration⟩,
    ⟨.post, "/v1/service/updateDescription", true, updateDescription⟩,
    ⟨.get, "/v1/service/exportOpenapiByUuidAndVersion", true, exportOpenapiByUuidAndVersion⟩]

def apiRouterV1 : List Route :=
  [⟨.get, "/v1/api/getAllCategoriesByServiceId", true, getAllCategoriesByServiceId⟩,
    ⟨.get, "/v1/api/getAllApisByServiceId", true, getAllApisByServiceId⟩,
    ⟨.get, "/v1/api/getApiById", true, getApiById⟩,
    ⟨.post, "/v1/api/addCategoryByServiceId", true, addCategoryByServiceId⟩,
    ⟨.post, "/v1/api/deleteCategoryById", true, deleteCategoryById⟩,
    ⟨.post, "/v1/api/updateCategoryById", true, updateCategoryById⟩,
    ⟨.post, "/v1/api/updateApiCategoryById", true, updateApiCategoryById⟩,
    ⟨.post, "/v1/api/addApi", true, addApi⟩,
    ⟨.post, "/v1/api/copyApiByApiDraftId", true, copyApiByApiDraftId⟩,
    ⟨.post, "/v1/api/deleteApiByApiDraftId", true, deleteApiByApiDraftId⟩,
    ⟨.post, "/v1/api/updateApiByApiDraftId", true, updateApiByApiDraftId⟩]

def app : List Route := userRouterV1 ++ serviceRouterV1 ++ apiRouterV1

def Route.serves (r : Route) (request : HttpRequest) : Bool :=
  r.verb == request.verb && r.path == request.path

def Route.admits (r : Route) (web : Web) (db : Database) (request : HttpRequest) : Routed Bool :=
  if r.authRequired then Option.isSome <$> authenticate web db request else pure true

def route (web : Web) (db : Database) (request : HttpRequest) : Routed Call :=
  match app.find? (fun r => r.serves request) with
  | none => .error .notFound
  | some found => do
    let admitted ← found.admits web db request
    require admitted .unauthorized
    found.handler web request

def serve (web : Web) (db : Database) (request : HttpRequest) : Database :=
  match route web db request with
  | .ok (.operation operation) => committed (transaction db ⟨web.toEnvironment, operation⟩) db
  | _ => db

def answer (web : Web) (db : Database) (request : HttpRequest) :
    Routed ((c : Call) × Tx (Answer c)) :=
  (fun c => ⟨c, respond web.toSurroundings db c⟩) <$> route web db request

def plainWeb : Web where
  toSurroundings := plainSurroundings
  getToken authorization := do
    let header ← authorization
    if bearer.isPrefixOf header.toList then some (String.ofList (header.toList.drop bearer.length))
    else none
  tokenId token := [("1", 1), ("2", 2)].lookup token
  lower := String.toLower
  jsonLoads s := if s = "true" then some (.bool true) else none

end HttpRoutes
