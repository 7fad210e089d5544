import ApiManagement.PairedOutcomes
import ApiManagement.Serialization

/-! # Hashes of passwords stay hidden

Two databases that differ in the hashes only are told apart by a login and by a change of the
password, and by nothing else: neither by what the mixin writes of any row nor by any other
response. -/
namespace HiddenHashes

open TransactionRuns KeyedTables PythonRuntime ServiceSchema ApiStores UserOperations
  ServiceOperations ApiOperations OperationRuns PairedOutcomes ReadOperations
  DraftEditor OrderedDictionaries Serialization

theorem blank_fits : "".length ≤ 128 := by decide

def withoutHash (u : User) : User := { u with password := ⟨"", blank_fits⟩ }

theorem key_withoutHash (u : User) : key (withoutHash u) = key u := rfl

def withoutHashes (db : Database) : Database :=
  { db with users := db.users.mapRows withoutHash key_withoutHash }

def SameButHashes (db₁ db₂ : Database) : Prop := withoutHashes db₁ = withoutHashes db₂

/-- The order of the users in an answer does not come from the hashes. -/
def OrdersBlindly (env : Environment) : Prop :=
  ∀ users : List User, env.fetch (users.map withoutHash) = (env.fetch users).map withoutHash

section Reading

variable {env : Environment} (db : Database)

theorem same_withoutHashes : SameButHashes (withoutHashes db) db := by
  unfold SameButHashes withoutHashes Table.mapRows
  simp only [List.map_map]
  rfl

@[simp] theorem find_user (k : ℕ) :
    (withoutHashes db).users.find? k = (db.users.find? k).map withoutHash := by
  show (db.users.rows.map withoutHash).find? _ = _
  rw [List.find?_map]
  rfl

@[simp] theorem contains_user (k : ℕ) :
    (withoutHashes db).users.contains k = db.users.contains k :=
  Table.contains_mapRows db.users key_withoutHash

@[simp] theorem levelAboveZeroIf_map (c : Bool) (user : Option User) :
    levelAboveZeroIf c (user.map withoutHash) = levelAboveZeroIf c user := by
  cases user <;> rfl

@[simp] theorem requireLevelZeroIf_map (c : Bool) (user : Option User) (failure : Abort) :
    requireLevelZeroIf c (user.map withoutHash) failure = requireLevelZeroIf c user failure := by
  rw [requireLevelZeroIf, levelAboveZeroIf_map, requireLevelZeroIf]

@[simp] theorem isMaintainer_map (serviceId : ℕ) (user : Option User) :
    isMaintainer (withoutHashes db) serviceId (user.map withoutHash) =
      isMaintainer db serviceId user := by
  cases user <;> rfl

@[simp] theorem maintainers_withoutHashes (serviceId : ℕ) :
    maintainers (withoutHashes db) serviceId = (maintainers db serviceId).map withoutHash := by
  show (db.users.rows.map withoutHash).filter _ = _
  rw [List.filter_map]
  rfl

theorem liveReferences_withoutHashes : liveReferences (withoutHashes db) = liveReferences db := by
  unfold liveReferences
  rw [funext (contains_user db)]
  rfl

theorem draftReferences_withoutHashes :
    draftReferences (withoutHashes db) = draftReferences db := by
  unfold draftReferences
  rw [funext (contains_user db)]
  rfl

theorem map_userToJson (users : List User) :
    (users.map withoutHash).map userToJson = users.map userToJson := by
  rw [List.map_map]
  rfl

theorem info_withoutHash (user : Option User) :
    (user.map withoutHash).map userToJson = user.map userToJson := by
  rw [Option.map_map]
  rfl

theorem serviceToJson_withoutHashes (h : OrdersBlindly env) (s : Service) :
    serviceToJson env (withoutHashes db) s = serviceToJson env db s := by
  unfold serviceToJson
  rw [find_user, info_withoutHash, maintainers_withoutHashes, h, map_userToJson]
  rfl

theorem iterationToJson_withoutHashes (i : ServiceIteration) :
    iterationToJson env (withoutHashes db) i = iterationToJson env db i := by
  have hcreator : (i.creatorId.bind (withoutHashes db).users.find?).map userToJson =
      (i.creatorId.bind db.users.find?).map userToJson := by
    cases i.creatorId with
    | none => rfl
    | some u => exact (congrArg (Option.map userToJson) (find_user db u)).trans (info_withoutHash _)
  unfold iterationToJson
  rw [hcreator]
  rfl

end Reading

abbrev Hidden {α : Type} : Tx (Database × α) → Tx (Database × α) → Prop :=
  Lockstep (fun p q => SameButHashes p.1 q.1 ∧ p.2 = q.2)

/-- Writes to the other tables. -/
theorem hidden_rest (db : Database) {α : Type} {services : Table Service}
    {links : Finset (ℕ × ℕ)} {iterations : Table ServiceIteration} {categories : Table ApiCategory}
    {live drafts : ApiStore} {r : α} :
    Hidden
      (pure (⟨(withoutHashes db).users, services, links, iterations, categories, live, drafts⟩, r))
      (pure (⟨db.users, services, links, iterations, categories, live, drafts⟩, r)) := by
  have husers := congrArg Database.users (same_withoutHashes db)
  refine .ok ⟨?_, rfl⟩
  show Database.mk _ _ _ _ _ _ _ = Database.mk _ _ _ _ _ _ _
  exact congrArg (fun users => Database.mk users services links iterations categories live drafts)
    husers

theorem orAbort_user (user : Option User) (failure : Abort) :
    Lockstep (fun u v => u = withoutHash v) (orAbort (user.map withoutHash) failure)
      (orAbort user failure) := by
  cases user with
  | none => exact .error failure
  | some u => exact .ok rfl

theorem asCheckResult_map {α β : Type} (f : α → β) (x : Tx α) :
    asCheckResult (f <$> x) = f <$> asCheckResult x := by
  cases x with
  | ok a => rfl
  | error e => cases e <;> rfl

section Operations

variable (env : Environment) (db : Database)

theorem checkServiceIterationPermission_withoutHashes (iterationId userId : ℕ) :
    checkServiceIterationPermission (withoutHashes db) iterationId userId =
      (fun p => (p.1, p.2.map withoutHash)) <$>
        checkServiceIterationPermission db iterationId userId := by
  unfold checkServiceIterationPermission
  simp only [find_user, requireLevelZeroIf_map, map_bind, map_pure]
  rfl

/-- The iteration is the same; of the user only the hash is lost. -/
theorem permission_lockstep (iterationId userId : ℕ) :
    Lockstep (fun p q => p = (q.1, q.2.map withoutHash))
      (checkServiceIterationPermission (withoutHashes db) iterationId userId)
      (checkServiceIterationPermission db iterationId userId) := by
  rw [checkServiceIterationPermission_withoutHashes]
  cases checkServiceIterationPermission db iterationId userId with
  | error e => exact .error e
  | ok p => exact .ok rfl

theorem userRegister_hidden (username password : String) (nickname email : Option String)
    (role : String) :
    Hidden (userRegister env username password nickname email role (withoutHashes db))
      (userRegister env username password nickname email role db) := by
  have hany : (withoutHashes db).users.rows.any (fun u =>
      u.username.val == username || u.email.map VarChar.val == email) =
        db.users.rows.any (fun u =>
          u.username.val == username || u.email.map VarChar.val == email) := by
    show (db.users.rows.map withoutHash).any _ = _
    rw [List.any_map]
    rfl
  unfold userRegister
  rw [hany]
  refine Lockstep.bind_same _ (fun _ _ => ?_)
  refine Lockstep.bind_same _ (fun _ _ => ?_)
  refine Lockstep.bind_same _ (fun _ _ => ?_)
  refine Lockstep.bind_same _ (fun _ _ => ?_)
  refine Lockstep.bind_same _ (fun _ _ => ?_)
  refine .ok ⟨?_, rfl⟩
  unfold SameButHashes withoutHashes Table.mapRows Table.insert
  simp only [List.map_append, List.map_map]
  rfl

theorem serviceCreateNewService_hidden (h : OrdersBlindly env) (serviceUuid : String)
    (ownerId : ℕ) (description : Option String) :
    Hidden (serviceCreateNewService env serviceUuid ownerId description (withoutHashes db))
      (serviceCreateNewService env serviceUuid ownerId description db) := by
  unfold serviceCreateNewService
  simp only [contains_user]
  refine Lockstep.bind_same _ (fun _ _ => ?_)
  refine Lockstep.bind_same _ (fun uuid _ => ?_)
  refine Lockstep.bind_same _ (fun version _ => ?_)
  refine Lockstep.bind_same _ (fun _ _ => ?_)
  let created : Service := ⟨db.services.next, ownerId, uuid, version, description, false, none⟩
  have hjson := serviceToJson_withoutHashes { db with services := db.services.insert created } h
    created
  exact .ok ⟨same_withoutHashes { db with services := db.services.insert created },
    congrArg (Reply.mk 200 "Create service success") hjson⟩

theorem serviceAddOrRemoveServiceMaintainerById_hidden (serviceId userId candidateId : ℕ) :
    Hidden (serviceAddOrRemoveServiceMaintainerById serviceId userId candidateId (withoutHashes db))
      (serviceAddOrRemoveServiceMaintainerById serviceId userId candidateId db) := by
  unfold serviceAddOrRemoveServiceMaintainerById
  simp only [find_user, requireLevelZeroIf_map]
  refine Lockstep.bind_same _ (fun s _ => ?_)
  refine Lockstep.bind_same _ (fun _ _ => ?_)
  refine Lockstep.bind_same _ (fun _ _ => ?_)
  refine (orAbort_user _ _).bind ?_
  rintro _ candidate rfl
  show Hidden (if isMaintainer db s.id (some candidate) then _ else _) _
  split
  · exact hidden_rest db
  · exact hidden_rest db

theorem serviceDeleteServiceById_hidden (id userId : ℕ) :
    Hidden (serviceDeleteServiceById env id userId (withoutHashes db))
      (serviceDeleteServiceById env id userId db) := by
  unfold serviceDeleteServiceById
  simp only [find_user, requireLevelZeroIf_map]
  refine Lockstep.bind_same _ (fun s _ => ?_)
  refine Lockstep.bind_same _ (fun _ _ => ?_)
  exact hidden_rest db

theorem serviceRestoreServiceById_hidden (id userId : ℕ) :
    Hidden (serviceRestoreServiceById id userId (withoutHashes db))
      (serviceRestoreServiceById id userId db) := by
  unfold serviceRestoreServiceById
  simp only [find_user, requireLevelZeroIf_map]
  refine Lockstep.bind_same _ (fun s _ => ?_)
  refine Lockstep.bind_same _ (fun _ _ => ?_)
  refine Lockstep.bind_same _ (fun _ _ => ?_)
  exact hidden_rest db

theorem serviceDeleteIterationById_hidden (iterationId userId : ℕ) :
    Hidden (serviceDeleteIterationById iterationId userId (withoutHashes db))
      (serviceDeleteIterationById iterationId userId db) := by
  unfold serviceDeleteIterationById
  simp only [find_user, requireLevelZeroIf_map]
  refine Lockstep.bind_same _ (fun i _ => ?_)
  refine Lockstep.bind_same _ (fun s _ => ?_)
  refine Lockstep.bind_same _ (fun _ _ => ?_)
  refine Lockstep.bind_same _ (fun _ _ => ?_)
  exact hidden_rest db

theorem startNewIteration_lockstep (serviceId userId : ℕ) :
    Lockstep SameButHashes (startNewIteration env serviceId userId (withoutHashes db))
      (startNewIteration env serviceId userId db) := by
  have hrefs := draftReferences_withoutHashes (insertIteration serviceId userId db)
  unfold startNewIteration
  simp only [contains_user]
  refine Lockstep.bind_same _ (fun _ _ => ?_)
  rw [show draftReferences (insertIteration serviceId userId (withoutHashes db)) =
    draftReferences (insertIteration serviceId userId db) from hrefs]
  refine Lockstep.bind_same _ (fun drafts _ => ?_)
  exact .ok (same_withoutHashes { insertIteration serviceId userId db with drafts := drafts })

theorem serviceStartIteration_hidden (serviceId userId : ℕ) :
    Hidden (serviceStartIteration env serviceId userId (withoutHashes db))
      (serviceStartIteration env serviceId userId db) := by
  unfold serviceStartIteration
  simp only [find_user, requireLevelZeroIf_map, isMaintainer_map]
  refine Lockstep.bind_same _ (fun s _ => ?_)
  refine Lockstep.bind_same _ (fun _ _ => ?_)
  have hopen : openIterations (withoutHashes db) serviceId userId =
      openIterations db serviceId userId := rfl
  rw [hopen]
  cases (env.fetch (openIterations db serviceId userId)).head? with
  | some iteration => exact hidden_rest db
  | none =>
    refine (startNewIteration_lockstep env db serviceId userId).bind ?_
    intro d d' hd
    exact .ok ⟨hd, rfl⟩

theorem commitDatabase_lockstep (iteration : ServiceIteration) (service : Service)
    (newVersion : String) :
    Lockstep (fun d d' => d = withoutHashes d')
      (commitDatabase env iteration service newVersion (withoutHashes db))
      (commitDatabase env iteration service newVersion db) := by
  unfold commitDatabase
  rw [liveReferences_withoutHashes]
  refine Lockstep.bind_same _ (fun version _ => ?_)
  refine Lockstep.bind_same _ (fun live _ => ?_)
  exact .ok rfl

theorem notifyMaintainers_withoutHashes (service : Service) (user : Option User) :
    notifyMaintainers env (withoutHashes db) service (user.map withoutHash) =
      notifyMaintainers env db service user := by
  have hemails : ((maintainers db service.id).map withoutHash).map User.email =
      (maintainers db service.id).map User.email := by
    rw [List.map_map]
    rfl
  unfold notifyMaintainers
  rw [find_user, maintainers_withoutHashes, hemails]
  cases db.users.find? service.ownerId with
  | none => rfl
  | some owner => cases user <;> rfl

theorem serviceCommitIteration_hidden (iterationId : ℕ) (newVersion : String) (userId : ℕ) :
    Hidden (serviceCommitIteration env iterationId newVersion userId (withoutHashes db))
      (serviceCommitIteration env iterationId newVersion userId db) := by
  unfold serviceCommitIteration
  rw [checkServiceIterationPermission_withoutHashes, asCheckResult_map]
  cases asCheckResult (checkServiceIterationPermission db iterationId userId) with
  | error e => exact .error e
  | ok p =>
    obtain ⟨iteration, user⟩ := p
    show Hidden (orAbort _ _ >>= _) (orAbort _ _ >>= _)
    refine Lockstep.bind_same _ (fun s _ => ?_)
    refine Lockstep.bind_same _ (fun _ _ => ?_)
    refine (commitDatabase_lockstep env db iteration s newVersion).bind ?_
    rintro _ d rfl
    refine .ok ⟨same_withoutHashes d, ?_⟩
    rw [notifyMaintainers_withoutHashes]

theorem serviceUpdateDescription_hidden (iterationId : ℕ) (description : Option String)
    (userId : ℕ) :
    Hidden (serviceUpdateDescription iterationId description userId (withoutHashes db))
      (serviceUpdateDescription iterationId description userId db) := by
  unfold serviceUpdateDescription
  refine (permission_lockstep db iterationId userId).bind ?_
  rintro _ ⟨iteration, user⟩ rfl
  exact hidden_rest db

theorem apiAddCategoryByServiceId_hidden (serviceId userId : ℕ) (categoryName : String)
    (description : Option String) :
    Hidden (apiAddCategoryByServiceId serviceId userId categoryName description (withoutHashes db))
      (apiAddCategoryByServiceId serviceId userId categoryName description db) := by
  unfold apiAddCategoryByServiceId
  simp only [find_user, requireLevelZeroIf_map, isMaintainer_map]
  refine Lockstep.bind_same _ (fun s _ => ?_)
  refine Lockstep.bind_same _ (fun _ _ => ?_)
  refine Lockstep.bind_same _ (fun _ _ => ?_)
  refine Lockstep.bind_same _ (fun _ _ => ?_)
  exact hidden_rest db

theorem apiDeleteCategoryById_hidden (categoryId userId : ℕ) :
    Hidden (apiDeleteCategoryById categoryId userId (withoutHashes db))
      (apiDeleteCategoryById categoryId userId db) := by
  unfold apiDeleteCategoryById
  simp only [find_user]
  refine Lockstep.bind_same _ (fun c _ => ?_)
  refine (orAbort_user _ _).bind ?_
  rintro _ user rfl
  refine Lockstep.bind_same _ (fun s _ => ?_)
  refine Lockstep.bind_same _ (fun _ _ => ?_)
  exact hidden_rest db

theorem apiUpdateCategoryById_hidden (categoryId userId : ℕ)
    (categoryName description : Option String) :
    Hidden (apiUpdateCategoryById categoryId userId categoryName description (withoutHashes db))
      (apiUpdateCategoryById categoryId userId categoryName description db) := by
  unfold apiUpdateCategoryById
  simp only [find_user]
  refine Lockstep.bind_same _ (fun c _ => ?_)
  refine (orAbort_user _ _).bind ?_
  rintro _ user rfl
  refine Lockstep.bind_same _ (fun s _ => ?_)
  refine Lockstep.bind_same _ (fun _ _ => ?_)
  refine Lockstep.bind_same _ (fun _ _ => ?_)
  refine Lockstep.bind_same _ (fun _ _ => ?_)
  refine Lockstep.bind_same _ (fun _ _ => ?_)
  refine Lockstep.bind_same _ (fun _ _ => ?_)
  refine Lockstep.bind_same _ (fun _ _ => ?_)
  exact hidden_rest db

theorem apiUpdateApiCategory_hidden (apiId : ℕ) (categoryId : ℤ) (userId : ℕ) :
    Hidden (apiUpdateApiCategory apiId categoryId userId (withoutHashes db))
      (apiUpdateApiCategory apiId categoryId userId db) := by
  unfold apiUpdateApiCategory
  simp only [find_user]
  refine Lockstep.bind_same _ (fun a _ => ?_)
  refine (orAbort_user _ _).bind ?_
  rintro _ user rfl
  refine Lockstep.bind_same _ (fun s _ => ?_)
  refine Lockstep.bind_same _ (fun _ _ => ?_)
  refine Lockstep.bind_same _ (fun _ _ => ?_)
  by_cases hnone : categoryId = -1
  · rw [if_pos hnone, if_pos hnone]
    exact hidden_rest db
  · rw [if_neg hnone, if_neg hnone]
    refine Lockstep.bind_same _ (fun c _ => ?_)
    refine Lockstep.bind_same _ (fun _ _ => ?_)
    exact hidden_rest db

theorem apiAddApi_hidden (iterationId userId : ℕ) (name method path : String)
    (description : Option String) (level : String) (categoryId : Option ℕ) :
    Hidden
      (apiAddApi iterationId userId name method path description level categoryId
        (withoutHashes db))
      (apiAddApi iterationId userId name method path description level categoryId db) := by
  unfold apiAddApi
  refine (permission_lockstep db iterationId userId).bind ?_
  rintro _ ⟨iteration, user⟩ rfl
  simp only [draftReferences_withoutHashes]
  refine Lockstep.bind_same _ (fun _ _ => ?_)
  refine Lockstep.bind_same _ (fun _ _ => ?_)
  refine Lockstep.bind_same _ (fun _ _ => ?_)
  refine Lockstep.bind_same _ (fun _ _ => ?_)
  refine Lockstep.bind_same _ (fun _ _ => ?_)
  refine Lockstep.bind_same _ (fun drafts _ => ?_)
  exact hidden_rest db

theorem draftOfIteration_withoutHashes (iterationId apiDraftId userId : ℕ) :
    draftOfIteration (withoutHashes db) iterationId apiDraftId userId =
      draftOfIteration db iterationId apiDraftId userId := by
  apply Lockstep.eq
  unfold draftOfIteration
  refine (permission_lockstep db iterationId userId).bind ?_
  rintro _ _ rfl
  exact Lockstep.of_eq rfl

theorem apiCopyApiByApiDraftId_hidden (iterationId apiDraftId userId : ℕ) :
    Hidden (apiCopyApiByApiDraftId env iterationId apiDraftId userId (withoutHashes db))
      (apiCopyApiByApiDraftId env iterationId apiDraftId userId db) := by
  unfold apiCopyApiByApiDraftId
  simp only [draftOfIteration_withoutHashes, draftReferences_withoutHashes]
  refine Lockstep.bind_same _ (fun d _ => ?_)
  refine Lockstep.bind_same _ (fun _ _ => ?_)
  refine Lockstep.bind_same _ (fun _ _ => ?_)
  refine Lockstep.bind_same _ (fun drafts _ => ?_)
  exact hidden_rest db

theorem apiDeleteApiByApiDraftId_hidden (iterationId apiDraftId userId : ℕ) :
    Hidden (apiDeleteApiByApiDraftId iterationId apiDraftId userId (withoutHashes db))
      (apiDeleteApiByApiDraftId iterationId apiDraftId userId db) := by
  unfold apiDeleteApiByApiDraftId
  simp only [draftOfIteration_withoutHashes]
  refine Lockstep.bind_same _ (fun d _ => ?_)
  exact hidden_rest db

theorem apiUpdateApiByApiDraftId_hidden (iterationId apiDraftId userId : ℕ)
    (name method path : String) (description : Option String) (level : String)
    (reqParams respParams : JsonValue) :
    Hidden
      (apiUpdateApiByApiDraftId env iterationId apiDraftId userId name method path description
        level reqParams respParams (withoutHashes db))
      (apiUpdateApiByApiDraftId env iterationId apiDraftId userId name method path description
        level reqParams respParams db) := by
  unfold apiUpdateApiByApiDraftId
  simp only [draftOfIteration_withoutHashes]
  refine Lockstep.bind_same _ (fun d _ => ?_)
  refine Lockstep.bind_same _ (fun _ _ => ?_)
  refine Lockstep.bind_same _ (fun _ _ => ?_)
  refine Lockstep.bind_same _ (fun drafts _ => ?_)
  exact hidden_rest db

end Operations

section Queries

variable (env : Environment) (out : Surroundings) (db : Database)

theorem userGetUserById_withoutHashes (id : ℕ) :
    userGetUserById id (withoutHashes db) = userGetUserById id db := by
  unfold userGetUserById
  rw [find_user]
  cases db.users.find? id <;> rfl

theorem search_withoutHashes (h : OrdersBlindly out.toEnvironment) (keyword : String) :
    userGetUserByUsernameOrNicknameOrEmail out keyword (withoutHashes db) =
      userGetUserByUsernameOrNicknameOrEmail out keyword db := by
  unfold userGetUserByUsernameOrNicknameOrEmail
  dsimp only
  have hrows : (withoutHashes db).users.rows = db.users.rows.map withoutHash := rfl
  rw [hrows, List.filter_map, h, ← List.map_mergeSort, map_userToJson]
  · rfl
  · intro u _ v _
    rfl

theorem requireSelfOrLevelZero_withoutHashes (userId myId : ℕ) (failure : Abort) :
    requireSelfOrLevelZero (withoutHashes db) userId myId failure =
      requireSelfOrLevelZero db userId myId failure := by
  unfold requireSelfOrLevelZero
  rw [find_user]
  cases db.users.find? myId <;> rfl

theorem serviceEntry_withoutHashes (withOwner withDeletedAt : Bool) :
    serviceEntry withOwner withDeletedAt (withoutHashes db) =
      serviceEntry withOwner withDeletedAt db := by
  funext s
  unfold serviceEntry
  rw [find_user, info_withoutHash]

theorem serviceGetAllServices_withoutHashes (userId : ℕ) (pageSize currentPage : ℤ) :
    serviceGetAllServices userId pageSize currentPage (withoutHashes db) =
      serviceGetAllServices userId pageSize currentPage db := by
  unfold serviceGetAllServices
  rw [find_user, requireLevelZeroIf_map, serviceEntry_withoutHashes]
  rfl

theorem serviceGetHisNewestServicesByOwnerId_withoutHashes (ownerId myId : ℕ)
    (pageSize currentPage : ℤ) :
    serviceGetHisNewestServicesByOwnerId ownerId myId pageSize currentPage (withoutHashes db) =
      serviceGetHisNewestServicesByOwnerId ownerId myId pageSize currentPage db := by
  unfold serviceGetHisNewestServicesByOwnerId
  rw [requireSelfOrLevelZero_withoutHashes, serviceEntry_withoutHashes]
  rfl

theorem serviceGetHisMaintainedServicesByUserId_withoutHashes (userId myId : ℕ)
    (pageSize currentPage : ℤ) :
    serviceGetHisMaintainedServicesByUserId userId myId pageSize currentPage (withoutHashes db) =
      serviceGetHisMaintainedServicesByUserId userId myId pageSize currentPage db := by
  unfold serviceGetHisMaintainedServicesByUserId
  simp only [requireSelfOrLevelZero_withoutHashes, serviceEntry_withoutHashes,
    maintainers_withoutHashes, List.any_map]
  rfl

theorem serviceGetAllDeletedServicesByUserId_withoutHashes (userId : ℕ)
    (pageSize currentPage : ℤ) :
    serviceGetAllDeletedServicesByUserId env userId pageSize currentPage (withoutHashes db) =
      serviceGetAllDeletedServicesByUserId env userId pageSize currentPage db := by
  unfold serviceGetAllDeletedServicesByUserId
  rw [serviceEntry_withoutHashes]
  rfl

theorem serviceGetServiceById_withoutHashes (h : OrdersBlindly env) (id userId : ℕ) :
    serviceGetServiceById env id userId (withoutHashes db) =
      serviceGetServiceById env id userId db := by
  unfold serviceGetServiceById
  simp only [find_user, requireLevelZeroIf_map, serviceToJson_withoutHashes db h]
  rfl

theorem serviceIsMaintainer_withoutHashes (serviceId userId candidateId : ℕ) :
    serviceIsMaintainer serviceId userId candidateId (withoutHashes db) =
      serviceIsMaintainer serviceId userId candidateId db := by
  unfold serviceIsMaintainer
  simp only [find_user, requireLevelZeroIf_map, isMaintainer_map]
  rfl

theorem serviceGetServiceIterationById_withoutHashes (id userId : ℕ) :
    serviceGetServiceIterationById env id userId (withoutHashes db) =
      serviceGetServiceIterationById env id userId db := by
  unfold serviceGetServiceIterationById
  simp only [find_user, requireLevelZeroIf_map, iterationToJson_withoutHashes]
  rfl

theorem serviceGetServiceByUuidAndVersion_withoutHashes (h : OrdersBlindly env)
    (serviceUuid version : String) (userId : ℕ) :
    serviceGetServiceByUuidAndVersion env serviceUuid version userId (withoutHashes db) =
      serviceGetServiceByUuidAndVersion env serviceUuid version userId db := by
  unfold serviceGetServiceByUuidAndVersion
  simp only [find_user, levelAboveZeroIf_map, isMaintainer_map, serviceToJson_withoutHashes db h,
    iterationToJson_withoutHashes]
  rfl

theorem serviceGetAllVersionsByUuid_withoutHashes (serviceUuid : String) (userId : ℕ) :
    serviceGetAllVersionsByUuid env serviceUuid userId (withoutHashes db) =
      serviceGetAllVersionsByUuid env serviceUuid userId db := by
  unfold serviceGetAllVersionsByUuid
  simp only [find_user, requireLevelZeroIf_map, isMaintainer_map]
  rfl

/-- The contact is an owner or creator that has been serialized before. -/
theorem exportSource_withoutHashes (version : VersionDetail) :
    exportSource env (withoutHashes db) version = exportSource env db version := by
  cases version <;> rfl

theorem serviceExportOpenapiByUuidAndVersion_withoutHashes (h : OrdersBlindly out.toEnvironment)
    (serviceUuid version : String) (userId : ℕ) :
    serviceExportOpenapiByUuidAndVersion out serviceUuid version userId (withoutHashes db) =
      serviceExportOpenapiByUuidAndVersion out serviceUuid version userId db := by
  unfold serviceExportOpenapiByUuidAndVersion
  simp only [serviceGetServiceByUuidAndVersion_withoutHashes _ db h, exportSource_withoutHashes]

theorem apiGetAllCategoriesByServiceId_withoutHashes (serviceId userId : ℕ) :
    apiGetAllCategoriesByServiceId serviceId userId (withoutHashes db) =
      apiGetAllCategoriesByServiceId serviceId userId db := by
  unfold apiGetAllCategoriesByServiceId
  simp only [find_user, requireLevelZeroIf_map]
  rfl

theorem apiGetAllApisByServiceId_withoutHashes (serviceId userId : ℕ) (categoryId : Option ℕ) :
    apiGetAllApisByServiceId serviceId userId categoryId (withoutHashes db) =
      apiGetAllApisByServiceId serviceId userId categoryId db := by
  unfold apiGetAllApisByServiceId
  simp only [find_user, requireLevelZeroIf_map]
  rfl

theorem apiDetail_withoutHashes (st : ApiStore) (api : ApiRow) :
    apiDetail env (withoutHashes db) st api = apiDetail env db st api := by
  unfold apiDetail
  rw [find_user, info_withoutHash]

theorem apiGetApiById_withoutHashes (apiId userId : ℕ) (isLatest : Bool) :
    apiGetApiById env apiId userId isLatest (withoutHashes db) =
      apiGetApiById env apiId userId isLatest db := by
  apply Lockstep.eq
  unfold apiGetApiById
  simp only [find_user, apiDetail_withoutHashes]
  refine Lockstep.bind_same _ (fun api _ => ?_)
  refine (orAbort_user _ _).bind ?_
  rintro _ user rfl
  exact Lockstep.of_eq rfl

end Queries

def Hides (arguments : Arguments) (name : String) : Prop :=
  name ∈ arguments.excluded ∨ arguments.included ≠ [] ∧ name ∉ arguments.included

def mapRelated {ε : Type} (f : ε → ε) : Related ε → Related ε
  | .one row => .one (row.map f)
  | .many rows => .many (rows.map f)

section Mixin

variable {ε : Type} {nested : ε → Members} {f : ε → ε} {arguments : Arguments}

theorem foldlM_map_of_same {α β : Type} {g : α → β → Except Raised α} {h : β → β} {l : List β}
    (hsame : ∀ b ∈ l, ∀ a, g a (h b) = g a b) (a : α) :
    (l.map h).foldlM g a = l.foldlM g a := by
  induction l generalizing a with
  | nil => rfl
  | cons b l ih =>
    rw [List.map_cons, List.foldlM_cons, List.foldlM_cons, hsame b List.mem_cons_self]
    exact bind_congr fun c => ih (fun b hb => hsame b (List.mem_cons_of_mem _ hb)) c

theorem relatedJson_map (hf : ∀ e, nested (f e) = nested e) (r : Related ε) :
    relatedJson nested (mapRelated f r) = relatedJson nested r := by
  cases r with
  | one row => cases row <;> simp [mapRelated, relatedJson, orNull, hf]
  | many rows => simp [mapRelated, relatedJson, hf]

theorem includedJson_map (hf : ∀ e, nested (f e) = nested e) (r : Related ε) :
    includedJson nested (mapRelated f r) = includedJson nested r := by
  cases r with
  | one row => cases row <;> simp [mapRelated, includedJson, hf]
  | many rows => cases rows <;> rfl

theorem assignColumn_hidden {name : String} (h : Hides arguments name)
    (relations : List (String × Related ε)) (data : Members) (v w : JsonValue) :
    assignColumn nested arguments relations data (name, v) =
      assignColumn nested arguments relations data (name, w) := by
  unfold assignColumn
  rcases h with hexcluded | hincluded
  · simp only [if_pos hexcluded]
  · rw [if_pos hincluded, if_pos hincluded]

/-- Neither a column that is not written nor a change that nested rows do not show matters. -/
theorem mixinToJson_same (hf : ∀ e, nested (f e) = nested e)
    {hide : String × JsonValue → String × JsonValue} {l : Members}
    {related : List (String × Related ε)}
    (hhide : ∀ c ∈ l, hide c = c ∨ (hide c).1 = c.1 ∧ Hides arguments c.1) :
    mixinToJson nested arguments
        ⟨l.map hide, related.map (fun r => (r.1, mapRelated f r.2))⟩ =
      mixinToJson nested arguments ⟨l, related⟩ := by
  have hassign : ∀ data, (related.map (fun r => (r.1, mapRelated f r.2))).foldlM
      (assignIncluded nested arguments) data =
        related.foldlM (assignIncluded nested arguments) data := by
    apply foldlM_map_of_same
    intro r _ data
    unfold assignIncluded
    rw [includedJson_map hf]
  have hcolumns : (l.map hide).foldlM (assignColumn nested arguments
      (related.map (fun r => (r.1, mapRelated f r.2)))) [] =
        l.foldlM (assignColumn nested arguments related) [] := by
    have hstep : assignColumn nested arguments
        (related.map (fun r => (r.1, mapRelated f r.2))) =
          assignColumn nested arguments related := by
      funext data c
      unfold assignColumn
      rw [hassign]
    rw [hstep]
    apply foldlM_map_of_same
    rintro ⟨name, v⟩ hc data
    rcases hhide _ hc with hsame | ⟨hname, hhides⟩
    · rw [hsame]
    · have hpair : hide (name, v) = (name, (hide (name, v)).2) := Prod.ext hname rfl
      rw [hpair]
      exact assignColumn_hidden hhides _ _ _ _
  have hrelations : ∀ data, (related.map (fun r => (r.1, mapRelated f r.2))).foldl
      (assignRelation nested arguments) data =
        related.foldl (assignRelation nested arguments) data := by
    intro data
    rw [List.foldl_map]
    congr 1
    funext data r
    unfold assignRelation
    rw [relatedJson_map hf]
  unfold mixinToJson
  rw [hcolumns]
  simp only [hrelations]

end Mixin

def withoutHashIn : Entity → Entity
  | .user u => .user (withoutHash u)
  | e => e

def blankPassword (column : String × JsonValue) : String × JsonValue :=
  if column.1 = "password" then (column.1, .str "") else column

section Classes

variable (times : Times) {env : Environment} (db : Database)

theorem columns_withoutHashIn (e : Entity) :
    columns times (withoutHashIn e) = (columns times e).map blankPassword := by
  cases e with
  | api stage _ =>
    cases stage <;>
      simp [withoutHashIn, columns, apiColumns, blankPassword, Stage.containerKey]
  | requestParam stage _ =>
    cases stage <;> simp [withoutHashIn, columns, blankPassword, Stage.apiTable]
  | responseParam stage _ =>
    cases stage <;> simp [withoutHashIn, columns, blankPassword, Stage.apiTable]
  | _ => simp [withoutHashIn, withoutHash, columns, blankPassword]

theorem plainJson_withoutHashIn (e : Entity) :
    plainJson times (withoutHashIn e) = plainJson times e := by
  cases e with
  | user u => rw [withoutHashIn, plainJson_user, plainJson_user]; rfl
  | _ => rfl

/-- The mapper finds the same rows, users among them without their hashes. -/
theorem relations_withoutHashes (h : OrdersBlindly env) (e : Entity) :
    relations env (withoutHashes db) (withoutHashIn e) =
      (relations env db e).map (fun r => (r.1, mapRelated withoutHashIn r.2)) := by
  cases e with
  | iteration i =>
    have hcreator : (i.creatorId.bind (withoutHashes db).users.find?).map Entity.user =
        ((i.creatorId.bind db.users.find?).map Entity.user).map withoutHashIn := by
      cases i.creatorId with
      | none => rfl
      | some u =>
        refine (congrArg (Option.map Entity.user) (find_user db u)).trans ?_
        rw [Option.map_map, Option.bind_some, Option.map_map]
        rfl
    simp only [withoutHashIn, relations, hcreator, List.map_cons, List.map_nil, mapRelated,
      List.map_map, Option.map_map]
    rfl
  | api stage a =>
    cases stage <;>
    · simp only [withoutHashIn, relations, find_user, List.map_cons, List.map_nil, mapRelated,
        List.map_map, Option.map_map]
      rfl
  | requestParam stage p =>
    cases stage <;>
    · simp only [withoutHashIn, relations, List.map_cons, List.map_nil, mapRelated, List.map_map,
        Option.map_map]
      rfl
  | responseParam stage p =>
    cases stage <;>
    · simp only [withoutHashIn, relations, List.map_cons, List.map_nil, mapRelated, List.map_map,
        Option.map_map]
      rfl
  | _ =>
    simp only [withoutHashIn, relations, find_user, maintainers_withoutHashes, h _, List.map_cons,
      List.map_nil, mapRelated, List.map_map, Option.map_map]
    rfl

/-- Whatever it is asked for, the mixin writes the same with and without the hashes, unless the
arguments let the hash of a user through. -/
theorem toJson_withoutHashes (h : OrdersBlindly env) {arguments : Arguments} {e : Entity}
    (hhides : Hides arguments "password" ∨ e.isUser = false) :
    toJson times env (withoutHashes db) arguments (withoutHashIn e) =
      toJson times env db arguments e := by
  unfold toJson
  rw [columns_withoutHashIn, relations_withoutHashes db h]
  apply mixinToJson_same (plainJson_withoutHashIn times)
  rintro ⟨name, v⟩ hc
  by_cases hname : name = "password"
  · rcases hhides with hhides | huser
    · refine Or.inr ⟨?_, hname ▸ hhides⟩
      rw [blankPassword, if_pos hname]
    · have hplain : (name, v) ∈ plainJson times e := by
        rw [plainJson_eq_columns times huser]
        exact hc
      rw [plainJson_eq] at hplain
      simpa [hname] using (List.mem_filter.mp hplain).2
  · exact Or.inl (if_neg hname)

end Classes

/-- The arguments that the handlers pass to the mixin, by the class of the row. -/
inductive Passed : Arguments → Entity → Prop where
  | plain (e : Entity) : Passed defaultArguments e
  | service (s : Service) : Passed withRelations (.service s)
  | iteration (i : ServiceIteration) : Passed withRelations (.iteration i)
  | listed (withOwner withDeletedAt : Bool) (s : Service) :
    Passed (entryArguments withOwner withDeletedAt) (.service s)
  | api (stage : Stage) (a : ApiRow) : Passed apiArguments (.api stage a)

theorem Passed.hides {arguments : Arguments} {e : Entity} (h : Passed arguments e) :
    Hides arguments "password" ∨ e.isUser = false := by
  cases h with
  | plain e => exact Or.inl (Or.inl List.mem_cons_self)
  | _ => exact Or.inr rfl

def ChecksPassword : Call → Prop
  | .query (.userLogin _ _) => True
  | .operation (.userModifyPassword _ _ _) => True
  | _ => False

section Calls

variable {out : Surroundings} (db : Database)

theorem query_withoutHashes (h : OrdersBlindly out.toEnvironment) (q : Query)
    (hq : ¬ ChecksPassword (.query q)) :
    respond out (withoutHashes db) (.query q) = respond out db (.query q) := by
  cases q with
  | userGetUserById id => exact userGetUserById_withoutHashes db id
  | userGetUserByUsernameOrNicknameOrEmail keyword => exact search_withoutHashes out db h keyword
  | userLogin username password => exact absurd trivial hq
  | serviceGetAllServices userId pageSize currentPage =>
    exact serviceGetAllServices_withoutHashes db userId pageSize currentPage
  | serviceGetServiceById id userId => exact serviceGetServiceById_withoutHashes _ db h id userId
  | serviceGetHisNewestServicesByOwnerId ownerId myId pageSize currentPage =>
    exact serviceGetHisNewestServicesByOwnerId_withoutHashes db ownerId myId pageSize currentPage
  | serviceGetHisMaintainedServicesByUserId userId myId pageSize currentPage =>
    exact serviceGetHisMaintainedServicesByUserId_withoutHashes db userId myId pageSize
      currentPage
  | serviceGetServiceByUuidAndVersion serviceUuid version userId =>
    exact serviceGetServiceByUuidAndVersion_withoutHashes _ db h serviceUuid version userId
  | serviceGetAllVersionsByUuid serviceUuid userId =>
    exact serviceGetAllVersionsByUuid_withoutHashes _ db serviceUuid userId
  | serviceGetAllDeletedServicesByUserId userId pageSize currentPage =>
    exact serviceGetAllDeletedServicesByUserId_withoutHashes _ db userId pageSize currentPage
  | serviceIsMaintainer serviceId userId candidateId =>
    exact serviceIsMaintainer_withoutHashes db serviceId userId candidateId
  | serviceGetServiceIterationById id userId =>
    exact serviceGetServiceIterationById_withoutHashes _ db id userId
  | serviceExportOpenapiByUuidAndVersion serviceUuid version userId =>
    exact serviceExportOpenapiByUuidAndVersion_withoutHashes out db h serviceUuid version userId
  | apiGetAllCategoriesByServiceId serviceId userId =>
    exact apiGetAllCategoriesByServiceId_withoutHashes db serviceId userId
  | apiGetAllApisByServiceId serviceId userId categoryId =>
    exact apiGetAllApisByServiceId_withoutHashes db serviceId userId categoryId
  | apiGetApiById apiId userId isLatest =>
    exact apiGetApiById_withoutHashes _ db apiId userId isLatest

/-- Response and new database are the two components of one handler. -/
theorem operation_hidden (out : Surroundings) (h : OrdersBlindly out.toEnvironment) (o : Operation)
    (ho : ¬ ChecksPassword (.operation o)) :
    ∃ x y : Tx (Database × Answer (.operation o)), Hidden x y ∧
      respond out (withoutHashes db) (.operation o) = Prod.snd <$> x ∧
      respond out db (.operation o) = Prod.snd <$> y ∧
      transaction (withoutHashes db) ⟨out.toEnvironment, o⟩ = Prod.fst <$> x ∧
      transaction db ⟨out.toEnvironment, o⟩ = Prod.fst <$> y := by
  cases o with
  | userRegister username password nickname email role =>
    exact ⟨_, _, userRegister_hidden _ db username password nickname email role, rfl, rfl, rfl, rfl⟩
  | userModifyPassword userId oldPassword newPassword => exact absurd trivial ho
  | serviceCreateNewService serviceUuid userId description =>
    exact ⟨_, _, serviceCreateNewService_hidden _ db h serviceUuid userId description,
      rfl, rfl, rfl, rfl⟩
  | serviceAddOrRemoveServiceMaintainerById serviceId userId candidateId =>
    exact ⟨_, _, serviceAddOrRemoveServiceMaintainerById_hidden db serviceId userId candidateId,
      rfl, rfl, rfl, rfl⟩
  | serviceDeleteServiceById serviceId userId =>
    exact ⟨_, _, serviceDeleteServiceById_hidden _ db serviceId userId, rfl, rfl, rfl, rfl⟩
  | serviceRestoreServiceById serviceId userId =>
    exact ⟨_, _, serviceRestoreServiceById_hidden db serviceId userId, rfl, rfl, rfl, rfl⟩
  | serviceDeleteIterationById iterationId userId =>
    exact ⟨_, _, serviceDeleteIterationById_hidden db iterationId userId, rfl, rfl, rfl, rfl⟩
  | serviceStartIteration serviceId userId =>
    exact ⟨_, _, serviceStartIteration_hidden _ db serviceId userId, rfl, rfl, rfl, rfl⟩
  | serviceCommitIteration iterationId newVersion userId =>
    exact ⟨_, _, serviceCommitIteration_hidden _ db iterationId newVersion userId,
      rfl, rfl, rfl, rfl⟩
  | serviceUpdateDescription iterationId description userId =>
    exact ⟨_, _, serviceUpdateDescription_hidden db iterationId description userId,
      rfl, rfl, rfl, rfl⟩
  | apiAddCategoryByServiceId serviceId userId name description =>
    exact ⟨_, _, apiAddCategoryByServiceId_hidden db serviceId userId name description,
      rfl, rfl, rfl, rfl⟩
  | apiDeleteCategoryById categoryId userId =>
    exact ⟨_, _, apiDeleteCategoryById_hidden db categoryId userId, rfl, rfl, rfl, rfl⟩
  | apiUpdateCategoryById categoryId userId name description =>
    exact ⟨_, _, apiUpdateCategoryById_hidden db categoryId userId name description,
      rfl, rfl, rfl, rfl⟩
  | apiUpdateApiCategory apiId categoryId userId =>
    exact ⟨_, _, apiUpdateApiCategory_hidden db apiId categoryId userId, rfl, rfl, rfl, rfl⟩
  | apiAddApi iterationId userId name method path description level categoryId =>
    exact ⟨_, _, apiAddApi_hidden db iterationId userId name method path description level
      categoryId, rfl, rfl, rfl, rfl⟩
  | apiCopyApiByApiDraftId iterationId apiDraftId userId =>
    exact ⟨_, _, apiCopyApiByApiDraftId_hidden _ db iterationId apiDraftId userId,
      rfl, rfl, rfl, rfl⟩
  | apiDeleteApiByApiDraftId iterationId apiDraftId userId =>
    exact ⟨_, _, apiDeleteApiByApiDraftId_hidden db iterationId apiDraftId userId,
      rfl, rfl, rfl, rfl⟩
  | apiUpdateApiByApiDraftId iterationId apiDraftId userId name method path description level
      reqParams respParams =>
    exact ⟨_, _, apiUpdateApiByApiDraftId_hidden _ db iterationId apiDraftId userId name method path
      description level reqParams respParams, rfl, rfl, rfl, rfl⟩

theorem respond_withoutHashes (h : OrdersBlindly out.toEnvironment) (c : Call)
    (hc : ¬ ChecksPassword c) : respond out (withoutHashes db) c = respond out db c := by
  cases c with
  | query q => exact query_withoutHashes db h q hc
  | operation o =>
    obtain ⟨x, y, hhidden, hx, hy, -, -⟩ := operation_hidden db out h o hc
    rw [hx, hy]
    exact hhidden.map_eq (fun _ _ hpair => hpair.2)

end Calls

/-- Databases that differ in the hashes only get equal responses, and rows that differ in the hash
only are written alike for all arguments that the handlers pass, with the rows they are related
to. -/
theorem hashes_never_leak (times : Times) {out : Surroundings}
    (h : OrdersBlindly out.toEnvironment) {db₁ db₂ : Database} (hsame : SameButHashes db₁ db₂) :
    (∀ c, ¬ ChecksPassword c → respond out db₁ c = respond out db₂ c) ∧
      ∀ arguments e₁ e₂, Passed arguments e₁ → withoutHashIn e₁ = withoutHashIn e₂ →
        toJson times out.toEnvironment db₁ arguments e₁ =
          toJson times out.toEnvironment db₂ arguments e₂ := by
  constructor
  · intro c hc
    rw [← respond_withoutHashes db₁ h c hc, ← respond_withoutHashes db₂ h c hc, hsame]
  · intro arguments e₁ e₂ hpassed hrow
    have hhides := hpassed.hides
    have hclass : e₂.isUser = e₁.isUser := by
      cases e₁ <;> cases e₂ <;> first | rfl | cases hrow
    rw [← toJson_withoutHashes times db₁ h hhides, hsame, hrow,
      toJson_withoutHashes times db₂ h (hclass ▸ hhides)]

theorem setPassword_key (hash : VarChar 128) (u : User) : key (setPassword hash u) = key u := rfl

def rehashed (hash : VarChar 128) (db : Database) : Database :=
  { db with users := db.users.mapRows (setPassword hash) (setPassword_key hash) }

theorem same_rehashed (hash : VarChar 128) (db : Database) :
    SameButHashes db (rehashed hash db) := by
  unfold SameButHashes rehashed withoutHashes Table.mapRows
  simp only [List.map_map]
  rfl

def noTimes : Times := ⟨fun _ _ => .null, fun _ _ => .null, toString⟩

theorem published_hashes_hidden : ∃ other : Database,
    published.users.rows.map User.password ≠ other.users.rows.map User.password ∧
      respond plainSurroundings published (.query (.apiGetApiById 1 1 true)) =
        respond plainSurroundings other (.query (.apiGetApiById 1 1 true)) ∧
      toJson noTimes plainEnvironment published withRelations (.service publishedService) =
        toJson noTimes plainEnvironment other withRelations (.service publishedService) := by
  have hblind : OrdersBlindly plainSurroundings.toEnvironment := fun _ => rfl
  have hleak := hashes_never_leak noTimes hblind (same_rehashed ⟨"other", by decide⟩ published)
  exact ⟨_, by decide +kernel, hleak.1 _ id, hleak.2 _ _ _ (.service _) rfl⟩

/-- A request that neither checks a password nor gets users in the order of their hashes. -/
def Blind (request : Request) : Prop :=
  OrdersBlindly request.env ∧ ¬ ChecksPassword (.operation request.operation)

theorem transaction_withoutHashes (db : Database) {request : Request} (h : Blind request) :
    withoutHashes <$> transaction (withoutHashes db) request =
      withoutHashes <$> transaction db request := by
  obtain ⟨env, o⟩ := request
  obtain ⟨x, y, hhidden, -, -, hx, hy⟩ :=
    operation_hidden db { plainSurroundings with toEnvironment := env } h.1 o h.2
  have hfst : withoutHashes <$> (Prod.fst <$> x) = withoutHashes <$> (Prod.fst <$> y) := by
    cases hhidden with
    | ok hpair => exact congrArg Except.ok hpair.1
    | error e => rfl
  exact (congrArg (withoutHashes <$> ·) hx).trans
    (hfst.trans (congrArg (withoutHashes <$> ·) hy).symm)

theorem committed_same {request : Request} (h : Blind request) {db₁ db₂ : Database}
    (hsame : SameButHashes db₁ db₂) :
    SameButHashes (committed (transaction db₁ request) db₁)
      (committed (transaction db₂ request) db₂) := by
  have hmap : withoutHashes <$> transaction db₁ request =
      withoutHashes <$> transaction db₂ request := by
    rw [← transaction_withoutHashes db₁ h, ← transaction_withoutHashes db₂ h, hsame]
  cases h₁ : transaction db₁ request with
  | error e =>
    cases h₂ : transaction db₂ request with
    | error e' => exact hsame
    | ok d' =>
      rw [h₁, h₂] at hmap
      cases hmap
  | ok d =>
    cases h₂ : transaction db₂ request with
    | error e' =>
      rw [h₁, h₂] at hmap
      cases hmap
    | ok d' =>
      rw [h₁, h₂] at hmap
      exact Except.ok.inj hmap

/-- By induction on the requests. -/
theorem runs_same {requests : List Request} (h : ∀ request ∈ requests, Blind request)
    {db₁ db₂ : Database} (hsame : SameButHashes db₁ db₂) :
    SameButHashes (runEvents transaction db₁ requests) (runEvents transaction db₂ requests) := by
  induction requests generalizing db₁ db₂ with
  | nil => exact hsame
  | cons request requests ih =>
    obtain ⟨hrequest, hrequests⟩ := List.forall_mem_cons.mp h
    exact ih hrequests (committed_same hrequest hsame)

/-- No sequence of requests brings the hashes to light, one that registers users included. -/
theorem respond_after_run {out : Surroundings} (hout : OrdersBlindly out.toEnvironment)
    {requests : List Request} (h : ∀ request ∈ requests, Blind request) {db₁ db₂ : Database}
    (hsame : SameButHashes db₁ db₂) (c : Call) (hc : ¬ ChecksPassword c) :
    respond out (runEvents transaction db₁ requests) c =
      respond out (runEvents transaction db₂ requests) c := by
  have hruns := runs_same h hsame
  rw [← respond_withoutHashes _ hout c hc, hruns, respond_withoutHashes _ hout c hc]

end HiddenHashes
