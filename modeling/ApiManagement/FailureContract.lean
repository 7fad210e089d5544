import ApiManagement.Postconditions
import ApiManagement.ReadOperations
import ApiManagement.StateInvariant

/-! # What a failure looks like

A handler that does not succeed returns an object with a negative status and a message and leaves
the database alone. The commit of an iteration is the exception: it returns the whole result of
the permission check, in which the failure is nested. -/
namespace FailureContract

open TransactionRuns KeyedTables ParentLinkedRows PythonRuntime ServiceSchema ApiStores
  UserOperations ServiceOperations ApiOperations OpenapiExport OperationRuns OperationEffects
  StateInvariant ReadOperations Postconditions

/-- What a caller gets, with the keys `status` and `message` at the top level of an object. -/
inductive Returned where
  | object (status : Option ℤ) (message : Option String)
  | exception (e : Raised)

def Returned.ofReply {α : Type} (r : Reply α) : Returned := .object (some r.status) (some r.message)

/-- The result of the permission check has the keys `is_ok` and `error`. -/
def Returned.ofAbort : Abort → Returned
  | .reply status message => .object (some status) (some message)
  | .checkResult _ _ => .object none none
  | .raised e => .exception e

def Returned.ofAnswer : (c : Call) → Answer c → Returned
  | .query (.userGetUserById _), r => .ofReply r
  | .query (.userGetUserByUsernameOrNicknameOrEmail _), r => .ofReply r
  | .query (.userLogin _ _), r => .ofReply r
  | .query (.serviceGetAllServices _ _ _), r => .ofReply r
  | .query (.serviceGetServiceById _ _), r => .ofReply r
  | .query (.serviceGetHisNewestServicesByOwnerId _ _ _ _), r => .ofReply r
  | .query (.serviceGetHisMaintainedServicesByUserId _ _ _ _), r => .ofReply r
  | .query (.serviceGetServiceByUuidAndVersion _ _ _), r => .ofReply r
  | .query (.serviceGetAllVersionsByUuid _ _), r => .ofReply r
  | .query (.serviceGetAllDeletedServicesByUserId _ _ _), r => .ofReply r
  | .query (.serviceIsMaintainer _ _ _), r => .ofReply r
  | .query (.serviceGetServiceIterationById _ _), r => .ofReply r
  | .query (.serviceExportOpenapiByUuidAndVersion _ _ _), r => .ofReply r
  | .query (.apiGetAllCategoriesByServiceId _ _), r => .ofReply r
  | .query (.apiGetAllApisByServiceId _ _ _), r => .ofReply r
  | .query (.apiGetApiById _ _ _), r => .ofReply r
  | .operation (.userRegister _ _ _ _ _), r => .ofReply r
  | .operation (.userModifyPassword _ _ _), r => .ofReply r
  | .operation (.serviceCreateNewService _ _ _), r => .ofReply r
  | .operation (.serviceAddOrRemoveServiceMaintainerById _ _ _), r => .ofReply r
  | .operation (.serviceDeleteServiceById _ _), r => .ofReply r
  | .operation (.serviceRestoreServiceById _ _), r => .ofReply r
  | .operation (.serviceDeleteIterationById _ _), r => .ofReply r
  | .operation (.serviceStartIteration _ _), r => .ofReply r
  | .operation (.serviceCommitIteration _ _ _), .ok r => .ofReply r
  | .operation (.serviceCommitIteration _ _ _), .error e => .exception e
  | .operation (.serviceUpdateDescription _ _ _), r => .ofReply r
  | .operation (.apiAddCategoryByServiceId _ _ _ _), r => .ofReply r
  | .operation (.apiDeleteCategoryById _ _), r => .ofReply r
  | .operation (.apiUpdateCategoryById _ _ _ _), r => .ofReply r
  | .operation (.apiUpdateApiCategory _ _ _), r => .ofReply r
  | .operation (.apiAddApi _ _ _ _ _ _ _ _), r => .ofReply r
  | .operation (.apiCopyApiByApiDraftId _ _ _), r => .ofReply r
  | .operation (.apiDeleteApiByApiDraftId _ _ _), r => .ofReply r
  | .operation (.apiUpdateApiByApiDraftId _ _ _ _ _ _ _ _ _ _), r => .ofReply r

def returned (out : Surroundings) (db : Database) (c : Call) : Returned :=
  match respond out db c with
  | .ok r => .ofAnswer c r
  | .error e => .ofAbort e

theorem returned_ok {out : Surroundings} {db : Database} {c : Call} {r : Answer c}
    (h : respond out db c = .ok r) : returned out db c = .ofAnswer c r := by
  rw [returned, h]

theorem returned_error {out : Surroundings} {db : Database} {c : Call} {e : Abort}
    (h : respond out db c = .error e) : returned out db c = .ofAbort e := by
  rw [returned, h]

def after (out : Surroundings) (db : Database) : Call → Database
  | .query _ => db
  | .operation o => committed (transaction db ⟨out.toEnvironment, o⟩) db

/-- An abort that is returned as the contract asks, or raised. -/
def Returnable : Abort → Prop
  | .reply status message => status < 0 ∧ message ≠ ""
  | .checkResult _ _ => False
  | .raised _ => True

@[simp] theorem returnable_reply {status : ℤ} {message : String} :
    Returnable (.reply status message) ↔ status < 0 ∧ message ≠ "" := Iff.rfl

@[simp] theorem returnable_raised {e : Raised} : Returnable (.raised e) := trivial

def IsRaised : Abort → Prop
  | .raised _ => True
  | _ => False

theorem IsRaised.returnable {e : Abort} (h : IsRaised e) : Returnable e := by
  cases e with
  | reply => cases h
  | checkResult => cases h
  | raised => trivial

abbrev OnlyRaises {α : Type} (x : Tx α) : Prop := Ensures (fun _ => True) IsRaised x

section Raising

variable {α : Type} {x : Tx α} {P : α → Prop}

theorem OnlyRaises.ensures (h : OnlyRaises x) (hP : ∀ a, P a) : Ensures P Returnable x :=
  h.mono (fun a _ => hP a) (fun _ => IsRaised.returnable)

@[simp] theorem onlyRaises_liftRows (y : Except RowError α) : OnlyRaises (liftRows y) := by
  cases y with
  | ok a => trivial
  | error e => cases e <;> trivial

@[simp] theorem onlyRaises_bound (o : Option α) : OnlyRaises (bound o) := by
  simp [bound, IsRaised]

@[simp] theorem onlyRaises_notNull (o : Option α) : OnlyRaises (notNull o) := by
  simp [notNull, IsRaised]

theorem OnlyRaises.bind {β : Type} {f : α → Tx β} (h : OnlyRaises x)
    (hf : ∀ a, OnlyRaises (f a)) : OnlyRaises (x >>= f) := by
  rw [OnlyRaises, ensures_bind]
  exact h.mono (fun a _ => hf a) (fun _ he => he)

end Raising

section Stores

variable (env : Environment) (refs : References)

theorem insertApi_onlyRaises (c : ℕ) (f : ApiFields) (st : ApiStore) :
    OnlyRaises (insertApi refs c f st) := by
  simp [insertApi, IsRaised]

theorem copyApis_onlyRaises (source : ApiStore) (apis : List ApiRow) (c : ℕ) (st : ApiStore) :
    OnlyRaises (copyApis env refs source apis c st) := by
  refine Ensures.foldlM ?_ trivial
  intro st a _ _
  refine (insertApi_onlyRaises refs c _ st).bind ?_
  intro st'
  refine (onlyRaises_liftRows _).bind ?_
  intro requests
  refine (onlyRaises_liftRows _).bind ?_
  intro responses
  trivial

theorem copyParamsRecursively_onlyRaises {F : Type} (held : ℕ → Bool) (apiDraftId : ℕ)
    (source : List (LinkedRow F)) (t : Table (LinkedRow F)) :
    OnlyRaises (copyParamsRecursively env held apiDraftId source t) := by
  refine Ensures.foldlM ?_ trivial
  intro u p _ _
  exact onlyRaises_liftRows _

theorem copyDraft_onlyRaises (iterationId : ℕ) (draft : ApiDraft) (f : ApiFields)
    (st : ApiStore) : OnlyRaises (copyDraft env refs iterationId draft f st) := by
  refine (insertApi_onlyRaises refs iterationId f st).bind ?_
  intro st'
  refine (copyParamsRecursively_onlyRaises env _ _ _ _).bind ?_
  intro requests
  refine (copyParamsRecursively_onlyRaises env _ _ _ _).bind ?_
  intro responses
  trivial

theorem bindVarChar_onlyRaises (n : ℕ) (v : JsonValue) : OnlyRaises (bindVarChar env n v) := by
  refine (onlyRaises_bound _).bind ?_
  intro s
  cases s with
  | none => trivial
  | some s => exact (onlyRaises_bound _).bind (fun _ => trivial)

def RecordRaises (F : Type) [ParamModel F] : Prop :=
  ∀ entry name location type child,
    OnlyRaises (ParamModel.record (F := F) env entry name location type child)

theorem requestRecord_raises : RecordRaises env RequestFields := by
  intro entry name location type child
  refine (bindVarChar_onlyRaises env 64 name).bind (fun _ => ?_)
  refine (onlyRaises_notNull _).bind (fun _ => ?_)
  refine (onlyRaises_bound _).bind (fun _ => ?_)
  refine (bindVarChar_onlyRaises env 256 _).bind (fun _ => ?_)
  refine (onlyRaises_bound _).bind (fun _ => ?_)
  refine (bindVarChar_onlyRaises env 256 _).bind (fun _ => ?_)
  trivial

theorem responseRecord_raises : RecordRaises env ResponseFields := by
  intro entry name location type child
  refine (onlyRaises_bound _).bind (fun _ => ?_)
  refine (onlyRaises_notNull _).bind (fun _ => ?_)
  refine (bindVarChar_onlyRaises env 64 name).bind (fun _ => ?_)
  refine (onlyRaises_notNull _).bind (fun _ => ?_)
  refine (onlyRaises_bound _).bind (fun _ => ?_)
  refine (onlyRaises_bound _).bind (fun _ => ?_)
  refine (bindVarChar_onlyRaises env 256 _).bind (fun _ => ?_)
  trivial

section Payload

variable {F : Type} [ParamModel F] {env} {held : ℕ → Bool} {apiDraftId : ℕ}

theorem orAbort_onlyRaises {α : Type} (o : Option α) (e : Raised) :
    OnlyRaises (orAbort o (.raised e)) := by
  simp [IsRaised]

mutual

theorem processParam_onlyRaises (hrecord : RecordRaises env F) :
    ∀ (p : ParamInput) (parent : Option ℕ) (location : JsonValue) (t : Table (LinkedRow F)),
      OnlyRaises (processParam env held apiDraftId parent location p t)
  | .other, _, _, _ => by
    rw [processParam]
    trivial
  | .dict entry children, parent, location, t => by
    rw [processParam]
    refine (orAbort_onlyRaises _ _).bind (fun name => ?_)
    refine (orAbort_onlyRaises _ _).bind (fun type => ?_)
    refine (hrecord _ _ _ _ _).bind (fun fields => ?_)
    refine (onlyRaises_liftRows _).bind (fun t' => ?_)
    split
    · exact processParamsRecursively_onlyRaises hrecord children _ _ t'
    · trivial

theorem processParamsRecursively_onlyRaises (hrecord : RecordRaises env F) :
    ∀ (ps : List ParamInput) (parent : Option ℕ) (location : JsonValue) (t : Table (LinkedRow F)),
      OnlyRaises (processParamsRecursively env held apiDraftId parent location ps t)
  | [], _, _, _ => by
    rw [processParamsRecursively]
    trivial
  | p :: ps, parent, location, t => by
    rw [processParamsRecursively]
    refine (processParam_onlyRaises hrecord p parent location t).bind (fun t' => ?_)
    exact processParamsRecursively_onlyRaises hrecord ps parent location t'

end

end Payload

theorem rewriteDraft_onlyRaises (draft : ApiDraft) (f : ApiFields)
    (reqParams respParams : JsonValue) (st : ApiStore) :
    OnlyRaises (rewriteDraft env draft f reqParams respParams st) := by
  have hrewrite : ∀ st, OnlyRaises (rewriteApi draft f st) := by
    intro st
    simp [rewriteApi, IsRaised]
  refine (hrewrite _).bind (fun st' => ?_)
  refine (processParamsRecursively_onlyRaises (requestRecord_raises env) _ _ _ _).bind
    (fun requests => ?_)
  refine (processParamsRecursively_onlyRaises (responseRecord_raises env) _ _ _ _).bind
    (fun responses => ?_)
  trivial

end Stores

section Export

variable {F : Type} [DescribedFields F] (n : Numerals)

theorem defaultMembers_onlyRaises (f : F) : OnlyRaises (defaultMembers n f) := by
  unfold defaultMembers
  split
  · trivial
  · split
    · trivial
    · split
      · trivial
      · exact (orAbort_onlyRaises _ _).bind (fun _ => trivial)
      · exact (orAbort_onlyRaises _ _).bind (fun _ => trivial)
      · trivial
      · trivial

mutual

theorem buildParamSchema_onlyRaises : ∀ t : RowForests.RoseTree F,
    OnlyRaises (buildParamSchema n t)
  | .node f ts => by
    have hparts := addProperties_onlyRaises ts .empty
    rw [buildParamSchema]
    have hrest : ∀ nested, OnlyRaises (do
        let default ← defaultMembers n f
        pure (JsonValue.obj (getTypeSchema (some (type f)) ++ nested ++ exampleMembers f ++
          default))) :=
      fun nested => (defaultMembers_onlyRaises n f).bind (fun _ => trivial)
    split
    · exact hparts.bind (fun _ => hrest _)
    · exact hparts.bind (fun _ => hrest _)
    · exact hrest _
    · exact hrest _

theorem addProperties_onlyRaises : ∀ (ts : List (RowForests.RoseTree F)) (parts : ObjectParts),
    OnlyRaises (addProperties n parts ts)
  | [], _ => by
    rw [addProperties]
    trivial
  | t :: ts, parts => by
    rw [addProperties]
    exact (buildParamSchema_onlyRaises t).bind (fun _ => addProperties_onlyRaises ts _)

end

theorem buildRootSchema_onlyRaises (params : List (RowForests.RoseTree F)) :
    OnlyRaises (buildRootSchema n params) :=
  (addProperties_onlyRaises n params .empty).bind (fun _ => trivial)

theorem parameters_onlyRaises (a : LoadedApi) : OnlyRaises (parameters n a) := by
  refine Ensures.foldlM ?_ trivial
  intro done location _ _
  refine OnlyRaises.bind (Ensures.mapM ?_) (fun _ => trivial)
  intro t _
  exact (buildParamSchema_onlyRaises n t).bind (fun _ => trivial)

theorem requestBody_onlyRaises (a : LoadedApi) (schemas : Members) :
    OnlyRaises (requestBody n a schemas) := by
  unfold requestBody
  by_cases h : (requestsAt a .body).isEmpty = true
  · rw [if_pos h]
    trivial
  · rw [if_neg h]
    exact (buildRootSchema_onlyRaises n _).bind (fun _ => trivial)

theorem responses_onlyRaises (a : LoadedApi) (schemas : Members) :
    OnlyRaises (responses n a schemas) := by
  refine Ensures.foldlM ?_ trivial
  intro done statusCode _ _
  exact (buildRootSchema_onlyRaises n _).bind (fun _ => trivial)

theorem openapiTemplate_onlyRaises (service : ExportSource) :
    OnlyRaises (openapiTemplate n service) := by
  have hapis : OnlyRaises (service.apis.foldlM (exportApi n) ⟨[], []⟩) := by
    refine Ensures.foldlM ?_ trivial
    intro d a _ _
    refine (parameters_onlyRaises n a).bind (fun _ => ?_)
    refine (requestBody_onlyRaises n a _).bind (fun _ => ?_)
    refine (responses_onlyRaises n a _).bind (fun _ => ?_)
    trivial
  exact hapis.bind (fun _ => (orAbort_onlyRaises _ _).bind (fun _ => trivial))

theorem exportSource_onlyRaises (env : Environment) (db : Database) (d : VersionDetail) :
    OnlyRaises (exportSource env db d) := by
  cases d with
  | latest d => trivial
  | earlier d => exact (orAbort_onlyRaises _ _).bind (fun _ => trivial)

end Export

section Checks

variable {db : Database} {P : Unit → Prop} {c : Bool} {user : Option User} {e : Abort}

theorem levelAboveZeroIf_onlyRaises : OnlyRaises (levelAboveZeroIf c user) := by
  unfold levelAboveZeroIf
  cases c with
  | false => trivial
  | true => cases user <;> trivial

/-- Reading the level of a missing user raises, and a level above 0 is the failure given. -/
@[simp] theorem ensures_requireLevelZeroIf (he : Returnable e) (hP : P ()) :
    Ensures P Returnable (requireLevelZeroIf c user e) := by
  refine (ensures_bind).mpr (levelAboveZeroIf_onlyRaises.ensures ?_)
  intro above
  rw [ensures_require]
  exact ⟨fun _ => hP, fun _ => he⟩

@[simp] theorem ensures_levelAboveZeroIf {P : Bool → Prop} (hP : ∀ b, P b) :
    Ensures P Returnable (levelAboveZeroIf c user) :=
  levelAboveZeroIf_onlyRaises.ensures hP

@[simp] theorem ensures_requireSelfOrLevelZero {userId myId : ℕ} (he : Returnable e)
    (hP : P ()) : Ensures P Returnable (requireSelfOrLevelZero db userId myId e) := by
  simp [requireSelfOrLevelZero, he, hP]

@[simp] theorem ensures_page {α : Type} {P : List α → Prop} {pageSize currentPage : ℤ}
    {rows : List α} (hP : ∀ l, P l) : Ensures P Returnable (page pageSize currentPage rows) := by
  simp [page, hP]

@[simp] theorem ensures_permission {P : ServiceIteration × Option User → Prop}
    {iterationId userId : ℕ} (hP : ∀ p, P p) :
    Ensures P Returnable (checkServiceIterationPermission db iterationId userId) := by
  simp [checkServiceIterationPermission, hP]

@[simp] theorem ensures_bound {α : Type} {P : α → Prop} {o : Option α} (hP : ∀ a, P a) :
    Ensures P Returnable (bound o) := (onlyRaises_bound o).ensures hP

end Checks

abbrev Answers {α : Type} (x : Tx (Reply α)) : Prop :=
  Ensures (fun r => r.status = 200) Returnable x

section Queries

variable (out : Surroundings) (env : Environment) (db : Database)

theorem userGetUserById_answers (id : ℕ) : Answers (userGetUserById id db) := by
  simp [userGetUserById]

theorem userGetUserByUsernameOrNicknameOrEmail_answers (keyword : String) :
    Answers (userGetUserByUsernameOrNicknameOrEmail out keyword db) := by
  simp [userGetUserByUsernameOrNicknameOrEmail]

theorem userLogin_answers (username password : String)
    (htoken : ∀ id name, OnlyRaises (out.accessToken id name)) :
    Answers (userLogin out username password db) := by
  have hsigned : ∀ (P : String → Prop) id name, (∀ t, P t) →
      Ensures P Returnable (out.accessToken id name) :=
    fun P id name hP => (htoken id name).ensures hP
  simp [userLogin, hsigned]

theorem serviceGetAllServices_answers (userId : ℕ) (pageSize currentPage : ℤ) :
    Answers (serviceGetAllServices userId pageSize currentPage db) := by
  simp [serviceGetAllServices]

theorem serviceGetServiceById_answers (id userId : ℕ) :
    Answers (serviceGetServiceById env id userId db) := by
  simp [serviceGetServiceById]

theorem serviceGetHisNewestServicesByOwnerId_answers (ownerId myId : ℕ)
    (pageSize currentPage : ℤ) :
    Answers (serviceGetHisNewestServicesByOwnerId ownerId myId pageSize currentPage db) := by
  simp [serviceGetHisNewestServicesByOwnerId]

theorem serviceGetHisMaintainedServicesByUserId_answers (userId myId : ℕ)
    (pageSize currentPage : ℤ) :
    Answers (serviceGetHisMaintainedServicesByUserId userId myId pageSize currentPage db) := by
  simp [serviceGetHisMaintainedServicesByUserId]

theorem serviceGetServiceByUuidAndVersion_answers (serviceUuid version : String) (userId : ℕ) :
    Answers (serviceGetServiceByUuidAndVersion env serviceUuid version userId db) := by
  simp only [serviceGetServiceByUuidAndVersion, Answers, ensures_bind, ensures_orAbort]
  refine ⟨?_, by simp⟩
  intro s _
  split
  · simp
  · simp

theorem serviceGetAllVersionsByUuid_answers (serviceUuid : String) (userId : ℕ) :
    Answers (serviceGetAllVersionsByUuid env serviceUuid userId db) := by
  simp [serviceGetAllVersionsByUuid]

theorem serviceGetAllDeletedServicesByUserId_answers (userId : ℕ) (pageSize currentPage : ℤ) :
    Answers (serviceGetAllDeletedServicesByUserId env userId pageSize currentPage db) := by
  simp [serviceGetAllDeletedServicesByUserId]

theorem serviceIsMaintainer_answers (serviceId userId candidateId : ℕ) :
    Answers (serviceIsMaintainer serviceId userId candidateId db) := by
  simp [serviceIsMaintainer]

theorem serviceGetServiceIterationById_answers (id userId : ℕ) :
    Answers (serviceGetServiceIterationById env id userId db) := by
  simp [serviceGetServiceIterationById]

theorem serviceExportOpenapiByUuidAndVersion_answers (serviceUuid version : String)
    (userId : ℕ) :
    Answers (serviceExportOpenapiByUuidAndVersion out serviceUuid version userId db) := by
  unfold serviceExportOpenapiByUuidAndVersion Answers
  rw [ensures_bind]
  refine (serviceGetServiceByUuidAndVersion_answers _ db serviceUuid version userId).mono ?_
    (fun _ he => he)
  intro found _
  rw [ensures_bind]
  refine (exportSource_onlyRaises _ db found.data).ensures ?_
  intro source
  rw [ensures_bind]
  refine (openapiTemplate_onlyRaises _ source).ensures ?_
  intro openapi
  trivial

theorem apiGetAllCategoriesByServiceId_answers (serviceId userId : ℕ) :
    Answers (apiGetAllCategoriesByServiceId serviceId userId db) := by
  simp [apiGetAllCategoriesByServiceId]

theorem apiGetAllApisByServiceId_answers (serviceId userId : ℕ) (categoryId : Option ℕ) :
    Answers (apiGetAllApisByServiceId serviceId userId categoryId db) := by
  simp [apiGetAllApisByServiceId]

theorem apiGetApiById_answers (apiId userId : ℕ) (isLatest : Bool) :
    Answers (apiGetApiById env apiId userId isLatest db) := by
  simp only [apiGetApiById, Answers, ensures_bind, ensures_orAbort]
  refine ⟨?_, by simp⟩
  intro a _
  refine ⟨?_, by simp⟩
  intro v _
  have hmessage : String.append "You are neither the owner nor the maintainer of this service, "
      "nor the creator of this service iteration" ≠ "" := by decide
  split
  · split
    · simp
    · simp [hmessage]
  · simp

end Queries

abbrev Performs {α : Type} (x : Tx (Database × Reply α)) : Prop :=
  Ensures (fun p => p.2.status = 200) Returnable x

section Operations

variable (env : Environment) (db : Database)

theorem userRegister_performs (username password : String) (nickname email : Option String)
    (role : String) : Performs (userRegister env username password nickname email role db) := by
  have hoptional : ∀ (n : ℕ) (s : Option String) (P : Option (VarChar n) → Prop),
      (∀ v, P v) → Ensures P Returnable (optionalVarChar n s) := by
    intro n s P hP
    cases s with
    | none => exact hP none
    | some s => simp [optionalVarChar, hP]
  simp [userRegister, hoptional]

theorem userModifyPassword_performs (id : ℕ) (oldPassword newPassword : String) :
    Performs (userModifyPassword env id oldPassword newPassword db) := by
  simp [userModifyPassword]

theorem serviceCreateNewService_performs (serviceUuid : String) (ownerId : ℕ)
    (description : Option String) :
    Performs (serviceCreateNewService env serviceUuid ownerId description db) := by
  simp [serviceCreateNewService]

theorem serviceAddOrRemoveServiceMaintainerById_performs (serviceId userId candidateId : ℕ) :
    Performs (serviceAddOrRemoveServiceMaintainerById serviceId userId candidateId db) := by
  simp only [serviceAddOrRemoveServiceMaintainerById, Performs, ensures_bind, ensures_orAbort]
  refine ⟨?_, by simp⟩
  intro s _
  refine ensures_requireLevelZeroIf (by simp) ?_
  rw [ensures_require]
  refine ⟨fun _ => ⟨?_, fun _ => by simp⟩, fun _ => by simp⟩
  intro candidate _
  split
  · simp
  · simp

theorem serviceDeleteServiceById_performs (id userId : ℕ) :
    Performs (serviceDeleteServiceById env id userId db) := by
  simp [serviceDeleteServiceById]

theorem serviceRestoreServiceById_performs (id userId : ℕ) :
    Performs (serviceRestoreServiceById id userId db) := by
  simp [serviceRestoreServiceById]

theorem serviceDeleteIterationById_performs (iterationId userId : ℕ) :
    Performs (serviceDeleteIterationById iterationId userId db) := by
  simp [serviceDeleteIterationById]

theorem serviceUpdateDescription_performs (iterationId : ℕ) (description : Option String)
    (userId : ℕ) : Performs (serviceUpdateDescription iterationId description userId db) := by
  simp [serviceUpdateDescription]

/-- The one operation with a second success, for an iteration in progress. -/
theorem serviceStartIteration_performs (serviceId userId : ℕ) :
    Ensures (fun p => p.2.status = 200 ∨ p.2.status = 201 ∧ p.1 = db) Returnable
      (serviceStartIteration env serviceId userId db) := by
  simp only [serviceStartIteration, ensures_bind, ensures_orAbort]
  refine ⟨?_, by simp⟩
  intro s _
  refine ensures_requireLevelZeroIf (by simp) ?_
  split
  · exact Or.inr ⟨rfl, rfl⟩
  · rw [ensures_bind]
    refine OnlyRaises.ensures ?_ (fun _ => Or.inl rfl)
    unfold startNewIteration
    rw [OnlyRaises, ensures_bind, ensures_require]
    refine ⟨fun _ => ?_, fun _ => trivial⟩
    exact (copyApis_onlyRaises env _ _ _ _ _).bind (fun _ => trivial)

theorem apiAddCategoryByServiceId_performs (serviceId userId : ℕ) (categoryName : String)
    (description : Option String) :
    Performs (apiAddCategoryByServiceId serviceId userId categoryName description db) := by
  simp [apiAddCategoryByServiceId]

theorem apiDeleteCategoryById_performs (categoryId userId : ℕ) :
    Performs (apiDeleteCategoryById categoryId userId db) := by
  simp [apiDeleteCategoryById]

theorem apiUpdateCategoryById_performs (categoryId userId : ℕ)
    (categoryName description : Option String) :
    Performs (apiUpdateCategoryById categoryId userId categoryName description db) := by
  have hname : ∀ P : String → Prop, (∀ s, P s) → Ensures P Returnable (notNull categoryName) :=
    fun P hP => (onlyRaises_notNull categoryName).ensures hP
  simp [apiUpdateCategoryById, hname]

theorem apiUpdateApiCategory_performs (apiId : ℕ) (categoryId : ℤ) (userId : ℕ) :
    Performs (apiUpdateApiCategory apiId categoryId userId db) := by
  simp only [apiUpdateApiCategory, Performs, ensures_bind, ensures_orAbort]
  refine ⟨?_, by simp⟩
  intro a _
  refine ⟨?_, by simp⟩
  intro v _
  refine ⟨?_, by simp⟩
  intro s _
  refine ensures_requireLevelZeroIf (by simp) ?_
  rw [ensures_require]
  refine ⟨fun _ => ?_, fun _ => by simp⟩
  split
  · simp
  · simp

theorem apiAddApi_performs (iterationId userId : ℕ) (name method path : String)
    (description : Option String) (level : String) (categoryId : Option ℕ) :
    Performs (apiAddApi iterationId userId name method path description level categoryId db) := by
  have hcategory : ∀ (P : Unit → Prop) serviceId, P () →
      Ensures P Returnable (requireCategory db categoryId serviceId) := by
    intro P serviceId hP
    cases categoryId with
    | none => exact hP
    | some k => simp [requireCategory, hP]
  have hinsert : ∀ (P : ApiStore → Prop) refs c f st, (∀ st, P st) →
      Ensures P Returnable (insertApi refs c f st) :=
    fun P refs c f st hP => (insertApi_onlyRaises refs c f st).ensures hP
  simp [apiAddApi, hcategory, hinsert]

/-- The checks of a draft fail as the contract asks. -/
theorem ensures_draftOfIteration {P : ApiDraft → Prop} (iterationId apiDraftId userId : ℕ)
    (hP : ∀ d, P d) : Ensures P Returnable (draftOfIteration db iterationId apiDraftId userId) := by
  simp [draftOfIteration, hP]

theorem apiCopyApiByApiDraftId_performs (iterationId apiDraftId userId : ℕ) :
    Performs (apiCopyApiByApiDraftId env iterationId apiDraftId userId db) := by
  unfold apiCopyApiByApiDraftId Performs
  rw [ensures_bind]
  refine ensures_draftOfIteration db _ _ _ (fun d => ?_)
  rw [ensures_bind]
  refine ensures_bound (fun name => ?_)
  rw [ensures_bind]
  refine ensures_bound (fun path => ?_)
  rw [ensures_bind]
  exact (copyDraft_onlyRaises env _ _ _ _ _).ensures (fun _ => rfl)

theorem apiDeleteApiByApiDraftId_performs (iterationId apiDraftId userId : ℕ) :
    Performs (apiDeleteApiByApiDraftId iterationId apiDraftId userId db) := by
  unfold apiDeleteApiByApiDraftId Performs
  rw [ensures_bind]
  exact ensures_draftOfIteration db _ _ _ (fun _ => rfl)

theorem apiUpdateApiByApiDraftId_performs (iterationId apiDraftId userId : ℕ)
    (name method path : String) (description : Option String) (level : String)
    (reqParams respParams : JsonValue) :
    Performs (apiUpdateApiByApiDraftId env iterationId apiDraftId userId name method path
      description level reqParams respParams db) := by
  unfold apiUpdateApiByApiDraftId Performs
  rw [ensures_bind]
  refine ensures_draftOfIteration db _ _ _ (fun d => ?_)
  rw [ensures_bind]
  refine ensures_bound (fun name => ?_)
  rw [ensures_bind]
  refine ensures_bound (fun path => ?_)
  rw [ensures_bind]
  exact (rewriteDraft_onlyRaises env _ _ _ _ _).ensures (fun _ => rfl)

end Operations

end FailureContract
