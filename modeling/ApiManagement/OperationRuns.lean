import ApiManagement.DraftWrites

/-! # Operations, their effects and runs of them

A request is one operation of the service layer together with its environment. `Effect` says
once, for each operation, what a successful transaction does to the database and who was
allowed to ask for it; every later invariant is a case analysis on it. -/
namespace OperationRuns

open TransactionRuns KeyedTables ParentLinkedRows PythonRuntime ServiceSchema ApiStores
  UserOperations ServiceOperations ApiOperations

inductive Operation where
  | userRegister (username password : String) (nickname email : Option String) (role : String)
  | userModifyPassword (userId : ℕ) (oldPassword newPassword : String)
  | serviceCreateNewService (serviceUuid : String) (userId : ℕ) (description : Option String)
  | serviceAddOrRemoveServiceMaintainerById (serviceId userId candidateId : ℕ)
  | serviceDeleteServiceById (serviceId userId : ℕ)
  | serviceRestoreServiceById (serviceId userId : ℕ)
  | serviceDeleteIterationById (iterationId userId : ℕ)
  | serviceStartIteration (serviceId userId : ℕ)
  | serviceCommitIteration (iterationId : ℕ) (newVersion : String) (userId : ℕ)
  | serviceUpdateDescription (iterationId : ℕ) (description : Option String) (userId : ℕ)
  | apiAddCategoryByServiceId (serviceId userId : ℕ) (name : String) (description : Option String)
  | apiDeleteCategoryById (categoryId userId : ℕ)
  | apiUpdateCategoryById (categoryId userId : ℕ) (name description : Option String)
  | apiUpdateApiCategory (apiId : ℕ) (categoryId : ℤ) (userId : ℕ)
  | apiAddApi (iterationId userId : ℕ) (name method path : String) (description : Option String)
      (level : String) (categoryId : Option ℕ)
  | apiCopyApiByApiDraftId (iterationId apiDraftId userId : ℕ)
  | apiDeleteApiByApiDraftId (iterationId apiDraftId userId : ℕ)
  | apiUpdateApiByApiDraftId (iterationId apiDraftId userId : ℕ) (name method path : String)
      (description : Option String) (level : String) (reqParams respParams : JsonValue)

structure Request where
  env : Environment
  operation : Operation

def transaction (db : Database) (request : Request) : Tx Database :=
  let env := request.env
  match request.operation with
  | .userRegister username password nickname email role =>
    Prod.fst <$> userRegister env username password nickname email role db
  | .userModifyPassword userId oldPassword newPassword =>
    Prod.fst <$> userModifyPassword env userId oldPassword newPassword db
  | .serviceCreateNewService serviceUuid userId description =>
    Prod.fst <$> serviceCreateNewService env serviceUuid userId description db
  | .serviceAddOrRemoveServiceMaintainerById serviceId userId candidateId =>
    Prod.fst <$> serviceAddOrRemoveServiceMaintainerById serviceId userId candidateId db
  | .serviceDeleteServiceById serviceId userId =>
    Prod.fst <$> serviceDeleteServiceById env serviceId userId db
  | .serviceRestoreServiceById serviceId userId =>
    Prod.fst <$> serviceRestoreServiceById serviceId userId db
  | .serviceDeleteIterationById iterationId userId =>
    Prod.fst <$> serviceDeleteIterationById iterationId userId db
  | .serviceStartIteration serviceId userId =>
    Prod.fst <$> serviceStartIteration env serviceId userId db
  | .serviceCommitIteration iterationId newVersion userId =>
    Prod.fst <$> serviceCommitIteration env iterationId newVersion userId db
  | .serviceUpdateDescription iterationId description userId =>
    Prod.fst <$> serviceUpdateDescription iterationId description userId db
  | .apiAddCategoryByServiceId serviceId userId name description =>
    Prod.fst <$> apiAddCategoryByServiceId serviceId userId name description db
  | .apiDeleteCategoryById categoryId userId =>
    Prod.fst <$> apiDeleteCategoryById categoryId userId db
  | .apiUpdateCategoryById categoryId userId name description =>
    Prod.fst <$> apiUpdateCategoryById categoryId userId name description db
  | .apiUpdateApiCategory apiId categoryId userId =>
    Prod.fst <$> apiUpdateApiCategory apiId categoryId userId db
  | .apiAddApi iterationId userId name method path description level categoryId =>
    Prod.fst <$> apiAddApi iterationId userId name method path description level categoryId db
  | .apiCopyApiByApiDraftId iterationId apiDraftId userId =>
    Prod.fst <$> apiCopyApiByApiDraftId env iterationId apiDraftId userId db
  | .apiDeleteApiByApiDraftId iterationId apiDraftId userId =>
    Prod.fst <$> apiDeleteApiByApiDraftId iterationId apiDraftId userId db
  | .apiUpdateApiByApiDraftId iterationId apiDraftId userId name method path description level
      reqParams respParams =>
    Prod.fst <$> apiUpdateApiByApiDraftId env iterationId apiDraftId userId name method path
      description level reqParams respParams db

def ReachableUnder (guard : Database → Request → Prop) (db : Database) : Prop :=
  ∃ db₀, Initial db₀ ∧ Runs transaction guard db₀ db

def Reachable : Database → Prop := ReachableUnder (fun _ _ => True)

theorem ReachableUnder.reachable {guard : Database → Request → Prop} {db : Database}
    (h : ReachableUnder guard db) : Reachable db := by
  obtain ⟨db₀, hi, hr⟩ := h
  exact ⟨db₀, hi, hr.mono (fun _ _ _ => trivial)⟩

def member (i : ℕ) (username : VarChar 64) : User :=
  ⟨i, username, ⟨"hash", by decide⟩, none, none, .guest, .l4⟩

def twoUsers : Database where
  users := ⟨[member 1 ⟨"owner", by decide⟩, member 2 ⟨"colleague", by decide⟩], 3, by decide,
    by decide, by decide⟩
  services := Table.empty
  userServiceLink := ∅
  iterations := Table.empty
  categories := Table.empty
  live := ApiStore.empty
  drafts := ApiStore.empty

theorem twoUsers_initial : Initial twoUsers :=
  ⟨by decide, by decide, rfl, rfl, rfl, rfl, rfl, rfl⟩

def play (db : Database) (operations : List Operation) : Database :=
  runEvents transaction db (operations.map (fun operation => ⟨plainEnvironment, operation⟩))

def userPayload : JsonValue :=
  .arr [.obj [("name", .str "user"), ("type", .str "object"), ("location", .str "body"),
    ("children", .arr [.obj [("name", .str "age"), ("type", .str "int")]])]]

/-- User 1 creates a service and publishes one api with it. -/
def publishing : List Operation :=
  [.serviceCreateNewService "team/core" 1 (some "core"),
    .serviceStartIteration 1 1,
    .apiAddApi 1 1 "list" "GET" "/users" none "P2" none,
    .apiUpdateApiByApiDraftId 1 1 1 "list" "GET" "/users" none "P1" userPayload .null,
    .serviceUpdateDescription 1 (some "core") 1,
    .serviceCommitIteration 1 "0.0.2" 1]

def published : Database := play twoUsers publishing

def publishedService : Service :=
  ⟨1, 1, ⟨"team/core", by decide⟩, ⟨"0.0.2", by decide⟩, some "core", false, none⟩

theorem publishedService_mem : publishedService ∈ published.services.rows := by decide +kernel

theorem runs_play {guard : Database → Request → Prop} {db₀ db : Database}
    (h : Runs transaction guard db₀ db) (operations : List Operation)
    (hg : ∀ operation ∈ operations, ∀ d, guard d ⟨plainEnvironment, operation⟩) :
    Runs transaction guard db₀ (play db operations) := by
  refine runs_runEvents _ _ _ ?_ h
  intro e he
  obtain ⟨operation, ho, rfl⟩ := List.mem_map.mp he
  exact hg operation ho

theorem ReachableUnder.play {guard : Database → Request → Prop} {db : Database}
    (h : ReachableUnder guard db) (operations : List Operation)
    (hg : ∀ operation ∈ operations, ∀ d, guard d ⟨plainEnvironment, operation⟩) :
    ReachableUnder guard (play db operations) := by
  obtain ⟨db₀, h₀, hr⟩ := h
  exact ⟨db₀, h₀, runs_play hr operations hg⟩

theorem Reachable.play {db : Database} (h : Reachable db) (operations : List Operation) :
    Reachable (play db operations) :=
  ReachableUnder.play h operations (fun _ _ _ => trivial)

theorem twoUsers_reachable {guard : Database → Request → Prop} : ReachableUnder guard twoUsers :=
  ⟨twoUsers, twoUsers_initial, .refl _⟩

theorem published_reachable : Reachable published :=
  Reachable.play twoUsers_reachable publishing

def opened : Database := play published [.serviceStartIteration 1 1]

theorem opened_reachable : Reachable opened := published_reachable.play _

/-- A handler that succeeds leaves the database its operation was played to. -/
theorem played {α : Type} {db : Database} (operation : Operation) {x : Tx (Database × α)}
    (hx : transaction db ⟨plainEnvironment, operation⟩ = Prod.fst <$> x)
    (hok : x.isOk = true) : ∃ r, x = .ok (play db [operation], r) := by
  cases x with
  | error e => cases hok
  | ok p =>
    obtain ⟨d, r⟩ := p
    refine ⟨r, ?_⟩
    have hd : play db [operation] = d := by
      rw [play, List.map_singleton, runEvents, List.foldl_cons, List.foldl_nil, hx]
      rfl
    rw [hd]

theorem played_reply {α : Type} {db : Database} (operation : Operation)
    {x : Tx (Database × α)} {r : α}
    (hx : transaction db ⟨plainEnvironment, operation⟩ = Prod.fst <$> x)
    (hr : x.toOption.map Prod.snd = some r) : x = .ok (play db [operation], r) := by
  have hok : x.isOk = true := by
    cases x with
    | error e => cases hr
    | ok p => rfl
  obtain ⟨q, hq⟩ := played operation hx hok
  rw [hq] at hr ⊢
  rw [show q = r from Option.some.inj hr]

def AtLevelZero (db : Database) (userId : ℕ) : Prop :=
  ∃ u ∈ db.users.rows, u.id = userId ∧ u.level = .l0

def Maintains (db : Database) (userId serviceId : ℕ) : Prop :=
  db.users.contains userId = true ∧ (userId, serviceId) ∈ db.userServiceLink

def OwnerRight (db : Database) (s : Service) (userId : ℕ) : Prop :=
  s.ownerId = userId ∨ AtLevelZero db userId

def MaintainerRight (db : Database) (s : Service) (userId : ℕ) : Prop :=
  s.ownerId = userId ∨ Maintains db userId s.id ∨ AtLevelZero db userId

def CreatorRight (db : Database) (s : Service) (i : ServiceIteration) (userId : ℕ) : Prop :=
  s.ownerId = userId ∨ i.creatorId = some userId ∨ AtLevelZero db userId

theorem OwnerRight.maintainer {db : Database} {s : Service} {u : ℕ} (h : OwnerRight db s u) :
    MaintainerRight db s u := by
  rcases h with h | h
  · exact Or.inl h
  · exact Or.inr (Or.inr h)

theorem isMaintainer_find? {db : Database} {serviceId userId : ℕ} :
    isMaintainer db serviceId (db.users.find? userId) = true ↔ Maintains db userId serviceId := by
  unfold isMaintainer Maintains
  rw [Table.contains_iff]
  cases h : db.users.find? userId with
  | none =>
    rw [Table.find?_eq_none] at h
    constructor
    · intro hf
      cases hf
    · rintro ⟨⟨u, hu, hid⟩, _⟩
      exact absurd hid (h u hu)
  | some u =>
    obtain ⟨hu, hid⟩ := Table.find?_eq_some.mp h
    rw [user_key] at hid
    subst userId
    simp only [decide_eq_true_eq]
    exact ⟨fun hl => ⟨⟨u, hu, rfl⟩, hl⟩, fun hl => hl.2⟩

theorem levelZero_find? {db : Database} {userId : ℕ} :
    (∃ u, db.users.find? userId = some u ∧ u.level = .l0) ↔ AtLevelZero db userId := by
  constructor
  · rintro ⟨u, hu, hl⟩
    obtain ⟨hm, hid⟩ := Table.find?_eq_some.mp hu
    exact ⟨u, hm, hid, hl⟩
  · rintro ⟨u, hm, hid, hl⟩
    exact ⟨u, Table.find?_eq_some.mpr ⟨hm, hid⟩, hl⟩

theorem requireOwner_eq_ok {db : Database} {s : Service} {userId : ℕ} {e : Abort} {x : Unit} :
    requireLevelZeroIf (s.ownerId != userId) (db.users.find? userId) e = .ok x ↔
      OwnerRight db s userId := by
  rw [requireLevelZeroIf_eq_ok, levelZero_find?, OwnerRight, bne_iff_ne]
  tauto

theorem requireMaintainer_eq_ok {db : Database} {s : Service} {userId : ℕ} {e : Abort}
    {x : Unit} :
    requireLevelZeroIf (s.ownerId != userId && !isMaintainer db s.id (db.users.find? userId))
      (db.users.find? userId) e = .ok x ↔ MaintainerRight db s userId := by
  rw [requireLevelZeroIf_eq_ok, levelZero_find?, MaintainerRight, Bool.and_eq_true, bne_iff_ne,
    Bool.not_eq_true', ← Bool.not_eq_true, isMaintainer_find?]
  tauto

theorem requireCreator_eq_ok {db : Database} {s : Service} {i : ServiceIteration} {userId : ℕ}
    {e : Abort} {x : Unit} :
    requireLevelZeroIf (s.ownerId != userId && i.creatorId != some userId)
      (db.users.find? userId) e = .ok x ↔ CreatorRight db s i userId := by
  rw [requireLevelZeroIf_eq_ok, levelZero_find?, CreatorRight, Bool.and_eq_true, bne_iff_ne,
    bne_iff_ne]
  tauto

structure WorkRight (db : Database) (iterationId userId : ℕ) (i : ServiceIteration) : Prop where
  mem : i ∈ db.iterations.rows
  id : i.id = iterationId
  uncommitted : i.isCommitted = false
  right : ∃ s ∈ db.services.rows, s.id = i.serviceId ∧ CreatorRight db s i userId

theorem checkServiceIterationPermission_eq_ok {db : Database} {iterationId userId : ℕ}
    {i : ServiceIteration} {u : Option User} :
    checkServiceIterationPermission db iterationId userId = .ok (i, u) ↔
      WorkRight db iterationId userId i ∧ u = db.users.find? userId := by
  simp only [checkServiceIterationPermission, bind_eq_ok, orAbort_eq_ok, require_eq_ok,
    pure_eq_ok, Table.find?_eq_some, iteration_key, service_key, requireCreator_eq_ok,
    Bool.not_eq_true', Prod.mk.injEq]
  constructor
  · rintro ⟨j, ⟨hm, hid⟩, _, hc, _, _, s, ⟨hs, hsid⟩, _, hr, rfl, rfl⟩
    exact ⟨⟨hm, hid, hc, s, hs, hsid, hr⟩, rfl⟩
  · rintro ⟨⟨hm, hid, hc, s, hs, hsid, hr⟩, rfl⟩
    exact ⟨i, ⟨hm, hid⟩, (), hc, (), hc, s, ⟨hs, hsid⟩, (), hr, rfl, rfl⟩

theorem draftOfIteration_eq_ok {db : Database} {iterationId apiDraftId userId : ℕ}
    {d : ApiDraft} :
    draftOfIteration db iterationId apiDraftId userId = .ok d ↔
      (∃ i, WorkRight db iterationId userId i) ∧ d ∈ db.drafts.apis.rows ∧ d.id = apiDraftId ∧
        d.container = iterationId := by
  simp only [draftOfIteration, bind_eq_ok, orAbort_eq_ok, require_eq_ok, pure_eq_ok,
    Table.find?_eq_some, api_key, beq_iff_eq]
  constructor
  · rintro ⟨⟨i, u⟩, hc, a, ⟨ha, hid⟩, _, hcont, rfl⟩
    exact ⟨⟨i, (checkServiceIterationPermission_eq_ok.mp hc).1⟩, ha, hid, hcont⟩
  · rintro ⟨⟨i, hw⟩, hm, hid, hcont⟩
    exact ⟨(i, _), checkServiceIterationPermission_eq_ok.mpr ⟨hw, rfl⟩, d, ⟨hm, hid⟩, (), hcont,
      rfl⟩

end OperationRuns
