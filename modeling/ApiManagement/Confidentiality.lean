import ApiManagement.OutsiderReads

/-! # Confidentiality of a service

What an outsider asks for or changes, the response is the same whatever the service contains. -/
namespace Confidentiality

open TransactionRuns KeyedTables PythonRuntime ServiceSchema ApiStores UserOperations
  ServiceOperations ApiOperations OperationRuns StateInvariant PairedOutcomes HiddenContents
  ReadOperations OutsiderReads

/-- The replies of two handlers that also return the new database. -/
abbrev Told {α : Type} : Tx (Database × α) → Tx (Database × α) → Prop :=
  Lockstep (fun p q => p.2 = q.2)

theorem Told.reply {α : Type} {x y : Tx (Database × α)} (h : Told x y) :
    Prod.snd <$> x = Prod.snd <$> y :=
  h.map_eq (fun _ _ hr => hr)

theorem told_pure {α : Type} {db db' : Database} {r : α} :
    Told (pure (db, r)) (pure (db', r)) := .ok rfl

section Services

variable {db₁ db₂ : Database} {service : Service} {u : ℕ} (k : Unseen db₁ db₂ service u)
  (env : Environment)

include k

theorem userRegister_told (username password : String) (nickname email : Option String)
    (role : String) : Told (userRegister env username password nickname email role db₁)
      (userRegister env username password nickname email role db₂) := by
  unfold userRegister
  rw [← k.same.users]
  refine Lockstep.bind_same _ (fun _ _ => ?_)
  refine Lockstep.bind_same _ (fun _ _ => ?_)
  refine Lockstep.bind_same _ (fun _ _ => ?_)
  refine Lockstep.bind_same _ (fun _ _ => ?_)
  refine Lockstep.bind_same _ (fun _ _ => ?_)
  exact told_pure

theorem userModifyPassword_told (id : ℕ) (oldPassword newPassword : String) :
    Told (userModifyPassword env id oldPassword newPassword db₁)
      (userModifyPassword env id oldPassword newPassword db₂) := by
  unfold userModifyPassword
  rw [← k.same.users]
  refine Lockstep.bind_same _ (fun _ _ => ?_)
  refine Lockstep.bind_same _ (fun _ _ => ?_)
  refine Lockstep.bind_same _ (fun _ _ => ?_)
  refine Lockstep.bind_same _ (fun _ _ => ?_)
  exact told_pure

theorem serviceCreateNewService_told (serviceUuid : String) (ownerId : ℕ)
    (description : Option String) :
    Told (serviceCreateNewService env serviceUuid ownerId description db₁)
      (serviceCreateNewService env serviceUuid ownerId description db₂) := by
  have hany : db₁.services.rows.any (fun s => s.serviceUuid.val == serviceUuid) =
      db₂.services.rows.any (fun s => s.serviceUuid.val == serviceUuid) := by
    apply k.same.services.any_eq
    intro s t hst _
    rw [uuid_eq hst.shown]
  have hnew : db₁.services.next ≠ service.id := (Table.key_ne_next k.mem).symm
  unfold serviceCreateNewService
  rw [← k.same.users, ← hany, ← k.same.services.next]
  refine Lockstep.bind_same _ (fun _ _ => ?_)
  refine Lockstep.bind_same _ (fun uuid _ => ?_)
  refine Lockstep.bind_same _ (fun version _ => ?_)
  refine Lockstep.bind_same _ (fun _ _ => ?_)
  let created : Service := ⟨db₁.services.next, ownerId, uuid, version, description, false, none⟩
  have hjson := serviceToJson_eq (s := created) (k.same.insertService created) env hnew
  rw [← k.same.users] at hjson
  exact .ok (congrArg (Reply.mk 200 "Create service success") hjson)

theorem serviceAddOrRemoveServiceMaintainerById_told (serviceId candidateId : ℕ) :
    Told (serviceAddOrRemoveServiceMaintainerById serviceId u candidateId db₁)
      (serviceAddOrRemoveServiceMaintainerById serviceId u candidateId db₂) := by
  unfold serviceAddOrRemoveServiceMaintainerById
  refine owner_checked k serviceId _ _ ?_
  intro s _ _ _
  rw [← k.same.users, ← k.same.isMaintainer, ← k.same.links]
  refine Lockstep.bind_same _ (fun _ _ => ?_)
  refine Lockstep.bind_same _ (fun _ _ => ?_)
  split
  · exact told_pure
  · exact told_pure

theorem serviceDeleteServiceById_told (id : ℕ) :
    Told (serviceDeleteServiceById env id u db₁) (serviceDeleteServiceById env id u db₂) := by
  unfold serviceDeleteServiceById
  refine owner_checked k id _ _ ?_
  intro s _ _ _
  exact told_pure

theorem serviceRestoreServiceById_told (id : ℕ) :
    Told (serviceRestoreServiceById id u db₁) (serviceRestoreServiceById id u db₂) := by
  unfold serviceRestoreServiceById
  refine owner_checked k id _ _ ?_
  intro s _ _ _
  refine Lockstep.bind_same _ (fun _ _ => ?_)
  exact told_pure

theorem serviceDeleteIterationById_told (iterationId : ℕ) :
    Told (serviceDeleteIterationById iterationId u db₁)
      (serviceDeleteIterationById iterationId u db₂) := by
  unfold serviceDeleteIterationById
  refine (k.same.iterations.find iterationId _).bind ?_
  intro i j hij
  rw [← service_eq hij.shown, ← creator_eq hij.shown, ← k.same.users]
  refine (k.same.services.find _ _).bind ?_
  intro s t hst
  rw [← owner_eq hst.shown]
  refine Lockstep.bind_same _ (fun _ hr => ?_)
  have helse := iteration_elsewhere k hij.mem hst.mem hst.key (requireCreator_eq_ok.mp hr)
  rw [← hij.same helse, ← k.same.drafts.apisOf (not_iterationOf hij.mem helse)]
  refine Lockstep.bind_same _ (fun _ _ => ?_)
  exact told_pure

end Services

section Iterations

variable {db₁ db₂ : Database} {service : Service} {u : ℕ} (k : Unseen db₁ db₂ service u)
  (env : Environment)

include k

theorem openIterations_same {serviceId : ℕ} (hs : serviceId ≠ service.id) :
    openIterations db₁ serviceId u = openIterations db₂ serviceId u := by
  refine k.same.iterations.filter_eq ?_ ?_
  · intro i j hij
    rw [service_eq hij, committed_eq hij, creator_eq hij]
  · intro i _ hp hid
    simp only [Bool.and_eq_true, beq_iff_eq] at hp
    exact hs (hp.1.1.symm.trans hid)

/-- Both copies succeed, whatever the drafts of other iterations are. -/
theorem startNewIteration_lockstep (serviceId : ℕ) :
    Lockstep (fun _ _ => True) (startNewIteration env serviceId u db₁)
      (startNewIteration env serviceId u db₂) := by
  obtain ⟨drafts₁, _, _, _, h₁, _⟩ := start_copies k.inv₁ env serviceId u
  obtain ⟨drafts₂, _, _, _, h₂, _⟩ := start_copies k.inv₂ env serviceId u
  unfold startNewIteration
  dsimp only
  rw [h₁, h₂, ← k.same.services.contains_eq, ← k.same.users]
  refine Lockstep.bind_same _ (fun _ _ => ?_)
  exact .ok trivial

theorem serviceStartIteration_told (serviceId : ℕ) :
    Told (serviceStartIteration env serviceId u db₁)
      (serviceStartIteration env serviceId u db₂) := by
  unfold serviceStartIteration
  refine maintainer_checked k serviceId _ _ ?_
  rintro s _ rfl _ helse
  rw [← openIterations_same k helse, ← k.same.iterations.next]
  cases (env.fetch (openIterations db₁ s.id u)).head? with
  | some iteration => exact told_pure
  | none =>
    refine (startNewIteration_lockstep k env s.id).bind ?_
    intro _ _ _
    exact told_pure

omit k in
theorem asCheckResult_lockstep {α β : Type} {R : α → β → Prop} {x : Tx α} {y : Tx β}
    (h : Lockstep R x y) : Lockstep R (asCheckResult x) (asCheckResult y) := by
  cases h with
  | ok h => exact .ok h
  | error e => cases e <;> exact .error _

theorem commitDatabase_lockstep {iteration : ServiceIteration} (s : Service)
    (hi : iteration ∈ db₁.iterations.rows) (hs : s.id = iteration.serviceId)
    (helse : iteration.serviceId ≠ service.id) (newVersion : String) :
    Lockstep (fun d₁ d₂ => d₁.users = db₁.users ∧ d₁.userServiceLink = db₁.userServiceLink ∧
        d₂.users = db₁.users ∧ d₂.userServiceLink = db₁.userServiceLink)
      (commitDatabase env iteration s newVersion db₁)
      (commitDatabase env iteration s newVersion db₂) := by
  obtain ⟨j, hj, hij⟩ := agree_of_mem k.same.iterations.rows hi
  obtain rfl := hij.same helse
  obtain ⟨live₁, _, _, _, h₁, _⟩ := commit_copies k.inv₁ env hi
  obtain ⟨live₂, _, _, _, h₂, _⟩ := commit_copies k.inv₂ env hj
  unfold cleared at h₁ h₂
  unfold commitDatabase
  rw [hs]
  refine Lockstep.bind_same _ (fun version _ => ?_)
  dsimp only
  rw [h₁, h₂]
  exact .ok ⟨rfl, rfl, k.same.users.symm, k.same.links.symm⟩

omit k in
theorem notifyMaintainers_eq {d₁ d₂ : Database} (hu : d₁.users = d₂.users)
    (hl : d₁.userServiceLink = d₂.userServiceLink) (s : Service) (user : Option User) :
    notifyMaintainers env d₁ s user = notifyMaintainers env d₂ s user := by
  unfold notifyMaintainers maintainers
  rw [hu, hl]

theorem serviceCommitIteration_told (iterationId : ℕ) (newVersion : String) :
    Told (serviceCommitIteration env iterationId newVersion u db₁)
      (serviceCommitIteration env iterationId newVersion u db₂) := by
  unfold serviceCommitIteration
  refine (asCheckResult_lockstep (checkServiceIterationPermission_lockstep k iterationId)).bind ?_
  rintro ⟨i, user⟩ _ ⟨rfl, hi, _, helse⟩
  dsimp only at hi helse ⊢
  rw [← k.same.find_service helse]
  refine Lockstep.bind_same _ (fun s hs => ?_)
  obtain ⟨_, hid⟩ := Table.find?_eq_some.mp (orAbort_eq_ok.mp hs)
  refine Lockstep.bind_same _ (fun _ _ => ?_)
  refine (commitDatabase_lockstep k env s hi hid helse newVersion).bind ?_
  rintro d₁ d₂ ⟨hu₁, hl₁, hu₂, hl₂⟩
  refine .ok ?_
  rw [notifyMaintainers_eq env (hu₁.trans hu₂.symm) (hl₁.trans hl₂.symm)]

theorem serviceUpdateDescription_told (iterationId : ℕ) (description : Option String) :
    Told (serviceUpdateDescription iterationId description u db₁)
      (serviceUpdateDescription iterationId description u db₂) := by
  unfold serviceUpdateDescription
  refine (checkServiceIterationPermission_lockstep k iterationId).bind ?_
  intro _ _ _
  exact told_pure

end Iterations

section Categories

variable {db₁ db₂ : Database} {service : Service} {u : ℕ} (k : Unseen db₁ db₂ service u)

include k

theorem anyCategory_same {serviceId : ℕ} (hs : serviceId ≠ service.id) (p : ApiCategory → Bool) :
    db₁.categories.rows.any (fun c => c.serviceId == serviceId && p c) =
      db₂.categories.rows.any (fun c => c.serviceId == serviceId && p c) := by
  apply k.same.categories.any_eq
  intro c d hcd hc
  have hne : (c.serviceId == serviceId) = false := beq_eq_false_iff_ne.mpr (hc ▸ hs.symm)
  rw [← categoryService_eq hcd.shown, hne, Bool.false_and, Bool.false_and]

theorem apiAddCategoryByServiceId_told (serviceId : ℕ) (categoryName : String)
    (description : Option String) :
    Told (apiAddCategoryByServiceId serviceId u categoryName description db₁)
      (apiAddCategoryByServiceId serviceId u categoryName description db₂) := by
  unfold apiAddCategoryByServiceId
  refine maintainer_checked k serviceId _ _ ?_
  rintro s _ rfl _ helse
  rw [← anyCategory_same k helse, ← k.same.categories.next]
  refine Lockstep.bind_same _ (fun _ _ => ?_)
  refine Lockstep.bind_same _ (fun _ _ => ?_)
  exact told_pure

/-- Only the rights decide; the reply is the same for every category. -/
theorem apiDeleteCategoryById_told (categoryId : ℕ) :
    Told (apiDeleteCategoryById categoryId u db₁) (apiDeleteCategoryById categoryId u db₂) := by
  unfold apiDeleteCategoryById
  refine (k.same.categories.find categoryId _).bind ?_
  intro c d hcd
  rw [← categoryService_eq hcd.shown, ← k.same.users, ← k.same.isMaintainer]
  refine Lockstep.bind_same _ (fun v _ => ?_)
  refine (k.same.services.find _ _).bind ?_
  intro s t hst
  have hid : s.id = t.id := hst.key_eq
  rw [← owner_eq hst.shown, ← hid]
  refine Lockstep.bind_same _ (fun _ _ => ?_)
  exact told_pure

theorem apiUpdateCategoryById_told (categoryId : ℕ) (categoryName description : Option String) :
    Told (apiUpdateCategoryById categoryId u categoryName description db₁)
      (apiUpdateCategoryById categoryId u categoryName description db₂) := by
  unfold apiUpdateCategoryById
  refine (k.same.categories.find categoryId _).bind ?_
  intro c d hcd
  rw [← categoryService_eq hcd.shown, ← k.same.users]
  refine Lockstep.bind_same _ (fun v hv => ?_)
  refine (k.same.services.find _ _).bind ?_
  intro s t hst
  rw [← owner_eq hst.shown, ← orAbort_eq_ok.mp hv]
  refine Lockstep.bind_same _ (fun _ hr => ?_)
  have hright : OwnerRight db₁ s u := requireOwner_eq_ok.mp hr
  have helse : c.serviceId ≠ service.id :=
    hst.key ▸ right_elsewhere k hst.mem hright.maintainer
  rw [← hcd.same helse, ← anyCategory_same k helse]
  refine Lockstep.bind_same _ (fun _ _ => ?_)
  refine Lockstep.bind_same _ (fun _ _ => ?_)
  refine Lockstep.bind_same _ (fun _ _ => ?_)
  refine Lockstep.bind_same _ (fun _ _ => ?_)
  refine Lockstep.bind_same _ (fun _ _ => ?_)
  exact told_pure

/-- The category of an api and the service of a category are foreign keys. -/
theorem apiUpdateApiCategory_told (apiId : ℕ) (categoryId : ℤ) :
    Told (apiUpdateApiCategory apiId categoryId u db₁)
      (apiUpdateApiCategory apiId categoryId u db₂) := by
  unfold apiUpdateApiCategory
  refine (k.same.live.apis.find apiId _).bind ?_
  intro a b hab
  rw [← container_eq hab.shown, ← apiCategory_eq hab.shown, ← k.same.users,
    ← k.same.isMaintainer]
  refine Lockstep.bind_same _ (fun v _ => ?_)
  refine (k.same.services.find _ _).bind ?_
  intro s t hst
  have hid : s.id = t.id := hst.key_eq
  rw [← owner_eq hst.shown, ← hid]
  refine Lockstep.bind_same _ (fun _ _ => ?_)
  refine Lockstep.bind_same _ (fun _ _ => ?_)
  by_cases hnone : categoryId = -1
  · rw [if_pos hnone, if_pos hnone]
    exact told_pure
  · rw [if_neg hnone, if_neg hnone]
    refine (k.same.categories.find _ _).bind ?_
    intro c d hcd
    rw [← categoryService_eq hcd.shown]
    refine Lockstep.bind_same _ (fun _ _ => ?_)
    exact told_pure

theorem requireCategory_same (categoryId : Option ℕ) (serviceId : ℕ) :
    requireCategory db₁ categoryId serviceId = requireCategory db₂ categoryId serviceId := by
  apply Lockstep.eq
  cases categoryId with
  | none => exact .of_eq rfl
  | some categoryId =>
    refine (k.same.categories.find categoryId _).bind ?_
    intro c d hcd
    rw [← categoryService_eq hcd.shown]
    exact .of_eq rfl

end Categories

section Drafts

variable {db₁ db₂ : Database} {service : Service} {u : ℕ} (k : Unseen db₁ db₂ service u)
  (env : Environment)

include k

theorem apiAddApi_told (iterationId : ℕ) (name method path : String)
    (description : Option String) (level : String) (categoryId : Option ℕ) :
    Told (apiAddApi iterationId u name method path description level categoryId db₁)
      (apiAddApi iterationId u name method path description level categoryId db₂) := by
  unfold apiAddApi
  refine (checkServiceIterationPermission_lockstep k iterationId).bind ?_
  rintro ⟨i, user⟩ q hw
  obtain rfl := hw.same
  have helse : i.serviceId ≠ service.id := hw.elsewhere
  have hsecret : ¬ IterationOf db₁ service.id i.id := not_iterationOf hw.mem helse
  dsimp only
  rw [← requireCategory_same k, ← k.same.draftReferences, ← k.same.drafts.apis.next]
  refine Lockstep.bind_same _ (fun _ _ => ?_)
  have hcontainer : ∀ (c : ℕ) (a : ApiRow), (a.container == c &&
      a.fields.method == (HttpMethod.ofValue method).getD .get &&
        (a.fields.path.val == path || a.fields.name.val == name)) = true → a.container = c := by
    intro c a ha
    simp only [Bool.and_eq_true, beq_iff_eq] at ha
    exact ha.1.1
  rw [← taken_eq k.same.live helse (hcontainer i.serviceId),
    ← taken_eq k.same.drafts hsecret (hcontainer i.id)]
  refine Lockstep.bind_same _ (fun _ _ => ?_)
  refine Lockstep.bind_same _ (fun _ _ => ?_)
  refine Lockstep.bind_same _ (fun _ _ => ?_)
  refine Lockstep.bind_same _ (fun _ _ => ?_)
  refine (insertApi_lockstep k.same.drafts hsecret).bind ?_
  intro _ _ _
  exact told_pure

theorem apiCopyApiByApiDraftId_told (iterationId apiDraftId : ℕ) :
    Told (apiCopyApiByApiDraftId env iterationId apiDraftId u db₁)
      (apiCopyApiByApiDraftId env iterationId apiDraftId u db₂) := by
  unfold apiCopyApiByApiDraftId
  refine (draftOfIteration_lockstep k iterationId apiDraftId).bind ?_
  rintro d _ ⟨rfl, hd, hcontainer, helse⟩
  rw [← k.same.draftReferences]
  refine Lockstep.bind_same _ (fun _ _ => ?_)
  refine Lockstep.bind_same _ (fun _ _ => ?_)
  refine (copyDraft_lockstep env k.same.drafts k.inv₁.drafts helse hd
    (hcontainer.symm ▸ helse)).bind ?_
  intro _ _ _
  exact told_pure

theorem apiDeleteApiByApiDraftId_told (iterationId apiDraftId : ℕ) :
    Told (apiDeleteApiByApiDraftId iterationId apiDraftId u db₁)
      (apiDeleteApiByApiDraftId iterationId apiDraftId u db₂) := by
  unfold apiDeleteApiByApiDraftId
  refine (draftOfIteration_lockstep k iterationId apiDraftId).bind ?_
  intro _ _ _
  exact told_pure

theorem apiUpdateApiByApiDraftId_told (iterationId apiDraftId : ℕ) (name method path : String)
    (description : Option String) (level : String) (reqParams respParams : JsonValue) :
    Told (apiUpdateApiByApiDraftId env iterationId apiDraftId u name method path description level
        reqParams respParams db₁)
      (apiUpdateApiByApiDraftId env iterationId apiDraftId u name method path description level
        reqParams respParams db₂) := by
  unfold apiUpdateApiByApiDraftId
  refine (draftOfIteration_lockstep k iterationId apiDraftId).bind ?_
  rintro d _ ⟨rfl, _, hcontainer, helse⟩
  refine Lockstep.bind_same _ (fun _ _ => ?_)
  refine Lockstep.bind_same _ (fun _ _ => ?_)
  refine (rewriteDraft_lockstep env k.same.drafts k.inv₁.drafts k.inv₂.drafts
    (hcontainer.symm ▸ helse)).bind ?_
  intro _ _ _
  exact told_pure

end Drafts

section Calls

variable {db₁ db₂ : Database} {service : Service} {u : ℕ} (k : Unseen db₁ db₂ service u)
  (out : Surroundings)

include k

theorem query_same (q : Query) (hq : ∀ v, caller (.query q) = some v → v = u) :
    respond out db₁ (.query q) = respond out db₂ (.query q) := by
  cases q with
  | userGetUserById id => exact userGetUserById_same k id
  | userGetUserByUsernameOrNicknameOrEmail keyword =>
    exact userGetUserByUsernameOrNicknameOrEmail_same k out keyword
  | userLogin username password => exact userLogin_same k out username password
  | serviceGetAllServices _ pageSize currentPage =>
    obtain rfl := hq _ rfl
    exact serviceGetAllServices_same k pageSize currentPage
  | serviceGetServiceById id _ =>
    obtain rfl := hq _ rfl
    exact serviceGetServiceById_same k _ id
  | serviceGetHisNewestServicesByOwnerId ownerId _ pageSize currentPage =>
    obtain rfl := hq _ rfl
    exact serviceGetHisNewestServicesByOwnerId_same k ownerId pageSize currentPage
  | serviceGetHisMaintainedServicesByUserId userId _ pageSize currentPage =>
    obtain rfl := hq _ rfl
    exact serviceGetHisMaintainedServicesByUserId_same k userId pageSize currentPage
  | serviceGetServiceByUuidAndVersion serviceUuid version _ =>
    obtain rfl := hq _ rfl
    exact ((serviceGetServiceByUuidAndVersion_lockstep k _ serviceUuid version).mono
      (fun _ _ hr => hr.same)).eq
  | serviceGetAllVersionsByUuid serviceUuid _ =>
    obtain rfl := hq _ rfl
    exact serviceGetAllVersionsByUuid_same k _ serviceUuid
  | serviceGetAllDeletedServicesByUserId _ pageSize currentPage =>
    obtain rfl := hq _ rfl
    exact serviceGetAllDeletedServicesByUserId_same k _ pageSize currentPage
  | serviceIsMaintainer serviceId _ candidateId =>
    obtain rfl := hq _ rfl
    exact serviceIsMaintainer_same k serviceId candidateId
  | serviceGetServiceIterationById id _ =>
    obtain rfl := hq _ rfl
    exact serviceGetServiceIterationById_same k _ id
  | serviceExportOpenapiByUuidAndVersion serviceUuid version _ =>
    obtain rfl := hq _ rfl
    exact serviceExportOpenapiByUuidAndVersion_same k out serviceUuid version
  | apiGetAllCategoriesByServiceId serviceId _ =>
    obtain rfl := hq _ rfl
    exact apiGetAllCategoriesByServiceId_same k serviceId
  | apiGetAllApisByServiceId serviceId _ categoryId =>
    obtain rfl := hq _ rfl
    exact apiGetAllApisByServiceId_same k serviceId categoryId
  | apiGetApiById apiId _ isLatest =>
    obtain rfl := hq _ rfl
    exact apiGetApiById_same k _ apiId isLatest

theorem operation_same (o : Operation) (ho : ∀ v, caller (.operation o) = some v → v = u) :
    respond out db₁ (.operation o) = respond out db₂ (.operation o) := by
  cases o with
  | userRegister username password nickname email role =>
    exact (userRegister_told k _ username password nickname email role).reply
  | userModifyPassword _ oldPassword newPassword =>
    exact (userModifyPassword_told k _ _ oldPassword newPassword).reply
  | serviceCreateNewService serviceUuid _ description =>
    exact (serviceCreateNewService_told k _ serviceUuid _ description).reply
  | serviceAddOrRemoveServiceMaintainerById serviceId _ candidateId =>
    obtain rfl := ho _ rfl
    exact (serviceAddOrRemoveServiceMaintainerById_told k serviceId candidateId).reply
  | serviceDeleteServiceById serviceId _ =>
    obtain rfl := ho _ rfl
    exact (serviceDeleteServiceById_told k _ serviceId).reply
  | serviceRestoreServiceById serviceId _ =>
    obtain rfl := ho _ rfl
    exact (serviceRestoreServiceById_told k serviceId).reply
  | serviceDeleteIterationById iterationId _ =>
    obtain rfl := ho _ rfl
    exact (serviceDeleteIterationById_told k iterationId).reply
  | serviceStartIteration serviceId _ =>
    obtain rfl := ho _ rfl
    exact (serviceStartIteration_told k _ serviceId).reply
  | serviceCommitIteration iterationId newVersion _ =>
    obtain rfl := ho _ rfl
    exact (serviceCommitIteration_told k _ iterationId newVersion).reply
  | serviceUpdateDescription iterationId description _ =>
    obtain rfl := ho _ rfl
    exact (serviceUpdateDescription_told k iterationId description).reply
  | apiAddCategoryByServiceId serviceId _ categoryName description =>
    obtain rfl := ho _ rfl
    exact (apiAddCategoryByServiceId_told k serviceId categoryName description).reply
  | apiDeleteCategoryById categoryId _ =>
    obtain rfl := ho _ rfl
    exact (apiDeleteCategoryById_told k categoryId).reply
  | apiUpdateCategoryById categoryId _ categoryName description =>
    obtain rfl := ho _ rfl
    exact (apiUpdateCategoryById_told k categoryId categoryName description).reply
  | apiUpdateApiCategory apiId categoryId _ =>
    obtain rfl := ho _ rfl
    exact (apiUpdateApiCategory_told k apiId categoryId).reply
  | apiAddApi iterationId _ name method path description level categoryId =>
    obtain rfl := ho _ rfl
    exact (apiAddApi_told k iterationId name method path description level categoryId).reply
  | apiCopyApiByApiDraftId iterationId apiDraftId _ =>
    obtain rfl := ho _ rfl
    exact (apiCopyApiByApiDraftId_told k _ iterationId apiDraftId).reply
  | apiDeleteApiByApiDraftId iterationId apiDraftId _ =>
    obtain rfl := ho _ rfl
    exact (apiDeleteApiByApiDraftId_told k iterationId apiDraftId).reply
  | apiUpdateApiByApiDraftId iterationId apiDraftId _ name method path description level reqParams
      respParams =>
    obtain rfl := ho _ rfl
    exact (apiUpdateApiByApiDraftId_told k _ iterationId apiDraftId name method path description
      level reqParams respParams).reply

end Calls

/-- Whatever a user calls, the response tells nothing about the contents of a service on which the
user has no right. Reachable databases satisfy the invariant. -/
theorem respond_same (out : Surroundings) {db₁ db₂ : Database} (h₁ : Invariant Nests db₁)
    (h₂ : Invariant Nests db₂) {service : Service} (hs : service ∈ db₁.services.rows)
    (hsame : SameButContents service.id db₁ db₂) {userId : ℕ}
    (hu : Outsider db₁ service userId) (c : Call) (hc : ∀ v, caller c = some v → v = userId) :
    respond out db₁ c = respond out db₂ c := by
  have k : Unseen db₁ db₂ service userId := ⟨h₁, h₂, hs, hsame, hu⟩
  cases c with
  | query q => exact query_same k out q hc
  | operation o => exact operation_same k out o hc

def accountPayload : JsonValue :=
  .arr [.obj [("name", .str "account"), ("type", .str "object"), ("location", .str "query"),
    ("children", .arr [.obj [("name", .str "balance"), ("type", .str "double")]])]]

def disguised : Database :=
  play twoUsers [.serviceCreateNewService "team/core" 1 (some "bank"),
    .serviceStartIteration 1 1,
    .apiAddApi 1 1 "pay" "POST" "/accounts" (some "pay") "P0" none,
    .apiUpdateApiByApiDraftId 1 1 1 "pay" "POST" "/accounts" (some "pay") "P0" accountPayload
      .null,
    .serviceUpdateDescription 1 (some "bank") 1,
    .serviceCommitIteration 1 "0.0.2" 1]

theorem disguised_reachable : Reachable disguised := Reachable.play twoUsers_reachable _

set_option synthInstance.maxSize 1000 in
theorem disguised_same : SameButContents publishedService.id published disguised where
  users := Table.ext' (by decide +kernel) (by decide +kernel)
  links := by decide +kernel
  services := .of_hidden (by decide +kernel) (by decide +kernel) (by decide +kernel)
  iterations := .of_hidden (by decide +kernel) (by decide +kernel) (by decide +kernel)
  categories := .of_hidden (by decide +kernel) (by decide +kernel) (by decide +kernel)
  live := ⟨.of_hidden (by decide +kernel) (by decide +kernel) (by decide +kernel),
    .of_hidden (by decide +kernel) (by decide +kernel) (by unfold InSecret; decide +kernel),
    .of_hidden (by decide +kernel) (by decide +kernel) (by unfold InSecret; decide +kernel)⟩
  drafts := ⟨.of_hidden (by decide +kernel) (by decide +kernel)
      (by unfold IterationOf; decide +kernel),
    .of_hidden (by decide +kernel) (by decide +kernel)
      (by unfold InSecret IterationOf; decide +kernel),
    .of_hidden (by decide +kernel) (by decide +kernel)
      (by unfold InSecret IterationOf; decide +kernel)⟩

theorem colleague_outsider : Outsider published publishedService 2 where
  level := by unfold AtLevelZero; decide +kernel
  owner := by decide
  maintainer := by unfold Maintains; decide +kernel
  creator := by decide +kernel

theorem respond_same_disguised :
    published.live.apis.rows.map ApiRow.fields ≠ disguised.live.apis.rows.map ApiRow.fields ∧
      respond plainSurroundings published
          (.query (.serviceGetServiceByUuidAndVersion "team/core" "latest" 2)) =
        respond plainSurroundings disguised
          (.query (.serviceGetServiceByUuidAndVersion "team/core" "latest" 2)) :=
  ⟨by decide +kernel, respond_same plainSurroundings (reachable_invariant published_reachable)
    (reachable_invariant disguised_reachable) publishedService_mem disguised_same
    colleague_outsider _ (by rintro v ⟨⟩; rfl)⟩

end Confidentiality
