import ApiManagement.OperationRuns

/-! # Effects of operations

One constructor for each way an operation can succeed, with the rights that were checked,
the facts the guards established and the new database. -/
namespace OperationEffects

open TransactionRuns KeyedTables ParentLinkedRows PythonRuntime ServiceSchema ApiStores
  UserOperations ServiceOperations ApiOperations OperationRuns

inductive Effect (env : Environment) (db : Database) : Operation → Database → Prop where
  | userRegistered {username password nickname email role} {u : User} :
      u.username.val = username → (∀ v ∈ db.users.rows, v.username.val ≠ username) →
      u.level = .l4 →
      Effect env db (.userRegister username password nickname email role)
        { db with users := db.users.insert u }
  | passwordModified {userId oldPassword newPassword} {u : User} {hash : VarChar 128} :
      u ∈ db.users.rows → u.id = userId →
      Effect env db (.userModifyPassword userId oldPassword newPassword)
        { db with users := db.users.update u.id (setPassword hash) (fun _ => rfl) }
  | serviceCreated {serviceUuid userId description} {s : Service} :
      s.serviceUuid.val = serviceUuid →
      (∀ t ∈ db.services.rows, t.serviceUuid.val ≠ serviceUuid) →
      s.ownerId = userId → db.users.contains userId = true → s.version.val = "0.0.1" →
      s.description = description → s.isDeleted = false →
      Effect env db (.serviceCreateNewService serviceUuid userId description)
        { db with services := db.services.insert s }
  | maintainerRemoved {serviceId userId candidateId} {s : Service} :
      s ∈ db.services.rows → s.id = serviceId → OwnerRight db s userId →
      Effect env db (.serviceAddOrRemoveServiceMaintainerById serviceId userId candidateId)
        { db with userServiceLink := db.userServiceLink.erase (candidateId, serviceId) }
  | maintainerAdded {serviceId userId candidateId} {s : Service} :
      s ∈ db.services.rows → s.id = serviceId → OwnerRight db s userId →
      s.ownerId ≠ candidateId → db.users.contains candidateId = true →
      Effect env db (.serviceAddOrRemoveServiceMaintainerById serviceId userId candidateId)
        { db with userServiceLink := insert (candidateId, serviceId) db.userServiceLink }
  | serviceDeleted {serviceId userId} {s : Service} :
      s ∈ db.services.rows → s.id = serviceId → OwnerRight db s userId →
      Effect env db (.serviceDeleteServiceById serviceId userId)
        { db with services := db.services.update s.id (setDeleted (some env.now)) (fun _ => rfl) }
  | serviceRestored {serviceId userId} {s : Service} :
      s ∈ db.services.rows → s.id = serviceId → OwnerRight db s userId → s.isDeleted = true →
      Effect env db (.serviceRestoreServiceById serviceId userId)
        { db with services := db.services.update s.id (setDeleted none) (fun _ => rfl) }
  | iterationDeleted {iterationId userId} {i : ServiceIteration} {s : Service} :
      i ∈ db.iterations.rows → i.id = iterationId → s ∈ db.services.rows → s.id = i.serviceId →
      CreatorRight db s i userId → db.drafts.apisOf i.id = [] →
      Effect env db (.serviceDeleteIterationById iterationId userId)
        { db with iterations := db.iterations.restrict (fun j => j.id != i.id) }
  | iterationInProgress {serviceId userId} {i : ServiceIteration} :
      i ∈ openIterations db serviceId userId →
      Effect env db (.serviceStartIteration serviceId userId) db
  | iterationStarted {serviceId userId} {s : Service} {drafts : ApiStore} :
      s ∈ db.services.rows → s.id = serviceId → MaintainerRight db s userId →
      openIterations db serviceId userId = [] → db.users.contains userId = true →
      copyApis env (draftReferences (insertIteration serviceId userId db)) db.live
        (env.fetch (db.live.apisOf serviceId)) db.iterations.next db.drafts = .ok drafts →
      Effect env db (.serviceStartIteration serviceId userId)
        { insertIteration serviceId userId db with drafts := drafts }
  | iterationCommitted {iterationId newVersion userId} {i : ServiceIteration} {s : Service}
      {version : VarChar 32} {live : ApiStore} :
      WorkRight db iterationId userId i → s ∈ db.services.rows → s.id = i.serviceId →
      newVersion ≠ s.version.val → version.val = newVersion →
      copyApis env (liveReferences db) db.drafts (env.fetch (db.drafts.apisOf i.id)) s.id
        (deleteApis (fun a => a.container == s.id) db.live) = .ok live →
      Effect env db (.serviceCommitIteration iterationId newVersion userId)
        { db with
          services := db.services.update s.id (publish i.description version) (fun _ => rfl)
          iterations := db.iterations.update i.id (markCommitted version) (fun _ => rfl)
          live := live }
  | descriptionUpdated {iterationId description userId} {i : ServiceIteration} :
      WorkRight db iterationId userId i →
      Effect env db (.serviceUpdateDescription iterationId description userId)
        { db with
          iterations := db.iterations.update i.id (setDescription description) (fun _ => rfl) }
  | categoryAdded {serviceId userId name description} {s : Service} {c : ApiCategory} :
      s ∈ db.services.rows → s.id = serviceId → MaintainerRight db s userId →
      c.serviceId = serviceId → c.name.val = name →
      (∀ d ∈ db.categories.rows, d.serviceId = serviceId → d.name.val ≠ name) →
      Effect env db (.apiAddCategoryByServiceId serviceId userId name description)
        { db with categories := db.categories.insert c }
  | categoryDeleted {categoryId userId} {c : ApiCategory} {s : Service} :
      c ∈ db.categories.rows → c.id = categoryId → s ∈ db.services.rows → s.id = c.serviceId →
      MaintainerRight db s userId →
      Effect env db (.apiDeleteCategoryById categoryId userId)
        { db with
          live := setCategories (clearCategory c.id) db.live
          drafts := setCategories (clearCategory c.id) db.drafts
          categories := db.categories.restrict (fun d => d.id != c.id) }
  | categoryUpdated {categoryId userId description} {name : VarChar 64} {c : ApiCategory}
      {s : Service} :
      c ∈ db.categories.rows → c.id = categoryId → s ∈ db.services.rows → s.id = c.serviceId →
      OwnerRight db s userId →
      (∀ d ∈ db.categories.rows, d.serviceId = c.serviceId → d.name ≠ name) →
      Effect env db (.apiUpdateCategoryById categoryId userId (some name.val) description)
        { db with categories :=
            db.categories.update c.id (renameCategory name description) (fun _ => rfl) }
  | apiCategoryUpdated {apiId categoryId userId} {a : Api} {s : Service} {k : Option ℕ} :
      a ∈ db.live.apis.rows → a.id = apiId → s ∈ db.services.rows → s.id = a.container →
      MaintainerRight db s userId →
      (∀ j, k = some j → ∃ c ∈ db.categories.rows, c.id = j ∧ c.serviceId = a.container) →
      Effect env db (.apiUpdateApiCategory apiId categoryId userId)
        { db with live := setCategories (assignCategory a.id k) db.live }
  | draftAdded {iterationId userId name method path description level categoryId}
      {i : ServiceIteration} {f : ApiFields} {drafts : ApiStore} :
      WorkRight db iterationId userId i → f.ownerId = userId → f.name.val = name →
      f.path.val = path → HttpMethod.ofValue method = some f.method → f.categoryId = categoryId →
      (∀ a ∈ db.drafts.apis.rows, a.container = iterationId → a.fields.method = f.method →
        a.fields.path ≠ f.path) →
      (∀ k, f.categoryId = some k →
        ∃ c ∈ db.categories.rows, c.id = k ∧ c.serviceId = i.serviceId) →
      insertApi (draftReferences db) iterationId f db.drafts = .ok drafts →
      Effect env db
        (.apiAddApi iterationId userId name method path description level categoryId)
        { db with drafts := drafts }
  | draftCopied {iterationId apiDraftId userId} {i : ServiceIteration} {d : ApiDraft}
      {f : ApiFields} {drafts : ApiStore} :
      WorkRight db iterationId userId i → d ∈ db.drafts.apis.rows → d.id = apiDraftId →
      d.container = iterationId → f.ownerId = userId → f.categoryId = d.fields.categoryId →
      f.method = d.fields.method → f.path.val = d.fields.path.val ++ copySuffix env →
      copyDraft env (draftReferences db) iterationId d f db.drafts = .ok drafts →
      Effect env db (.apiCopyApiByApiDraftId iterationId apiDraftId userId)
        { db with drafts := drafts }
  | draftDeleted {iterationId apiDraftId userId} {i : ServiceIteration} {d : ApiDraft} :
      WorkRight db iterationId userId i → d ∈ db.drafts.apis.rows → d.id = apiDraftId →
      d.container = iterationId →
      Effect env db (.apiDeleteApiByApiDraftId iterationId apiDraftId userId)
        { db with drafts := removeDraft d.id db.drafts }
  | draftUpdated {iterationId apiDraftId userId name method path description level reqParams
        respParams} {i : ServiceIteration} {d : ApiDraft} {f : ApiFields} {drafts : ApiStore} :
      WorkRight db iterationId userId i → d ∈ db.drafts.apis.rows → d.id = apiDraftId →
      d.container = iterationId → f.ownerId = d.fields.ownerId →
      f.categoryId = d.fields.categoryId → f.method = (HttpMethod.ofValue method).getD .get →
      f.path.val = path → rewriteDraft env d f reqParams respParams db.drafts = .ok drafts →
      Effect env db
        (.apiUpdateApiByApiDraftId iterationId apiDraftId userId name method path description
          level reqParams respParams)
        { db with drafts := drafts }

theorem map_fst_eq_ok {α : Type} {x : Tx (Database × α)} {db' : Database} :
    Prod.fst <$> x = .ok db' ↔ ∃ r, x = .ok (db', r) := by
  cases x with
  | error e => simp [Functor.map, Except.map]
  | ok p =>
    obtain ⟨d, r⟩ := p
    simp [Functor.map, Except.map]

section Users

variable {env : Environment} {db db' : Database}

theorem userRegister_effect {username password role : String} {nickname email : Option String}
    {r : Reply Unit}
    (h : userRegister env username password nickname email role db = .ok (db', r)) :
    Effect env db (.userRegister username password nickname email role) db' := by
  simp only [userRegister, bind_eq_ok, require_eq_ok, bound_eq_ok, VarChar.ofString_eq_some,
    pure_eq_ok, Prod.mk.injEq, Bool.not_eq_true', List.any_eq_false, Bool.or_eq_true, not_or,
    beq_iff_eq] at h
  obtain ⟨_, hn, name, hname, _, _, _, _, _, _, rfl, _⟩ := h
  exact .userRegistered hname (fun v hv => (hn v hv).1) rfl

theorem userModifyPassword_effect {userId : ℕ} {oldPassword newPassword : String}
    {r : Reply Unit} (h : userModifyPassword env userId oldPassword newPassword db = .ok (db', r)) :
    Effect env db (.userModifyPassword userId oldPassword newPassword) db' := by
  simp only [userModifyPassword, bind_eq_ok, orAbort_eq_ok, Table.find?_eq_some, user_key,
    pure_eq_ok, Prod.mk.injEq] at h
  obtain ⟨u, ⟨hu, hid⟩, _, _, _, _, hash, _, rfl, _⟩ := h
  exact .passwordModified hu hid

end Users

section Services

variable {env : Environment} {db db' : Database} {serviceId iterationId userId : ℕ}

theorem serviceCreateNewService_effect {serviceUuid : String} {description : Option String}
    {r : Reply ServiceDetail}
    (h : serviceCreateNewService env serviceUuid userId description db = .ok (db', r)) :
    Effect env db (.serviceCreateNewService serviceUuid userId description) db' := by
  simp only [serviceCreateNewService, bind_eq_ok, require_eq_ok, bound_eq_ok,
    VarChar.ofString_eq_some, pure_eq_ok, Prod.mk.injEq, Bool.not_eq_true', List.any_eq_false,
    beq_iff_eq] at h
  obtain ⟨_, hn, uuid, hu, version, hv, _, ho, rfl, _⟩ := h
  exact .serviceCreated hu hn rfl ho hv rfl rfl

theorem serviceAddOrRemove_effect {candidateId : ℕ} {r : Reply Bool}
    (h : serviceAddOrRemoveServiceMaintainerById serviceId userId candidateId db = .ok (db', r)) :
    Effect env db (.serviceAddOrRemoveServiceMaintainerById serviceId userId candidateId) db' := by
  simp only [serviceAddOrRemoveServiceMaintainerById, bind_eq_ok, orAbort_eq_ok, require_eq_ok,
    requireOwner_eq_ok, Table.find?_eq_some, user_key, service_key, bne_iff_ne] at h
  obtain ⟨s, ⟨hs, rfl⟩, _, hr, _, hne, c, ⟨hc, rfl⟩, h⟩ := h
  split at h
  · simp only [pure_eq_ok, Prod.mk.injEq] at h
    obtain ⟨rfl, _⟩ := h
    exact .maintainerRemoved hs rfl hr
  · simp only [pure_eq_ok, Prod.mk.injEq] at h
    obtain ⟨rfl, _⟩ := h
    exact .maintainerAdded hs rfl hr hne (Table.contains_iff.mpr ⟨c, hc, rfl⟩)

theorem serviceDeleteServiceById_effect {r : Reply Unit}
    (h : serviceDeleteServiceById env serviceId userId db = .ok (db', r)) :
    Effect env db (.serviceDeleteServiceById serviceId userId) db' := by
  simp only [serviceDeleteServiceById, bind_eq_ok, orAbort_eq_ok, requireOwner_eq_ok,
    Table.find?_eq_some, service_key, pure_eq_ok, Prod.mk.injEq] at h
  obtain ⟨s, ⟨hs, hid⟩, _, hr, rfl, _⟩ := h
  exact .serviceDeleted hs hid hr

theorem serviceRestoreServiceById_effect {r : Reply Unit}
    (h : serviceRestoreServiceById serviceId userId db = .ok (db', r)) :
    Effect env db (.serviceRestoreServiceById serviceId userId) db' := by
  simp only [serviceRestoreServiceById, bind_eq_ok, orAbort_eq_ok, requireOwner_eq_ok,
    require_eq_ok, Table.find?_eq_some, service_key, pure_eq_ok, Prod.mk.injEq] at h
  obtain ⟨s, ⟨hs, hid⟩, _, hr, _, hd, rfl, _⟩ := h
  exact .serviceRestored hs hid hr hd

theorem serviceDeleteIterationById_effect {r : Reply Unit}
    (h : serviceDeleteIterationById iterationId userId db = .ok (db', r)) :
    Effect env db (.serviceDeleteIterationById iterationId userId) db' := by
  simp only [serviceDeleteIterationById, bind_eq_ok, orAbort_eq_ok, requireCreator_eq_ok,
    require_eq_ok, Table.find?_eq_some, iteration_key, service_key, pure_eq_ok, Prod.mk.injEq,
    List.isEmpty_iff] at h
  obtain ⟨i, ⟨hi, hid⟩, s, ⟨hs, hsid⟩, _, hr, _, he, rfl, _⟩ := h
  exact .iterationDeleted hi hid hs hsid hr he

/-- Either the user's open iteration is reported, or a new one is created. -/
theorem serviceStartIteration_cases {r : Reply ℕ}
    (h : serviceStartIteration env serviceId userId db = .ok (db', r)) :
    (r.status = 201 ∧ db' = db ∧ ∃ i ∈ openIterations db serviceId userId, r.data = i.id) ∨
    (r.status = 200 ∧ r.data = db.iterations.next ∧ openIterations db serviceId userId = [] ∧
      db.users.contains userId = true ∧
      (∃ s ∈ db.services.rows, s.id = serviceId ∧ MaintainerRight db s userId) ∧
      ∃ drafts, copyApis env (draftReferences (insertIteration serviceId userId db)) db.live
          (env.fetch (db.live.apisOf serviceId)) db.iterations.next db.drafts = .ok drafts ∧
        db' = { insertIteration serviceId userId db with drafts := drafts }) := by
  simp only [serviceStartIteration, bind_eq_ok, orAbort_eq_ok, requireMaintainer_eq_ok,
    Table.find?_eq_some, service_key] at h
  obtain ⟨s, ⟨hs, hid⟩, _, hr, h⟩ := h
  cases hf : (env.fetch (openIterations db serviceId userId)).head? with
  | some i =>
    simp only [hf, pure_eq_ok, Prod.mk.injEq] at h
    obtain ⟨rfl, rfl⟩ := h
    exact Or.inl ⟨rfl, rfl, i, env.mem_fetch.mp (List.mem_of_head? hf), rfl⟩
  | none =>
    simp only [hf, startNewIteration, bind_eq_ok, require_eq_ok, Bool.and_eq_true, pure_eq_ok,
      Prod.mk.injEq] at h
    obtain ⟨_, ⟨_, ⟨_, hu⟩, drafts, hd, rfl⟩, rfl, rfl⟩ := h
    have hnone : openIterations db serviceId userId = [] := by
      rw [List.head?_eq_none_iff] at hf
      have hp := env.fetch_perm (openIterations db serviceId userId)
      rw [hf] at hp
      exact hp.nil_eq.symm
    exact Or.inr ⟨rfl, rfl, hnone, hu, ⟨s, hs, hid, hr⟩, drafts, hd, rfl⟩

theorem serviceStartIteration_effect {r : Reply ℕ}
    (h : serviceStartIteration env serviceId userId db = .ok (db', r)) :
    Effect env db (.serviceStartIteration serviceId userId) db' := by
  rcases serviceStartIteration_cases h with ⟨_, rfl, i, hi, _⟩ |
    ⟨_, _, hnone, hu, ⟨s, hs, hid, hr⟩, drafts, hd, rfl⟩
  · exact .iterationInProgress hi
  · exact .iterationStarted hs hid hr hnone hu hd

theorem serviceCommitIteration_effect {newVersion : String} {r : Except Raised (Reply CommitInfo)}
    (h : serviceCommitIteration env iterationId newVersion userId db = .ok (db', r)) :
    Effect env db (.serviceCommitIteration iterationId newVersion userId) db' := by
  simp only [serviceCommitIteration, bind_eq_ok, asCheckResult_eq_ok, orAbort_eq_ok,
    require_eq_ok, Table.find?_eq_some, service_key, bne_iff_ne, commitDatabase, bound_eq_ok,
    VarChar.ofString_eq_some, pure_eq_ok, Prod.mk.injEq] at h
  obtain ⟨⟨i, u⟩, hc, s, ⟨hs, hsid⟩, _, hne, _, ⟨version, hv, live, hl, rfl⟩, rfl, _⟩ := h
  exact .iterationCommitted (checkServiceIterationPermission_eq_ok.mp hc).1 hs hsid hne hv hl

theorem serviceUpdateDescription_effect {description : Option String} {r : Reply Unit}
    (h : serviceUpdateDescription iterationId description userId db = .ok (db', r)) :
    Effect env db (.serviceUpdateDescription iterationId description userId) db' := by
  simp only [serviceUpdateDescription, bind_eq_ok, pure_eq_ok, Prod.mk.injEq] at h
  obtain ⟨⟨i, u⟩, hc, rfl, _⟩ := h
  exact .descriptionUpdated (checkServiceIterationPermission_eq_ok.mp hc).1

end Services

section Categories

variable {env : Environment} {db db' : Database} {serviceId categoryId userId : ℕ}

theorem apiAddCategoryByServiceId_effect {name : String} {description : Option String}
    {r : Reply ApiCategory}
    (h : apiAddCategoryByServiceId serviceId userId name description db = .ok (db', r)) :
    Effect env db (.apiAddCategoryByServiceId serviceId userId name description) db' := by
  simp only [apiAddCategoryByServiceId, bind_eq_ok, orAbort_eq_ok, requireMaintainer_eq_ok,
    require_eq_ok, bound_eq_ok, VarChar.ofString_eq_some, Table.find?_eq_some, service_key,
    pure_eq_ok, Prod.mk.injEq, Bool.not_eq_true', List.any_eq_false, Bool.and_eq_true,
    beq_iff_eq, not_and] at h
  obtain ⟨s, ⟨hs, hid⟩, _, hr, _, hn, v, hv, rfl, _⟩ := h
  exact .categoryAdded hs hid hr rfl hv hn

theorem apiDeleteCategoryById_effect {r : Reply Unit}
    (h : apiDeleteCategoryById categoryId userId db = .ok (db', r)) :
    Effect env db (.apiDeleteCategoryById categoryId userId) db' := by
  simp only [apiDeleteCategoryById, bind_eq_ok, orAbort_eq_ok, Table.find?_eq_some,
    category_key, service_key, pure_eq_ok, Prod.mk.injEq] at h
  obtain ⟨c, ⟨hc, hid⟩, u, hu, s, ⟨hs, hsid⟩, _, hr, rfl, _⟩ := h
  rw [← Table.find?_eq_some.mpr hu, requireMaintainer_eq_ok] at hr
  exact .categoryDeleted hc hid hs hsid hr

theorem apiUpdateCategoryById_effect {name description : Option String} {r : Reply ApiCategory}
    (h : apiUpdateCategoryById categoryId userId name description db = .ok (db', r)) :
    Effect env db (.apiUpdateCategoryById categoryId userId name description) db' := by
  simp only [apiUpdateCategoryById, bind_eq_ok, orAbort_eq_ok, require_eq_ok, notNull_eq_ok,
    bound_eq_ok, VarChar.ofString_eq_some, Table.find?_eq_some, category_key, service_key,
    pure_eq_ok, Prod.mk.injEq] at h
  obtain ⟨c, ⟨hc, hid⟩, u, hu, s, ⟨hs, hsid⟩, _, hr, _, _, _, _, _, hn, newName, rfl, v, rfl, rfl,
    _⟩ := h
  rw [← Table.find?_eq_some.mpr hu, requireOwner_eq_ok] at hr
  simp only [Bool.not_eq_true', List.any_eq_false, Bool.and_eq_true, beq_iff_eq, not_and,
    Option.some_inj] at hn
  exact .categoryUpdated hc hid hs hsid hr
    (fun d hd hds hname => hn d hd hds (congrArg VarChar.val hname.symm))

theorem apiUpdateApiCategory_effect {apiId : ℕ} {k : ℤ} {r : Reply Unit}
    (h : apiUpdateApiCategory apiId k userId db = .ok (db', r)) :
    Effect env db (.apiUpdateApiCategory apiId k userId) db' := by
  simp only [apiUpdateApiCategory, bind_eq_ok, orAbort_eq_ok, require_eq_ok,
    Table.find?_eq_some, api_key, service_key] at h
  obtain ⟨a, ⟨ha, hid⟩, u, hu, s, ⟨hs, hsid⟩, _, hr, _, _, h⟩ := h
  rw [← Table.find?_eq_some.mpr hu, requireMaintainer_eq_ok] at hr
  split at h
  · simp only [pure_eq_ok, Prod.mk.injEq] at h
    obtain ⟨rfl, _⟩ := h
    exact .apiCategoryUpdated ha hid hs hsid hr (fun j hj => by cases hj)
  · simp only [bind_eq_ok, orAbort_eq_ok, require_eq_ok, Table.find?_eq_some, category_key,
      beq_iff_eq, pure_eq_ok, Prod.mk.injEq] at h
    obtain ⟨c, ⟨hc, _⟩, _, hcs, rfl, _⟩ := h
    refine .apiCategoryUpdated ha hid hs hsid hr (fun j hj => ?_)
    exact ⟨c, hc, Option.some.inj hj, hcs⟩

end Categories

section Drafts

variable {env : Environment} {db db' : Database} {iterationId apiDraftId userId : ℕ}

theorem requireCategory_eq_ok {categoryId : Option ℕ} {serviceId : ℕ} {x : Unit} :
    requireCategory db categoryId serviceId = .ok x ↔ ∀ k, categoryId = some k →
      ∃ c ∈ db.categories.rows, c.id = k ∧ c.serviceId = serviceId := by
  cases categoryId with
  | none => simp [requireCategory]
  | some k =>
    simp only [requireCategory, bind_eq_ok, orAbort_eq_ok, require_eq_ok, Table.find?_eq_some,
      category_key, beq_iff_eq, Option.some_inj]
    constructor
    · rintro ⟨c, ⟨hc, hid⟩, hs⟩ j rfl
      exact ⟨c, hc, hid, hs⟩
    · intro h
      obtain ⟨c, hc, hid, hs⟩ := h k rfl
      exact ⟨c, ⟨hc, hid⟩, hs⟩

theorem apiAddApi_effect {name method path level : String} {description : Option String}
    {categoryId : Option ℕ} {r : Reply ApiDraft}
    (h : apiAddApi iterationId userId name method path description level categoryId db =
      .ok (db', r)) :
    Effect env db
      (.apiAddApi iterationId userId name method path description level categoryId) db' := by
  simp only [apiAddApi, bind_eq_ok, require_eq_ok, bound_eq_ok, VarChar.ofString_eq_some,
    pure_eq_ok, Prod.mk.injEq] at h
  obtain ⟨⟨i, u⟩, hc, _, hm, _, hn, _, hk, n, hname, p, hpath, drafts, hd, rfl, _⟩ := h
  have hw := (checkServiceIterationPermission_eq_ok.mp hc).1
  obtain ⟨m, hm⟩ := Option.isSome_iff_exists.mp hm
  simp only [hm, Option.getD_some] at hn hd
  simp only [Bool.not_eq_true', Bool.or_eq_false_iff, List.any_eq_false, Bool.and_eq_true,
    Bool.or_eq_true, beq_iff_eq, not_and, not_or] at hn
  rw [hw.id] at hd hn
  refine .draftAdded hw rfl hname hpath hm rfl ?_ ?_ hd
  · intro a ha hcont hmeth hp
    exact (hn.2 a ha ⟨hcont, hmeth⟩).1 ((congrArg VarChar.val hp).trans hpath)
  · exact requireCategory_eq_ok.mp hk

theorem apiCopyApiByApiDraftId_effect {r : Reply Unit}
    (h : apiCopyApiByApiDraftId env iterationId apiDraftId userId db = .ok (db', r)) :
    Effect env db (.apiCopyApiByApiDraftId iterationId apiDraftId userId) db' := by
  simp only [apiCopyApiByApiDraftId, bind_eq_ok, draftOfIteration_eq_ok, bound_eq_ok,
    VarChar.ofString_eq_some, pure_eq_ok, Prod.mk.injEq] at h
  obtain ⟨d, ⟨⟨i, hw⟩, hd, hid, hc⟩, n, _, p, hp, drafts, hcopy, rfl, _⟩ := h
  refine .draftCopied hw hd hid hc ?_ ?_ ?_ ?_ hcopy
  · rfl
  · rfl
  · rfl
  · exact hp

theorem apiDeleteApiByApiDraftId_effect {r : Reply Unit}
    (h : apiDeleteApiByApiDraftId iterationId apiDraftId userId db = .ok (db', r)) :
    Effect env db (.apiDeleteApiByApiDraftId iterationId apiDraftId userId) db' := by
  simp only [apiDeleteApiByApiDraftId, bind_eq_ok, draftOfIteration_eq_ok, pure_eq_ok,
    Prod.mk.injEq] at h
  obtain ⟨d, ⟨⟨i, hw⟩, hd, rfl, hc⟩, rfl, _⟩ := h
  exact .draftDeleted hw hd rfl hc

theorem apiUpdateApiByApiDraftId_effect {name method path level : String}
    {description : Option String} {reqParams respParams : JsonValue} {r : Reply Unit}
    (h : apiUpdateApiByApiDraftId env iterationId apiDraftId userId name method path description
      level reqParams respParams db = .ok (db', r)) :
    Effect env db
      (.apiUpdateApiByApiDraftId iterationId apiDraftId userId name method path description
        level reqParams respParams) db' := by
  simp only [apiUpdateApiByApiDraftId, bind_eq_ok, draftOfIteration_eq_ok, bound_eq_ok,
    VarChar.ofString_eq_some, pure_eq_ok, Prod.mk.injEq] at h
  obtain ⟨d, ⟨⟨i, hw⟩, hd, hid, hc⟩, n, _, p, hp, drafts, hrw, rfl, _⟩ := h
  refine .draftUpdated hw hd hid hc ?_ ?_ ?_ ?_ hrw
  · rfl
  · rfl
  · rfl
  · exact hp

end Drafts

theorem transaction_effect {db db' : Database} {request : Request}
    (h : transaction db request = .ok db') : Effect request.env db request.operation db' := by
  obtain ⟨env, operation⟩ := request
  cases operation <;> simp only [transaction, map_fst_eq_ok] at h <;> obtain ⟨r, h⟩ := h
  case userRegister => exact userRegister_effect h
  case userModifyPassword => exact userModifyPassword_effect h
  case serviceCreateNewService => exact serviceCreateNewService_effect h
  case serviceAddOrRemoveServiceMaintainerById => exact serviceAddOrRemove_effect h
  case serviceDeleteServiceById => exact serviceDeleteServiceById_effect h
  case serviceRestoreServiceById => exact serviceRestoreServiceById_effect h
  case serviceDeleteIterationById => exact serviceDeleteIterationById_effect h
  case serviceStartIteration => exact serviceStartIteration_effect h
  case serviceCommitIteration => exact serviceCommitIteration_effect h
  case serviceUpdateDescription => exact serviceUpdateDescription_effect h
  case apiAddCategoryByServiceId => exact apiAddCategoryByServiceId_effect h
  case apiDeleteCategoryById => exact apiDeleteCategoryById_effect h
  case apiUpdateCategoryById => exact apiUpdateCategoryById_effect h
  case apiUpdateApiCategory => exact apiUpdateApiCategory_effect h
  case apiAddApi => exact apiAddApi_effect h
  case apiCopyApiByApiDraftId => exact apiCopyApiByApiDraftId_effect h
  case apiDeleteApiByApiDraftId => exact apiDeleteApiByApiDraftId_effect h
  case apiUpdateApiByApiDraftId => exact apiUpdateApiByApiDraftId_effect h

end OperationEffects
