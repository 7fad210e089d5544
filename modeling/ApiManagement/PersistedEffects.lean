import ApiManagement.FailureContract
import ApiManagement.KeptContent
import ApiManagement.SilentFallbacks

/-! # What a success leaves in the database

For each operation, the effect its caller asks for, and that the status 200 is given only with
this effect in the database, unless something else is stored silently. With the shape of the
failures this is the contract of the handlers, which the refused commits break too. -/
namespace PersistedEffects

open TransactionRuns KeyedTables ParentLinkedRows RowForests PythonRuntime ServiceSchema ApiStores
  UserOperations ServiceOperations ApiOperations OperationRuns OperationEffects DraftWrites
  StoreCopies StateInvariant IterationCopies KeptContent ParamEncoding DraftCopies ReadOperations
  Postconditions FailureContract AskedParams SilentFallbacks

/-- The new database shows the effect a caller of the operation asks for: what is not given
stays as it was, and a value that does not exist stands for no other. -/
def Requested (env : Environment) (db db' : Database) : Operation → Prop
  | .userRegister username password nickname email role =>
    ∃ u ∈ db'.users.rows, u.id = db.users.next ∧ u.username.val = username ∧
      u.password.val = env.hashPassword password ∧ u.nickname.map VarChar.val = nickname ∧
      u.email.map VarChar.val = email ∧ UserRole.ofValue role = some u.role
  | .userModifyPassword userId _ newPassword =>
    ∃ u ∈ db'.users.rows, u.id = userId ∧ u.password.val = env.hashPassword newPassword
  | .serviceCreateNewService serviceUuid userId description =>
    ∃ s ∈ db'.services.rows, s.id = db.services.next ∧ s.serviceUuid.val = serviceUuid ∧
      s.ownerId = userId ∧ s.description = description ∧ s.isDeleted = false
  | .serviceAddOrRemoveServiceMaintainerById serviceId _ candidateId =>
    (candidateId, serviceId) ∈ db'.userServiceLink ↔
      (candidateId, serviceId) ∉ db.userServiceLink
  | .serviceDeleteServiceById serviceId _ =>
    ∃ s ∈ db'.services.rows, s.id = serviceId ∧ s.isDeleted = true
  | .serviceRestoreServiceById serviceId _ =>
    ∃ s ∈ db'.services.rows, s.id = serviceId ∧ s.isDeleted = false
  | .serviceDeleteIterationById iterationId _ => db'.iterations.contains iterationId = false
  | .serviceStartIteration serviceId userId =>
    (∃ s ∈ db.services.rows, s.id = serviceId ∧ ∃ i ∈ db'.iterations.rows,
      i.id = db.iterations.next ∧ i.serviceId = serviceId ∧ i.creatorId = some userId ∧
      i.description = s.description ∧ i.isCommitted = false) ∧
      Snapshot id db.live serviceId db'.drafts db.iterations.next
  | .serviceCommitIteration iterationId newVersion _ =>
    ∃ i ∈ db.iterations.rows, i.id = iterationId ∧ ∃ version : VarChar 32,
      version.val = newVersion ∧ markCommitted version i ∈ db'.iterations.rows ∧
      (∃ s ∈ db.services.rows, s.id = i.serviceId ∧
        publish i.description version s ∈ db'.services.rows) ∧
      Snapshot id db.drafts iterationId db'.live i.serviceId
  | .serviceUpdateDescription iterationId description _ =>
    ∃ i ∈ db'.iterations.rows, i.id = iterationId ∧ i.description = description
  | .apiAddCategoryByServiceId serviceId _ name description =>
    ∃ c ∈ db'.categories.rows, c.id = db.categories.next ∧ c.serviceId = serviceId ∧
      c.name.val = name ∧ c.description = description
  | .apiDeleteCategoryById categoryId _ => db'.categories.contains categoryId = false
  | .apiUpdateCategoryById categoryId _ name description =>
    ∃ c ∈ db.categories.rows, c.id = categoryId ∧ ∃ d ∈ db'.categories.rows, d.id = categoryId ∧
      d.name.val = name.getD c.name.val ∧ d.description = description.or c.description
  | .apiUpdateApiCategory apiId categoryId _ =>
    ∃ a ∈ db'.live.apis.rows, a.id = apiId ∧
      a.fields.categoryId.map Int.ofNat = if categoryId = -1 then none else some categoryId
  | .apiAddApi iterationId userId name method path description level categoryId =>
    ∃ a ∈ db'.drafts.apis.rows, a.id = db.drafts.apis.next ∧ a.container = iterationId ∧
      a.fields.ownerId = userId ∧ a.fields.name.val = name ∧
      HttpMethod.ofValue method = some a.fields.method ∧ a.fields.path.val = path ∧
      a.fields.description = description ∧
      ApiLevel.ofValue level = some a.fields.level ∧ a.fields.categoryId = categoryId
  | .apiCopyApiByApiDraftId iterationId apiDraftId userId =>
    ∃ d ∈ db.drafts.apis.rows, d.id = apiDraftId ∧ Duplicated d db.drafts db'.drafts ∧
      ∃ a ∈ db'.drafts.apis.rows, a.id = db.drafts.apis.next ∧ a.container = iterationId ∧
        a.fields.ownerId = userId ∧ a.fields.name.val = d.fields.name.val ++ copySuffix env ∧
        a.fields.path.val = d.fields.path.val ++ copySuffix env ∧
        a.fields.method = d.fields.method
  | .apiDeleteApiByApiDraftId _ apiDraftId _ =>
    db'.drafts.apis.contains apiDraftId = false ∧
      db'.drafts.requestParamsOf apiDraftId = [] ∧ db'.drafts.responseParamsOf apiDraftId = []
  | .apiUpdateApiByApiDraftId _ apiDraftId _ name method path description level reqParams
      respParams =>
    (∃ a ∈ db'.drafts.apis.rows, a.id = apiDraftId ∧ a.fields.name.val = name ∧
      HttpMethod.ofValue method = some a.fields.method ∧ a.fields.path.val = path ∧
      a.fields.description = description ∧ ApiLevel.ofValue level = some a.fields.level) ∧
    ∃ reqs resps, AskedAll env none (paramsOf reqParams) reqs ∧
      AskedAll env none (paramsOf respParams) resps ∧
      HoldsForests db'.drafts apiDraftId reqs resps

variable {env : Environment} {db db' : Database}

theorem userRegister_requested {username password role : String} {nickname email : Option String}
    {r : Reply Unit}
    (h : userRegister env username password nickname email role db = .ok (db', r)) :
    Requested env db db' (.userRegister username password nickname email role) ↔
      ¬UserRole.ofValue role = none := by
  simp only [userRegister, bind_eq_ok, bound_eq_ok, VarChar.ofString_eq_some, pure_eq_ok,
    Prod.mk.injEq] at h
  obtain ⟨_, _, name, hname, hash, hhash, nick, hnick, mail, hmail, rfl, _⟩ := h
  rw [Requested, ← ne_eq, Option.ne_none_iff_exists']
  constructor
  · rintro ⟨u, _, _, _, _, _, _, hrole⟩
    exact ⟨u.role, hrole⟩
  · rintro ⟨known, hrole⟩
    refine ⟨_, List.mem_append_right _ List.mem_cons_self, rfl, hname, hhash,
      optionalVarChar_eq_ok hnick, optionalVarChar_eq_ok hmail, ?_⟩
    rw [hrole]
    rfl

theorem userModifyPassword_requested {userId : ℕ} {oldPassword newPassword : String}
    {r : Reply Unit} (h : userModifyPassword env userId oldPassword newPassword db = .ok (db', r)) :
    Requested env db db' (.userModifyPassword userId oldPassword newPassword) := by
  simp only [userModifyPassword, bind_eq_ok, orAbort_eq_ok, Table.find?_eq_some, user_key,
    bound_eq_ok, VarChar.ofString_eq_some, pure_eq_ok, Prod.mk.injEq] at h
  obtain ⟨u, ⟨hu, hid⟩, _, _, _, _, hash, hhash, rfl, _⟩ := h
  exact ⟨setPassword hash u, List.mem_map.mpr ⟨u, hu, if_pos rfl⟩, hid, hhash⟩

section Services

variable {serviceId iterationId userId : ℕ}

theorem serviceCreateNewService_requested {serviceUuid : String} {description : Option String}
    {r : Reply ServiceDetail}
    (h : serviceCreateNewService env serviceUuid userId description db = .ok (db', r)) :
    Requested env db db' (.serviceCreateNewService serviceUuid userId description) := by
  simp only [serviceCreateNewService, bind_eq_ok, bound_eq_ok, VarChar.ofString_eq_some,
    pure_eq_ok, Prod.mk.injEq] at h
  obtain ⟨_, _, uuid, hu, version, _, _, _, rfl, _⟩ := h
  exact ⟨_, List.mem_append_right _ List.mem_cons_self, rfl, hu, rfl, rfl, rfl⟩

theorem serviceAddOrRemove_requested {candidateId : ℕ} {r : Reply Bool}
    (h : serviceAddOrRemoveServiceMaintainerById serviceId userId candidateId db = .ok (db', r)) :
    Requested env db db'
      (.serviceAddOrRemoveServiceMaintainerById serviceId userId candidateId) := by
  simp only [serviceAddOrRemoveServiceMaintainerById, bind_eq_ok, orAbort_eq_ok,
    Table.find?_eq_some, user_key, service_key] at h
  obtain ⟨s, ⟨_, rfl⟩, _, _, _, _, c, ⟨hc, rfl⟩, h⟩ := h
  have hlink : isMaintainer db s.id (some c) = true ↔ (c.id, s.id) ∈ db.userServiceLink := by
    rw [← Table.find?_eq_some.mpr ⟨hc, rfl⟩, isMaintainer_find?, Maintains]
    exact and_iff_right (Table.contains_iff.mpr ⟨c, hc, rfl⟩)
  by_cases hm : isMaintainer db s.id (some c) = true
  · rw [if_pos hm, pure_eq_ok, Prod.mk.injEq] at h
    obtain ⟨rfl, _⟩ := h
    simp [Requested, hlink.mp hm]
  · rw [if_neg hm, pure_eq_ok, Prod.mk.injEq] at h
    obtain ⟨rfl, _⟩ := h
    simp [Requested, mt hlink.mpr hm]

theorem serviceDeleteServiceById_requested {r : Reply Unit}
    (h : serviceDeleteServiceById env serviceId userId db = .ok (db', r)) :
    Requested env db db' (.serviceDeleteServiceById serviceId userId) := by
  simp only [serviceDeleteServiceById, bind_eq_ok, orAbort_eq_ok, Table.find?_eq_some,
    service_key, pure_eq_ok, Prod.mk.injEq] at h
  obtain ⟨s, ⟨hs, hid⟩, _, _, rfl, _⟩ := h
  exact ⟨setDeleted (some env.now) s, List.mem_map.mpr ⟨s, hs, if_pos rfl⟩, hid, rfl⟩

theorem serviceRestoreServiceById_requested {r : Reply Unit}
    (h : serviceRestoreServiceById serviceId userId db = .ok (db', r)) :
    Requested env db db' (.serviceRestoreServiceById serviceId userId) := by
  simp only [serviceRestoreServiceById, bind_eq_ok, orAbort_eq_ok, Table.find?_eq_some,
    service_key, pure_eq_ok, Prod.mk.injEq] at h
  obtain ⟨s, ⟨hs, hid⟩, _, _, _, _, rfl, _⟩ := h
  exact ⟨setDeleted none s, List.mem_map.mpr ⟨s, hs, if_pos rfl⟩, hid, rfl⟩

theorem serviceDeleteIterationById_requested {r : Reply Unit}
    (h : serviceDeleteIterationById iterationId userId db = .ok (db', r)) :
    Requested env db db' (.serviceDeleteIterationById iterationId userId) := by
  simp only [serviceDeleteIterationById, bind_eq_ok, orAbort_eq_ok, Table.find?_eq_some,
    iteration_key, service_key, pure_eq_ok, Prod.mk.injEq] at h
  obtain ⟨i, ⟨_, rfl⟩, _, _, _, _, _, _, rfl, _⟩ := h
  exact db.iterations.contains_restrict_self

/-- An iteration starts without the description of its service. -/
theorem serviceStartIteration_requested (hi : Invariant Nests db) :
    (∀ db' r, serviceStartIteration env serviceId userId db = .ok (db', r) → r.status = 200 →
      Requested env db db' (.serviceStartIteration serviceId userId)) ↔
      ¬Substitutes env db (.serviceStartIteration serviceId userId) := by
  constructor
  · rintro h ⟨hopen, s, hs, rfl, hr, hdescribed⟩
    obtain ⟨drafts, _, _, _, hstart, _⟩ := start_succeeds hi env hs hr hopen
    obtain ⟨⟨t, ht, htid, i, hm, hid, _, _, hdesc, _⟩, _⟩ := h _ _ hstart rfl
    -- the new row is the only one with its id
    rw [Table.eq_of_key_eq _ hm (List.mem_append_right _ List.mem_cons_self) hid,
      db.services.eq_of_key_eq ht hs htid] at hdesc
    exact hdescribed hdesc.symm
  · intro h db' r hstart hstatus
    rcases serviceStartIteration_cases hstart with
      ⟨hold, _⟩ | ⟨_, _, hopen, _, ⟨s, hs, hid, hr⟩, drafts, hd, rfl⟩
    · rw [hstatus] at hold
      cases hold
    · have hnone : s.description = none := by
        by_contra hdescribed
        exact h ⟨hopen, s, hs, hid, hr, hdescribed⟩
      obtain ⟨ν, μ, ρ, hc, _⟩ := started_copies hi hd
      refine ⟨⟨s, hs, hid, _, List.mem_append_right _ List.mem_cons_self, rfl, rfl, rfl, ?_, rfl⟩,
        ν, μ, ρ, started_replica hi hc⟩
      exact hnone.symm

theorem serviceCommitIteration_requested (hi : Invariant Nests db) {newVersion : String}
    {r : Except Raised (Reply CommitInfo)}
    (h : serviceCommitIteration env iterationId newVersion userId db = .ok (db', r)) :
    Requested env db db' (.serviceCommitIteration iterationId newVersion userId) := by
  cases serviceCommitIteration_effect h with
  | @iterationCommitted _ _ _ i s version live hw hs hsid _ hval hcopy =>
    rw [hsid] at hcopy
    obtain ⟨ν, μ, ρ, hc, _⟩ := committed_copies hi hw.mem hcopy
    refine ⟨i, hw.mem, hw.id, version, hval, List.mem_map.mpr ⟨i, hw.mem, if_pos rfl⟩,
      ⟨s, hs, hsid, List.mem_map.mpr ⟨s, hs, if_pos rfl⟩⟩, ?_⟩
    rw [← hw.id]
    exact ⟨ν, μ, ρ, committed_replica hc⟩

theorem serviceUpdateDescription_requested {description : Option String} {r : Reply Unit}
    (h : serviceUpdateDescription iterationId description userId db = .ok (db', r)) :
    Requested env db db' (.serviceUpdateDescription iterationId description userId) := by
  have he : Effect env db (.serviceUpdateDescription iterationId description userId) db' :=
    serviceUpdateDescription_effect h
  cases he with
  | descriptionUpdated hw =>
    exact ⟨_, List.mem_map.mpr ⟨_, hw.mem, if_pos rfl⟩, hw.id, rfl⟩

end Services

section Categories

variable {serviceId categoryId userId : ℕ}

theorem apiAddCategoryByServiceId_requested {name : String} {description : Option String}
    {r : Reply ApiCategory}
    (h : apiAddCategoryByServiceId serviceId userId name description db = .ok (db', r)) :
    Requested env db db' (.apiAddCategoryByServiceId serviceId userId name description) := by
  simp only [apiAddCategoryByServiceId, bind_eq_ok, bound_eq_ok, VarChar.ofString_eq_some,
    pure_eq_ok, Prod.mk.injEq] at h
  obtain ⟨_, _, _, _, _, _, v, hv, rfl, _⟩ := h
  exact ⟨_, List.mem_append_right _ List.mem_cons_self, rfl, rfl, hv, rfl⟩

theorem apiDeleteCategoryById_requested {r : Reply Unit}
    (h : apiDeleteCategoryById categoryId userId db = .ok (db', r)) :
    Requested env db db' (.apiDeleteCategoryById categoryId userId) := by
  simp only [apiDeleteCategoryById, bind_eq_ok, orAbort_eq_ok, Table.find?_eq_some,
    category_key, pure_eq_ok, Prod.mk.injEq] at h
  obtain ⟨c, ⟨_, rfl⟩, _, _, _, _, _, _, rfl, _⟩ := h
  exact db.categories.contains_restrict_self

theorem apiUpdateCategoryById_requested {name description : Option String}
    {r : Reply ApiCategory}
    (h : apiUpdateCategoryById categoryId userId name description db = .ok (db', r)) :
    Requested env db db' (.apiUpdateCategoryById categoryId userId name description) ↔
      ¬(Described db categoryId ∧ description = none) := by
  simp only [apiUpdateCategoryById, bind_eq_ok, orAbort_eq_ok, notNull_eq_ok, bound_eq_ok,
    VarChar.ofString_eq_some, Table.find?_eq_some, category_key, pure_eq_ok,
    Prod.mk.injEq] at h
  obtain ⟨c, ⟨hc, rfl⟩, _, _, _, _, _, _, _, _, _, _, _, _, newName, hname, v, hv, rfl, _⟩ := h
  have hnew : renameCategory v description c ∈
      (db.categories.update c.id (renameCategory v description) (fun _ => rfl)).rows :=
    List.mem_map.mpr ⟨c, hc, if_pos rfl⟩
  rw [Requested]
  constructor
  · rintro ⟨b, hb, hbid, d, hd, hdid, _, hdesc⟩ ⟨⟨a, ha, haid, hne⟩, rfl⟩
    -- the row of the category is the renamed one, which has no description
    rw [db.categories.eq_of_key_eq ha hc haid] at hne
    rw [Table.eq_of_key_eq _ hd hnew hdid, db.categories.eq_of_key_eq hb hc hbid] at hdesc
    exact hne (by simpa [renameCategory] using hdesc.symm)
  · intro hkept
    refine ⟨c, hc, rfl, _, hnew, rfl, ?_, ?_⟩
    · rw [hname, Option.getD_some, ← hv]
      rfl
    · cases description with
      | some s => rfl
      | none =>
        have hnone : c.description = none :=
          not_not.mp (fun hne => hkept ⟨⟨c, hc, rfl, hne⟩, rfl⟩)
        rw [hnone]
        rfl

/-- The api found gets the category that was checked. -/
theorem assigned {a : Api} (ha : a ∈ db.live.apis.rows) (k : Option ℕ) :
    ∃ b ∈ (setCategories (assignCategory a.id k) db.live).apis.rows, b.id = a.id ∧
      b.fields.categoryId = k :=
  ⟨setCategory (assignCategory a.id k) a, List.mem_map_of_mem ha, rfl, if_pos rfl⟩

theorem apiUpdateApiCategory_requested {apiId : ℕ} {k : ℤ} {r : Reply Unit}
    (h : apiUpdateApiCategory apiId k userId db = .ok (db', r)) :
    Requested env db db' (.apiUpdateApiCategory apiId k userId) := by
  simp only [apiUpdateApiCategory, bind_eq_ok, orAbort_eq_ok, Table.find?_eq_some,
    api_key] at h
  obtain ⟨a, ⟨ha, rfl⟩, _, _, _, _, _, _, _, _, h⟩ := h
  by_cases hk : k = -1
  · rw [if_pos hk, pure_eq_ok, Prod.mk.injEq] at h
    obtain ⟨rfl, _⟩ := h
    obtain ⟨b, hb, hid, hcat⟩ := assigned ha none
    refine ⟨b, hb, hid, ?_⟩
    rw [if_pos hk, hcat, Option.map_none]
  · rw [if_neg hk] at h
    simp only [bind_eq_ok, orAbort_eq_ok, Table.find?_eq_some, category_key, pure_eq_ok,
      Prod.mk.injEq] at h
    obtain ⟨c, ⟨hc, hid⟩, _, _, rfl, _⟩ := h
    obtain ⟨b, hb, hbid, hcat⟩ := assigned ha (some c.id)
    -- the category exists, so its id is positive and the id asked for is no negative number
    have hpos : 0 < c.id := (db.categories.bounds c hc).1
    have hsame : Int.ofNat c.id = k := by
      rw [Int.ofNat_eq_natCast]
      omega
    refine ⟨b, hb, hbid, ?_⟩
    rw [if_neg hk, hcat, Option.map_some, hsame]

end Categories

section Drafts

variable {iterationId apiDraftId userId : ℕ} {name method path level : String}
  {description : Option String}

theorem apiAddApi_requested {categoryId : Option ℕ} {r : Reply ApiDraft}
    (h : apiAddApi iterationId userId name method path description level categoryId db =
      .ok (db', r)) :
    Requested env db db'
      (.apiAddApi iterationId userId name method path description level categoryId) ↔
      ¬ApiLevel.ofValue level = none := by
  simp only [apiAddApi, bind_eq_ok, require_eq_ok, bound_eq_ok, VarChar.ofString_eq_some,
    insertApi_eq_ok, pure_eq_ok, Prod.mk.injEq] at h
  obtain ⟨⟨i, u⟩, hc, _, hm, _, _, _, _, n, hn, p, hp, _, ⟨_, _, rfl⟩, rfl, _⟩ := h
  have hid := (checkServiceIterationPermission_eq_ok.mp hc).1.id
  obtain ⟨m, hm⟩ := Option.isSome_iff_exists.mp hm
  rw [Requested, ← ne_eq, Option.ne_none_iff_exists']
  constructor
  · rintro ⟨a, _, _, _, _, _, _, _, _, hlevel, _⟩
    exact ⟨a.fields.level, hlevel⟩
  · rintro ⟨known, hlevel⟩
    refine ⟨_, List.mem_append_right _ List.mem_cons_self, rfl, hid, rfl, hn, ?_, hp, rfl, ?_, rfl⟩
    · rw [hm]
      rfl
    · rw [hlevel]
      rfl

theorem apiCopyApiByApiDraftId_requested (hi : Invariant Nests db) {r : Reply Unit}
    (h : apiCopyApiByApiDraftId env iterationId apiDraftId userId db = .ok (db', r)) :
    Requested env db db' (.apiCopyApiByApiDraftId iterationId apiDraftId userId) := by
  simp only [apiCopyApiByApiDraftId, bind_eq_ok, draftOfIteration_eq_ok, bound_eq_ok,
    VarChar.ofString_eq_some, pure_eq_ok, Prod.mk.injEq] at h
  obtain ⟨d, ⟨_, hd, hid, _⟩, n, hn, p, hp, drafts, hcopy, rfl, _⟩ := h
  refine ⟨d, hd, hid, copyDraft_duplicated hi.drafts hcopy, ?_⟩
  have hnew : ∀ f, drafts.apis = db.drafts.apis.insert ⟨0, iterationId, f⟩ →
      ⟨db.drafts.apis.next, iterationId, f⟩ ∈ drafts.apis.rows := by
    intro f hf
    rw [hf]
    exact List.mem_append_right _ List.mem_cons_self
  exact ⟨_, hnew _ (copyDraft_spec hi.drafts hcopy).2.2.2, rfl, rfl, rfl, hn, hp, rfl⟩

theorem apiDeleteApiByApiDraftId_requested (hi : Invariant Nests db) {r : Reply Unit}
    (h : apiDeleteApiByApiDraftId iterationId apiDraftId userId db = .ok (db', r)) :
    Requested env db db' (.apiDeleteApiByApiDraftId iterationId apiDraftId userId) := by
  simp only [apiDeleteApiByApiDraftId, bind_eq_ok, draftOfIteration_eq_ok, pure_eq_ok,
    Prod.mk.injEq] at h
  obtain ⟨d, ⟨_, hd, rfl, _⟩, rfl, _⟩ := h
  obtain ⟨hw, _, hrows⟩ := removeDraft_spec hi.drafts hd
  have hgone : (removeDraft d.id db.drafts).apis.contains d.id = false := by
    rw [hrows]
    exact db.drafts.apis.contains_restrict_self
  -- a param that is left belongs to an api that is left
  have hparams : ∀ {F : Type} {rows : List (LinkedRow F)},
      (∀ r ∈ rows, ∃ a ∈ (removeDraft d.id db.drafts).apis.rows, a.id = r.holder) →
      rows.filter (fun r => r.holder == d.id) = [] := by
    intro F rows hheld
    rw [List.filter_eq_nil_iff]
    intro r hr hid
    obtain ⟨a, ha, hheld⟩ := hheld r hr
    have hcontains : (removeDraft d.id db.drafts).apis.contains d.id = true :=
      Table.contains_iff.mpr ⟨a, ha, hheld.trans (beq_iff_eq.mp hid)⟩
    rw [hgone] at hcontains
    cases hcontains
  exact ⟨hgone, hparams hw.request_held, hparams hw.response_held⟩

theorem apiUpdateApiByApiDraftId_requested (hi : Invariant Nests db)
    {reqParams respParams : JsonValue} {r : Reply Unit}
    (h : apiUpdateApiByApiDraftId env iterationId apiDraftId userId name method path description
      level reqParams respParams db = .ok (db', r)) :
    Requested env db db' (.apiUpdateApiByApiDraftId iterationId apiDraftId userId name method path
      description level reqParams respParams) ↔
      PlainUpdate env method level reqParams respParams := by
  simp only [apiUpdateApiByApiDraftId, bind_eq_ok, draftOfIteration_eq_ok, bound_eq_ok,
    VarChar.ofString_eq_some, pure_eq_ok, Prod.mk.injEq] at h
  obtain ⟨d, ⟨_, hd, rfl, _⟩, n, hn, p, hp, drafts, hrw, rfl, _⟩ := h
  obtain ⟨reqs, resps, hreqs, hresps, hholds⟩ := rewriteDraft_writes hi.drafts hrw
  have hnew : setFields d.id (editedFields d n method p description level) d ∈
      drafts.apis.rows := by
    simp only [rewriteDraft, bind_eq_ok, rewriteApi_eq_ok, pure_eq_ok] at hrw
    obtain ⟨_, ⟨_, rfl⟩, _, _, _, _, rfl⟩ := hrw
    exact List.mem_map_of_mem hd
  rw [Requested]
  constructor
  · rintro ⟨⟨a, _, _, _, hmethod, _, _, hlevel⟩, reqs', resps', hreqs', hresps', hholds'⟩
    -- the rows of the draft determine the forests
    obtain ⟨rfl, rfl⟩ := holdsForests_unique hholds hholds'
    exact ⟨Option.isSome_iff_exists.mpr ⟨_, hmethod⟩, Option.isSome_iff_exists.mpr ⟨_, hlevel⟩,
      (askedAll_iff_plainAll _ hreqs).mp hreqs', (askedAll_iff_plainAll _ hresps).mp hresps'⟩
  · intro hplain
    obtain ⟨m, hm⟩ := Option.isSome_iff_exists.mp hplain.method
    obtain ⟨l, hl⟩ := Option.isSome_iff_exists.mp hplain.level
    refine ⟨⟨_, hnew, setFields_id _ _ _, ?_⟩, reqs, resps,
      (askedAll_iff_plainAll _ hreqs).mpr hplain.requests,
      (askedAll_iff_plainAll _ hresps).mpr hplain.responses, hholds⟩
    rw [setFields, if_pos rfl]
    exact ⟨hn, by simp [editedFields, hm], hp, rfl, by simp [editedFields, hl]⟩

end Drafts

/-- The front end takes 201 for a success too, the start of an iteration being in progress. -/
def Succeeds : Call → Option ℤ → Prop
  | .operation (.serviceStartIteration _ _), status => status = some 200 ∨ status = some 201
  | _, status => status = some 200

/-- The database shows what the call asks for; a query asks for no change. -/
def Persisted (out : Surroundings) (db : Database) : Call → Prop
  | .query q => after out db (.query q) = db
  | .operation o => Requested out.toEnvironment db (after out db (.operation o)) o

structure Contract (out : Surroundings) (db : Database) (c : Call) (status : Option ℤ)
    (message : Option String) : Prop where
  failure : ¬Succeeds c status → (∃ s, status = some s ∧ s < 0) ∧
    (∃ m, message = some m ∧ m ≠ "") ∧ after out db c = db
  success : status = some 200 → Persisted out db c

/-- A call that returns, and does not raise, returns as the contract says. -/
def KeepsContract (out : Surroundings) (db : Database) (c : Call) : Prop :=
  match returned out db c with
  | .object status message => Contract out db c status message
  | .exception _ => True

def Refuses (db : Database) (iterationId userId : ℕ) : Prop :=
  (∀ i ∈ db.iterations.rows, i.id = iterationId → i.isCommitted = true) ∨
  (db.users.contains userId = true ∧ ∃ i ∈ db.iterations.rows, i.id = iterationId ∧
    i.isCommitted = false ∧ ∀ s ∈ db.services.rows, s.id = i.serviceId →
      ¬CreatorRight db s i userId)

/-- What follows a check that it does not refuse cannot refuse. -/
theorem bind_pure_refuses {α β : Type} {x : Tx α} {b : β} :
    (∃ s m, (x >>= fun _ => pure b) = .error (.reply s m)) ↔ ∃ s m, x = .error (.reply s m) := by
  cases x with
  | ok a => simp [ok_bind, pure, Except.pure]
  | error e => simp

theorem requireLevelZeroIf_refuses {c : Bool} {user : Option User} {status : ℤ}
    {message : String} :
    (∃ s m, requireLevelZeroIf c user (.reply status message) = .error (.reply s m)) ↔
      c = true ∧ ∃ u, user = some u ∧ u.level ≠ .l0 := by
  cases c with
  | false => simp [requireLevelZeroIf, levelAboveZeroIf, ok_bind, require]
  | true =>
    cases user with
    | none => simp [requireLevelZeroIf, levelAboveZeroIf, error_bind]
    | some u => by_cases hu : u.level = .l0 <;>
        simp [requireLevelZeroIf, levelAboveZeroIf, ok_bind, require, hu]

/-- A user who exists and has not the right is refused; a missing one makes the check raise. -/
theorem creator_refused_iff {s : Service} {i : ServiceIteration} {userId : ℕ} :
    ((s.ownerId != userId && i.creatorId != some userId) = true ∧
        ∃ u, db.users.find? userId = some u ∧ u.level ≠ .l0) ↔
      db.users.contains userId = true ∧ ¬CreatorRight db s i userId := by
  rw [Bool.and_eq_true, bne_iff_ne, bne_iff_ne, CreatorRight, ← levelZero_find?]
  constructor
  · rintro ⟨⟨ho, hc⟩, u, hu, hl⟩
    obtain ⟨hm, hid⟩ := Table.find?_eq_some.mp hu
    refine ⟨Table.contains_iff.mpr ⟨u, hm, hid⟩, ?_⟩
    rintro (h | h | ⟨v, hv, hz⟩)
    · exact ho h
    · exact hc h
    · rw [hu, Option.some_inj] at hv
      exact hl (hv ▸ hz)
  · rintro ⟨hu, hr⟩
    obtain ⟨u, hfind⟩ := Table.find?_of_contains hu
    exact ⟨⟨fun h => hr (Or.inl h), fun h => hr (Or.inr (Or.inl h))⟩, u, hfind,
      fun hz => hr (Or.inr (Or.inr ⟨u, hfind, hz⟩))⟩

theorem permission_refuses_iff (hi : Invariant Nests db) {iterationId userId : ℕ} :
    (∃ s m, checkServiceIterationPermission db iterationId userId = .error (.reply s m)) ↔
      Refuses db iterationId userId := by
  cases hf : db.iterations.find? iterationId with
  | none =>
    have hgone := Table.find?_eq_none.mp hf
    simp only [checkServiceIterationPermission, hf, orAbort, error_bind, Except.error.injEq,
      Abort.reply.injEq]
    exact ⟨fun _ => Or.inl (fun i hm hid => absurd hid (hgone i hm)), fun _ => ⟨_, _, rfl, rfl⟩⟩
  | some i =>
    obtain ⟨hm, hid⟩ := Table.find?_eq_some.mp hf
    have only : ∀ j ∈ db.iterations.rows, j.id = iterationId → j = i :=
      fun j hj hjid => db.iterations.eq_of_key_eq hj hm (hjid.trans hid.symm)
    by_cases hc : i.isCommitted = true
    · simp only [checkServiceIterationPermission, hf, orAbort, ok_bind, hc, require]
      refine ⟨fun _ => Or.inl ?_, fun _ => ⟨_, _, rfl⟩⟩
      intro j hj hjid
      rw [only j hj hjid, hc]
    · obtain ⟨s, hfs⟩ := Table.find?_of_contains (hi.iteration_service i hm)
      obtain ⟨hs, hsid⟩ := Table.find?_eq_some.mp hfs
      have hcheck :
          (∃ s m, checkServiceIterationPermission db iterationId userId = .error (.reply s m)) ↔
            db.users.contains userId = true ∧ ¬CreatorRight db s i userId := by
        simp only [checkServiceIterationPermission, hf, orAbort, ok_bind, hc, require, hfs,
          Bool.not_false, if_true, bind_pure_refuses, requireLevelZeroIf_refuses]
        exact creator_refused_iff
      rw [hcheck]
      constructor
      · rintro ⟨hu, hr⟩
        refine Or.inr ⟨hu, i, hm, hid, Bool.not_eq_true _ ▸ hc, ?_⟩
        intro t ht htid
        rw [db.services.eq_of_key_eq ht hs (htid.trans hsid.symm)]
        exact hr
      · rintro (hall | ⟨hu, j, hj, hjid, _, hr⟩)
        · exact absurd (hall i hm hid) hc
        · rw [only j hj hjid] at hr
          exact ⟨hu, hr s hs hsid⟩

section Calls

variable {out : Surroundings} {c : Call}

/-- What an abort of one of the handlers returns is within the contract. -/
theorem keeps_of_abort {e : Abort} (he : Returnable e) (hret : returned out db c = .ofAbort e)
    (hafter : after out db c = db) : KeepsContract out db c := by
  rw [KeepsContract, hret]
  cases e with
  | reply status message =>
    obtain ⟨hneg, hmessage⟩ := he
    refine ⟨fun _ => ⟨⟨status, rfl, hneg⟩, ⟨message, rfl, hmessage⟩, hafter⟩, ?_⟩
    intro hs
    rw [Option.some_inj] at hs
    omega
  | checkResult => exact he.elim
  | raised e => trivial

structure Delivers (out : Surroundings) (db : Database) (c : Call) {α : Type}
    (x : Tx (Reply α)) : Prop where
  reply : ∀ r, x = .ok r → returned out db c = .ofReply r
  abort : ∀ e, x = .error e → returned out db c = .ofAbort e

theorem query_keeps {q : Query} {α : Type} {x : Tx (Reply α)} (h : Answers x)
    (hx : Delivers out db (.query q) x) : KeepsContract out db (.query q) := by
  cases x with
  | ok r =>
    have hr : r.status = 200 := h
    rw [KeepsContract, hx.reply r rfl]
    refine ⟨?_, fun _ => rfl⟩
    intro hs
    exact absurd (congrArg some hr) hs
  | error e => exact keeps_of_abort h (hx.abort e rfl) rfl

/-- A handler whose successes count as such keeps the contract if it answers 200 only with what
is asked for. -/
theorem operation_keeps {o : Operation} {α : Type} {x : Tx (Database × Reply α)}
    (h : Ensures (fun p => Succeeds (.operation o) (some p.2.status)) Returnable x)
    (hx : Delivers out db (.operation o) (Prod.snd <$> x))
    (hafter : after out db (.operation o) = committed (Prod.fst <$> x) db) :
    KeepsContract out db (.operation o) ↔ ∀ db' r, x = .ok (db', r) → r.status = 200 →
      Requested out.toEnvironment db db' o := by
  constructor
  · rintro hk db' r rfl hr
    rw [KeepsContract, hx.reply r rfl] at hk
    have hp := hk.success (congrArg some hr)
    rw [Persisted, hafter] at hp
    exact hp
  · intro hreq
    cases x with
    | ok p =>
      obtain ⟨db', r⟩ := p
      rw [KeepsContract, hx.reply r rfl]
      refine ⟨fun hs => absurd h hs, ?_⟩
      intro hs
      rw [Persisted, hafter]
      exact hreq db' r rfl (Option.some_inj.mp hs)
    | error e => exact keeps_of_abort h (hx.abort e rfl) hafter

theorem queries_keep (htoken : ∀ id name, OnlyRaises (out.accessToken id name)) (q : Query) :
    KeepsContract out db (.query q) := by
  cases q with
  | userGetUserById id =>
    exact query_keeps (userGetUserById_answers db id)
      ⟨fun _ h => returned_ok h, fun _ h => returned_error h⟩
  | userGetUserByUsernameOrNicknameOrEmail keyword =>
    exact query_keeps (userGetUserByUsernameOrNicknameOrEmail_answers out db keyword)
      ⟨fun _ h => returned_ok h, fun _ h => returned_error h⟩
  | userLogin username password =>
    exact query_keeps (userLogin_answers out db username password htoken)
      ⟨fun _ h => returned_ok h, fun _ h => returned_error h⟩
  | serviceGetAllServices userId pageSize currentPage =>
    exact query_keeps (serviceGetAllServices_answers db userId pageSize currentPage)
      ⟨fun _ h => returned_ok h, fun _ h => returned_error h⟩
  | serviceGetServiceById id userId =>
    exact query_keeps (serviceGetServiceById_answers _ db id userId)
      ⟨fun _ h => returned_ok h, fun _ h => returned_error h⟩
  | serviceGetHisNewestServicesByOwnerId ownerId myId pageSize currentPage =>
    exact query_keeps (serviceGetHisNewestServicesByOwnerId_answers db _ _ _ _)
      ⟨fun _ h => returned_ok h, fun _ h => returned_error h⟩
  | serviceGetHisMaintainedServicesByUserId userId myId pageSize currentPage =>
    exact query_keeps (serviceGetHisMaintainedServicesByUserId_answers db _ _ _ _)
      ⟨fun _ h => returned_ok h, fun _ h => returned_error h⟩
  | serviceGetServiceByUuidAndVersion serviceUuid version userId =>
    exact query_keeps (serviceGetServiceByUuidAndVersion_answers _ db _ _ _)
      ⟨fun _ h => returned_ok h, fun _ h => returned_error h⟩
  | serviceGetAllVersionsByUuid serviceUuid userId =>
    exact query_keeps (serviceGetAllVersionsByUuid_answers _ db _ _)
      ⟨fun _ h => returned_ok h, fun _ h => returned_error h⟩
  | serviceGetAllDeletedServicesByUserId userId pageSize currentPage =>
    exact query_keeps (serviceGetAllDeletedServicesByUserId_answers _ db _ _ _)
      ⟨fun _ h => returned_ok h, fun _ h => returned_error h⟩
  | serviceIsMaintainer serviceId userId candidateId =>
    exact query_keeps (serviceIsMaintainer_answers db _ _ _)
      ⟨fun _ h => returned_ok h, fun _ h => returned_error h⟩
  | serviceGetServiceIterationById id userId =>
    exact query_keeps (serviceGetServiceIterationById_answers _ db _ _)
      ⟨fun _ h => returned_ok h, fun _ h => returned_error h⟩
  | serviceExportOpenapiByUuidAndVersion serviceUuid version userId =>
    exact query_keeps (serviceExportOpenapiByUuidAndVersion_answers out db _ _ _)
      ⟨fun _ h => returned_ok h, fun _ h => returned_error h⟩
  | apiGetAllCategoriesByServiceId serviceId userId =>
    exact query_keeps (apiGetAllCategoriesByServiceId_answers db _ _)
      ⟨fun _ h => returned_ok h, fun _ h => returned_error h⟩
  | apiGetAllApisByServiceId serviceId userId categoryId =>
    exact query_keeps (apiGetAllApisByServiceId_answers db _ _ categoryId)
      ⟨fun _ h => returned_ok h, fun _ h => returned_error h⟩
  | apiGetApiById apiId userId isLatest =>
    exact query_keeps (apiGetApiById_answers _ db _ _ _)
      ⟨fun _ h => returned_ok h, fun _ h => returned_error h⟩

theorem succeeds_200 (c : Call) : Succeeds c (some 200) := by
  unfold Succeeds
  split
  · exact Or.inl rfl
  · rfl

/-- A handler that answers no other success than 200. -/
theorem performed_keeps_iff {o : Operation} {α : Type} {x : Tx (Database × Reply α)} {Q : Prop}
    (h : Performs x)
    (hreq : ∀ db' r, x = .ok (db', r) → (Requested out.toEnvironment db db' o ↔ Q))
    (hx : Delivers out db (.operation o) (Prod.snd <$> x))
    (hafter : after out db (.operation o) = committed (Prod.fst <$> x) db) :
    KeepsContract out db (.operation o) ↔ ((∃ p, x = .ok p) → Q) := by
  have hsucceeds : Ensures (fun p => Succeeds (.operation o) (some p.2.status)) Returnable x := by
    refine h.mono ?_ (fun _ he => he)
    intro p hp
    rw [hp]
    exact succeeds_200 _
  rw [operation_keeps hsucceeds hx hafter]
  constructor
  · rintro hk ⟨⟨db', r⟩, rfl⟩
    exact (hreq db' r rfl).mp (hk db' r rfl h)
  · intro hq db' r hr _
    exact (hreq db' r hr).mpr (hq ⟨_, hr⟩)

theorem performed_keeps {o : Operation} {α : Type} {x : Tx (Database × Reply α)}
    (h : Performs x) (hreq : ∀ db' r, x = .ok (db', r) → Requested out.toEnvironment db db' o)
    (hx : Delivers out db (.operation o) (Prod.snd <$> x))
    (hafter : after out db (.operation o) = committed (Prod.fst <$> x) db) :
    KeepsContract out db (.operation o) :=
  (performed_keeps_iff h (fun db' r hr => iff_true_intro (hreq db' r hr)) hx hafter).mpr
    (fun _ => trivial)

/-- The commit fails in the way of its own check, or as every other handler does. -/
theorem commit_cases (env : Environment) (db : Database) (iterationId : ℕ) (newVersion : String)
    (userId : ℕ) :
    (∃ s m, checkServiceIterationPermission db iterationId userId = .error (.reply s m) ∧
      serviceCommitIteration env iterationId newVersion userId db = .error (.checkResult s m)) ∨
    ((¬∃ s m, checkServiceIterationPermission db iterationId userId = .error (.reply s m)) ∧
      Ensures (fun p => ∀ r, p.2 = .ok r → r.status = 200) Returnable
        (serviceCommitIteration env iterationId newVersion userId db)) := by
  have hcheck : Ensures (fun _ => True) Returnable
      (checkServiceIterationPermission db iterationId userId) :=
    ensures_permission (fun _ => trivial)
  cases hc : checkServiceIterationPermission db iterationId userId with
  | ok p =>
    refine Or.inr ⟨by simp, ?_⟩
    have hcommit : ∀ i s, OnlyRaises (commitDatabase env i s newVersion db) := by
      intro i s
      refine (onlyRaises_bound _).bind (fun version => ?_)
      exact (copyApis_onlyRaises env _ _ _ _ _).bind (fun live => trivial)
    obtain ⟨i, user⟩ := p
    simp only [serviceCommitIteration, hc, asCheckResult, ok_bind, ensures_bind, ensures_orAbort,
      ensures_require]
    refine ⟨?_, fun _ => trivial⟩
    intro s _
    refine ⟨fun _ => (hcommit i s).ensures ?_, fun _ => by simp⟩
    intro db' r hr
    obtain ⟨_, _, hr⟩ := bind_eq_ok.mp hr
    rw [← pure_eq_ok.mp hr]
  | error e =>
    rw [hc] at hcheck
    cases e with
    | reply s m =>
      refine Or.inl ⟨s, m, rfl, ?_⟩
      rw [serviceCommitIteration, hc, asCheckResult, error_bind]
    | checkResult => exact hcheck.elim
    | raised e =>
      refine Or.inr ⟨by simp, ?_⟩
      simp [serviceCommitIteration, hc, asCheckResult, error_bind]

theorem commit_keeps_iff (hi : Invariant Nests db) {iterationId userId : ℕ}
    {newVersion : String} :
    KeepsContract out db (.operation (.serviceCommitIteration iterationId newVersion userId)) ↔
      ¬Refuses db iterationId userId := by
  rw [← permission_refuses_iff hi]
  rcases commit_cases out.toEnvironment db iterationId newVersion userId with
    ⟨s, m, hc, hx⟩ | ⟨hc, hx⟩
  · -- the whole result of the check, with no status of its own
    have hret : returned out db
        (.operation (.serviceCommitIteration iterationId newVersion userId)) =
          .ofAbort (.checkResult s m) := by
      refine returned_error ?_
      rw [respond, hx]
      rfl
    rw [KeepsContract, hret]
    refine iff_of_false ?_ (not_not.mpr ⟨s, m, hc⟩)
    intro h
    obtain ⟨⟨_, hs, _⟩, _⟩ := h.failure (by simp [Succeeds])
    cases hs
  · refine iff_of_true ?_ hc
    cases hcommit : serviceCommitIteration out.toEnvironment iterationId newVersion userId db with
    | ok p =>
      obtain ⟨db', r⟩ := p
      rw [hcommit, ensures_ok] at hx
      have hresp : respond out db
          (.operation (.serviceCommitIteration iterationId newVersion userId)) = .ok r := by
        rw [respond, hcommit]
        rfl
      rw [KeepsContract, returned_ok hresp]
      cases r with
      | error e => trivial
      | ok r =>
        have hr : r.status = 200 := hx r rfl
        refine ⟨?_, fun _ => ?_⟩
        · intro hs
          exact absurd (congrArg some hr) hs
        · have hafter : after out db
              (.operation (.serviceCommitIteration iterationId newVersion userId)) = db' := by
            simp only [after, transaction, hcommit]
            rfl
          rw [Persisted, hafter]
          exact serviceCommitIteration_requested hi hcommit
    | error e =>
      rw [hcommit, ensures_error] at hx
      refine keeps_of_abort hx (returned_error ?_) ?_
      · rw [respond, hcommit]
        rfl
      · simp only [after, transaction, hcommit]
        rfl

def Breaks (env : Environment) (db : Database) : Operation → Prop
  | .serviceCommitIteration iterationId _ userId => Refuses db iterationId userId
  | o => Substitutes env db o

theorem operation_keeps_iff (hi : Invariant Nests db) (o : Operation) :
    KeepsContract out db (.operation o) ↔ ¬Breaks out.toEnvironment db o := by
  cases o with
  | userRegister username password nickname email role =>
    refine (performed_keeps_iff (userRegister_performs ..)
      (fun _ _ h => userRegister_requested h)
      ⟨fun _ h => returned_ok h, fun _ h => returned_error h⟩ rfl).trans ?_
    rw [userRegister_accepted]
    exact not_and.symm
  | userModifyPassword userId oldPassword newPassword =>
    exact iff_of_true (performed_keeps (userModifyPassword_performs ..)
      (fun _ _ => userModifyPassword_requested)
      ⟨fun _ h => returned_ok h, fun _ h => returned_error h⟩ rfl) id
  | serviceCreateNewService serviceUuid userId description =>
    exact iff_of_true (performed_keeps (serviceCreateNewService_performs ..)
      (fun _ _ => serviceCreateNewService_requested)
      ⟨fun _ h => returned_ok h, fun _ h => returned_error h⟩ rfl) id
  | serviceAddOrRemoveServiceMaintainerById serviceId userId candidateId =>
    exact iff_of_true (performed_keeps (serviceAddOrRemoveServiceMaintainerById_performs ..)
      (fun _ _ => serviceAddOrRemove_requested)
      ⟨fun _ h => returned_ok h, fun _ h => returned_error h⟩ rfl) id
  | serviceDeleteServiceById serviceId userId =>
    exact iff_of_true (performed_keeps (serviceDeleteServiceById_performs ..)
      (fun _ _ => serviceDeleteServiceById_requested)
      ⟨fun _ h => returned_ok h, fun _ h => returned_error h⟩ rfl) id
  | serviceRestoreServiceById serviceId userId =>
    exact iff_of_true (performed_keeps (serviceRestoreServiceById_performs ..)
      (fun _ _ => serviceRestoreServiceById_requested)
      ⟨fun _ h => returned_ok h, fun _ h => returned_error h⟩ rfl) id
  | serviceDeleteIterationById iterationId userId =>
    exact iff_of_true (performed_keeps (serviceDeleteIterationById_performs ..)
      (fun _ _ => serviceDeleteIterationById_requested)
      ⟨fun _ h => returned_ok h, fun _ h => returned_error h⟩ rfl) id
  | serviceStartIteration serviceId userId =>
    have h := (serviceStartIteration_performs out.toEnvironment db serviceId userId).mono
      (Q := fun p => Succeeds (.operation (.serviceStartIteration serviceId userId))
        (some p.2.status)) (fun p hp => hp.imp (congrArg some) (fun h => congrArg some h.1))
      (fun _ he => he)
    exact (operation_keeps h ⟨fun _ h => returned_ok h, fun _ h => returned_error h⟩ rfl).trans
      (serviceStartIteration_requested hi)
  | serviceCommitIteration iterationId newVersion userId => exact commit_keeps_iff hi
  | serviceUpdateDescription iterationId description userId =>
    exact iff_of_true (performed_keeps (serviceUpdateDescription_performs ..)
      (fun _ _ => serviceUpdateDescription_requested)
      ⟨fun _ h => returned_ok h, fun _ h => returned_error h⟩ rfl) id
  | apiAddCategoryByServiceId serviceId userId name description =>
    exact iff_of_true (performed_keeps (apiAddCategoryByServiceId_performs ..)
      (fun _ _ => apiAddCategoryByServiceId_requested)
      ⟨fun _ h => returned_ok h, fun _ h => returned_error h⟩ rfl) id
  | apiDeleteCategoryById categoryId userId =>
    exact iff_of_true (performed_keeps (apiDeleteCategoryById_performs ..)
      (fun _ _ => apiDeleteCategoryById_requested)
      ⟨fun _ h => returned_ok h, fun _ h => returned_error h⟩ rfl) id
  | apiUpdateCategoryById categoryId userId name description =>
    refine (performed_keeps_iff (apiUpdateCategoryById_performs ..)
      (fun _ _ h => apiUpdateCategoryById_requested h)
      ⟨fun _ h => returned_ok h, fun _ h => returned_error h⟩ rfl).trans ?_
    rw [apiUpdateCategoryById_accepted]
    exact not_and.symm
  | apiUpdateApiCategory apiId categoryId userId =>
    exact iff_of_true (performed_keeps (apiUpdateApiCategory_performs ..)
      (fun _ _ => apiUpdateApiCategory_requested)
      ⟨fun _ h => returned_ok h, fun _ h => returned_error h⟩ rfl) id
  | apiAddApi iterationId userId name method path description level categoryId =>
    refine (performed_keeps_iff (apiAddApi_performs ..)
      (fun _ _ h => apiAddApi_requested h)
      ⟨fun _ h => returned_ok h, fun _ h => returned_error h⟩ rfl).trans ?_
    rw [apiAddApi_accepted hi]
    exact not_and.symm
  | apiCopyApiByApiDraftId iterationId apiDraftId userId =>
    exact iff_of_true (performed_keeps (apiCopyApiByApiDraftId_performs ..)
      (fun _ _ => apiCopyApiByApiDraftId_requested hi)
      ⟨fun _ h => returned_ok h, fun _ h => returned_error h⟩ rfl) id
  | apiDeleteApiByApiDraftId iterationId apiDraftId userId =>
    exact iff_of_true (performed_keeps (apiDeleteApiByApiDraftId_performs ..)
      (fun _ _ => apiDeleteApiByApiDraftId_requested hi)
      ⟨fun _ h => returned_ok h, fun _ h => returned_error h⟩ rfl) id
  | apiUpdateApiByApiDraftId iterationId apiDraftId userId name method path description level
      reqParams respParams =>
    refine (performed_keeps_iff (apiUpdateApiByApiDraftId_performs ..)
      (fun _ _ h => apiUpdateApiByApiDraftId_requested hi h)
      ⟨fun _ h => returned_ok h, fun _ h => returned_error h⟩ rfl).trans ?_
    rw [apiUpdateApiByApiDraftId_accepted hi]
    exact not_and_not_right.symm

end Calls

end PersistedEffects
