import ApiManagement.AskedParams
import ApiManagement.CopiedNames

/-! # Calls that are accepted and altered

Five handlers store something else than they are asked for: another role, level or method for
one outside its enumeration, no description for a category that is only renamed nor for an
iteration of a described service, and other params than the payload gives. When such a handler
accepts its call is stated from the database before it. -/
namespace SilentFallbacks

open TransactionRuns KeyedTables ParentLinkedRows RowForests PythonRuntime ServiceSchema ApiStores
  UserOperations ServiceOperations ApiOperations OperationRuns OperationEffects StateInvariant
  ParamEncoding AskedParams CopiedNames

section Accepted

variable {env : Environment} {db : Database}

structure Registrable (env : Environment) (db : Database) (username password : String)
    (nickname email : Option String) : Prop where
  free : ∀ u ∈ db.users.rows, u.username.val ≠ username ∧ u.email.map VarChar.val ≠ email
  username_fits : username.length ≤ 64
  hash_fits : (env.hashPassword password).length ≤ 128
  nickname_fits : ∀ s, nickname = some s → s.length ≤ 64
  email_fits : ∀ s, email = some s → s.length ≤ 128

theorem exists_optionalVarChar {n : ℕ} {s : Option String} :
    (∃ v, optionalVarChar n s = .ok v) ↔ ∀ t, s = some t → t.length ≤ n := by
  cases s with
  | none => simp [optionalVarChar, pure, Except.pure]
  | some t =>
    simp only [optionalVarChar, bind_eq_ok, bound_eq_ok, pure_eq_ok, Option.some_inj]
    constructor
    · rintro ⟨_, v, hv, _⟩ _ rfl
      exact exists_ofString.mp ⟨v, hv⟩
    · intro h
      obtain ⟨v, hv⟩ := exists_ofString.mpr (h t rfl)
      exact ⟨some v, v, hv, rfl⟩

theorem userRegister_accepted {username password role : String} {nickname email : Option String} :
    (∃ p, userRegister env username password nickname email role db = .ok p) ↔
      Registrable env db username password nickname email := by
  simp only [userRegister, bind_eq_ok, require_eq_ok, bound_eq_ok, pure_eq_ok,
    Bool.not_eq_true', List.any_eq_false, Bool.or_eq_true, not_or, beq_iff_eq]
  constructor
  · rintro ⟨_, _, hfree, v, hv, w, hw, nick, hnick, mail, hmail, _⟩
    exact ⟨hfree, exists_ofString.mp ⟨v, hv⟩, exists_ofString.mp ⟨w, hw⟩,
      exists_optionalVarChar.mp ⟨nick, hnick⟩, exists_optionalVarChar.mp ⟨mail, hmail⟩⟩
  · intro h
    obtain ⟨v, hv⟩ := exists_ofString.mpr h.username_fits
    obtain ⟨w, hw⟩ := exists_ofString.mpr h.hash_fits
    obtain ⟨nick, hnick⟩ := exists_optionalVarChar.mpr h.nickname_fits
    obtain ⟨mail, hmail⟩ := exists_optionalVarChar.mpr h.email_fits
    exact ⟨_, (), h.free, v, hv, w, hw, nick, hnick, mail, hmail, rfl⟩

structure Renamable (db : Database) (c : ApiCategory) (userId : ℕ) (name : String) : Prop where
  user : db.users.contains userId = true
  right : ∃ s ∈ db.services.rows, s.id = c.serviceId ∧ OwnerRight db s userId
  free : ∀ d ∈ db.categories.rows, d.serviceId = c.serviceId → d.name.val ≠ name
  fits : name.length ≤ 64

theorem apiUpdateCategoryById_accepted {categoryId userId : ℕ} {name description : Option String} :
    (∃ p, apiUpdateCategoryById categoryId userId name description db = .ok p) ↔
      ∃ c ∈ db.categories.rows, c.id = categoryId ∧ ∃ n, name = some n ∧
        Renamable db c userId n := by
  simp only [apiUpdateCategoryById, bind_eq_ok, orAbort_eq_ok, require_eq_ok, notNull_eq_ok,
    bound_eq_ok, pure_eq_ok, Table.find?_eq_some, category_key, service_key]
  constructor
  · rintro ⟨_, c, ⟨hc, hid⟩, u, hu, s, ⟨hs, hsid⟩, _, hr, _, _, _, _, _, hn, n, rfl, v, hv, _⟩
    rw [← Table.find?_eq_some.mpr hu, requireOwner_eq_ok] at hr
    simp only [Bool.not_eq_true', List.any_eq_false, Bool.and_eq_true, beq_iff_eq, not_and,
      Option.some_inj] at hn
    exact ⟨c, hc, hid, n, rfl, Table.contains_iff.mpr ⟨u, hu⟩, ⟨s, hs, hsid, hr⟩,
      fun d hd hds hname => hn d hd hds hname.symm, exists_ofString.mp ⟨v, hv⟩⟩
  · rintro ⟨c, hc, hid, n, rfl, huser, ⟨s, hs, hsid, hr⟩, hfree, hfits⟩
    obtain ⟨u, hu⟩ := Table.find?_of_contains huser
    obtain ⟨v, hv⟩ := exists_ofString.mpr hfits
    refine ⟨_, c, ⟨hc, hid⟩, u, Table.find?_eq_some.mp hu, s, ⟨hs, hsid⟩, (), ?_, (), ?_, (), ?_,
      (), ?_, n, rfl, v, hv, rfl⟩
    · rw [← hu]
      exact requireOwner_eq_ok.mpr hr
    · rfl
    · have hne : c.name.val ≠ n := hfree c hc rfl
      simp [hne.symm]
    · simp only [Bool.not_eq_true', List.any_eq_false, Bool.and_eq_true, beq_iff_eq, not_and,
        Option.some_inj]
      exact fun d hd hds hname => hfree d hd hds hname.symm

/-- The user may work on the iteration, and neither its drafts nor the current apis have the
method with the path or with the name. -/
structure Addable (db : Database) (iterationId userId : ℕ) (name method path : String)
    (categoryId : Option ℕ) (i : ServiceIteration) (m : HttpMethod) : Prop where
  right : WorkRight db iterationId userId i
  method : HttpMethod.ofValue method = some m
  free_live : ∀ a ∈ db.live.apis.rows, a.container = i.serviceId → a.fields.method = m →
    a.fields.path.val ≠ path ∧ a.fields.name.val ≠ name
  free_drafts : ∀ a ∈ db.drafts.apis.rows, a.container = iterationId → a.fields.method = m →
    a.fields.path.val ≠ path ∧ a.fields.name.val ≠ name
  category : ∀ k, categoryId = some k →
    ∃ c ∈ db.categories.rows, c.id = k ∧ c.serviceId = i.serviceId
  name_fits : name.length ≤ 128
  path_fits : path.length ≤ 256

theorem apiAddApi_accepted (hi : Invariant Nests db) {iterationId userId : ℕ}
    {name method path level : String} {description : Option String} {categoryId : Option ℕ} :
    (∃ p, apiAddApi iterationId userId name method path description level categoryId db = .ok p) ↔
      ∃ i m, Addable db iterationId userId name method path categoryId i m := by
  constructor
  · rintro ⟨p, h⟩
    simp only [apiAddApi, bind_eq_ok, require_eq_ok, bound_eq_ok, pure_eq_ok] at h
    obtain ⟨⟨i, u⟩, hc, _, hm, _, hn, _, hk, n, hname, p, hpath, _⟩ := h
    have hw := (checkServiceIterationPermission_eq_ok.mp hc).1
    obtain ⟨m, hm⟩ := Option.isSome_iff_exists.mp hm
    simp only [hm, Option.getD_some, Bool.not_eq_true', Bool.or_eq_false_iff, List.any_eq_false,
      Bool.and_eq_true, Bool.or_eq_true, beq_iff_eq, not_and, not_or] at hn
    exact ⟨i, m, hw, hm, fun a ha hcont hmeth => hn.1 a ha ⟨hcont, hmeth⟩,
      fun a ha hcont hmeth => hn.2 a ha ⟨hcont.trans hw.id.symm, hmeth⟩,
      requireCategory_eq_ok.mp hk, exists_ofString.mp ⟨n, hname⟩, exists_ofString.mp ⟨p, hpath⟩⟩
  · rintro ⟨i, m, h⟩
    obtain ⟨n, hn⟩ := exists_ofString.mpr h.name_fits
    obtain ⟨p, hp⟩ := exists_ofString.mpr h.path_fits
    let f : ApiFields :=
      ⟨userId, categoryId, n, m, p, description, (ApiLevel.ofValue level).getD .p2, true⟩
    have hallow : (draftReferences db).Allow i.id f := by
      refine ⟨Table.contains_iff.mpr ⟨i, h.right.mem, rfl⟩, contains_of_workRight hi h.right, ?_⟩
      intro k hk
      obtain ⟨c, hc, hid, _⟩ := h.category k hk
      exact Table.contains_iff.mpr ⟨c, hc, hid⟩
    have hinsert : insertApi (draftReferences db) i.id f db.drafts =
        .ok { db.drafts with apis := db.drafts.apis.insert ⟨0, i.id, f⟩ } := by
      refine insertApi_eq_ok.mpr ⟨hallow, ?_, rfl⟩
      intro a ha hcont hmeth hsame
      refine (h.free_drafts a ha (hcont.trans h.right.id) hmeth).2 ?_
      rw [hsame]
      exact VarChar.ofString_eq_some.mp hn
    simp only [apiAddApi, bind_eq_ok, require_eq_ok, bound_eq_ok, pure_eq_ok, h.method,
      Option.getD_some]
    refine ⟨_, (i, db.users.find? userId),
      checkServiceIterationPermission_eq_ok.mpr ⟨h.right, rfl⟩, (), rfl, (), ?_, (),
      requireCategory_eq_ok.mpr h.category, n, hn, p, hp, _, hinsert, rfl⟩
    simp only [Bool.not_eq_true', Bool.or_eq_false_iff, List.any_eq_false, Bool.and_eq_true,
      Bool.or_eq_true, beq_iff_eq, not_and, not_or]
    exact ⟨fun a ha hm => h.free_live a ha hm.1 hm.2,
      fun a ha hm => h.free_drafts a ha (hm.1.trans h.right.id) hm.2⟩

/-- The user may update the draft, no other one of the iteration has the method and the name,
and the payloads can be written. -/
structure Updatable (env : Environment) (db : Database) (iterationId userId : ℕ)
    (name method path : String) (description : Option String) (level : String)
    (reqParams respParams : JsonValue) (d : ApiDraft) : Prop where
  right : ∃ i, WorkRight db iterationId userId i
  mem : d ∈ db.drafts.apis.rows
  container : d.container = iterationId
  columns : ∃ n p, VarChar.ofString 128 name = some n ∧ VarChar.ofString 256 path = some p ∧
    NameFree db.drafts d (editedFields d n method p description level)
  requests : ∃ reqs : List (RoseTree RequestFields),
    WrittenAll env .null (paramsOf reqParams) reqs
  responses : ∃ resps : List (RoseTree ResponseFields),
    WrittenAll env .null (paramsOf respParams) resps

theorem apiUpdateApiByApiDraftId_accepted (hi : Invariant Nests db)
    {iterationId apiDraftId userId : ℕ} {name method path level : String}
    {description : Option String} {reqParams respParams : JsonValue} :
    (∃ p, apiUpdateApiByApiDraftId env iterationId apiDraftId userId name method path description
        level reqParams respParams db = .ok p) ↔
      ∃ d : ApiDraft, d.id = apiDraftId ∧ Updatable env db iterationId userId name method path
        description level reqParams respParams d := by
  simp only [apiUpdateApiByApiDraftId, bind_eq_ok, draftOfIteration_eq_ok, bound_eq_ok,
    pure_eq_ok]
  constructor
  · rintro ⟨_, d, ⟨hw, hd, hid, hcont⟩, n, hn, p, hp, drafts, hrw, _⟩
    obtain ⟨reqs, resps, hreqs, hresps, _⟩ := rewriteDraft_writes hi.drafts hrw
    exact ⟨d, hid, hw, hd, hcont, ⟨n, p, hn, hp, rewriteDraft_nameFree hrw⟩, ⟨reqs, hreqs⟩,
      ⟨resps, hresps⟩⟩
  · rintro ⟨d, hid, hw, hd, hcont, ⟨n, p, hn, hp, hfree⟩, ⟨reqs, hreqs⟩, ⟨resps, hresps⟩⟩
    obtain ⟨drafts, hrw, _⟩ := rewriteDraft_succeeds hi.drafts hd hreqs hresps hfree
    exact ⟨_, d, ⟨hw, hd, hid, hcont⟩, n, hn, p, hp, drafts, hrw, rfl⟩

end Accepted

structure PlainUpdate (env : Environment) (method level : String)
    (reqParams respParams : JsonValue) : Prop where
  method : (HttpMethod.ofValue method).isSome = true
  level : (ApiLevel.ofValue level).isSome = true
  requests : PlainAll RequestFields env none .null (paramsOf reqParams)
  responses : PlainAll ResponseFields env none .null (paramsOf respParams)

def Described (db : Database) (categoryId : ℕ) : Prop :=
  ∃ c ∈ db.categories.rows, c.id = categoryId ∧ c.description ≠ none

/-- The call is accepted, and something else is stored than it asks for. -/
def Substitutes (env : Environment) (db : Database) : Operation → Prop
  | .userRegister username password nickname email role =>
    Registrable env db username password nickname email ∧ UserRole.ofValue role = none
  | .serviceStartIteration serviceId userId =>
    openIterations db serviceId userId = [] ∧ ∃ s ∈ db.services.rows, s.id = serviceId ∧
      MaintainerRight db s userId ∧ s.description ≠ none
  | .apiUpdateCategoryById categoryId userId name description =>
    (∃ c ∈ db.categories.rows, c.id = categoryId ∧ ∃ n, name = some n ∧
      Renamable db c userId n) ∧ Described db categoryId ∧ description = none
  | .apiAddApi iterationId userId name method path _ level categoryId =>
    (∃ i m, Addable db iterationId userId name method path categoryId i m) ∧
      ApiLevel.ofValue level = none
  | .apiUpdateApiByApiDraftId iterationId apiDraftId userId name method path description level
      reqParams respParams =>
    (∃ d : ApiDraft, d.id = apiDraftId ∧ Updatable env db iterationId userId name method path
      description level reqParams respParams d) ∧
    ¬PlainUpdate env method level reqParams respParams
  | _ => False

end SilentFallbacks
