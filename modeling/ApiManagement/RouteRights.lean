import ApiManagement.Confidentiality
import ApiManagement.HttpRoutes
import ApiManagement.OutsiderWrites
import ApiManagement.Postconditions
import ApiManagement.ScriptStrings

/-! # Whose rights a request of the web has

Every handler takes the acting user from the access token and from nowhere else, so the rights of
the service layer are rights of the token that a request carries. -/
namespace RouteRights

open TransactionRuns KeyedTables PythonRuntime ServiceSchema UserOperations OperationRuns
  OperationEffects StateInvariant HiddenContents ReadOperations OutsiderReads WriteRights
  Confidentiality OutsiderWrites Postconditions HttpRoutes

section Acting

variable {web : Web} {request : HttpRequest}

/-- The call is made for nobody, or for the user whose id the handler read from the token. -/
def FromToken (web : Web) (request : HttpRequest) (c : Call) : Prop :=
  caller c = none ∨ ∃ u, userGetUserIdByAccessToken web request = .ok u ∧ caller c = some u

theorem ensures_step {α β : Type} {P : β → Prop} {x : Routed α} {f : α → Routed β}
    (h : ∀ a, x = .ok a → Ensures P (fun _ => True) (f a)) :
    Ensures P (fun _ => True) (x >>= f) := by
  cases x with
  | ok a => exact h a rfl
  | error e => trivial

theorem userRouter_fromToken : ∀ r ∈ userRouterV1,
    Ensures (FromToken web request) (fun _ => True) (r.handler web request) := by
  simp only [userRouterV1, List.forall_mem_cons, getUserById, getMyInfo,
    getUserByUsernameOrNicknameOrEmail, login, register, modifyPassword]
  refine ⟨?_, ?_, ?_, ?_, ?_, ?_, fun _ h => absurd h List.not_mem_nil⟩
  all_goals
    repeat' (refine ensures_step fun _ _ => ?_)
    first
      | exact Or.inl rfl
      | exact Or.inr ⟨_, ‹_›, rfl⟩

theorem serviceRouter_fromToken : ∀ r ∈ serviceRouterV1,
    Ensures (FromToken web request) (fun _ => True) (r.handler web request) := by
  simp only [serviceRouterV1, List.forall_mem_cons, getServiceById, getAllServices,
    getHisNewestServicesByOwnerId, getHisMaintainedServicesByUserId, getServiceByUuidAndVersion,
    getAllVersionsByUuid, createNewService, getAllDeletedServicesByUserId, isServiceMaintainer,
    addOrRemoveServiceMaintainerById, deleteServiceById, restoreServiceById, deleteIterationById,
    getIterationById, startIteration, commitIteration, updateDescription,
    exportOpenapiByUuidAndVersion]
  refine ⟨?_, ?_, ?_, ?_, ?_, ?_, ?_, ?_, ?_, ?_, ?_, ?_, ?_, ?_, ?_, ?_, ?_, ?_,
    fun _ h => absurd h List.not_mem_nil⟩
  all_goals
    repeat' (refine ensures_step fun _ _ => ?_)
    exact Or.inr ⟨_, ‹_›, rfl⟩

theorem apiRouter_fromToken : ∀ r ∈ apiRouterV1,
    Ensures (FromToken web request) (fun _ => True) (r.handler web request) := by
  simp only [apiRouterV1, List.forall_mem_cons, getAllCategoriesByServiceId,
    getAllApisByServiceId, getApiById, addCategoryByServiceId, deleteCategoryById,
    updateCategoryById, updateApiCategoryById, addApi, copyApiByApiDraftId,
    deleteApiByApiDraftId, updateApiByApiDraftId]
  refine ⟨?_, ?_, ?_, ?_, ?_, ?_, ?_, ?_, ?_, ?_, ?_, fun _ h => absurd h List.not_mem_nil⟩
  all_goals
    repeat' (refine ensures_step fun _ _ => ?_)
    exact Or.inr ⟨_, ‹_›, rfl⟩

theorem handler_fromToken {r : Route} (hr : r ∈ app) {c : Call}
    (h : r.handler web request = .ok c) : FromToken web request c := by
  have hensures : Ensures (FromToken web request) (fun _ => True) (r.handler web request) := by
    rcases List.mem_append.mp hr with hr | hr
    · rcases List.mem_append.mp hr with hr | hr
      · exact userRouter_fromToken r hr
      · exact serviceRouter_fromToken r hr
    · exact apiRouter_fromToken r hr
  rw [h] at hensures
  exact hensures

/-- Only the two routes that come before a login are open. -/
theorem open_route {r : Route} (hr : r ∈ app) (h : r.authRequired = false) {c : Call}
    (hc : r.handler web request = .ok c) : caller c = none := by
  have hopen : ∀ r ∈ app, r.authRequired = false →
      Ensures (fun c => caller c = none) (fun _ => True) (r.handler web request) := by
    simp only [app, userRouterV1, serviceRouterV1, apiRouterV1, List.cons_append,
      List.nil_append, List.forall_mem_cons, reduceCtorEq, false_implies, true_and,
      forall_true_left, login, register]
    refine ⟨?_, ?_, fun _ h => absurd h List.not_mem_nil⟩
    all_goals
      repeat' (refine ensures_step fun _ _ => ?_)
      exact rfl
  have hensures := hopen r hr h
  rw [hc] at hensures
  exact hensures

end Acting

section Routing

variable {web : Web} {db : Database} {request : HttpRequest} {c : Call}

theorem route_eq_ok (h : route web db request = .ok c) : ∃ r ∈ app,
    (r.authRequired = true → ∃ info, authenticate web db request = .ok (some info)) ∧
      r.handler web request = .ok c := by
  unfold route at h
  cases hf : app.find? (fun r => r.serves request) with
  | none =>
    rw [hf] at h
    cases h
  | some r =>
    simp only [hf, bind_eq_ok, require_eq_ok] at h
    obtain ⟨_, hi, _, rfl, hc⟩ := h
    refine ⟨r, List.mem_of_find?_eq_some hf, ?_, hc⟩
    intro hauth
    rw [Route.admits, if_pos hauth] at hi
    cases ha : authenticate web db request with
    | error e =>
      rw [ha] at hi
      cases hi
    | ok info =>
      rw [ha] at hi
      cases info with
      | none => cases hi
      | some info => exact ⟨info, rfl⟩

/-- A call made for a user comes from a request whose token both checks accepted. -/
theorem caller_of_route (h : route web db request = .ok c) {u : ℕ} (hu : caller c = some u) :
    (∃ info, authenticate web db request = .ok (some info)) ∧
      ∃ token, handlerToken request.authorization = some token ∧ web.tokenId token = some u := by
  obtain ⟨r, hr, hauth, hc⟩ := route_eq_ok h
  constructor
  · apply hauth
    cases hopen : r.authRequired with
    | true => rfl
    | false =>
      rw [open_route hr hopen hc] at hu
      cases hu
  · rcases handler_fromToken hr hc with hnone | ⟨v, hv, hcv⟩
    · rw [hnone] at hu
      cases hu
    · rw [hcv, Option.some_inj] at hu
      subst hu
      simp only [userGetUserIdByAccessToken, bind_eq_ok, orAbort_eq_ok] at hv
      exact hv

theorem caller_operation (operation : Operation) : caller (.operation operation) =
    actor operation := by
  cases operation <;> rfl

theorem serve_cases (web : Web) (db : Database) (request : HttpRequest) :
    serve web db request = db ∨ ∃ operation, route web db request = .ok (.operation operation) ∧
      transaction db ⟨web.toEnvironment, operation⟩ = .ok (serve web db request) := by
  unfold serve
  cases h : route web db request with
  | error e => exact Or.inl rfl
  | ok c =>
    cases c with
    | query q => exact Or.inl rfl
    | operation operation =>
      rcases committed_cases (transaction db ⟨web.toEnvironment, operation⟩) db with
        ⟨d, hd, he⟩ | he
      · exact Or.inr ⟨operation, rfl, hd.trans (congrArg _ he.symm)⟩
      · exact Or.inl he

end Routing

section Tokens

/-- What the framework documents of its getter: the token is what follows the word. -/
def GetsBearer (getToken : Option String → Option String) : Prop :=
  ∀ header t, getToken header = some t ↔ ∃ h, header = some h ∧ h.toList = bearer ++ t.toList

theorem dropInfix_prefix (separator t : List Char) :
    (separator ++ t).dropInfix? separator = some ([], t) :=
  List.dropInfix?_eq_some_iff.mpr
    ⟨⟨separator, rfl, beq_self_eq_true separator⟩, fun _ _ _ _ _ => Nat.zero_le _⟩

def firstPart (separator t : List Char) : List Char :=
  match t.dropInfix? separator with
  | none => t
  | some (before, _) => before

theorem splitText_head (separator t : List Char) (n : ℕ) :
    (splitText separator (n + 1) t)[0]? = some (firstPart separator t) := by
  unfold splitText firstPart
  cases t.dropInfix? separator with
  | none => rfl
  | some p => rfl

theorem handlerToken_bearer {h t : String} (ht : h.toList = bearer ++ t.toList) :
    handlerToken (some h) = some (String.ofList (firstPart bearer t.toList)) := by
  have hlen : h.length = t.length + 5 + 1 + 1 := by
    rw [← String.length_toList, ht, List.length_append, String.length_toList]
    have : bearer.length = 7 := rfl
    omega
  have hprefix : bearer.isPrefixOf h.toList = true := by
    rw [ht, List.isPrefixOf_iff_prefix]
    exact List.prefix_append _ _
  have hsplit : splitText bearer h.length h.toList =
      [] :: splitText bearer (t.length + 5 + 1) t.toList := by
    rw [hlen, ht, splitText, dropInfix_prefix]
  simp only [handlerToken, Option.bind_eq_bind, Option.bind_some, hprefix, if_true]
  rw [hsplit, List.getElem?_cons_succ, splitText_head]
  rfl

theorem firstPart_eq_iff {separator t : List Char} (hs : separator ≠ []) :
    firstPart separator t = t ↔ ¬ separator <:+: t := by
  unfold firstPart
  cases h : t.dropInfix? separator with
  | none =>
    refine iff_of_true rfl ?_
    rintro ⟨x, y, hxy⟩
    exact ScriptStrings.dropInfix_eq_none h x y hxy.symm
  | some p =>
    obtain ⟨before, after⟩ := p
    obtain ⟨ht, _⟩ := ScriptStrings.dropInfix_eq_some h
    refine iff_of_false ?_ (fun hno => hno ⟨before, after, ht.symm⟩)
    intro hb
    have hlen := congrArg List.length ht
    have hbefore : before.length = t.length := congrArg List.length hb
    rw [List.length_append, List.length_append] at hlen
    have := List.length_pos_of_ne_nil hs
    omega

/-- The two readings agree on a header just when the token has no second `Bearer` in it. -/
theorem handlerToken_eq_iff {getToken : Option String → Option String} (hget : GetsBearer getToken)
    (authorization : Option String) : handlerToken authorization = getToken authorization ↔
      ∀ t, getToken authorization = some t → ¬ bearer <:+: t.toList := by
  cases hg : getToken authorization with
  | none =>
    refine iff_of_true ?_ (fun t ht => by cases ht)
    cases hh : handlerToken authorization with
    | none => rfl
    | some t =>
      simp only [handlerToken, Option.bind_eq_bind, Option.bind_eq_some_iff] at hh
      obtain ⟨h, rfl, ht⟩ := hh
      split at ht
      · rename_i hprefix
        obtain ⟨rest, hrest⟩ := List.isPrefixOf_iff_prefix.mp hprefix
        have hsome := (hget (some h) (String.ofList rest)).mpr
          ⟨h, rfl, by rw [String.toList_ofList, hrest]⟩
        rw [hg] at hsome
        cases hsome
      · cases ht
  | some t =>
    obtain ⟨h, rfl, ht⟩ := (hget authorization t).mp hg
    rw [handlerToken_bearer ht, Option.some_inj]
    have hne : bearer ≠ [] := List.cons_ne_nil _ _
    constructor
    · rintro hpart u hu
      rw [← Option.some.inj hu, ← firstPart_eq_iff hne]
      have htext := congrArg String.toList hpart
      rwa [String.toList_ofList] at htext
    · intro hno
      rw [(firstPart_eq_iff hne).mpr (hno t rfl), String.ofList_toList]

theorem plainWeb_getsBearer : GetsBearer plainWeb.getToken := by
  intro header t
  cases header with
  | none =>
    refine iff_of_false (fun h => by cases h) ?_
    rintro ⟨h, hh, _⟩
    cases hh
  | some h =>
    simp only [plainWeb, Option.bind_eq_bind, Option.bind_some, Option.some_inj, exists_eq_left']
    constructor
    · intro ht
      split at ht
      · rename_i hprefix
        obtain ⟨rest, hrest⟩ := List.isPrefixOf_iff_prefix.mp hprefix
        rw [← Option.some.inj ht, String.toList_ofList, ← hrest, List.drop_left]
      · cases ht
    · intro ht
      have hprefix : bearer.isPrefixOf h.toList = true := by
        rw [ht, List.isPrefixOf_iff_prefix]
        exact List.prefix_append _ _
      rw [if_pos hprefix, ht, List.drop_left, String.ofList_toList]

def deletion (token : String) : HttpRequest where
  verb := .post
  path := "/v1/service/deleteServiceById"
  authorization := some ("Bearer " ++ token)
  queryParams _ := none
  body := .obj [("id", .num 1)]

theorem route_deletion : route plainWeb published (deletion "1") =
    .ok (.operation (.serviceDeleteServiceById 1 1)) := rfl

variable {web : Web} {db : Database} {request : HttpRequest} {c : Call}

theorem authenticate_id {info : UserInfo} (h : authenticate web db request = .ok (some info)) :
    web.tokenId ((web.getToken request.authorization).getD "") = some info.id := by
  unfold authenticate at h
  cases hid : web.tokenId ((web.getToken request.authorization).getD "") with
  | none =>
    simp only [hid] at h
    cases h
  | some id =>
    simp only [hid, bind_eq_ok, orAbort_eq_ok, pure_eq_ok] at h
    obtain ⟨user, huser, hinfo⟩ := h
    have hsame : user = info := by
      split at hinfo
      · cases hinfo
      · exact Option.some.inj hinfo
    subst hsame
    obtain ⟨reply, hreply, rfl⟩ := Option.map_eq_some_iff.mp huser
    cases hu : userGetUserById id db with
    | error e =>
      rw [hu] at hreply
      cases hreply
    | ok r =>
      rw [hu] at hreply
      simp only [userGetUserById, bind_eq_ok, orAbort_eq_ok, pure_eq_ok,
        Table.find?_eq_some] at hu
      obtain ⟨v, ⟨_, hv⟩, rfl⟩ := hu
      rw [← Option.some.inj hreply, ← hv]
      rfl

/-- A handler acts for the user whom the check in front of it let pass. -/
theorem acts_for_authenticated (hget : GetsBearer web.getToken)
    (hplain : ∀ t, web.getToken request.authorization = some t → ¬ bearer <:+: t.toList)
    (hroute : route web db request = .ok c) {u : ℕ} (hu : caller c = some u) :
    ∃ info, authenticate web db request = .ok (some info) ∧ info.id = u := by
  obtain ⟨⟨info, hinfo⟩, token, htoken, hid⟩ := caller_of_route hroute hu
  refine ⟨info, hinfo, ?_⟩
  have hsame := (handlerToken_eq_iff hget request.authorization).mpr hplain
  have hauth := authenticate_id hinfo
  rw [← hsame, htoken, Option.getD_some, hid] at hauth
  exact (Option.some.inj hauth).symm

theorem deletion_acts_for_owner :
    ∃ info, authenticate plainWeb published (deletion "1") = .ok (some info) ∧ info.id = 1 :=
  acts_for_authenticated plainWeb_getsBearer (by decide +kernel) route_deletion rfl

end Tokens

section Changes

variable {db : Database} {s : Service}

/-- A request of the web changes a row of a service only if it was authenticated and the token
the handler read from it is that of the owner, of a current maintainer or of a user of level 0,
or of the creator of an iteration of the service. -/
theorem change_needs_token (hreach : Reachable db) (hs : s ∈ db.services.rows) (web : Web)
    (request : HttpRequest) (hchange : ¬ SameService s.id db (serve web db request)) :
    (∃ info, authenticate web db request = .ok (some info)) ∧
    ∃ token u, handlerToken request.authorization = some token ∧ web.tokenId token = some u ∧
      (MaintainerRight db s u ∨
        ∃ i ∈ db.iterations.rows, i.serviceId = s.id ∧ i.creatorId = some u) := by
  rcases serve_cases web db request with hsame | ⟨operation, hroute, ht⟩
  · rw [hsame] at hchange
    exact absurd (SameService.refl _ _) hchange
  · rcases service_unchanged_or_mayChange (reachable_invariant hreach) (transaction_effect ht) hs
      with hsame | ⟨u, hu, hmay⟩
    · exact absurd hsame hchange
    · obtain ⟨hauth, token, htoken, hid⟩ :=
        caller_of_route hroute ((caller_operation operation).trans hu)
      refine ⟨hauth, token, u, htoken, hid, ?_⟩
      rcases hmay with hmay | ⟨i, hi, his, _, hc⟩
      · exact Or.inl hmay
      · exact Or.inr ⟨i, hi, his, hc⟩

theorem deletion_needs_token :
    (∃ info, authenticate plainWeb published (deletion "1") = .ok (some info)) ∧
    ∃ token u, handlerToken (some "Bearer 1") = some token ∧ plainWeb.tokenId token = some u ∧
      (MaintainerRight published publishedService u ∨
        ∃ i ∈ published.iterations.rows, i.serviceId = 1 ∧ i.creatorId = some u) :=
  change_needs_token published_reachable publishedService_mem plainWeb (deletion "1")
    (fun hsame => absurd hsame.service (by decide +kernel))

def serveAll (db : Database) (requests : List (Web × HttpRequest)) : Database :=
  requests.foldl (fun d p => serve p.1 d p.2) db

def SentByOutsider (db : Database) (s : Service) (p : Web × HttpRequest) : Prop :=
  ∀ token u, handlerToken p.2.authorization = some token → p.1.tokenId token = some u →
    Outsider db s u

theorem runs_serveAll (requests : List (Web × HttpRequest))
    (h : ∀ p ∈ requests, SentByOutsider db s p) : ∀ d, Runs transaction
      (fun _ request => ∀ u, actor request.operation = some u → Outsider db s u) db d →
    Runs transaction
      (fun _ request => ∀ u, actor request.operation = some u → Outsider db s u) db
      (serveAll d requests) := by
  induction requests with
  | nil => exact fun _ hd => hd
  | cons p requests ih =>
    intro d hd
    refine ih (fun q hq => h q (List.mem_cons_of_mem _ hq)) (serve p.1 d p.2) ?_
    rcases serve_cases p.1 d p.2 with hsame | ⟨operation, hroute, ht⟩
    · rw [hsame]
      exact hd
    · have hguard : ∀ u, actor operation = some u → Outsider db s u := by
        intro u hu
        obtain ⟨_, token, htoken, hid⟩ :=
          caller_of_route hroute ((caller_operation operation).trans hu)
        exact h p List.mem_cons_self token u htoken hid
      have htail := hd.tail (e := ⟨p.1.toEnvironment, operation⟩) hguard
      rw [ht] at htail
      exact htail

/-- However many requests are sent with tokens of outsiders, with invalid tokens or with none,
no row of the service changes. -/
theorem outsiders_send_in_vain (hreach : Reachable db) (hs : s ∈ db.services.rows)
    (requests : List (Web × HttpRequest)) (h : ∀ p ∈ requests, SentByOutsider db s p) :
    SameService s.id db (serveAll db requests) :=
  (untouched_run hreach hs (runs_serveAll requests h db (.refl db))).same

theorem deletion_by_outsider {token : String}
    (h : ∀ u ∈ (handlerToken (deletion token).authorization).bind plainWeb.tokenId, u = 2) :
    SentByOutsider published publishedService (plainWeb, deletion token) := by
  intro t u ht hu
  have hboth : (handlerToken (deletion token).authorization).bind plainWeb.tokenId = some u :=
    Option.bind_eq_some_iff.mpr ⟨t, ht, hu⟩
  rw [h u hboth]
  exact colleague_outsider

theorem colleague_deletion : SentByOutsider published publishedService (plainWeb, deletion "2") :=
  deletion_by_outsider (by decide +kernel)

theorem foreign_deletions_in_vain : SameService 1 published
    (serveAll published [(plainWeb, deletion "2"), (plainWeb, deletion "nobody")]) := by
  refine outsiders_send_in_vain published_reachable publishedService_mem _ ?_
  intro p hp
  rcases List.mem_pair.mp hp with rfl | rfl
  · exact colleague_deletion
  · exact deletion_by_outsider (by decide +kernel)

end Changes

section Answers

variable {db₁ db₂ : Database} {s : Service}

theorem route_same (web : Web) (request : HttpRequest) (h : db₁.users = db₂.users) :
    route web db₁ request = route web db₂ request := by
  have hauth : authenticate web db₁ request = authenticate web db₂ request := by
    unfold authenticate userGetUserById
    rw [h]
  unfold route Route.admits
  rw [hauth]

/-- The next user is nobody yet. -/
theorem nobody_outsider (hi : Invariant Nests db₁) (hs : s ∈ db₁.services.rows) :
    Outsider db₁ s db₁.users.next := by
  have hnobody : ∀ u, db₁.users.contains u = true → u ≠ db₁.users.next := by
    intro u hu
    obtain ⟨v, hv, rfl⟩ := Table.contains_iff.mp hu
    exact Table.key_ne_next hv
  refine ⟨?_, hnobody _ (hi.service_owner s hs), fun hm => hnobody _ hm.1 rfl, ?_⟩
  · rintro ⟨v, hv, hid, _⟩
    exact Table.key_ne_next hv hid
  · intro i hm _ hc
    exact hnobody _ (hi.iteration_creator i hm _ hc) rfl

theorem respond_unseen (out : Surroundings) {userId : ℕ} (k : Unseen db₁ db₂ s userId) (c : Call)
    (hc : ∀ v, caller c = some v → v = userId) : respond out db₁ c = respond out db₂ c := by
  cases c with
  | query q => exact query_same k out q hc
  | operation operation => exact operation_same k out operation hc

/-- A request with the token of an outsider, or without a valid one, is told nothing about the
contents of the service. -/
theorem answer_same (web : Web) (request : HttpRequest) (h₁ : Reachable db₁)
    (h₂ : Reachable db₂) (hs : s ∈ db₁.services.rows) (hsame : SameButContents s.id db₁ db₂)
    (h : SentByOutsider db₁ s (web, request)) :
    answer web db₁ request = answer web db₂ request := by
  have hi₁ := reachable_invariant h₁
  have hi₂ := reachable_invariant h₂
  unfold answer
  rw [← route_same web request hsame.users]
  cases hroute : route web db₁ request with
  | error e => rfl
  | ok c =>
    have hrespond : respond web.toSurroundings db₁ c = respond web.toSurroundings db₂ c := by
      cases hc : caller c with
      | none =>
        refine respond_unseen web.toSurroundings ⟨hi₁, hi₂, hs, hsame, nobody_outsider hi₁ hs⟩ c ?_
        intro v hv
        rw [hc] at hv
        cases hv
      | some u =>
        obtain ⟨_, token, htoken, hid⟩ := caller_of_route hroute hc
        refine respond_unseen web.toSurroundings ⟨hi₁, hi₂, hs, hsame, h token u htoken hid⟩ c ?_
        intro v hv
        rw [hc] at hv
        exact (Option.some.inj hv).symm
    exact congrArg (fun x : Tx (Answer c) =>
      (Except.ok ⟨c, x⟩ : Routed ((c : Call) × Tx (Answer c)))) hrespond

theorem foreign_deletion_same :
    answer plainWeb published (deletion "2") = answer plainWeb disguised (deletion "2") :=
  answer_same plainWeb (deletion "2") published_reachable disguised_reachable
    publishedService_mem disguised_same colleague_deletion

end Answers

end RouteRights
