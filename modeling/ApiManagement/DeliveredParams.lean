import ApiManagement.ConcurrentIterations
import ApiManagement.InterfaceNames
import ApiManagement.ParamRoundTrip
import ApiManagement.UnorderedCode
import ApiManagement.VersionFidelity

/-! # From the editor to the client

The params that are saved in a draft are copied when its iteration is committed, read by whoever
may read the version, and turned into interfaces. Other requests may come in between, as long as
nobody edits the draft again or publishes the version anew. -/
namespace DeliveredParams

open TransactionRuns KeyedTables ParentLinkedRows RowForests PythonRuntime ServiceSchema
  ApiStores StoreCopies ServiceOperations ApiOperations OpenapiExport CodeGenerator OperationRuns
  OperationEffects StateInvariant WriteRights KeptContent ParamEncoding ParamRoundTrip
  ConcurrentIterations VersionFidelity UnorderedCode

structure Edit where
  iterationId : ℕ
  apiDraftId : ℕ
  name : String
  method : String
  path : String
  description : Option String
  level : String
  reqParams : JsonValue
  respParams : JsonValue

def Edit.save (edit : Edit) (env : Environment) (userId : ℕ) (db : Database) :
    Tx (Database × Reply Unit) :=
  apiUpdateApiByApiDraftId env edit.iterationId edit.apiDraftId userId edit.name edit.method
    edit.path edit.description edit.level edit.reqParams edit.respParams db

def Edit.described (edit : Edit) (reqs : List (RoseTree RequestFields))
    (resps : List (RoseTree ResponseFields)) : FetchedApi where
  name := edit.name
  method := (HttpMethod.ofValue edit.method).getD .get
  path := edit.path
  description := edit.description
  requestParams location := reqs.filter (fun t => t.value.location == location)
  statusCodes := (resps.map (fun t => t.value.statusCode)).dedup
  statusCodes_nodup := List.nodup_dedup _
  responseParams statusCode := resps.filter (fun t => t.value.statusCode == statusCode)

/-- What the client makes of the detail; in which order the status codes come is left open. -/
structure Fetches (detail : ApiDetail) (api : FetchedApi) : Prop where
  name : api.name = detail.api.fields.name.val
  method : api.method = detail.api.fields.method
  path : api.path = detail.api.fields.path.val
  description : api.description = detail.api.fields.description
  requests : ∀ location,
    api.requestParams location = (detail.requestParamsByLocation location).map shape
  responses : ∀ statusCode,
    api.responseParams statusCode = (detail.responseParamsByStatusCode statusCode).map shape
  codes : ∀ c, c ∈ api.statusCodes ↔ detail.responseParamsByStatusCode c ≠ []

def fetchedApi (env : Environment) (st : ApiStore) (a : ApiRow) : FetchedApi where
  name := a.fields.name.val
  method := a.fields.method
  path := a.fields.path.val
  description := a.fields.description
  requestParams location :=
    (organizeReqParams (env.fetch (st.requestParamsOf a.id)) location).map shape
  statusCodes := (((env.fetch (st.responseParamsOf a.id)).filter isRoot).map
    (fun r => r.fields.statusCode)).dedup
  statusCodes_nodup := List.nodup_dedup _
  responseParams statusCode :=
    (organizeRespParams (env.fetch (st.responseParamsOf a.id)) statusCode).map shape

theorem fetches_detail (env : Environment) (db : Database) (st : ApiStore) (a : ApiRow) :
    Fetches (apiDetail env db st a) (fetchedApi env st a) := by
  refine ⟨rfl, rfl, rfl, rfl, fun _ => rfl, fun _ => rfl, ?_⟩
  intro c
  simp only [fetchedApi, apiDetail, organizeRespParams, growForest, List.mem_dedup, List.mem_map,
    List.mem_filter, ne_eq, List.map_eq_nil_iff, List.filter_eq_nil_iff, Bool.and_eq_true,
    beq_iff_eq, not_forall, not_not, exists_prop, and_assoc]

section Draft

variable {edit : Edit} {reqs : List (RoseTree RequestFields)}
  {resps : List (RoseTree ResponseFields)} {st : ApiStore} {d : ApiDraft}

structure Holds (edit : Edit) (reqs : List (RoseTree RequestFields))
    (resps : List (RoseTree ResponseFields)) (st : ApiStore) (d : ApiDraft) : Prop where
  name : d.fields.name.val = edit.name
  method : d.fields.method = (HttpMethod.ofValue edit.method).getD .get
  path : d.fields.path.val = edit.path
  description : d.fields.description = edit.description
  forests : HoldsForests st d.id reqs resps

/-- The draft holds the edit when it was saved. -/
theorem holds_of_save {env : Environment} (hdriver : FaithfulDriver env) {db db' : Database}
    (hi : Invariant Nests db) {userId : ℕ} {r : Reply Unit}
    (h : edit.save env userId db = .ok (db', r))
    (hreq : requestForest edit.reqParams = some reqs)
    (hresp : responseForest edit.respParams = some resps) :
    Invariant Nests db' ∧ (∃ i, WorkRight db' edit.iterationId userId i) ∧
      ∃ d ∈ db'.drafts.apisOf edit.iterationId, d.id = edit.apiDraftId ∧
        Holds edit reqs resps db'.drafts d := by
  have hdraft := h
  simp only [Edit.save, apiUpdateApiByApiDraftId, bind_eq_ok] at hdraft
  obtain ⟨d, hd, _⟩ := hdraft
  obtain ⟨⟨i, hw⟩, hd, hid, hdc⟩ := draftOfIteration_eq_ok.mp hd
  have hupdate : apiUpdateApiByApiDraftId env edit.iterationId d.id userId edit.name edit.method
      edit.path edit.description edit.level edit.reqParams edit.respParams db = .ok (db', r) := by
    rw [hid]
    exact h
  obtain ⟨n, p, drafts, hn, hp, rfl, hrow, hholds⟩ := (update_stores hi hw hd hdc
    (requestForest_stored hdriver hreq) (responseForest_stored hdriver hresp) edit.name
    edit.method edit.path edit.level edit.description).2 db' r hupdate
  refine ⟨effect_preserves nests_joint (apiUpdateApiByApiDraftId_effect h)
    (payloadGuard_true _) hi, ⟨i, hw.mem, hw.id, hw.uncommitted, hw.right⟩, _,
    ApiStore.mem_apisOf.mpr ⟨hrow, rfl⟩, hid, hn, rfl, hp, rfl, hholds⟩

/-- An iteration that somebody may work on stays one of its service. -/
theorem opened_of_right {db : Database} (hi : Invariant Nests db) {iterationId userId : ℕ}
    {i : ServiceIteration} (hw : WorkRight db iterationId userId i) :
    Opened iterationId i.serviceId db := by
  refine ⟨hi, ?_, ?_⟩
  · rw [← hw.id]
    exact (db.iterations.bounds _ hw.mem).2
  · intro j hj hjid
    rw [db.iterations.eq_of_key_eq hj hw.mem (hjid.trans hw.id.symm)]

/-- Edits of other drafts leave it so. -/
theorem Holds.kept {st' : ApiStore} (h : Holds edit reqs resps st d) (hk : KeptApi d st st') :
    ∃ b ∈ st'.apis.rows, b.id = d.id ∧ b.container = d.container ∧
      Holds edit reqs resps st' b := by
  obtain ⟨b, hb, hid, hbc, hf⟩ := hk.row
  have hsame : ∀ {α : Type} (f : ApiFields → α), (∀ x, f (uncategorised x) = f x) →
      f b.fields = f d.fields := by
    intro α f hu
    rw [← hu b.fields, hf, hu]
  refine ⟨b, hb, hid, hbc, ?_, ?_, ?_, ?_, ?_⟩
  · exact (hsame (fun f => f.name.val) (fun _ => rfl)).trans h.name
  · exact (hsame ApiFields.method (fun _ => rfl)).trans h.method
  · exact (hsame (fun f => f.path.val) (fun _ => rfl)).trans h.path
  · exact (hsame ApiFields.description (fun _ => rfl)).trans h.description
  · obtain ⟨⟨n, hn, hreq⟩, ⟨k, hk₀, hresp⟩⟩ := h.forests
    rw [hid]
    exact ⟨⟨n, hn, hk.requests.trans hreq⟩, ⟨k, hk₀, hk.responses.trans hresp⟩⟩

theorem mem_codes {c : ℤ} : c ∈ (resps.map (fun t => t.value.statusCode)).dedup ↔
    resps.filter (fun t => t.value.statusCode == c) ≠ [] := by
  simp only [List.mem_dedup, List.mem_map, ne_eq, List.filter_eq_nil_iff, beq_iff_eq, not_forall,
    not_not, exists_prop]

/-- Whoever reads the draft, or a copy of it, gets the api that the edit describes. -/
theorem Holds.fetched (h : Holds edit reqs resps st d) {detail : ApiDetail} {api : FetchedApi}
    (hsame : SameApi st d detail) (hf : Fetches detail api) :
    SameFetched api (edit.described reqs resps) := by
  have hfield : ∀ {α : Type} (f : ApiFields → α), (∀ x, f (uncategorised x) = f x) →
      f detail.api.fields = f d.fields := by
    intro α f hu
    rw [← hu detail.api.fields, hsame.fields, hu]
  obtain ⟨⟨n, hn, hreq⟩, ⟨k, hk, hresp⟩⟩ := h.forests
  have hresponses : ∀ c, ForestIso ((detail.responseParamsByStatusCode c).map shape)
      (resps.filter (fun t => t.value.statusCode == c)) :=
    fun c => (hsame.responses c).trans
      (decode_laid hk (List.Perm.of_eq hresp) (fun f => f.statusCode == c))
  refine ⟨?_, ?_, ?_, ?_, ?_, ?_, ?_⟩
  · exact hf.name.trans ((hfield (fun f => f.name.val) (fun _ => rfl)).trans h.name)
  · exact hf.method.trans ((hfield ApiFields.method (fun _ => rfl)).trans h.method)
  · exact hf.path.trans ((hfield (fun f => f.path.val) (fun _ => rfl)).trans h.path)
  · exact hf.description.trans
      ((hfield ApiFields.description (fun _ => rfl)).trans h.description)
  · intro location
    rw [hf.requests]
    exact (hsame.requests location).trans
      (decode_laid hn (List.Perm.of_eq hreq) (fun f => f.location == location))
  · intro c
    rw [hf.responses]
    exact hresponses c
  · intro c hc
    have hne := ne_nil_iso (hresponses c) hc
    exact iff_of_true ((hf.codes c).mpr (fun hnil => hne (List.map_eq_nil_iff.mpr hnil)))
      (mem_codes.mpr hc)

end Draft

theorem committed_of_commit {env : Environment} {db db' : Database} (hi : Invariant Nests db)
    {iterationId committer : ℕ} {version : String} {r : Except Raised (Reply CommitInfo)}
    (hcommit : serviceCommitIteration env iterationId version committer db = .ok (db', r))
    {i : ServiceIteration} (hm : i ∈ db.iterations.rows) (hid : i.id = iterationId)
    (honce : ∀ j ∈ db.iterations.rows, j.serviceId = i.serviceId → j.id ≠ i.id →
      j.version.map VarChar.val ≠ some version) :
    ∃ v : VarChar 32, v.val = version ∧ Committed db.drafts (markCommitted v i) v db' := by
  have he := serviceCommitIteration_effect hcommit
  obtain ⟨j, hj, hjid, v, rfl, hrow, hdrafts, hsnap⟩ := commit_outcome hi he
  have hji : j = i := db.iterations.eq_of_key_eq hj hm (hjid.trans hid.symm)
  subst hji hjid
  refine ⟨v, rfl, effect_preserves nests_joint he trivial hi, hrow, ?_, ?_, ?_⟩
  · rw [hdrafts]
    exact Kept.refl _ _
  · intro k hk hks hkv
    obtain ⟨l, hl, hlk, hls, hv⟩ := iteration_versions he hk hkv
    refine db'.iterations.eq_of_key_eq hk hrow ?_
    rcases hv with hv | ⟨userId, hop⟩
    · by_contra hne
      refine honce l hl (hls.trans hks) (fun hlj => hne (hlk.symm.trans hlj)) ?_
      rw [hv, Option.map_some]
    · exact (Operation.serviceCommitIteration.inj hop).1.symm
  · exact fun _ _ _ _ => hsnap.coarsen uncategorised

/-- An edit that was saved, and then committed with its iteration as the version `version` of the
service: between the two, and since, other requests were served. -/
inductive Published (edit : Edit) (version : String) (serviceId : ℕ) (db : Database) : Prop where
  | intro {env₀ env₁ : Environment} {db₀ db₁ db₂ db₃ : Database} {author committer : ℕ}
      {r₀ : Reply Unit} {r₁ : Except Raised (Reply CommitInfo)} {i : ServiceIteration} :
      Reachable db₀ → FaithfulDriver env₀ → edit.save env₀ author db₀ = .ok (db₁, r₀) →
      Runs transaction
        (fun _ request => ¬ Touches edit.iterationId edit.apiDraftId request.operation) db₁ db₂ →
      i ∈ db₂.iterations.rows → i.id = edit.iterationId → i.serviceId = serviceId →
      (∀ j ∈ db₂.iterations.rows, j.serviceId = serviceId → j.id ≠ i.id →
        j.version.map VarChar.val ≠ some version) →
      serviceCommitIteration env₁ edit.iterationId version committer db₂ = .ok (db₃, r₁) →
      Runs transaction (Spares serviceId edit.iterationId version) db₃ db →
      Published edit version serviceId db

def MayRead (db : Database) (s : Service) (iterationId : ℕ) (version : String) (userId : ℕ) :
    Prop :=
  MaintainerRight db s userId ∨ s.version.val ≠ version ∧
    ∃ i ∈ db.iterations.rows, i.id = iterationId ∧ i.creatorId = some userId

/-- All apis of the answer can be asked for, and one of them is what the edit describes. -/
structure Delivers (edit : Edit) (reqs : List (RoseTree RequestFields))
    (resps : List (RoseTree ResponseFields)) (db : Database) (userId : ℕ)
    (detail : VersionDetail) : Prop where
  readable : ∀ a ∈ detail.apis, ∀ env : Environment, ∃ reply,
    apiGetApiById env a.id userId detail.isLatest db = .ok reply
  edited : ∃ a ∈ detail.apis, ∀ (env : Environment) (reply : Reply ApiDetail) (api : FetchedApi),
    apiGetApiById env a.id userId detail.isLatest db = .ok reply → Fetches reply.data api →
      SameFetched api (edit.described reqs resps)

section Published

variable {edit : Edit} {reqs : List (RoseTree RequestFields)}
  {resps : List (RoseTree ResponseFields)} {db : Database} {version : String} {serviceId : ℕ}

theorem delivers_of_serves {content : ApiStore} {d : ApiDraft} {userId : ℕ}
    {detail : VersionDetail} (hd : d ∈ content.apisOf edit.iterationId)
    (hholds : Holds edit reqs resps content d)
    (h : Serves content edit.iterationId db userId detail) :
    Delivers edit reqs resps db userId detail := by
  obtain ⟨_, ν, hν, hread⟩ := h
  constructor
  · intro a ha env
    obtain ⟨k, hk, hka⟩ := hν.surjOn (List.mem_map_of_mem ha : a.id ∈ detail.apis.map ApiRow.id)
    obtain ⟨b, hb, rfl⟩ := List.mem_map.mp hk
    obtain ⟨reply, hreply, _⟩ := hread b hb env
    exact ⟨reply, hka ▸ hreply⟩
  · obtain ⟨a, ha, hid⟩ := List.mem_map.mp
      (hν.mapsTo (List.mem_map_of_mem hd : d.id ∈ (content.apisOf _).map ApiRow.id))
    refine ⟨a, ha, ?_⟩
    intro env reply api hreply hf
    obtain ⟨reply', hreply', hsame⟩ := hread d hd env
    rw [hid, hreply'] at hreply
    cases hreply
    exact hholds.fetched hsame hf

/-- The version as `serviceGetServiceByUuidAndVersion` answers it. -/
theorem Published.served (h : Published edit version serviceId db)
    (hreq : requestForest edit.reqParams = some reqs)
    (hresp : responseForest edit.respParams = some resps) (hlatest : version ≠ "latest")
    {s : Service} (hs : s ∈ db.services.rows) (hsid : s.id = serviceId)
    (halive : s.isDeleted = false) {serviceUuid : String}
    (huuid : strip (unquote serviceUuid) = s.serviceUuid.val) {userId : ℕ}
    (hread : MayRead db s edit.iterationId version userId) (env : Environment) :
    ∃ reply, serviceGetServiceByUuidAndVersion env serviceUuid version userId db = .ok reply ∧
      Delivers edit reqs resps db userId reply.data := by
  obtain ⟨hreach, hdriver, hsave, hedits, hm, hid, rfl, honce, hcommit, hrun⟩ := h
  rename_i db₀ db₁ db₂ db₃ _ _ _ _ i
  obtain ⟨hi₁, ⟨k, hw⟩, d, hd, hdid, hholds⟩ :=
    holds_of_save hdriver (reachable_invariant hreach) hsave hreq hresp
  have hopened := opened_of_right hi₁ hw
  have hkept := draft_kept_run hopened hd (hdid ▸ hedits)
  obtain ⟨b, hb, _, hbc, hholds⟩ := hholds.kept hkept
  have hb' : b ∈ db₂.drafts.apisOf edit.iterationId :=
    ApiStore.mem_apisOf.mpr ⟨hb, hbc.trans (ApiStore.mem_apisOf.mp hd).2⟩
  have hi₂ := (opened_run hopened hedits).invariant
  obtain ⟨v, rfl, hstart⟩ := committed_of_commit hi₂ hcommit hm hid honce
  rw [← hid] at hrun
  have hcommitted := committed_run hstart rfl hrun
  have hright : MaintainerRight db s userId ∨
      s.version.val ≠ v.val ∧ (markCommitted v i).creatorId = some userId := by
    rcases hread with hr | ⟨hne, j, hj, hjid, hjc⟩
    · exact Or.inl hr
    · have hji : j = markCommitted v i :=
        db.iterations.eq_of_key_eq hj hcommitted.row (hjid.trans hid.symm)
      exact Or.inr ⟨hne, hji ▸ hjc⟩
  obtain ⟨reply, hreply, _, hserves⟩ := hcommitted.serves hi₂.drafts rfl hlatest hs hsid halive
    huuid hright env
  refine ⟨reply, hreply, delivers_of_serves hb' hholds ?_⟩
  rw [← hid]
  exact hserves

/-- Whatever is requested in between: who may read a version gets, up to the order of params, the
code that is generated for the apis as they were saved. -/
theorem saved_params_reach_clients (h : Published edit version serviceId db)
    (hreq : requestForest edit.reqParams = some reqs)
    (hresp : responseForest edit.respParams = some resps) (hlatest : version ≠ "latest")
    {s : Service} (hs : s ∈ db.services.rows) (hsid : s.id = serviceId)
    (halive : s.isDeleted = false) {serviceUuid : String}
    (huuid : strip (unquote serviceUuid) = s.serviceUuid.val) {userId : ℕ}
    (hread : MayRead db s edit.iterationId version userId) (up : Uppercase) (env : Environment) :
    ∃ reply, serviceGetServiceByUuidAndVersion env serviceUuid version userId db = .ok reply ∧
      ∃ a ∈ reply.data.apis, ∀ env' : Environment, ∃ detail,
        apiGetApiById env' a.id userId reply.data.isLatest db = .ok detail ∧
        ∀ api, Fetches detail.data api →
          SameCode (generateTSCode up api) (generateTSCode up (edit.described reqs resps)) := by
  obtain ⟨reply, hreply, hreadable, a, ha, hedited⟩ :=
    h.served hreq hresp hlatest hs hsid halive huuid hread env
  refine ⟨reply, hreply, a, ha, ?_⟩
  intro env'
  obtain ⟨detail, hdetail⟩ := hreadable a ha env'
  exact ⟨detail, hdetail, fun api hf =>
    sameCode_of_sameFetched up (hedited env' detail api hdetail hf)⟩

end Published

def ordersEdit : Edit :=
  ⟨2, 2, "list", "GET", "/users", none, "P1", orderPayload, orderReply⟩

def edited : Database :=
  play opened [.apiUpdateApiByApiDraftId 2 2 1 "list" "GET" "/users" none "P1" orderPayload
    orderReply]

def extended : Database := play edited [.apiAddApi 2 1 "pay" "POST" "/pay" none "P2" none]

def shipped : Database := play extended [.serviceCommitIteration 2 "0.0.3" 1]

def replaced : Database :=
  play shipped [.serviceStartIteration 1 1, .apiDeleteApiByApiDraftId 3 4 1,
    .serviceCommitIteration 3 "0.0.4" 1]

def ordersIteration : ServiceIteration := ⟨2, 1, some 1, none, none, false⟩

theorem orders_published : Published ordersEdit "0.0.3" 1 replaced := by
  obtain ⟨_, hsave⟩ : ∃ r, ordersEdit.save plainEnvironment 1 opened = .ok (edited, r) :=
    played (.apiUpdateApiByApiDraftId 2 2 1 "list" "GET" "/users" none "P1" orderPayload
      orderReply) rfl (by decide +kernel)
  obtain ⟨_, hcommit⟩ : ∃ r, serviceCommitIteration plainEnvironment 2 "0.0.3" 1 extended =
      .ok (shipped, r) := played (.serviceCommitIteration 2 "0.0.3" 1) rfl (by decide +kernel)
  have hedits : Runs transaction (fun _ request => ¬ Touches 2 2 request.operation) edited
      extended := by
    refine runs_play (.refl edited) _ ?_
    intro operation ho _
    rw [List.mem_singleton.mp ho]
    exact not_false
  have hrun : Runs transaction (Spares 1 2 "0.0.3") shipped replaced := by
    refine runs_play (.refl shipped) _ ?_
    intro operation ho d _
    simp only [List.mem_cons, List.not_mem_nil, or_false] at ho
    constructor
    · rintro ⟨_, _, h, _⟩
      subst h
      rcases ho with h | h | h
      · cases h
      · cases h
      · injection h with _ hversion
        revert hversion
        decide
    · rintro _ rfl
      rcases ho with h | h | h <;> cases h
  exact .intro (i := ordersIteration) opened_reachable plainEnvironment_faithful hsave hedits
    (by decide +kernel) rfl rfl (by decide +kernel) hcommit hrun

theorem replacedVersion_fits : "0.0.4".length ≤ 32 := by decide

def replacedService : Service := publish none ⟨"0.0.4", replacedVersion_fits⟩ publishedService

theorem orders_reach_clients : ∃ reqs resps,
    requestForest orderPayload = some reqs ∧ responseForest orderReply = some resps ∧
    ∃ reply, serviceGetServiceByUuidAndVersion plainEnvironment "team%2Fcore" "0.0.3" 1
        replaced = .ok reply ∧
      ∃ a ∈ reply.data.apis, ∀ env' : Environment, ∃ detail,
        apiGetApiById env' a.id 1 reply.data.isLatest replaced = .ok detail ∧
        ∀ api, Fetches detail.data api →
          SameCode (generateTSCode InterfaceNames.plainUppercase api)
            (generateTSCode InterfaceNames.plainUppercase (ordersEdit.described reqs resps)) := by
  obtain ⟨reqs, hreq⟩ : ∃ reqs, requestForest orderPayload = some reqs :=
    Option.isSome_iff_exists.mp (by decide +kernel)
  obtain ⟨resps, hresp⟩ : ∃ resps, responseForest orderReply = some resps :=
    Option.isSome_iff_exists.mp (by decide +kernel)
  exact ⟨reqs, resps, hreq, hresp, saved_params_reach_clients orders_published hreq hresp
    (by decide) (s := replacedService) (by decide +kernel) rfl rfl (by decide +kernel)
    (Or.inl (Or.inl rfl)) InterfaceNames.plainUppercase plainEnvironment⟩

end DeliveredParams
