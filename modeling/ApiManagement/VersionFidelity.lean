import ApiManagement.KeptContent

/-! # Fidelity of versions

A committed version is read from the live tables while it is the latest one and from the
draft tables afterwards. Both serve what the drafts of the iteration were when it was
committed, up to ids, categories and the order of siblings. -/
namespace VersionFidelity

open TransactionRuns KeyedTables ParentLinkedRows RowForests PythonRuntime ServiceSchema
  ApiStores StoreCopies ServiceOperations ApiOperations OperationRuns OperationEffects
  StateInvariant IterationCopies DraftIsolation WriteRights KeptContent

section Decode

variable {F : Type} {bond : F → F → Prop} {t u : Table (LinkedRow F)} {a b : ℕ} {μ : ℕ → ℕ}

theorem parents_below (hl : WellLinked bond t.rows) :
    ∀ r ∈ t.rows.filter (fun r => r.holder == a), ∀ p, r.parent = some p →
      ∃ q ∈ t.rows.filter (fun r => r.holder == a), q.id = p :=
  hl.parents_within (a := a) (fun r => by simp)

/-- A copy has its roots where the original has its own. -/
theorem isRoot_graft (hl : WellLinked bond t.rows)
    (hp : (u.rows.filter (fun r => r.holder == b)).Perm
      ((t.rows.filter (fun r => r.holder == a)).map (graft μ b))) {r : LinkedRow F}
    (hr : r ∈ t.rows.filter (fun r => r.holder == a)) : isRoot (graft μ b r) = isRoot r := by
  unfold isRoot
  cases hrp : r.parent with
  | none => simp [hrp]
  | some p =>
    obtain ⟨q, hq, rfl⟩ := parents_below hl r hr p hrp
    have hcopy : graft μ b q ∈ u.rows.filter (fun r => r.holder == b) :=
      hp.mem_iff.mpr (List.mem_map_of_mem hq)
    have hnew : 0 < μ q.id := (u.bounds _ (List.mem_of_mem_filter hcopy)).1
    have hold : 0 < q.id := (t.bounds _ (List.mem_of_mem_filter hq)).1
    rw [graft_parent, hrp]
    simp [hnew.ne', hold.ne']

/-- Decoding a copy gives the forest of the original, in whatever order the rows are fetched. -/
theorem decode_copy (env : Environment) (hl : WellLinked bond t.rows)
    (hp : (u.rows.filter (fun r => r.holder == b)).Perm
      ((t.rows.filter (fun r => r.holder == a)).map (graft μ b)))
    (hi : Set.InjOn μ { i | i ∈ (t.rows.filter (fun r => r.holder == a)).map LinkedRow.id })
    (p : F → Bool) :
    ForestIso
      ((growForest (env.fetch (u.rows.filter (fun r => r.holder == b)))
        ((env.fetch (u.rows.filter (fun r => r.holder == b))).filter
          (fun r => isRoot r && p r.fields))).map shape)
      ((growForest (t.rows.filter (fun r => r.holder == a))
        ((t.rows.filter (fun r => r.holder == a)).filter
          (fun r => isRoot r && p r.fields))).map shape) := by
  have hfetched := (env.fetch_perm (u.rows.filter (fun r => r.holder == b))).trans hp
  have hroots : ((t.rows.filter (fun r => r.holder == a)).map (graft μ b)).filter
      (fun r => isRoot r && p r.fields) =
        ((t.rows.filter (fun r => r.holder == a)).filter
          (fun r => isRoot r && p r.fields)).map (graft μ b) := by
    rw [List.filter_map]
    congr 1
    apply List.filter_congr
    intro r hr
    rw [Function.comp, isRoot_graft hl hp hr, graft_fields]
  have hiso := growForest_perm hfetched (hfetched.filter (fun r => isRoot r && p r.fields))
  rw [hroots, growForest_graft hi (parents_below hl) (List.filter_subset_self _)] at hiso
  exact hiso

end Decode

/-- The api read is the draft, but for ids, category and the order of siblings. -/
structure SameApi (content : ApiStore) (draft : ApiDraft) (detail : ApiDetail) : Prop where
  fields : uncategorised detail.api.fields = uncategorised draft.fields
  requests : ∀ location, ForestIso ((detail.requestParamsByLocation location).map shape)
    ((organizeReqParams (content.requestParamsOf draft.id) location).map shape)
  responses : ∀ statusCode, ForestIso ((detail.responseParamsByStatusCode statusCode).map shape)
    ((organizeRespParams (content.responseParamsOf draft.id) statusCode).map shape)

/-- The apis of a version are the drafts of an iteration in `content`: a bijection between
their ids, and each api, expanded by its id, is the draft. -/
def Serves (content : ApiStore) (iterationId : ℕ) (db : Database) (userId : ℕ)
    (detail : VersionDetail) : Prop :=
  (detail.apis.map ApiRow.id).Nodup ∧
    ∃ ν, Set.BijOn ν { i | i ∈ (content.apisOf iterationId).map ApiRow.id }
        { i | i ∈ detail.apis.map ApiRow.id } ∧
      ∀ a ∈ content.apisOf iterationId, ∀ env : Environment,
        ∃ reply, apiGetApiById env (ν a.id) userId detail.isLatest db = .ok reply ∧
          SameApi content a reply.data

theorem sameApi_of_replica {content st : ApiStore} {c d : ℕ} {ν : ℕ → ℕ} {μ ρ : ℕ → ℕ → ℕ}
    (hw : WellFormed Nests content) (h : Replica uncategorised content c st d ν μ ρ) {a b : ApiRow}
    (ha : a ∈ content.apisOf c) (hid : b.id = ν a.id)
    (hf : uncategorised b.fields = uncategorised a.fields) (env : Environment) (db : Database) :
    SameApi content a (apiDetail env db st b) := by
  have hq := h.requests a ha
  have hr := h.responses a ha
  rw [← hid] at hq hr
  exact ⟨hf, fun location => decode_copy env hw.request_linked hq (h.request_inj a ha)
      (fun f => f.location == location),
    fun statusCode => decode_copy env hw.response_linked hr (h.response_inj a ha)
      (fun f => f.statusCode == statusCode)⟩

/-- A store with a snapshot of the content serves it, if its apis can be read. -/
theorem serves_of_snapshot {content st : ApiStore} {c d userId : ℕ} {db : Database}
    {env : Environment} {detail : VersionDetail} (hw : WellFormed Nests content)
    (h : Snapshot uncategorised content c st d) (hapis : detail.apis = env.fetch (st.apisOf d))
    (hread : ∀ b ∈ st.apisOf d, ∀ env : Environment, ∃ reply,
      apiGetApiById env b.id userId detail.isLatest db = .ok reply ∧
        reply.data = apiDetail env db st b) : Serves content c db userId detail := by
  obtain ⟨ν, μ, ρ, h⟩ := h
  have hmem : ∀ i, i ∈ detail.apis.map ApiRow.id ↔ i ∈ (st.apisOf d).map ApiRow.id := by
    intro i
    rw [hapis]
    exact ((env.fetch_perm _).map _).mem_iff
  refine ⟨?_, ν, ⟨?_, h.api_inj, ?_⟩, ?_⟩
  · rw [hapis]
    exact (apisOf_fetch st d env).1
  · intro i hi
    obtain ⟨a, ha, rfl⟩ := List.mem_map.mp hi
    obtain ⟨b, hb, hid, _⟩ := h.image_mem ha
    exact (hmem _).mpr (hid ▸ List.mem_map_of_mem hb)
  · intro i hi
    obtain ⟨b, hb, rfl⟩ := List.mem_map.mp ((hmem i).mp hi)
    obtain ⟨a, ha, hid, _⟩ := h.preimage hb
    exact ⟨a.id, List.mem_map_of_mem ha, hid.symm⟩
  · intro a ha env'
    obtain ⟨b, hb, hid, hf⟩ := h.image_mem ha
    obtain ⟨reply, hreply, hdata⟩ := hread b hb env'
    refine ⟨reply, hid ▸ hreply, ?_⟩
    rw [hdata]
    exact sameApi_of_replica hw h ha hid hf env' db

section Read

variable {db : Database} {s : Service} {userId : ℕ}

theorem fetch_head? (env : Environment) {α : Type} {l : List α} {a : α} (ha : a ∈ l)
    (hu : ∀ b ∈ l, b = a) : (env.fetch l).head? = some a := by
  cases hf : env.fetch l with
  | nil =>
    have hm := env.mem_fetch.mpr ha
    rw [hf] at hm
    cases hm
  | cons b bs =>
    have hb : b ∈ env.fetch l := by
      rw [hf]
      exact List.mem_cons_self
    rw [List.head?_cons, hu b (env.mem_fetch.mp hb)]

/-- Level 0, or not a stranger. -/
theorem maintainerRight_iff {u : User} (hu : db.users.find? userId = some u) :
    MaintainerRight db s userId ↔
      u.level = .l0 ∨ (s.ownerId != userId && !isMaintainer db s.id (some u)) = false := by
  rw [← hu, MaintainerRight, ← levelZero_find?, hu, ← isMaintainer_find?, hu]
  simp only [Option.some_inj, Bool.and_eq_false_iff, bne_eq_false_iff_eq, Bool.not_eq_false']
  constructor
  · rintro (h | h | ⟨_, rfl, h⟩)
    · exact Or.inr (Or.inl h)
    · exact Or.inr (Or.inr h)
    · exact Or.inl h
  · rintro (h | h | h)
    · exact Or.inr (Or.inr ⟨u, rfl, h⟩)
    · exact Or.inl h
    · exact Or.inr (Or.inl h)

theorem live_api_read {u : User} (hu : db.users.find? userId = some u)
    (hs : s ∈ db.services.rows) (hr : MaintainerRight db s userId) {a : Api}
    (ha : a ∈ db.live.apisOf s.id) (env : Environment) :
    ∃ reply, apiGetApiById env a.id userId true db = .ok reply ∧
      reply.data = apiDetail env db db.live a := by
  obtain ⟨ha, hc⟩ := ApiStore.mem_apisOf.mp ha
  refine ⟨⟨200, "Get api success", apiDetail env db db.live a⟩, ?_, rfl⟩
  have hfind : db.live.apis.find? a.id = some a := Table.find?_eq_some.mpr ⟨ha, rfl⟩
  have hservice : db.services.find? a.container = some s := Table.find?_eq_some.mpr ⟨hs, hc.symm⟩
  by_cases hl : u.level = .l0
  · simp [apiGetApiById, hfind, hu, hl, orAbort, bind, Except.bind, pure, Except.pure]
  · have hclose := ((maintainerRight_iff hu).mp hr).resolve_left hl
    simp [apiGetApiById, hfind, hu, hl, hservice, hclose, orAbort, require, bind, Except.bind,
      pure, Except.pure]

theorem draft_api_read {u : User} (hu : db.users.find? userId = some u)
    {i : ServiceIteration} (hi : i ∈ db.iterations.rows) (hs : s ∈ db.services.rows)
    (hsid : s.id = i.serviceId)
    (hr : MaintainerRight db s userId ∨ i.creatorId = some userId) {a : ApiDraft}
    (ha : a ∈ db.drafts.apisOf i.id) (env : Environment) :
    ∃ reply, apiGetApiById env a.id userId false db = .ok reply ∧
      reply.data = apiDetail env db db.drafts a := by
  obtain ⟨ha, hc⟩ := ApiStore.mem_apisOf.mp ha
  refine ⟨⟨200, "Get api success", apiDetail env db db.drafts a⟩, ?_, rfl⟩
  have hfind : db.drafts.apis.find? a.id = some a := Table.find?_eq_some.mpr ⟨ha, rfl⟩
  have hiteration : db.iterations.find? a.container = some i :=
    Table.find?_eq_some.mpr ⟨hi, hc.symm⟩
  have hservice : db.services.find? i.serviceId = some s := Table.find?_eq_some.mpr ⟨hs, hsid⟩
  by_cases hl : u.level = .l0
  · simp [apiGetApiById, hfind, hu, hl, orAbort, bind, Except.bind, pure, Except.pure]
  · have hclose : (i.creatorId != some userId && !isMaintainer db s.id (some u) &&
        s.ownerId != userId) = false := by
      rw [Bool.and_assoc, Bool.and_comm (!isMaintainer db s.id (some u))]
      rcases hr with hr | hr
      · rw [((maintainerRight_iff hu).mp hr).resolve_left hl, Bool.and_false]
      · rw [hr, bne_self_eq_false, Bool.false_and]
    simp [apiGetApiById, hfind, hu, hl, hiteration, hservice, hclose, orAbort, require, bind,
      Except.bind, pure, Except.pure]

theorem levelAboveZeroIf_of_right {u : User} (hu : db.users.find? userId = some u) :
    ∃ above, levelAboveZeroIf (s.ownerId != userId && !isMaintainer db s.id (some u)) (some u) =
      .ok above ∧ (MaintainerRight db s userId → above = false) := by
  unfold levelAboveZeroIf
  cases hc : (s.ownerId != userId && !isMaintainer db s.id (some u)) with
  | false => exact ⟨false, rfl, fun _ => rfl⟩
  | true =>
    refine ⟨u.level != .l0, rfl, ?_⟩
    intro hr
    have hl : u.level = .l0 := by
      rcases (maintainerRight_iff hu).mp hr with hl | hl
      · exact hl
      · rw [hc] at hl
        cases hl
    rw [hl, bne_self_eq_false]

theorem find_service (hi : Invariant Nests db) (hs : s ∈ db.services.rows)
    (halive : s.isDeleted = false) {serviceUuid : String}
    (huuid : strip (unquote serviceUuid) = s.serviceUuid.val) (env : Environment) :
    (env.fetch (db.services.rows.filter (fun t =>
      t.serviceUuid.val == strip (unquote serviceUuid) && !t.isDeleted))).head? = some s := by
  refine fetch_head? env (List.mem_filter.mpr ⟨hs, by simp [huuid, halive]⟩) ?_
  intro t ht
  obtain ⟨ht, hp⟩ := List.mem_filter.mp ht
  rw [Bool.and_eq_true, beq_iff_eq, huuid] at hp
  exact hi.uuid_unique t ht s hs (VarChar.ext hp.1)

theorem latest_version_read {u : User} (hi : Invariant Nests db)
    (hu : db.users.find? userId = some u) (hs : s ∈ db.services.rows)
    (halive : s.isDeleted = false) {serviceUuid version : String}
    (huuid : strip (unquote serviceUuid) = s.serviceUuid.val)
    (hv : s.version.val = version ∨ version = "latest") (hr : MaintainerRight db s userId)
    (env : Environment) :
    serviceGetServiceByUuidAndVersion env serviceUuid version userId db =
      .ok ⟨200, "Get service success", .latest (serviceToJson env db s)⟩ := by
  obtain ⟨above, habove, hfalse⟩ := levelAboveZeroIf_of_right (s := s) hu
  have hsame : (s.version.val == version || version == "latest") = true := by simpa using hv
  simp only [serviceGetServiceByUuidAndVersion, bind_eq_ok, orAbort_eq_ok]
  refine ⟨s, find_service hi hs halive huuid env, ?_⟩
  simp only [hu, hsame, if_true, bind_eq_ok, require_eq_ok, pure_eq_ok]
  exact ⟨above, habove, (), by rw [hfalse hr]; rfl, trivial⟩

theorem earlier_version_read {u : User} (hi : Invariant Nests db)
    (hu : db.users.find? userId = some u) (hs : s ∈ db.services.rows)
    (halive : s.isDeleted = false) {serviceUuid version : String}
    (huuid : strip (unquote serviceUuid) = s.serviceUuid.val) (hv : s.version.val ≠ version)
    (hlatest : version ≠ "latest") {i : ServiceIteration} (hm : i ∈ db.iterations.rows)
    (his : i.serviceId = s.id) {x : VarChar 32} (hx : i.version = some x)
    (hxv : x.val = version) (hone : ∀ j ∈ db.iterations.rows, j.serviceId = s.id →
      j.version = some x → j = i)
    (hr : MaintainerRight db s userId ∨ i.creatorId = some userId) (env : Environment) :
    serviceGetServiceByUuidAndVersion env serviceUuid version userId db =
      .ok ⟨200, "Get service success", .earlier (iterationToJson env db i)⟩ := by
  obtain ⟨above, habove, hfalse⟩ := levelAboveZeroIf_of_right (s := s) hu
  have hother : (s.version.val == version || version == "latest") = false := by
    simp [hv, hlatest]
  have hfind : (env.fetch (db.iterations.rows.filter (fun j =>
      j.serviceId == s.id && j.version.any (fun w => w.val == version)))).head? = some i := by
    refine fetch_head? env (List.mem_filter.mpr ⟨hm, by simp [his, hx, hxv]⟩) ?_
    intro j hj
    obtain ⟨hj, hp⟩ := List.mem_filter.mp hj
    rw [Bool.and_eq_true, beq_iff_eq] at hp
    refine hone j hj hp.1 ?_
    cases hjv : j.version with
    | none =>
      rw [hjv] at hp
      cases hp.2
    | some w =>
      rw [hjv, Option.any_some, beq_iff_eq, ← hxv] at hp
      rw [VarChar.ext hp.2]
  have hallowed : (!(above && i.creatorId != some userId)) = true := by
    rcases hr with hr | hr
    · rw [hfalse hr]
      rfl
    · rw [hr, bne_self_eq_false, Bool.and_false]
      rfl
  simp only [serviceGetServiceByUuidAndVersion, bind_eq_ok, orAbort_eq_ok]
  refine ⟨s, find_service hi hs halive huuid env, ?_⟩
  simp only [hu, hother, Bool.false_eq_true, if_false, bind_eq_ok, orAbort_eq_ok, require_eq_ok,
    pure_eq_ok]
  exact ⟨i, hfind, above, habove, (), hallowed, rfl⟩

end Read

def Spares (serviceId iterationId : ℕ) (version : String) (db : Database) (request : Request) :
    Prop :=
  (transaction db request).isOk = true → ¬ Publishes db serviceId version request.operation ∧
    ∀ userId, request.operation ≠ .serviceDeleteIterationById iterationId userId

/-- The iteration `c` has been committed as `version`, with `content` for its drafts. -/
structure Committed (content : ApiStore) (c : ServiceIteration) (version : VarChar 32)
    (db : Database) : Prop where
  invariant : Invariant Nests db
  row : c ∈ db.iterations.rows
  drafts : Kept c.id content db.drafts
  only : ∀ j ∈ db.iterations.rows, j.serviceId = c.serviceId → j.version = some version → j = c
  live : ∀ t ∈ db.services.rows, t.id = c.serviceId → t.version = version →
    Snapshot uncategorised content c.id db.live c.serviceId

theorem committed_step {content : ApiStore} {c : ServiceIteration} {version : VarChar 32}
    {db db' : Database} {request : Request} (h : Committed content c version db)
    (hc : c.isCommitted = true) (he : Effect request.env db request.operation db')
    (hpub : ¬ Publishes db c.serviceId version.val request.operation)
    (hdel : ∀ userId, request.operation ≠ .serviceDeleteIterationById c.id userId) :
    Committed content c version db' := by
  have hrow := committed_row_stays he h.row hc hdel
  refine ⟨effect_preserves nests_joint he (payloadGuard_true request.operation) h.invariant,
    hrow, ?_, ?_, ?_⟩
  · exact h.drafts.trans (drafts_kept h.invariant he (Table.key_ne_next h.row)
      (committed_not_edited he h.row hc))
  · intro j hj hjs hjv
    obtain ⟨k, hk, hkj, hks, hv⟩ := iteration_versions he hj hjv
    rcases hv with hv | ⟨userId, hop⟩
    · have hkc := h.only k hk (hks.trans hjs) hv
      exact db'.iterations.eq_of_key_eq hj hrow (hkj.symm.trans (congrArg _ hkc))
    · exact absurd ⟨j.id, userId, hop, k, hk, hkj, hks.trans hjs⟩ hpub
  · intro t ht htid htv
    obtain ⟨s, hs, hsid⟩ := Table.contains_iff.mp (h.invariant.iteration_service c h.row)
    have hts : t.id = s.id := htid.trans hsid.symm
    by_cases hany : ∃ w, Publishes db c.serviceId w request.operation
    · obtain ⟨w, k, userId, hop, i, hm, hid, his⟩ := hany
      rw [hop] at he
      have hw : t.version.val = w := committed_version he hm hid ht (htid.trans his.symm)
      rw [htv] at hw
      exact absurd ⟨k, userId, hw ▸ hop, i, hm, hid, his⟩ hpub
    · have hnone : ∀ w, ¬ Publishes db c.serviceId w request.operation :=
        fun w hw => hany ⟨w, hw⟩
      have hkept := live_kept h.invariant he hnone
      rcases (service_versions he hs ht hts).2 with hv | hv
      · exact hkept.snapshot (h.live s hs hsid (hv.symm.trans htv))
      · rw [show s.id = c.serviceId from hsid] at hv
        exact absurd hv (hnone _)

theorem committed_run {content : ApiStore} {c : ServiceIteration} {version : VarChar 32}
    {db db' : Database} (h : Committed content c version db) (hc : c.isCommitted = true)
    (hr : Runs transaction (Spares c.serviceId c.id version.val) db db') :
    Committed content c version db' := by
  refine hr.preserves (I := Committed content c version) ?_ h
  intro s request t hs hg ht
  obtain ⟨hpub, hdel⟩ := hg (by rw [ht]; rfl)
  exact committed_step hs hc (transaction_effect ht) hpub hdel

/-- What a committed iteration guarantees to whoever may read its version. -/
theorem Committed.serves {content : ApiStore} {c : ServiceIteration} {version : VarChar 32}
    {db : Database} (h : Committed content c version db) (hw : WellFormed Nests content)
    (hversion : c.version = some version) (hlatest : version.val ≠ "latest") {s : Service}
    (hs : s ∈ db.services.rows) (hsid : s.id = c.serviceId) (halive : s.isDeleted = false)
    {serviceUuid : String} (huuid : strip (unquote serviceUuid) = s.serviceUuid.val)
    {userId : ℕ} (hright : MaintainerRight db s userId ∨
      s.version.val ≠ version.val ∧ c.creatorId = some userId) (env : Environment) :
    ∃ reply, serviceGetServiceByUuidAndVersion env serviceUuid version.val userId db =
        .ok reply ∧
      (reply.data.isLatest = true ↔ s.version.val = version.val) ∧
      Serves content c.id db userId reply.data := by
  have hi := h.invariant
  have hexists : db.users.contains userId = true := by
    rcases hright with hr | ⟨_, hr⟩
    · exact contains_of_maintainerRight hi hs hr
    · exact hi.iteration_creator c h.row userId hr
  obtain ⟨u, hu⟩ := Table.find?_of_contains hexists
  by_cases hv : s.version.val = version.val
  · have hr : MaintainerRight db s userId := by
      rcases hright with hr | ⟨hne, _⟩
      · exact hr
      · exact absurd hv hne
    refine ⟨_, latest_version_read hi hu hs halive huuid (Or.inl hv) hr env, by simp [hv,
      VersionDetail.isLatest], ?_⟩
    have hsnap := h.live s hs hsid (VarChar.ext hv)
    rw [← hsid] at hsnap
    exact serves_of_snapshot hw hsnap rfl (fun b hb env' => live_api_read hu hs hr hb env')
  · have hr : MaintainerRight db s userId ∨ c.creatorId = some userId := by
      rcases hright with hr | ⟨_, hr⟩
      · exact Or.inl hr
      · exact Or.inr hr
    have hone : ∀ j ∈ db.iterations.rows, j.serviceId = s.id → j.version = some version → j = c :=
      fun j hj hjs hjv => h.only j hj (hjs.trans hsid) hjv
    refine ⟨_, earlier_version_read hi hu hs halive huuid hv hlatest h.row hsid.symm hversion rfl
      hone hr env, by simp [hv, VersionDetail.isLatest], ?_⟩
    have hsnap : Snapshot uncategorised content c.id db.drafts c.id :=
      h.drafts.snapshot ((Snapshot.refl content c.id).coarsen uncategorised)
    exact serves_of_snapshot hw hsnap rfl
      (fun b hb env' => draft_api_read hu h.row hs hsid hr hb env')

/-- A version that is published once serves, in every later state and to everyone who may
read it, the drafts of its iteration as they were at the commit. -/
theorem version_stays_faithful {env₀ : Environment} {db db₁ db₂ : Database}
    (hreach : Reachable db) {iterationId committer : ℕ} {version : String}
    {r : Except Raised (Reply CommitInfo)}
    (hcommit : serviceCommitIteration env₀ iterationId version committer db = .ok (db₁, r))
    (hlatest : version ≠ "latest") {i : ServiceIteration} (hm : i ∈ db.iterations.rows)
    (hid : i.id = iterationId)
    (honce : ∀ j ∈ db.iterations.rows, j.serviceId = i.serviceId → j.id ≠ i.id →
      j.version.map VarChar.val ≠ some version)
    (hrun : Runs transaction (Spares i.serviceId iterationId version) db₁ db₂)
    {s : Service} (hs : s ∈ db₂.services.rows) (hsid : s.id = i.serviceId)
    (halive : s.isDeleted = false) {serviceUuid : String}
    (huuid : strip (unquote serviceUuid) = s.serviceUuid.val) {userId : ℕ}
    (hright : MaintainerRight db₂ s userId ∨
      s.version.val ≠ version ∧ i.creatorId = some userId) (env : Environment) :
    ∃ reply, serviceGetServiceByUuidAndVersion env serviceUuid version userId db₂ = .ok reply ∧
      (reply.data.isLatest = true ↔ s.version.val = version) ∧
      Serves db.drafts iterationId db₂ userId reply.data := by
  have hi := reachable_invariant hreach
  have he := serviceCommitIteration_effect hcommit
  obtain ⟨j, hj, hjid, v, rfl, hrow, hdrafts, hsnap⟩ := commit_outcome hi he
  have hji : j = i := db.iterations.eq_of_key_eq hj hm (hjid.trans hid.symm)
  subst hji hjid
  have hstart : Committed db.drafts (markCommitted v j) v db₁ := by
    refine ⟨effect_preserves nests_joint he trivial hi, hrow, ?_, ?_, ?_⟩
    · rw [hdrafts]
      exact Kept.refl _ _
    · intro k hk hks hkv
      obtain ⟨l, hl, hlk, hls, hv⟩ := iteration_versions he hk hkv
      refine db₁.iterations.eq_of_key_eq hk hrow ?_
      rcases hv with hv | ⟨userId, hop⟩
      · by_contra hne
        refine honce l hl (hls.trans hks) (fun hlj => hne (hlk.symm.trans hlj)) ?_
        rw [hv, Option.map_some]
      · exact (Operation.serviceCommitIteration.inj hop).1.symm
    · exact fun _ _ _ _ => hsnap.coarsen uncategorised
  have hcommitted := committed_run hstart rfl hrun
  exact hcommitted.serves hi.drafts rfl hlatest hs hsid halive huuid hright env

def drafted : Database := play twoUsers publishing.dropLast

def draftedIteration : ServiceIteration := ⟨1, 1, some 1, none, some "core", false⟩

def released : Database := play drafted [.serviceCommitIteration 1 "0.0.2" 1]

def superseded : Database :=
  play released [.serviceStartIteration 1 1, .serviceCommitIteration 2 "0.0.3" 1]

theorem newerVersion_fits : "0.0.3".length ≤ 32 := by decide

def supersededService : Service := publish none ⟨"0.0.3", newerVersion_fits⟩ publishedService

theorem superseded_version_served :
    ∃ reply, serviceGetServiceByUuidAndVersion plainEnvironment "team%2Fcore" "0.0.2" 1
        superseded = .ok reply ∧
      (reply.data.isLatest = true ↔ supersededService.version.val = "0.0.2") ∧
      Serves drafted.drafts 1 superseded 1 reply.data := by
  obtain ⟨r, hcommit⟩ : ∃ r, serviceCommitIteration plainEnvironment 1 "0.0.2" 1 drafted =
      .ok (released, r) := played (.serviceCommitIteration 1 "0.0.2" 1) rfl (by decide +kernel)
  have hrun : Runs transaction (Spares draftedIteration.serviceId 1 "0.0.2") released
      superseded := by
    refine runs_play (.refl released) _ ?_
    intro operation ho d _
    simp only [List.mem_cons, List.not_mem_nil, or_false] at ho
    rcases ho with rfl | rfl
    · constructor
      · rintro ⟨_, _, h, _⟩
        cases h
      · rintro _ h
        cases h
    · constructor
      · rintro ⟨_, _, h, _⟩
        injection h with _ hversion
        revert hversion
        decide
      · rintro _ h
        cases h
  exact version_stays_faithful (twoUsers_reachable.play publishing.dropLast (fun _ _ _ => trivial))
    hcommit (by decide) (i := draftedIteration) (by decide +kernel) rfl (by decide +kernel) hrun
    (s := supersededService) (by decide +kernel) rfl rfl (by decide +kernel) (Or.inl (Or.inl rfl))
    plainEnvironment

end VersionFidelity
