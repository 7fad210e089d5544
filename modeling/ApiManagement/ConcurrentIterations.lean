import ApiManagement.KeptContent

/-! # Concurrent iterations

A commit replaces the live apis of its service by copies of the drafts of its iteration; it
does not ask which version these were copied from. So among concurrent iterations the last
commit wins: what the others published in between is lost, what they deleted comes back. -/
namespace ConcurrentIterations

open TransactionRuns KeyedTables ParentLinkedRows PythonRuntime ServiceSchema ApiStores
  StoreCopies ServiceOperations ApiOperations DraftWrites OperationRuns OperationEffects
  StateInvariant IterationCopies DraftIsolation WriteRights KeptContent

def HasKey (method : HttpMethod) (path : String) (f : ApiFields) : Prop :=
  f.method = method ∧ f.path.val = path

/-- The operation would give a draft of the iteration this method and path. -/
def Gives (iterationId : ℕ) (method : HttpMethod) (path : String) (db : Database)
    (request : Request) : Prop :=
  match request.operation with
  | .apiAddApi i _ _ m p _ _ _ => i = iterationId ∧ HttpMethod.ofValue m = some method ∧ p = path
  | .apiCopyApiByApiDraftId i apiDraftId _ => i = iterationId ∧ ∃ d ∈ db.drafts.apis.rows,
      d.id = apiDraftId ∧ d.container = iterationId ∧ d.fields.method = method ∧
        d.fields.path.val ++ copySuffix request.env = path
  | .apiUpdateApiByApiDraftId i _ _ _ m p _ _ _ _ =>
    i = iterationId ∧ (HttpMethod.ofValue m).getD .get = method ∧ p = path
  | _ => False

def Touches (iterationId apiDraftId : ℕ) : Operation → Prop
  | .apiDeleteApiByApiDraftId i d _ => i = iterationId ∧ d = apiDraftId
  | .apiUpdateApiByApiDraftId i d _ _ _ _ _ _ _ _ => i = iterationId ∧ d = apiDraftId
  | _ => False

/-- The api stays in its container with its params; its category may change. -/
structure KeptApi (a : ApiRow) (st st' : ApiStore) : Prop where
  row : ∃ b ∈ st'.apis.rows, b.id = a.id ∧ b.container = a.container ∧
    uncategorised b.fields = uncategorised a.fields
  requests : st'.requestParamsOf a.id = st.requestParamsOf a.id
  responses : st'.responseParamsOf a.id = st.responseParamsOf a.id

theorem KeptApi.trans {a b : ApiRow} {st u v : ApiStore} (h : KeptApi a st u)
    (hb : b ∈ u.apis.rows) (hid : b.id = a.id) (k : KeptApi b u v) : KeptApi a st v := by
  obtain ⟨x, hx, hxa, hxc, hxf⟩ := h.row
  have hxb : x = b := u.apis.eq_of_key_eq hx hb (hxa.trans hid.symm)
  subst hxb
  obtain ⟨y, hy, hyx, hyc, hyf⟩ := k.row
  have hq := k.requests
  have hr := k.responses
  rw [hid] at hq hr
  exact ⟨⟨y, hy, hyx.trans hxa, hyc.trans hxc, hyf.trans hxf⟩, hq.trans h.requests,
    hr.trans h.responses⟩

theorem keptApi_of_kept {c : ℕ} {st st' : ApiStore} (h : Kept c st st') {a : ApiRow}
    (ha : a ∈ st.apisOf c) : KeptApi a st st' := by
  obtain ⟨b, hb, hid, hf⟩ := h.image ha
  obtain ⟨hb, hbc⟩ := ApiStore.mem_apisOf.mp hb
  exact ⟨⟨b, hb, hid, hbc.trans (ApiStore.mem_apisOf.mp ha).2.symm, hf⟩, h.requests a ha,
    h.responses a ha⟩

section Step

variable {db db' : Database} {request : Request}

theorem draft_kept (hi : Invariant Nests db)
    (he : Effect request.env db request.operation db') {a : ApiDraft}
    (ha : a ∈ db.drafts.apis.rows) (hop : ¬ Touches a.container a.id request.operation) :
    KeptApi a db.drafts db'.drafts := by
  by_cases hed : editedIteration request.operation = some a.container
  · have stays : ∀ {drafts : ApiStore}, (a ∈ drafts.apis.rows) →
        (drafts.requestParamsOf a.id = db.drafts.requestParamsOf a.id ∧
          drafts.responseParamsOf a.id = db.drafts.responseParamsOf a.id) →
        KeptApi a db.drafts drafts :=
      fun hm hp => ⟨⟨a, hm, rfl, rfl, rfl⟩, hp.1, hp.2⟩
    obtain ⟨env, operation⟩ := request
    cases he with
    | draftAdded _ _ _ _ _ _ _ _ hins =>
      obtain ⟨_, _, rfl⟩ := insertApi_eq_ok.mp hins
      exact stays (List.mem_append_left _ ha) ⟨rfl, rfl⟩
    | draftCopied _ _ _ _ _ _ _ _ hcopy =>
      obtain ⟨_, _, _, hrows⟩ := copyDraft_spec hi.drafts hcopy
      refine stays ?_ (copyDraft_other hcopy (Table.key_ne_next ha))
      rw [hrows]
      exact List.mem_append_left _ ha
    | @draftDeleted _ _ _ _ d _ hd hid hdc =>
      have hne : a.id ≠ d.id := fun h => hop ⟨Option.some.inj hed, hid.symm.trans h.symm⟩
      obtain ⟨_, _, hrows⟩ := removeDraft_spec hi.drafts hd
      refine stays ?_ (removeDraft_other hi.drafts hne)
      rw [hrows]
      exact List.mem_filter.mpr ⟨ha, by simpa using hne⟩
    | @draftUpdated _ _ _ _ _ _ _ _ _ _ _ d _ _ _ hd hid _ _ _ _ _ hrw =>
      have hne : a.id ≠ d.id := fun h => hop ⟨Option.some.inj hed, hid.symm.trans h.symm⟩
      obtain ⟨_, _, hrows⟩ := rewriteDraft_spec (nests_joint env) hi.drafts hd
        (fun p _ => paramRespects_true p) hrw
      refine stays ?_ (rewriteDraft_other hi.drafts hne hrw)
      rw [hrows]
      exact List.mem_map.mpr ⟨a, ha, if_neg hne⟩
    | _ => cases hed
  · have hkept := drafts_kept hi he (no_draft_of_new_iteration hi a ha) hed
    exact keptApi_of_kept hkept (ApiStore.mem_apisOf.mpr ⟨ha, rfl⟩)

theorem key_stays_away (hi : Invariant Nests db)
    (he : Effect request.env db request.operation db') {j : ℕ} (hj : j ≠ db.iterations.next)
    {method : HttpMethod} {path : String} (hop : ¬ Gives j method path db request)
    (h : ∀ a ∈ db.drafts.apisOf j, ¬ HasKey method path a.fields) :
    ∀ a ∈ db'.drafts.apisOf j, ¬ HasKey method path a.fields := by
  by_cases hed : editedIteration request.operation = some j
  · obtain ⟨env, operation⟩ := request
    intro a hm
    obtain ⟨hm, hc⟩ := ApiStore.mem_apisOf.mp hm
    have old : a ∈ db.drafts.apis.rows → ¬ HasKey method path a.fields :=
      fun ha => h a (ApiStore.mem_apisOf.mpr ⟨ha, hc⟩)
    cases he with
    | draftAdded _ _ _ hpath hmeth _ _ _ hins =>
      obtain ⟨_, _, rfl⟩ := insertApi_eq_ok.mp hins
      rcases List.mem_append.mp hm with hm | hm
      · exact old hm
      · rw [List.mem_singleton.mp hm]
        rintro ⟨hkm, hkp⟩
        exact hop ⟨Option.some.inj hed, hmeth.trans (congrArg some hkm), hpath.symm.trans hkp⟩
    | @draftCopied _ _ _ _ d _ _ _ hd hid hdc _ _ hmeth hpath hcopy =>
      obtain ⟨_, _, _, hrows⟩ := copyDraft_spec hi.drafts hcopy
      rw [hrows] at hm
      rcases List.mem_append.mp hm with hm | hm
      · exact old hm
      · rw [List.mem_singleton.mp hm]
        rintro ⟨hkm, hkp⟩
        exact hop ⟨Option.some.inj hed, d, hd, hid, hdc.trans (Option.some.inj hed),
          hmeth.symm.trans hkm, hpath.symm.trans hkp⟩
    | draftDeleted _ hd _ _ =>
      obtain ⟨_, _, hrows⟩ := removeDraft_spec hi.drafts hd
      rw [hrows] at hm
      exact old (List.mem_of_mem_filter hm)
    | @draftUpdated _ _ _ _ _ _ _ _ _ _ _ d _ _ _ hd _ _ _ _ hmeth hpath hrw =>
      obtain ⟨_, _, hrows⟩ := rewriteDraft_spec (nests_joint env) hi.drafts hd
        (fun p _ => paramRespects_true p) hrw
      rw [hrows] at hm
      obtain ⟨b, hb, rfl⟩ := List.mem_map.mp hm
      by_cases hbd : b.id = d.id
      · rw [setFields, if_pos hbd]
        rintro ⟨hkm, hkp⟩
        exact hop ⟨Option.some.inj hed, hmeth.symm.trans hkm, hpath.symm.trans hkp⟩
      · rw [setFields, if_neg hbd] at hc ⊢
        exact h b (ApiStore.mem_apisOf.mpr ⟨hb, hc⟩)
    | _ => cases hed
  · intro a hm hk
    have hkept := drafts_kept hi he hj hed
    have hseen : seen uncategorised a ∈ (db.drafts.apisOf j).map (seen uncategorised) :=
      hkept.apis ▸ List.mem_map_of_mem hm
    obtain ⟨b, hb, hba⟩ := List.mem_map.mp hseen
    have hf : uncategorised b.fields = uncategorised a.fields := congrArg ApiRow.fields hba
    have hkey : HasKey method path (uncategorised a.fields) := hk
    rw [← hf] at hkey
    exact h b hb hkey

end Step

structure Opened (j serviceId : ℕ) (db : Database) : Prop where
  invariant : Invariant Nests db
  started : j < db.iterations.next
  service : ∀ i ∈ db.iterations.rows, i.id = j → i.serviceId = serviceId

theorem opened_step {j serviceId : ℕ} {db db' : Database} {request : Request}
    (h : Opened j serviceId db) (ht : transaction db request = .ok db') :
    Opened j serviceId db' := by
  have he := transaction_effect ht
  exact ⟨effect_preserves nests_joint he (payloadGuard_true request.operation) h.invariant,
    h.started.trans_le (next_iteration_le he), iteration_service_kept he h.started h.service⟩

section Runs

variable {guard : Database → Request → Prop} {j serviceId : ℕ} {db db' : Database}

theorem opened_run (h : Opened j serviceId db) (hr : Runs transaction guard db db') :
    Opened j serviceId db' :=
  hr.preserves (fun _ _ _ hs _ ht => opened_step hs ht) h

theorem draft_kept_run {a : ApiDraft} (h : Opened j serviceId db)
    (ha : a ∈ db.drafts.apisOf j)
    (hr : Runs transaction (fun _ request => ¬ Touches j a.id request.operation) db db') :
    KeptApi a db.drafts db'.drafts := by
  obtain ⟨ha, hc⟩ := ApiStore.mem_apisOf.mp ha
  have hrun : Opened j serviceId db' ∧ KeptApi a db.drafts db'.drafts := by
    refine hr.preserves (I := fun d => Opened j serviceId d ∧ KeptApi a db.drafts d.drafts) ?_
      ⟨h, ⟨a, ha, rfl, rfl, rfl⟩, rfl, rfl⟩
    rintro s request t ⟨hs, hk⟩ hg ht
    obtain ⟨b, hb, hid, hbc, _⟩ := hk.row
    have hnot : ¬ Touches b.container b.id request.operation := by
      rw [hbc, hid, hc]
      exact hg
    exact ⟨opened_step hs ht,
      hk.trans hb hid (draft_kept hs.invariant (transaction_effect ht) hb hnot)⟩
  exact hrun.2

theorem key_stays_away_run {method : HttpMethod} {path : String} (h : Opened j serviceId db)
    (hk : ∀ a ∈ db.drafts.apisOf j, ¬ HasKey method path a.fields)
    (hr : Runs transaction (fun d request => ¬ Gives j method path d request) db db') :
    ∀ a ∈ db'.drafts.apisOf j, ¬ HasKey method path a.fields := by
  have hrun : Opened j serviceId db' ∧
      ∀ a ∈ db'.drafts.apisOf j, ¬ HasKey method path a.fields := by
    refine hr.preserves (I := fun d => Opened j serviceId d ∧
      ∀ a ∈ d.drafts.apisOf j, ¬ HasKey method path a.fields) ?_ ⟨h, hk⟩
    rintro s request t ⟨hs, hkey⟩ hg ht
    exact ⟨opened_step hs ht, key_stays_away hs.invariant (transaction_effect ht) hs.started.ne
      hg hkey⟩
  exact hrun.2

end Runs

theorem started_mirrors {db db' : Database} {env : Environment} {s : Service} {userId : ℕ}
    {reply : Reply ℕ} (hi : Invariant Nests db) (hs : s ∈ db.services.rows)
    (hstart : serviceStartIteration env s.id userId db = .ok (db', reply))
    (hnew : reply.status = 200) :
    Opened reply.data s.id db' ∧ ∃ ν, Mirrors db.live s.id db'.drafts reply.data ν := by
  rcases serviceStartIteration_cases hstart with ⟨h201, _⟩ |
    ⟨_, hdata, _, huser, _, drafts, hcopy, rfl⟩
  · rw [hnew] at h201
    cases h201
  obtain ⟨ν, μ, ρ, hc, _⟩ := started_copies hi hcopy
  rw [hdata]
  refine ⟨⟨hi.of_started (Table.contains_iff.mpr ⟨s, hs, rfl⟩) huser hcopy, Nat.lt_succ_self _,
    ?_⟩, ν, mirrors_of_replica (started_replica hi hc)⟩
  intro i hm hid
  rcases List.mem_append.mp hm with hm | hm
  · exact absurd hid (Table.key_ne_next hm)
  · rw [List.mem_singleton.mp hm]
    rfl

/-- Whatever is done between the start of an iteration and its commit, also by commits of
other iterations: the commit makes the live apis mirror the drafts of the iteration. An api
that was not live at the start and that no operation gave to this iteration is not live then,
and an api whose draft no operation touched is live as it was at the start. -/
theorem last_commit_wins {env : Environment} {db db₁ : Database} (hreach : Reachable db)
    {s : Service} (hs : s ∈ db.services.rows) {userId : ℕ} {reply : Reply ℕ}
    (hstart : serviceStartIteration env s.id userId db = .ok (db₁, reply))
    (hnew : reply.status = 200) :
    ∃ ν, Mirrors db.live s.id db₁.drafts reply.data ν ∧
      ∀ (env' : Environment) (db₂ db₃ : Database) (newVersion : String) (committer : ℕ)
        (r : Except Raised (Reply CommitInfo)),
      Runs transaction (fun _ _ => True) db₁ db₂ →
      serviceCommitIteration env' reply.data newVersion committer db₂ = .ok (db₃, r) →
      (∃ ν', Mirrors db₂.drafts reply.data db₃.live s.id ν') ∧
      (∀ method path, (∀ a ∈ db.live.apisOf s.id, ¬ HasKey method path a.fields) →
        Runs transaction (fun d request => ¬ Gives reply.data method path d request) db₁ db₂ →
        ∀ b ∈ db₃.live.apisOf s.id, ¬ HasKey method path b.fields) ∧
      (∀ a ∈ db.live.apisOf s.id,
        Runs transaction (fun _ request => ¬ Touches reply.data (ν a.id) request.operation)
          db₁ db₂ →
        ∃ b ∈ db₃.live.apisOf s.id, uncategorised b.fields = uncategorised a.fields ∧
          (∃ μ, RowsMatch (db.live.requestParamsOf a.id) (db₃.live.requestParamsOf b.id) μ) ∧
          (∃ ρ, RowsMatch (db.live.responseParamsOf a.id) (db₃.live.responseParamsOf b.id) ρ)) := by
  obtain ⟨hopened, ν, hmirror⟩ := started_mirrors (reachable_invariant hreach) hs hstart hnew
  refine ⟨ν, hmirror, ?_⟩
  intro env' db₂ db₃ newVersion committer r hrun hcommit
  have hopened₂ := opened_run hopened hrun
  obtain ⟨i, hm, hid, _, _, _, _, ν', μ', ρ', hreplica⟩ :=
    commit_outcome hopened₂.invariant (serviceCommitIteration_effect hcommit)
  rw [hopened₂.service i hm hid] at hreplica
  have hmirror' := mirrors_of_replica hreplica
  refine ⟨⟨ν', hmirror'⟩, ?_, ?_⟩
  · intro method path hlive hquiet b hb
    have hdrafts : ∀ a ∈ db₁.drafts.apisOf reply.data, ¬ HasKey method path a.fields := by
      intro d hd
      obtain ⟨a, ha, _, hf⟩ := hmirror.preimage hd
      rw [hf]
      exact hlive a ha
    obtain ⟨a, ha, _, hf⟩ := hreplica.preimage hb
    rw [show b.fields = a.fields from hf]
    exact key_stays_away_run hopened hdrafts hquiet a ha
  · intro a ha hquiet
    obtain ⟨d, hd, hdid, hdf, ⟨μ, hμ⟩, ⟨ρ, hρ⟩⟩ := hmirror.image a ha
    rw [← hdid] at hquiet
    have hkept := draft_kept_run hopened hd hquiet
    obtain ⟨x, hx, hxd, hxc, hxf⟩ := hkept.row
    have hxj : x ∈ db₂.drafts.apisOf reply.data :=
      ApiStore.mem_apisOf.mpr ⟨hx, hxc.trans (ApiStore.mem_apisOf.mp hd).2⟩
    obtain ⟨b, hb, _, hbf, ⟨μ₂, hμ₂⟩, ⟨ρ₂, hρ₂⟩⟩ := hmirror'.image x hxj
    rw [hxd, hkept.requests] at hμ₂
    rw [hxd, hkept.responses] at hρ₂
    refine ⟨b, hb, ?_, ⟨_, hμ.trans hμ₂⟩, ⟨_, hρ.trans hρ₂⟩⟩
    rw [hbf, hxf, hdf]

def joined : Database := play published [.serviceAddOrRemoveServiceMaintainerById 1 1 2]

def mine : Database := play joined [.serviceStartIteration 1 1]

def both : Database := play mine [.serviceStartIteration 1 2]

def edited : Database :=
  play both [.apiAddApi 2 1 "find" "GET" "/user" none "P2" none, .apiDeleteApiByApiDraftId 2 2 1]

def overtaken : Database := play edited [.serviceCommitIteration 2 "0.0.3" 1]

def settled : Database := play overtaken [.serviceCommitIteration 3 "0.0.4" 2]

theorem joined_reachable : Reachable joined := published_reachable.play _

theorem mine_reachable : Reachable mine := joined_reachable.play _

theorem both_started :
    serviceStartIteration plainEnvironment publishedService.id 2 mine =
      .ok (both, ⟨200, "Start service iteration success", 3⟩) :=
  played_reply (.serviceStartIteration 1 2) rfl (by decide +kernel)

theorem settled_committed :
    ∃ r, serviceCommitIteration plainEnvironment 3 "0.0.4" 2 overtaken = .ok (settled, r) :=
  played (.serviceCommitIteration 3 "0.0.4" 2) rfl (by decide +kernel)

/-- Only iteration 2 is worked on between the start and the commit of iteration 3. -/
theorem edited_run {guard : Database → Request → Prop}
    (hadd : ∀ d, guard d ⟨plainEnvironment, .apiAddApi 2 1 "find" "GET" "/user" none "P2" none⟩)
    (hdelete : ∀ d, guard d ⟨plainEnvironment, .apiDeleteApiByApiDraftId 2 2 1⟩) :
    Runs transaction guard both edited := by
  refine runs_play (.refl both) _ ?_
  intro operation ho
  simp only [List.mem_cons, List.not_mem_nil, or_false] at ho
  rcases ho with rfl | rfl
  · exact hadd
  · exact hdelete

theorem overtaken_run {guard : Database → Request → Prop}
    (hadd : ∀ d, guard d ⟨plainEnvironment, .apiAddApi 2 1 "find" "GET" "/user" none "P2" none⟩)
    (hdelete : ∀ d, guard d ⟨plainEnvironment, .apiDeleteApiByApiDraftId 2 2 1⟩)
    (hcommit : ∀ d, guard d ⟨plainEnvironment, .serviceCommitIteration 2 "0.0.3" 1⟩) :
    Runs transaction guard both overtaken := by
  refine runs_play (edited_run hadd hdelete) _ ?_
  intro operation ho
  rw [List.mem_singleton.mp ho]
  exact hcommit

/-- The api of user 1 is lost, and the one he deleted is back. -/
theorem overtaken_commit_is_undone :
    (∀ b ∈ settled.live.apisOf publishedService.id, ¬ HasKey .get "/user" b.fields) ∧
      ∃ a ∈ mine.live.apisOf publishedService.id, ∃ b ∈ settled.live.apisOf publishedService.id,
        uncategorised b.fields = uncategorised a.fields ∧
        (∃ μ, RowsMatch (mine.live.requestParamsOf a.id) (settled.live.requestParamsOf b.id) μ) ∧
        (∃ ρ, RowsMatch (mine.live.responseParamsOf a.id)
          (settled.live.responseParamsOf b.id) ρ) := by
  have hservice : publishedService ∈ mine.services.rows := by decide +kernel
  obtain ⟨ν, _, h⟩ := last_commit_wins mine_reachable hservice both_started rfl
  obtain ⟨r, hcommit⟩ := settled_committed
  have hrun : Runs transaction (fun _ _ => True) both overtaken :=
    overtaken_run (fun _ => trivial) (fun _ => trivial) (fun _ => trivial)
  obtain ⟨_, hlost, hback⟩ := h plainEnvironment overtaken settled "0.0.4" 2 r hrun hcommit
  constructor
  · refine hlost .get "/user" ?_ (overtaken_run ?_ ?_ ?_)
    · unfold HasKey
      decide +kernel
    · rintro d ⟨h23, _⟩
      cases h23
    · exact fun _ h => h
    · exact fun _ h => h
  · have hpublished : ∃ a, a ∈ mine.live.apisOf publishedService.id :=
      ⟨⟨1, 1, ⟨1, none, ⟨"list", by decide⟩, .get, ⟨"/users", by decide⟩, none, .p1, true⟩⟩,
        by decide +kernel⟩
    obtain ⟨a, ha⟩ := hpublished
    refine ⟨a, ha, hback a ha (overtaken_run ?_ ?_ ?_)⟩
    · exact fun _ h => h
    · rintro d ⟨h23, _⟩
      cases h23
    · exact fun _ h => h

/-- An api that iteration `i` adds and publishes is live after the commit of an iteration `j`,
opened by another user from the same live version, that never gave its method and path to a
draft. -/
def AddedApisSurvive : Prop :=
  ∀ (env : Environment) (db db₁ db₂ db₃ db₄ db₅ db₆ db₇ : Database) (s : Service)
    (userI userJ : ℕ) (i j : Reply ℕ) (versionI versionJ : String)
    (rI rJ : Except Raised (Reply CommitInfo)) (method : HttpMethod) (path : String),
  Reachable db → s ∈ db.services.rows → userI ≠ userJ →
  serviceStartIteration env s.id userI db = .ok (db₁, i) → i.status = 200 →
  Runs transaction (fun d request => ∀ v, ¬ Publishes d s.id v request.operation) db₁ db₂ →
  serviceStartIteration env s.id userJ db₂ = .ok (db₃, j) → j.status = 200 →
  Runs transaction (fun d request => ¬ Gives j.data method path d request ∧
    ∀ v, ¬ Publishes d s.id v request.operation) db₃ db₄ →
  serviceCommitIteration env i.data versionI userI db₄ = .ok (db₅, rI) →
  (∀ a ∈ db.live.apisOf s.id, ¬ HasKey method path a.fields) →
  (∃ a ∈ db₅.live.apisOf s.id, HasKey method path a.fields) →
  Runs transaction (fun d request => ¬ Gives j.data method path d request) db₅ db₆ →
  serviceCommitIteration env j.data versionJ userJ db₆ = .ok (db₇, rJ) →
  ∃ b ∈ db₇.live.apisOf s.id, HasKey method path b.fields

theorem added_api_is_lost : ¬ AddedApisSurvive := by
  intro h
  have hmine : serviceStartIteration plainEnvironment publishedService.id 1 joined =
      .ok (mine, ⟨200, "Start service iteration success", 2⟩) :=
    played_reply (.serviceStartIteration 1 1) rfl (by decide +kernel)
  have hquiet : Runs transaction (fun d request => ¬ Gives 3 .get "/user" d request ∧
      ∀ v, ¬ Publishes d publishedService.id v request.operation) both edited := by
    refine edited_run ?_ ?_
    · intro d
      constructor
      · rintro ⟨h23, _⟩
        cases h23
      · rintro v ⟨_, _, he, _⟩
        cases he
    · intro d
      constructor
      · exact fun hg => hg
      · rintro v ⟨_, _, he, _⟩
        cases he
  obtain ⟨rI, hfirst⟩ : ∃ r, serviceCommitIteration plainEnvironment 2 "0.0.3" 1 edited =
      .ok (overtaken, r) := played (.serviceCommitIteration 2 "0.0.3" 1) rfl (by decide +kernel)
  obtain ⟨rJ, hsecond⟩ := settled_committed
  have hlive : ∃ b ∈ settled.live.apisOf publishedService.id, HasKey .get "/user" b.fields :=
    h plainEnvironment joined mine mine both edited overtaken overtaken settled publishedService
      1 2 _ _ "0.0.3" "0.0.4" rI rJ .get "/user" joined_reachable (by decide +kernel)
      (by decide) hmine rfl (.refl _) both_started rfl hquiet hfirst
      (by unfold HasKey; decide +kernel) (by unfold HasKey; decide +kernel) (.refl _) hsecond
  have hgone : ∀ b ∈ settled.live.apisOf publishedService.id, ¬ HasKey .get "/user" b.fields := by
    unfold HasKey
    decide +kernel
  obtain ⟨b, hb, hk⟩ := hlive
  exact hgone b hb hk

end ConcurrentIterations
