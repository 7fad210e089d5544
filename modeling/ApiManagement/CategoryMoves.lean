import ApiManagement.ConcurrentIterations

/-! # Category moves

`apiUpdateApiCategory` moves a live api between categories and belongs to no iteration. The
start of an iteration copies the category of every api into its draft, and the commit copies it
back: a move made in between is undone by the commit, unless it ends where the api was. -/
namespace CategoryMoves

open TransactionRuns KeyedTables PythonRuntime ServiceSchema ApiStores StoreCopies
  ServiceOperations ApiOperations OperationRuns OperationEffects StateInvariant IterationCopies
  DraftIsolation DraftWrites WriteRights KeptContent ConcurrentIterations

def cleared (operation : Operation) (category : Option ℕ) : Option ℕ :=
  match operation with
  | .apiDeleteCategoryById k _ => if category = some k then none else category
  | _ => category

def assigned (apiId : ℕ) (operation : Operation) (category : Option ℕ) : Option ℕ :=
  match operation with
  | .apiUpdateApiCategory i k _ =>
    if i = apiId then (if k = -1 then none else some k.toNat) else category
  | _ => cleared operation category

def Moves (apiId : ℕ) (operation : Operation) : Prop :=
  ∃ k userId, operation = .apiUpdateApiCategory apiId k userId

/-- A run remembers of one api the category it had at the start, and the one last assigned to
it; the deletion of a category clears both. -/
structure Tracked where
  db : Database
  copied : Option ℕ
  assigned : Option ℕ

def trackedStep (apiId : ℕ) (v : Tracked) (request : Request) : Tx Tracked := do
  let db ← transaction v.db request
  pure ⟨db, cleared request.operation v.copied, assigned apiId request.operation v.assigned⟩

theorem trackedStep_eq_ok {apiId : ℕ} {v w : Tracked} {request : Request} :
    trackedStep apiId v request = .ok w ↔ ∃ db, transaction v.db request = .ok db ∧
      w = ⟨db, cleared request.operation v.copied,
        assigned apiId request.operation v.assigned⟩ := by
  simp only [trackedStep, bind_eq_ok, pure_eq_ok]
  exact exists_congr fun _ => and_congr_right fun _ => eq_comm

def withCategory (k : Option ℕ) : ApiRow → ApiRow := setCategory (fun _ => k)

theorem assigned_of_not_moves {apiId : ℕ} {operation : Operation} (h : ¬ Moves apiId operation)
    (category : Option ℕ) : assigned apiId operation category = cleared operation category := by
  cases operation with
  | apiUpdateApiCategory i k userId =>
    have hne : i ≠ apiId := by
      rintro rfl
      exact h ⟨k, userId, rfl⟩
    exact if_neg hne
  | _ => rfl

section Step

variable {db db' : Database} {request : Request}

theorem apiUpdateApiCategory_moves {apiId userId : ℕ} {k : ℤ} {r : Reply Unit}
    (h : apiUpdateApiCategory apiId k userId db = .ok (db', r)) :
    db' = { db with
      live := setCategories (assignCategory apiId (if k = -1 then none else some k.toNat))
        db.live } := by
  simp only [apiUpdateApiCategory, bind_eq_ok, orAbort_eq_ok, require_eq_ok,
    Table.find?_eq_some, api_key, service_key] at h
  obtain ⟨a, ⟨_, rfl⟩, _, _, _, _, _, _, _, _, h⟩ := h
  by_cases hk : k = -1
  · rw [if_pos hk, pure_eq_ok] at h
    rw [if_pos hk]
    exact (congrArg Prod.fst h).symm
  · simp only [if_neg hk, bind_eq_ok, orAbort_eq_ok, Table.find?_eq_some, category_key,
      pure_eq_ok] at h
    obtain ⟨c, ⟨_, hid⟩, _, _, h⟩ := h
    rw [if_neg hk, ← hid]
    exact (congrArg Prod.fst h).symm

/-- A draft that is neither edited nor deleted keeps its row but for the deletion of its
category. -/
theorem draft_category_step (hi : Invariant Nests db)
    (he : Effect request.env db request.operation db') {d : ApiDraft}
    (hd : d ∈ db.drafts.apis.rows) (hop : ¬ Touches d.container d.id request.operation) :
    withCategory (cleared request.operation d.fields.categoryId) d ∈ db'.drafts.apis.rows := by
  obtain ⟨env, operation⟩ := request
  cases he with
  | iterationStarted _ _ _ _ _ hcopy =>
    obtain ⟨_, _, _, hc, _⟩ := started_copies hi hcopy
    rw [hc.rows]
    exact List.mem_append_left _ hd
  | @categoryDeleted _ _ c _ hc hid _ _ _ =>
    subst hid
    exact List.mem_map_of_mem hd
  | draftAdded _ _ _ _ _ _ _ _ hins =>
    obtain ⟨_, _, rfl⟩ := insertApi_eq_ok.mp hins
    exact List.mem_append_left _ hd
  | draftCopied _ _ _ _ _ _ _ _ hcopy =>
    obtain ⟨_, _, _, hrows⟩ := copyDraft_spec hi.drafts hcopy
    rw [hrows]
    exact List.mem_append_left _ hd
  | @draftDeleted _ _ _ _ e _ he heid hec =>
    obtain ⟨_, _, hrows⟩ := removeDraft_spec hi.drafts he
    rw [hrows]
    refine List.mem_filter.mpr ⟨hd, ?_⟩
    by_cases hde : d.id = e.id
    · have hsame : e = d := db.drafts.apis.eq_of_key_eq he hd hde.symm
      subst hsame
      exact absurd ⟨hec.symm, heid.symm⟩ hop
    · simpa [withCategory, setCategory] using hde
  | @draftUpdated _ _ _ _ _ _ _ _ _ _ _ e _ _ _ he heid hec _ _ _ _ hrw =>
    obtain ⟨_, _, hrows⟩ := rewriteDraft_spec (nests_joint env) hi.drafts he
      (fun p _ => paramRespects_true p) hrw
    rw [hrows]
    refine List.mem_map.mpr ⟨d, hd, ?_⟩
    by_cases hde : d.id = e.id
    · have hsame : e = d := db.drafts.apis.eq_of_key_eq he hd hde.symm
      subst hsame
      exact absurd ⟨hec.symm, heid.symm⟩ hop
    · exact if_neg hde
  | _ => exact hd

/-- A live api keeps its row until the next commit of its service, but for its category. -/
theorem live_category_step (hi : Invariant Nests db) (ht : transaction db request = .ok db')
    {a : Api} (ha : a ∈ db.live.apis.rows)
    (hop : ∀ version, ¬ Publishes db a.container version request.operation) :
    withCategory (assigned a.id request.operation a.fields.categoryId) a ∈
      db'.live.apis.rows := by
  have he := transaction_effect ht
  obtain ⟨env, operation⟩ := request
  cases he with
  | @iterationCommitted _ newVersion userId i s version live hw hs hsid hne hv hcopy =>
    obtain ⟨j, hj, hid, hsame⟩ := commit_effect_confined hi
      (.iterationCommitted hw hs hsid hne hv hcopy)
    have hother : a.container ≠ j.serviceId := by
      intro hc
      exact hop newVersion ⟨_, userId, rfl, j, hj, hid, hc.symm⟩
    have hm : a ∈ db.live.apis.rows.filter (fun b => b.container != j.serviceId) :=
      List.mem_filter.mpr ⟨ha, by simpa using hother⟩
    rw [← hsame.live.apis] at hm
    exact List.mem_of_mem_filter hm
  | @categoryDeleted _ _ c _ hc hid _ _ _ =>
    subst hid
    exact List.mem_map_of_mem ha
  | @apiCategoryUpdated apiId k userId _ _ _ _ _ _ _ _ _ =>
    obtain ⟨r, h⟩ := map_fst_eq_ok.mp ht
    rw [apiUpdateApiCategory_moves h]
    refine List.mem_map.mpr ⟨a, ha, ?_⟩
    by_cases hid : apiId = a.id
    · subst hid
      simp [withCategory, setCategory, assigned, assignCategory]
    · simp [withCategory, setCategory, assigned, assignCategory, hid, Ne.symm hid]
  | _ => exact ha

end Step

section Runs

variable {j serviceId : ℕ} {db : Database} {v w : Tracked}

/-- The draft is not touched and the service is not published meanwhile. -/
def Undisturbed (j serviceId apiDraftId : ℕ) (v : Tracked) (request : Request) : Prop :=
  ¬ Touches j apiDraftId request.operation ∧
    ∀ version, ¬ Publishes v.db serviceId version request.operation

structure InStep (j serviceId : ℕ) (d : ApiDraft) (a : Api) (v : Tracked) : Prop where
  opened : Opened j serviceId v.db
  draft : withCategory v.copied d ∈ v.db.drafts.apis.rows
  live : withCategory v.assigned a ∈ v.db.live.apis.rows

theorem inStep_step {d : ApiDraft} {a : Api} {request : Request} (hd : d.container = j)
    (ha : a.container = serviceId) (h : InStep j serviceId d a v)
    (hg : Undisturbed j serviceId d.id v request)
    (ht : trackedStep a.id v request = .ok w) : InStep j serviceId d a w := by
  obtain ⟨db', htx, rfl⟩ := trackedStep_eq_ok.mp ht
  subst hd ha
  exact ⟨opened_step h.opened htx,
    draft_category_step h.opened.invariant (transaction_effect htx) h.draft hg.1,
    live_category_step h.opened.invariant htx h.live hg.2⟩

theorem inStep_run {d : ApiDraft} {a : Api} (hd : d.container = j) (ha : a.container = serviceId)
    (h : InStep j serviceId d a v)
    (hr : Runs (trackedStep a.id) (Undisturbed j serviceId d.id) v w) :
    InStep j serviceId d a w :=
  hr.preserves (fun _ _ _ hs hg ht => inStep_step hd ha hs hg ht) h

/-- Without moves, what is copied and what is assigned change alike. -/
theorem copied_eq_assigned_run {apiId : ℕ} {guard : Tracked → Request → Prop}
    (hguard : ∀ v request, guard v request → ¬ Moves apiId request.operation)
    (h : v.copied = v.assigned) (hr : Runs (trackedStep apiId) guard v w) :
    w.copied = w.assigned := by
  refine hr.preserves (I := fun v => v.copied = v.assigned) ?_ h
  intro u request t hu hg ht
  obtain ⟨db', _, rfl⟩ := trackedStep_eq_ok.mp ht
  show cleared request.operation u.copied = assigned apiId request.operation u.assigned
  rw [assigned_of_not_moves (hguard u request hg), hu]

def LiveIn (db : Database) (serviceId : ℕ) (f : ApiFields) (category : Option ℕ) : Prop :=
  ∃ b ∈ db.live.apisOf serviceId, b.fields.method = f.method ∧ b.fields.name = f.name ∧
    b.fields.categoryId = category

/-- After the commit the api is in the category that was copied. -/
theorem liveIn_commit_iff {d : ApiDraft} {a : Api} (hd : d.container = j)
    (h : InStep j serviceId d a v) (hm : d.fields.method = a.fields.method)
    (hn : d.fields.name = a.fields.name) {env : Environment} {db' : Database}
    {newVersion : String} {committer : ℕ} {r : Except Raised (Reply CommitInfo)}
    (hcommit : serviceCommitIteration env j newVersion committer v.db = .ok (db', r))
    (category : Option ℕ) :
    LiveIn db' serviceId a.fields category ↔ v.copied = category := by
  have he := serviceCommitIteration_effect hcommit
  obtain ⟨i, hi, hid, _, _, _, _, ν, μ, ρ, hreplica⟩ := commit_outcome h.opened.invariant he
  rw [h.opened.service i hi hid] at hreplica
  have hdraft : withCategory v.copied d ∈ v.db.drafts.apisOf j :=
    ApiStore.mem_apisOf.mpr ⟨h.draft, hd⟩
  constructor
  · rintro ⟨b, hb, hbm, hbn, hbc⟩
    obtain ⟨e, hej, _, hef⟩ := hreplica.preimage hb
    obtain ⟨hej, hec⟩ := ApiStore.mem_apisOf.mp hej
    have hef : b.fields = e.fields := hef
    rw [hef] at hbm hbn hbc
    have hsame : e = withCategory v.copied d := h.opened.invariant.drafts.key_unique e hej _
      h.draft (hec.trans hd.symm) (hbm.trans hm.symm) (hbn.trans hn.symm)
    rw [hsame] at hbc
    exact hbc
  · rintro rfl
    obtain ⟨b, hb, _, hbf⟩ := hreplica.image_mem hdraft
    have hbf : b.fields = (withCategory v.copied d).fields := hbf
    refine ⟨b, hb, ?_, ?_, ?_⟩
    · rw [hbf]
      exact hm
    · rw [hbf]
      exact hn
    · rw [hbf]
      rfl

end Runs

/-- Let an api be live when an iteration starts, and its draft stay untouched until the commit
of the iteration, with no other commit to the service in between. After the commit the api of
the same method and name is in the category last assigned to it if and only if that is the
one it had at the start; so it is whenever no operation in between moves the api. -/
theorem category_survives_iff {env : Environment} {db db₁ : Database} (hreach : Reachable db)
    {s : Service} (hs : s ∈ db.services.rows) {userId : ℕ} {reply : Reply ℕ}
    (hstart : serviceStartIteration env s.id userId db = .ok (db₁, reply))
    (hnew : reply.status = 200) {a : Api} (ha : a ∈ db.live.apisOf s.id) :
    ∃ d ∈ db₁.drafts.apisOf reply.data, d.fields = a.fields ∧
      ∀ (v : Tracked) (env' : Environment) (db₂ : Database) (newVersion : String)
        (committer : ℕ) (r : Except Raised (Reply CommitInfo)),
      serviceCommitIteration env' reply.data newVersion committer v.db = .ok (db₂, r) →
      (Runs (trackedStep a.id) (Undisturbed reply.data s.id d.id)
          ⟨db₁, a.fields.categoryId, a.fields.categoryId⟩ v →
        (LiveIn db₂ s.id a.fields v.assigned ↔ v.copied = v.assigned)) ∧
      (Runs (trackedStep a.id) (fun u request => Undisturbed reply.data s.id d.id u request ∧
          ¬ Moves a.id request.operation) ⟨db₁, a.fields.categoryId, a.fields.categoryId⟩ v →
        LiveIn db₂ s.id a.fields v.assigned) := by
  obtain ⟨hopened, ν, hmirror⟩ := started_mirrors (reachable_invariant hreach) hs hstart hnew
  obtain ⟨d, hd, _, hdf, _⟩ := hmirror.image a ha
  refine ⟨d, hd, hdf, ?_⟩
  intro v env' db₂ newVersion committer r hcommit
  obtain ⟨hd, hdc⟩ := ApiStore.mem_apisOf.mp hd
  obtain ⟨ha, hac⟩ := ApiStore.mem_apisOf.mp ha
  have hlive : a ∈ db₁.live.apis.rows := by
    rcases serviceStartIteration_cases hstart with ⟨_, rfl, _⟩ | ⟨_, _, _, _, _, _, _, rfl⟩
    · exact ha
    · exact ha
  have hfirst : InStep reply.data s.id d a ⟨db₁, a.fields.categoryId, a.fields.categoryId⟩ := by
    refine ⟨hopened, ?_, hlive⟩
    rw [← hdf]
    exact hd
  have key : Runs (trackedStep a.id) (Undisturbed reply.data s.id d.id)
      ⟨db₁, a.fields.categoryId, a.fields.categoryId⟩ v →
      (LiveIn db₂ s.id a.fields v.assigned ↔ v.copied = v.assigned) := by
    intro hr
    exact liveIn_commit_iff hdc (inStep_run hdc hac hfirst hr) (congrArg ApiFields.method hdf)
      (congrArg ApiFields.name hdf) hcommit v.assigned
  refine ⟨key, ?_⟩
  intro hr
  apply (key (hr.mono fun _ _ hg => hg.1)).mpr
  exact copied_eq_assigned_run (fun _ _ hg => hg.2) rfl hr

def sorted : Database := play published [.apiAddCategoryByServiceId 1 1 "users" none]

def started : Database := play sorted [.serviceStartIteration 1 1]

def moved : Database := play started [.apiUpdateApiCategory 1 1 1]

def undone : Database := play moved [.serviceCommitIteration 2 "0.0.3" 1]

theorem sorted_reachable : Reachable sorted := published_reachable.play _

theorem sorted_started :
    serviceStartIteration plainEnvironment publishedService.id 1 sorted =
      .ok (started, ⟨200, "Start service iteration success", 2⟩) :=
  played_reply (.serviceStartIteration 1 1) rfl (by decide +kernel)

theorem moved_committed :
    ∃ r, serviceCommitIteration plainEnvironment 2 "0.0.3" 1 moved = .ok (undone, r) :=
  played (.serviceCommitIteration 2 "0.0.3" 1) rfl (by decide +kernel)

/-- The api that is live in the published service. -/
theorem sorted_api :
    ∃ a ∈ sorted.live.apisOf publishedService.id, a.id = 1 ∧ a.fields.categoryId = none :=
  ⟨⟨1, 1, ⟨1, none, ⟨"list", by decide⟩, .get, ⟨"/users", by decide⟩, none, .p1, true⟩⟩,
    by decide +kernel⟩

/-- One move, which is not an edit of the iteration and publishes nothing. -/
theorem moved_run {a : Api} (hid : a.id = 1) (hcat : a.fields.categoryId = none)
    (apiDraftId : ℕ) :
    Runs (trackedStep a.id) (Undisturbed 2 publishedService.id apiDraftId)
      ⟨started, a.fields.categoryId, a.fields.categoryId⟩ ⟨moved, none, some 1⟩ := by
  rw [hid, hcat]
  obtain ⟨r, hr⟩ := @played _ started (.apiUpdateApiCategory 1 1 1) _ rfl (by decide +kernel)
  have hmove : trackedStep 1 ⟨started, none, none⟩
      ⟨plainEnvironment, .apiUpdateApiCategory 1 1 1⟩ = .ok ⟨moved, none, some 1⟩ :=
    trackedStep_eq_ok.mpr ⟨moved, map_fst_eq_ok.mpr ⟨r, hr⟩, rfl⟩
  have hguard : Undisturbed 2 publishedService.id apiDraftId ⟨started, none, none⟩
      ⟨plainEnvironment, .apiUpdateApiCategory 1 1 1⟩ := by
    constructor
    · exact fun h => h
    · rintro version ⟨_, _, h, _⟩
      cases h
  have hnone : Runs (trackedStep 1) (Undisturbed 2 publishedService.id apiDraftId)
      ⟨started, none, none⟩ ⟨started, none, none⟩ := .refl _
  have hrun := hnone.tail hguard
  rw [hmove] at hrun
  exact hrun

/-- The move is lost in the commit; the category of an api not moved is kept. -/
theorem moved_api_is_back :
    ∃ a ∈ sorted.live.apisOf publishedService.id,
      ¬ LiveIn undone publishedService.id a.fields (some 1) ∧
      LiveIn (play started [.serviceCommitIteration 2 "0.0.3" 1]) publishedService.id a.fields
        none := by
  obtain ⟨a, ha, hid, hcat⟩ := sorted_api
  obtain ⟨d, _, _, h⟩ :=
    category_survives_iff sorted_reachable (by decide +kernel) sorted_started rfl ha
  obtain ⟨r, hr⟩ := moved_committed
  obtain ⟨q, hq⟩ := @played _ started (.serviceCommitIteration 2 "0.0.3" 1) _ rfl
    (by decide +kernel)
  refine ⟨a, ha, ?_, ?_⟩
  · intro hlive
    have hmoves := h ⟨moved, none, some 1⟩ plainEnvironment undone "0.0.3" 1 r hr
    cases (hmoves.1 (moved_run hid hcat d.id)).mp hlive
  · have hstays := h ⟨started, a.fields.categoryId, a.fields.categoryId⟩ plainEnvironment _
      "0.0.3" 1 q hq
    rw [hcat] at hstays
    exact hstays.2 (.refl _)

/-- Whatever category a live api is last moved to between the start and the commit of an
iteration that leaves it alone, it is there after the commit. -/
def CategoryMovesSurvive : Prop :=
  ∀ (env env' : Environment) (db db₁ db₂ : Database) (s : Service) (a : Api) (d : ApiDraft)
    (userId committer : ℕ) (reply : Reply ℕ) (v : Tracked) (newVersion : String)
    (r : Except Raised (Reply CommitInfo)),
  Reachable db → s ∈ db.services.rows →
  serviceStartIteration env s.id userId db = .ok (db₁, reply) → reply.status = 200 →
  a ∈ db.live.apisOf s.id → d ∈ db₁.drafts.apisOf reply.data →
  d.fields.method = a.fields.method → d.fields.name = a.fields.name →
  Runs (trackedStep a.id) (Undisturbed reply.data s.id d.id)
    ⟨db₁, a.fields.categoryId, a.fields.categoryId⟩ v →
  serviceCommitIteration env' reply.data newVersion committer v.db = .ok (db₂, r) →
  LiveIn db₂ s.id a.fields v.assigned

theorem category_move_is_lost : ¬ CategoryMovesSurvive := by
  intro h
  obtain ⟨a, ha, hid, hcat⟩ := sorted_api
  obtain ⟨_, ν, hmirror⟩ := started_mirrors (reachable_invariant sorted_reachable)
    (by decide +kernel) sorted_started rfl
  obtain ⟨d, hd, _, hdf, _⟩ := hmirror.image a ha
  obtain ⟨r, hr⟩ := moved_committed
  have hlive := h plainEnvironment plainEnvironment sorted started undone publishedService a d 1 1
    _ ⟨moved, none, some 1⟩ "0.0.3" r sorted_reachable (by decide +kernel)
    sorted_started rfl ha hd (congrArg ApiFields.method hdf) (congrArg ApiFields.name hdf)
    (moved_run hid hcat d.id) hr
  have hnone : ∀ b ∈ undone.live.apisOf publishedService.id, b.fields.categoryId = none := by
    decide +kernel
  obtain ⟨b, hb, _, _, hbc⟩ := hlive
  rw [hnone b hb] at hbc
  cases hbc

end CategoryMoves
