import ApiManagement.StateInvariant

/-! # Starting and committing iterations

The start of an iteration is a replica of the live content and its commit a replica of the
drafts. Both succeed from every reachable database; only the description of the service is
not carried along by an unedited iteration. -/
namespace IterationCopies

open TransactionRuns KeyedTables ParentLinkedRows PythonRuntime ServiceSchema ApiStores
  StoreCopies ServiceOperations OperationRuns OperationEffects StateInvariant

structure RowsMatch {F : Type} (source dest : List (LinkedRow F)) (μ : ℕ → ℕ) : Prop where
  bijection : Set.BijOn μ { i | i ∈ source.map LinkedRow.id } { i | i ∈ dest.map LinkedRow.id }
  image : ∀ r ∈ source, ∃ q ∈ dest, q.id = μ r.id ∧ q.fields = r.fields ∧
    q.parent = r.parent.map μ

theorem rowsMatch_of_perm {F : Type} {source dest : List (LinkedRow F)} {μ : ℕ → ℕ} {h : ℕ}
    (hp : dest.Perm (source.map (graft μ h)))
    (hi : Set.InjOn μ { i | i ∈ source.map LinkedRow.id }) : RowsMatch source dest μ := by
  have image : ∀ r ∈ source, graft μ h r ∈ dest :=
    fun r hr => hp.mem_iff.mpr (List.mem_map_of_mem hr)
  refine ⟨⟨?_, hi, ?_⟩, fun r hr => ⟨graft μ h r, image r hr, rfl, rfl, rfl⟩⟩
  · intro i hm
    obtain ⟨r, hr, rfl⟩ := List.mem_map.mp hm
    exact List.mem_map.mpr ⟨graft μ h r, image r hr, rfl⟩
  · intro j hm
    obtain ⟨q, hq, rfl⟩ := List.mem_map.mp hm
    obtain ⟨r, hr, rfl⟩ := List.mem_map.mp (hp.mem_iff.mp hq)
    exact ⟨r.id, List.mem_map_of_mem hr, rfl⟩

theorem RowsMatch.trans {F : Type} {k l m : List (LinkedRow F)} {μ μ' : ℕ → ℕ}
    (h : RowsMatch k l μ) (h' : RowsMatch l m μ') : RowsMatch k m (μ' ∘ μ) := by
  refine ⟨h'.bijection.comp h.bijection, ?_⟩
  intro r hr
  obtain ⟨q, hq, hid, hf, hp⟩ := h.image r hr
  obtain ⟨x, hx, hxid, hxf, hxp⟩ := h'.image q hq
  refine ⟨x, hx, ?_, hxf.trans hf, ?_⟩
  · rw [hxid, hid]
    rfl
  · rw [hxp, hp, Option.map_map]

/-- The container `d` of `dest` mirrors the container `c` of `source`: a bijection between
the apis, and for each pair of apis one between the params of either kind. -/
structure Mirrors (source : ApiStore) (c : ℕ) (dest : ApiStore) (d : ℕ) (ν : ℕ → ℕ) : Prop where
  bijection : Set.BijOn ν { i | i ∈ (source.apisOf c).map ApiRow.id }
    { i | i ∈ (dest.apisOf d).map ApiRow.id }
  image : ∀ a ∈ source.apisOf c, ∃ b ∈ dest.apisOf d, b.id = ν a.id ∧ b.fields = a.fields ∧
    (∃ μ, RowsMatch (source.requestParamsOf a.id) (dest.requestParamsOf b.id) μ) ∧
    (∃ ρ, RowsMatch (source.responseParamsOf a.id) (dest.responseParamsOf b.id) ρ)

theorem Mirrors.preimage {source dest : ApiStore} {c d : ℕ} {ν : ℕ → ℕ}
    (h : Mirrors source c dest d ν) {b : ApiRow} (hb : b ∈ dest.apisOf d) :
    ∃ a ∈ source.apisOf c, b.id = ν a.id ∧ b.fields = a.fields := by
  obtain ⟨i, hi, hib⟩ := h.bijection.surjOn (List.mem_map_of_mem (f := ApiRow.id) hb)
  obtain ⟨a, ha, rfl⟩ := List.mem_map.mp hi
  obtain ⟨b', hb', hid, hf, _⟩ := h.image a ha
  have hbb : b' = b := dest.apis.eq_of_key_eq (ApiStore.mem_apisOf.mp hb').1
    (ApiStore.mem_apisOf.mp hb).1 (hid.trans hib)
  subst hbb
  exact ⟨a, ha, hid, hf⟩

theorem mirrors_of_replica {source dest : ApiStore} {c d : ℕ} {ν : ℕ → ℕ} {μ ρ : ℕ → ℕ → ℕ}
    (h : Replica id source c dest d ν μ ρ) : Mirrors source c dest d ν := by
  refine ⟨⟨?_, h.api_inj, ?_⟩, ?_⟩
  · intro i hm
    obtain ⟨a, ha, rfl⟩ := List.mem_map.mp hm
    obtain ⟨b, hb, hid, _⟩ := h.image_mem ha
    exact List.mem_map.mpr ⟨b, hb, hid⟩
  · intro j hm
    obtain ⟨b, hb, rfl⟩ := List.mem_map.mp hm
    obtain ⟨a, ha, hid, _⟩ := h.preimage hb
    exact ⟨a.id, List.mem_map_of_mem ha, hid.symm⟩
  · intro a ha
    obtain ⟨b, hb, hid, hf⟩ := h.image_mem ha
    refine ⟨b, hb, hid, hf, ⟨μ a.id, ?_⟩, ⟨ρ a.id, ?_⟩⟩
    · rw [hid]
      exact rowsMatch_of_perm (h.requests a ha) (h.request_inj a ha)
    · rw [hid]
      exact rowsMatch_of_perm (h.responses a ha) (h.response_inj a ha)

section Start

variable {link : RequestFields → RequestFields → Prop} {db : Database}

theorem started_replica (hi : Invariant link db) {env : Environment} {serviceId : ℕ}
    {drafts : ApiStore} {ν : ℕ → ℕ} {μ ρ : ℕ → ℕ → ℕ}
    (hc : CopiedApis db.live db.iterations.next (env.fetch (db.live.apisOf serviceId)) db.drafts
      drafts ν μ ρ) : Replica id db.live serviceId drafts db.iterations.next ν μ ρ := by
  refine hc.replica (env.fetch_perm _) (fun _ _ => rfl) (fun _ _ => rfl) ?_
  rw [ApiStore.apisOf, List.filter_eq_nil_iff]
  intro a ha
  simpa using no_draft_of_new_iteration hi a ha

structure OnlyAdds (db db' : Database) : Prop where
  users : db'.users = db.users
  services : db'.services = db.services
  links : db'.userServiceLink = db.userServiceLink
  categories : db'.categories = db.categories
  live : db'.live = db.live
  iterations : db.iterations.rows <+: db'.iterations.rows
  drafts : db.drafts.apis.rows <+: db'.drafts.apis.rows
  requests : db.drafts.requestParams.rows <+: db'.drafts.requestParams.rows
  responses : db.drafts.responseParams.rows <+: db'.drafts.responseParams.rows

theorem contains_of_maintainerRight (hi : Invariant link db) {s : Service}
    (hs : s ∈ db.services.rows) {userId : ℕ} (hr : MaintainerRight db s userId) :
    db.users.contains userId = true := by
  rcases hr with hr | hr | ⟨u, hu, hid, _⟩
  · exact hr ▸ hi.service_owner s hs
  · exact hr.1
  · exact Table.contains_iff.mpr ⟨u, hu, hid⟩

theorem start_succeeds (hi : Invariant link db) (env : Environment) {s : Service}
    (hs : s ∈ db.services.rows) {userId : ℕ} (hr : MaintainerRight db s userId)
    (hopen : openIterations db s.id userId = []) :
    ∃ drafts ν μ ρ,
      serviceStartIteration env s.id userId db =
        .ok ({ insertIteration s.id userId db with drafts := drafts },
          ⟨200, "Start service iteration success", db.iterations.next⟩) ∧
      CopiedApis db.live db.iterations.next (env.fetch (db.live.apisOf s.id)) db.drafts drafts
        ν μ ρ := by
  obtain ⟨drafts, ν, μ, ρ, hcopy, hc, _⟩ := start_copies hi env s.id userId
  refine ⟨drafts, ν, μ, ρ, ?_, hc⟩
  have hfind : db.services.find? s.id = some s := Table.find?_eq_some.mpr ⟨hs, rfl⟩
  have hexists : db.services.contains s.id = true := Table.contains_iff.mpr ⟨s, hs, rfl⟩
  have huser := contains_of_maintainerRight hi hs hr
  have hnone : (env.fetch (openIterations db s.id userId)).head? = none := by
    have hp := env.fetch_perm (openIterations db s.id userId)
    rw [hopen] at hp ⊢
    rw [hp.eq_nil]
    rfl
  simp only [serviceStartIteration, startNewIteration, bind_eq_ok, orAbort_eq_ok,
    requireMaintainer_eq_ok]
  refine ⟨s, hfind, (), hr, ?_⟩
  simp only [hnone, bind_eq_ok, require_eq_ok, Bool.and_eq_true, pure_eq_ok]
  exact ⟨_, ⟨(), ⟨hexists, huser⟩, drafts, hcopy, rfl⟩, rfl⟩

/-- Starting an iteration takes a faithful snapshot of the service and changes nothing that
was there. -/
theorem start_takes_faithful_snapshot (env : Environment) (hreach : Reachable db) {s : Service}
    (hs : s ∈ db.services.rows) {userId : ℕ} (hr : MaintainerRight db s userId)
    (hopen : openIterations db s.id userId = []) :
    ∃ db' ν, serviceStartIteration env s.id userId db =
        .ok (db', ⟨200, "Start service iteration success", db.iterations.next⟩) ∧
      db'.iterations.find? db.iterations.next =
        some ⟨db.iterations.next, s.id, some userId, none, none, false⟩ ∧
      Mirrors db.live s.id db'.drafts db.iterations.next ν ∧ OnlyAdds db db' := by
  have hi := reachable_invariant hreach
  obtain ⟨drafts, ν, μ, ρ, hstart, hc⟩ := start_succeeds hi env hs hr hopen
  refine ⟨_, ν, hstart, ?_, mirrors_of_replica (started_replica hi hc), ?_⟩
  · exact Table.find?_eq_some.mpr ⟨List.mem_append_right _ List.mem_cons_self, rfl⟩
  · obtain ⟨newRequests, hreq, _⟩ := hc.old_requests
    obtain ⟨newResponses, hresp, _⟩ := hc.old_responses
    exact ⟨rfl, rfl, rfl, rfl, rfl, List.prefix_append _ _, hc.rows ▸ List.prefix_append _ _,
      hreq ▸ List.prefix_append _ _, hresp ▸ List.prefix_append _ _⟩

end Start

theorem start_of_published_snapshot :
    ∃ db' ν, serviceStartIteration plainEnvironment 1 1 published =
        .ok (db', ⟨200, "Start service iteration success", published.iterations.next⟩) ∧
      db'.iterations.find? published.iterations.next =
        some ⟨published.iterations.next, 1, some 1, none, none, false⟩ ∧
      Mirrors published.live 1 db'.drafts published.iterations.next ν ∧ OnlyAdds published db' :=
  start_takes_faithful_snapshot plainEnvironment published_reachable
    publishedService_mem (Or.inl rfl) (by decide +kernel)

section Commit

variable {link : RequestFields → RequestFields → Prop} {db : Database}

theorem committed_replica {env : Environment} {iterationId serviceId : ℕ} {live : ApiStore}
    {ν : ℕ → ℕ} {μ ρ : ℕ → ℕ → ℕ}
    (hc : CopiedApis db.drafts serviceId (env.fetch (db.drafts.apisOf iterationId))
      (cleared db serviceId) live ν μ ρ) :
    Replica id db.drafts iterationId live serviceId ν μ ρ := by
  refine hc.replica (env.fetch_perm _) (fun _ _ => rfl) (fun _ _ => rfl) ?_
  rw [ApiStore.apisOf, List.filter_eq_nil_iff]
  intro a ha
  simpa using (cleared_container.mp ha).2

/-- The database part of a commit completes whenever the permission check passes and the new
version fits its column. -/
theorem commit_completes (env : Environment) (hreach : Reachable db) {iterationId userId : ℕ}
    {i : ServiceIteration} {user : Option User}
    (hcheck : checkServiceIterationPermission db iterationId userId = .ok (i, user))
    {s : Service} (hs : s ∈ db.services.rows) (hsid : s.id = i.serviceId) {newVersion : String}
    (hne : newVersion ≠ s.version.val) (hlen : newVersion.length ≤ 32) :
    ∃ db', commitDatabase env i s newVersion db = .ok db' ∧
      ∃ r, serviceCommitIteration env iterationId newVersion userId db = .ok (db', r) := by
  have hi := reachable_invariant hreach
  have hw := (checkServiceIterationPermission_eq_ok.mp hcheck).1
  obtain ⟨live, ν, μ, ρ, hcopy, _⟩ := commit_copies hi env hw.mem
  rw [← hsid] at hcopy
  have hversion : VarChar.ofString 32 newVersion = some ⟨newVersion, hlen⟩ :=
    VarChar.ofString_eq_some.mpr rfl
  have hcommit : commitDatabase env i s newVersion db = .ok { db with
      services := db.services.update s.id (publish i.description ⟨newVersion, hlen⟩)
        (fun _ => rfl)
      iterations := db.iterations.update i.id (markCommitted ⟨newVersion, hlen⟩) (fun _ => rfl)
      live := live } := by
    simp only [commitDatabase, bind_eq_ok, bound_eq_ok, pure_eq_ok]
    exact ⟨⟨newVersion, hlen⟩, hversion, live, hcopy, rfl⟩
  refine ⟨_, hcommit, ?_⟩
  simp only [serviceCommitIteration, bind_eq_ok, asCheckResult_eq_ok, orAbort_eq_ok,
    require_eq_ok, pure_eq_ok]
  exact ⟨_, (i, user), hcheck, s, Table.find?_eq_some.mpr ⟨hs, hsid⟩, (), by simpa using hne, _,
    hcommit, rfl⟩

end Commit

def secondIteration : ServiceIteration := ⟨2, 1, some 1, none, none, false⟩

theorem opened_right : WorkRight opened 2 1 secondIteration :=
  ⟨by decide +kernel, rfl, rfl, publishedService, by decide +kernel, rfl, Or.inl rfl⟩

theorem commit_of_second_iteration_completes :
    ∃ db', commitDatabase plainEnvironment secondIteration publishedService "0.0.3"
        opened = .ok db' ∧
      ∃ r, serviceCommitIteration plainEnvironment 2 "0.0.3" 1 opened = .ok (db', r) :=
  commit_completes plainEnvironment opened_reachable
    (checkServiceIterationPermission_eq_ok.mpr
      ⟨⟨by decide +kernel, rfl, rfl, publishedService, by decide +kernel, rfl, Or.inl rfl⟩, rfl⟩)
    (by decide +kernel) rfl (by decide +kernel) (by decide +kernel)

section Unedited

variable {db : Database}

/-- The service keeps its description, and its live apis are a replica of the old ones. -/
structure SameLiveContent (db db' : Database) (serviceId : ℕ) : Prop where
  description : (db'.services.find? serviceId).map Service.description =
    (db.services.find? serviceId).map Service.description
  apis : Snapshot id db.live serviceId db'.live serviceId

/-- Starting an iteration and committing it unedited reproduces the live apis; the service
keeps its description exactly if it had none, because the new iteration starts without one. -/
theorem unedited_iteration_keeps_content_iff {env env' : Environment} (hreach : Reachable db)
    {s : Service} (hs : s ∈ db.services.rows) {userId committer : ℕ} {db₁ db₂ : Database}
    {reply : Reply ℕ} {newVersion : String} {r : Except Raised (Reply CommitInfo)}
    (hstart : serviceStartIteration env s.id userId db = .ok (db₁, reply))
    (hnew : reply.status = 200)
    (hcommit : serviceCommitIteration env' reply.data newVersion committer db₁ = .ok (db₂, r)) :
    (SameLiveContent db db₂ s.id ↔ s.description = none) ∧
      Snapshot id db.live s.id db₂.live s.id ∧
      ∃ version : VarChar 32, version.val = newVersion ∧
        db₂.services.find? s.id = some { s with description := none, version := version } := by
  have hi := reachable_invariant hreach
  have hfind : db.services.find? s.id = some s := Table.find?_eq_some.mpr ⟨hs, rfl⟩
  rcases serviceStartIteration_cases hstart with ⟨h201, _⟩ |
    ⟨_, hdata, _, huser, _, drafts, hcopy, rfl⟩
  · rw [hnew] at h201
    cases h201
  obtain ⟨ν, μ, ρ, hc, _⟩ := started_copies hi hcopy
  have hi₁ := hi.of_started (Table.contains_iff.mpr ⟨s, hs, rfl⟩) huser hcopy
  have hsnap₁ : Snapshot id db.live s.id drafts db.iterations.next :=
    ⟨ν, μ, ρ, started_replica hi hc⟩
  have heffect := serviceCommitIteration_effect hcommit
  rw [hdata] at heffect
  cases heffect with
  | @iterationCommitted _ _ _ i t version live hw ht htid _ hversion hlive =>
    have hnewest : i = ⟨db.iterations.next, s.id, some userId, none, none, false⟩ :=
      Table.eq_of_key_eq _ hw.mem (List.mem_append_right _ List.mem_cons_self) hw.id
    subst i
    have hts : t = s := db.services.eq_of_key_eq ht hs htid
    subst t
    obtain ⟨ν', μ', ρ', hc', _⟩ := committed_copies hi₁ hw.mem hlive
    have hsnap : Snapshot id db.live s.id live s.id :=
      hsnap₁.trans ⟨ν', μ', ρ', committed_replica hc'⟩
    have hservice : (db.services.update s.id (publish none version) (fun _ => rfl)).find? s.id =
        some { s with description := none, version := version } :=
      Table.find?_update (f := publish none version) _ (fun _ => rfl) hfind
    refine ⟨⟨?_, ?_⟩, hsnap, version, hversion, hservice⟩
    · intro h
      have he := (congrArg (Option.map Service.description) hservice).symm.trans h.description
      rw [hfind, Option.map_some, Option.map_some, Option.some_inj] at he
      exact he.symm
    · intro h
      refine ⟨(congrArg (Option.map Service.description) hservice).trans ?_, hsnap⟩
      rw [hfind, Option.map_some, Option.map_some, h]

end Unedited

theorem second_start_creates :
    serviceStartIteration plainEnvironment publishedService.id 1 published =
      .ok (opened, ⟨200, "Start service iteration success", 2⟩) :=
  played_reply (.serviceStartIteration 1 1) rfl (by decide +kernel)

theorem second_commit_succeeds :
    ∃ r, serviceCommitIteration plainEnvironment 2 "0.0.3" 1 opened =
      .ok (play opened [.serviceCommitIteration 2 "0.0.3" 1], r) :=
  played (.serviceCommitIteration 2 "0.0.3" 1) rfl (by decide +kernel)

/-- The description of the published service is lost. -/
theorem unedited_iteration_erases_description :
    ¬ ∀ (env env' : Environment) (db db₁ db₂ : Database) (s : Service) (userId committer : ℕ)
        (reply : Reply ℕ) (newVersion : String) (r : Except Raised (Reply CommitInfo)),
      Reachable db → s ∈ db.services.rows →
      serviceStartIteration env s.id userId db = .ok (db₁, reply) → reply.status = 200 →
      serviceCommitIteration env' reply.data newVersion committer db₁ = .ok (db₂, r) →
      SameLiveContent db db₂ s.id := by
  intro h
  obtain ⟨r, hcommit⟩ := second_commit_succeeds
  have hsame := h plainEnvironment plainEnvironment published _ _ publishedService 1 1 _
    "0.0.3" r published_reachable publishedService_mem second_start_creates rfl hcommit
  have hlost : ((play opened [.serviceCommitIteration 2 "0.0.3" 1]).services.find? 1).map
      Service.description = some none := by decide +kernel
  have hkept : (published.services.find? 1).map Service.description = some (some "core") := by
    decide +kernel
  have := hlost.symm.trans (hsame.description.trans hkept)
  cases this

theorem unedited_iteration_of_published :
    ∃ db₂, ¬ SameLiveContent published db₂ 1 ∧ Snapshot id published.live 1 db₂.live 1 := by
  obtain ⟨r, hcommit⟩ := second_commit_succeeds
  obtain ⟨hiff, hsnap, _⟩ := unedited_iteration_keeps_content_iff published_reachable
    publishedService_mem second_start_creates rfl hcommit
  refine ⟨_, ?_, hsnap⟩
  intro hs
  cases hiff.mp hs

end IterationCopies
