import ApiManagement.HiddenContents
import ApiManagement.ReadOperations

/-! # What an outsider reads

A user who is neither the owner nor a maintainer of a service, has created none of its iterations
and is not of level 0, and two databases that differ in the contents of the service. Every handler
checks the rights on columns that agree, and what is read after the check belongs to other
services. -/
namespace OutsiderReads

open TransactionRuns KeyedTables PythonRuntime ServiceSchema ApiStores UserOperations
  ServiceOperations ApiOperations OpenapiExport OperationRuns StateInvariant PairedOutcomes
  HiddenContents ReadOperations

structure Outsider (db : Database) (service : Service) (userId : ℕ) : Prop where
  level : ¬ AtLevelZero db userId
  owner : service.ownerId ≠ userId
  maintainer : ¬ Maintains db userId service.id
  creator : ∀ i ∈ db.iterations.rows, i.serviceId = service.id → i.creatorId ≠ some userId

/-- Two databases that differ in what the user must not see. -/
structure Unseen (db₁ db₂ : Database) (service : Service) (userId : ℕ) : Prop where
  inv₁ : Invariant Nests db₁
  inv₂ : Invariant Nests db₂
  mem : service ∈ db₁.services.rows
  same : SameButContents service.id db₁ db₂
  outsider : Outsider db₁ service userId

structure WorkedOn (db : Database) (service : Service) (iterationId : ℕ)
    (p q : ServiceIteration × Option User) : Prop where
  same : p = q
  mem : p.1 ∈ db.iterations.rows
  id : p.1.id = iterationId
  elsewhere : p.1.serviceId ≠ service.id

theorem WorkedOn.not_secret {db : Database} {service : Service} {iterationId : ℕ}
    {p q : ServiceIteration × Option User} (hw : WorkedOn db service iterationId p q) :
    ¬ IterationOf db service.id iterationId :=
  hw.id ▸ not_iterationOf hw.mem hw.elsewhere

structure EditedDraft (db : Database) (service : Service) (iterationId : ℕ) (d d' : ApiDraft) :
    Prop where
  same : d = d'
  mem : d ∈ db.drafts.apis.rows
  container : d.container = iterationId
  elsewhere : ¬ IterationOf db service.id iterationId

section Checks

variable {db₁ db₂ : Database} {service : Service} {u : ℕ} (k : Unseen db₁ db₂ service u)

include k

theorem right_elsewhere {s : Service} (hs : s ∈ db₁.services.rows)
    (hr : MaintainerRight db₁ s u) : s.id ≠ service.id := by
  intro hid
  obtain rfl := db₁.services.eq_of_key_eq hs k.mem hid
  rcases hr with hr | hr | hr
  · exact k.outsider.owner hr
  · exact k.outsider.maintainer hr
  · exact k.outsider.level hr

theorem iteration_elsewhere {s : Service} {i : ServiceIteration} (hi : i ∈ db₁.iterations.rows)
    (hs : s ∈ db₁.services.rows) (hsi : s.id = i.serviceId) (hr : CreatorRight db₁ s i u) :
    i.serviceId ≠ service.id := by
  intro hid
  obtain rfl := db₁.services.eq_of_key_eq hs k.mem (hsi.trans hid)
  rcases hr with hr | hr | hr
  · exact k.outsider.owner hr
  · exact k.outsider.creator i hi hid hr
  · exact k.outsider.level hr

/-- The handlers that begin with the check for the owner. -/
theorem owner_checked {α β : Type} {S : α → β → Prop} {f : Service → Tx α} {g : Service → Tx β}
    (serviceId : ℕ) (e e' : Abort)
    (hfg : ∀ s ∈ db₁.services.rows, s.id = serviceId → s.id ≠ service.id →
      Lockstep S (f s) (g s)) :
    Lockstep S
      (orAbort (db₁.services.find? serviceId) e >>= fun s =>
        requireLevelZeroIf (s.ownerId != u) (db₁.users.find? u) e' >>= fun _ => f s)
      (orAbort (db₂.services.find? serviceId) e >>= fun s =>
        requireLevelZeroIf (s.ownerId != u) (db₂.users.find? u) e' >>= fun _ => g s) := by
  refine (k.same.services.find serviceId e).bind ?_
  intro s t hst
  rw [← owner_eq hst.shown, ← k.same.users]
  refine Lockstep.bind_same _ (fun _ hr => ?_)
  have hright : OwnerRight db₁ s u := requireOwner_eq_ok.mp hr
  have helse := right_elsewhere k hst.mem hright.maintainer
  rw [← hst.same helse]
  exact hfg s hst.mem hst.key helse

theorem maintainer_checked {α β : Type} {S : α → β → Prop} {f : Service → Tx α}
    {g : Service → Tx β} (serviceId : ℕ) (e e' : Abort)
    (hfg : ∀ s ∈ db₁.services.rows, s.id = serviceId → MaintainerRight db₁ s u →
      s.id ≠ service.id → Lockstep S (f s) (g s)) :
    Lockstep S
      (orAbort (db₁.services.find? serviceId) e >>= fun s =>
        requireLevelZeroIf (s.ownerId != u && !isMaintainer db₁ s.id (db₁.users.find? u))
          (db₁.users.find? u) e' >>= fun _ => f s)
      (orAbort (db₂.services.find? serviceId) e >>= fun s =>
        requireLevelZeroIf (s.ownerId != u && !isMaintainer db₂ s.id (db₂.users.find? u))
          (db₂.users.find? u) e' >>= fun _ => g s) := by
  refine (k.same.services.find serviceId e).bind ?_
  intro s t hst
  have hid : s.id = t.id := hst.key_eq
  rw [← owner_eq hst.shown, ← hid, ← k.same.users, ← k.same.isMaintainer]
  refine Lockstep.bind_same _ (fun _ hr => ?_)
  have hright : MaintainerRight db₁ s u := requireMaintainer_eq_ok.mp hr
  have helse := right_elsewhere k hst.mem hright
  rw [← hst.same helse]
  exact hfg s hst.mem hst.key hright helse

theorem checkServiceIterationPermission_lockstep (iterationId : ℕ) :
    Lockstep (WorkedOn db₁ service iterationId)
      (checkServiceIterationPermission db₁ iterationId u)
      (checkServiceIterationPermission db₂ iterationId u) := by
  unfold checkServiceIterationPermission
  refine (k.same.iterations.find iterationId _).bind ?_
  intro i j hij
  rw [← committed_eq hij.shown, ← service_eq hij.shown, ← creator_eq hij.shown,
    ← k.same.users]
  refine Lockstep.bind_same _ (fun _ _ => ?_)
  refine Lockstep.bind_same _ (fun _ _ => ?_)
  refine (k.same.services.find _ _).bind ?_
  intro s t hst
  rw [← owner_eq hst.shown]
  refine Lockstep.bind_same _ (fun _ hr => ?_)
  have helse := iteration_elsewhere k hij.mem hst.mem hst.key (requireCreator_eq_ok.mp hr)
  rw [← hij.same helse]
  exact .ok ⟨rfl, hij.mem, hij.key, helse⟩

theorem draftOfIteration_lockstep (iterationId apiDraftId : ℕ) :
    Lockstep (EditedDraft db₁ service iterationId)
      (draftOfIteration db₁ iterationId apiDraftId u)
      (draftOfIteration db₂ iterationId apiDraftId u) := by
  unfold draftOfIteration
  refine (checkServiceIterationPermission_lockstep k iterationId).bind ?_
  intro p q hw
  refine (k.same.drafts.apis.find apiDraftId _).bind ?_
  intro a b hab
  rw [← container_eq hab.shown]
  refine Lockstep.bind_same _ (fun _ hc => ?_)
  have hcontainer : a.container = iterationId := beq_iff_eq.mp (require_eq_ok.mp hc)
  have helse := hw.not_secret
  rw [← hab.same (hcontainer ▸ helse)]
  exact .ok ⟨rfl, hab.mem, hcontainer, helse⟩

end Checks

section Users

variable {db₁ db₂ : Database} {service : Service} {u : ℕ} (k : Unseen db₁ db₂ service u)
  (out : Surroundings)

include k

theorem userGetUserById_same (id : ℕ) : userGetUserById id db₁ = userGetUserById id db₂ := by
  unfold userGetUserById
  rw [k.same.users]

theorem userGetUserByUsernameOrNicknameOrEmail_same (keyword : String) :
    userGetUserByUsernameOrNicknameOrEmail out keyword db₁ =
      userGetUserByUsernameOrNicknameOrEmail out keyword db₂ := by
  unfold userGetUserByUsernameOrNicknameOrEmail
  rw [k.same.users]

theorem userLogin_same (username password : String) :
    userLogin out username password db₁ = userLogin out username password db₂ := by
  unfold userLogin
  rw [k.same.users]

end Users

section Services

variable {db₁ db₂ : Database} {service : Service} {u : ℕ} (k : Unseen db₁ db₂ service u)
  (env : Environment)

include k

theorem serviceGetServiceById_same (id : ℕ) :
    serviceGetServiceById env id u db₁ = serviceGetServiceById env id u db₂ := by
  apply Lockstep.eq
  unfold serviceGetServiceById
  refine owner_checked k id _ _ ?_
  intro s _ _ helse
  rw [serviceToJson_eq k.same env helse]
  exact .of_eq rfl

theorem serviceIsMaintainer_same (serviceId candidateId : ℕ) :
    serviceIsMaintainer serviceId u candidateId db₁ =
      serviceIsMaintainer serviceId u candidateId db₂ := by
  apply Lockstep.eq
  unfold serviceIsMaintainer
  refine owner_checked k serviceId _ _ ?_
  intro s _ _ _
  rw [k.same.users, k.same.isMaintainer]
  exact .of_eq rfl

theorem serviceGetAllServices_same (pageSize currentPage : ℤ) :
    serviceGetAllServices u pageSize currentPage db₁ =
      serviceGetAllServices u pageSize currentPage db₂ := by
  apply Lockstep.eq
  unfold serviceGetAllServices
  rw [← k.same.users]
  refine Lockstep.bind_same _ (fun _ hr => ?_)
  have hlevel := levelZero_find?.mp (requireLevelZeroIf_eq_ok.mp hr rfl)
  exact absurd hlevel k.outsider.level

theorem serviceEntry_same (withOwner withDeletedAt : Bool) :
    serviceEntry withOwner withDeletedAt db₁ = serviceEntry withOwner withDeletedAt db₂ := by
  funext s
  unfold serviceEntry
  rw [k.same.users]

/-- Nobody but a user of level 0 asks for the services of another one. -/
theorem requireSelfOrLevelZero_checked {α β : Type} {S : α → β → Prop} {f : Tx α} {g : Tx β}
    (userId : ℕ) (e : Abort) (hfg : userId = u → Lockstep S f g) :
    Lockstep S (requireSelfOrLevelZero db₁ userId u e >>= fun _ => f)
      (requireSelfOrLevelZero db₂ userId u e >>= fun _ => g) := by
  have hsame : requireSelfOrLevelZero db₁ userId u e = requireSelfOrLevelZero db₂ userId u e := by
    unfold requireSelfOrLevelZero
    rw [k.same.users]
  rw [← hsame]
  refine Lockstep.bind_same _ (fun _ hr => ?_)
  apply hfg
  simp only [requireSelfOrLevelZero, bind_eq_ok, orAbort_eq_ok, require_eq_ok, Bool.not_eq_true',
    Bool.and_eq_false_iff, bne_eq_false_iff_eq] at hr
  obtain ⟨v, hv, hl | hself⟩ := hr
  · exact absurd (levelZero_find?.mp ⟨v, hv, hl⟩) k.outsider.level
  · exact hself

/-- Services of a given owner. -/
theorem owned_same {p : Service → Bool}
    (hp : ∀ s t, serviceColumns.shown s = serviceColumns.shown t → p s = p t)
    (howner : ∀ s, p s = true → s.ownerId = u) :
    db₁.services.rows.filter p = db₂.services.rows.filter p := by
  refine k.same.services.filter_eq hp ?_
  intro s hs hps hid
  obtain rfl := db₁.services.eq_of_key_eq hs k.mem hid
  exact k.outsider.owner (howner _ hps)

theorem serviceGetHisNewestServicesByOwnerId_same (ownerId : ℕ) (pageSize currentPage : ℤ) :
    serviceGetHisNewestServicesByOwnerId ownerId u pageSize currentPage db₁ =
      serviceGetHisNewestServicesByOwnerId ownerId u pageSize currentPage db₂ := by
  apply Lockstep.eq
  unfold serviceGetHisNewestServicesByOwnerId
  refine requireSelfOrLevelZero_checked k ownerId _ ?_
  rintro rfl
  have howned : db₁.services.rows.filter (fun s => !s.isDeleted && s.ownerId == ownerId) =
      db₂.services.rows.filter (fun s => !s.isDeleted && s.ownerId == ownerId) := by
    refine owned_same k ?_ ?_
    · intro s t hst
      rw [isDeleted_eq hst, owner_eq hst]
    · intro s hs
      exact beq_iff_eq.mp (Bool.and_eq_true_iff.mp hs).2
  rw [howned, serviceEntry_same k]
  exact .of_eq rfl

theorem serviceGetAllDeletedServicesByUserId_same (pageSize currentPage : ℤ) :
    serviceGetAllDeletedServicesByUserId env u pageSize currentPage db₁ =
      serviceGetAllDeletedServicesByUserId env u pageSize currentPage db₂ := by
  have hdeleted : db₁.services.rows.filter (fun s => s.isDeleted && s.ownerId == u) =
      db₂.services.rows.filter (fun s => s.isDeleted && s.ownerId == u) := by
    refine owned_same k ?_ ?_
    · intro s t hst
      rw [isDeleted_eq hst, owner_eq hst]
    · intro s hs
      exact beq_iff_eq.mp (Bool.and_eq_true_iff.mp hs).2
  unfold serviceGetAllDeletedServicesByUserId
  rw [hdeleted, serviceEntry_same k]

theorem serviceGetHisMaintainedServicesByUserId_same (userId : ℕ) (pageSize currentPage : ℤ) :
    serviceGetHisMaintainedServicesByUserId userId u pageSize currentPage db₁ =
      serviceGetHisMaintainedServicesByUserId userId u pageSize currentPage db₂ := by
  apply Lockstep.eq
  unfold serviceGetHisMaintainedServicesByUserId
  refine requireSelfOrLevelZero_checked k userId _ ?_
  rintro rfl
  rw [← k.same.maintainers]
  have hmaintained : db₁.services.rows.filter (fun s =>
        !s.isDeleted && (maintainers db₁ s.id).any (fun v => v.id == userId)) =
      db₂.services.rows.filter (fun s =>
        !s.isDeleted && (maintainers db₁ s.id).any (fun v => v.id == userId)) := by
    refine k.same.services.filter_eq ?_ ?_
    · intro s t hst
      have hid : s.id = t.id := serviceColumns.key_eq hst
      rw [isDeleted_eq hst, hid]
    · intro s _ hps hid
      obtain ⟨v, hv, hvu⟩ := List.any_eq_true.mp (Bool.and_eq_true_iff.mp hps).2
      obtain ⟨hv, hlink⟩ := List.mem_filter.mp hv
      rw [beq_iff_eq] at hvu
      subst hvu
      rw [hid, decide_eq_true_eq] at hlink
      exact k.outsider.maintainer ⟨Table.contains_iff.mpr ⟨v, hv, rfl⟩, hlink⟩
  rw [hmaintained, serviceEntry_same k]
  exact .of_eq rfl

end Services

section Versions

variable {db₁ db₂ : Database} {service : Service} {u : ℕ} (k : Unseen db₁ db₂ service u)
  (env : Environment)

include k

theorem serviceGetServiceIterationById_same (id : ℕ) :
    serviceGetServiceIterationById env id u db₁ = serviceGetServiceIterationById env id u db₂ := by
  apply Lockstep.eq
  unfold serviceGetServiceIterationById
  refine (k.same.iterations.find id _).bind ?_
  intro i j hij
  rw [← committed_eq hij.shown, ← service_eq hij.shown, ← creator_eq hij.shown, ← k.same.users]
  refine (k.same.services.find _ _).bind ?_
  intro s t hst
  rw [← owner_eq hst.shown, Bool.and_comm]
  refine Lockstep.bind_same _ (fun _ hr => ?_)
  have helse := iteration_elsewhere k hij.mem hst.mem hst.key (requireCreator_eq_ok.mp hr)
  rw [← hij.same helse, iterationToJson_eq k.same env hij.mem helse]
  exact .of_eq rfl

/-- One service at most has the uuid. -/
theorem found_by_uuid (uuid : String) (e : Abort) :
    Lockstep (fun s t => s ∈ db₁.services.rows ∧
        Agree serviceColumns (fun s => s.id = service.id) s t)
      (orAbort (env.fetch (db₁.services.rows.filter (fun s =>
        s.serviceUuid.val == uuid && !s.isDeleted))).head? e)
      (orAbort (env.fetch (db₂.services.rows.filter (fun s =>
        s.serviceUuid.val == uuid && !s.isDeleted))).head? e) := by
  have hrows := agree_filter (p := fun s => s.serviceUuid.val == uuid && !s.isDeleted)
    (fun s t hst => by rw [uuid_eq hst, isDeleted_eq hst]) k.same.services.rows
  refine (fetch_lockstep env hrows e).mono ?_
  rintro s t ⟨hs, ht⟩
  obtain ⟨s', hs', hst⟩ := agree_of_mem_right hrows ht
  obtain ⟨hs, hp⟩ := List.mem_filter.mp hs
  obtain ⟨hs', hp'⟩ := List.mem_filter.mp hs'
  simp only [Bool.and_eq_true, beq_iff_eq] at hp hp'
  rw [k.inv₁.uuid_unique s hs s' hs' (VarChar.ext (hp.1.trans hp'.1.symm))]
  exact ⟨hs', hst⟩

omit k in
theorem maintainerRight_of_level {s : Service}
    (h : levelAboveZeroIf (s.ownerId != u && !isMaintainer db₁ s.id (db₁.users.find? u))
      (db₁.users.find? u) = .ok false) : MaintainerRight db₁ s u := by
  apply (requireMaintainer_eq_ok (e := .raised .attributeError) (x := ())).mp
  rw [requireLevelZeroIf, h]
  rfl

/-- What is served of a version belongs to another service. -/
structure Served (env : Environment) (db : Database) (service : Service)
    (r r' : Reply VersionDetail) : Prop where
  same : r = r'
  elsewhere : (∃ s, s.id ≠ service.id ∧ r.data = .latest (serviceToJson env db s)) ∨
    ∃ i ∈ db.iterations.rows, i.serviceId ≠ service.id ∧
      r.data = .earlier (iterationToJson env db i)

/-- An earlier version of the service itself: nobody is told more than that it exists. -/
theorem own_version_denied {s : Service} (hs : s ∈ db₁.services.rows)
    (hid : s.id = service.id) (version : String) (e e' : Abort) {α : Type} {S : α → α → Prop}
    {f g : ServiceIteration → Tx α} :
    Lockstep S
      (orAbort (env.fetch (db₁.iterations.rows.filter (fun i =>
          i.serviceId == s.id && i.version.any (fun v => v.val == version)))).head? e >>= fun i =>
        levelAboveZeroIf (s.ownerId != u && !isMaintainer db₁ s.id (db₁.users.find? u))
          (db₁.users.find? u) >>= fun above =>
        require (!(above && i.creatorId != some u)) e' >>= fun _ => f i)
      (orAbort (env.fetch (db₂.iterations.rows.filter (fun i =>
          i.serviceId == s.id && i.version.any (fun v => v.val == version)))).head? e >>= fun i =>
        levelAboveZeroIf (s.ownerId != u && !isMaintainer db₁ s.id (db₁.users.find? u))
          (db₁.users.find? u) >>= fun above =>
        require (!(above && i.creatorId != some u)) e' >>= fun _ => g i) := by
  have hrows := agree_filter
    (p := fun i => i.serviceId == s.id && i.version.any (fun v => v.val == version))
    (fun i j hij => by rw [service_eq hij, iterationVersion_eq hij]) k.same.iterations.rows
  have hcreator : ∀ i ∈ db₁.iterations.rows.filter (fun i =>
      i.serviceId == s.id && i.version.any (fun v => v.val == version)),
      (i.creatorId != some u) = true := by
    intro i hi
    obtain ⟨hi, hp⟩ := List.mem_filter.mp hi
    have hservice := beq_iff_eq.mp (Bool.and_eq_true_iff.mp hp).1
    exact bne_iff_ne.mpr (k.outsider.creator i hi (hservice.trans hid))
  refine (fetch_lockstep env hrows e).bind ?_
  rintro i j ⟨hi, hj⟩
  obtain ⟨i', hi', hij⟩ := agree_of_mem_right hrows hj
  rw [← creator_eq hij.shown, hcreator i hi, hcreator i' hi']
  refine Lockstep.bind_same _ (fun above habove => ?_)
  refine Lockstep.bind_same _ (fun _ hr => ?_)
  rw [Bool.and_true, require_eq_ok, Bool.not_eq_true'] at hr
  subst hr
  exact absurd hid (right_elsewhere k hs (maintainerRight_of_level habove))

theorem serviceGetServiceByUuidAndVersion_lockstep (serviceUuid version : String) :
    Lockstep (Served env db₁ service)
      (serviceGetServiceByUuidAndVersion env serviceUuid version u db₁)
      (serviceGetServiceByUuidAndVersion env serviceUuid version u db₂) := by
  unfold serviceGetServiceByUuidAndVersion
  refine (found_by_uuid k env _ _).bind ?_
  rintro s t ⟨hs, hst⟩
  have hid : s.id = t.id := hst.key_eq
  rw [← version_eq hst.shown, ← owner_eq hst.shown, ← hid, ← k.same.users, ← k.same.isMaintainer]
  by_cases hlatest : (s.version.val == version || version == "latest") = true
  · rw [if_pos hlatest, if_pos hlatest]
    refine Lockstep.bind_same _ (fun above habove => ?_)
    refine Lockstep.bind_same _ (fun _ hr => ?_)
    rw [require_eq_ok, Bool.not_eq_true'] at hr
    subst hr
    have helse := right_elsewhere k hs (maintainerRight_of_level habove)
    rw [← hst.same helse, ← serviceToJson_eq k.same env helse]
    exact .ok ⟨rfl, Or.inl ⟨s, helse, rfl⟩⟩
  · rw [if_neg hlatest, if_neg hlatest]
    by_cases hown : s.id = service.id
    · exact own_version_denied k env hs hown version _ _
    · have hiterations : db₁.iterations.rows.filter (fun i =>
            i.serviceId == s.id && i.version.any (fun v => v.val == version)) =
          db₂.iterations.rows.filter (fun i =>
            i.serviceId == s.id && i.version.any (fun v => v.val == version)) := by
        refine k.same.iterations.filter_eq ?_ ?_
        · intro i j hij
          rw [service_eq hij, iterationVersion_eq hij]
        · intro i _ hp hi
          have hservice := beq_iff_eq.mp (Bool.and_eq_true_iff.mp hp).1
          exact hown (hservice.symm.trans hi)
      rw [← hiterations]
      refine Lockstep.bind_same _ (fun i hi => ?_)
      refine Lockstep.bind_same _ (fun above _ => ?_)
      refine Lockstep.bind_same _ (fun _ _ => ?_)
      have hfound := env.mem_fetch.mp (List.mem_of_head? (orAbort_eq_ok.mp hi))
      obtain ⟨hi, hp⟩ := List.mem_filter.mp hfound
      have hservice := beq_iff_eq.mp (Bool.and_eq_true_iff.mp hp).1
      have helse : i.serviceId ≠ service.id := hservice.symm ▸ hown
      rw [← iterationToJson_eq k.same env hi helse]
      exact .ok ⟨rfl, Or.inr ⟨i, hi, helse, rfl⟩⟩

theorem serviceGetAllVersionsByUuid_same (serviceUuid : String) :
    serviceGetAllVersionsByUuid env serviceUuid u db₁ =
      serviceGetAllVersionsByUuid env serviceUuid u db₂ := by
  apply Lockstep.eq
  unfold serviceGetAllVersionsByUuid
  refine (found_by_uuid k env _ _).bind ?_
  rintro s t ⟨hs, hst⟩
  have hid : s.id = t.id := hst.key_eq
  rw [← version_eq hst.shown, ← owner_eq hst.shown, ← hid, ← k.same.users, ← k.same.isMaintainer]
  refine Lockstep.bind_same _ (fun _ hr => ?_)
  have helse := right_elsewhere k hs (requireMaintainer_eq_ok.mp hr)
  rw [← k.same.iterationsOf helse]
  exact .of_eq rfl

omit k in
theorem loadApi_eq {secret : ℕ → Prop} {st₁ st₂ : ApiStore} (h : SameStore secret st₁ st₂) {c : ℕ}
    (hc : ¬ secret c) : (env.fetch (st₁.apisOf c)).map (loadApi env st₁) =
      (env.fetch (st₁.apisOf c)).map (loadApi env st₂) := by
  apply List.map_congr_left
  intro a ha
  obtain ⟨ha, hac⟩ := ApiStore.mem_apisOf.mp (env.mem_fetch.mp ha)
  have hsecret : ¬ secret a.container := hac.symm ▸ hc
  unfold loadApi
  rw [h.requestParamsOf ha hsecret, h.responseParamsOf ha hsecret]

theorem exportSource_eq {r r' : Reply VersionDetail} (h : Served env db₁ service r r') :
    exportSource env db₁ r.data = exportSource env db₂ r.data := by
  obtain ⟨_, ⟨s, helse, hr⟩ | ⟨i, hi, helse, hr⟩⟩ := h
  · rw [hr]
    simp only [exportSource, serviceToJson]
    rw [loadApi_eq env k.same.live helse]
  · rw [hr]
    simp only [exportSource, iterationToJson]
    rw [loadApi_eq env k.same.drafts (not_iterationOf hi helse)]

theorem serviceExportOpenapiByUuidAndVersion_same (out : Surroundings)
    (serviceUuid version : String) :
    serviceExportOpenapiByUuidAndVersion out serviceUuid version u db₁ =
      serviceExportOpenapiByUuidAndVersion out serviceUuid version u db₂ := by
  apply Lockstep.eq
  unfold serviceExportOpenapiByUuidAndVersion
  refine (serviceGetServiceByUuidAndVersion_lockstep k _ serviceUuid version).bind ?_
  intro r r' hr
  rw [← hr.same, exportSource_eq k _ hr]
  exact .of_eq rfl

end Versions

section Apis

variable {db₁ db₂ : Database} {service : Service} {u : ℕ} (k : Unseen db₁ db₂ service u)
  (env : Environment)

include k

theorem apiGetAllCategoriesByServiceId_same (serviceId : ℕ) :
    apiGetAllCategoriesByServiceId serviceId u db₁ =
      apiGetAllCategoriesByServiceId serviceId u db₂ := by
  apply Lockstep.eq
  unfold apiGetAllCategoriesByServiceId
  refine owner_checked k serviceId _ _ ?_
  rintro s _ rfl helse
  rw [k.same.categoriesOf helse]
  exact .of_eq rfl

theorem apiGetAllApisByServiceId_same (serviceId : ℕ) (categoryId : Option ℕ) :
    apiGetAllApisByServiceId serviceId u categoryId db₁ =
      apiGetAllApisByServiceId serviceId u categoryId db₂ := by
  apply Lockstep.eq
  unfold apiGetAllApisByServiceId
  refine owner_checked k serviceId _ _ ?_
  intro _ _ _ _
  exact .of_eq rfl

omit k in
theorem apiDetail_eq {secret : ℕ → Prop} {st₁ st₂ : ApiStore} (h : SameStore secret st₁ st₂)
    (hu : db₁.users = db₂.users) {a : ApiRow} (ha : a ∈ st₁.apis.rows)
    (hc : ¬ secret a.container) : apiDetail env db₁ st₁ a = apiDetail env db₂ st₂ a := by
  unfold apiDetail
  rw [hu, h.requestParamsOf ha hc, h.responseParamsOf ha hc]

theorem liveApi_elsewhere {a : ApiRow} {s : Service} {v : User} {e : Abort} {x : Unit}
    (hs : s ∈ db₁.services.rows) (hsa : s.id = a.container) (hv : db₁.users.find? u = some v)
    (hr : require (!(s.ownerId != u && !isMaintainer db₁ s.id (some v))) e = .ok x) :
    a.container ≠ service.id := by
  rw [← hv, require_eq_ok, Bool.not_eq_true', Bool.and_eq_false_iff, bne_eq_false_iff_eq,
    Bool.not_eq_false', isMaintainer_find?] at hr
  have hright : MaintainerRight db₁ s u := hr.imp_right Or.inl
  exact hsa ▸ right_elsewhere k hs hright

theorem draftApi_elsewhere {i : ServiceIteration} {s : Service} {v : User} {e : Abort} {x : Unit}
    (hi : i ∈ db₁.iterations.rows) (hs : s ∈ db₁.services.rows) (hsi : s.id = i.serviceId)
    (hv : db₁.users.find? u = some v)
    (hr : require (!(i.creatorId != some u && !isMaintainer db₁ s.id (some v) &&
      s.ownerId != u)) e = .ok x) : i.serviceId ≠ service.id := by
  rw [← hv, require_eq_ok, Bool.not_eq_true', Bool.and_eq_false_iff, Bool.and_eq_false_iff,
    bne_eq_false_iff_eq, bne_eq_false_iff_eq, Bool.not_eq_false', isMaintainer_find?] at hr
  rcases hr with (hcreator | hmaintains) | howner
  · exact iteration_elsewhere k hi hs hsi (Or.inr (Or.inl hcreator))
  · exact hsi ▸ right_elsewhere k hs (Or.inr (Or.inl hmaintains))
  · exact hsi ▸ right_elsewhere k hs (Or.inl howner)

theorem apiGetApiById_same (apiId : ℕ) (isLatest : Bool) :
    apiGetApiById env apiId u isLatest db₁ = apiGetApiById env apiId u isLatest db₂ := by
  have hlevel : ∀ v, db₁.users.find? u = some v → (v.level != .l0) = true :=
    fun v hv => bne_iff_ne.mpr (fun hl => k.outsider.level (levelZero_find?.mp ⟨v, hv, hl⟩))
  apply Lockstep.eq
  unfold apiGetApiById
  rw [← k.same.users, ← k.same.isMaintainer]
  cases isLatest with
  | true =>
    refine (k.same.live.apis.find apiId _).bind ?_
    intro a b hab
    refine Lockstep.bind_same _ (fun v hv => ?_)
    rw [orAbort_eq_ok] at hv
    simp only [hlevel v hv, if_true, ← container_eq hab.shown]
    refine (k.same.services.find _ _).bind ?_
    intro s t hst
    have hid : s.id = t.id := hst.key_eq
    rw [← owner_eq hst.shown, ← hid]
    refine Lockstep.bind_same _ (fun _ hr => ?_)
    have helse := liveApi_elsewhere k hst.mem hst.key hv hr
    rw [← hab.same helse, apiDetail_eq env k.same.live k.same.users hab.mem helse]
    exact .of_eq rfl
  | false =>
    refine (k.same.drafts.apis.find apiId _).bind ?_
    intro a b hab
    refine Lockstep.bind_same _ (fun v hv => ?_)
    rw [orAbort_eq_ok] at hv
    simp only [hlevel v hv, if_true, Bool.false_eq_true, if_false, ← container_eq hab.shown]
    refine (k.same.iterations.find _ _).bind ?_
    intro i j hij
    rw [← service_eq hij.shown, ← creator_eq hij.shown]
    refine (k.same.services.find _ _).bind ?_
    intro s t hst
    have hid : s.id = t.id := hst.key_eq
    rw [← owner_eq hst.shown, ← hid]
    refine Lockstep.bind_same _ (fun _ hr => ?_)
    have helse := draftApi_elsewhere k hij.mem hst.mem hst.key hv hr
    have hsecret : ¬ IterationOf db₁ service.id a.container :=
      hij.key ▸ not_iterationOf hij.mem helse
    rw [← hab.same hsecret, apiDetail_eq env k.same.drafts k.same.users hab.mem hsecret]
    exact .of_eq rfl

end Apis

end OutsiderReads
