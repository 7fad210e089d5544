import ApiManagement.KeptContent
import ApiManagement.OutsiderReads

/-! # What outsiders change

Rights on a service are given and taken by its owner and by users of level 0, and nobody ever
becomes one of these. Users without a right therefore stay so among themselves, and however many
requests they make, in whatever order, no row of the service changes. -/
namespace OutsiderWrites

open TransactionRuns KeyedTables PythonRuntime ServiceSchema ServiceOperations UserOperations
  OperationRuns OperationEffects StateInvariant WriteRights KeptContent OutsiderReads

theorem sameContainer_trans {c : ℕ} {st st' u : ApiStore} (h : SameContainer c st st')
    (k : SameContainer c st' u) : SameContainer c st u := by
  refine ⟨k.apis.trans h.apis, ?_, ?_⟩
  · intro a ha
    exact (k.requests a (h.apis ▸ ha)).trans (h.requests a ha)
  · intro a ha
    exact (k.responses a (h.apis ▸ ha)).trans (h.responses a ha)

section Same

variable {serviceId : ℕ} {db d d' : Database}

theorem iteration_iff (h : SameService serviceId db d) {i : ServiceIteration}
    (hs : i.serviceId = serviceId) : i ∈ d.iterations.rows ↔ i ∈ db.iterations.rows := by
  have filtered : ∀ e : Database, i ∈ e.iterations.rows ↔
      i ∈ e.iterations.rows.filter (fun j => j.serviceId == serviceId) := by
    intro e
    rw [List.mem_filter, beq_iff_eq, and_iff_left hs]
  rw [filtered, filtered, h.iterations]

theorem service_mem (h : SameService serviceId db d) {s : Service}
    (hs : s ∈ db.services.rows) (hid : s.id = serviceId) : s ∈ d.services.rows := by
  have hfind : db.services.find? serviceId = some s := Table.find?_eq_some.mpr ⟨hs, hid⟩
  exact (Table.find?_eq_some.mp (h.service.trans hfind)).1

theorem sameService_trans (h : SameService serviceId db d) (k : SameService serviceId d d') :
    SameService serviceId db d' := by
  refine ⟨k.service.trans h.service, fun u => (k.maintainers u).trans (h.maintainers u),
    k.categories.trans h.categories, sameContainer_trans h.live k.live,
    k.iterations.trans h.iterations, ?_⟩
  intro i hm hs
  exact sameContainer_trans (h.drafts i hm hs) (k.drafts i ((iteration_iff h hs).mpr hm) hs)

end Same

section Rights

variable {db db' : Database} {env : Environment} {operation : Operation}

theorem users_stay (he : Effect env db operation db') {u : ℕ}
    (h : db.users.contains u = true) : db'.users.contains u = true := by
  cases he with
  | userRegistered _ _ _ => exact db.users.contains_insert h
  | @passwordModified _ _ _ _ hash _ _ =>
    exact db.users.contains_update (f := setPassword hash) (fun _ => rfl) h
  | _ => exact h

/-- Nobody gets level 0, and nobody loses it. -/
theorem atLevelZero_iff (he : Effect env db operation db') {userId : ℕ} :
    AtLevelZero db' userId ↔ AtLevelZero db userId := by
  unfold AtLevelZero
  cases he with
  | @userRegistered _ _ _ _ _ v _ _ hl =>
    constructor
    · rintro ⟨u, hu, hid, hlevel⟩
      rcases List.mem_append.mp hu with hu | hu
      · exact ⟨u, hu, hid, hlevel⟩
      · rw [List.mem_singleton.mp hu] at hlevel
        have hzero : v.level = .l0 := hlevel
        rw [hl] at hzero
        cases hzero
    · rintro ⟨u, hu, hid, hlevel⟩
      exact ⟨u, List.mem_append_left _ hu, hid, hlevel⟩
  | @passwordModified _ _ _ v hash _ _ =>
    constructor
    · rintro ⟨u, hu, hid, hlevel⟩
      obtain ⟨w, hw, hwid, ⟨_, rfl⟩ | ⟨_, rfl⟩⟩ :=
        db.users.update_origin (f := setPassword hash) (fun _ => rfl) hu
      · exact ⟨w, hw, hid, hlevel⟩
      · exact ⟨u, hw, hid, hlevel⟩
    · rintro ⟨u, hu, hid, hlevel⟩
      obtain ⟨w, hw, hwid, rfl | rfl⟩ :=
        db.users.update_image (k := v.id) (f := setPassword hash) (fun _ => rfl) hu
      · exact ⟨setPassword hash u, hw, hid, hlevel⟩
      · exact ⟨w, hw, hid, hlevel⟩
  | _ => exact Iff.rfl

def LinksHeld (db : Database) : Prop :=
  ∀ p ∈ db.userServiceLink, db.users.contains p.1 = true

theorem linksHeld_step (he : Effect env db operation db') (h : LinksHeld db) : LinksHeld db' := by
  intro p hp
  refine users_stay he ?_
  cases he with
  | maintainerRemoved _ _ _ => exact h p (Finset.mem_of_mem_erase hp)
  | maintainerAdded _ _ _ _ hc =>
    rcases Finset.mem_insert.mp hp with rfl | hp
    · exact hc
    · exact h p hp
  | _ => exact h p hp

theorem owner_stays (he : Effect env db operation db') {s t : Service}
    (hs : s ∈ db.services.rows) (ht : t ∈ db'.services.rows) (hid : t.id = s.id) :
    t.ownerId = s.ownerId := by
  have hfind : db.services.find? s.id = some s := Table.find?_eq_some.mpr ⟨hs, rfl⟩
  have hfind' : db'.services.find? s.id = some t := Table.find?_eq_some.mpr ⟨ht, hid⟩
  have howner : (db'.services.find? s.id).map Service.ownerId =
      (db.services.find? s.id).map Service.ownerId := by
    cases he with
    | serviceCreated _ _ _ _ _ _ _ =>
      exact congrArg _ (db.services.find?_insert_other (Table.key_ne_next hs))
    | serviceDeleted _ _ _ =>
      exact db.services.map_find?_update (f := setDeleted (some env.now)) (fun _ => rfl)
        (fun _ => rfl) _
    | serviceRestored _ _ _ _ =>
      exact db.services.map_find?_update (f := setDeleted none) (fun _ => rfl) (fun _ => rfl) _
    | @iterationCommitted _ _ _ i _ version _ _ _ _ _ _ _ =>
      exact db.services.map_find?_update (f := publish i.description version) (fun _ => rfl)
        (fun _ => rfl) _
    | _ => rfl
  rw [hfind, hfind', Option.map_some, Option.map_some] at howner
  exact Option.some.inj howner

/-- The maintainers of a service change by requests of its owner and of level 0 only. -/
theorem links_stay (he : Effect env db operation db') {s : Service} (hs : s ∈ db.services.rows)
    (hactor : ∀ w, actor operation = some w → ¬ OwnerRight db s w) (u : ℕ) :
    (u, s.id) ∈ db'.userServiceLink ↔ (u, s.id) ∈ db.userServiceLink := by
  cases he with
  | @maintainerRemoved serviceId userId candidateId t ht htid hr =>
    have hne : s.id ≠ serviceId := by
      intro hid
      rw [db.services.eq_of_key_eq ht hs (htid.trans hid.symm)] at hr
      exact hactor userId rfl hr
    rw [Finset.mem_erase, and_iff_right]
    exact fun h => hne (congrArg Prod.snd h)
  | @maintainerAdded serviceId userId candidateId t ht htid hr _ _ =>
    have hne : s.id ≠ serviceId := by
      intro hid
      rw [db.services.eq_of_key_eq ht hs (htid.trans hid.symm)] at hr
      exact hactor userId rfl hr
    rw [Finset.mem_insert, or_iff_right]
    exact fun h => hne (congrArg Prod.snd h)
  | _ => exact Iff.rfl

end Rights

theorem reachable_linksHeld {db : Database} (h : Reachable db) : LinksHeld db := by
  obtain ⟨db₀, h₀, hr⟩ := h
  refine hr.preserves ?_ ?_
  · intro d request d' hd _ ht
    exact linksHeld_step (transaction_effect ht) hd
  · intro p hp
    rw [h₀.links] at hp
    cases hp

section Runs

variable {db d : Database} {s : Service}

/-- How far a database of the run agrees with the first one on who has which right. -/
structure SameRights (db : Database) (s : Service) (d : Database) : Prop where
  links : LinksHeld d
  service : ∃ t ∈ d.services.rows, t.id = s.id ∧ t.ownerId = s.ownerId
  maintainers : ∀ u, (u, s.id) ∈ d.userServiceLink ↔ (u, s.id) ∈ db.userServiceLink
  levels : ∀ u, AtLevelZero d u ↔ AtLevelZero db u

theorem sameRights_step (h : SameRights db s d) {request : Request} {d' : Database}
    (he : Effect request.env d request.operation d')
    (hactor : ∀ u, actor request.operation = some u → ¬ OwnerRight db s u) :
    SameRights db s d' := by
  obtain ⟨t, ht, htid, howner⟩ := h.service
  have hright : ∀ u, actor request.operation = some u → ¬ OwnerRight d t u := by
    rintro u hu (ho | hl)
    · exact hactor u hu (Or.inl (howner.symm.trans ho))
    · exact hactor u hu (Or.inr ((h.levels u).mp hl))
  obtain ⟨t', ht', htid'⟩ := service_stays he ht
  refine ⟨linksHeld_step he h.links, ⟨t', ht', htid'.trans htid,
    (owner_stays he ht ht' htid').trans howner⟩, ?_,
    fun u => (atLevelZero_iff he).trans (h.levels u)⟩
  intro u
  have hlinks := links_stay he ht hright u
  rw [htid] at hlinks
  exact hlinks.trans (h.maintainers u)

/-- In a run without requests of the owner of a service and of users of level 0, everyone
keeps exactly the right on the service that he has. -/
theorem rights_stay {db' : Database} (hreach : Reachable db) (hs : s ∈ db.services.rows)
    (hrun : Runs transaction
      (fun _ request => ∀ u, actor request.operation = some u → ¬ OwnerRight db s u) db db')
    (u : ℕ) : MaintainerRight db' s u ↔ MaintainerRight db s u := by
  have hlinks := reachable_linksHeld hreach
  have h : SameRights db s db' := by
    refine hrun.preserves ?_ ⟨hlinks, ⟨s, hs, rfl, rfl⟩, fun _ => Iff.rfl, fun _ => Iff.rfl⟩
    intro d request d' hd hg ht
    exact sameRights_step hd (transaction_effect ht) hg
  have held : ∀ e : Database, LinksHeld e →
      (Maintains e u s.id ↔ (u, s.id) ∈ e.userServiceLink) := by
    intro e he
    exact ⟨fun hm => hm.2, fun hm => ⟨he _ hm, hm⟩⟩
  unfold MaintainerRight
  rw [held db' h.links, held db hlinks, h.maintainers u, h.levels u]

/-- How far a database of the run agrees with the first one, while outsiders are at work. -/
structure Untouched (db : Database) (s : Service) (d : Database) : Prop where
  invariant : Invariant Nests d
  links : LinksHeld d
  same : SameService s.id db d
  outsiders : ∀ u, Outsider db s u → Outsider d s u

theorem outsider_step {d' : Database} {env : Environment} {operation : Operation}
    (he : Effect env d operation d') (hlinks : LinksHeld d) (hsame : SameService s.id d d') {u : ℕ}
    (h : Outsider d s u) : Outsider d' s u := by
  refine ⟨fun hl => h.level ((atLevelZero_iff he).mp hl), h.owner, ?_, ?_⟩
  · rintro ⟨_, hm⟩
    have hlink := (hsame.maintainers u).mp hm
    exact h.maintainer ⟨hlinks _ hlink, hlink⟩
  · intro i hi his
    exact h.creator i ((iteration_iff hsame his).mp hi) his

theorem untouched_step (hs : s ∈ db.services.rows) (h : Untouched db s d) {request : Request}
    {d' : Database} (ht : transaction d request = .ok d')
    (hactor : ∀ u, actor request.operation = some u → Outsider db s u) : Untouched db s d' := by
  have he := transaction_effect ht
  have hsd : s ∈ d.services.rows := service_mem h.same hs rfl
  have hsame : SameService s.id d d' := by
    rcases service_unchanged_or_mayChange h.invariant he hsd with hsame | ⟨u, hu, hmay⟩
    · exact hsame
    · have hout := h.outsiders u (hactor u hu)
      rcases hmay with (ho | hm | hl) | ⟨i, hi, his, _, hc⟩
      · exact absurd ho hout.owner
      · exact absurd hm hout.maintainer
      · exact absurd hl hout.level
      · exact absurd hc (hout.creator i hi his)
  exact ⟨effect_preserves nests_joint he (payloadGuard_true request.operation) h.invariant,
    linksHeld_step he h.links, sameService_trans h.same hsame,
    fun u hu => outsider_step he h.links hsame (h.outsiders u hu)⟩

theorem untouched_run {db' : Database} (hreach : Reachable db) (hs : s ∈ db.services.rows)
    (hrun : Runs transaction
      (fun _ request => ∀ u, actor request.operation = some u → Outsider db s u) db db') :
    Untouched db s db' := by
  refine hrun.preserves ?_ ⟨reachable_invariant hreach, reachable_linksHeld hreach,
    SameService.refl _ _, fun _ hu => hu⟩
  intro d request d' hd hg ht
  exact untouched_step hs hd ht hg

/-- Whatever outsiders of a service request, one after another, no row of the service changes,
and outsiders they stay. -/
theorem outsiders_change_nothing {db' : Database} (hreach : Reachable db)
    (hs : s ∈ db.services.rows)
    (hrun : Runs transaction
      (fun _ request => ∀ u, actor request.operation = some u → Outsider db s u) db db') :
    SameService s.id db db' ∧ ∀ u, Outsider db s u → Outsider db' s u :=
  ⟨(untouched_run hreach hs hrun).same, (untouched_run hreach hs hrun).outsiders⟩

end Runs

def visits : List Operation :=
  [.userRegister "newcomer" "secret" none none "guest",
    .serviceCreateNewService "team/other" 2 none,
    .serviceAddOrRemoveServiceMaintainerById 2 2 3, .serviceStartIteration 2 3,
    .serviceStartIteration 1 2, .serviceDeleteServiceById 1 3]

theorem visitor_outsider {u : ℕ} (hu : u = 2 ∨ u = 3) : Outsider published publishedService u := by
  rcases hu with rfl | rfl
  · exact ⟨by unfold AtLevelZero; decide +kernel, by decide, by unfold Maintains; decide +kernel,
      by decide +kernel⟩
  · exact ⟨by unfold AtLevelZero; decide +kernel, by decide, by unfold Maintains; decide +kernel,
      by decide +kernel⟩

theorem visits_acted : ∀ operation ∈ visits, ∀ u, actor operation = some u → u = 2 ∨ u = 3 := by
  decide +kernel

theorem visits_change_nothing : SameService 1 published (play published visits) ∧
    ∀ u, Outsider published publishedService u →
      Outsider (play published visits) publishedService u :=
  outsiders_change_nothing published_reachable publishedService_mem
    (runs_play (.refl _) visits
      (fun operation ho _ u hu => visitor_outsider (visits_acted operation ho u hu)))

theorem visits_give_no_right :
    MaintainerRight (play published visits) publishedService 2 ↔
      MaintainerRight published publishedService 2 :=
  rights_stay published_reachable publishedService_mem
    (runs_play (.refl _) visits (fun operation ho _ u hu hr =>
      (visitor_outsider (visits_acted operation ho u hu)).level
        (hr.resolve_left (visitor_outsider (visits_acted operation ho u hu)).owner))) 2

end OutsiderWrites
