import ApiManagement.ServiceTabs
import ApiManagement.WriteRights

/-! # The page shows what the backend holds

The page changes its own copy of the categories and of the apis in them where it could read the
service again. The two ways agree: as long as nobody else changes the service, the tree it
shows is the tree of the rows in the database. -/
namespace TabCoherence

open TransactionRuns KeyedTables PythonRuntime ServiceSchema ApiStores UserOperations
  ServiceOperations ApiOperations ReadOperations OperationRuns OperationEffects StateInvariant
  WriteRights CategoryTrees ServiceTabs

def shownService : VersionDetail → ℕ
  | .latest d => d.service.id
  | .earlier d => d.iteration.serviceId

def serviceCategories (db : Database) (serviceId : ℕ) : List ApiCategory :=
  db.categories.rows.filter (fun c => c.serviceId == serviceId)

def versionRows (db : Database) : VersionDetail → List ApiRow
  | .latest d => db.live.apisOf d.service.id
  | .earlier d => db.drafts.apisOf d.iteration.id

def heldTree (db : Database) (tab : ServiceTab) : Option (List TreeGroup) :=
  tab.serviceDetail.map (fun d => treeData (serviceCategories db (shownService d))
    (if tab.inIteration then db.drafts.apisOf tab.iterationId.toNat else versionRows db d))

/-- The rows, but for the order and for categories that are gone; no copy names a category that
is yet to come. -/
structure Copies (db : Database) (apiCategories : List ApiCategory) (apis rows : List ApiRow) :
    Prop where
  same : (apis.map (settled apiCategories)).Perm rows
  old : ∀ a ∈ apis, ∀ k, a.fields.categoryId = some k → k < db.categories.next

structure Shows (visit : Visit) (db : Database) (tab : ServiceTab) (d : VersionDetail) : Prop where
  service : ∃ s ∈ db.services.rows, s.id = shownService d ∧
    s.serviceUuid.val = strip (unquote visit.serviceUuid)
  iteration : ∀ detail, d = .earlier detail →
    ∃ i ∈ db.iterations.rows, i.id = detail.iteration.id ∧ i.serviceId = shownService d
  categories : tab.apiCategories.Perm (serviceCategories db (shownService d))
  apis : Copies db tab.apiCategories tab.apis (versionRows db d)

def Works (db : Database) (tab : ServiceTab) (d : VersionDetail) : Prop :=
  ∃ i ∈ db.iterations.rows, tab.iterationId = i.id ∧ i.serviceId = shownService d ∧
    Copies db tab.apiCategories tab.apiDrafts (db.drafts.apisOf i.id)

structure Coherent (visit : Visit) (db : Database) (tab : ServiceTab) : Prop where
  shows : ∀ d, tab.serviceDetail = some d → Shows visit db tab d
  latest : tab.isLatest = true → ∀ d, tab.serviceDetail = some d → d.isLatest = true
  working : tab.inIteration = true →
    ∃ d, tab.serviceDetail = some d ∧ d.isLatest = true ∧ Works db tab d
  idle : tab.inIteration = false → tab.iterationId = -1

theorem nodup_ids (db : Database) (serviceId : ℕ) :
    ((serviceCategories db serviceId).map ApiCategory.id).Nodup :=
  db.categories.nodup.sublist (List.filter_sublist.map _)

/-- A coherent page shows the tree of the database. -/
theorem Coherent.tree {visit : Visit} {db : Database} {tab : ServiceTab}
    (h : Coherent visit db tab) {tree : List TreeGroup} (ht : tab.tree = some tree) :
    ∃ held, heldTree db tab = some held ∧ SameTree tree held := by
  unfold ServiceTab.tree at ht
  split at ht
  · rename_i hdisplayed
    cases hd : tab.serviceDetail with
    | none =>
      unfold ServiceTab.displayed at hdisplayed
      rw [hd] at hdisplayed
      cases hdisplayed
    | some d =>
      have hshows := h.shows d hd
      refine ⟨_, by rw [heldTree, hd, Option.map_some], ?_⟩
      rw [← Option.some.inj ht]
      cases hin : tab.inIteration with
      | false => exact sameTree_of_perm (nodup_ids _ _) hshows.categories hshows.apis.same
      | true =>
        obtain ⟨e, he, _, i, _, hid, _, hcopies⟩ := h.working hin
        rw [hid]
        exact sameTree_of_perm (nodup_ids _ _) hshows.categories hcopies.same
  · cases ht

section Reading

variable {visit : Visit} {env : Environment} {db : Database} {tab : ServiceTab}

/-- Rows whose categories are all known are their own copies. -/
theorem copies_of_known {apiCategories : List ApiCategory} {apis rows : List ApiRow}
    {serviceId : ℕ} (hcats : apiCategories.Perm (serviceCategories db serviceId))
    (hrows : ∀ a ∈ rows, ∀ k, a.fields.categoryId = some k →
      ∃ c ∈ db.categories.rows, c.id = k ∧ c.serviceId = serviceId)
    (hperm : apis.Perm rows) : Copies db apiCategories apis rows := by
  have hsettled : ∀ a ∈ rows, settled apiCategories a = a := by
    intro a ha
    have hcategory : knownCategory apiCategories a = a.fields.categoryId := by
      unfold knownCategory
      cases hk : a.fields.categoryId with
      | none => rfl
      | some k =>
        obtain ⟨c, hc, rfl, hs⟩ := hrows a ha k hk
        have hmem : c ∈ apiCategories :=
          hcats.mem_iff.mpr (List.mem_filter.mpr ⟨hc, beq_iff_eq.mpr hs⟩)
        rw [Option.filter_some, if_pos (decide_eq_true (List.mem_map_of_mem hmem))]
    unfold settled
    rw [hcategory]
  refine ⟨?_, ?_⟩
  · refine (hperm.map _).trans (List.Perm.of_eq ?_)
    exact (List.map_congr_left hsettled).trans (List.map_id' _)
  · intro a ha k hk
    obtain ⟨c, hc, rfl, _⟩ := hrows a (hperm.mem_iff.mp ha) k hk
    exact (db.categories.bounds c hc).2

theorem live_known (hi : Invariant Nests db) {serviceId : ℕ} :
    ∀ a ∈ db.live.apisOf serviceId, ∀ k, a.fields.categoryId = some k →
      ∃ c ∈ db.categories.rows, c.id = k ∧ c.serviceId = serviceId := by
  intro a ha k hk
  obtain ⟨ha, hc⟩ := ApiStore.mem_apisOf.mp ha
  exact hc ▸ (hi.live_refers a ha).2.2 k hk

theorem drafts_known (hi : Invariant Nests db) {i : ServiceIteration}
    (hm : i ∈ db.iterations.rows) :
    ∀ a ∈ db.drafts.apisOf i.id, ∀ k, a.fields.categoryId = some k →
      ∃ c ∈ db.categories.rows, c.id = k ∧ c.serviceId = i.serviceId := by
  intro a ha k hk
  obtain ⟨ha, hc⟩ := ApiStore.mem_apisOf.mp ha
  obtain ⟨j, hj, hid, hr⟩ := hi.draft_refers a ha
  rw [db.iterations.eq_of_key_eq hj hm (hid.trans hc)] at hr
  exact hr.2 k hk

/-- What a version that is read comes from. -/
theorem version_read {serviceUuid version : String} {userId : ℕ} {reply : Reply VersionDetail}
    (h : serviceGetServiceByUuidAndVersion env serviceUuid version userId db = .ok reply) :
    ∃ s ∈ db.services.rows, s.serviceUuid.val = strip (unquote serviceUuid) ∧
      (reply.data = .latest (serviceToJson env db s) ∨
        s.version.val ≠ version ∧ ∃ i ∈ db.iterations.rows, i.serviceId = s.id ∧
          reply.data = .earlier (iterationToJson env db i)) := by
  simp only [serviceGetServiceByUuidAndVersion, bind_eq_ok, orAbort_eq_ok] at h
  obtain ⟨s, hfound, h⟩ := h
  have hs := env.mem_fetch.mp (List.mem_of_head? hfound)
  simp only [List.mem_filter, Bool.and_eq_true, beq_iff_eq] at hs
  refine ⟨s, hs.1, hs.2.1, ?_⟩
  split at h
  · simp only [bind_eq_ok, pure_eq_ok] at h
    obtain ⟨_, _, _, _, rfl⟩ := h
    exact Or.inl rfl
  · rename_i hversion
    simp only [bind_eq_ok, orAbort_eq_ok, pure_eq_ok] at h
    obtain ⟨i, hiter, _, _, _, _, rfl⟩ := h
    have hi := env.mem_fetch.mp (List.mem_of_head? hiter)
    simp only [List.mem_filter, Bool.and_eq_true, beq_iff_eq] at hi
    refine Or.inr ⟨fun hv => hversion (by simp [hv]), i, hi.1, hi.2.1, rfl⟩

/-- The latest version as it was just read. -/
theorem shows_latest (hi : Invariant Nests db) {s : Service} (hs : s ∈ db.services.rows)
    (huuid : s.serviceUuid.val = strip (unquote visit.serviceUuid)) (tab : ServiceTab) :
    Shows visit db (tab.withDetail (.latest (serviceToJson env db s)))
      (.latest (serviceToJson env db s)) := by
  refine ⟨⟨s, hs, rfl, huuid⟩, fun _ h => (by cases h), env.fetch_perm _, ?_⟩
  exact copies_of_known (env.fetch_perm _) (live_known hi) (env.fetch_perm _)

theorem shows_earlier (hi : Invariant Nests db) {s : Service} (hs : s ∈ db.services.rows)
    (huuid : s.serviceUuid.val = strip (unquote visit.serviceUuid)) {i : ServiceIteration}
    (hm : i ∈ db.iterations.rows) (his : i.serviceId = s.id)
    (hcats : tab.apiCategories.Perm (serviceCategories db s.id)) :
    Shows visit db (tab.withDetail (.earlier (iterationToJson env db i)))
      (.earlier (iterationToJson env db i)) := by
  refine ⟨⟨s, hs, his.symm, huuid⟩, ?_, by rw [← his] at hcats; exact hcats, ?_⟩
  · rintro detail h
    cases h
    exact ⟨i, hm, rfl, rfl⟩
  · rw [← his] at hcats
    exact copies_of_known hcats (drafts_known hi hm) (env.fetch_perm _)

theorem Coherent.of_detail {d : VersionDetail} (h : Shows visit db (tab.withDetail d) d)
    (hin : tab.inIteration = false) (hid : tab.iterationId = -1) :
    Coherent visit db (tab.withDetail d) := by
  refine ⟨?_, ?_, ?_, fun _ => hid⟩
  · intro e he
    cases Option.some.inj he
    exact h
  · intro hlatest e he
    cases Option.some.inj he
    exact hlatest
  · intro hworking
    have hin' : (tab.withDetail d).inIteration = tab.inIteration := rfl
    rw [hin', hin] at hworking
    cases hworking

theorem Coherent.of_none (hd : tab.serviceDetail = none) (hin : tab.inIteration = false)
    (hid : tab.iterationId = -1) : Coherent visit db tab := by
  refine ⟨?_, ?_, ?_, fun _ => hid⟩
  · intro d he
    rw [hd] at he
    cases he
  · intro _ d he
    rw [hd] at he
    cases he
  · intro hworking
    rw [hin] at hworking
    cases hworking

/-- Another version of the service that is shown. -/
theorem coherent_fetched (hi : Invariant Nests db) (h : Coherent visit db tab)
    {d : VersionDetail} (hd : tab.serviceDetail = some d) (hin : tab.inIteration = false)
    (version : String) : Coherent visit db (fetchServiceDetail visit env db version
      { tab with currentVersion := version }) := by
  unfold fetchServiceDetail
  cases hr : serviceGetServiceByUuidAndVersion env visit.serviceUuid version visit.userId db with
  | error e =>
    cases e with
    | raised e => exact ⟨fun e he => ⟨(h.shows e he).service, (h.shows e he).iteration,
        (h.shows e he).categories, (h.shows e he).apis⟩, h.latest, h.working, h.idle⟩
    | reply status message => exact .of_none rfl hin (h.idle hin)
    | checkResult status message => exact .of_none rfl hin (h.idle hin)
  | ok reply =>
    obtain ⟨s, hs, huuid, hlatest | ⟨_, i, hm, his, hearlier⟩⟩ := version_read hr
    · dsimp only
      rw [hlatest]
      exact .of_detail (shows_latest hi hs huuid _) hin (h.idle hin)
    · dsimp only
      rw [hearlier]
      obtain ⟨⟨t, ht, htid, htuuid⟩, _, hcats, _⟩ := h.shows d hd
      have hts : t = s := hi.uuid_unique t ht s hs (VarChar.ext (htuuid.trans huuid.symm))
      subst hts
      rw [← htid] at hcats
      exact .of_detail (shows_earlier hi hs huuid hm his hcats) hin (h.idle hin)

/-- The page is opened with the latest version of the service in its address. -/
theorem opened_cases (hi : Invariant Nests db) (visit : Visit) (env : Environment) :
    ∃ tab, tab.serviceDetail = none ∧ tab.inIteration = false ∧ tab.iterationId = -1 ∧
      (fetchAllVersions visit env db = tab ∨ ∃ s ∈ db.services.rows,
        s.serviceUuid.val = strip (unquote visit.serviceUuid) ∧
          fetchAllVersions visit env db = tab.withDetail (.latest (serviceToJson env db s))) := by
  unfold fetchAllVersions
  cases hv : serviceGetAllVersionsByUuid env visit.serviceUuid visit.userId db with
  | error e => exact ⟨blank, rfl, rfl, rfl, Or.inl rfl⟩
  | ok reply =>
    dsimp only
    split
    · exact ⟨_, rfl, rfl, rfl, Or.inl rfl⟩
    · simp only [serviceGetAllVersionsByUuid, bind_eq_ok, orAbort_eq_ok, pure_eq_ok] at hv
      obtain ⟨s, hfound, _, _, rfl⟩ := hv
      have hs := env.mem_fetch.mp (List.mem_of_head? hfound)
      simp only [List.mem_filter, Bool.and_eq_true, beq_iff_eq] at hs
      unfold fetchServiceDetail
      split
      · rename_i reply hr
        obtain ⟨t, ht, huuid, hlatest | ⟨hversion, _⟩⟩ := version_read hr
        · rw [hlatest]
          exact ⟨_, rfl, rfl, rfl, Or.inr ⟨t, ht, huuid, rfl⟩⟩
        · have hts : t = s := hi.uuid_unique t ht s hs.1 (VarChar.ext (huuid.trans hs.2.1.symm))
          exact absurd (congrArg (fun x => x.version.val) hts) hversion
      · exact ⟨_, rfl, rfl, rfl, Or.inl rfl⟩
      · exact ⟨_, rfl, rfl, rfl, Or.inl rfl⟩

theorem coherent_opened (hi : Invariant Nests db) (visit : Visit) (env : Environment) :
    Coherent visit db (fetchAllVersions visit env db) := by
  obtain ⟨tab, hd, hin, hid, hopened | ⟨s, hs, huuid, hopened⟩⟩ := opened_cases hi visit env
  · rw [hopened]
    exact .of_none hd hin hid
  · rw [hopened]
    exact .of_detail (shows_latest hi hs huuid tab) hin hid

theorem iteration_read {iterationId userId : ℕ} {i : ServiceIteration}
    (hw : WorkRight db iterationId userId i) :
    serviceGetServiceIterationById env iterationId userId db =
      .ok ⟨200, "Get service iteration success", iterationToJson env db i⟩ := by
  obtain ⟨hm, hid, hopen, s, hs, hsid, hr⟩ := hw
  simp only [serviceGetServiceIterationById, bind_eq_ok, orAbort_eq_ok, require_eq_ok,
    pure_eq_ok, Table.find?_eq_some, iteration_key, service_key, Bool.not_eq_true']
  refine ⟨i, ⟨hm, hid⟩, s, ⟨hs, hsid⟩, (), ?_, (), hopen, rfl⟩
  rw [Bool.and_comm]
  exact requireCreator_eq_ok.mpr hr

theorem fetchIterationDetail_eq {i : ServiceIteration} (hid : tab.iterationId = i.id)
    (hw : WorkRight db i.id visit.userId i) : fetchIterationDetail visit env db tab =
      { tab with apiDrafts := env.fetch (db.drafts.apisOf i.id) } := by
  have hpos : 0 < i.id := (db.iterations.bounds i hw.mem).1
  unfold fetchIterationDetail
  rw [if_neg (by omega), hid, Int.toNat_natCast, iteration_read hw]
  rfl

/-- The drafts as they were just read. -/
theorem works_fetched (hi : Invariant Nests db) {i : ServiceIteration} {d : VersionDetail}
    (hid : tab.iterationId = i.id) (hw : WorkRight db i.id visit.userId i)
    (his : i.serviceId = shownService d)
    (hcats : tab.apiCategories.Perm (serviceCategories db (shownService d))) :
    Works db (fetchIterationDetail visit env db tab) d := by
  rw [fetchIterationDetail_eq hid hw]
  refine ⟨i, hw.mem, hid, his, ?_⟩
  rw [← his] at hcats
  exact copies_of_known hcats (drafts_known hi hw.mem) (env.fetch_perm _)

end Reading

/-- The backend keeps its invariant, and the page is coherent with it. -/
structure Sound (visit : Visit) (state : Database × ServiceTab) : Prop where
  invariant : Invariant Nests state.1
  coherent : Coherent visit state.1 state.2

section Drafts

variable {visit : Visit} {env : Environment} {db : Database} {tab : ServiceTab}

theorem coherent_drafted {drafts : ApiStore} {i : ServiceIteration} (h : Coherent visit db tab)
    (hi' : Invariant Nests { db with drafts := drafts }) (hin : tab.inIteration = true)
    (hw : WorkRight db tab.iterationId.toNat visit.userId i) :
    Coherent visit { db with drafts := drafts }
      (fetchIterationDetail visit env { db with drafts := drafts } tab) := by
  obtain ⟨d, hd, hlatest, j, hj, hid, hjs, _⟩ := h.working hin
  have hij : i = j := by
    refine db.iterations.eq_of_key_eq hw.mem hj ?_
    rw [iteration_key, hw.id, hid, Int.toNat_natCast]
    rfl
  subst hij
  have hshows := h.shows d hd
  have hw' : WorkRight { db with drafts := drafts } i.id visit.userId i :=
    ⟨hw.mem, rfl, hw.uncommitted, hw.right⟩
  have hworks : Works _ (fetchIterationDetail visit env _ tab) d :=
    works_fetched hi' hid hw' hjs hshows.categories
  rw [fetchIterationDetail_eq hid hw'] at hworks ⊢
  refine ⟨?_, h.latest, fun _ => ⟨d, hd, hlatest, hworks⟩, ?_⟩
  · intro e he
    cases Option.some.inj (hd.symm.trans he)
    cases d with
    | latest detail =>
      exact ⟨hshows.service, hshows.iteration, hshows.categories, hshows.apis.same,
        hshows.apis.old⟩
    | earlier detail => cases hlatest
  · intro hidle
    have hin' : tab.inIteration = false := hidle
    rw [hin] at hin'
    cases hin'

/-- A request about drafts, with the reading that follows it. -/
theorem sound_thenFetch {α : Type} {written : Tx (Database × α)} (h : Sound visit (db, tab))
    (hin : tab.inIteration = true)
    (hwritten : ∀ db' r, written = .ok (db', r) → ∃ operation, Effect env db operation db' ∧
      ∃ drafts i, db' = { db with drafts := drafts } ∧
        WorkRight db tab.iterationId.toNat visit.userId i) :
    Sound visit (thenFetch visit env db written tab) := by
  unfold thenFetch
  cases hw : written with
  | error e => exact h
  | ok p =>
    obtain ⟨operation, he, drafts, i, hd, hright⟩ := hwritten p.1 p.2 hw
    have hi' := effect_preserves nests_joint he (payloadGuard_true operation) h.invariant
    dsimp only
    rw [hd] at hi' ⊢
    exact ⟨hi', coherent_drafted h.coherent hi' hin hright⟩

theorem sound_addApi (h : Sound visit (db, tab)) (hin : tab.inIteration = true)
    (name method path description level : String) (categoryId : Option ℕ) :
    Sound visit (handleAddApi visit env db name method path description level categoryId tab) := by
  refine sound_thenFetch h hin ?_
  intro db' r hr
  have he : Effect env db _ db' := apiAddApi_effect hr
  refine ⟨_, he, ?_⟩
  cases he with
  | draftAdded hw _ _ _ _ _ _ _ _ => exact ⟨_, _, rfl, hw⟩

theorem sound_copyApi (h : Sound visit (db, tab)) (hin : tab.inIteration = true)
    (apiDraftId : ℕ) : Sound visit (handleCopyApi visit env db apiDraftId tab) := by
  refine sound_thenFetch h hin ?_
  intro db' r hr
  have he : Effect env db _ db' := apiCopyApiByApiDraftId_effect hr
  refine ⟨_, he, ?_⟩
  cases he with
  | draftCopied hw _ _ _ _ _ _ _ _ => exact ⟨_, _, rfl, hw⟩

theorem sound_deleteApi (h : Sound visit (db, tab)) (hin : tab.inIteration = true)
    (apiDraftId : ℕ) : Sound visit (handleDeleteApi visit env db apiDraftId tab) := by
  refine sound_thenFetch h hin ?_
  intro db' r hr
  have he : Effect env db _ db' := apiDeleteApiByApiDraftId_effect hr
  refine ⟨_, he, ?_⟩
  cases he with
  | draftDeleted hw _ _ _ => exact ⟨_, _, rfl, hw⟩

theorem sound_saveApiDraft (h : Sound visit (db, tab)) (hin : tab.inIteration = true)
    (apiDraftId : ℕ) (name method path : String) (description : Option String) (level : String)
    (reqParams respParams : JsonValue) :
    Sound visit (handleSaveApiDraft visit env db apiDraftId name method path description level
      reqParams respParams tab) := by
  refine sound_thenFetch h hin ?_
  intro db' r hr
  have he : Effect env db _ db' := apiUpdateApiByApiDraftId_effect hr
  refine ⟨_, he, ?_⟩
  cases he with
  | draftUpdated hw _ _ _ _ _ _ _ _ => exact ⟨_, _, rfl, hw⟩

/-- The page goes to work on an iteration that the backend has for its user. -/
theorem coherent_started {i : ServiceIteration} {d : VersionDetail} {detail : ServiceDetail}
    (hd : d = .latest detail) (hi : Invariant Nests db) (htab : tab.serviceDetail = some d)
    (hidle : tab.iterationId = -1) (hshows : Shows visit db tab d)
    (hw : WorkRight db i.id visit.userId i) (his : i.serviceId = shownService d) :
    Coherent visit db (setIterationId visit env db i.id { tab with inIteration := true }) := by
  have hne : ¬ (i.id : ℤ) = tab.iterationId := by
    rw [hidle]
    omega
  unfold setIterationId
  rw [if_neg hne]
  have hworks : Works _ (fetchIterationDetail visit env _
      { tab with inIteration := true, iterationId := i.id }) d :=
    works_fetched hi rfl hw his hshows.categories
  rw [fetchIterationDetail_eq rfl hw] at hworks ⊢
  refine ⟨?_, ?_, fun _ => ⟨d, htab, hd ▸ rfl, hworks⟩, fun h => by cases h⟩
  · intro e he
    cases Option.some.inj (htab.symm.trans he)
    exact ⟨hshows.service, hshows.iteration, hshows.categories, hshows.apis⟩
  · intro _ e he
    cases Option.some.inj (htab.symm.trans he)
    rw [hd]
    rfl

theorem sound_startIteration (h : Sound visit (db, tab)) (hin : tab.inIteration = false)
    (hlatest : tab.isLatest = true) : Sound visit (handleStartIteration visit env db tab) := by
  unfold handleStartIteration
  cases hd : tab.serviceDetail with
  | none => exact h
  | some d =>
    have hshows := h.coherent.shows d hd
    cases d with
    | earlier detail => cases h.coherent.latest hlatest _ hd
    | latest detail =>
      dsimp only [detailId]
      cases hr : serviceStartIteration env detail.service.id visit.userId db with
      | error e => exact h
      | ok p =>
        obtain ⟨db', reply⟩ := p
        have hi' := effect_preserves nests_joint (serviceStartIteration_effect hr)
          (payloadGuard_true _) h.invariant
        refine ⟨hi', ?_⟩
        dsimp only
        rcases serviceStartIteration_cases hr with ⟨_, rfl, i, hi, hid⟩ |
          ⟨_, hid, _, _, ⟨s, hs, hsid, _⟩, drafts, _, rfl⟩
        · simp only [openIterations, List.mem_filter, Bool.and_eq_true, beq_iff_eq,
            Bool.not_eq_true'] at hi
          obtain ⟨hm, ⟨his, hopen⟩, hcreator⟩ := hi
          obtain ⟨s, hs, hsid, _⟩ := hshows.service
          rw [hid, ← hd]
          exact coherent_started rfl hi' hd (h.coherent.idle hin) hshows
            ⟨hm, rfl, hopen, s, hs, hsid.trans his.symm, Or.inr (Or.inl hcreator)⟩ his
        · rw [hid, ← hd]
          refine coherent_started (i := ⟨db.iterations.next, detail.service.id,
            some visit.userId, none, none, false⟩) rfl hi' hd (h.coherent.idle hin) ?_ ?_ rfl
          · exact ⟨hshows.service, fun _ he => (by cases he), hshows.categories,
              hshows.apis.same, hshows.apis.old⟩
          · exact ⟨List.mem_append_right _ List.mem_cons_self, rfl, rfl, s, hs, hsid,
              Or.inr (Or.inl rfl)⟩

end Drafts

section Categories

variable {visit : Visit} {env : Environment} {db : Database} {tab : ServiceTab}
  {apiCategories : List ApiCategory} {apis rows : List ApiRow}

theorem apisOf_setCategories (g : ApiRow → Option ℕ) (st : ApiStore) (c : ℕ) :
    (setCategories g st).apisOf c = (st.apisOf c).map (setCategory g) := by
  have swap : (fun a : ApiRow => a.container == c) ∘ setCategory g = fun a => a.container == c :=
    rfl
  rw [ApiStore.apisOf, setCategories_rows, List.filter_map, swap]
  rfl

/-- A new category has an id that no copy names. -/
theorem copies_extended (h : Copies db apiCategories apis rows) {c : ApiCategory}
    (hc : c.id = db.categories.next) :
    Copies { db with categories := db.categories.insert c } (apiCategories ++ [c]) apis rows := by
  have hsettled : ∀ a ∈ apis, settled (apiCategories ++ [c]) a = settled apiCategories a := by
    intro a ha
    have hcategory : knownCategory (apiCategories ++ [c]) a = knownCategory apiCategories a := by
      refine Option.ext fun k => ?_
      rw [knownCategory_eq_some, knownCategory_eq_some]
      refine and_congr_right fun hk => ?_
      have hold := h.old a ha k hk
      constructor
      · rintro ⟨cat, hm, rfl⟩
        rcases List.mem_append.mp hm with hm | hm
        · exact ⟨cat, hm, rfl⟩
        · rw [List.mem_singleton.mp hm] at hold
          omega
      · rintro ⟨cat, hm, rfl⟩
        exact ⟨cat, List.mem_append_left _ hm, rfl⟩
    unfold settled
    rw [hcategory]
  refine ⟨?_, ?_⟩
  · rw [List.map_congr_left hsettled]
    exact h.same
  · intro a ha k hk
    have := h.old a ha k hk
    rw [Table.insert_next]
    omega

/-- Copies that change in step with their rows. -/
theorem copies_mapped {db' : Database} {apiCategories' : List ApiCategory} {f : ApiRow → ApiRow}
    {g : ApiRow → Option ℕ} (h : Copies db apiCategories apis rows)
    (hstep : ∀ a ∈ apis, settled apiCategories' (f a) = setCategory g (settled apiCategories a))
    (hold : ∀ a ∈ apis, ∀ k, (f a).fields.categoryId = some k → k < db'.categories.next) :
    Copies db' apiCategories' (apis.map f) (rows.map (setCategory g)) := by
  refine ⟨?_, ?_⟩
  · have hmap : (apis.map f).map (settled apiCategories') =
        (apis.map (settled apiCategories)).map (setCategory g) := by
      rw [List.map_map, List.map_map]
      exact List.map_congr_left hstep
    rw [hmap]
    exact h.same.map _
  · intro a ha
    obtain ⟨b, hb, rfl⟩ := List.mem_map.mp ha
    exact hold b hb

/-- The copies of the apis in a category that is deleted are left as they are. -/
theorem copies_shrunk {db' : Database} (hnext : db'.categories.next = db.categories.next)
    (h : Copies db apiCategories apis rows) (k : ℕ) :
    Copies db' (apiCategories.filter (fun cat => cat.id != k)) apis
      (rows.map (setCategory (clearCategory k))) := by
  have hcategory : ∀ a : ApiRow, knownCategory (apiCategories.filter (fun cat => cat.id != k)) a =
      clearCategory k (settled apiCategories a) := by
    intro a
    have hclear : ∀ o : Option ℕ, ∀ j, (if o = some k then none else o) = some j ↔
        o = some j ∧ j ≠ k := by
      intro o j
      split
      · rename_i ho
        simp only [reduceCtorEq, false_iff, not_and, not_not]
        intro hj
        exact Option.some.inj (hj.symm.trans ho)
      · rename_i ho
        refine ⟨fun hj => ⟨hj, ?_⟩, fun hj => hj.1⟩
        rintro rfl
        exact ho hj
    refine Option.ext fun j => ?_
    rw [clearCategory, hclear, knownCategory_eq_some]
    change _ ↔ knownCategory apiCategories a = some j ∧ _
    rw [knownCategory_eq_some]
    constructor
    · rintro ⟨hj, cat, hm, rfl⟩
      rw [List.mem_filter, bne_iff_ne] at hm
      exact ⟨⟨hj, cat, hm.1, rfl⟩, hm.2⟩
    · rintro ⟨⟨hj, cat, hm, rfl⟩, hne⟩
      exact ⟨hj, cat, List.mem_filter.mpr ⟨hm, bne_iff_ne.mpr hne⟩, rfl⟩
  have hmapped : Copies db' (apiCategories.filter (fun cat => cat.id != k)) (apis.map (fun a => a))
      (rows.map (setCategory (clearCategory k))) := by
    refine copies_mapped h ?_ (fun a ha j hj => hnext ▸ h.old a ha j hj)
    intro a _
    unfold setCategory
    rw [← hcategory]
    rfl
  rwa [List.map_id'] at hmapped

/-- An api is moved to a category that the page knows, or to none. -/
theorem copies_moved {db' : Database} (hnext : db'.categories.next = db.categories.next)
    (h : Copies db apiCategories apis rows) {apiId : ℕ} {categoryId : ℤ} {k : Option ℕ}
    (hk : k = if 0 ≤ categoryId then some categoryId.toNat else none)
    (hknown : ∀ a ∈ rows, a.id = apiId → ∀ j, k = some j →
      (∃ cat ∈ apiCategories, cat.id = j) ∧ j < db.categories.next) :
    Copies db' apiCategories (apis.map (movedTo apiId categoryId))
      (rows.map (setCategory (assignCategory apiId k))) := by
  have hrow : ∀ a ∈ apis, a.id = apiId → ∀ j, k = some j →
      (∃ cat ∈ apiCategories, cat.id = j) ∧ j < db.categories.next := by
    intro a ha hid
    exact hknown (settled apiCategories a) (h.same.mem_iff.mp (List.mem_map_of_mem ha)) hid
  refine copies_mapped h ?_ ?_
  · intro a ha
    unfold movedTo
    by_cases hid : a.id = apiId
    · rw [if_pos hid, ← hk]
      have hcategory : knownCategory apiCategories
          { a with fields := { a.fields with categoryId := k } } = k := by
        refine Option.ext fun j => ?_
        rw [knownCategory_eq_some]
        exact ⟨fun hj => hj.1, fun hj => ⟨hj, (hrow a ha hid j hj).1⟩⟩
      have hassign : assignCategory apiId k (settled apiCategories a) = k := if_pos hid
      unfold settled setCategory at *
      rw [hcategory, hassign]
    · rw [if_neg hid]
      have hassign : assignCategory apiId k (settled apiCategories a) =
          (settled apiCategories a).fields.categoryId := if_neg hid
      unfold setCategory
      rw [hassign]
  · intro a ha j hj
    rw [hnext]
    unfold movedTo at hj
    by_cases hid : a.id = apiId
    · rw [if_pos hid, ← hk] at hj
      exact (hrow a ha hid j hj).2
    · rw [if_neg hid] at hj
      exact h.old a ha j hj

theorem coherent_added {c : ApiCategory} {d : VersionDetail} (h : Coherent visit db tab)
    (hin : tab.inIteration = false) (hd : tab.serviceDetail = some d) (hlatest : d.isLatest = true)
    (hs : c.serviceId = shownService d) (hc : c.id = db.categories.next) :
    Coherent visit { db with categories := db.categories.insert c }
      { tab with apiCategories := tab.apiCategories ++ [c] } := by
  have hshows := h.shows d hd
  have hrows : serviceCategories { db with categories := db.categories.insert c }
      (shownService d) = serviceCategories db (shownService d) ++ [c] := by
    have hset : setKey db.categories.next c = c := by
      rw [category_setKey, ← hc]
    have hone : [c].filter (fun e => e.serviceId == shownService d) = [c] :=
      List.filter_eq_self.mpr (by simpa using hs)
    unfold serviceCategories
    rw [Table.insert_rows, List.filter_append, hset, hone]
  refine ⟨?_, h.latest, fun hworking => ?_, h.idle⟩
  · intro e he
    cases Option.some.inj (hd.symm.trans he)
    refine ⟨hshows.service, hshows.iteration, ?_, ?_⟩
    · rw [hrows]
      exact hshows.categories.append_right _
    · cases d with
      | latest detail => exact copies_extended hshows.apis hc
      | earlier detail => cases hlatest
  · have hin' : tab.inIteration = true := hworking
    rw [hin] at hin'
    cases hin'

theorem sound_addCategory (h : Sound visit (db, tab)) (hin : tab.inIteration = false)
    (hlatest : tab.isLatest = true) (categoryName description : String) :
    Sound visit (handleAddCategory visit db categoryName description tab) := by
  unfold handleAddCategory
  cases hd : tab.serviceDetail with
  | none => exact h
  | some d =>
    cases d with
    | earlier detail => cases h.coherent.latest hlatest _ hd
    | latest detail =>
      dsimp only [detailId]
      cases hr : apiAddCategoryByServiceId detail.service.id visit.userId categoryName
          (some description) db with
      | error e => exact h
      | ok p =>
        obtain ⟨db', reply⟩ := p
        have he : Effect plainEnvironment db _ db' := apiAddCategoryByServiceId_effect hr
        have hi' := effect_preserves nests_joint he (payloadGuard_true _) h.invariant
        refine ⟨hi', ?_⟩
        simp only [apiAddCategoryByServiceId, bind_eq_ok, pure_eq_ok, Prod.mk.injEq] at hr
        obtain ⟨_, _, _, _, _, _, name, _, rfl, rfl⟩ := hr
        dsimp only
        rw [← hd]
        exact coherent_added h.coherent hin hd rfl rfl rfl

theorem sound_deleteCategory (h : Sound visit (db, tab)) (categoryId : ℕ) :
    Sound visit (handleDeleteCategory visit db categoryId tab) := by
  unfold handleDeleteCategory
  cases hr : apiDeleteCategoryById categoryId visit.userId db with
  | error e => exact h
  | ok p =>
    obtain ⟨db', reply⟩ := p
    have he : Effect plainEnvironment db _ db' := apiDeleteCategoryById_effect hr
    have hi' := effect_preserves nests_joint he (payloadGuard_true _) h.invariant
    refine ⟨hi', ?_⟩
    cases he with
    | @categoryDeleted _ _ c s hc hid hs hsid _ =>
      subst hid
      have hcategories : ∀ serviceId, serviceCategories { db with
          live := setCategories (clearCategory c.id) db.live
          drafts := setCategories (clearCategory c.id) db.drafts
          categories := db.categories.restrict (fun d => d.id != c.id) } serviceId =
            (serviceCategories db serviceId).filter (fun d => d.id != c.id) := by
        intro serviceId
        unfold serviceCategories
        rw [Table.restrict_rows, List.filter_filter, List.filter_filter]
        exact List.filter_congr (fun d _ => Bool.and_comm _ _)
      refine ⟨?_, h.coherent.latest, ?_, h.coherent.idle⟩
      · intro d hd
        have hshows := h.coherent.shows d hd
        refine ⟨hshows.service, hshows.iteration, ?_, ?_⟩
        · rw [hcategories]
          exact hshows.categories.filter _
        · cases d with
          | latest detail =>
            unfold versionRows
            dsimp only
            rw [apisOf_setCategories]
            refine copies_shrunk ?_ hshows.apis c.id
            rfl
          | earlier detail =>
            unfold versionRows
            dsimp only
            rw [apisOf_setCategories]
            refine copies_shrunk ?_ hshows.apis c.id
            rfl
      · intro hworking
        obtain ⟨d, hd, hlatest, i, hi, hiid, his, hcopies⟩ := h.coherent.working hworking
        refine ⟨d, hd, hlatest, i, hi, hiid, his, ?_⟩
        dsimp only
        rw [apisOf_setCategories]
        refine copies_shrunk ?_ hcopies c.id
        rfl

/-- Where the backend moves an api. -/
theorem category_moved {apiId userId : ℕ} {categoryId : ℤ} {db' : Database} {reply : Reply Unit}
    (hid : 0 ≤ categoryId ∨ categoryId = -1)
    (h : apiUpdateApiCategory apiId categoryId userId db = .ok (db', reply)) :
    ∃ a k, a ∈ db.live.apis.rows ∧ a.id = apiId ∧
      k = (if 0 ≤ categoryId then some categoryId.toNat else none) ∧
      (∀ j, k = some j → ∃ c ∈ db.categories.rows, c.id = j ∧ c.serviceId = a.container) ∧
      db' = { db with live := setCategories (assignCategory apiId k) db.live } := by
  simp only [apiUpdateApiCategory, bind_eq_ok, orAbort_eq_ok, Table.find?_eq_some, api_key] at h
  obtain ⟨a, ⟨ha, rfl⟩, _, _, _, _, _, _, _, _, h⟩ := h
  split at h
  · rename_i hnone
    simp only [pure_eq_ok, Prod.mk.injEq] at h
    obtain ⟨rfl, _⟩ := h
    refine ⟨a, none, ha, rfl, ?_, fun j hj => (by cases hj), rfl⟩
    rw [hnone]
    rfl
  · rename_i hsome
    simp only [bind_eq_ok, orAbort_eq_ok, require_eq_ok, Table.find?_eq_some, category_key,
      pure_eq_ok, Prod.mk.injEq, beq_iff_eq] at h
    obtain ⟨c, ⟨hc, hcid⟩, _, hcs, rfl, _⟩ := h
    refine ⟨a, some c.id, ha, rfl, ?_, ?_, rfl⟩
    · rw [if_pos (hid.resolve_right hsome), hcid]
    · rintro j hj
      exact ⟨c, hc, Option.some.inj hj, hcs⟩

theorem sound_updateApiCategory (h : Sound visit (db, tab)) (hin : tab.inIteration = false)
    (hlatest : tab.isLatest = true) (apiId : ℕ) {categoryId : ℤ}
    (hid : 0 ≤ categoryId ∨ categoryId = -1) :
    Sound visit (handleUpdateApiCategory visit db apiId categoryId tab) := by
  unfold handleUpdateApiCategory
  cases hr : apiUpdateApiCategory apiId categoryId visit.userId db with
  | error e => exact h
  | ok p =>
    obtain ⟨db', reply⟩ := p
    have he : Effect plainEnvironment db _ db' := apiUpdateApiCategory_effect hr
    have hi' := effect_preserves nests_joint he (payloadGuard_true _) h.invariant
    refine ⟨hi', ?_⟩
    obtain ⟨a, k, ha, haid, hk, hcat, rfl⟩ := category_moved hid hr
    refine ⟨?_, h.coherent.latest, fun hworking => ?_, h.coherent.idle⟩
    · intro d hd
      have hshows := h.coherent.shows d hd
      cases d with
      | earlier detail => cases h.coherent.latest hlatest _ hd
      | latest detail =>
        refine ⟨hshows.service, hshows.iteration, hshows.categories, ?_⟩
        unfold versionRows
        dsimp only
        rw [apisOf_setCategories]
        refine copies_moved ?_ hshows.apis hk ?_
        · rfl
        · intro b hb hbid j hj
          obtain ⟨hb, hbc⟩ := ApiStore.mem_apisOf.mp hb
          obtain ⟨c, hc, rfl, hcs⟩ := hcat j hj
          have hab : a = b := db.live.apis.eq_of_key_eq ha hb (haid.trans hbid.symm)
          rw [hab, hbc] at hcs
          have hmem : c ∈ tab.apiCategories :=
            hshows.categories.mem_iff.mpr (List.mem_filter.mpr ⟨hc, beq_iff_eq.mpr hcs⟩)
          exact ⟨⟨c, hmem, rfl⟩, (db.categories.bounds c hc).2⟩
    · have hin' : tab.inIteration = true := hworking
      rw [hin] at hin'
      cases hin'

theorem dropCategory_range {dropNode : DraggedNode} {categoryId : ℤ}
    (h : dropCategory dropNode = some categoryId) : 0 ≤ categoryId ∨ categoryId = -1 := by
  have hkey : ∀ key, categoryOfKey key = some categoryId → 0 ≤ categoryId ∨ categoryId = -1 := by
    intro key hkey
    cases key with
    | api id => cases hkey
    | category k =>
      rw [← Option.some.inj hkey]
      exact Or.inl (Int.natCast_nonneg k)
    | uncategorised => exact Or.inr (Option.some.inj hkey).symm
  unfold dropCategory at h
  split at h
  · obtain ⟨key, _, hcategory⟩ := Option.bind_eq_some_iff.mp h
    exact hkey key hcategory
  · exact hkey _ h

theorem sound_drag (h : Sound visit (db, tab)) (dragNode dropNode : DraggedNode) :
    Sound visit (handleDrag visit db dragNode dropNode tab) := by
  unfold handleDrag
  split
  · exact h
  · rename_i hfree
    rw [Bool.or_eq_true, not_or, Bool.not_eq_true, Bool.not_eq_true, Bool.not_eq_false'] at hfree
    split
    · rename_i apiId categoryId hdragged
      refine sound_updateApiCategory h hfree.1 hfree.2 apiId ?_
      unfold dragged at hdragged
      split at hdragged
      · rename_i hdrop
        split at hdragged
        · cases hdragged
        · rw [Option.some_inj, Prod.mk.injEq] at hdragged
          exact hdragged.2 ▸ dropCategory_range hdrop
      · cases hdragged
    · exact h

end Categories

section Runs

variable {visit : Visit} {env : Environment} {db db' : Database} {tab : ServiceTab}

theorem sound_exit (h : Sound visit (db, tab)) :
    Sound visit (db, exitIteration visit env db tab) := by
  have hnone : fetchIterationDetail visit env db
      { tab with inIteration := false, iterationId := -1 } =
        { tab with inIteration := false, iterationId := -1 } := if_pos (by dsimp only; omega)
  have hexit : exitIteration visit env db tab =
      { tab with inIteration := false, iterationId := -1 } := by
    unfold exitIteration setIterationId
    split
    · rename_i hid
      rw [hid]
    · exact hnone
  rw [hexit]
  refine ⟨h.invariant, ?_, h.coherent.latest, fun hin => (by cases hin), fun _ => rfl⟩
  intro d hd
  have hshows := h.coherent.shows d hd
  exact ⟨hshows.service, hshows.iteration, hshows.categories, hshows.apis⟩

/-- Ids of categories are not used twice. -/
theorem categories_next_le {operation : Operation} (he : Effect env db operation db') :
    db.categories.next ≤ db'.categories.next := by
  cases he with
  | categoryAdded _ _ _ _ _ _ => exact Nat.le_succ _
  | _ => exact Nat.le_refl _

/-- Nothing of the service changed. -/
theorem coherent_same (h : Coherent visit db tab) (hnext : db.categories.next ≤ db'.categories.next)
    (hsame : ∀ d, tab.serviceDetail = some d → SameService (shownService d) db db') :
    Coherent visit db' tab := by
  have iteration_stays : ∀ d, tab.serviceDetail = some d → ∀ i ∈ db.iterations.rows,
      i.serviceId = shownService d → i ∈ db'.iterations.rows := by
    intro d hd i hi his
    have hmem : i ∈ db.iterations.rows.filter (fun j => j.serviceId == shownService d) :=
      List.mem_filter.mpr ⟨hi, beq_iff_eq.mpr his⟩
    rw [← (hsame d hd).iterations] at hmem
    exact List.mem_of_mem_filter hmem
  have copies_stay : ∀ {apis rows : List ApiRow}, Copies db tab.apiCategories apis rows →
      Copies db' tab.apiCategories apis rows :=
    fun hcopies => ⟨hcopies.same, fun a ha k hk => (hcopies.old a ha k hk).trans_le hnext⟩
  refine ⟨?_, h.latest, ?_, h.idle⟩
  · intro d hd
    have hshows := h.shows d hd
    obtain ⟨s, hs, hsid, huuid⟩ := hshows.service
    have hrows : versionRows db' d = versionRows db d := by
      cases d with
      | latest detail => exact (hsame _ hd).live.apis
      | earlier detail =>
        obtain ⟨i, hi, hid, his⟩ := hshows.iteration detail rfl
        have hdrafts := ((hsame _ hd).drafts i hi his).apis
        rw [hid] at hdrafts
        exact hdrafts
    refine ⟨⟨s, ?_, hsid, huuid⟩, ?_, ?_, hrows ▸ copies_stay hshows.apis⟩
    · have hfind := (hsame d hd).service
      rw [Table.find?_eq_some.mpr ⟨hs, hsid⟩] at hfind
      exact (Table.find?_eq_some.mp hfind).1
    · intro detail hdetail
      obtain ⟨i, hi, hid, his⟩ := hshows.iteration detail hdetail
      exact ⟨i, iteration_stays d hd i hi his, hid, his⟩
    · have hcats := (hsame d hd).categories
      unfold serviceCategories
      rw [hcats]
      exact hshows.categories
  · intro hworking
    obtain ⟨d, hd, hlatest, i, hi, hid, his, hcopies⟩ := h.working hworking
    refine ⟨d, hd, hlatest, i, iteration_stays d hd i hi his, hid, his, ?_⟩
    rw [((hsame d hd).drafts i hi his).apis]
    exact copies_stay hcopies

/-- Others leave the service alone, and no mail about a release raises. -/
def Undisturbed (visit : Visit) (state : Database × ServiceTab) : TabEvent → Prop
  | .used env (.completeIteration newVersion) => ∀ db' e, serviceCommitIteration env
      state.2.iterationId.toNat newVersion visit.userId state.1 ≠ .ok (db', .error e)
  | .used _ _ => True
  | .other request => ∀ d, state.2.serviceDetail = some d → ∀ s ∈ state.1.services.rows,
      s.id = shownService d → ∀ u, actor request.operation = some u →
        ¬ MayChange state.1 s request.operation u

theorem sound_complete (h : Sound visit (db, tab)) {newVersion : String}
    (hmail : ∀ db' e, serviceCommitIteration env tab.iterationId.toNat newVersion visit.userId db ≠
      .ok (db', .error e)) :
    Sound visit (handleCompleteIteration visit env db newVersion tab) := by
  unfold handleCompleteIteration
  cases hr : serviceCommitIteration env tab.iterationId.toNat newVersion visit.userId db with
  | error e => exact h
  | ok p =>
    obtain ⟨db', notification⟩ := p
    cases notification with
    | error e => exact absurd hr (hmail db' e)
    | ok reply =>
      have hi' := effect_preserves nests_joint (serviceCommitIteration_effect hr)
        (payloadGuard_true _) h.invariant
      exact ⟨hi', coherent_opened hi' visit env⟩

theorem sound_perform (h : Sound visit (db, tab)) (action : Action)
    (hg : Undisturbed visit (db, tab) (.used env action)) :
    Sound visit (perform visit env db tab action) := by
  unfold perform
  cases hoffered : offered tab action with
  | false => exact h
  | true =>
    rw [if_pos rfl]
    cases action with
    | reload => exact ⟨h.invariant, coherent_opened h.invariant visit env⟩
    | setCurrentVersion version =>
      simp only [offered, Bool.and_eq_true, Bool.not_eq_true'] at hoffered
      obtain ⟨⟨⟨hdisplayed, hin⟩, _⟩, _⟩ := hoffered
      unfold ServiceTab.displayed at hdisplayed
      cases hd : tab.serviceDetail with
      | none =>
        rw [hd] at hdisplayed
        cases hdisplayed
      | some d => exact ⟨h.invariant, coherent_fetched h.invariant h.coherent hd hin version⟩
    | addCategory categoryName description =>
      simp only [offered, Bool.and_eq_true, Bool.not_eq_true'] at hoffered
      exact sound_addCategory h hoffered.1.2 hoffered.2 categoryName description
    | drag dragNode dropNode => exact sound_drag h dragNode dropNode
    | deleteCategory categoryId => exact sound_deleteCategory h categoryId
    | startIteration =>
      simp only [offered, Bool.and_eq_true, Bool.not_eq_true'] at hoffered
      exact sound_startIteration h hoffered.1.2 hoffered.2
    | exitIteration => exact sound_exit h
    | completeIteration newVersion => exact sound_complete h hg
    | addApi name method path description level categoryId =>
      simp only [offered, Bool.and_eq_true] at hoffered
      exact sound_addApi h hoffered.2 name method path description level categoryId
    | copyApi apiDraftId =>
      simp only [offered, Bool.and_eq_true] at hoffered
      exact sound_copyApi h hoffered.2 apiDraftId
    | deleteApi apiDraftId =>
      simp only [offered, Bool.and_eq_true] at hoffered
      exact sound_deleteApi h hoffered.2 apiDraftId
    | saveApiDraft apiDraftId name method path description level reqParams respParams =>
      simp only [offered, Bool.and_eq_true] at hoffered
      exact sound_saveApiDraft h hoffered.2 apiDraftId name method path description level
        reqParams respParams

theorem sound_step {state state' : Database × ServiceTab} {event : TabEvent}
    (h : Sound visit state) (hg : Undisturbed visit state event)
    (hstep : tabStep visit state event = .ok state') : Sound visit state' := by
  obtain ⟨db, tab⟩ := state
  cases event with
  | used env action =>
    have hperform : perform visit env db tab action = state' := Except.ok.inj hstep
    exact hperform ▸ sound_perform h action hg
  | other request =>
    cases ht : transaction db request with
    | error e =>
      simp only [tabStep, ht] at hstep
      cases hstep
    | ok db' =>
      simp only [tabStep, ht] at hstep
      have he := transaction_effect ht
      rw [← Except.ok.inj hstep]
      refine ⟨effect_preserves nests_joint he (payloadGuard_true _) h.invariant,
        coherent_same h.coherent (categories_next_le he) ?_⟩
      intro d hd
      obtain ⟨s, hs, hsid, _⟩ := (h.coherent.shows d hd).service
      rcases service_unchanged_or_mayChange h.invariant he hs with hsame | ⟨u, hu, hmay⟩
      · exact hsid ▸ hsame
      · exact absurd hmay (hg d hd s hs hsid u hu)

theorem sound_run {state : Database × ServiceTab} (hreach : Reachable db)
    (hrun : Runs (tabStep visit) (Undisturbed visit) (db, fetchAllVersions visit env db) state) :
    Sound visit state :=
  hrun.preserves (fun _ _ _ => sound_step)
    ⟨reachable_invariant hreach, coherent_opened (reachable_invariant hreach) visit env⟩

def visitEvents : List TabEvent :=
  [.used plainEnvironment (.addCategory "accounts" "about accounts"),
    .used plainEnvironment (.addCategory "users" "about users"),
    .used plainEnvironment (.drag ⟨.api 1, some .uncategorised⟩ ⟨.category 1, none⟩),
    .other ⟨plainEnvironment, .userRegister "newcomer" "secret" none none "guest"⟩,
    .used plainEnvironment .startIteration,
    .used plainEnvironment (.addApi "pay" "POST" "/pay" "" "P2" (some 1)),
    .used plainEnvironment .exitIteration]

def ownerVisit : Visit := ⟨1, "team/core"⟩

def visited : Database × ServiceTab :=
  runEvents (tabStep ownerVisit)
    (published, fetchAllVersions ownerVisit plainEnvironment published) visitEvents

theorem visited_run : Runs (tabStep ownerVisit) (Undisturbed ownerVisit)
    (published, fetchAllVersions ownerVisit plainEnvironment published) visited := by
  refine runs_runEvents _ _ _ ?_ (.refl _)
  intro event hevent state
  simp only [visitEvents, List.mem_cons, List.not_mem_nil, or_false] at hevent
  rcases hevent with rfl | rfl | rfl | rfl | rfl | rfl | rfl
  case inr.inr.inr.inl =>
    rintro _ _ _ _ _ u hu
    cases hu
  all_goals trivial

def accounts : TreeGroup :=
  ⟨.category 1, some (⟨"accounts", by decide⟩, some "about accounts"),
    [⟨1, .get, ⟨"list", by decide⟩, ⟨"/users", by decide⟩⟩]⟩

theorem users_fits : "users".length ≤ 64 := by decide

def users : TreeGroup := ⟨.category 2, some (⟨"users", users_fits⟩, some "about users"), []⟩

theorem visited_tree : visited.2.tree = some [accounts, users, uncategorizedGroup] := by
  decide +kernel

def backwards : Environment :=
  { plainEnvironment with fetch := List.reverse, fetch_perm := List.reverse_perm }

end Runs

end TabCoherence
