import ApiManagement.IterationCopies
import ApiManagement.WriteRights

/-! # What operations keep

Apart from the category of an api, the drafts of an iteration change only by operations that
name it while it is uncommitted, and the live apis of a service only by commits. The row of a
committed iteration changes no more, and versions are written by commits alone. -/
namespace KeptContent

open TransactionRuns KeyedTables ParentLinkedRows PythonRuntime ServiceSchema ApiStores
  StoreCopies ServiceOperations ApiOperations OperationRuns OperationEffects StateInvariant
  IterationCopies DraftIsolation WriteRights

def uncategorised (f : ApiFields) : ApiFields := { f with categoryId := none }

/-- The container has the same apis under the same ids, but for their categories, with the
same params. -/
structure Kept (c : ℕ) (st st' : ApiStore) : Prop where
  apis : (st'.apisOf c).map (seen uncategorised) = (st.apisOf c).map (seen uncategorised)
  requests : ∀ a ∈ st.apisOf c, st'.requestParamsOf a.id = st.requestParamsOf a.id
  responses : ∀ a ∈ st.apisOf c, st'.responseParamsOf a.id = st.responseParamsOf a.id

section Stores

variable {c : ℕ} {st st' u : ApiStore}

theorem Kept.refl (c : ℕ) (st : ApiStore) : Kept c st st := ⟨rfl, fun _ _ => rfl, fun _ _ => rfl⟩

theorem Kept.image (h : Kept c st st') {a : ApiRow} (ha : a ∈ st.apisOf c) :
    ∃ b ∈ st'.apisOf c, b.id = a.id ∧ uncategorised b.fields = uncategorised a.fields := by
  have hm : seen uncategorised a ∈ (st'.apisOf c).map (seen uncategorised) :=
    h.apis ▸ List.mem_map_of_mem ha
  obtain ⟨b, hb, he⟩ := List.mem_map.mp hm
  have hid : (seen uncategorised b).id = (seen uncategorised a).id := congrArg ApiRow.id he
  exact ⟨b, hb, hid, congrArg ApiRow.fields he⟩

theorem Kept.trans (h : Kept c st st') (k : Kept c st' u) : Kept c st u := by
  refine ⟨k.apis.trans h.apis, ?_, ?_⟩
  · intro a ha
    obtain ⟨b, hb, hid, _⟩ := h.image ha
    have hk := k.requests b hb
    rw [hid] at hk
    exact hk.trans (h.requests a ha)
  · intro a ha
    obtain ⟨b, hb, hid, _⟩ := h.image ha
    have hk := k.responses b hb
    rw [hid] at hk
    exact hk.trans (h.responses a ha)

theorem kept_of_outside {d : ℕ} (h : SameOutside c st st') (hd : d ≠ c) : Kept d st st' := by
  have hs := sameContainer_of_outside h hd
  exact ⟨congrArg _ hs.apis, hs.requests, hs.responses⟩

theorem kept_of_categories (g : ApiRow → Option ℕ) : Kept c st (setCategories g st) := by
  refine ⟨?_, fun _ _ => rfl, fun _ _ => rfl⟩
  have swap : (fun a : ApiRow => a.container == c) ∘ setCategory g = fun a => a.container == c :=
    rfl
  rw [ApiStore.apisOf, setCategories_rows, List.filter_map, swap, List.map_map]
  rfl

theorem graft_id_eq {F : Type} {h : ℕ} {rows : List (LinkedRow F)}
    (hh : ∀ r ∈ rows, r.holder = h) : rows.map (graft id h) = rows := by
  have keep : ∀ r ∈ rows, graft id h r = r := by
    intro r hr
    rw [graft, Option.map_id, id, id, ← hh r hr]
  exact (List.map_congr_left keep).trans (List.map_id' _)

theorem Snapshot.refl (st : ApiStore) (c : ℕ) : Snapshot id st c st c := by
  refine ⟨id, fun _ => id, fun _ => id, ?_, ?_, ?_, Function.injective_id.injOn,
    fun _ _ => Function.injective_id.injOn, fun _ _ => Function.injective_id.injOn⟩
  · refine List.Perm.of_eq (List.map_congr_left ?_)
    intro a ha
    show a = ⟨a.id, c, a.fields⟩
    rw [← (ApiStore.mem_apisOf.mp ha).2]
  · intro a _
    rw [id, graft_id_eq (fun r hr => (ApiStore.mem_requestParamsOf.mp hr).2)]
  · intro a _
    rw [id, graft_id_eq (fun r hr => (ApiStore.mem_responseParamsOf.mp hr).2)]

/-- A snapshot of what was kept is one of what there is now. -/
theorem Kept.snapshot {source : ApiStore} {d : ℕ} (h : Kept c st st')
    (k : Snapshot uncategorised source d st c) : Snapshot uncategorised source d st' c :=
  k.of_same h.apis h.requests h.responses

end Stores

section Step

variable {db db' : Database} {env : Environment} {operation : Operation}

theorem draftIteration_of_edited {k : ℕ} (h : editedIteration operation = some k) :
    draftIteration operation = some k := by
  cases operation
  case serviceUpdateDescription => cases h
  all_goals exact h

/-- Drafts of an iteration change only by operations that edit it. -/
theorem drafts_kept (hi : Invariant Nests db) (he : Effect env db operation db') {j : ℕ}
    (hj : j ≠ db.iterations.next) (hop : editedIteration operation ≠ some j) :
    Kept j db.drafts db'.drafts := by
  cases hed : editedIteration operation with
  | some k =>
    have hne : j ≠ k := fun h => hop (h ▸ hed)
    exact kept_of_outside (draft_effect_confined hi he (draftIteration_of_edited hed)).drafts hne
  | none =>
    cases he with
    | @iterationStarted serviceId userId _ drafts _ _ _ _ _ hcopy =>
      obtain ⟨_, _, _, _, _, ho⟩ := started_copies hi hcopy
      exact kept_of_outside ho hj
    | categoryDeleted _ _ _ _ _ => exact kept_of_categories _
    | draftAdded _ _ _ _ _ _ _ _ _ => cases hed
    | draftCopied _ _ _ _ _ _ _ _ _ => cases hed
    | draftDeleted _ _ _ _ => cases hed
    | draftUpdated _ _ _ _ _ _ _ _ _ => cases hed
    | _ => exact Kept.refl _ _

def Publishes (db : Database) (serviceId : ℕ) (version : String) (operation : Operation) : Prop :=
  ∃ iterationId userId, operation = .serviceCommitIteration iterationId version userId ∧
    ∃ i ∈ db.iterations.rows, i.id = iterationId ∧ i.serviceId = serviceId

/-- Live apis of a service change only by commits of its iterations. -/
theorem live_kept (hi : Invariant Nests db) (he : Effect env db operation db') {serviceId : ℕ}
    (hop : ∀ version, ¬ Publishes db serviceId version operation) :
    Kept serviceId db.live db'.live := by
  cases he with
  | @iterationCommitted _ newVersion userId i s version live hw hs hsid hne hv hcopy =>
    obtain ⟨j, hj, hid, hsame⟩ := commit_effect_confined hi
      (.iterationCommitted hw hs hsid hne hv hcopy)
    apply kept_of_outside hsame.live
    rintro rfl
    exact hop newVersion ⟨_, userId, rfl, j, hj, hid, rfl⟩
  | categoryDeleted _ _ _ _ _ => exact kept_of_categories _
  | apiCategoryUpdated _ _ _ _ _ _ => exact kept_of_categories _
  | _ => exact Kept.refl _ _

/-- Only uncommitted iterations are edited. -/
theorem edited_uncommitted (he : Effect env db operation db') {k : ℕ}
    (hed : editedIteration operation = some k) :
    ∃ i ∈ db.iterations.rows, i.id = k ∧ i.isCommitted = false := by
  have of_right : ∀ {iterationId userId : ℕ} {i : ServiceIteration},
      WorkRight db iterationId userId i → some iterationId = some k →
      ∃ i ∈ db.iterations.rows, i.id = k ∧ i.isCommitted = false := by
    intro iterationId userId i hw hk
    exact ⟨i, hw.mem, hw.id.trans (Option.some.inj hk), hw.uncommitted⟩
  cases he with
  | draftAdded hw _ _ _ _ _ _ _ _ => exact of_right hw hed
  | draftCopied hw _ _ _ _ _ _ _ _ => exact of_right hw hed
  | draftDeleted hw _ _ _ => exact of_right hw hed
  | draftUpdated hw _ _ _ _ _ _ _ _ => exact of_right hw hed
  | _ => cases hed

theorem committed_not_edited (he : Effect env db operation db') {i : ServiceIteration}
    (hm : i ∈ db.iterations.rows) (hc : i.isCommitted = true) :
    editedIteration operation ≠ some i.id := by
  intro hed
  obtain ⟨j, hj, hid, hu⟩ := edited_uncommitted he hed
  rw [db.iterations.eq_of_key_eq hj hm hid, hc] at hu
  cases hu

/-- The row of a committed iteration stays as it is until it is deleted. -/
theorem committed_row_stays (he : Effect env db operation db') {i : ServiceIteration}
    (hm : i ∈ db.iterations.rows) (hc : i.isCommitted = true)
    (hop : ∀ userId, operation ≠ .serviceDeleteIterationById i.id userId) :
    i ∈ db'.iterations.rows := by
  have other : ∀ {k userId : ℕ} {j : ServiceIteration}, WorkRight db k userId j → i.id ≠ j.id := by
    intro k userId j hw hid
    have hu := hw.uncommitted
    rw [← db.iterations.eq_of_key_eq hm hw.mem hid, hc] at hu
    cases hu
  cases he with
  | @iterationDeleted _ userId j _ _ hjid _ _ _ _ =>
    refine List.mem_filter.mpr ⟨hm, ?_⟩
    rw [bne_iff_ne]
    intro hid
    exact hop userId (by rw [hid, hjid])
  | iterationStarted _ _ _ _ _ _ => exact List.mem_append_left _ hm
  | @iterationCommitted _ _ _ _ _ version _ hw _ _ _ _ _ =>
    exact Table.mem_update_other (f := markCommitted version) _ (fun _ => rfl) hm (other hw)
  | @descriptionUpdated _ description _ _ hw =>
    exact Table.mem_update_other (f := setDescription description) _ (fun _ => rfl) hm (other hw)
  | _ => exact hm

/-- An iteration carries the version it had, or is being committed under it. -/
theorem iteration_versions (he : Effect env db operation db') {j : ServiceIteration}
    (hj : j ∈ db'.iterations.rows) {v : VarChar 32} (hv : j.version = some v) :
    ∃ k ∈ db.iterations.rows, k.id = j.id ∧ k.serviceId = j.serviceId ∧
      (k.version = some v ∨ ∃ userId, operation = .serviceCommitIteration j.id v.val userId) := by
  cases he with
  | iterationDeleted _ _ _ _ _ _ =>
    exact ⟨j, List.mem_of_mem_filter hj, rfl, rfl, Or.inl hv⟩
  | iterationStarted _ _ _ _ _ _ =>
    rcases List.mem_append.mp hj with hj | hj
    · exact ⟨j, hj, rfl, rfl, Or.inl hv⟩
    · rw [List.mem_singleton.mp hj] at hv
      cases hv
  | @iterationCommitted _ newVersion userId i s version live hw _ _ _ hval _ =>
    obtain ⟨k, hk, hid, ⟨hki, rfl⟩ | ⟨_, rfl⟩⟩ :=
      db.iterations.update_origin (f := markCommitted version) (fun _ => rfl) hj
    · have hversion : version = v := Option.some.inj hv
      refine ⟨k, hk, hid, rfl, Or.inr ⟨userId, ?_⟩⟩
      rw [← hversion, hval]
      exact congrArg (fun n => Operation.serviceCommitIteration n newVersion userId)
        (hw.id.symm.trans hki.symm)
    · exact ⟨j, hk, rfl, rfl, Or.inl hv⟩
  | @descriptionUpdated _ description _ _ _ =>
    obtain ⟨k, hk, hid, ⟨_, rfl⟩ | ⟨_, rfl⟩⟩ :=
      db.iterations.update_origin (f := setDescription description) (fun _ => rfl) hj
    · exact ⟨k, hk, hid, rfl, Or.inl hv⟩
    · exact ⟨j, hk, rfl, rfl, Or.inl hv⟩
  | _ => exact ⟨j, hj, rfl, rfl, Or.inl hv⟩

theorem next_iteration_le (he : Effect env db operation db') :
    db.iterations.next ≤ db'.iterations.next := by
  cases he with
  | iterationStarted _ _ _ _ _ _ => exact Nat.le_succ _
  | _ => exact le_rfl

/-- An iteration stays with its service. -/
theorem iteration_service_kept (he : Effect env db operation db') {j serviceId : ℕ}
    (hj : j < db.iterations.next)
    (h : ∀ i ∈ db.iterations.rows, i.id = j → i.serviceId = serviceId) :
    ∀ i ∈ db'.iterations.rows, i.id = j → i.serviceId = serviceId := by
  intro i hm hid
  rcases iterations_of_effect he hm with ⟨k, hk, hki, hks, _⟩ | ⟨s, _, _, _, _, rfl⟩
  · exact hks.symm.trans (h k hk (hki.trans hid))
  · exact absurd hid hj.ne'

/-- What a commit leaves: the iteration marked, its drafts as they were and a live copy of
them. -/
theorem commit_outcome (hi : Invariant Nests db) {iterationId userId : ℕ} {newVersion : String}
    (he : Effect env db (.serviceCommitIteration iterationId newVersion userId) db') :
    ∃ i ∈ db.iterations.rows, i.id = iterationId ∧ ∃ version : VarChar 32,
      version.val = newVersion ∧ markCommitted version i ∈ db'.iterations.rows ∧
      db'.drafts = db.drafts ∧ Snapshot id db.drafts iterationId db'.live i.serviceId := by
  cases he with
  | @iterationCommitted _ _ _ i s version live hw _ hsid _ hval hcopy =>
    rw [hsid] at hcopy
    obtain ⟨ν, μ, ρ, hc, _⟩ := committed_copies hi hw.mem hcopy
    refine ⟨i, hw.mem, hw.id, version, hval, List.mem_map.mpr ⟨i, hw.mem, if_pos rfl⟩, rfl, ?_⟩
    rw [← hw.id]
    exact ⟨ν, μ, ρ, committed_replica hc⟩

/-- A service keeps its uuid, and its version unless an iteration of it is committed. -/
theorem service_versions (he : Effect env db operation db') {s : Service}
    (hs : s ∈ db.services.rows) {t : Service} (ht : t ∈ db'.services.rows) (hid : t.id = s.id) :
    t.serviceUuid = s.serviceUuid ∧
      (t.version = s.version ∨ Publishes db s.id t.version.val operation) := by
  have same : t ∈ db.services.rows → t.serviceUuid = s.serviceUuid ∧
      (t.version = s.version ∨ Publishes db s.id t.version.val operation) := by
    intro ht
    rw [db.services.eq_of_key_eq ht hs hid]
    exact ⟨rfl, Or.inl rfl⟩
  have updated : ∀ {k : ℕ} (f : Service → Service) (hf : ∀ r, key (f r) = key r),
      (∀ r, (f r).serviceUuid = r.serviceUuid ∧ (f r).version = r.version) →
      t ∈ (db.services.update k f hf).rows → t.serviceUuid = s.serviceUuid ∧
        (t.version = s.version ∨ Publishes db s.id t.version.val operation) := by
    intro k f hf hkeep ht
    obtain ⟨r, hr, hrt, hx⟩ := db.services.update_origin hf ht
    have hrs : r = s := db.services.eq_of_key_eq hr hs (hrt.trans hid)
    subst hrs
    rcases hx with ⟨_, rfl⟩ | ⟨_, rfl⟩
    · exact ⟨(hkeep r).1, Or.inl (hkeep r).2⟩
    · exact ⟨rfl, Or.inl rfl⟩
  cases he with
  | serviceCreated _ _ _ _ _ _ _ =>
    rcases List.mem_append.mp ht with ht | ht
    · exact same ht
    · rw [List.mem_singleton.mp ht] at hid
      exact absurd hid.symm (Table.key_ne_next hs)
  | serviceDeleted _ _ _ =>
    exact updated (setDeleted (some env.now)) (fun _ => rfl) (fun _ => ⟨rfl, rfl⟩) ht
  | serviceRestored _ _ _ _ =>
    exact updated (setDeleted none) (fun _ => rfl) (fun _ => ⟨rfl, rfl⟩) ht
  | @iterationCommitted _ newVersion userId i r version live hw hr hrid _ hval _ =>
    obtain ⟨x, hx, hxt, horigin⟩ :=
      db.services.update_origin (f := publish i.description version) (fun _ => rfl) ht
    have hxs : x = s := db.services.eq_of_key_eq hx hs (hxt.trans hid)
    subst hxs
    rcases horigin with ⟨hxr, rfl⟩ | ⟨_, rfl⟩
    · refine ⟨rfl, Or.inr ⟨_, userId, ?_, i, hw.mem, hw.id, hrid.symm.trans hxr.symm⟩⟩
      exact congrArg (fun v => Operation.serviceCommitIteration _ v userId) hval.symm
    · exact ⟨rfl, Or.inl rfl⟩
  | _ => exact same ht

/-- A commit writes its version into the row of the service. -/
theorem committed_version {k userId : ℕ} {newVersion : String}
    (he : Effect env db (.serviceCommitIteration k newVersion userId) db') {i : ServiceIteration}
    (hm : i ∈ db.iterations.rows) (hid : i.id = k) {t : Service} (ht : t ∈ db'.services.rows)
    (htid : t.id = i.serviceId) : t.version.val = newVersion := by
  cases he with
  | @iterationCommitted _ _ _ j r version live hw _ hrid _ hval _ =>
    have hij : j = i := db.iterations.eq_of_key_eq hw.mem hm (hw.id.trans hid.symm)
    subst hij
    obtain ⟨x, _, _, ⟨_, rfl⟩ | ⟨hxr, rfl⟩⟩ :=
      db.services.update_origin (f := publish j.description version) (fun _ => rfl) ht
    · exact hval
    · exact absurd (htid.trans hrid.symm) hxr

theorem service_stays (he : Effect env db operation db') {s : Service}
    (hs : s ∈ db.services.rows) : ∃ t ∈ db'.services.rows, t.id = s.id := by
  have updated : ∀ {k : ℕ} (f : Service → Service) (hf : ∀ r, key (f r) = key r),
      ∃ t ∈ (db.services.update k f hf).rows, t.id = s.id := by
    intro k f hf
    obtain ⟨t, ht, hid, _⟩ := db.services.update_image hf hs
    exact ⟨t, ht, hid⟩
  cases he with
  | serviceCreated _ _ _ _ _ _ _ => exact ⟨s, List.mem_append_left _ hs, rfl⟩
  | serviceDeleted _ _ _ => exact updated (setDeleted (some env.now)) (fun _ => rfl)
  | serviceRestored _ _ _ _ => exact updated (setDeleted none) (fun _ => rfl)
  | @iterationCommitted _ _ _ i _ version _ _ _ _ _ _ _ =>
    exact updated (publish i.description version) (fun _ => rfl)
  | _ => exact ⟨s, hs, rfl⟩

theorem services_of_effect (he : Effect env db operation db') {t : Service}
    (ht : t ∈ db'.services.rows) :
    (∃ s ∈ db.services.rows, s.id = t.id) ∨ t.id = db.services.next ∧ t.version.val = "0.0.1" := by
  have updated : ∀ {k : ℕ} (f : Service → Service) (hf : ∀ r, key (f r) = key r),
      t ∈ (db.services.update k f hf).rows → ∃ s ∈ db.services.rows, s.id = t.id := by
    intro k f hf ht
    obtain ⟨s, hs, hid, _⟩ := db.services.update_origin hf ht
    exact ⟨s, hs, hid⟩
  cases he with
  | serviceCreated _ _ _ _ hv _ _ =>
    rcases List.mem_append.mp ht with ht | ht
    · exact Or.inl ⟨t, ht, rfl⟩
    · rw [List.mem_singleton.mp ht]
      exact Or.inr ⟨rfl, hv⟩
  | serviceDeleted _ _ _ =>
    exact Or.inl (updated (setDeleted (some env.now)) (fun _ => rfl) ht)
  | serviceRestored _ _ _ _ => exact Or.inl (updated (setDeleted none) (fun _ => rfl) ht)
  | @iterationCommitted _ _ _ i _ version _ _ _ _ _ _ _ =>
    exact Or.inl (updated (publish i.description version) (fun _ => rfl) ht)
  | _ => exact Or.inl ⟨t, ht, rfl⟩

end Step

end KeptContent
