import ApiManagement.ConcurrentRequests

/-! # Edits that race with the commit of their iteration

The permission check of an edit refuses a committed iteration, but only when the request
begins, and a commit notices no edit of the drafts that it has loaded. As long as no edit is
committed between the two, and none after the iteration, the live apis of the service are the
drafts of the iteration committed last. -/
namespace ReleaseRaces

open TransactionRuns KeyedTables ParentLinkedRows PythonRuntime ServiceSchema ApiStores
  StoreCopies ServiceOperations ApiOperations OperationRuns OperationEffects StateInvariant
  IterationCopies DraftIsolation WriteRights KeptContent ConcurrentRequests

def Edits (k : ℕ) (v : Server) (e : Event) : Prop :=
  (∃ request db, e = .request request ∧ editedIteration request.operation = some k ∧
      transaction v.db request = .ok db) ∨
    ∃ n env i operation db, e = .finish n env ∧ v.sessions n = some (.edit i operation) ∧
      i.id = k ∧ editWrites env i operation v.db = .ok db

/-- An edit is committed although its iteration has been committed since it was checked. -/
def WritesLate (k : ℕ) (v : Server) (e : Event) : Prop :=
  Edits k v e ∧ ∃ j ∈ v.db.iterations.rows, j.id = k ∧ j.isCommitted = true

def CommitsTo (serviceId : ℕ) (v : Server) (e : Event) : Prop :=
  (∃ request version db, e = .request request ∧
      Publishes v.db serviceId version request.operation ∧ transaction v.db request = .ok db) ∨
    ∃ n env i s newVersion reading db, e = .finish n env ∧
      v.sessions n = some (.commit i s newVersion reading) ∧ s.id = serviceId ∧
      commitWrites env i s newVersion reading v.db = .ok db

/-- While the session `n` commits the iteration, an edit of it is committed after the drafts
were loaded, or the service gets another version after its live apis were deleted. -/
inductive Overtakes (n k : ℕ) (v : Server) (e : Event) : Prop where
  | edit {i s newVersion reading drafts} :
      v.sessions n = some (.commit i s newVersion reading) → i.id = k →
      reading.drafts = some drafts → Edits k v e → Overtakes n k v e
  | commit {i s newVersion reading ids} :
      v.sessions n = some (.commit i s newVersion reading) → i.id = k →
      reading.gone = some ids → (∀ env, e ≠ .finish n env) → CommitsTo s.id v e →
      Overtakes n k v e

def Moves (operation : Operation) : Prop :=
  ∃ apiId k userId, operation = .apiUpdateApiCategory apiId k userId

def MovesApi (e : Event) : Prop := ∃ request, e = .request request ∧ Moves request.operation

section Step

variable {env : Environment} {db db' : Database} {operation : Operation} {k serviceId : ℕ}

theorem setCategories_apisOf (g : ApiRow → Option ℕ) (st : ApiStore) (c : ℕ) :
    (setCategories g st).apisOf c = (st.apisOf c).map (setCategory g) := by
  have swap : (fun a : ApiRow => a.container == c) ∘ setCategory g = fun a => a.container == c :=
    rfl
  rw [ApiStore.apisOf, setCategories_rows, List.filter_map, swap]
  rfl

/-- The deletion of a category clears both sides alike. -/
theorem snapshot_cleared {source dest : ApiStore} {c d : ℕ} (h : Snapshot id source c dest d)
    (k : ℕ) : Snapshot id (setCategories (clearCategory k) source) c
      (setCategories (clearCategory k) dest) d := by
  obtain ⟨ν, μ, ρ, h⟩ := h
  have rows : ∀ {P : ApiRow → Prop}, (∀ a ∈ source.apisOf c, P (setCategory (clearCategory k) a)) →
      ∀ a ∈ (setCategories (clearCategory k) source).apisOf c, P a := by
    intro P hP a ha
    rw [setCategories_apisOf] at ha
    obtain ⟨b, hb, rfl⟩ := List.mem_map.mp ha
    exact hP b hb
  refine ⟨ν, μ, ρ, ?_, rows h.requests, rows h.responses, ?_, rows h.request_inj,
    rows h.response_inj⟩
  · have hp := h.apis.map (setCategory (clearCategory k))
    rw [setCategories_apisOf, setCategories_apisOf]
    rw [List.map_map, List.map_map] at hp ⊢
    exact hp
  · rw [setCategories_apisOf, List.map_map]
    exact h.api_inj

/-- What the content of an iteration and of a service undergo together: nothing, unless the
iteration is edited or the service gets a version, the deletion of a category or, in a step
that moves live apis between categories, their move. -/
inductive Undergoes (moves edits commits : Prop) (k serviceId : ℕ) (db db' : Database) : Prop where
  | nothing : (¬ edits → SameContainer k db.drafts db'.drafts) →
      (¬ commits → SameContainer serviceId db.live db'.live) →
      (∀ c < db.categories.next, db'.categories.contains c = db.categories.contains c) →
      Undergoes moves edits commits k serviceId db db'
  | cleared (c : ℕ) : db'.drafts = setCategories (clearCategory c) db.drafts →
      db'.live = setCategories (clearCategory c) db.live →
      (∀ j, db'.categories.contains j = (db.categories.contains j && j != c)) →
      Undergoes moves edits commits k serviceId db db'
  | moved (g : ApiRow → Option ℕ) : moves → db'.drafts = db.drafts →
      db'.live = setCategories g db.live → db'.categories = db.categories →
      Undergoes moves edits commits k serviceId db db'

theorem Undergoes.same (moves edits commits : Prop) (k serviceId : ℕ) {db db' : Database}
    (hd : db'.drafts = db.drafts) (hl : db'.live = db.live)
    (hc : db'.categories = db.categories) :
    Undergoes moves edits commits k serviceId db db' := by
  apply Undergoes.nothing
  · intro _
    rw [hd]
    exact SameContainer.refl _ _
  · intro _
    rw [hl]
    exact SameContainer.refl _ _
  · intro c _
    rw [hc]

theorem Undergoes.mono {moves moves' edits edits' commits commits' : Prop}
    (h : Undergoes moves edits commits k serviceId db db') (hm : moves → moves')
    (he : edits → edits') (hc : commits → commits') :
    Undergoes moves' edits' commits' k serviceId db db' := by
  cases h with
  | nothing hd hl hcat => exact .nothing (fun hn => hd (mt he hn)) (fun hn => hl (mt hc hn)) hcat
  | cleared c hd hl hcat => exact .cleared c hd hl hcat
  | moved g hmove hd hl hcat => exact .moved g (hm hmove) hd hl hcat

theorem effect_undergoes (hi : Invariant Nests db) (he : Effect env db operation db')
    (hk : k < db.iterations.next) :
    Undergoes (Moves operation) (editedIteration operation = some k)
      (∃ version, Publishes db serviceId version operation) k serviceId db db' := by
  have edited : ∀ {j : ℕ}, editedIteration operation = some j → db'.categories = db.categories →
      Undergoes (Moves operation) (editedIteration operation = some k)
        (∃ version, Publishes db serviceId version operation) k serviceId db db' := by
    intro j hed hcategories
    have hconfined := draft_effect_confined hi he (draftIteration_of_edited hed)
    refine .nothing ?_ ?_ (fun _ _ => by rw [hcategories])
    · intro hne
      exact sameContainer_of_outside hconfined.drafts (fun hkj => hne (hkj ▸ hed))
    · intro _
      rw [hconfined.live]
      exact SameContainer.refl _ _
  cases he with
  | iterationStarted _ _ _ _ _ hcopy =>
    obtain ⟨_, _, _, _, _, ho⟩ := started_copies hi hcopy
    exact .nothing (fun _ => sameContainer_of_outside ho hk.ne) (fun _ => SameContainer.refl _ _)
      (fun _ _ => rfl)
  | @iterationCommitted _ newVersion userId i s version live hw hs hsid hne hv hcopy =>
    obtain ⟨j, hj, hid, hsame⟩ := commit_effect_confined hi
      (.iterationCommitted hw hs hsid hne hv hcopy)
    refine .nothing (fun _ => SameContainer.refl _ _) ?_ (fun _ _ => rfl)
    intro hpub
    refine sameContainer_of_outside hsame.live ?_
    rintro rfl
    exact hpub ⟨newVersion, _, userId, rfl, j, hj, hid, rfl⟩
  | categoryAdded _ _ _ _ _ _ =>
    exact .nothing (fun _ => SameContainer.refl _ _) (fun _ => SameContainer.refl _ _)
      (fun _ hc => db.categories.contains_insert_lt hc)
  | @categoryDeleted _ _ c _ _ _ _ _ _ =>
    exact .cleared c.id rfl rfl (fun _ => db.categories.contains_restrict)
  | @categoryUpdated _ _ description name _ _ _ _ _ _ _ _ =>
    exact .nothing (fun _ => SameContainer.refl _ _) (fun _ => SameContainer.refl _ _)
      (fun _ _ => db.categories.contains_update_eq (f := renameCategory name description)
        (fun _ => rfl))
  | apiCategoryUpdated _ _ _ _ _ _ => exact .moved _ ⟨_, _, _, rfl⟩ rfl rfl rfl
  | draftAdded _ _ _ _ _ _ _ _ _ => exact edited rfl rfl
  | draftCopied _ _ _ _ _ _ _ _ _ => exact edited rfl rfl
  | draftDeleted _ _ _ _ => exact edited rfl rfl
  | draftUpdated _ _ _ _ _ _ _ _ _ => exact edited rfl rfl
  | _ => exact Undergoes.same _ _ _ _ _ rfl rfl rfl

theorem Undergoes.snapshot {moves edits commits : Prop}
    (h : Undergoes moves edits commits k serviceId db db') (he : ¬ edits) (hc : ¬ commits)
    (hs : Snapshot uncategorised db.drafts k db.live serviceId) :
    Snapshot uncategorised db'.drafts k db'.live serviceId := by
  cases h with
  | nothing hd hl _ =>
    exact (hs.of_same_source (congrArg _ (hd he).apis) (hd he).requests (hd he).responses).of_same
      (congrArg _ (hl hc).apis) (hl hc).requests (hl hc).responses
  | cleared c hd hl _ =>
    have hkd : Kept k db.drafts (setCategories (clearCategory c) db.drafts) :=
      kept_of_categories _
    have hkl : Kept serviceId db.live (setCategories (clearCategory c) db.live) :=
      kept_of_categories _
    rw [hd, hl]
    exact hkl.snapshot (hs.of_same_source hkd.apis hkd.requests hkd.responses)
  | moved g _ hd hl _ =>
    have hkl : Kept serviceId db.live (setCategories g db.live) := kept_of_categories g
    rw [hd, hl]
    exact hkl.snapshot hs

theorem Undergoes.exact_snapshot {moves edits commits : Prop}
    (h : Undergoes moves edits commits k serviceId db db') (hno : ¬ moves) (he : ¬ edits)
    (hc : ¬ commits) (hs : Snapshot id db.drafts k db.live serviceId) :
    Snapshot id db'.drafts k db'.live serviceId := by
  cases h with
  | nothing hd hl _ =>
    exact (hs.of_same_source (congrArg _ (hd he).apis) (hd he).requests (hd he).responses).of_same
      (congrArg _ (hl hc).apis) (hl hc).requests (hl hc).responses
  | cleared c hd hl _ =>
    rw [hd, hl]
    exact snapshot_cleared hs c
  | moved g hm _ _ _ => exact absurd hm hno

/-- The ids of the live apis are kept where no version is committed. -/
theorem Undergoes.live_ids {moves edits commits : Prop}
    (h : Undergoes moves edits commits k serviceId db db') (hc : ¬ commits) :
    (db'.live.apisOf serviceId).map ApiRow.id = (db.live.apisOf serviceId).map ApiRow.id := by
  have moved : ∀ g : ApiRow → Option ℕ, ((setCategories g db.live).apisOf serviceId).map ApiRow.id =
      (db.live.apisOf serviceId).map ApiRow.id := by
    intro g
    rw [setCategories_apisOf, List.map_map]
    rfl
  cases h with
  | nothing _ hl _ => rw [(hl hc).apis]
  | cleared c _ hl _ =>
    rw [hl]
    exact moved _
  | moved g _ _ hl _ =>
    rw [hl]
    exact moved g

end Step

structure Released (k : ℕ) (v : Server) : Prop where
  sound : Sound v
  started : k < v.db.iterations.next
  committed : ∀ j ∈ v.db.iterations.rows, j.id = k → j.isCommitted = true

section Runs

variable {v w : Server} {e : Event} {k serviceId : ℕ}

theorem released_step (h : Released k v) (hstep : serverStep v e = .ok w) : Released k w := by
  have hl := serverStep_later hstep
  refine ⟨sound_step h.sound hstep, h.started.trans_le hl.next, ?_⟩
  intro j hj hid
  obtain ⟨i, hi, hij, _, _, hopen⟩ := hl.iterations j hj (hid ▸ h.started)
  rw [← Bool.not_eq_false]
  intro hf
  rw [h.committed i hi (hij.trans hid)] at hopen
  cases hopen hf

theorem editedIteration_of_editor {operation : Operation} {userId : ℕ}
    (h : editor operation = some (k, userId)) : editedIteration operation = some k := by
  cases operation
  case apiAddApi => cases h; rfl
  case apiCopyApiByApiDraftId => cases h; rfl
  case apiDeleteApiByApiDraftId => cases h; rfl
  case apiUpdateApiByApiDraftId => cases h; rfl
  all_goals cases h

theorem transaction_of_request {request : Request} (h : serverStep v (.request request) = .ok w) :
    transaction v.db request = .ok w.db := by
  simp only [serverStep, bind_eq_ok, pure_eq_ok] at h
  obtain ⟨db, ht, rfl⟩ := h
  exact ht

/-- The writes of a session. -/
theorem writes_undergoes (hs : Sound v) (hk : k < v.db.iterations.next) {n : ℕ}
    {env : Environment} {c : Checked} {db' : Database} (hc : v.sessions n = some c)
    (hw : writes env c v.db = .ok db') (moves : Prop) :
    Undergoes moves (Edits k v (.finish n env)) (CommitsTo serviceId v (.finish n env)) k serviceId
      v.db db' := by
  have hi := hs.invariant
  have hr := hs.remembered n c hc
  cases c with
  | start s u =>
    simp only [writes, startNewIteration, bind_eq_ok, pure_eq_ok] at hw
    obtain ⟨_, _, drafts, hcopy, rfl⟩ := hw
    obtain ⟨_, _, _, _, _, ho⟩ := started_copies hi hcopy
    exact .nothing (fun _ => sameContainer_of_outside ho hk.ne) (fun _ => SameContainer.refl _ _)
      (fun _ _ => rfl)
  | commit i s newVersion r =>
    obtain ⟨hp, hserv, hread⟩ := hr
    obtain ⟨_, hd, ho⟩ := commitWrites_spec hi hp hserv hread hw
    refine .nothing ?_ ?_ ?_
    · intro _
      rw [hd]
      exact SameContainer.refl _ _
    · intro hcommit
      refine sameContainer_of_outside ho ?_
      rintro rfl
      exact hcommit (Or.inr ⟨n, env, i, s, newVersion, r, db', rfl, hc, rfl, hw⟩)
    · intro c _
      simp only [writes, commitWrites, bind_eq_ok, pure_eq_ok] at hw
      obtain ⟨_, _, _, _, _, _, rfl⟩ := hw
      rfl
  | edit i operation =>
    obtain ⟨hp, userId, hop, hu⟩ := hr
    have he := editWrites_effect hi hp hop hw
    have hconfined := draft_effect_confined (reopened_invariant hi i.id hu) he
      (draftIteration_of_edited (editedIteration_of_editor hop))
    have hedit : Edits i.id v (.finish n env) :=
      Or.inr ⟨n, env, i, operation, db', rfl, hc, rfl, hw⟩
    obtain ⟨drafts, rfl⟩ := editWrites_drafts hw
    refine .nothing ?_ (fun _ => SameContainer.refl _ _) (fun _ _ => rfl)
    intro hne
    exact sameContainer_of_outside hconfined.drafts (fun hki => hne (hki ▸ hedit))

theorem undergoes_step (hs : Sound v) (hk : k < v.db.iterations.next)
    (hstep : serverStep v e = .ok w) :
    Undergoes (MovesApi e) (Edits k v e) (CommitsTo serviceId v e) k serviceId v.db w.db := by
  have same : w.db = v.db →
      Undergoes (MovesApi e) (Edits k v e) (CommitsTo serviceId v e) k serviceId v.db w.db :=
    fun hdb => Undergoes.same _ _ _ _ _ (congrArg Database.drafts hdb)
      (congrArg Database.live hdb) (congrArg Database.categories hdb)
  rcases serverStep_cases hstep with ⟨request, rfl, he, _⟩ | ⟨_, _, _, _, _, hdb, _⟩ |
    ⟨_, _, _, _, hdb, _⟩ | ⟨n, env, rfl, _, hdb | ⟨c, hc, hw⟩⟩
  · have ht := transaction_of_request hstep
    refine (effect_undergoes hs.invariant he hk).mono ?_ ?_ ?_
    · exact fun hm => ⟨request, rfl, hm⟩
    · exact fun hed => Or.inl ⟨request, w.db, rfl, hed, ht⟩
    · rintro ⟨version, hp⟩
      exact Or.inl ⟨request, version, w.db, rfl, hp, ht⟩
  · exact same hdb
  · exact same hdb
  · exact same hdb
  · exact writes_undergoes hs hk hc hw _

/-- An edit of an iteration that has been committed is late. -/
theorem edits_of_released (h : Released k v) (hlate : ¬ WritesLate k v e) : ¬ Edits k v e := by
  intro hed
  rcases hed with ⟨request, db', rfl, hop, ht⟩ | ⟨n, env, i, operation, db', rfl, hn, hid, hw⟩
  · obtain ⟨j, hj, hid, ho⟩ := edited_uncommitted (transaction_effect ht) hop
    rw [h.committed j hj hid] at ho
    cases ho
  · obtain ⟨_, userId, hop, _⟩ := h.sound.remembered n _ hn
    obtain ⟨j, hj, hji⟩ := edited_iteration_exists h.sound.invariant hop hw
    have hjk := hji.trans hid
    exact hlate ⟨Or.inr ⟨n, env, i, operation, db', rfl, hn, hid, hw⟩, j, hj, hjk,
      h.committed j hj hjk⟩

end Runs

def present (db : Database) (a : ApiRow) : Option ℕ :=
  a.fields.categoryId.filter db.categories.contains

/-- What has been read is what there is, but for categories deleted since. -/
structure UpToDate (k serviceId : ℕ) (db : Database) (r : Reading) : Prop where
  gone : ∀ ids, r.gone = some ids → ∀ i ∈ (db.live.apisOf serviceId).map ApiRow.id, i ∈ ids
  drafts : ∀ rows, r.drafts = some rows →
    (rows.map (setCategory (present db))).Perm (db.drafts.apisOf k)
  requests : ∀ d t, r.requests d = some t → r.drafts.isSome = true ∧
    ∀ a ∈ db.drafts.apisOf k, a.id = d →
      t.rows.filter (fun p => p.holder == d) = db.drafts.requestParamsOf d
  responses : ∀ d t, r.responses d = some t → r.drafts.isSome = true ∧
    ∀ a ∈ db.drafts.apisOf k, a.id = d →
      t.rows.filter (fun p => p.holder == d) = db.drafts.responseParamsOf d

section Reading

variable {env : Environment} {db db' : Database} {k serviceId : ℕ} {r : Reading}

theorem setCategory_present {a : ApiRow}
    (h : ∀ c, a.fields.categoryId = some c → db.categories.contains c = true) :
    setCategory (present db) a = a := by
  have hp : present db a = a.fields.categoryId := by
    unfold present
    cases hc : a.fields.categoryId with
    | none => rfl
    | some c => exact Option.filter_some_pos (h c hc)
  rw [setCategory, hp]

theorem upToDate_nothing : UpToDate k serviceId db .nothing :=
  ⟨fun _ h => (nomatch h), fun _ h => (nomatch h), fun _ _ h => (nomatch h),
    fun _ _ h => (nomatch h)⟩

theorem UpToDate.read (hi : Invariant Nests db) (h : UpToDate k serviceId db r) (part : Part) :
    UpToDate k serviceId db (r.read env k serviceId db part) := by
  cases part with
  | apis =>
    simp only [Reading.read]
    split
    · refine ⟨?_, h.drafts, h.requests, h.responses⟩
      intro ids hr
      rw [← Option.some.inj hr]
      exact fun _ hm => hm
    · exact h
  | drafts =>
    simp only [Reading.read]
    split
    · refine ⟨h.gone, ?_, fun d t ht => ⟨rfl, (h.requests d t ht).2⟩,
        fun d t ht => ⟨rfl, (h.responses d t ht).2⟩⟩
      intro rows hr
      rw [← Option.some.inj hr]
      have keep : ∀ a ∈ db.drafts.apisOf k, setCategory (present db) a = a := by
        intro a ha
        apply setCategory_present
        intro c hc
        obtain ⟨_, _, _, _, hcategory⟩ := hi.draft_refers a (ApiStore.mem_apisOf.mp ha).1
        obtain ⟨d, hd, hid, _⟩ := hcategory c hc
        exact Table.contains_iff.mpr ⟨d, hd, hid⟩
      have hp := (env.fetch_perm (db.drafts.apisOf k)).map (setCategory (present db))
      rwa [List.map_congr_left keep, List.map_id'] at hp
    · exact h
  | requests apiDraftId =>
    simp only [Reading.read]
    split
    · rename_i hread
      refine ⟨h.gone, h.drafts, ?_, h.responses⟩
      intro d t ht
      rcases eq_some_of_update ht with ⟨_, rfl⟩ | hold
      · exact ⟨(Bool.and_eq_true_iff.mp hread).1, fun _ _ _ => rfl⟩
      · exact h.requests d t hold
    · exact h
  | responses apiDraftId =>
    simp only [Reading.read]
    split
    · rename_i hread
      refine ⟨h.gone, h.drafts, h.requests, ?_⟩
      intro d t ht
      rcases eq_some_of_update ht with ⟨rfl, rfl⟩ | hold
      · obtain ⟨u, hu⟩ := Option.isSome_iff_exists.mp (Bool.and_eq_true_iff.mp hread).1
        exact ⟨(h.requests d u hu).1, fun _ _ _ => rfl⟩
      · exact h.responses d t hold
    · exact h

theorem present_cleared {c : ℕ}
    (h : ∀ j, db'.categories.contains j = (db.categories.contains j && j != c)) (a : ApiRow) :
    present db' a = if present db a = some c then none else present db a := by
  unfold present
  cases a.fields.categoryId with
  | none => simp
  | some j =>
    by_cases hj : j = c
    · subst hj
      cases hcontains : db.categories.contains j <;> simp [Option.filter, h, hcontains]
    · cases hcontains : db.categories.contains j <;> simp [Option.filter, h, hcontains, hj]

/-- The drafts of the iteration as they are after a step without an edit of it. -/
theorem present_drafts {moves edits commits : Prop}
    (hu : Undergoes moves edits commits k serviceId db db') (he : ¬ edits) {rows : List ApiRow}
    (hknown : ∀ a ∈ rows, ∀ c, a.fields.categoryId = some c → c < db.categories.next)
    (h : (rows.map (setCategory (present db))).Perm (db.drafts.apisOf k)) :
    (rows.map (setCategory (present db'))).Perm (db'.drafts.apisOf k) := by
  have same : (∀ c < db.categories.next, db'.categories.contains c = db.categories.contains c) →
      rows.map (setCategory (present db')) = rows.map (setCategory (present db)) := by
    intro hcat
    apply List.map_congr_left
    intro a ha
    have hp : present db' a = present db a := by
      unfold present
      cases hc : a.fields.categoryId with
      | none => rfl
      | some c => simp only [Option.filter, hcat c (hknown a ha c hc)]
    rw [setCategory, setCategory, hp]
  cases hu with
  | nothing hd _ hcat =>
    rw [same hcat, (hd he).apis]
    exact h
  | cleared c hd _ hcat =>
    have hcleared : rows.map (setCategory (present db')) =
        (rows.map (setCategory (present db))).map (setCategory (clearCategory c)) := by
      rw [List.map_map]
      apply List.map_congr_left
      intro a _
      rw [Function.comp_apply, setCategory, present_cleared hcat]
      rfl
    rw [hcleared, hd, setCategories_apisOf]
    exact h.map _
  | moved g _ hd _ hcat =>
    rw [same (fun c _ => by rw [hcat]), hd]
    exact h

theorem Undergoes.draft_params {moves edits commits : Prop}
    (hu : Undergoes moves edits commits k serviceId db db') (he : ¬ edits) :
    (∀ a ∈ db'.drafts.apisOf k, ∃ b ∈ db.drafts.apisOf k, b.id = a.id) ∧
      ∀ a ∈ db.drafts.apisOf k, db'.drafts.requestParamsOf a.id = db.drafts.requestParamsOf a.id ∧
        db'.drafts.responseParamsOf a.id = db.drafts.responseParamsOf a.id := by
  cases hu with
  | nothing hd _ _ =>
    have hsame := hd he
    rw [hsame.apis]
    exact ⟨fun a ha => ⟨a, ha, rfl⟩, fun a ha => ⟨hsame.requests a ha, hsame.responses a ha⟩⟩
  | cleared c hd _ _ =>
    rw [hd, setCategories_apisOf]
    refine ⟨?_, fun _ _ => ⟨rfl, rfl⟩⟩
    intro a ha
    obtain ⟨b, hb, rfl⟩ := List.mem_map.mp ha
    exact ⟨b, hb, rfl⟩
  | moved g _ hd _ _ =>
    rw [hd]
    exact ⟨fun a ha => ⟨a, ha, rfl⟩, fun _ _ => ⟨rfl, rfl⟩⟩

theorem UpToDate.undergo {moves edits commits : Prop} (h : UpToDate k serviceId db r)
    (hl : Loaded db serviceId r) (hu : Undergoes moves edits commits k serviceId db db')
    (he : r.drafts.isSome = true → ¬ edits) (hc : r.gone.isSome = true → ¬ commits) :
    UpToDate k serviceId db' r := by
  refine ⟨?_, ?_, ?_, ?_⟩
  · intro ids hr
    rw [hu.live_ids (hc (hr ▸ rfl))]
    exact h.gone ids hr
  · intro rows hr
    exact present_drafts hu (he (hr ▸ rfl))
      (fun a ha c hac => (hl.categories rows hr a ha c hac).1) (h.drafts rows hr)
  · intro d t ht
    obtain ⟨hsome, hsame⟩ := h.requests d t ht
    refine ⟨hsome, ?_⟩
    rintro a ha rfl
    obtain ⟨hold, hparams⟩ := hu.draft_params (he hsome)
    obtain ⟨b, hb, hid⟩ := hold a ha
    rw [← hid, (hparams b hb).1, hid]
    exact hsame b hb hid
  · intro d t ht
    obtain ⟨hsome, hsame⟩ := h.responses d t ht
    refine ⟨hsome, ?_⟩
    rintro a ha rfl
    obtain ⟨hold, hparams⟩ := hu.draft_params (he hsome)
    obtain ⟨b, hb, hid⟩ := hold a ha
    rw [← hid, (hparams b hb).2, hid]
    exact hsame b hb hid

/-- The copies of drafts that are up to date. The foreign key of the categories is checked, so
none of theirs has been deleted. -/
theorem UpToDate.snapshot (h : UpToDate k serviceId db r) (hi : Invariant Nests db)
    {i : ServiceIteration} (hid : i.id = k) (hp : Placed db i) (hs : serviceId = i.serviceId)
    (hl : Loaded db serviceId r) {live : ApiStore}
    (hcopy : copyEach env (liveReferences db) (r.source db.drafts) (r.draftRows env i.id db)
      serviceId (deleteApis (fun a => (r.goneIds serviceId db).contains a.id) db.live) =
        .ok live) : Snapshot id db.drafts k live serviceId := by
  obtain ⟨hrefers, ν, μ, ρ, hc, _⟩ := hl.copies hi hp hs hcopy
  have hrows : (r.draftRows env i.id db).Perm (db.drafts.apisOf k) := by
    have keep : ∀ a ∈ r.draftRows env i.id db, setCategory (present db) a = a :=
      fun a ha => setCategory_present (hrefers a ha).1.2.2
    rw [Reading.draftRows] at keep ⊢
    cases hr : r.drafts with
    | none => exact hid ▸ env.fetch_perm _
    | some rows =>
      have hperm := h.drafts rows hr
      rw [hr, Option.getD_some] at keep
      rwa [List.map_congr_left keep, List.map_id'] at hperm
  have hgone : ∀ j ∈ (db.live.apisOf serviceId).map ApiRow.id, j ∈ r.goneIds serviceId db := by
    intro j hj
    rw [Reading.goneIds]
    cases hr : r.gone with
    | none => exact hj
    | some ids => exact h.gone ids hr j hj
  refine ⟨ν, μ, ρ, hc.replica hrows ?_ ?_ ?_⟩
  · intro a ha
    show ((r.requests a.id).getD db.drafts.requestParams).rows.filter _ = _
    cases hr : r.requests a.id with
    | none => rfl
    | some t => exact (h.requests a.id t hr).2 a (hrows.mem_iff.mp ha) rfl
  · intro a ha
    show ((r.responses a.id).getD db.drafts.responseParams).rows.filter _ = _
    cases hr : r.responses a.id with
    | none => rfl
    | some t => exact (h.responses a.id t hr).2 a (hrows.mem_iff.mp ha) rfl
  · rw [ApiStore.apisOf, deleteApis_rows, List.filter_filter, List.filter_eq_nil_iff]
    intro a ha
    rw [Bool.and_eq_true, beq_iff_eq, Bool.not_eq_true']
    rintro ⟨hcontainer, hkept⟩
    have hm := hgone a.id (List.mem_map_of_mem (ApiStore.mem_apisOf.mpr ⟨ha, hcontainer⟩))
    rw [← List.contains_iff_mem, hkept] at hm
    cases hm

end Reading

def ReadsCurrent (n k : ℕ) (v : Server) : Prop :=
  ∀ i s newVersion r, v.sessions n = some (.commit i s newVersion r) → i.id = k →
    UpToDate k s.id v.db r

section Runs

variable {v w : Server} {e : Event} {n k serviceId : ℕ}

theorem readsCurrent_step (hs : Sound v) (h : ReadsCurrent n k v) (hg : ¬ Overtakes n k v e)
    (hstep : serverStep v e = .ok w) : ReadsCurrent n k w := by
  intro i s newVersion r hn hid
  rcases session_origin hstep hn with ⟨hold, hne⟩ | ⟨request, _, hcheck, _⟩ |
    ⟨env, part, c, _, hc, hread, hdb⟩
  · obtain ⟨hp, _, hl⟩ := hs.remembered n _ hold
    have hu : Undergoes _ _ _ k s.id v.db w.db := undergoes_step hs (hid ▸ hp.1) hstep
    refine (h i s newVersion r hold hid).undergo hl hu ?_ ?_
    · intro hread hed
      obtain ⟨drafts, hr⟩ := Option.isSome_iff_exists.mp hread
      exact hg (.edit hold hid hr hed)
    · intro hread hcommit
      obtain ⟨ids, hr⟩ := Option.isSome_iff_exists.mp hread
      exact hg (.commit hold hid hr hne hcommit)
  · cases check_unread hcheck
    exact upToDate_nothing
  · cases c with
    | start serviceId userId => cases hread
    | edit j operation => cases hread
    | commit j t version old =>
      cases hread
      subst hid
      rw [hdb]
      exact (h _ _ _ _ hc rfl).read hs.invariant part

theorem readsCurrent_reachable (h : ServerReachable (fun x e => ¬ Overtakes n k x e) v) :
    ReadsCurrent n k v := by
  obtain ⟨db₀, h₀, hrun⟩ := h
  have hinit : ServerReachable (fun _ _ => True) ⟨db₀, fun _ => none⟩ := ⟨db₀, h₀, .refl _⟩
  have hinv : Sound v ∧ ReadsCurrent n k v := by
    refine hrun.preserves (I := fun x => Sound x ∧ ReadsCurrent n k x) ?_
      ⟨reachable_sound hinit, fun _ _ _ _ hn => nomatch hn⟩
    rintro x e y ⟨hx, hcurrent⟩ hg hstep
    exact ⟨sound_step hx hstep, readsCurrent_step hx hcurrent hg hstep⟩
  exact hinv.2

inductive Commits (k serviceId : ℕ) : Option ℕ → Server → Server → Prop where
  | whole {v w : Server} {env newVersion userId r} :
      serviceCommitIteration env k newVersion userId v.db = .ok (w.db, r) →
      (∀ i ∈ v.db.iterations.rows, i.id = k → i.serviceId = serviceId) →
      w.sessions = v.sessions → Commits k serviceId none v w
  | session {v w : Server} {n : ℕ} {env i s newVersion reading} :
      v.sessions n = some (.commit i s newVersion reading) → i.id = k → s.id = serviceId →
      commitWrites env i s newVersion reading v.db = .ok w.db →
      w.sessions = Function.update v.sessions n none → Commits k serviceId (some n) v w

theorem Commits.step {committer : Option ℕ} (h : Commits k serviceId committer v w) :
    ∃ e, serverStep v e = .ok w := by
  obtain ⟨db', sessions⟩ := w
  cases h with
  | @whole _ _ env newVersion userId r hcommit _ hsessions =>
    have ht : transaction v.db ⟨env, .serviceCommitIteration k newVersion userId⟩ = .ok db' :=
      map_fst_eq_ok.mpr ⟨r, hcommit⟩
    refine ⟨.request ⟨env, .serviceCommitIteration k newVersion userId⟩, ?_⟩
    simp only [serverStep, ht, ok_bind]
    exact congrArg (fun f => Except.ok (⟨db', f⟩ : Server)) hsessions.symm
  | @session _ _ n env i s newVersion reading hn _ _ hw hsessions =>
    have hcommitted : committed (writes env (.commit i s newVersion reading) v.db) v.db = db' :=
      congrArg (fun x => committed x v.db) hw
    refine ⟨.finish n env, ?_⟩
    simp only [serverStep, hn, hcommitted]
    exact congrArg (fun f => Except.ok (⟨db', f⟩ : Server)) hsessions.symm

theorem marked_committed {db : Database} {version : VarChar 32} :
    ∀ j ∈ (db.iterations.update k (markCommitted version) (fun _ => rfl)).rows, j.id = k →
      j.isCommitted = true := by
  intro j hj hid
  obtain ⟨i, _, hij, ⟨_, rfl⟩ | ⟨hne, _⟩⟩ :=
    db.iterations.update_origin (f := markCommitted version) (fun _ => rfl) hj
  · rfl
  · exact absurd (hij.trans hid) hne

/-- The writes of a commit make the live apis a replica of the drafts. -/
theorem commitWrites_released {db db' : Database} {env : Environment} {i : ServiceIteration}
    {s : Service} {newVersion : String} {r : Reading} (hi : Invariant Nests db)
    (hid : i.id = k) (hp : Placed db i) (hserv : s.id = i.serviceId) (hl : Loaded db s.id r)
    (hcurrent : UpToDate k s.id db r)
    (h : commitWrites env i s newVersion r db = .ok db') :
    Snapshot id db'.drafts k db'.live s.id ∧
      ∀ j ∈ db'.iterations.rows, j.id = k → j.isCommitted = true := by
  simp only [commitWrites, bind_eq_ok, pure_eq_ok] at h
  obtain ⟨version, _, live, hcopy, _, _, rfl⟩ := h
  subst hid
  exact ⟨hcurrent.snapshot hi rfl hp hserv hl hcopy, marked_committed⟩

/-- A commit that was not overtaken makes the live apis a replica of the drafts. -/
theorem commits_released {committer : Option ℕ} (hs : Sound v)
    (hcurrent : ∀ n ∈ committer, ReadsCurrent n k v) (h : Commits k serviceId committer v w) :
    Released k w ∧ Snapshot id w.db.drafts k w.db.live serviceId := by
  obtain ⟨e, hstep⟩ := h.step
  have hl := serverStep_later hstep
  have hsound := sound_step hs hstep
  cases h with
  | @whole _ _ env newVersion userId r hcommit hservice _ =>
    have hparts : Prod.fst <$> serviceCommitIteration env k newVersion userId v.db = .ok w.db :=
      map_fst_eq_ok.mpr ⟨r, hcommit⟩
    rw [serviceCommitIteration_parts] at hparts
    obtain ⟨⟨i, s⟩, hcheck, hw⟩ := bind_eq_ok.mp hparts
    simp only [commitCheck, bind_eq_ok, asCheckResult_eq_ok, orAbort_eq_ok, Table.find?_eq_some,
      service_key, pure_eq_ok, Prod.mk.injEq] at hcheck
    obtain ⟨⟨i', u⟩, hperm, s', ⟨_, hsid⟩, _, _, rfl, rfl⟩ := hcheck
    have hwork := (checkServiceIterationPermission_eq_ok.mp hperm).1
    have hp := placed_of_mem hwork.mem
    obtain ⟨hsnap, hmarked⟩ := commitWrites_released hs.invariant hwork.id hp hsid
      (loaded_nothing _) upToDate_nothing hw
    rw [hsid, hservice i' hwork.mem hwork.id] at hsnap
    exact ⟨⟨hsound, hwork.id ▸ hp.1.trans_le hl.next, hmarked⟩, hsnap⟩
  | @session _ _ n env i s newVersion r hn hid hsid hw _ =>
    obtain ⟨hp, hserv, hread⟩ := hs.remembered n _ hn
    obtain ⟨hsnap, hmarked⟩ := commitWrites_released hs.invariant hid hp hserv hread
      (hcurrent n rfl i s newVersion r hn hid) hw
    exact ⟨⟨hsound, hid ▸ hp.1.trans_le hl.next, hmarked⟩, hsid ▸ hsnap⟩

/-- When an iteration has been committed and no edit of it or other version of the service has
overtaken the commit, the live apis of the service are its drafts, and they stay so until the
next commit to the service if no edit that was checked before the commit writes after it. The
categories are excepted, once live apis are moved. -/
theorem release_stays_whole {committer : Option ℕ}
    (hreach : ServerReachable (fun x e => ∀ n ∈ committer, ¬ Overtakes n k x e) v)
    (hcommit : Commits k serviceId committer v w) :
    Snapshot id w.db.drafts k w.db.live serviceId ∧ ∀ u,
      (Runs serverStep (fun x e => ¬ CommitsTo serviceId x e ∧ ¬ WritesLate k x e) w u →
        Snapshot uncategorised u.db.drafts k u.db.live serviceId) ∧
      (Runs serverStep (fun x e => (¬ CommitsTo serviceId x e ∧ ¬ WritesLate k x e) ∧
          ¬ MovesApi e) w u → Snapshot id u.db.drafts k u.db.live serviceId) := by
  have hcurrent : ∀ n ∈ committer, ReadsCurrent n k v := by
    intro n hn
    exact readsCurrent_reachable (hreach.mono (fun _ _ hg => hg n hn))
  obtain ⟨hreleased, hsnap⟩ := commits_released (reachable_sound hreach) hcurrent hcommit
  refine ⟨hsnap, ?_⟩
  intro u
  constructor
  · intro hr
    have hrun : Released k u ∧ Snapshot uncategorised u.db.drafts k u.db.live serviceId := by
      refine hr.preserves (I := fun x => Released k x ∧
        Snapshot uncategorised x.db.drafts k x.db.live serviceId) ?_
        ⟨hreleased, hsnap.coarsen uncategorised⟩
      rintro x e y ⟨hx, hs⟩ ⟨hc, hl⟩ hstep
      exact ⟨released_step hx hstep, (undergoes_step hx.sound hx.started hstep).snapshot
        (edits_of_released hx hl) hc hs⟩
    exact hrun.2
  · intro hr
    have hrun : Released k u ∧ Snapshot id u.db.drafts k u.db.live serviceId := by
      refine hr.preserves (I := fun x => Released k x ∧
        Snapshot id x.db.drafts k x.db.live serviceId) ?_ ⟨hreleased, hsnap⟩
      rintro x e y ⟨hx, hs⟩ ⟨⟨hc, hl⟩, hm⟩ hstep
      exact ⟨released_step hx hstep, (undergoes_step hx.sound hx.started hstep).exact_snapshot hm
        (edits_of_released hx hl) hc hs⟩
    exact hrun.2

end Runs

def outcome (env : Environment) (n k serviceId : ℕ) (v : Server) : Option Database :=
  match v.sessions n with
  | some (.commit i s newVersion r) =>
    if i.id = k ∧ s.id = serviceId then (commitWrites env i s newVersion r v.db).toOption
    else none
  | _ => none

theorem commits_of_outcome {env : Environment} {n k serviceId : ℕ} {v : Server} {db : Database}
    (h : outcome env n k serviceId v = some db) :
    Commits k serviceId (some n) v ⟨db, Function.update v.sessions n none⟩ := by
  unfold outcome at h
  split at h
  · rename_i i s newVersion r hn
    split at h
    · rename_i hids
      cases hw : commitWrites env i s newVersion r v.db with
      | error e =>
        rw [hw] at h
        cases h
      | ok db' =>
        rw [hw] at h
        cases h
        exact .session hn hids.1 hids.2 hw rfl
    · cases h
  · cases h

def committing : Server := runEvents serverStep ⟨opened, fun _ => none⟩
  [.check 0 ⟨plainEnvironment, .serviceCommitIteration 2 "0.0.3" 1⟩,
    .read 0 plainEnvironment .apis,
    .request ⟨plainEnvironment, .apiAddCategoryByServiceId 1 1 "misc" none⟩,
    .read 0 plainEnvironment .drafts, .read 0 plainEnvironment (.requests 2)]

theorem committing_reachable : ServerReachable (fun x e => ¬ Overtakes 0 2 x e) committing := by
  refine (server_of_reachable ?_ opened_reachable).run (runs_runEvents _ _ _ ?_ (.refl _))
  · rintro db request (⟨hn, _⟩ | ⟨hn, _⟩)
    · cases hn
    · cases hn
  · intro e he v hover
    have hkind : ¬ Edits 2 v e ∧ ∀ s, ¬ CommitsTo s v e := by
      simp only [List.mem_cons, List.not_mem_nil, or_false] at he
      rcases he with rfl | rfl | rfl | rfl | rfl
      all_goals
        refine ⟨?_, fun s => ?_⟩
        · rintro (⟨_, _, hr, hop, _⟩ | ⟨_, _, _, _, _, hr, _⟩)
          · cases hr <;> cases hop
          · cases hr
        · rintro (⟨_, _, _, hr, ⟨_, _, hop, _⟩, _⟩ | ⟨_, _, _, _, _, _, _, hr, _⟩)
          · cases hr <;> cases hop
          · cases hr
    cases hover with
    | edit _ _ _ hed => exact hkind.1 hed
    | commit _ _ _ _ hc => exact hkind.2 _ hc

/-- The commit of iteration 2 in a session of its own. -/
theorem second_release_is_whole : ∃ w, Commits 2 1 (some 0) committing w ∧
    Snapshot id w.db.drafts 2 w.db.live 1 ∧ Snapshot uncategorised w.db.drafts 2 w.db.live 1 := by
  have hdone : (outcome plainEnvironment 0 2 1 committing).isSome = true := by decide +kernel
  obtain ⟨db, hdb⟩ := Option.isSome_iff_exists.mp hdone
  have hcommit := commits_of_outcome hdb
  have hreach : ServerReachable (fun x e => ∀ n ∈ some 0, ¬ Overtakes n 2 x e) committing :=
    committing_reachable.mono (fun x e hg n hn => Option.some.inj hn ▸ hg)
  obtain ⟨hsnap, h⟩ := release_stays_whole hreach hcommit
  exact ⟨_, hcommit, hsnap, (h _).1 (.refl _)⟩

/-- The only draft is deleted after the commit of its iteration has loaded it. -/
theorem deletion_while_committing_tears_release :
    ∃ v w, ServerReachable (fun _ _ => True) v ∧ Commits 2 1 (some 0) v w ∧
      ¬ Snapshot uncategorised w.db.drafts 2 w.db.live 1 := by
  let deleted : Server := runEvents serverStep committing
    [.request ⟨plainEnvironment, .apiDeleteApiByApiDraftId 2 2 1⟩]
  have hlengths : (outcome plainEnvironment 0 2 1 deleted).map
      (fun db => ((db.live.apisOf 1).length, (db.drafts.apisOf 2).length)) = some (1, 0) := by
    decide +kernel
  obtain ⟨db, hdb, hpair⟩ := Option.map_eq_some_iff.mp hlengths
  refine ⟨deleted, _, ?_, commits_of_outcome hdb, ?_⟩
  · exact (committing_reachable.mono (fun _ _ _ => trivial)).run
      (runs_runEvents _ _ _ (fun _ _ _ => trivial) (.refl _))
  · rintro ⟨ν, μ, ρ, hreplica⟩
    have hlength := hreplica.apis.length_eq
    rw [List.length_map, List.length_map, (Prod.mk.inj hpair).1, (Prod.mk.inj hpair).2] at hlength
    cases hlength

def deleting : Server :=
  ⟨opened, Function.update (fun _ => none) 0
    (some (.edit secondIteration (.apiDeleteApiByApiDraftId 2 2 1)))⟩

def overtaken : Server := ⟨play opened [.serviceCommitIteration 2 "0.0.3" 1], deleting.sessions⟩

def torn : Server := runEvents serverStep overtaken [.finish 0 plainEnvironment]

theorem deleting_reachable : ServerReachable (fun _ _ => True) deleting := by
  have hcheck : checkServiceIterationPermission opened 2 1 =
      .ok (secondIteration, opened.users.find? 1) :=
    checkServiceIterationPermission_eq_ok.mpr
      ⟨⟨by decide +kernel, rfl, rfl, publishedService, by decide +kernel, rfl, Or.inl rfl⟩, rfl⟩
  have hstep : serverStep ⟨opened, fun _ => none⟩
      (.check 0 ⟨plainEnvironment, .apiDeleteApiByApiDraftId 2 2 1⟩) = .ok deleting := by
    simp only [serverStep, check, editor, hcheck, ok_bind]
    rfl
  exact (server_of_reachable (fun _ _ => trivial) opened_reachable).step trivial hstep

theorem deleting_committed : Commits 2 1 none deleting overtaken := by
  obtain ⟨r, hr⟩ := second_commit_succeeds
  refine .whole hr ?_ rfl
  decide +kernel

/-- However an edit and the commit of its iteration are interleaved: when no session is open
any more, the live apis are the drafts. -/
def ReleasesStayWhole : Prop :=
  ∀ (v w u : Server) (committer : Option ℕ) (k serviceId : ℕ),
    ServerReachable (fun _ _ => True) v → Commits k serviceId committer v w →
    Runs serverStep (fun x e => ¬ CommitsTo serviceId x e) w u →
    (∀ n, u.sessions n = none) → Snapshot uncategorised u.db.drafts k u.db.live serviceId

theorem late_deletion_tears_release : ¬ ReleasesStayWhole := by
  intro h
  have hguard : ¬ CommitsTo 1 overtaken (.finish 0 plainEnvironment) := by
    rintro (⟨_, _, _, he, _⟩ | ⟨n, env, i, s, newVersion, _, _, he, hn, _⟩)
    · cases he
    · cases he
      cases hn
  have hrun : Runs serverStep (fun x e => ¬ CommitsTo 1 x e) overtaken torn := by
    show Runs _ _ overtaken
      (committed (serverStep overtaken (.finish 0 plainEnvironment)) overtaken)
    exact (Runs.refl overtaken).tail hguard
  have hclosed : ∀ n, torn.sessions n = none := by
    intro n
    show Function.update (Function.update (fun _ => none) 0 _) 0 none n = none
    rw [Function.update_idem]
    by_cases hn : n = 0
    · rw [hn, Function.update_self]
    · rw [Function.update_of_ne hn]
  obtain ⟨ν, μ, ρ, hreplica⟩ :=
    h deleting overtaken torn none 2 1 deleting_reachable deleting_committed hrun hclosed
  have hlive : (torn.db.live.apisOf 1).length = 1 := by decide +kernel
  have hdrafts : (torn.db.drafts.apisOf 2).length = 0 := by decide +kernel
  have hlength := hreplica.apis.length_eq
  rw [List.length_map, List.length_map, hlive, hdrafts] at hlength
  cases hlength

end ReleaseRaces
