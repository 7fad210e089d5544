import ApiManagement.StateInvariant

/-! # Uniqueness of apis

Only `(container, method, name)` is declared unique: the second `__table_args__` of each
class replaces the first, which declared `(container, method, path)`. Two drafts with one
method and path can therefore come from an update or a copy, the two writers that do not
look for a conflict themselves. -/
namespace UniqueApis

open TransactionRuns KeyedTables ParentLinkedRows PythonRuntime ServiceSchema ApiStores
  StoreCopies ServiceOperations ApiOperations DraftWrites OperationRuns OperationEffects
  StateInvariant

def PathsUnique (apis : List ApiRow) : Prop :=
  ∀ a ∈ apis, ∀ b ∈ apis, a.container = b.container → a.fields.method = b.fields.method →
    a.fields.path = b.fields.path → a = b

def NamesUnique (apis : List ApiRow) : Prop :=
  ∀ a ∈ apis, ∀ b ∈ apis, a.container = b.container → a.fields.method = b.fields.method →
    a.fields.name = b.fields.name → a = b

structure ApisUnique (db : Database) : Prop where
  live_paths : PathsUnique db.live.apis.rows
  live_names : NamesUnique db.live.apis.rows
  draft_paths : PathsUnique db.drafts.apis.rows
  draft_names : NamesUnique db.drafts.apis.rows

/-- No draft of the iteration but `except` has this method and path. -/
def PathFree (db : Database) (iterationId except : ℕ) (method : HttpMethod) (path : String) :
    Prop :=
  ∀ b ∈ db.drafts.apis.rows, b.container = iterationId → b.id ≠ except →
    b.fields.method = method → b.fields.path.val ≠ path

/-- An update or a copy gives a draft a method and a path no other draft of the iteration has. -/
def PathsStayFree (db : Database) (request : Request) : Prop :=
  match request.operation with
  | .apiCopyApiByApiDraftId iterationId apiDraftId _ =>
    ∀ d ∈ db.drafts.apis.rows, d.id = apiDraftId → d.container = iterationId →
      PathFree db iterationId db.drafts.apis.next d.fields.method
        (d.fields.path.val ++ copySuffix request.env)
  | .apiUpdateApiByApiDraftId iterationId apiDraftId _ _ method path _ _ _ _ =>
    ∀ d ∈ db.drafts.apis.rows, d.id = apiDraftId → d.container = iterationId →
      PathFree db iterationId apiDraftId ((HttpMethod.ofValue method).getD .get) path
  | _ => True

section Lists

variable {apis : List ApiRow}

theorem PathsUnique.sublist {rest : List ApiRow} (h : PathsUnique apis) (hs : rest ⊆ apis) :
    PathsUnique rest :=
  fun a ha b hb => h a (hs ha) b (hs hb)

theorem PathsUnique.snoc {r : ApiRow} (h : PathsUnique apis)
    (hfree : ∀ a ∈ apis, a.container = r.container → a.fields.method = r.fields.method →
      a.fields.path ≠ r.fields.path) : PathsUnique (apis ++ [r]) := by
  intro a ha b hb hc hm hp
  rw [List.mem_append, List.mem_singleton] at ha hb
  rcases ha with ha | rfl <;> rcases hb with hb | rfl
  · exact h a ha b hb hc hm hp
  · exact absurd hp (hfree a ha hc hm)
  · exact absurd hp.symm (hfree b hb hc.symm hm.symm)
  · rfl

theorem PathsUnique.setCategories {g : ApiRow → Option ℕ} (h : PathsUnique apis) :
    PathsUnique (apis.map (setCategory g)) := by
  intro a ha b hb hc hm hp
  obtain ⟨x, hx, rfl⟩ := List.mem_map.mp ha
  obtain ⟨y, hy, rfl⟩ := List.mem_map.mp hb
  rw [h x hx y hy hc hm hp]

theorem PathsUnique.rewrite {t : Table ApiRow} {d : ApiRow} (hd : d ∈ t.rows) {f : ApiFields}
    (h : PathsUnique t.rows) (hfree : ∀ b ∈ t.rows, b.container = d.container → b.id ≠ d.id →
      b.fields.method = f.method → b.fields.path ≠ f.path) :
    PathsUnique (t.rows.map (setFields d.id f)) := by
  intro a ha b hb hc hm hp
  obtain ⟨x, hx, rfl⟩ := List.mem_map.mp ha
  obtain ⟨y, hy, rfl⟩ := List.mem_map.mp hb
  rw [setFields_container, setFields_container] at hc
  by_cases hxd : x.id = d.id <;> by_cases hyd : y.id = d.id
  · rw [t.eq_of_key_eq hx hy (hxd.trans hyd.symm)]
  · have hx' := t.eq_of_key_eq hx hd hxd
    simp only [setFields, if_pos hxd, if_neg hyd] at hm hp
    exact absurd hp.symm (hfree y hy (by rw [← hc, hx']) hyd hm.symm)
  · have hy' := t.eq_of_key_eq hy hd hyd
    simp only [setFields, if_neg hxd, if_pos hyd] at hm hp
    exact absurd hp (hfree x hx (by rw [hc, hy']) hxd hm)
  · simp only [setFields, if_neg hxd, if_neg hyd] at hm hp ⊢
    exact h x hx y hy hc hm hp

/-- Copies of one container's apis, put into a container without apis. -/
theorem PathsUnique.copies {old source : List ApiRow} {c d : ℕ} {ν : ℕ → ℕ}
    (h : PathsUnique old) (hnone : ∀ a ∈ old, a.container ≠ d) (hs : PathsUnique source)
    (hc : ∀ a ∈ source, a.container = c) :
    PathsUnique (old ++ source.map (fun a => ⟨ν a.id, d, a.fields⟩)) := by
  intro a ha b hb hcont hm hp
  rw [List.mem_append] at ha hb
  rcases ha with ha | ha <;> rcases hb with hb | hb
  · exact h a ha b hb hcont hm hp
  · obtain ⟨y, _, rfl⟩ := List.mem_map.mp hb
    exact absurd hcont (hnone a ha)
  · obtain ⟨x, _, rfl⟩ := List.mem_map.mp ha
    exact absurd hcont.symm (hnone b hb)
  · obtain ⟨x, hx, rfl⟩ := List.mem_map.mp ha
    obtain ⟨y, hy, rfl⟩ := List.mem_map.mp hb
    rw [hs x hx y hy ((hc x hx).trans (hc y hy).symm) hm hp]

end Lists

structure Paths (db : Database) : Prop where
  live : PathsUnique db.live.apis.rows
  drafts : PathsUnique db.drafts.apis.rows

theorem path_ne {v w : VarChar 256} (h : v.val ≠ w.val) : v ≠ w := fun he => h (congrArg _ he)

theorem effect_preserves_paths {db db' : Database} {request : Request} (hi : Invariant Nests db)
    (he : Effect request.env db request.operation db') (hg : PathsStayFree db request)
    (h : Paths db) : Paths db' := by
  obtain ⟨env, operation⟩ := request
  cases he with
  | @iterationStarted serviceId userId s drafts hs _ _ _ hu hcopy =>
    obtain ⟨ν, μ, ρ, hc, _⟩ := started_copies hi hcopy
    refine ⟨h.live, ?_⟩
    show PathsUnique drafts.apis.rows
    rw [hc.rows]
    have hfetched := (apisOf_fetch db.live serviceId env).2
    exact h.drafts.copies (no_draft_of_new_iteration hi)
      (h.live.sublist (fun a ha => ((hfetched a).mp ha).1)) (fun a ha => ((hfetched a).mp ha).2)
  | @iterationCommitted _ _ _ i s version live hw _ hsid _ _ hcopy =>
    rw [hsid] at hcopy
    obtain ⟨ν, μ, ρ, hc, _⟩ := committed_copies hi hw.mem hcopy
    refine ⟨?_, h.drafts⟩
    show PathsUnique live.apis.rows
    rw [hc.rows]
    have hfetched := (apisOf_fetch db.drafts i.id env).2
    exact (h.live.sublist (fun a ha => (cleared_container.mp ha).1)).copies
      (fun a ha => (cleared_container.mp ha).2)
      (h.drafts.sublist (fun a ha => ((hfetched a).mp ha).1)) (fun a ha => ((hfetched a).mp ha).2)
  | categoryDeleted _ _ _ _ _ => exact ⟨h.live.setCategories, h.drafts.setCategories⟩
  | apiCategoryUpdated _ _ _ _ _ _ => exact ⟨h.live.setCategories, h.drafts⟩
  | draftAdded _ _ _ _ _ _ hfree _ hins =>
    obtain ⟨_, _, rfl⟩ := insertApi_eq_ok.mp hins
    exact ⟨h.live, h.drafts.snoc hfree⟩
  | @draftCopied iterationId _ _ _ d f _ _ hd hid hdc _ _ hmeth hpath hcopy =>
    obtain ⟨_, _, _, hrows⟩ := copyDraft_spec hi.drafts hcopy
    refine ⟨h.live, ?_⟩
    show PathsUnique _
    rw [hrows]
    apply h.drafts.snoc
    intro a ha hc hm
    apply path_ne
    show a.fields.path.val ≠ f.path.val
    rw [hpath]
    exact hg d hd hid hdc a ha hc (Table.key_ne_next ha) (hm.trans hmeth)
  | @draftDeleted _ _ _ _ d _ hd _ _ =>
    obtain ⟨_, _, hrows⟩ := removeDraft_spec hi.drafts hd
    refine ⟨h.live, ?_⟩
    show PathsUnique _
    rw [hrows]
    exact h.drafts.sublist (List.filter_subset_self _)
  | @draftUpdated _ _ _ _ _ _ _ _ _ _ _ d f _ _ hd hid hdc _ _ hmeth hpath hrw =>
    obtain ⟨_, _, hrows⟩ := rewriteDraft_spec (nests_joint env) hi.drafts hd
      (fun p _ => paramRespects_true p) hrw
    refine ⟨h.live, ?_⟩
    show PathsUnique _
    rw [hrows]
    apply h.drafts.rewrite hd
    intro b hb hc hne hm
    apply path_ne
    rw [hpath]
    exact hg d hd hid hdc b hb (hc.trans hdc) (hid ▸ hne) (hm.trans hmeth)
  | _ => exact ⟨h.live, h.drafts⟩

theorem initial_paths {db : Database} (h : Initial db) : Paths db := by
  constructor
  · rw [h.live]
    intro a ha
    cases ha
  · rw [h.drafts]
    intro a ha
    cases ha

/-- In every run whose updates and copies take free paths, apis are unique in both ways. -/
theorem apis_unique_when_paths_stay_free {db : Database} (h : ReachableUnder PathsStayFree db) :
    ApisUnique db := by
  have hi := reachable_invariant h.reachable
  obtain ⟨db₀, h₀, hr⟩ := h
  have hpaths : Invariant Nests db ∧ Paths db := by
    refine hr.preserves (I := fun d => Invariant Nests d ∧ Paths d) ?_
      ⟨initial_invariant h₀, initial_paths h₀⟩
    rintro s e t ⟨hs, hp⟩ hg ht
    have heffect := transaction_effect ht
    exact ⟨effect_preserves nests_joint heffect (payloadGuard_true e.operation) hs,
      effect_preserves_paths hs heffect hg hp⟩
  exact ⟨hpaths.2.live, hi.live.key_unique, hpaths.2.drafts, hi.drafts.key_unique⟩

def reopening : List Operation :=
  [.serviceCreateNewService "team/core" 1 none, .serviceStartIteration 1 1,
    .apiAddApi 1 1 "list" "GET" "/users" none "P2" none, .serviceCommitIteration 1 "0.0.2" 1,
    .serviceStartIteration 1 1]

theorem apis_unique_after_reopening : ApisUnique (play twoUsers reopening) := by
  refine apis_unique_when_paths_stay_free (twoUsers_reachable.play reopening ?_)
  intro operation ho d
  simp only [reopening, List.mem_cons, List.not_mem_nil, or_false] at ho
  rcases ho with rfl | rfl | rfl | rfl | rfl
  all_goals trivial

def collided : Database :=
  play opened [.apiAddApi 2 1 "find" "GET" "/user" none "P2" none,
    .apiUpdateApiByApiDraftId 2 3 1 "find" "GET" "/users" none "P2" (.arr []) (.arr [])]

theorem update_duplicates_path : ¬ ∀ db, Reachable db → ApisUnique db := by
  intro h
  have hunique := (h collided (opened_reachable.play _)).draft_paths
  have htwo : ∃ a ∈ collided.drafts.apis.rows, ∃ b ∈ collided.drafts.apis.rows,
      a.container = b.container ∧ a.fields.method = b.fields.method ∧
        a.fields.path = b.fields.path ∧ a.id ≠ b.id := by decide +kernel
  obtain ⟨a, ha, b, hb, hc, hm, hp, hne⟩ := htwo
  exact hne (congrArg ApiRow.id (hunique a ha b hb hc hm hp))

end UniqueApis
