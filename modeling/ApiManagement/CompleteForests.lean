import ApiManagement.RowForests
import Mathlib.Data.List.Nodup
import Mathlib.Data.Set.Finite.List
import Mathlib.Order.WellFounded

/-! # Complete trees of parent-linked rows

A tree is complete if below every row stand all rows that name it as parent, in any order.
Complete trees of all roots hold every row exactly once, and laid out under fresh ids they are
the image of the rows under an injective renaming. -/
namespace CompleteForests

open ParentLinkedRows RowForests

variable {F : Type} {link : F → F → Prop} {rows : List (LinkedRow F)}
  {t : RoseTree (LinkedRow F)} {ts : List (RoseTree (LinkedRow F))}

inductive Complete (rows : List (LinkedRow F)) : RoseTree (LinkedRow F) → Prop where
  | node {r ts} : (ts.map RoseTree.value).Perm (childrenOf rows r.id) →
      (∀ t ∈ ts, Complete rows t) → Complete rows (.node r ts)

theorem shape_node (r : LinkedRow F) (ts : List (RoseTree (LinkedRow F))) :
    shape (.node r ts) = .node r.fields (ts.map shape) :=
  RoseTree.map_node LinkedRow.fields r ts

@[simp] theorem mem_childrenOf {i : ℕ} {c : LinkedRow F} :
    c ∈ childrenOf rows i ↔ c ∈ rows ∧ c.parent = some i := by
  simp [childrenOf]

theorem value_mem_children {r : LinkedRow F}
    (hp : (ts.map RoseTree.value).Perm (childrenOf rows r.id)) (ht : t ∈ ts) :
    t.value ∈ rows ∧ t.value.parent = some r.id :=
  mem_childrenOf.mp (hp.mem_iff.mp (List.mem_map_of_mem ht))

theorem Complete.values_subset (h : Complete rows t) (hr : t.value ∈ rows) :
    ∀ v ∈ t.values, v ∈ rows := by
  induction h with
  | @node r ts hp _ ih =>
    intro v hv
    rw [RoseTree.values] at hv
    rcases List.mem_cons.mp hv with rfl | hv
    · exact hr
    · obtain ⟨t, ht, hv⟩ := mem_forestValues_iff.mp hv
      exact ih t ht (value_mem_children hp ht).1 v hv

theorem forest_subset (h : ∀ t ∈ ts, Complete rows t) (hr : ∀ t ∈ ts, t.value ∈ rows) :
    ∀ v ∈ forestValues ts, v ∈ rows := by
  intro v hv
  obtain ⟨t, ht, hv⟩ := mem_forestValues_iff.mp hv
  exact (h t ht).values_subset (hr t ht) v hv

/-- Rows that hold the children of all rows of `within` are enough to look at. -/
theorem Complete.restrict {within : List (LinkedRow F)} (hsub : ∀ r ∈ within,
      childrenOf rows r.id = childrenOf within r.id) (h : Complete rows t)
    (hr : t.value ∈ within) : Complete within t := by
  induction h with
  | @node r ts hp _ ih =>
    rw [hsub r hr] at hp
    exact .node hp (fun t ht => ih t ht (value_mem_children hp ht).1)

/-- Below every row stand the rows that name it as parent, in the order of the list. -/
inductive InListOrder (rows : List (LinkedRow F)) : RoseTree (LinkedRow F) → Prop where
  | node {r ts} : ts.map RoseTree.value = childrenOf rows r.id →
      (∀ t ∈ ts, InListOrder rows t) → InListOrder rows (.node r ts)

theorem InListOrder.complete (h : InListOrder rows t) : Complete rows t := by
  induction h with
  | node hc _ ih => exact .node (List.Perm.of_eq hc) ih

mutual

theorem tree_induction {α : Type} {P : RoseTree α → Prop}
    (node : ∀ a ts, (∀ t ∈ ts, P t) → P (.node a ts)) : ∀ t, P t
  | .node a ts => node a ts (siblings_induction node ts)

theorem siblings_induction {α : Type} {P : RoseTree α → Prop}
    (node : ∀ a ts, (∀ t ∈ ts, P t) → P (.node a ts)) : ∀ ts : List (RoseTree α), ∀ t ∈ ts, P t
  | [] => fun t ht => by cases ht
  | u :: ts => by
    intro t ht
    rcases List.mem_cons.mp ht with he | ht
    · rw [he]
      exact tree_induction node u
    · exact siblings_induction node ts t ht

end

theorem growTree_inListOrder (hacyclic : ∀ i, ¬ Relation.TransGen (ParentOf rows) i i)
    {r : LinkedRow F} (hr : r ∈ rows) : InListOrder rows (growTree rows rows.length r) := by
  have main : ∀ t, ∀ r ∈ rows, growTree rows rows.length r = t → InListOrder rows t := by
    intro t
    induction t using tree_induction with
    | node v ts ih =>
      intro r hr ht
      rw [growTree_unfold hacyclic hr, RoseTree.node.injEq] at ht
      obtain ⟨rfl, rfl⟩ := ht
      refine .node ?_ ?_
      · simp [Function.comp_def]
      · intro t ht
        obtain ⟨c, hc, rfl⟩ := List.mem_map.mp ht
        exact ih _ ht c (mem_childrenOf.mp hc).1 rfl
  exact main _ r hr rfl

inductive Grounded (rows : List (LinkedRow F)) : LinkedRow F → Prop where
  | root {r} : r ∈ rows → r.parent = none → Grounded rows r
  | child {r q} : r ∈ rows → r.parent = some q.id → Grounded rows q → Grounded rows r

theorem Grounded.mem {r : LinkedRow F} (h : Grounded rows r) : r ∈ rows := by
  cases h with
  | root hr => exact hr
  | child hr => exact hr

theorem Grounded.of_rooted {r : LinkedRow F} (h : Rooted link rows r) : Grounded rows r := by
  induction h with
  | root hr hp => exact .root hr hp
  | child hr hp _ _ _ ih => exact .child hr hp ih

/-- Parents among the rows and no cycle are enough. -/
theorem grounded_of_acyclic (hparent : ∀ r ∈ rows, ∀ p, r.parent = some p →
      p ∈ rows.map LinkedRow.id) (hacyclic : ∀ i, ¬ Relation.TransGen (ParentOf rows) i i) :
    ∀ r ∈ rows, Grounded rows r := by
  let above : { i // i ∈ rows.map LinkedRow.id } → { i // i ∈ rows.map LinkedRow.id } → Prop :=
    fun i j => Relation.TransGen (ParentOf rows) i.1 j.1
  have : Finite { i // i ∈ rows.map LinkedRow.id } := List.finite_toSet _
  have : IsTrans _ above := ⟨fun _ _ _ => Relation.TransGen.trans⟩
  have : Std.Irrefl above := ⟨fun i => hacyclic i.1⟩
  have hwf : WellFounded above := Finite.wellFounded_of_trans_of_irrefl above
  have main : ∀ i : { i // i ∈ rows.map LinkedRow.id }, ∀ r ∈ rows, r.id = i.1 →
      Grounded rows r := by
    intro i
    induction i using hwf.induction with
    | _ i ih =>
      intro r hr hid
      cases hp : r.parent with
      | none => exact .root hr hp
      | some p =>
        obtain ⟨q, hq, rfl⟩ := List.mem_map.mp (hparent r hr p hp)
        refine .child hr hp (ih ⟨q.id, List.mem_map_of_mem hq⟩ ?_ q hq rfl)
        exact .single ⟨r, hr, hid, hp⟩
  exact fun r hr => main ⟨r.id, List.mem_map_of_mem hr⟩ r hr rfl

section Counting

variable [DecidableEq F]

theorem count_childrenOf (hn : (rows.map LinkedRow.id).Nodup) {v : LinkedRow F} (hv : v ∈ rows)
    (i : ℕ) : (childrenOf rows i).count v = if v.parent = some i then 1 else 0 := by
  by_cases hp : v.parent = some i
  · rw [if_pos hp, childrenOf, List.count_filter (by simpa using hp)]
    exact List.count_eq_one_of_mem (List.Nodup.of_map _ hn) hv
  · rw [if_neg hp, List.count_eq_zero]
    exact fun hm => hp (mem_childrenOf.mp hm).2

/-- Where a row stands: at the top, or directly below an occurrence of its parent. -/
def Placed (v : LinkedRow F) (values tops : List (LinkedRow F)) : Prop :=
  values.count v = tops.count v + values.countP (fun q => v.parent == some q.id)

theorem placed_forest {v : LinkedRow F} (h : ∀ t ∈ ts, Placed v t.values [t.value]) :
    Placed v (forestValues ts) (ts.map RoseTree.value) := by
  induction ts with
  | nil => rfl
  | cons t ts ih =>
    have first := h t List.mem_cons_self
    have rest := ih (fun u hu => h u (List.mem_cons_of_mem _ hu))
    unfold Placed at *
    rw [forestValues, List.count_append, List.countP_append, List.map_cons, List.count_cons, first,
      rest, List.count_singleton]
    omega

theorem Complete.placed (hn : (rows.map LinkedRow.id).Nodup) {v : LinkedRow F} (hv : v ∈ rows)
    (h : Complete rows t) : Placed v t.values [t.value] := by
  induction h with
  | @node r ts hp _ ih =>
    have below := placed_forest ih
    unfold Placed at *
    rw [hp.count_eq, count_childrenOf hn hv] at below
    rw [RoseTree.values, RoseTree.value, List.count_cons, List.countP_cons, List.count_singleton,
      below]
    simp only [beq_iff_eq]
    omega

theorem count_forest (hn : (rows.map LinkedRow.id).Nodup) (h : ∀ t ∈ ts, Complete rows t)
    (hroots : (ts.map RoseTree.value).Perm (rows.filter (fun r => r.parent.isNone)))
    {v : LinkedRow F} (hv : Grounded rows v) : (forestValues ts).count v = 1 := by
  have placed : ∀ {u : LinkedRow F}, u ∈ rows → Placed u (forestValues ts)
      (rows.filter (fun r => r.parent.isNone)) := by
    intro u hu
    have hp := placed_forest (fun t ht => (h t ht).placed hn hu)
    rwa [Placed, hroots.count_eq] at hp
  have inside := forest_subset h (fun t ht =>
    List.mem_of_mem_filter (hroots.mem_iff.mp (List.mem_map_of_mem ht)))
  induction hv with
  | @root v hm hnone =>
    have hp := placed hm
    rw [Placed, List.count_filter (by simp [hnone]),
      List.count_eq_one_of_mem (List.Nodup.of_map _ hn) hm] at hp
    simpa [hnone] using hp
  | @child v q hm hpar hq ih =>
    have hp := placed hm
    have htop : (rows.filter (fun r => r.parent.isNone)).count v = 0 := by
      rw [List.count_eq_zero]
      intro hf
      simp [hpar] at hf
    have hsame : (forestValues ts).countP (fun r => v.parent == some r.id) =
        (forestValues ts).count q := by
      rw [List.count]
      apply List.countP_congr
      intro r hr
      simp only [hpar, beq_iff_eq, Option.some_inj]
      constructor
      · intro he
        exact List.inj_on_of_nodup_map hn (inside r hr) hq.mem he.symm
      · intro he
        rw [he]
    rw [hp, htop, hsame, ih]

end Counting

/-- A forest of complete trees on all roots is a rearrangement of the rows. -/
theorem values_perm (hn : (rows.map LinkedRow.id).Nodup) (hg : ∀ r ∈ rows, Grounded rows r)
    (h : ∀ t ∈ ts, Complete rows t)
    (hroots : (ts.map RoseTree.value).Perm (rows.filter (fun r => r.parent.isNone))) :
    (forestValues ts).Perm rows := by
  classical
  rw [List.perm_iff_count]
  intro v
  by_cases hv : v ∈ rows
  · rw [count_forest hn h hroots (hg v hv),
      List.count_eq_one_of_mem (List.Nodup.of_map _ hn) hv]
  · rw [List.count_eq_zero.mpr hv, List.count_eq_zero]
    intro hm
    exact hv (forest_subset h (fun t ht =>
      List.mem_of_mem_filter (hroots.mem_iff.mp (List.mem_map_of_mem ht))) v hm)

section Layouts

variable {μ : ℕ → ℕ} {holder : ℕ}

mutual

/-- If `μ` numbers the rows of a complete tree in order, laying it out renames them by `μ`. -/
theorem layTree_graft : ∀ (t : RoseTree (LinkedRow F)) {n : ℕ}, Complete rows t →
    t.values.map (fun r => μ r.id) = List.range' n t.values.length →
    layTree holder (t.value.parent.map μ) n (shape t) = t.values.map (graft μ holder)
  | .node r ts, n, .node hp hall, hμ => by
    rw [RoseTree.values, List.map_cons, List.length_cons, List.range'_succ] at hμ
    obtain ⟨hr, hrest⟩ := List.cons.inj hμ
    have hpar : ∀ t ∈ ts, t.value.parent.map μ = some n := by
      intro t ht
      rw [(value_mem_children hp ht).2, Option.map_some, hr]
    have below := layForest_graft ts hall hpar hrest
    rw [shape_node, layTree, RoseTree.values, List.map_cons, RoseTree.value]
    exact congrArg₂ List.cons (by rw [graft, hr]) below

theorem layForest_graft : ∀ (ts : List (RoseTree (LinkedRow F))) {parent : Option ℕ} {n : ℕ},
    (∀ t ∈ ts, Complete rows t) → (∀ t ∈ ts, t.value.parent.map μ = parent) →
    (forestValues ts).map (fun r => μ r.id) = List.range' n (forestValues ts).length →
    layForest holder parent n (ts.map shape) = (forestValues ts).map (graft μ holder)
  | [], _, _, _, _, _ => rfl
  | t :: ts, parent, n, hall, hpar, hμ => by
    rw [forestValues, List.map_append, List.length_append, ← List.range'_append_1] at hμ
    obtain ⟨hfirst, hrest⟩ := List.append_inj hμ (by simp)
    have first := layTree_graft t (hall t List.mem_cons_self) hfirst
    rw [hpar t List.mem_cons_self] at first
    have hsize : (layTree holder parent n (shape t)).length = (shape t).size := layTree_length _
    rw [first, List.length_map] at hsize
    have rest := layForest_graft ts (fun u hu => hall u (List.mem_cons_of_mem _ hu))
      (fun u hu => hpar u (List.mem_cons_of_mem _ hu)) hrest
    rw [List.map_cons, layForest, forestValues, List.map_append, first, ← hsize, rest]

end

theorem exists_numbering {ids : List ℕ} (hn : ids.Nodup) (n : ℕ) :
    ∃ μ : ℕ → ℕ, ids.map μ = List.range' n ids.length ∧ Set.InjOn μ { i | i ∈ ids } := by
  refine ⟨fun i => n + ids.idxOf i, ?_, ?_⟩
  · apply List.ext_getElem
    · simp
    · intro k hk _
      rw [List.length_map] at hk
      simp [hn.idxOf_getElem k hk]
  · intro i hi j _ hij
    exact (List.idxOf_inj hi).mp (Nat.add_left_cancel hij)

/-- Laying out complete trees on the roots of some rows copies these rows. -/
theorem layForest_copies (hn : (rows.map LinkedRow.id).Nodup) (hl : WellLinked link rows)
    (h : ∀ t ∈ ts, Complete rows t)
    (hroots : (ts.map RoseTree.value).Perm (rows.filter (fun r => r.parent.isNone)))
    (holder n : ℕ) : ∃ (copied : List (LinkedRow F)) (μ : ℕ → ℕ), copied.Perm rows ∧
      Set.InjOn μ { i | i ∈ rows.map LinkedRow.id } ∧
      layForest holder none n (ts.map shape) = copied.map (graft μ holder) := by
  have hp := values_perm hn (fun r hr => .of_rooted (hl r hr)) h hroots
  obtain ⟨μ, hμ, hinj⟩ := exists_numbering ((hp.map LinkedRow.id).nodup_iff.mpr hn) n
  refine ⟨forestValues ts, μ, hp, ?_, layForest_graft ts h ?_ ?_⟩
  · intro i hi j hj
    exact hinj ((hp.map LinkedRow.id).mem_iff.mpr hi) ((hp.map LinkedRow.id).mem_iff.mpr hj)
  · intro t ht
    have hroot := List.mem_filter.mp (hroots.mem_iff.mp (List.mem_map_of_mem ht))
    rw [Option.isNone_iff_eq_none.mp hroot.2, Option.map_none]
  · rw [List.map_map, List.length_map] at hμ
    exact hμ

end Layouts

end CompleteForests
