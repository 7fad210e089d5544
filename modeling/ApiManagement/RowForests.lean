import ApiManagement.ParentLinkedRows
import Mathlib.Data.List.Perm.Subperm

/-! # Forests decoded from parent-linked rows

A row's tree has one subtree for each row that names it as parent. Decoding commutes with
an injective renaming of ids and depends on the order of the rows only up to the order of
siblings. -/
namespace RowForests

open KeyedTables ParentLinkedRows

inductive RoseTree (α : Type) where
  | node (value : α) (children : List (RoseTree α))

variable {α β : Type} {F : Type}

def RoseTree.value : RoseTree α → α
  | .node a _ => a

def RoseTree.children : RoseTree α → List (RoseTree α)
  | .node _ ts => ts

mutual

def RoseTree.map (f : α → β) : RoseTree α → RoseTree β
  | .node a ts => .node (f a) (mapForest f ts)

def mapForest (f : α → β) : List (RoseTree α) → List (RoseTree β)
  | [] => []
  | t :: ts => RoseTree.map f t :: mapForest f ts

end

theorem mapForest_eq_map (f : α → β) (ts : List (RoseTree α)) :
    mapForest f ts = ts.map (RoseTree.map f) := by
  induction ts with
  | nil => rfl
  | cons t ts ih => rw [mapForest, ih, List.map_cons]

@[simp] theorem RoseTree.map_node (f : α → β) (a : α) (ts : List (RoseTree α)) :
    RoseTree.map f (.node a ts) = .node (f a) (ts.map (RoseTree.map f)) := by
  rw [RoseTree.map, mapForest_eq_map]

@[simp] theorem RoseTree.map_value (f : α → β) (t : RoseTree α) : (t.map f).value = f t.value := by
  cases t
  rfl

/-- Equality of forests up to the order of siblings at every depth. -/
inductive ForestIso : List (RoseTree α) → List (RoseTree α) → Prop where
  | nil : ForestIso [] []
  | cons {cs ds as bs} (a : α) : ForestIso cs ds → ForestIso as bs →
      ForestIso (.node a cs :: as) (.node a ds :: bs)
  | swap (t u ts) : ForestIso (t :: u :: ts) (u :: t :: ts)
  | trans {as bs cs} : ForestIso as bs → ForestIso bs cs → ForestIso as cs

theorem ForestIso.refl : ∀ ts : List (RoseTree α), ForestIso ts ts
  | [] => .nil
  | .node a cs :: ts => .cons a (ForestIso.refl cs) (ForestIso.refl ts)

theorem ForestIso.symm {as bs : List (RoseTree α)} (h : ForestIso as bs) : ForestIso bs as := by
  induction h with
  | nil => exact .nil
  | cons a _ _ ih₁ ih₂ => exact .cons a ih₁ ih₂
  | swap t u ts => exact .swap u t ts
  | trans _ _ ih₁ ih₂ => exact .trans ih₂ ih₁

theorem ForestIso.of_perm {as bs : List (RoseTree α)} (h : as.Perm bs) : ForestIso as bs := by
  induction h with
  | nil => exact .nil
  | cons t _ ih =>
    cases t with
    | node a cs => exact .cons a (ForestIso.refl cs) ih
  | swap t u ts => exact .swap u t ts
  | trans _ _ ih₁ ih₂ => exact .trans ih₁ ih₂

theorem ForestIso.length_eq {as bs : List (RoseTree α)} (h : ForestIso as bs) :
    as.length = bs.length := by
  induction h with
  | nil => rfl
  | cons _ _ _ _ ih => simp [ih]
  | swap => simp
  | trans _ _ ih₁ ih₂ => exact ih₁.trans ih₂

mutual

def RoseTree.values : RoseTree α → List α
  | .node a ts => a :: forestValues ts

def forestValues : List (RoseTree α) → List α
  | [] => []
  | t :: ts => t.values ++ forestValues ts

end

theorem mem_forestValues_iff {ts : List (RoseTree α)} {a : α} :
    a ∈ forestValues ts ↔ ∃ t ∈ ts, a ∈ t.values := by
  induction ts with
  | nil => simp [forestValues]
  | cons t ts ih => rw [forestValues, List.mem_append, ih, List.exists_mem_cons_iff]

inductive Within (t : RoseTree α) : List (RoseTree α) → Prop where
  | here {ts} : t ∈ ts → Within t ts
  | deeper {u ts} : u ∈ ts → Within t u.children → Within t ts

theorem RoseTree.values_eq : ∀ t : RoseTree α, t.values = t.value :: forestValues t.children
  | .node _ _ => rfl

theorem Within.values_subset {t : RoseTree α} {ts : List (RoseTree α)}
    (h : Within t ts) : t.values ⊆ forestValues ts := by
  intro a ha
  induction h with
  | here ht => exact mem_forestValues_iff.mpr ⟨t, ht, ha⟩
  | deeper hu _ ih =>
    exact mem_forestValues_iff.mpr ⟨_, hu, RoseTree.values_eq _ ▸ List.mem_cons_of_mem _ ih⟩

theorem Within.value_mem {t : RoseTree α} {ts : List (RoseTree α)} (h : Within t ts) :
    t.value ∈ forestValues ts :=
  h.values_subset (RoseTree.values_eq t ▸ List.mem_cons_self)

mutual

theorem within_of_tree {a : α} : ∀ u : RoseTree α, a ∈ u.values →
    u.value = a ∨ ∃ t, Within t u.children ∧ t.value = a
  | .node b us, h => by
    rcases List.mem_cons.mp h with rfl | h
    · exact Or.inl rfl
    · exact Or.inr (within_of_values us h)

theorem within_of_values {a : α} : ∀ ts : List (RoseTree α), a ∈ forestValues ts →
    ∃ t, Within t ts ∧ t.value = a
  | [], h => by cases h
  | u :: ts, h => by
    rw [forestValues] at h
    rcases List.mem_append.mp h with h | h
    · rcases within_of_tree u h with hu | ⟨t, ht, ha⟩
      · exact ⟨u, .here List.mem_cons_self, hu⟩
      · exact ⟨t, .deeper List.mem_cons_self ht, ha⟩
    · obtain ⟨t, ht, ha⟩ := within_of_values ts h
      refine ⟨t, ?_, ha⟩
      cases ht with
      | here ht => exact .here (List.mem_cons_of_mem _ ht)
      | deeper hu ht => exact .deeper (List.mem_cons_of_mem _ hu) ht

end

theorem ForestIso.values {ts us : List (RoseTree α)} (h : ForestIso ts us) :
    (forestValues ts).Perm (forestValues us) := by
  induction h with
  | nil => exact .refl _
  | cons a _ _ ih₁ ih₂ =>
    simp only [forestValues, RoseTree.values, List.cons_append]
    exact (ih₁.append ih₂).cons a
  | swap t u ts =>
    simp only [forestValues, ← List.append_assoc]
    exact (List.perm_append_comm).append_right _
  | trans _ _ ih₁ ih₂ => exact ih₁.trans ih₂

mutual

theorem RoseTree.values_map (f : α → β) : ∀ t : RoseTree α, (t.map f).values = t.values.map f
  | .node a ts => by
    rw [RoseTree.map_node, RoseTree.values, RoseTree.values, forestValues_map f ts, List.map_cons]

theorem forestValues_map (f : α → β) : ∀ ts : List (RoseTree α),
    forestValues (ts.map (RoseTree.map f)) = (forestValues ts).map f
  | [] => rfl
  | t :: ts => by
    rw [List.map_cons, forestValues, forestValues, RoseTree.values_map f t, forestValues_map f ts,
      List.map_append]

end

mutual

theorem RoseTree.map_congr {f g : α → β} : ∀ t : RoseTree α, (∀ a ∈ t.values, f a = g a) →
    t.map f = t.map g
  | .node a ts, h => by
    rw [RoseTree.values] at h
    rw [RoseTree.map_node, RoseTree.map_node, h a List.mem_cons_self,
      forest_map_congr ts (fun b hb => h b (List.mem_cons_of_mem _ hb))]

theorem forest_map_congr {f g : α → β} : ∀ ts : List (RoseTree α),
    (∀ a ∈ forestValues ts, f a = g a) →
    ts.map (RoseTree.map f) = ts.map (RoseTree.map g)
  | [], _ => rfl
  | t :: ts, h => by
    rw [forestValues] at h
    rw [List.map_cons, List.map_cons,
      RoseTree.map_congr t (fun b hb => h b (List.mem_append_left _ hb)),
      forest_map_congr ts (fun b hb => h b (List.mem_append_right _ hb))]

end

/-- For acyclic rows the depth bound never cuts a tree short when it is the number of rows. -/
def growTree (rows : List (LinkedRow F)) : ℕ → LinkedRow F → RoseTree (LinkedRow F)
  | 0, r => .node r []
  | n + 1, r => .node r ((childrenOf rows r.id).map (growTree rows n))

def growForest (rows roots : List (LinkedRow F)) : List (RoseTree (LinkedRow F)) :=
  roots.map (growTree rows rows.length)

def shape (t : RoseTree (LinkedRow F)) : RoseTree F := t.map LinkedRow.fields

@[simp] theorem growTree_value (rows : List (LinkedRow F)) (n : ℕ) (r : LinkedRow F) :
    (growTree rows n r).value = r := by
  cases n <;> rfl

section Depth

variable {rows : List (LinkedRow F)} (hacyclic : ∀ i, ¬ Relation.TransGen (ParentOf rows) i i)

include hacyclic

/-- A row below `above.length` others is decoded completely with that much less depth. -/
theorem growTree_succ : ∀ (n : ℕ) (above : List ℕ) (r : LinkedRow F), r ∈ rows → above.Nodup →
    (∀ i ∈ above, i ∈ rows.map LinkedRow.id ∧ Relation.TransGen (ParentOf rows) i r.id) →
    rows.length ≤ n + above.length → growTree rows (n + 1) r = growTree rows n r := by
  intro n
  induction n with
  | zero =>
    intro above r hr hn ha hlen
    have hnew : r.id ∉ above := fun hm => hacyclic _ (ha _ hm).2
    have hsub : r.id :: above ⊆ rows.map LinkedRow.id := by
      intro i hi
      rcases List.mem_cons.mp hi with rfl | hi
      · exact List.mem_map_of_mem hr
      · exact (ha i hi).1
    have hle := ((List.nodup_cons.mpr ⟨hnew, hn⟩).subperm hsub).length_le
    rw [List.length_cons, List.length_map] at hle
    omega
  | succ n ih =>
    intro above r hr hn ha hlen
    rw [growTree, growTree]
    congr 1
    apply List.map_congr_left
    intro c hc
    obtain ⟨hc, hp⟩ := List.mem_filter.mp hc
    have hlink : ParentOf rows r.id c.id := ⟨c, hc, rfl, beq_iff_eq.mp hp⟩
    have hnew : r.id ∉ above := fun hm => hacyclic _ (ha _ hm).2
    refine ih (r.id :: above) c hc (List.nodup_cons.mpr ⟨hnew, hn⟩) ?_ ?_
    · intro i hi
      rcases List.mem_cons.mp hi with rfl | hi
      · exact ⟨List.mem_map_of_mem hr, .single hlink⟩
      · exact ⟨(ha i hi).1, (ha i hi).2.tail hlink⟩
    · rw [List.length_cons]
      omega

/-- Every child of a row is found below it. -/
theorem growTree_unfold {r : LinkedRow F} (hr : r ∈ rows) :
    growTree rows rows.length r =
      .node r ((childrenOf rows r.id).map (growTree rows rows.length)) := by
  rw [← growTree_succ hacyclic rows.length [] r hr List.nodup_nil (by simp) (by simp), growTree]

end Depth

section Inherited

variable {κ : Type} (k : F → κ)

/-- Every row agrees with its parent on `k`. -/
def Inherited (rows : List (LinkedRow F)) : Prop :=
  ∀ r ∈ rows, ∀ q ∈ rows, r.parent = some q.id → k q.fields = k r.fields

variable {k} {rows : List (LinkedRow F)}

theorem Inherited.values (h : Inherited k rows) : ∀ (n : ℕ) (r : LinkedRow F), r ∈ rows →
    ∀ v ∈ (growTree rows n r).values, k v.fields = k r.fields := by
  intro n
  induction n with
  | zero =>
    intro r _ v hv
    simp only [growTree, RoseTree.values, forestValues, List.mem_singleton] at hv
    rw [hv]
  | succ n ih =>
    intro r hr v hv
    rw [growTree, RoseTree.values] at hv
    rcases List.mem_cons.mp hv with rfl | hv
    · rfl
    · obtain ⟨t, ht, hv⟩ := mem_forestValues_iff.mp hv
      obtain ⟨c, hc, rfl⟩ := List.mem_map.mp ht
      obtain ⟨hm, hp⟩ := List.mem_filter.mp hc
      exact (ih c hm v hv).trans (h c hm r hr (beq_iff_eq.mp hp)).symm

/-- If the trees of all roots are uniform in `k`, it is inherited everywhere. -/
theorem inherited_of_values {link : F → F → Prop} (hl : WellLinked link rows)
    (hn : (rows.map LinkedRow.id).Nodup)
    (h : ∀ r ∈ rows, r.parent = none →
      ∀ v ∈ (growTree rows rows.length r).values, k v.fields = k r.fields) :
    Inherited k rows := by
  have hacyclic := hl.acyclic hn
  have deeper : ∀ {q r : LinkedRow F}, q ∈ rows → r ∈ rows → r.parent = some q.id →
      ∀ v ∈ (growTree rows rows.length r).values, v ∈ (growTree rows rows.length q).values := by
    intro q r hq hr hp v hv
    have hc : r ∈ childrenOf rows q.id := List.mem_filter.mpr ⟨hr, beq_iff_eq.mpr hp⟩
    rw [growTree_unfold hacyclic hq, RoseTree.values]
    exact List.mem_cons_of_mem _ (mem_forestValues_iff.mpr ⟨_, List.mem_map_of_mem hc, hv⟩)
  have self : ∀ r ∈ rows, r ∈ (growTree rows rows.length r).values := by
    intro r hr
    rw [growTree_unfold hacyclic hr, RoseTree.values]
    exact List.mem_cons_self
  have uniform : ∀ r, Rooted link rows r →
      ∃ x, ∀ v ∈ (growTree rows rows.length r).values, k v.fields = x := by
    intro r hr
    induction hr with
    | root hm hp => exact ⟨_, h _ hm hp⟩
    | child hm hp _ _ hq ih =>
      obtain ⟨x, hx⟩ := ih
      exact ⟨x, fun v hv => hx v (deeper hq.mem hm hp v hv)⟩
  intro r hr q hq hp
  obtain ⟨x, hx⟩ := uniform q (hl q hq)
  rw [hx q (self q hq), hx r (deeper hq hr hp r (self r hr))]

end Inherited

theorem childrenOf_perm {rows more : List (LinkedRow F)} (h : rows.Perm more) (i : ℕ) :
    (childrenOf rows i).Perm (childrenOf more i) :=
  h.filter _

theorem growTree_perm {rows more : List (LinkedRow F)} (h : rows.Perm more) :
    ∀ (n : ℕ) (rs qs : List (LinkedRow F)), rs.Perm qs →
      ForestIso (rs.map (fun r => shape (growTree rows n r)))
        (qs.map (fun r => shape (growTree more n r))) := by
  intro n
  induction n with
  | zero => exact fun rs qs hp => ForestIso.of_perm (hp.map _)
  | succ n ih =>
    intro rs qs hp
    have same : ForestIso (rs.map (fun r => shape (growTree rows (n + 1) r)))
        (rs.map (fun r => shape (growTree more (n + 1) r))) := by
      clear hp
      induction rs with
      | nil => exact .nil
      | cons r rs ihr =>
        simp only [List.map_cons, shape, growTree, RoseTree.map_node, List.map_map] at ihr ⊢
        exact .cons _ (ih _ _ (childrenOf_perm h r.id)) ihr
    exact same.trans (ForestIso.of_perm (hp.map _))

/-- A permutation of the rows permutes siblings only. -/
theorem growForest_perm {rows more rs qs : List (LinkedRow F)} (h : rows.Perm more)
    (hp : rs.Perm qs) :
    ForestIso ((growForest rows rs).map shape) ((growForest more qs).map shape) := by
  simp only [growForest, List.map_map, h.length_eq]
  exact growTree_perm h more.length rs qs hp

section Renaming

variable {μ : ℕ → ℕ} {holder : ℕ} {rows : List (LinkedRow F)}

theorem childrenOf_graft (hi : Set.InjOn μ { i | i ∈ rows.map LinkedRow.id })
    (hp : ∀ r ∈ rows, ∀ p, r.parent = some p → ∃ q ∈ rows, q.id = p) {r : LinkedRow F}
    (hr : r ∈ rows) :
    childrenOf (rows.map (graft μ holder)) (μ r.id) =
      (childrenOf rows r.id).map (graft μ holder) := by
  unfold childrenOf
  rw [List.filter_map]
  congr 1
  apply List.filter_congr
  intro c hc
  rw [Bool.eq_iff_iff]
  simp only [Function.comp, graft_parent, beq_iff_eq]
  constructor
  · intro h
    cases hcp : c.parent with
    | none => rw [hcp] at h; cases h
    | some p =>
      obtain ⟨q, hq, rfl⟩ := hp c hc p hcp
      rw [hcp, Option.map_some, Option.some_inj] at h
      rw [hi (List.mem_map_of_mem hq) (List.mem_map_of_mem hr) h]
  · intro h
    rw [h, Option.map_some]

theorem growTree_graft (hi : Set.InjOn μ { i | i ∈ rows.map LinkedRow.id })
    (hp : ∀ r ∈ rows, ∀ p, r.parent = some p → ∃ q ∈ rows, q.id = p) :
    ∀ (n : ℕ) (r : LinkedRow F), r ∈ rows →
      shape (growTree (rows.map (graft μ holder)) n (graft μ holder r)) =
        shape (growTree rows n r) := by
  intro n
  induction n with
  | zero =>
    intro r _
    simp [growTree, shape]
  | succ n ih =>
    intro r hr
    simp only [growTree, shape, RoseTree.map_node, graft_fields, graft_id, List.map_map,
      childrenOf_graft hi hp hr, RoseTree.node.injEq, true_and]
    apply List.map_congr_left
    intro c hc
    exact ih c (List.mem_of_mem_filter hc)

/-- Renaming ids changes no shape. -/
theorem growForest_graft (hi : Set.InjOn μ { i | i ∈ rows.map LinkedRow.id })
    (hp : ∀ r ∈ rows, ∀ p, r.parent = some p → ∃ q ∈ rows, q.id = p)
    {roots : List (LinkedRow F)} (hr : roots ⊆ rows) :
    (growForest (rows.map (graft μ holder)) (roots.map (graft μ holder))).map shape =
      (growForest rows roots).map shape := by
  simp only [growForest, List.map_map, List.length_map]
  apply List.map_congr_left
  intro r hm
  exact growTree_graft hi hp rows.length r (hr hm)

end Renaming

mutual

def RoseTree.size : RoseTree α → ℕ
  | .node _ ts => forestSize ts + 1

def forestSize : List (RoseTree α) → ℕ
  | [] => 0
  | t :: ts => t.size + forestSize ts

end

section Layout

variable (holder : ℕ)

mutual

def layTree (parent : Option ℕ) (n : ℕ) : RoseTree F → List (LinkedRow F)
  | .node f ts => ⟨n, holder, parent, f⟩ :: layForest (some n) (n + 1) ts

def layForest (parent : Option ℕ) (n : ℕ) : List (RoseTree F) → List (LinkedRow F)
  | [] => []
  | t :: ts => layTree parent n t ++ layForest parent (n + t.size) ts

end

def rootRows (parent : Option ℕ) : ℕ → List (RoseTree F) → List (LinkedRow F)
  | _, [] => []
  | n, t :: ts => ⟨n, holder, parent, t.value⟩ :: rootRows parent (n + t.size) ts

variable {holder} {parent : Option ℕ} {n : ℕ}

mutual

theorem layTree_length : ∀ (t : RoseTree F) {parent : Option ℕ} {n : ℕ},
    (layTree holder parent n t).length = t.size
  | .node f ts, _, _ => by
    rw [layTree, List.length_cons, layForest_length ts, RoseTree.size]

theorem layForest_length : ∀ (ts : List (RoseTree F)) {parent : Option ℕ} {n : ℕ},
    (layForest holder parent n ts).length = forestSize ts
  | [], _, _ => rfl
  | t :: ts, _, _ => by
    rw [layForest, List.length_append, layTree_length t, layForest_length ts, forestSize]

end

structure LaidFrom (holder : ℕ) (parent : Option ℕ) (n size : ℕ) (r : LinkedRow F) : Prop where
  lower : n ≤ r.id
  upper : r.id < n + size
  held : r.holder = holder
  below : r.parent = parent ∨ ∃ j, r.parent = some j ∧ n ≤ j ∧ j < n + size

mutual

theorem layTree_laid : ∀ (t : RoseTree F) {parent : Option ℕ} {n : ℕ},
    ∀ r ∈ layTree holder parent n t, LaidFrom holder parent n t.size r
  | .node f ts, parent, n, r, hr => by
    rw [layTree] at hr
    rw [RoseTree.size]
    rcases List.mem_cons.mp hr with rfl | hr
    · exact ⟨le_rfl, by simp only; omega, rfl, Or.inl rfl⟩
    · obtain ⟨hl, hu, hh, hp⟩ := layForest_laid ts r hr
      refine ⟨by omega, by omega, hh, Or.inr ?_⟩
      rcases hp with hp | ⟨j, hp, hlj, huj⟩
      · exact ⟨n, hp, le_rfl, by omega⟩
      · exact ⟨j, hp, by omega, by omega⟩

theorem layForest_laid : ∀ (ts : List (RoseTree F)) {parent : Option ℕ} {n : ℕ},
    ∀ r ∈ layForest holder parent n ts, LaidFrom holder parent n (forestSize ts) r
  | [], _, _, r, hr => by
    rw [layForest] at hr
    cases hr
  | t :: ts, parent, n, r, hr => by
    rw [layForest] at hr
    rw [forestSize]
    rcases List.mem_append.mp hr with hr | hr
    · obtain ⟨hl, hu, hh, hp⟩ := layTree_laid t r hr
      refine ⟨hl, by omega, hh, hp.imp_right ?_⟩
      rintro ⟨j, hp, hlj, huj⟩
      exact ⟨j, hp, hlj, by omega⟩
    · obtain ⟨hl, hu, hh, hp⟩ := layForest_laid ts r hr
      refine ⟨by omega, by omega, hh, hp.imp_right ?_⟩
      rintro ⟨j, hp, hlj, huj⟩
      exact ⟨j, hp, by omega, by omega⟩

end

/-- Rows laid elsewhere are nobody's children here. -/
theorem childrenOf_eq_nil {rows : List (LinkedRow F)} {size i : ℕ}
    (h : ∀ r ∈ rows, LaidFrom holder parent n size r) (hp : parent ≠ some i)
    (hi : i < n ∨ n + size ≤ i) : childrenOf rows i = [] := by
  rw [childrenOf, List.filter_eq_nil_iff]
  intro r hr hri
  rw [beq_iff_eq] at hri
  rcases (h r hr).below with hb | ⟨j, hb, hl, hu⟩
  · exact hp (hb.symm.trans hri)
  · have hij : j = i := Option.some.inj (hb.symm.trans hri)
    omega

theorem filter_parent_layForest : ∀ (ts : List (RoseTree F)) {parent : Option ℕ} {n : ℕ},
    (∀ j, parent = some j → j < n) →
    (layForest holder parent n ts).filter (fun r => r.parent == parent) =
      rootRows holder parent n ts
  | [], _, _, _ => by
    rw [layForest, rootRows, List.filter_nil]
  | .node f cs :: ts, parent, n, hp => by
    have deeper : (layForest holder (some n) (n + 1) cs).filter (fun r => r.parent == parent) =
        [] := by
      rw [List.filter_eq_nil_iff]
      intro r hr hrp
      rw [beq_iff_eq] at hrp
      rcases (layForest_laid cs r hr).below with hb | ⟨j, hb, hl, _⟩
      · have := hp n (hrp.symm.trans hb)
        omega
      · have := hp j (hrp.symm.trans hb)
        omega
    rw [layForest, layTree, rootRows, List.filter_append, List.filter_cons, deeper,
      filter_parent_layForest ts (fun j hj => Nat.lt_add_right _ (hp j hj))]
    simp [RoseTree.value]

mutual

/-- A row is decoded to the tree it was laid for, if its descendants have the children they
were laid with. -/
theorem growTree_layTree : ∀ (t : RoseTree F) {parent : Option ℕ} {n d : ℕ}
    {rows : List (LinkedRow F)}, (∀ j, parent = some j → j < n) →
    (∀ i, n ≤ i → i < n + t.size →
      childrenOf rows i = childrenOf (layTree holder parent n t) i) →
    t.size ≤ d → shape (growTree rows d ⟨n, holder, parent, t.value⟩) = t
  | .node f ts, parent, n, d, rows, hp, hrows, hd => by
    rw [RoseTree.size] at hd hrows
    obtain ⟨d, rfl⟩ : ∃ e, d = e + 1 := ⟨d - 1, by omega⟩
    have head : ∀ i, n ≤ i → childrenOf (layTree holder parent n (.node f ts)) i =
        childrenOf (layForest holder (some n) (n + 1) ts) i := by
      intro i hi
      have hne : parent ≠ some i := by
        intro he
        have := hp i he
        omega
      rw [layTree, childrenOf, List.filter_cons_of_neg (by simpa using hne)]
      rfl
    have here : childrenOf rows n = rootRows holder (some n) (n + 1) ts := by
      rw [hrows n le_rfl (by omega), head n le_rfl]
      exact filter_parent_layForest ts (fun j hj => by rw [← Option.some.inj hj]; omega)
    have deeper : (rootRows holder (some n) (n + 1) ts).map
        (fun r => shape (growTree rows d r)) = ts := by
      refine growForest_layForest ts (fun j hj => by rw [← Option.some.inj hj]; omega) ?_
        (by omega)
      intro i hl hu
      rw [hrows i (by omega) (by omega), head i (by omega)]
    rw [growTree, shape, RoseTree.map_node, here, List.map_map]
    exact congrArg (RoseTree.node f) deeper

theorem growForest_layForest : ∀ (ts : List (RoseTree F)) {parent : Option ℕ} {n d : ℕ}
    {rows : List (LinkedRow F)}, (∀ j, parent = some j → j < n) →
    (∀ i, n ≤ i → i < n + forestSize ts →
      childrenOf rows i = childrenOf (layForest holder parent n ts) i) →
    forestSize ts ≤ d →
    (rootRows holder parent n ts).map (fun r => shape (growTree rows d r)) = ts
  | [], _, _, _, _, _, _, _ => by
    rw [rootRows, List.map_nil]
  | t :: ts, parent, n, d, rows, hp, hrows, hd => by
    rw [forestSize] at hd hrows
    have apart : ∀ i, n ≤ i → parent ≠ some i := by
      intro i hi he
      have := hp i he
      omega
    have split : ∀ i, childrenOf (layForest holder parent n (t :: ts)) i =
        childrenOf (layTree holder parent n t) i ++
          childrenOf (layForest holder parent (n + t.size) ts) i := by
      intro i
      rw [layForest, childrenOf, List.filter_append]
      rfl
    have first : shape (growTree rows d ⟨n, holder, parent, t.value⟩) = t := by
      refine growTree_layTree t hp ?_ (by omega)
      intro i hl hu
      rw [hrows i hl (by omega), split i,
        childrenOf_eq_nil (layForest_laid ts) (apart i hl) (Or.inl hu), List.append_nil]
    have rest : (rootRows holder parent (n + t.size) ts).map
        (fun r => shape (growTree rows d r)) = ts := by
      refine growForest_layForest ts (fun j hj => Nat.lt_add_right _ (hp j hj)) ?_ (by omega)
      intro i hl hu
      rw [hrows i (by omega) (by omega), split i,
        childrenOf_eq_nil (layTree_laid t) (apart i (by omega)) (Or.inr hl), List.nil_append]
    rw [rootRows, List.map_cons, first, rest]

end

/-- Decoding the roots that satisfy `p` in a laid out forest gives the trees whose roots do. -/
theorem growForest_layout (ts : List (RoseTree F)) (n : ℕ) (p : F → Bool) :
    (growForest (layForest holder none n ts) ((layForest holder none n ts).filter
      (fun r => r.parent == none && p r.fields))).map shape =
        ts.filter (fun t => p t.value) := by
  have hall : (rootRows holder none n ts).map (fun r => shape (growTree
      (layForest holder none n ts) (forestSize ts) r)) = ts :=
    growForest_layForest ts (fun j hj => by cases hj) (fun _ _ _ => rfl) le_rfl
  have hroots : (layForest holder none n ts).filter (fun r => r.parent == none && p r.fields) =
      (rootRows holder none n ts).filter (fun r => p r.fields) := by
    rw [← filter_parent_layForest ts (fun j hj => by cases hj), List.filter_filter]
    exact List.filter_congr (fun r _ => Bool.and_comm _ _)
  rw [growForest, List.map_map, hroots, layForest_length]
  conv_rhs => rw [← hall]
  rw [List.filter_map]
  congr 1
  apply List.filter_congr
  intro r _
  cases forestSize ts <;> rfl

end Layout

section Shared

variable {κ : Type} {k : F → κ} {link : F → F → Prop} {rows : List (LinkedRow F)}

theorem Inherited.graft (h : Inherited k rows) {μ : ℕ → ℕ} {holder : ℕ}
    (hi : Set.InjOn μ { i | i ∈ rows.map LinkedRow.id })
    (hp : ∀ r ∈ rows, ∀ p, r.parent = some p → ∃ q ∈ rows, q.id = p) {copies : List (LinkedRow F)}
    (hc : copies.Perm (rows.map (graft μ holder))) : Inherited k copies := by
  intro c hc' d hd hpar
  obtain ⟨r, hr, rfl⟩ := List.mem_map.mp (hc.mem_iff.mp hc')
  obtain ⟨q, hq, rfl⟩ := List.mem_map.mp (hc.mem_iff.mp hd)
  obtain ⟨p, hrp, hμ⟩ := Option.map_eq_some_iff.mp hpar
  obtain ⟨x, hx, rfl⟩ := hp r hr p hrp
  have hid : x.id = q.id := hi (List.mem_map_of_mem hx) (List.mem_map_of_mem hq) hμ
  exact h r hr q hq (hid ▸ hrp)

theorem root_above {r : LinkedRow F} (h : Rooted link rows r) :
    ∃ root ∈ rows, root.parent = none ∧ Relation.ReflTransGen (ParentOf rows) root.id r.id := by
  induction h with
  | @root r hr hp => exact ⟨r, hr, hp, .refl⟩
  | @child r q hr hp _ _ _ ih =>
    obtain ⟨root, hm, hnone, hpath⟩ := ih
    exact ⟨root, hm, hnone, hpath.tail ⟨r, hr, rfl, hp⟩⟩

/-- Agreement with parents is agreement with roots. -/
theorem inherited_iff_roots (hl : WellLinked link rows) (hn : (rows.map LinkedRow.id).Nodup) :
    Inherited k rows ↔ ∀ root ∈ rows, root.parent = none → ∀ r ∈ rows,
      Relation.ReflTransGen (ParentOf rows) root.id r.id → k r.fields = k root.fields := by
  constructor
  · intro h root hroot _
    have below : ∀ i, Relation.ReflTransGen (ParentOf rows) root.id i →
        ∀ r ∈ rows, r.id = i → k r.fields = k root.fields := by
      intro i hpath
      induction hpath with
      | refl =>
        intro r hr hid
        rw [List.inj_on_of_nodup_map hn hr hroot hid]
      | tail _ hlink ih =>
        intro r hr hid
        obtain ⟨c, hc, hcid, hpar⟩ := hlink
        obtain rfl := List.inj_on_of_nodup_map hn hr hc (hid.trans hcid.symm)
        obtain ⟨q, hq, rfl, _⟩ := hl.parent hr hpar
        exact (h r hr q hq hpar).symm.trans (ih q hq rfl)
    exact fun r hr hpath => below r.id hpath r hr rfl
  · intro h r hr q hq hpar
    obtain ⟨root, hm, hnone, hpath⟩ := root_above (hl q hq)
    rw [h root hm hnone q hq hpath, h root hm hnone r hr (hpath.tail ⟨r, hr, rfl, hpar⟩)]

/-- In a layout this is agreement within every tree. -/
theorem inherited_layForest {holder n : ℕ} {ts : List (RoseTree F)}
    (hl : WellLinked link (layForest holder none n ts))
    (hn : ((layForest holder none n ts).map LinkedRow.id).Nodup) :
    Inherited k (layForest holder none n ts) ↔ ∀ t ∈ ts, ∀ v ∈ t.values, k v = k t.value := by
  have grown : (rootRows holder none n ts).map (fun r => shape (growTree
      (layForest holder none n ts) (layForest holder none n ts).length r)) = ts := by
    rw [layForest_length]
    exact growForest_layForest ts (fun j hj => by cases hj) (fun _ _ _ => rfl) le_rfl
  have roots : ∀ r, r ∈ rootRows holder none n ts ↔
      r ∈ layForest holder none n ts ∧ r.parent = none := by
    intro r
    rw [← filter_parent_layForest ts (fun j hj => by cases hj), List.mem_filter, beq_iff_eq]
  constructor
  · intro h t ht v hv
    rw [← grown] at ht
    obtain ⟨r, hr, rfl⟩ := List.mem_map.mp ht
    rw [shape, RoseTree.values_map] at hv
    obtain ⟨x, hx, rfl⟩ := List.mem_map.mp hv
    rw [shape, RoseTree.map_value, growTree_value]
    exact h.values _ r ((roots r).mp hr).1 x hx
  · intro h
    refine inherited_of_values hl hn ?_
    intro r hr hp v hv
    have ht := List.mem_map_of_mem (f := fun r => shape (growTree (layForest holder none n ts)
      (layForest holder none n ts).length r)) ((roots r).mpr ⟨hr, hp⟩)
    rw [grown] at ht
    have hk := h _ ht v.fields (by
      rw [shape, RoseTree.values_map]
      exact List.mem_map_of_mem hv)
    rwa [shape, RoseTree.map_value, growTree_value] at hk

end Shared

end RowForests
