import Mathlib.Data.List.FinRange
import Mathlib.Data.List.Nodup
import Mathlib.Data.List.Perm.Basic
import Mathlib.Data.List.Perm.Subperm
import Mathlib.Data.List.Sort

/-! # Pages of a sorted list

Each page is cut out of an arrangement of its own. All arrangements hold the same rows and are
sorted, but rows that compare equal may stand in another order in each. The pages hold every row
once whatever the arrangements are just when no rows that compare equal are on two pages. -/
namespace PagedLists

variable {α : Type*}

structure Arranged (le : α → α → Bool) (rows answer : List α) : Prop where
  perm : answer.Perm rows
  sorted : answer.Pairwise (fun a b => le a b = true)

def window (size index : ℕ) (answer : List α) : List α := (answer.drop (index * size)).take size

def windows (size count : ℕ) (answers : ℕ → List α) : List α :=
  (List.range count).flatMap (fun index => window size index (answers index))

def pageCount (total size : ℕ) : ℕ := (total + (size - 1)) / size

/-- Rows that compare equal stand on both sides of a position. -/
def Splits (le : α → α → Bool) (rows : List α) (position : ℕ) : Prop :=
  ∃ a ∈ rows, rows.countP (fun b => !le a b) < position ∧
    position < rows.countP (fun b => le b a)

structure Preorders (le : α → α → Bool) : Prop where
  total : ∀ a b, le a b = true ∨ le b a = true
  trans : ∀ a b c, le a b = true → le b c = true → le a c = true

theorem Preorders.refl {le : α → α → Bool} (h : Preorders le) (a : α) : le a a = true :=
  (h.total a a).elim id id

theorem arranged_mergeSort {le : α → α → Bool} (h : Preorders le) (rows : List α) :
    Arranged le rows (rows.mergeSort le) := by
  refine ⟨List.mergeSort_perm rows le, ?_⟩
  apply List.pairwise_mergeSort h.trans
  intro a b
  rw [Bool.or_eq_true]
  exact h.total a b

section Positions

variable {le : α → α → Bool} {rows before after : List α} {a x y z : α} {position : ℕ}

theorem le_of_mem_front (h : (before ++ x :: after).Pairwise (fun a b => le a b = true))
    (hx : le x x = true) (hz : z ∈ before ++ [x]) : le z x = true := by
  rcases List.mem_append.mp hz with hz | hz
  · exact (List.pairwise_append.mp h).2.2 z hz x List.mem_cons_self
  · rw [List.mem_singleton.mp hz]
    exact hx

theorem le_of_mem_rest (h : (before ++ x :: after).Pairwise (fun a b => le a b = true))
    (hx : le x x = true) (hz : z ∈ x :: after) : le x z = true := by
  rcases List.mem_cons.mp hz with rfl | hz
  · exact hx
  · exact (List.pairwise_cons.mp (List.pairwise_append.mp h).2.1).1 z hz

/-- The rows strictly before one stand in front of it. -/
theorem count_before (h : (before ++ x :: after).Pairwise (fun a b => le a b = true))
    (hx : le x x = true) :
    (before ++ x :: after).countP (fun b => !le x b) ≤ before.length := by
  have hrest : (x :: after).countP (fun b => !le x b) = 0 := by
    rw [List.countP_eq_zero]
    intro b hb
    simp [le_of_mem_rest h hx hb]
  rw [List.countP_append, hrest, Nat.add_zero]
  exact List.countP_le_length

/-- The rows in front of one are not after it. -/
theorem count_upTo (h : (before ++ x :: after).Pairwise (fun a b => le a b = true))
    (hx : le x x = true) :
    before.length < (before ++ x :: after).countP (fun b => le b x) := by
  have hfront : before.countP (fun b => le b x) = before.length := by
    rw [List.countP_eq_length]
    intro b hb
    exact le_of_mem_front h hx (List.mem_append_left [x] hb)
  have hself : (x :: after).countP (fun b => le b x) = after.countP (fun b => le b x) + 1 :=
    List.countP_cons_of_pos hx
  rw [List.countP_append, hfront, hself]
  omega

/-- Where no row splits, the rows in front do not depend on the arrangement. -/
theorem take_eq_filter (hle : Preorders le) {answer : List α} (h : Arranged le rows answer)
    (hsplit : ¬ Splits le rows position) : answer.take position =
      answer.filter (fun x => rows.countP (fun b => le b x) ≤ position) := by
  have hfront : ∀ x ∈ answer.take position, rows.countP (fun b => le b x) ≤ position := by
    intro x hx
    obtain ⟨before, after, htake⟩ := List.append_of_mem hx
    have hanswer : answer = before ++ x :: (after ++ answer.drop position) := by
      rw [← List.cons_append, ← List.append_assoc, ← htake, List.take_append_drop]
    have hlength : before.length < position := by
      have := congrArg List.length htake
      rw [List.length_take, List.length_append, List.length_cons] at this
      omega
    have hcount := count_before (hanswer ▸ h.sorted) (hle.refl x)
    rw [← hanswer, h.perm.countP_eq] at hcount
    by_contra hlarge
    refine hsplit ⟨x, h.perm.mem_iff.mp (List.mem_of_mem_take hx), ?_, ?_⟩ <;> omega
  have hrest : ∀ x ∈ answer.drop position, ¬ rows.countP (fun b => le b x) ≤ position := by
    intro x hx
    obtain ⟨before, after, hdrop⟩ := List.append_of_mem hx
    have hanswer : answer = (answer.take position ++ before) ++ x :: after := by
      rw [List.append_assoc, ← hdrop, List.take_append_drop]
    have hlength : (answer.take position).length = position := by
      have := congrArg List.length hdrop
      rw [List.length_drop, List.length_append, List.length_cons] at this
      rw [List.length_take]
      omega
    have hcount := count_upTo (hanswer ▸ h.sorted) (hle.refl x)
    rw [← hanswer, h.perm.countP_eq, List.length_append, hlength] at hcount
    omega
  conv_rhs => rw [← List.take_append_drop position answer]
  rw [List.filter_append, List.filter_eq_self.mpr, List.filter_eq_nil_iff.mpr, List.append_nil]
  · intro x hx
    simpa using hrest x hx
  · intro x hx
    simpa using hfront x hx

/-- If at most as many rows are before `a` as stand in front, the next one is not before it. -/
theorem le_of_count_before (hle : Preorders le)
    (h : (before ++ x :: after).Pairwise (fun a b => le a b = true))
    (hcount : (before ++ x :: after).countP (fun b => !le a b) ≤ before.length) :
    le a x = true := by
  by_contra hnot
  have hall : ∀ z ∈ before ++ [x], (!le a z) = true := by
    intro z hz
    by_contra hza
    rw [Bool.not_eq_true, Bool.not_eq_false'] at hza
    exact hnot (hle.trans a z x hza (le_of_mem_front h (hle.refl x) hz))
  have hlength := List.countP_eq_length.mpr hall
  rw [List.length_append, List.length_singleton] at hlength
  have hsub : (before ++ [x]).Sublist (before ++ x :: after) :=
    List.Sublist.append_left (List.Sublist.cons_cons x (List.nil_sublist after)) before
  have hfront := hsub.countP_le (p := fun b => !le a b)
  omega

/-- If more rows are up to `a` than stand in front, the next one is too. -/
theorem le_of_count_upTo (hle : Preorders le)
    (h : (before ++ y :: after).Pairwise (fun a b => le a b = true))
    (hcount : before.length < (before ++ y :: after).countP (fun b => le b a)) :
    le y a = true := by
  by_contra hnot
  have hnone : (y :: after).countP (fun b => le b a) = 0 := by
    rw [List.countP_eq_zero]
    intro z hz hza
    exact hnot (hle.trans y z a (le_of_mem_rest h (hle.refl y) hz) hza)
  rw [List.countP_append, hnone, Nat.add_zero] at hcount
  have hfront := List.countP_le_length (p := fun b => le b a) (l := before)
  omega

/-- A row that splits shows in two neighbours, in every arrangement. -/
theorem neighbours_of_splits (hle : Preorders le) {answer : List α}
    (h : Arranged le rows answer) (hsplit : Splits le rows position) :
    ∃ before x y after, answer = before ++ x :: y :: after ∧ before.length + 1 = position ∧
      le y x = true := by
  obtain ⟨a, ha, hbefore, hupTo⟩ := hsplit
  rw [← h.perm.countP_eq] at hbefore hupTo
  have hlength : position < answer.length := lt_of_lt_of_le hupTo List.countP_le_length
  obtain ⟨k, rfl⟩ : ∃ k, position = k + 1 := ⟨position - 1, by omega⟩
  have hanswer : answer = answer.take k ++ answer[k] :: answer[k + 1] :: answer.drop (k + 2) := by
    rw [← List.drop_eq_getElem_cons, ← List.drop_eq_getElem_cons, List.take_append_drop]
  have htake : (answer.take k).length = k := by
    rw [List.length_take]
    omega
  have hanswer' : answer =
      (answer.take k ++ [answer[k]]) ++ answer[k + 1] :: answer.drop (k + 2) := by
    rw [List.append_assoc]
    exact hanswer
  refine ⟨_, _, _, _, hanswer, by rw [htake], ?_⟩
  have hfirst : le a answer[k] = true := by
    apply le_of_count_before hle (hanswer ▸ h.sorted)
    rw [← hanswer, htake]
    exact Nat.le_of_lt_succ hbefore
  have hsecond : le answer[k + 1] a = true := by
    apply le_of_count_upTo hle (hanswer' ▸ h.sorted)
    rw [← hanswer', List.length_append, htake]
    exact hupTo
  exact hle.trans _ a _ hsecond hfirst

end Positions

section Pages

variable {le : α → α → Bool} {rows : List α} {size count : ℕ} {answers : ℕ → List α}

theorem windows_succ : windows size (count + 1) answers =
    windows size count answers ++ window size count (answers count) := by
  rw [windows, List.range_succ, List.flatMap_append, List.flatMap_singleton]
  rfl

theorem take_succ_window (answer : List α) (index : ℕ) :
    answer.take ((index + 1) * size) =
      answer.take (index * size) ++ window size index answer := by
  rw [Nat.succ_mul, List.take_add]
  rfl

theorem window_eq_nil {answer : List α} {index : ℕ} (h : answer.length ≤ index * size) :
    window size index answer = [] := by
  rw [window, List.drop_eq_nil_of_le h, List.take_nil]

theorem le_pageCount (hsize : 0 < size) (total : ℕ) : total ≤ pageCount total size * size := by
  have hdiv := Nat.div_add_mod (total + (size - 1)) size
  have hmod := Nat.mod_lt (total + (size - 1)) hsize
  rw [pageCount, Nat.mul_comm]
  omega

theorem le_of_pageCount_le (hsize : 0 < size) {total index : ℕ}
    (h : pageCount total size ≤ index) : total ≤ index * size :=
  (le_pageCount hsize total).trans (Nat.mul_le_mul_right size h)

/-- By induction on the pages: together they are the rows in front of the next page. -/
theorem windows_perm (hle : Preorders le) (h : ∀ index, Arranged le rows (answers index))
    (hsplit : ∀ index, ¬ Splits le rows (index * size)) (count : ℕ) :
    (windows size count answers).Perm
      (rows.filter (fun x => rows.countP (fun b => le b x) ≤ count * size)) := by
  induction count with
  | zero =>
    have hnone : rows.filter (fun x => rows.countP (fun b => le b x) ≤ 0 * size) = [] := by
      rw [List.filter_eq_nil_iff]
      intro x hx
      have hpos : 0 < rows.countP (fun b => le b x) :=
        List.countP_pos_iff.mpr ⟨x, hx, hle.refl x⟩
      simp only [Nat.zero_mul, decide_eq_true_eq]
      omega
    rw [hnone]
    exact .refl _
  | succ count ih =>
    have hanswer := h count
    have hsame : ∀ position, ¬ Splits le rows position →
        (rows.filter (fun x => rows.countP (fun b => le b x) ≤ position)).Perm
          ((answers count).take position) := by
      intro position hposition
      rw [take_eq_filter hle hanswer hposition]
      exact (hanswer.perm.filter _).symm
    have hpages := (ih.trans (hsame _ (hsplit count))).append_right
      (window size count (answers count))
    rw [← take_succ_window] at hpages
    rw [windows_succ]
    exact hpages.trans (hsame _ (hsplit (count + 1))).symm

theorem mem_window {before rest : List α} {x : α} {index : ℕ} (hfrom : index * size ≤ before.length)
    (hto : before.length < (index + 1) * size) :
    x ∈ window size index (before ++ x :: rest) := by
  have hdrop : (before ++ x :: rest).drop (index * size) =
      before.drop (index * size) ++ x :: rest := List.drop_append_of_le_length hfrom
  rw [Nat.succ_mul] at hto
  have hlength : (before.drop (index * size)).length < size := by
    rw [List.length_drop]
    omega
  rw [window, hdrop, List.take_append]
  apply List.mem_append_right
  obtain ⟨n, hn⟩ : ∃ n, size - (before.drop (index * size)).length = n + 1 :=
    ⟨size - (before.drop (index * size)).length - 1, by omega⟩
  rw [hn]
  exact List.mem_cons_self

theorem Arranged.swap {before after : List α} {x y : α}
    (h : Arranged le rows (before ++ x :: y :: after)) (hyx : le y x = true) :
    Arranged le rows (before ++ y :: x :: after) := by
  obtain ⟨hbefore, hrest, hacross⟩ := List.pairwise_append.mp h.sorted
  obtain ⟨hx, hrest⟩ := List.pairwise_cons.mp hrest
  obtain ⟨hy, hafter⟩ := List.pairwise_cons.mp hrest
  have hperm := List.Perm.swap x y after
  refine ⟨(hperm.append_left before).trans h.perm,
    List.pairwise_append.mpr ⟨hbefore, ?_, ?_⟩⟩
  · refine List.pairwise_cons.mpr ⟨?_, List.pairwise_cons.mpr ⟨?_, hafter⟩⟩
    · intro b hb
      rcases List.mem_cons.mp hb with rfl | hb
      · exact hyx
      · exact hy b hb
    · exact fun b hb => hx b (List.mem_cons_of_mem _ hb)
  · exact fun a ha b hb => hacross a ha b (hperm.mem_iff.mp hb)

/-- A row on two neighbouring pages comes twice. -/
theorem not_nodup_of_two_pages {index : ℕ} {x : α} (hindex : index + 1 < count)
    (hfirst : x ∈ window size index (answers index))
    (hsecond : x ∈ window size (index + 1) (answers (index + 1))) :
    ¬ (windows size count answers).Nodup := by
  intro hnodup
  have hdisjoint := List.pairwise_iff_getElem.mp (List.nodup_flatMap.mp hnodup).2 index (index + 1)
    (by rw [List.length_range]; omega) (by rw [List.length_range]; omega) (Nat.lt_succ_self index)
  rw [List.getElem_range, List.getElem_range] at hdisjoint
  exact hdisjoint hfirst hsecond

/-- With one arrangement that differs from the others, a row that splits comes twice. -/
theorem not_nodup_windows (hle : Preorders le) (hsize : 0 < size) {index : ℕ}
    (hsplit : Splits le rows (index * size)) (hcount : rows.length ≤ count * size) :
    ∃ answers : ℕ → List α, (∀ i, Arranged le rows (answers i)) ∧
      ¬ (windows size count answers).Nodup := by
  have hsorted := arranged_mergeSort hle rows
  obtain ⟨before, x, y, after, hanswer, hlength, hyx⟩ :=
    neighbours_of_splits hle hsorted hsplit
  rw [hanswer] at hsorted
  obtain ⟨k, rfl⟩ : ∃ k, index = k + 1 := by
    cases index with
    | zero => exact absurd hlength (by simp)
    | succ k => exact ⟨k, rfl⟩
  let answers : ℕ → List α := fun i =>
    if i = k + 1 then before ++ y :: x :: after else before ++ x :: y :: after
  have hself : answers (k + 1) = (before ++ [y]) ++ x :: after := by
    rw [List.append_assoc]
    exact if_pos rfl
  have hother : ∀ i, i ≠ k + 1 → answers i = before ++ x :: y :: after := fun i hi => if_neg hi
  refine ⟨answers, ?_, ?_⟩
  · intro i
    by_cases hi : i = k + 1
    · rw [hi, hself, List.append_assoc]
      exact hsorted.swap hyx
    · rw [hother i hi]
      exact hsorted
  · have hsucc : (k + 1) * size = k * size + size := Nat.succ_mul k size
    have hnext : (k + 1 + 1) * size = (k + 1) * size + size := Nat.succ_mul (k + 1) size
    have hlarge : k + 1 < count := by
      have hrows : rows.length = before.length + (after.length + 2) := by
        rw [← hsorted.perm.length_eq, List.length_append]
        rfl
      have hlt : (k + 1) * size < count * size := by omega
      exact Nat.lt_of_mul_lt_mul_right hlt
    apply not_nodup_of_two_pages hlarge
    · rw [hother k (by omega)]
      apply mem_window <;> omega
    · rw [hself]
      apply mem_window <;> rw [List.length_append, List.length_singleton] <;> omega

/-- Every row is on one page once for all arrangements just when none splits between pages. -/
theorem windows_perm_iff (hle : Preorders le) (hn : rows.Nodup) (hsize : 0 < size)
    (hcount : rows.length ≤ count * size) :
    (∀ answers : ℕ → List α, (∀ index, Arranged le rows (answers index)) →
      (windows size count answers).Perm rows) ↔
        ∀ index, ¬ Splits le rows (index * size) := by
  constructor
  · intro h index hsplit
    obtain ⟨answers, hanswers, hnodup⟩ := not_nodup_windows hle hsize hsplit hcount
    exact hnodup ((h answers hanswers).nodup_iff.mpr hn)
  · intro hsplit answers hanswers
    have hall : rows.filter (fun x => rows.countP (fun b => le b x) ≤ count * size) = rows := by
      rw [List.filter_eq_self]
      intro x _
      have hle' := List.countP_le_length (p := fun b => le b x) (l := rows)
      simp only [decide_eq_true_eq]
      omega
    exact hall ▸ windows_perm hle hanswers hsplit count

/-- An order that tells all rows apart has no ties. -/
theorem not_splits_of_antisymm (hle : Preorders le) (hn : rows.Nodup)
    (hanti : ∀ a ∈ rows, ∀ b ∈ rows, le a b = true → le b a = true → a = b) (position : ℕ) :
    ¬ Splits le rows position := by
  intro hsplit
  have hsorted := arranged_mergeSort hle rows
  obtain ⟨before, x, y, after, hanswer, -, hyx⟩ := neighbours_of_splits hle hsorted hsplit
  have hnodup : (before ++ x :: y :: after).Nodup := hanswer ▸ hsorted.perm.nodup_iff.mpr hn
  have hx : x ∈ rows := hsorted.perm.mem_iff.mp (by rw [hanswer]; simp)
  have hy : y ∈ rows := hsorted.perm.mem_iff.mp (by rw [hanswer]; simp)
  have hxy : le x y = true := by
    have htail := (List.pairwise_append.mp (hanswer ▸ hsorted.sorted)).2.1
    exact (List.pairwise_cons.mp htail).1 y List.mem_cons_self
  have hne := (List.nodup_cons.mp (List.nodup_append.mp hnodup).2.1).1
  exact hne (hanti x hx y hy hxy hyx ▸ List.mem_cons_self)

end Pages

/-- The rows at given positions; another number of rows stays as it is. -/
def rearrange {n : ℕ} (positions : List (Fin n)) {β : Type} (rows : List β) : List β :=
  if h : rows.length = n then positions.map (fun i => rows.get (i.cast h.symm)) else rows

theorem rearrange_perm {n : ℕ} {positions : List (Fin n)} (h : positions.Perm (List.finRange n))
    {β : Type} (rows : List β) : (rearrange positions rows).Perm rows := by
  unfold rearrange
  by_cases hlength : rows.length = n
  · subst hlength
    rw [dif_pos rfl]
    have hrows := h.map rows.get
    rw [List.map_get_finRange] at hrows
    exact hrows
  · rw [dif_neg hlength]

theorem exists_positions {β : Type} {answer rows : List β} (h : answer.Perm rows) :
    ∃ positions : List (Fin rows.length), positions.Perm (List.finRange rows.length) ∧
      rearrange positions rows = answer := by
  have hget : answer.Perm ((List.finRange rows.length).map rows.get) := by
    rw [List.map_get_finRange]
    exact h
  have hcomp := List.eq_map_comp_perm rows.get
  obtain ⟨positions, hanswer, hperm⟩ :=
    (congrFun (congrFun hcomp answer) (List.finRange rows.length)).mpr hget
  refine ⟨positions, hperm, ?_⟩
  rw [rearrange, dif_pos rfl]
  exact hanswer.symm

end PagedLists
