import Mathlib.Data.List.Nodup

/-! # Tables with an automatic integer primary key

The key of a new row is the next value of the table's sequence. A table carries the
proof that its keys are positive, distinct and below the sequence, so no operation
can reuse a key. -/
namespace KeyedTables

class Keyed (α : Type*) where
  key : α → ℕ
  setKey : ℕ → α → α
  key_setKey : ∀ k a, key (setKey k a) = k

export Keyed (key setKey key_setKey)

attribute [simp] Keyed.key_setKey

structure Table (α : Type*) [Keyed α] where
  rows : List α
  next : ℕ
  next_pos : 0 < next
  bounds : ∀ r ∈ rows, 0 < key r ∧ key r < next
  nodup : (rows.map key).Nodup

/-- Filtering first by a weaker condition makes no difference. -/
theorem filter_filter_of_imp {α : Type*} {p q : α → Bool} {l : List α}
    (h : ∀ a ∈ l, p a = true → q a = true) : (l.filter q).filter p = l.filter p := by
  rw [List.filter_filter]
  apply List.filter_congr
  intro a ha
  by_cases hp : p a = true
  · simp [hp, h a ha hp]
  · simp [hp]

namespace Table

variable {α : Type*} [Keyed α]

@[ext] theorem ext' {s t : Table α} (hr : s.rows = t.rows) (hn : s.next = t.next) : s = t := by
  cases s
  cases t
  simp only at hr hn
  subst hr hn
  rfl

def empty : Table α := ⟨[], 1, by simp, by simp, by simp⟩

@[simp] theorem empty_rows : (empty : Table α).rows = [] := rfl

def find? (t : Table α) (k : ℕ) : Option α := t.rows.find? (fun r => key r == k)

def contains (t : Table α) (k : ℕ) : Bool := t.rows.any (fun r => key r == k)

/-- `INSERT`: the row gets the next key of the sequence. -/
def insert (t : Table α) (r : α) : Table α where
  rows := t.rows ++ [setKey t.next r]
  next := t.next + 1
  next_pos := Nat.succ_pos _
  bounds := by
    intro x hx
    have := t.next_pos
    rcases List.mem_append.mp hx with hx | hx
    · have := t.bounds x hx
      omega
    · rw [List.mem_singleton] at hx
      subst x
      rw [key_setKey]
      omega
  nodup := by
    rw [List.map_append, List.nodup_append]
    refine ⟨t.nodup, by simp, ?_⟩
    intro a ha b hb
    obtain ⟨r, hr, rfl⟩ := List.mem_map.mp ha
    have := (t.bounds r hr).2
    simp only [List.map_cons, key_setKey, List.map_nil, List.mem_singleton] at hb
    omega

def restrict (t : Table α) (p : α → Bool) : Table α where
  rows := t.rows.filter p
  next := t.next
  next_pos := t.next_pos
  bounds := fun r hr => t.bounds r (List.mem_of_mem_filter hr)
  nodup := t.nodup.sublist (List.filter_sublist.map key)

/-- `UPDATE`: the new rows keep their keys. -/
def mapRows (t : Table α) (f : α → α) (hf : ∀ r, key (f r) = key r) : Table α where
  rows := t.rows.map f
  next := t.next
  next_pos := t.next_pos
  bounds := by
    intro r hr
    obtain ⟨x, hx, rfl⟩ := List.mem_map.mp hr
    rw [hf]
    exact t.bounds x hx
  nodup := by
    rw [List.map_map]
    have : (key ∘ f) = (key : α → ℕ) := funext hf
    rw [this]
    exact t.nodup

def update (t : Table α) (k : ℕ) (f : α → α) (hf : ∀ r, key (f r) = key r) : Table α :=
  t.mapRows (fun r => if key r = k then f r else r) (by
    intro r
    split
    · exact hf r
    · rfl)

@[simp] theorem insert_rows (t : Table α) (r : α) :
    (t.insert r).rows = t.rows ++ [setKey t.next r] := rfl

@[simp] theorem insert_next (t : Table α) (r : α) : (t.insert r).next = t.next + 1 := rfl

@[simp] theorem restrict_rows (t : Table α) (p : α → Bool) :
    (t.restrict p).rows = t.rows.filter p := rfl

@[simp] theorem restrict_next (t : Table α) (p : α → Bool) : (t.restrict p).next = t.next := rfl

@[simp] theorem mapRows_rows (t : Table α) (f : α → α) (hf : ∀ r, key (f r) = key r) :
    (t.mapRows f hf).rows = t.rows.map f := rfl

@[simp] theorem mapRows_next (t : Table α) (f : α → α) (hf : ∀ r, key (f r) = key r) :
    (t.mapRows f hf).next = t.next := rfl

@[simp] theorem update_rows (t : Table α) (k : ℕ) (f : α → α) (hf : ∀ r, key (f r) = key r) :
    (t.update k f hf).rows = t.rows.map (fun r => if key r = k then f r else r) := rfl

theorem mem_update {t : Table α} {k : ℕ} {f : α → α} {hf : ∀ r, key (f r) = key r} {x : α} :
    x ∈ (t.update k f hf).rows ↔ ∃ r ∈ t.rows, (if key r = k then f r else r) = x := by
  rw [update_rows, List.mem_map]

theorem eq_of_key_eq (t : Table α) {r q : α} (hr : r ∈ t.rows) (hq : q ∈ t.rows)
    (h : key r = key q) : r = q :=
  List.inj_on_of_nodup_map t.nodup hr hq h

theorem find?_eq_some {t : Table α} {k : ℕ} {r : α} :
    t.find? k = some r ↔ r ∈ t.rows ∧ key r = k := by
  constructor
  · intro h
    exact ⟨List.mem_of_find?_eq_some h, by simpa using List.find?_some h⟩
  · rintro ⟨hr, rfl⟩
    cases h : t.find? (key r) with
    | none =>
      have := List.find?_eq_none.mp h r hr
      simp at this
    | some q =>
      have hq : key q = key r := by simpa using List.find?_some h
      rw [t.eq_of_key_eq (List.mem_of_find?_eq_some h) hr hq]

theorem find?_eq_none {t : Table α} {k : ℕ} :
    t.find? k = none ↔ ∀ r ∈ t.rows, key r ≠ k := by
  simp [find?]

theorem contains_iff {t : Table α} {k : ℕ} :
    t.contains k = true ↔ ∃ r ∈ t.rows, key r = k := by
  simp [contains]

theorem find?_of_contains {t : Table α} {k : ℕ} (h : t.contains k = true) :
    ∃ r, t.find? k = some r := by
  obtain ⟨r, hr, hk⟩ := contains_iff.mp h
  exact ⟨r, find?_eq_some.mpr ⟨hr, hk⟩⟩

theorem key_ne_next {t : Table α} {r : α} (hr : r ∈ t.rows) : key r ≠ t.next :=
  Nat.ne_of_lt (t.bounds r hr).2

/-- A one-row update rewrites exactly the row with that key. -/
theorem map_update_split {f : α → α} {before after : List α} {r : α}
    (hn : ((before ++ r :: after).map key).Nodup) :
    (before ++ r :: after).map (fun q => if key q = key r then f q else q) =
      before ++ f r :: after := by
  have other : ∀ q ∈ before ++ after, key q ≠ key r := by
    intro q hq he
    rw [List.map_append, List.map_cons, List.nodup_middle, List.nodup_cons,
      ← List.map_append] at hn
    exact hn.1 (he ▸ List.mem_map_of_mem hq)
  have keep : ∀ l : List α, (∀ q ∈ l, key q ≠ key r) →
      l.map (fun q => if key q = key r then f q else q) = l := by
    intro l hl
    calc l.map (fun q => if key q = key r then f q else q)
        = l.map id := List.map_congr_left (fun q hq => if_neg (hl q hq))
      _ = l := List.map_id l
  rw [List.map_append, List.map_cons, if_pos rfl,
    keep before (fun q hq => other q (List.mem_append_left _ hq)),
    keep after (fun q hq => other q (List.mem_append_right _ hq))]

section Writes

variable (t : Table α) {k : ℕ} {f : α → α} (hf : ∀ r, key (f r) = key r)

/-- Every row of an updated table is an old row, rewritten if it has the key. -/
theorem update_origin {x : α} (hx : x ∈ (t.update k f hf).rows) :
    ∃ r ∈ t.rows, key r = key x ∧ (key r = k ∧ x = f r ∨ key r ≠ k ∧ x = r) := by
  obtain ⟨r, hr, rfl⟩ := mem_update.mp hx
  refine ⟨r, hr, ?_⟩
  by_cases h : key r = k
  · rw [if_pos h]
    exact ⟨(hf r).symm, Or.inl ⟨h, rfl⟩⟩
  · rw [if_neg h]
    exact ⟨rfl, Or.inr ⟨h, rfl⟩⟩

/-- Every row keeps a successor with its key. -/
theorem update_image {r : α} (hr : r ∈ t.rows) :
    ∃ x ∈ (t.update k f hf).rows, key x = key r ∧ (x = f r ∨ x = r) := by
  refine ⟨if key r = k then f r else r, List.mem_map_of_mem hr, ?_⟩
  split
  · exact ⟨hf r, Or.inl rfl⟩
  · exact ⟨rfl, Or.inr rfl⟩

theorem mem_update_other {r : α} (hr : r ∈ t.rows) (hk : key r ≠ k) :
    r ∈ (t.update k f hf).rows :=
  mem_update.mpr ⟨r, hr, if_neg hk⟩

/-- A property that the update does not touch holds of the updated rows as of the old ones. -/
theorem of_mem_update {P : α → Prop} (hP : ∀ r ∈ t.rows, P r) (hfP : ∀ r, P r → P (f r)) :
    ∀ r ∈ (t.update k f hf).rows, P r := by
  intro x hx
  obtain ⟨r, hr, _, ⟨_, rfl⟩ | ⟨_, rfl⟩⟩ := t.update_origin hf hx
  · exact hfP r (hP r hr)
  · exact hP x hr

theorem update_congr {g : α → α} {hg : ∀ r, key (g r) = key r}
    (h : ∀ r ∈ t.rows, key r = k → f r = g r) : t.update k f hf = t.update k g hg := by
  refine ext' (List.map_congr_left ?_) rfl
  intro r hr
  by_cases hk : key r = k
  · rw [if_pos hk, if_pos hk, h r hr hk]
  · rw [if_neg hk, if_neg hk]

theorem contains_insert {r : α} {i : ℕ} (h : t.contains i = true) :
    (t.insert r).contains i = true := by
  rw [contains_iff] at *
  obtain ⟨x, hx, hi⟩ := h
  exact ⟨x, List.mem_append_left _ hx, hi⟩

theorem contains_insert_lt {r : α} {i : ℕ} (h : i < t.next) :
    (t.insert r).contains i = t.contains i := by
  have hne : t.next ≠ i := (Nat.ne_of_lt h).symm
  simp [contains, hne]

theorem contains_restrict {i : ℕ} :
    (t.restrict (fun r => key r != k)).contains i = (t.contains i && i != k) := by
  rw [Bool.eq_iff_iff, Bool.and_eq_true, bne_iff_ne, contains_iff, contains_iff]
  simp only [restrict_rows, List.mem_filter, bne_iff_ne]
  constructor
  · rintro ⟨r, ⟨hr, hne⟩, rfl⟩
    exact ⟨⟨r, hr, rfl⟩, hne⟩
  · rintro ⟨⟨r, hr, rfl⟩, hne⟩
    exact ⟨r, ⟨hr, hne⟩, rfl⟩

theorem contains_restrict_self : (t.restrict (fun r => key r != k)).contains k = false := by
  rw [contains_restrict, bne_self_eq_false, Bool.and_false]

theorem contains_update {i : ℕ} (h : t.contains i = true) :
    (t.update k f hf).contains i = true := by
  rw [contains_iff] at *
  obtain ⟨r, hr, rfl⟩ := h
  obtain ⟨x, hx, hk, _⟩ := t.update_image hf hr
  exact ⟨x, hx, hk⟩

theorem contains_mapRows {g : α → α} (hg : ∀ r, key (g r) = key r) {i : ℕ} :
    (t.mapRows g hg).contains i = t.contains i := by
  simp only [contains, mapRows_rows, List.any_map, Function.comp_def, hg]

theorem contains_update_eq {i : ℕ} : (t.update k f hf).contains i = t.contains i := by
  unfold update
  rw [contains_mapRows]

theorem find?_insert_other {r : α} {i : ℕ} (hi : i ≠ t.next) :
    (t.insert r).find? i = t.find? i := by
  rw [find?, insert_rows, List.find?_append]
  simp [find?, hi.symm]

theorem find?_update_other {i : ℕ} (hi : i ≠ k) : (t.update k f hf).find? i = t.find? i := by
  cases h : t.find? i with
  | none =>
    rw [find?_eq_none] at h ⊢
    intro x hx
    obtain ⟨r, hr, hk, _⟩ := t.update_origin hf hx
    exact hk ▸ h r hr
  | some r =>
    obtain ⟨hr, rfl⟩ := find?_eq_some.mp h
    exact find?_eq_some.mpr ⟨t.mem_update_other hf hr hi, rfl⟩

theorem find?_update {r : α} (h : t.find? k = some r) :
    (t.update k f hf).find? k = some (f r) := by
  obtain ⟨hr, rfl⟩ := find?_eq_some.mp h
  exact find?_eq_some.mpr ⟨mem_update.mpr ⟨r, hr, if_pos rfl⟩, hf r⟩

theorem find?_insert (r : α) : (t.insert r).find? t.next = some (setKey t.next r) :=
  find?_eq_some.mpr ⟨List.mem_append_right _ List.mem_cons_self, Keyed.key_setKey _ _⟩

theorem find?_next : t.find? t.next = none :=
  find?_eq_none.mpr (fun _ hr => key_ne_next hr)

/-- An update is not seen by a view that hides what it changes. -/
theorem map_find?_update {β : Type*} {g : α → β} (hg : ∀ r, g (f r) = g r) (i : ℕ) :
    ((t.update k f hf).find? i).map g = (t.find? i).map g := by
  by_cases hi : i = k
  · subst hi
    cases h : t.find? i with
    | some r => rw [t.find?_update hf h, Option.map_some, Option.map_some, hg]
    | none =>
      rw [find?_eq_none] at h
      have hnone : (t.update i f hf).find? i = none := by
        rw [find?_eq_none]
        intro x hx
        obtain ⟨r, hr, hk, _⟩ := t.update_origin hf hx
        exact hk ▸ h r hr
      rw [hnone]
  · rw [t.find?_update_other hf hi]

theorem find?_restrict_other {i : ℕ} (hi : i ≠ k) :
    (t.restrict (fun r => key r != k)).find? i = t.find? i := by
  cases h : t.find? i with
  | none =>
    rw [find?_eq_none] at h ⊢
    exact fun r hr => h r (List.mem_of_mem_filter hr)
  | some r =>
    obtain ⟨hr, rfl⟩ := find?_eq_some.mp h
    exact find?_eq_some.mpr ⟨List.mem_filter.mpr ⟨hr, by simpa using hi⟩, rfl⟩

theorem find?_restrict : (t.restrict (fun r => key r != k)).find? k = none := by
  rw [find?_eq_none]
  intro r hr
  simpa using (List.mem_filter.mp hr).2

theorem filter_insert {r : α} {p : α → Bool} (hp : p (setKey t.next r) = false) :
    (t.insert r).rows.filter p = t.rows.filter p := by
  rw [insert_rows, List.filter_append]
  simp [hp]

theorem filter_restrict {p q : α → Bool} (h : ∀ r ∈ t.rows, p r = true → q r = true) :
    (t.restrict q).rows.filter p = t.rows.filter p :=
  filter_filter_of_imp h

/-- An update of one row is not seen by a filter that excludes the row before and after. -/
theorem filter_update {p : α → Bool}
    (h : ∀ r ∈ t.rows, key r = k → p r = false ∧ p (f r) = false) :
    (t.update k f hf).rows.filter p = t.rows.filter p := by
  rw [update_rows, List.filter_map]
  have swap : t.rows.filter (p ∘ fun r => if key r = k then f r else r) = t.rows.filter p := by
    apply List.filter_congr
    intro r hr
    by_cases hk : key r = k
    · simp [hk, (h r hr hk).1, (h r hr hk).2]
    · simp [hk]
  have keep : ∀ r ∈ t.rows.filter p, (if key r = k then f r else r) = r := by
    intro r hr
    obtain ⟨hr, hp⟩ := List.mem_filter.mp hr
    apply if_neg
    intro hk
    rw [(h r hr hk).1] at hp
    cases hp
  rw [swap, List.map_congr_left keep, List.map_id']

/-- An update is not seen by a view that hides what it changes. -/
theorem map_update {β : Type*} {g : α → β} (hg : ∀ r, key r = k → g (f r) = g r) :
    (t.update k f hf).rows.map g = t.rows.map g := by
  rw [update_rows, List.map_map]
  apply List.map_congr_left
  intro r _
  by_cases h : key r = k
  · simp [h, hg r h]
  · simp [h]

end Writes

end Table

end KeyedTables
