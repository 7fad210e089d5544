import ApiManagement.KeyedTables
import ApiManagement.TransactionRuns
import Mathlib.Data.List.Forall2

/-! # One program on two states

Two computations run in lockstep if they abort with the same error or succeed with related
results. The states they start from are tables whose rows agree in the columns shown; a row that
is not hidden agrees in all of them. -/
namespace PairedOutcomes

open KeyedTables TransactionRuns

universe v w

section Lockstep

variable {ε : Type*} {α α' : Type v} {β β' : Type w}

inductive Lockstep (R : α → β → Prop) : Except ε α → Except ε β → Prop where
  | ok {a b} : R a b → Lockstep R (.ok a) (.ok b)
  | error (e) : Lockstep R (.error e) (.error e)

variable {R : α → β → Prop} {S : α' → β' → Prop} {x : Except ε α} {y : Except ε β}

theorem Lockstep.of_eq {x y : Except ε α} (h : x = y) : Lockstep Eq x y := by
  subst h
  cases x with
  | ok a => exact .ok rfl
  | error e => exact .error e

theorem Lockstep.mono {S : α → β → Prop} (h : Lockstep R x y) (hRS : ∀ a b, R a b → S a b) :
    Lockstep S x y := by
  cases h with
  | ok h => exact .ok (hRS _ _ h)
  | error e => exact .error e

theorem Lockstep.bind {f : α → Except ε α'} {g : β → Except ε β'} (h : Lockstep R x y)
    (hf : ∀ a b, R a b → Lockstep S (f a) (g b)) : Lockstep S (x >>= f) (y >>= g) := by
  cases h with
  | ok h => exact hf _ _ h
  | error e => exact .error e

/-- A part that is the same on both sides; what follows may rely on its success. -/
theorem Lockstep.bind_same {γ : Type v} {α' : Type v} {β' : Type v} {S : α' → β' → Prop}
    {f : γ → Except ε α'} {g : γ → Except ε β'} (z : Except ε γ)
    (hf : ∀ c, z = .ok c → Lockstep S (f c) (g c)) : Lockstep S (z >>= f) (z >>= g) := by
  cases z with
  | ok c => exact hf c rfl
  | error e => exact .error e

/-- Where related results look the same, so do the two computations. -/
theorem Lockstep.map_eq {γ : Type v} {α β : Type v} {R : α → β → Prop} {x : Except ε α}
    {y : Except ε β} {f : α → γ} {g : β → γ} (h : Lockstep R x y)
    (hf : ∀ a b, R a b → f a = g b) : f <$> x = g <$> y := by
  cases h with
  | ok h => exact congrArg Except.ok (hf _ _ h)
  | error e => rfl

theorem Lockstep.eq {x y : Except ε α} (h : Lockstep Eq x y) : x = y := by
  cases h with
  | ok h => rw [h]
  | error e => rfl

theorem Lockstep.foldlM {γ : Type*} {f : α → γ → Except ε α} {g : β → γ → Except ε β}
    {l : List γ} (step : ∀ a b, ∀ c ∈ l, R a b → Lockstep R (f a c) (g b c)) :
    ∀ {a : α} {b : β}, R a b → Lockstep R (l.foldlM f a) (l.foldlM g b) := by
  induction l with
  | nil => exact fun h => .ok h
  | cons c l ih =>
    intro a b h
    rw [List.foldlM_cons, List.foldlM_cons]
    refine (step a b c List.mem_cons_self h).bind ?_
    intro a' b' h'
    exact ih (fun a b d hd => step a b d (List.mem_cons_of_mem _ hd)) h'

end Lockstep

structure Columns (α β : Type*) [Keyed α] where
  shown : α → β
  key_eq {a b : α} : shown a = shown b → key a = key b

section Rows

variable {α β : Type*} [Keyed α]

structure Agree (columns : Columns α β) (hidden : α → Prop) (a b : α) : Prop where
  shown : columns.shown a = columns.shown b
  same : ¬ hidden a → a = b

structure SameRows (columns : Columns α β) (hidden : α → Prop) (t u : Table α) : Prop where
  next : t.next = u.next
  rows : List.Forall₂ (Agree columns hidden) t.rows u.rows

variable {columns : Columns α β} {hidden : α → Prop} {l m : List α} {t u : Table α}

theorem Agree.key_eq {a b : α} (h : Agree columns hidden a b) : key a = key b :=
  columns.key_eq h.shown

theorem Agree.refl (a : α) : Agree columns hidden a a := ⟨rfl, fun _ => rfl⟩

/-- Hidden rows need to agree in the columns shown only. -/
theorem SameRows.of_hidden (hn : t.next = u.next)
    (hs : t.rows.map columns.shown = u.rows.map columns.shown) (hh : ∀ a ∈ t.rows, hidden a) :
    SameRows columns hidden t u := by
  refine ⟨hn, ?_⟩
  have hlength : t.rows.length = u.rows.length := by
    rw [← List.length_map columns.shown, hs, List.length_map]
  apply List.forall₂_iff_get.mpr
  refine ⟨hlength, ?_⟩
  intro i hi hj
  refine ⟨?_, fun ha => absurd (hh _ (List.get_mem t.rows ⟨i, hi⟩)) ha⟩
  have hget := List.getElem_of_eq hs (by rwa [List.length_map] : i < _)
  rwa [List.getElem_map, List.getElem_map] at hget

theorem agree_of_mem (h : List.Forall₂ (Agree columns hidden) l m) {a : α} (ha : a ∈ l) :
    ∃ b ∈ m, Agree columns hidden a b := by
  induction h with
  | nil => cases ha
  | cons hab _ ih =>
    rcases List.mem_cons.mp ha with rfl | ha
    · exact ⟨_, List.mem_cons_self, hab⟩
    · obtain ⟨b, hb, hab⟩ := ih ha
      exact ⟨b, List.mem_cons_of_mem _ hb, hab⟩

theorem agree_of_mem_right (h : List.Forall₂ (Agree columns hidden) l m) {b : α} (hb : b ∈ m) :
    ∃ a ∈ l, Agree columns hidden a b := by
  induction h with
  | nil => cases hb
  | cons hab _ ih =>
    rcases List.mem_cons.mp hb with rfl | hb
    · exact ⟨_, List.mem_cons_self, hab⟩
    · obtain ⟨a, ha, hab⟩ := ih hb
      exact ⟨a, List.mem_cons_of_mem _ ha, hab⟩

/-- A condition on columns shown selects rows that agree. -/
theorem agree_filter {p : α → Bool} (hp : ∀ a b, columns.shown a = columns.shown b → p a = p b)
    (h : List.Forall₂ (Agree columns hidden) l m) :
    List.Forall₂ (Agree columns hidden) (l.filter p) (m.filter p) := by
  induction h with
  | nil => exact .nil
  | @cons a b l m hab _ ih =>
    rw [List.filter_cons, List.filter_cons, ← hp a b hab.shown]
    split
    · exact .cons hab ih
    · exact ih

theorem eq_of_agree (h : List.Forall₂ (Agree columns hidden) l m)
    (hl : ∀ a ∈ l, ¬ hidden a) : l = m := by
  induction h with
  | nil => rfl
  | cons hab _ ih =>
    rw [hab.same (hl _ List.mem_cons_self), ih (fun a ha => hl a (List.mem_cons_of_mem _ ha))]

/-- What is selected from rows not hidden is the same. -/
theorem SameRows.filter_eq (h : SameRows columns hidden t u) {p : α → Bool}
    (hp : ∀ a b, columns.shown a = columns.shown b → p a = p b)
    (hl : ∀ a ∈ t.rows, p a = true → ¬ hidden a) : t.rows.filter p = u.rows.filter p := by
  apply eq_of_agree (agree_filter hp h.rows)
  intro a ha
  obtain ⟨ha, hpa⟩ := List.mem_filter.mp ha
  exact hl a ha hpa

theorem SameRows.filter_column (h : SameRows columns hidden t u) {γ : Type*} [DecidableEq γ]
    {f : α → γ} {c : γ} (hf : ∀ a b, columns.shown a = columns.shown b → f a = f b)
    (hc : ∀ a ∈ t.rows, f a = c → ¬ hidden a) :
    t.rows.filter (fun a => f a == c) = u.rows.filter (fun a => f a == c) := by
  refine h.filter_eq ?_ ?_
  · intro a b hab
    rw [hf a b hab]
  · intro a ha hac
    exact hc a ha (beq_iff_eq.mp hac)

theorem any_of_agree {p : α → Bool} (hp : ∀ a b, Agree columns hidden a b → p a = p b)
    (h : List.Forall₂ (Agree columns hidden) l m) : l.any p = m.any p := by
  induction h with
  | nil => rfl
  | cons hab _ ih => rw [List.any_cons, List.any_cons, hp _ _ hab, ih]

/-- Hidden rows that do not matter. -/
theorem SameRows.any_eq (h : SameRows columns hidden t u) {p : α → Bool}
    (hp : ∀ a b, Agree columns hidden a b → hidden a → p a = p b) :
    t.rows.any p = u.rows.any p := by
  refine any_of_agree ?_ h.rows
  intro a b hab
  by_cases ha : hidden a
  · exact hp a b hab ha
  · rw [hab.same ha]

theorem SameRows.contains_eq (h : SameRows columns hidden t u) : t.contains = u.contains := by
  funext k
  apply h.any_eq
  intro a b hab _
  rw [hab.key_eq]

structure Found (columns : Columns α β) (hidden : α → Prop) (t : Table α) (k : ℕ) (a b : α) :
    Prop extends Agree columns hidden a b where
  mem : a ∈ t.rows
  key : key a = k

theorem SameRows.find {ε : Type*} (h : SameRows columns hidden t u) (k : ℕ) (e : ε) :
    Lockstep (Found columns hidden t k) (orAbort (t.find? k) e) (orAbort (u.find? k) e) := by
  cases ht : t.find? k with
  | none =>
    have hu : u.find? k = none := by
      rw [Table.find?_eq_none] at ht ⊢
      intro b hb hk
      have hcontains : t.contains k = true := h.contains_eq ▸ Table.contains_iff.mpr ⟨b, hb, hk⟩
      obtain ⟨a, ha, hka⟩ := Table.contains_iff.mp hcontains
      exact ht a ha hka
    rw [hu]
    exact .error e
  | some a =>
    obtain ⟨ha, hk⟩ := Table.find?_eq_some.mp ht
    obtain ⟨b, hb, hab⟩ := agree_of_mem h.rows ha
    rw [Table.find?_eq_some.mpr ⟨hb, hab.key_eq ▸ hk⟩]
    exact .ok ⟨hab, ha, hk⟩

/-- A row found under a key that no hidden row has. -/
theorem SameRows.find?_eq (h : SameRows columns hidden t u) {k : ℕ}
    (hk : ∀ a, key a = k → ¬ hidden a) : t.find? k = u.find? k := by
  have hsame : Lockstep Eq (orAbort (t.find? k) ()) (orAbort (u.find? k) ()) :=
    (h.find k ()).mono (fun a b hab => hab.same (hk a hab.key))
  apply Option.ext
  intro a
  rw [← orAbort_eq_ok (e := ()), hsame.eq, orAbort_eq_ok]

/-- The same row added on both sides. -/
theorem SameRows.insert (h : SameRows columns hidden t u) (a : α) :
    SameRows columns hidden (t.insert a) (u.insert a) := by
  refine ⟨congrArg (· + 1) h.next, ?_⟩
  rw [Table.insert_rows, Table.insert_rows, h.next]
  exact List.rel_append h.rows (.cons (.refl _) .nil)

theorem SameRows.restrict (h : SameRows columns hidden t u) {p : α → Bool}
    (hp : ∀ a b, columns.shown a = columns.shown b → p a = p b) :
    SameRows columns hidden (t.restrict p) (u.restrict p) :=
  ⟨h.next, agree_filter hp h.rows⟩

end Rows

end PairedOutcomes
