import Mathlib

/-! # Names put together from parts

A part that ends where a certain character occurs for the first time, or begins where it occurs
for the last time, can be told from the rest of the name. Numbers are parts without letters. -/
namespace ConcatenatedNames

variable {α : Type*} {a : α} {x y z w : List α}

/-- The part before the first `a`. -/
theorem append_cons_inj (hx : a ∉ x) (hy : a ∉ y) :
    x ++ a :: z = y ++ a :: w ↔ x = y ∧ z = w := by
  constructor
  · intro h
    induction x generalizing y with
    | nil =>
      cases y with
      | nil => exact ⟨rfl, (List.cons.inj h).2⟩
      | cons b y => exact absurd ((List.cons.inj h).1 ▸ List.mem_cons_self) hy
    | cons b x ih =>
      cases y with
      | nil => exact absurd ((List.cons.inj h).1 ▸ List.mem_cons_self) hx
      | cons c y =>
        obtain ⟨rfl, htail⟩ := List.cons.inj h
        obtain ⟨rfl, hzw⟩ := ih (fun hm => hx (List.mem_cons_of_mem _ hm))
          (fun hm => hy (List.mem_cons_of_mem _ hm)) htail
        exact ⟨rfl, hzw⟩
  · rintro ⟨rfl, rfl⟩
    rfl

/-- The part after the last `a`. -/
theorem cons_append_inj (hx : a ∉ x) (hy : a ∉ y) :
    z ++ a :: x = w ++ a :: y ↔ z = w ∧ x = y := by
  have hrev : ∀ u v : List α, (u ++ a :: v).reverse = v.reverse ++ a :: u.reverse := by
    intro u v
    simp
  rw [← List.reverse_inj, hrev, hrev, append_cons_inj (by simpa using hx) (by simpa using hy),
    List.reverse_inj, List.reverse_inj, and_comm]

def isNumeral (c : Char) : Bool := c.isDigit || c == '-'

theorem isNumeral_of_mem {i : ℤ} {c : Char} (h : c ∈ (toString i).toList) :
    isNumeral c = true := by
  have hdigits : ∀ n : ℕ, c ∈ n.repr.toList → isNumeral c = true := by
    intro n hc
    rw [Nat.toList_repr] at hc
    have hd := Nat.isDigit_of_mem_toDigits (by decide) (by decide) hc
    rw [isNumeral, hd, Bool.true_or]
  cases i with
  | ofNat n => exact hdigits n h
  | negSucc n =>
    have hcons : (toString (Int.negSucc n)).toList = '-' :: (n + 1).repr.toList :=
      String.toList_append
    rw [hcons, List.mem_cons] at h
    rcases h with rfl | h
    · rfl
    · exact hdigits _ h

theorem toString_ne_empty (i : ℤ) : toString i ≠ "" := by
  intro h
  have hnil : (toString i).toList = [] := by rw [h]; rfl
  cases i with
  | ofNat n =>
    have hdigits : n.repr.toList = [] := hnil
    rw [Nat.toList_repr] at hdigits
    exact Nat.toDigits_ne_nil hdigits
  | negSucc n =>
    have hcons : (toString (Int.negSucc n)).toList = '-' :: (n + 1).repr.toList :=
      String.toList_append
    rw [hcons] at hnil
    cases hnil

theorem toString_inj {i j : ℤ} : toString i = toString j ↔ i = j := Int.repr_inj

end ConcatenatedNames
