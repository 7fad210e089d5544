import Mathlib.Data.List.Sort

/-! # Keys of a script's objects

Objects of JavaScript as lists of entries, and the order in which a script goes through them. -/
namespace ScriptObjects

/-- A key that is an array index, below 2³² - 1. -/
def arrayIndex (key : String) : Option ℕ :=
  key.toNat?.bind (fun n => if toString n = key ∧ n < 4294967295 then some n else none)

variable {α : Type*}

/-- The order of `Object.keys` and `Object.entries`: array indices come first. -/
def objectOrder (entries : List (String × α)) : List (String × α) :=
  (entries.filter (fun e => (arrayIndex e.1).isSome)).insertionSort
      (fun e f => (arrayIndex e.1).getD 0 ≤ (arrayIndex f.1).getD 0) ++
    entries.filter (fun e => (arrayIndex e.1).isNone)

theorem objectOrder_perm (entries : List (String × α)) : (objectOrder entries).Perm entries := by
  have hnone : entries.filter (fun e => (arrayIndex e.1).isNone) =
      entries.filter (fun e => !(arrayIndex e.1).isSome) := by
    apply List.filter_congr
    intro e _
    cases arrayIndex e.1 <;> rfl
  rw [objectOrder, hnone]
  exact ((List.perm_insertionSort _ _).append_right _).trans (List.filter_append_perm _ _)

theorem mem_objectOrder {entries : List (String × α)} {e : String × α} :
    e ∈ objectOrder entries ↔ e ∈ entries := by
  rw [objectOrder, List.mem_append, (List.perm_insertionSort _ _).mem_iff, List.mem_filter,
    List.mem_filter]
  cases arrayIndex e.1 <;> simp

end ScriptObjects
