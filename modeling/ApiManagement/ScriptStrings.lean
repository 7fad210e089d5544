import Mathlib.Data.List.DropRight

/-! # Strings of a script

Operations of JavaScript on strings, as lists of characters. -/
namespace ScriptStrings

/-- White space and line terminators: `\s`, and what `trim` removes. -/
def isSpace (c : Char) : Bool :=
  (9 ≤ c.toNat && c.toNat ≤ 13) || (0x2000 ≤ c.toNat && c.toNat ≤ 0x200a) ||
    [0x20, 0xa0, 0x1680, 0x2028, 0x2029, 0x202f, 0x205f, 0x3000, 0xfeff].contains c.toNat

def hasSpace (s : String) : Bool := s.toList.any isSpace

def trim (cs : List Char) : List Char := (cs.dropWhile isSpace).rdropWhile isSpace

/-- `parseInt(s, 10)`: the digits after blanks and a sign; `none` is `NaN`. -/
def parseInt (s : String) : Option ℤ :=
  let cs := s.toList.dropWhile isSpace
  let unsigned := if cs.head? = some '-' ∨ cs.head? = some '+' then cs.tail else cs
  let digits := unsigned.takeWhile Char.isDigit
  let n := digits.foldl (fun n c => 10 * n + (c.toNat - 48)) (0 : ℕ)
  if digits = [] then none
  else some (if cs.head? = some '-' then -(n : ℤ) else n)

theorem not_space_of_digit {c : Char} (h : c.isDigit = true) : isSpace c = false := by
  have hd : 48 ≤ c.toNat ∧ c.toNat ≤ 57 := by
    simpa [Char.isDigit, Char.le_def, UInt32.le_iff_toNat_le] using h
  simp [isSpace]
  omega

/-- The digits of a number, with the facts about them that `parseInt` depends on. -/
theorem digits_of_nat (n : ℕ) : ∃ d ds, Nat.toDigits 10 n = d :: ds ∧ isSpace d = false ∧
    d ≠ '-' ∧ d ≠ '+' ∧ (d :: ds).takeWhile Char.isDigit = d :: ds ∧
    (d :: ds).foldl (fun n c => 10 * n + (c.toNat - 48)) 0 = n := by
  have hdigit : ∀ c ∈ Nat.toDigits 10 n, c.isDigit = true :=
    fun c hc => Nat.isDigit_of_mem_toDigits (by decide) (by decide) hc
  have hfold := Nat.ofDigitChars_ten_toDigits (n := n)
  rw [Nat.ofDigitChars_eq_foldl] at hfold
  obtain ⟨d, ds, hds⟩ := List.exists_cons_of_ne_nil (Nat.toDigits_ne_nil (n := n) (b := 10))
  rw [hds] at hdigit hfold
  have hd := hdigit d List.mem_cons_self
  refine ⟨d, ds, hds, not_space_of_digit hd, ?_, ?_, List.takeWhile_eq_self_iff.mpr hdigit, hfold⟩
  · rintro rfl
    exact absurd hd (by decide)
  · rintro rfl
    exact absurd hd (by decide)

theorem parseInt_toString (c : ℤ) : parseInt (toString c) = some c := by
  cases c with
  | ofNat n =>
    obtain ⟨d, ds, hds, hspace, hminus, hplus, hall, hfold⟩ := digits_of_nat n
    show parseInt n.repr = _
    rw [parseInt, Nat.toList_repr, hds]
    simp [hspace, hminus, hplus, hall, hfold]
  | negSucc n =>
    obtain ⟨d, ds, hds, _, _, _, hall, hfold⟩ := digits_of_nat (n + 1)
    have hspace : isSpace '-' = false := by decide
    show parseInt ("-" ++ (n + 1).repr) = _
    rw [parseInt, String.toList_append, Nat.toList_repr, hds]
    simp [hspace, hall, hfold]
    omega

theorem toString_injective : Function.Injective (fun c : ℤ => toString c) := by
  intro c d h
  have hparse := congrArg parseInt h
  dsimp only at hparse
  rw [parseInt_toString, parseInt_toString] at hparse
  exact Option.some.inj hparse

def isDollarMark (c : Char) : Bool := c == '$' || c == '&' || c == '\x60' || c == '\''

/-- The replacement text, with `$$`, `$&` and the two parts around the match filled in; there are
no groups that could be referred to. -/
def expand (found before after : List Char) : List Char → List Char
  | [] => []
  | [c] => [c]
  | c :: d :: cs =>
    if c = '$' ∧ d = '$' then '$' :: expand found before after cs
    else if c = '$' ∧ d = '&' then found ++ expand found before after cs
    else if c = '$' ∧ d = '\x60' then before ++ expand found before after cs
    else if c = '$' ∧ d = '\'' then after ++ expand found before after cs
    else c :: expand found before after (d :: cs)

def replace (s pattern replacement : List Char) : List Char :=
  match s.dropInfix? pattern with
  | none => s
  | some (before, after) => before ++ expand pattern before after replacement ++ after

def hasDollarMark : List Char → Bool
  | [] => false
  | c :: cs => (c == '$' && cs.head?.any isDollarMark) || hasDollarMark cs

theorem expand_eq_self {found before after cs : List Char} (h : hasDollarMark cs = false) :
    expand found before after cs = cs := by
  induction cs with
  | nil => rfl
  | cons c cs ih =>
    rw [hasDollarMark, Bool.or_eq_false_iff] at h
    cases cs with
    | nil => rfl
    | cons d cs =>
      have hmark : ¬ (c = '$' ∧ isDollarMark d = true) := by
        rintro ⟨rfl, hd⟩
        simp [hd] at h
      have hne : ∀ e, isDollarMark e = true → ¬ (c = '$' ∧ d = e) := by
        rintro e he ⟨rfl, rfl⟩
        exact hmark ⟨rfl, he⟩
      rw [expand, if_neg (hne '$' rfl), if_neg (hne '&' rfl), if_neg (hne '\x60' rfl),
        if_neg (hne '\'' rfl), ih h.2]

theorem dropInfix_eq_some {s pattern before after : List Char}
    (h : s.dropInfix? pattern = some (before, after)) : s = before ++ pattern ++ after ∧
      ∀ x y, s = x ++ pattern ++ y → before.length ≤ x.length := by
  obtain ⟨⟨found, hs, hfound⟩, hfirst⟩ := List.dropInfix?_eq_some_iff.mp h
  rw [eq_of_beq hfound] at hs
  refine ⟨hs, ?_⟩
  intro x y hxy
  exact hfirst x pattern y hxy (beq_self_eq_true pattern)

/-- Strong induction: where there is an occurrence, there is a first one. -/
theorem dropInfix_eq_none {s pattern : List Char} (h : s.dropInfix? pattern = none)
    (x y : List Char) : s ≠ x ++ pattern ++ y := by
  induction hlen : x.length using Nat.strong_induction_on generalizing x y with
  | _ n ih =>
    intro hs
    have hsome : s.dropInfix? pattern = some (x, y) := by
      refine List.dropInfix?_eq_some_iff.mpr ⟨⟨pattern, hs, beq_self_eq_true pattern⟩, ?_⟩
      intro x' found y' hs' hfound
      rw [eq_of_beq hfound] at hs'
      by_contra hshort
      exact ih x'.length (by omega) x' y' rfl hs'
    rw [h] at hsome
    cases hsome

end ScriptStrings
