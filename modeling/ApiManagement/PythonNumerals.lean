import ApiManagement.PythonRuntime
import Mathlib.Data.List.DropRight
import Mathlib.Data.Nat.Digits.Defs
import Mathlib.Data.Rat.Defs
import Mathlib.Algebra.Field.Rat
import Mathlib.Tactic.FieldSimp
import Mathlib.Tactic.Ring

/-! # `int` and `float` of a text

Blanks around the number are dropped, a sign may come first and single underscores may stand
between digits. The digits of other scripts, the nearest double and the names of infinities are
parameters. -/
namespace PythonNumerals

open PythonRuntime

/-- `str.strip` drops the separators from U+001C to U+001F as well; to a number they belong. -/
def isBlank (c : Char) : Bool := isSpace c && !(28 ≤ c.toNat && c.toNat ≤ 31)

def dropBlanks (cs : List Char) : List Char := (cs.dropWhile isBlank).rdropWhile isBlank

theorem dropBlanks_of_none {cs : List Char} (h : ∀ c ∈ cs, isSpace c = false) :
    dropBlanks cs = cs := by
  have hnone : ∀ c ∈ cs, ¬ isBlank c = true := by
    intro c hc hblank
    rw [isBlank, h c hc] at hblank
    cases hblank
  have hfront : cs.dropWhile isBlank = cs :=
    List.dropWhile_eq_self_iff.mpr (fun hl => hnone _ (List.getElem_mem hl))
  rw [dropBlanks, hfront]
  exact List.rdropWhile_eq_self_iff.mpr (fun hl => hnone _ (List.getLast_mem hl))

section Reading

variable (decimal : Char → Option ℕ)

def digitValue (c : Char) : Option ℕ :=
  if '0' ≤ c ∧ c ≤ '9' then some (c.toNat - 48) else decimal c

def digits (after : Bool) : List Char → Option (List ℕ)
  | [] => if after then some [] else none
  | c :: cs =>
    if c = '_' ∧ after = true then digits false cs
    else do
      let d ← digitValue decimal c
      let ds ← digits true cs
      pure (d :: ds)

def positional (ds : List ℕ) : ℕ := Nat.ofDigits 10 ds.reverse

def dropSign : List Char → Bool × List Char
  | [] => (false, [])
  | c :: cs => if c = '-' then (true, cs) else if c = '+' then (false, cs) else (false, c :: cs)

def readInteger (cs : List Char) : Option ℤ := do
  let ds ← digits decimal false (dropSign cs).2
  pure (if (dropSign cs).1 then -(positional ds : ℤ) else positional ds)

def int (s : String) : Option ℤ := readInteger decimal (dropBlanks s.toList)

/-- The digits around a point, on one side of which there may be none, and how many stand
after it. -/
def readMantissa (cs : List Char) : Option (ℕ × ℕ) :=
  let whole := cs.takeWhile (· != '.')
  let decimals := (cs.dropWhile (· != '.')).tail
  if whole.isEmpty && decimals.isEmpty then none
  else do
    let ws ← digits decimal whole.isEmpty whole
    let ds ← digits decimal decimals.isEmpty decimals
    pure (positional (ws ++ ds), ds.length)

def isExponentSign (c : Char) : Bool := c == 'e' || c == 'E'

def readExponent : List Char → Option ℤ
  | [] => some 0
  | _ :: cs => readInteger decimal cs

def readNumber (cs : List Char) : Option ℚ := do
  let number := (dropSign cs).2
  let mantissa ← readMantissa decimal (number.takeWhile (fun c => !isExponentSign c))
  let exponent ← readExponent decimal (number.dropWhile (fun c => !isExponentSign c))
  pure ((if (dropSign cs).1 then -1 else 1) * mantissa.1 * 10 ^ (exponent - mantissa.2))

def float {α : Type} (nearest : ℚ → α) (named : String → Option α) (s : String) : Option α :=
  ((readNumber decimal (dropBlanks s.toList)).map nearest).or
    (named (String.ofList (dropBlanks s.toList)))

end Reading

example : int (fun _ => none) " -1_024\n" = some (-1024) := by decide +kernel

example : int (fun _ => none) "12px" = none ∧ int (fun _ => none) "\x1c12" = none := by
  decide +kernel

inductive Sign where
  | none
  | minus
  | plus

def Sign.chars : Sign → List Char
  | .none => []
  | .minus => ['-']
  | .plus => ['+']

def Sign.factor : Sign → ℤ
  | .minus => -1
  | _ => 1

def digitChars (ds : List (Fin 10)) : List Char := ds.map (fun d => Nat.digitChar d.val)

def numeral (ds : List (Fin 10)) : ℕ := Nat.ofDigits 10 (ds.map Fin.val).reverse

/-- A sign, if any, and digits. -/
structure WrittenInteger where
  sign : Sign
  digits : List (Fin 10)
  nonempty : digits ≠ []

def WrittenInteger.chars (i : WrittenInteger) : List Char := i.sign.chars ++ digitChars i.digits

def WrittenInteger.value (i : WrittenInteger) : ℤ := i.sign.factor * numeral i.digits

/-- Digits, perhaps with a point and further digits, perhaps with an exponent behind a small or a
capital letter. -/
structure WrittenNumber where
  sign : Sign
  whole : List (Fin 10)
  nonempty : whole ≠ []
  decimals : List (Fin 10)
  exponent : Option (Bool × WrittenInteger)

def decimalChars (ds : List (Fin 10)) : List Char := if ds = [] then [] else '.' :: digitChars ds

def exponentChars : Option (Bool × WrittenInteger) → List Char
  | none => []
  | some (capital, i) => (if capital then 'E' else 'e') :: i.chars

def WrittenNumber.chars (x : WrittenNumber) : List Char :=
  x.sign.chars ++ digitChars x.whole ++ decimalChars x.decimals ++ exponentChars x.exponent

def WrittenNumber.value (x : WrittenNumber) : ℚ :=
  x.sign.factor * (numeral x.whole + numeral x.decimals / 10 ^ x.decimals.length) *
    10 ^ (x.exponent.elim 0 (fun e => e.2.value))

structure IsDigit (c : Char) : Prop where
  blank : isSpace c = false
  underscore : c ≠ '_'
  minus : c ≠ '-'
  plus : c ≠ '+'
  point : c ≠ '.'
  exponent : isExponentSign c = false

theorem isDigit_digitChar (d : Fin 10) : IsDigit (Nat.digitChar d.val) := by
  have hall : ∀ e : Fin 10, isSpace (Nat.digitChar e.val) = false ∧ Nat.digitChar e.val ≠ '_' ∧
      Nat.digitChar e.val ≠ '-' ∧ Nat.digitChar e.val ≠ '+' ∧ Nat.digitChar e.val ≠ '.' ∧
      isExponentSign (Nat.digitChar e.val) = false := by decide
  obtain ⟨h₁, h₂, h₃, h₄, h₅, h₆⟩ := hall d
  exact ⟨h₁, h₂, h₃, h₄, h₅, h₆⟩

theorem isDigit_of_mem {ds : List (Fin 10)} {c : Char} (h : c ∈ digitChars ds) : IsDigit c := by
  obtain ⟨d, _, rfl⟩ := List.mem_map.mp h
  exact isDigit_digitChar d

section Correct

variable (decimal : Char → Option ℕ)

theorem digitValue_digitChar (d : Fin 10) :
    digitValue decimal (Nat.digitChar d.val) = some d.val := by
  have hall : ∀ e : Fin 10, ('0' ≤ Nat.digitChar e.val ∧ Nat.digitChar e.val ≤ '9') ∧
      (Nat.digitChar e.val).toNat - 48 = e.val := by decide
  rw [digitValue, if_pos (hall d).1, (hall d).2]

theorem digits_digitChars (after : Bool) : ∀ ds : List (Fin 10), (ds = [] → after = true) →
    digits decimal after (digitChars ds) = some (ds.map Fin.val) := by
  intro ds
  induction ds generalizing after with
  | nil =>
    intro h
    rw [h rfl]
    rfl
  | cons d ds ih =>
    intro _
    have hrest : digits decimal true (digitChars ds) = some (ds.map Fin.val) :=
      ih true (fun _ => rfl)
    have hd := (isDigit_digitChar d).underscore
    show digits decimal after (Nat.digitChar d.val :: digitChars ds) = _
    rw [digits, if_neg (fun h => hd h.1), digitValue_digitChar, hrest]
    rfl

theorem dropSign_chars (sign : Sign) {cs : List Char} {c : Char} (hc : cs.head? = some c)
    (hm : c ≠ '-') (hp : c ≠ '+') :
    dropSign (sign.chars ++ cs) = (decide (sign.factor = -1), cs) := by
  obtain ⟨ds, rfl⟩ : ∃ ds, cs = c :: ds := List.head?_eq_some_iff.mp hc
  cases sign with
  | none => simp [Sign.chars, Sign.factor, dropSign, hm, hp]
  | minus => rfl
  | plus => rfl

theorem head_digitChars {ds : List (Fin 10)} (h : ds ≠ []) :
    ∃ c, (digitChars ds).head? = some c ∧ IsDigit c := by
  cases ds with
  | nil => exact absurd rfl h
  | cons d ds => exact ⟨_, rfl, isDigit_digitChar d⟩

theorem readInteger_chars (i : WrittenInteger) :
    readInteger decimal i.chars = some i.value := by
  obtain ⟨c, hhead, hc⟩ := head_digitChars i.nonempty
  have hsign : dropSign i.chars = _ := dropSign_chars i.sign hhead hc.minus hc.plus
  have hdigits := digits_digitChars decimal false i.digits (fun h => absurd h i.nonempty)
  rw [readInteger, hsign, hdigits, WrittenInteger.value]
  cases i.sign <;> simp [Sign.factor, positional, numeral]

theorem readMantissa_chars {whole : List (Fin 10)} (hw : whole ≠ []) (ds : List (Fin 10)) :
    readMantissa decimal (digitChars whole ++ decimalChars ds) =
      some (numeral (whole ++ ds), ds.length) := by
  have hall : ∀ c ∈ digitChars whole, (c != '.') = true :=
    fun c hc => bne_iff_ne.mpr (isDigit_of_mem hc).point
  have htake : (digitChars whole ++ decimalChars ds).takeWhile (· != '.') = digitChars whole := by
    rw [List.takeWhile_append_of_pos hall, decimalChars]
    by_cases hd : ds = [] <;> simp [hd]
  have hdrop : ((digitChars whole ++ decimalChars ds).dropWhile (· != '.')).tail =
      digitChars ds := by
    rw [List.dropWhile_append_of_pos hall, decimalChars]
    by_cases hd : ds = [] <;> simp [hd, digitChars]
  have hws := digits_digitChars decimal (digitChars whole).isEmpty whole
    (fun h => absurd h hw)
  have hds := digits_digitChars decimal (digitChars ds).isEmpty ds
    (fun h => by rw [h]; rfl)
  have hsome : (digitChars whole).isEmpty = false := by
    rw [List.isEmpty_eq_false_iff]
    exact fun h => hw (List.map_eq_nil_iff.mp h)
  unfold readMantissa
  rw [htake, hdrop]
  dsimp only
  rw [hws, hds, hsome, Bool.false_and, if_neg Bool.false_ne_true]
  simp [positional, numeral]

theorem numeral_append (whole ds : List (Fin 10)) :
    numeral (whole ++ ds) = numeral whole * 10 ^ ds.length + numeral ds := by
  unfold numeral
  rw [List.map_append, List.reverse_append, Nat.ofDigits_append, List.length_reverse,
    List.length_map]
  ring

theorem readExponent_chars (e : Option (Bool × WrittenInteger)) :
    readExponent decimal (exponentChars e) = some (e.elim 0 (fun e => e.2.value)) := by
  cases e with
  | none => rfl
  | some e => exact readInteger_chars decimal e.2

/-- Up to the exponent there is no letter of one. -/
theorem no_exponent (whole ds : List (Fin 10)) :
    ∀ c ∈ digitChars whole ++ decimalChars ds, (!isExponentSign c) = true := by
  intro c hc
  rcases List.mem_append.mp hc with hc | hc
  · rw [(isDigit_of_mem hc).exponent]
    rfl
  · unfold decimalChars at hc
    by_cases hd : ds = []
    · rw [if_pos hd] at hc
      cases hc
    · rw [if_neg hd] at hc
      rcases List.mem_cons.mp hc with rfl | hc
      · rfl
      · rw [(isDigit_of_mem hc).exponent]
        rfl

theorem split_exponent {cs : List Char} (h : ∀ c ∈ cs, (!isExponentSign c) = true)
    (e : Option (Bool × WrittenInteger)) :
    (cs ++ exponentChars e).takeWhile (fun c => !isExponentSign c) = cs ∧
      (cs ++ exponentChars e).dropWhile (fun c => !isExponentSign c) = exponentChars e := by
  rw [List.takeWhile_append_of_pos h, List.dropWhile_append_of_pos h]
  rcases e with _ | ⟨_ | _, i⟩ <;> simp [exponentChars, isExponentSign]

theorem readNumber_chars (x : WrittenNumber) : readNumber decimal x.chars = some x.value := by
  have hchars : x.chars = x.sign.chars ++
      ((digitChars x.whole ++ decimalChars x.decimals) ++ exponentChars x.exponent) := by
    simp only [WrittenNumber.chars, List.append_assoc]
  obtain ⟨c, hhead, hc⟩ := head_digitChars x.nonempty
  have hhead' : ((digitChars x.whole ++ decimalChars x.decimals) ++
      exponentChars x.exponent).head? = some c := by
    rw [List.append_assoc, List.head?_append, hhead, Option.some_or]
  have hsign := dropSign_chars x.sign hhead' hc.minus hc.plus
  obtain ⟨htake, hdrop⟩ := split_exponent (no_exponent x.whole x.decimals) x.exponent
  rw [readNumber, hchars, hsign, htake, hdrop, readMantissa_chars decimal x.nonempty,
    readExponent_chars]
  have hten : (10 : ℚ) ≠ 0 := by norm_num
  have hfactor : (if x.sign.factor = -1 then (-1 : ℚ) else 1) = x.sign.factor := by
    cases x.sign <;> simp [Sign.factor]
  have hvalue : x.value = x.sign.factor * numeral (x.whole ++ x.decimals) *
      10 ^ (x.exponent.elim 0 (fun e => e.2.value) - x.decimals.length) := by
    rw [WrittenNumber.value, numeral_append, zpow_sub₀ hten, zpow_natCast]
    push_cast
    field_simp
  simp [hvalue, hfactor]

theorem sign_no_space {sign : Sign} {c : Char} (h : c ∈ sign.chars) : isSpace c = false := by
  cases sign with
  | none => cases h
  | minus =>
    obtain rfl := List.mem_singleton.mp h
    decide
  | plus =>
    obtain rfl := List.mem_singleton.mp h
    decide

theorem integer_no_space {i : WrittenInteger} {c : Char} (h : c ∈ i.chars) :
    isSpace c = false := by
  rcases List.mem_append.mp h with h | h
  · exact sign_no_space h
  · exact (isDigit_of_mem h).blank

theorem exponent_no_space {e : Option (Bool × WrittenInteger)} {c : Char}
    (h : c ∈ exponentChars e) : isSpace c = false := by
  rcases e with _ | ⟨capital, i⟩
  · cases h
  · rcases List.mem_cons.mp h with rfl | h
    · cases capital <;> decide
    · exact integer_no_space h

theorem number_no_space {x : WrittenNumber} {c : Char} (h : c ∈ x.chars) :
    isSpace c = false := by
  rcases List.mem_append.mp h with h | h
  · rcases List.mem_append.mp h with h | h
    · rcases List.mem_append.mp h with h | h
      · exact sign_no_space h
      · exact (isDigit_of_mem h).blank
    · unfold decimalChars at h
      by_cases hd : x.decimals = []
      · rw [if_pos hd] at h
        cases h
      · rw [if_neg hd] at h
        rcases List.mem_cons.mp h with rfl | h
        · decide
        · exact (isDigit_of_mem h).blank
  · exact exponent_no_space h

/-- `int` reads every integer that is written with ASCII digits. -/
theorem int_of_written (i : WrittenInteger) :
    int decimal (String.ofList i.chars) = some i.value := by
  rw [int, String.toList_ofList, dropBlanks_of_none (fun _ => integer_no_space),
    readInteger_chars]

/-- `float` reads every number that is written with ASCII digits. -/
theorem float_of_written {α : Type} (nearest : ℚ → α) (named : String → Option α)
    (x : WrittenNumber) :
    float decimal nearest named (String.ofList x.chars) = some (nearest x.value) := by
  rw [float, String.toList_ofList, dropBlanks_of_none (fun _ => number_no_space),
    readNumber_chars]
  rfl

end Correct

end PythonNumerals
