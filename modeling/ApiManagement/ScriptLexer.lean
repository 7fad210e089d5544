import Mathlib.Data.List.Basic
import Mathlib.Data.Nat.Digits.Defs

/-! # Tokens of a script

A lexer for texts in the lexical grammar of JavaScript, as a machine that reads one character
after the other. Texts that are put together from fixed parts and from names, comments and
literals have the tokens of their parts, if no part runs into the next. -/
namespace ScriptLexer

def numberTail (before : Char) : List Char → Bool
  | [] => true
  | c :: cs =>
    (c.isDigit || c == '.' || c == 'e' || ((c == '+' || c == '-') && before == 'e')) &&
      numberTail c cs

def numberShape : List Char → Bool
  | [] => false
  | c :: cs => c.isDigit && numberTail c cs

/-- Which characters may start a name and which may continue it; `numeral` are the texts of
numbers, as a number is converted to a text. -/
structure Alphabet where
  start : Char → Bool
  continues : Char → Bool
  numeral : List Char → Bool
  start_continues : ∀ c, start c = true → continues c = true
  start_ascii : ∀ c, c.toNat < 128 → start c = (c.isAlpha || c == '$' || c == '_')
  continues_ascii : ∀ c, c.toNat < 128 → continues c = (c.isAlphanum || c == '$' || c == '_')
  numeral_shape : ∀ cs, numeral cs = true → numberShape cs = true
  numeral_natural : ∀ n < 2 ^ 53, numeral (toString n).toList = true

inductive Token where
  | word (cs : List Char)
  | number (cs : List Char)
  | mark (c : Char)
  | text (quote : Char) (cs : List Char)
  | comment (cs : List Char)
  | pattern (cs : List Char)
  deriving DecidableEq

/-- What the next character of a text belongs to: after an escaped carriage return it may be a
line feed, after `\0` it is no digit, and `\x` and `\u` have hexadecimal digits behind them. -/
inductive Escape where
  | plain
  | backslash
  | carriageReturn
  | zero
  | digits (left : ℕ)
  | unicode
  | codePoint (value : Option ℕ)
  deriving DecidableEq

def hexDigit? (c : Char) : Option ℕ :=
  if c.isDigit then some (c.toNat - '0'.toNat)
  else if 'a' ≤ c ∧ c ≤ 'f' then some (c.toNat - 'a'.toNat + 10)
  else if 'A' ≤ c ∧ c ≤ 'F' then some (c.toNat - 'A'.toNat + 10)
  else none

def nextEscape (quote : Char) (e : Escape) (c : Char) : Option Escape :=
  let plain : Option Escape :=
    if c = quote ∨ c = '\n' ∨ c = '\r' then none
    else some (if c = '\\' then .backslash else .plain)
  match e with
  | .plain => plain
  | .backslash =>
    if c = '\r' then some .carriageReturn
    else if c = '0' then some .zero
    else if c.isDigit then none
    else if c = 'x' then some (.digits 2)
    else if c = 'u' then some .unicode
    else some .plain
  | .carriageReturn => if c = '\n' then some .plain else plain
  | .zero => if c.isDigit then none else plain
  | .digits left => (hexDigit? c).map (fun _ => if left ≤ 1 then .plain else .digits (left - 1))
  | .unicode =>
    if c = '\x7b' then some (.codePoint none)
    else (hexDigit? c).map (fun _ => .digits 3)
  | .codePoint value =>
    if c = '\x7d' then value.map (fun _ => .plain)
    else (hexDigit? c).bind (fun d =>
      if value.getD 0 * 16 + d ≤ 0x10ffff then some (.codePoint (some (value.getD 0 * 16 + d)))
      else none)

def Escape.closed : Escape → Bool
  | .plain | .carriageReturn | .zero => true
  | _ => false

inductive Mode where
  | blank
  | word (cs : List Char)
  | number (cs : List Char)
  | slash
  | line (cs : List Char)
  | block (cs : List Char)
  | text (quote : Char) (cs : List Char) (e : Escape)
  | pattern (cs : List Char) (escaped : Bool)
  | broken
  deriving DecidableEq

/-- `operand` tells that a slash would be a division. -/
structure State where
  mode : Mode
  operand : Bool
  deriving DecidableEq

section Machine

variable (a : Alphabet)

def opening (operand : Bool) (c : Char) : State × List Token :=
  if c.isWhitespace then (⟨.blank, operand⟩, [])
  else if a.start c then (⟨.word [c], operand⟩, [])
  else if c.isDigit then (⟨.number [c], operand⟩, [])
  else if c = '/' then (⟨.slash, operand⟩, [])
  else if c = '"' ∨ c = '\'' then (⟨.text c [] .plain, operand⟩, [])
  else (⟨.blank, c == ')' || c == ']' || c == '}'⟩, [.mark c])

def step (s : State) (c : Char) : State × List Token :=
  match s.mode with
  | .blank => opening a s.operand c
  | .word cs =>
    if a.continues c then (⟨.word (cs ++ [c]), s.operand⟩, [])
    else ((opening a true c).1, .word cs :: (opening a true c).2)
  | .number cs =>
    if a.continues c || c == '.' || ((c == '+' || c == '-') && cs.getLast? == some 'e') then
      (⟨.number (cs ++ [c]), s.operand⟩, [])
    else ((opening a true c).1, .number cs :: (opening a true c).2)
  | .slash =>
    if c = '/' then (⟨.line [], s.operand⟩, [])
    else if c = '*' then (⟨.block [], s.operand⟩, [])
    else if s.operand then ((opening a false c).1, .mark '/' :: (opening a false c).2)
    else (⟨.pattern [c] (c == '\\'), s.operand⟩, [])
  | .line cs =>
    if c = '\n' then (⟨.blank, s.operand⟩, [.comment cs]) else (⟨.line (cs ++ [c]), s.operand⟩, [])
  | .block cs =>
    if c = '/' ∧ cs.getLast? = some '*' then (⟨.blank, s.operand⟩, [.comment cs.dropLast])
    else (⟨.block (cs ++ [c]), s.operand⟩, [])
  | .text quote cs e =>
    match nextEscape quote e c with
    | some e' => (⟨.text quote (cs ++ [c]) e', s.operand⟩, [])
    | none =>
      if c = quote ∧ e.closed = true then (⟨.blank, true⟩, [.text quote cs])
      else (⟨.broken, s.operand⟩, [])
  | .pattern cs escaped =>
    if escaped then (⟨.pattern (cs ++ [c]) false, s.operand⟩, [])
    else if c = '/' then (⟨.blank, true⟩, [.pattern cs])
    else if c = '\n' then (⟨.broken, s.operand⟩, [])
    else (⟨.pattern (cs ++ [c]) (c == '\\'), s.operand⟩, [])
  | .broken => (s, [])

def run (s : State) : List Char → State × List Token
  | [] => (s, [])
  | c :: cs => ((run (step a s c).1 cs).1, (step a s c).2 ++ (run (step a s c).1 cs).2)

def lex (s : String) : Option (List Token) :=
  let r := run a ⟨.blank, false⟩ s.toList
  match r.1.mode with
  | .blank => some r.2
  | .word cs => some (r.2 ++ [.word cs])
  | .number cs => some (r.2 ++ [.number cs])
  | .slash => some (r.2 ++ [.mark '/'])
  | .line cs => some (r.2 ++ [.comment cs])
  | _ => none

variable {a}

theorem run_append (cs ds : List Char) : ∀ s : State, run a s (cs ++ ds) =
    ((run a (run a s cs).1 ds).1, (run a s cs).2 ++ (run a (run a s cs).1 ds).2) := by
  induction cs with
  | nil => exact fun s => rfl
  | cons c cs ih =>
    intro s
    rw [List.cons_append, run, ih, run, List.append_assoc]

def Reads (a : Alphabet) (operand : Bool) (cs : List Char) (tokens : List Token)
    (operand' : Bool) : Prop :=
  run a ⟨.blank, operand⟩ cs = (⟨.blank, operand'⟩, tokens)

theorem Reads.append {o o' o'' : Bool} {cs ds : List Char} {ts us : List Token}
    (h : Reads a o cs ts o') (h' : Reads a o' ds us o'') : Reads a o (cs ++ ds) (ts ++ us) o'' := by
  rw [Reads, run_append, h, h']

theorem lex_of_reads {s : String} {ts : List Token} {o : Bool}
    (h : Reads a false s.toList ts o) : lex a s = some ts := by
  rw [lex, h]

end Machine

def Identifier (a : Alphabet) (s : String) : Prop :=
  ∃ c cs, s.toList = c :: cs ∧ a.start c = true ∧ ∀ d ∈ cs, a.continues d = true

def Continued (a : Alphabet) (s : String) : Prop := ∀ d ∈ s.toList, a.continues d = true

def PropertyName (a : Alphabet) (s : String) : Prop :=
  Identifier a s ∨ a.numeral s.toList = true

def nameToken (s : String) : Token :=
  if s.toList.head?.any Char.isDigit then .number s.toList else .word s.toList

def Delimits (a : Alphabet) (c : Char) : Prop :=
  a.continues c = false ∧ c ≠ '.' ∧ c ≠ '+' ∧ c ≠ '-'

section Names

variable {a : Alphabet}

theorem identifier_append {s t : String} (hs : s ≠ "") :
    Identifier a (s ++ t) ↔ Identifier a s ∧ Continued a t := by
  cases hl : s.toList with
  | nil => exact absurd (String.toList_inj.mp hl) hs
  | cons c cs =>
    rw [Identifier, Identifier, String.toList_append, hl]
    constructor
    · rintro ⟨d, ds, he, hd, hds⟩
      obtain ⟨rfl, rfl⟩ := List.cons.inj he
      exact ⟨⟨c, cs, rfl, hd, fun x hx => hds x (List.mem_append_left _ hx)⟩,
        fun x hx => hds x (List.mem_append_right _ hx)⟩
    · rintro ⟨⟨d, ds, he, hd, hds⟩, ht⟩
      obtain ⟨rfl, rfl⟩ := List.cons.inj he
      refine ⟨c, cs ++ t.toList, rfl, hd, ?_⟩
      intro x hx
      rcases List.mem_append.mp hx with hx | hx
      · exact hds x hx
      · exact ht x hx

theorem not_whitespace_of_continues {c : Char} (h : a.continues c = true) :
    c.isWhitespace = false := by
  rw [Bool.eq_false_iff]
  intro hw
  have hcases : c = ' ' ∨ c = '\t' ∨ c = '\r' ∨ c = '\n' := by
    simpa [Char.isWhitespace, or_assoc] using hw
  rcases hcases with rfl | rfl | rfl | rfl <;> rw [a.continues_ascii _ (by decide)] at h <;>
    exact absurd h (by decide)

theorem start_not_digit {c : Char} (h : a.start c = true) : c.isDigit = false := by
  rw [Bool.eq_false_iff]
  intro hd
  have hrange := Char.isDigit_iff_toNat.mp hd
  have h9 : '9'.toNat = 57 := rfl
  rw [a.start_ascii c (by omega)] at h
  have hcases : c.isAlpha = true ∨ c = '$' ∨ c = '_' := by simpa [or_assoc] using h
  rcases hcases with halpha | rfl | rfl
  · have hbounds : 65 ≤ c.toNat := by
      have hletter : c.isAlpha = (decide ('A'.val ≤ c.val ∧ c.val ≤ 'Z'.val) ||
          (decide ('a'.val ≤ c.val) && decide (c.val ≤ 'z'.val))) := rfl
      simp only [hletter, Bool.or_eq_true, Bool.and_eq_true, decide_eq_true_eq,
        UInt32.le_iff_toNat_le] at halpha
      have hA : 'A'.val.toNat = 65 := rfl
      have ha : 'a'.val.toNat = 97 := rfl
      have hc : c.toNat = c.val.toNat := rfl
      omega
    omega
  · exact absurd hd (by decide)
  · exact absurd hd (by decide)

theorem run_word {w : List Char} {o : Bool} {cs : List Char}
    (h : ∀ d ∈ cs, a.continues d = true) (ds : List Char) :
    run a ⟨.word w, o⟩ (cs ++ ds) = run a ⟨.word (w ++ cs), o⟩ ds := by
  induction cs generalizing w with
  | nil => rw [List.nil_append, List.append_nil]
  | cons c cs ih =>
    have hstep : step a ⟨.word w, o⟩ c = (⟨.word (w ++ [c]), o⟩, []) := by
      simp [step, h c List.mem_cons_self]
    rw [List.cons_append, run, hstep, ih (fun d hd => h d (List.mem_cons_of_mem _ hd)),
      List.append_assoc, List.singleton_append, List.nil_append]

theorem reads_word {s : String} (hs : Identifier a s) {o o' : Bool} {c : Char} {cs : List Char}
    {ts : List Token} (hc : Delimits a c) (h : Reads a true (c :: cs) ts o') :
    Reads a o (s.toList ++ c :: cs) (.word s.toList :: ts) o' := by
  obtain ⟨d, ds, hs, hd, hds⟩ := hs
  have hopen : step a ⟨.blank, o⟩ d = (⟨.word [d], o⟩, []) := by
    simp [step, opening, not_whitespace_of_continues (a.start_continues d hd), hd]
  have hclose : step a ⟨.word (d :: ds), o⟩ c =
      ((step a ⟨.blank, true⟩ c).1, .word (d :: ds) :: (step a ⟨.blank, true⟩ c).2) := by
    simp [step, hc.1]
  rw [Reads, run] at h
  rw [Reads, hs, List.cons_append, run, hopen, run_word hds, List.singleton_append, run, hclose]
  obtain ⟨h1, h2⟩ := Prod.mk.inj h
  simp only [List.nil_append, List.cons_append, h1, h2]

theorem run_number {w : List Char} {b : Char} {o : Bool} {cs : List Char}
    (h : numberTail b cs = true) (ds : List Char) :
    run a ⟨.number (w ++ [b]), o⟩ (cs ++ ds) = run a ⟨.number (w ++ b :: cs), o⟩ ds := by
  induction cs generalizing w b with
  | nil => rfl
  | cons c cs ih =>
    rw [numberTail, Bool.and_eq_true] at h
    have hgoes : (a.continues c || c == '.' ||
        ((c == '+' || c == '-') && (w ++ [b]).getLast? == some 'e')) = true := by
      rw [List.getLast?_concat]
      have hcases : c.isDigit = true ∨ c = '.' ∨ c = 'e' ∨ (c = '+' ∨ c = '-') ∧ b = 'e' := by
        simpa [or_assoc] using h.1
      rcases hcases with hd | rfl | rfl | ⟨rfl | rfl, rfl⟩
      · have hrange := Char.isDigit_iff_toNat.mp hd
        have h9 : '9'.toNat = 57 := rfl
        rw [a.continues_ascii c (by omega)]
        simp [Char.isAlphanum, hd]
      · simp
      · rw [a.continues_ascii _ (by decide)]
        rfl
      · simp
      · simp
    have hstep : step a ⟨.number (w ++ [b]), o⟩ c = (⟨.number (w ++ [b] ++ [c]), o⟩, []) := by
      rw [step]
      dsimp only
      rw [if_pos hgoes]
    rw [List.cons_append, run, hstep, ih h.2]
    simp

theorem reads_number {s : String} (hs : a.numeral s.toList = true) {o o' : Bool} {c : Char}
    {cs : List Char} {ts : List Token} (hc : Delimits a c) (h : Reads a true (c :: cs) ts o') :
    Reads a o (s.toList ++ c :: cs) (.number s.toList :: ts) o' := by
  have hshape := a.numeral_shape _ hs
  cases hl : s.toList with
  | nil =>
    rw [hl] at hshape
    cases hshape
  | cons d ds =>
    rw [hl, numberShape, Bool.and_eq_true] at hshape
    have hstart : a.start d = false := by
      rw [Bool.eq_false_iff]
      intro hd
      rw [start_not_digit hd] at hshape
      cases hshape.1
    have hspace : d.isWhitespace = false := by
      have hrange := Char.isDigit_iff_toNat.mp hshape.1
      have h9 : '9'.toNat = 57 := rfl
      refine not_whitespace_of_continues (a := a) ?_
      rw [a.continues_ascii d (by omega)]
      simp [Char.isAlphanum, hshape.1]
    have hopen : step a ⟨.blank, o⟩ d = (⟨.number ([] ++ [d]), o⟩, []) := by
      simp [step, opening, hspace, hstart, hshape.1]
    have hclose : step a ⟨.number ([] ++ d :: ds), o⟩ c =
        ((step a ⟨.blank, true⟩ c).1, .number (d :: ds) :: (step a ⟨.blank, true⟩ c).2) := by
      simp [step, hc.1, hc.2.1, hc.2.2.1, hc.2.2.2]
    rw [Reads, run] at h
    rw [Reads, List.cons_append, run, hopen, run_number hshape.2, run, hclose]
    obtain ⟨h1, h2⟩ := Prod.mk.inj h
    simp only [List.nil_append, List.cons_append, h1, h2]

theorem reads_name {s : String} (hs : PropertyName a s) {o o' : Bool} {c : Char} {cs : List Char}
    {ts : List Token} (hc : Delimits a c) (h : Reads a true (c :: cs) ts o') :
    Reads a o (s.toList ++ c :: cs) (nameToken s :: ts) o' := by
  rcases hs with hs | hs
  · have hname : nameToken s = .word s.toList := by
      obtain ⟨d, ds, hl, hd, _⟩ := hs
      simp [nameToken, hl, start_not_digit hd]
    rw [hname]
    exact reads_word hs hc h
  · have hname : nameToken s = .number s.toList := by
      have hshape := a.numeral_shape _ hs
      cases hl : s.toList with
      | nil =>
        rw [hl] at hshape
        cases hshape
      | cons d ds =>
        rw [hl, numberShape, Bool.and_eq_true] at hshape
        simp [nameToken, hl, hshape.1]
    rw [hname]
    exact reads_number hs hc h

end Names

def escapes (quote : Char) : Escape → List Char → Option Escape
  | e, [] => some e
  | e, c :: cs => (nextEscape quote e c).bind (fun e' => escapes quote e' cs)

/-- The text does not end the literal that it stands in, nor does it keep it from ending, and its
escape sequences are legal. -/
def Inside (quote : Char) (s : String) : Prop :=
  (escapes quote .plain s.toList).any Escape.closed = true

instance (quote : Char) (s : String) : Decidable (Inside quote s) :=
  inferInstanceAs (Decidable (_ = true))

def Plain (s : String) : Prop :=
  ∀ c ∈ s.toList, c ≠ '"' ∧ c ≠ '\'' ∧ c ≠ '\\' ∧ c ≠ '\n' ∧ c ≠ '\r'

instance (s : String) : Decidable (Plain s) := List.decidableBAll _ s.toList

def Commentable (s : String) : Prop := ¬ ['*', '/'] <:+: s.toList

instance (s : String) : Decidable (Commentable s) := inferInstanceAs (Decidable (¬ _))

section Literals

variable {a : Alphabet}

theorem inside_of_plain {quote : Char} (hq : quote = '"' ∨ quote = '\'') {s : String}
    (h : Plain s) : Inside quote s := by
  have hescapes : ∀ cs : List Char,
      (∀ c ∈ cs, c ≠ '"' ∧ c ≠ '\'' ∧ c ≠ '\\' ∧ c ≠ '\n' ∧ c ≠ '\r') →
        escapes quote .plain cs = some .plain := by
    intro cs
    induction cs with
    | nil => exact fun _ => rfl
    | cons c cs ih =>
      intro hcs
      have hnext : nextEscape quote .plain c = some .plain := by
        obtain ⟨hdouble, hsingle, hback, hline, hreturn⟩ := hcs c List.mem_cons_self
        rcases hq with rfl | rfl <;> simp [nextEscape, hdouble, hsingle, hback, hline, hreturn]
      rw [escapes, hnext, Option.bind_some]
      exact ih (fun d hd => hcs d (List.mem_cons_of_mem _ hd))
  rw [Inside, hescapes _ h]
  rfl

theorem Plain.append {s t : String} (hs : Plain s) (ht : Plain t) : Plain (s ++ t) := by
  intro c hc
  rw [String.toList_append] at hc
  rcases List.mem_append.mp hc with hc | hc
  · exact hs c hc
  · exact ht c hc

theorem plain_of_ascii {s : String} (h : ∀ c ∈ s.toList, a.continues c = true) : Plain s := by
  intro c hc
  have hcontinues := h c hc
  refine ⟨?_, ?_, ?_, ?_, ?_⟩ <;> rintro rfl <;>
    rw [a.continues_ascii _ (by decide)] at hcontinues <;>
    exact absurd hcontinues (by decide)

theorem numberTail_mem {b : Char} {cs : List Char} (h : numberTail b cs = true) :
    ∀ c ∈ cs, c.isDigit = true ∨ c = '.' ∨ c = 'e' ∨ c = '+' ∨ c = '-' := by
  induction cs generalizing b with
  | nil => exact fun c hc => nomatch hc
  | cons d ds ih =>
    rw [numberTail, Bool.and_eq_true] at h
    intro c hc
    rcases List.mem_cons.mp hc with rfl | hc
    · have hcases := h.1
      simp only [Bool.or_eq_true, Bool.and_eq_true, beq_iff_eq, or_assoc] at hcases
      rcases hcases with hd | hpoint | he | ⟨hsign, _⟩
      · exact Or.inl hd
      · exact Or.inr (Or.inl hpoint)
      · exact Or.inr (Or.inr (Or.inl he))
      · exact Or.inr (Or.inr (Or.inr hsign))
    · exact ih h.2 c hc

theorem plain_of_propertyName {s : String} (h : PropertyName a s) : Plain s := by
  rcases h with ⟨c, cs, hl, hstart, hcs⟩ | h
  · refine plain_of_ascii (a := a) ?_
    rw [hl]
    intro d hd
    rcases List.mem_cons.mp hd with rfl | hd
    · exact a.start_continues _ hstart
    · exact hcs d hd
  · have hshape := a.numeral_shape _ h
    intro c hc
    cases hl : s.toList with
    | nil =>
      rw [hl] at hc
      cases hc
    | cons d ds =>
      rw [hl, numberShape, Bool.and_eq_true] at hshape
      have hcases : c.isDigit = true ∨ c = '.' ∨ c = 'e' ∨ c = '+' ∨ c = '-' := by
        rcases List.mem_cons.mp (hl ▸ hc) with rfl | hc
        · exact Or.inl hshape.1
        · exact numberTail_mem hshape.2 c hc
      refine ⟨?_, ?_, ?_, ?_, ?_⟩ <;> rintro rfl <;> exact absurd hcases (by decide)

theorem run_text {quote : Char} {w cs : List Char} {e e' : Escape} {o : Bool}
    (h : escapes quote e cs = some e') (ds : List Char) :
    run a ⟨.text quote w e, o⟩ (cs ++ ds) = run a ⟨.text quote (w ++ cs) e', o⟩ ds := by
  induction cs generalizing w e with
  | nil =>
    rw [List.nil_append, List.append_nil, Option.some.inj h]
  | cons c cs ih =>
    obtain ⟨e₁, hc, h⟩ := Option.bind_eq_some_iff.mp h
    have hstep : step a ⟨.text quote w e, o⟩ c = (⟨.text quote (w ++ [c]) e₁, o⟩, []) := by
      rw [step]
      dsimp only
      rw [hc]
    rw [List.cons_append, run, hstep, ih h, List.append_assoc, List.singleton_append,
      List.nil_append]

theorem reads_text {quote : Char} (hq : quote = '"' ∨ quote = '\'') {s : String}
    (h : Inside quote s) (o : Bool) :
    Reads a o (quote :: (s.toList ++ [quote])) [.text quote s.toList] true := by
  obtain ⟨e, he, hclosed⟩ := (Option.any_eq_true _ _).mp h
  have hopen : step a ⟨.blank, o⟩ quote = (⟨.text quote [] .plain, o⟩, []) := by
    rcases hq with rfl | rfl <;> simp [step, opening, a.start_ascii, Char.isWhitespace]
  have hend : nextEscape quote e quote = none := by
    rcases hq with rfl | rfl <;> cases e <;> first | decide | cases hclosed
  have hclose : step a ⟨.text quote s.toList e, o⟩ quote =
      (⟨.blank, true⟩, [.text quote s.toList]) := by
    rw [step]
    dsimp only
    rw [hend]
    simp [hclosed]
  rw [Reads, run, hopen, run_text he, List.nil_append, run, hclose]
  rfl

theorem run_block {w cs : List Char} {o : Bool} (h : ¬ ['*', '/'] <:+: w ++ cs) (ds : List Char) :
    run a ⟨.block w, o⟩ (cs ++ ds) = run a ⟨.block (w ++ cs), o⟩ ds := by
  induction cs generalizing w with
  | nil => rw [List.nil_append, List.append_nil]
  | cons c cs ih =>
    have hgoes : ¬ (c = '/' ∧ w.getLast? = some '*') := by
      rintro ⟨rfl, hlast⟩
      obtain ⟨v, rfl⟩ := List.getLast?_eq_some_iff.mp hlast
      exact h ⟨v, cs, by simp⟩
    have hstep : step a ⟨.block w, o⟩ c = (⟨.block (w ++ [c]), o⟩, []) := by
      rw [step]
      dsimp only
      rw [if_neg hgoes]
    rw [List.cons_append, run, hstep, ih (by simpa using h), List.append_assoc,
      List.singleton_append, List.nil_append]

theorem reads_comment {s : String} (h : Commentable s) (o : Bool) :
    Reads a o ("/*".toList ++ (s.toList ++ "*/".toList)) [.comment s.toList] o := by
  have hslash : step a ⟨.blank, o⟩ '/' = (⟨.slash, o⟩, []) := by
    simp [step, opening, a.start_ascii, Char.isWhitespace]
  have hopen : step a ⟨.slash, o⟩ '*' = (⟨.block [], o⟩, []) := rfl
  have hstar : step a ⟨.block s.toList, o⟩ '*' = (⟨.block (s.toList ++ ['*']), o⟩, []) := rfl
  have hclose : step a ⟨.block (s.toList ++ ['*']), o⟩ '/' =
      (⟨.blank, o⟩, [.comment s.toList]) := by
    simp [step]
  have hchars : "/*".toList ++ (s.toList ++ "*/".toList) =
      '/' :: '*' :: (s.toList ++ ['*', '/']) := rfl
  rw [Reads, hchars, run, hslash, run, hopen, run_block (by simpa [Commentable] using h),
    List.nil_append, run, hstar, run, hclose]
  rfl

end Literals

def escaped (c : Char) : List Char :=
  if c = 'n' then ['\n'] else if c = 't' then ['\t'] else if c = 'r' then ['\r']
  else if c = 'b' then ['\x08'] else if c = 'v' then ['\x0b'] else if c = 'f' then ['\x0c']
  else if c = '\n' ∨ c.toNat = 0x2028 ∨ c.toNat = 0x2029 then []
  else [c]

/-- What a character adds to the value, given what it belongs to and what comes next; `code` is
the number that the digits before it make. A surrogate is no character here. -/
def written (e e' : Escape) (code : ℕ) (c : Char) : List Char :=
  match e, e' with
  | .backslash, .zero => ['\x00']
  | .backslash, .plain => escaped c
  | .backslash, _ => []
  | .digits _, .plain => [Char.ofNat (code * 16 + (hexDigit? c).getD 0)]
  | .codePoint (some value), .plain => [Char.ofNat value]
  | .plain, .plain => [c]
  | .carriageReturn, .plain => if c = '\n' then [] else [c]
  | .zero, .plain => [c]
  | _, _ => []

def nextCode (e : Escape) (code : ℕ) (c : Char) : ℕ :=
  match e with
  | .digits _ => code * 16 + (hexDigit? c).getD 0
  | .unicode => (hexDigit? c).getD 0
  | _ => 0

def cook (quote : Char) : Escape → ℕ → List Char → Option (List Char)
  | e, _, [] => if e.closed then some [] else none
  | e, code, c :: cs =>
    (nextEscape quote e c).bind (fun e' =>
      (cook quote e' (nextCode e code c) cs).map (written e e' code c ++ ·))

def literalValue (quote : Char) (s : String) : Option String :=
  (cook quote .plain 0 s.toList).map String.ofList

section Values

theorem written_length (e e' : Escape) (code : ℕ) (c : Char) :
    (written e e' code c).length ≤ 1 := by
  have hescaped : (escaped c).length ≤ 1 := by
    unfold escaped
    split_ifs <;> simp
  unfold written
  split
  case h_2 => exact hescaped
  case h_7 => split <;> simp
  all_goals simp

/-- Every character stands for one at most. -/
theorem cook_length {quote : Char} {cs ds : List Char} : ∀ {e : Escape} {code : ℕ},
    cook quote e code cs = some ds → ds.length ≤ cs.length := by
  induction cs generalizing ds with
  | nil =>
    intro e code h
    rw [cook] at h
    split at h
    · cases h
      rfl
    · cases h
  | cons c cs ih =>
    intro e code h
    obtain ⟨e', _, h⟩ := Option.bind_eq_some_iff.mp h
    obtain ⟨es, hes, rfl⟩ := Option.map_eq_some_iff.mp h
    have hle := ih hes
    have hwritten := written_length e e' code c
    rw [List.length_append, List.length_cons]
    omega

theorem nextEscape_plain {quote c : Char} {e : Escape} (h : nextEscape quote .plain c = some e) :
    c ≠ quote ∧ c ≠ '\n' ∧ c ≠ '\r' ∧ e = if c = '\\' then .backslash else .plain := by
  simp only [nextEscape] at h
  split at h
  · cases h
  · rename_i hc
    push Not at hc
    exact ⟨hc.1, hc.2.1, hc.2.2, (Option.some.inj h).symm⟩

/-- A text is its own value just when nothing in it has a meaning in the literal. -/
theorem cook_eq_self {quote : Char} {cs ds : List Char} : cook quote .plain 0 cs = some ds →
    (ds.length < cs.length ∧ '\\' ∈ cs) ∨
      ds = cs ∧ ∀ c ∈ cs, c ≠ quote ∧ c ≠ '\\' ∧ c ≠ '\n' ∧ c ≠ '\r' := by
  induction cs generalizing ds with
  | nil =>
    intro h
    cases h
    exact Or.inr ⟨rfl, fun c hc => nomatch hc⟩
  | cons c cs ih =>
    intro h
    obtain ⟨e, he, h⟩ := Option.bind_eq_some_iff.mp h
    obtain ⟨es, hes, rfl⟩ := Option.map_eq_some_iff.mp h
    obtain ⟨hquote, hline, hreturn, rfl⟩ := nextEscape_plain he
    by_cases hc : c = '\\'
    · have hle := cook_length hes
      rw [if_pos hc]
      have hnone : written .plain .backslash 0 c = [] := rfl
      rw [hnone, List.nil_append, List.length_cons]
      exact Or.inl ⟨by omega, hc ▸ List.mem_cons_self⟩
    · rw [if_neg hc] at hes ⊢
      have hone : written .plain .plain 0 c = [c] := rfl
      rw [hone, List.singleton_append, List.length_cons, List.length_cons]
      rcases ih hes with ⟨hshort, hmem⟩ | ⟨rfl, hall⟩
      · exact Or.inl ⟨by omega, List.mem_cons_of_mem _ hmem⟩
      · refine Or.inr ⟨rfl, ?_⟩
        intro d hd
        rcases List.mem_cons.mp hd with rfl | hd
        · exact ⟨hquote, hc, hline, hreturn⟩
        · exact hall d hd

theorem cook_of_plain {quote : Char} {cs : List Char}
    (h : ∀ c ∈ cs, c ≠ quote ∧ c ≠ '\\' ∧ c ≠ '\n' ∧ c ≠ '\r') :
    cook quote .plain 0 cs = some cs := by
  induction cs with
  | nil => rfl
  | cons c cs ih =>
    obtain ⟨hquote, hback, hline, hreturn⟩ := h c List.mem_cons_self
    have hnext : nextEscape quote .plain c = some .plain := by
      simp [nextEscape, hquote, hback, hline, hreturn]
    have hrest := ih (fun d hd => h d (List.mem_cons_of_mem _ hd))
    have hcode : nextCode .plain 0 c = 0 := rfl
    rw [cook, hnext, Option.bind_some, hcode, hrest]
    rfl

end Values

def asciiAlphabet : Alphabet where
  start c := c.isAlpha || c == '$' || c == '_'
  continues c := c.isAlphanum || c == '$' || c == '_'
  numeral cs := cs.all Char.isDigit && cs == (toString (Nat.ofDigitChars 10 cs 0)).toList
  start_continues c h := by
    simp only [Char.isAlphanum, Bool.or_eq_true] at h ⊢
    rcases h with (h | h) | h
    · exact Or.inl (Or.inl (Or.inl h))
    · exact Or.inl (Or.inr h)
    · exact Or.inr h
  start_ascii _ _ := rfl
  continues_ascii _ _ := rfl
  numeral_shape cs h := by
    rw [Bool.and_eq_true, beq_iff_eq] at h
    have htail : ∀ (ds : List Char) (b : Char), ds.all Char.isDigit = true →
        numberTail b ds = true := by
      intro ds
      induction ds with
      | nil => exact fun _ _ => rfl
      | cons d ds ih =>
        intro b hall
        rw [List.all_cons, Bool.and_eq_true] at hall
        simp [numberTail, hall.1, ih d hall.2]
    cases cs with
    | nil => exact absurd h.2 (by decide)
    | cons c cs =>
      obtain ⟨hall, _⟩ := h
      rw [List.all_cons, Bool.and_eq_true] at hall
      rw [numberShape, hall.1, htail cs c hall.2]
      rfl
  numeral_natural n _ := by
    have hdigits : ((toString n).toList).all Char.isDigit = true := by
      rw [List.all_eq_true]
      intro c hc
      have hc : c ∈ Nat.toDigits 10 n := by rwa [← Nat.toList_repr]
      exact Nat.isDigit_of_mem_toDigits (by decide) (by decide) hc
    rw [hdigits]
    simp

def isAscii (s : String) : Bool := s.toList.all (fun c => decide (c.toNat < 128))

inductive Piece where
  | fixed (s : String)
  | name (s : String)
  | comment (s : String)
  | text (quote : Char) (s : String)

def Piece.print : Piece → String
  | .fixed s => s
  | .name s => s
  | .comment s => "/*" ++ s ++ "*/"
  | .text quote s => String.singleton quote ++ s ++ String.singleton quote

def printAll (ps : List Piece) : String := String.join (ps.map Piece.print)

def fixedTokens (s : String) : List Token := (run asciiAlphabet ⟨.blank, false⟩ s.toList).2

/-- The tokens of the template, with each name, comment and literal as one token. -/
def Piece.tokens : Piece → List Token
  | .fixed s => fixedTokens s
  | .name s => [nameToken s]
  | .comment s => [.comment s.toList]
  | .text quote s => [.text quote s.toList]

def Complete (s : String) : Bool :=
  isAscii s && (run asciiAlphabet ⟨.blank, false⟩ s.toList).1.mode == .blank &&
    (run asciiAlphabet ⟨.blank, true⟩ s.toList).1.mode == .blank &&
    (run asciiAlphabet ⟨.blank, true⟩ s.toList).2 == fixedTokens s

def startsApart (s : String) : Bool :=
  match s.toList with
  | [] => false
  | c :: _ => !(asciiAlphabet.continues c || c == '.' || c == '+' || c == '-')

/-- No part runs into the next, and none ends what it stands in. -/
inductive Readable (a : Alphabet) : List Piece → Prop where
  | nil : Readable a []
  | fixed {s ps} : Complete s = true → Readable a ps → Readable a (.fixed s :: ps)
  | name {n s ps} : PropertyName a n → Complete s = true → startsApart s = true →
      Readable a ps → Readable a (.name n :: .fixed s :: ps)
  | comment {s ps} : Commentable s → Readable a ps → Readable a (.comment s :: ps)
  | text {quote s ps} : (quote = '"' ∨ quote = '\'') → Inside quote s → Readable a ps →
      Readable a (.text quote s :: ps)

section Templates

variable {a : Alphabet}

@[simp]
theorem printAll_nil : printAll [] = "" := rfl

@[simp]
theorem printAll_cons (p : Piece) (ps : List Piece) :
    printAll (p :: ps) = p.print ++ printAll ps := by
  rw [printAll, List.map_cons, String.join_cons, printAll]

@[simp]
theorem printAll_append (ps qs : List Piece) :
    printAll (ps ++ qs) = printAll ps ++ printAll qs := by
  rw [printAll, List.map_append, String.join_append, printAll, printAll]

theorem printAll_flatMap {α : Type} (f : α → List Piece) (l : List α) :
    printAll (l.flatMap f) = String.join (l.map (fun x => printAll (f x))) := by
  induction l with
  | nil => rfl
  | cons x l ih => rw [List.flatMap_cons, printAll_append, ih, List.map_cons, String.join_cons]

def interlace (sep : String) : List (List Piece) → List Piece
  | [] => []
  | [ps] => ps
  | ps :: pss => ps ++ .fixed sep :: interlace sep pss

theorem printAll_interlace (sep : String) (pss : List (List Piece)) :
    printAll (interlace sep pss) = sep.intercalate (pss.map printAll) := by
  induction pss with
  | nil => rfl
  | cons ps pss ih =>
    cases pss with
    | nil => simp [interlace]
    | cons qs pss =>
      have hstep : interlace sep (ps :: qs :: pss) =
          ps ++ .fixed sep :: interlace sep (qs :: pss) := rfl
      rw [hstep, printAll_append, printAll_cons, ih, List.map_cons, List.map_cons, List.map_cons,
        String.intercalate_cons_cons, Piece.print, String.append_assoc]

def separated (sep after : String) : List String → List Piece
  | [] => [.fixed after]
  | [n] => [.name n, .fixed after]
  | n :: ns => .name n :: .fixed sep :: separated sep after ns

theorem printAll_separated (sep after : String) (ns : List String) :
    printAll (separated sep after ns) = sep.intercalate ns ++ after := by
  induction ns with
  | nil => simp [separated, Piece.print]
  | cons n ns ih =>
    cases ns with
    | nil => simp [separated, Piece.print]
    | cons m ns =>
      have hstep : separated sep after (n :: m :: ns) =
          .name n :: .fixed sep :: separated sep after (m :: ns) := rfl
      rw [hstep, printAll_cons, printAll_cons, ih, String.intercalate_cons_cons, Piece.print,
        Piece.print, String.append_assoc, String.append_assoc]

theorem Readable.append {ps qs : List Piece} (hp : Readable a ps) (hq : Readable a qs) :
    Readable a (ps ++ qs) := by
  induction hp with
  | nil => exact hq
  | fixed hs _ ih => exact .fixed hs ih
  | name hn hs hstart _ ih => exact .name hn hs hstart ih
  | comment hs _ ih => exact .comment hs ih
  | text hquote hs _ ih => exact .text hquote hs ih

theorem Readable.flatMap {α : Type} {l : List α} {f : α → List Piece}
    (h : ∀ x ∈ l, Readable a (f x)) : Readable a (l.flatMap f) := by
  induction l with
  | nil => exact .nil
  | cons x l ih =>
    rw [List.flatMap_cons]
    exact (h x List.mem_cons_self).append (ih (fun y hy => h y (List.mem_cons_of_mem _ hy)))

theorem Readable.interlace {sep : String} (hsep : Complete sep = true) {pss : List (List Piece)}
    (h : ∀ ps ∈ pss, Readable a ps) : Readable a (interlace sep pss) := by
  induction pss with
  | nil => exact .nil
  | cons ps pss ih =>
    cases pss with
    | nil => exact h ps List.mem_cons_self
    | cons qs pss =>
      have htail : ∀ rs ∈ qs :: pss, Readable a rs := fun rs hr => h rs (List.mem_cons_of_mem _ hr)
      exact (h ps List.mem_cons_self).append (.fixed hsep (ih htail))

theorem Readable.separated {sep after : String} (hsep : Complete sep = true)
    (hapart : startsApart sep = true) (hafter : Complete after = true)
    (hapart' : startsApart after = true) {ns : List String} (h : ∀ n ∈ ns, PropertyName a n) :
    Readable a (separated sep after ns) := by
  induction ns with
  | nil => exact .fixed hafter .nil
  | cons n ns ih =>
    cases ns with
    | nil => exact .name (h n List.mem_cons_self) hafter hapart' .nil
    | cons m ns =>
      have htail : ∀ k ∈ m :: ns, PropertyName a k := fun k hk => h k (List.mem_cons_of_mem _ hk)
      exact .name (h n List.mem_cons_self) hsep hapart (ih htail)

theorem step_ascii (s : State) {c : Char} (hc : c.toNat < 128) :
    step a s c = step asciiAlphabet s c := by
  have hopening : ∀ o, opening a o c = opening asciiAlphabet o c := by
    intro o
    rw [opening, opening, a.start_ascii c hc]
    rfl
  have hcontinues : a.continues c = asciiAlphabet.continues c := a.continues_ascii c hc
  simp only [step, hopening, hcontinues]

theorem run_ascii {cs : List Char} (h : ∀ c ∈ cs, c.toNat < 128) (s : State) :
    run a s cs = run asciiAlphabet s cs := by
  induction cs generalizing s with
  | nil => rfl
  | cons c cs ih =>
    rw [run, run, step_ascii s (h c List.mem_cons_self),
      ih (fun d hd => h d (List.mem_cons_of_mem _ hd))]

def isContinued (s : String) : Bool := isAscii s && s.toList.all asciiAlphabet.continues

theorem continued_of_isContinued {s : String} (h : isContinued s = true) : Continued a s := by
  simp only [isContinued, isAscii, Bool.and_eq_true, List.all_eq_true, decide_eq_true_eq] at h
  exact fun c hc => (a.continues_ascii c (h.1 c hc)).trans (h.2 c hc)

def isWord (s : String) : Bool := isContinued s && s.toList.head?.any asciiAlphabet.start

theorem identifier_of_isWord {s : String} (h : isWord s = true) : Identifier a s := by
  rw [isWord, Bool.and_eq_true] at h
  cases hl : s.toList with
  | nil =>
    rw [hl] at h
    cases h.2
  | cons c cs =>
    have hcontinued := continued_of_isContinued (a := a) h.1
    simp only [isContinued, isAscii, Bool.and_eq_true, List.all_eq_true, decide_eq_true_eq] at h
    rw [hl, List.head?_cons, Option.any_some] at h
    have hc : c.toNat < 128 := h.1.1 c List.mem_cons_self
    exact ⟨c, cs, hl, (a.start_ascii c hc).trans h.2,
      fun d hd => hcontinued d (hl ▸ List.mem_cons_of_mem _ hd)⟩

theorem reads_fixed {s : String} (h : Complete s = true) (o : Bool) :
    ∃ o', Reads a o s.toList (fixedTokens s) o' := by
  simp only [Complete, isAscii, Bool.and_eq_true, List.all_eq_true, decide_eq_true_eq,
    beq_iff_eq] at h
  obtain ⟨⟨⟨hascii, hfalse⟩, htrue⟩, htokens⟩ := h
  have hmode : (run asciiAlphabet ⟨.blank, o⟩ s.toList).1.mode = .blank := by
    cases o with
    | false => exact hfalse
    | true => exact htrue
  have hsame : (run asciiAlphabet ⟨.blank, o⟩ s.toList).2 = fixedTokens s := by
    cases o with
    | false => rfl
    | true => exact htokens
  refine ⟨(run asciiAlphabet ⟨.blank, o⟩ s.toList).1.operand, ?_⟩
  rw [Reads, run_ascii hascii, ← hsame]
  exact Prod.ext (congrArg (State.mk · _) hmode) rfl

theorem delimits_of_startsApart {s : String} (hs : Complete s = true)
    (h : startsApart s = true) : ∃ c cs, s.toList = c :: cs ∧ Delimits a c := by
  rw [startsApart] at h
  cases hl : s.toList with
  | nil =>
    rw [hl] at h
    cases h
  | cons c cs =>
    have hc : c.toNat < 128 := by
      simp only [Complete, isAscii, Bool.and_eq_true, List.all_eq_true, decide_eq_true_eq] at hs
      exact hs.1.1.1 c (hl ▸ List.mem_cons_self)
    rw [hl] at h
    simp only [Bool.not_eq_true', Bool.or_eq_false_iff, beq_eq_false_iff_ne] at h
    obtain ⟨⟨⟨hcontinues, hpoint⟩, hplus⟩, hminus⟩ := h
    exact ⟨c, cs, rfl, (a.continues_ascii c hc).trans hcontinues, hpoint, hplus, hminus⟩

/-- A template that is filled in has the tokens of its pieces. -/
theorem reads_pieces {ps : List Piece} (h : Readable a ps) :
    ∀ o, ∃ o', Reads a o (printAll ps).toList (ps.flatMap Piece.tokens) o' := by
  induction h with
  | nil => exact fun o => ⟨o, rfl⟩
  | fixed hs _ ih =>
    intro o
    obtain ⟨o₁, h₁⟩ := reads_fixed hs o
    obtain ⟨o₂, h₂⟩ := ih o₁
    rw [printAll_cons, String.toList_append, List.flatMap_cons]
    exact ⟨o₂, h₁.append h₂⟩
  | @name n s ps hn hs hstart _ ih =>
    intro o
    obtain ⟨c, cs, hl, hdelimits⟩ := delimits_of_startsApart (a := a) hs hstart
    obtain ⟨o₁, h₁⟩ := reads_fixed (a := a) hs true
    obtain ⟨o₂, h₂⟩ := ih o₁
    have hrest := h₁.append h₂
    rw [hl, List.cons_append] at hrest
    refine ⟨o₂, ?_⟩
    rw [printAll_cons, printAll_cons, String.toList_append, String.toList_append, List.flatMap_cons,
      List.flatMap_cons]
    have hread := reads_name hn (o := o) hdelimits hrest
    rwa [← List.cons_append, ← hl] at hread
  | comment hs _ ih =>
    intro o
    obtain ⟨o₁, h₁⟩ := ih o
    refine ⟨o₁, ?_⟩
    rw [printAll_cons, Piece.print, String.toList_append, String.toList_append,
      String.toList_append, List.flatMap_cons, List.append_assoc "/*".toList]
    exact (reads_comment hs o).append h₁
  | text hquote hs _ ih =>
    intro o
    obtain ⟨o₁, h₁⟩ := ih true
    refine ⟨o₁, ?_⟩
    rw [printAll_cons, Piece.print, String.toList_append, String.toList_append,
      String.toList_append, List.flatMap_cons]
    have hread := (reads_text (a := a) hquote hs o).append h₁
    simpa [Piece.tokens] using hread

theorem lex_pieces {ps : List Piece} (h : Readable a ps) :
    lex a (printAll ps) = some (ps.flatMap Piece.tokens) := by
  obtain ⟨o, ho⟩ := reads_pieces h false
  exact lex_of_reads ho

end Templates

end ScriptLexer
