import Mathlib.Data.List.Infix
import Mathlib.Data.List.Nodup

/-! # Patterns with wildcards

A pattern is a text with three marks: one stands for any text, one for any single character, and
one takes the meaning from the character behind it. Texts are compared up to a folding of the
characters. A pattern with no marks between two wildcards finds the texts that contain it; with
a mark, it finds a text that does not. -/
namespace LikePatterns

variable {α β : Type*}

/-- The text between wildcards is found up to the folding. -/
def Contains (fold : α → β) (k s : List α) : Prop := k.map fold <:+: s.map fold

theorem contains_iff {fold : α → β} {k s : List α} : Contains fold k s ↔
    ∃ before found rest, s = before ++ (found ++ rest) ∧ k.map fold = found.map fold := by
  constructor
  · rintro ⟨before, rest, h⟩
    rw [List.append_assoc, eq_comm, List.map_eq_append_iff] at h
    obtain ⟨before, tail, rfl, -, h⟩ := h
    obtain ⟨found, rest, rfl, hfound, -⟩ := List.map_eq_append_iff.mp h
    exact ⟨before, found, rest, rfl, hfound.symm⟩
  · rintro ⟨before, found, rest, rfl, h⟩
    refine ⟨before.map fold, rest.map fold, ?_⟩
    rw [h, List.map_append, List.map_append, List.append_assoc]

theorem Contains.length_le {fold : α → β} {k s : List α} (h : Contains fold k s) :
    k.length ≤ s.length := by
  have hlength := List.IsInfix.length_le h
  rwa [List.length_map, List.length_map] at hlength

inductive Atom (α : Type*) where
  | many
  | one
  | literal (a : α)

variable [DecidableEq β]

instance (fold : α → β) (k s : List α) : Decidable (Contains fold k s) :=
  inferInstanceAs (Decidable (_ <:+: _))

def accepts (fold : α → β) : List (Atom α) → List α → Bool
  | [], s => s.isEmpty
  | .many :: p, s => s.tails.any (accepts fold p)
  | .one :: _, [] => false
  | .one :: p, _ :: s => accepts fold p s
  | .literal _ :: _, [] => false
  | .literal a :: p, b :: s => decide (fold a = fold b) && accepts fold p s

def sample (filler : α) : List (Atom α) → List α
  | [] => []
  | .many :: p => sample filler p
  | .one :: p => filler :: sample filler p
  | .literal a :: p => a :: sample filler p

def needed : List (Atom α) → ℕ
  | [] => 0
  | .many :: p => needed p
  | .one :: p => needed p + 1
  | .literal _ :: p => needed p + 1

section Accepted

variable {fold : α → β} {p : List (Atom α)} {a : α} {k s : List α}

theorem accepts_many :
    accepts fold (.many :: p) s = true ↔ ∃ before rest, s = before ++ rest ∧
      accepts fold p rest = true := by
  rw [accepts, List.any_eq_true]
  constructor
  · rintro ⟨rest, hrest, h⟩
    obtain ⟨before, hs⟩ := (List.mem_tails rest s).mp hrest
    exact ⟨before, rest, hs.symm, h⟩
  · rintro ⟨before, rest, rfl, h⟩
    exact ⟨rest, (List.mem_tails _ _).mpr ⟨before, rfl⟩, h⟩

theorem accepts_literal : accepts fold (.literal a :: p) s = true ↔
    ∃ b rest, s = b :: rest ∧ fold a = fold b ∧ accepts fold p rest = true := by
  cases s with
  | nil => simp [accepts]
  | cons b rest => simp [accepts]

/-- By induction on the text that is looked for. -/
theorem accepts_literals : accepts fold (k.map .literal ++ p) s = true ↔
    ∃ found rest, s = found ++ rest ∧ k.map fold = found.map fold ∧
      accepts fold p rest = true := by
  induction k generalizing s with
  | nil => simp
  | cons a k ih =>
    rw [List.map_cons, List.cons_append, accepts_literal]
    constructor
    · rintro ⟨b, rest, rfl, hab, h⟩
      obtain ⟨found, rest, rfl, hfound, h⟩ := ih.mp h
      exact ⟨b :: found, rest, rfl, by rw [List.map_cons, List.map_cons, hab, hfound], h⟩
    · rintro ⟨found, rest, rfl, hfound, h⟩
      cases found with
      | nil => cases hfound
      | cons b found =>
        rw [List.map_cons, List.map_cons, List.cons.injEq] at hfound
        exact ⟨b, found ++ rest, rfl, hfound.1, ih.mpr ⟨found, rest, rfl, hfound.2, h⟩⟩

theorem accepts_between : accepts fold (.many :: (k.map .literal ++ [.many])) s = true ↔
    Contains fold k s := by
  rw [accepts_many, contains_iff]
  constructor
  · rintro ⟨before, rest, rfl, h⟩
    obtain ⟨found, rest, rfl, hfound, -⟩ := accepts_literals.mp h
    exact ⟨before, found, rest, rfl, hfound⟩
  · rintro ⟨before, found, rest, rfl, hfound⟩
    refine ⟨before, found ++ rest, rfl, accepts_literals.mpr ⟨found, rest, rfl, hfound, ?_⟩⟩
    exact accepts_many.mpr ⟨rest, [], (List.append_nil rest).symm, rfl⟩

theorem accepts_sample (fold : α → β) (filler : α) (p : List (Atom α)) :
    accepts fold p (sample filler p) = true := by
  induction p with
  | nil => rfl
  | cons a p ih =>
    cases a with
    | many => exact accepts_many.mpr ⟨[], _, rfl, ih⟩
    | one => exact ih
    | literal a => exact accepts_literal.mpr ⟨a, _, rfl, rfl, ih⟩

theorem length_sample (filler : α) (p : List (Atom α)) :
    (sample filler p).length = needed p := by
  induction p with
  | nil => rfl
  | cons a p ih =>
    cases a with
    | many => exact ih
    | one => exact congrArg (· + 1) ih
    | literal a => exact congrArg (· + 1) ih

theorem needed_le (h : accepts fold p s = true) : needed p ≤ s.length := by
  induction p generalizing s with
  | nil => exact Nat.zero_le _
  | cons a p ih =>
    cases a with
    | many =>
      obtain ⟨before, rest, rfl, hrest⟩ := accepts_many.mp h
      have hlength := ih hrest
      rw [List.length_append, needed]
      omega
    | one =>
      cases s with
      | nil => cases h
      | cons b s => exact Nat.succ_le_succ (ih h)
    | literal a =>
      obtain ⟨b, rest, rfl, -, hrest⟩ := accepts_literal.mp h
      exact Nat.succ_le_succ (ih hrest)

end Accepted

structure Marks (α : Type*) where
  many : α
  one : α
  escape : α
  distinct : [many, one, escape].Nodup

theorem Marks.many_ne_escape (marks : Marks α) : marks.many ≠ marks.escape := by
  have h := marks.distinct
  simp only [List.nodup_cons, List.mem_cons, not_or] at h
  exact h.1.2.1

def Plain (marks : Marks α) (k : List α) : Prop :=
  ∀ c ∈ k, c ≠ marks.many ∧ c ≠ marks.one ∧ c ≠ marks.escape

structure FixesMarks (fold : α → β) (marks : Marks α) : Prop where
  many : ∀ c, fold c = fold marks.many → c = marks.many
  one : ∀ c, fold c = fold marks.one → c = marks.one
  escape : ∀ c, fold c = fold marks.escape → c = marks.escape

def around (marks : Marks α) (k : List α) : List α := marks.many :: (k ++ [marks.many])

variable [DecidableEq α]

/-- The flag says that the character before was an escape; there must be one behind it. -/
def parse (marks : Marks α) : Bool → List α → Option (List (Atom α))
  | false, [] => some []
  | true, [] => none
  | true, c :: cs => (.literal c :: ·) <$> parse marks false cs
  | false, c :: cs =>
    if c = marks.escape then parse marks true cs
    else if c = marks.many then (.many :: ·) <$> parse marks false cs
    else if c = marks.one then (.one :: ·) <$> parse marks false cs
    else (.literal c :: ·) <$> parse marks false cs

instance (marks : Marks α) (k : List α) : Decidable (Plain marks k) :=
  List.decidableBAll (fun c => c ≠ marks.many ∧ c ≠ marks.one ∧ c ≠ marks.escape) k

section Parsed

variable {marks : Marks α} {fold : α → β} {filler : α} {p : List (Atom α)} {c : α} {k : List α}

theorem parse_plain_cons (h : c ≠ marks.many ∧ c ≠ marks.one ∧ c ≠ marks.escape) :
    parse marks false (c :: k) = (.literal c :: ·) <$> parse marks false k := by
  rw [parse, if_neg h.2.2, if_neg h.1, if_neg h.2.1]

theorem parse_many_cons :
    parse marks false (marks.many :: k) = (.many :: ·) <$> parse marks false k := by
  rw [parse, if_neg marks.many_ne_escape, if_pos rfl]

theorem parse_plain (h : Plain marks k) :
    parse marks false (k ++ [marks.many]) = some (k.map .literal ++ [.many]) := by
  induction k with
  | nil => exact parse_many_cons
  | cons c k ih =>
    obtain ⟨hc, hk⟩ := List.forall_mem_cons.mp h
    rw [List.cons_append, parse_plain_cons hc, ih hk]
    rfl

/-- The last wildcard makes every text a pattern, also behind an escape. -/
theorem exists_parse (marks : Marks α) (escaped : Bool) (k : List α) :
    ∃ p, parse marks escaped (k ++ [marks.many]) = some p := by
  induction k generalizing escaped with
  | nil =>
    cases escaped with
    | false => exact ⟨_, parse_many_cons⟩
    | true => exact ⟨_, rfl⟩
  | cons c k ih =>
    obtain ⟨p, hp⟩ := ih false
    cases escaped with
    | true => exact ⟨.literal c :: p, by rw [List.cons_append, parse, hp]; rfl⟩
    | false =>
      obtain ⟨q, hq⟩ := ih true
      rw [List.cons_append, parse, hp, hq]
      by_cases hescape : c = marks.escape
      · exact ⟨q, if_pos hescape⟩
      · rw [if_neg hescape]
        by_cases hmany : c = marks.many
        · exact ⟨_, if_pos hmany⟩
        · rw [if_neg hmany]
          by_cases hone : c = marks.one
          · exact ⟨_, if_pos hone⟩
          · exact ⟨_, if_neg hone⟩

/-- The text that has been read, with the escape that is not yet used. -/
def pending (marks : Marks α) (escaped : Bool) (k : List α) : List α :=
  if escaped then marks.escape :: k else k

omit [DecidableEq α] [DecidableEq β] in
theorem length_eq_of_map_eq {l m : List α} (h : l.map fold = m.map fold) :
    l.length = m.length := by
  have hlength := congrArg List.length h
  rwa [List.length_map, List.length_map] at hlength

omit [DecidableEq β] in
/-- By induction on the text: a sample is not longer than it, and a sample that folds to the same
has met no mark. -/
theorem sample_of_parse (hfold : FixesMarks fold marks) (hfiller : filler ≠ marks.one)
    (escaped : Bool) (hp : parse marks escaped (k ++ [marks.many]) = some p) :
    (sample filler p).length ≤ (pending marks escaped k).length ∧
      ((sample filler p).map fold = (pending marks escaped k).map fold →
        escaped = false ∧ Plain marks k) := by
  induction k generalizing escaped p with
  | nil =>
    cases escaped with
    | false =>
      rw [List.nil_append, parse_many_cons] at hp
      obtain rfl := Option.some.inj hp
      exact ⟨le_rfl, fun _ => ⟨rfl, fun _ hc => nomatch hc⟩⟩
    | true =>
      obtain rfl := Option.some.inj hp
      refine ⟨le_rfl, fun hsame => ?_⟩
      exact absurd (hfold.escape _ (List.cons.inj hsame).1) marks.many_ne_escape
  | cons c k ih =>
    cases escaped with
    | true =>
      rw [List.cons_append, parse, Option.map_eq_map, Option.map_eq_some_iff] at hp
      obtain ⟨q, hq, rfl⟩ := hp
      have hlength : (sample filler q).length ≤ k.length := (ih false hq).1
      refine ⟨Nat.succ_le_succ (hlength.trans (Nat.le_succ _)), fun hsame => ?_⟩
      have hlonger : (sample filler q).length + 1 = k.length + 1 + 1 := length_eq_of_map_eq hsame
      omega
    | false =>
      rw [List.cons_append, parse] at hp
      by_cases hescape : c = marks.escape
      · subst hescape
        rw [if_pos rfl] at hp
        obtain ⟨hlength, hsame⟩ := ih true hp
        exact ⟨hlength, fun h => nomatch (hsame h).1⟩
      rw [if_neg hescape] at hp
      by_cases hmany : c = marks.many
      · rw [if_pos hmany, Option.map_eq_map, Option.map_eq_some_iff] at hp
        obtain ⟨q, hq, rfl⟩ := hp
        have hlength : (sample filler q).length ≤ k.length := (ih false hq).1
        refine ⟨hlength.trans (Nat.le_succ _), fun hsame => ?_⟩
        have hlonger : (sample filler q).length = k.length + 1 := length_eq_of_map_eq hsame
        omega
      rw [if_neg hmany] at hp
      by_cases hone : c = marks.one
      · rw [if_pos hone, Option.map_eq_map, Option.map_eq_some_iff] at hp
        obtain ⟨q, hq, rfl⟩ := hp
        refine ⟨Nat.succ_le_succ (ih false hq).1, fun hsame => ?_⟩
        have hfirst : fold filler = fold c := (List.cons.inj hsame).1
        exact absurd (hfold.one _ (hone ▸ hfirst)) hfiller
      · rw [if_neg hone, Option.map_eq_map, Option.map_eq_some_iff] at hp
        obtain ⟨q, hq, rfl⟩ := hp
        obtain ⟨hlength, hplain⟩ := ih false hq
        refine ⟨Nat.succ_le_succ hlength, fun hsame => ⟨rfl, ?_⟩⟩
        exact List.forall_mem_cons.mpr
          ⟨⟨hmany, hone, hescape⟩, (hplain (List.cons.inj hsame).2).2⟩

/-- A sample that fits is found, so it has to contain the text. -/
theorem plain_of_accepts (hfold : FixesMarks fold marks) (hfiller : filler ≠ marks.one)
    (hp : parse marks false (around marks k) = some p) {bound : ℕ}
    (h : ∀ s : List α, s.length ≤ bound → accepts fold p s = true → Contains fold k s) :
    Plain marks k ∨ bound < needed p := by
  rw [around, parse_many_cons, Option.map_eq_map, Option.map_eq_some_iff] at hp
  obtain ⟨q, hq, rfl⟩ := hp
  obtain ⟨hlength, hplain⟩ := sample_of_parse hfold hfiller false hq
  have hneeded : (sample filler q).length = needed (.many :: q) := length_sample filler q
  by_cases hbound : bound < needed (.many :: q)
  · exact Or.inr hbound
  · refine Or.inl (hplain ?_).2
    have hcontains := h (sample filler q) (by omega) (accepts_sample fold filler (.many :: q))
    apply (List.IsInfix.eq_of_length_le hcontains ?_).symm
    rw [List.length_map, List.length_map]
    exact hlength

/-- Without a mark a pattern finds what contains it; one that needs more characters than there
are finds nothing, and nothing contains it. -/
theorem accepts_iff_contains (hfold : FixesMarks fold marks) (hfiller : filler ≠ marks.one)
    (hp : parse marks false (around marks k) = some p) {bound : ℕ}
    (h : Plain marks k ∨ bound < needed p) {s : List α} (hs : s.length ≤ bound) :
    accepts fold p s = true ↔ Contains fold k s := by
  rw [around, parse_many_cons, Option.map_eq_map, Option.map_eq_some_iff] at hp
  obtain ⟨q, hq, rfl⟩ := hp
  rcases h with h | h
  · rw [parse_plain h] at hq
    obtain rfl := Option.some.inj hq
    exact accepts_between
  · have hlength : (sample filler q).length ≤ k.length :=
      (sample_of_parse hfold hfiller false hq).1
    have hneeded : (sample filler q).length = needed (.many :: q) := length_sample filler q
    constructor
    · intro haccepts
      have hle := needed_le haccepts
      omega
    · intro hcontains
      have hle := hcontains.length_le
      omega

end Parsed

end LikePatterns
