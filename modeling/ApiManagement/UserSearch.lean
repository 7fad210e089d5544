import ApiManagement.LikePatterns
import ApiManagement.ReadOperations

/-! # Searching for users

The keyword becomes a pattern without an escape for its percent signs, underscores and
backslashes. The search is a search for the keyword just when it has none of them, or when the
pattern needs more characters than a column holds. -/
namespace UserSearch

open TransactionRuns KeyedTables PythonRuntime ServiceSchema UserOperations OperationRuns
  ReadOperations LikePatterns

def sqlMarks : Marks Char := ⟨'%', '_', '\\', by decide⟩

/-- The documented meaning of `ILIKE`, with the case mapping of the database; it refuses a pattern
that ends with an escape. -/
def StandardIlike (out : Surroundings) (fold : Char → Char) : Prop :=
  ∀ s pattern p, parse sqlMarks false pattern.toList = some p →
    out.ilike s pattern = accepts fold p s.toList

def keyword (usernameOrNicknameOrEmail : String) : String :=
  strip (unquote usernameOrNicknameOrEmail)

def anyColumn (test : String → Bool) (u : User) : Bool :=
  test u.username.val || (u.nickname.map VarChar.val).any test ||
    (u.email.map VarChar.val).any test

/-- Columns hold at most 128 characters. -/
theorem anyColumn_congr {test test' : String → Bool}
    (h : ∀ s : String, s.length ≤ 128 → test s = test' s) (u : User) :
    anyColumn test u = anyColumn test' u := by
  have hnickname : ∀ v : Option (VarChar 64),
      (v.map VarChar.val).any test = (v.map VarChar.val).any test' := by
    intro v
    cases v with
    | none => rfl
    | some v => exact h v.val (v.fits.trans (by decide))
  have hemail : ∀ v : Option (VarChar 128),
      (v.map VarChar.val).any test = (v.map VarChar.val).any test' := by
    intro v
    cases v with
    | none => rfl
    | some v => exact h v.val v.fits
  rw [anyColumn, anyColumn, h _ (u.username.fits.trans (by decide)), hnickname, hemail]

/-- The test of the query. -/
def likeKeyword (out : Surroundings) (raw s : String) : Bool :=
  out.ilike s ("%" ++ keyword raw ++ "%")

def contains (fold : Char → Char) (text s : String) : Bool :=
  decide (Contains fold text.toList s.toList)

/-- For every table, the users with the keyword in a column are found, each once. -/
def SubstringSearch (out : Surroundings) (fold : Char → Char) (raw : String) : Prop :=
  ∀ db, ∃ users, userGetUserByUsernameOrNicknameOrEmail out raw db =
      .ok ⟨200, "Get users success", users⟩ ∧
    users.Perm ((db.users.rows.filter (anyColumn (contains fold (keyword raw)))).map userToJson)

def matchLength (text : String) : ℕ :=
  ((parse sqlMarks false (around sqlMarks text.toList)).map needed).getD 0

section Search

variable {out : Surroundings} {fold : Char → Char} {raw : String}

/-- The rows of the reply are those the pattern finds. -/
theorem search_finds (out : Surroundings) (raw : String) (db : Database) :
    ∃ users, userGetUserByUsernameOrNicknameOrEmail out raw db =
        .ok ⟨200, "Get users success", users⟩ ∧
      users.Perm ((db.users.rows.filter (anyColumn (likeKeyword out raw))).map userToJson) := by
  refine ⟨_, rfl, List.Perm.map _ ?_⟩
  exact (List.mergeSort_perm _ _).trans (out.fetch_perm _)

theorem toList_pattern (text : String) :
    ("%" ++ text ++ "%").toList = around sqlMarks text.toList := by
  rw [String.toList_append, String.toList_append]
  rfl

/-- The last percent sign is never the end of an escape, so that the pattern is not refused. -/
theorem exists_pattern (text : String) :
    ∃ p, parse sqlMarks false (around sqlMarks text.toList) = some p ∧
      needed p = matchLength text := by
  obtain ⟨q, hq⟩ := exists_parse sqlMarks false text.toList
  have hp : parse sqlMarks false (around sqlMarks text.toList) = some (.many :: q) := by
    rw [around, parse_many_cons, hq]
    rfl
  refine ⟨_, hp, ?_⟩
  rw [matchLength, hp]
  rfl

end Search

theorem empty_fits : "".length ≤ 64 := by decide

def addressed (s : VarChar 128) : User := { member 1 ⟨"", empty_fits⟩ with email := some s }

theorem addressed_bounds (s : VarChar 128) : ∀ u ∈ [addressed s], 0 < key u ∧ key u < 2 := by
  intro u hu
  rw [List.mem_singleton.mp hu]
  exact ⟨Nat.one_pos, Nat.one_lt_two⟩

theorem addressed_nodup (s : VarChar 128) : ([addressed s].map key).Nodup :=
  List.nodup_singleton _

def onlyAddress (s : VarChar 128) : Database :=
  { twoUsers with users := ⟨[addressed s], 2, Nat.two_pos, addressed_bounds s, addressed_nodup s⟩ }

section Search

variable {out : Surroundings} {fold : Char → Char} {raw : String}

/-- As many users are found as have the keyword in a column. -/
theorem length_of_search (h : SubstringSearch out fold raw) (db : Database) :
    (db.users.rows.filter (anyColumn (likeKeyword out raw))).length =
      (db.users.rows.filter (anyColumn (contains fold (keyword raw)))).length := by
  obtain ⟨found, hfound, hrows⟩ := search_finds out raw db
  obtain ⟨users, husers, hperm⟩ := h db
  rw [hfound] at husers
  obtain rfl : found = users := by
    injection husers with hreply
    injection hreply
  have hlength := hrows.length_eq.symm.trans hperm.length_eq
  rwa [List.length_map, List.length_map] at hlength

theorem contains_nil {text : List Char} {s : List Char} (h : Contains fold text []) :
    Contains fold text s := by
  obtain rfl := List.eq_nil_of_length_eq_zero (Nat.le_zero.mp h.length_le)
  exact List.nil_infix

/-- An address that matches the pattern of the keyword contains the keyword. -/
theorem contains_of_search (hilike : StandardIlike out fold) (h : SubstringSearch out fold raw)
    {p : List (Atom Char)}
    (hp : parse sqlMarks false (around sqlMarks (keyword raw).toList) = some p) {s : List Char}
    (hs : s.length ≤ 128) (haccepts : accepts fold p s = true) :
    Contains fold (keyword raw).toList s := by
  have hfits : (String.ofList s).length ≤ 128 := by rwa [String.length_ofList]
  have hlength := length_of_search h (onlyAddress ⟨String.ofList s, hfits⟩)
  have hmatch : likeKeyword out raw (String.ofList s) = true := by
    rw [likeKeyword, hilike _ _ p (by rw [toList_pattern, hp]), String.toList_ofList, haccepts]
  have hfound : anyColumn (likeKeyword out raw) (addressed ⟨String.ofList s, hfits⟩) = true := by
    simp [anyColumn, addressed, hmatch]
  by_contra hnot
  have hnone : anyColumn (contains fold (keyword raw)) (addressed ⟨String.ofList s, hfits⟩) =
      false := by
    have hempty : ¬ Contains fold (keyword raw).toList [] := fun hnil => hnot (contains_nil hnil)
    simp [anyColumn, addressed, contains, member, hnot, hempty]
  simp [onlyAddress, hfound, hnone] at hlength

/-- The search looks for the keyword just when it has no percent sign, underscore or backslash, or
when its pattern matches nothing that a column can hold. -/
theorem search_is_substring_iff (hilike : StandardIlike out fold)
    (hfold : FixesMarks fold sqlMarks) :
    SubstringSearch out fold raw ↔
      Plain sqlMarks (keyword raw).toList ∨ 128 < matchLength (keyword raw) := by
  obtain ⟨p, hp, hneeded⟩ := exists_pattern (keyword raw)
  have hfiller : 'a' ≠ sqlMarks.one := by decide
  rw [← hneeded]
  constructor
  · intro h
    exact plain_of_accepts hfold hfiller hp
      (fun s hs haccepts => contains_of_search hilike h hp hs haccepts)
  · intro h
    have hsame : ∀ s : String, s.length ≤ 128 →
        likeKeyword out raw s = contains fold (keyword raw) s := by
      intro s hs
      have hiff := accepts_iff_contains hfold hfiller hp h (s := s.toList) hs
      rw [likeKeyword, hilike _ _ p (by rw [toList_pattern, hp]), contains, Bool.eq_iff_iff, hiff,
        decide_eq_true_eq]
    intro db
    obtain ⟨users, husers, hperm⟩ := search_finds out raw db
    rw [List.filter_congr (fun u _ => anyColumn_congr hsame u)] at hperm
    exact ⟨users, husers, hperm⟩

end Search

def standardSurroundings : Surroundings := { plainSurroundings with
  ilike := fun s pattern =>
    (parse sqlMarks false pattern.toList).any (fun p => accepts Char.toLower p s.toList) }

theorem standardSurroundings_ilike : StandardIlike standardSurroundings Char.toLower := by
  intro s pattern p hp
  show (parse sqlMarks false pattern.toList).any _ = _
  rw [hp]
  rfl

/-- Upper case letters become letters, other characters stay. -/
theorem eq_of_toLower {c m : Char} (hm : m.toNat < 97) (h : c.toLower = m) : c = m := by
  unfold Char.toLower at h
  split at h
  case isFalse => exact h
  case isTrue hupper =>
    have hlow : 65 ≤ c.val.toNat := hupper.1
    have hhigh : c.val.toNat ≤ 90 := hupper.2
    have hval : m.toNat = (c.val + 32).toNat := by rw [← h]; rfl
    rw [UInt32.toNat_add] at hval
    have h32 : (32 : UInt32).toNat = 32 := rfl
    omega

theorem toLower_fixesMarks : FixesMarks Char.toLower sqlMarks :=
  ⟨fun _ => eq_of_toLower (by decide), fun _ => eq_of_toLower (by decide),
    fun _ => eq_of_toLower (by decide)⟩

theorem search_with_blank : SubstringSearch standardSurroundings Char.toLower "%20Bob" :=
  (search_is_substring_iff standardSurroundings_ilike toLower_fixesMarks).mpr
    (Or.inl (by decide +kernel))

def onlyBob : Database :=
  { twoUsers with users := ⟨[member 1 ⟨"bob", by decide⟩], 2, by decide, by decide, by decide⟩ }

theorem bob_for_underscore :
    Reachable onlyBob ∧ ¬ SubstringSearch standardSurroundings Char.toLower "b_b" := by
  refine ⟨⟨onlyBob, ⟨by decide, by decide, rfl, rfl, rfl, rfl, rfl, rfl⟩, .refl _⟩, fun h => ?_⟩
  exact absurd (length_of_search h onlyBob) (by decide +kernel)

end UserSearch
