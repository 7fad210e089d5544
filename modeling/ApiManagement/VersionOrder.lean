import ApiManagement.KeptContent
import Mathlib.Data.Prod.Lex

/-! # The order of versions

Two checks guard a new version: the form compares it with the version its page shows, which
may be stale, and lets an equal one pass; the backend compares two strings for equality. The
versions of a service increase in every run in which the pages show the current version at each
commit and numbers are written without leading zeros. -/
namespace VersionOrder

open TransactionRuns KeyedTables ParentLinkedRows PythonRuntime ServiceSchema ApiStores
  ServiceOperations OperationRuns OperationEffects StateInvariant KeptContent

/-- `Number` on a part of a version, exact below 2^53. Parts with other characters than
digits do not occur: a version shown is empty or has passed the form before. -/
def number (part : List Char) : Option ℕ :=
  if part.all Char.isDigit then some (part.foldl (fun n c => 10 * n + (c.toNat - 48)) 0) else none

def parts (version : String) : List (Option ℕ) := (version.toList.splitOn '.').map number

def versionRegex (value : String) : Bool :=
  match value.toList.splitOn '.' with
  | [x, y, z] => [x, y, z].all (fun part => !part.isEmpty && part.all Char.isDigit)
  | _ => false

/-- `<` on numbers; false if one is NaN or undefined. -/
def less (x y : Option (Option ℕ)) : Bool :=
  match x, y with
  | some (some m), some (some n) => m < n
  | _, _ => false

def same (x y : Option (Option ℕ)) : Bool :=
  match x, y with
  | some (some m), some (some n) => m == n
  | _, _ => false

def validateVersion (currentVersion value : String) : Option String :=
  if value == "" then none
  else if !versionRegex value then some "版本号格式必须为 x.y.z（xyz均为非负整数）"
  else if currentVersion == "" then none
  else
    let major := (parts value)[0]?
    let minor := (parts value)[1]?
    let patch := (parts value)[2]?
    let currMajor := (parts currentVersion)[0]?
    let currMinor := (parts currentVersion)[1]?
    let currPatch := (parts currentVersion)[2]?
    if less major currMajor || (same major currMajor && less minor currMinor) ||
        (same major currMajor && same minor currMinor && less patch currPatch) then
      some "新版本号不得小于当前版本号"
    else none

def versionOf (value : String) : Option (ℕ ×ₗ ℕ ×ₗ ℕ) :=
  if versionRegex value then
    match parts value with
    | [some major, some minor, some patch] => some (toLex (major, toLex (minor, patch)))
    | _ => none
  else none

theorem parts_of_regex {value : String} (h : versionRegex value = true) :
    ∃ x y z, parts value = [some x, some y, some z] := by
  unfold versionRegex at h
  split at h
  · rename_i x y z hs
    simp only [List.all_cons, List.all_nil, Bool.and_true, Bool.and_eq_true] at h
    obtain ⟨⟨_, hx⟩, ⟨_, hy⟩, _, hz⟩ := h
    unfold parts
    rw [hs]
    simp only [List.map_cons, List.map_nil, number, hx, hy, hz, if_true]
    exact ⟨_, _, _, rfl⟩
  · cases h

theorem versionOf_eq_some {value : String} {a : ℕ ×ₗ ℕ ×ₗ ℕ} (h : versionOf value = some a) :
    versionRegex value = true ∧ ∃ x y z, parts value = [some x, some y, some z] ∧
      a = toLex (x, toLex (y, z)) := by
  unfold versionOf at h
  split at h
  · rename_i hr
    obtain ⟨x, y, z, hp⟩ := parts_of_regex hr
    rw [hp] at h
    exact ⟨hr, x, y, z, hp, (Option.some.inj h).symm⟩
  · cases h

/-- What the check of the form guarantees of a version it is compared with. -/
theorem le_of_validateVersion {currentVersion value : String} {a : ℕ ×ₗ ℕ ×ₗ ℕ}
    (ha : versionOf currentVersion = some a) (hv : value ≠ "")
    (h : validateVersion currentVersion value = none) :
    ∃ b, versionOf value = some b ∧ a ≤ b := by
  obtain ⟨hr, x, y, z, hp, rfl⟩ := versionOf_eq_some ha
  have hne : currentVersion ≠ "" := by
    rintro rfl
    revert hr
    decide
  unfold validateVersion at h
  rw [if_neg (by simpa using hv)] at h
  split at h
  · cases h
  · rename_i hregex
    have hregex : versionRegex value = true := by simpa using hregex
    obtain ⟨x', y', z', hp'⟩ := parts_of_regex hregex
    rw [if_neg (by simpa using hne)] at h
    refine ⟨toLex (x', toLex (y', z')), ?_, ?_⟩
    · rw [versionOf, if_pos hregex, hp']
    · simp only [hp, hp', less, same, List.getElem?_cons_zero, List.getElem?_cons_succ,
        ite_eq_right_iff, reduceCtorEq, imp_false, Bool.not_eq_true, Bool.or_eq_false_iff,
        Bool.and_eq_false_iff, decide_eq_false_iff_not, beq_eq_false_iff_ne, not_lt] at h
      rw [Prod.Lex.toLex_le_toLex, Prod.Lex.toLex_le_toLex]
      simp only
      omega

def canonical (version : String) : Bool :=
  (version.toList.splitOn '.').all (fun part => part.length == 1 || part.head? != some '0')

def value (part : List Char) : ℕ := part.foldl (fun n c => 10 * n + (c.toNat - 48)) 0

theorem value_concat (part : List Char) (c : Char) :
    value (part ++ [c]) = 10 * value part + (c.toNat - 48) := by
  rw [value, List.foldl_concat, value]

theorem digit_bounds {c : Char} (h : c.isDigit = true) : 48 ≤ c.toNat ∧ c.toNat ≤ 57 := by
  simpa [Char.isDigit, Char.le_def, UInt32.le_iff_toNat_le] using h

theorem value_pos {part : List Char} (hd : ∀ c ∈ part, c.isDigit = true) (hne : part ≠ [])
    (hhead : part.head? ≠ some '0') : 0 < value part := by
  induction part using List.reverseRecOn with
  | nil => exact absurd rfl hne
  | append_singleton part c ih =>
    rw [value_concat]
    have hc := digit_bounds (hd c (by simp))
    by_cases hpart : part = []
    · subst hpart
      have hzero : c.toNat ≠ 48 := by
        intro h
        have hchar : c = '0' := Char.toNat_inj.mp h
        exact hhead (congrArg some hchar)
      omega
    · have hpos := ih (fun d hm => hd d (List.mem_append_left _ hm)) hpart
        (by rwa [List.head?_append_of_ne_nil _ hpart] at hhead)
      omega

/-- The induction is on the last digits. -/
theorem value_injective {p q : List Char} (hp : ∀ c ∈ p, c.isDigit = true)
    (hq : ∀ c ∈ q, c.isDigit = true) (hp₀ : p.head? ≠ some '0') (hq₀ : q.head? ≠ some '0')
    (h : value p = value q) : p = q := by
  induction p using List.reverseRecOn generalizing q with
  | nil =>
    by_contra hne
    have hpos := value_pos hq (Ne.symm hne) hq₀
    rw [← h] at hpos
    exact absurd hpos (lt_irrefl 0)
  | append_singleton p c ih =>
    rcases List.eq_nil_or_concat q with rfl | ⟨q, d, rfl⟩
    · have hpos := value_pos hp (by simp) hp₀
      rw [h] at hpos
      exact absurd hpos (lt_irrefl 0)
    · rw [List.concat_eq_append] at hq hq₀ h ⊢
      rw [value_concat, value_concat] at h
      have hc := digit_bounds (hp c (by simp))
      have hd := digit_bounds (hq d (by simp))
      have hinit : ∀ {l : List Char} {e : Char}, (l ++ [e]).head? ≠ some '0' →
          l.head? ≠ some '0' := by
        intro l e hl
        cases l with
        | nil => simp
        | cons a l => exact hl
      have hpq := ih (fun e he => hp e (List.mem_append_left _ he))
        (fun e he => hq e (List.mem_append_left _ he)) (hinit hp₀) (hinit hq₀) (by omega)
      have hcd : c = d := Char.toNat_inj.mp (by omega)
      rw [hpq, hcd]

theorem number_injective {p q : List Char} {n : ℕ} (hp : number p = some n)
    (hq : number q = some n) (hp₀ : (p.length == 1 || p.head? != some '0') = true)
    (hq₀ : (q.length == 1 || q.head? != some '0') = true) (hpe : p ≠ []) (hqe : q ≠ []) :
    p = q := by
  have read : ∀ {l : List Char}, number l = some n → (∀ c ∈ l, c.isDigit = true) ∧
      value l = n := by
    intro l hl
    unfold number at hl
    split at hl
    · rename_i hall
      exact ⟨List.all_eq_true.mp hall, Option.some.inj hl⟩
    · cases hl
  obtain ⟨hpd, hpn⟩ := read hp
  obtain ⟨hqd, hqn⟩ := read hq
  -- a zero is the only number that begins with one
  have zero : ∀ {l : List Char}, (l.length == 1 || l.head? != some '0') = true →
      l = ['0'] ∨ l.head? ≠ some '0' := by
    intro l hl
    by_cases hhead : l.head? = some '0'
    · left
      rw [hhead, bne_self_eq_false, Bool.or_false, beq_iff_eq] at hl
      obtain ⟨c, rfl⟩ := List.length_eq_one_iff.mp hl
      rw [Option.some.inj hhead]
    · exact Or.inr hhead
  rcases zero hp₀ with rfl | hp₀ <;> rcases zero hq₀ with rfl | hq₀
  · rfl
  · have hpos := value_pos hqd hqe hq₀
    rw [hqn, ← hpn] at hpos
    exact absurd hpos (by decide)
  · have hpos := value_pos hpd hpe hp₀
    rw [hpn, ← hqn] at hpos
    exact absurd hpos (by decide)
  · exact value_injective hpd hqd hp₀ hq₀ (hpn.trans hqn.symm)

/-- Without leading zeros equal numbers are equal texts. -/
theorem canonical_injective {x y : String} {a : ℕ ×ₗ ℕ ×ₗ ℕ} (hx : versionOf x = some a)
    (hy : versionOf y = some a) (hcx : canonical x = true) (hcy : canonical y = true) :
    x = y := by
  have read : ∀ {v : String}, versionOf v = some a → canonical v = true → ∃ p q r,
      v.toList.splitOn '.' = [p, q, r] ∧ (∀ part ∈ [p, q, r], part ≠ [] ∧
        (part.length == 1 || part.head? != some '0') = true) ∧
      number p = some (ofLex a).1 ∧ number q = some (ofLex (ofLex a).2).1 ∧
        number r = some (ofLex (ofLex a).2).2 := by
    intro v hv hc
    obtain ⟨hr, n₁, n₂, n₃, hparts, rfl⟩ := versionOf_eq_some hv
    unfold versionRegex at hr
    split at hr
    · rename_i p q r hs
      unfold parts at hparts
      unfold canonical at hc
      rw [hs] at hparts hc
      simp only [List.map_cons, List.map_nil, List.cons.injEq, and_true] at hparts
      refine ⟨p, q, r, hs, ?_, hparts.1, hparts.2.1, hparts.2.2⟩
      intro part hpart
      have hdigits := List.all_eq_true.mp hr part hpart
      refine ⟨?_, List.all_eq_true.mp hc part hpart⟩
      rintro rfl
      cases hdigits
    · cases hr
  obtain ⟨p, q, r, hs, hall, hp, hq, hr⟩ := read hx hcx
  obtain ⟨p', q', r', hs', hall', hp', hq', hr'⟩ := read hy hcy
  have same : ∀ {u w : List Char} {n : ℕ}, u ∈ [p, q, r] → w ∈ [p', q', r'] →
      number u = some n → number w = some n → u = w :=
    fun hu hw hnu hnw => number_injective hnu hnw (hall _ hu).2 (hall' _ hw).2 (hall _ hu).1
      (hall' _ hw).1
  have hsplit : x.toList.splitOn '.' = y.toList.splitOn '.' := by
    rw [hs, hs', same (by simp) (by simp) hp hp', same (by simp) (by simp) hq hq',
      same (by simp) (by simp) hr hr']
  have hlist := congrArg (List.intercalate ['.']) hsplit
  rw [List.intercalate_splitOn, List.intercalate_splitOn] at hlist
  exact String.toList_inj.mp hlist

/-- The database, and the `currentVersion` that the page of each service shows to each user. -/
structure Session where
  db : Database
  currentVersion : ℕ → String → String

inductive PageEvent where
  | load (env : Environment) (userId : ℕ) (serviceUuid : String)
  | request (request : Request)

def pageStep (v : Session) : PageEvent → Tx Session
  | .load env userId serviceUuid => do
    let reply ← serviceGetAllVersionsByUuid env serviceUuid userId v.db
    let shown := (reply.data.head?.bind VersionEntry.version).getD ""
    pure { v with currentVersion := fun u uuid =>
      if u = userId ∧ uuid = strip (unquote serviceUuid) then shown else v.currentVersion u uuid }
  | .request request => do
    let db ← transaction v.db request
    pure { v with db := db }

def Session.Initial (v : Session) : Prop :=
  ServiceSchema.Initial v.db ∧ v.currentVersion = fun _ _ => ""

/-- If the event commits an iteration, its service, the new version and the acting user
satisfy `P`. -/
def CommitsWith (P : Service → String → ℕ → Prop) (v : Session) : PageEvent → Prop
  | .request ⟨_, .serviceCommitIteration iterationId newVersion userId⟩ =>
    ∀ i ∈ v.db.iterations.rows, i.id = iterationId →
      ∀ s ∈ v.db.services.rows, s.id = i.serviceId → P s newVersion userId
  | _ => True

/-- The form of the user let the version pass; an empty one is refused as required. -/
def PassedForm (v : Session) (e : PageEvent) : Prop :=
  CommitsWith (fun s newVersion userId => newVersion ≠ "" ∧
    validateVersion (v.currentVersion userId s.serviceUuid.val) newVersion = none) v e

/-- The page of the user shows the version that is current at the commit, and the new one is
written without leading zeros. -/
def ShownCurrent (v : Session) (e : PageEvent) : Prop :=
  CommitsWith (fun s newVersion userId =>
    v.currentVersion userId s.serviceUuid.val = s.version.val ∧ canonical newVersion = true) v e

structure Ordered (db : Database) : Prop where
  invariant : Invariant Nests db
  form : ∀ s ∈ db.services.rows, (∃ a, versionOf s.version.val = some a) ∧
    canonical s.version.val = true
  below : ∀ i ∈ db.iterations.rows, ∀ x, i.version = some x → ∀ s ∈ db.services.rows,
    s.id = i.serviceId →
    ∃ a b, versionOf x.val = some a ∧ versionOf s.version.val = some b ∧ a ≤ b
  distinct : ∀ i ∈ db.iterations.rows, ∀ j ∈ db.iterations.rows, i.serviceId = j.serviceId →
    ∀ x y, i.version = some x → j.version = some y → versionOf x.val = versionOf y.val → i = j

section Step

variable {db db' : Database} {request : Request}

def CommitsAbove (db : Database) (request : Request) : Prop :=
  ∀ version serviceId, Publishes db serviceId version request.operation →
    ∀ s ∈ db.services.rows, s.id = serviceId → canonical version = true ∧
      ∀ a, versionOf s.version.val = some a → ∃ b, versionOf version = some b ∧ a < b

/-- The backend's check. -/
theorem version_changes {env : Environment} {iterationId userId : ℕ} {newVersion : String}
    (he : Effect env db (.serviceCommitIteration iterationId newVersion userId) db')
    {i : ServiceIteration} (hi : i ∈ db.iterations.rows) (hid : i.id = iterationId) {s : Service}
    (hs : s ∈ db.services.rows) (hsi : s.id = i.serviceId) : newVersion ≠ s.version.val := by
  cases he with
  | @iterationCommitted _ _ _ j t _ _ hw ht htj hne _ _ =>
    have hij : i = j :=
      db.iterations.eq_of_key_eq hi hw.mem (hid.trans hw.id.symm)
    subst hij
    have hst : s = t := db.services.eq_of_key_eq hs ht (hsi.trans htj.symm)
    rwa [hst]

/-- A form that compares with the current version lets equal numbers pass; the backend refuses
them in the same spelling. -/
theorem commitsAbove_of_guard {v : Session} {db' : Database} (h : Ordered v.db)
    (he : Effect request.env v.db request.operation db') (hp : PassedForm v (.request request))
    (hs : ShownCurrent v (.request request)) : CommitsAbove v.db request := by
  obtain ⟨env, operation⟩ := request
  rintro version serviceId ⟨iterationId, userId, hop, i, hm, hid, his⟩ s hsm hsid
  cases hop
  have hsi : s.id = i.serviceId := hsid.trans his.symm
  obtain ⟨hne, hpass⟩ := hp i hm hid s hsm hsi
  obtain ⟨hshown, hcanonical⟩ := hs i hm hid s hsm hsi
  refine ⟨hcanonical, ?_⟩
  intro a ha
  rw [hshown] at hpass
  obtain ⟨b, hb, hle⟩ := le_of_validateVersion ha hne hpass
  refine ⟨b, hb, lt_of_le_of_ne hle ?_⟩
  rintro rfl
  exact version_changes he hm hid hsm hsi
    (canonical_injective hb ha hcanonical (h.form s hsm).2)

variable (h : Ordered db) (he : Effect request.env db request.operation db')
  (hg : CommitsAbove db request)

include h he hg

/-- A service keeps its version or gets a greater one. -/
theorem version_step {s t : Service} (hs : s ∈ db.services.rows) (ht : t ∈ db'.services.rows)
    (hid : t.id = s.id) :
    t.version = s.version ∨ ∃ a b, versionOf s.version.val = some a ∧
      versionOf t.version.val = some b ∧ a < b := by
  rcases (service_versions he hs ht hid).2 with hv | hpub
  · exact Or.inl hv
  · obtain ⟨a, ha⟩ := (h.form s hs).1
    obtain ⟨b, hb, hab⟩ := (hg _ _ hpub s hs rfl).2 a ha
    exact Or.inr ⟨a, b, ha, hb, hab⟩

theorem form_step : ∀ t ∈ db'.services.rows, (∃ a, versionOf t.version.val = some a) ∧
    canonical t.version.val = true := by
  intro t ht
  rcases services_of_effect he ht with ⟨s, hs, hid⟩ | ⟨_, hv⟩
  · rcases (service_versions he hs ht hid.symm).2 with hv | hpub
    · rw [hv]
      exact h.form s hs
    · obtain ⟨a, ha⟩ := (h.form s hs).1
      obtain ⟨hcanonical, habove⟩ := hg _ _ hpub s hs rfl
      obtain ⟨b, hb, _⟩ := habove a ha
      exact ⟨⟨b, hb⟩, hcanonical⟩
  · rw [hv]
    exact ⟨⟨toLex (0, toLex (0, 1)), by decide⟩, by decide⟩

/-- The version of an iteration was carried by it before, or it is greater than the version
its service had. -/
theorem iteration_step {j : ServiceIteration} (hj : j ∈ db'.iterations.rows) {x : VarChar 32}
    (hx : j.version = some x) :
    ∃ k ∈ db.iterations.rows, k.id = j.id ∧ k.serviceId = j.serviceId ∧
      (k.version = some x ∨
        (∃ userId, request.operation = .serviceCommitIteration j.id x.val userId) ∧
        ∀ s ∈ db.services.rows, s.id = j.serviceId → ∃ a b, versionOf s.version.val = some a ∧
          versionOf x.val = some b ∧ a < b) := by
  obtain ⟨k, hk, hkj, hks, hv⟩ := iteration_versions he hj hx
  refine ⟨k, hk, hkj, hks, ?_⟩
  rcases hv with hv | ⟨userId, hop⟩
  · exact Or.inl hv
  · refine Or.inr ⟨⟨userId, hop⟩, ?_⟩
    intro s hs hsj
    obtain ⟨a, ha⟩ := (h.form s hs).1
    obtain ⟨b, hb, hab⟩ :=
      (hg x.val j.serviceId ⟨j.id, userId, hop, k, hk, hkj, hks⟩ s hs hsj).2 a ha
    exact ⟨a, b, ha, hb, hab⟩

theorem below_step : ∀ j ∈ db'.iterations.rows, ∀ x, j.version = some x →
    ∀ t ∈ db'.services.rows, t.id = j.serviceId →
    ∃ a b, versionOf x.val = some a ∧ versionOf t.version.val = some b ∧ a ≤ b := by
  intro j hj x hx t ht htj
  obtain ⟨k, hk, hkj, hks, hv⟩ := iteration_step h he hg hj hx
  obtain ⟨s, hs, hsk⟩ := Table.contains_iff.mp (h.invariant.iteration_service k hk)
  have hts : t.id = s.id := htj.trans (hks.symm.trans hsk.symm)
  rcases hv with hv | ⟨⟨userId, hop⟩, habove⟩
  · obtain ⟨a, b, ha, hb, hab⟩ := h.below k hk x hv s hs hsk
    rcases version_step h he hg hs ht hts with hsame | ⟨b', c, hb', hc, hbc⟩
    · exact ⟨a, b, ha, hsame ▸ hb, hab⟩
    · have hbb : b = b' := Option.some.inj (hb.symm.trans hb')
      subst hbb
      exact ⟨a, c, ha, hc, hab.trans hbc.le⟩
  · have hversion : t.version.val = x.val := by
      rw [hop] at he
      exact committed_version he hk hkj ht (htj.trans hks.symm)
    obtain ⟨_, b, _, hb, _⟩ := habove s hs (hsk.trans hks)
    exact ⟨b, b, hb, hversion ▸ hb, le_rfl⟩

theorem distinct_step : ∀ i ∈ db'.iterations.rows, ∀ j ∈ db'.iterations.rows,
    i.serviceId = j.serviceId → ∀ x y, i.version = some x → j.version = some y →
    versionOf x.val = versionOf y.val → i = j := by
  -- a version that is carried already is not above that of the service
  have apart : ∀ {k : ServiceIteration} {x y : VarChar 32} {serviceId : ℕ},
      k ∈ db.iterations.rows → k.serviceId = serviceId → k.version = some y →
      (∀ s ∈ db.services.rows, s.id = serviceId → ∃ a b, versionOf s.version.val = some a ∧
        versionOf x.val = some b ∧ a < b) → versionOf x.val ≠ versionOf y.val := by
    rintro k x y _ hk rfl hy habove hxy
    obtain ⟨s, hs, hsk⟩ := Table.contains_iff.mp (h.invariant.iteration_service k hk)
    obtain ⟨c, d, hc, hd, hcd⟩ := h.below k hk y hy s hs hsk
    obtain ⟨a, b, ha, hb, hab⟩ := habove s hs hsk
    have hda : d = a := Option.some.inj (hd.symm.trans ha)
    have hbc : b = c := Option.some.inj (hb.symm.trans (hxy.trans hc))
    subst hda hbc
    exact absurd hab (not_lt.mpr hcd)
  intro i hi j hj hij x y hx hy hxy
  obtain ⟨k, hk, hki, hks, hv⟩ := iteration_step h he hg hi hx
  obtain ⟨l, hl, hlj, hls, hw⟩ := iteration_step h he hg hj hy
  rcases hv with hv | ⟨⟨u, hop⟩, habove⟩ <;> rcases hw with hw | ⟨⟨u', hop'⟩, habove'⟩
  · have hkl := h.distinct k hk l hl (hks.trans (hij.trans hls.symm)) x y hv hw hxy
    refine db'.iterations.eq_of_key_eq hi hj ?_
    rw [iteration_key, iteration_key, ← hki, ← hlj, hkl]
  · exact absurd hxy.symm (apart hk (hks.trans hij) hv habove')
  · exact absurd hxy (apart hl (hls.trans hij.symm) hw habove)
  · refine db'.iterations.eq_of_key_eq hi hj ?_
    rw [hop] at hop'
    exact (Operation.serviceCommitIteration.inj hop').1

theorem ordered_step : Ordered db' :=
  ⟨effect_preserves nests_joint he (payloadGuard_true request.operation) h.invariant,
    form_step h he hg, below_step h he hg, distinct_step h he hg⟩

end Step

theorem pageStep_cases {v w : Session} {e : PageEvent} (h : pageStep v e = .ok w) :
    w.db = v.db ∨ ∃ request, e = .request request ∧
      Effect request.env v.db request.operation w.db := by
  cases e with
  | load env userId serviceUuid =>
    simp only [pageStep, bind_eq_ok, pure_eq_ok] at h
    obtain ⟨_, _, rfl⟩ := h
    exact Or.inl rfl
  | request request =>
    simp only [pageStep, bind_eq_ok, pure_eq_ok] at h
    obtain ⟨db, hdb, rfl⟩ := h
    exact Or.inr ⟨request, rfl, transaction_effect hdb⟩

theorem initial_ordered {db : Database} (h : ServiceSchema.Initial db) : Ordered db := by
  refine ⟨initial_invariant h, ?_, ?_, ?_⟩
  · rw [h.services]
    intro s hs
    cases hs
  · rw [h.iterations]
    intro i hi
    cases hi
  · rw [h.iterations]
    intro i hi
    cases hi

/-- The version of `t` is that of `s`, or greater in (major, minor, patch) order. -/
def Increases (s t : Service) : Prop :=
  t.version = s.version ∨ ∃ a b, versionOf s.version.val = some a ∧
    versionOf t.version.val = some b ∧ a < b

theorem Increases.trans {s t u : Service} (h : Increases s t) (k : Increases t u) :
    Increases s u := by
  rcases h with h | ⟨a, b, ha, hb, hab⟩
  · rcases k with k | ⟨b, c, hb, hc, hbc⟩
    · exact Or.inl (k.trans h)
    · exact Or.inr ⟨b, c, h ▸ hb, hc, hbc⟩
  · rcases k with k | ⟨b', c, hb', hc, hbc⟩
    · exact Or.inr ⟨a, b, ha, k ▸ hb, hab⟩
    · have hbb : b = b' := Option.some.inj (hb.symm.trans hb')
      subst hbb
      exact Or.inr ⟨a, c, ha, hc, hab.trans hbc⟩

section Runs

def FormsHold (v : Session) (e : PageEvent) : Prop := PassedForm v e ∧ ShownCurrent v e

variable {start v w : Session}

theorem ordered_run (h : Ordered v.db) (hr : Runs pageStep FormsHold v w) : Ordered w.db := by
  refine hr.preserves (I := fun u => Ordered u.db) ?_ h
  intro u e u' hu hg ht
  rcases pageStep_cases ht with hdb | ⟨request, rfl, he⟩
  · rw [hdb]
    exact hu
  · exact ordered_step hu he (commitsAbove_of_guard hu he hg.1 hg.2)

theorem increases_run (h : Ordered v.db) (hr : Runs pageStep FormsHold v w) {s : Service}
    (hs : s ∈ v.db.services.rows) :
    ∃ t ∈ w.db.services.rows, t.id = s.id ∧ Increases s t := by
  have hrun : Ordered w.db ∧ ∃ t ∈ w.db.services.rows, t.id = s.id ∧ Increases s t := by
    refine hr.preserves (I := fun u => Ordered u.db ∧
      ∃ t ∈ u.db.services.rows, t.id = s.id ∧ Increases s t) ?_ ⟨h, s, hs, rfl, Or.inl rfl⟩
    rintro u e u' ⟨hu, t, ht, hid, hinc⟩ hg hstep
    rcases pageStep_cases hstep with hdb | ⟨request, rfl, he⟩
    · rw [hdb]
      exact ⟨hu, t, ht, hid, hinc⟩
    · have habove := commitsAbove_of_guard hu he hg.1 hg.2
      obtain ⟨t', ht', hid'⟩ := service_stays he ht
      exact ⟨ordered_step hu he habove, t', ht', hid'.trans hid,
        hinc.trans (version_step hu he habove ht ht' hid')⟩
  exact hrun.2

/-- In every run in which the page shows the current version at each commit, and new versions have
no leading zeros, versions increase strictly from one value to the next, and no two iterations of
a service carry the same. -/
theorem versions_increase (h₀ : start.Initial) (hv : Runs pageStep FormsHold start v)
    (hw : Runs pageStep FormsHold v w) :
    (∀ s ∈ v.db.services.rows, ∀ t ∈ w.db.services.rows, t.id = s.id → Increases s t) ∧
    (∀ i ∈ w.db.iterations.rows, ∀ j ∈ w.db.iterations.rows, i.serviceId = j.serviceId →
      ∀ x, i.version = some x → j.version = some x → i = j) := by
  have hov := ordered_run (initial_ordered h₀.1) hv
  have how := ordered_run hov hw
  constructor
  · intro s hs t ht hid
    obtain ⟨t', ht', hid', hinc⟩ := increases_run hov hw hs
    have htt : t' = t := w.db.services.eq_of_key_eq ht' ht (hid'.trans hid.symm)
    exact htt ▸ hinc
  · intro i hi j hj hij x hx hy
    exact how.distinct i hi j hj hij x x hx hy rfl

end Runs

def loading : List PageEvent :=
  [.request ⟨plainEnvironment, .serviceCreateNewService "team/core" 1 none⟩,
    .request ⟨plainEnvironment, .serviceAddOrRemoveServiceMaintainerById 1 1 2⟩,
    .request ⟨plainEnvironment, .serviceStartIteration 1 1⟩,
    .request ⟨plainEnvironment, .serviceStartIteration 1 2⟩,
    .load plainEnvironment 1 "team/core", .load plainEnvironment 2 "team/core"]

def unloaded : Session := ⟨twoUsers, fun _ _ => ""⟩

def loaded : Session := runEvents pageStep unloaded loading

def commitBy (userId iterationId : ℕ) (newVersion : String) : PageEvent :=
  .request ⟨plainEnvironment, .serviceCommitIteration iterationId newVersion userId⟩

def afterFirst : Session := committed (pageStep loaded (commitBy 1 1 "0.0.5")) loaded

def afterSecond : Session := committed (pageStep afterFirst (commitBy 2 2 "0.0.3")) afterFirst

theorem unloaded_initial : unloaded.Initial := ⟨twoUsers_initial, rfl⟩

theorem loading_run {guard : Session → PageEvent → Prop} (hg : ∀ e ∈ loading, ∀ v, guard v e) :
    Runs pageStep guard unloaded loaded :=
  runs_runEvents loading unloaded unloaded hg (.refl _)

theorem first_passes_form : PassedForm loaded (commitBy 1 1 "0.0.5") := by
  have h : ∀ i ∈ loaded.db.iterations.rows, i.id = 1 → ∀ s ∈ loaded.db.services.rows,
      s.id = i.serviceId → "0.0.5" ≠ "" ∧
        validateVersion (loaded.currentVersion 1 s.serviceUuid.val) "0.0.5" = none := by
    decide +kernel
  exact h

theorem second_passes_form : PassedForm afterFirst (commitBy 2 2 "0.0.3") := by
  have h : ∀ i ∈ afterFirst.db.iterations.rows, i.id = 2 → ∀ s ∈ afterFirst.db.services.rows,
      s.id = i.serviceId → "0.0.3" ≠ "" ∧
        validateVersion (afterFirst.currentVersion 2 s.serviceUuid.val) "0.0.3" = none := by
    decide +kernel
  exact h

theorem first_commit_increases :
    (∀ s ∈ loaded.db.services.rows, ∀ t ∈ afterFirst.db.services.rows, t.id = s.id →
      Increases s t) ∧
    (∀ i ∈ afterFirst.db.iterations.rows, ∀ j ∈ afterFirst.db.iterations.rows,
      i.serviceId = j.serviceId → ∀ x, i.version = some x → j.version = some x → i = j) := by
  have hshown : ∀ i ∈ loaded.db.iterations.rows, i.id = 1 → ∀ s ∈ loaded.db.services.rows,
      s.id = i.serviceId → loaded.currentVersion 1 s.serviceUuid.val = s.version.val ∧
        canonical "0.0.5" = true := by decide +kernel
  refine versions_increase unloaded_initial (loading_run ?_)
    ((Runs.refl loaded).tail ⟨first_passes_form, hshown⟩)
  intro e he v
  simp only [loading, List.mem_cons, List.not_mem_nil, or_false] at he
  rcases he with rfl | rfl | rfl | rfl | rfl | rfl
  all_goals exact ⟨trivial, trivial⟩

/-- The page of user 2 still shows 0.0.1 when the service is at 0.0.5 already. -/
theorem stale_page_lets_version_fall :
    ¬ ∀ start v w : Session, start.Initial → Runs pageStep PassedForm start v →
      Runs pageStep PassedForm v w →
      ∀ s ∈ v.db.services.rows, ∀ t ∈ w.db.services.rows, t.id = s.id → Increases s t := by
  intro h
  have hloading : Runs pageStep PassedForm unloaded loaded := by
    apply loading_run
    intro e he v
    simp only [loading, List.mem_cons, List.not_mem_nil, or_false] at he
    rcases he with rfl | rfl | rfl | rfl | rfl | rfl
    all_goals trivial
  have hinc := h unloaded afterFirst afterSecond unloaded_initial
    (hloading.tail first_passes_form) ((Runs.refl afterFirst).tail second_passes_form)
  have hfall : ∃ s ∈ afterFirst.db.services.rows, ∃ t ∈ afterSecond.db.services.rows,
      t.id = s.id ∧ s.version.val = "0.0.5" ∧ t.version.val = "0.0.3" := by decide +kernel
  obtain ⟨s, hs, t, ht, hid, hsv, htv⟩ := hfall
  rcases hinc s hs t ht hid with hsame | ⟨a, b, ha, hb, hab⟩
  · rw [hsame, hsv] at htv
    revert htv
    decide
  · have hlow : versionOf "0.0.3" = some (toLex (0, toLex (0, 3))) := by decide
    have hhigh : versionOf "0.0.5" = some (toLex (0, toLex (0, 5))) := by decide
    rw [hsv, hhigh] at ha
    rw [htv, hlow] at hb
    cases ha
    cases hb
    revert hab
    decide

end VersionOrder
