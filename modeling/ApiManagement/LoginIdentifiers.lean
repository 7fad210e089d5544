import ApiManagement.OperationEffects
import ApiManagement.ReadOperations

/-! # Identifiers at the login

A user logs in with the username or with the email, so an identifier should find one user. The
registration looks for the new username among the usernames and for the new email among the
emails; nothing keeps one user's username from being another's email. -/
namespace LoginIdentifiers

open TransactionRuns KeyedTables PythonRuntime ServiceSchema UserOperations OperationRuns
  OperationEffects ReadOperations

def AnswersTo (identifier : String) (u : User) : Prop :=
  u.username.val = identifier ∨ u.email.map VarChar.val = some identifier

instance (identifier : String) (u : User) : Decidable (AnswersTo identifier u) :=
  inferInstanceAs (Decidable (_ ∨ _))

/-- Every identifier finds at most one user. -/
def Unambiguous (db : Database) : Prop :=
  ∀ identifier, (db.users.rows.filter (fun u => AnswersTo identifier u)).length ≤ 1

def LogsIn (out : Surroundings) (db : Database) (u : User) (identifier password : String) : Prop :=
  userLogin out identifier password db = do
    let token ← out.accessToken u.id u.username
    pure ⟨200, "Login success", token⟩

abbrev Accounts := Database × (ℕ → Option String)

def remember (db : Database) (passwords : ℕ → Option String) : Operation → ℕ → Option String
  | .userRegister _ password _ _ _ => Function.update passwords db.users.next (some password)
  | .userModifyPassword id _ newPassword => Function.update passwords id (some newPassword)
  | _ => passwords

def accountStep (s : Accounts) (request : Request) : Tx Accounts := do
  let db ← transaction s.1 request
  pure (db, remember s.1 s.2 request.operation)

/-- A registration or a change of password. Salts differ from request to request; the check of a
hash accepts the password it was made of and no other. -/
structure AccountRequest (check : String → String → Bool) (request : Request) : Prop where
  operation : (∃ username password nickname email role,
      request.operation = .userRegister username password nickname email role) ∨
    ∃ id oldPassword newPassword,
      request.operation = .userModifyPassword id oldPassword newPassword
  checks : request.env.checkPassword = check
  hashes : ∀ p q, check q (request.env.hashPassword p) = true ↔ q = p

/-- A registration that no equal username and no equal email stops brings no username that is
another's email and no email that is another's username. -/
def Uncrossed (db : Database) : Operation → Prop
  | .userRegister username _ _ email _ =>
    (∀ u ∈ db.users.rows, u.username.val ≠ username ∧ u.email.map VarChar.val ≠ email) →
      ∀ u ∈ db.users.rows, u.email.map VarChar.val ≠ some username ∧ some u.username.val ≠ email
  | _ => True

def Careful (check : String → String → Bool) (s : Accounts) (request : Request) : Prop :=
  AccountRequest check request ∧ Uncrossed s.1 request.operation

structure WellKept (check : String → String → Bool) (s : Accounts) : Prop where
  apart : ∀ u ∈ s.1.users.rows, ∀ v ∈ s.1.users.rows, ∀ identifier,
    AnswersTo identifier u → AnswersTo identifier v → u = v
  passwords : ∀ u ∈ s.1.users.rows, ∃ p, s.2 u.id = some p ∧
    ∀ q, check q u.password.val = true ↔ q = p

variable {check : String → String → Bool} {db db' : Database} {passwords : ℕ → Option String}

theorem register_keeps {env : Environment} {username password role : String}
    {nickname email : Option String} {r : Reply Unit}
    (hashes : ∀ p q, check q (env.hashPassword p) = true ↔ q = p)
    (hcross : Uncrossed db (.userRegister username password nickname email role))
    (hk : WellKept check (db, passwords))
    (h : userRegister env username password nickname email role db = .ok (db', r)) :
    WellKept check
      (db', remember db passwords (.userRegister username password nickname email role)) := by
  simp only [userRegister, bind_eq_ok, require_eq_ok, bound_eq_ok, VarChar.ofString_eq_some,
    pure_eq_ok, Prod.mk.injEq, Bool.not_eq_true', List.any_eq_false, Bool.or_eq_true, not_or,
    beq_iff_eq] at h
  obtain ⟨_, hfree, name, hname, hash, hhash, nick, _, mail, hmail, rfl, _⟩ := h
  have hmail := optionalVarChar_eq_ok hmail
  have hcross := hcross hfree
  have strange : ∀ u ∈ db.users.rows, ∀ identifier, AnswersTo identifier u →
      ¬(name.val = identifier ∨ mail.map VarChar.val = some identifier) := by
    intro u hu identifier hi
    rw [hname, hmail]
    obtain ⟨hu₁, hu₂⟩ := hfree u hu
    obtain ⟨hu₃, hu₄⟩ := hcross u hu
    rintro (rfl | rfl)
    · exact hi.elim hu₁ hu₃
    · exact hi.elim (fun h => hu₄ (congrArg some h)) hu₂
  constructor
  · intro u hu v hv identifier hui hvi
    rcases List.mem_append.mp hu with hu | hu <;> rcases List.mem_append.mp hv with hv | hv
    · exact hk.apart u hu v hv identifier hui hvi
    · rw [List.mem_singleton] at hv
      subst hv
      exact absurd hvi (strange u hu identifier hui)
    · rw [List.mem_singleton] at hu
      subst hu
      exact absurd hui (strange v hv identifier hvi)
    · rw [List.mem_singleton] at hu hv
      rw [hu, hv]
  · intro u hu
    rcases List.mem_append.mp hu with hu | hu
    · obtain ⟨p, hp, hcheck⟩ := hk.passwords u hu
      exact ⟨p, (Function.update_of_ne (Table.key_ne_next hu) _ _).trans hp, hcheck⟩
    · rw [List.mem_singleton] at hu
      subst hu
      refine ⟨password, Function.update_self _ _ _, ?_⟩
      intro q
      rw [← hashes password q, ← hhash]
      rfl

theorem modify_keeps {env : Environment} {id : ℕ} {oldPassword newPassword : String}
    {r : Reply Unit} (hashes : ∀ p q, check q (env.hashPassword p) = true ↔ q = p)
    (hk : WellKept check (db, passwords))
    (h : userModifyPassword env id oldPassword newPassword db = .ok (db', r)) :
    WellKept check
      (db', remember db passwords (.userModifyPassword id oldPassword newPassword)) := by
  simp only [userModifyPassword, bind_eq_ok, orAbort_eq_ok, Table.find?_eq_some, user_key,
    bound_eq_ok, VarChar.ofString_eq_some, pure_eq_ok, Prod.mk.injEq] at h
  obtain ⟨w, ⟨_, rfl⟩, _, _, _, _, hash, hhash, rfl, _⟩ := h
  constructor
  · intro u hu v hv identifier hui hvi
    obtain ⟨u₀, hu₀, rfl⟩ := List.mem_map.mp hu
    obtain ⟨v₀, hv₀, rfl⟩ := List.mem_map.mp hv
    have same : ∀ x : User, AnswersTo identifier (if key x = w.id then setPassword hash x else x) →
        AnswersTo identifier x := by
      intro x hx
      split at hx
      · exact hx
      · exact hx
    rw [hk.apart u₀ hu₀ v₀ hv₀ identifier (same u₀ hui) (same v₀ hvi)]
  · intro u hu
    obtain ⟨u₀, hu₀, _, ⟨hkey, rfl⟩ | ⟨hkey, rfl⟩⟩ :=
      db.users.update_origin (f := setPassword hash) (fun _ => rfl) hu
    · refine ⟨newPassword, ?_, ?_⟩
      · change Function.update passwords w.id (some newPassword) (key u₀) = some newPassword
        rw [hkey, Function.update_self]
      · intro q
        rw [← hashes newPassword q, ← hhash]
        rfl
    · obtain ⟨p, hp, hcheck⟩ := hk.passwords u hu₀
      exact ⟨p, (Function.update_of_ne hkey _ _).trans hp, hcheck⟩

theorem account_step_keeps {s t : Accounts} {request : Request}
    (hk : WellKept check s) (hg : Careful check s request)
    (h : accountStep s request = .ok t) : WellKept check t := by
  obtain ⟨db, passwords⟩ := s
  obtain ⟨env, operation⟩ := request
  obtain ⟨⟨hoperation, _, hashes⟩, hcross⟩ := hg
  simp only [accountStep, bind_eq_ok, pure_eq_ok] at h
  obtain ⟨db', h, rfl⟩ := h
  rcases hoperation with ⟨username, password, nickname, email, role, rfl⟩ | ⟨id, old, new, rfl⟩
  · obtain ⟨r, h⟩ := map_fst_eq_ok.mp h
    exact register_keeps hashes hcross hk h
  · obtain ⟨r, h⟩ := map_fst_eq_ok.mp h
    exact modify_keeps hashes hk h

/-- An identifier that finds a user finds no one else. -/
theorem WellKept.found (hk : WellKept check (db, passwords)) {u : User}
    (hu : u ∈ db.users.rows) {identifier : String} (hi : AnswersTo identifier u) :
    db.users.rows.filter (fun v => AnswersTo identifier v) = [u] := by
  have hnodup : (db.users.rows.filter (fun v => AnswersTo identifier v)).Nodup :=
    (List.Nodup.of_map _ db.users.nodup).filter _
  refine List.perm_singleton.mp ?_
  refine (List.perm_ext_iff_of_nodup hnodup (List.nodup_singleton u)).mpr ?_
  intro v
  rw [List.mem_filter, decide_eq_true_iff, List.mem_singleton]
  constructor
  · rintro ⟨hv, hvi⟩
    exact hk.apart v hv u hu identifier hvi hi
  · rintro rfl
    exact ⟨hu, hi⟩

theorem WellKept.unambiguous (hk : WellKept check (db, passwords)) : Unambiguous db := by
  intro identifier
  cases hf : db.users.rows.filter (fun u => AnswersTo identifier u) with
  | nil => exact Nat.zero_le 1
  | cons u l =>
    have hu : u ∈ db.users.rows.filter (fun u => AnswersTo identifier u) :=
      hf ▸ List.mem_cons_self
    rw [List.mem_filter, decide_eq_true_iff] at hu
    rw [← hf, hk.found hu.1 hu.2]
    exact Nat.le_refl 1

theorem WellKept.logsIn (hk : WellKept check (db, passwords)) {u : User} (hu : u ∈ db.users.rows)
    {identifier p : String} (hi : AnswersTo identifier u)
    (hp : ∀ q, check q u.password.val = true ↔ q = p) {out : Surroundings}
    (hcheck : out.checkPassword = check) : LogsIn out db u identifier p := by
  have hquery : db.users.rows.filter (fun v =>
      v.username.val == identifier || v.email.any (fun e => e.val == identifier)) = [u] := by
    rw [← hk.found hu hi]
    apply List.filter_congr
    intro v _
    rw [Bool.eq_iff_iff]
    cases hv : v.email with
    | none => simp [AnswersTo, hv]
    | some e => simp [AnswersTo, hv]
  have hfetch : out.fetch [u] = [u] := List.perm_singleton.mp (out.fetch_perm [u])
  simp only [LogsIn, userLogin, hquery, hfetch, hcheck, List.head?_cons, orAbort, ok_bind]
  rw [(hp p).mpr rfl]
  rfl

/-- The users table starts empty. -/
theorem identifiers_unambiguous {db₀ : Database} (h₀ : db₀.users.rows = [])
    (h : Runs accountStep (Careful check) (db₀, fun _ => none) (db, passwords)) :
    Unambiguous db ∧ ∀ u ∈ db.users.rows, ∃ p, passwords u.id = some p ∧
      ∀ out : Surroundings, out.checkPassword = check →
        LogsIn out db u u.username.val p ∧
          ∀ email, u.email = some email → LogsIn out db u email.val p := by
  have hstart : WellKept check (db₀, fun _ => none) := by
    constructor
    · intro u hu
      rw [h₀] at hu
      cases hu
    · intro u hu
      rw [h₀] at hu
      cases hu
  have hk : WellKept check (db, passwords) :=
    h.preserves (fun _ _ _ hk hg hs => account_step_keeps hk hg hs) hstart
  refine ⟨hk.unambiguous, ?_⟩
  intro u hu
  obtain ⟨p, hp, hcheck⟩ := hk.passwords u hu
  refine ⟨p, hp, fun out hout => ⟨hk.logsIn hu (Or.inl rfl) hcheck hout, ?_⟩⟩
  intro email he
  refine hk.logsIn hu (Or.inr ?_) hcheck hout
  rw [he]
  rfl

theorem two_found {rows : List User} {u v : User} {identifier : String} (hu : u ∈ rows)
    (hui : AnswersTo identifier u) (hvi : AnswersTo identifier v) :
    1 < ((rows ++ [v]).filter (fun w => AnswersTo identifier w)).length := by
  have hold : 0 < (rows.filter (fun w => AnswersTo identifier w)).length :=
    List.length_pos_of_mem (List.mem_filter.mpr ⟨hu, decide_eq_true hui⟩)
  have hnew : [v].filter (fun w => AnswersTo identifier w) = [v] :=
    List.filter_cons_of_pos (decide_eq_true hvi)
  rw [List.filter_append, List.length_append, hnew, List.length_singleton]
  omega

/-- The guard leaves out nothing else: a registration against it that succeeds makes an
identifier ambiguous. -/
theorem crossed_ambiguous {env : Environment} {username password role : String}
    {nickname email : Option String} {r : Reply Unit}
    (hcross : ¬Uncrossed db (.userRegister username password nickname email role))
    (h : userRegister env username password nickname email role db = .ok (db', r)) :
    ¬Unambiguous db' := by
  simp only [userRegister, bind_eq_ok, bound_eq_ok, VarChar.ofString_eq_some, pure_eq_ok,
    Prod.mk.injEq] at h
  obtain ⟨_, _, name, hname, hash, _, nick, _, mail, hmail, rfl, _⟩ := h
  have hmail := optionalVarChar_eq_ok hmail
  simp only [Uncrossed, not_forall, not_and_or, ne_eq, not_not] at hcross
  obtain ⟨_, u, hu, hcross⟩ := hcross
  intro hun
  rcases hcross with he | he
  · exact absurd (hun username) (Nat.not_le.mpr (two_found hu (Or.inr he) (Or.inl hname)))
  · exact absurd (hun u.username.val)
      (Nat.not_le.mpr (two_found hu (Or.inl rfl) (Or.inr (hmail.trans he.symm))))

def noUsers : Database where
  users := Table.empty
  services := Table.empty
  userServiceLink := ∅
  iterations := Table.empty
  categories := Table.empty
  live := ApiStore.empty
  drafts := ApiStore.empty

def playAccounts (operations : List Operation) : Accounts :=
  runEvents accountStep (noUsers, fun _ => none)
    (operations.map (fun operation => ⟨plainEnvironment, operation⟩))

def registerAnn : Operation :=
  .userRegister "ann" "first" none (some "ann@example.org") "guest"

def registerShadow : Operation := .userRegister "ann@example.org" "second" none none "guest"

theorem plain_accountRequest {operation : Operation}
    (h : operation = registerAnn ∨ operation = registerShadow) :
    AccountRequest plainEnvironment.checkPassword ⟨plainEnvironment, operation⟩ := by
  refine ⟨Or.inl ?_, rfl, fun p q => beq_iff_eq⟩
  rcases h with rfl | rfl
  · exact ⟨_, _, _, _, _, rfl⟩
  · exact ⟨_, _, _, _, _, rfl⟩

theorem ann_run : Runs accountStep (Careful plainEnvironment.checkPassword)
    (noUsers, fun _ => none) (playAccounts [registerAnn]) := by
  have hcareful : Careful plainEnvironment.checkPassword (noUsers, fun _ => none)
      ⟨plainEnvironment, registerAnn⟩ :=
    ⟨plain_accountRequest (Or.inl rfl), fun _ u hu => absurd hu List.not_mem_nil⟩
  exact (Runs.refl _).tail hcareful

theorem ann_unambiguous :
    Unambiguous (playAccounts [registerAnn]).1 ∧
      ∀ u ∈ (playAccounts [registerAnn]).1.users.rows, ∃ p,
        (playAccounts [registerAnn]).2 u.id = some p ∧
        ∀ out : Surroundings, out.checkPassword = plainEnvironment.checkPassword →
          LogsIn out (playAccounts [registerAnn]).1 u u.username.val p ∧
            ∀ email, u.email = some email →
              LogsIn out (playAccounts [registerAnn]).1 u email.val p :=
  identifiers_unambiguous (rfl : noUsers.users.rows = []) ann_run

/-- One identifier finds two users, and with the database returning the second first, the first
cannot log in with the own email. -/
theorem shadowed_login :
    Runs accountStep (fun _ request => AccountRequest plainEnvironment.checkPassword request)
        (noUsers, fun _ => none) (playAccounts [registerAnn, registerShadow]) ∧
      ¬Unambiguous (playAccounts [registerAnn, registerShadow]).1 ∧
      userLogin { plainSurroundings with
          fetch := List.reverse
          fetch_perm := List.reverse_perm }
        "ann@example.org" "first" (playAccounts [registerAnn, registerShadow]).1 =
          .error (.reply (-2) "Wrong password") := by
  refine ⟨?_, ?_, ?_⟩
  · refine runs_runEvents _ _ _ ?_ (.refl _)
    intro e he _
    rcases List.mem_cons.mp he with rfl | he
    · exact plain_accountRequest (Or.inl rfl)
    · rw [List.mem_singleton.mp he]
      exact plain_accountRequest (Or.inr rfl)
  · intro h
    have htwo : ((playAccounts [registerAnn, registerShadow]).1.users.rows.filter
        (fun u => AnswersTo "ann@example.org" u)).length = 2 := by decide +kernel
    have hone := h "ann@example.org"
    omega
  · rfl

end LoginIdentifiers
