import ApiManagement.ServiceSchema

/-! # Accounts

Registration and change of password, and how a user is serialized. -/
namespace UserOperations

open TransactionRuns KeyedTables PythonRuntime ServiceSchema

structure UserInfo where
  id : ℕ
  username : VarChar 64
  nickname : Option (VarChar 64)
  email : Option (VarChar 128)
  role : UserRole
  level : UserLevel
  deriving DecidableEq

def userToJson (u : User) : UserInfo := ⟨u.id, u.username, u.nickname, u.email, u.role, u.level⟩

def optionalVarChar (n : ℕ) : Option String → Tx (Option (VarChar n))
  | none => pure none
  | some s => do
    let v ← bound (VarChar.ofString n s)
    pure (some v)

theorem optionalVarChar_eq_ok {n : ℕ} {s : Option String} {v : Option (VarChar n)}
    (h : optionalVarChar n s = .ok v) : v.map VarChar.val = s := by
  cases s with
  | none =>
    cases h
    rfl
  | some s =>
    simp only [optionalVarChar, bind_eq_ok, bound_eq_ok, VarChar.ofString_eq_some,
      pure_eq_ok] at h
    obtain ⟨w, hw, rfl⟩ := h
    exact congrArg some hw

/-- The comparison with a missing email is `IS NULL`, so it finds any user without one. -/
def userRegister (env : Environment) (username password : String)
    (nickname email : Option String) (role : String) (db : Database) :
    Tx (Database × Reply Unit) := do
  require (!db.users.rows.any (fun u =>
    u.username.val == username || u.email.map VarChar.val == email))
    (.reply (-1) "Username or email already registered")
  let username ← bound (VarChar.ofString 64 username)
  let hash ← bound (VarChar.ofString 128 (env.hashPassword password))
  let nickname ← optionalVarChar 64 nickname
  let email ← optionalVarChar 128 email
  let user : User := ⟨0, username, hash, nickname, email, (UserRole.ofValue role).getD .guest, .l4⟩
  pure ({ db with users := db.users.insert user }, ⟨200, "Register success", ()⟩)

def setPassword (hash : VarChar 128) (u : User) : User := { u with password := hash }

def userModifyPassword (env : Environment) (id : ℕ) (oldPassword newPassword : String)
    (db : Database) : Tx (Database × Reply Unit) := do
  let user ← orAbort (db.users.find? id) (.reply (-1) "User not found")
  require (env.checkPassword oldPassword user.password.val) (.reply (-2) "Wrong old password")
  require (oldPassword != newPassword)
    (.reply (-3) "New password cannot be the same as old password")
  let hash ← bound (VarChar.ofString 128 (env.hashPassword newPassword))
  pure ({ db with users := db.users.update user.id (setPassword hash) (fun _ => rfl) },
    ⟨200, "Modify password success", ()⟩)

end UserOperations
