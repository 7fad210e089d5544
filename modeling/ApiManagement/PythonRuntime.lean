import ApiManagement.ParentLinkedRows

/-! # What the backend takes from its runtime

JSON payload values as Python sees them, the two string functions applied to uuids, the
ways a request handler ends, and the environment: query order, the database driver,
bcrypt, the clock and the mail server. -/
namespace PythonRuntime

open TransactionRuns ParentLinkedRows

/-- A value of a parsed JSON payload. An object lists every key once. -/
inductive JsonValue where
  | null
  | bool (b : Bool)
  | num (q : Rat)
  | str (s : String)
  | arr (xs : List JsonValue)
  | obj (kvs : List (String × JsonValue))

def JsonValue.truthy : JsonValue → Bool
  | .null => false
  | .bool b => b
  | .num q => q != 0
  | .str s => s != ""
  | .arr xs => !xs.isEmpty
  | .obj kvs => !kvs.isEmpty

def hexDigit (c : Char) : Option ℕ :=
  let n := c.toNat
  if 48 ≤ n ∧ n ≤ 57 then some (n - 48)
  else if 65 ≤ n ∧ n ≤ 70 then some (n - 55)
  else if 97 ≤ n ∧ n ≤ 102 then some (n - 87)
  else none

/-- `unquote_to_bytes`: a percent sign without two hex digits stays. -/
def unquoteToBytes : List Char → List ℕ
  | [] => []
  | c :: cs =>
    match c, cs with
    | '%', a :: b :: rest =>
      match hexDigit a, hexDigit b with
      | some x, some y => (16 * x + y) :: unquoteToBytes rest
      | _, _ => 37 :: unquoteToBytes (a :: b :: rest)
    | c, cs => c.toNat :: unquoteToBytes cs

def isContinuation (b : ℕ) : Bool := 128 ≤ b && b ≤ 191

def secondOfThree (a b : ℕ) : Bool :=
  if a = 224 then 160 ≤ b && b ≤ 191 else if a = 237 then 128 ≤ b && b ≤ 159
  else isContinuation b

def secondOfFour (a b : ℕ) : Bool :=
  if a = 240 then 144 ≤ b && b ≤ 191 else if a = 244 then 128 ≤ b && b ≤ 143
  else isContinuation b

def replacement : Char := Char.ofNat 65533

/-- UTF-8 decoding with `errors="replace"`: one replacement character for each maximal
ill-formed part. -/
def decodeUtf8 : List ℕ → List Char
  | [] => []
  | a :: rest =>
    if a < 128 then Char.ofNat a :: decodeUtf8 rest
    else if 194 ≤ a && a ≤ 223 then
      match rest with
      | b :: rest₁ =>
        if isContinuation b then Char.ofNat ((a - 192) * 64 + (b - 128)) :: decodeUtf8 rest₁
        else replacement :: decodeUtf8 (b :: rest₁)
      | [] => [replacement]
    else if 224 ≤ a && a ≤ 239 then
      match rest with
      | b :: rest₁ =>
        if secondOfThree a b then
          match rest₁ with
          | c :: rest₂ =>
            if isContinuation c then
              Char.ofNat ((a - 224) * 4096 + (b - 128) * 64 + (c - 128)) :: decodeUtf8 rest₂
            else replacement :: decodeUtf8 (c :: rest₂)
          | [] => [replacement]
        else replacement :: decodeUtf8 (b :: rest₁)
      | [] => [replacement]
    else if 240 ≤ a && a ≤ 244 then
      match rest with
      | b :: rest₁ =>
        if secondOfFour a b then
          match rest₁ with
          | c :: rest₂ =>
            if isContinuation c then
              match rest₂ with
              | d :: rest₃ =>
                if isContinuation d then
                  Char.ofNat ((a - 240) * 262144 + (b - 128) * 4096 + (c - 128) * 64 +
                    (d - 128)) :: decodeUtf8 rest₃
                else replacement :: decodeUtf8 (d :: rest₃)
              | [] => [replacement]
            else replacement :: decodeUtf8 (c :: rest₂)
          | [] => [replacement]
        else replacement :: decodeUtf8 (b :: rest₁)
      | [] => [replacement]
    else replacement :: decodeUtf8 rest

def unquoteRuns : List Char → List Char → List Char
  | [], run => decodeUtf8 (unquoteToBytes run.reverse)
  | c :: cs, run =>
    if c.toNat < 128 then unquoteRuns cs (c :: run)
    else decodeUtf8 (unquoteToBytes run.reverse) ++ c :: unquoteRuns cs []

def unquote (s : String) : String := String.ofList (unquoteRuns s.toList [])

def isSpace (c : Char) : Bool :=
  let n := c.toNat
  (9 ≤ n && n ≤ 13) || (28 ≤ n && n ≤ 32) || n == 133 || n == 160 || n == 5760 ||
    (8192 ≤ n && n ≤ 8202) || n == 8232 || n == 8233 || n == 8239 || n == 8287 || n == 12288

def strip (s : String) : String :=
  String.ofList ((s.toList.dropWhile isSpace).reverse.dropWhile isSpace).reverse

example : strip (unquote " team%2Fcore%2Fusers%0A") = "team/core/users" := by decide +kernel

inductive Raised where
  | integrityError
  | dataError
  | attributeError
  | keyError
  | typeError
  | recursionError
  | staleDataError
  | valueError
  deriving DecidableEq, Repr

/-- `reply` is a failure object, `checkResult` the dictionary of the permission check
returned as it is, with the failure object inside. -/
inductive Abort where
  | reply (status : ℤ) (message : String)
  | checkResult (status : ℤ) (message : String)
  | raised (e : Raised)
  deriving DecidableEq, Repr

abbrev Tx := Except Abort

structure Reply (α : Type) where
  status : ℤ
  message : String
  data : α
  deriving DecidableEq

def liftRows {α : Type} : Except RowError α → Tx α
  | .ok a => .ok a
  | .error .foreignKey => .error (.raised .integrityError)
  | .error .missingKey => .error (.raised .keyError)
  | .error .recursionDepth => .error (.raised .recursionError)

@[simp] theorem liftRows_eq_ok {α : Type} {x : Except RowError α} {a : α} :
    liftRows x = .ok a ↔ x = .ok a := by
  cases x with
  | ok b => simp [liftRows]
  | error e => cases e <;> simp [liftRows]

/-- `fetch` is the order in which a query without ORDER BY returns its rows. The `bind`
functions are what the database driver makes of a JSON value bound to a column: `none`
is an exception, `some none` is NULL. -/
structure Environment where
  fetch : {α : Type} → List α → List α
  fetch_perm : ∀ {α : Type} (l : List α), (fetch l).Perm l
  bindText : JsonValue → Option (Option String)
  bindBoolean : JsonValue → Option (Option Bool)
  bindInteger : JsonValue → Option (Option ℤ)
  hashPassword : String → String
  checkPassword : String → String → Bool
  now : ℕ
  mailConfigured : Bool

theorem Environment.mem_fetch (env : Environment) {α : Type} {l : List α} {a : α} :
    a ∈ env.fetch l ↔ a ∈ l := (env.fetch_perm l).mem_iff

def plainEnvironment : Environment where
  fetch l := l
  fetch_perm _ := List.Perm.refl _
  bindText
    | .null => some none
    | .str s => some (some s)
    | _ => none
  bindBoolean
    | .null => some none
    | .bool b => some (some b)
    | _ => none
  bindInteger
    | .null => some none
    | .num q => if q.den = 1 then some (some q.num) else none
    | _ => none
  hashPassword p := p
  checkPassword p h := p == h
  now := 1700000000
  mailConfigured := false

end PythonRuntime
