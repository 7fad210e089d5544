import ApiManagement.PythonRuntime
import Mathlib.Data.Finset.Basic

/-! # The tables of the backend

Enumerations, row types and the database as one value. `Api` and `ApiDraft` have the same
columns but for the container they belong to (a service, a service iteration), and so do
the params and the param drafts; each pair shares one row type. -/
namespace ServiceSchema

open TransactionRuns KeyedTables ParentLinkedRows PythonRuntime

inductive HttpMethod where
  | get | post | put | delete | patch
  deriving DecidableEq, Repr

def HttpMethod.ofValue : String → Option HttpMethod
  | "GET" => some .get
  | "POST" => some .post
  | "PUT" => some .put
  | "DELETE" => some .delete
  | "PATCH" => some .patch
  | _ => none

inductive ApiLevel where
  | p0 | p1 | p2 | p3 | p4
  deriving DecidableEq, Repr

def ApiLevel.ofValue : String → Option ApiLevel
  | "P0" => some .p0
  | "P1" => some .p1
  | "P2" => some .p2
  | "P3" => some .p3
  | "P4" => some .p4
  | _ => none

inductive ParamLocation where
  | query | path | header | cookie | body
  deriving DecidableEq, Repr

def ParamLocation.ofValue : JsonValue → Option ParamLocation
  | .str "query" => some .query
  | .str "path" => some .path
  | .str "header" => some .header
  | .str "cookie" => some .cookie
  | .str "body" => some .body
  | _ => none

inductive ParamType where
  | string | int | double | boolean | array | object | binary
  deriving DecidableEq, Repr

def ParamType.ofValue : JsonValue → Option ParamType
  | .str "string" => some .string
  | .str "int" => some .int
  | .str "double" => some .double
  | .str "boolean" => some .boolean
  | .str "array" => some .array
  | .str "object" => some .object
  | .str "binary" => some .binary
  | _ => none

inductive UserRole where
  | frontend | backend | fullstack | qa | devops | productManager | designer | architect
  | projLead | guest
  deriving DecidableEq, Repr

def UserRole.ofValue : String → Option UserRole
  | "frontend" => some .frontend
  | "backend" => some .backend
  | "fullstack" => some .fullstack
  | "qa" => some .qa
  | "devops" => some .devops
  | "product_manager" => some .productManager
  | "designer" => some .designer
  | "architect" => some .architect
  | "proj_lead" => some .projLead
  | "guest" => some .guest
  | _ => none

inductive UserLevel where
  | l0 | l1 | l2 | l3 | l4
  deriving DecidableEq, Repr

structure VarChar (n : ℕ) where
  val : String
  fits : val.length ≤ n
  deriving DecidableEq

def VarChar.ofString (n : ℕ) (s : String) : Option (VarChar n) :=
  if h : s.length ≤ n then some ⟨s, h⟩ else none

theorem VarChar.ofString_eq_some {n : ℕ} {s : String} {v : VarChar n} :
    VarChar.ofString n s = some v ↔ v.val = s := by
  unfold VarChar.ofString
  constructor
  · intro h
    split at h
    · cases h; rfl
    · cases h
  · rintro rfl
    rw [dif_pos v.fits]

/-- A value the column type refuses. -/
def bound {α : Type} (x : Option α) : Tx α := orAbort x (.raised .dataError)

def notNull {α : Type} (x : Option α) : Tx α := orAbort x (.raised .integrityError)

@[simp] theorem bound_eq_ok {α : Type} {x : Option α} {a : α} : bound x = .ok a ↔ x = some a :=
  orAbort_eq_ok

@[simp] theorem notNull_eq_ok {α : Type} {x : Option α} {a : α} :
    notNull x = .ok a ↔ x = some a :=
  orAbort_eq_ok

theorem VarChar.ext {n : ℕ} {v w : VarChar n} (h : v.val = w.val) : v = w := by
  cases v
  cases w
  simp only at h
  subst h
  rfl

structure User where
  id : ℕ
  username : VarChar 64
  password : VarChar 128
  nickname : Option (VarChar 64)
  email : Option (VarChar 128)
  role : UserRole
  level : UserLevel
  deriving DecidableEq

structure Service where
  id : ℕ
  ownerId : ℕ
  serviceUuid : VarChar 64
  version : VarChar 32
  description : Option String
  isDeleted : Bool
  deletedAt : Option ℕ
  deriving DecidableEq

structure ServiceIteration where
  id : ℕ
  serviceId : ℕ
  creatorId : Option ℕ
  version : Option (VarChar 32)
  description : Option String
  isCommitted : Bool
  deriving DecidableEq

structure ApiCategory where
  id : ℕ
  serviceId : ℕ
  name : VarChar 64
  description : Option String
  deriving DecidableEq

structure ApiFields where
  ownerId : ℕ
  categoryId : Option ℕ
  name : VarChar 128
  method : HttpMethod
  path : VarChar 256
  description : Option String
  level : ApiLevel
  isEnabled : Bool
  deriving DecidableEq

structure ApiRow where
  id : ℕ
  container : ℕ
  fields : ApiFields
  deriving DecidableEq

abbrev Api := ApiRow

abbrev ApiDraft := ApiRow

structure RequestFields where
  name : VarChar 64
  location : ParamLocation
  type : ParamType
  required : Option Bool
  defaultValue : Option (VarChar 256)
  description : Option String
  example' : Option (VarChar 256)
  arrayChildType : Option ParamType
  deriving DecidableEq

structure ResponseFields where
  statusCode : ℤ
  name : VarChar 64
  type : ParamType
  required : Option Bool
  description : Option String
  example' : Option (VarChar 256)
  arrayChildType : Option ParamType
  deriving DecidableEq

abbrev RequestParam := LinkedRow RequestFields
abbrev ResponseParam := LinkedRow ResponseFields

class ParamFields (F : Type) where
  type : F → ParamType
  arrayChildType : F → Option ParamType

instance : ParamFields RequestFields := ⟨RequestFields.type, RequestFields.arrayChildType⟩
instance : ParamFields ResponseFields := ⟨ResponseFields.type, ResponseFields.arrayChildType⟩

def takesChildren (type : ParamType) (arrayChildType : Option ParamType) : Bool :=
  type == .object || (type == .array && arrayChildType == some .object)

def mayHaveChildren {F : Type} [ParamFields F] (f : F) : Bool :=
  takesChildren (ParamFields.type f) (ParamFields.arrayChildType f)

/-- What a param must be for another one to be its child. -/
def Nests {F : Type} [ParamFields F] (parent _child : F) : Prop := mayHaveChildren parent = true

instance : Keyed User := ⟨User.id, fun k r => { r with id := k }, fun _ _ => rfl⟩
instance : Keyed Service := ⟨Service.id, fun k r => { r with id := k }, fun _ _ => rfl⟩
instance : Keyed ServiceIteration :=
  ⟨ServiceIteration.id, fun k r => { r with id := k }, fun _ _ => rfl⟩
instance : Keyed ApiCategory := ⟨ApiCategory.id, fun k r => { r with id := k }, fun _ _ => rfl⟩
instance : Keyed ApiRow := ⟨ApiRow.id, fun k r => { r with id := k }, fun _ _ => rfl⟩

@[simp] theorem user_key (r : User) : key r = r.id := rfl
@[simp] theorem service_key (r : Service) : key r = r.id := rfl
@[simp] theorem iteration_key (r : ServiceIteration) : key r = r.id := rfl
@[simp] theorem category_key (r : ApiCategory) : key r = r.id := rfl
@[simp] theorem api_key (r : ApiRow) : key r = r.id := rfl
@[simp] theorem service_setKey (k : ℕ) (r : Service) : setKey k r = { r with id := k } := rfl
@[simp] theorem iteration_setKey (k : ℕ) (r : ServiceIteration) :
    setKey k r = { r with id := k } := rfl
@[simp] theorem category_setKey (k : ℕ) (r : ApiCategory) : setKey k r = { r with id := k } := rfl
@[simp] theorem api_setKey (k : ℕ) (r : ApiRow) : setKey k r = { r with id := k } := rfl

/-- Apis of many containers with their params: the live tables, or the draft tables. -/
structure ApiStore where
  apis : Table ApiRow
  requestParams : Table RequestParam
  responseParams : Table ResponseParam

namespace ApiStore

def apisOf (st : ApiStore) (c : ℕ) : List ApiRow :=
  st.apis.rows.filter (fun a => a.container == c)

def requestParamsOf (st : ApiStore) (a : ℕ) : List RequestParam :=
  st.requestParams.rows.filter (fun r => r.holder == a)

def responseParamsOf (st : ApiStore) (a : ℕ) : List ResponseParam :=
  st.responseParams.rows.filter (fun r => r.holder == a)

def empty : ApiStore := ⟨Table.empty, Table.empty, Table.empty⟩

@[simp] theorem mem_apisOf {st : ApiStore} {c : ℕ} {a : ApiRow} :
    a ∈ st.apisOf c ↔ a ∈ st.apis.rows ∧ a.container = c := by
  simp [apisOf]

@[simp] theorem mem_requestParamsOf {st : ApiStore} {a : ℕ} {r : RequestParam} :
    r ∈ st.requestParamsOf a ↔ r ∈ st.requestParams.rows ∧ r.holder = a := by
  simp [requestParamsOf]

@[simp] theorem mem_responseParamsOf {st : ApiStore} {a : ℕ} {r : ResponseParam} :
    r ∈ st.responseParamsOf a ↔ r ∈ st.responseParams.rows ∧ r.holder = a := by
  simp [responseParamsOf]

end ApiStore

/-- `userServiceLink` holds pairs of a user id and a service id. -/
structure Database where
  users : Table User
  services : Table Service
  userServiceLink : Finset (ℕ × ℕ)
  iterations : Table ServiceIteration
  categories : Table ApiCategory
  live : ApiStore
  drafts : ApiStore

/-- Users may be there from the start, administrators among them; nothing else is. -/
structure Initial (db : Database) : Prop where
  usernames : (db.users.rows.map User.username).Nodup
  emails : (db.users.rows.filterMap User.email).Nodup
  services : db.services = Table.empty
  links : db.userServiceLink = ∅
  iterations : db.iterations = Table.empty
  categories : db.categories = Table.empty
  live : db.live = ApiStore.empty
  drafts : db.drafts = ApiStore.empty

def maintainers (db : Database) (serviceId : ℕ) : List User :=
  db.users.rows.filter (fun u => (u.id, serviceId) ∈ db.userServiceLink)

/-- `user in service.maintainers`, where `db.get` may have found no user. -/
def isMaintainer (db : Database) (serviceId : ℕ) (user : Option User) : Bool :=
  match user with
  | none => false
  | some u => (u.id, serviceId) ∈ db.userServiceLink

/-- The test `c and user.level.value != 0`: the level is read only if `c` holds, and
reading it from a missing user raises. -/
def levelAboveZeroIf (c : Bool) (user : Option User) : Tx Bool :=
  if c then
    match user with
    | none => .error (.raised .attributeError)
    | some u => .ok (u.level != .l0)
  else .ok false

def requireLevelZeroIf (c : Bool) (user : Option User) (failure : Abort) : Tx Unit := do
  let above ← levelAboveZeroIf c user
  require (!above) failure

theorem requireLevelZeroIf_eq_ok {c : Bool} {user : Option User} {failure : Abort} {x : Unit} :
    requireLevelZeroIf c user failure = .ok x ↔
      (c = true → ∃ u, user = some u ∧ u.level = .l0) := by
  unfold requireLevelZeroIf levelAboveZeroIf
  cases c with
  | false => simp
  | true => cases user <;> simp

end ServiceSchema
