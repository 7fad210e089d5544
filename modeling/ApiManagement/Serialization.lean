import ApiManagement.DraftEditor
import ApiManagement.OrderedDictionaries
import ApiManagement.ReadOperations

/-! # Serialization of rows

`SerializableMixin.toJson` writes the columns of any row, and the rows it is related to if asked.
Here it stands with its arguments, over all classes and with all columns, the hash of a password
among them; the records that the handlers return are what it gives for the arguments they pass. -/
namespace Serialization

open TransactionRuns KeyedTables PythonRuntime ServiceSchema UserOperations ServiceOperations
  ApiOperations ReadOperations DraftEditor OrderedDictionaries

inductive Related (ε : Type) where
  | one (row : Option ε)
  | many (rows : List ε)

structure Mapped (ε : Type) where
  columns : Members
  relations : List (String × Related ε)

/-- `included` is empty for `None` as well. -/
structure Arguments where
  included : List String
  excluded : List String
  includeRelations : Bool

def defaultArguments : Arguments := ⟨[], ["password"], false⟩

def withRelations : Arguments := { defaultArguments with includeRelations := true }

section Mixin

variable {ε : Type} (nested : ε → Members)

/-- Where `include` names the relationship; a list that is not empty has no `toJson`. -/
def includedJson : Related ε → Except Raised JsonValue
  | .one none => pure .null
  | .one (some row) => pure (.obj (nested row))
  | .many [] => pure .null
  | .many (_ :: _) => .error .attributeError

def relatedJson : Related ε → JsonValue
  | .one row => orNull (fun row => .obj (nested row)) row
  | .many rows => .arr (rows.map (fun row => .obj (nested row)))

def assignIncluded (arguments : Arguments) (data : Members) (relation : String × Related ε) :
    Except Raised Members :=
  if relation.1 ∈ arguments.included then do
    let value ← includedJson nested relation.2
    pure (set data relation.1 value)
  else pure data

/-- Every column that is included assigns the included relationships again. -/
def assignColumn (arguments : Arguments) (relations : List (String × Related ε)) (data : Members)
    (column : String × JsonValue) : Except Raised Members :=
  if arguments.included ≠ [] ∧ column.1 ∉ arguments.included then pure data
  else do
    let data ← if arguments.included = [] then pure data
      else relations.foldlM (assignIncluded nested arguments) data
    pure (if column.1 ∈ arguments.excluded then data else set data column.1 column.2)

def assignRelation (arguments : Arguments) (data : Members) (relation : String × Related ε) :
    Members :=
  if relation.1 ∈ arguments.excluded then data
  else set data relation.1 (relatedJson nested relation.2)

def mixinToJson (arguments : Arguments) (m : Mapped ε) : Except Raised Members := do
  let data ← m.columns.foldlM (assignColumn nested arguments m.relations) []
  pure (if arguments.includeRelations then m.relations.foldl (assignRelation nested arguments) data
    else data)

end Mixin

inductive Stage where
  | live
  | draft

/-- A row of any class; the classes of an api and of its draft differ in the stage. -/
inductive Entity where
  | user (u : User)
  | service (s : Service)
  | iteration (i : ServiceIteration)
  | category (c : ApiCategory)
  | api (stage : Stage) (a : ApiRow)
  | requestParam (stage : Stage) (p : RequestParam)
  | responseParam (stage : Stage) (p : ResponseParam)

structure Times where
  createdAt : String → ℕ → JsonValue
  updatedAt : String → ℕ → JsonValue
  isoformat : ℕ → String

def userRoleValue : UserRole → String
  | .frontend => "frontend"
  | .backend => "backend"
  | .fullstack => "fullstack"
  | .qa => "qa"
  | .devops => "devops"
  | .productManager => "product_manager"
  | .designer => "designer"
  | .architect => "architect"
  | .projLead => "proj_lead"
  | .guest => "guest"

def userLevelValue : UserLevel → ℕ
  | .l0 => 0
  | .l1 => 1
  | .l2 => 2
  | .l3 => 3
  | .l4 => 4

namespace Stage

def store (db : Database) : Stage → ApiStore
  | .live => db.live
  | .draft => db.drafts

def apiTable : Stage → String
  | .live => "api"
  | .draft => "api_draft"

def requestTable : Stage → String
  | .live => "request_param"
  | .draft => "request_param_draft"

def responseTable : Stage → String
  | .live => "response_param"
  | .draft => "response_param_draft"

/-- The relationship of an api to what it belongs to. -/
def containerKey : Stage → String
  | .live => "service"
  | .draft => "service_iteration"

end Stage

def apiColumns (times : Times) (stage : Stage) (a : ApiRow) : Members :=
  [("id", .num a.id), (stage.containerKey ++ "_id", .num a.container),
    ("owner_id", .num a.fields.ownerId),
    ("category_id", orNull (fun (i : ℕ) => .num i) a.fields.categoryId),
    ("name", .str a.fields.name.val), ("method", .str (httpMethodValue a.fields.method)),
    ("path", .str a.fields.path.val), ("description", orNull .str a.fields.description),
    ("level", .str (apiLevelValue a.fields.level)), ("is_enabled", .bool a.fields.isEnabled),
    ("created_at", times.createdAt stage.apiTable a.id),
    ("updated_at", times.updatedAt stage.apiTable a.id)]

def columns (times : Times) : Entity → Members
  | .user u =>
    [("id", .num u.id), ("username", .str u.username.val), ("password", .str u.password.val),
      ("nickname", orNull (fun v => .str v.val) u.nickname),
      ("email", orNull (fun v => .str v.val) u.email), ("role", .str (userRoleValue u.role)),
      ("level", .num (userLevelValue u.level)), ("created_at", times.createdAt "user" u.id)]
  | .service s =>
    [("id", .num s.id), ("owner_id", .num s.ownerId), ("service_uuid", .str s.serviceUuid.val),
      ("version", .str s.version.val), ("description", orNull .str s.description),
      ("created_at", times.createdAt "service" s.id),
      ("updated_at", times.updatedAt "service" s.id), ("is_deleted", .bool s.isDeleted),
      ("deleted_at", orNull (fun t => .str (times.isoformat t)) s.deletedAt)]
  | .iteration i =>
    [("id", .num i.id), ("service_id", .num i.serviceId),
      ("creator_id", orNull (fun (u : ℕ) => .num u) i.creatorId),
      ("version", orNull (fun v => .str v.val) i.version),
      ("description", orNull .str i.description),
      ("created_at", times.createdAt "service_iteration" i.id),
      ("is_committed", .bool i.isCommitted)]
  | .category c =>
    [("id", .num c.id), ("service_id", .num c.serviceId), ("name", .str c.name.val),
      ("description", orNull .str c.description)]
  | .api stage a => apiColumns times stage a
  | .requestParam stage p =>
    [("id", .num p.id), (stage.apiTable ++ "_id", .num p.holder), ("name", .str p.fields.name.val),
      ("location", .str (paramLocationValue p.fields.location)),
      ("type", .str (paramTypeValue p.fields.type)), ("required", orNull .bool p.fields.required),
      ("default_value", orNull (fun v => .str v.val) p.fields.defaultValue),
      ("description", orNull .str p.fields.description),
      ("example", orNull (fun v => .str v.val) p.fields.example'),
      ("array_child_type", orNull (fun t => .str (paramTypeValue t)) p.fields.arrayChildType),
      ("parent_param_id", orNull (fun (i : ℕ) => .num i) p.parent),
      ("updated_at", times.updatedAt stage.requestTable p.id)]
  | .responseParam stage p =>
    [("id", .num p.id), (stage.apiTable ++ "_id", .num p.holder),
      ("status_code", .num p.fields.statusCode), ("name", .str p.fields.name.val),
      ("type", .str (paramTypeValue p.fields.type)), ("required", orNull .bool p.fields.required),
      ("description", orNull .str p.fields.description),
      ("example", orNull (fun v => .str v.val) p.fields.example'),
      ("array_child_type", orNull (fun t => .str (paramTypeValue t)) p.fields.arrayChildType),
      ("parent_param_id", orNull (fun (i : ℕ) => .num i) p.parent),
      ("updated_at", times.updatedAt stage.responseTable p.id)]

def relations (env : Environment) (db : Database) : Entity → List (String × Related Entity)
  | .user u =>
    [("services", .many ((env.fetch (db.services.rows.filter
        (fun s => (u.id, s.id) ∈ db.userServiceLink))).map .service)),
      ("owned_services", .many ((env.fetch (db.services.rows.filter
        (fun s => s.ownerId == u.id))).map .service)),
      ("created_iterations", .many ((env.fetch (db.iterations.rows.filter
        (fun i => i.creatorId == some u.id))).map .iteration)),
      ("apis", .many ((env.fetch (db.live.apis.rows.filter
        (fun a => a.fields.ownerId == u.id))).map (.api .live))),
      ("api_drafts", .many ((env.fetch (db.drafts.apis.rows.filter
        (fun a => a.fields.ownerId == u.id))).map (.api .draft)))]
  | .service s =>
    [("owner", .one ((db.users.find? s.ownerId).map .user)),
      ("maintainers", .many ((env.fetch (maintainers db s.id)).map .user)),
      ("iterations", .many ((env.fetch (db.iterations.rows.filter
        (fun i => i.serviceId == s.id))).map .iteration)),
      ("api_categories", .many ((env.fetch (db.categories.rows.filter
        (fun c => c.serviceId == s.id))).map .category)),
      ("apis", .many ((env.fetch (db.live.apisOf s.id)).map (.api .live)))]
  | .iteration i =>
    [("service", .one ((db.services.find? i.serviceId).map .service)),
      ("creator", .one ((i.creatorId.bind db.users.find?).map .user)),
      ("api_drafts", .many ((env.fetch (db.drafts.apisOf i.id)).map (.api .draft)))]
  | .category c =>
    [("service", .one ((db.services.find? c.serviceId).map .service)),
      ("apis", .many ((env.fetch (db.live.apis.rows.filter
        (fun a => a.fields.categoryId == some c.id))).map (.api .live))),
      ("api_drafts", .many ((env.fetch (db.drafts.apis.rows.filter
        (fun a => a.fields.categoryId == some c.id))).map (.api .draft)))]
  | .api stage a =>
    [(stage.containerKey, .one (match stage with
        | .live => (db.services.find? a.container).map .service
        | .draft => (db.iterations.find? a.container).map .iteration)),
      ("owner", .one ((db.users.find? a.fields.ownerId).map .user)),
      ("category", .one ((a.fields.categoryId.bind db.categories.find?).map .category)),
      ("request_params", .many ((env.fetch ((stage.store db).requestParamsOf a.id)).map
        (.requestParam stage))),
      ("response_params", .many ((env.fetch ((stage.store db).responseParamsOf a.id)).map
        (.responseParam stage)))]
  | .requestParam stage p =>
    [(stage.apiTable, .one (((stage.store db).apis.find? p.holder).map (.api stage))),
      ("parent_param", .one ((p.parent.bind (stage.store db).requestParams.find?).map
        (.requestParam stage))),
      ("child_params", .many ((env.fetch ((stage.store db).requestParams.rows.filter
        (fun q => q.parent == some p.id))).map (.requestParam stage)))]
  | .responseParam stage p =>
    [(stage.apiTable, .one (((stage.store db).apis.find? p.holder).map (.api stage))),
      ("parent_param", .one ((p.parent.bind (stage.store db).responseParams.find?).map
        (.responseParam stage))),
      ("child_params", .many ((env.fetch ((stage.store db).responseParams.rows.filter
        (fun q => q.parent == some p.id))).map (.responseParam stage)))]

/-- `value.toJson()`: with the defaults no relationship is read. -/
def plainJson (times : Times) (e : Entity) : Members :=
  (columns times e).foldl
    (fun data column => if column.1 ∈ ["password"] then data else set data column.1 column.2) []

def toJson (times : Times) (env : Environment) (db : Database) (arguments : Arguments)
    (e : Entity) : Except Raised Members :=
  mixinToJson (plainJson times) arguments ⟨columns times e, relations env db e⟩

section Mixin

variable {ε : Type} {nested : ε → Members} {m : Mapped ε} {excluded : List String}

theorem assignColumns_eq (includeRelations : Bool) (l d : Members) :
    l.foldlM (assignColumn nested ⟨[], excluded, includeRelations⟩ m.relations) d =
      .ok (l.foldl (fun d c => if c.1 ∈ excluded then d else set d c.1 c.2) d) := by
  induction l generalizing d with
  | nil => rfl
  | cons c l ih =>
    rw [List.foldlM_cons, List.foldl_cons]
    have hstep : assignColumn nested ⟨[], excluded, includeRelations⟩ m.relations d c =
        .ok (if c.1 ∈ excluded then d else set d c.1 c.2) := by
      simp [assignColumn, pure, Except.pure, bind, Except.bind]
    rw [hstep]
    exact ih _

theorem mixinToJson_columns (h : (m.columns.map Prod.fst).Nodup) :
    mixinToJson nested ⟨[], excluded, false⟩ m =
      .ok (m.columns.filter (fun c => c.1 ∉ excluded)) := by
  unfold mixinToJson
  rw [assignColumns_eq, foldl_set (· ∈ excluded) (by simpa using h)]
  rfl

theorem mixinToJson_relations (h : (m.columns.map Prod.fst ++ m.relations.map Prod.fst).Nodup) :
    mixinToJson nested ⟨[], excluded, true⟩ m =
      .ok (m.columns.filter (fun c => c.1 ∉ excluded) ++
        (m.relations.map (fun r => (r.1, relatedJson nested r.2))).filter
          (fun r => r.1 ∉ excluded)) := by
  unfold mixinToJson
  obtain ⟨hcolumns, -, -⟩ := List.nodup_append.mp h
  have hrelations : m.relations.foldl (assignRelation nested ⟨[], excluded, true⟩)
      (m.columns.filter (fun c => c.1 ∉ excluded)) =
        (m.relations.map (fun r => (r.1, relatedJson nested r.2))).foldl
          (fun d r => if r.1 ∈ excluded then d else set d r.1 r.2)
          (m.columns.filter (fun c => c.1 ∉ excluded)) := by
    rw [List.foldl_map]
    rfl
  rw [assignColumns_eq, foldl_set (· ∈ excluded) (by simpa using hcolumns)]
  show Except.ok (m.relations.foldl _ _) = _
  rw [List.nil_append, hrelations, foldl_set (· ∈ excluded)]
  rw [List.map_append, List.map_map]
  refine h.sublist (List.Sublist.append (List.filter_sublist.map _) ?_)
  exact List.Sublist.refl _

/-- Where the included relationships are rows, or nothing, the loop does not raise. -/
theorem assignColumns_included {included : List String} (hincluded : included ≠ [])
    {includeRelations : Bool} {assign : Members → Members}
    (h : ∀ d, m.relations.foldlM (assignIncluded nested ⟨included, excluded, includeRelations⟩) d =
      .ok (assign d)) (l d : Members) :
    l.foldlM (assignColumn nested ⟨included, excluded, includeRelations⟩ m.relations) d =
      .ok (l.foldl (fun d c => if c.1 ∉ included then d
        else if c.1 ∈ excluded then assign d else set (assign d) c.1 c.2) d) := by
  induction l generalizing d with
  | nil => rfl
  | cons c l ih =>
    rw [List.foldlM_cons, List.foldl_cons]
    have hstep : assignColumn nested ⟨included, excluded, includeRelations⟩ m.relations d c =
        .ok (if c.1 ∉ included then d
          else if c.1 ∈ excluded then assign d else set (assign d) c.1 c.2) := by
      unfold assignColumn
      by_cases hc : c.1 ∈ included
      · rw [if_neg (by simp [hc]), if_neg hincluded, if_neg (by simp [hc]), h d]
        rfl
      · rw [if_pos ⟨hincluded, hc⟩, if_pos hc]
        rfl
    rw [hstep]
    exact ih _

end Mixin

theorem columns_nodup (times : Times) (e : Entity) : ((columns times e).map Prod.fst).Nodup := by
  cases e with
  | api stage _ => cases stage <;> simp [columns, apiColumns, Stage.containerKey]
  | requestParam stage _ => cases stage <;> simp [columns, Stage.apiTable]
  | responseParam stage _ => cases stage <;> simp [columns, Stage.apiTable]
  | _ => simp [columns]

theorem plainJson_eq (times : Times) (e : Entity) :
    plainJson times e = (columns times e).filter (fun c => c.1 ∉ ["password"]) :=
  foldl_set (· ∈ ["password"]) (columns_nodup times e)

/-- What a related row becomes is what the mixin makes of it without arguments. -/
theorem toJson_defaults (times : Times) (env : Environment) (db : Database) (e : Entity) :
    toJson times env db defaultArguments e = .ok (plainJson times e) := by
  rw [plainJson_eq]
  exact mixinToJson_columns (columns_nodup times e)

def Entity.isUser : Entity → Bool
  | .user _ => true
  | _ => false

/-- Only users have a column that the defaults exclude. -/
theorem plainJson_eq_columns (times : Times) {e : Entity} (h : e.isUser = false) :
    plainJson times e = columns times e := by
  rw [plainJson_eq, List.filter_eq_self]
  cases e with
  | user _ => cases h
  | api stage _ => cases stage <;> simp [columns, apiColumns, Stage.containerKey]
  | requestParam stage _ => cases stage <;> simp [columns, Stage.apiTable]
  | responseParam stage _ => cases stage <;> simp [columns, Stage.apiTable]
  | _ => simp [columns]

def userMembers (times : Times) (u : UserInfo) : Members :=
  [("id", .num u.id), ("username", .str u.username.val),
    ("nickname", orNull (fun v => .str v.val) u.nickname),
    ("email", orNull (fun v => .str v.val) u.email), ("role", .str (userRoleValue u.role)),
    ("level", .num (userLevelValue u.level)), ("created_at", times.createdAt "user" u.id)]

/-- The include lists of the listings: each of the two keys is on some of them. -/
def entryArguments (withOwner withDeletedAt : Bool) : Arguments where
  included := ["id", "service_uuid", "version", "description", "owner_id"] ++
    (if withOwner then ["owner"] else []) ++ ["created_at", "is_deleted"] ++
    (if withDeletedAt then ["deleted_at"] else [])
  excluded := ["password"]
  includeRelations := false

def entryMembers (times : Times) (e : ServiceEntry) : Members :=
  (e.owner.toList.map (fun u => ("owner", orNull (fun u => .obj (userMembers times u)) u))) ++
    [("id", .num e.id), ("owner_id", .num e.ownerId), ("service_uuid", .str e.serviceUuid.val),
      ("version", .str e.version.val), ("description", orNull .str e.description),
      ("created_at", times.createdAt "service" e.id), ("is_deleted", .bool e.isDeleted)] ++
    e.deletedAt.toList.map
      (fun t => ("deleted_at", orNull (fun t => .str (times.isoformat t)) t))

def serviceMembers (times : Times) (d : ServiceDetail) : Members :=
  columns times (.service d.service) ++
    [("owner", orNull (fun u => .obj (userMembers times u)) d.owner),
      ("maintainers", .arr (d.maintainers.map (fun u => .obj (userMembers times u)))),
      ("iterations", .arr (d.iterations.map (fun i => .obj (columns times (.iteration i))))),
      ("api_categories", .arr (d.apiCategories.map (fun c => .obj (columns times (.category c))))),
      ("apis", .arr (d.apis.map (fun a => .obj (columns times (.api .live a)))))]

def iterationMembers (times : Times) (d : IterationDetail) : Members :=
  columns times (.iteration d.iteration) ++
    [("service", orNull (fun s => .obj (columns times (.service s))) d.service),
      ("creator", orNull (fun u => .obj (userMembers times u)) d.creator),
      ("api_drafts", .arr (d.apiDrafts.map (fun a => .obj (columns times (.api .draft a)))))]

/-- The arguments of `apiGetApiById`: the hash of an owner stays hidden by the default of the
nested call. -/
def apiArguments : Arguments where
  included := []
  excluded := ["request_params", "response_params", "service", "service_iteration", "category"]
  includeRelations := true

def apiMembers (times : Times) (stage : Stage) (a : ApiRow) (owner : Option UserInfo) : Members :=
  apiColumns times stage a ++ [("owner", orNull (fun u => .obj (userMembers times u)) owner)]

section Records

variable (times : Times) (env : Environment) (db : Database)

theorem plainJson_user (u : User) :
    plainJson times (.user u) = userMembers times (userToJson u) := by
  rw [plainJson_eq]
  rfl

theorem toJson_user (u : User) :
    toJson times env db defaultArguments (.user u) = .ok (userMembers times (userToJson u)) := by
  rw [toJson_defaults, plainJson_user]

theorem orNull_map {α β : Type} (f : β → JsonValue) (g : α → β) (a : Option α) :
    orNull f (a.map g) = orNull (fun a => f (g a)) a := by
  cases a <;> rfl

theorem orNull_user (u : Option User) :
    orNull (fun e => .obj (plainJson times e)) (u.map Entity.user) =
      orNull (fun u => .obj (userMembers times u)) (u.map userToJson) := by
  simp only [orNull_map, plainJson_user]

def assignOwner (withOwner : Bool) (owner : Option UserInfo) (d : Members) : Members :=
  if withOwner then set d "owner" (orNull (fun u => .obj (userMembers times u)) owner) else d

theorem included_owner (withOwner withDeletedAt : Bool) (s : Service) (d : Members) :
    (relations env db (.service s)).foldlM
        (assignIncluded (plainJson times) (entryArguments withOwner withDeletedAt)) d =
      .ok (assignOwner times withOwner ((db.users.find? s.ownerId).map userToJson) d) := by
  rw [relations, assignOwner, ← orNull_user]
  generalize db.users.find? s.ownerId = owner
  cases owner <;> cases withOwner <;> cases withDeletedAt <;> rfl

theorem toJson_serviceEntry (withOwner withDeletedAt : Bool) (s : Service) :
    toJson times env db (entryArguments withOwner withDeletedAt) (.service s) =
      .ok (entryMembers times (serviceEntry withOwner withDeletedAt db s)) := by
  have hincluded : (entryArguments withOwner withDeletedAt).included ≠ [] := List.cons_ne_nil _ _
  have hassign := included_owner times env db withOwner withDeletedAt s
  unfold toJson mixinToJson
  rw [assignColumns_included hincluded hassign]
  cases withOwner <;> cases withDeletedAt <;>
    simp [columns, entryArguments, entryMembers, serviceEntry, assignOwner, OrderedDictionaries.set,
      pure, Except.pure, bind, Except.bind]

theorem names_nodup (e : Entity) :
    ((columns times e).map Prod.fst ++ (relations env db e).map Prod.fst).Nodup := by
  cases e with
  | api stage _ => cases stage <;> simp [columns, apiColumns, relations, Stage.containerKey]
  | requestParam stage _ => cases stage <;> simp [columns, relations, Stage.apiTable]
  | responseParam stage _ => cases stage <;> simp [columns, relations, Stage.apiTable]
  | _ => simp [columns, relations]

theorem toJson_relations (excluded : List String) (e : Entity) :
    toJson times env db ⟨[], excluded, true⟩ e =
      .ok ((columns times e).filter (fun c => c.1 ∉ excluded) ++
        ((relations env db e).map (fun r => (r.1, relatedJson (plainJson times) r.2))).filter
          (fun r => r.1 ∉ excluded)) :=
  mixinToJson_relations (names_nodup times env db e)

/-- No relationship has the name of the hash. -/
theorem toJson_withRelations (e : Entity) :
    toJson times env db withRelations e = .ok (plainJson times e ++
      (relations env db e).map (fun r => (r.1, relatedJson (plainJson times) r.2))) := by
  have hkept : ((relations env db e).map (fun r => (r.1, relatedJson (plainJson times) r.2))).filter
      (fun r => r.1 ∉ ["password"]) =
        (relations env db e).map (fun r => (r.1, relatedJson (plainJson times) r.2)) := by
    rw [List.filter_eq_self]
    cases e with
    | api stage _ => cases stage <;> simp [relations, Stage.containerKey]
    | requestParam stage _ => cases stage <;> simp [relations, Stage.apiTable]
    | responseParam stage _ => cases stage <;> simp [relations, Stage.apiTable]
    | _ => simp [relations]
  have h := toJson_relations times env db ["password"] e
  rwa [hkept, ← plainJson_eq] at h

section Related

variable {α : Type} {row : α → Entity} {members : α → Members}

theorem related_one (h : ∀ a, plainJson times (row a) = members a) (a : Option α) :
    relatedJson (plainJson times) (.one (a.map row)) = orNull (fun a => .obj (members a)) a := by
  cases a with
  | none => rfl
  | some a => exact congrArg JsonValue.obj (h a)

theorem related_many (h : ∀ a, plainJson times (row a) = members a) (l : List α) :
    relatedJson (plainJson times) (.many (l.map row)) =
      .arr (l.map (fun a => .obj (members a))) := by
  rw [relatedJson, List.map_map]
  exact congrArg JsonValue.arr (List.map_congr_left fun a _ => congrArg JsonValue.obj (h a))

end Related

theorem toJson_service (s : Service) :
    toJson times env db withRelations (.service s) =
      .ok (serviceMembers times (serviceToJson env db s)) := by
  rw [toJson_withRelations, plainJson_eq_columns times rfl]
  simp only [relations, List.map_cons, List.map_nil, related_one times (plainJson_user times),
    related_many times (plainJson_user times),
    related_many times (fun i => plainJson_eq_columns times (e := .iteration i) rfl),
    related_many times (fun c => plainJson_eq_columns times (e := .category c) rfl),
    related_many times (fun a => plainJson_eq_columns times (e := .api .live a) rfl),
    serviceMembers, serviceToJson, orNull_map, List.map_map, Function.comp_def]

theorem toJson_iteration (i : ServiceIteration) :
    toJson times env db withRelations (.iteration i) =
      .ok (iterationMembers times (iterationToJson env db i)) := by
  rw [toJson_withRelations, plainJson_eq_columns times rfl]
  simp only [relations, List.map_cons, List.map_nil, related_one times (plainJson_user times),
    related_one times (fun s => plainJson_eq_columns times (e := .service s) rfl),
    related_many times (fun a => plainJson_eq_columns times (e := .api .draft a) rfl),
    iterationMembers, iterationToJson, orNull_map]

theorem toJson_api (stage : Stage) (a : ApiRow) :
    toJson times env db apiArguments (.api stage a) =
      .ok (apiMembers times stage a (apiDetail env db (stage.store db) a).owner) := by
  refine (toJson_relations times env db _ (.api stage a)).trans (congrArg Except.ok ?_)
  cases stage <;>
    simp [columns, apiColumns, relations, relatedJson, apiMembers, apiDetail, orNull_user,
      Stage.containerKey]

/-- Categories, drafts and params are serialized by themselves. -/
theorem toJson_other {e : Entity} (h : e.isUser = false) :
    toJson times env db defaultArguments e = .ok (columns times e) := by
  rw [toJson_defaults, plainJson_eq_columns times h]

end Records

end Serialization
