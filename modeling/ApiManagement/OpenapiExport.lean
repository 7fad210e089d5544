import ApiManagement.ApiOperations
import ApiManagement.OrderedDictionaries

/-! # Exported documents

`openapiTemplate`: the params of an api become JSON schemas. The schema of a request body and
that of each response go into one dictionary under a name made from the name of the api, and the
operation refers to them by that name. -/
namespace OpenapiExport

open TransactionRuns RowForests OrderedDictionaries PythonRuntime ServiceSchema UserOperations
  ApiOperations

/-- What exports read from a param; `defaultValue` is `none` also where the param has no such
column. -/
class DescribedFields (F : Type) extends ParamFields F where
  name : F → String
  required : F → Option Bool
  description : F → Option String
  example' : F → Option String
  defaultValue : F → Option String

instance : DescribedFields RequestFields where
  name f := f.name.val
  required := RequestFields.required
  description := RequestFields.description
  example' f := f.example'.map VarChar.val
  defaultValue f := f.defaultValue.map VarChar.val

instance : DescribedFields ResponseFields where
  name f := f.name.val
  required := ResponseFields.required
  description := ResponseFields.description
  example' f := f.example'.map VarChar.val
  defaultValue _ := none

export DescribedFields (name required description example' defaultValue)
export ParamFields (type arrayChildType)

inductive DistinctSiblings {F : Type} [DescribedFields F] : List (RoseTree F) → Prop where
  | intro {ts} : (ts.map (fun t => name t.value)).Nodup →
      (∀ t ∈ ts, DistinctSiblings t.children) → DistinctSiblings ts

/-- `int(s)` and `float(s)`; `none` is a `ValueError`. -/
structure Numerals where
  int : String → Option ℤ
  float : String → Option JsonValue

def truthyText (s : Option String) : Option String := s.filter (fun v => v != "")

abbrev Members := List (String × JsonValue)

def getTypeSchema : Option ParamType → Members
  | some .string => [("type", .str "string")]
  | some .int => [("type", .str "integer"), ("format", .str "int64")]
  | some .double => [("type", .str "number"), ("format", .str "double")]
  | some .boolean => [("type", .str "boolean")]
  | some .binary => [("type", .str "string"), ("format", .str "binary")]
  | some .object => [("type", .str "object")]
  | some .array => [("type", .str "array")]
  | none => [("type", .str "string")]

structure ObjectParts where
  properties : Members
  required : List JsonValue

def ObjectParts.empty : ObjectParts := ⟨[], []⟩

section Schemas

variable {F : Type} [DescribedFields F]

def ObjectParts.add (parts : ObjectParts) (f : F) (schema : JsonValue) : ObjectParts where
  properties := set parts.properties (name f) schema
  required := if DescribedFields.required f = some true then parts.required ++ [.str (name f)]
    else parts.required

def ObjectParts.members (parts : ObjectParts) : Members :=
  (if parts.properties.isEmpty then []
    else [("properties", .obj parts.properties), ("additionalProperties", .bool false)]) ++
  (if parts.required.isEmpty then [] else [("required", .arr parts.required)])

def exampleMembers (f : F) : Members :=
  match truthyText (example' f) with
  | none => []
  | some s => [("example", .str s)]

def defaultMembers (n : Numerals) (f : F) : Tx Members :=
  match truthyText (defaultValue f) with
  | none => pure []
  | some s =>
    if s == "null" || s == "undefined" then pure [("default", .null)]
    else
      match type f with
      | .string => pure [("default", .str s)]
      | .int => do
        let i ← orAbort (n.int s) (.raised .valueError)
        pure [("default", .num i)]
      | .double => do
        let x ← orAbort (n.float s) (.raised .valueError)
        pure [("default", x)]
      | .boolean => pure [("default", .bool true)]
      | _ => pure [("default", .str s)]

mutual

def buildParamSchema (n : Numerals) : RoseTree F → Tx JsonValue
  | .node f ts => do
    let nested ←
      match type f, arrayChildType f with
      | .object, _ => do
        let parts ← addProperties n .empty ts
        pure parts.members
      | .array, some .object => do
        let parts ← addProperties n .empty ts
        pure [("items", .obj (("type", .str "object") :: parts.members))]
      | .array, child => pure [("items", .obj (getTypeSchema child))]
      | _, _ => pure []
    let default ← defaultMembers n f
    pure (.obj (getTypeSchema (some (type f)) ++ nested ++ exampleMembers f ++ default))

def addProperties (n : Numerals) (parts : ObjectParts) : List (RoseTree F) → Tx ObjectParts
  | [] => pure parts
  | t :: ts => do
    let schema ← buildParamSchema n t
    addProperties n (parts.add t.value schema) ts

end

def buildRootSchema (n : Numerals) (params : List (RoseTree F)) : Tx JsonValue := do
  let parts ← addProperties n .empty params
  pure (.obj ([("type", .str "object"), ("properties", .obj parts.properties)] ++
    (if parts.required.isEmpty then [] else [("required", .arr parts.required)]) ++
    [("additionalProperties", .bool false)]))

end Schemas

def isUpper (c : Char) : Bool := 'A' ≤ c && c ≤ 'Z'

def isAlphanumeric (c : Char) : Bool :=
  isUpper c || ('a' ≤ c && c ≤ 'z') || ('0' ≤ c && c ≤ '9')

def spaceBeforeUpper : List Char → List Char
  | [] => []
  | c :: cs => c :: cs.flatMap (fun d => if isUpper d then [' ', d] else [d])

def capitalize : List Char → List Char
  | [] => []
  | c :: cs => c.toUpper :: cs.map Char.toLower

def toComponentName (name : String) : String :=
  let clean := (spaceBeforeUpper name.toList).map (fun c => if isAlphanumeric c then c else ' ')
  String.ofList (((clean.splitOn ' ').filter (fun word => !word.isEmpty)).flatMap capitalize)

example : toComponentName "getUser_list2" = "GetUserList2" := by decide +kernel

/-- An api with its params as the session loads them. -/
structure LoadedApi where
  api : ApiRow
  requestParams : List RequestParam
  responseParams : List ResponseParam

def requestsAt (a : LoadedApi) (location : ParamLocation) : List (RoseTree RequestFields) :=
  (organizeReqParams a.requestParams location).map shape

def responsesFor (a : LoadedApi) (statusCode : ℤ) : List (RoseTree ResponseFields) :=
  (organizeRespParams a.responseParams statusCode).map shape

def statusCodes (a : LoadedApi) : List ℤ :=
  ((a.responseParams.filter isRoot).map (fun p => p.fields.statusCode)).eraseDups

def locationKey : ParamLocation → String
  | .query => "query"
  | .path => "path"
  | .header => "header"
  | .cookie => "cookie"
  | .body => "body"

def methodKey : HttpMethod → String
  | .get => "get"
  | .post => "post"
  | .put => "put"
  | .delete => "delete"
  | .patch => "patch"

def textOrNull : Option String → JsonValue
  | none => .null
  | some s => .str s

def parameterObject (n : Numerals) (location : ParamLocation) (t : RoseTree RequestFields) :
    Tx JsonValue := do
  let schema ← buildParamSchema n t
  let description : Members :=
    match truthyText (description t.value) with
    | none => []
    | some s => [("description", .str s)]
  pure (.obj ([("name", .str (name t.value)), ("in", .str (locationKey location)),
    ("required", match required t.value with
      | none => .null
      | some b => .bool b), ("schema", schema)] ++ description))

def parameters (n : Numerals) (a : LoadedApi) : Tx (List JsonValue) :=
  [ParamLocation.query, .path, .header, .cookie].foldlM (fun done location => do
    let objects ← (requestsAt a location).mapM (parameterObject n location)
    pure (done ++ objects)) []

def refPrefix : String := "#/components/schemas/"

def jsonContent (schemaName : String) : JsonValue :=
  .obj [("application/json", .obj [("schema", .obj [("$ref", .str (refPrefix ++ schemaName))])])]

def requestName (a : LoadedApi) : String := toComponentName a.api.fields.name.val ++ "Request"

def responseName (a : LoadedApi) (statusCode : ℤ) : String :=
  toComponentName a.api.fields.name.val ++ "Response" ++
    (if statusCode = 200 then "" else toString statusCode)

def requestBody (n : Numerals) (a : LoadedApi) (schemas : Members) :
    Tx (Option JsonValue × Members) :=
  let bodyParams := requestsAt a .body
  if bodyParams.isEmpty then pure (none, schemas)
  else do
    let schema ← buildRootSchema n bodyParams
    pure (some (.obj [("required", .bool true), ("content", jsonContent (requestName a))]),
      set schemas (requestName a) schema)

def addResponse (n : Numerals) (a : LoadedApi) (done : Members × Members) (statusCode : ℤ) :
    Tx (Members × Members) := do
  let schema ← buildRootSchema n (responsesFor a statusCode)
  pure (set done.1 (toString statusCode)
      (.obj [("description", .str ("Response for " ++ toString statusCode)),
        ("content", jsonContent (responseName a statusCode))]),
    set done.2 (responseName a statusCode) schema)

def responses (n : Numerals) (a : LoadedApi) (schemas : Members) : Tx (Members × Members) :=
  (statusCodes a).foldlM (addResponse n a) ([], schemas)

structure Document where
  paths : List (String × Members)
  schemas : Members

def exportApi (n : Numerals) (d : Document) (a : LoadedApi) : Tx Document := do
  let parameters ← parameters n a
  let (body, schemas) ← requestBody n a d.schemas
  let (responses, schemas) ← responses n a schemas
  let operation : JsonValue := .obj ([("description", textOrNull a.api.fields.description),
    ("operationId", .str a.api.fields.name.val), ("parameters", .arr parameters),
    ("responses", .obj responses), ("deprecated", .bool !a.api.fields.isEnabled)] ++
      (match body with
      | none => []
      | some b => [("requestBody", b)]))
  pure ⟨setIn d.paths a.api.fields.path.val (methodKey a.api.fields.method) operation, schemas⟩

/-- What the template reads of a service or of an iteration: `contact` is the owner or the
creator. -/
structure ExportSource where
  serviceUuid : String
  description : Option String
  contact : Option UserInfo
  version : Option String
  apis : List LoadedApi

def openapiTemplate (n : Numerals) (service : ExportSource) : Tx JsonValue := do
  let d ← service.apis.foldlM (exportApi n) ⟨[], []⟩
  let contact ← orAbort service.contact (.raised .attributeError)
  pure (.obj [("openapi", .str "3.1.0"),
    ("info", .obj [("title", .str service.serviceUuid),
      ("description", textOrNull service.description),
      ("contact", .obj [("name", .str contact.username.val),
        ("email", textOrNull (contact.email.map VarChar.val))]),
      ("version", textOrNull service.version)]),
    ("paths", .obj (d.paths.map (fun p => (p.1, .obj p.2)))),
    ("components", .obj [("schemas", .obj d.schemas)])])

end OpenapiExport
