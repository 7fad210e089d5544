import ApiManagement.DraftEditor
import ApiManagement.OrderedDictionaries
import ApiManagement.ScriptObjects
import ApiManagement.ScriptStrings

/-! # The param tables of the editor

The editor has one table of rows for each location of a request and for each status code of a
response, and below the rows of objects tables of children. Each table checks its own rows. -/
namespace ParamTables

open PythonRuntime ServiceSchema DraftEditor

/-- A number from the backend, or a text that the editor made up. -/
inductive RowId where
  | stored (id : ℕ)
  | generated (id : String)
  deriving DecidableEq

inductive Row where
  | leaf (id : RowId) (entry : ItemEntry)
  | branch (id : RowId) (entry : ItemEntry) (childrenParams : List Row)

namespace Row

def id : Row → RowId
  | .leaf id _ => id
  | .branch id _ _ => id

def entry : Row → ItemEntry
  | .leaf _ entry => entry
  | .branch _ entry _ => entry

def childrenParams : Row → List Row
  | .leaf _ _ => []
  | .branch _ _ childrenParams => childrenParams

def withEntry (f : ItemEntry → ItemEntry) : Row → Row
  | .leaf id entry => .leaf id (f entry)
  | .branch id entry childrenParams => .branch id (f entry) childrenParams

def withChildren (childrenParams : List Row) (row : Row) : Row :=
  .branch row.id row.entry childrenParams

mutual

def toItem : Row → ParamItem
  | .leaf _ entry => .leaf entry
  | .branch _ entry childrenParams => .branch entry (toItems childrenParams)

def toItems : List Row → List ParamItem
  | [] => []
  | row :: rows => toItem row :: toItems rows

end

end Row

def isLegalValue : Option JsonValue → Bool
  | none => false
  | some .null => false
  | some (.str s) => s != "" && !ScriptStrings.hasSpace s
  | some _ => true

def hasLegalFields (entry : ItemEntry) : Bool :=
  isLegalValue entry.name && isLegalValue entry.type && isLegalValue entry.required

def hasError (data : List Row) : Bool := data.any (fun row => !hasLegalFields row.entry)

inductive Field where
  | name | type | arrayChildType | required | description | defaultValue | example'

def setField (field : Field) (val : Option JsonValue) (entry : ItemEntry) : ItemEntry :=
  match field with
  | .name => { entry with name := val }
  | .type => { entry with type := val }
  | .arrayChildType => { entry with arrayChildType := val }
  | .required => { entry with required := val }
  | .description => { entry with description := val }
  | .defaultValue => { entry with defaultValue := val }
  | .example' => { entry with example' := val }

def newItem (id : RowId) : Row :=
  .leaf id
    { name := some (.str "")
      type := some (.str "string")
      required := some (.bool true)
      defaultValue := some (.str "")
      description := some (.str "")
      example' := some (.str "")
      arrayChildType := none }

def isText (text : String) : Option JsonValue → Bool
  | some (.str s) => s == text
  | _ => false

def showSubParams (entry : ItemEntry) : Bool :=
  isText "object" entry.type || (isText "array" entry.type && isText "object" entry.arrayChildType)

section Handlers

variable (value : List Row)

/-- `handleFieldChange`: rows with the id get a new field. -/
def handleFieldChange (id : RowId) (change : Row → Row) : List Row :=
  value.map (fun item => if item.id = id then change item else item)

def handleRemove (id : RowId) : List Row := value.filter (fun item => item.id ≠ id)

def handleAdd (id : RowId) : List Row := value ++ [newItem id]

end Handlers

inductive TableEdit where
  | change (index : ℕ) (field : Field) (val : Option JsonValue)
  | remove (index : ℕ)
  | add (id : RowId)
  | nested (index : ℕ) (edit : TableEdit)

/-- The `newData` of the edit; `none` when there is no such row, or no table of its children. -/
def TableEdit.apply : TableEdit → List Row → Option (List Row)
  | .change index field val, value => do
    let record ← value[index]?
    some (handleFieldChange value record.id (Row.withEntry (setField field val)))
  | .remove index, value => do
    let record ← value[index]?
    some (handleRemove value record.id)
  | .add id, value => some (handleAdd value id)
  | .nested index edit, value => do
    let record ← value[index]?
    if showSubParams record.entry then
      let newChildren ← edit.apply record.childrenParams
      some (handleFieldChange value record.id (Row.withChildren newChildren))
    else none

structure BriefInfo where
  name : String
  method : String
  path : String
  description : Option String
  level : Option String

structure Form where
  brief : BriefInfo
  request : ParamLocation → List Row
  response : List (String × List Row)
  distinct : (response.map Prod.fst).Nodup

inductive TableName where
  | request (location : ParamLocation)
  | response (statusCode : String)
  deriving DecidableEq

namespace Form

def rows (form : Form) : TableName → List Row
  | .request location => form.request location
  | .response statusCode => (form.response.lookup statusCode).getD []

def withRows (form : Form) (table : TableName) (rows : List Row) : Form :=
  match table with
  | .request location =>
    { form with request := fun l => if l = location then rows else form.request l }
  | .response statusCode =>
    { form with
      response := OrderedDictionaries.set form.response statusCode rows
      distinct := OrderedDictionaries.nodup_keys_set form.distinct statusCode rows }

def withoutCode (form : Form) (statusCode : String) : Form :=
  { form with
    response := form.response.filter (fun e => e.1 != statusCode)
    distinct := form.distinct.sublist (List.filter_sublist.map _) }

theorem rows_withRows (form : Form) (table table' : TableName) (rows : List Row) :
    (form.withRows table rows).rows table' = if table' = table then rows else form.rows table' := by
  cases table with
  | request location =>
    cases table' with
    | request location' => simp [withRows, Form.rows]
    | response statusCode' => rfl
  | response statusCode =>
    cases table' with
    | request location' => rfl
    | response statusCode' =>
      rw [Form.rows, withRows, OrderedDictionaries.lookup_set]
      by_cases h : statusCode' = statusCode
      · rw [if_pos h, if_pos (congrArg TableName.response h), Option.getD_some]
      · rw [if_neg h, if_neg (fun he => h (TableName.response.inj he))]
        rfl

theorem rows_withoutCode (form : Form) (statusCode : String) (table : TableName) :
    (form.withoutCode statusCode).rows table =
      if table = .response statusCode then [] else form.rows table := by
  cases table with
  | request location => rfl
  | response statusCode' =>
    rw [Form.rows, withoutCode, OrderedDictionaries.lookup_filter_ne]
    by_cases h : statusCode' = statusCode
    · rw [if_pos h, if_pos (congrArg TableName.response h), Option.getD_none]
    · rw [if_neg h, if_neg (fun he => h (TableName.response.inj he))]
      rfl

end Form

structure Editor where
  /-- The detail that is shown. -/
  apiDetailId : ℕ
  form : Form
  /-- The verdict of the table that checked its rows last. -/
  rejectSubmit : Bool

inductive Event where
  /-- Another detail is shown. -/
  | load (apiDetailId : ℕ) (form : Form)
  | editBrief (brief : BriefInfo)
  | editTable (table : TableName) (edit : TableEdit)
  /-- `input` is what was typed. -/
  | addStatusCode (input : String)
  | deleteStatusCode (statusCode : String)

section Steps

-- what `Number(s)` is as the key of an object: `"NaN"`, or a numeral
variable (numberKey : String → String)

def Form.statusCodes (form : Form) : List String :=
  (form.response.map Prod.fst).filter (fun status =>
    (form.response.lookup (numberKey status)).isSome)

def Form.isShown (form : Form) : TableName → Bool
  | .request _ => true
  | .response statusCode => (form.statusCodes numberKey).contains statusCode

def Form.edited (form : Form) (table : TableName) (edit : TableEdit) : Option (List Row) :=
  if form.isShown numberKey table then edit.apply (form.rows table) else none

/-- Only a table at the top is given `setRejectSubmit`. An edit further down reaches it as a new
value of `children_params`. -/
def Editor.editTable (s : Editor) (table : TableName) (edit : TableEdit) : Editor :=
  match s.form.edited numberKey table edit with
  | none => s
  | some newData =>
    { s with form := s.form.withRows table newData, rejectSubmit := hasError newData }

def Editor.addStatusCode (s : Editor) (input : String) : Editor :=
  let code := String.ofList (ScriptStrings.trim input.toList)
  if code = "" ∨ numberKey code = "NaN" ∨ code ∈ s.form.statusCodes numberKey then s
  else { s with form := s.form.withRows (.response code) [] }

/-- Only the rows of the new code can change. -/
theorem Editor.addStatusCode_cases (s : Editor) (input : String) :
    s.addStatusCode numberKey input = s ∨
      ∃ code, s.addStatusCode numberKey input =
        { s with form := s.form.withRows (.response code) [] } := by
  unfold Editor.addStatusCode
  by_cases h : String.ofList (ScriptStrings.trim input.toList) = "" ∨
      numberKey (String.ofList (ScriptStrings.trim input.toList)) = "NaN" ∨
      String.ofList (ScriptStrings.trim input.toList) ∈ s.form.statusCodes numberKey
  · exact Or.inl (if_pos h)
  · exact Or.inr ⟨_, if_neg h⟩

def Editor.step (s : Editor) : Event → Editor
  | .load apiDetailId form => { s with apiDetailId := apiDetailId, form := form }
  | .editBrief brief => { s with form := { s.form with brief := brief } }
  | .editTable table edit => s.editTable numberKey table edit
  | .addStatusCode input => s.addStatusCode numberKey input
  | .deleteStatusCode statusCode =>
    if statusCode ∈ s.form.statusCodes numberKey then
      { s with form := s.form.withoutCode statusCode }
    else s

end Steps

structure Payload where
  apiDraftId : ℕ
  name : String
  method : String
  path : String
  description : Option String
  level : String
  reqParams : List JsonValue
  respParams : List JsonValue

def member (key : String) : JsonValue → Option JsonValue
  | .obj kvs => kvs.lookup key
  | _ => none

def nameMissing (param : JsonValue) : Bool := !(member "name" param).any truthyInJs

def Form.reqParams (form : Form) : List JsonValue :=
  transformReqParamsToApiInput (DraftEditor.locations.map (fun location =>
    (paramLocationValue location, Row.toItems (form.request location))))

/-- `JSON.stringify` makes `null` of `NaN`. -/
def respItemMembers (statusCode : Option ℤ) (item : ItemEntry) : List (String × Option JsonValue) :=
  [("name", item.name), ("type", item.type),
    ("status_code", some (orNull (fun c => .num c) statusCode)),
    ("required", item.required), ("description", item.description), ("example", item.example'),
    ("array_child_type", orElseNull item.arrayChildType)]

def Form.respParams (form : Form) : List JsonValue :=
  (ScriptObjects.objectOrder form.response).flatMap (fun e =>
    processItems (respItemMembers (ScriptStrings.parseInt e.1)) (Row.toItems e.2))

/-- Params of the path are required and occur in it; `text` is what a template literal makes of a
name. -/
def pathParamsFit (text : Option JsonValue → String) (path : String) (reqParams : List JsonValue) :
    Bool :=
  let allPathParams := reqParams.filter (fun param => isText "path" (member "location" param))
  !allPathParams.any (fun param =>
      match member "required" param with
      | some (.bool false) => true
      | _ => false) &&
    allPathParams.all (fun param =>
      decide (("\x7b" ++ text (member "name" param) ++ "\x7d").toList <:+: path.toList))

def Editor.handleSubmit (text : Option JsonValue → String) (valid : Bool) (s : Editor) :
    Option Payload :=
  if s.rejectSubmit || !valid then none
  else if s.form.reqParams.any nameMissing then none
  else if !pathParamsFit text s.form.brief.path s.form.reqParams then none
  else if s.form.respParams.any nameMissing then none
  else some
    { apiDraftId := s.apiDetailId
      name := s.form.brief.name
      method := s.form.brief.method
      path := s.form.brief.path
      description := s.form.brief.description
      level := (s.form.brief.level.filter (· != "")).getD "P2"
      reqParams := s.form.reqParams
      respParams := s.form.respParams }

theorem handleSubmit_eq_some {text : Option JsonValue → String} {valid : Bool} {s : Editor}
    {payload : Payload} (h : s.handleSubmit text valid = some payload) :
    s.rejectSubmit = false ∧ payload.reqParams = s.form.reqParams ∧
      payload.respParams = s.form.respParams := by
  unfold Editor.handleSubmit at h
  split at h
  · cases h
  · split at h
    · cases h
    · split at h
      · cases h
      · split at h
        · cases h
        · cases h
          refine ⟨?_, rfl, rfl⟩
          simp_all

/-- On status codes that are numbers this is the transformation of the saved detail. -/
theorem respParams_of_numbers (form : Form) {statusCodes : List (ℤ × List ParamItem)}
    (h : (ScriptObjects.objectOrder form.response).map (fun e =>
      (ScriptStrings.parseInt e.1, Row.toItems e.2)) =
        statusCodes.map (fun e => (some e.1, e.2))) :
    form.respParams = transformRespParamsToApiInput statusCodes := by
  have hleft : form.respParams =
      ((ScriptObjects.objectOrder form.response).map (fun e =>
        (ScriptStrings.parseInt e.1, Row.toItems e.2))).flatMap (fun e =>
          processItems (respItemMembers e.1) e.2) := by
    rw [List.flatMap_map]
    rfl
  rw [hleft, h, List.flatMap_map]
  rfl

end ParamTables
