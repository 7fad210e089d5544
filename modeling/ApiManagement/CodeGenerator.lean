import ApiManagement.OpenapiExport
import ApiManagement.ConcatenatedNames

/-! # Generated TypeScript

The client generator turns each list of params into an interface, with one more for every nested
object, and collects the options of one method per api. Names are capitalized fragments, one
after the other without separators. -/
namespace CodeGenerator

open RowForests ConcatenatedNames ServiceSchema OpenapiExport

/-- `toUpperCase` on a string of one character; a character that is replaced by others begins
with one that is in upper case itself. -/
structure Uppercase where
  upper : Char → List Char
  upper_ascii : ∀ c, c.toNat < 128 → upper c = [c.toUpper]
  upper_fixed : ∀ c, ∃ d ds, upper c = d :: ds ∧ upper d = [d]

def capitalizeFirstLetter (up : Uppercase) (s : String) : String :=
  match s.toList with
  | [] => ""
  | c :: cs => String.ofList (up.upper c ++ cs)

/-- No name starts with a letter that is not in upper case. -/
def Capitalized (up : Uppercase) (s : String) : Prop :=
  ∃ c cs, s.toList = c :: cs ∧ up.upper c = [c]

section Capitalize

variable {up : Uppercase} {s t : String}

theorem capitalize_of_capitalized (h : Capitalized up s) : capitalizeFirstLetter up s = s := by
  obtain ⟨c, cs, hs, hc⟩ := h
  rw [capitalizeFirstLetter, hs]
  simp only [hc, List.singleton_append]
  rw [← hs, String.ofList_toList]

theorem capitalized_append (h : Capitalized up s) (t : String) : Capitalized up (s ++ t) := by
  obtain ⟨c, cs, hs, hc⟩ := h
  exact ⟨c, cs ++ t.toList, by rw [String.toList_append, hs, List.cons_append], hc⟩

/-- A capitalized name stays so in front of anything that is. -/
theorem capitalized_join (h : Capitalized up t) :
    Capitalized up (capitalizeFirstLetter up s ++ t) := by
  unfold capitalizeFirstLetter
  cases hs : s.toList with
  | nil => simpa using h
  | cons c cs =>
    obtain ⟨d, ds, hd, hfixed⟩ := up.upper_fixed c
    refine capitalized_append ⟨d, ds ++ cs, ?_, hfixed⟩ t
    simp [hd]

end Capitalize

def plainType : ParamType → String
  | .int => "number"
  | .double => "number"
  | .string => "string"
  | .boolean => "boolean"
  | .array => "any[]"
  | .object => "any"
  | .binary => "any"

def tsTypeMap (type : ParamType) (arrayChildType : Option ParamType) : String :=
  match type, arrayChildType with
  | .array, some child => plainType child ++ "[]"
  | type, _ => plainType type

structure Interface where
  name : String
  fields : List String
  deriving DecidableEq

/-- What goes into `namespaces.ts`. -/
def Interface.text (i : Interface) : String :=
  "export interface " ++ i.name ++ " \x7b\n" ++ "\n".intercalate i.fields ++ "\n\x7d"

section Interfaces

variable {F : Type} [DescribedFields F] (up : Uppercase)

def nestedSuffix (f : F) (children : List (RoseTree F)) : Option String :=
  if children.isEmpty then none
  else
    match type f, arrayChildType f with
    | .object, _ => some (capitalizeFirstLetter up (name f))
    | .array, some .object => some (capitalizeFirstLetter up (name f) ++ "Item")
    | _, _ => none

def fieldType (interfaceName : String) (f : F) (children : List (RoseTree F)) : String :=
  match nestedSuffix up f children with
  | none => tsTypeMap (type f) (arrayChildType f)
  | some suffix =>
    if type f = .object then interfaceName ++ suffix else interfaceName ++ suffix ++ "[]"

def fieldLine (interfaceName : String) (t : RoseTree F) : String :=
  let comment :=
    match truthyText (description t.value) with
    | none => ""
    | some s => "  /** " ++ s ++ " */\n"
  comment ++ "  " ++ name t.value ++ (if required t.value = some true then "" else "?") ++ ": " ++
    fieldType up interfaceName t.value t.children ++ ";"

def interfaceOf (interfaceName : String) (params : List (RoseTree F)) : Interface :=
  ⟨interfaceName, params.map (fieldLine up interfaceName)⟩

mutual

def nestedInterfaces (interfaceName : String) : RoseTree F → List Interface
  | .node f ts =>
    match nestedSuffix up f ts with
    | none => []
    | some suffix =>
      fieldInterfaces (capitalizeFirstLetter up (interfaceName ++ suffix)) ts ++
        [interfaceOf up (capitalizeFirstLetter up (interfaceName ++ suffix)) ts]

def fieldInterfaces (interfaceName : String) : List (RoseTree F) → List Interface
  | [] => []
  | t :: ts => nestedInterfaces interfaceName t ++ fieldInterfaces interfaceName ts

end

def generateInterface (name : String) (params : List (RoseTree F)) : List Interface :=
  fieldInterfaces up (capitalizeFirstLetter up name) params ++
    [interfaceOf up (capitalizeFirstLetter up name) params]

end Interfaces

/-- An api as the client receives it; the keys of the two dictionaries in the order of
`Object.keys`. -/
structure FetchedApi where
  name : String
  method : HttpMethod
  path : String
  description : Option String
  requestParams : ParamLocation → List (RoseTree RequestFields)
  statusCodes : List ℤ
  statusCodes_nodup : statusCodes.Nodup
  responseParams : ℤ → List (RoseTree ResponseFields)

def locations : List ParamLocation := [.query, .path, .header, .cookie, .body]

def methodName : HttpMethod → String
  | .get => "GET"
  | .post => "POST"
  | .put => "PUT"
  | .delete => "DELETE"
  | .patch => "PATCH"

structure ApiOption where
  functionName : String
  apiMethod : HttpMethod
  apiPath : String
  apiDescription : String
  reqInterfaceName : ParamLocation → String
  respInterfaceNames : List String
  reqFields : ParamLocation → List String

structure GeneratedCode where
  namespaces : List Interface
  apiOption : ApiOption

section Api

variable (up : Uppercase) (api : FetchedApi)

def requestInterfaceName (location : ParamLocation) : String :=
  capitalizeFirstLetter up api.name ++ capitalizeFirstLetter up (locationKey location) ++ "Request"

def responseInterfaceName (statusCode : ℤ) : String :=
  capitalizeFirstLetter up api.name ++ toString statusCode ++ "Response"

def generateTSCode : GeneratedCode where
  namespaces :=
    locations.flatMap (fun location =>
      if (api.requestParams location).isEmpty then []
      else generateInterface up (requestInterfaceName up api location)
        (api.requestParams location)) ++
    api.statusCodes.flatMap (fun statusCode =>
      if (api.responseParams statusCode).isEmpty then []
      else generateInterface up (responseInterfaceName up api statusCode)
        (api.responseParams statusCode))
  apiOption := {
    functionName := capitalizeFirstLetter up api.name ++ methodName api.method
    apiMethod := api.method
    apiPath := api.path
    apiDescription := api.description.getD ""
    reqInterfaceName := fun location =>
      if (api.requestParams location).isEmpty then "" else requestInterfaceName up api location
    respInterfaceNames :=
      (api.statusCodes.filter (fun statusCode => !(api.responseParams statusCode).isEmpty)).map
        (responseInterfaceName up api)
    reqFields := fun location => (api.requestParams location).map (fun t => name t.value) }

end Api

def namespaces (up : Uppercase) (apis : List FetchedApi) : List Interface :=
  apis.flatMap (fun api => (generateTSCode up api).namespaces)

def functionNames (up : Uppercase) (apis : List FetchedApi) : List String :=
  apis.map (fun api => (generateTSCode up api).apiOption.functionName)

end CodeGenerator
