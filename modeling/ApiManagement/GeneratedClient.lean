import ApiManagement.CodeGenerator
import ApiManagement.ScriptLexer
import ApiManagement.TemplateHoles

/-! # Generated methods

What a method of the generated class does when it is called: it puts the values of the path
params into the url, collects the values of the others, and hands the request on. Names and path
stand in string literals of the code, so the method works with the values of these. -/
namespace GeneratedClient

open ServiceSchema CodeGenerator ScriptStrings ScriptLexer TemplateHoles

inductive BaseURL where
  | text (s : String)
  | function (f : String → String)

def genBaseURL : BaseURL → String → List Char
  | .text s, path =>
    (trim s.toList).rdropWhile (· == '/') ++ '/' :: (trim path.toList).dropWhile (· == '/')
  | .function f, path => (f path).toList

/-- What the methods do with the values of an argument: `isNullish` holds of `undefined` and
`null`, and `text` is `String`. -/
structure Values (V : Type) where
  isNullish : V → Bool
  text : V → String

structure SentRequest (V : Type) where
  url : List Char
  method : HttpMethod
  data : Option (List (String × V))
  params : Option (List (String × V))
  headers : Option (List (String × V))

section Call

variable {V : Type} (vals : Values V) (base : BaseURL) (req : String → V)

def computedUrl (path : String) (replaced : List (String × String)) : List Char :=
  replaced.foldl
    (fun url (pattern, property) =>
      if vals.isNullish (req property) then url
      else replace url pattern.toList (vals.text (req property)).toList)
    (genBaseURL base path)

/-- An object literal; the key `__proto__` sets the prototype and is no property. -/
def objectOf (entries : List (String × String)) : Option (List (String × V)) :=
  if entries.isEmpty then none
  else some ((entries.filter (fun entry => entry.1 != "__proto__")).map
    (fun (key, property) => (key, req property)))

def entryOf (field : String) : Option (String × String) := do
  let key ← literalValue '\'' field
  let property ← literalValue '"' field
  pure (key, property)

def replacedOf (field : String) : Option (String × String) := do
  let pattern ← literalValue '\'' ("\x7b" ++ field ++ "\x7d")
  let property ← literalValue '"' field
  pure (pattern, property)

/-- What the method of an api hands on; `none` if a literal is none, and the code no program. -/
def sentRequest (option : ApiOption) : Option (SentRequest V) := do
  let path ← literalValue '\'' option.apiPath
  let replaced ← (option.reqFields .path).mapM replacedOf
  let body ← (option.reqFields .body).mapM entryOf
  let query ← (option.reqFields .query).mapM entryOf
  let header ← (option.reqFields .header).mapM entryOf
  pure {
    url := computedUrl vals base req path replaced
    method := option.apiMethod
    data := objectOf req body
    params := objectOf req query
    headers := objectOf req header }

end Call

end GeneratedClient
