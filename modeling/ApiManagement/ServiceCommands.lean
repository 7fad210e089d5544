import ApiManagement.FailingScripts
import ApiManagement.FileSystem
import ApiManagement.OrderedDictionaries
import ApiManagement.ScriptObjects
import ApiManagement.ServiceClass

/-! # Commands of the code generator

The commands add a service to the configuration file, remove one, and generate the code of all
services. The first two end with the third. -/
namespace ServiceCommands

open PythonRuntime CodeGenerator ServiceClass FileSystem FailingScripts ScriptObjects

structure Services where
  entries : List (String × JsonValue)
  distinct : (entries.map Prod.fst).Nodup

def Services.empty : Services := ⟨[], List.nodup_nil⟩

structure Config where
  services : Option Services
  outDir : Option String

/-- The configuration file is given by what it says, all others by their texts. -/
inductive Content where
  | config (config : Config)
  | text (s : String)

def CONFIG_FILE_NAME : String := "cam.config.json"

def Config.entries (config : Config) : List (String × JsonValue) :=
  (config.services.getD .empty).entries

def Config.directory (config : Config) : String :=
  match config.outDir with
  | none => "."
  | some outDir => if outDir = "" then "." else outDir

/-- What `services[name]` finds for a name that is no key. -/
def objectPrototype : List String :=
  ["constructor", "__defineGetter__", "__defineSetter__", "hasOwnProperty", "__lookupGetter__",
    "__lookupSetter__", "isPrototypeOf", "propertyIsEnumerable", "toString", "valueOf",
    "__proto__", "toLocaleString"]

/-- Truthiness of the script, where empty arrays and objects count. -/
def isTruthy : JsonValue → Bool
  | .null => false
  | .bool b => b
  | .num q => q != 0
  | .str s => s != ""
  | .arr _ => true
  | .obj _ => true

/-- `config.services && config.services[name]`, as a condition. -/
def Config.hasService (config : Config) (name : String) : Bool :=
  match config.services with
  | none => false
  | some services =>
    match services.entries.lookup name with
    | some info => isTruthy info
    | none => objectPrototype.contains name

def splitInfo (info : String) : List String := (info.toList.splitOn '@').map String.ofList

/-- Whether one of the services has this uuid; `none` when a service is no text. -/
def hasUuid (uuid : String) : List (String × JsonValue) → Option Bool
  | [] => some false
  | (_, .str info) :: es =>
    if (splitInfo info).head? = some uuid then some true else hasUuid uuid es
  | _ :: _ => none

/-- `config.services[name] = info`; assigning to `__proto__` adds no key. -/
def Config.withService (config : Config) (name info : String) : Config where
  services :=
    let services := config.services.getD .empty
    if name = "__proto__" ∧ services.entries.lookup name = none then some services
    else some ⟨OrderedDictionaries.set services.entries name (.str info),
      OrderedDictionaries.nodup_keys_set services.distinct name (.str info)⟩
  outDir := config.outDir

def Config.withoutService (config : Config) (name : String) : Config where
  services := config.services.map (fun services =>
    ⟨services.entries.filter (fun e => e.1 != name),
      services.distinct.sublist (List.filter_sublist.map Prod.fst)⟩)
  outDir := config.outDir

/-- The configuration file in the directory `cwd`; `none` when the command exits. -/
def readConfig (cwd : Path) (d : Disk Content) : Option Config :=
  match d.file (cwd ++ [CONFIG_FILE_NAME]) with
  | some (.config config) => some config
  | _ => none

inductive Reply (α : Type) where
  | failed
  | refused
  | ok (a : α)

abbrev ServiceReply := Reply (List (Reply FetchedApi))

/-- Apis that are refused are left out, an error ends the service. -/
def fetchApis : List (Reply FetchedApi) → Option (List FetchedApi)
  | [] => some []
  | .failed :: _ => none
  | .refused :: replies => fetchApis replies
  | .ok api :: replies => (fetchApis replies).map (fun apis => api :: apis)

def fetchService : ServiceReply → Option (List FetchedApi)
  | .ok replies => fetchApis replies
  | _ => none

def requestDemoCode (up : Uppercase) (demoServiceName : String) : String :=
  let demoClassName := capitalizeFirstLetter up (demoServiceName ++ "Service")
  "\n// This is a demo request code for how to use auto generated service class.\n" ++
  "// You can also use your own request instance like axios or fetch.\n\n" ++
  "import axios, \x7b type AxiosRequestConfig \x7d from \"axios\"; " ++
  "// Install axios if you haven't\n" ++
  "import " ++ demoClassName ++ " from \"./" ++ demoServiceName ++ "/index\";\n\n" ++
  "const BASE_URL = \"http://localhost:3000\"; // Change to the actual base URL\n\n" ++
  "export const demoServiceForAxios = new " ++ demoClassName ++ "<AxiosRequestConfig>(\x7b\n" ++
  "    baseURL: BASE_URL,\n" ++
  "    request: (config, _options) =>\n" ++
  "        axios.request(\x7b ...config \x7d),\n\x7d);\n\n" ++
  "export const demoServiceForFetch = new " ++ demoClassName ++ "<RequestInit>(\x7b\n" ++
  "    baseURL: BASE_URL,\n" ++
  "        request: (config, _options) =>\n" ++
  "            fetch(config.url, \x7b ...config \x7d).then((res) => res.json()),\n\x7d);\n"

/-- An error leaves the disk as it is by then. -/
abbrev Script := Except (Disk Content) (Disk Content)

structure Setting where
  up : Uppercase
  /-- `prettier.format`; `none` is an error. -/
  prettier : String → Option String
  cwd : Path
  /-- Whether this version of Node empties a directory before it finds that `rmdir` refuses it. -/
  emptiesFirst : Bool

section Generate

variable (setting : Setting)

def formatCodeByPrettier (code : String) : String := (setting.prettier code).getD code

/-- An output directory is there. -/
def ensureDirectory (d : Disk Content) (outputDir : Path) : Script :=
  if d.existsSync outputDir then .ok d else attempt d (d.mkdirSync outputDir)

def generateService (outDir : String) (replies : String → ServiceReply) (d : Disk Content)
    (service : String × JsonValue) : Script :=
  match service.2 with
  | .str info =>
    match splitInfo info with
    | service_uuid :: version :: _ =>
      if service_uuid = "" ∨ version = "" then .ok d
      else do
        let outputDir := join setting.cwd outDir service.1
        let d ← ensureDirectory d outputDir
        match fetchService (replies service.1) with
        | none => .ok d
        | some apis => do
          let namespaces := formatCodeByPrettier setting (namespaceCode setting.up apis)
          let d ← attempt d (d.writeFileSync outputDir "namespaces.ts" (.text namespaces))
          let code := formatCodeByPrettier setting (indexCode setting.up service.1 apis)
          attempt d (d.writeFileSync outputDir "index.ts" (.text code))
    | _ => .ok d
  | _ => .error d

def writeRequestDemo (config : Config) (d : Disk Content) : Script :=
  match (objectOrder config.entries).head? with
  | none => .error d
  | some (demoServiceName, _) =>
    if demoServiceName = "" then .error d
    else
      let code := formatCodeByPrettier setting (requestDemoCode setting.up demoServiceName)
      attempt d (d.writeFileSync (resolve setting.cwd config.directory) "request-demo.ts"
        (.text code))

def emptyOutput (config : Config) (d : Disk Content) : Script :=
  if d.existsSync (resolve setting.cwd config.directory) then
    d.rmSync setting.emptiesFirst setting.cwd config.directory
  else .ok d

def generate (config : Config) (replies : String → ServiceReply) (d : Disk Content) : Script := do
  let d ← emptyOutput setting config d
  let d ← attempt d (d.mkdirSync (resolve setting.cwd config.directory))
  let d ← (objectOrder config.entries).foldlM
    (generateService setting config.directory replies) d
  writeRequestDemo setting config d

/-- An `error` where the command exits with a code other than zero. -/
def pullAllApisInAllServices (replies : String → ServiceReply) (d : Disk Content) : Script :=
  match readConfig setting.cwd d with
  | none => .error d
  | some config =>
    if config.entries.isEmpty then .error d else generate setting config replies d

structure Outcome where
  disk : Disk Content
  succeeded : Bool

def saveAndPull (config : Config) (replies : String → ServiceReply) (d : Disk Content) : Outcome :=
  match d.writeFileSync setting.cwd CONFIG_FILE_NAME (.config config) with
  | none => ⟨d, false⟩
  | some d => ⟨left (pullAllApisInAllServices setting replies d), true⟩

def storeServiceInfo (name service_uuid version : String) (serviceReply : Reply Unit)
    (replies : String → ServiceReply) (d : Disk Content) : Outcome :=
  match readConfig setting.cwd d with
  | none => ⟨d, false⟩
  | some config =>
    if config.hasService name then ⟨d, false⟩
    else
      match hasUuid service_uuid (objectOrder config.entries), serviceReply with
      | some false, .ok _ =>
        saveAndPull setting (config.withService name (service_uuid ++ "@" ++ version)) replies d
      | _, _ => ⟨d, false⟩

def removeService (serviceName : String) (replies : String → ServiceReply) (d : Disk Content) :
    Outcome :=
  match readConfig setting.cwd d with
  | none => ⟨d, false⟩
  | some config =>
    if config.hasService serviceName then
      saveAndPull setting (config.withoutService serviceName) replies d
    else ⟨d, false⟩

inductive Command where
  | store (name service_uuid version : String) (serviceReply : Reply Unit)
    (replies : String → ServiceReply)
  | remove (serviceName : String) (replies : String → ServiceReply)
  | pull (replies : String → ServiceReply)

def perform (d : Disk Content) : Command → Outcome
  | .store name service_uuid version serviceReply replies =>
    storeServiceInfo setting name service_uuid version serviceReply replies d
  | .remove serviceName replies => removeService setting serviceName replies d
  | .pull replies =>
    ⟨left (pullAllApisInAllServices setting replies d),
      succeeded (pullAllApisInAllServices setting replies d)⟩

end Generate

end ServiceCommands
