import ApiManagement.InterfaceDeclarations

/-! # The service class

The two files that are generated for a service, before they are formatted: the interfaces of its
apis, and a class with one method per api. -/
namespace ServiceClass

open RowForests ServiceSchema OpenapiExport CodeGenerator

def autoGeneratePrefix : String :=
  "\n// THIS IS AN AUTOGENERATED FILE. DO NOT EDIT THIS FILE DIRECTLY.\n" ++
  "/* eslint-disable */\n" ++
  "/* tslint:disable */\n" ++
  "// @ts-nocheck\n\n"

def singleQuoted (s : String) : String := "'" ++ s ++ "'"

def doubleQuoted (s : String) : String := "\"" ++ s ++ "\""

def docComment (s : String) : String := "/** " ++ s ++ " */"

section Namespaces

variable (up : Uppercase)

def namespaceCodeForThisApi (api : FetchedApi) : String :=
  "\n\n".intercalate ((generateTSCode up api).namespaces.map Interface.text)

def namespaceCode (apis : List FetchedApi) : String :=
  apis.foldl (fun code api => code ++ ("\n\n" ++ namespaceCodeForThisApi up api))
    autoGeneratePrefix

end Namespaces

section Methods

variable (option : ApiOption)

/-- The places of the params of a request, in the order of `reqInterfaceNameWithValue`. -/
def reqLocations : List ParamLocation := [.body, .query, .path, .header, .cookie]

def reqInterfaceNameWithValue : List String :=
  (reqLocations.map option.reqInterfaceName).filter (fun name => name != "")

def reqParamDef : String :=
  match reqInterfaceNameWithValue option with
  | [] => "req?: any"
  | names => "req: " ++ " & ".intercalate names

def respInterfaceName : String :=
  match option.respInterfaceNames with
  | [] => "any"
  | names => " & ".intercalate names

def paramCode (field : String) : String :=
  singleQuoted field ++ ": _req[" ++ doubleQuoted field ++ "]"

def paramsCode : List String → String
  | [] => "undefined"
  | fields => "\x7b " ++ ", ".intercalate (fields.map paramCode) ++ " \x7d"

/-- The code that puts one path param into the url. -/
def replaceCode (field : String) : String :=
  "\n    if (_req[" ++ doubleQuoted field ++ "] !== undefined && _req[" ++ doubleQuoted field ++
  " ] !== null) \x7b\n      url = url.replace(" ++ singleQuoted ("\x7b" ++ field ++ "\x7d") ++
  ", String(_req[" ++ doubleQuoted field ++ "]));\n    \x7d"

def urlCode : String :=
  "let url = this.genBaseURL(" ++ singleQuoted option.apiPath ++ ");" ++
  String.join ((option.reqFields .path).map replaceCode)

def apiFunctionCode : String :=
  "\n  " ++ docComment option.apiDescription ++ "\n  " ++
  option.functionName ++ "(" ++ reqParamDef option ++ ", options?: T): Promise<" ++
  respInterfaceName option ++ "> \x7b\n" ++
  "    const _req = req || \x7b\x7d;\n    " ++
  urlCode option ++
  "\n    const method = " ++ singleQuoted (methodName option.apiMethod) ++ ";\n" ++
  "    const data = " ++ paramsCode (option.reqFields .body) ++ ";\n" ++
  "    const params = " ++ paramsCode (option.reqFields .query) ++ ";\n" ++
  "    const headers = " ++ paramsCode (option.reqFields .header) ++ ";\n" ++
  "    return this.request(\x7b url, method, data, params, headers \x7d, options);\n" ++
  "  \x7d\n        "

end Methods

section Class

variable (up : Uppercase) (serviceName : String) (apiOptions : List ApiOption)

/-- The elements of a `Set`, in the order in which they were added. -/
def setOf (names : List String) : List String :=
  names.foldl (fun set name => if name ∈ set then set else set ++ [name]) []

def allImportInterfaces : List String :=
  setOf (apiOptions.flatMap (fun option =>
    reqInterfaceNameWithValue option ++ option.respInterfaceNames))

def importCode : String :=
  match allImportInterfaces apiOptions with
  | [] => ""
  | names => "import type \x7b " ++ ", ".intercalate names ++ " \x7d from \"./namespaces\";\n"

def className : String := capitalizeFirstLetter up serviceName ++ "Service"

def classHead : List String :=
  [");\n  \x7d;\n",
    "  private baseURL: string | ((path: string) => string) = '';\n",
    "\n",
    "  constructor(options?: \x7b\n",
    "    baseURL?: string | ((path: string) => string);\n",
    "    request?<R>(\n",
    "      params: \x7b\n",
    "        url: string;\n",
    "        method: 'GET' |  'POST' | 'PUT' |'DELETE' | 'PATCH';\n",
    "        data?: any;\n",
    "        params?: any;\n",
    "        headers?: any;\n",
    "      \x7d,\n",
    "      options?: T,\n",
    "    ): Promise<R>;\n",
    "  \x7d) \x7b\n",
    "    this.request = options?.request || this.request;\n",
    "    this.baseURL = options?.baseURL || this.baseURL;\n",
    "  \x7d\n",
    "\n",
    "  private genBaseURL(path: string) \x7b\n",
    "    if (typeof this.baseURL === 'string') \x7b\n",
    "        const baseUrl = this.baseURL.trim().replace(/\\/+$/, \"\");\n",
    "        const apiPath = path.trim().replace(/^\\/+/, \"\");\n",
    "        return baseUrl + '/' + apiPath;\n",
    "    \x7d\n",
    "    return this.baseURL(path);\n",
    "  \x7d\n",
    "\n",
    "  /* API Services */\n"]

def serviceClassCode : String :=
  "\n" ++ importCode apiOptions ++ "\nexport default class " ++ className up serviceName ++
  "<T> \x7b\n  private request: any = () => \x7b\n    throw new Error(" ++
  singleQuoted (className up serviceName ++ ".request is undefined") ++ String.join classHead ++
  String.join (apiOptions.map apiFunctionCode) ++ "\n\x7d;\n    "

end Class

def indexCode (up : Uppercase) (serviceName : String) (apis : List FetchedApi) : String :=
  autoGeneratePrefix ++ "\n" ++
    serviceClassCode up serviceName (apis.map (fun api => (generateTSCode up api).apiOption))

end ServiceClass
