import ApiManagement.ServiceCommands
import ApiManagement.VersionOrder

/-! # The command line of the code generator

The commands that users type, with the file in the home directory that keeps who is logged in.
Most commands ask for a login first, and a request that is answered with status 401 ends it. -/
namespace CommandLine

open PythonRuntime (JsonValue)
open CodeGenerator FileSystem FailingScripts ScriptObjects ServiceCommands VersionOrder

structure UserProfile where
  username : Option String
  nickname : Option String
  email : Option String
  role : Option String
  deriving DecidableEq

def UserProfile.empty : UserProfile := ⟨none, none, none, none⟩

/-- What `.camrc` says; a file that is missing or cannot be parsed says nothing. -/
structure CamrcConfig where
  token : Option String
  user : Option UserProfile
  deriving DecidableEq

namespace CamrcConfig

variable (config : CamrcConfig)

def setToken (token : String) : CamrcConfig := { config with token := some token }

/-- `config.token || null`. -/
def getToken : Option String := config.token.filter (fun token => token ≠ "")

def setUser (user : UserProfile) : CamrcConfig := { config with user := some user }

def getUser : Option UserProfile := config.user

def expire : CamrcConfig :=
  match config.getToken with
  | none => config
  | some _ => (config.setToken "").setUser .empty

end CamrcConfig

/-- How a request ends: with status 401, by another error, or with a body whose status is
another than 200, or 200. -/
inductive Answer (α : Type) where
  | unauthorized
  | failed
  | refused
  | ok (a : α)

def Answer.reply {α : Type} : Answer α → Reply α
  | .ok a => .ok a
  | .refused => .refused
  | _ => .failed

def CamrcConfig.answered {α : Type} (config : CamrcConfig) : Answer α → CamrcConfig
  | .unauthorized => config.expire
  | _ => config

structure LoginAnswers where
  userLogin : Answer String
  getMyInfo : Answer UserProfile

inductive LoginEnd where
  | exited | refused | loggedIn
  deriving DecidableEq

def login (answers : LoginAnswers) (config : CamrcConfig) : CamrcConfig × LoginEnd :=
  match answers.userLogin with
  | .ok token =>
    let config := config.setToken token
    match answers.getMyInfo with
    | .ok user => (config.setUser user, .loggedIn)
    | .refused => (config, .refused)
    | answer => (config.answered answer, .exited)
  | .refused => (config, .refused)
  | answer => (config.answered answer, .exited)

def logout (config : CamrcConfig) : CamrcConfig :=
  match config.getToken with
  | none => config
  | some _ => (config.setToken "").setUser .empty

def whoami (config : CamrcConfig) : Option UserProfile :=
  match config.getToken with
  | none => none
  | some _ => config.getUser.filter (fun user => user.username.any (fun s => s ≠ ""))

def isValidVersion (value : String) : Bool :=
  value == "latest" || versionRegex value

def invalidChar (c : Char) : Bool :=
  "<>:\"/\\|?*".toList.contains c || decide (c.toNat ≤ 0x1F)

def isValidFilename (filename : String) : Bool :=
  filename != "" && !filename.toList.any invalidChar && filename != "." && filename != ".."

def splitName (s : String) : List String := (s.toList.splitOn ':').map String.ofList

structure ServiceIdentifier where
  serviceName : String
  serviceUuid : String
  version : String
  deriving DecidableEq

def versionPart (parts : List String) : String :=
  match parts[1]? with
  | none => "latest"
  | some version => if version = "" then "latest" else version

def parseIdentifier (serviceIdentifier : String) : Option ServiceIdentifier :=
  let parts := splitInfo serviceIdentifier
  let version := versionPart parts
  if !isValidVersion version then none
  else
    match splitName (parts.headD "") with
    | serviceName :: serviceUuid :: _ =>
      if serviceName = "" ∨ serviceUuid = "" ∨ !isValidFilename serviceName then none
      else some ⟨serviceName, serviceUuid, version⟩
    | _ => none

abbrev ServiceAnswer := Answer (List (Answer FetchedApi))

def ServiceAnswer.reply : ServiceAnswer → ServiceReply
  | .ok answers => .ok (answers.map Answer.reply)
  | .refused => .refused
  | _ => .failed

def apisAsked : List (Answer FetchedApi) → CamrcConfig → CamrcConfig
  | [], config => config
  | .unauthorized :: _, config => config.expire
  | .failed :: _, config => config
  | _ :: answers, config => apisAsked answers config

def serviceAsked : ServiceAnswer → CamrcConfig → CamrcConfig
  | .ok answers, config => apisAsked answers config
  | answer, config => config.answered answer

section Asked

variable (setting : Setting)

def asks (outDir : String) (d : Disk Content) (service : String × JsonValue) : Bool :=
  match service.2 with
  | .str info =>
    match splitInfo info with
    | service_uuid :: version :: _ =>
      service_uuid != "" && version != "" &&
        succeeded (ensureDirectory d (join setting.cwd outDir service.1))
    | _ => false
  | _ => false

/-- A service whose files cannot be written ends the generation. -/
def servicesAsked (outDir : String) (answers : String → ServiceAnswer) :
    List (String × JsonValue) → Disk Content → CamrcConfig → CamrcConfig
  | [], _, config => config
  | service :: services, d, config =>
    let config := if asks setting outDir d service then serviceAsked (answers service.1) config
      else config
    match generateService setting outDir (fun name => (answers name).reply) d service with
    | .error _ => config
    | .ok d => servicesAsked outDir answers services d config

def pullAsked (answers : String → ServiceAnswer) (d : Disk Content) (camrc : CamrcConfig) :
    CamrcConfig :=
  match readConfig setting.cwd d with
  | none => camrc
  | some config =>
    if config.entries.isEmpty then camrc
    else
      match emptyOutput setting config d with
      | .error _ => camrc
      | .ok d =>
        match d.mkdirSync (resolve setting.cwd config.directory) with
        | none => camrc
        | some d =>
          servicesAsked setting config.directory answers (objectOrder config.entries) d camrc

def saveAsked (config : Config) (answers : String → ServiceAnswer) (d : Disk Content)
    (camrc : CamrcConfig) : CamrcConfig :=
  match d.writeFileSync setting.cwd CONFIG_FILE_NAME (.config config) with
  | none => camrc
  | some d => pullAsked setting answers d camrc

def storeAsked (service : ServiceIdentifier) (serviceAnswer : Answer Unit)
    (answers : String → ServiceAnswer) (d : Disk Content) (camrc : CamrcConfig) : CamrcConfig :=
  match readConfig setting.cwd d with
  | none => camrc
  | some config =>
    if config.hasService service.serviceName then camrc
    else
      match hasUuid service.serviceUuid (objectOrder config.entries), serviceAnswer with
      | some false, .ok _ =>
        saveAsked setting (config.withService service.serviceName
          (service.serviceUuid ++ "@" ++ service.version)) answers d camrc
      | some false, answer => camrc.answered answer
      | _, _ => camrc

def removeAsked (serviceName : String) (answers : String → ServiceAnswer) (d : Disk Content)
    (camrc : CamrcConfig) : CamrcConfig :=
  match readConfig setting.cwd d with
  | none => camrc
  | some config =>
    if config.hasService serviceName then
      saveAsked setting (config.withoutService serviceName) answers d camrc
    else camrc

end Asked

structure Machine where
  disk : Disk Content
  camrc : CamrcConfig

structure Finished where
  machine : Machine
  succeeded : Bool

def CONFIG_FILE_CONTENT : Config := ⟨some .empty, some "src/cam-auto-generate"⟩

def loginRequired (answers : LoginAnswers) (fn : Machine → Finished) (m : Machine) : Finished :=
  if m.camrc.getToken.isSome then fn m
  else
    match login answers m.camrc with
    | (camrc, .exited) => ⟨{ m with camrc := camrc }, false⟩
    | (camrc, _) =>
      if camrc.getToken.isSome then fn { m with camrc := camrc }
      else ⟨{ m with camrc := camrc }, false⟩

section Perform

variable (setting : Setting)

def init (m : Machine) : Finished :=
  if m.disk.existsSync (setting.cwd ++ [CONFIG_FILE_NAME]) then ⟨m, false⟩
  else
    match m.disk.writeFileSync setting.cwd CONFIG_FILE_NAME (.config CONFIG_FILE_CONTENT) with
    | none => ⟨m, false⟩
    | some d => ⟨{ m with disk := d }, true⟩

def finish (outcome : Outcome) (camrc : CamrcConfig) : Finished :=
  ⟨⟨outcome.disk, camrc⟩, outcome.succeeded⟩

def addService (serviceIdentifier : String) (serviceAnswer : Answer Unit)
    (answers : String → ServiceAnswer) (m : Machine) : Finished :=
  match parseIdentifier serviceIdentifier with
  | none => ⟨m, false⟩
  | some service =>
    finish (storeServiceInfo setting service.serviceName service.serviceUuid service.version
        serviceAnswer.reply (fun name => (answers name).reply) m.disk)
      (storeAsked setting service serviceAnswer answers m.disk m.camrc)

def removeService (serviceName : String) (answers : String → ServiceAnswer) (m : Machine) :
    Finished :=
  finish (ServiceCommands.removeService setting serviceName (fun name => (answers name).reply)
      m.disk)
    (removeAsked setting serviceName answers m.disk m.camrc)

def pullAllApisInAllServices (answers : String → ServiceAnswer) (m : Machine) : Finished :=
  finish (ServiceCommands.perform setting m.disk (.pull (fun name => (answers name).reply)))
    (pullAsked setting answers m.disk m.camrc)

inductive Invocation where
  | init (login : LoginAnswers)
  | login (login : LoginAnswers)
  | logout
  | whoami
  | add (serviceIdentifier : String) (login : LoginAnswers) (serviceAnswer : Answer Unit)
    (answers : String → ServiceAnswer)
  | remove (serviceName : String) (login : LoginAnswers) (answers : String → ServiceAnswer)
  | update (login : LoginAnswers) (answers : String → ServiceAnswer)

def perform (m : Machine) : Invocation → Finished
  | .init answers => loginRequired answers (init setting) m
  | .login answers =>
    ⟨{ m with camrc := (login answers m.camrc).1 }, (login answers m.camrc).2 = .loggedIn⟩
  | .logout => ⟨{ m with camrc := logout m.camrc }, m.camrc.getToken.isSome⟩
  | .whoami => ⟨m, (whoami m.camrc).isSome⟩
  | .add serviceIdentifier login serviceAnswer answers =>
    loginRequired login (addService setting serviceIdentifier serviceAnswer answers) m
  | .remove serviceName login answers =>
    loginRequired login (removeService setting serviceName answers) m
  | .update login answers => loginRequired login (pullAllApisInAllServices setting answers) m

end Perform

end CommandLine
