import ApiManagement.CommandRuns
import ApiManagement.DeliveredParams

/-! # Saved params in the files of a project

The generator asks the backend for a service and for each of its apis, and writes two files. When
a command was successful, they hold the code of the params that were saved in the editor. -/
namespace DeliveredClients

open TransactionRuns KeyedTables RowForests PythonRuntime ServiceSchema ServiceOperations
  ApiOperations CodeGenerator ServiceClass OperationRuns FileSystem FailingScripts ScriptObjects
  OwnOutput GhostServices CommandLine IdentifierRoundTrip CommandRuns ParamRoundTrip
  UnorderedCode DeliveredParams
open ServiceCommands hiding perform removeService pullAllApisInAllServices Reply

section Answers

variable {db : Database} {userId : ℕ} {isLatest : Bool}

inductive ApiAnswered (db : Database) (userId apiId : ℕ) (isLatest : Bool) :
    Answer FetchedApi → Prop where
  | ok {env : Environment} {reply : Reply ApiDetail} {api : FetchedApi} :
      apiGetApiById env apiId userId isLatest db = .ok reply → Fetches reply.data api →
      ApiAnswered db userId apiId isLatest (.ok api)
  | refused {env : Environment} {status : ℤ} {message : String} :
      apiGetApiById env apiId userId isLatest db = .error (.reply status message) →
      ApiAnswered db userId apiId isLatest .refused
  | failed {env : Environment} {e : Raised} :
      apiGetApiById env apiId userId isLatest db = .error (.raised e) →
      ApiAnswered db userId apiId isLatest .failed

/-- The answer to the request for a service, and then for each of its apis; the backend does not
change in between. -/
inductive ServiceAnswered (db : Database) (userId : ℕ) (serviceUuid version : String) :
    ServiceAnswer → Prop where
  | ok {env : Environment} {reply : Reply VersionDetail} {answers : List (Answer FetchedApi)} :
      serviceGetServiceByUuidAndVersion env serviceUuid version userId db = .ok reply →
      List.Forall₂ (fun a answer => ApiAnswered db userId a.id reply.data.isLatest answer)
        reply.data.apis answers →
      ServiceAnswered db userId serviceUuid version (.ok answers)
  | refused {env : Environment} {status : ℤ} {message : String} :
      serviceGetServiceByUuidAndVersion env serviceUuid version userId db =
        .error (.reply status message) →
      ServiceAnswered db userId serviceUuid version .refused
  | failed {env : Environment} {e : Raised} :
      serviceGetServiceByUuidAndVersion env serviceUuid version userId db = .error (.raised e) →
      ServiceAnswered db userId serviceUuid version .failed

def Fetched (db : Database) (userId : ℕ) (isLatest : Bool) (a : ApiRow) (api : FetchedApi) :
    Prop :=
  ∃ env reply, apiGetApiById env a.id userId isLatest db = .ok reply ∧ Fetches reply.data api

theorem fetched_apis {apis : List ApiRow} {answers : List (Answer FetchedApi)}
    (h : List.Forall₂ (fun a answer => ApiAnswered db userId a.id isLatest answer) apis answers)
    (hread : ∀ a ∈ apis, ∀ env : Environment, ∃ reply,
      apiGetApiById env a.id userId isLatest db = .ok reply) :
    ∃ fetched, fetchApis (answers.map Answer.reply) = some fetched ∧
      List.Forall₂ (Fetched db userId isLatest) apis fetched := by
  induction h with
  | nil => exact ⟨[], rfl, .nil⟩
  | @cons a answer apis answers ha _ ih =>
    obtain ⟨fetched, hfetched, hall⟩ := ih (fun b hb => hread b (List.mem_cons_of_mem _ hb))
    cases ha with
    | ok hreply hf =>
      refine ⟨_ :: fetched, ?_, .cons ⟨_, _, hreply, hf⟩ hall⟩
      rw [List.map_cons, Answer.reply, fetchApis, hfetched]
      rfl
    | refused hreply =>
      obtain ⟨reply, hok⟩ := hread a List.mem_cons_self _
      rw [hok] at hreply
      cases hreply
    | failed hreply =>
      obtain ⟨reply, hok⟩ := hread a List.mem_cons_self _
      rw [hok] at hreply
      cases hreply

theorem mem_of_forall₂ {α β : Type} {R : α → β → Prop} {as : List α} {bs : List β}
    (h : List.Forall₂ R as bs) {a : α} (ha : a ∈ as) : ∃ b ∈ bs, R a b := by
  induction h with
  | nil => cases ha
  | cons hab _ ih =>
    rcases List.mem_cons.mp ha with rfl | ha
    · exact ⟨_, List.mem_cons_self, hab⟩
    · obtain ⟨b, hb, hr⟩ := ih ha
      exact ⟨b, List.mem_cons_of_mem _ hb, hr⟩

/-- The client can use every answer about a version that delivers an edit. -/
theorem fetched_service {edit : Edit} {reqs : List (RoseTree RequestFields)}
    {resps : List (RoseTree ResponseFields)} {serviceUuid version : String}
    {answer : ServiceAnswer} (h : ServiceAnswered db userId serviceUuid version answer)
    (hserved : ∀ env : Environment, ∃ reply,
      serviceGetServiceByUuidAndVersion env serviceUuid version userId db = .ok reply ∧
        Delivers edit reqs resps db userId reply.data) :
    ∃ apis, fetchService answer.reply = some apis ∧
      ∃ api ∈ apis, SameFetched api (edit.described reqs resps) := by
  cases h with
  | @ok env reply answers hreply hall =>
    obtain ⟨reply', hreply', hdelivers⟩ := hserved env
    rw [hreply] at hreply'
    cases hreply'
    obtain ⟨fetched, hfetched, hall⟩ := fetched_apis hall hdelivers.readable
    obtain ⟨a, ha, hedited⟩ := hdelivers.edited
    obtain ⟨api, hapi, env', reply', hreply', hf⟩ := mem_of_forall₂ hall ha
    exact ⟨fetched, hfetched, api, hapi, hedited env' reply' api hreply' hf⟩
  | @refused env _ _ hreply =>
    obtain ⟨reply, hok, _⟩ := hserved env
    rw [hok] at hreply
    cases hreply
  | @failed env _ hreply =>
    obtain ⟨reply, hok, _⟩ := hserved env
    rw [hok] at hreply
    cases hreply

theorem data_of_apiGetApiById {env : Environment} {apiId : ℕ} {reply : Reply ApiDetail}
    (h : apiGetApiById env apiId userId isLatest db = .ok reply) :
    ∃ st a, reply.data = apiDetail env db st a := by
  unfold apiGetApiById at h
  dsimp only at h
  generalize (if isLatest then db.live else db.drafts) = st at h
  simp only [bind_eq_ok, orAbort_eq_ok] at h
  obtain ⟨a, _, u, _, h⟩ := h
  refine ⟨st, a, ?_⟩
  split at h
  · split at h
    · simp only [bind_eq_ok, pure_eq_ok] at h
      obtain ⟨_, _, _, _, rfl⟩ := h
      rfl
    · simp only [bind_eq_ok, pure_eq_ok] at h
      obtain ⟨_, _, _, _, _, _, rfl⟩ := h
      rfl
  · rw [← pure_eq_ok.mp h]

/-- There is an answer about every version that can be read with its apis. -/
theorem serviceAnswered_of_readable {serviceUuid version : String} {env : Environment}
    {reply : Reply VersionDetail}
    (h : serviceGetServiceByUuidAndVersion env serviceUuid version userId db = .ok reply)
    (hread : ∀ a ∈ reply.data.apis, ∀ env : Environment, ∃ r,
      apiGetApiById env a.id userId reply.data.isLatest db = .ok r) :
    ∃ answers, ServiceAnswered db userId serviceUuid version (.ok answers) := by
  have hall : ∃ answers, List.Forall₂
      (fun a answer => ApiAnswered db userId a.id reply.data.isLatest answer)
      reply.data.apis answers := by
    generalize reply.data.apis = apis at hread
    induction apis with
    | nil => exact ⟨[], .nil⟩
    | cons a apis ih =>
      obtain ⟨answers, hanswers⟩ := ih (fun b hb => hread b (List.mem_cons_of_mem _ hb))
      obtain ⟨r, hr⟩ := hread a List.mem_cons_self env
      obtain ⟨st, b, hdata⟩ := data_of_apiGetApiById hr
      exact ⟨_, .cons (.ok hr (hdata ▸ fetches_detail env db st b)) hanswers⟩
  obtain ⟨answers, hanswers⟩ := hall
  exact ⟨answers, .ok h hanswers⟩

end Answers

section Files

variable {setting : Setting} {config : Config} {replies : String → ServiceReply}
  {d d' : Disk Content} {out : Path} {name : String}

structure HoldsCode (setting : Setting) (out : Path) (name : String) (apis : List FetchedApi)
    (d : Disk Content) : Prop where
  namespaces : d.file (out ++ [name, "namespaces.ts"]) =
    some (.text (formatCodeByPrettier setting (namespaceCode setting.up apis)))
  index : d.file (out ++ [name, "index.ts"]) =
    some (.text (formatCodeByPrettier setting (indexCode setting.up name apis)))

theorem HoldsCode.kept {apis : List FetchedApi} (h : HoldsCode setting out name apis d)
    (hfile : ∀ file, d'.file (out ++ [name, file]) = d.file (out ++ [name, file])) :
    HoldsCode setting out name apis d' :=
  ⟨(hfile _).trans h.namespaces, (hfile _).trans h.index⟩

theorem holdsCode_of_service {service : String × PythonRuntime.JsonValue} {apis : List FetchedApi}
    (hplain : PlainName service.1) (hvalid : ValidInfo service.2)
    (hapis : fetchService (replies service.1) = some apis)
    (h : generateService setting config.directory replies d service = .ok d') :
    HoldsCode setting (output setting config) service.1 apis d' := by
  obtain ⟨text, service_uuid, version, rest, hinfo, hsplit, huuid, hversion⟩ := hvalid
  unfold generateService at h
  rw [hinfo] at h
  dsimp only at h
  rw [hsplit] at h
  dsimp only at h
  rw [if_neg (not_or.mpr ⟨huuid, hversion⟩), join_plain _ _ hplain, hapis] at h
  simp only [bind_eq_ok, attempt_eq_ok] at h
  obtain ⟨d₁, _, d₂, h₂, h₃⟩ := h
  have happend : ∀ file, output setting config ++ [service.1, file] =
      resolve setting.cwd config.directory ++ [service.1] ++ [file] := by
    intro file
    rw [List.append_assoc]
    rfl
  constructor
  · rw [happend, Disk.file_writeFileSync h₃, if_neg, Disk.file_writeFileSync h₂, if_pos rfl]
    exact fun heq => absurd (List.append_cancel_left heq) (by decide)
  · rw [happend, Disk.file_writeFileSync h₃, if_pos rfl]

/-- The generation of one service leaves the files of the others. -/
theorem file_of_other {service : String × PythonRuntime.JsonValue} (hne : name ≠ service.1)
    (hplain : PlainName service.1)
    (h : generateService setting config.directory replies d service = .ok d') (file : String) :
    d'.file (output setting config ++ [name, file]) =
      d.file (output setting config ++ [name, file]) := by
  let alone : Config := ⟨some ⟨[service], List.nodup_singleton _⟩, config.outDir⟩
  have hplace : ¬ Written setting alone replies (output setting config ++ [name, file]) := by
    intro hwritten
    have hp := hwritten.place
    generalize hq : output setting config ++ [name, file] = q at hp
    cases hp with
    | service file' hname _ =>
      rw [List.mem_singleton.mp hname, join_plain _ _ hplain, List.append_assoc] at hq
      have heq := List.append_cancel_left hq
      injection heq with heq _
      exact hne heq
    | demo =>
      have heq := List.append_cancel_left hq
      injection heq with _ heq
      cases heq
  have hservice : service ∈ alone.entries := List.mem_cons_self
  have hleft : Leaves (fun d' => d'.file (output setting config ++ [name, file]) =
      d.file (output setting config ++ [name, file]))
      (generateService setting alone.directory replies d service) :=
    leaves_service hservice hplace rfl
  change Leaves _ (generateService setting config.directory replies d service) at hleft
  rw [h] at hleft
  exact hleft

variable (replies) in
/-- After a generation the files of every service hold the code of its apis. -/
theorem holdsCode_generate (hlistable : Listable setting config d)
    (hname : name ∈ config.entries.map Prod.fst) {apis : List FetchedApi}
    (hapis : fetchService (replies name) = some apis) :
    HoldsCode setting (output setting config) name apis
      (left (generate setting config replies d)) := by
  obtain ⟨d₀, d₁, hd₀, hd₁, _, h₁⟩ := generated_emptied hlistable.removable hlistable.free
  obtain ⟨d₂, hd₂, _, h₂⟩ : ∃ d₂, (objectOrder config.entries).foldlM
      (generateService setting config.directory replies) d₁ = .ok d₂ ∧
        Generated (output setting config) (([] ++ objectOrder config.entries).map Prod.fst) d₂ ∧
        (name ∈ ([] ++ objectOrder config.entries).map Prod.fst →
          HoldsCode setting (output setting config) name apis d₂) := by
    refine foldlM_ok (I := fun done d => Generated (output setting config) (done.map Prod.fst) d ∧
      (name ∈ done.map Prod.fst → HoldsCode setting (output setting config) name apis d))
      ⟨h₁, fun h => by cases h⟩ ?_
    rintro done d ⟨hd, hcode⟩ service hservice
    have hplain := hlistable.plain service (mem_objectOrder.mp hservice)
    have hvalid := hlistable.valid service (mem_objectOrder.mp hservice)
    obtain ⟨d', hd', hgenerated⟩ : ∃ d',
        generateService setting config.directory replies d service = .ok d' ∧
          Generated (output setting config) (done.map Prod.fst ++ [service.1]) d' :=
      generated_service hplain hvalid hd
    refine ⟨d', hd', ?_, ?_⟩
    · rw [List.map_append]
      exact hgenerated
    · intro hmem
      by_cases hs : name = service.1
      · subst hs
        exact holdsCode_of_service hplain hvalid hapis hd'
      · rw [List.map_append, List.map_singleton, List.mem_append, List.mem_singleton] at hmem
        exact (hcode (hmem.resolve_right hs)).kept (file_of_other hs hplain hd')
  have hcode : HoldsCode setting (output setting config) name apis d₂ := by
    apply h₂
    obtain ⟨service, hservice, hs⟩ := List.mem_map.mp hname
    exact List.mem_map.mpr ⟨service, mem_objectOrder.mpr hservice, hs⟩
  have hgenerate : generate setting config replies d = writeRequestDemo setting config d₂ := by
    unfold output at hd₁
    unfold generate
    rw [hd₀]
    change (attempt d₀ (d₀.mkdirSync (resolve setting.cwd config.directory)) >>= _) = _
    rw [hd₁]
    exact congrArg (fun script => script >>= writeRequestDemo setting config) hd₂
  rw [hgenerate]
  refine hcode.kept ?_
  intro file
  rcases left_writeRequestDemo d₂ with heq | ⟨content, hwritten⟩
  · rw [heq]
  · rw [Disk.file_writeFileSync hwritten, if_neg]
    intro heq
    have heq := List.append_cancel_left heq
    injection heq with _ heq
    cases heq

end Files

/-- When a command was successful that asked the backend for a version, the files of the service
hold the code of the apis that were answered, and that of one of them is the code of the api as it
was saved in the editor before, up to the order of params. -/
theorem client_holds_saved_params {setting : Setting} {config : Config} {m m' : Machine}
    (hm : readConfig setting.cwd m.disk = none)
    (hrun : Runs (happen setting) (Careful setting) m m') {i : Invocation} {answers : Answers}
    (hi : answersOf i = some answers) (hs : (perform setting m' i).succeeded = true)
    (hsrc : m'.disk.file (setting.cwd ++ ["src"]) = none)
    (hc : readConfig setting.cwd (perform setting m' i).machine.disk = some config)
    {service : ServiceIdentifier}
    (hlisted : (service.serviceName, JsonValue.str (infoOf service)) ∈ config.entries)
    {db : Database} {userId : ℕ} (hanswer : ServiceAnswered db userId service.serviceUuid
      service.version (answers service.serviceName))
    {edit : Edit} {serviceId : ℕ} (h : Published edit service.version serviceId db)
    {reqs : List (RoseTree RequestFields)} {resps : List (RoseTree ResponseFields)}
    (hreq : requestForest edit.reqParams = some reqs)
    (hresp : responseForest edit.respParams = some resps) (hlatest : service.version ≠ "latest")
    {s : Service} (hservice : s ∈ db.services.rows) (hsid : s.id = serviceId)
    (halive : s.isDeleted = false)
    (huuid : strip (unquote service.serviceUuid) = s.serviceUuid.val)
    (hread : MayRead db s edit.iterationId service.version userId) :
    ∃ apis, fetchService (answers service.serviceName).reply = some apis ∧
      HoldsCode setting (outputPath setting) service.serviceName apis
        (perform setting m' i).machine.disk ∧
      ∃ api ∈ apis, SameCode (generateTSCode setting.up api)
        (generateTSCode setting.up (edit.described reqs resps)) := by
  obtain ⟨d₀, hd, _, hlistable, hout⟩ :=
    generated_of_perform hm hrun hi hs hsrc hc (List.ne_nil_of_mem hlisted)
  obtain ⟨apis, hapis, api, hmem, hsame⟩ := fetched_service hanswer
    (fun env => h.served hreq hresp hlatest hservice hsid halive huuid hread env)
  refine ⟨apis, hapis, ?_, api, hmem, sameCode_of_sameFetched setting.up hsame⟩
  rw [hd, ← hout]
  exact holdsCode_generate (fun name => (answers name).reply) hlistable
    (List.mem_map_of_mem hlisted) hapis

theorem succeeded_storeServiceInfo (setting : Setting) (name service_uuid version : String)
    (serviceReply : ServiceCommands.Reply Unit) (replies replies' : String → ServiceReply)
    (d : Disk Content) :
    (storeServiceInfo setting name service_uuid version serviceReply replies d).succeeded =
      (storeServiceInfo setting name service_uuid version serviceReply replies' d).succeeded := by
  unfold storeServiceInfo
  cases readConfig setting.cwd d with
  | none => rfl
  | some config =>
    dsimp only
    split
    · rfl
    · split
      · unfold saveAndPull
        split <;> rfl
      · rfl

def core : ServiceIdentifier := ⟨"core", "team/core", "0.0.3"⟩

theorem core_parsed : parseIdentifier "core:team/core@0.0.3" = some core := by decide +kernel

def addingCore (answers : Answers) : Invocation :=
  .add "core:team/core@0.0.3" developerLogin (.ok ()) answers

theorem core_added (answers : Answers) :
    (perform projectSetting started (addingCore answers)).succeeded = true := by
  have htoken : started.camrc.getToken.isSome = true := by decide +kernel
  rw [addingCore, perform, loginRequired, if_pos htoken, addService, core_parsed]
  dsimp only [finish]
  rw [succeeded_storeServiceInfo projectSetting _ _ _ _ _ (fun _ => .ok [])]
  decide +kernel

theorem core_config (answers : Answers) : readConfig projectSetting.cwd
    (perform projectSetting started (addingCore answers)).machine.disk =
      some (CONFIG_FILE_CONTENT.withService "core" (infoOf core)) := by
  have hs := core_added answers
  have htoken : started.camrc.getToken.isSome = true := by decide +kernel
  rw [addingCore, perform, loginRequired, if_pos htoken, addService, core_parsed] at hs ⊢
  exact readConfig_stored (kept_run sources_config runs_started) rfl
    (wellFormed_of_parse core_parsed) hs

/-- The answer of the backend of the example, in which the orders were saved. -/
theorem core_answered :
    ∃ answers, ServiceAnswered replaced 1 "team/core" "0.0.3" (.ok answers) := by
  obtain ⟨reqs, hreq⟩ : ∃ reqs, requestForest orderPayload = some reqs :=
    Option.isSome_iff_exists.mp (by decide +kernel)
  obtain ⟨resps, hresp⟩ : ∃ resps, responseForest orderReply = some resps :=
    Option.isSome_iff_exists.mp (by decide +kernel)
  obtain ⟨reply, hreply, hdelivers⟩ : ∃ reply,
      serviceGetServiceByUuidAndVersion plainEnvironment "team/core" "0.0.3" 1 replaced =
        .ok reply ∧ Delivers ordersEdit reqs resps replaced 1 reply.data :=
    orders_published.served hreq hresp (by decide) (s := replacedService) (by decide +kernel) rfl
      rfl (by decide +kernel) (Or.inl (Or.inl rfl)) plainEnvironment
  exact serviceAnswered_of_readable hreply hdelivers.readable

theorem project_holds_orders : ∃ answers reqs resps apis,
    ServiceAnswered replaced 1 "team/core" "0.0.3" (.ok answers) ∧
    requestForest orderPayload = some reqs ∧ responseForest orderReply = some resps ∧
    fetchService (ServiceAnswer.reply (.ok answers)) = some apis ∧
    HoldsCode projectSetting (outputPath projectSetting) "core" apis
      (perform projectSetting started (addingCore (fun _ => .ok answers))).machine.disk ∧
    ∃ api ∈ apis, SameCode (generateTSCode projectSetting.up api)
      (generateTSCode projectSetting.up (ordersEdit.described reqs resps)) := by
  obtain ⟨answers, hanswers⟩ := core_answered
  obtain ⟨reqs, hreq⟩ : ∃ reqs, requestForest orderPayload = some reqs :=
    Option.isSome_iff_exists.mp (by decide +kernel)
  obtain ⟨resps, hresp⟩ : ∃ resps, responseForest orderReply = some resps :=
    Option.isSome_iff_exists.mp (by decide +kernel)
  have hsrc : (started.disk.file (projectSetting.cwd ++ ["src"])).isNone = true := by
    decide +kernel
  have hlisted : (core.serviceName, JsonValue.str (infoOf core)) ∈
      (CONFIG_FILE_CONTENT.withService "core" (infoOf core)).entries := List.mem_cons_self
  obtain ⟨apis, hapis, hcode, hsame⟩ := client_holds_saved_params sources_config runs_started
    (i := addingCore (fun _ => .ok answers)) rfl (core_added _)
    (Option.isNone_iff_eq_none.mp hsrc) (core_config _) hlisted hanswers orders_published hreq
    hresp (by decide) (s := replacedService) (by decide +kernel) rfl rfl (by decide +kernel)
    (Or.inl (Or.inl rfl))
  exact ⟨answers, reqs, resps, apis, hanswers, hreq, hresp, hapis, hcode, hsame⟩

end DeliveredClients
