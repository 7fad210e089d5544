import ApiManagement.GhostServices
import ApiManagement.IdentifierRoundTrip
import ApiManagement.TransactionRuns

/-! # Runs of commands

From a project without a configuration file the commands write one that they can read again, and
keep to it and to their output directory, whatever else the user does to other files. -/
namespace CommandRuns

open FileSystem FailingScripts ScriptObjects OwnOutput GhostServices CommandLine
  IdentifierRoundTrip TransactionRuns
open ServiceCommands hiding perform removeService pullAllApisInAllServices

variable {setting : Setting} {config config' : Config} {d d' : Disk Content}
  {services : List ServiceIdentifier}

def entryOf (service : ServiceIdentifier) : String × PythonRuntime.JsonValue :=
  (service.serviceName, .str (infoOf service))

/-- The configuration file as the commands write it, with these services. -/
structure Tidy (config : Config) (services : List ServiceIdentifier) : Prop where
  outDir : config.outDir = some "src/cam-auto-generate"
  listed : config.services.map Services.entries = some (services.map entryOf)
  wellFormed : ∀ service ∈ services, WellFormed service
  uuids : (services.map ServiceIdentifier.serviceUuid).Nodup

theorem Tidy.entries (h : Tidy config services) : config.entries = services.map entryOf := by
  obtain ⟨s, hs, hentries⟩ := Option.map_eq_some_iff.mp h.listed
  rw [Config.entries, hs, Option.getD_some, hentries]

theorem Tidy.plain (h : Tidy config services) :
    ∀ e ∈ config.entries, PlainName e.1 := by
  intro e he
  rw [h.entries] at he
  obtain ⟨service, hservice, rfl⟩ := List.mem_map.mp he
  exact plain_of_isValidFilename (h.wellFormed service hservice).name

theorem Tidy.valid (h : Tidy config services) : ∀ e ∈ config.entries, ValidInfo e.2 := by
  intro e he
  rw [h.entries] at he
  obtain ⟨service, hservice, rfl⟩ := List.mem_map.mp he
  have hwell := h.wellFormed service hservice
  refine ⟨_, _, _, [], rfl, splitInfo_infoOf hwell, hwell.uuid, ?_⟩
  intro he
  have hversion := hwell.version
  rw [he, isValidVersion_empty] at hversion
  cases hversion

def outputPath (setting : Setting) : Path := setting.cwd ++ ["src", "cam-auto-generate"]

theorem Tidy.directory (h : Tidy config services) : config.directory = "src/cam-auto-generate" := by
  rw [Config.directory, h.outDir]
  rfl

theorem Tidy.endsInName (h : Tidy config services) : endsInName config.directory = true := by
  rw [h.directory]
  decide +kernel

theorem Tidy.output (h : Tidy config services) : output setting config = outputPath setting := by
  have hcomponents : components "src/cam-auto-generate" = ["src", "cam-auto-generate"] := by
    decide +kernel
  have habsolute : isAbsolute "src/cam-auto-generate" = false := by decide +kernel
  rw [OwnOutput.output, h.directory, resolve, hcomponents, habsolute, if_neg Bool.false_ne_true,
    outputPath, List.foldl_cons, List.foldl_cons, List.foldl_nil, stepInto, stepInto,
    if_neg (by decide), if_neg (by decide), if_neg (by decide), if_neg (by decide),
    List.append_assoc]
  rfl

theorem config_outside (setting : Setting) :
    ¬ outputPath setting <+: setting.cwd ++ [CONFIG_FILE_NAME] := by
  rw [outputPath, List.prefix_append_right_inj]
  decide

theorem tidy_template : Tidy CONFIG_FILE_CONTENT [] :=
  ⟨rfl, rfl, fun _ h => absurd h List.not_mem_nil, List.nodup_nil⟩

/-- The uuid of none of the services. -/
theorem uuid_ne_of_hasUuid {uuid : String} {es : List (String × PythonRuntime.JsonValue)}
    (h : hasUuid uuid es = some false) {name info : String} (he : (name, .str info) ∈ es) :
    (splitInfo info).head? ≠ some uuid := by
  induction es with
  | nil => cases he
  | cons e es ih =>
    obtain ⟨n, value⟩ := e
    cases value with
    | str text =>
      rw [hasUuid] at h
      by_cases huuid : (splitInfo text).head? = some uuid
      · rw [if_pos huuid] at h
        cases h
      · rw [if_neg huuid] at h
        rcases List.mem_cons.mp he with heq | he
        · cases heq
          exact huuid
        · exact ih h he
    | null => cases h
    | bool b => cases h
    | num q => cases h
    | arr vs => cases h
    | obj members => cases h

theorem entries_withService {name : String} (hname : name ≠ "__proto__") (info : String) :
    (config.withService name info).services.map Services.entries =
      some (OrderedDictionaries.set config.entries name (.str info)) := by
  unfold Config.withService
  dsimp only
  rw [if_neg (fun h => hname h.1)]
  rfl

theorem tidy_withService {service : ServiceIdentifier} (h : Tidy config services)
    (hwell : WellFormed service) (hname : config.hasService service.serviceName = false)
    (huuid : hasUuid service.serviceUuid (objectOrder config.entries) = some false) :
    Tidy (config.withService service.serviceName (infoOf service)) (services ++ [service]) := by
  obtain ⟨s, hs, hentries⟩ := Option.map_eq_some_iff.mp h.listed
  have hlookup : config.entries.lookup service.serviceName = none := by
    rw [h.entries, ← hentries]
    cases hl : s.entries.lookup service.serviceName with
    | none => rfl
    | some info =>
      have hmem := OrderedDictionaries.mem_of_lookup hl
      rw [hentries] at hmem
      obtain ⟨other, _, heq⟩ := List.mem_map.mp hmem
      obtain rfl : .str (infoOf other) = info := congrArg Prod.snd heq
      rw [Config.hasService, hs] at hname
      simp only [hl, isTruthy, infoOf, bne_eq_false_iff_eq] at hname
      have hlist := congrArg String.toList hname
      simp at hlist
  have hproto : service.serviceName ≠ "__proto__" := by
    intro he
    rw [h.entries, ← hentries] at hlookup
    rw [Config.hasService, hs] at hname
    simp only [hlookup] at hname
    rw [he] at hname
    exact absurd hname (by decide)
  refine ⟨h.outDir, ?_, ?_, ?_⟩
  · rw [entries_withService hproto, OrderedDictionaries.set_of_lookup_eq_none hlookup, h.entries,
      List.map_append]
    rfl
  · intro other hother
    rcases List.mem_append.mp hother with hother | hother
    · exact h.wellFormed other hother
    · rwa [List.mem_singleton.mp hother]
  · rw [List.map_append, List.nodup_append]
    refine ⟨h.uuids, List.nodup_singleton _, ?_⟩
    intro uuid hmem uuid' hmem'
    obtain ⟨other, hother, rfl⟩ := List.mem_map.mp hmem
    obtain rfl := List.mem_singleton.mp hmem'
    have hentry : entryOf other ∈ objectOrder config.entries := by
      rw [mem_objectOrder, h.entries]
      exact List.mem_map_of_mem hother
    have hne := uuid_ne_of_hasUuid huuid hentry
    rw [splitInfo_infoOf (h.wellFormed other hother)] at hne
    exact fun he => hne (congrArg some he)

theorem tidy_withoutService (h : Tidy config services) (name : String) :
    Tidy (config.withoutService name) (services.filter (fun s => s.serviceName != name)) := by
  obtain ⟨s, hs, hentries⟩ := Option.map_eq_some_iff.mp h.listed
  refine ⟨h.outDir, ?_, ?_, ?_⟩
  · rw [Config.withoutService, hs, Option.map_some, Option.map_some]
    have hfilter : s.entries.filter (fun e => e.1 != name) =
        (services.filter (fun s => s.serviceName != name)).map entryOf := by
      rw [hentries, List.filter_map]
      rfl
    exact congrArg some hfilter
  · exact fun service hservice => h.wellFormed service (List.mem_of_mem_filter hservice)
  · exact h.uuids.sublist (List.filter_sublist.map _)

inductive Edit (config : Config) : Config → Prop where
  | add (service : ServiceIdentifier) : WellFormed service →
      config.hasService service.serviceName = false →
      hasUuid service.serviceUuid (objectOrder config.entries) = some false →
      Edit config (config.withService service.serviceName (infoOf service))
  | remove (name : String) : Edit config (config.withoutService name)

theorem Edit.tidy (hedit : Edit config config') (h : Tidy config services) :
    ∃ services', Tidy config' services' := by
  cases hedit with
  | add service hwell hname huuid => exact ⟨_, tidy_withService h hwell hname huuid⟩
  | remove name => exact ⟨_, tidy_withoutService h name⟩

abbrev Answers := String → ServiceAnswer

def pulled (setting : Setting) (answers : Answers) (d : Disk Content) : Disk Content :=
  left (ServiceCommands.pullAllApisInAllServices setting (fun name => (answers name).reply) d)

/-- What a command may do, by the answers it generates with if it does and by whether it says
that it was successful. -/
inductive Effect (setting : Setting) (d : Disk Content) :
    Option Answers → Bool → Disk Content → Prop where
  | unchanged (succeeded : Bool) : Effect setting d none succeeded d
  | initialised {d' : Disk Content} : d.writeFileSync setting.cwd CONFIG_FILE_NAME
        (.config CONFIG_FILE_CONTENT) = some d' → Effect setting d none true d'
  | stopped (answers : Answers) : Effect setting d (some answers) false d
  | saved (answers : Answers) {config config' : Config} {d' : Disk Content} :
      readConfig setting.cwd d = some config → Edit config config' →
      d.writeFileSync setting.cwd CONFIG_FILE_NAME (.config config') = some d' →
      Effect setting d (some answers) true (pulled setting answers d')
  | pulled (answers : Answers) (succeeded : Bool) :
      Effect setting d (some answers) succeeded (pulled setting answers d)

def answersOf : Invocation → Option Answers
  | .add _ _ _ answers => some answers
  | .remove _ _ answers => some answers
  | .update _ answers => some answers
  | _ => none

theorem loginRequired_cases (answers : LoginAnswers) (fn : Machine → Finished) (m : Machine) :
    ∃ camrc, loginRequired answers fn m = fn { m with camrc := camrc } ∨
      loginRequired answers fn m = ⟨{ m with camrc := camrc }, false⟩ := by
  unfold loginRequired
  split
  · exact ⟨m.camrc, Or.inl rfl⟩
  · split
    · exact ⟨_, Or.inr rfl⟩
    · split
      · exact ⟨_, Or.inl rfl⟩
      · exact ⟨_, Or.inr rfl⟩

variable {answers : Answers} {m : Machine}

theorem effect_saved (h : readConfig setting.cwd d = some config) (hedit : Edit config config') :
    Effect setting d (some answers)
      (saveAndPull setting config' (fun name => (answers name).reply) d).succeeded
      (saveAndPull setting config' (fun name => (answers name).reply) d).disk := by
  unfold saveAndPull
  cases hd : d.writeFileSync setting.cwd CONFIG_FILE_NAME (.config config') with
  | none => exact .stopped answers
  | some d' => exact .saved answers h hedit hd

theorem effect_store {service : ServiceIdentifier} (hwell : WellFormed service)
    (serviceReply : Reply Unit) :
    Effect setting d (some answers)
      (storeServiceInfo setting service.serviceName service.serviceUuid service.version serviceReply
        (fun name => (answers name).reply) d).succeeded
      (storeServiceInfo setting service.serviceName service.serviceUuid service.version serviceReply
        (fun name => (answers name).reply) d).disk := by
  unfold storeServiceInfo
  cases h : readConfig setting.cwd d with
  | none => exact .stopped answers
  | some config =>
    dsimp only
    by_cases hname : config.hasService service.serviceName = true
    · rw [if_pos hname]
      exact .stopped answers
    · rw [if_neg hname]
      split
      · rename_i huuid
        exact effect_saved h (.add service hwell (Bool.eq_false_iff.mpr hname) huuid)
      · exact .stopped answers

theorem effect_remove (name : String) :
    Effect setting d (some answers)
      (ServiceCommands.removeService setting name (fun name => (answers name).reply) d).succeeded
      (ServiceCommands.removeService setting name (fun name => (answers name).reply) d).disk := by
  unfold ServiceCommands.removeService
  cases h : readConfig setting.cwd d with
  | none => exact .stopped answers
  | some config =>
    dsimp only
    by_cases hname : config.hasService name = true
    · rw [if_pos hname]
      exact effect_saved h (.remove name)
    · rw [if_neg hname]
      exact .stopped answers

variable (setting) in
/-- Everything a command can do. -/
theorem perform_effect (m : Machine) (i : Invocation) :
    Effect setting m.disk (answersOf i) (perform setting m i).succeeded
      (perform setting m i).machine.disk := by
  cases i with
  | init login =>
    change Effect setting m.disk none _ _
    obtain ⟨camrc, h | h⟩ := loginRequired_cases login (init setting) m
    · rw [perform, h]
      unfold init
      split
      · exact .unchanged _
      · cases hd : m.disk.writeFileSync setting.cwd CONFIG_FILE_NAME
            (.config CONFIG_FILE_CONTENT) with
        | none => exact .unchanged _
        | some d' => exact .initialised hd
    · rw [perform, h]
      exact .unchanged _
  | login answers => exact .unchanged _
  | logout => exact .unchanged _
  | whoami => exact .unchanged _
  | add text login serviceAnswer answers =>
    obtain ⟨camrc, h | h⟩ :=
      loginRequired_cases login (addService setting text serviceAnswer answers) m
    · rw [answersOf, perform, h, addService]
      cases hservice : parseIdentifier text with
      | none => exact .stopped answers
      | some service => exact effect_store (wellFormed_of_parse hservice) serviceAnswer.reply
    · rw [answersOf, perform, h]
      exact .stopped answers
  | remove name login answers =>
    obtain ⟨camrc, h | h⟩ := loginRequired_cases login (removeService setting name answers) m
    · rw [answersOf, perform, h]
      exact effect_remove name
    · rw [answersOf, perform, h]
      exact .stopped answers
  | update login answers =>
    obtain ⟨camrc, h | h⟩ := loginRequired_cases login (pullAllApisInAllServices setting answers) m
    · rw [answersOf, perform, h]
      exact .pulled answers _
    · rw [answersOf, perform, h]
      exact .stopped answers

def Kept (setting : Setting) (d : Disk Content) : Prop :=
  ∀ config, readConfig setting.cwd d = some config → ∃ services, Tidy config services

variable {p : Path}

theorem place_under (h : Tidy config services) (hp : Place setting config p) :
    outputPath setting <+: p :=
  h.output ▸ under_of_place h.plain hp

theorem file_pulled (answers : Answers) (hk : Kept setting d) (hp : ¬ outputPath setting <+: p) :
    (pulled setting answers d).file p = d.file p := by
  cases h : readConfig setting.cwd d with
  | none =>
    unfold pulled ServiceCommands.pullAllApisInAllServices
    rw [h]
    rfl
  | some config =>
    obtain ⟨services, htidy⟩ := hk config h
    by_cases hempty : config.entries = []
    · exact congrArg (fun d => d.file p) (pull_of_empty h hempty)
    · have hleft := leaves_generate (fun name => (answers name).reply) d
        (fun _ hwritten => hp (place_under htidy hwritten.place))
      rw [if_neg (fun hemptied => hp (htidy.output ▸ hemptied.1))] at hleft
      unfold pulled
      rw [pull_of_nonempty h hempty]
      exact hleft

theorem readConfig_pulled (answers : Answers) (hk : Kept setting d) :
    readConfig setting.cwd (pulled setting answers d) = readConfig setting.cwd d := by
  unfold readConfig
  rw [file_pulled answers hk (config_outside setting)]

theorem readConfig_written (h : d.writeFileSync setting.cwd CONFIG_FILE_NAME (.config config) =
    some d') : readConfig setting.cwd d' = some config := by
  rw [readConfig_eq_some, Disk.file_writeFileSync h, if_pos rfl]

theorem kept_of_tidy (h : readConfig setting.cwd d = some config) (htidy : Tidy config services) :
    Kept setting d := by
  intro config' h'
  rw [h] at h'
  cases h'
  exact ⟨services, htidy⟩

theorem kept_pulled (answers : Answers) (hk : Kept setting d) :
    Kept setting (pulled setting answers d) := by
  intro config h
  rw [readConfig_pulled answers hk] at h
  exact hk config h

/-- A service that was added is listed. -/
theorem readConfig_stored {service : ServiceIdentifier} {serviceReply : Reply Unit}
    (hk : Kept setting d) (h : readConfig setting.cwd d = some config)
    (hwell : WellFormed service)
    (hs : (storeServiceInfo setting service.serviceName service.serviceUuid service.version
      serviceReply (fun name => (answers name).reply) d).succeeded = true) :
    readConfig setting.cwd (storeServiceInfo setting service.serviceName service.serviceUuid
      service.version serviceReply (fun name => (answers name).reply) d).disk =
        some (config.withService service.serviceName (infoOf service)) := by
  obtain ⟨services, htidy⟩ := hk config h
  unfold storeServiceInfo at hs ⊢
  rw [h] at hs ⊢
  dsimp only at hs ⊢
  by_cases hname : config.hasService service.serviceName = true
  · rw [if_pos hname] at hs
    cases hs
  · rw [if_neg hname] at hs ⊢
    split at hs
    · rename_i huuid
      unfold saveAndPull at hs ⊢
      cases hd : d.writeFileSync setting.cwd CONFIG_FILE_NAME
          (.config (config.withService service.serviceName (infoOf service))) with
      | none =>
        unfold infoOf at hd
        rw [hd] at hs
        cases hs
      | some d' =>
        have hread := readConfig_written hd
        have htidy' := tidy_withService htidy hwell (Bool.eq_false_iff.mpr hname) huuid
        unfold infoOf at hd
        rw [hd]
        exact (readConfig_pulled answers (kept_of_tidy hread htidy')).trans hread
    · cases hs

variable {o : Option Answers} {succeeded : Bool}

theorem kept_effect (h : Effect setting d o succeeded d') (hk : Kept setting d) :
    Kept setting d' := by
  cases h with
  | unchanged => exact hk
  | initialised hd => exact kept_of_tidy (readConfig_written hd) tidy_template
  | stopped => exact hk
  | saved answers h hedit hd =>
    obtain ⟨services, htidy⟩ := hk _ h
    obtain ⟨services', htidy'⟩ := hedit.tidy htidy
    exact kept_pulled answers (kept_of_tidy (readConfig_written hd) htidy')
  | pulled answers => exact kept_pulled answers hk

theorem file_effect (h : Effect setting d o succeeded d') (hk : Kept setting d)
    (hp : p ≠ setting.cwd ++ [CONFIG_FILE_NAME]) (hout : ¬ outputPath setting <+: p) :
    d'.file p = d.file p := by
  have written : ∀ {config : Config} {d₁ : Disk Content},
      d.writeFileSync setting.cwd CONFIG_FILE_NAME (.config config) = some d₁ →
        d₁.file p = d.file p := by
    intro config d₁ hd
    rw [Disk.file_writeFileSync hd, if_neg hp]
  cases h with
  | unchanged => rfl
  | initialised hd => exact written hd
  | stopped => rfl
  | saved answers h hedit hd =>
    obtain ⟨services, htidy⟩ := hk _ h
    obtain ⟨services', htidy'⟩ := hedit.tidy htidy
    rw [file_pulled answers (kept_of_tidy (readConfig_written hd) htidy') hout, written hd]
  | pulled answers => exact file_pulled answers hk hout

inductive Event where
  | typed (i : Invocation)
  | edited (d : Disk Content)

def happen (setting : Setting) (m : Machine) : Event → Except Unit Machine
  | .typed i => .ok (perform setting m i).machine
  | .edited d => .ok { m with disk := d }

/-- An edit by hand leaves no configuration file that can be read but the one that was there. -/
def Careful (setting : Setting) (m : Machine) : Event → Prop
  | .typed _ => True
  | .edited d => ∀ config, readConfig setting.cwd d = some config →
      readConfig setting.cwd m.disk = some config

variable {m' : Machine}

theorem kept_run (hm : readConfig setting.cwd m.disk = none)
    (hrun : Runs (happen setting) (Careful setting) m m') : Kept setting m'.disk := by
  have hstart : Kept setting m.disk := by
    intro config h
    rw [hm] at h
    cases h
  refine hrun.preserves (I := fun m => Kept setting m.disk) ?_ hstart
  intro m₁ e m₂ hk hg hstep
  cases e with
  | typed i =>
    cases hstep
    exact kept_effect (perform_effect setting m₁ i) hk
  | edited d =>
    cases hstep
    exact fun config h => hk config (hg config h)

def type (setting : Setting) (m : Machine) (is : List Invocation) : Machine :=
  is.foldl (fun m i => (perform setting m i).machine) m

theorem runs_type {guard : Machine → Event → Prop} {is : List Invocation}
    (h : ∀ m, ∀ i ∈ is, guard m (.typed i)) (m : Machine) :
    Runs (happen setting) guard m (type setting m is) := by
  induction is generalizing m with
  | nil => exact .refl m
  | cons i is ih =>
    have hfirst : Runs (happen setting) guard m (perform setting m i).machine :=
      (Runs.refl m).tail (h m i List.mem_cons_self)
    exact hfirst.trans (ih (fun m i hi => h m i (List.mem_cons_of_mem _ hi)) _)

/-- The configuration file is not edited by hand at all, except that it may be removed. -/
def KeepsConfig (setting : Setting) (m : Machine) : Event → Prop
  | .typed _ => True
  | .edited d => d.entry (setting.cwd ++ [CONFIG_FILE_NAME]) =
      m.disk.entry (setting.cwd ++ [CONFIG_FILE_NAME]) ∨
        d.entry (setting.cwd ++ [CONFIG_FILE_NAME]) = none

def Readable (setting : Setting) (d : Disk Content) : Prop :=
  d.existsSync (setting.cwd ++ [CONFIG_FILE_NAME]) = true →
    ∃ config, readConfig setting.cwd d = some config

theorem exists_of_readConfig (h : readConfig setting.cwd d = some config) :
    d.existsSync (setting.cwd ++ [CONFIG_FILE_NAME]) = true := by
  rw [Disk.existsSync, Disk.file_eq_some.mp (readConfig_eq_some.mp h)]
  rfl

theorem careful_of_keepsConfig {e : Event} (h : KeepsConfig setting m e) : Careful setting m e := by
  cases e with
  | typed i => trivial
  | edited d =>
    intro config hread
    have hfile := Disk.file_eq_some.mp (readConfig_eq_some.mp hread)
    rcases h with hsame | hnone
    · exact readConfig_eq_some.mpr (Disk.file_eq_some.mpr (hsame.symm.trans hfile))
    · rw [hnone] at hfile
      cases hfile

theorem readable_pulled (answers : Answers) (hk : Kept setting d) (hr : Readable setting d) :
    Readable setting (pulled setting answers d) := by
  cases h : readConfig setting.cwd d with
  | none =>
    have hsame : pulled setting answers d = d := by
      unfold pulled ServiceCommands.pullAllApisInAllServices
      rw [h]
      rfl
    rwa [hsame]
  | some config => exact fun _ => ⟨config, (readConfig_pulled answers hk).trans h⟩

theorem readable_effect (h : Effect setting d o succeeded d') (hk : Kept setting d)
    (hr : Readable setting d) : Readable setting d' := by
  cases h with
  | unchanged => exact hr
  | initialised hd => exact fun _ => ⟨_, readConfig_written hd⟩
  | stopped => exact hr
  | saved answers h hedit hd =>
    obtain ⟨services, htidy⟩ := hk _ h
    obtain ⟨services', htidy'⟩ := hedit.tidy htidy
    have hread := readConfig_written hd
    exact readable_pulled answers (kept_of_tidy hread htidy') (fun _ => ⟨_, hread⟩)
  | pulled answers => exact readable_pulled answers hk hr

/-- From a project without a configuration file, whatever commands are typed: a configuration file
that is there can be read, and it names the output directory of the template, and services that
can be named, with different uuids. -/
theorem config_stays_tidy (hm : m.disk.entry (setting.cwd ++ [CONFIG_FILE_NAME]) = none)
    (hrun : Runs (happen setting) (KeepsConfig setting) m m')
    (hthere : m'.disk.existsSync (setting.cwd ++ [CONFIG_FILE_NAME]) = true) :
    ∃ config services, readConfig setting.cwd m'.disk = some config ∧ Tidy config services := by
  have hstart : Kept setting m.disk ∧ Readable setting m.disk := by
    refine ⟨?_, ?_⟩
    · intro config h
      rw [readConfig_eq_some, Disk.file_of_none hm] at h
      cases h
    · intro h
      rw [Disk.existsSync, hm] at h
      cases h
  obtain ⟨hk, hr⟩ : Kept setting m'.disk ∧ Readable setting m'.disk := by
    refine hrun.preserves (I := fun m => Kept setting m.disk ∧ Readable setting m.disk) ?_ hstart
    rintro m₁ e m₂ ⟨hk, hr⟩ hg hstep
    cases e with
    | typed i =>
      cases hstep
      have heffect := perform_effect setting m₁ i
      exact ⟨kept_effect heffect hk, readable_effect heffect hk hr⟩
    | edited d =>
      cases hstep
      refine ⟨fun config h => hk config (careful_of_keepsConfig hg config h), ?_⟩
      intro hd
      rcases hg with hsame | hnone
      · rw [Disk.existsSync, hsame] at hd
        obtain ⟨config, hread⟩ := hr hd
        refine ⟨config, readConfig_eq_some.mpr (Disk.file_eq_some.mpr ?_)⟩
        exact hsame.trans (Disk.file_eq_some.mp (readConfig_eq_some.mp hread))
      · rw [Disk.existsSync, hnone] at hd
        cases hd
  obtain ⟨config, hread⟩ := hr hthere
  obtain ⟨services, htidy⟩ := hk config hread
  exact ⟨config, services, hread, htidy⟩

def developer : UserProfile := ⟨some "dev", some "Dev", none, some "frontend"⟩

def developerLogin : LoginAnswers := ⟨.ok "t1", .ok developer⟩

def sources : Machine := ⟨.ofFiles [(["app", "src", "main.ts"], .text "start();")], ⟨none, none⟩⟩

def adding (serviceIdentifier : String) : Invocation :=
  .add serviceIdentifier developerLogin (.ok ()) (fun _ => .ok [])

def started : Machine := type projectSetting sources [.init developerLogin]

theorem sources_config : readConfig projectSetting.cwd sources.disk = none := rfl

theorem runs_started :
    Runs (happen projectSetting) (Careful projectSetting) sources started :=
  runs_type (fun _ _ _ => trivial) _

def users : ServiceIdentifier := ⟨"users", "4f1d", "1.0.0"⟩

theorem users_parsed : parseIdentifier "users:4f1d@1.0.0" = some users := by decide +kernel

def usersConfig : Config := CONFIG_FILE_CONTENT.withService "users" (infoOf users)

/-- The first service is added to a project that was initialised. -/
theorem users_config (m : Machine) (hk : Kept projectSetting m.disk)
    (hm : readConfig projectSetting.cwd m.disk = some CONFIG_FILE_CONTENT)
    (htoken : m.camrc.getToken.isSome = true)
    (hs : (perform projectSetting m (adding "users:4f1d@1.0.0")).succeeded = true) :
    readConfig projectSetting.cwd
      (perform projectSetting m (adding "users:4f1d@1.0.0")).machine.disk = some usersConfig := by
  rw [adding, perform, loginRequired, if_pos htoken, addService, users_parsed] at hs ⊢
  exact readConfig_stored hk hm (wellFormed_of_parse users_parsed) hs

theorem started_users : readConfig projectSetting.cwd
    (perform projectSetting started (adding "users:4f1d@1.0.0")).machine.disk =
      some usersConfig :=
  users_config started (kept_run sources_config runs_started) rfl (by decide +kernel)
    (by decide +kernel)

theorem started_tidy : ∃ config services, readConfig projectSetting.cwd
    (type projectSetting started [adding "users:4f1d@1.0.0"]).disk = some config ∧
      Tidy config services := by
  have hrun : Runs (happen projectSetting) (KeepsConfig projectSetting) sources
      (type projectSetting started [adding "users:4f1d@1.0.0"]) :=
    (runs_type (fun _ _ _ => trivial) sources).trans (runs_type (fun _ _ _ => trivial) started)
  exact config_stays_tidy rfl hrun (exists_of_readConfig started_users)

/-- No command changes another file than the configuration file and those of the output. -/
theorem other_files_stay (hm : readConfig setting.cwd m.disk = none)
    (hrun : Runs (happen setting) (Careful setting) m m') (i : Invocation)
    (hp : p ≠ setting.cwd ++ [CONFIG_FILE_NAME]) (hout : ¬ outputPath setting <+: p) :
    (perform setting m' i).machine.disk.file p = m'.disk.file p :=
  file_effect (perform_effect setting m' i) (kept_run hm hrun) hp hout

theorem started_main_stays :
    (perform projectSetting started (adding "users:4f1d@1.0.0")).machine.disk.file
      ["app", "src", "main.ts"] = started.disk.file ["app", "src", "main.ts"] :=
  other_files_stay sources_config runs_started (adding "users:4f1d@1.0.0") (by decide) (by decide)

/-- A generation that ended well, or began after the configuration file was saved. -/
theorem pulled_of_effect {answers : Answers} (h : Effect setting d (some answers) true d')
    (hk : Kept setting d) : ∃ d₀, d' = pulled setting answers d₀ ∧ Kept setting d₀ ∧
      ∀ p, p ≠ setting.cwd ++ [CONFIG_FILE_NAME] → d₀.file p = d.file p := by
  cases h with
  | saved answers h hedit hd =>
    obtain ⟨services, htidy⟩ := hk _ h
    obtain ⟨services', htidy'⟩ := hedit.tidy htidy
    refine ⟨_, rfl, kept_of_tidy (readConfig_written hd) htidy', ?_⟩
    intro p hp
    rw [Disk.file_writeFileSync hd, if_neg hp]
  | pulled => exact ⟨d, rfl, hk, fun _ _ => rfl⟩

theorem config_ne_src (setting : Setting) :
    setting.cwd ++ ["src"] ≠ setting.cwd ++ [CONFIG_FILE_NAME] :=
  fun h => absurd (List.append_cancel_left h) (by decide)

theorem listable_of_tidy (h : readConfig setting.cwd d = some config)
    (htidy : Tidy config services) (hsrc : d.file (setting.cwd ++ ["src"]) = none) :
    Listable setting config d := by
  refine ⟨htidy.plain, htidy.valid, htidy.output ▸ config_outside setting, ?_,
    fun _ => htidy.endsInName⟩
  have hcwd : d.entry setting.cwd = some .directory := by
    apply d.parents setting.cwd CONFIG_FILE_NAME
    rw [Disk.file_eq_some.mp (readConfig_eq_some.mp h)]
    exact Option.some_ne_none _
  intro p hp hne
  have hout : outputPath setting = setting.cwd ++ ["src"] ++ ["cam-auto-generate"] := by
    rw [List.append_assoc]
    rfl
  rw [htidy.output, hout] at hp hne
  rcases List.prefix_concat_iff.mp hp with rfl | hp
  · exact absurd rfl hne
  · rcases List.prefix_concat_iff.mp hp with rfl | hp
    · exact hsrc
    · exact Disk.file_of_directory (Disk.directory_of_prefix hp hcwd)

/-- When a command that generates was successful and services are left, they were generated. -/
theorem generated_of_perform (hm : readConfig setting.cwd m.disk = none)
    (hrun : Runs (happen setting) (Careful setting) m m') {i : Invocation} {answers : Answers}
    (hi : answersOf i = some answers) (hs : (perform setting m' i).succeeded = true)
    (hsrc : m'.disk.file (setting.cwd ++ ["src"]) = none)
    (hc : readConfig setting.cwd (perform setting m' i).machine.disk = some config)
    (hne : config.entries ≠ []) : ∃ d₀, (perform setting m' i).machine.disk =
        left (generate setting config (fun name => (answers name).reply) d₀) ∧
      readConfig setting.cwd d₀ = some config ∧ Listable setting config d₀ ∧
      output setting config = outputPath setting := by
  have heffect := perform_effect setting m' i
  rw [hi, hs] at heffect
  obtain ⟨d₀, hd, hk, hfile⟩ := pulled_of_effect heffect (kept_run hm hrun)
  rw [hd, readConfig_pulled answers hk] at hc
  obtain ⟨services, htidy⟩ := hk config hc
  refine ⟨d₀, ?_, hc, listable_of_tidy hc htidy ((hfile _ (config_ne_src setting)).trans hsrc),
    htidy.output⟩
  rw [hd, pulled, pull_of_nonempty hc hne]

/-- When a command that generates was successful and services are left, the directories in the
output are theirs, and every file in it belongs to one of them or is the demo. -/
theorem output_follows_config (hm : readConfig setting.cwd m.disk = none)
    (hrun : Runs (happen setting) (Careful setting) m m') {i : Invocation} {answers : Answers}
    (hi : answersOf i = some answers) (hs : (perform setting m' i).succeeded = true)
    (hsrc : m'.disk.file (setting.cwd ++ ["src"]) = none)
    (hc : readConfig setting.cwd (perform setting m' i).machine.disk = some config)
    (hne : config.entries ≠ []) :
    (∀ name, (perform setting m' i).machine.disk.isDirectory (outputPath setting ++ [name]) = true ↔
      name ∈ config.entries.map Prod.fst) ∧
    ∀ p, outputPath setting <+: p → (perform setting m' i).machine.disk.file p ≠ none →
      Place setting config p := by
  obtain ⟨d₀, hd, hc₀, hlistable, hout⟩ := generated_of_perform hm hrun hi hs hsrc hc hne
  have hexact : Exact setting
      (left (generate setting config (fun name => (answers name).reply) d₀)) :=
    exact_generate hc₀ hlistable
  obtain ⟨config', hread, hdirectories, hplaces⟩ := hexact
  rw [readConfig_generate _ hc₀ hlistable] at hread
  cases hread
  rw [hout] at hdirectories hplaces
  rw [hd]
  exact ⟨hdirectories, hplaces⟩

theorem users_added :
    let d := (perform projectSetting started (adding "users:4f1d@1.0.0")).machine.disk
    (∀ name, d.isDirectory (outputPath projectSetting ++ [name]) = true ↔
      name ∈ usersConfig.entries.map Prod.fst) ∧
    ∀ p, outputPath projectSetting <+: p → d.file p ≠ none →
      Place projectSetting usersConfig p := by
  have hsrc : (started.disk.file (projectSetting.cwd ++ ["src"])).isNone = true := by
    decide +kernel
  exact output_follows_config sources_config runs_started (i := adding "users:4f1d@1.0.0") rfl
    (by decide +kernel) (Option.isNone_iff_eq_none.mp hsrc) started_users (by decide +kernel)

end CommandRuns
