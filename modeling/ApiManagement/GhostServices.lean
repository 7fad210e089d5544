import ApiManagement.OwnOutput

/-! # Services in the output

The output is meant to hold the services of the configuration file and no others. A generation
brings this about, but it exits early without services, and skips those that it cannot read. -/
namespace GhostServices

open FileSystem FailingScripts ScriptObjects ServiceCommands OwnOutput

variable {setting : Setting} {config : Config} {replies : String → ServiceReply}
  {d : Disk Content}

/-- The directories in the output are those of the services that are listed, and nothing is left
of others. -/
def Exact (setting : Setting) (d : Disk Content) : Prop :=
  ∃ config, readConfig setting.cwd d = some config ∧
    (∀ name, d.isDirectory (output setting config ++ [name]) = true ↔
      name ∈ config.entries.map Prod.fst) ∧
    ∀ p, output setting config <+: p → d.file p ≠ none → Place setting config p

/-- The services can be generated below a directory that does not hold the configuration file and
can be removed and made. -/
structure Listable (setting : Setting) (config : Config) (d : Disk Content) : Prop where
  plain : ∀ service ∈ config.entries, PlainName service.1
  valid : ∀ service ∈ config.entries, ValidInfo service.2
  outside : ¬ output setting config <+: setting.cwd ++ [CONFIG_FILE_NAME]
  free : ∀ p, p <+: output setting config → p ≠ output setting config → d.file p = none
  removable : Removable setting config d

structure Generated (out : Path) (names : List String) (d : Disk Content) : Prop where
  there : d.entry out = some .directory
  made : ∀ name ∈ names, d.entry (out ++ [name]) = some .directory
  only : ∀ rest, rest ≠ [] → d.entry (out ++ rest) ≠ none →
    (∃ name ∈ names, rest = [name]) ∨
      ∃ name ∈ names, ∃ file, (file = "namespaces.ts" ∨ file = "index.ts") ∧
        rest = [name, file] ∧ d.entry (out ++ rest) ≠ some .directory

variable {out : Path} {names : List String} {name : String}

theorem entry_of_not_exists {rest : Path} (hout : ¬ d.existsSync out = true) :
    d.entry (out ++ rest) = none := by
  by_contra hentry
  exact hout (Option.isSome_iff_ne_none.mpr
    (Disk.entry_ne_none_of_prefix (List.prefix_append _ _) hentry))

/-- Nothing is left where a directory was removed, or never was. -/
theorem emptyOutput_ok (h : Removable setting config d) :
    ∃ d', emptyOutput setting config d = .ok d' ∧
      (∀ rest, d'.entry (output setting config ++ rest) = none) ∧
      ∀ p, ¬ output setting config <+: p → d'.file p = d.file p := by
  unfold emptyOutput
  by_cases hout : d.existsSync (resolve setting.cwd config.directory) = true
  · rw [if_pos hout, Disk.rmSync, if_pos (h hout)]
    refine ⟨_, rfl, ?_, ?_⟩
    · exact fun rest => if_pos (List.prefix_append _ _)
    · exact fun p hp => Disk.file_removed.trans (if_neg hp)
  · rw [if_neg hout]
    exact ⟨d, rfl, fun rest => entry_of_not_exists hout, fun _ _ => rfl⟩

/-- The directory is empty at first. -/
theorem generated_emptied (h : Removable setting config d)
    (hfree : ∀ p, p <+: output setting config → p ≠ output setting config → d.file p = none) :
    ∃ d₀ d', emptyOutput setting config d = .ok d₀ ∧
      d₀.mkdirSync (output setting config) = some d' ∧
      (∀ rest, d₀.entry (output setting config ++ rest) = none) ∧
      Generated (output setting config) [] d' := by
  obtain ⟨d₀, hd₀, hnone, hother⟩ := emptyOutput_ok h
  have hfiles : ∀ p, p <+: output setting config → d₀.file p = none := by
    intro p hp
    by_cases hpo : p = output setting config
    · subst hpo
      have hself := hnone []
      rw [List.append_nil] at hself
      exact Disk.file_of_none hself
    · rw [hother p (fun hback => hpo (hp.eq_of_length_le hback.length_le))]
      exact hfree p hp hpo
  obtain ⟨d', hd'⟩ := Disk.mkdirSync_ok hfiles
  refine ⟨d₀, d', hd₀, hd', hnone, ?_, ?_, ?_⟩
  · rw [Disk.entry_mkdirSync hd', if_pos List.prefix_rfl]
  · exact fun name hname => nomatch hname
  · intro rest hrest hentry
    rw [Disk.entry_mkdirSync hd', if_neg, hnone] at hentry
    · exact absurd rfl hentry
    · intro hprefix
      have hlength := hprefix.length_le
      rw [List.length_append] at hlength
      have hpos := List.length_pos_iff.mpr hrest
      omega

theorem Generated.weaken (h : Generated out names d) (hname : d.entry (out ++ [name]) =
    some .directory) : Generated out (names ++ [name]) d where
  there := h.there
  made := by
    intro n hn
    rcases List.mem_append.mp hn with hn | hn
    · exact h.made n hn
    · rwa [List.mem_singleton.mp hn]
  only := by
    intro rest hrest hentry
    rcases h.only rest hrest hentry with ⟨n, hn, heq⟩ | ⟨n, hn, file, hfile, heq, hne⟩
    · exact Or.inl ⟨n, List.mem_append_left _ hn, heq⟩
    · exact Or.inr ⟨n, List.mem_append_left _ hn, file, hfile, heq, hne⟩

/-- The directory of one more service. -/
theorem generated_ensured (h : Generated out names d) (name : String) :
    ∃ d', ensureDirectory d (out ++ [name]) = .ok d' ∧ Generated out (names ++ [name]) d' := by
  rw [ensureDirectory]
  by_cases hexists : d.existsSync (out ++ [name]) = true
  · rw [if_pos hexists]
    refine ⟨d, rfl, h.weaken ?_⟩
    have hentry := Option.isSome_iff_ne_none.mp hexists
    rcases h.only [name] (List.cons_ne_nil _ _) hentry with ⟨n, hn, heq⟩ | ⟨_, _, _, _, heq, _⟩
    · rw [List.singleton_inj.mp heq]
      exact h.made n hn
    · cases heq
  · rw [if_neg hexists]
    have hnone : d.entry (out ++ [name]) = none := by
      by_contra hentry
      exact hexists (Option.isSome_iff_ne_none.mpr hentry)
    have hfiles : ∀ q, q <+: out ++ [name] → d.file q = none := by
      intro q hq
      rcases List.prefix_concat_iff.mp hq with rfl | hq
      · exact Disk.file_of_none hnone
      · exact Disk.file_of_directory (Disk.directory_of_prefix hq h.there)
    obtain ⟨d', hd'⟩ := Disk.mkdirSync_ok hfiles
    have hrest : ∀ rest, rest ≠ [] → rest ≠ [name] →
        d'.entry (out ++ rest) = d.entry (out ++ rest) := by
      intro rest hne hname
      rw [Disk.entry_mkdirSync hd', if_neg]
      rw [List.prefix_append_right_inj, ← List.nil_append [name], List.prefix_concat_iff]
      rintro (heq | heq)
      · exact hname heq
      · exact hne (List.prefix_nil.mp heq)
    refine ⟨d', by rw [hd']; rfl, ?_, ?_, ?_⟩
    · rw [Disk.entry_mkdirSync hd', if_pos (List.prefix_append _ _)]
    · intro n hn
      rw [Disk.entry_mkdirSync hd']
      split
      · rfl
      · rename_i hnot
        rcases List.mem_append.mp hn with hn | hn
        · exact h.made n hn
        · rw [List.mem_singleton.mp hn] at hnot
          exact absurd List.prefix_rfl hnot
    · intro rest hne hentry
      by_cases hname : rest = [name]
      · exact Or.inl ⟨name, List.mem_append_right _ List.mem_cons_self, hname⟩
      · rw [hrest rest hne hname] at hentry ⊢
        rcases h.only rest hne hentry with ⟨n, hn, heq⟩ | ⟨n, hn, file, hfile, heq, hdir⟩
        · exact Or.inl ⟨n, List.mem_append_left _ hn, heq⟩
        · exact Or.inr ⟨n, List.mem_append_left _ hn, file, hfile, heq, hdir⟩

/-- A file in the directory of a service. -/
theorem generated_written {file : String} (content : Content) (hname : name ∈ names)
    (hfile : file = "namespaces.ts" ∨ file = "index.ts") (h : Generated out names d) :
    ∃ d', attempt d (d.writeFileSync (out ++ [name]) file content) = .ok d' ∧
      Generated out names d' := by
  have happend : out ++ [name] ++ [file] = out ++ [name, file] := by simp
  have hplace : d.entry (out ++ [name, file]) ≠ some .directory := by
    intro hdirectory
    have hentry : d.entry (out ++ [name, file]) ≠ none := by
      rw [hdirectory]
      exact fun hd => nomatch hd
    rcases h.only [name, file] (List.cons_ne_nil _ _) hentry with ⟨_, _, heq⟩ | ⟨_, _, _, _, _, hne⟩
    · cases heq
    · exact hne hdirectory
  obtain ⟨d', hd'⟩ := Disk.writeFileSync_ok content (h.made name hname) (happend ▸ hplace)
  have hother : ∀ rest, rest ≠ [name, file] → d'.entry (out ++ rest) = d.entry (out ++ rest) := by
    intro rest hne
    rw [Disk.entry_writeFileSync hd', happend, if_neg]
    exact fun heq => hne (List.append_cancel_left heq)
  refine ⟨d', by rw [hd']; rfl, ?_, ?_, ?_⟩
  · have hself := hother [] (fun heq => nomatch heq)
    rw [List.append_nil] at hself
    exact hself.trans h.there
  · intro n hn
    rw [hother [n] (fun heq => by cases heq)]
    exact h.made n hn
  · intro rest hne hentry
    by_cases hrest : rest = [name, file]
    · right
      refine ⟨name, hname, file, hfile, hrest, ?_⟩
      rw [hrest, Disk.entry_writeFileSync hd', happend, if_pos rfl]
      exact fun hd => nomatch hd
    · rw [hother rest hrest] at hentry ⊢
      exact h.only rest hne hentry

theorem generated_service {service : String × PythonRuntime.JsonValue}
    (hplain : PlainName service.1) (hvalid : ValidInfo service.2)
    (h : Generated (output setting config) names d) :
    ∃ d', generateService setting config.directory replies d service = .ok d' ∧
      Generated (output setting config) (names ++ [service.1]) d' := by
  obtain ⟨text, service_uuid, version, rest, hinfo, hsplit, huuid, hversion⟩ := hvalid
  obtain ⟨d₁, hd₁, h₁⟩ := generated_ensured h service.1
  have hmem : service.1 ∈ names ++ [service.1] :=
    List.mem_append_right _ List.mem_cons_self
  unfold generateService
  rw [hinfo]
  dsimp only
  rw [hsplit]
  dsimp only
  rw [if_neg (not_or.mpr ⟨huuid, hversion⟩), join_plain _ _ hplain]
  change ∃ d', (ensureDirectory d (output setting config ++ [service.1]) >>= _) = .ok d' ∧ _
  rw [hd₁]
  cases hreply : fetchService (replies service.1) with
  | none => exact ⟨d₁, rfl, h₁⟩
  | some apis =>
    obtain ⟨d₂, hd₂, h₂⟩ := generated_written (.text (formatCodeByPrettier setting
      (ServiceClass.namespaceCode setting.up apis))) hmem (Or.inl rfl) h₁
    obtain ⟨d₃, hd₃, h₃⟩ := generated_written (.text (formatCodeByPrettier setting
      (ServiceClass.indexCode setting.up service.1 apis))) hmem (Or.inr rfl) h₂
    refine ⟨d₃, ?_, h₃⟩
    change (attempt d₁ (d₁.writeFileSync (output setting config ++ [service.1]) _ _) >>= _) = _
    rw [hd₂]
    exact hd₃

theorem readConfig_eq_some {cwd : Path} : readConfig cwd d = some config ↔
    d.file (cwd ++ [CONFIG_FILE_NAME]) = some (.config config) := by
  unfold readConfig
  split <;> simp_all

theorem under_of_place {p : Path} (hplain : ∀ service ∈ config.entries, PlainName service.1)
    (h : Place setting config p) : output setting config <+: p := by
  cases h with
  | service file hname _ =>
    obtain ⟨service, hservice, rfl⟩ := List.mem_map.mp hname
    rw [join_plain _ _ (hplain service hservice), List.append_assoc]
    exact List.prefix_append _ _
  | demo => exact List.prefix_append _ _

variable (replies) in
/-- The configuration file is read again after a generation. -/
theorem readConfig_generate (h : readConfig setting.cwd d = some config)
    (hlistable : Listable setting config d) :
    readConfig setting.cwd (left (generate setting config replies d)) = some config := by
  have hplace : ¬ Written setting config replies (setting.cwd ++ [CONFIG_FILE_NAME]) :=
    fun hplace => hlistable.outside (under_of_place hlistable.plain hplace.place)
  have hleft := leaves_generate replies d (fun _ => hplace)
  rw [if_neg (fun hemptied => hlistable.outside hemptied.1)] at hleft
  rw [readConfig_eq_some] at h ⊢
  exact Eq.trans hleft h

/-- What lies in the output after all services were generated, and after the demo was written. -/
theorem exact_of_generated {d₁ : Disk Content} (hread : readConfig setting.cwd d₁ = some config)
    (hplain : ∀ service ∈ config.entries, PlainName service.1)
    (hnames : ∀ name, name ∈ names ↔ name ∈ config.entries.map Prod.fst)
    (h : Generated (output setting config) names d)
    (hd₁ : d₁ = d ∨ ∃ content,
      d.writeFileSync (output setting config) "request-demo.ts" content = some d₁) :
    Exact setting d₁ := by
  have hentry : ∀ q, d₁.entry q = d.entry q ∨ q = output setting config ++ ["request-demo.ts"] ∧
      d.entry q ≠ some .directory ∧ d₁.entry q ≠ some .directory := by
    intro q
    rcases hd₁ with rfl | ⟨content, hd₁⟩
    · exact Or.inl rfl
    · by_cases hq : q = output setting config ++ ["request-demo.ts"]
      · subst hq
        refine Or.inr ⟨rfl, Disk.not_directory_of_writeFileSync hd₁, ?_⟩
        rw [Disk.entry_writeFileSync hd₁, if_pos rfl]
        exact fun hd => nomatch hd
      · rw [Disk.entry_writeFileSync hd₁, if_neg hq]
        exact Or.inl rfl
  refine ⟨config, hread, ?_, ?_⟩
  · intro name
    have hsame : d₁.entry (output setting config ++ [name]) = some .directory ↔
        d.entry (output setting config ++ [name]) = some .directory := by
      rcases hentry (output setting config ++ [name]) with heq | ⟨_, hd, hd₁⟩
      · rw [heq]
      · exact iff_of_false hd₁ hd
    rw [Disk.isDirectory_iff, hsame, ← hnames]
    constructor
    · intro hdirectory
      rcases h.only [name] (List.cons_ne_nil _ _) (by simp [hdirectory]) with
        ⟨n, hn, heq⟩ | ⟨_, _, _, _, heq, _⟩
      · rwa [List.singleton_inj.mp heq]
      · cases heq
    · exact h.made name
  · rintro _ ⟨rest, rfl⟩ hfile
    rcases hentry (output setting config ++ rest) with heq | ⟨heq, _, _⟩
    · have hne : d.entry (output setting config ++ rest) ≠ none :=
        fun hnone => hfile (Disk.file_of_none (heq.trans hnone))
      have hdirectory : d.entry (output setting config ++ rest) ≠ some .directory :=
        fun hd => hfile (Disk.file_of_directory (heq.trans hd))
      have hrest : rest ≠ [] := by
        rintro rfl
        rw [List.append_nil] at hdirectory
        exact hdirectory h.there
      rcases h.only rest hrest hne with ⟨n, hn, rfl⟩ | ⟨n, hn, file, hname, rfl, _⟩
      · exact absurd (h.made n hn) hdirectory
      · obtain ⟨service, hservice, rfl⟩ := List.mem_map.mp ((hnames n).mp hn)
        have hplace : Place setting config
            (join setting.cwd config.directory service.1 ++ [file]) :=
          .service file (List.mem_map_of_mem hservice) hname
        rw [join_plain _ _ (hplain service hservice), List.append_assoc] at hplace
        exact hplace
    · rw [heq]
      exact .demo

theorem left_writeRequestDemo (d : Disk Content) :
    left (writeRequestDemo setting config d) = d ∨ ∃ content,
      d.writeFileSync (output setting config) "request-demo.ts" content =
        some (left (writeRequestDemo setting config d)) := by
  rw [writeRequestDemo]
  cases (objectOrder config.entries).head? with
  | none => exact Or.inl rfl
  | some service =>
    dsimp only
    split
    · exact Or.inl rfl
    · cases hd : d.writeFileSync (resolve setting.cwd config.directory) "request-demo.ts"
          (.text (formatCodeByPrettier setting (requestDemoCode setting.up service.1))) with
      | none => exact Or.inl rfl
      | some d' => exact Or.inr ⟨_, hd⟩

theorem exact_generate (h : readConfig setting.cwd d = some config)
    (hlistable : Listable setting config d) :
    Exact setting (left (generate setting config replies d)) := by
  have hread := readConfig_generate replies h hlistable
  obtain ⟨d₀, d₁, hd₀, hd₁, _, h₁⟩ := generated_emptied hlistable.removable hlistable.free
  obtain ⟨d₂, hd₂, h₂⟩ : ∃ d₂, (objectOrder config.entries).foldlM
      (generateService setting config.directory replies) d₁ = .ok d₂ ∧
        Generated (output setting config) (([] ++ objectOrder config.entries).map Prod.fst) d₂ := by
    refine foldlM_ok (I := fun done d => Generated (output setting config) (done.map Prod.fst) d)
      h₁ ?_
    intro done d hd service hservice
    rw [List.map_append]
    exact generated_service (hlistable.plain service (mem_objectOrder.mp hservice))
      (hlistable.valid service (mem_objectOrder.mp hservice)) hd
  have hnames : ∀ name, name ∈ ([] ++ objectOrder config.entries).map Prod.fst ↔
      name ∈ config.entries.map Prod.fst := by
    intro name
    simp only [List.nil_append, List.mem_map, mem_objectOrder]
  have hgenerate : generate setting config replies d = writeRequestDemo setting config d₂ := by
    unfold output at hd₁
    unfold generate
    rw [hd₀]
    change (attempt d₀ (d₀.mkdirSync (resolve setting.cwd config.directory)) >>= _) = _
    rw [hd₁]
    exact congrArg (fun script => script >>= writeRequestDemo setting config) hd₂
  rw [hgenerate] at hread ⊢
  exact exact_of_generated hread hlistable.plain hnames h₂ (left_writeRequestDemo d₂)

def handedOver (config : Config) : Command → Option Config
  | .store name service_uuid version (.ok _) _ =>
    if config.hasService name = false ∧
        hasUuid service_uuid (objectOrder config.entries) = some false then
      some (config.withService name (service_uuid ++ "@" ++ version))
    else none
  | .store _ _ _ _ _ => none
  | .remove serviceName _ =>
    if config.hasService serviceName then some (config.withoutService serviceName) else none
  | .pull _ => if config.entries = [] then none else some config

structure Vacant (setting : Setting) (config : Config) (d : Disk Content) : Prop where
  directories : ∀ name, d.isDirectory (output setting config ++ [name]) = false
  files : ∀ p, output setting config <+: p → d.file p ≠ none → Place setting config p

/-- The services that are left can be generated, or there are none in the output either. -/
def Regenerable (setting : Setting) (d : Disk Content) (command : Command) : Prop :=
  ∀ config config', readConfig setting.cwd d = some config →
    handedOver config command = some config' →
      (config'.entries ≠ [] ∧ Listable setting config' d) ∨
        (config'.entries = [] ∧ Vacant setting config' d)

def RegenerableRun (setting : Setting) : Disk Content → List Command → Prop
  | _, [] => True
  | d, command :: commands => Regenerable setting d command ∧
      RegenerableRun setting (perform setting d command).disk commands

def ExactRun (setting : Setting) : Disk Content → List Command → Prop
  | _, [] => True
  | d, command :: commands =>
    ((perform setting d command).succeeded = true →
      Exact setting (perform setting d command).disk) ∧
      ExactRun setting (perform setting d command).disk commands

variable {config' : Config} {command : Command}

theorem exact_of_listable {d' : Disk Content} (hread : readConfig setting.cwd d = some config)
    (hd' : d.writeFileSync setting.cwd CONFIG_FILE_NAME (.config config') = some d')
    (hne : config'.entries ≠ []) (h : Listable setting config' d) :
    Exact setting (left (pullAllApisInAllServices setting replies d')) := by
  have hread' : readConfig setting.cwd d' = some config' := by
    rw [readConfig_eq_some, Disk.file_writeFileSync hd', if_pos rfl]
  have hlistable : Listable setting config' d' := by
    refine ⟨h.plain, h.valid, h.outside, ?_, ?_⟩
    · intro p hp hne
      have hfree := h.free p hp hne
      rw [Disk.file_writeFileSync hd', if_neg, hfree]
      rintro rfl
      rw [readConfig_eq_some.mp hread] at hfree
      cases hfree
    · intro hout
      apply h.removable
      rw [Disk.existsSync, Disk.entry_writeFileSync hd', if_neg] at hout
      · exact hout
      · intro heq
        exact h.outside (heq ▸ List.prefix_rfl)
  rw [pull_of_nonempty hread' hne]
  exact exact_generate hread' hlistable

theorem exact_of_vacant {d' : Disk Content} (hread : readConfig setting.cwd d = some config)
    (hd' : d.writeFileSync setting.cwd CONFIG_FILE_NAME (.config config') = some d')
    (hempty : config'.entries = []) (h : Vacant setting config' d) :
    Exact setting (left (pullAllApisInAllServices setting replies d')) := by
  have hread' : readConfig setting.cwd d' = some config' := by
    rw [readConfig_eq_some, Disk.file_writeFileSync hd', if_pos rfl]
  rw [pull_of_empty hread' hempty]
  refine ⟨config', hread', ?_, ?_⟩
  · intro name
    rw [hempty, List.map_nil]
    refine iff_of_false ?_ List.not_mem_nil
    have hnone := h.directories name
    rw [Disk.isDirectory_iff, Disk.entry_writeFileSync hd']
    split
    · exact fun hd => nomatch hd
    · rw [← Disk.isDirectory_iff, hnone]
      decide
  · intro p hp hfile
    apply h.files p hp
    by_cases hconfig : p = setting.cwd ++ [CONFIG_FILE_NAME]
    · rw [hconfig, readConfig_eq_some.mp hread]
      exact fun hd => nomatch hd
    · rwa [Disk.file_writeFileSync hd', if_neg hconfig] at hfile

theorem exact_saveAndPull (hread : readConfig setting.cwd d = some config)
    (h : (config'.entries ≠ [] ∧ Listable setting config' d) ∨
      (config'.entries = [] ∧ Vacant setting config' d))
    (hsucceeded : (saveAndPull setting config' replies d).succeeded = true) :
    Exact setting (saveAndPull setting config' replies d).disk := by
  unfold saveAndPull at hsucceeded ⊢
  cases hd' : d.writeFileSync setting.cwd CONFIG_FILE_NAME (.config config') with
  | none =>
    rw [hd'] at hsucceeded
    cases hsucceeded
  | some d' =>
    rcases h with ⟨hne, hlistable⟩ | ⟨hempty, hvacant⟩
    · exact exact_of_listable hread hd' hne hlistable
    · exact exact_of_vacant hread hd' hempty hvacant

/-- A command that was successful leaves an exact output. -/
theorem exact_perform (h : Regenerable setting d command)
    (hsucceeded : (perform setting d command).succeeded = true) :
    Exact setting (perform setting d command).disk := by
  cases hread : readConfig setting.cwd d with
  | none =>
    cases command <;>
      simp [perform, storeServiceInfo, removeService, pullAllApisInAllServices, hread, succeeded]
        at hsucceeded
  | some config =>
    cases command with
    | store name service_uuid version serviceReply replies =>
      unfold perform storeServiceInfo at hsucceeded ⊢
      rw [hread] at hsucceeded ⊢
      dsimp only at hsucceeded ⊢
      by_cases hname : config.hasService name = true
      · rw [if_pos hname] at hsucceeded
        cases hsucceeded
      · rw [if_neg hname] at hsucceeded ⊢
        split at hsucceeded
        · rename_i huuid
          exact exact_saveAndPull hread
            (h config _ hread (if_pos ⟨Bool.eq_false_iff.mpr hname, huuid⟩)) hsucceeded
        · cases hsucceeded
    | remove serviceName replies =>
      unfold perform removeService at hsucceeded ⊢
      rw [hread] at hsucceeded ⊢
      dsimp only at hsucceeded ⊢
      by_cases hname : config.hasService serviceName = true
      · rw [if_pos hname] at hsucceeded ⊢
        exact exact_saveAndPull hread (h config _ hread (if_pos hname)) hsucceeded
      · rw [if_neg hname] at hsucceeded
        cases hsucceeded
    | pull replies =>
      have hne : config.entries ≠ [] := by
        intro hempty
        unfold perform pullAllApisInAllServices at hsucceeded
        rw [hread] at hsucceeded
        dsimp only at hsucceeded
        rw [hempty] at hsucceeded
        cases hsucceeded
      have hlistable := ((h config config hread (if_neg hne)).resolve_right
        (fun hvacant => hne hvacant.1)).2
      unfold perform
      dsimp only
      rw [pull_of_nonempty hread hne]
      exact exact_generate hread hlistable

def generatedProject (services : Services) : Disk Content :=
  .ofFiles ((["app", "cam.config.json"], .config ⟨some services, some "src/api"⟩) ::
    services.entries.map (fun service =>
      (["app", "src", "api", service.1, "index.ts"], .text "export default class { }")))

def bothServices : Services :=
  ⟨[("users", .str "4f1d@1.0.0"), ("orders", .str "90ab@latest")], by decide⟩

def lastRemoved : Outcome :=
  perform projectSetting (generatedProject ⟨[("users", .str "4f1d@1.0.0")], users_nodup⟩)
    (.remove "users" (fun _ => .ok []))

end GhostServices
