import ApiManagement.CommandRuns

/-! # Output that depends on the configuration only

A generation empties its directory, so that what it writes there depends on the services that are
configured and on the answers of the backend, and on nothing that was there before. -/
namespace ReproducibleOutput

open FileSystem FailingScripts ScriptObjects OwnOutput GhostServices CommandLine
  IdentifierRoundTrip TransactionRuns CommandRuns
open ServiceCommands hiding perform removeService pullAllApisInAllServices

variable {setting : Setting} {config : Config} {replies : String → ServiceReply}
  {d₁ d₂ : Disk Content} {out : Path}

structure Matching (out : Path) (d₁ d₂ : Disk Content) : Prop where
  there : d₁.entry out = some .directory
  same : ∀ rest, d₁.entry (out ++ rest) = d₂.entry (out ++ rest)

theorem Matching.there' (h : Matching out d₁ d₂) : d₂.entry out = some .directory := by
  have hsame := h.same []
  rw [List.append_nil] at hsame
  exact hsame ▸ h.there

theorem Matching.isDirectory (h : Matching out d₁ d₂) (rest : Path) :
    d₁.isDirectory (out ++ rest) = d₂.isDirectory (out ++ rest) := by
  unfold Disk.isDirectory
  rw [h.same]

theorem alike_written (h : Matching out d₁ d₂) (dir : Path) (name : String) (content : Content) :
    Alike (Matching out) (attempt d₁ (d₁.writeFileSync (out ++ dir) name content))
      (attempt d₂ (d₂.writeFileSync (out ++ dir) name content)) := by
  apply alike_attempt h
  have happend : out ++ dir ++ [name] = out ++ (dir ++ [name]) := List.append_assoc _ _ _
  by_cases hdir : d₁.isDirectory (out ++ dir) = true ∧
      d₁.isDirectory (out ++ dir ++ [name]) = false
  · have hdir' := hdir
    rw [happend, h.isDirectory, h.isDirectory, ← happend] at hdir'
    have hplace : d₁.entry (out ++ dir ++ [name]) ≠ some .directory := by
      intro hd
      rw [Disk.isDirectory_iff.mpr hd] at hdir
      cases hdir.2
    have hplace' : d₂.entry (out ++ dir ++ [name]) ≠ some .directory := by
      rw [happend, ← h.same, ← happend]
      exact hplace
    obtain ⟨d₁', hd₁⟩ :=
      Disk.writeFileSync_ok content (Disk.isDirectory_iff.mp hdir.1) hplace
    obtain ⟨d₂', hd₂⟩ :=
      Disk.writeFileSync_ok content (Disk.isDirectory_iff.mp hdir'.1) hplace'
    rw [hd₁, hd₂]
    refine .some ⟨?_, ?_⟩
    · rw [Disk.entry_writeFileSync hd₁, if_neg, h.there]
      rw [happend]
      intro heq
      have hlength := congrArg List.length heq
      simp only [List.length_append, List.length_singleton] at hlength
      omega
    · intro rest
      rw [Disk.entry_writeFileSync hd₁, Disk.entry_writeFileSync hd₂, h.same]
  · have hdir' := hdir
    rw [happend, h.isDirectory, h.isDirectory, ← happend] at hdir'
    unfold Disk.writeFileSync
    rw [dif_neg hdir, dif_neg hdir']
    exact .none

theorem made_of_none {d : Disk Content} {name : String} (hthere : d.entry out = some .directory)
    (hnone : d.entry (out ++ [name]) = none) : ∃ d', d.mkdirSync (out ++ [name]) = some d' := by
  apply Disk.mkdirSync_ok
  intro q hq
  rcases List.prefix_concat_iff.mp hq with rfl | hq
  · exact Disk.file_of_none hnone
  · exact Disk.file_of_directory (Disk.directory_of_prefix hq hthere)

theorem alike_ensured (h : Matching out d₁ d₂) (name : String) :
    Alike (Matching out) (ensureDirectory d₁ (out ++ [name]))
      (ensureDirectory d₂ (out ++ [name])) := by
  have hexists : d₁.existsSync (out ++ [name]) = d₂.existsSync (out ++ [name]) := by
    rw [Disk.existsSync, Disk.existsSync, h.same]
  unfold ensureDirectory
  rw [← hexists]
  by_cases hthere : d₁.existsSync (out ++ [name]) = true
  · rw [if_pos hthere, if_pos hthere]
    exact .ok h
  · rw [if_neg hthere, if_neg hthere]
    have hnone : d₁.entry (out ++ [name]) = none := by
      rwa [Disk.existsSync, Option.isSome_iff_ne_none, not_not] at hthere
    obtain ⟨d₁', hd₁⟩ := made_of_none h.there hnone
    obtain ⟨d₂', hd₂⟩ := made_of_none h.there' (h.same [name] ▸ hnone)
    rw [hd₁, hd₂]
    refine .ok ⟨?_, ?_⟩
    · rw [Disk.entry_mkdirSync hd₁, if_pos (List.prefix_append _ _)]
    · intro rest
      rw [Disk.entry_mkdirSync hd₁, Disk.entry_mkdirSync hd₂, h.same]

theorem alike_service {service : String × PythonRuntime.JsonValue} (hplain : PlainName service.1)
    (h : Matching (output setting config) d₁ d₂) : Alike (Matching (output setting config))
      (generateService setting config.directory replies d₁ service)
      (generateService setting config.directory replies d₂ service) := by
  unfold generateService
  split
  · split
    · split
      · exact .ok h
      · dsimp only
        rw [join_plain _ _ hplain]
        apply alike_bind (alike_ensured h service.1)
        intro d₁ d₂ h
        split
        · exact .ok h
        · apply alike_bind (alike_written h [service.1] _ _)
          intro d₁ d₂ h
          exact alike_written h [service.1] _ _
    · exact .ok h
  · exact .error h

theorem alike_demo (h : Matching (output setting config) d₁ d₂) :
    Alike (Matching (output setting config)) (writeRequestDemo setting config d₁)
      (writeRequestDemo setting config d₂) := by
  have hwritten := alike_written h [] "request-demo.ts"
  rw [List.append_nil] at hwritten
  unfold writeRequestDemo
  cases (objectOrder config.entries).head? with
  | none => exact .error h
  | some e =>
    dsimp only
    by_cases hname : e.1 = ""
    · rw [if_pos hname, if_pos hname]
      exact .error h
    · rw [if_neg hname, if_neg hname]
      exact hwritten _

/-- The same is generated on two disks. -/
theorem alike_generate (hplain : ∀ service ∈ config.entries, PlainName service.1)
    (hname : endsInName config.directory = true)
    (h₁ : ∀ p, p <+: output setting config → p ≠ output setting config → d₁.file p = none)
    (h₂ : ∀ p, p <+: output setting config → p ≠ output setting config → d₂.file p = none) :
    Alike (Matching (output setting config)) (generate setting config replies d₁)
      (generate setting config replies d₂) := by
  obtain ⟨e₁, d₁', he₁, hd₁, hnone₁, hout₁⟩ := generated_emptied (fun _ => hname) h₁
  obtain ⟨e₂, d₂', he₂, hd₂, hnone₂, _⟩ := generated_emptied (fun _ => hname) h₂
  have hstart : Matching (output setting config) d₁' d₂' := by
    refine ⟨hout₁.there, ?_⟩
    intro rest
    rw [Disk.entry_mkdirSync hd₁, Disk.entry_mkdirSync hd₂, hnone₁, hnone₂]
  unfold output at hd₁ hd₂
  unfold generate
  rw [he₁, he₂]
  change Alike _ (attempt e₁ (e₁.mkdirSync (resolve setting.cwd config.directory)) >>= _)
    (attempt e₂ (e₂.mkdirSync (resolve setting.cwd config.directory)) >>= _)
  rw [hd₁, hd₂]
  refine alike_bind (.ok hstart) (fun d₁ d₂ h => ?_)
  refine alike_bind (alike_foldlM h ?_) (fun d₁ d₂ h => alike_demo h)
  intro d₁ d₂ h service hservice
  exact alike_service (hplain service (mem_objectOrder.mp hservice)) h

variable {d : Disk Content} {answers : Answers}

variable (answers) in
theorem matching_pulled (hk₁ : Kept setting d₁) (h₁ : readConfig setting.cwd d₁ = some config)
    (h₂ : readConfig setting.cwd d₂ = some config) (hne : config.entries ≠ [])
    (hfree₁ : ∀ p, p <+: outputPath setting → p ≠ outputPath setting → d₁.file p = none)
    (hfree₂ : ∀ p, p <+: outputPath setting → p ≠ outputPath setting → d₂.file p = none) :
    Matching (outputPath setting) (pulled setting answers d₁) (pulled setting answers d₂) := by
  obtain ⟨services, htidy⟩ := hk₁ config h₁
  unfold pulled
  rw [pull_of_nonempty h₁ hne, pull_of_nonempty h₂ hne, ← htidy.output]
  rw [← htidy.output] at hfree₁ hfree₂
  exact (alike_generate htidy.plain htidy.endsInName hfree₁ hfree₂).left

/-- A disk that a successful command left, at the end of a run from a project without a
configuration file: the command generated with these answers, and these services are listed. -/
inductive LastGenerated (setting : Setting) (answers : Answers) (config : Config) :
    Disk Content → Prop where
  | intro {m m' : Machine} {i : Invocation} : readConfig setting.cwd m.disk = none →
      Runs (happen setting) (Careful setting) m m' → answersOf i = some answers →
      (perform setting m' i).succeeded = true → m'.disk.file (setting.cwd ++ ["src"]) = none →
      readConfig setting.cwd (perform setting m' i).machine.disk = some config →
      LastGenerated setting answers config (perform setting m' i).machine.disk

theorem pulled_of_lastGenerated (h : LastGenerated setting answers config d) :
    ∃ d₀, d = pulled setting answers d₀ ∧ Kept setting d₀ ∧
      readConfig setting.cwd d₀ = some config ∧
      ∀ p, p <+: outputPath setting → p ≠ outputPath setting → d₀.file p = none := by
  obtain ⟨hm, hrun, hi, hs, hsrc, hc⟩ := h
  rename_i m m' i
  have heffect := perform_effect setting m' i
  rw [hi, hs] at heffect
  obtain ⟨d₀, hd, hk, hfile⟩ := pulled_of_effect heffect (kept_run hm hrun)
  rw [hd, readConfig_pulled answers hk] at hc
  obtain ⟨services, htidy⟩ := hk config hc
  have hlistable := listable_of_tidy hc htidy ((hfile _ (config_ne_src setting)).trans hsrc)
  exact ⟨d₀, hd, hk, hc, htidy.output ▸ hlistable.free⟩

/-- Whatever was typed and edited before, two projects in which the same services are listed hold
the same files in their outputs, if they were generated from the same answers. -/
theorem output_reproducible (h₁ : LastGenerated setting answers config d₁)
    (h₂ : LastGenerated setting answers config d₂) (hne : config.entries ≠ []) {p : Path}
    (hp : outputPath setting <+: p) : d₁.file p = d₂.file p := by
  obtain ⟨e₁, rfl, hk₁, hc₁, hfree₁⟩ := pulled_of_lastGenerated h₁
  obtain ⟨e₂, rfl, _, hc₂, hfree₂⟩ := pulled_of_lastGenerated h₂
  obtain ⟨rest, rfl⟩ := hp
  have hsame := (matching_pulled answers hk₁ hc₁ hc₂ hne hfree₁ hfree₂).same rest
  rw [Disk.file, Disk.file, hsame]

def cluttered : Machine :=
  { sources with disk := .ofFiles [(["app", "src", "main.ts"], .text "start();"),
      (["app", "src", "cam-auto-generate", "users", "old.ts"], .text "export {};")] }

def startedCluttered : Machine := type projectSetting cluttered [.init developerLogin]

theorem clutter_removed :
    (perform projectSetting startedCluttered (adding "users:4f1d@1.0.0")).machine.disk.file
        ["app", "src", "cam-auto-generate", "users", "old.ts"] =
      (perform projectSetting started (adding "users:4f1d@1.0.0")).machine.disk.file
        ["app", "src", "cam-auto-generate", "users", "old.ts"] := by
  have hrun : Runs (happen projectSetting) (Careful projectSetting) cluttered startedCluttered :=
    runs_type (fun _ _ _ => trivial) _
  have hconfig : readConfig projectSetting.cwd
      (perform projectSetting startedCluttered (adding "users:4f1d@1.0.0")).machine.disk =
        some usersConfig :=
    users_config startedCluttered (kept_run rfl hrun) rfl (by decide +kernel) (by decide +kernel)
  have hsrc : ∀ m ∈ [started, startedCluttered],
      (m.disk.file (projectSetting.cwd ++ ["src"])).isNone = true := by decide +kernel
  refine output_reproducible
    (.intro (i := adding "users:4f1d@1.0.0") rfl hrun rfl (by decide +kernel) ?_ hconfig)
    (.intro (i := adding "users:4f1d@1.0.0") sources_config runs_started rfl
      (by decide +kernel) ?_ started_users) (by decide +kernel) (by decide)
  · exact Option.isNone_iff_eq_none.mp (hsrc startedCluttered (by simp))
  · exact Option.isNone_iff_eq_none.mp (hsrc started (by simp))

/-- A file in the way of the output directory ends a generation before it begins. -/
theorem generate_blocked {q : Path} (hq : q <+: output setting config)
    (hne : q ≠ output setting config) (hfile : d.file q ≠ none) :
    generate setting config replies d = .error d := by
  have hout : d.existsSync (output setting config) = false := by
    by_contra hexists
    obtain ⟨rest, hrest⟩ := hq
    have hentry : d.entry (output setting config) ≠ none :=
      Option.isSome_iff_ne_none.mp ((Bool.not_eq_false _).mp hexists)
    rcases List.eq_nil_or_concat rest with rfl | ⟨init, last, rfl⟩
    · rw [List.append_nil] at hrest
      exact hne hrest
    · rw [← hrest, List.concat_eq_append, ← List.append_assoc] at hentry
      have hparent := d.parents _ _ hentry
      exact hfile (Disk.file_of_directory
        (Disk.directory_of_prefix (List.prefix_append q init) hparent))
  have hmkdir : d.mkdirSync (output setting config) = none := by
    cases hd : d.mkdirSync (output setting config) with
    | none => rfl
    | some d' => exact absurd (Disk.file_of_mkdirSync hd hq) hfile
  unfold output at hout hmkdir
  have hkept : emptyOutput setting config d = .ok d := by
    rw [emptyOutput, hout, if_neg Bool.false_ne_true]
  unfold generate
  rw [hkept]
  change (attempt d (d.mkdirSync (resolve setting.cwd config.directory)) >>= _) = _
  rw [hmkdir]
  rfl

theorem pulled_twice (hk : Kept setting d) (p : Path) :
    (pulled setting answers (pulled setting answers d)).file p =
      (pulled setting answers d).file p := by
  by_cases hp : outputPath setting <+: p
  · cases h : readConfig setting.cwd d with
    | none =>
      have hsame : pulled setting answers d = d := by
        unfold pulled ServiceCommands.pullAllApisInAllServices
        rw [h]
        rfl
      rw [hsame, hsame]
    | some config =>
      by_cases hne : config.entries = []
      · have hsame : pulled setting answers d = d := pull_of_empty h hne
        rw [hsame, hsame]
      · by_cases hfree : ∀ q, q <+: outputPath setting → q ≠ outputPath setting → d.file q = none
        · have hread : readConfig setting.cwd (pulled setting answers d) = some config :=
            (readConfig_pulled answers hk).trans h
          have hfree' : ∀ q, q <+: outputPath setting → q ≠ outputPath setting →
              (pulled setting answers d).file q = none := by
            intro q hq hqne
            rw [file_pulled answers hk, hfree q hq hqne]
            exact fun hback => hqne (hq.eq_of_length_le hback.length_le)
          obtain ⟨rest, rfl⟩ := hp
          have hsame :=
            (matching_pulled answers hk h hread hne hfree hfree').same rest
          rw [Disk.file, Disk.file, hsame]
        · obtain ⟨services, htidy⟩ := hk config h
          push Not at hfree
          obtain ⟨q, hq, hqne, hfile⟩ := hfree
          rw [← htidy.output] at hq hqne
          have hsame : pulled setting answers d = d := by
            unfold pulled
            rw [pull_of_nonempty h hne, generate_blocked hq hqne hfile]
            rfl
          rw [hsame, hsame]
  · exact file_pulled answers (kept_pulled answers hk) hp

variable {m m' : Machine}

/-- An update after a successful command changes no file, as long as the backend answers the
same. -/
theorem update_again_changes_nothing (hm : readConfig setting.cwd m.disk = none)
    (hrun : Runs (happen setting) (Careful setting) m m') {i : Invocation}
    (hi : answersOf i = some answers) (hs : (perform setting m' i).succeeded = true)
    (login : LoginAnswers) (p : Path) :
    (perform setting (perform setting m' i).machine (.update login answers)).machine.disk.file p =
      (perform setting m' i).machine.disk.file p := by
  have heffect := perform_effect setting m' i
  rw [hi, hs] at heffect
  obtain ⟨d₀, hd, hk, _⟩ := pulled_of_effect heffect (kept_run hm hrun)
  obtain ⟨camrc, h | h⟩ := loginRequired_cases login (pullAllApisInAllServices setting answers)
    (perform setting m' i).machine
  · rw [perform, h]
    change (pulled setting answers (perform setting m' i).machine.disk).file p = _
    rw [hd]
    exact pulled_twice hk p
  · rw [perform, h]

theorem users_updated :
    let added := (perform projectSetting started (adding "users:4f1d@1.0.0")).machine
    (perform projectSetting added (.update developerLogin (fun _ => .ok []))).machine.disk.file
        ["app", "src", "cam-auto-generate", "users", "index.ts"] =
      added.disk.file ["app", "src", "cam-auto-generate", "users", "index.ts"] :=
  update_again_changes_nothing sources_config runs_started (i := adding "users:4f1d@1.0.0") rfl
    (by decide +kernel) developerLogin _

end ReproducibleOutput
