import ApiManagement.ServiceCommands

/-! # The output of a generation

A generation empties its directory before it writes to it. Files that no generation wrote stay as
they are just when they lie elsewhere, and without a directory of its own it takes the working
directory. -/
namespace OwnOutput

open FileSystem FailingScripts ScriptObjects ServiceCommands

variable {setting : Setting} {config : Config} {replies : String → ServiceReply}
  {d : Disk Content} {p : Path}

def output (setting : Setting) (config : Config) : Path := resolve setting.cwd config.directory

inductive Place (setting : Setting) (config : Config) : Path → Prop where
  | service {name : String} (file : String) : name ∈ config.entries.map Prod.fst →
      file = "namespaces.ts" ∨ file = "index.ts" →
      Place setting config (join setting.cwd config.directory name ++ [file])
  | demo : Place setting config (output setting config ++ ["request-demo.ts"])

def ValidInfo (info : PythonRuntime.JsonValue) : Prop :=
  ∃ text service_uuid version rest, info = .str text ∧
    splitInfo text = service_uuid :: version :: rest ∧ service_uuid ≠ "" ∧ version ≠ ""

/-- The files that it writes if no error ends it: those of the services that the backend answers
for, and the demo. -/
inductive Written (setting : Setting) (config : Config) (replies : String → ServiceReply) :
    Path → Prop where
  | service {service : String × PythonRuntime.JsonValue} {apis : List CodeGenerator.FetchedApi}
      (file : String) : service ∈ config.entries → ValidInfo service.2 →
      fetchService (replies service.1) = some apis → file = "namespaces.ts" ∨ file = "index.ts" →
      Written setting config replies (join setting.cwd config.directory service.1 ++ [file])
  | demo : Written setting config replies (output setting config ++ ["request-demo.ts"])

theorem Written.place (h : Written setting config replies p) : Place setting config p := by
  cases h with
  | service file hservice _ _ hfile => exact .service file (List.mem_map_of_mem hservice) hfile
  | demo => exact .demo

def Emptied (setting : Setting) (config : Config) (p : Path) : Prop :=
  output setting config <+: p ∧ (endsInName config.directory = true ∨
    Disk.emptiesAnyway setting.emptiesFirst config.directory = true ∧ output setting config ≠ p)

instance (setting : Setting) (config : Config) (p : Path) :
    Decidable (Emptied setting config p) :=
  inferInstanceAs (Decidable (_ ∧ (_ ∨ _ ∧ _)))

def Removable (setting : Setting) (config : Config) (d : Disk Content) : Prop :=
  d.existsSync (output setting config) = true → endsInName config.directory = true

/-- A file that is not one of those that were generated before. -/
def Foreign (own : Set Path) (d : Disk Content) (p : Path) : Prop := p ∉ own ∧ d.file p ≠ none

def Unchanged (own : Set Path) (d d' : Disk Content) : Prop :=
  ∀ p, p ∉ own → ∀ content, d.file p = some content → d'.file p = some content

theorem file_of_not_exists {out : Path} (hout : ¬ d.existsSync out = true) (hp : out <+: p) :
    d.file p = none := by
  by_contra hfile
  have hentry : d.entry p ≠ none := fun hnone => hfile (Disk.file_of_none hnone)
  exact hout (Option.isSome_iff_ne_none.mpr (Disk.entry_ne_none_of_prefix hp hentry))

theorem leaves_emptyOutput :
    Leaves (fun d' => d'.file p = if Emptied setting config p then none else d.file p)
      (emptyOutput setting config d) := by
  unfold emptyOutput
  by_cases hout : d.existsSync (resolve setting.cwd config.directory) = true
  · rw [if_pos hout, Disk.rmSync]
    by_cases hname : endsInName config.directory = true
    · have hiff : Emptied setting config p ↔ output setting config <+: p :=
        and_iff_left (Or.inl hname)
      rw [if_pos hname]
      simp only [hiff]
      exact Disk.file_removed
    · have hiff : Emptied setting config p ↔ output setting config <+: p ∧
          Disk.emptiesAnyway setting.emptiesFirst config.directory = true ∧
            output setting config ≠ p := by
        rw [Emptied, or_iff_right hname]
      rw [if_neg hname]
      by_cases hany : Disk.emptiesAnyway setting.emptiesFirst config.directory = true
      · rw [if_pos hany]
        simp only [hiff, hany, true_and]
        exact Disk.file_emptied
      · rw [if_neg hany, if_neg (fun h => hany (hiff.mp h).2.1)]
        exact rfl
  · rw [if_neg hout]
    change d.file p = _
    by_cases hunder : Emptied setting config p
    · rw [if_pos hunder]
      exact file_of_not_exists hout hunder.1
    · rw [if_neg hunder]

theorem removable_of_ok {d' : Disk Content} (h : emptyOutput setting config d = .ok d') :
    Removable setting config d := by
  intro hout
  have hthere : d.existsSync (resolve setting.cwd config.directory) = true := hout
  rw [emptyOutput, if_pos hthere, Disk.rmSync] at h
  by_contra hname
  rw [if_neg hname] at h
  split at h <;> cases h

theorem leaves_written {dir : Path} {name : String} {content : Content} {o : Option Content}
    (hd : d.file p = o) (hp : p ≠ dir ++ [name]) :
    Leaves (fun d => d.file p = o) (attempt d (d.writeFileSync dir name content)) := by
  refine leaves_attempt ?_ ?_
  · exact hd
  intro d' hd'
  rw [Disk.file_writeFileSync hd', if_neg hp, hd]

theorem leaves_made {dir : Path} {o : Option Content} (hd : d.file p = o) :
    Leaves (fun d => d.file p = o) (attempt d (d.mkdirSync dir)) := by
  refine leaves_attempt ?_ ?_
  · exact hd
  intro d' hd'
  rw [Disk.file_mkdirSync hd', hd]

theorem leaves_service {service : String × PythonRuntime.JsonValue} {o : Option Content}
    (hservice : service ∈ config.entries) (hp : ¬ Written setting config replies p)
    (hd : d.file p = o) :
    Leaves (fun d => d.file p = o)
      (generateService setting config.directory replies d service) := by
  unfold generateService
  split
  · rename_i info hinfo
    split
    · rename_i service_uuid version rest hsplit
      split
      · exact hd
      · rename_i hgiven
        have hvalid : ValidInfo service.2 :=
          ⟨info, service_uuid, version, rest, hinfo, hsplit, (not_or.mp hgiven).1,
            (not_or.mp hgiven).2⟩
        dsimp only
        apply leaves_bind
        · rw [ensureDirectory]
          split
          · exact hd
          · exact leaves_made hd
        · intro d hd
          cases hreply : fetchService (replies service.1) with
          | none => exact hd
          | some apis =>
            have hplace : ∀ file, file = "namespaces.ts" ∨ file = "index.ts" →
                p ≠ join setting.cwd config.directory service.1 ++ [file] := by
              rintro file hfile rfl
              exact hp (.service file hservice hvalid hreply hfile)
            exact leaves_bind (leaves_written hd (hplace _ (Or.inl rfl)))
              (fun d hd => leaves_written hd (hplace _ (Or.inr rfl)))
    · exact hd
  · exact hd

variable (replies d) in
/-- A file elsewhere is as it was when the directory had been emptied. -/
theorem leaves_generate (hp : Removable setting config d → ¬ Written setting config replies p) :
    Leaves (fun d' => d'.file p = if Emptied setting config p then none else d.file p)
      (generate setting config replies d) := by
  have hempty : Leaves (fun d' => d'.file p =
      if Emptied setting config p then none else d.file p) (emptyOutput setting config d) :=
    leaves_emptyOutput
  unfold generate
  cases hok : emptyOutput setting config d with
  | error d' =>
    rw [hok] at hempty
    exact hempty
  | ok d' =>
    rw [hok] at hempty
    have hp := hp (removable_of_ok hok)
    apply leaves_bind (leaves_made hempty)
    intro d hd
    apply leaves_bind
    · refine leaves_foldlM ?_ ?_
      · exact hd
      · intro d hd service hservice
        exact leaves_service (mem_objectOrder.mp hservice) hp hd
    · intro d hd
      rw [writeRequestDemo]
      cases (objectOrder config.entries).head? with
      | none => exact hd
      | some e =>
        dsimp only
        by_cases hname : e.1 = ""
        · rw [if_pos hname]
          exact hd
        · rw [if_neg hname]
          exact leaves_written hd (fun he => hp (he ▸ .demo))

theorem pull_of_empty (h : readConfig setting.cwd d = some config) (hempty : config.entries = []) :
    left (pullAllApisInAllServices setting replies d) = d := by
  rw [pullAllApisInAllServices, h]
  dsimp only
  rw [hempty]
  rfl

theorem pull_of_nonempty (h : readConfig setting.cwd d = some config)
    (hne : config.entries ≠ []) : pullAllApisInAllServices setting replies d =
      generate setting config replies d := by
  rw [pullAllApisInAllServices, h]
  dsimp only
  rw [if_neg (by simpa using hne)]

theorem users_nodup : ([("users", PythonRuntime.JsonValue.str "4f1d@1.0.0")].map Prod.fst).Nodup :=
  List.nodup_singleton _

def projectConfig (outDir : Option String) : Config :=
  ⟨some ⟨[("users", .str "4f1d@1.0.0")], users_nodup⟩, outDir⟩

def project (outDir : Option String) : Disk Content :=
  .ofFiles [(["app", "cam.config.json"], .config (projectConfig outDir)),
    (["app", "src", "main.ts"], .text "start();")]

def projectSetting : Setting := ⟨InterfaceNames.plainUppercase, fun _ => none, ["app"], false⟩

theorem project_config (outDir : Option String) :
    readConfig projectSetting.cwd (project outDir) = some (projectConfig outDir) := rfl

theorem place_name (h : Place setting config p) :
    ∃ q file, p = q ++ [file] ∧ file ∈ ["namespaces.ts", "index.ts", "request-demo.ts"] := by
  cases h with
  | service file _ hfile => exact ⟨_, file, rfl, by rcases hfile with rfl | rfl <;> decide⟩
  | demo => exact ⟨_, _, rfl, by decide⟩

end OwnOutput
