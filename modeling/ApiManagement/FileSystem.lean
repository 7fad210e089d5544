import Mathlib.Data.List.Infix

/-! # Files and directories

A disk is a tree of directories with files in it, without links. Paths are resolved by their
text, so that `..` always leads back to where the path came from. -/
namespace FileSystem

abbrev Path := List String

def stepInto (p : Path) (component : String) : Path :=
  if component = "" ∨ component = "." then p
  else if component = ".." then p.dropLast
  else p ++ [component]

def components (s : String) : List String := (s.toList.splitOn '/').map String.ofList

def isAbsolute (s : String) : Bool := s.toList.head? == some '/'

def resolve (cwd : Path) (s : String) : Path :=
  (components s).foldl stepInto (if isAbsolute s then [] else cwd)

def join (cwd : Path) (s name : String) : Path :=
  (components name).foldl stepInto (resolve cwd s)

def lastComponent (s : String) : Option String := ((components s).filter (· ≠ "")).getLast?

def endsInName (s : String) : Bool :=
  match lastComponent s with
  | none => false
  | some name => name != "." && name != ".."

/-- A name of one file or directory, below the directory in which it is looked up. -/
def PlainName (name : String) : Prop :=
  name ≠ "" ∧ name ≠ "." ∧ name ≠ ".." ∧ '/' ∉ name.toList

instance (name : String) : Decidable (PlainName name) := by
  unfold PlainName
  infer_instance

theorem components_plain {name : String} (h : '/' ∉ name.toList) : components name = [name] := by
  have hsplit : name.toList.splitOn '/' = [name.toList] :=
    List.splitOnP_eq_singleton (fun c hc => beq_eq_false_iff_ne.mpr (fun he => h (he ▸ hc)))
  rw [components, hsplit, List.map_singleton, String.ofList_toList]

theorem join_plain (cwd : Path) (s : String) {name : String} (h : PlainName name) :
    join cwd s name = resolve cwd s ++ [name] := by
  obtain ⟨hempty, hdot, hdots, hslash⟩ := h
  rw [join, components_plain hslash, List.foldl_cons, List.foldl_nil, stepInto,
    if_neg (not_or.mpr ⟨hempty, hdot⟩), if_neg hdots]

inductive Entry (α : Type*) where
  | file (content : α)
  | directory

structure Disk (α : Type*) where
  entry : Path → Option (Entry α)
  parents : ∀ p n, entry (p ++ [n]) ≠ none → entry p = some .directory

namespace Disk

variable {α : Type*} (d : Disk α)

def existsSync (p : Path) : Bool := (d.entry p).isSome

def isDirectory (p : Path) : Bool :=
  match d.entry p with
  | some .directory => true
  | _ => false

def file (p : Path) : Option α :=
  match d.entry p with
  | some (.file content) => some content
  | _ => none

theorem isDirectory_iff {d : Disk α} {p : Path} :
    d.isDirectory p = true ↔ d.entry p = some .directory := by
  unfold isDirectory
  split <;> simp_all

theorem file_eq_some {d : Disk α} {p : Path} {content : α} :
    d.file p = some content ↔ d.entry p = some (.file content) := by
  unfold file
  split <;> simp_all

def removed (p : Path) : Disk α where
  entry q := if p <+: q then none else d.entry q
  parents := by
    intro q n h
    by_cases hp : p <+: q ++ [n]
    · rw [if_pos hp] at h
      exact absurd rfl h
    · rw [if_neg hp] at h
      rw [if_neg (fun hq => hp (hq.trans (List.prefix_append q [n])))]
      exact d.parents q n h

def emptied (p : Path) : Disk α where
  entry q := if p <+: q ∧ p ≠ q then none else d.entry q
  parents := by
    intro q n h
    by_cases hp : p <+: q ++ [n] ∧ p ≠ q ++ [n]
    · rw [if_pos hp] at h
      exact absurd rfl h
    · rw [if_neg hp] at h
      rw [if_neg]
      · exact d.parents q n h
      · rintro ⟨hq, -⟩
        refine hp ⟨hq.trans (List.prefix_append q [n]), ?_⟩
        rintro rfl
        have hlength := hq.length_le
        rw [List.length_append, List.length_singleton] at hlength
        omega

/-- Whether a directory that cannot be removed is emptied all the same. Behind two dots it always
is; behind one it depends on the version of Node. -/
def emptiesAnyway (emptiesFirst : Bool) (s : String) : Bool :=
  emptiesFirst || lastComponent s == some ".."

/-- Recursive and with force. `rmdir` refuses a path that ends in dots, which is an error. -/
def rmSync (emptiesFirst : Bool) (cwd : Path) (s : String) : Except (Disk α) (Disk α) :=
  if endsInName s then .ok (d.removed (resolve cwd s))
  else if emptiesAnyway emptiesFirst s then .error (d.emptied (resolve cwd s))
  else .error d

/-- Makes a directory and those that it lies in, if no file is in the way. Names may have any
length. -/
def mkdirSync (p : Path) : Option (Disk α) :=
  if p.inits.all (fun q => (d.file q).isNone) then
    some
      { entry := fun q => if q <+: p then some .directory else d.entry q
        parents := by
          intro q n h
          by_cases hq : q <+: p
          · rw [if_pos hq]
          · have hqn : ¬ q ++ [n] <+: p := fun hqn => hq ((List.prefix_append q [n]).trans hqn)
            rw [if_neg hqn] at h
            rw [if_neg hq]
            exact d.parents q n h }
  else none

def writeFileSync (dir : Path) (name : String) (content : α) : Option (Disk α) :=
  if h : d.isDirectory dir = true ∧ d.isDirectory (dir ++ [name]) = false then
    some
      { entry := fun q => if q = dir ++ [name] then some (.file content) else d.entry q
        parents := by
          intro q n hqn
          have hdir := isDirectory_iff.mp h.1
          have hplace : d.entry (dir ++ [name]) ≠ some .directory :=
            fun hd => absurd (isDirectory_iff.mpr hd) (by rw [h.2]; decide)
          by_cases he : q ++ [n] = dir ++ [name]
          · obtain ⟨rfl, -⟩ := List.append_inj' he rfl
            rw [if_neg (by simp)]
            exact hdir
          · rw [if_neg he] at hqn
            have hq := d.parents q n hqn
            by_cases heq : q = dir ++ [name]
            · exact absurd (heq ▸ hq) hplace
            · rw [if_neg heq]
              exact hq }
  else none

variable {d} {d' : Disk α} {p q dir : Path} {name : String} {content : α}

@[simp] theorem entry_removed : (d.removed p).entry q = if p <+: q then none else d.entry q := rfl

@[simp] theorem entry_emptied :
    (d.emptied p).entry q = if p <+: q ∧ p ≠ q then none else d.entry q := rfl

theorem entry_mkdirSync (h : d.mkdirSync p = some d') :
    d'.entry q = if q <+: p then some .directory else d.entry q := by
  unfold mkdirSync at h
  split at h
  · cases h
    rfl
  · cases h

theorem entry_writeFileSync (h : d.writeFileSync dir name content = some d') :
    d'.entry q = if q = dir ++ [name] then some (.file content) else d.entry q := by
  unfold writeFileSync at h
  split at h
  · cases h
    rfl
  · cases h

theorem entry_ne_none_of_prefix (h : p <+: q) (hq : d.entry q ≠ none) : d.entry p ≠ none := by
  obtain ⟨rest, rfl⟩ := h
  induction rest using List.reverseRecOn with
  | nil => rwa [List.append_nil] at hq
  | append_singleton rest n ih =>
    rw [← List.append_assoc] at hq
    apply ih
    rw [d.parents _ n hq]
    exact fun hd => nomatch hd

theorem directory_of_prefix (h : q <+: p) (hp : d.entry p = some .directory) :
    d.entry q = some .directory := by
  obtain ⟨rest, rfl⟩ := h
  induction rest using List.reverseRecOn with
  | nil => rwa [List.append_nil] at hp
  | append_singleton rest n ih =>
    rw [← List.append_assoc] at hp
    apply ih
    apply d.parents _ n
    rw [hp]
    exact fun hd => nomatch hd

theorem file_of_directory (h : d.entry p = some .directory) : d.file p = none := by
  unfold file
  rw [h]

theorem file_of_none (h : d.entry p = none) : d.file p = none := by
  unfold file
  rw [h]

theorem mkdirSync_ok (h : ∀ q, q <+: p → d.file q = none) : ∃ d', d.mkdirSync p = some d' := by
  unfold mkdirSync
  rw [if_pos]
  · exact ⟨_, rfl⟩
  · rw [List.all_eq_true]
    intro q hq
    exact Option.isNone_iff_eq_none.mpr (h q ((List.mem_inits q p).mp hq))

variable (content) in
theorem writeFileSync_ok (h : d.entry dir = some .directory)
    (hplace : d.entry (dir ++ [name]) ≠ some .directory) :
    ∃ d', d.writeFileSync dir name content = some d' := by
  unfold writeFileSync
  rw [dif_pos]
  · exact ⟨_, rfl⟩
  · refine ⟨isDirectory_iff.mpr h, ?_⟩
    rw [Bool.eq_false_iff]
    exact fun hd => hplace (isDirectory_iff.mp hd)

theorem not_directory_of_writeFileSync (h : d.writeFileSync dir name content = some d') :
    d.entry (dir ++ [name]) ≠ some .directory := by
  unfold writeFileSync at h
  split at h
  · rename_i hdir
    intro hd
    have htrue := isDirectory_iff.mpr hd
    rw [hdir.2] at htrue
    cases htrue
  · cases h

def ofFiles (files : List (Path × α)) : Disk α where
  entry p :=
    if files.any (fun f => p.isPrefixOf f.1 && p != f.1) then some .directory
    else (files.lookup p).map .file
  parents := by
    have hbelow : ∀ p n, (∃ f ∈ files, p ++ [n] <+: f.1) →
        files.any (fun f => p.isPrefixOf f.1 && p != f.1) = true := by
      rintro p n ⟨f, hf, rest, hrest⟩
      refine List.any_eq_true.mpr ⟨f, hf, ?_⟩
      rw [← hrest, List.append_assoc]
      simp
    intro p n h
    rw [if_pos (hbelow p n ?_)]
    by_cases hdir : files.any (fun f => (p ++ [n]).isPrefixOf f.1 && (p ++ [n]) != f.1) = true
    · obtain ⟨f, hf, hpf⟩ := List.any_eq_true.mp hdir
      rw [Bool.and_eq_true] at hpf
      exact ⟨f, hf, List.isPrefixOf_iff_prefix.mp hpf.1⟩
    · rw [if_neg hdir] at h
      obtain ⟨content, hcontent⟩ := Option.ne_none_iff_exists'.mp
        (fun hnone => h (by rw [hnone, Option.map_none]) : files.lookup (p ++ [n]) ≠ none)
      obtain ⟨_, _, hfiles, _⟩ := List.lookup_eq_some_iff.mp hcontent
      exact ⟨(p ++ [n], content), by rw [hfiles]; simp, List.prefix_rfl⟩

theorem mem_of_file_ofFiles {files : List (Path × α)} (h : (ofFiles files).file p ≠ none) :
    p ∈ files.map Prod.fst := by
  obtain ⟨content, hcontent⟩ := Option.ne_none_iff_exists'.mp h
  have hentry : (if files.any (fun f => p.isPrefixOf f.1 && p != f.1) then some Entry.directory
      else (files.lookup p).map Entry.file) = some (Entry.file content) :=
    file_eq_some.mp hcontent
  split at hentry
  · cases hentry
  · obtain ⟨c, hc, _⟩ := Option.map_eq_some_iff.mp hentry
    obtain ⟨_, _, hfiles, _⟩ := List.lookup_eq_some_iff.mp hc
    rw [hfiles]
    simp

theorem file_removed : (d.removed p).file q = if p <+: q then none else d.file q := by
  unfold file
  rw [entry_removed]
  by_cases hp : p <+: q
  · rw [if_pos hp, if_pos hp]
  · rw [if_neg hp, if_neg hp]

theorem file_emptied :
    (d.emptied p).file q = if p <+: q ∧ p ≠ q then none else d.file q := by
  unfold file
  rw [entry_emptied]
  by_cases hp : p <+: q ∧ p ≠ q
  · rw [if_pos hp, if_pos hp]
  · rw [if_neg hp, if_neg hp]

/-- No file is on the way to a directory that is made. -/
theorem file_of_mkdirSync (h : d.mkdirSync p = some d') (hq : q <+: p) : d.file q = none := by
  unfold mkdirSync at h
  split at h
  · rename_i hall
    exact Option.isNone_iff_eq_none.mp (List.all_eq_true.mp hall q ((List.mem_inits q p).mpr hq))
  · cases h

theorem file_mkdirSync (h : d.mkdirSync p = some d') : d'.file q = d.file q := by
  by_cases hq : q <+: p
  · rw [file_of_mkdirSync h hq]
    unfold file
    rw [entry_mkdirSync h, if_pos hq]
  · unfold file
    rw [entry_mkdirSync h, if_neg hq]

theorem file_writeFileSync (h : d.writeFileSync dir name content = some d') :
    d'.file q = if q = dir ++ [name] then some content else d.file q := by
  unfold file
  rw [entry_writeFileSync h]
  by_cases hq : q = dir ++ [name]
  · rw [if_pos hq, if_pos hq]
  · rw [if_neg hq, if_neg hq]

end Disk

end FileSystem
