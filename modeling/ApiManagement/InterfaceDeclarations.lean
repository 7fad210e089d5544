import ApiManagement.InterfaceNames
import ApiManagement.MirroredSchemas

/-! # Reading interfaces

The list of interfaces is flat, and one refers to another by its name alone. Every reference
finds its interface, and whoever follows the references from the first interface finds the params
again. -/
namespace InterfaceDeclarations

open RowForests CompleteForests ServiceSchema OpenapiExport CodeGenerator InterfaceNames
  MirroredSchemas

inductive FieldType where
  | builtIn (text : String)
  | interface (interfaceName : String)
  | interfaces (interfaceName : String)
  deriving DecidableEq

def FieldType.text : FieldType → String
  | .builtIn text => text
  | .interface interfaceName => interfaceName
  | .interfaces interfaceName => interfaceName ++ "[]"

structure FieldDeclaration where
  comment : Option String
  name : String
  isOptional : Bool
  type : FieldType
  deriving DecidableEq

def FieldDeclaration.text (f : FieldDeclaration) : String :=
  let comment :=
    match f.comment with
    | none => ""
    | some s => "  /** " ++ s ++ " */\n"
  comment ++ "  " ++ f.name ++ (if f.isOptional then "?" else "") ++ ": " ++ f.type.text ++ ";"

structure InterfaceDeclaration where
  name : String
  fields : List FieldDeclaration
  deriving DecidableEq

def InterfaceDeclaration.print (i : InterfaceDeclaration) : Interface :=
  ⟨i.name, i.fields.map FieldDeclaration.text⟩

section Generate

variable {F : Type} [DescribedFields F] (up : Uppercase)

def declaredType (interfaceName : String) (f : F) (children : List (RoseTree F)) : FieldType :=
  match nestedSuffix up f children with
  | none => .builtIn (tsTypeMap (type f) (arrayChildType f))
  | some suffix =>
    if type f = .object then .interface (interfaceName ++ suffix)
    else .interfaces (interfaceName ++ suffix)

def declaredField (interfaceName : String) (t : RoseTree F) : FieldDeclaration where
  comment := truthyText (description t.value)
  name := name t.value
  isOptional := !(required t.value == some true)
  type := declaredType up interfaceName t.value t.children

def declarationOf (interfaceName : String) (params : List (RoseTree F)) : InterfaceDeclaration :=
  ⟨interfaceName, params.map (declaredField up interfaceName)⟩

mutual

def nestedDeclarations (interfaceName : String) : RoseTree F → List InterfaceDeclaration
  | .node f ts =>
    match nestedSuffix up f ts with
    | none => []
    | some suffix =>
      fieldDeclarations (capitalizeFirstLetter up (interfaceName ++ suffix)) ts ++
        [declarationOf up (capitalizeFirstLetter up (interfaceName ++ suffix)) ts]

def fieldDeclarations (interfaceName : String) : List (RoseTree F) → List InterfaceDeclaration
  | [] => []
  | t :: ts => nestedDeclarations interfaceName t ++ fieldDeclarations interfaceName ts

end

def declarations (name : String) (params : List (RoseTree F)) : List InterfaceDeclaration :=
  fieldDeclarations up (capitalizeFirstLetter up name) params ++
    [declarationOf up (capitalizeFirstLetter up name) params]

variable {up}

theorem fieldLine_eq (interfaceName : String) (t : RoseTree F) :
    fieldLine up interfaceName t = (declaredField up interfaceName t).text := by
  have htype : fieldType up interfaceName t.value t.children =
      (declaredType up interfaceName t.value t.children).text := by
    rw [fieldType, declaredType]
    cases nestedSuffix up t.value t.children with
    | none => rfl
    | some suffix =>
      dsimp only
      split <;> rfl
  have hoptional : (if required t.value = some true then "" else "?") =
      if (declaredField up interfaceName t).isOptional = true then "?" else "" := by
    by_cases h : required t.value = some true <;> simp [declaredField, h]
  rw [fieldLine, FieldDeclaration.text, htype, hoptional]
  rfl

theorem interfaceOf_eq (interfaceName : String) (params : List (RoseTree F)) :
    interfaceOf up interfaceName params = (declarationOf up interfaceName params).print := by
  rw [interfaceOf, InterfaceDeclaration.print, declarationOf, List.map_map]
  congr 1
  exact List.map_congr_left (fun t _ => fieldLine_eq interfaceName t)

mutual

theorem nestedInterfaces_eq (interfaceName : String) : ∀ t : RoseTree F,
    nestedInterfaces up interfaceName t =
      (nestedDeclarations up interfaceName t).map InterfaceDeclaration.print
  | .node f ts => by
    rw [nestedInterfaces, nestedDeclarations]
    cases nestedSuffix up f ts with
    | none => rfl
    | some suffix =>
      dsimp only
      rw [fieldInterfaces_eq _ ts, interfaceOf_eq, List.map_append]
      rfl

theorem fieldInterfaces_eq (interfaceName : String) : ∀ ts : List (RoseTree F),
    fieldInterfaces up interfaceName ts =
      (fieldDeclarations up interfaceName ts).map InterfaceDeclaration.print
  | [] => rfl
  | t :: ts => by
    rw [fieldInterfaces, fieldDeclarations, nestedInterfaces_eq _ t, fieldInterfaces_eq _ ts,
      List.map_append]

end

variable (up) in
/-- The list of texts is the list of declarations, printed. -/
theorem generateInterface_eq (name : String) (params : List (RoseTree F)) :
    generateInterface up name params =
      (declarations up name params).map InterfaceDeclaration.print := by
  rw [generateInterface, declarations, fieldInterfaces_eq, interfaceOf_eq, List.map_append]
  rfl

theorem capitalized_of_stable {s : String} (h : capitalizeFirstLetter up s = s) (hs : s ≠ "") :
    Capitalized up s := by
  cases hl : s.toList with
  | nil => exact absurd (String.toList_inj.mp hl) hs
  | cons c cs =>
    have hlist := congrArg String.toList h
    rw [capitalizeFirstLetter, hl] at hlist
    simp only [String.toList_ofList] at hlist
    exact ⟨c, cs, hl, List.append_cancel_right (hlist : up.upper c ++ cs = [c] ++ cs)⟩

theorem capitalize_stable (s : String) :
    capitalizeFirstLetter up (capitalizeFirstLetter up s) = capitalizeFirstLetter up s := by
  cases hs : s.toList with
  | nil =>
    have hempty : s = "" := String.toList_inj.mp hs
    rw [hempty]
    rfl
  | cons c cs =>
    obtain ⟨d, ds, hd, hfixed⟩ := up.upper_fixed c
    refine capitalize_of_capitalized ⟨d, ds ++ cs, ?_, hfixed⟩
    simp [capitalizeFirstLetter, hs, hd]

/-- The name of a nested interface is capitalized again, which does not change it. -/
theorem nested_stable {interfaceName suffix : String} {f : F} {ts : List (RoseTree F)}
    (h : capitalizeFirstLetter up interfaceName = interfaceName)
    (hs : nestedSuffix up f ts = some suffix) :
    capitalizeFirstLetter up (interfaceName ++ suffix) = interfaceName ++ suffix := by
  by_cases hempty : interfaceName = ""
  · rw [hempty, String.empty_append]
    rw [nestedSuffix] at hs
    split at hs
    · cases hs
    split at hs
    · rw [← Option.some.inj hs]
      exact capitalize_stable _
    · have hitem : Capitalized up "Item" :=
        ⟨'I', ['t', 'e', 'm'], rfl, up.upper_ascii 'I' (by decide)⟩
      rw [← Option.some.inj hs]
      exact capitalize_of_capitalized (capitalized_join hitem)
    · cases hs
  · exact capitalize_of_capitalized (capitalized_append (capitalized_of_stable h hempty) suffix)

def builtInTypes : List String := ["number", "string", "boolean", "any"]

def IsBuiltIn (text : String) : Prop :=
  ∃ b ∈ builtInTypes, text = b ∨ text = b ++ "[]" ∨ text = b ++ "[]" ++ "[]"

theorem tsTypeMap_builtIn (type : ParamType) (arrayChildType : Option ParamType) :
    IsBuiltIn (tsTypeMap type arrayChildType) := by
  have hplain : ∀ t, ∃ b ∈ builtInTypes, plainType t = b ∨ plainType t = b ++ "[]" := by
    intro t
    cases t <;> decide
  unfold tsTypeMap
  split
  · obtain ⟨b, hb, h | h⟩ := hplain ‹_›
    · exact ⟨b, hb, Or.inr (Or.inl (by rw [h]))⟩
    · exact ⟨b, hb, Or.inr (Or.inr (by rw [h]))⟩
  · obtain ⟨b, hb, h | h⟩ := hplain type
    · exact ⟨b, hb, Or.inl h⟩
    · exact ⟨b, hb, Or.inr (Or.inl h)⟩

/-- Every type is a built-in one or goes back to an interface of the list. -/
def TypeIn (ds : List InterfaceDeclaration) : FieldType → Prop
  | .builtIn text => IsBuiltIn text
  | .interface interfaceName => interfaceName ∈ ds.map InterfaceDeclaration.name
  | .interfaces interfaceName => interfaceName ∈ ds.map InterfaceDeclaration.name

/-- The list needs no other interfaces, and none of it hides a built-in type. -/
structure Closed (ds : List InterfaceDeclaration) : Prop where
  types : ∀ i ∈ ds, ∀ f ∈ i.fields, TypeIn ds f.type
  names : ∀ i ∈ ds, i.name ∉ builtInTypes

theorem TypeIn.mono {ds es : List InterfaceDeclaration} (hsub : ds ⊆ es) {t : FieldType}
    (h : TypeIn ds t) : TypeIn es t := by
  cases t with
  | builtIn text => exact h
  | interface n => exact List.map_subset _ hsub h
  | interfaces n => exact List.map_subset _ hsub h

theorem not_builtIn_of_stable {s : String} (h : capitalizeFirstLetter up s = s) :
    s ∉ builtInTypes := by
  intro hm
  have hlower : ∀ b ∈ builtInTypes, ∃ c cs, b.toList = c :: cs ∧ c.toNat < 128 ∧ c.toUpper ≠ c := by
    intro b hb
    simp only [builtInTypes, List.mem_cons, List.not_mem_nil, or_false] at hb
    rcases hb with rfl | rfl | rfl | rfl <;> exact ⟨_, _, rfl, by decide, by decide⟩
  obtain ⟨c, cs, hc, hascii, hne⟩ := hlower s hm
  have hs : s ≠ "" := by
    rintro rfl
    cases hc
  obtain ⟨d, ds, hd, hupper⟩ := capitalized_of_stable h hs
  obtain ⟨rfl, -⟩ := List.cons.inj (hc.symm.trans hd)
  rw [up.upper_ascii c hascii] at hupper
  exact hne (List.cons.inj hupper).1

theorem nestedDeclarations_of_none {interfaceName : String} {t : RoseTree F}
    (hs : nestedSuffix up t.value t.children = none) :
    nestedDeclarations up interfaceName t = [] := by
  cases t with
  | node f ts =>
    have hs : nestedSuffix up f ts = none := hs
    rw [nestedDeclarations, hs]

/-- A nested object is generated like a list of params of its own. -/
theorem nestedDeclarations_of_some {interfaceName suffix : String} {t : RoseTree F}
    (hs : nestedSuffix up t.value t.children = some suffix) :
    nestedDeclarations up interfaceName t =
      declarations up (interfaceName ++ suffix) t.children := by
  cases t with
  | node f ts =>
    have hs : nestedSuffix up f ts = some suffix := hs
    rw [nestedDeclarations, hs]
    rfl

theorem fieldDeclarations_eq_flatMap (interfaceName : String) (params : List (RoseTree F)) :
    fieldDeclarations up interfaceName params =
      params.flatMap (nestedDeclarations up interfaceName) := by
  induction params with
  | nil => rfl
  | cons t ts ih => rw [fieldDeclarations, ih, List.flatMap_cons]

theorem declarationOf_mem {interfaceName : String}
    (h : capitalizeFirstLetter up interfaceName = interfaceName) (params : List (RoseTree F)) :
    declarationOf up interfaceName params ∈ declarations up interfaceName params := by
  rw [declarations, h]
  exact List.mem_append_right _ List.mem_cons_self

/-- The declarations of a nested object are among those of the object, before its own. -/
theorem nested_sublist (interfaceName : String) {suffix : String}
    {params : List (RoseTree F)} {t : RoseTree F} (ht : t ∈ params)
    (hs : nestedSuffix up t.value t.children = some suffix) :
    (declarations up (interfaceName ++ suffix) t.children).Sublist
      (fieldDeclarations up interfaceName params) := by
  rw [fieldDeclarations_eq_flatMap, ← nestedDeclarations_of_some hs, List.flatMap_def]
  exact List.sublist_flatten_of_mem (List.mem_map_of_mem ht)

theorem nested_subset {interfaceName suffix : String} {params : List (RoseTree F)}
    {t : RoseTree F} (h : capitalizeFirstLetter up interfaceName = interfaceName) (ht : t ∈ params)
    (hs : nestedSuffix up t.value t.children = some suffix) :
    declarations up (interfaceName ++ suffix) t.children ⊆
      declarations up interfaceName params := by
  rw [declarations.eq_def up interfaceName, h]
  exact fun i hi => List.mem_append_left _ ((nested_sublist _ ht hs).subset hi)

theorem mem_declarations {interfaceName : String} {params : List (RoseTree F)}
    {i : InterfaceDeclaration} (h : capitalizeFirstLetter up interfaceName = interfaceName) :
    i ∈ declarations up interfaceName params ↔ i = declarationOf up interfaceName params ∨
      ∃ t ∈ params, ∃ suffix, nestedSuffix up t.value t.children = some suffix ∧
        i ∈ declarations up (interfaceName ++ suffix) t.children := by
  constructor
  · intro hi
    rw [declarations, h] at hi
    rcases List.mem_append.mp hi with hi | hi
    · rw [fieldDeclarations_eq_flatMap] at hi
      obtain ⟨t, ht, hi⟩ := List.mem_flatMap.mp hi
      cases hs : nestedSuffix up t.value t.children with
      | none =>
        rw [nestedDeclarations_of_none hs] at hi
        cases hi
      | some suffix =>
        rw [nestedDeclarations_of_some hs] at hi
        exact Or.inr ⟨t, ht, suffix, hs, hi⟩
    · exact Or.inl (List.mem_singleton.mp hi)
  · rintro (rfl | ⟨t, ht, suffix, hs, hi⟩)
    · exact declarationOf_mem h params
    · exact nested_subset h ht hs hi

theorem closed_of_nested {interfaceName : String} {params : List (RoseTree F)}
    (h : capitalizeFirstLetter up interfaceName = interfaceName)
    (hnested : ∀ t ∈ params, ∀ suffix, nestedSuffix up t.value t.children = some suffix →
      Closed (declarations up (interfaceName ++ suffix) t.children)) :
    Closed (declarations up interfaceName params) := by
  constructor
  · intro i hi f hf
    rcases (mem_declarations h).mp hi with rfl | ⟨t, ht, suffix, hs, hi⟩
    · obtain ⟨t, ht, rfl⟩ := List.mem_map.mp hf
      rw [declaredField, declaredType]
      cases hs : nestedSuffix up t.value t.children with
      | none => exact tsTypeMap_builtIn _ _
      | some suffix =>
        have hmem : interfaceName ++ suffix ∈
            (declarations up interfaceName params).map InterfaceDeclaration.name :=
          List.mem_map_of_mem (nested_subset h ht hs
            (declarationOf_mem (nested_stable h hs) t.children))
        dsimp only
        split <;> exact hmem
    · exact ((hnested t ht suffix hs).types i hi f hf).mono (nested_subset h ht hs)
  · intro i hi
    rcases (mem_declarations h).mp hi with rfl | ⟨t, ht, suffix, hs, hi⟩
    · exact not_builtIn_of_stable h
    · exact (hnested t ht suffix hs).names i hi

/-- Every reference finds its interface, whatever the name and the params. -/
theorem declarations_closed {interfaceName : String}
    (h : capitalizeFirstLetter up interfaceName = interfaceName) (params : List (RoseTree F)) :
    Closed (declarations up interfaceName params) := by
  have hnested : ∀ t : RoseTree F, ∀ interfaceName,
      capitalizeFirstLetter up interfaceName = interfaceName → ∀ suffix,
        nestedSuffix up t.value t.children = some suffix →
          Closed (declarations up (interfaceName ++ suffix) t.children) := by
    intro t
    induction t using tree_induction with
    | node f ts ih =>
      intro interfaceName h suffix hs
      have hstable := nested_stable h hs
      exact closed_of_nested hstable (fun u hu => ih u hu _ hstable)
  exact closed_of_nested h (fun t _ => hnested t _ h)

inductive Kind where
  | plain (type : String)
  | object
  | objects
  deriving DecidableEq

structure Property where
  name : String
  isOptional : Bool
  kind : Kind
  deriving DecidableEq

def kindOf (f : F) (children : List (RoseTree F)) : Kind :=
  if children.isEmpty then .plain (tsTypeMap (type f) (arrayChildType f))
  else
    match type f, arrayChildType f with
    | .object, _ => .object
    | .array, some .object => .objects
    | _, _ => .plain (tsTypeMap (type f) (arrayChildType f))

variable (up) in
theorem nested_cases (f : F) (ts : List (RoseTree F)) :
    nestedSuffix up f ts = none ∧ kindOf f ts = .plain (tsTypeMap (type f) (arrayChildType f)) ∨
      ∃ suffix, nestedSuffix up f ts = some suffix ∧
        (type f = .object ∧ kindOf f ts = .object ∨ type f ≠ .object ∧ kindOf f ts = .objects) := by
  by_cases hempty : ts.isEmpty = true
  · exact Or.inl ⟨by rw [nestedSuffix, if_pos hempty], by rw [kindOf, if_pos hempty]⟩
  · cases htype : type f with
    | object => simp [nestedSuffix, kindOf, hempty, htype]
    | array =>
      cases hchild : arrayChildType f with
      | none => simp [nestedSuffix, kindOf, hempty, htype, hchild]
      | some child =>
        cases child <;> simp [nestedSuffix, kindOf, hempty, htype, hchild]
    | _ => simp [nestedSuffix, kindOf, hempty, htype]

mutual

def propertyOf : RoseTree F → RoseTree Property
  | .node f ts =>
    .node ⟨name f, required f != some true, kindOf f ts⟩
      (match kindOf f ts with
        | .plain _ => []
        | .object => propertiesOf ts
        | .objects => propertiesOf ts)

def propertiesOf : List (RoseTree F) → List (RoseTree Property)
  | [] => []
  | t :: ts => propertyOf t :: propertiesOf ts

end

end Generate

section Read

variable (ds : List InterfaceDeclaration)

def readField (read : String → Option (List (RoseTree Property))) (f : FieldDeclaration) :
    Option (RoseTree Property) :=
  match f.type with
  | .builtIn text => some (.node ⟨f.name, f.isOptional, .plain text⟩ [])
  | .interface interfaceName =>
    (read interfaceName).map (.node ⟨f.name, f.isOptional, .object⟩)
  | .interfaces interfaceName =>
    (read interfaceName).map (.node ⟨f.name, f.isOptional, .objects⟩)

/-- The properties of an interface, following at most so many references one after the other. An
interface that is not there, or that has two fields of one name, cannot be read. -/
def readInterface : ℕ → String → Option (List (RoseTree Property))
  | 0, _ => none
  | n + 1, interfaceName => do
    let i ← ds.find? (fun i => i.name == interfaceName)
    if (i.fields.map FieldDeclaration.name).Nodup then i.fields.mapM (readField (readInterface n))
    else none

variable {ds : List InterfaceDeclaration} {F : Type} [DescribedFields F] {up : Uppercase}

theorem find_declaration (hn : (ds.map InterfaceDeclaration.name).Nodup)
    {i : InterfaceDeclaration} (hi : i ∈ ds) : ds.find? (fun j => j.name == i.name) = some i := by
  refine List.find?_eq_some_iff_append.mpr ⟨by simp, ?_⟩
  obtain ⟨before, after, rfl⟩ := List.append_of_mem hi
  refine ⟨before, after, rfl, ?_⟩
  intro j hj
  rw [List.map_append, List.map_cons, List.nodup_append'] at hn
  have hne : j.name ≠ i.name := fun he => hn.2.2 (List.mem_map_of_mem hj) (he ▸ List.mem_cons_self)
  simpa using hne

/-- A field is read as its param if the interface it refers to, if any, is read as the
children. -/
theorem readField_declared {interfaceName : String} {t : RoseTree F}
    {read : String → Option (List (RoseTree Property))}
    (hread : ∀ suffix, nestedSuffix up t.value t.children = some suffix →
      read (interfaceName ++ suffix) = some (propertiesOf t.children)) :
    readField read (declaredField up interfaceName t) = some (propertyOf t) := by
  obtain ⟨f, ts⟩ := t
  rw [readField, declaredField, declaredType, propertyOf]
  simp only [RoseTree.value, RoseTree.children] at hread ⊢
  rcases nested_cases up f ts with ⟨hs, hk⟩ | ⟨suffix, hs, ⟨ht, hk⟩ | ⟨ht, hk⟩⟩
  · rw [hs, hk]
    rfl
  · rw [hs, hk]
    simp only [ht, if_true, hread suffix hs, Option.map_some]
    rfl
  · rw [hs, hk]
    simp only [ht, if_false, hread suffix hs, Option.map_some]
    rfl

theorem propertiesOf_eq_map (params : List (RoseTree F)) :
    propertiesOf params = params.map propertyOf := by
  induction params with
  | nil => rfl
  | cons t ts ih => rw [propertiesOf, ih, List.map_cons]

theorem mapM_some {α β : Type} {g : α → Option β} {h : α → β} {l : List α}
    (hall : ∀ a ∈ l, g a = some (h a)) : l.mapM g = some (l.map h) := by
  induction l with
  | nil => rfl
  | cons a l ih =>
    have htail : ∀ b ∈ l, g b = some (h b) := fun b hb => hall b (List.mem_cons_of_mem _ hb)
    rw [List.mapM_cons, hall a List.mem_cons_self, ih htail]
    rfl

/-- Induction on the number of references; a nested object has fewer declarations than the
object around it. -/
theorem read_declarations (hn : (ds.map InterfaceDeclaration.name).Nodup) (n : ℕ) :
    ∀ (interfaceName : String) (params : List (RoseTree F)),
      capitalizeFirstLetter up interfaceName = interfaceName → DistinctSiblings params →
        declarations up interfaceName params ⊆ ds →
          (declarations up interfaceName params).length ≤ n →
            readInterface ds n interfaceName = some (propertiesOf params) := by
  induction n with
  | zero =>
    intro interfaceName params h _ _ hlen
    rw [declarations, List.length_append, List.length_singleton] at hlen
    omega
  | succ n ih =>
    intro interfaceName params h hd hsub hlen
    have hfind : ds.find? (fun i => i.name == interfaceName) =
        some (declarationOf up interfaceName params) :=
      find_declaration hn (hsub (declarationOf_mem h params))
    have hnames : ((declarationOf up interfaceName params).fields.map
        FieldDeclaration.name).Nodup := by
      cases hd with
      | intro hd _ =>
        rw [declarationOf, List.map_map]
        exact hd
    rw [readInterface, hfind]
    dsimp only [Option.bind_eq_bind, Option.bind_some]
    rw [if_pos hnames, declarationOf, List.mapM_map, propertiesOf_eq_map]
    refine mapM_some ?_
    intro t ht
    refine readField_declared ?_
    intro suffix hs
    have hshort : (declarations up (interfaceName ++ suffix) t.children).length ≤ n := by
      have hle := (nested_sublist interfaceName ht hs).length_le
      rw [declarations, h, List.length_append, List.length_singleton] at hlen
      omega
    have hbelow : DistinctSiblings t.children := by
      cases hd with
      | intro _ hd => exact hd t ht
    exact ih _ _ (nested_stable h hs) hbelow
      (List.Subset.trans (nested_subset h ht hs) hsub) hshort

end Read

end InterfaceDeclarations
