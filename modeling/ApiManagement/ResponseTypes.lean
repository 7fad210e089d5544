import ApiManagement.JsonShapes
import ApiManagement.EncodedInterfaces

/-! # Types of responses

The method of an api promises the intersection of the interfaces of its status codes. A response
of one status code has to have the fields of all the others as well. The interfaces and the
promise are read from their texts. -/
namespace ResponseTypes

open RowForests CompleteForests PythonRuntime ServiceSchema OpenapiExport CodeGenerator
  InterfaceNames MirroredSchemas InterfaceDeclarations ScriptLexer WellFormedCode ServiceClass
  InterfaceReader EncodedInterfaces JsonShapes

/-- `binary` is a text in JSON, as the export has it. -/
def documentedPlain : ParamType → ValueKind
  | .int => .integer
  | .double => .number
  | .string => .string
  | .boolean => .boolean
  | .binary => .string
  | .object => .object
  | .array => .array .any

def documentedKind (type : ParamType) (arrayChildType : Option ParamType) : ValueKind :=
  match type, arrayChildType with
  | .array, some child => .array (documentedPlain child)
  | type, _ => documentedPlain type

section Documented

variable {F : Type} [DescribedFields F]

mutual

def documentedField : RoseTree F → RoseTree FieldShape
  | .node f ts =>
    .node ⟨name f, required f == some true, documentedKind (type f) (arrayChildType f)⟩
      (documentedFields ts)

def documentedFields : List (RoseTree F) → List (RoseTree FieldShape)
  | [] => []
  | t :: ts => documentedField t :: documentedFields ts

end

/-- Without params nothing is said of the response. -/
def Conforms (params : List (RoseTree F)) (v : JsonValue) : Prop :=
  params = [] ∨ AcceptsObject (documentedFields params) v

end Documented

inductive TsType where
  | number
  | string
  | boolean
  | any
  | array (element : TsType)
  | interface (interfaceName : String)
  deriving DecidableEq

def namedType (s : String) : TsType :=
  if s = "number" then .number
  else if s = "string" then .string
  else if s = "boolean" then .boolean
  else if s = "any" then .any
  else .interface s

def readReversed : List Char → TsType
  | ']' :: '[' :: cs => .array (readReversed cs)
  | cs => namedType (String.ofList cs.reverse)

def typeOf : FieldType → TsType
  | .builtIn text => readReversed text.toList.reverse
  | .interface interfaceName => .interface interfaceName
  | .interfaces interfaceName => .array (.interface interfaceName)

inductive Inhabits (ds : List InterfaceDeclaration) : TsType → JsonValue → Prop where
  | number (q : Rat) : Inhabits ds .number (.num q)
  | string (s : String) : Inhabits ds .string (.str s)
  | boolean (b : Bool) : Inhabits ds .boolean (.bool b)
  | any (v : JsonValue) : Inhabits ds .any v
  | array {t xs} : (∀ x ∈ xs, Inhabits ds t x) → Inhabits ds (.array t) (.arr xs)
  | interface {i kvs} : i ∈ ds →
      (∀ f ∈ i.fields, ∀ v, kvs.lookup f.name = some v → Inhabits ds (typeOf f.type) v) →
      (∀ f ∈ i.fields, f.isOptional = false → kvs.lookup f.name ≠ none) →
      Inhabits ds (.interface i.name) (.obj kvs)

def promiseText (option : ApiOption) : String := "Promise<" ++ respInterfaceName option ++ ">"

def readJoined : List Token → Option (List String)
  | [.word cs, .mark '>'] => some [String.ofList cs]
  | .word cs :: .mark '&' :: ts => (readJoined ts).map (String.ofList cs :: ·)
  | _ => none

def readPromise (a : Alphabet) (s : String) : Option (List String) :=
  match lex a s with
  | some (.word first :: .mark '<' :: ts) =>
    if first = "Promise".toList then readJoined ts else none
  | _ => none

/-- The type in the promise is the intersection of all that are joined. -/
def InhabitsPromise (ds : List InterfaceDeclaration) (names : List String) (v : JsonValue) : Prop :=
  ∀ n ∈ names, Inhabits ds (namedType n) v

/-- The texts can be read, and every response that is documented has the type of the method. -/
def AcceptsResponses (a : Alphabet) (up : Uppercase) (api : FetchedApi) : Prop :=
  ∃ ds names, (generateTSCode up api).namespaces.mapM (fun i => readText a i.text) = some ds ∧
    readPromise a (promiseText (generateTSCode up api).apiOption) = some names ∧
    ∀ c ∈ api.statusCodes, ∀ v, Conforms (api.responseParams c) v → InhabitsPromise ds names v

/-- All names of the code are names, and its descriptions are comments. -/
structure ReadableApi (a : Alphabet) (up : Uppercase) (api : FetchedApi) : Prop where
  name : Identifier a (capitalizeFirstLetter up api.name)
  requests : ∀ location, SpelledFields a up (Silent a) (api.requestParams location)
  responses : ∀ statusCode ∈ api.statusCodes,
    SpelledFields a up (Silent a) (api.responseParams statusCode)
  statusCodes : ∀ statusCode ∈ api.statusCodes,
    (api.responseParams statusCode).isEmpty = false → 0 ≤ statusCode

def typedPlain : ParamType → ValueKind
  | .int => .number
  | .double => .number
  | .string => .string
  | .boolean => .boolean
  | .binary => .any
  | .object => .any
  | .array => .array .any

def writtenKind (type : ParamType) (arrayChildType : Option ParamType) : ValueKind :=
  match type, arrayChildType with
  | .array, some child => .array (typedPlain child)
  | type, _ => typedPlain type

def typedKind {F : Type} [DescribedFields F] (f : F) (children : List (RoseTree F)) : ValueKind :=
  match kindOf f children with
  | .object => .object
  | .objects => .array .object
  | .plain _ => writtenKind (type f) (arrayChildType f)

section Typed

variable {F : Type} [DescribedFields F]

mutual

def typedField : RoseTree F → RoseTree FieldShape
  | .node f ts => .node ⟨name f, required f == some true, typedKind f ts⟩ (typedFields ts)

def typedFields : List (RoseTree F) → List (RoseTree FieldShape)
  | [] => []
  | t :: ts => typedField t :: typedFields ts

end

def tsType (interfaceName : String) : ValueKind → TsType
  | .any => .any
  | .number => .number
  | .integer => .number
  | .string => .string
  | .boolean => .boolean
  | .object => .interface interfaceName
  | .array k => .array (tsType interfaceName k)

variable {up : Uppercase} {ds : List InterfaceDeclaration}

def inTypeScript : ValueKind → Bool
  | .integer => false
  | .array k => inTypeScript k
  | _ => true

theorem inhabits_tsType {n : String} {k : ValueKind} (hk : inTypeScript k = true)
    {v : JsonValue} : Inhabits ds (tsType n k) v ↔ k.Accepts (Inhabits ds (.interface n)) v := by
  induction k generalizing v with
  | any => exact iff_of_true (.any v) trivial
  | integer => cases hk
  | object => exact Iff.rfl
  | array k ih =>
    constructor
    · intro h
      cases h with
      | array hxs => exact ⟨_, rfl, fun x hx => (ih hk).mp (hxs x hx)⟩
    · rintro ⟨xs, rfl, hxs⟩
      exact .array (fun x hx => (ih hk).mpr (hxs x hx))
  | number =>
    constructor
    · intro h
      cases h with
      | number q => exact ⟨q, rfl⟩
    · rintro ⟨q, rfl⟩
      exact .number q
  | string =>
    constructor
    · intro h
      cases h with
      | string s => exact ⟨s, rfl⟩
    · rintro ⟨s, rfl⟩
      exact .string s
  | boolean =>
    constructor
    · intro h
      cases h with
      | boolean b => exact ⟨b, rfl⟩
    · rintro ⟨b, rfl⟩
      exact .boolean b

theorem inhabits_interface {n : String} {v : JsonValue} : Inhabits ds (.interface n) v ↔
    ∃ i ∈ ds, i.name = n ∧ ∃ kvs, v = .obj kvs ∧
      (∀ f ∈ i.fields, ∀ w, kvs.lookup f.name = some w → Inhabits ds (typeOf f.type) w) ∧
      ∀ f ∈ i.fields, f.isOptional = false → kvs.lookup f.name ≠ none := by
  constructor
  · intro h
    cases h with
    | interface hi hfields hrequired => exact ⟨_, hi, rfl, _, rfl, hfields, hrequired⟩
  · rintro ⟨i, hi, rfl, kvs, rfl, hfields, hrequired⟩
    exact .interface hi hfields hrequired

theorem typedFields_eq_map (params : List (RoseTree F)) :
    typedFields params = params.map typedField := by
  induction params with
  | nil => rfl
  | cons t ts ih => rw [typedFields, ih, List.map_cons]

theorem documentedFields_eq_map (params : List (RoseTree F)) :
    documentedFields params = params.map documentedField := by
  induction params with
  | nil => rfl
  | cons t ts ih => rw [documentedFields, ih, List.map_cons]

theorem typeOf_written (p : ParamType) (c : Option ParamType) :
    typeOf (.builtIn (tsTypeMap p c)) = tsType "" (writtenKind p c) ∧
      inTypeScript (writtenKind p c) = true := by
  have hplain : ∀ p, (readReversed (plainType p).toList.reverse = tsType "" (typedPlain p) ∧
      readReversed (plainType p ++ "[]").toList.reverse = .array (tsType "" (typedPlain p))) ∧
      inTypeScript (typedPlain p) = true := by
    intro p
    cases p <;> decide +kernel
  by_cases hp : p = .array
  · subst hp
    cases c with
    | none => exact ⟨(hplain .array).1.1, rfl⟩
    | some child => exact ⟨(hplain child).1.2, (hplain child).2⟩
  · have htype : tsTypeMap p c = plainType p ∧ writtenKind p c = typedPlain p := by
      cases p <;> first | exact absurd rfl hp | exact ⟨rfl, rfl⟩
    rw [htype.1, htype.2]
    exact ⟨(hplain p).1.1, (hplain p).2⟩

/-- No objects are spoken of. -/
theorem accepts_written {O O' : JsonValue → Prop} {p : ParamType} {c : Option ParamType}
    {v : JsonValue} (h : (writtenKind p c).Accepts O v) : (writtenKind p c).Accepts O' v := by
  have hplain : ∀ p w, (typedPlain p).Accepts O w → (typedPlain p).Accepts O' w := by
    intro p w hw
    cases p <;> exact hw
  by_cases hp : p = .array
  · subst hp
    cases c with
    | none => exact h
    | some child =>
      obtain ⟨xs, rfl, hxs⟩ := h
      exact ⟨xs, rfl, fun x hx => hplain child x (hxs x hx)⟩
  · have htype : writtenKind p c = typedPlain p := by
      cases p <;> first | exact absurd rfl hp | rfl
    rw [htype] at h ⊢
    exact hplain p v h

/-- An object inhabits an interface just when it has the fields of the params. -/
theorem inhabits_of_fields {n : String} {params : List (RoseTree F)}
    (hn : (ds.map InterfaceDeclaration.name).Nodup) (hmem : declarationOf up n params ∈ ds)
    (hfields : ∀ t ∈ params, ∀ v, Inhabits ds (typeOf (declaredType up n t.value t.children)) v ↔
      AcceptsField (typedField t) v) (v : JsonValue) :
    Inhabits ds (.interface n) v ↔ AcceptsObject (typedFields params) v := by
  have hvalue : ∀ t : RoseTree F, (typedField t).value.name = name t.value ∧
      (typedField t).value.required = (required t.value == some true) := by
    intro t
    cases t
    exact ⟨rfl, rfl⟩
  have hfits : ∀ kvs, AcceptsFields (typedFields params) kvs ↔
      (∀ f ∈ (declarationOf up n params).fields, ∀ w, kvs.lookup f.name = some w →
        Inhabits ds (typeOf f.type) w) ∧
      ∀ f ∈ (declarationOf up n params).fields, f.isOptional = false →
        kvs.lookup f.name ≠ none := by
    intro kvs
    rw [acceptsFields_iff, typedFields_eq_map, declarationOf, List.forall_mem_map,
      List.forall_mem_map, List.forall_mem_map, ← forall₂_and]
    refine forall₂_congr ?_
    intro t ht
    rw [FitsField, (hvalue t).1, (hvalue t).2]
    refine and_congr ?_ ?_
    · exact forall₂_congr (fun w _ => (hfields t ht w).symm)
    · rw [InterfaceDeclarations.declaredField]
      simp
  rw [inhabits_interface]
  constructor
  · rintro ⟨i, hi, hname, kvs, rfl, hfields⟩
    obtain rfl : i = declarationOf up n params := List.inj_on_of_nodup_map hn hi hmem hname
    exact ⟨kvs, rfl, (hfits kvs).mpr hfields⟩
  · rintro ⟨kvs, rfl, hkvs⟩
    exact ⟨_, hmem, rfl, kvs, rfl, (hfits kvs).mp hkvs⟩

/-- The type of a field says of a value what the shape of the field does. -/
theorem inhabits_field {n : String} {f : F} {ts : List (RoseTree F)}
    (hnested : ∀ suffix, nestedSuffix up f ts = some suffix → ∀ v,
      Inhabits ds (.interface (n ++ suffix)) v ↔ AcceptsObject (typedFields ts) v)
    (v : JsonValue) : Inhabits ds (typeOf (declaredType up n f ts)) v ↔
      AcceptsField (typedField (.node f ts)) v := by
  rw [acceptsField_iff, typedField]
  dsimp only [RoseTree.value, RoseTree.children]
  rw [declaredType]
  rcases nested_cases up f ts with ⟨hs, hk⟩ | ⟨suffix, hs, hcases⟩
  · obtain ⟨htype, hts⟩ := typeOf_written (type f) (arrayChildType f)
    have hkind : typedKind f ts = writtenKind (type f) (arrayChildType f) := by
      rw [typedKind, hk]
    rw [hs, hkind]
    dsimp only
    rw [htype, inhabits_tsType hts]
    exact ⟨accepts_written, accepts_written⟩
  · rw [hs]
    dsimp only
    rcases hcases with ⟨hobject, hk⟩ | ⟨hobject, hk⟩
    · have hkind : typedKind f ts = .object := by rw [typedKind, hk]
      rw [if_pos hobject, hkind]
      exact hnested suffix hs v
    · have hkind : typedKind f ts = .array .object := by rw [typedKind, hk]
      rw [if_neg hobject, hkind]
      have htype : typeOf (.interfaces (n ++ suffix)) = tsType (n ++ suffix) (.array .object) := rfl
      rw [htype, inhabits_tsType rfl]
      exact ⟨accepts_mono (fun w => (hnested suffix hs w).mp),
        accepts_mono (fun w => (hnested suffix hs w).mpr)⟩

/-- Following the names from interface to interface, the types say what the params do. -/
theorem inhabits_interface_iff {n : String} {params : List (RoseTree F)}
    (hn : (ds.map InterfaceDeclaration.name).Nodup) (h : capitalizeFirstLetter up n = n)
    (hsub : declarations up n params ⊆ ds) (v : JsonValue) :
    Inhabits ds (.interface n) v ↔ AcceptsObject (typedFields params) v := by
  have hbelow : ∀ t : RoseTree F, ∀ n, capitalizeFirstLetter up n = n → ∀ suffix,
      nestedSuffix up t.value t.children = some suffix →
        declarations up (n ++ suffix) t.children ⊆ ds → ∀ v,
          Inhabits ds (.interface (n ++ suffix)) v ↔ AcceptsObject (typedFields t.children) v := by
    intro t
    induction t using tree_induction with
    | node f ts ih =>
      intro n h suffix hs hsub v
      have hstable := nested_stable h hs
      refine inhabits_of_fields hn (hsub (declarationOf_mem hstable ts)) ?_ v
      intro u hu w
      cases u with
      | node g us =>
        exact inhabits_field (fun suffix' hs' => ih _ hu _ hstable suffix' hs'
          (List.Subset.trans (nested_subset hstable hu hs') hsub)) w
  refine inhabits_of_fields hn (hsub (declarationOf_mem h params)) ?_ v
  intro u hu w
  cases u with
  | node g us =>
    exact inhabits_field (fun suffix' hs' => hbelow _ _ h suffix' hs'
      (List.Subset.trans (nested_subset h hu hs') hsub)) w

end Typed

section Own

variable {F : Type} [DescribedFields F]

theorem accepts_written_of_documented {O O' : JsonValue → Prop} {p : ParamType}
    {c : Option ParamType} {v : JsonValue} (h : (documentedKind p c).Accepts O v) :
    (writtenKind p c).Accepts O' v := by
  have hplain : ∀ p w, (documentedPlain p).Accepts O w → (typedPlain p).Accepts O' w := by
    intro p w hw
    cases p with
    | int =>
      obtain ⟨i, rfl⟩ := hw
      exact ⟨i, rfl⟩
    | binary => trivial
    | object => trivial
    | _ => exact hw
  by_cases hp : p = .array
  · subst hp
    cases c with
    | none => exact h
    | some child =>
      obtain ⟨xs, rfl, hxs⟩ := h
      exact ⟨xs, rfl, fun x hx => hplain child x (hxs x hx)⟩
  · have hkind : documentedKind p c = documentedPlain p ∧ writtenKind p c = typedPlain p := by
      cases p <;> first | exact absurd rfl hp | exact ⟨rfl, rfl⟩
    rw [hkind.1] at h
    rw [hkind.2]
    exact hplain p v h

theorem documented_of_objects {f : F} {ts : List (RoseTree F)} (h : kindOf f ts = .objects) :
    documentedKind (type f) (arrayChildType f) = .array .object := by
  rw [kindOf] at h
  split at h
  · cases h
  split at h
  · cases h
  · rename_i htype hchild
    rw [htype, hchild]
    rfl
  · cases h

/-- A value that conforms to params has the type that is generated for them. -/
theorem typed_of_documented (t : RoseTree F) : ∀ v, AcceptsField (documentedField t) v →
    AcceptsField (typedField t) v := by
  induction t using tree_induction with
  | node f ts ih =>
    intro v hv
    have hfields : ∀ w,
        AcceptsObject (documentedFields ts) w → AcceptsObject (typedFields ts) w := by
      rintro _ ⟨kvs, rfl, hkvs⟩
      refine ⟨kvs, rfl, ?_⟩
      rw [acceptsFields_iff, documentedFields_eq_map, List.forall_mem_map] at hkvs
      rw [acceptsFields_iff, typedFields_eq_map, List.forall_mem_map]
      intro t ht
      have hfits := hkvs t ht
      have hin := ih t ht
      cases t
      exact ⟨fun w hw => hin w (hfits.1 w hw), hfits.2⟩
    have hv : (documentedKind (type f) (arrayChildType f)).Accepts
        (AcceptsObject (documentedFields ts)) v := hv
    have hgoal : AcceptsField (typedField (.node f ts)) v ↔
        (typedKind f ts).Accepts (AcceptsObject (typedFields ts)) v := Iff.rfl
    rw [hgoal, typedKind]
    cases hk : kindOf f ts with
    | plain text => exact accepts_written_of_documented hv
    | object =>
      have htype : type f = .object := by
        rw [kindOf] at hk
        split at hk
        · cases hk
        split at hk
        · assumption
        · cases hk
        · cases hk
      rw [htype] at hv
      exact hfields v hv
    | objects =>
      rw [documented_of_objects hk] at hv
      exact accepts_mono hfields hv

theorem typedFields_of_documented {params : List (RoseTree F)} {v : JsonValue}
    (h : AcceptsObject (documentedFields params) v) : AcceptsObject (typedFields params) v := by
  obtain ⟨kvs, rfl, hkvs⟩ := h
  refine ⟨kvs, rfl, ?_⟩
  rw [acceptsFields_iff, documentedFields_eq_map, List.forall_mem_map] at hkvs
  rw [acceptsFields_iff, typedFields_eq_map, List.forall_mem_map]
  intro t ht
  have hfits := hkvs t ht
  have hin := typed_of_documented t
  cases t
  exact ⟨fun w hw => hin w (hfits.1 w hw), hfits.2⟩

theorem distinctNames_of_siblings {params : List (RoseTree F)} (h : DistinctSiblings params) :
    DistinctNames (documentedFields params) := by
  induction h with
  | @intro ts hn _ ih =>
    have hvalue : ∀ t : RoseTree F, (documentedField t).value.name = name t.value ∧
        (documentedField t).children = documentedFields t.children := by
      intro t
      cases t
      exact ⟨rfl, rfl⟩
    rw [documentedFields_eq_map]
    refine .intro ?_ ?_
    · rw [List.map_map]
      have hnames : ts.map ((fun t => t.value.name) ∘ documentedField) =
          ts.map (fun t => name t.value) :=
        List.map_congr_left (fun t _ => (hvalue t).1)
      rwa [hnames]
    · intro t ht
      obtain ⟨u, hu, rfl⟩ := List.mem_map.mp ht
      rw [(hvalue u).2]
      exact ih u hu

end Own

section Texts

variable {a : Alphabet} {up : Uppercase} {api : FetchedApi}

/-- No value depends on the comments. -/
theorem inhabits_uncommented {ds : List InterfaceDeclaration} {type : TsType} {v : JsonValue} :
    Inhabits (ds.map uncommented) type v ↔ Inhabits ds type v := by
  constructor
  · intro h
    induction h with
    | number q => exact .number q
    | string s => exact .string s
    | boolean b => exact .boolean b
    | any v => exact .any v
    | array _ ih => exact .array ih
    | interface hi _ hrequired ih =>
      obtain ⟨j, hj, rfl⟩ := List.mem_map.mp hi
      have hname : (uncommented j).name = j.name := rfl
      rw [hname]
      refine .interface hj ?_ ?_
      · exact fun f hf => ih { f with comment := none } (List.mem_map_of_mem hf)
      · exact fun f hf => hrequired { f with comment := none } (List.mem_map_of_mem hf)
  · intro h
    induction h with
    | number q => exact .number q
    | string s => exact .string s
    | boolean b => exact .boolean b
    | any v => exact .any v
    | array _ ih => exact .array ih
    | @interface i kvs hi _ hrequired ih =>
      refine .interface (i := uncommented i) (List.mem_map_of_mem hi) ?_ ?_
      · intro f hf
        obtain ⟨g, hg, rfl⟩ := List.mem_map.mp hf
        exact ih g hg
      · intro f hf
        obtain ⟨g, hg, rfl⟩ := List.mem_map.mp hf
        exact hrequired g hg

theorem nameToken_identifier {s : String} (h : Identifier a s) : nameToken s = .word s.toList := by
  obtain ⟨c, cs, hl, hc, _⟩ := h
  simp [nameToken, hl, start_not_digit hc]

theorem readJoined_separated {names : List String} (hne : names ≠ [])
    (h : ∀ n ∈ names, Identifier a n) :
    readJoined ((separated " & " ">" names).flatMap Piece.tokens) = some names := by
  have hsep : (Piece.fixed " & ").tokens = [.mark '&'] := by decide +kernel
  have hafter : (Piece.fixed ">").tokens = [.mark '>'] := by decide +kernel
  induction names with
  | nil => exact absurd rfl hne
  | cons n ns ih =>
    have hname : (Piece.name n).tokens = [.word n.toList] :=
      congrArg ([·]) (nameToken_identifier (h n List.mem_cons_self))
    cases ns with
    | nil => simp [separated, hname, hafter, readJoined]
    | cons m ns =>
      have hstep : separated " & " ">" (n :: m :: ns) =
          .name n :: .fixed " & " :: separated " & " ">" (m :: ns) := rfl
      have hrest := ih (List.cons_ne_nil m ns) (fun k hk => h k (List.mem_cons_of_mem _ hk))
      rw [hstep, List.flatMap_cons, List.flatMap_cons, hname, hsep]
      simp only [List.singleton_append, readJoined, hrest, Option.map_some, String.ofList_toList]

theorem readPromise_text {option : ApiOption}
    (h : ∀ n ∈ option.respInterfaceNames, Identifier a n) :
    readPromise a (promiseText option) = some (respNames option) := by
  have hne : respNames option ≠ [] := by
    rw [respNames]
    cases option.respInterfaceNames <;> exact List.cons_ne_nil _ _
  have hnames : ∀ n ∈ respNames option, Identifier a n := by
    intro n hn
    rw [respNames] at hn
    split at hn
    · obtain rfl := List.mem_singleton.mp hn
      exact identifier_of_isWord (by decide +kernel)
    · exact h n hn
  have hpieces : promiseText option =
      printAll (.fixed "Promise<" :: separated " & " ">" (respNames option)) := by
    rw [printAll_cons, printAll_separated, intercalate_respNames, promiseText, Piece.print,
      String.append_assoc]
  have hreadable : Readable a (.fixed "Promise<" :: separated " & " ">" (respNames option)) :=
    .fixed (by decide +kernel) (Readable.separated (by decide +kernel) (by decide +kernel)
      (by decide +kernel) (by decide +kernel) (fun n hn => Or.inl (hnames n hn)))
  have hhead : (Piece.fixed "Promise<").tokens = [.word "Promise".toList, .mark '<'] := by
    decide +kernel
  rw [readPromise, hpieces, lex_pieces hreadable, List.flatMap_cons, hhead]
  exact (if_pos rfl).trans (readJoined_separated hne hnames)

/-- All texts of a readable api are read as what they were generated from. -/
theorem acceptsResponses_read (h : ReadableApi a up api) : AcceptsResponses a up api ↔
    ∀ c ∈ api.statusCodes, ∀ v, Conforms (api.responseParams c) v →
      ∀ n ∈ (generateTSCode up api).apiOption.respInterfaceNames,
        Inhabits (apiDeclarations up api) (.interface n) v := by
  have hspelled : ∀ i ∈ apiDeclarations up api, SpelledDeclaration a (Silent a) i :=
    (spelled_apiDeclarations h.name).mpr ⟨h.requests, h.responses, h.statusCodes⟩
  have hclosed := closed_api up api
  have htexts := texts_read hclosed hspelled
  rw [← namespaces_print] at htexts
  have hnames : ∀ n ∈ (generateTSCode up api).apiOption.respInterfaceNames,
      Identifier a n ∧ n ∉ builtInTypes := by
    intro n hn
    obtain ⟨i, hi, rfl⟩ := List.mem_map.mp (respNames_mem hn)
    exact ⟨(hspelled i hi).name, hclosed.names i hi⟩
  have hpromise := readPromise_text (fun n hn => (hnames n hn).1)
  have htype : ∀ v, InhabitsPromise ((apiDeclarations up api).map uncommented)
      (respNames (generateTSCode up api).apiOption) v ↔
        ∀ n ∈ (generateTSCode up api).apiOption.respInterfaceNames,
          Inhabits (apiDeclarations up api) (.interface n) v := by
    intro v
    rw [InhabitsPromise, respNames]
    split
    · rename_i hnil
      rw [hnil]
      refine iff_of_true ?_ (fun n hn => absurd hn List.not_mem_nil)
      intro n hn
      obtain rfl := List.mem_singleton.mp hn
      exact .any v
    · refine forall₂_congr (fun n hn => ?_)
      have hbuiltIn := (hnames n hn).2
      simp only [builtInTypes, List.mem_cons, List.not_mem_nil, or_false, not_or] at hbuiltIn
      rw [inhabits_uncommented, namedType, if_neg hbuiltIn.1, if_neg hbuiltIn.2.1,
        if_neg hbuiltIn.2.2.1, if_neg hbuiltIn.2.2.2]
  constructor
  · rintro ⟨ds, names, hds, hread, hall⟩ c hc v hv
    obtain rfl := Option.some.inj (htexts.symm.trans hds)
    obtain rfl := Option.some.inj (hpromise.symm.trans hread)
    exact (htype v).mp (hall c hc v hv)
  · intro hall
    exact ⟨_, _, htexts, hpromise, fun c hc v hv => (htype v).mpr (hall c hc v hv)⟩

end Texts

section Codes

variable {a : Alphabet} {up : Uppercase} {api : FetchedApi}

theorem inhabitsPromise_iff
    (hn : ((generateTSCode up api).namespaces.map Interface.name).Nodup) (v : JsonValue) :
    (∀ n ∈ (generateTSCode up api).apiOption.respInterfaceNames,
      Inhabits (apiDeclarations up api) (.interface n) v) ↔
        ∀ d ∈ api.statusCodes, api.responseParams d ≠ [] →
          AcceptsObject (typedFields (api.responseParams d)) v := by
  have hnames : ((apiDeclarations up api).map InterfaceDeclaration.name).Nodup := by
    rw [namespaces_print, List.map_map] at hn
    exact hn
  have hone : ∀ d ∈ api.statusCodes, api.responseParams d ≠ [] →
      (Inhabits (apiDeclarations up api) (.interface (responseInterfaceName up api d)) v ↔
        AcceptsObject (typedFields (api.responseParams d)) v) := by
    intro d hd hne
    have hplace : Place.response d ∈ placesOf api :=
      mem_placesOf.mpr (Or.inr ⟨d, hd, rfl, by simpa using hne⟩)
    have hstable := stable_at up api (.response d)
    rw [middle, ← String.append_assoc] at hstable
    exact inhabits_interface_iff hnames hstable
      (fun i hi => List.mem_flatMap.mpr ⟨_, hplace, hi⟩) v
  rw [generateTSCode]
  simp only [List.forall_mem_map, List.mem_filter, Bool.not_eq_true', List.isEmpty_eq_false_iff,
    and_imp]
  exact forall₂_congr (fun d hd => forall_congr' (fun hne => hone d hd hne))

theorem acceptsResponses_iff
    (hn : ((generateTSCode up api).namespaces.map Interface.name).Nodup)
    (hreadable : ReadableApi a up api) :
    AcceptsResponses a up api ↔ ∀ c ∈ api.statusCodes, ∀ d ∈ api.statusCodes, c ≠ d →
      api.responseParams d ≠ [] → ∀ v, Conforms (api.responseParams c) v →
        AcceptsObject (typedFields (api.responseParams d)) v := by
  rw [acceptsResponses_read hreadable]
  constructor
  · intro h c hc d hd _ hne v hv
    exact (inhabitsPromise_iff hn v).mp (h c hc v hv) d hd hne
  · intro h c hc v hv
    rw [inhabitsPromise_iff hn]
    intro d hd hne
    by_cases hcd : c = d
    · subst hcd
      exact typedFields_of_documented (hv.resolve_left hne)
    · exact h c hc d hd hcd hne v hv

theorem covered_iff_conforms {params params' : List (RoseTree ResponseFields)}
    (h : DistinctSiblings params) :
    (∀ v, Conforms params v → AcceptsObject (typedFields params') v) ↔
      params ≠ [] ∧ coveredFields (typedFields params') (documentedFields params) = true := by
  rw [coveredFields_iff_accepts (distinctNames_of_siblings h)]
  constructor
  · intro hall
    refine ⟨?_, fun v hv => hall v (Or.inr hv)⟩
    rintro rfl
    obtain ⟨kvs, hkvs, _⟩ := hall .null (Or.inl rfl)
    cases hkvs
  · rintro ⟨hne, hall⟩ v hv
    exact hall v (hv.resolve_left hne)

end Codes

theorem id_fits : "id".length ≤ 64 := by decide

def orderApi (refusal : VarChar 64) (type : ParamType) : FetchedApi where
  name := "order"
  method := .get
  path := "/orders"
  description := none
  requestParams _ := []
  statusCodes := [200, 400]
  statusCodes_nodup := by decide
  responseParams statusCode :=
    if statusCode = 200 then
      [.node ⟨200, ⟨"id", id_fits⟩, .int, some true, none, none, none⟩ []]
    else [.node ⟨400, refusal, type, some true, none, none, none⟩ []]

theorem order_siblings {refusal : VarChar 64} {type : ParamType} {statusCode : ℤ} :
    DistinctSiblings ((orderApi refusal type).responseParams statusCode) := by
  rw [orderApi]
  dsimp only
  split <;>
  · refine .intro (List.nodup_singleton _) ?_
    intro t ht
    obtain rfl := List.mem_singleton.mp ht
    exact .intro List.nodup_nil (fun t ht => absurd ht List.not_mem_nil)

theorem order_readable {refusal : VarChar 64} {type : ParamType}
    (h : isWord refusal.val = true) :
    ReadableApi asciiAlphabet plainUppercase (orderApi refusal type) := by
  have hsingle : ∀ f : ResponseFields, isWord (name f) = true →
      truthyText (OpenapiExport.description f) = none →
        SpelledFields asciiAlphabet plainUppercase (Silent asciiAlphabet) [.node f []] := by
    intro f hname hcomment
    refine .intro ?_ ?_ ?_ ?_
    · intro t ht
      obtain rfl := List.mem_singleton.mp ht
      exact Or.inl (identifier_of_isWord hname)
    · intro t ht s hs
      obtain rfl := List.mem_singleton.mp ht
      cases hcomment.symm.trans hs
    · intro t ht hne
      obtain rfl := List.mem_singleton.mp ht
      exact absurd rfl hne
    · intro t ht hne
      obtain rfl := List.mem_singleton.mp ht
      exact absurd rfl hne
  have hname : isWord (capitalizeFirstLetter plainUppercase "order") = true := by decide +kernel
  have hcodes : ∀ statusCode ∈ ([200, 400] : List ℤ), 0 ≤ statusCode := by decide
  refine ⟨identifier_of_isWord hname, fun _ => spelled_nil, ?_, fun c hc _ => hcodes c hc⟩
  intro statusCode _
  rw [orderApi]
  dsimp only
  split
  · exact hsingle _ (by decide +kernel) rfl
  · exact hsingle _ h rfl

end ResponseTypes
