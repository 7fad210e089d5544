import ApiManagement.ScriptLexer
import ApiManagement.ScriptStrings
import ApiManagement.ServiceClass

/-! # Well-formed code

Names, paths and descriptions go into the code as they are. The code has the tokens of its
templates if each of them is valid where it stands, and the editor does not see to that. -/
namespace WellFormedCode

open RowForests CompleteForests ServiceSchema OpenapiExport CodeGenerator InterfaceNames
  MirroredSchemas InterfaceDeclarations ServiceClass ScriptLexer

def typePieces (colon : String) : FieldType → List Piece
  | .builtIn text => [.fixed (colon ++ text ++ ";")]
  | .interface interfaceName => [.fixed colon, .name interfaceName, .fixed ";"]
  | .interfaces interfaceName => [.fixed colon, .name interfaceName, .fixed "[];"]

def fieldPieces (f : FieldDeclaration) : List Piece :=
  let comment :=
    match f.comment with
    | none => []
    | some s => [.fixed "  ", .comment ("* " ++ s ++ " "), .fixed "\n"]
  List.flatten [comment, [.fixed "  ", .name f.name],
    typePieces (if f.isOptional then "?: " else ": ") f.type]

def interfacePieces (i : InterfaceDeclaration) : List Piece :=
  List.flatten [[.fixed "export interface ", .name i.name, .fixed " \x7b\n"],
    interlace "\n" (i.fields.map fieldPieces), [.fixed "\n\x7d"]]

def reqParamPieces (option : ApiOption) : List Piece :=
  match reqInterfaceNameWithValue option with
  | [] => [.fixed ("req?: any" ++ ", options?: T): Promise<")]
  | names => .fixed "req: " :: separated " & " ", options?: T): Promise<" names

def respNames (option : ApiOption) : List String :=
  match option.respInterfaceNames with
  | [] => ["any"]
  | names => names

def paramPieces (field : String) : List Piece :=
  [.text '\'' field, .fixed ": _req[", .text '"' field, .fixed "]"]

def paramsPieces (after : String) : List String → List Piece
  | [] => [.name "undefined", .fixed after]
  | fields =>
    .fixed "\x7b " :: interlace ", " (fields.map paramPieces) ++ [.fixed (" \x7d" ++ after)]

def replacePieces (field : String) : List Piece :=
  [.fixed "\n    if (_req[", .text '"' field, .fixed "] !== undefined && _req[", .text '"' field,
    .fixed " ] !== null) \x7b\n      url = url.replace(", .text '\'' ("\x7b" ++ field ++ "\x7d"),
    .fixed ", String(_req[", .text '"' field, .fixed "]));\n    \x7d"]

def methodPieces (option : ApiOption) : List Piece :=
  List.flatten [
    [.fixed "\n  ", .comment ("* " ++ option.apiDescription ++ " "), .fixed "\n  ",
      .name option.functionName, .fixed "("],
    reqParamPieces option,
    separated " & " ("> \x7b\n" ++ "    const _req = req || \x7b\x7d;\n    ") (respNames option),
    [.fixed "let url = this.genBaseURL(", .text '\'' option.apiPath, .fixed ");"],
    (option.reqFields .path).flatMap replacePieces,
    [.fixed "\n    const method = ", .text '\'' (methodName option.apiMethod),
      .fixed (";\n" ++ "    const data = ")],
    paramsPieces (";\n" ++ "    const params = ") (option.reqFields .body),
    paramsPieces (";\n" ++ "    const headers = ") (option.reqFields .query),
    paramsPieces (";\n" ++
      "    return this.request(\x7b url, method, data, params, headers \x7d, options);\n" ++
      "  \x7d\n        ") (option.reqFields .header)]

def importPieces (apiOptions : List ApiOption) : List Piece :=
  match allImportInterfaces apiOptions with
  | [] => []
  | names => .fixed "import type \x7b " :: separated ", " " \x7d from \"./namespaces\";\n" names

def indexPieces (className : String) (apiOptions : List ApiOption) : List Piece :=
  List.flatten [
    [.fixed (autoGeneratePrefix ++ "\n" ++ "\n")],
    importPieces apiOptions,
    [.fixed "\nexport default class ", .name className,
      .fixed "<T> \x7b\n  private request: any = () => \x7b\n    throw new Error(",
      .text '\'' (className ++ ".request is undefined")],
    classHead.map .fixed,
    apiOptions.flatMap methodPieces,
    [.fixed "\n\x7d;\n    "]]

def declarationsAt (up : Uppercase) (api : FetchedApi) : Place → List InterfaceDeclaration
  | .request location =>
    declarations up (requestInterfaceName up api location) (api.requestParams location)
  | .response statusCode =>
    declarations up (responseInterfaceName up api statusCode) (api.responseParams statusCode)

def apiDeclarations (up : Uppercase) (api : FetchedApi) : List InterfaceDeclaration :=
  (placesOf api).flatMap (declarationsAt up api)

def namespacePieces (up : Uppercase) (apis : List FetchedApi) : List Piece :=
  .fixed autoGeneratePrefix :: apis.flatMap (fun api =>
    .fixed "\n\n" :: interlace "\n\n" ((apiDeclarations up api).map interfacePieces))

section Print

theorem docComment_eq (s : String) : docComment s = "/*" ++ ("* " ++ s ++ " ") ++ "*/" := by
  apply String.toList_inj.mp
  simp [docComment]

theorem print_typePieces (colon : String) (type : FieldType) :
    printAll (typePieces colon type) = colon ++ type.text ++ ";" := by
  have hlist : "[];" = "[]" ++ ";" := rfl
  cases type <;> simp only [typePieces, printAll_cons, printAll_nil, Piece.print, FieldType.text,
    hlist, String.append_assoc, String.append_empty]

theorem print_fieldPieces (f : FieldDeclaration) : printAll (fieldPieces f) = f.text := by
  have hcolon : (if f.isOptional = true then "?: " else ": ") =
      (if f.isOptional = true then "?" else "") ++ ": " := by
    by_cases h : f.isOptional = true
    · rw [if_pos h, if_pos h]
      rfl
    · rw [if_neg h, if_neg h]
      rfl
  have hbefore : "  /** " = "  " ++ "/** " := rfl
  have hafter : " */\n" = " */" ++ "\n" := rfl
  simp only [fieldPieces, FieldDeclaration.text, List.flatten_cons, List.flatten_nil,
    List.append_nil, printAll_append, print_typePieces, hcolon]
  cases f.comment with
  | none => simp only [printAll_cons, printAll_nil, Piece.print, String.append_assoc,
      String.append_empty, String.empty_append]
  | some s =>
    have hcomment : (Piece.comment ("* " ++ s ++ " ")).print = "/** " ++ s ++ " */" :=
      (docComment_eq s).symm
    simp only [printAll_cons, printAll_nil, hcomment]
    simp only [Piece.print, hbefore, hafter, String.append_assoc, String.append_empty]

theorem print_interfacePieces (i : InterfaceDeclaration) :
    printAll (interfacePieces i) = i.print.text := by
  have hfields : (i.fields.map fieldPieces).map printAll = i.fields.map FieldDeclaration.text := by
    rw [List.map_map]
    exact List.map_congr_left (fun f _ => print_fieldPieces f)
  unfold interfacePieces Interface.text
  simp only [List.flatten_cons, List.flatten_nil, printAll_append, printAll_interlace, hfields,
    InterfaceDeclaration.print, printAll_cons, printAll_nil, Piece.print, String.append_assoc,
    String.append_empty]

theorem print_single (s : String) : (Piece.text '\'' s).print = singleQuoted s := rfl

theorem print_double (s : String) : (Piece.text '"' s).print = doubleQuoted s := rfl

theorem print_paramPieces (field : String) : printAll (paramPieces field) = paramCode field := by
  simp only [paramPieces, paramCode, printAll_cons, printAll_nil, print_single, print_double]
  simp only [Piece.print, String.append_assoc, String.append_empty]

theorem print_paramsPieces (after : String) (fields : List String) :
    printAll (paramsPieces after fields) = paramsCode fields ++ after := by
  cases fields with
  | nil => simp only [paramsPieces, paramsCode, printAll_cons, printAll_nil, Piece.print,
      String.append_empty]
  | cons f fs =>
    have hfields : ((f :: fs).map paramPieces).map printAll = (f :: fs).map paramCode := by
      rw [List.map_map]
      exact List.map_congr_left (fun f _ => print_paramPieces f)
    have hpieces : paramsPieces after (f :: fs) = .fixed "\x7b " ::
        interlace ", " ((f :: fs).map paramPieces) ++ [.fixed (" \x7d" ++ after)] := rfl
    have hcode : paramsCode (f :: fs) =
        "\x7b " ++ ", ".intercalate ((f :: fs).map paramCode) ++ " \x7d" := rfl
    rw [hpieces, hcode, printAll_append, printAll_cons, printAll_interlace, hfields]
    simp only [printAll_cons, printAll_nil, Piece.print, String.append_assoc, String.append_empty]

theorem print_replacePieces (field : String) :
    printAll (replacePieces field) = replaceCode field := by
  unfold replacePieces replaceCode
  simp only [printAll_cons, printAll_nil, print_single, print_double]
  simp only [Piece.print, String.append_assoc, String.append_empty]

theorem print_reqParamPieces (option : ApiOption) : printAll (reqParamPieces option) =
    reqParamDef option ++ ", options?: T): Promise<" := by
  rw [reqParamPieces, reqParamDef]
  cases reqInterfaceNameWithValue option with
  | nil => simp only [printAll_cons, printAll_nil, Piece.print, String.append_empty]
  | cons n ns =>
    simp only [printAll_cons, printAll_separated, Piece.print, String.append_assoc]

theorem intercalate_respNames (option : ApiOption) :
    " & ".intercalate (respNames option) = respInterfaceName option := by
  rw [respNames, respInterfaceName]
  cases option.respInterfaceNames with
  | nil => exact String.intercalate_singleton
  | cons n ns => rfl

theorem print_methodPieces (option : ApiOption) :
    printAll (methodPieces option) = apiFunctionCode option := by
  have hcomment : (Piece.comment ("* " ++ option.apiDescription ++ " ")).print =
      docComment option.apiDescription := (docComment_eq _).symm
  have hreplace : printAll ((option.reqFields .path).flatMap replacePieces) =
      String.join ((option.reqFields .path).map replaceCode) := by
    rw [printAll_flatMap]
    exact congrArg _ (List.map_congr_left (fun f _ => print_replacePieces f))
  unfold methodPieces apiFunctionCode urlCode
  simp only [List.flatten_cons, List.flatten_nil, printAll_append, hreplace,
    print_reqParamPieces, printAll_separated, intercalate_respNames, print_paramsPieces,
    printAll_cons, printAll_nil, print_single, hcomment]
  simp only [Piece.print, String.append_assoc, String.append_empty]

theorem print_importPieces (apiOptions : List ApiOption) :
    printAll (importPieces apiOptions) = importCode apiOptions := by
  rw [importPieces, importCode]
  cases allImportInterfaces apiOptions with
  | nil => rfl
  | cons n ns => simp only [printAll_cons, printAll_separated, Piece.print, String.append_assoc]

theorem print_fixed (l : List String) : printAll (l.map .fixed) = String.join l := by
  rw [printAll, List.map_map]
  exact congrArg _ (List.map_id l)

theorem print_indexPieces (up : Uppercase) (serviceName : String) (apis : List FetchedApi) :
    printAll (indexPieces (className up serviceName)
      (apis.map (fun api => (generateTSCode up api).apiOption))) =
      indexCode up serviceName apis := by
  have hmethods : ∀ options : List ApiOption, printAll (options.flatMap methodPieces) =
      String.join (options.map apiFunctionCode) := by
    intro options
    rw [printAll_flatMap]
    exact congrArg _ (List.map_congr_left (fun option _ => print_methodPieces option))
  unfold indexPieces indexCode serviceClassCode
  simp only [List.flatten_cons, List.flatten_nil, printAll_append, print_importPieces, hmethods,
    print_fixed, printAll_cons, printAll_nil, print_single]
  simp only [Piece.print, String.append_assoc, String.append_empty]

theorem namespaces_print (up : Uppercase) (api : FetchedApi) :
    (generateTSCode up api).namespaces =
      (apiDeclarations up api).map InterfaceDeclaration.print := by
  rw [namespaces_eq, apiDeclarations, List.map_flatMap]
  refine List.flatMap_congr ?_
  intro place _
  cases place with
  | request location => exact generateInterface_eq _ _ _
  | response statusCode => exact generateInterface_eq _ _ _

theorem print_namespacePieces (up : Uppercase) (apis : List FetchedApi) :
    printAll (namespacePieces up apis) = namespaceCode up apis := by
  have hapi : ∀ api, printAll (.fixed "\n\n" ::
      interlace "\n\n" ((apiDeclarations up api).map interfacePieces)) =
        "\n\n" ++ namespaceCodeForThisApi up api := by
    intro api
    have hinterfaces : ((apiDeclarations up api).map interfacePieces).map printAll =
        (generateTSCode up api).namespaces.map Interface.text := by
      rw [namespaces_print, List.map_map, List.map_map]
      exact List.map_congr_left (fun i _ => print_interfacePieces i)
    rw [printAll_cons, printAll_interlace, hinterfaces, namespaceCodeForThisApi, Piece.print]
  have hfold : ∀ (l : List FetchedApi) (code : String),
      l.foldl (fun code api => code ++ ("\n\n" ++ namespaceCodeForThisApi up api)) code =
        code ++ String.join (l.map (fun api => "\n\n" ++ namespaceCodeForThisApi up api)) := by
    intro l
    induction l with
    | nil => exact fun code => (String.append_empty).symm
    | cons api l ih =>
      intro code
      rw [List.foldl_cons, ih, List.map_cons, String.join_cons, String.append_assoc]
  rw [namespacePieces, printAll_cons, printAll_flatMap, namespaceCode, hfold, Piece.print]
  exact congrArg _ (congrArg _ (List.map_congr_left (fun api _ => hapi api)))

end Print

section Valid

variable (a : Alphabet)

structure SpelledDeclaration (admits : String → Prop) (i : InterfaceDeclaration) : Prop where
  name : Identifier a i.name
  keys : ∀ f ∈ i.fields, PropertyName a f.name
  comments : ∀ f ∈ i.fields, ∀ s, f.comment = some s → admits s

def ValidDeclaration (i : InterfaceDeclaration) : Prop := SpelledDeclaration a Commentable i

structure ValidMethod (option : ApiOption) : Prop where
  name : Identifier a option.functionName
  description : Commentable option.apiDescription
  path : Inside '\'' option.apiPath
  fields : ∀ location, ∀ f ∈ option.reqFields location,
    Inside '\'' f ∧ Inside '"' f ∧ Inside '\'' ("\x7b" ++ f ++ "\x7d")

variable {a}

theorem commentable_doc {s : String} : Commentable ("* " ++ s ++ " ") ↔ Commentable s := by
  have hlist : ("* " ++ s ++ " ").toList = '*' :: ' ' :: (s.toList ++ [' ']) := by
    rw [String.toList_append, String.toList_append]
    rfl
  rw [Commentable, Commentable, hlist, not_iff_not]
  constructor
  · intro h
    rcases List.infix_cons_iff.mp h with h | h
    · simp at h
    rcases List.infix_cons_iff.mp h with h | h
    · simp at h
    rcases List.infix_concat_iff.mp h with h | h
    · obtain ⟨before, he⟩ := h
      have hlast := congrArg List.getLast? he
      simp at hlast
    · exact h
  · rintro ⟨before, after, he⟩
    exact ⟨'*' :: ' ' :: before, after ++ [' '], by simp [← he]⟩

section Read

theorem readable_type {colon : String} (hcolon : colon = ": " ∨ colon = "?: ") {n : String}
    (hn : PropertyName a n) {ds : List InterfaceDeclaration}
    (hds : ∀ i ∈ ds, Identifier a i.name) {type : FieldType} (ht : TypeIn ds type) :
    Readable a (.name n :: typePieces colon type) := by
  have hapart : ∀ s, startsApart (colon ++ s) = true := by
    intro s
    rcases hcolon with rfl | rfl <;> rw [startsApart, String.toList_append] <;> rfl
  have hcomplete : Complete colon = true := by
    rcases hcolon with rfl | rfl <;> decide +kernel
  have hreferred : ∀ m ∈ ds.map InterfaceDeclaration.name, PropertyName a m := by
    intro m hm
    obtain ⟨i, hi, rfl⟩ := List.mem_map.mp hm
    exact Or.inl (hds i hi)
  cases type with
  | builtIn text =>
    have htext : Complete (colon ++ text ++ ";") = true := by
      obtain ⟨b, hb, ht⟩ := ht
      simp only [builtInTypes, List.mem_cons, List.not_mem_nil, or_false] at hb
      rcases hb with rfl | rfl | rfl | rfl <;> rcases ht with rfl | rfl | rfl <;>
        rcases hcolon with rfl | rfl <;> decide +kernel
    rw [typePieces]
    refine .name hn htext ?_ .nil
    rw [String.append_assoc]
    exact hapart _
  | interface m =>
    have happ : colon = colon ++ "" := String.append_empty.symm
    exact .name hn hcomplete (happ ▸ hapart "")
      (.name (hreferred m ht) (by decide +kernel) (by decide +kernel) .nil)
  | interfaces m =>
    have happ : colon = colon ++ "" := String.append_empty.symm
    exact .name hn hcomplete (happ ▸ hapart "")
      (.name (hreferred m ht) (by decide +kernel) (by decide +kernel) .nil)

theorem readable_interface {i : InterfaceDeclaration} {ds : List InterfaceDeclaration}
    (hi : ValidDeclaration a i) (hds : ∀ j ∈ ds, Identifier a j.name)
    (ht : ∀ f ∈ i.fields, TypeIn ds f.type) : Readable a (interfacePieces i) := by
  have hfields : ∀ ps ∈ i.fields.map fieldPieces, Readable a ps := by
    intro ps hps
    obtain ⟨f, hf, rfl⟩ := List.mem_map.mp hps
    have hcolon : (if f.isOptional = true then "?: " else ": ") = ": " ∨
        (if f.isOptional = true then "?: " else ": ") = "?: " := by
      by_cases h : f.isOptional = true <;> simp [h]
    have htype : Readable a (.fixed "  " :: .name f.name ::
        typePieces (if f.isOptional = true then "?: " else ": ") f.type) :=
      .fixed (by decide +kernel) (readable_type hcolon (hi.keys f hf) hds (ht f hf))
    cases hc : f.comment with
    | none => simpa [fieldPieces, hc] using htype
    | some s =>
      have hcomment : Commentable ("* " ++ s ++ " ") :=
        commentable_doc.mpr (hi.comments f hf s hc)
      have hall : Readable a (.fixed "  " :: .comment ("* " ++ s ++ " ") :: .fixed "\n" ::
          .fixed "  " :: .name f.name ::
            typePieces (if f.isOptional = true then "?: " else ": ") f.type) :=
        .fixed (by decide +kernel) (.comment hcomment (.fixed (by decide +kernel) htype))
      simpa [fieldPieces, hc] using hall
  have hbody : Readable a (interlace "\n" (i.fields.map fieldPieces)) :=
    Readable.interlace (by decide +kernel) hfields
  have hall : Readable a (.fixed "export interface " :: .name i.name :: .fixed " \x7b\n" ::
      (interlace "\n" (i.fields.map fieldPieces) ++ [.fixed "\n\x7d"])) :=
    .fixed (by decide +kernel) (.name (Or.inl hi.name) (by decide +kernel) (by decide +kernel)
      (hbody.append (.fixed (by decide +kernel) .nil)))
  simpa [interfacePieces] using hall

theorem readable_params {after : String} (hafter : Complete after = true)
    (hapart : startsApart after = true) (hbrace : Complete (" \x7d" ++ after) = true)
    {fields : List String} (h : ∀ f ∈ fields, Inside '\'' f ∧ Inside '"' f) :
    Readable a (paramsPieces after fields) := by
  cases fields with
  | nil =>
    exact .name (Or.inl (identifier_of_isWord (by decide +kernel))) hafter hapart .nil
  | cons f fs =>
    have hfields : ∀ ps ∈ (f :: fs).map paramPieces, Readable a ps := by
      intro ps hps
      obtain ⟨g, hg, rfl⟩ := List.mem_map.mp hps
      exact .text (Or.inr rfl) (h g hg).1 (.fixed (by decide +kernel)
        (.text (Or.inl rfl) (h g hg).2 (.fixed (by decide +kernel) .nil)))
    have hbody : Readable a (interlace ", " ((f :: fs).map paramPieces)) :=
      Readable.interlace (by decide +kernel) hfields
    exact .fixed (by decide +kernel) (hbody.append (.fixed hbrace .nil))

theorem readable_replace {f : String} (h : Inside '"' f)
    (hbraces : Inside '\'' ("\x7b" ++ f ++ "\x7d")) : Readable a (replacePieces f) :=
  .fixed (by decide +kernel) (.text (Or.inl rfl) h (.fixed (by decide +kernel)
    (.text (Or.inl rfl) h (.fixed (by decide +kernel) (.text (Or.inr rfl) hbraces
      (.fixed (by decide +kernel) (.text (Or.inl rfl) h (.fixed (by decide +kernel) .nil))))))))

theorem readable_reqParam {option : ApiOption}
    (h : ∀ n ∈ reqInterfaceNameWithValue option, Identifier a n) :
    Readable a (reqParamPieces option) := by
  rw [reqParamPieces]
  cases hn : reqInterfaceNameWithValue option with
  | nil => exact .fixed (by decide +kernel) .nil
  | cons n ns =>
    rw [hn] at h
    exact .fixed (by decide +kernel) (Readable.separated (by decide +kernel) (by decide +kernel)
      (by decide +kernel) (by decide +kernel) (fun m hm => Or.inl (h m hm)))

theorem readable_resp {option : ApiOption} (h : ∀ n ∈ option.respInterfaceNames, Identifier a n) :
    Readable a (separated " & " ("> \x7b\n" ++ "    const _req = req || \x7b\x7d;\n    ")
      (respNames option)) := by
  refine Readable.separated (by decide +kernel) (by decide +kernel) (by decide +kernel)
    (by decide +kernel) ?_
  intro n hn
  rw [respNames] at hn
  cases hr : option.respInterfaceNames with
  | nil =>
    rw [hr] at hn
    obtain rfl := List.mem_singleton.mp hn
    exact Or.inl (identifier_of_isWord (by decide +kernel))
  | cons m ms =>
    rw [hr] at hn h
    exact Or.inl (h n hn)

theorem readable_method {option : ApiOption} (h : ValidMethod a option)
    (hreq : ∀ n ∈ reqInterfaceNameWithValue option, Identifier a n)
    (hresp : ∀ n ∈ option.respInterfaceNames, Identifier a n) :
    Readable a (methodPieces option) := by
  have hpath : Readable a ((option.reqFields .path).flatMap replacePieces) :=
    Readable.flatMap (fun f hf =>
      readable_replace (h.fields .path f hf).2.1 (h.fields .path f hf).2.2)
  have hquoted : ∀ location, ∀ f ∈ option.reqFields location, Inside '\'' f ∧ Inside '"' f :=
    fun location f hf => ⟨(h.fields location f hf).1, (h.fields location f hf).2.1⟩
  have hmethod : Inside '\'' (methodName option.apiMethod) := by
    cases option.apiMethod <;> decide +kernel
  have hhead : Readable a [.fixed "\n  ", .comment ("* " ++ option.apiDescription ++ " "),
      .fixed "\n  ", .name option.functionName, .fixed "("] :=
    .fixed (by decide +kernel) (.comment (commentable_doc.mpr h.description)
      (.fixed (by decide +kernel) (.name (Or.inl h.name) (by decide +kernel) (by decide +kernel)
        .nil)))
  have hurl : Readable a [.fixed "let url = this.genBaseURL(", .text '\'' option.apiPath,
      .fixed ");"] :=
    .fixed (by decide +kernel) (.text (Or.inr rfl) h.path (.fixed (by decide +kernel) .nil))
  have hconst : Readable a [.fixed "\n    const method = ",
      .text '\'' (methodName option.apiMethod), .fixed (";\n" ++ "    const data = ")] :=
    .fixed (by decide +kernel) (.text (Or.inr rfl) hmethod (.fixed (by decide +kernel) .nil))
  unfold methodPieces
  simp only [List.flatten_cons, List.flatten_nil, List.append_nil]
  refine hhead.append ((readable_reqParam hreq).append ((readable_resp hresp).append
    (hurl.append (hpath.append (hconst.append ?_)))))
  refine (readable_params (by decide +kernel) (by decide +kernel) (by decide +kernel)
    (hquoted .body)).append ?_
  refine (readable_params (by decide +kernel) (by decide +kernel) (by decide +kernel)
    (hquoted .query)).append ?_
  exact readable_params (by decide +kernel) (by decide +kernel) (by decide +kernel)
    (hquoted .header)

end Read

end Valid

section Writable

variable (a : Alphabet) (up : Uppercase)

/-- What the fields of one object have to be: the name of a nested object goes on the name of the
interface around it. -/
inductive SpelledFields {F : Type} [DescribedFields F] (admits : String → Prop) :
    List (RoseTree F) → Prop where
  | intro {params} : (∀ t ∈ params, PropertyName a (name t.value)) →
      (∀ t ∈ params, ∀ s, truthyText (description t.value) = some s → admits s) →
      (∀ t ∈ params, nestedSuffix up t.value t.children ≠ none →
        Continued a (capitalizeFirstLetter up (name t.value))) →
      (∀ t ∈ params, nestedSuffix up t.value t.children ≠ none →
        SpelledFields admits t.children) →
      SpelledFields admits params

def WritableFields {F : Type} [DescribedFields F] (params : List (RoseTree F)) : Prop :=
  SpelledFields a up Commentable params

structure WritableApi (api : FetchedApi) : Prop where
  name : Identifier a (capitalizeFirstLetter up api.name)
  path : Inside '\'' api.path
  description : Commentable (api.description.getD "")
  requests : ∀ location, WritableFields a up (api.requestParams location)
  responses : ∀ statusCode ∈ api.statusCodes, WritableFields a up (api.responseParams statusCode)
  statusCodes : ∀ statusCode ∈ api.statusCodes,
    (api.responseParams statusCode).isEmpty = false → 0 ≤ statusCode

structure Writable (serviceName : String) (apis : List FetchedApi) : Prop where
  serviceName : serviceName = "" ∨ Identifier a (capitalizeFirstLetter up serviceName)
  apis : ∀ api ∈ apis, WritableApi a up api

variable {a up} {admits : String → Prop} {F : Type} [DescribedFields F]

theorem capitalize_ne_empty {s : String} (hs : s ≠ "") : capitalizeFirstLetter up s ≠ "" := by
  intro he
  cases hl : s.toList with
  | nil => exact hs (String.toList_inj.mp hl)
  | cons c cs =>
    obtain ⟨d, ds, hd, _⟩ := up.upper_fixed c
    have hlist := congrArg String.toList he
    rw [capitalizeFirstLetter, hl] at hlist
    simp [hd] at hlist

theorem continued_append {s t : String} :
    Continued a (s ++ t) ↔ Continued a s ∧ Continued a t := by
  simp only [Continued, String.toList_append, List.mem_append, or_imp, forall_and]

theorem continued_suffix {f : F} {ts : List (RoseTree F)} {suffix : String}
    (hs : nestedSuffix up f ts = some suffix) :
    Continued a suffix ↔ Continued a (capitalizeFirstLetter up (name f)) := by
  rw [nestedSuffix] at hs
  split at hs
  · cases hs
  split at hs
  · rw [← Option.some.inj hs]
  · rw [← Option.some.inj hs, continued_append]
    exact and_iff_left (continued_of_isContinued (by decide +kernel))
  · cases hs

/-- The declarations of an object are valid if its fields are and those of the objects in it. -/
theorem spelled_of_nested {n : String} {params : List (RoseTree F)}
    (h : capitalizeFirstLetter up n = n) (hn : Identifier a n)
    (hnested : ∀ t ∈ params, ∀ suffix, nestedSuffix up t.value t.children = some suffix →
      ((∀ i ∈ declarations up (n ++ suffix) t.children, SpelledDeclaration a admits i) ↔
        Continued a suffix ∧ SpelledFields a up admits t.children)) :
    (∀ i ∈ declarations up n params, SpelledDeclaration a admits i) ↔
      SpelledFields a up admits params := by
  constructor
  · intro hall
    have hown := hall _ (declarationOf_mem h params)
    have hbelow : ∀ t ∈ params, ∀ suffix, nestedSuffix up t.value t.children = some suffix →
        Continued a suffix ∧ SpelledFields a up admits t.children := by
      intro t ht suffix hs
      exact (hnested t ht suffix hs).mp (fun i hi => hall i (nested_subset h ht hs hi))
    refine .intro ?_ ?_ ?_ ?_
    · exact fun t ht => hown.keys _ (List.mem_map_of_mem ht)
    · exact fun t ht s hs => hown.comments _ (List.mem_map_of_mem ht) s hs
    · intro t ht hne
      obtain ⟨suffix, hs⟩ := Option.ne_none_iff_exists'.mp hne
      exact (continued_suffix hs).mp (hbelow t ht suffix hs).1
    · intro t ht hne
      obtain ⟨suffix, hs⟩ := Option.ne_none_iff_exists'.mp hne
      exact (hbelow t ht suffix hs).2
  · rintro ⟨hnames, hcomments, hcontinued, hchildren⟩ i hi
    rcases (mem_declarations h).mp hi with rfl | ⟨t, ht, suffix, hs, hi⟩
    · refine ⟨hn, ?_, ?_⟩
      · intro f hf
        obtain ⟨t, ht, rfl⟩ := List.mem_map.mp hf
        exact hnames t ht
      · intro f hf s hs
        obtain ⟨t, ht, rfl⟩ := List.mem_map.mp hf
        exact hcomments t ht s hs
    · have hne : nestedSuffix up t.value t.children ≠ none := by
        rw [hs]
        exact Option.some_ne_none suffix
      exact (hnested t ht suffix hs).mpr
        ⟨(continued_suffix hs).mpr (hcontinued t ht hne), hchildren t ht hne⟩ i hi

/-- A name that goes on another one has to continue it. -/
theorem spelled_extended {n m : String} {params : List (RoseTree F)} (hn : Identifier a n)
    (h : capitalizeFirstLetter up (n ++ m) = n ++ m)
    (hiff : Identifier a (n ++ m) → ((∀ i ∈ declarations up (n ++ m) params,
      SpelledDeclaration a admits i) ↔ SpelledFields a up admits params)) :
    (∀ i ∈ declarations up (n ++ m) params, SpelledDeclaration a admits i) ↔
      Continued a m ∧ SpelledFields a up admits params := by
  have hne : n ≠ "" := by
    rintro rfl
    obtain ⟨c, cs, hl, _⟩ := hn
    cases hl
  constructor
  · intro hall
    have hown := (hall _ (declarationOf_mem h params)).name
    exact ⟨((identifier_append hne).mp hown).2, (hiff hown).mp hall⟩
  · rintro ⟨hcontinued, hparams⟩
    exact (hiff ((identifier_append hne).mpr ⟨hn, hcontinued⟩)).mpr hparams

theorem spelled_declarations {n : String} (h : capitalizeFirstLetter up n = n)
    (hn : Identifier a n) (params : List (RoseTree F)) :
    (∀ i ∈ declarations up n params, SpelledDeclaration a admits i) ↔
      SpelledFields a up admits params := by
  have hnested : ∀ t : RoseTree F, ∀ n, capitalizeFirstLetter up n = n → Identifier a n →
      ∀ suffix, nestedSuffix up t.value t.children = some suffix →
        ((∀ i ∈ declarations up (n ++ suffix) t.children, SpelledDeclaration a admits i) ↔
          Continued a suffix ∧ SpelledFields a up admits t.children) := by
    intro t
    induction t using tree_induction with
    | node f ts ih =>
      intro n h hn suffix hs
      have hstable := nested_stable h hs
      exact spelled_extended hn hstable
        (fun hown => spelled_of_nested hstable hown (fun u hu => ih u hu _ hstable hown))
  exact spelled_of_nested h hn (fun t _ => hnested t n h hn)

def SpelledAt (a : Alphabet) (up : Uppercase) (admits : String → Prop)
    (api : FetchedApi) : Place → Prop
  | .request location => SpelledFields a up admits (api.requestParams location)
  | .response statusCode => SpelledFields a up admits (api.responseParams statusCode)

theorem spelled_at {api : FetchedApi} (h : Identifier a (capitalizeFirstLetter up api.name))
    (place : Place) : (∀ i ∈ declarationsAt up api place, SpelledDeclaration a admits i) ↔
      Continued a (middle up place) ∧ SpelledAt a up admits api place := by
  have hstable : capitalizeFirstLetter up (capitalizeFirstLetter up api.name ++ middle up place) =
      capitalizeFirstLetter up api.name ++ middle up place :=
    capitalize_of_capitalized (capitalized_join (middle_capitalized place))
  cases place with
  | request location =>
    rw [declarationsAt, requestInterfaceName, String.append_assoc]
    exact spelled_extended h hstable (fun hown => spelled_declarations hstable hown _)
  | response statusCode =>
    rw [declarationsAt, responseInterfaceName, String.append_assoc]
    exact spelled_extended h hstable (fun hown => spelled_declarations hstable hown _)

theorem continued_middle {place : Place} :
    Continued a (middle up place) ↔ ∀ c, place = .response c → 0 ≤ c := by
  have hword : Continued a "Request" := continued_of_isContinued (by decide +kernel)
  cases place with
  | request location =>
    have hkey : Continued a (capitalizeFirstLetter up (locationKey location)) := by
      refine continued_of_isContinued ?_
      cases location <;> simp [capitalizeFirstLetter, locationKey, up.upper_ascii] <;>
        decide +kernel
    rw [middle, continued_append]
    refine ⟨fun _ c hc => ?_, fun _ => ⟨hkey, hword⟩⟩
    cases hc
  | response c =>
    have hresponse : Continued a "Response" := continued_of_isContinued (by decide +kernel)
    rw [middle, continued_append, and_iff_left hresponse]
    constructor
    · intro hcontinued d hd
      cases hd
      by_contra hneg
      obtain ⟨n, rfl⟩ := Int.eq_negSucc_of_lt_zero (by omega : c < 0)
      have hcons : (toString (Int.negSucc n)).toList = '-' :: (n + 1).repr.toList :=
        String.toList_append
      have hminus := hcontinued '-' (hcons ▸ List.mem_cons_self)
      rw [a.continues_ascii _ (by decide)] at hminus
      exact absurd hminus (by decide)
    · intro hc d hd
      obtain ⟨n, rfl⟩ := Int.eq_ofNat_of_zero_le (hc c rfl)
      have hd : d ∈ Nat.toDigits 10 n := by rwa [← Nat.toList_repr]
      have hdigit := Nat.isDigit_of_mem_toDigits (by decide) (by decide) hd
      have hrange := Char.isDigit_iff_toNat.mp hdigit
      have h9 : '9'.toNat = 57 := rfl
      rw [a.continues_ascii d (by omega)]
      simp [Char.isAlphanum, hdigit]

theorem mem_placesOf {api : FetchedApi} {place : Place} : place ∈ placesOf api ↔
    (∃ l, place = .request l ∧ (api.requestParams l).isEmpty = false) ∨
      ∃ c ∈ api.statusCodes, place = .response c ∧ (api.responseParams c).isEmpty = false := by
  have hall : ∀ l, l ∈ locations := by
    intro l
    cases l <;> decide
  simp only [placesOf, List.mem_append, List.mem_map, List.mem_filter, Bool.not_eq_true', hall,
    true_and]
  constructor
  · rintro (⟨l, hl, rfl⟩ | ⟨c, ⟨hc, hne⟩, rfl⟩)
    · exact Or.inl ⟨l, rfl, hl⟩
    · exact Or.inr ⟨c, hc, rfl, hne⟩
  · rintro (⟨l, rfl, hl⟩ | ⟨c, hc, rfl, hne⟩)
    · exact Or.inl ⟨l, hl, rfl⟩
    · exact Or.inr ⟨c, ⟨hc, hne⟩, rfl⟩

theorem spelled_nil : SpelledFields a up admits ([] : List (RoseTree F)) :=
  .intro (fun _ ht => nomatch ht) (fun _ ht => nomatch ht) (fun _ ht => nomatch ht)
    (fun _ ht => nomatch ht)

/-- The interfaces of an api are valid if its fields are. -/
theorem spelled_apiDeclarations {api : FetchedApi}
    (h : Identifier a (capitalizeFirstLetter up api.name)) :
    (∀ i ∈ apiDeclarations up api, SpelledDeclaration a admits i) ↔
      (∀ location, SpelledFields a up admits (api.requestParams location)) ∧
      (∀ statusCode ∈ api.statusCodes, SpelledFields a up admits (api.responseParams statusCode)) ∧
      ∀ statusCode ∈ api.statusCodes, (api.responseParams statusCode).isEmpty = false →
        0 ≤ statusCode := by
  have hplaces : (∀ i ∈ apiDeclarations up api, SpelledDeclaration a admits i) ↔
      ∀ place ∈ placesOf api, Continued a (middle up place) ∧ SpelledAt a up admits api place := by
    simp only [apiDeclarations, List.mem_flatMap, ← spelled_at h]
    exact ⟨fun hall place hp i hi => hall i ⟨place, hp, hi⟩,
      fun hall i ⟨place, hp, hi⟩ => hall place hp i hi⟩
  rw [hplaces]
  constructor
  · intro hall
    refine ⟨?_, ?_, ?_⟩
    · intro location
      by_cases hempty : api.requestParams location = []
      · rw [hempty]
        exact spelled_nil
      · exact (hall (.request location)
          (mem_placesOf.mpr (Or.inl ⟨location, rfl, by simpa using hempty⟩))).2
    · intro c hc
      by_cases hempty : api.responseParams c = []
      · rw [hempty]
        exact spelled_nil
      · exact (hall (.response c)
          (mem_placesOf.mpr (Or.inr ⟨c, hc, rfl, by simpa using hempty⟩))).2
    · intro c hc hne
      exact continued_middle.mp (hall (.response c)
        (mem_placesOf.mpr (Or.inr ⟨c, hc, rfl, hne⟩))).1 c rfl
  · rintro ⟨hrequests, hresponses, hcodes⟩ place hplace
    rcases mem_placesOf.mp hplace with ⟨l, rfl, _⟩ | ⟨c, hc, rfl, hne⟩
    · exact ⟨continued_middle.mpr (fun c hc => nomatch hc), hrequests l⟩
    · refine ⟨continued_middle.mpr ?_, hresponses c hc⟩
      intro d hd
      cases hd
      exact hcodes c hc hne

end Writable

section Files

variable (a : Alphabet) (up : Uppercase)

/-- Names, keys, descriptions and paths are valid where they stand, and both files have the
tokens of their templates, with each of them as one token. -/
structure WellFormed (serviceName : String) (apis : List FetchedApi) : Prop where
  interfaces : ∀ api ∈ apis, ∀ i ∈ apiDeclarations up api, ValidDeclaration a i
  className : Identifier a (className up serviceName)
  methods : ∀ api ∈ apis, ValidMethod a (generateTSCode up api).apiOption
  namespaceTokens : lex a (namespaceCode up apis) =
    some ((namespacePieces up apis).flatMap Piece.tokens)
  indexTokens : lex a (indexCode up serviceName apis) =
    some ((indexPieces (ServiceClass.className up serviceName)
      (apis.map (fun api => (generateTSCode up api).apiOption))).flatMap Piece.tokens)

theorem stable_at (api : FetchedApi) (place : Place) :
    capitalizeFirstLetter up (capitalizeFirstLetter up api.name ++ middle up place) =
      capitalizeFirstLetter up api.name ++ middle up place :=
  capitalize_of_capitalized (capitalized_join (middle_capitalized place))

/-- The first interface of a place has the name that the method uses. -/
theorem name_mem_declarations {api : FetchedApi} {place : Place} (hp : place ∈ placesOf api) :
    capitalizeFirstLetter up api.name ++ middle up place ∈
      (apiDeclarations up api).map InterfaceDeclaration.name := by
  have hstable := stable_at up api place
  refine List.mem_map.mpr ?_
  cases place with
  | request l =>
    rw [middle, ← String.append_assoc] at hstable ⊢
    exact ⟨_, List.mem_flatMap.mpr ⟨_, hp, declarationOf_mem hstable _⟩, rfl⟩
  | response c =>
    rw [middle, ← String.append_assoc] at hstable ⊢
    exact ⟨_, List.mem_flatMap.mpr ⟨_, hp, declarationOf_mem hstable _⟩, rfl⟩

variable {a up}

theorem identifier_of_mem {api : FetchedApi} {n : String}
    (h : ∀ i ∈ apiDeclarations up api, ValidDeclaration a i)
    (hn : n ∈ (apiDeclarations up api).map InterfaceDeclaration.name) : Identifier a n := by
  obtain ⟨i, hi, rfl⟩ := List.mem_map.mp hn
  exact (h i hi).name

theorem reqNames_identifier {api : FetchedApi}
    (h : ∀ i ∈ apiDeclarations up api, ValidDeclaration a i) :
    ∀ n ∈ reqInterfaceNameWithValue (generateTSCode up api).apiOption, Identifier a n := by
  intro n hn
  obtain ⟨hn, hne⟩ := List.mem_filter.mp hn
  obtain ⟨l, _, rfl⟩ := List.mem_map.mp hn
  by_cases hempty : (api.requestParams l).isEmpty = true
  · have hnone : (generateTSCode up api).apiOption.reqInterfaceName l = "" := if_pos hempty
    rw [hnone] at hne
    exact absurd hne (by decide)
  · have hmem := name_mem_declarations up
      (mem_placesOf.mpr (Or.inl ⟨l, rfl, Bool.eq_false_iff.mpr hempty⟩))
    rw [middle, ← String.append_assoc] at hmem
    simp only [generateTSCode, if_neg hempty]
    exact identifier_of_mem h hmem

theorem respNames_mem {api : FetchedApi} {n : String}
    (hn : n ∈ (generateTSCode up api).apiOption.respInterfaceNames) :
    n ∈ (apiDeclarations up api).map InterfaceDeclaration.name := by
  obtain ⟨c, hc, rfl⟩ := List.mem_map.mp hn
  obtain ⟨hc, hne⟩ := List.mem_filter.mp hc
  have hmem := name_mem_declarations up
    (mem_placesOf.mpr (Or.inr ⟨c, hc, rfl, by simpa using hne⟩))
  rwa [middle, ← String.append_assoc] at hmem

theorem respNames_identifier {api : FetchedApi}
    (h : ∀ i ∈ apiDeclarations up api, ValidDeclaration a i) :
    ∀ n ∈ (generateTSCode up api).apiOption.respInterfaceNames, Identifier a n :=
  fun _ hn => identifier_of_mem h (respNames_mem hn)

theorem closed_at (api : FetchedApi) (place : Place) : Closed (declarationsAt up api place) := by
  have hstable := stable_at up api place
  cases place with
  | request l =>
    rw [middle, ← String.append_assoc] at hstable
    exact declarations_closed hstable _
  | response c =>
    rw [middle, ← String.append_assoc] at hstable
    exact declarations_closed hstable _

theorem closed_api (up : Uppercase) (api : FetchedApi) : Closed (apiDeclarations up api) := by
  constructor
  · intro i hi f hf
    obtain ⟨place, hplace, hi⟩ := List.mem_flatMap.mp hi
    exact ((closed_at api place).types i hi f hf).mono
      (fun j hj => List.mem_flatMap.mpr ⟨place, hplace, hj⟩)
  · intro i hi
    obtain ⟨place, _, hi⟩ := List.mem_flatMap.mp hi
    exact (closed_at api place).names i hi

theorem mem_setOf {names : List String} {n : String} (hn : n ∈ setOf names) : n ∈ names := by
  have hfold : ∀ (l set : List String),
      n ∈ l.foldl (fun set name => if name ∈ set then set else set ++ [name]) set →
        n ∈ set ∨ n ∈ l := by
    intro l
    induction l with
    | nil => exact fun set h => Or.inl h
    | cons m l ih =>
      intro set h
      rw [List.foldl_cons] at h
      by_cases hm : m ∈ set
      · rw [if_pos hm] at h
        exact (ih _ h).imp id (List.mem_cons_of_mem _)
      · rw [if_neg hm] at h
        rcases ih _ h with h | h
        · rcases List.mem_append.mp h with h | h
          · exact Or.inl h
          · exact Or.inr (List.mem_singleton.mp h ▸ List.mem_cons_self)
        · exact Or.inr (List.mem_cons_of_mem _ h)
  exact (hfold names [] hn).resolve_left (List.not_mem_nil)

theorem readable_namespaces {apis : List FetchedApi}
    (h : ∀ api ∈ apis, ∀ i ∈ apiDeclarations up api, ValidDeclaration a i) :
    Readable a (namespacePieces up apis) := by
  refine .fixed (by decide +kernel) (Readable.flatMap ?_)
  intro api hapi
  refine .fixed (by decide +kernel) (Readable.interlace (by decide +kernel) ?_)
  intro ps hps
  obtain ⟨i, hi, rfl⟩ := List.mem_map.mp hps
  obtain ⟨place, hplace, hi'⟩ := List.mem_flatMap.mp hi
  have hnames : ∀ j ∈ declarationsAt up api place, Identifier a j.name :=
    fun j hj => (h api hapi j (List.mem_flatMap.mpr ⟨place, hplace, hj⟩)).name
  exact readable_interface (h api hapi i hi) hnames ((closed_at api place).types i hi')

theorem readable_classHead : Readable a (classHead.map .fixed) := by
  have hall : ∀ l : List String, l.all Complete = true → Readable a (l.map .fixed) := by
    intro l
    induction l with
    | nil => exact fun _ => .nil
    | cons s l ih =>
      intro h
      rw [List.all_cons, Bool.and_eq_true] at h
      exact .fixed h.1 (ih h.2)
  exact hall classHead (by decide +kernel)

theorem readable_index {serviceName : String} {apis : List FetchedApi}
    (hinterfaces : ∀ api ∈ apis, ∀ i ∈ apiDeclarations up api, ValidDeclaration a i)
    (hclass : Identifier a (className up serviceName))
    (hmethods : ∀ api ∈ apis, ValidMethod a (generateTSCode up api).apiOption) :
    Readable a (indexPieces (className up serviceName)
      (apis.map (fun api => (generateTSCode up api).apiOption))) := by
  have hmethodPieces : Readable a ((apis.map (fun api => (generateTSCode up api).apiOption)).flatMap
      methodPieces) := by
    refine Readable.flatMap ?_
    intro option ho
    obtain ⟨api, hapi, rfl⟩ := List.mem_map.mp ho
    exact readable_method (hmethods api hapi) (reqNames_identifier (hinterfaces api hapi))
      (respNames_identifier (hinterfaces api hapi))
  have himport : Readable a (importPieces
      (apis.map (fun api => (generateTSCode up api).apiOption))) := by
    rw [importPieces]
    split
    · exact .nil
    · rename_i names hnames
      refine .fixed (by decide +kernel) (Readable.separated (by decide +kernel) (by decide +kernel)
        (by decide +kernel) (by decide +kernel) ?_)
      intro n hn
      obtain ⟨option, ho, hn⟩ := List.mem_flatMap.mp (mem_setOf hn)
      obtain ⟨api, hapi, rfl⟩ := List.mem_map.mp ho
      rcases List.mem_append.mp hn with hn | hn
      · exact Or.inl (reqNames_identifier (hinterfaces api hapi) n hn)
      · exact Or.inl (respNames_identifier (hinterfaces api hapi) n hn)
  have hundefined : Plain ".request is undefined" := by decide +kernel
  have herror : Inside '\'' (className up serviceName ++ ".request is undefined") :=
    inside_of_plain (Or.inr rfl) ((plain_of_propertyName (Or.inl hclass)).append hundefined)
  have hclassPieces : Readable a [.fixed "\nexport default class ",
      .name (className up serviceName),
      .fixed "<T> \x7b\n  private request: any = () => \x7b\n    throw new Error(",
      .text '\'' (className up serviceName ++ ".request is undefined")] :=
    .fixed (by decide +kernel) (.name (Or.inl hclass) (by decide +kernel) (by decide +kernel)
      (.text (Or.inr rfl) herror .nil))
  have hprefix : Readable a [.fixed (autoGeneratePrefix ++ "\n" ++ "\n")] :=
    .fixed (by decide +kernel) .nil
  have hend : Readable a [.fixed "\n\x7d;\n    "] := .fixed (by decide +kernel) .nil
  unfold indexPieces
  simp only [List.flatten_cons, List.flatten_nil, List.append_nil]
  exact hprefix.append (himport.append (hclassPieces.append
    (readable_classHead.append (hmethodPieces.append hend))))

/-- What the editor asks of an api, at every depth of its params. -/
structure Admitted (api : FetchedApi) : Prop where
  named : api.name ≠ ""
  script : ∀ c ∈ api.name.toList, ¬ (0x4e00 ≤ c.toNat ∧ c.toNat ≤ 0x9fff)
  path : ∃ rest, api.path = "/" ++ rest
  requests : ∀ location, ∀ f ∈ forestValues (api.requestParams location),
    name f ≠ "" ∧ ScriptStrings.hasSpace (name f) = false
  responses : ∀ statusCode, ∀ f ∈ forestValues (api.responseParams statusCode),
    name f ≠ "" ∧ ScriptStrings.hasSpace (name f) = false

theorem identifier_method {api : FetchedApi} (h : api.name ≠ "") :
    Identifier a (generateTSCode up api).apiOption.functionName ↔
      Identifier a (capitalizeFirstLetter up api.name) := by
  have hmethod : Continued a (methodName api.method) := by
    refine continued_of_isContinued ?_
    cases api.method <;> decide +kernel
  have hname : (generateTSCode up api).apiOption.functionName =
      capitalizeFirstLetter up api.name ++ methodName api.method := rfl
  rw [hname, identifier_append (capitalize_ne_empty h)]
  exact and_iff_left hmethod

theorem identifier_class {serviceName : String} : Identifier a (className up serviceName) ↔
    serviceName = "" ∨ Identifier a (capitalizeFirstLetter up serviceName) := by
  have hservice : Continued a "Service" := continued_of_isContinued (by decide +kernel)
  by_cases h : serviceName = ""
  · refine iff_of_true ?_ (Or.inl h)
    have hword : className up serviceName = "Service" := by
      rw [h]
      rfl
    rw [hword]
    exact identifier_of_isWord (by decide +kernel)
  · rw [className, identifier_append (capitalize_ne_empty h)]
    exact ⟨fun hid => Or.inr hid.1, fun hid => ⟨hid.resolve_left h, hservice⟩⟩

theorem validMethod_of_writable {api : FetchedApi} (h : WritableApi a up api)
    (hname : Identifier a (generateTSCode up api).apiOption.functionName) :
    ValidMethod a (generateTSCode up api).apiOption := by
  refine ⟨hname, h.description, h.path, ?_⟩
  intro location f hf
  obtain ⟨t, ht, rfl⟩ := List.mem_map.mp hf
  have hkey : PropertyName a (OpenapiExport.name t.value) := by
    cases h.requests location with
    | intro hnames _ _ _ => exact hnames t ht
  have hplain := plain_of_propertyName hkey
  have hopen : Plain "\x7b" := by decide
  have hclose : Plain "\x7d" := by decide
  exact ⟨inside_of_plain (Or.inr rfl) hplain, inside_of_plain (Or.inl rfl) hplain,
    inside_of_plain (Or.inr rfl) ((hopen.append hplain).append hclose)⟩

/-- The generated code is well formed just when all texts are valid where the code puts them. -/
theorem wellFormed_iff_writable (a : Alphabet) (up : Uppercase) (serviceName : String)
    (apis : List FetchedApi) (h : ∀ api ∈ apis, Admitted api) :
    WellFormed a up serviceName apis ↔ Writable a up serviceName apis := by
  constructor
  · intro hw
    refine ⟨identifier_class.mp hw.className, ?_⟩
    intro api hapi
    have hname := (identifier_method (h api hapi).named).mp (hw.methods api hapi).name
    obtain ⟨hrequests, hresponses, hcodes⟩ :=
      (spelled_apiDeclarations hname).mp (hw.interfaces api hapi)
    exact ⟨hname, (hw.methods api hapi).path, (hw.methods api hapi).description, hrequests,
      hresponses, hcodes⟩
  · rintro ⟨hservice, hall⟩
    have hinterfaces : ∀ api ∈ apis, ∀ i ∈ apiDeclarations up api, ValidDeclaration a i := by
      intro api hapi
      have hapi := hall api hapi
      exact (spelled_apiDeclarations hapi.name).mpr
        ⟨hapi.requests, hapi.responses, hapi.statusCodes⟩
    have hclass := identifier_class.mpr hservice
    have hmethods : ∀ api ∈ apis, ValidMethod a (generateTSCode up api).apiOption := by
      intro api hapi
      exact validMethod_of_writable (hall api hapi)
        ((identifier_method (h api hapi).named).mpr (hall api hapi).name)
    refine ⟨hinterfaces, hclass, hmethods, ?_, ?_⟩
    · rw [← print_namespacePieces]
      exact lex_pieces (readable_namespaces hinterfaces)
    · rw [← print_indexPieces]
      exact lex_pieces (readable_index hinterfaces hclass hmethods)

end Files

def sessionApi (param : VarChar 64) : FetchedApi where
  name := "session"
  method := .get
  path := "/session"
  description := some "The session of a token."
  requestParams
    | .header => [.node ⟨param, .header, .string, some true, none, none, none, none⟩ []]
    | _ => []
  statusCodes := []
  statusCodes_nodup := List.nodup_nil
  responseParams _ := []

theorem session_admitted {param : VarChar 64} (hne : param.val ≠ "")
    (hspace : ScriptStrings.hasSpace param.val = false) : Admitted (sessionApi param) := by
  have hname : (sessionApi param).name = "session" := rfl
  refine ⟨?_, ?_, ⟨"session", rfl⟩, ?_, ?_⟩
  · rw [hname]
    decide
  · have hascii : isAscii "session" = true := by decide
    rw [isAscii, List.all_eq_true] at hascii
    intro c hc
    have hlow := of_decide_eq_true (hascii c hc)
    omega
  · intro location f hf
    cases location with
    | header =>
      obtain rfl := List.mem_singleton.mp hf
      exact ⟨hne, hspace⟩
    | _ => cases hf
  · intro statusCode f hf
    cases hf

/-- A token in a header of its own. -/
theorem session_wellFormed :
    WellFormed asciiAlphabet plainUppercase "users" [sessionApi ⟨"token", by decide⟩] := by
  have hadmitted : ∀ api ∈ [sessionApi ⟨"token", by decide⟩], Admitted api := by
    intro api hapi
    obtain rfl := List.mem_singleton.mp hapi
    exact session_admitted (by decide) (by decide +kernel)
  refine (wellFormed_iff_writable asciiAlphabet plainUppercase "users" _ hadmitted).mpr ⟨?_, ?_⟩
  · exact Or.inr (identifier_of_isWord (by decide +kernel))
  · intro api hapi
    obtain rfl := List.mem_singleton.mp hapi
    refine ⟨identifier_of_isWord (by decide +kernel), by decide +kernel, by decide +kernel, ?_,
      fun c hc => (nomatch hc), fun c hc => (nomatch hc)⟩
    intro location
    cases location <;> first | exact spelled_nil | skip
    refine .intro ?_ ?_ ?_ ?_
    · intro t ht
      obtain rfl := List.mem_singleton.mp ht
      exact Or.inl (identifier_of_isWord (by decide +kernel))
    · intro t ht s hs
      obtain rfl := List.mem_singleton.mp ht
      cases hs
    · intro t ht hne
      obtain rfl := List.mem_singleton.mp ht
      exact absurd rfl hne
    · intro t ht hne
      obtain rfl := List.mem_singleton.mp ht
      exact absurd rfl hne

theorem token_not_name : ¬ PropertyName asciiAlphabet "x-token" := by
  rintro (⟨c, cs, hl, _, hcs⟩ | hnumeral)
  · have hdash : '-' ∈ cs := by
      have htail := congrArg List.tail hl
      rw [List.tail_cons] at htail
      rw [← htail]
      decide
    exact absurd (hcs '-' hdash) (by decide)
  · exact absurd hnumeral (by decide +kernel)

/-- The property `x-token` is none. -/
theorem header_not_wellFormed :
    Admitted (sessionApi ⟨"x-token", by decide⟩) ∧
      ¬ WellFormed asciiAlphabet plainUppercase "users" [sessionApi ⟨"x-token", by decide⟩] := by
  refine ⟨session_admitted (by decide) (by decide +kernel), ?_⟩
  intro hw
  have hkeys := fun i hi =>
    (hw.interfaces (sessionApi ⟨"x-token", by decide⟩) List.mem_cons_self i hi).keys
  have hmem : ∃ i ∈ apiDeclarations plainUppercase (sessionApi ⟨"x-token", by decide⟩),
      ∃ f ∈ i.fields, f.name = "x-token" := by
    have hdeclared : declarationOf plainUppercase (capitalizeFirstLetter plainUppercase
        (requestInterfaceName plainUppercase (sessionApi ⟨"x-token", by decide⟩) .header))
          ((sessionApi ⟨"x-token", by decide⟩).requestParams .header) ∈
        declarationsAt plainUppercase (sessionApi ⟨"x-token", by decide⟩) (.request .header) :=
      List.mem_append_right _ List.mem_cons_self
    exact ⟨_, List.mem_flatMap.mpr ⟨.request .header, by decide, hdeclared⟩, _,
      List.mem_cons_self, rfl⟩
  obtain ⟨i, hi, f, hf, hname⟩ := hmem
  exact token_not_name (hname ▸ hkeys i hi f hf)

end WellFormedCode
