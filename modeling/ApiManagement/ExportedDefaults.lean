import ApiManagement.ForestRebuild
import ApiManagement.MirroredSchemas
import ApiManagement.Postconditions
import ApiManagement.PythonNumerals
import ApiManagement.ReadOperations
import ApiManagement.WriteRights

/-! # Defaults in exported documents

The default value of a request param is any text of its author. An export converts it to the
type of the param: a text that is no number ends the export, every text of a boolean becomes
true, and the text of an object or of an array stays a text. -/
namespace ExportedDefaults

open TransactionRuns KeyedTables ParentLinkedRows RowForests CompleteForests OrderedDictionaries
  PythonRuntime PythonNumerals Postconditions ServiceSchema ApiStores UserOperations
  ServiceOperations ApiOperations OpenapiExport OperationRuns OperationEffects StateInvariant
  WriteRights SchemaReferences MirroredSchemas ReadOperations

/-- The digits of other scripts, the doubles, and `json` for the texts of objects and arrays. -/
structure Literals where
  decimal : Char → Option ℕ
  nearest : ℚ → JsonValue
  named : String → Option JsonValue
  json : String → Option JsonValue

def Literals.numerals (l : Literals) : Numerals where
  int := int l.decimal
  float := PythonNumerals.float l.decimal l.nearest l.named

def isNullText (s : String) : Bool := s == "null" || s == "undefined"

/-- The literals of each type. A text and a binary value mean themselves; no text, no default. -/
inductive Denotes (l : Literals) : ParamType → String → JsonValue → Prop where
  | string {s} : s ≠ "" → Denotes l .string s (.str s)
  | binary {s} : s ≠ "" → Denotes l .binary s (.str s)
  | int (i : WrittenInteger) : Denotes l .int (String.ofList i.chars) (.num i.value)
  | double (x : WrittenNumber) : Denotes l .double (String.ofList x.chars) (l.nearest x.value)
  | boolean (b : Bool) : Denotes l .boolean (if b then "true" else "false") (.bool b)
  | object {s m} : s ≠ "" → l.json s = some (.obj m) → Denotes l .object s (.obj m)
  | array {s vs} : s ≠ "" → l.json s = some (.arr vs) → Denotes l .array s (.arr vs)

/-- No digit stands in the empty text or in those for which `null` is written. -/
theorem texts_of_digit {cs : List Char} (d : Fin 10) (h : Nat.digitChar d.val ∈ cs) :
    String.ofList cs ≠ "" ∧ isNullText (String.ofList cs) = false := by
  have hnone : ∀ e : Fin 10, Nat.digitChar e.val ∉ "".toList ∧ Nat.digitChar e.val ∉ "null".toList ∧
      Nat.digitChar e.val ∉ "undefined".toList := by decide
  obtain ⟨hempty, hnull, hundefined⟩ := hnone d
  rw [← String.toList_ofList (l := cs)] at h
  refine ⟨fun hs => hempty (hs ▸ h), ?_⟩
  rw [isNullText, Bool.or_eq_false_iff, beq_eq_false_iff_ne, beq_eq_false_iff_ne]
  exact ⟨fun hs => hnull (hs ▸ h), fun hs => hundefined (hs ▸ h)⟩

theorem digit_mem {ds : List (Fin 10)} (h : ds ≠ []) : ∃ d : Fin 10, Nat.digitChar d.val ∈
    digitChars ds := by
  obtain ⟨d, hd⟩ := List.exists_mem_of_ne_nil ds h
  exact ⟨d, List.mem_map_of_mem hd⟩

theorem integer_text (i : WrittenInteger) :
    String.ofList i.chars ≠ "" ∧ isNullText (String.ofList i.chars) = false := by
  obtain ⟨d, hd⟩ := digit_mem i.nonempty
  exact texts_of_digit d (List.mem_append_right _ hd)

theorem number_text (x : WrittenNumber) :
    String.ofList x.chars ≠ "" ∧ isNullText (String.ofList x.chars) = false := by
  obtain ⟨d, hd⟩ := digit_mem x.nonempty
  refine texts_of_digit d ?_
  exact List.mem_append_left _ (List.mem_append_left _ (List.mem_append_right _ hd))

section Param

variable {F : Type} [DescribedFields F] (l : Literals)

/-- A text that the export does not get wrong: the text of a number can be read or says `null`, that
of a boolean is not `false`, that of an object or of an array denotes none, and other texts do not
look like `null`. -/
def SoundText (type : ParamType) (s : String) : Prop :=
  match type with
  | .int => isNullText s = true ∨ int l.decimal s ≠ none
  | .double => isNullText s = true ∨ PythonNumerals.float l.decimal l.nearest l.named s ≠ none
  | .boolean => s ≠ "false"
  | .object => ∀ m, l.json s ≠ some (.obj m)
  | .array => ∀ vs, l.json s ≠ some (.arr vs)
  | .string => isNullText s = false
  | .binary => isNullText s = false

def Sound (f : F) : Prop :=
  ∀ s, defaultValue f = some s → s ≠ "" → SoundText l (type f) s

def readDefault (type : ParamType) (s : String) : Option JsonValue :=
  match type with
  | .int => (int l.decimal s).map (fun i => .num i)
  | .double => PythonNumerals.float l.decimal l.nearest l.named s
  | .boolean => some (.bool true)
  | _ => some (.str s)

def converted (type : ParamType) (s : String) : Option JsonValue :=
  if isNullText s then some .null else readDefault l type s

theorem converted_null {s : String} (h : isNullText s = true) (type : ParamType) :
    converted l type s = some .null := if_pos h

theorem converted_other {s : String} (h : isNullText s = false) (type : ParamType) :
    converted l type s = readDefault l type s := by
  rw [converted, h, if_neg Bool.false_ne_true]

theorem numerals_int (s : String) : l.numerals.int s = int l.decimal s := by
  rw [Literals.numerals]

theorem numerals_float (s : String) :
    l.numerals.float s = PythonNumerals.float l.decimal l.nearest l.named s := by
  rw [Literals.numerals]

theorem defaultMembers_of_given {f : F} {s : String} (hs : defaultValue f = some s)
    (hempty : s ≠ "") : defaultMembers l.numerals f =
      (orAbort (converted l (type f) s) (.raised .valueError)).map (fun v => [("default", v)]) := by
  have htruthy : truthyText (defaultValue f) = some s := by
    rw [hs]
    simp [truthyText, hempty]
  rw [defaultMembers, htruthy]
  dsimp only
  cases hnull : isNullText s with
  | true =>
    have hgiven : (s == "null" || s == "undefined") = true := hnull
    rw [if_pos hgiven, converted_null l hnull]
    rfl
  | false =>
    have hgiven : (s == "null" || s == "undefined") = false := hnull
    rw [hgiven, if_neg Bool.false_ne_true, numerals_int, numerals_float,
      converted_other l hnull]
    cases type f with
    | int =>
      dsimp only [readDefault]
      cases int l.decimal s <;> rfl
    | double =>
      dsimp only [readDefault]
      cases PythonNumerals.float l.decimal l.nearest l.named s <;> rfl
    | _ => rfl

def Converts (f : F) : Prop :=
  ∃ d, defaultMembers l.numerals f = .ok d ∧ ∀ s v, defaultValue f = some s →
    Denotes l (type f) s v → d.lookup "default" = some v

theorem Denotes.not_empty {l : Literals} {type : ParamType} {s : String} {v : JsonValue}
    (h : Denotes l type s v) : s ≠ "" := by
  cases h with
  | int i => exact (integer_text i).1
  | double x => exact (number_text x).1
  | boolean b => cases b <;> decide
  | _ => assumption

theorem converts_of_empty {f : F} (hf : truthyText (defaultValue f) = none) : Converts l f := by
  refine ⟨[], defaultMembers_none _ hf, ?_⟩
  intro s v hs hv
  rw [hs] at hf
  have hempty : s = "" := by simpa [truthyText] using hf
  exact absurd hempty hv.not_empty

theorem denotes_int {s : String} {v : JsonValue} (h : Denotes l .int s v) :
    converted l .int s = some v := by
  cases h with
  | int i =>
    rw [converted_other l (integer_text i).2]
    dsimp only [readDefault]
    rw [int_of_written]
    rfl

theorem denotes_double {s : String} {v : JsonValue} (h : Denotes l .double s v) :
    converted l .double s = some v := by
  cases h with
  | double x =>
    rw [converted_other l (number_text x).2]
    dsimp only [readDefault]
    rw [float_of_written]

/-- A conversion that reads the text gets wrong only what it cannot read. -/
theorem converted_iff_readable {type : ParamType} {s : String}
    (hread : ∀ v, Denotes l type s v → converted l type s = some v) :
    (∃ w, converted l type s = some w ∧ ∀ v, Denotes l type s v → v = w) ↔
      converted l type s ≠ none := by
  constructor
  · rintro ⟨w, hw, _⟩ hnone
    rw [hnone] at hw
    cases hw
  · intro h
    obtain ⟨w, hw⟩ := Option.ne_none_iff_exists'.mp h
    exact ⟨w, hw, fun v hv => Option.some.inj ((hread v hv).symm.trans hw)⟩

/-- A conversion that never fails is right if the text denotes nothing else. -/
theorem converted_iff_denoted {type : ParamType} {s : String} {w : JsonValue}
    (hw : converted l type s = some w) :
    (∃ w, converted l type s = some w ∧ ∀ v, Denotes l type s v → v = w) ↔
      ∀ v, Denotes l type s v → v = w := by
  constructor
  · rintro ⟨u, hu, hall⟩
    rwa [Option.some.inj (hw.symm.trans hu)]
  · exact fun hall => ⟨w, hw, hall⟩

/-- `null` is right for a text just when the text is sound. -/
theorem null_denoted_iff {type : ParamType} {s : String} (hempty : s ≠ "")
    (hs : isNullText s = true) :
    (∀ v, Denotes l type s v → v = JsonValue.null) ↔ SoundText l type s := by
  have hnumber : ∀ cs, s = String.ofList cs → isNullText (String.ofList cs) = false → False := by
    rintro cs rfl hfalse
    rw [hfalse] at hs
    cases hs
  cases type with
  | string =>
    refine iff_of_false (fun h => nomatch h _ (.string hempty)) ?_
    exact fun h => Bool.false_ne_true (h.symm.trans hs)
  | binary =>
    refine iff_of_false (fun h => nomatch h _ (.binary hempty)) ?_
    exact fun h => Bool.false_ne_true (h.symm.trans hs)
  | int =>
    refine iff_of_true ?_ (Or.inl hs)
    rintro v ⟨⟩
    next i => exact (hnumber _ rfl (integer_text i).2).elim
  | double =>
    refine iff_of_true ?_ (Or.inl hs)
    rintro v ⟨⟩
    next x => exact (hnumber _ rfl (number_text x).2).elim
  | boolean =>
    refine iff_of_true ?_ ?_
    · rintro v ⟨⟩
      next b => cases b <;> exact absurd hs (by decide)
    · rintro rfl
      exact absurd hs (by decide)
  | object =>
    constructor
    · intro h m hm
      exact nomatch h _ (.object hempty hm)
    · rintro h v ⟨⟩
      next m _ hm => exact absurd hm (h m)
  | array =>
    constructor
    · intro h vs hvs
      exact nomatch h _ (.array hempty hvs)
    · rintro h v ⟨⟩
      next vs _ hvs => exact absurd hvs (h vs)

/-- Texts are converted to what they denote just when they are sound. -/
theorem converted_iff_sound {type : ParamType} {s : String} (hempty : s ≠ "") :
    (∃ w, converted l type s = some w ∧ ∀ v, Denotes l type s v → v = w) ↔
      SoundText l type s := by
  cases hs : isNullText s with
  | true => rw [converted_iff_denoted l (converted_null l hs type), null_denoted_iff l hempty hs]
  | false =>
    have hgiven : ¬ isNullText s = true := Bool.eq_false_iff.mp hs
    have hother := converted_other l hs
    cases type with
    | int =>
      rw [converted_iff_readable l (fun _ => denotes_int l), hother, SoundText,
        or_iff_right hgiven]
      dsimp only [readDefault]
      cases int l.decimal s with
      | none => exact iff_of_false (fun h => h rfl) (fun h => h rfl)
      | some i => exact iff_of_true (Option.some_ne_none _) (Option.some_ne_none _)
    | double =>
      rw [converted_iff_readable l (fun _ => denotes_double l), hother, SoundText,
        or_iff_right hgiven]
      rfl
    | boolean =>
      rw [converted_iff_denoted l (hother .boolean)]
      constructor
      · rintro hall rfl
        cases hall _ (.boolean false)
      · rintro h v ⟨⟩
        next b =>
          cases b with
          | true => rfl
          | false => exact absurd rfl h
    | object =>
      rw [converted_iff_denoted l (hother .object)]
      constructor
      · intro hall m hm
        cases hall _ (.object hempty hm)
      · rintro h v ⟨⟩
        next m _ hm => exact absurd hm (h m)
    | array =>
      rw [converted_iff_denoted l (hother .array)]
      constructor
      · intro hall vs hvs
        cases hall _ (.array hempty hvs)
      · rintro h v ⟨⟩
        next vs _ hvs => exact absurd hvs (h vs)
    | string =>
      rw [converted_iff_denoted l (hother .string)]
      refine iff_of_true ?_ hs
      rintro v ⟨⟩
      rfl
    | binary =>
      rw [converted_iff_denoted l (hother .binary)]
      refine iff_of_true ?_ hs
      rintro v ⟨⟩
      rfl

theorem converts_iff_sound {f : F} : Converts l f ↔ Sound l f := by
  cases htext : truthyText (defaultValue f) with
  | none =>
    refine iff_of_true (converts_of_empty l htext) ?_
    intro s hs hempty
    rw [hs] at htext
    exact absurd (by simpa [truthyText] using htext) hempty
  | some s =>
    obtain ⟨hs, hempty⟩ := Option.filter_eq_some_iff.mp htext
    have hempty : s ≠ "" := by simpa using hempty
    have hsound : Sound l f ↔ SoundText l (type f) s := by
      constructor
      · exact fun h => h s hs hempty
      · intro h t ht _
        rwa [Option.some.inj (ht.symm.trans hs)]
    rw [hsound, ← converted_iff_sound l hempty, Converts, defaultMembers_of_given l hs hempty]
    constructor
    · rintro ⟨d, hd, hall⟩
      cases hw : converted l (type f) s with
      | none =>
        rw [hw] at hd
        cases hd
      | some w =>
        rw [hw] at hd
        cases hd
        refine ⟨w, rfl, ?_⟩
        intro v hden
        exact (Option.some.inj (hall s v hs hden)).symm
    · rintro ⟨w, hw, hall⟩
      refine ⟨[("default", w)], by rw [hw]; rfl, ?_⟩
      intro t v ht hden
      obtain rfl := Option.some.inj (ht.symm.trans hs)
      rw [hall v hden]
      rfl

end Param

section Forest

variable {F : Type} [DescribedFields F] {n : Numerals}

theorem yields_addProperties : ∀ {ts : List (RoseTree F)} {parts : ObjectParts},
    Yields (addProperties n parts ts) ↔ ∀ t ∈ ts, Yields (buildParamSchema n t) := by
  intro ts
  induction ts with
  | nil =>
    intro parts
    rw [addProperties]
    exact iff_of_true ⟨parts, rfl⟩ (fun t ht => by cases ht)
  | cons t ts ih =>
    intro parts
    rw [addProperties, yields_bind (fun s _ => ih), List.forall_mem_cons]

theorem yields_buildRootSchema {ts : List (RoseTree F)} :
    Yields (buildRootSchema n ts) ↔ ∀ t ∈ ts, Yields (buildParamSchema n t) := by
  rw [buildRootSchema, yields_bind (fun _ _ => yields_pure), and_true, yields_addProperties]

mutual

/-- A schema exists where every default value can be converted. -/
theorem yields_buildParamSchema : ∀ t : RoseTree F,
    (∀ f ∈ t.values, Yields (defaultMembers n f)) → Yields (buildParamSchema n t)
  | .node f ts, h => by
    have hparts : Yields (if mayHaveChildren f then addProperties n .empty ts
        else pure .empty : Tx ObjectParts) := by
      by_cases hmay : mayHaveChildren f = true
      · rw [if_pos hmay, yields_addProperties]
        exact yields_forest ts (fun g hg => h g (List.mem_cons_of_mem _ hg))
      · rw [if_neg hmay]
        exact ⟨_, rfl⟩
    obtain ⟨parts, hparts⟩ := hparts
    obtain ⟨d, hd⟩ := h f List.mem_cons_self
    have hd : (keptOf n f).default = .ok d := hd
    rw [buildParamSchema_eq, hparts, ok_bind, hd]
    exact ⟨_, rfl⟩

theorem yields_forest : ∀ ts : List (RoseTree F),
    (∀ f ∈ forestValues ts, Yields (defaultMembers n f)) →
    ∀ t ∈ ts, Yields (buildParamSchema n t)
  | [], _ => fun t ht => by cases ht
  | u :: ts, h => by
    intro t ht
    rw [forestValues] at h
    rcases List.mem_cons.mp ht with he | ht
    · rw [he]
      exact yields_buildParamSchema u (fun f hf => h f (List.mem_append_left _ hf))
    · exact yields_forest ts (fun f hf => h f (List.mem_append_right _ hf)) t ht

end

end Forest

section Document

variable {n : Numerals} {a : LoadedApi}

structure Buildable (n : Numerals) (a : LoadedApi) : Prop where
  requests : ∀ location, ∀ t ∈ requestsAt a location, Yields (buildParamSchema n t)
  responses : ∀ statusCode ∈ statusCodes a, ∀ t ∈ responsesFor a statusCode,
    Yields (buildParamSchema n t)

theorem yields_parameters : Yields (parameters n a) ↔
    ∀ location ∈ [ParamLocation.query, .path, .header, .cookie],
      ∀ t ∈ requestsAt a location, Yields (buildParamSchema n t) := by
  refine yields_foldlM ?_
  intro done location _
  have hone : ∀ t, Yields (parameterObject n location t) ↔ Yields (buildParamSchema n t) := by
    intro t
    rw [parameterObject, yields_bind (fun _ _ => yields_pure), and_true]
  rw [yields_bind (fun _ _ => yields_pure), and_true, yields_mapM]
  simp only [hone]

theorem yields_requestBody {schemas : Members} : Yields (requestBody n a schemas) ↔
    ∀ t ∈ requestsAt a .body, Yields (buildParamSchema n t) := by
  unfold requestBody
  by_cases h : (requestsAt a .body).isEmpty = true
  · rw [if_pos h, List.isEmpty_iff.mp h]
    exact iff_of_true ⟨_, rfl⟩ (fun t ht => by cases ht)
  · rw [if_neg h, yields_bind (fun _ _ => yields_pure), and_true, yields_buildRootSchema]

theorem yields_responses {schemas : Members} : Yields (responses n a schemas) ↔
    ∀ statusCode ∈ statusCodes a, ∀ t ∈ responsesFor a statusCode,
      Yields (buildParamSchema n t) := by
  refine yields_foldlM ?_
  intro done statusCode _
  rw [addResponse, yields_bind (fun _ _ => yields_pure), and_true, yields_buildRootSchema]

theorem yields_exportApi {d : Document} : Yields (exportApi n d a) ↔ Buildable n a := by
  have hparts : Yields (exportApi n d a) ↔ Yields (parameters n a) ∧
      Yields (requestBody n a d.schemas) ∧ Yields (responses n a d.schemas) := by
    unfold exportApi
    refine yields_bind ?_
    intro ps _
    refine yields_bind ?_
    rintro ⟨body, schemas⟩ _
    have hlast : Yields (responses n a schemas) ↔ Yields (responses n a d.schemas) :=
      yields_responses.trans yields_responses.symm
    refine (yields_bind (p := True) ?_).trans ((iff_of_eq (and_true _)).trans hlast)
    rintro ⟨responses, schemas⟩ _
    exact yields_pure
  rw [hparts, yields_parameters, yields_requestBody, yields_responses]
  constructor
  · rintro ⟨hothers, hbody, hresponses⟩
    refine ⟨?_, hresponses⟩
    intro location
    cases location with
    | body => exact hbody
    | _ => exact hothers _ (by simp)
  · rintro ⟨hrequests, hresponses⟩
    exact ⟨fun location _ => hrequests location, hrequests .body, hresponses⟩

theorem yields_openapiTemplate {service : ExportSource} : Yields (openapiTemplate n service) ↔
    (∀ a ∈ service.apis, Buildable n a) ∧ ∃ c, service.contact = some c := by
  have hapis : ∀ {d : Document}, Yields (service.apis.foldlM (exportApi n) d) ↔
      ∀ a ∈ service.apis, Buildable n a := by
    intro d
    refine yields_foldlM (p := Buildable n) ?_
    intro e a _
    exact yields_exportApi
  have hparts : Yields (openapiTemplate n service) ↔
      Yields (service.apis.foldlM (exportApi n) ⟨[], []⟩) ∧
        Yields (orAbort service.contact (.raised .attributeError) : Tx UserInfo) := by
    unfold openapiTemplate
    refine yields_bind ?_
    intro d _
    rw [yields_bind (fun _ _ => yields_pure), and_true]
  rw [hparts, hapis, yields_orAbort]

end Document

def ExportsDefault (l : Literals) (t : RoseTree RequestFields) : Prop :=
  ∃ schema, buildParamSchema l.numerals t = .ok schema ∧ ∀ s v, defaultValue t.value = some s →
    Denotes l (type t.value) s v → (membersOf schema).lookup "default" = some v

theorem default_of_schema {F : Type} [DescribedFields F] {n : Numerals} {t : RoseTree F}
    {schema : JsonValue} (h : buildParamSchema n t = .ok schema) :
    ∃ d, defaultMembers n t.value = .ok d ∧
      (membersOf schema).lookup "default" = d.lookup "default" := by
  obtain ⟨f, ts⟩ := t
  simp only [buildParamSchema_eq, bind_eq_ok, pure_eq_ok] at h
  obtain ⟨parts, _, d, hd, rfl⟩ := h
  refine ⟨d, hd, ?_⟩
  rw [membersOf, lookup_last (by decide), trailing]
  rcases defaultMembers_shape hd with rfl | ⟨v, rfl⟩ <;> cases (keptOf n f).example' <;> rfl

theorem ExportsDefault.converts {l : Literals} {t : RoseTree RequestFields}
    (h : ExportsDefault l t) : Converts l t.value := by
  obtain ⟨schema, hs, hall⟩ := h
  obtain ⟨d, hd, hlookup⟩ := default_of_schema hs
  exact ⟨d, hd, fun s v hdef hden => hlookup.symm.trans (hall s v hdef hden)⟩

theorem exportsDefault_of_converts {l : Literals} {t : RoseTree RequestFields}
    (hy : Yields (buildParamSchema l.numerals t)) (h : Converts l t.value) :
    ExportsDefault l t := by
  obtain ⟨schema, hs⟩ := hy
  obtain ⟨d, hd, hlookup⟩ := default_of_schema hs
  obtain ⟨d', hd', hall⟩ := h
  obtain rfl := Except.ok.inj (hd.symm.trans hd')
  exact ⟨schema, hs, fun s v hdef hden => hlookup.trans (hall s v hdef hden)⟩

/-- The params at the five locations are the rows of the api. -/
theorem mem_requestsAt {st : ApiStore} (hl : WellLinked Nests st.requestParams.rows)
    (env : Environment) (api : ApiRow) {f : RequestFields} :
    (∃ location, f ∈ forestValues (requestsAt (loadApi env st api) location)) ↔
      ∃ p ∈ st.requestParamsOf api.id, p.fields = f := by
  have hparams : ForestRebuild.ParamList (env.fetch (st.requestParamsOf api.id)) :=
    ForestRebuild.paramList_fetched hl env api.id
  obtain ⟨forest, hrebuilds, hforest, hkeys⟩ :=
    ForestRebuild.organizeReqParams_rebuilds hparams
  have hshape : ∀ location, forestValues (requestsAt (loadApi env st api) location) =
      (forestValues (forest (locationKey location))).map LinkedRow.fields := by
    intro location
    rw [requestsAt, ← forestValues_map, hforest]
    rfl
  have hrow : ∀ r : RequestParam, r ∈ st.requestParamsOf api.id ↔
      ∃ location, r ∈ forestValues (forest (locationKey location)) := by
    intro r
    rw [← env.mem_fetch, ← hrebuilds.once.mem_iff, mem_forestValues_iff]
    constructor
    · rintro ⟨t, ht, hr⟩
      obtain ⟨e, he, ht⟩ := List.mem_flatMap.mp ht
      obtain ⟨location, hkey⟩ := (hkeys e.1).mp (List.mem_map_of_mem he)
      exact ⟨location, mem_forestValues_iff.mpr ⟨t, hkey ▸ ht, hr⟩⟩
    · rintro ⟨location, hr⟩
      obtain ⟨t, ht, hr⟩ := mem_forestValues_iff.mp hr
      obtain ⟨e, he, hkey⟩ := List.mem_map.mp ((hkeys _).mpr ⟨location, rfl⟩)
      exact ⟨t, List.mem_flatMap.mpr ⟨e, he, hkey ▸ ht⟩, hr⟩
  simp only [hshape, List.mem_map, hrow]
  constructor
  · rintro ⟨location, r, hr, rfl⟩
    exact ⟨r, ⟨location, hr⟩, rfl⟩
  · rintro ⟨r, ⟨location, hr⟩, rfl⟩
    exact ⟨location, r, hr, rfl⟩

/-- Nobody but a user starts an iteration. -/
theorem creator_recorded {db : Database} (h : Reachable db) :
    ∀ i ∈ db.iterations.rows, ∃ u, i.creatorId = some u := by
  obtain ⟨db₀, h₀, hr⟩ := h
  induction hr with
  | refl =>
    intro i hm
    rw [h₀.iterations] at hm
    cases hm
  | @tail u e _ _ ih =>
    intro i hm
    rcases committed_cases (transaction u e) u with ⟨v, hv, he⟩ | he
    · rw [he] at hm
      rcases iterations_of_effect (transaction_effect hv) hm with ⟨j, hj, _, _, hc⟩ |
        ⟨_, _, userId, _, _, rfl⟩
      · rw [← hc]
        exact ih j hj
      · exact ⟨userId, rfl⟩
    · rw [he] at hm
      exact ih i hm

inductive VersionOf (env : Environment) (db : Database) : VersionDetail → Prop where
  | latest {s} : s ∈ db.services.rows → VersionOf env db (.latest (serviceToJson env db s))
  | earlier {i} : i ∈ db.iterations.rows → VersionOf env db (.earlier (iterationToJson env db i))

def storeOf (db : Database) : VersionDetail → ApiStore
  | .latest _ => db.live
  | .earlier _ => db.drafts

/-- A document comes out, and every default in it is what its text denotes. -/
def ExportsDefaults (l : Literals) (env : Environment) (db : Database) (v : VersionDetail) :
    Prop :=
  ∃ source document, exportSource env db v = .ok source ∧
    openapiTemplate l.numerals source = .ok document ∧
    ∀ a ∈ source.apis, ∀ location, ∀ t, Within t (requestsAt a location) → ExportsDefault l t

section Version

variable {env : Environment} {db : Database} {v : VersionDetail}

/-- The people a document names are there. -/
theorem source_of_version (hreach : Reachable db) (hv : VersionOf env db v) :
    ∃ source, exportSource env db v = .ok source ∧
      source.apis = v.apis.map (loadApi env (storeOf db v)) ∧ ∃ c, source.contact = some c := by
  have hi := reachable_invariant hreach
  cases hv with
  | @latest s hs =>
    obtain ⟨u, hu⟩ := Table.find?_of_contains (hi.service_owner s hs)
    refine ⟨_, rfl, rfl, userToJson u, ?_⟩
    show (db.users.find? s.ownerId).map userToJson = _
    rw [hu, Option.map_some]
  | @earlier i hm =>
    obtain ⟨userId, hc⟩ := creator_recorded hreach i hm
    obtain ⟨u, hu⟩ := Table.find?_of_contains (hi.iteration_creator i hm userId hc)
    obtain ⟨s, hs⟩ := Table.find?_of_contains (hi.iteration_service i hm)
    have hservice : (iterationToJson env db i).service = some s := hs
    have hcreator : (iterationToJson env db i).creator = some (userToJson u) := by
      rw [iterationToJson, hc, Option.bind_some, hu, Option.map_some]
    rw [exportSource, hservice]
    exact ⟨_, rfl, rfl, userToJson u, hcreator⟩

theorem request_linked (hreach : Reachable db) :
    WellLinked Nests (storeOf db v).requestParams.rows := by
  have hi := reachable_invariant hreach
  cases v with
  | latest d => exact hi.live.request_linked
  | earlier d => exact hi.drafts.request_linked

/-- A response param has no default. -/
theorem buildable_responses {n : Numerals} (a : LoadedApi) (statusCode : ℤ) :
    ∀ t ∈ responsesFor a statusCode, Yields (buildParamSchema n t) :=
  yields_forest _ (fun _ _ => ⟨[], rfl⟩)

end Version

def limitPayload (type text : String) : JsonValue :=
  .arr [.obj [("name", .str "limit"), ("type", .str type), ("location", .str "query"),
    ("default_value", .str text)]]

def limited (type text : String) : Database :=
  play twoUsers [.serviceCreateNewService "team/core" 1 (some "core"),
    .serviceStartIteration 1 1,
    .apiAddApi 1 1 "list" "GET" "/users" none "P1" none,
    .apiUpdateApiByApiDraftId 1 1 1 "list" "GET" "/users" none "P1" (limitPayload type text) .null,
    .serviceUpdateDescription 1 (some "core") 1,
    .serviceCommitIteration 1 "0.0.2" 1]

def limitedVersion (type text : String) : VersionDetail :=
  .latest (serviceToJson plainEnvironment (limited type text) publishedService)

def plainLiterals : Literals where
  decimal _ := none
  nearest := .num
  named _ := none
  json s := if s = "\x7b\x7d" then some (.obj []) else if s = "[]" then some (.arr []) else none

theorem limited_reachable (type text : String) : Reachable (limited type text) :=
  Reachable.play twoUsers_reachable _

theorem exported_of_isOk (type text : String)
    (h : (exportSource plainEnvironment (limited type text) (limitedVersion type text) >>=
      openapiTemplate plainLiterals.numerals).isOk = true) : ∃ source document,
      exportSource plainEnvironment (limited type text) (limitedVersion type text) = .ok source ∧
      openapiTemplate plainLiterals.numerals source = .ok document := by
  cases hx : exportSource plainEnvironment (limited type text) (limitedVersion type text) >>=
      openapiTemplate plainLiterals.numerals with
  | error e =>
    rw [hx] at h
    cases h
  | ok document =>
    obtain ⟨source, hsource, hdocument⟩ := bind_eq_ok.mp hx
    exact ⟨source, document, hsource, hdocument⟩

end ExportedDefaults
