import ApiManagement.OpenapiExport
import ApiManagement.ConcatenatedNames
import ApiManagement.OperationRuns

/-! # References of exported operations

An operation refers to its schemas by names made from the name of its api alone: the method does
not enter, and everything but ASCII letters and digits is dropped. Every reference leads to the
schema of its own params just when apis with one component name show the same params wherever
both have some. -/
namespace SchemaReferences

open TransactionRuns ParentLinkedRows RowForests OrderedDictionaries ConcatenatedNames
  PythonRuntime ServiceSchema UserOperations ApiOperations OpenapiExport

structure Kept where
  name : String
  type : ParamType
  items : ParamType
  required : Bool
  example' : Option String
  default : Tx Members

theorem Kept.ext {k l : Kept} (hn : k.name = l.name) (ht : k.type = l.type)
    (hi : k.items = l.items) (hr : k.required = l.required) (he : k.example' = l.example')
    (hd : k.default = l.default) : k = l := by
  cases k
  cases l
  subst hn ht hi hr he hd
  rfl

section Kept

variable {F : Type} [DescribedFields F] (n : Numerals)

def keptOf (f : F) : Kept where
  name := name f
  type := type f
  items := if type f = .array then (arrayChildType f).getD .string else .string
  required := required f = some true
  example' := truthyText (example' f)
  default := defaultMembers n f

mutual

def keptTree : RoseTree F → RoseTree Kept
  | .node f ts => .node (keptOf n f) (if mayHaveChildren f then keptForest ts else [])

def keptForest : List (RoseTree F) → List (RoseTree Kept)
  | [] => []
  | t :: ts => keptTree t :: keptForest ts

end

@[simp] theorem keptTree_value (t : RoseTree F) : (keptTree n t).value = keptOf n t.value := by
  cases t
  rfl

theorem mayHaveChildren_keptOf (f : F) :
    mayHaveChildren f = takesChildren (keptOf n f).type (some (keptOf n f).items) := by
  unfold mayHaveChildren keptOf
  cases type f <;> cases arrayChildType f <;> rfl

def schemaMembers (k : Kept) (parts : ObjectParts) (default : Members) : Members :=
  getTypeSchema (some k.type) ++
  (match k.type with
  | .object => parts.members
  | .array => [("items", .obj (if k.items = .object then ("type", .str "object") :: parts.members
      else getTypeSchema (some k.items)))]
  | _ => []) ++
  (match k.example' with
  | none => []
  | some s => [("example", .str s)]) ++ default

theorem buildParamSchema_eq (f : F) (ts : List (RoseTree F)) :
    buildParamSchema n (.node f ts) =
      (if mayHaveChildren f then addProperties n .empty ts else pure .empty) >>= fun parts =>
        (keptOf n f).default >>= fun default =>
          pure (.obj (schemaMembers (keptOf n f) parts default)) := by
  obtain ⟨t, ht⟩ : ∃ t, type f = t := ⟨_, rfl⟩
  obtain ⟨child, hc⟩ : ∃ child, arrayChildType f = child := ⟨_, rfl⟩
  rw [buildParamSchema]
  simp only [schemaMembers, mayHaveChildren, takesChildren, keptOf, exampleMembers, ht, hc]
  generalize addProperties n .empty ts = parts
  -- only an array looks at the type of its elements
  cases t with
  | array =>
    cases child with
    | none => cases parts <;> rfl
    | some c => cases c <;> cases parts <;> rfl
  | _ => cases parts <;> rfl

mutual

/-- The schema of a param depends on what is kept alone. -/
theorem schema_of_kept : ∀ t u : RoseTree F, keptTree n t = keptTree n u →
    buildParamSchema n t = buildParamSchema n u
  | .node f ts, .node g us, h => by
    rw [keptTree, keptTree, RoseTree.node.injEq] at h
    obtain ⟨hf, hts⟩ := h
    rw [buildParamSchema_eq, buildParamSchema_eq, hf]
    have hmay : mayHaveChildren f = mayHaveChildren g := by
      rw [mayHaveChildren_keptOf n, mayHaveChildren_keptOf n, hf]
    rw [hmay] at hts ⊢
    by_cases hg : mayHaveChildren g = true
    · rw [if_pos hg, if_pos hg] at hts
      rw [if_pos hg, if_pos hg, properties_of_kept ts us .empty hts]
    · rw [if_neg hg, if_neg hg]

theorem properties_of_kept : ∀ (ts us : List (RoseTree F)) (parts : ObjectParts),
    keptForest n ts = keptForest n us → addProperties n parts ts = addProperties n parts us
  | [], [], _, _ => rfl
  | [], u :: us, _, h => by cases h
  | t :: ts, [], _, h => by cases h
  | t :: ts, u :: us, parts, h => by
    rw [keptForest, keptForest, List.cons.injEq] at h
    obtain ⟨ht, hts⟩ := h
    have hvalue : keptOf n t.value = keptOf n u.value := by
      rw [← keptTree_value, ht, keptTree_value]
    have hadd : ∀ s, parts.add t.value s = parts.add u.value s := by
      intro s
      have hname : name t.value = name u.value := congrArg Kept.name hvalue
      have hrequired := congrArg Kept.required hvalue
      simp only [keptOf, decide_eq_decide] at hrequired
      simp only [ObjectParts.add, hname, hrequired]
    rw [addProperties, addProperties, schema_of_kept t u ht]
    congr 1
    funext s
    rw [hadd, properties_of_kept ts us _ hts]

end

theorem rootSchema_of_kept {ts us : List (RoseTree F)} (h : keptForest n ts = keptForest n us) :
    buildRootSchema n ts = buildRootSchema n us := by
  rw [buildRootSchema, buildRootSchema, properties_of_kept n ts us _ h]

end Kept

def readText : Option JsonValue → Option String
  | some (.str s) => some s
  | _ => none

def readType (m : Members) : ParamType :=
  match readText (m.lookup "type"), readText (m.lookup "format") with
  | some "integer", _ => .int
  | some "number", _ => .double
  | some "boolean", _ => .boolean
  | some "object", _ => .object
  | some "array", _ => .array
  | some "string", some "binary" => .binary
  | _, _ => .string

def readItems (m : Members) : Members :=
  match m.lookup "items" with
  | some (.obj i) => i
  | _ => []

def readParts (m : Members) : ObjectParts where
  properties :=
    match m.lookup "properties" with
    | some (.obj ps) => ps
    | _ => []
  required :=
    match m.lookup "required" with
    | some (.arr rs) => rs
    | _ => []

def readDefault (m : Members) : Members :=
  match m.lookup "default" with
  | some v => [("default", v)]
  | none => []

section Read

theorem defaultMembers_shape {F : Type} [DescribedFields F] {n : Numerals} {f : F} {d : Members}
    (h : defaultMembers n f = .ok d) : d = [] ∨ ∃ v, d = [("default", v)] := by
  unfold defaultMembers at h
  split at h
  · exact Or.inl (pure_eq_ok.mp h).symm
  · right
    split at h
    · exact ⟨_, (pure_eq_ok.mp h).symm⟩
    · split at h
      · exact ⟨_, (pure_eq_ok.mp h).symm⟩
      · simp only [bind_eq_ok, pure_eq_ok] at h
        obtain ⟨_, _, h⟩ := h
        exact ⟨_, h.symm⟩
      · simp only [bind_eq_ok, pure_eq_ok] at h
        obtain ⟨_, _, h⟩ := h
        exact ⟨_, h.symm⟩
      · exact ⟨_, (pure_eq_ok.mp h).symm⟩
      · exact ⟨_, (pure_eq_ok.mp h).symm⟩

variable {k : Kept} {parts : ObjectParts} {d : Members}

def trailing (k : Kept) (d : Members) : Members :=
  (match k.example' with
  | none => []
  | some s => [("example", .str s)]) ++ d

theorem lookup_trailing (hd : d = [] ∨ ∃ v, d = [("default", v)]) {key : String}
    (he : key ≠ "example") (hf : key ≠ "default") : (trailing k d).lookup key = none := by
  unfold trailing
  rcases hd with rfl | ⟨v, rfl⟩ <;> cases k.example' <;> simp [lookup_cons_eq, he, hf]

theorem lookup_members {key : String} (hp : key ≠ "properties") (hq : key ≠ "additionalProperties")
    (hr : key ≠ "required") (m : Members) : (parts.members ++ m).lookup key = m.lookup key := by
  unfold ObjectParts.members
  cases parts.properties.isEmpty <;> cases parts.required.isEmpty <;>
    simp [lookup_cons_eq, hp, hq, hr]

theorem readParts_members {m : Members} (hp : m.lookup "properties" = none)
    (hr : m.lookup "required" = none) : readParts (parts.members ++ m) = parts := by
  obtain ⟨ps, rs⟩ := parts
  unfold readParts ObjectParts.members
  cases ps <;> cases rs <;> simp [lookup_cons_eq, hp, hr]

theorem readParts_root (parts : ObjectParts) : readParts ([("type", JsonValue.str "object"),
    ("properties", JsonValue.obj parts.properties)] ++
      (if parts.required.isEmpty then [] else [("required", JsonValue.arr parts.required)]) ++
        [("additionalProperties", JsonValue.bool false)]) = parts := by
  obtain ⟨ps, rs⟩ := parts
  cases rs <;> rfl

theorem schemaMembers_eq : schemaMembers k parts d = getTypeSchema (some k.type) ++
    ((match k.type with
    | .object => parts.members
    | .array => [("items", .obj (if k.items = .object then ("type", .str "object") :: parts.members
        else getTypeSchema (some k.items)))]
    | _ => []) ++ trailing k d) := by
  simp only [schemaMembers, trailing, List.append_assoc]

theorem readItems_schema (h : k.type = .array) : readItems (schemaMembers k parts d) =
    if k.items = .object then ("type", .str "object") :: parts.members
    else getTypeSchema (some k.items) := by
  rw [schemaMembers_eq, h]
  rfl

/-- Neither the type nor the children bring in other keys than their own. -/
theorem lookup_last {key : String} (hk : key ≠ "type" ∧ key ≠ "format" ∧ key ≠ "items" ∧
    key ≠ "properties" ∧ key ≠ "additionalProperties" ∧ key ≠ "required") :
    (schemaMembers k parts d).lookup key = (trailing k d).lookup key := by
  obtain ⟨ht, hf, hi, hp, hq, hr⟩ := hk
  have hmembers : (parts.members ++ trailing k d).lookup key = (trailing k d).lookup key :=
    lookup_members hp hq hr _
  rw [schemaMembers_eq]
  cases k.type <;> simp [getTypeSchema, lookup_cons_eq, ht, hf, hi, hmembers]

variable (hd : d = [] ∨ ∃ v, d = [("default", v)])

include hd

theorem lookup_nested {key : String} (he : key ≠ "example") (hf : key ≠ "default")
    (hp : key ≠ "properties") (hq : key ≠ "additionalProperties") (hr : key ≠ "required")
    (hi : key ≠ "items") :
    (schemaMembers k parts d).lookup key = (getTypeSchema (some k.type)).lookup key := by
  have htrailing := lookup_trailing (k := k) hd he hf
  rw [schemaMembers_eq, List.lookup_append]
  cases k.type <;> simp [htrailing, lookup_members hp hq hr, lookup_cons_eq, hi]

theorem readType_schema : readType (schemaMembers k parts d) = k.type := by
  unfold readType
  rw [lookup_nested hd, lookup_nested hd]
  · cases k.type <;> rfl
  all_goals decide

theorem readItems_of_ne_array (h : k.type ≠ .array) :
    readItems (schemaMembers k parts d) = [] := by
  have hnone : (schemaMembers k parts d).lookup "items" = none := by
    have htrailing : (trailing k d).lookup "items" = none :=
      lookup_trailing hd (by decide) (by decide)
    have hmembers : (parts.members ++ trailing k d).lookup "items" =
        (trailing k d).lookup "items" := lookup_members (by decide) (by decide) (by decide) _
    rw [schemaMembers_eq]
    cases ht : k.type <;> simp [getTypeSchema, lookup_cons_eq, htrailing, hmembers] at h ⊢
    exact h ht
  rw [readItems, hnone]

theorem itemType_schema (hk : k.type ≠ .array → k.items = .string) :
    readType (readItems (schemaMembers k parts d)) = k.items := by
  by_cases h : k.type = .array
  · rw [readItems_schema h]
    by_cases hi : k.items = .object
    · rw [if_pos hi, hi]
      rfl
    · rw [if_neg hi]
      cases k.items <;> rfl
  · rw [readItems_of_ne_array hd h, hk h]
    rfl

theorem readParts_schema (h : takesChildren k.type (some k.items) = true) :
    readParts (if k.type = .object then schemaMembers k parts d
      else readItems (schemaMembers k parts d)) = parts := by
  have hp : (trailing k d).lookup "properties" = none :=
    lookup_trailing hd (by decide) (by decide)
  have hr : (trailing k d).lookup "required" = none := lookup_trailing hd (by decide) (by decide)
  by_cases ho : k.type = .object
  · rw [if_pos ho, schemaMembers_eq, ho]
    exact readParts_members (m := trailing k d) hp hr
  · have ha : k.type = .array ∧ k.items = .object := by
      simpa [takesChildren, ho] using h
    rw [if_neg ho, readItems_schema ha.1, if_pos ha.2]
    have hempty : readParts (parts.members ++ []) = parts := readParts_members rfl rfl
    rwa [List.append_nil] at hempty

theorem example_schema :
    readText ((schemaMembers k parts d).lookup "example") = k.example' := by
  rw [lookup_last (by decide), trailing]
  rcases hd with rfl | ⟨v, rfl⟩ <;> cases k.example' <;> rfl

theorem readDefault_schema : readDefault (schemaMembers k parts d) = d := by
  rw [readDefault, lookup_last (by decide), trailing]
  rcases hd with rfl | ⟨v, rfl⟩ <;> cases k.example' <;> rfl

end Read

section Same

variable {F : Type} [DescribedFields F] {n : Numerals}

def requiredNames (ts : List (RoseTree F)) : List JsonValue :=
  (ts.filter (fun t => required t.value = some true)).map (fun t => .str (name t.value))

/-- Siblings of different names fill the dictionary in their order. -/
theorem addProperties_spec : ∀ (ts : List (RoseTree F)) {parts q : ObjectParts},
    (ts.map (fun t => name t.value)).Nodup →
    (∀ t ∈ ts, parts.properties.lookup (name t.value) = none) →
    addProperties n parts ts = .ok q →
    ∃ schemas, List.Forall₂ (fun t s => buildParamSchema n t = .ok s) ts schemas ∧
      q.properties = parts.properties ++ (ts.map (fun t => name t.value)).zip schemas ∧
      q.required = parts.required ++ requiredNames ts
  | [], parts, q, _, _, h => by
    rw [addProperties, pure_eq_ok] at h
    subst h
    exact ⟨[], .nil, by simp, by simp [requiredNames]⟩
  | t :: ts, parts, q, hn, hnew, h => by
    rw [List.map_cons, List.nodup_cons] at hn
    simp only [addProperties, bind_eq_ok] at h
    obtain ⟨s, hs, h⟩ := h
    have hset := set_of_lookup_eq_none (hnew t List.mem_cons_self) s
    obtain ⟨schemas, hall, hprops, hreq⟩ := addProperties_spec ts hn.2 (by
      intro u hu
      have hne : name u.value ≠ name t.value := by
        intro he
        exact hn.1 (he ▸ List.mem_map_of_mem hu)
      rw [ObjectParts.add, lookup_set, if_neg hne]
      exact hnew u (List.mem_cons_of_mem _ hu)) h
    refine ⟨s :: schemas, .cons hs hall, ?_, ?_⟩
    · rw [hprops, ObjectParts.add, hset, List.append_assoc]
      rfl
    · rw [hreq, ObjectParts.add, requiredNames, requiredNames]
      by_cases hr : required t.value = some true <;> simp [hr]

theorem mem_requiredNames {ts : List (RoseTree F)} (hn : (ts.map (fun t => name t.value)).Nodup)
    {t : RoseTree F} (ht : t ∈ ts) :
    .str (name t.value) ∈ requiredNames ts ↔ required t.value = some true := by
  simp only [requiredNames, List.mem_map, List.mem_filter, decide_eq_true_eq,
    JsonValue.str.injEq]
  constructor
  · rintro ⟨u, ⟨hu, hr⟩, he⟩
    rwa [← List.inj_on_of_nodup_map hn hu ht he]
  · intro hr
    exact ⟨t, ⟨ht, hr⟩, rfl⟩

/-- Two params of one name that get one schema in objects that require both or neither. -/
structure Alike (n : Numerals) (t u : RoseTree F) : Prop where
  name : name t.value = name u.value
  required : required t.value = some true ↔ required u.value = some true
  schema : ∃ s, buildParamSchema n t = .ok s ∧ buildParamSchema n u = .ok s
  left : DistinctSiblings t.children
  right : DistinctSiblings u.children

theorem forall₂_of_names {ts us : List (RoseTree F)} {schemas : List JsonValue}
    (ht : List.Forall₂ (fun t s => buildParamSchema n t = .ok s) ts schemas)
    (hu : List.Forall₂ (fun t s => buildParamSchema n t = .ok s) us schemas)
    (hnames : ts.map (fun t => name t.value) = us.map (fun t => name t.value)) :
    List.Forall₂ (fun t u => name t.value = name u.value ∧
      ∃ s, buildParamSchema n t = .ok s ∧ buildParamSchema n u = .ok s) ts us := by
  induction ht generalizing us with
  | nil =>
    cases hu
    exact .nil
  | @cons t s ts ss hs _ ih =>
    cases hu with
    | @cons u _ us _ hs' hus =>
      rw [List.map_cons, List.map_cons, List.cons.injEq] at hnames
      exact .cons ⟨hnames.1, s, hs, hs'⟩ (ih hus hnames.2)

theorem alike_of_parts {ts us : List (RoseTree F)} {parts : ObjectParts}
    (hts : DistinctSiblings ts) (hus : DistinctSiblings us)
    (ht : addProperties n .empty ts = .ok parts) (hu : addProperties n .empty us = .ok parts) :
    List.Forall₂ (Alike n) ts us := by
  obtain ⟨hnt, hct⟩ := hts
  obtain ⟨hnu, hcu⟩ := hus
  obtain ⟨ss, hss, hprops, hreq⟩ := addProperties_spec ts hnt (fun _ _ => rfl) ht
  obtain ⟨rs, hrs, hprops', hreq'⟩ := addProperties_spec us hnu (fun _ _ => rfl) hu
  have hlen : (ts.map (fun t => name t.value)).length = ss.length := by
    rw [List.length_map, hss.length_eq]
  have hlen' : (us.map (fun t => name t.value)).length = rs.length := by
    rw [List.length_map, hrs.length_eq]
  have hzip := List.append_cancel_left (hprops.symm.trans hprops')
  have hnames : ts.map (fun t => name t.value) = us.map (fun t => name t.value) := by
    rw [← List.map_fst_zip hlen.le, hzip, List.map_fst_zip hlen'.le]
  have hschemas : rs = ss := by
    rw [← List.map_snd_zip hlen.ge, hzip, List.map_snd_zip hlen'.ge]
  subst hschemas
  obtain ⟨hlength, hpairs⟩ := List.forall₂_iff_zip.mp (forall₂_of_names hss hrs hnames)
  refine List.forall₂_iff_zip.mpr ⟨hlength, ?_⟩
  intro t u hmem
  obtain ⟨htm, hum⟩ := List.of_mem_zip hmem
  obtain ⟨hname, hschema⟩ := hpairs hmem
  refine ⟨hname, ?_, hschema, hct t htm, hcu u hum⟩
  have hnamesEq := List.append_cancel_left (hreq.symm.trans hreq')
  rw [← mem_requiredNames hnt htm, ← mem_requiredNames hnu hum, hnamesEq, hname]

theorem items_keptOf (f : F) : (keptOf n f).type ≠ .array → (keptOf n f).items = .string :=
  fun h => if_neg h

mutual

/-- What is kept of a param can be read from its schema. -/
theorem kept_of_schema : ∀ t u : RoseTree F, Alike n t u → keptTree n t = keptTree n u
  | .node f ts, .node g us, h => by
    obtain ⟨hname, hrequired, ⟨s, hs, hs'⟩, hts, hus⟩ := h
    simp only [buildParamSchema_eq, bind_eq_ok, pure_eq_ok] at hs hs'
    obtain ⟨parts, hparts, d, hd, rfl⟩ := hs
    obtain ⟨parts', hparts', d', hd', hsame⟩ := hs'
    have hm := (JsonValue.obj.inj hsame).symm
    have hshape := defaultMembers_shape hd
    have hshape' := defaultMembers_shape hd'
    have htype : (keptOf n f).type = (keptOf n g).type := by
      rw [← readType_schema hshape, hm, readType_schema hshape']
    have hitems : (keptOf n f).items = (keptOf n g).items := by
      rw [← itemType_schema hshape (items_keptOf f), hm,
        itemType_schema hshape' (items_keptOf g)]
    have hexample : (keptOf n f).example' = (keptOf n g).example' := by
      rw [← example_schema hshape, hm, example_schema hshape']
    have hdefault : d = d' := by
      rw [← readDefault_schema hshape, hm, readDefault_schema hshape']
    have hkept : keptOf n f = keptOf n g := by
      have hflag : (keptOf n f).required = (keptOf n g).required := decide_eq_decide.mpr hrequired
      have hread : (keptOf n f).default = (keptOf n g).default := hd.trans (hdefault ▸ hd'.symm)
      exact Kept.ext hname htype hitems hflag hexample hread
    have hmay : mayHaveChildren f = mayHaveChildren g := by
      rw [mayHaveChildren_keptOf n, mayHaveChildren_keptOf n, hkept]
    rw [keptTree, keptTree, hkept]
    congr 1
    by_cases hg : mayHaveChildren g = true
    · rw [hmay, if_pos hg, if_pos hg]
      rw [hmay, if_pos hg] at hparts
      rw [if_pos hg] at hparts'
      have htakes : takesChildren (keptOf n g).type (some (keptOf n g).items) = true := by
        rw [← mayHaveChildren_keptOf, hg]
      have hpp : parts = parts' := by
        have hread : readParts (if (keptOf n f).type = .object
            then schemaMembers (keptOf n f) parts d
            else readItems (schemaMembers (keptOf n f) parts d)) = parts :=
          readParts_schema hshape (hkept ▸ htakes)
        rw [hm, htype, readParts_schema hshape' htakes] at hread
        exact hread.symm
      exact kept_of_alike ts us (alike_of_parts hts hus hparts (hpp ▸ hparts'))
    · rw [hmay, if_neg hg, if_neg hg]

theorem kept_of_alike : ∀ ts us : List (RoseTree F), List.Forall₂ (Alike n) ts us →
    keptForest n ts = keptForest n us
  | [], [], _ => rfl
  | t :: ts, u :: us, h => by
    obtain ⟨ht, hts⟩ := List.forall₂_cons.mp h
    rw [keptForest, keptForest, kept_of_schema t u ht, kept_of_alike ts us hts]

end

/-- Two lists of params get one schema just when the same is kept of them. -/
theorem rootSchema_eq_iff {ts us : List (RoseTree F)} (hts : DistinctSiblings ts)
    (hus : DistinctSiblings us) {s r : JsonValue} (ht : buildRootSchema n ts = .ok s)
    (hu : buildRootSchema n us = .ok r) : s = r ↔ keptForest n ts = keptForest n us := by
  constructor
  · rintro rfl
    simp only [buildRootSchema, bind_eq_ok, pure_eq_ok] at ht hu
    obtain ⟨parts, hparts, rfl⟩ := ht
    obtain ⟨parts', hparts', hsame⟩ := hu
    have hpp : parts' = parts := by
      rw [← readParts_root parts', JsonValue.obj.inj hsame, readParts_root]
    exact kept_of_alike ts us (alike_of_parts hts hus hparts (hpp ▸ hparts'))
  · intro h
    rw [rootSchema_of_kept n h, hu] at ht
    exact (Except.ok.inj ht).symm

end Same

inductive Slot where
  | request
  | response (statusCode : ℤ)
  deriving DecidableEq

def slotsOf (a : LoadedApi) : List Slot :=
  (if (requestsAt a .body).isEmpty then [] else [.request]) ++ (statusCodes a).map .response

@[simp] theorem request_mem_slotsOf {a : LoadedApi} :
    .request ∈ slotsOf a ↔ requestsAt a .body ≠ [] := by
  cases h : requestsAt a .body <;> simp [slotsOf, h]

@[simp] theorem response_mem_slotsOf {a : LoadedApi} {statusCode : ℤ} :
    .response statusCode ∈ slotsOf a ↔ statusCode ∈ statusCodes a := by
  cases h : requestsAt a .body <;> simp [slotsOf, h]

def slotName (a : LoadedApi) : Slot → String
  | .request => requestName a
  | .response statusCode => responseName a statusCode

def slotSchema (n : Numerals) (a : LoadedApi) : Slot → Tx JsonValue
  | .request => buildRootSchema n (requestsAt a .body)
  | .response statusCode => buildRootSchema n (responsesFor a statusCode)

def suffix (statusCode : ℤ) : String := if statusCode = 200 then "" else toString statusCode

theorem suffix_inj {i j : ℤ} (h : suffix i = suffix j) : i = j := by
  unfold suffix at h
  by_cases hi : i = 200
  · by_cases hj : j = 200
    · rw [hi, hj]
    · rw [if_pos hi, if_neg hj] at h
      exact absurd h.symm (toString_ne_empty j)
  · by_cases hj : j = 200
    · rw [if_neg hi, if_pos hj] at h
      exact absurd h (toString_ne_empty i)
    · rw [if_neg hi, if_neg hj] at h
      exact toString_inj.mp h

theorem isNumeral_of_mem_suffix {i : ℤ} {c : Char} (h : c ∈ (suffix i).toList) :
    isNumeral c = true := by
  unfold suffix at h
  split at h
  · cases h
  · exact isNumeral_of_mem h

/-- The names of components tell the slots apart, and nothing more than `toComponentName`
keeps of the names of apis. -/
theorem slotName_eq_iff {a b : LoadedApi} {s t : Slot} : slotName a s = slotName b t ↔
    s = t ∧ toComponentName a.api.fields.name.val = toComponentName b.api.fields.name.val := by
  have hresponse : ∀ (c : LoadedApi) (i : ℤ), (responseName c i).toList =
      (toComponentName c.api.fields.name.val).toList ++ ['R', 'e', 's', 'p', 'o', 'n', 's'] ++
        'e' :: (suffix i).toList := by
    intro c i
    rw [responseName, ← suffix, String.toList_append, String.toList_append, List.append_assoc,
      List.append_assoc]
    rfl
  have hrequest : ∀ c : LoadedApi, (requestName c).toList =
      (toComponentName c.api.fields.name.val).toList ++ ['R', 'e', 'q', 'u'] ++
        'e' :: ['s', 't'] := by
    intro c
    rw [requestName, String.toList_append, List.append_assoc]
    rfl
  have hdigits : ∀ (i : ℤ) (c : Char), isNumeral c = false → c ∉ (suffix i).toList := by
    intro i c hc hm
    rw [isNumeral_of_mem_suffix hm] at hc
    cases hc
  have hapart : ∀ (c d : LoadedApi) (i : ℤ), requestName c ≠ responseName d i := by
    intro c d i h
    have hl := congrArg String.toList h
    rw [hrequest, hresponse, cons_append_inj (by decide) (hdigits i 'e' rfl)] at hl
    exact hdigits i 's' rfl (hl.2 ▸ List.mem_cons_self)
  constructor
  · intro h
    cases s with
    | request =>
      cases t with
      | request =>
        have hl := congrArg String.toList h
        rw [slotName, slotName, hrequest, hrequest, List.append_assoc, List.append_assoc] at hl
        exact ⟨rfl, String.toList_inj.mp (List.append_cancel_right hl)⟩
      | response j => exact absurd h (hapart a b j)
    | response i =>
      cases t with
      | request => exact absurd h.symm (hapart b a i)
      | response j =>
        have hl := congrArg String.toList h
        rw [slotName, slotName, hresponse, hresponse,
          cons_append_inj (hdigits i 'e' rfl) (hdigits j 'e' rfl)] at hl
        obtain ⟨hname, hsuffix⟩ := hl
        rw [suffix_inj (String.toList_inj.mp hsuffix)]
        exact ⟨rfl, String.toList_inj.mp (List.append_cancel_right hname)⟩
  · rintro ⟨rfl, h⟩
    cases s with
    | request => rw [slotName, slotName, requestName, requestName, h]
    | response i => rw [slotName, slotName, responseName, responseName, h]

def component (n : Numerals) (a : LoadedApi) (slot : Slot) : Tx (String × JsonValue) := do
  let schema ← slotSchema n a slot
  pure (slotName a slot, schema)

def responseEntry (a : LoadedApi) (statusCode : ℤ) : String × JsonValue :=
  (toString statusCode, .obj [("description", .str ("Response for " ++ toString statusCode)),
    ("content", jsonContent (responseName a statusCode))])

def requestMembers (a : LoadedApi) : Members :=
  if (requestsAt a .body).isEmpty then []
  else [("requestBody",
    .obj [("required", .bool true), ("content", jsonContent (requestName a))])]

def operationOf (a : LoadedApi) (parameters : List JsonValue) : JsonValue :=
  .obj ([("description", textOrNull a.api.fields.description),
    ("operationId", .str a.api.fields.name.val), ("parameters", .arr parameters),
    ("responses", .obj (setAll [] ((statusCodes a).map (responseEntry a)))),
    ("deprecated", .bool !a.api.fields.isEnabled)] ++ requestMembers a)

section Export

variable {n : Numerals} {a : LoadedApi}

theorem addResponses_eq_ok {codes : List ℤ} {done p : Members × Members}
    (h : codes.foldlM (addResponse n a) done = .ok p) :
    ∃ entries, (codes.map Slot.response).mapM (component n a) = .ok entries ∧
      p = (setAll done.1 (codes.map (responseEntry a)), setAll done.2 entries) := by
  induction codes generalizing done with
  | nil =>
    rw [List.foldlM_nil, pure_eq_ok] at h
    exact ⟨[], rfl, h.symm⟩
  | cons c codes ih =>
    simp only [List.foldlM_cons, addResponse, bind_eq_ok, pure_eq_ok] at h
    obtain ⟨_, ⟨schema, hs, rfl⟩, h⟩ := h
    obtain ⟨entries, hentries, rfl⟩ := ih h
    refine ⟨(responseName a c, schema) :: entries, ?_, rfl⟩
    simp only [List.map_cons, List.mapM_cons, component, slotSchema, hs, bind_eq_ok, pure_eq_ok]
    exact ⟨_, ⟨schema, rfl, rfl⟩, entries, hentries, rfl⟩

theorem exportApi_eq_ok {d d' : Document} (h : exportApi n d a = .ok d') :
    ∃ ps entries, parameters n a = .ok ps ∧ (slotsOf a).mapM (component n a) = .ok entries ∧
      d' = ⟨setIn d.paths a.api.fields.path.val (methodKey a.api.fields.method)
        (operationOf a ps), setAll d.schemas entries⟩ := by
  simp only [exportApi, requestBody, bind_eq_ok, pure_eq_ok] at h
  obtain ⟨ps, hps, ⟨body, schemas⟩, hbody, ⟨done, schemas'⟩, hresponses, rfl⟩ := h
  obtain ⟨entries, hentries, hpair⟩ := addResponses_eq_ok hresponses
  obtain ⟨rfl, rfl⟩ := Prod.mk.inj hpair
  unfold slotsOf operationOf requestMembers
  by_cases hempty : (requestsAt a .body).isEmpty = true
  · rw [if_pos hempty, pure_eq_ok, Prod.mk.injEq] at hbody
    obtain ⟨rfl, rfl⟩ := hbody
    rw [if_pos hempty, if_pos hempty]
    exact ⟨ps, entries, hps, hentries, rfl⟩
  · simp only [if_neg hempty, bind_eq_ok, pure_eq_ok, Prod.mk.injEq] at hbody
    obtain ⟨schema, hs, rfl, rfl⟩ := hbody
    rw [if_neg hempty, if_neg hempty]
    refine ⟨ps, (requestName a, schema) :: entries, hps, ?_, rfl⟩
    simp only [List.singleton_append, List.mapM_cons, component, slotSchema, hs, bind_eq_ok,
      pure_eq_ok]
    exact ⟨_, ⟨schema, rfl, rfl⟩, entries, hentries, rfl⟩

theorem mem_components {entries : Members}
    (h : (slotsOf a).mapM (component n a) = .ok entries) {k : String} {v : JsonValue} :
    (k, v) ∈ entries ↔ ∃ slot ∈ slotsOf a, slotName a slot = k ∧ slotSchema n a slot = .ok v := by
  rw [mem_of_mapM h]
  simp only [component, bind_eq_ok, pure_eq_ok, Prod.mk.injEq]
  constructor
  · rintro ⟨slot, hslot, schema, hs, hk, rfl⟩
    exact ⟨slot, hslot, hk, hs⟩
  · rintro ⟨slot, hslot, hk, hs⟩
    exact ⟨slot, hslot, v, hs, hk, rfl⟩

end Export

def valueAt (v : JsonValue) : List String → Option JsonValue
  | [] => some v
  | k :: ks =>
    match v with
    | .obj m => (m.lookup k).bind (fun w => valueAt w ks)
    | _ => none

def operationAt (document : JsonValue) (a : LoadedApi) : Option JsonValue :=
  valueAt document ["paths", a.api.fields.path.val, methodKey a.api.fields.method]

def refPath : Slot → List String
  | .request => ["requestBody", "content", "application/json", "schema", "$ref"]
  | .response statusCode =>
    ["responses", toString statusCode, "content", "application/json", "schema", "$ref"]

def resolve (document : JsonValue) : JsonValue → Option JsonValue
  | .str ref =>
    if refPrefix.toList.isPrefixOf ref.toList then
      valueAt document ["components", "schemas",
        String.ofList (ref.toList.drop refPrefix.toList.length)]
    else none
  | _ => none

structure Exported where
  source : LoadedApi
  operation : JsonValue
  components : Members

structure IsExport (n : Numerals) (e : Exported) : Prop where
  operation : ∃ ps, parameters n e.source = .ok ps ∧ e.operation = operationOf e.source ps
  components : (slotsOf e.source).mapM (component n e.source) = .ok e.components

def place (a : LoadedApi) : String × String :=
  (a.api.fields.path.val, methodKey a.api.fields.method)

section Document

variable {n : Numerals}

theorem exportApis_eq_ok {apis : List LoadedApi} {d d' : Document}
    (h : apis.foldlM (exportApi n) d = .ok d') :
    ∃ es : List Exported, es.map Exported.source = apis ∧ (∀ e ∈ es, IsExport n e) ∧
      d' = ⟨es.foldl (fun p e => setIn p (place e.source).1 (place e.source).2 e.operation) d.paths,
        setAll d.schemas (es.flatMap Exported.components)⟩ := by
  induction apis generalizing d with
  | nil =>
    rw [List.foldlM_nil, pure_eq_ok] at h
    refine ⟨[], rfl, ?_, h.symm⟩
    intro e he
    cases he
  | cons a apis ih =>
    simp only [List.foldlM_cons, bind_eq_ok] at h
    obtain ⟨d₁, h₁, h⟩ := h
    obtain ⟨ps, entries, hps, hentries, rfl⟩ := exportApi_eq_ok h₁
    obtain ⟨es, rfl, hes, rfl⟩ := ih h
    refine ⟨⟨a, operationOf a ps, entries⟩ :: es, rfl, ?_, ?_⟩
    · intro e he
      rcases List.mem_cons.mp he with rfl | he
      · exact ⟨⟨ps, hps, rfl⟩, hentries⟩
      · exact hes e he
    · rw [List.flatMap_cons, setAll_append]
      rfl

structure Exports (n : Numerals) (apis : List LoadedApi) (document : JsonValue)
    (es : List Exported) : Prop where
  sources : es.map Exported.source = apis
  exports : ∀ e ∈ es, IsExport n e
  operationAt : ∀ a, operationAt document a = lookupIn (es.foldl (fun p e =>
    setIn p (place e.source).1 (place e.source).2 e.operation) []) (place a).1 (place a).2
  schemaAt : ∀ name, valueAt document ["components", "schemas", name] =
    (setAll [] (es.flatMap Exported.components)).lookup name

theorem exports_of_template {service : ExportSource} {document : JsonValue}
    (h : openapiTemplate n service = .ok document) : ∃ es, Exports n service.apis document es := by
  simp only [openapiTemplate, bind_eq_ok, pure_eq_ok] at h
  obtain ⟨d, hd, contact, _, rfl⟩ := h
  obtain ⟨es, hsources, hes, rfl⟩ := exportApis_eq_ok hd
  refine ⟨es, hsources, hes, ?_, ?_⟩
  · intro a
    generalize es.foldl (fun p e =>
      setIn p (place e.source).1 (place e.source).2 e.operation) [] = paths
    show ((paths.map (fun p => (p.1, JsonValue.obj p.2))).lookup (place a).1).bind
      (fun w => valueAt w [(place a).2]) = _
    rw [lookup_map_values, lookupIn]
    cases paths.lookup (place a).1 with
    | none => rfl
    | some methods => exact Option.bind_fun_some (methods.lookup (place a).2)
  · intro name
    exact Option.bind_fun_some _

/-- The operation of an api is found, and its references lead to the schemas of its own
params. -/
structure ResolvesOwn (n : Numerals) (document : JsonValue) (a : LoadedApi) : Prop where
  operation : ∃ ps, parameters n a = .ok ps ∧ operationAt document a = some (operationOf a ps)
  schemas : ∀ slot ∈ slotsOf a, ∃ ref schema,
    (operationAt document a).bind (fun o => valueAt o (refPath slot)) = some ref ∧
      slotSchema n a slot = .ok schema ∧ resolve document ref = some schema

/-- The operation names the component of each slot. -/
theorem operationOf_ref {a : LoadedApi} {ps : List JsonValue} {slot : Slot}
    (h : slot ∈ slotsOf a) :
    valueAt (operationOf a ps) (refPath slot) = some (.str (refPrefix ++ slotName a slot)) := by
  cases slot with
  | request =>
    have hbody : ¬ (requestsAt a .body).isEmpty = true := by
      simpa using request_mem_slotsOf.mp h
    rw [operationOf, requestMembers, if_neg hbody]
    rfl
  | response c =>
    have hfound : (setAll [] ((statusCodes a).map (responseEntry a))).lookup (toString c) =
        some (responseEntry a c).2 := by
      refine (found_iff_agree _).mpr ?_ _ _
        (List.mem_map_of_mem (response_mem_slotsOf.mp h))
      intro k v w hv hw
      obtain ⟨i, _, hi⟩ := List.mem_map.mp hv
      obtain ⟨j, _, hj⟩ := List.mem_map.mp hw
      have hij : i = j :=
        toString_inj.mp ((congrArg Prod.fst hi).trans (congrArg Prod.fst hj).symm)
      subst hij
      exact (congrArg Prod.snd hi).symm.trans (congrArg Prod.snd hj)
    show ((setAll [] ((statusCodes a).map (responseEntry a))).lookup (toString c)).bind
      (fun w => valueAt w ["content", "application/json", "schema", "$ref"]) = _
    rw [hfound]
    rfl

theorem resolve_ref (document : JsonValue) (name : String) :
    resolve document (.str (refPrefix ++ name)) =
      valueAt document ["components", "schemas", name] := by
  rw [resolve, String.toList_append, if_pos (by simp), List.drop_left, String.ofList_toList]

/-- What two apis with one component name must have in common. -/
structure SameParams (n : Numerals) (a b : LoadedApi) : Prop where
  body : requestsAt a .body ≠ [] → requestsAt b .body ≠ [] →
    keptForest n (requestsAt a .body) = keptForest n (requestsAt b .body)
  responses : ∀ statusCode ∈ statusCodes a, statusCode ∈ statusCodes b →
    keptForest n (responsesFor a statusCode) = keptForest n (responsesFor b statusCode)

structure SiblingsDiffer (a : LoadedApi) : Prop where
  body : DistinctSiblings (requestsAt a .body)
  responses : ∀ statusCode ∈ statusCodes a, DistinctSiblings (responsesFor a statusCode)

/-- Components of one name are equal just when what is kept of their params is. -/
theorem sameParams_iff {a b : LoadedApi} (ha : SiblingsDiffer a) (hb : SiblingsDiffer b)
    (hok : ∀ slot ∈ slotsOf a, ∃ schema, slotSchema n a slot = .ok schema)
    (hok' : ∀ slot ∈ slotsOf b, ∃ schema, slotSchema n b slot = .ok schema) :
    SameParams n a b ↔ ∀ slot ∈ slotsOf a, slot ∈ slotsOf b →
      slotSchema n a slot = slotSchema n b slot := by
  have hiff : ∀ {F : Type} [DescribedFields F] {ts us : List (RoseTree F)},
      DistinctSiblings ts → DistinctSiblings us → (∃ s, buildRootSchema n ts = .ok s) →
      (∃ s, buildRootSchema n us = .ok s) →
      (keptForest n ts = keptForest n us ↔ buildRootSchema n ts = buildRootSchema n us) := by
    intro F _ ts us hts hus ⟨s, hs⟩ ⟨r, hr⟩
    rw [← rootSchema_eq_iff hts hus hs hr, hs, hr, Except.ok.injEq]
  constructor
  · rintro ⟨hbody, hresponses⟩ (_ | c) hslot hslot'
    · exact (hiff ha.body hb.body (hok _ hslot) (hok' _ hslot')).mp
        (hbody (request_mem_slotsOf.mp hslot) (request_mem_slotsOf.mp hslot'))
    · have hc := response_mem_slotsOf.mp hslot
      have hc' := response_mem_slotsOf.mp hslot'
      exact (hiff (ha.responses c hc) (hb.responses c hc') (hok _ hslot) (hok' _ hslot')).mp
        (hresponses c hc hc')
  · intro h
    constructor
    · intro hne hne'
      have hslot := request_mem_slotsOf.mpr hne
      have hslot' := request_mem_slotsOf.mpr hne'
      exact (hiff ha.body hb.body (hok _ hslot) (hok' _ hslot')).mpr (h _ hslot hslot')
    · intro c hc hc'
      have hslot := response_mem_slotsOf.mpr hc
      have hslot' := response_mem_slotsOf.mpr hc'
      exact (hiff (ha.responses c hc) (hb.responses c hc') (hok _ hslot) (hok' _ hslot')).mpr
        (h _ hslot hslot')

theorem methodKey_inj {m m' : HttpMethod} (h : methodKey m = methodKey m') : m = m' := by
  cases m <;> cases m' <;> first | rfl | exact absurd h (by decide)

theorem places_nodup {apis : List LoadedApi}
    (h : (apis.map (fun a => (a.api.fields.method, a.api.fields.path))).Nodup) :
    (apis.map place).Nodup := by
  have hinj : Function.Injective
      (fun p : HttpMethod × VarChar 256 => (p.2.val, methodKey p.1)) := by
    rintro ⟨m, p⟩ ⟨m', p'⟩ he
    obtain ⟨hp, hm⟩ := Prod.mk.inj he
    exact Prod.ext (methodKey_inj hm) (VarChar.ext hp)
  have hmap := h.map hinj
  rw [List.map_map] at hmap
  exact hmap

section Exports

variable {apis : List LoadedApi} {document : JsonValue} {es : List Exported}
  (h : Exports n apis document es)

include h

theorem source_of_mem {a : LoadedApi} (ha : a ∈ apis) : ∃ e ∈ es, e.source = a := by
  rw [← h.sources] at ha
  exact List.mem_map.mp ha

theorem mem_allComponents {k : String} {v : JsonValue} :
    (k, v) ∈ es.flatMap Exported.components ↔ ∃ a ∈ apis, ∃ slot ∈ slotsOf a,
      slotName a slot = k ∧ slotSchema n a slot = .ok v := by
  rw [List.mem_flatMap]
  constructor
  · rintro ⟨e, he, hkv⟩
    exact ⟨e.source, h.sources ▸ List.mem_map_of_mem he,
      (mem_components (h.exports e he).components).mp hkv⟩
  · rintro ⟨a, ha, hslot⟩
    obtain ⟨e, he, rfl⟩ := source_of_mem h ha
    exact ⟨e, he, (mem_components (h.exports e he).components).mpr hslot⟩

theorem schema_built {a : LoadedApi} (ha : a ∈ apis) :
    ∀ slot ∈ slotsOf a, ∃ schema, slotSchema n a slot = .ok schema := by
  intro slot hslot
  obtain ⟨e, he, rfl⟩ := source_of_mem h ha
  obtain ⟨p, hp⟩ := ok_of_mapM (h.exports e he).components slot hslot
  simp only [component, bind_eq_ok] at hp
  obtain ⟨schema, hs, _⟩ := hp
  exact ⟨schema, hs⟩

/-- No operation is overwritten where no two apis share method and path. -/
theorem own_operation (hplaces : (apis.map place).Nodup) {a : LoadedApi} (ha : a ∈ apis) :
    ∃ ps, parameters n a = .ok ps ∧ operationAt document a = some (operationOf a ps) := by
  obtain ⟨e, he, rfl⟩ := source_of_mem h ha
  obtain ⟨ps, hps, hop⟩ := (h.exports e he).operation
  refine ⟨ps, hps, ?_⟩
  rw [← h.sources, List.map_map] at hplaces
  rw [h.operationAt, ← hop]
  exact @lookupIn_foldl _ _ _ _ _ _ (place ∘ Exported.source) _ _ _ hplaces e he

/-- The references resolve just when no component is overwritten by another one. -/
theorem resolves_iff_found (hplaces : (apis.map place).Nodup) :
    (∀ a ∈ apis, ResolvesOwn n document a) ↔
      ∀ k v, (k, v) ∈ es.flatMap Exported.components →
        (setAll [] (es.flatMap Exported.components)).lookup k = some v := by
  constructor
  · intro hall k v hkv
    obtain ⟨a, ha, slot, hslot, rfl, hv⟩ := (mem_allComponents h).mp hkv
    obtain ⟨ps, _, hop⟩ := (hall a ha).operation
    obtain ⟨ref, schema, href, hs, hresolve⟩ := (hall a ha).schemas slot hslot
    rw [hop, Option.bind_some, operationOf_ref hslot] at href
    rw [← Option.some.inj href, resolve_ref, h.schemaAt] at hresolve
    rw [hresolve, Except.ok.inj (hs.symm.trans hv)]
  · intro hall a ha
    obtain ⟨ps, hps, hop⟩ := own_operation h hplaces ha
    refine ⟨⟨ps, hps, hop⟩, ?_⟩
    intro slot hslot
    obtain ⟨schema, hs⟩ := schema_built h ha slot hslot
    refine ⟨.str (refPrefix ++ slotName a slot), schema, ?_, hs, ?_⟩
    · rw [hop, Option.bind_some, operationOf_ref hslot]
    · rw [resolve_ref, h.schemaAt]
      exact hall _ schema ((mem_allComponents h).mpr ⟨a, ha, slot, hslot, rfl, hs⟩)

theorem agree_iff_sameParams (hsiblings : ∀ a ∈ apis, SiblingsDiffer a) :
    (∀ k v w, (k, v) ∈ es.flatMap Exported.components →
      (k, w) ∈ es.flatMap Exported.components → v = w) ↔
      ∀ a ∈ apis, ∀ b ∈ apis,
        toComponentName a.api.fields.name.val = toComponentName b.api.fields.name.val →
        SameParams n a b := by
  have hsame : ∀ {a b : LoadedApi}, a ∈ apis → b ∈ apis → (SameParams n a b ↔
      ∀ slot ∈ slotsOf a, slot ∈ slotsOf b → slotSchema n a slot = slotSchema n b slot) :=
    fun ha hb => sameParams_iff (hsiblings _ ha) (hsiblings _ hb) (schema_built h ha)
      (schema_built h hb)
  constructor
  · intro hagree a ha b hb hnames
    refine (hsame ha hb).mpr ?_
    intro slot hslot hslot'
    obtain ⟨v, hv⟩ := schema_built h ha slot hslot
    obtain ⟨w, hw⟩ := schema_built h hb slot hslot'
    have hname : slotName b slot = slotName a slot := slotName_eq_iff.mpr ⟨rfl, hnames.symm⟩
    rw [hv, hw, hagree _ v w ((mem_allComponents h).mpr ⟨a, ha, slot, hslot, rfl, hv⟩)
      ((mem_allComponents h).mpr ⟨b, hb, slot, hslot', hname, hw⟩)]
  · intro hall k v w hv hw
    obtain ⟨a, ha, slot, hslot, hk, hv⟩ := (mem_allComponents h).mp hv
    obtain ⟨b, hb, slot', hslot', hk', hw⟩ := (mem_allComponents h).mp hw
    obtain ⟨rfl, hnames⟩ := slotName_eq_iff.mp (hk.trans hk'.symm)
    have hequal := (hsame ha hb).mp (hall a ha b hb hnames) slot hslot hslot'
    rw [hv, hw] at hequal
    exact Except.ok.inj hequal

theorem resolves_iff_sameParams
    (hplaces : (apis.map (fun a => (a.api.fields.method, a.api.fields.path))).Nodup)
    (hsiblings : ∀ a ∈ apis, SiblingsDiffer a) :
    (∀ a ∈ apis, ResolvesOwn n document a) ↔ ∀ a ∈ apis, ∀ b ∈ apis,
      toComponentName a.api.fields.name.val = toComponentName b.api.fields.name.val →
      SameParams n a b := by
  rw [resolves_iff_found h (places_nodup hplaces), found_iff_agree,
    agree_iff_sameParams h hsiblings]

end Exports

/-- In an exported document every api has its own operation, and each reference of it leads to
the schema of the params of that api, just when apis whose names make one component name show
the same params in every slot that both have. -/
theorem references_resolve_iff {service : ExportSource} {document : JsonValue}
    (h : openapiTemplate n service = .ok document)
    (hplaces : (service.apis.map (fun a => (a.api.fields.method, a.api.fields.path))).Nodup)
    (hsiblings : ∀ a ∈ service.apis, SiblingsDiffer a) :
    (∀ a ∈ service.apis, ResolvesOwn n document a) ↔
      ∀ a ∈ service.apis, ∀ b ∈ service.apis,
        toComponentName a.api.fields.name.val = toComponentName b.api.fields.name.val →
        SameParams n a b := by
  obtain ⟨es, hes⟩ := exports_of_template h
  exact resolves_iff_sameParams hes hplaces hsiblings

end Document

def plainNumerals : Numerals := ⟨String.toInt?, fun _ => none⟩

def userApi (i : ℕ) (method : HttpMethod) (param : VarChar 64) : LoadedApi where
  api := ⟨i, 1, ⟨1, none, ⟨"user", by decide⟩, method, ⟨"/user", by decide⟩, none, .p4, true⟩⟩
  requestParams := []
  responseParams := [⟨i, i, none, ⟨200, param, .string, some true, none, none, none⟩⟩]

def userApis : ExportSource where
  serviceUuid := "team/core"
  description := none
  contact := some (userToJson (OperationRuns.member 1 ⟨"author", by decide⟩))
  version := some "0.0.2"
  apis := [userApi 1 .get ⟨"id", by decide⟩, userApi 2 .post ⟨"token", by decide⟩]

theorem userApi_siblings (i : ℕ) (method : HttpMethod) (param : VarChar 64) :
    SiblingsDiffer (userApi i method param) := by
  constructor
  · exact .intro List.nodup_nil (fun t ht => by cases ht)
  · intro c hc
    have hcode : c = 200 := by
      simpa [statusCodes, userApi, isRoot] using hc
    subst hcode
    refine .intro (List.nodup_singleton param.val) ?_
    intro t ht
    obtain rfl := List.mem_singleton.mp ht
    exact .intro List.nodup_nil (fun u hu => by cases hu)

theorem userApis_siblings : ∀ a ∈ userApis.apis, SiblingsDiffer a := by
  intro a ha
  rcases List.mem_cons.mp ha with rfl | ha
  · exact userApi_siblings _ _ _
  · obtain rfl := List.mem_singleton.mp ha
    exact userApi_siblings _ _ _

theorem userApis_exported : ∃ document, openapiTemplate plainNumerals userApis = .ok document := by
  have hok : (openapiTemplate plainNumerals userApis).isOk = true := by decide +kernel
  cases h : openapiTemplate plainNumerals userApis with
  | error e =>
    rw [h] at hok
    cases hok
  | ok document => exact ⟨document, rfl⟩

theorem userApis_places :
    (userApis.apis.map (fun a => (a.api.fields.method, a.api.fields.path))).Nodup := by
  decide

theorem userApis_resolve_iff : ∃ document, openapiTemplate plainNumerals userApis = .ok document ∧
    ((∀ a ∈ userApis.apis, ResolvesOwn plainNumerals document a) ↔
      ∀ a ∈ userApis.apis, ∀ b ∈ userApis.apis,
        toComponentName a.api.fields.name.val = toComponentName b.api.fields.name.val →
        SameParams plainNumerals a b) := by
  obtain ⟨document, h⟩ := userApis_exported
  exact ⟨document, h, references_resolve_iff h userApis_places userApis_siblings⟩

/-- The response of the one is described by the schema of the other. -/
theorem second_method_overwrites_schema :
    ¬ ∀ (n : Numerals) (service : ExportSource) (document : JsonValue),
      openapiTemplate n service = .ok document →
      (service.apis.map (fun a => (a.api.fields.method, a.api.fields.path))).Nodup →
      (service.apis.map (fun a => (a.api.fields.method, a.api.fields.name))).Nodup →
      (∀ a ∈ service.apis, WellLinked Nests a.requestParams ∧ WellLinked Nests a.responseParams) →
      (∀ a ∈ service.apis, SiblingsDiffer a) →
      ∀ a ∈ service.apis, ResolvesOwn n document a := by
  intro hall
  obtain ⟨document, h⟩ := userApis_exported
  obtain ⟨es, hes⟩ := exports_of_template h
  have hlinked : ∀ a ∈ userApis.apis,
      WellLinked Nests a.requestParams ∧ WellLinked Nests a.responseParams := by
    have hone : ∀ i method param, WellLinked Nests (userApi i method param).requestParams ∧
        WellLinked Nests (userApi i method param).responseParams := by
      intro i method param
      constructor
      · intro r hr
        cases hr
      · intro r hr
        obtain rfl := List.mem_singleton.mp hr
        exact .root hr rfl
    intro a ha
    rcases List.mem_cons.mp ha with rfl | ha
    · exact hone _ _ _
    · obtain rfl := List.mem_singleton.mp ha
      exact hone _ _ _
  have hresolve := hall _ _ document h userApis_places (by decide) hlinked userApis_siblings
  have hsame := (resolves_iff_sameParams hes userApis_places userApis_siblings).mp hresolve
    _ List.mem_cons_self _ (List.mem_cons_of_mem _ List.mem_cons_self) rfl
  have hkept := congrArg (List.map (fun t => t.value.name))
    (hsame.responses 200 (by decide) (by decide))
  revert hkept
  decide

end SchemaReferences
