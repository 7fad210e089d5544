import ApiManagement.CompleteForests
import ApiManagement.SchemaReferences
import ApiManagement.StateInvariant

/-! # Schemas that mirror params

The schema of a list of params is a dictionary at every level: its properties are the children
in their order, it is closed where it has properties, and it requires the required children.
From it the names, the nesting, the required flags and the types of the params can be read
back. -/
namespace MirroredSchemas

open TransactionRuns ParentLinkedRows RowForests CompleteForests OrderedDictionaries PythonRuntime
  ServiceSchema StateInvariant ApiOperations OpenapiExport SchemaReferences

section Mirrors

variable {F : Type} [DescribedFields F]

inductive Defaultless : List (RoseTree F) → Prop where
  | intro {ts} : (∀ t ∈ ts, truthyText (defaultValue t.value) = none) →
      (∀ t ∈ ts, Defaultless t.children) → Defaultless ts

/-- Only objects and arrays of objects have children, at any depth. -/
inductive Nested : List (RoseTree F) → Prop where
  | intro {ts} : (∀ t ∈ ts, t.children ≠ [] → mayHaveChildren t.value = true) →
      (∀ t ∈ ts, Nested t.children) → Nested ts

structure TypedAs (t : Option ParamType) (m : Members) : Prop where
  type : m.lookup "type" = (getTypeSchema t).lookup "type"
  format : m.lookup "format" = (getTypeSchema t).lookup "format"

structure Lists (ts : List (RoseTree F)) (ps m : Members) : Prop where
  names : ps.map Prod.fst = ts.map (fun t => name t.value)
  required : m.lookup "required" =
    if (requiredNames ts).isEmpty then none else some (.arr (requiredNames ts))
  once : (requiredNames ts).Nodup
  known : ∀ k, .str k ∈ requiredNames ts → k ∈ ps.map Prod.fst

structure Level (ts : List (RoseTree F)) (ps m : Members) : Prop extends Lists ts ps m where
  properties : m.lookup "properties" = if ps.isEmpty then none else some (.obj ps)
  additional : m.lookup "additionalProperties" =
    if ps.isEmpty then none else some (.bool false)

structure RootLevel (ts : List (RoseTree F)) (ps m : Members) : Prop extends Lists ts ps m where
  type : TypedAs (some .object) m
  properties : m.lookup "properties" = some (.obj ps)
  additional : m.lookup "additionalProperties" = some (.bool false)

structure Bare (m : Members) : Prop where
  items : m.lookup "items" = none
  properties : m.lookup "properties" = none
  additional : m.lookup "additionalProperties" = none
  required : m.lookup "required" = none

mutual

/-- An object has a level, an array has items of its type and a level there if they are
objects, and a leaf has its type alone. -/
def MirrorsTree (n : Numerals) : RoseTree F → JsonValue → Prop
  | .node f ts, schema => ∃ m, schema = .obj m ∧ TypedAs (some (type f)) m ∧
    match type f with
    | .object => ∃ ps, Level ts ps m ∧ MirrorsForest n ts ps
    | .array => ∃ items, m.lookup "items" = some (.obj items) ∧ TypedAs (arrayChildType f) items ∧
      match arrayChildType f with
      | some .object => ∃ ps, Level ts ps items ∧ MirrorsForest n ts ps
      | _ => Bare items
    | _ => Bare m

def MirrorsForest (n : Numerals) : List (RoseTree F) → Members → Prop
  | [], ps => ps = []
  | t :: ts, ps => ∃ schema rest, ps = (name t.value, schema) :: rest ∧
    buildParamSchema n t = .ok schema ∧ MirrorsTree n t schema ∧ MirrorsForest n ts rest

end

theorem MirrorsForest.names {n : Numerals} : ∀ {ts : List (RoseTree F)} {ps : Members},
    MirrorsForest n ts ps → ps.map Prod.fst = ts.map (fun t => name t.value) := by
  intro ts
  induction ts with
  | nil =>
    rintro ps rfl
    rfl
  | cons t ts ih =>
    rintro ps ⟨schema, rest, rfl, _, _, hrest⟩
    rw [List.map_cons, List.map_cons, ih hrest]

theorem defaultMembers_none (n : Numerals) {f : F} (h : truthyText (defaultValue f) = none) :
    defaultMembers n f = .ok [] := by
  rw [defaultMembers, h]
  rfl

theorem nodup_requiredNames {ts : List (RoseTree F)}
    (h : (ts.map (fun t => name t.value)).Nodup) : (requiredNames ts).Nodup := by
  have hinj : Function.Injective JsonValue.str := fun _ _ he => JsonValue.str.inj he
  have hsub : ((ts.filter (fun t => DescribedFields.required t.value = some true)).map
      (fun t => name t.value)).Nodup :=
    h.sublist (List.filter_sublist.map _)
  have hmap := hsub.map hinj
  rwa [List.map_map] at hmap

theorem known_of_required {ts : List (RoseTree F)} {k : String}
    (h : .str k ∈ requiredNames ts) : k ∈ ts.map (fun t => name t.value) := by
  obtain ⟨t, ht, hk⟩ := List.mem_map.mp h
  obtain rfl := JsonValue.str.inj hk
  exact List.mem_map_of_mem (List.mem_of_mem_filter ht)

theorem lists_of_forest {n : Numerals} {ts : List (RoseTree F)} {ps m : Members}
    (hn : (ts.map (fun t => name t.value)).Nodup) (hps : MirrorsForest n ts ps)
    (hr : m.lookup "required" =
      if (requiredNames ts).isEmpty then none else some (.arr (requiredNames ts))) :
    Lists ts ps m := by
  refine ⟨hps.names, hr, nodup_requiredNames hn, ?_⟩
  intro k hk
  rw [hps.names]
  exact known_of_required hk

structure Apart (m : Members) : Prop where
  properties : m.lookup "properties" = none
  additional : m.lookup "additionalProperties" = none
  required : m.lookup "required" = none

theorem level_of_members {n : Numerals} {ts : List (RoseTree F)} {ps : Members}
    {before : Members} (after : Members) (hn : (ts.map (fun t => name t.value)).Nodup)
    (hps : MirrorsForest n ts ps) (hb : Apart before) (ha : Apart after) :
    Level ts ps (before ++ ((ObjectParts.mk ps (requiredNames ts)).members ++ after)) := by
  have hlookup : ∀ key : String, before.lookup key = none →
      (before ++ ((ObjectParts.mk ps (requiredNames ts)).members ++ after)).lookup key =
        ((ObjectParts.mk ps (requiredNames ts)).members ++ after).lookup key := by
    intro key hk
    rw [List.lookup_append, hk, Option.none_or]
  refine ⟨lists_of_forest hn hps ?_, ?_, ?_⟩
  · rw [hlookup _ hb.required, ObjectParts.members]
    cases ps <;> cases requiredNames ts <;> simp [lookup_cons_eq, ha.required]
  · rw [hlookup _ hb.properties, ObjectParts.members]
    cases ps <;> cases requiredNames ts <;> simp [lookup_cons_eq, ha.properties]
  · rw [hlookup _ hb.additional, ObjectParts.members]
    cases ps <;> cases requiredNames ts <;> simp [lookup_cons_eq, ha.additional]

theorem apart_typeMembers (t : Option ParamType) : Apart (getTypeSchema t) := by
  rcases t with _ | t
  · exact ⟨rfl, rfl, rfl⟩
  · cases t <;> exact ⟨rfl, rfl, rfl⟩

theorem apart_trailing (k : Kept) : Apart (trailing k []) := by
  refine ⟨?_, ?_, ?_⟩ <;> exact lookup_trailing (Or.inl rfl) (by decide) (by decide)

theorem typedAs_schema (k : Kept) (parts : ObjectParts) :
    TypedAs (some k.type) (schemaMembers k parts []) := by
  constructor <;> apply lookup_nested (Or.inl rfl) <;> decide

theorem bare_typeMembers (t : Option ParamType) : Bare (getTypeSchema t) := by
  rcases t with _ | t
  · exact ⟨rfl, rfl, rfl, rfl⟩
  · cases t <;> exact ⟨rfl, rfl, rfl, rfl⟩

/-- The items of an array without an element type are strings. -/
theorem typedAs_items (child : Option ParamType) :
    TypedAs child (getTypeSchema (some (child.getD .string))) := by
  cases child <;> exact ⟨rfl, rfl⟩

/-- What `buildParamSchema` adds to the type of a leaf is its example. -/
theorem bare_leaf {k : Kept} {parts : ObjectParts} (ho : k.type ≠ .object)
    (ha : k.type ≠ .array) : Bare (schemaMembers k parts []) := by
  have heq : schemaMembers k parts [] = getTypeSchema (some k.type) ++ trailing k [] := by
    rw [schemaMembers_eq]
    cases hk : k.type <;> first | rfl | exact absurd hk ho | exact absurd hk ha
  have hlookup : ∀ key : String, (getTypeSchema (some k.type)).lookup key = none →
      key ≠ "example" → key ≠ "default" → (schemaMembers k parts []).lookup key = none := by
    intro key hk he hd
    rw [heq, List.lookup_append, hk, Option.none_or, lookup_trailing (Or.inl rfl) he hd]
  have hbare := bare_typeMembers (some k.type)
  exact ⟨hlookup _ hbare.items (by decide) (by decide),
    hlookup _ hbare.properties (by decide) (by decide),
    hlookup _ hbare.additional (by decide) (by decide),
    hlookup _ hbare.required (by decide) (by decide)⟩

theorem items_schema {k : Kept} {parts : ObjectParts} (h : k.type = .array) :
    (schemaMembers k parts []).lookup "items" = some (.obj (if k.items = .object then
      ("type", .str "object") :: parts.members else getTypeSchema (some k.items))) := by
  rw [schemaMembers_eq, h]
  rfl

/-- One case for each of the three shapes of a schema. -/
theorem mirrors_of_parts {n : Numerals} {f : F} {ts : List (RoseTree F)} {ps : Members}
    {parts : ObjectParts} (hn : (ts.map (fun t => name t.value)).Nodup)
    (hps : MirrorsForest n ts ps)
    (hparts : mayHaveChildren f = true → parts = ⟨ps, requiredNames ts⟩) :
    MirrorsTree n (.node f ts) (.obj (schemaMembers (keptOf n f) parts [])) := by
  refine ⟨_, rfl, typedAs_schema (keptOf n f) parts, ?_⟩
  by_cases ho : type f = .object
  · rw [hparts (by simp [mayHaveChildren, takesChildren, ho]), schemaMembers_eq, ho]
    have hk : (keptOf n f).type = .object := ho
    rw [hk]
    exact ⟨ps, level_of_members _ hn hps (apart_typeMembers _) (apart_trailing _), hps⟩
  · by_cases ha : type f = .array
    · have hk : (keptOf n f).type = .array := ha
      have hchild : (keptOf n f).items = (arrayChildType f).getD .string := if_pos ha
      rw [ha]
      refine ⟨_, items_schema hk, ?_⟩
      by_cases hc : arrayChildType f = some .object
      · have hobject : (keptOf n f).items = .object := by rw [hchild, hc, Option.getD_some]
        rw [if_pos hobject, hparts (by simp [mayHaveChildren, takesChildren, ha, hc]), hc]
        have hlevel := level_of_members [] hn hps (apart_typeMembers (some .object))
          ⟨rfl, rfl, rfl⟩
        rw [List.append_nil] at hlevel
        have hformat : (("type", .str "object") ::
            (ObjectParts.mk ps (requiredNames ts)).members).lookup "format" = none := by
          cases ps <;> cases requiredNames ts <;> rfl
        exact ⟨⟨rfl, hformat⟩, ps, hlevel, hps⟩
      · have hleaf : ¬ (keptOf n f).items = .object := by
          rw [hchild]
          cases hcase : arrayChildType f with
          | none => exact fun h => by cases h
          | some c => exact fun h => hc (hcase.trans (congrArg some h))
        rw [if_neg hleaf, hchild]
        refine ⟨typedAs_items _, ?_⟩
        split
        · rename_i hobject
          exact absurd hobject hc
        · exact bare_typeMembers _
    · have hbare : Bare (schemaMembers (keptOf n f) parts []) := bare_leaf ho ha
      cases ht : type f <;> first | exact hbare | exact absurd ht ho | exact absurd ht ha

mutual

/-- A param without defaults gets a schema that mirrors it. -/
theorem schema_mirrors (n : Numerals) : ∀ t : RoseTree F, DistinctSiblings t.children →
    Defaultless [t] → ∃ schema, buildParamSchema n t = .ok schema ∧ MirrorsTree n t schema
  | .node f ts, hn, hd => by
    obtain ⟨hdefault, hbelow⟩ := hd
    have hnone : (keptOf n f).default = .ok [] :=
      defaultMembers_none n (hdefault _ (List.mem_singleton_self _))
    obtain ⟨ps, hadd, hps⟩ := properties_mirror n ts .empty hn
      (hbelow _ (List.mem_singleton_self _)) (fun _ _ => rfl)
    obtain ⟨hnames, -⟩ := hn
    rw [buildParamSchema_eq, hnone]
    by_cases hmay : mayHaveChildren f = true
    · rw [if_pos hmay, hadd]
      exact ⟨_, rfl, mirrors_of_parts hnames hps (fun _ => rfl)⟩
    · rw [if_neg hmay]
      exact ⟨_, rfl, mirrors_of_parts hnames hps (fun h => absurd h hmay)⟩

theorem properties_mirror (n : Numerals) : ∀ (ts : List (RoseTree F)) (parts : ObjectParts),
    DistinctSiblings ts → Defaultless ts →
    (∀ t ∈ ts, parts.properties.lookup (name t.value) = none) →
    ∃ ps, addProperties n parts ts =
        .ok ⟨parts.properties ++ ps, parts.required ++ requiredNames ts⟩ ∧
      MirrorsForest n ts ps
  | [], parts, _, _, _ => by
    refine ⟨[], ?_, rfl⟩
    simp only [addProperties, requiredNames, List.filter_nil, List.map_nil, List.append_nil]
    rfl
  | t :: ts, parts, hn, hd, hnew => by
    obtain ⟨hnames, hchildren⟩ := hn
    obtain ⟨hdefault, hbelow⟩ := hd
    rw [List.map_cons, List.nodup_cons] at hnames
    obtain ⟨schema, hs, hmirror⟩ := schema_mirrors n t (hchildren t List.mem_cons_self)
      (.intro (fun u hu => List.mem_singleton.mp hu ▸ hdefault t List.mem_cons_self)
        (fun u hu => List.mem_singleton.mp hu ▸ hbelow t List.mem_cons_self))
    obtain ⟨ps, hadd, hps⟩ := properties_mirror n ts (parts.add t.value schema)
      (.intro hnames.2 (fun u hu => hchildren u (List.mem_cons_of_mem _ hu)))
      (.intro (fun u hu => hdefault u (List.mem_cons_of_mem _ hu))
        (fun u hu => hbelow u (List.mem_cons_of_mem _ hu))) (by
      intro u hu
      have hne : name u.value ≠ name t.value := by
        intro he
        exact hnames.1 (he ▸ List.mem_map_of_mem hu)
      rw [ObjectParts.add, lookup_set, if_neg hne]
      exact hnew u (List.mem_cons_of_mem _ hu))
    refine ⟨(name t.value, schema) :: ps, ?_, schema, ps, rfl, hs, hmirror, hps⟩
    rw [addProperties, hs]
    refine hadd.trans ?_
    have hset := set_of_lookup_eq_none (hnew t List.mem_cons_self) schema
    rw [ObjectParts.add, hset, List.append_assoc]
    congr 2
    by_cases hr : required t.value = some true <;> simp [requiredNames, hr]

end

theorem root_mirrors (n : Numerals) {ts : List (RoseTree F)} (hn : DistinctSiblings ts)
    (hd : Defaultless ts) : ∃ m ps, buildRootSchema n ts = .ok (.obj m) ∧ RootLevel ts ps m ∧
      MirrorsForest n ts ps := by
  obtain ⟨ps, hadd, hps⟩ := properties_mirror n ts .empty hn hd (fun _ _ => rfl)
  obtain ⟨hnames, -⟩ := hn
  rw [buildRootSchema, hadd]
  refine ⟨_, ps, rfl, ⟨lists_of_forest hnames hps ?_, ⟨?_, ?_⟩, ?_, ?_⟩, hps⟩ <;>
    simp only [ObjectParts.empty, List.nil_append] <;> cases requiredNames ts <;> rfl

end Mirrors

structure Shown where
  name : String
  type : ParamType
  items : ParamType
  required : Bool
  deriving DecidableEq

def membersOf : JsonValue → Members
  | .obj m => m
  | _ => []

def levelOf (schema : JsonValue) : ObjectParts :=
  readParts (if readType (membersOf schema) = .object then membersOf schema
    else readItems (membersOf schema))

def requires (names : List JsonValue) (k : String) : Bool :=
  names.any (fun v => readText (some v) == some k)

theorem sizeOf_of_lookup {m d : Members} {k : String} (h : m.lookup k = some (.obj d)) :
    sizeOf d ≤ sizeOf m := by
  have hmem := List.sizeOf_lt_of_mem (mem_of_lookup h)
  have hpair : sizeOf (k, JsonValue.obj d) = 1 + sizeOf k + sizeOf (JsonValue.obj d) := rfl
  have hobj := JsonValue.obj.sizeOf_spec d
  omega

theorem sizeOf_nil (m : Members) : sizeOf ([] : Members) ≤ sizeOf m := by
  cases m with
  | nil => exact Nat.le_refl _
  | cons e m =>
    rw [List.nil.sizeOf_spec, List.cons.sizeOf_spec]
    omega

theorem sizeOf_membersOf (schema : JsonValue) : sizeOf (membersOf schema) ≤ sizeOf schema := by
  cases schema <;> simp [membersOf]

theorem sizeOf_readItems (m : Members) : sizeOf (readItems m) ≤ sizeOf m := by
  unfold readItems
  split
  · exact sizeOf_of_lookup ‹_›
  · exact sizeOf_nil m

theorem sizeOf_readParts (m : Members) : sizeOf (readParts m).properties ≤ sizeOf m := by
  unfold readParts
  dsimp only
  split
  · exact sizeOf_of_lookup ‹_›
  · exact sizeOf_nil m

theorem sizeOf_levelOf (schema : JsonValue) :
    sizeOf (levelOf schema).properties ≤ sizeOf schema := by
  have hmembers := sizeOf_membersOf schema
  unfold levelOf
  split
  · exact (sizeOf_readParts _).trans hmembers
  · exact ((sizeOf_readParts _).trans (sizeOf_readItems _)).trans hmembers

def readForest (parts : ObjectParts) : List (RoseTree Shown) :=
  parts.properties.map (fun e => .node ⟨e.1, readType (membersOf e.2),
    readType (readItems (membersOf e.2)), requires parts.required e.1⟩ (readForest (levelOf e.2)))
termination_by sizeOf parts.properties
decreasing_by
  have hle := sizeOf_levelOf e.2
  have hmem := List.sizeOf_lt_of_mem ‹e ∈ parts.properties›
  have hpair : sizeOf e = 1 + sizeOf e.1 + sizeOf e.2 := rfl
  omega

def readTree (name : String) (required : Bool) (schema : JsonValue) : RoseTree Shown :=
  .node ⟨name, readType (membersOf schema), readType (readItems (membersOf schema)), required⟩
    (readForest (levelOf schema))

theorem readForest_eq (parts : ObjectParts) : readForest parts =
    parts.properties.map (fun e => readTree e.1 (requires parts.required e.1) e.2) := by
  rw [readForest]
  rfl

theorem readForest_empty : readForest .empty = [] := by
  rw [readForest_eq]
  rfl

section Recovery

variable {F : Type} [DescribedFields F]

/-- An array without an element type is one of strings. -/
def shownOf (f : F) : Shown where
  name := name f
  type := type f
  items := if type f = .array then (arrayChildType f).getD .string else .string
  required := required f = some true

mutual

def shownTree : RoseTree F → RoseTree Shown
  | .node f ts => .node (shownOf f) (if mayHaveChildren f then shownForest ts else [])

def shownForest : List (RoseTree F) → List (RoseTree Shown)
  | [] => []
  | t :: ts => shownTree t :: shownForest ts

end

theorem requires_requiredNames {ts : List (RoseTree F)}
    (hn : (ts.map (fun t => name t.value)).Nodup) {t : RoseTree F} (ht : t ∈ ts) :
    requires (requiredNames ts) (name t.value) = decide (required t.value = some true) := by
  rw [Bool.eq_iff_iff, decide_eq_true_eq, ← mem_requiredNames hn ht, requires, List.any_eq_true]
  constructor
  · rintro ⟨v, hv, hread⟩
    obtain ⟨u, _, rfl⟩ := List.mem_map.mp hv
    have hname : name u.value = name t.value := by simpa [readText] using hread
    rwa [hname] at hv
  · intro hmem
    exact ⟨_, hmem, by simp [readText]⟩

/-- A schema has a level just for a param that may have children. -/
theorem levelOf_schema {n : Numerals} {f : F} {parts : ObjectParts} {d : Members}
    (hd : d = [] ∨ ∃ v, d = [("default", v)]) :
    levelOf (.obj (schemaMembers (keptOf n f) parts d)) =
      if mayHaveChildren f then parts else .empty := by
  rw [levelOf, membersOf, readType_schema hd]
  by_cases hmay : mayHaveChildren f = true
  · rw [if_pos hmay]
    exact readParts_schema hd (by rw [← mayHaveChildren_keptOf, hmay])
  · rw [if_neg hmay]
    have ho : ¬ (keptOf n f).type = .object := by
      intro ho
      rw [mayHaveChildren_keptOf n, ho] at hmay
      exact hmay rfl
    rw [if_neg ho]
    by_cases ha : (keptOf n f).type = .array
    · have hi : ¬ (keptOf n f).items = .object := by
        intro hi
        rw [mayHaveChildren_keptOf n, ha, hi] at hmay
        exact hmay rfl
      rw [readItems_schema ha, if_neg hi]
      cases (keptOf n f).items <;> rfl
    · rw [readItems_of_ne_array hd ha]
      rfl

/-- The level of distinct siblings is read one sibling at a time. -/
theorem readForest_parts {n : Numerals} {ts : List (RoseTree F)} {parts : ObjectParts}
    (hn : (ts.map (fun t => name t.value)).Nodup) (h : addProperties n .empty ts = .ok parts) :
    ∃ schemas, List.Forall₂ (fun t s => buildParamSchema n t = .ok s) ts schemas ∧
      readForest parts = List.zipWith (fun t s =>
        readTree (name t.value) (required t.value = some true) s) ts schemas := by
  obtain ⟨schemas, hall, hprops, hreq⟩ := addProperties_spec ts hn (fun _ _ => rfl) h
  refine ⟨schemas, hall, ?_⟩
  have hprops : parts.properties = (ts.map (fun t => name t.value)).zip schemas := hprops
  have hreq : parts.required = requiredNames ts := hreq
  rw [readForest_eq, hprops, hreq, List.zip_map_left, List.map_map,
    ← List.map_uncurry_zip_eq_zipWith]
  apply List.map_congr_left
  rintro ⟨t, s⟩ hmem
  have ht := (List.of_mem_zip hmem).1
  show readTree (name t.value) (requires (requiredNames ts) (name t.value)) s = _
  rw [requires_requiredNames hn ht]
  rfl

mutual

theorem readTree_schema {n : Numerals} : ∀ (t : RoseTree F) {schema : JsonValue},
    DistinctSiblings t.children → buildParamSchema n t = .ok schema →
    readTree (name t.value) (required t.value = some true) schema = shownTree t
  | .node f ts, schema, hn, h => by
    simp only [buildParamSchema_eq, bind_eq_ok, pure_eq_ok] at h
    obtain ⟨parts, hparts, d, hd, rfl⟩ := h
    have hshape := defaultMembers_shape hd
    have htype : readType (schemaMembers (keptOf n f) parts d) = type f := readType_schema hshape
    have hitems : readType (readItems (schemaMembers (keptOf n f) parts d)) = (shownOf f).items :=
      itemType_schema hshape (items_keptOf f)
    rw [readTree, shownTree, levelOf_schema hshape, membersOf, htype, hitems]
    congr 1
    by_cases hmay : mayHaveChildren f = true
    · rw [if_pos hmay] at hparts
      obtain ⟨hnames, hchildren⟩ : DistinctSiblings ts := hn
      obtain ⟨schemas, hall, hread⟩ := readForest_parts hnames hparts
      rw [if_pos hmay, if_pos hmay, hread, readTrees_schemas ts hchildren hall]
    · rw [if_neg hmay, if_neg hmay, readForest_empty]

theorem readTrees_schemas {n : Numerals} : ∀ (ts : List (RoseTree F)) {schemas : List JsonValue},
    (∀ t ∈ ts, DistinctSiblings t.children) →
    List.Forall₂ (fun t s => buildParamSchema n t = .ok s) ts schemas →
    List.zipWith (fun t s => readTree (name t.value) (required t.value = some true) s) ts schemas =
      shownForest ts
  | [], _, _, _ => rfl
  | t :: ts, _ :: schemas, hn, h => by
    obtain ⟨ht, hts⟩ := List.forall₂_cons.mp h
    rw [List.zipWith_cons_cons, shownForest, readTree_schema t (hn t List.mem_cons_self) ht,
      readTrees_schemas ts (fun u hu => hn u (List.mem_cons_of_mem _ hu)) hts]

end

theorem readForest_schemas {n : Numerals} {ts : List (RoseTree F)} {parts : ObjectParts}
    (hn : DistinctSiblings ts) (h : addProperties n .empty ts = .ok parts) :
    readForest parts = shownForest ts := by
  obtain ⟨hnames, hchildren⟩ := hn
  obtain ⟨schemas, hall, hread⟩ := readForest_parts hnames h
  rw [hread, readTrees_schemas ts hchildren hall]

theorem readForest_root {n : Numerals} {ts : List (RoseTree F)} {m : Members}
    (hn : DistinctSiblings ts) (h : buildRootSchema n ts = .ok (.obj m)) :
    readForest (readParts m) = shownForest ts := by
  simp only [buildRootSchema, bind_eq_ok, pure_eq_ok] at h
  obtain ⟨parts, hparts, hm⟩ := h
  rw [← JsonValue.obj.inj hm, readParts_root, readForest_schemas hn hparts]

mutual

/-- Where only objects have children, everything is shown. -/
theorem shownTree_of_nested : ∀ t : RoseTree F, Nested [t] → shownTree t = t.map shownOf
  | .node f ts, h => by
    obtain ⟨hmay, hbelow⟩ := h
    have hself := List.mem_singleton_self (RoseTree.node f ts)
    rw [shownTree, RoseTree.map]
    congr 1
    by_cases hf : mayHaveChildren f = true
    · rw [if_pos hf, shownForest_of_nested ts (hbelow _ hself)]
    · have hnone : ts = [] := by
        by_contra hne
        exact hf (hmay _ hself hne)
      rw [if_neg hf, hnone, mapForest]

theorem shownForest_of_nested : ∀ ts : List (RoseTree F), Nested ts →
    shownForest ts = mapForest shownOf ts
  | [], _ => rfl
  | t :: ts, h => by
    obtain ⟨hmay, hbelow⟩ := h
    rw [shownForest, mapForest, shownTree_of_nested t, shownForest_of_nested ts]
    · exact .intro (fun u hu => hmay u (List.mem_cons_of_mem _ hu))
        (fun u hu => hbelow u (List.mem_cons_of_mem _ hu))
    · exact .intro (fun u hu => List.mem_singleton.mp hu ▸ hmay t List.mem_cons_self)
        (fun u hu => List.mem_singleton.mp hu ▸ hbelow t List.mem_cons_self)

end

end Recovery

theorem nested_growTree {F : Type} [DescribedFields F] {rows : List (LinkedRow F)}
    (hmay : ∀ r ∈ rows, ∀ q ∈ rows, r.parent = some q.id → mayHaveChildren q.fields = true) :
    ∀ (n : ℕ) (r : LinkedRow F), r ∈ rows → Nested (shape (growTree rows n r)).children ∧
      ((shape (growTree rows n r)).children ≠ [] →
        mayHaveChildren (shape (growTree rows n r)).value = true) := by
  intro n
  induction n with
  | zero =>
    intro r _
    exact ⟨.intro (fun t ht => by cases ht) (fun t ht => by cases ht), fun h => absurd rfl h⟩
  | succ n ih =>
    intro r hr
    have hchildren : (shape (growTree rows (n + 1) r)).children =
        (childrenOf rows r.id).map (fun q => shape (growTree rows n q)) := by
      rw [growTree, shape, RoseTree.map_node, RoseTree.children, List.map_map]
      rfl
    have hmem : ∀ t ∈ (childrenOf rows r.id).map (fun q => shape (growTree rows n q)),
        ∃ q ∈ rows, q.parent = some r.id ∧ shape (growTree rows n q) = t := by
      intro t ht
      obtain ⟨q, hq, hqt⟩ := List.mem_map.mp ht
      obtain ⟨hq, hparent⟩ := mem_childrenOf.mp hq
      exact ⟨q, hq, hparent, hqt⟩
    rw [hchildren]
    constructor
    · apply Nested.intro <;> intro t ht <;> obtain ⟨q, hq, _, rfl⟩ := hmem t ht
      · exact (ih q hq).2
      · exact (ih q hq).1
    · intro hne
      obtain ⟨t, ht⟩ := List.exists_mem_of_ne_nil _ hne
      obtain ⟨q, hq, hparent, _⟩ := hmem t ht
      rw [shape, RoseTree.map_value, growTree_value]
      exact hmay q hq r hr hparent

/-- The params that exports get from linked rows are shown in full. -/
theorem nested_growForest {F : Type} [DescribedFields F] {rows roots : List (LinkedRow F)}
    (hl : WellLinked Nests rows) (hn : (rows.map LinkedRow.id).Nodup) (hr : roots ⊆ rows) :
    Nested ((growForest rows roots).map shape) := by
  have hgrown := nested_growTree (parent_takes_children hl hn) rows.length
  have hroot : ∀ t ∈ (growForest rows roots).map shape, ∃ r ∈ rows,
      shape (growTree rows rows.length r) = t := by
    intro t ht
    rw [growForest, List.map_map] at ht
    obtain ⟨r, hmem, hrt⟩ := List.mem_map.mp ht
    exact ⟨r, hr hmem, hrt⟩
  apply Nested.intro <;> intro t ht <;> obtain ⟨r, hmem, rfl⟩ := hroot t ht
  · exact (hgrown r hmem).2
  · exact (hgrown r hmem).1

/-- Schemas exist and mirror the params they are built from; the params can be read back. -/
theorem schemas_mirror_params {F : Type} [DescribedFields F] (n : Numerals) :
    (∀ t : RoseTree F, DistinctSiblings t.children → Defaultless [t] →
      ∃ schema, buildParamSchema n t = .ok schema ∧ MirrorsTree n t schema ∧
        readTree (name t.value) (required t.value = some true) schema = shownTree t ∧
        (Nested [t] → shownTree t = t.map shownOf)) ∧
    ∀ ts : List (RoseTree F), DistinctSiblings ts → Defaultless ts →
      ∃ m ps, buildRootSchema n ts = .ok (.obj m) ∧ RootLevel ts ps m ∧ MirrorsForest n ts ps ∧
        readForest (readParts m) = shownForest ts ∧
        (Nested ts → shownForest ts = mapForest shownOf ts) := by
  constructor
  · intro t hn hd
    obtain ⟨schema, hs, hmirror⟩ := schema_mirrors n t hn hd
    exact ⟨schema, hs, hmirror, readTree_schema t hn hs, shownTree_of_nested t⟩
  · intro ts hn hd
    obtain ⟨m, ps, hs, hlevel, hps⟩ := root_mirrors n hn hd
    exact ⟨m, ps, hs, hlevel, hps, readForest_root hn hs, shownForest_of_nested ts⟩

def bodyParam (param : VarChar 64) (type : ParamType) (child : Option ParamType)
    (required : Option Bool) : RequestFields :=
  ⟨param, .body, type, required, none, none, none, child⟩

def basket : RoseTree RequestFields :=
  .node (bodyParam ⟨"basket", by decide⟩ .object none (some true)) [
    .node (bodyParam ⟨"lines", by decide⟩ .array (some .object) (some true)) [
      .node (bodyParam ⟨"sku", by decide⟩ .binary none (some true)) [],
      .node (bodyParam ⟨"count", by decide⟩ .int none none) []],
    .node (bodyParam ⟨"tags", by decide⟩ .array none (some false)) []]

/-- Every level of the basket meets the condition. -/
theorem basket_induction {p : List (RoseTree RequestFields) → Prop}
    {q : List (RoseTree RequestFields) → Prop} [DecidablePred q]
    (hp : ∀ ts, q ts → (∀ t ∈ ts, p t.children) → p ts)
    (hq : q [] ∧ q [basket] ∧ q basket.children ∧ ∀ t ∈ basket.children, q t.children) :
    p [basket] := by
  obtain ⟨hnil, hroot, hlines, hleaves⟩ := hq
  have hempty : p [] := hp [] hnil (fun t ht => by cases ht)
  refine hp _ hroot ?_
  intro t ht
  obtain rfl := List.mem_singleton.mp ht
  refine hp _ hlines ?_
  intro u hu
  refine hp _ (hleaves u hu) ?_
  intro v hv
  rcases List.mem_cons.mp hu with rfl | hu
  · rcases List.mem_cons.mp hv with rfl | hv
    · exact hempty
    · obtain rfl := List.mem_singleton.mp hv
      exact hempty
  · obtain rfl := List.mem_singleton.mp hu
    cases hv

theorem basket_distinct : DistinctSiblings [basket] :=
  basket_induction (q := fun ts => (ts.map (fun t => name t.value)).Nodup)
    (fun _ => .intro) (by decide)

theorem basket_defaultless : Defaultless [basket] :=
  basket_induction (q := fun ts => ∀ t ∈ ts, truthyText (defaultValue t.value) = none)
    (fun _ => .intro) (by decide)

theorem basket_nested : Nested [basket] :=
  basket_induction (q := fun ts => ∀ t ∈ ts, t.children = [] ∨ mayHaveChildren t.value = true)
    (fun _ h => .intro (fun t ht hne => (h t ht).resolve_left hne))
    (by decide)

theorem basket_mirrored :
    (∃ schema, buildParamSchema plainNumerals basket = .ok schema ∧
      MirrorsTree plainNumerals basket schema ∧
      readTree "basket" true schema = basket.map shownOf) ∧
    ∃ m ps, buildRootSchema plainNumerals [basket] = .ok (.obj m) ∧ RootLevel [basket] ps m ∧
      MirrorsForest plainNumerals [basket] ps ∧
      readForest (readParts m) = mapForest shownOf [basket] := by
  obtain ⟨htree, hforest⟩ := schemas_mirror_params (F := RequestFields) plainNumerals
  have hself := List.mem_singleton_self basket
  constructor
  · obtain ⟨_, hchildren⟩ := basket_distinct
    obtain ⟨schema, hs, hmirror, hread, hshown⟩ :=
      htree basket (hchildren _ hself) basket_defaultless
    exact ⟨schema, hs, hmirror, hread.trans (hshown basket_nested)⟩
  · obtain ⟨m, ps, hs, hlevel, hps, hread, hshown⟩ :=
      hforest [basket] basket_distinct basket_defaultless
    exact ⟨m, ps, hs, hlevel, hps, hread.trans (hshown basket_nested)⟩

end MirroredSchemas
