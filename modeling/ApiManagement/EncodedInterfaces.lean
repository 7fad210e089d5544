import ApiManagement.InterfaceReader

/-! # Interfaces that encode their params

The params go into a flat list of texts, linked by the names in them. Read again, the texts are a
closed list of declarations that leads from the first name to the params, just when the names are
names and the descriptions stay comments. -/
namespace EncodedInterfaces

open RowForests CompleteForests ServiceSchema OpenapiExport CodeGenerator InterfaceNames
  MirroredSchemas InterfaceDeclarations ScriptLexer WellFormedCode InterfaceReader

/-- The texts are read as a closed list, and whoever follows it from the first name on finds the
params. -/
def Encodes {F : Type} [DescribedFields F] (a : Alphabet) (up : Uppercase) (name : String)
    (params : List (RoseTree F)) : Prop :=
  ∃ ds, (generateInterface up name params).mapM (fun i => readText a i.text) = some ds ∧
    Closed ds ∧ ∀ n, ds.length ≤ n →
      readInterface ds n (capitalizeFirstLetter up name) = some (propertiesOf params)

section Uncommented

variable {ds : List InterfaceDeclaration}

theorem names_uncommented :
    (ds.map uncommented).map InterfaceDeclaration.name = ds.map InterfaceDeclaration.name := by
  rw [List.map_map]
  rfl

theorem typeIn_uncommented {type : FieldType} : TypeIn (ds.map uncommented) type ↔
    TypeIn ds type := by
  cases type <;> simp only [TypeIn, names_uncommented]

theorem closed_uncommented (h : Closed ds) : Closed (ds.map uncommented) := by
  constructor
  · intro i hi f hf
    obtain ⟨j, hj, rfl⟩ := List.mem_map.mp hi
    obtain ⟨g, hg, rfl⟩ := List.mem_map.mp hf
    exact typeIn_uncommented.mpr (h.types j hj g hg)
  · intro i hi
    obtain ⟨j, hj, rfl⟩ := List.mem_map.mp hi
    exact h.names j hj

/-- Nobody reads the comments. -/
theorem readInterface_uncommented (n : ℕ) :
    readInterface (ds.map uncommented) n = readInterface ds n := by
  induction n with
  | zero => rfl
  | succ n ih =>
    funext interfaceName
    have hfind : (ds.map uncommented).find? (fun i => i.name == interfaceName) =
        (ds.find? (fun i => i.name == interfaceName)).map uncommented := List.find?_map
    rw [readInterface, readInterface, ih, hfind]
    cases ds.find? (fun i => i.name == interfaceName) with
    | none => rfl
    | some i =>
      have hnames : (uncommented i).fields.map FieldDeclaration.name =
          i.fields.map FieldDeclaration.name := List.map_map
      have hfields : (uncommented i).fields.mapM (readField (readInterface ds n)) =
          i.fields.mapM (readField (readInterface ds n)) := List.mapM_map
      simp only [Option.map_some, Option.bind_eq_bind, Option.bind_some, hnames, hfields]

end Uncommented

theorem forall₂_of_mapM {α β : Type} {g : α → Option β} {l : List α} {r : List β}
    (h : l.mapM g = some r) : List.Forall₂ (fun x y => g x = some y) l r := by
  induction l generalizing r with
  | nil =>
    cases h
    exact .nil
  | cons x l ih =>
    rw [List.mapM_cons] at h
    obtain ⟨y, hy, h⟩ := Option.bind_eq_some_iff.mp h
    obtain ⟨ys, hys, h⟩ := Option.bind_eq_some_iff.mp h
    cases h
    exact .cons hy (ih hys)

section Encode

variable {F : Type} [DescribedFields F] {a : Alphabet} {up : Uppercase}

/-- In a closed list with names for all interfaces, all types are written with names. -/
theorem named_of_spelled {ds : List InterfaceDeclaration} {admits : String → Prop}
    (hclosed : Closed ds) (hall : ∀ i ∈ ds, SpelledDeclaration a admits i) :
    ∀ i ∈ ds, Named a i := by
  have hreferred : ∀ n ∈ ds.map InterfaceDeclaration.name,
      Identifier a n ∧ n ∉ builtInTypes := by
    intro n hn
    obtain ⟨i, hi, rfl⟩ := List.mem_map.mp hn
    exact ⟨(hall i hi).name, hclosed.names i hi⟩
  intro i hi
  refine ⟨(hall i hi).name, (hall i hi).keys, ?_⟩
  intro f hf
  have htype := hclosed.types i hi f hf
  cases hf : f.type with
  | builtIn text =>
    rw [hf] at htype
    exact htype
  | interface n =>
    rw [hf] at htype
    exact hreferred n htype
  | interfaces n =>
    rw [hf] at htype
    exact hreferred n htype

theorem declarations_stable (name : String) (params : List (RoseTree F)) :
    declarations up (capitalizeFirstLetter up name) params = declarations up name params := by
  rw [declarations, capitalize_stable, declarations]

/-- Declarations whose texts are read as themselves. -/
theorem texts_read {ds : List InterfaceDeclaration} (hclosed : Closed ds)
    (hall : ∀ i ∈ ds, SpelledDeclaration a (Silent a) i) :
    (ds.map InterfaceDeclaration.print).mapM (fun i => readText a i.text) =
      some (ds.map uncommented) := by
  rw [List.mapM_map]
  exact mapM_some (fun i hi =>
    readText_silent (named_of_spelled hclosed hall i hi) (hall i hi).comments)

theorem encodes_of_spelled {name : String} {params : List (RoseTree F)}
    (hdistinct : DistinctSiblings params)
    (hnames : ((generateInterface up name params).map Interface.name).Nodup)
    (hname : Identifier a (capitalizeFirstLetter up name))
    (hparams : SpelledFields a up (Silent a) params) : Encodes a up name params := by
  have hstable : capitalizeFirstLetter up (capitalizeFirstLetter up name) =
      capitalizeFirstLetter up name := capitalize_stable name
  have hclosed := declarations_closed hstable params
  have hall := (spelled_declarations hstable hname params).mpr hparams
  rw [declarations_stable] at hclosed hall
  rw [generateInterface_eq, List.map_map] at hnames
  refine ⟨_, ?_, closed_uncommented hclosed, ?_⟩
  · rw [generateInterface_eq]
    exact texts_read hclosed hall
  · intro n hlen
    rw [List.length_map] at hlen
    rw [readInterface_uncommented]
    refine read_declarations hnames n _ params hstable hdistinct ?_ ?_
    · rw [declarations_stable]
      exact List.Subset.refl _
    · rwa [declarations_stable]

theorem spelled_mono {admits admits' : String → Prop} (h : ∀ s, admits s → admits' s)
    {params : List (RoseTree F)} (hparams : SpelledFields a up admits params) :
    SpelledFields a up admits' params := by
  induction hparams with
  | intro hkeys hcomments hcontinued _ ih =>
    exact .intro hkeys (fun t ht s hs => h s (hcomments t ht s hs)) hcontinued ih

/-- What is well formed encodes its params. -/
theorem encodes_of_writable {name : String} {params : List (RoseTree F)}
    (hdistinct : DistinctSiblings params)
    (hnames : ((generateInterface up name params).map Interface.name).Nodup)
    (hname : Identifier a (capitalizeFirstLetter up name))
    (hparams : WritableFields a up params) : Encodes a up name params :=
  encodes_of_spelled hdistinct hnames hname (spelled_mono (fun _ => silent_of_commentable) hparams)

end Encode

section Decode

variable {F : Type} [DescribedFields F] {a : Alphabet} {up : Uppercase}
  {ds all : List InterfaceDeclaration}

theorem exists_left_of_forall₂ {α β : Type} {R : α → β → Prop} {l : List α} {r : List β}
    (h : List.Forall₂ R l r) : ∀ y ∈ r, ∃ x ∈ l, R x y := by
  induction h with
  | nil => exact fun y hy => absurd hy List.not_mem_nil
  | cons hxy _ ih =>
    intro z hz
    rcases List.mem_cons.mp hz with rfl | hz
    · exact ⟨_, List.mem_cons_self, hxy⟩
    · obtain ⟨x, hx, hxz⟩ := ih z hz
      exact ⟨x, List.mem_cons_of_mem _ hx, hxz⟩

theorem exists_right_of_forall₂ {α β : Type} {R : α → β → Prop} {l : List α} {r : List β}
    (h : List.Forall₂ R l r) : ∀ x ∈ l, ∃ y ∈ r, R x y :=
  exists_left_of_forall₂ h.flip

/-- What is read as a param has its name, and refers to an interface that is read as the children
if there is one for them. -/
theorem readField_property (up : Uppercase) {read : String → Option (List (RoseTree Property))}
    {f : FieldDeclaration} {t : RoseTree F} (h : readField read f = some (propertyOf t)) :
    f.name = name t.value ∧ (nestedSuffix up t.value t.children ≠ none →
      ∃ m, read m = some (propertiesOf t.children)) := by
  obtain ⟨g, ts⟩ := t
  rw [propertyOf] at h
  have hcases := nested_cases up g ts
  simp only [RoseTree.value, RoseTree.children]
  rw [readField] at h
  cases htype : f.type with
  | builtIn text =>
    rw [htype] at h
    obtain ⟨hproperty, _⟩ := RoseTree.node.inj (Option.some.inj h)
    obtain ⟨hname, _, hkind⟩ := Property.mk.inj hproperty
    refine ⟨hname, fun hne => ?_⟩
    rcases hcases with ⟨hs, _⟩ | ⟨suffix, _, ⟨_, hk⟩ | ⟨_, hk⟩⟩
    · exact absurd hs hne
    · rw [hk] at hkind
      cases hkind
    · rw [hk] at hkind
      cases hkind
  | interface m =>
    rw [htype] at h
    obtain ⟨ps, hps, h⟩ := Option.map_eq_some_iff.mp h
    obtain ⟨hproperty, hchildren⟩ := RoseTree.node.inj h
    obtain ⟨hname, _, hkind⟩ := Property.mk.inj hproperty
    rw [← hkind] at hchildren
    exact ⟨hname, fun _ => ⟨m, hps.trans (congrArg some hchildren)⟩⟩
  | interfaces m =>
    rw [htype] at h
    obtain ⟨ps, hps, h⟩ := Option.map_eq_some_iff.mp h
    obtain ⟨hproperty, hchildren⟩ := RoseTree.node.inj h
    obtain ⟨hname, _, hkind⟩ := Property.mk.inj hproperty
    rw [← hkind] at hchildren
    exact ⟨hname, fun _ => ⟨m, hps.trans (congrArg some hchildren)⟩⟩

/-- A nested object is read from the interface that is generated for it. -/
theorem read_of_nested {read : String → Option (List (RoseTree Property))} {n suffix : String}
    {t : RoseTree F} (hs : nestedSuffix up t.value t.children = some suffix)
    (h : readField read { declaredField up n t with comment := none } = some (propertyOf t)) :
    read (n ++ suffix) = some (propertiesOf t.children) := by
  obtain ⟨f, ts⟩ := t
  simp only [RoseTree.value, RoseTree.children] at hs ⊢
  have hdeclared : declaredType up n f ts =
      if type f = .object then .interface (n ++ suffix) else .interfaces (n ++ suffix) := by
    rw [declaredType, hs]
  have h : readField read ⟨none, name f, !(required f == some true), declaredType up n f ts⟩ =
      some (propertyOf (.node f ts)) := h
  rw [hdeclared, propertyOf, readField] at h
  rcases nested_cases up f ts with ⟨hnone, _⟩ | ⟨_, _, ⟨htype, hk⟩ | ⟨htype, hk⟩⟩
  · rw [hnone] at hs
    cases hs
  · rw [if_pos htype, hk] at h
    obtain ⟨ps, hps, h⟩ := Option.map_eq_some_iff.mp h
    exact hps.trans (congrArg some (RoseTree.node.inj h).2)
  · rw [if_neg htype, hk] at h
    obtain ⟨ps, hps, h⟩ := Option.map_eq_some_iff.mp h
    exact hps.trans (congrArg some (RoseTree.node.inj h).2)

theorem readInterface_some {n : ℕ} {m : String} {ps : List (RoseTree Property)}
    (h : readInterface ds (n + 1) m = some ps) : ∃ d,
      ds.find? (fun i => i.name == m) = some d ∧
        d.fields.mapM (readField (readInterface ds n)) = some ps := by
  rw [readInterface] at h
  obtain ⟨d, hfind, h⟩ := Option.bind_eq_some_iff.mp h
  split at h
  · exact ⟨d, hfind, h⟩
  · cases h

theorem nominal_of_name {s : String} (h : PropertyName a s) :
    ∃ c cs, s.toList = c :: cs ∧ a.continues c = true ∧ ∀ d ∈ cs, Nominal a d := by
  rcases h with ⟨c, cs, hl, hc, hcs⟩ | h
  · exact ⟨c, cs, hl, a.start_continues c hc, fun d hd => Or.inl (hcs d hd)⟩
  · have hshape := a.numeral_shape _ h
    have hdigit : ∀ c : Char, c.isDigit = true → a.continues c = true := by
      intro c hc
      have hrange := Char.isDigit_iff_toNat.mp hc
      have h9 : '9'.toNat = 57 := rfl
      rw [a.continues_ascii c (by omega)]
      simp [Char.isAlphanum, hc]
    cases hl : s.toList with
    | nil =>
      rw [hl] at hshape
      cases hshape
    | cons c cs =>
      rw [hl, numberShape, Bool.and_eq_true] at hshape
      refine ⟨c, cs, rfl, hdigit c hshape.1, ?_⟩
      intro d hd
      rcases numberTail_mem hshape.2 d hd with hd | rfl | rfl | hd
      · exact Or.inl (hdigit d hd)
      · exact Or.inr (Or.inl rfl)
      · exact Or.inl (a.continues_ascii _ (by decide))
      · exact Or.inr (Or.inr hd)

/-- What is in upper case is still part of a name. -/
def KeepsNames (a : Alphabet) (up : Uppercase) : Prop :=
  ∀ c, a.continues c = true → ∀ d ∈ up.upper c, a.continues d = true

theorem nominal_suffix (hup : KeepsNames a up) {f : F} {ts : List (RoseTree F)} {suffix : String}
    (hn : PropertyName a (name f)) (hs : nestedSuffix up f ts = some suffix) :
    ∀ c ∈ suffix.toList, Nominal a c := by
  obtain ⟨c, cs, hl, hc, hcs⟩ := nominal_of_name hn
  have hcapital : ∀ d ∈ (capitalizeFirstLetter up (name f)).toList, Nominal a d := by
    intro d hd
    rw [capitalizeFirstLetter, hl] at hd
    simp only [String.toList_ofList] at hd
    rcases List.mem_append.mp hd with hd | hd
    · exact Or.inl (hup c hc d hd)
    · exact hcs d hd
  have hitem : Continued a "Item" := continued_of_isContinued (by decide +kernel)
  rw [nestedSuffix] at hs
  split at hs
  · cases hs
  split at hs
  · rwa [← Option.some.inj hs]
  · rw [← Option.some.inj hs, String.toList_append]
    intro d hd
    rcases List.mem_append.mp hd with hd | hd
    · exact hcapital d hd
    · exact Or.inl (hitem d hd)
  · cases hs

/-- Where params are read, at any depth, their names are names. -/
theorem spelled_of_read (hup : KeepsNames a up)
    (hall : ∀ i ∈ all, ∃ d, readText a i.print.text = some d)
    (hds : ∀ d ∈ ds, ∃ s, readText a s = some d) (fuel : ℕ) :
    ∀ (m : String) {n : String} {params : List (RoseTree F)}, capitalizeFirstLetter up n = n →
      Identifier a n → declarations up n params ⊆ all →
        readInterface ds fuel m = some (propertiesOf params) →
          SpelledFields a up (fun _ => True) params := by
  induction fuel with
  | zero => exact fun _ _ _ _ _ _ h => nomatch h
  | succ fuel ih =>
    intro m n params hstable hn hsub h
    obtain ⟨d, hfind, hfields⟩ := readInterface_some h
    obtain ⟨s, hs⟩ := hds d (List.mem_of_find?_eq_some hfind)
    rw [propertiesOf_eq_map] at hfields
    have hfield : ∀ t ∈ params, ∃ f ∈ d.fields,
        readField (readInterface ds fuel) f = some (propertyOf t) :=
      fun t ht => exists_left_of_forall₂ (forall₂_of_mapM hfields) _ (List.mem_map_of_mem ht)
    have hkeys : ∀ t ∈ params, PropertyName a (name t.value) := by
      intro t ht
      obtain ⟨f, hf, hread⟩ := hfield t ht
      exact (readField_property up hread).1 ▸ (readText_names hs).2 f hf
    have hsuffix : ∀ t ∈ params, ∀ suffix, nestedSuffix up t.value t.children = some suffix →
        Continued a suffix := by
      intro t ht suffix hsuffix
      have hmem := hsub (nested_subset hstable ht hsuffix
        (declarationOf_mem (nested_stable hstable hsuffix) t.children))
      obtain ⟨d', hd'⟩ := hall _ hmem
      exact continued_of_read hn (nominal_suffix hup (hkeys t ht) hsuffix) hd'
    refine .intro hkeys (fun _ _ _ _ => trivial) ?_ ?_
    · intro t ht hne
      obtain ⟨suffix, hnested⟩ := Option.ne_none_iff_exists'.mp hne
      exact (continued_suffix hnested).mp (hsuffix t ht suffix hnested)
    · intro t ht hne
      obtain ⟨suffix, hnested⟩ := Option.ne_none_iff_exists'.mp hne
      obtain ⟨f, hf, hread⟩ := hfield t ht
      obtain ⟨m', hm'⟩ := (readField_property up hread).2 hne
      have hne' : n ≠ "" := by
        rintro rfl
        obtain ⟨c, cs, hl, _⟩ := hn
        cases hl
      exact ih m' (nested_stable hstable hnested)
        ((identifier_append hne').mpr ⟨hn, hsuffix t ht suffix hnested⟩)
        (List.Subset.trans (nested_subset hstable ht hnested) hsub) hm'

theorem map_eq_of_forall₂ {α β γ : Type} {R : α → β → Prop} {g : α → γ} {h : β → γ} {l : List α}
    {r : List β} (hr : List.Forall₂ R l r) (heq : ∀ x ∈ l, ∀ y, R x y → g x = h y) :
    l.map g = r.map h := by
  induction hr with
  | nil => rfl
  | cons hxy _ ih =>
    rw [List.map_cons, List.map_cons, heq _ List.mem_cons_self _ hxy,
      ih (fun x hx => heq x (List.mem_cons_of_mem _ hx))]

/-- There is one field for every param, so there are none in the comments. -/
theorem silent_of_read (hnamed : ∀ i ∈ all, Named a i)
    (hall : ∀ i ∈ all, ∃ d ∈ ds, readText a i.print.text = some d)
    (hn : (ds.map InterfaceDeclaration.name).Nodup) (fuel : ℕ) :
    ∀ {n : String} {params : List (RoseTree F)}, capitalizeFirstLetter up n = n →
      declarations up n params ⊆ all → readInterface ds fuel n = some (propertiesOf params) →
        ∀ i ∈ declarations up n params, ∀ f ∈ i.fields, ∀ s, f.comment = some s → Silent a s := by
  induction fuel with
  | zero => exact fun _ _ h => nomatch h
  | succ fuel ih =>
    intro n params hstable hsub h
    have hown := hsub (declarationOf_mem hstable params)
    obtain ⟨d, hd, hread⟩ := hall _ hown
    obtain ⟨hname, hsilent⟩ := readText_named (hnamed _ hown) hread
    obtain ⟨d', hfind, hfields⟩ := readInterface_some h
    have hname : d.name = n := hname
    obtain rfl : d = d' := by
      rw [← hname, find_declaration hn hd] at hfind
      exact Option.some.inj hfind
    have hproperties := forall₂_of_mapM hfields
    have hlength : d.fields.length = (declarationOf up n params).fields.length := by
      rw [hproperties.length_eq, propertiesOf_eq_map, declarationOf, List.length_map,
        List.length_map]
    intro i hi
    rcases (mem_declarations hstable).mp hi with rfl | ⟨t, ht, suffix, hs, hi⟩
    · exact hsilent hlength
    · obtain rfl : uncommented (declarationOf up n params) = d :=
        Option.some.inj ((readText_silent (hnamed _ hown) (hsilent hlength)).symm.trans hread)
      have hsame : ∀ u ∈ params, readField (readInterface ds fuel)
          { declaredField up n u with comment := none } = some (propertyOf u) := by
        rw [propertiesOf_eq_map, uncommented, declarationOf, List.map_map,
          List.forall₂_map_left_iff, List.forall₂_map_right_iff, List.forall₂_same] at hproperties
        exact hproperties
      exact ih (nested_stable hstable hs)
        (List.Subset.trans (nested_subset hstable ht hs) hsub) (read_of_nested hs (hsame t ht)) i hi

theorem spelled_of_encodes {name : String} {params : List (RoseTree F)} (hup : KeepsNames a up)
    (hnames : ((generateInterface up name params).map Interface.name).Nodup)
    (h : Encodes a up name params) : Identifier a (capitalizeFirstLetter up name) ∧
      SpelledFields a up (Silent a) params := by
  obtain ⟨ds, htexts, _, hread⟩ := h
  have hstable : capitalizeFirstLetter up (capitalizeFirstLetter up name) =
      capitalizeFirstLetter up name := capitalize_stable name
  have hclosed := declarations_closed hstable params
  have hread := hread (ds.length + 1) (Nat.le_succ _)
  rw [generateInterface_eq, List.mapM_map] at htexts
  rw [generateInterface_eq, List.map_map] at hnames
  rw [← declarations_stable] at htexts hnames
  have htexts := forall₂_of_mapM htexts
  have hfrom : ∀ d ∈ ds, ∃ s, readText a s = some d := by
    intro d hd
    obtain ⟨i, _, hi⟩ := exists_left_of_forall₂ htexts d hd
    exact ⟨_, hi⟩
  have hall : ∀ i ∈ declarations up (capitalizeFirstLetter up name) params,
      ∃ d ∈ ds, readText a i.print.text = some d := exists_right_of_forall₂ htexts
  have hname : Identifier a (capitalizeFirstLetter up name) := by
    obtain ⟨d, hfind, _⟩ := readInterface_some hread
    obtain ⟨s, hs⟩ := hfrom d (List.mem_of_find?_eq_some hfind)
    have hfound : d.name = capitalizeFirstLetter up name := by
      simpa using List.find?_some hfind
    exact hfound ▸ (readText_names hs).1
  have hkeys := spelled_of_read hup (fun i hi => (hall i hi).imp fun _ h => h.2) hfrom _ _
    hstable hname (List.Subset.refl _) hread
  have hspelled := (spelled_declarations hstable hname params).mpr hkeys
  have hnamed := named_of_spelled hclosed hspelled
  have hdistinct : (ds.map InterfaceDeclaration.name).Nodup := by
    rwa [← map_eq_of_forall₂ (g := InterfaceDeclaration.name) htexts
      (fun i hi d hd => (readText_named (hnamed i hi) hd).1.symm)]
  have hsilent := silent_of_read hnamed hall hdistinct _ hstable (List.Subset.refl _) hread
  refine ⟨hname, (spelled_declarations hstable hname params).mp ?_⟩
  exact fun i hi => ⟨(hspelled i hi).name, (hspelled i hi).keys, hsilent i hi⟩

end Decode

theorem keepsNames_plain : KeepsNames asciiAlphabet plainUppercase := by
  intro c hc d hd
  obtain rfl : d = c.toUpper := List.mem_singleton.mp hd
  by_cases hlower : c.isLower = true
  · have hletter : c.toUpper.isAlphanum = true := by simp [hlower, Char.isAlphanum, Char.isAlpha]
    have hcontinues : asciiAlphabet.continues c.toUpper =
        (c.toUpper.isAlphanum || c.toUpper == '$' || c.toUpper == '_') := rfl
    simp [hcontinues, hletter]
  · rwa [Char.toUpper_eq_of_not_isLower (by simpa using hlower)]

def tokenParam : RoseTree RequestFields :=
  .node (bodyParam ⟨"x-token", by decide⟩ .string none (some true)) []

end EncodedInterfaces
