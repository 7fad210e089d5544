import ApiManagement.CodeGenerator

/-! # Ambiguous names

The name of an interface is a word over the capitalized name of the api, the place of the params
and the path of the fields. The words of one service are all different just when a condition on
names and fields holds; the method of an api, which is part of the names of methods, is not part
of them. -/
namespace InterfaceNames

open RowForests ConcatenatedNames ServiceSchema OpenapiExport CodeGenerator

section Words

variable {F : Type} [DescribedFields F] (up : Uppercase)

mutual

def wordsOfField : RoseTree F → List String
  | .node f ts =>
    match nestedSuffix up f ts with
    | none => []
    | some suffix => suffix :: (wordsBelow ts).map (suffix ++ ·)

def wordsBelow : List (RoseTree F) → List String
  | [] => []
  | t :: ts => wordsOfField t ++ wordsBelow ts

end

variable {up}

mutual

theorem names_nestedInterfaces {interfaceName : String} (h : Capitalized up interfaceName) :
    ∀ t : RoseTree F, ((nestedInterfaces up interfaceName t).map Interface.name).Perm
      ((wordsOfField up t).map (interfaceName ++ ·))
  | .node f ts => by
    rw [nestedInterfaces, wordsOfField]
    cases nestedSuffix up f ts with
    | none => exact .nil
    | some suffix =>
      have hchild := capitalized_append h suffix
      have hbelow := names_fieldInterfaces hchild ts
      simp only [capitalize_of_capitalized hchild, List.map_append, List.map_cons, List.map_nil,
        List.map_map]
      have hwords : (wordsBelow up ts).map ((interfaceName ++ ·) ∘ (suffix ++ ·)) =
          (wordsBelow up ts).map (interfaceName ++ suffix ++ ·) := by
        apply List.map_congr_left
        intro w _
        exact String.append_assoc.symm
      rw [hwords]
      exact (List.perm_append_singleton _ _).trans (.cons _ hbelow)

theorem names_fieldInterfaces {interfaceName : String} (h : Capitalized up interfaceName) :
    ∀ ts : List (RoseTree F), ((fieldInterfaces up interfaceName ts).map Interface.name).Perm
      ((wordsBelow up ts).map (interfaceName ++ ·))
  | [] => .nil
  | t :: ts => by
    rw [fieldInterfaces, wordsBelow, List.map_append, List.map_append]
    exact (names_nestedInterfaces h t).append (names_fieldInterfaces h ts)

end

/-- The interfaces of a list of params are named by the words of its fields, after a common
beginning. -/
theorem names_generateInterface {interfaceName : String} (h : Capitalized up interfaceName)
    (ts : List (RoseTree F)) :
    ((generateInterface up interfaceName ts).map Interface.name).Perm
      (("" :: wordsBelow up ts).map (interfaceName ++ ·)) := by
  rw [generateInterface, capitalize_of_capitalized h, List.map_append, List.map_cons,
    List.map_cons, String.append_empty]
  exact (List.perm_append_singleton _ _).trans (.cons _ (names_fieldInterfaces h ts))

end Words

inductive Place where
  | request (location : ParamLocation)
  | response (statusCode : ℤ)
  deriving DecidableEq

def placesOf (api : FetchedApi) : List Place :=
  (locations.filter (fun location => !(api.requestParams location).isEmpty)).map .request ++
    (api.statusCodes.filter (fun statusCode => !(api.responseParams statusCode).isEmpty)).map
      .response

section Places

variable (up : Uppercase)

def middle : Place → String
  | .request location => capitalizeFirstLetter up (locationKey location) ++ "Request"
  | .response statusCode => toString statusCode ++ "Response"

def wordsAt (api : FetchedApi) : Place → List String
  | .request location => "" :: wordsBelow up (api.requestParams location)
  | .response statusCode => "" :: wordsBelow up (api.responseParams statusCode)

def interfacesAt (api : FetchedApi) : Place → List Interface
  | .request location => generateInterface up (requestInterfaceName up api location)
      (api.requestParams location)
  | .response statusCode => generateInterface up (responseInterfaceName up api statusCode)
      (api.responseParams statusCode)

def tails (api : FetchedApi) : List String :=
  (placesOf api).flatMap (fun place => (wordsAt up api place).map (middle up place ++ ·))

theorem flatMap_filter_eq {α β : Type*} (p : α → Bool) (f : α → List β) (l : List α) :
    l.flatMap (fun a => if p a then [] else f a) = (l.filter (fun a => !p a)).flatMap f := by
  induction l with
  | nil => rfl
  | cons a l ih =>
    rw [List.flatMap_cons, ih, List.filter_cons]
    by_cases hp : p a = true <;> simp [hp]

theorem namespaces_eq (api : FetchedApi) :
    (generateTSCode up api).namespaces = (placesOf api).flatMap (interfacesAt up api) := by
  rw [generateTSCode, placesOf, List.flatMap_append, List.flatMap_map, List.flatMap_map]
  simp only [flatMap_filter_eq]
  rfl

variable {up}

theorem upper_numeral {c : Char} (h : isNumeral c = true) : up.upper c = [c] := by
  have hlow : c.toNat < 97 := by
    rcases Bool.or_eq_true_iff.mp h with hdigit | hminus
    · have h9 := (Char.isDigit_iff_toNat.mp hdigit).2
      have h57 : '9'.toNat = 57 := rfl
      omega
    · rw [beq_iff_eq.mp hminus]
      decide
  have hsame : c.toUpper = c := by
    unfold Char.toUpper
    apply dif_neg
    rintro ⟨ha, _⟩
    have h97 : 97 ≤ c.toNat := UInt32.le_iff_toNat_le.mp ha
    omega
  rw [up.upper_ascii c (by omega), hsame]

theorem middle_capitalized (place : Place) : Capitalized up (middle up place) := by
  cases place with
  | request location =>
    have hkey : ∃ c cs, (locationKey location).toList = c :: cs ∧ c.toNat < 128 ∧
        c.toUpper.toNat < 128 ∧ c.toUpper.toUpper = c.toUpper := by
      cases location <;> exact ⟨_, _, rfl, by decide, by decide, by decide⟩
    obtain ⟨c, cs, hc, hlow, hupper, hfixed⟩ := hkey
    refine capitalized_append ⟨c.toUpper, cs, ?_, ?_⟩ _
    · rw [capitalizeFirstLetter, hc]
      simp [up.upper_ascii c hlow]
    · rw [up.upper_ascii _ hupper, hfixed]
  | response statusCode =>
    cases hc : (toString statusCode).toList with
    | nil => exact absurd (String.toList_inj.mp hc) (toString_ne_empty statusCode)
    | cons c cs =>
      refine capitalized_append ⟨c, cs, hc, ?_⟩ _
      exact upper_numeral (isNumeral_of_mem (hc ▸ List.mem_cons_self))

def initial : ParamLocation → Char
  | .query => 'Q'
  | .path => 'P'
  | .header => 'H'
  | .cookie => 'C'
  | .body => 'B'

theorem head?_request (location : ParamLocation) (u : String) :
    (middle up (.request location) ++ u).toList.head? = some (initial location) := by
  rw [String.toList_append, middle, String.toList_append, capitalizeFirstLetter]
  cases location <;> simp [locationKey, up.upper_ascii, initial]

theorem toList_response (c : ℤ) (u : String) : (middle up (.response c) ++ u).toList =
    (toString c).toList ++ 'R' :: (['e', 's', 'p', 'o', 'n', 's', 'e'] ++ u.toList) := by
  rw [String.toList_append, middle, String.toList_append, List.append_assoc]
  rfl

theorem request_ne_response (l : ParamLocation) (c : ℤ) (u v : String) :
    middle up (.request l) ++ u ≠ middle up (.response c) ++ v := by
  intro h
  have hhead : (middle up (.request l) ++ u).toList.head? = some (initial l) :=
    head?_request l u
  rw [h, toList_response] at hhead
  cases hc : (toString c).toList with
  | nil => exact toString_ne_empty c (String.toList_inj.mp hc)
  | cons d ds =>
    rw [hc, List.cons_append, List.head?_cons] at hhead
    have hnumeral := isNumeral_of_mem (i := c) (hc ▸ List.mem_cons_self)
    rw [Option.some.inj hhead] at hnumeral
    cases l <;> exact absurd hnumeral (by decide)

/-- The places of an api can be told from each other at the beginning of a word. -/
theorem middle_append_inj {p q : Place} {u v : String}
    (h : middle up p ++ u = middle up q ++ v) : p = q ∧ u = v := by
  cases p with
  | request l =>
    cases q with
    | request m =>
      have hl : (middle up (.request l) ++ u).toList.head? = some (initial l) :=
        head?_request l u
      rw [h, head?_request] at hl
      have hlm : l = m := by
        cases l <;> cases m <;> first | rfl | exact absurd hl (by decide)
      subst hlm
      exact ⟨rfl, (String.append_right_inj _).mp h⟩
    | response c => exact absurd h (request_ne_response l c u v)
  | response c =>
    cases q with
    | request m => exact absurd h.symm (request_ne_response m c v u)
    | response d =>
      have hR : ∀ i : ℤ, 'R' ∉ (toString i).toList := by
        intro i hm
        exact absurd (isNumeral_of_mem hm) (by decide)
      have hlist := congrArg String.toList h
      rw [toList_response, toList_response, append_cons_inj (hR c) (hR d)] at hlist
      obtain ⟨hcode, hrest⟩ := hlist
      rw [toString_inj.mp (String.toList_inj.mp hcode)]
      exact ⟨rfl, String.toList_inj.mp (List.append_cancel_left hrest)⟩

theorem names_interfacesAt (api : FetchedApi) (place : Place) :
    ((interfacesAt up api place).map Interface.name).Perm
      ((wordsAt up api place).map (capitalizeFirstLetter up api.name ++ middle up place ++ ·)) := by
  have hcap : Capitalized up (capitalizeFirstLetter up api.name ++ middle up place) :=
    capitalized_join (middle_capitalized place)
  cases place with
  | request location =>
    rw [interfacesAt, requestInterfaceName, String.append_assoc]
    exact names_generateInterface hcap _
  | response statusCode =>
    rw [interfacesAt, responseInterfaceName, String.append_assoc]
    exact names_generateInterface hcap _

theorem names_generateTSCode (api : FetchedApi) :
    ((generateTSCode up api).namespaces.map Interface.name).Perm
      ((tails up api).map (capitalizeFirstLetter up api.name ++ ·)) := by
  rw [namespaces_eq, List.map_flatMap, tails, List.map_flatMap]
  refine List.Perm.flatMap_left _ ?_
  intro place _
  rw [List.map_map]
  have hassoc : (wordsAt up api place).map ((capitalizeFirstLetter up api.name ++ ·) ∘
      (middle up place ++ ·)) = (wordsAt up api place).map
        (capitalizeFirstLetter up api.name ++ middle up place ++ ·) := by
    apply List.map_congr_left
    intro w _
    exact String.append_assoc.symm
  rw [hassoc]
  exact names_interfacesAt api place

end Places

section Distinct

variable {up : Uppercase}

theorem placesOf_nodup (api : FetchedApi) : (placesOf api).Nodup := by
  have hlocations : locations.Nodup := by decide
  refine List.nodup_append'.mpr ⟨(hlocations.filter _).map ?_,
    (api.statusCodes_nodup.filter _).map ?_, ?_⟩
  · intro l m h
    exact Place.request.inj h
  · intro c d h
    exact Place.response.inj h
  · intro place hp hq
    obtain ⟨_, _, rfl⟩ := List.mem_map.mp hp
    obtain ⟨_, _, h⟩ := List.mem_map.mp hq
    cases h

theorem mem_tails {api : FetchedApi} {w : String} : w ∈ tails up api ↔
    ∃ place ∈ placesOf api, ∃ v ∈ wordsAt up api place, middle up place ++ v = w := by
  simp only [tails, List.mem_flatMap, List.mem_map]

/-- Within one api only words of one place can be equal. -/
theorem tails_nodup_iff {api : FetchedApi} :
    (tails up api).Nodup ↔ ∀ place ∈ placesOf api, (wordsAt up api place).Nodup := by
  have hinj : ∀ s : String, Function.Injective (s ++ ·) :=
    fun s _ _ h => (String.append_right_inj s).mp h
  have hplaces : (placesOf api).Pairwise (fun p q =>
      List.Disjoint ((wordsAt up api p).map (middle up p ++ ·))
        ((wordsAt up api q).map (middle up q ++ ·))) := by
    refine (placesOf_nodup api).imp ?_
    intro p q hpq w hp hq
    obtain ⟨u, _, rfl⟩ := List.mem_map.mp hp
    obtain ⟨v, _, hv⟩ := List.mem_map.mp hq
    exact hpq (middle_append_inj hv).1.symm
  rw [tails, List.nodup_flatMap]
  constructor
  · rintro ⟨hall, _⟩ place hplace
    exact (List.nodup_map_iff (hinj _)).mp (hall place hplace)
  · intro hall
    exact ⟨fun place hplace => (List.nodup_map_iff (hinj _)).mpr (hall place hplace), hplaces⟩

/-- No interface of the one api is named like one of the other. -/
structure Apart (up : Uppercase) (a b : FetchedApi) : Prop where
  sameName : capitalizeFirstLetter up a.name = capitalizeFirstLetter up b.name →
    ∀ place ∈ placesOf a, place ∉ placesOf b
  longer : ∀ e, e ≠ "" → capitalizeFirstLetter up b.name = capitalizeFirstLetter up a.name ++ e →
    ∀ u ∈ tails up a, ∀ v ∈ tails up b, u ≠ e ++ v
  shorter : ∀ e, e ≠ "" →
    capitalizeFirstLetter up a.name = capitalizeFirstLetter up b.name ++ e →
    ∀ u ∈ tails up a, ∀ v ∈ tails up b, v ≠ e ++ u

/-- Two names of one word: one name continues the other. -/
theorem append_eq_append {x y u v : String} (h : x ++ u = y ++ v) :
    (∃ e, y = x ++ e ∧ u = e ++ v) ∨ ∃ e, x = y ++ e ∧ v = e ++ u := by
  have hlist := congrArg String.toList h
  rw [String.toList_append, String.toList_append] at hlist
  rcases List.append_eq_append_iff.mp hlist with ⟨e, hy, hu⟩ | ⟨e, hx, hv⟩
  · refine Or.inl ⟨String.ofList e, ?_, ?_⟩ <;> apply String.toList_inj.mp
    · rw [hy, String.toList_append, String.toList_ofList]
    · rw [hu, String.toList_append, String.toList_ofList]
  · refine Or.inr ⟨String.ofList e, ?_, ?_⟩ <;> apply String.toList_inj.mp
    · rw [hx, String.toList_append, String.toList_ofList]
    · rw [hv, String.toList_append, String.toList_ofList]

/-- Every place contributes its own name. -/
theorem middle_mem_tails {api : FetchedApi} {place : Place} (h : place ∈ placesOf api) :
    middle up place ∈ tails up api := by
  refine mem_tails.mpr ⟨place, h, "", ?_, String.append_empty⟩
  cases place with
  | request location => exact List.mem_cons_self
  | response statusCode => exact List.mem_cons_self

theorem disjoint_iff_apart {a b : FetchedApi} :
    List.Disjoint ((tails up a).map (capitalizeFirstLetter up a.name ++ ·))
      ((tails up b).map (capitalizeFirstLetter up b.name ++ ·)) ↔ Apart up a b := by
  have hdisjoint : List.Disjoint ((tails up a).map (capitalizeFirstLetter up a.name ++ ·))
      ((tails up b).map (capitalizeFirstLetter up b.name ++ ·)) ↔
      ∀ u ∈ tails up a, ∀ v ∈ tails up b,
        capitalizeFirstLetter up a.name ++ u ≠ capitalizeFirstLetter up b.name ++ v := by
    simp only [List.Disjoint, List.mem_map]
    constructor
    · intro h u hu v hv he
      exact h ⟨u, hu, rfl⟩ ⟨v, hv, he.symm⟩
    · rintro h _ ⟨u, hu, rfl⟩ ⟨v, hv, he⟩
      exact h u hu v hv he.symm
  rw [hdisjoint]
  constructor
  · intro h
    refine ⟨?_, ?_, ?_⟩
    · intro hname place ha hb
      exact h _ (middle_mem_tails ha) _ (middle_mem_tails hb) (by rw [hname])
    · intro e _ hb u hu v hv he
      exact h u hu v hv (by rw [hb, he, String.append_assoc])
    · intro e _ ha u hu v hv he
      exact h u hu v hv (by rw [ha, he, String.append_assoc])
  · intro h u hu v hv he
    have hsame : capitalizeFirstLetter up a.name = capitalizeFirstLetter up b.name → False := by
      intro hname
      rw [hname] at he
      have huv := (String.append_right_inj _).mp he
      obtain ⟨p, hp, w, _, rfl⟩ := mem_tails.mp hu
      obtain ⟨q, hq, w', _, rfl⟩ := mem_tails.mp hv
      obtain ⟨rfl, _⟩ := middle_append_inj huv
      exact h.sameName hname p hp hq
    rcases append_eq_append he with ⟨e, hb, hu'⟩ | ⟨e, ha, hv'⟩
    · by_cases hempty : e = ""
      · rw [hempty, String.append_empty] at hb
        exact hsame hb.symm
      · exact h.longer e hempty hb u hu v hv hu'
    · by_cases hempty : e = ""
      · rw [hempty, String.append_empty] at ha
        exact hsame ha
      · exact h.shorter e hempty ha u hu v hv hv'

theorem interfaces_nodup_iff {apis : List FetchedApi} :
    ((namespaces up apis).map Interface.name).Nodup ↔
      (∀ a ∈ apis, ∀ place ∈ placesOf a, (wordsAt up a place).Nodup) ∧
        apis.Pairwise (Apart up) := by
  have hinj : ∀ s : String, Function.Injective (s ++ ·) :=
    fun s _ _ h => (String.append_right_inj s).mp h
  have hperm : ((namespaces up apis).map Interface.name).Perm
      (apis.flatMap (fun a => (tails up a).map (capitalizeFirstLetter up a.name ++ ·))) := by
    rw [namespaces, List.map_flatMap]
    exact List.Perm.flatMap_left _ (fun a _ => names_generateTSCode a)
  rw [hperm.nodup_iff, List.nodup_flatMap]
  refine and_congr ?_ (List.Pairwise.iff (fun a b => disjoint_iff_apart))
  refine forall_congr' fun a => forall_congr' fun _ => ?_
  rw [List.nodup_map_iff (hinj _), tails_nodup_iff]

/-- The last two letters tell the methods apart. -/
theorem append_methodName_inj {x y : String} {m m' : HttpMethod}
    (h : x ++ methodName m = y ++ methodName m') : x = y ∧ m = m' := by
  have hlast : ∀ (s : String) (k : HttpMethod),
      (s ++ methodName k).toList.reverse.take 2 = (methodName k).toList.reverse.take 2 := by
    intro s k
    rw [String.toList_append, List.reverse_append]
    apply List.take_append_of_le_length
    cases k <;> decide
  have hm : m = m' := by
    have he := hlast x m
    rw [h, hlast] at he
    revert he
    cases m <;> cases m' <;> decide
  subst hm
  exact ⟨(String.append_left_inj _).mp h, rfl⟩

theorem functions_nodup_iff {apis : List FetchedApi} :
    (functionNames up apis).Nodup ↔ apis.Pairwise (fun a b => a.method = b.method →
      capitalizeFirstLetter up a.name ≠ capitalizeFirstLetter up b.name) := by
  rw [functionNames, List.Nodup, List.pairwise_map]
  apply List.Pairwise.iff
  intro a b
  constructor
  · intro h hm hname
    exact h (by simp only [generateTSCode, hm, hname])
  · intro h he
    obtain ⟨hname, hm⟩ := append_methodName_inj he
    exact h hm hname

end Distinct

section References

variable {F : Type} [DescribedFields F] (up : Uppercase)

mutual

def referencesOfField (interfaceName : String) : RoseTree F → List (String × Interface)
  | .node f ts =>
    match nestedSuffix up f ts with
    | none => []
    | some suffix =>
      (interfaceName ++ suffix,
        interfaceOf up (capitalizeFirstLetter up (interfaceName ++ suffix)) ts) ::
      referencesBelow (capitalizeFirstLetter up (interfaceName ++ suffix)) ts

def referencesBelow (interfaceName : String) : List (RoseTree F) → List (String × Interface)
  | [] => []
  | t :: ts => referencesOfField interfaceName t ++ referencesBelow interfaceName ts

end

def referencesTo (interfaceName : String) (params : List (RoseTree F)) :
    List (String × Interface) :=
  (interfaceName, interfaceOf up (capitalizeFirstLetter up interfaceName) params) ::
    referencesBelow up (capitalizeFirstLetter up interfaceName) params

variable {up}

mutual

theorem referencesOfField_named {interfaceName : String} (h : Capitalized up interfaceName) :
    ∀ t : RoseTree F, ∀ r ∈ referencesOfField up interfaceName t,
      r.2.name = r.1 ∧ r.2 ∈ nestedInterfaces up interfaceName t
  | .node f ts => by
    intro r hr
    rw [referencesOfField] at hr
    rw [nestedInterfaces]
    cases hsuffix : nestedSuffix up f ts with
    | none =>
      rw [hsuffix] at hr
      cases hr
    | some suffix =>
      simp only [hsuffix, capitalize_of_capitalized (capitalized_append h suffix)] at hr ⊢
      rcases List.mem_cons.mp hr with rfl | hr
      · exact ⟨rfl, List.mem_append_right _ List.mem_cons_self⟩
      · obtain ⟨hname, hmem⟩ := referencesBelow_named (capitalized_append h suffix) ts r hr
        exact ⟨hname, List.mem_append_left _ hmem⟩

theorem referencesBelow_named {interfaceName : String} (h : Capitalized up interfaceName) :
    ∀ ts : List (RoseTree F), ∀ r ∈ referencesBelow up interfaceName ts,
      r.2.name = r.1 ∧ r.2 ∈ fieldInterfaces up interfaceName ts
  | [] => by
    intro r hr
    cases hr
  | t :: ts => by
    intro r hr
    rw [fieldInterfaces]
    rcases List.mem_append.mp hr with hr | hr
    · obtain ⟨hname, hmem⟩ := referencesOfField_named h t r hr
      exact ⟨hname, List.mem_append_left _ hmem⟩
    · obtain ⟨hname, hmem⟩ := referencesBelow_named h ts r hr
      exact ⟨hname, List.mem_append_right _ hmem⟩

end

theorem referencesTo_named {interfaceName : String} (h : Capitalized up interfaceName)
    (ts : List (RoseTree F)) : ∀ r ∈ referencesTo up interfaceName ts,
      r.2.name = r.1 ∧ r.2 ∈ generateInterface up interfaceName ts := by
  intro r hr
  simp only [referencesTo, generateInterface, capitalize_of_capitalized h] at hr ⊢
  rcases List.mem_cons.mp hr with rfl | hr
  · exact ⟨rfl, List.mem_append_right _ List.mem_cons_self⟩
  · obtain ⟨hname, hmem⟩ := referencesBelow_named h ts r hr
    exact ⟨hname, List.mem_append_left _ hmem⟩

end References

def references (up : Uppercase) (api : FetchedApi) : List (String × Interface) :=
  (placesOf api).flatMap (fun place =>
    match place with
    | .request location =>
      referencesTo up ((generateTSCode up api).apiOption.reqInterfaceName location)
        (api.requestParams location)
    | .response statusCode =>
      referencesTo up (responseInterfaceName up api statusCode) (api.responseParams statusCode))

/-- What unambiguous names mean for the generated code of a service. -/
structure Unambiguous (up : Uppercase) (apis : List FetchedApi) : Prop where
  interfaces : ((namespaces up apis).map Interface.name).Nodup
  functions : (functionNames up apis).Nodup
  references : ∀ api ∈ apis, ∀ r ∈ references up api, r.2 ∈ namespaces up apis ∧
    ∀ i ∈ namespaces up apis, i.name = r.1 → i = r.2

/-- The condition on the names of apis and fields. -/
structure NamesApart (up : Uppercase) (apis : List FetchedApi) : Prop where
  functions : apis.Pairwise (fun a b => a.method = b.method →
    capitalizeFirstLetter up a.name ≠ capitalizeFirstLetter up b.name)
  fields : ∀ a ∈ apis, ∀ place ∈ placesOf a, (wordsAt up a place).Nodup
  apis : apis.Pairwise (Apart up)

section Main

variable {up : Uppercase} {apis : List FetchedApi}

theorem references_named {api : FetchedApi} : ∀ r ∈ references up api,
    r.2.name = r.1 ∧ r.2 ∈ (generateTSCode up api).namespaces := by
  intro r hr
  obtain ⟨place, hplace, hr⟩ := List.mem_flatMap.mp hr
  have hcap : Capitalized up (capitalizeFirstLetter up api.name ++ middle up place) :=
    capitalized_join (middle_capitalized place)
  rw [namespaces_eq]
  cases place with
  | request location =>
    have hsome : ¬ (api.requestParams location).isEmpty = true := by
      rcases List.mem_append.mp hplace with hplace | hplace
      · obtain ⟨l, hl, he⟩ := List.mem_map.mp hplace
        rw [← Place.request.inj he]
        simpa using (List.mem_filter.mp hl).2
      · obtain ⟨_, _, he⟩ := List.mem_map.mp hplace
        cases he
    have hinterface : (generateTSCode up api).apiOption.reqInterfaceName location =
        requestInterfaceName up api location := if_neg hsome
    rw [middle, ← String.append_assoc] at hcap
    simp only [hinterface] at hr
    obtain ⟨hname, hmem⟩ := referencesTo_named hcap _ r hr
    exact ⟨hname, List.mem_flatMap.mpr ⟨_, hplace, hmem⟩⟩
  | response statusCode =>
    rw [middle, ← String.append_assoc] at hcap
    obtain ⟨hname, hmem⟩ := referencesTo_named hcap _ r hr
    exact ⟨hname, List.mem_flatMap.mpr ⟨_, hplace, hmem⟩⟩

theorem unambiguous_iff : Unambiguous up apis ↔ NamesApart up apis := by
  constructor
  · rintro ⟨hinterfaces, hfunctions, _⟩
    obtain ⟨hfields, hapart⟩ := interfaces_nodup_iff.mp hinterfaces
    exact ⟨functions_nodup_iff.mp hfunctions, hfields, hapart⟩
  · rintro ⟨hfunctions, hfields, hapart⟩
    have hinterfaces := interfaces_nodup_iff.mpr ⟨hfields, hapart⟩
    refine ⟨hinterfaces, functions_nodup_iff.mpr hfunctions, ?_⟩
    intro api hapi r hr
    obtain ⟨hname, hmem⟩ := references_named r hr
    have hall : r.2 ∈ namespaces up apis := List.mem_flatMap.mpr ⟨api, hapi, hmem⟩
    refine ⟨hall, ?_⟩
    intro i hi hir
    exact List.inj_on_of_nodup_map hinterfaces hi hall (hir.trans hname.symm)

end Main

def plainUppercase : Uppercase where
  upper c := [c.toUpper]
  upper_ascii _ _ := rfl
  upper_fixed c := by
    refine ⟨c.toUpper, [], rfl, ?_⟩
    rw [Char.toUpper_eq_of_not_isLower (by simp)]

def userApi (method : HttpMethod) (path : String) (param : VarChar 64) : FetchedApi where
  name := "user"
  method := method
  path := path
  description := none
  requestParams _ := []
  statusCodes := [200]
  statusCodes_nodup := List.nodup_singleton 200
  responseParams _ := [.node ⟨200, param, .string, some true, none, none, none⟩ []]

def userApis : List FetchedApi :=
  [userApi .get "/users/{id}" ⟨"name", by decide⟩, userApi .post "/users" ⟨"email", by decide⟩]

theorem userApi_siblings (method : HttpMethod) (path : String) (param : VarChar 64) (c : ℤ) :
    DistinctSiblings ((userApi method path param).responseParams c) := by
  refine .intro (List.nodup_singleton param.val) ?_
  intro t ht
  obtain rfl := List.mem_singleton.mp ht
  exact .intro List.nodup_nil (fun u hu => by cases hu)

/-- Both emit `User200Response`. -/
theorem methods_share_interface :
    ¬ ∀ (up : Uppercase) (apis : List FetchedApi),
      (apis.map (fun a => (a.method, a.name))).Nodup →
      (∀ a ∈ apis, (∀ location, DistinctSiblings (a.requestParams location)) ∧
        ∀ statusCode, DistinctSiblings (a.responseParams statusCode)) →
      Unambiguous up apis := by
  intro hall
  have hsiblings : ∀ a ∈ userApis, (∀ location, DistinctSiblings (a.requestParams location)) ∧
      ∀ statusCode, DistinctSiblings (a.responseParams statusCode) := by
    intro a ha
    rcases List.mem_cons.mp ha with rfl | ha
    · exact ⟨fun _ => .intro List.nodup_nil (fun t ht => by cases ht), userApi_siblings _ _ _⟩
    · obtain rfl := List.mem_singleton.mp ha
      exact ⟨fun _ => .intro List.nodup_nil (fun t ht => by cases ht), userApi_siblings _ _ _⟩
  have hinterfaces := (hall plainUppercase userApis (by decide) hsiblings).interfaces
  have hapart := (interfaces_nodup_iff.mp hinterfaces).2
  have hfirst := List.rel_of_pairwise_cons hapart List.mem_cons_self
  exact hfirst.sameName rfl (.response 200) (by decide) (by decide)

end InterfaceNames
