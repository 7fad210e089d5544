import ApiManagement.CodeGenerator
import Mathlib.Data.Multiset.Basic

/-! # Code and the order of params

The backend gives params and status codes in the order in which its database returns them. The
code that is generated from another order has the same interfaces with the same fields. -/
namespace UnorderedCode

open RowForests ServiceSchema OpenapiExport CodeGenerator

def unordered (i : Interface) : String × Multiset String := (i.name, i.fields)

def Rearranged (is js : List Interface) : Prop := (is.map unordered).Perm (js.map unordered)

section Rearranged

variable {is js ks ls : List Interface}

theorem Rearranged.refl (is : List Interface) : Rearranged is is := List.Perm.refl _

theorem Rearranged.trans (h : Rearranged is js) (k : Rearranged js ks) : Rearranged is ks :=
  List.Perm.trans h k

theorem Rearranged.append (h : Rearranged is js) (k : Rearranged ks ls) :
    Rearranged (is ++ ks) (js ++ ls) := by
  unfold Rearranged
  rw [List.map_append, List.map_append]
  exact List.Perm.append h k

theorem Rearranged.comm (is js : List Interface) : Rearranged (is ++ js) (js ++ is) := by
  unfold Rearranged
  rw [List.map_append, List.map_append]
  exact List.perm_append_comm

/-- Parts that are rearranged, for keys in another order. -/
theorem rearranged_flatMap {α : Type} {as bs : List α} {f g : α → List Interface}
    (hperm : as.Perm bs) (h : ∀ a ∈ as, Rearranged (f a) (g a)) :
    Rearranged (as.flatMap f) (bs.flatMap g) := by
  unfold Rearranged
  rw [List.map_flatMap, List.map_flatMap]
  exact hperm.flatMap h

end Rearranged

section Forests

variable {F : Type} [DescribedFields F] (up : Uppercase) {ts us : List (RoseTree F)}

theorem isEmpty_iso {α : Type} {ts us : List (RoseTree α)} (h : ForestIso ts us) :
    ts.isEmpty = us.isEmpty := by
  have hlength := h.length_eq
  cases ts <;> cases us <;> first | rfl | cases hlength

theorem ne_nil_iso {α : Type} {ts us : List (RoseTree α)} (h : ForestIso ts us) (hu : us ≠ []) :
    ts ≠ [] := by
  have hempty := isEmpty_iso h
  rw [List.isEmpty_eq_false_iff.mpr hu] at hempty
  exact List.isEmpty_eq_false_iff.mp hempty

theorem nestedSuffix_iso (f : F) (h : ForestIso ts us) :
    nestedSuffix up f ts = nestedSuffix up f us := by
  rw [nestedSuffix, nestedSuffix, isEmpty_iso h]

theorem fieldLine_iso (interfaceName : String) (f : F) (h : ForestIso ts us) :
    fieldLine up interfaceName (.node f ts) = fieldLine up interfaceName (.node f us) := by
  have htype : fieldType up interfaceName f ts = fieldType up interfaceName f us := by
    rw [fieldType, fieldType, nestedSuffix_iso up f h]
  rw [fieldLine, fieldLine]
  exact congrArg (fun type => _ ++ type ++ ";") htype

theorem interfaceOf_iso (interfaceName : String) (h : ForestIso ts us) :
    unordered (interfaceOf up interfaceName ts) = unordered (interfaceOf up interfaceName us) := by
  have hlines : (ts.map (fieldLine up interfaceName)).Perm
      (us.map (fieldLine up interfaceName)) := by
    induction h with
    | nil => exact .nil
    | cons a hcs _ _ ih =>
      rw [List.map_cons, List.map_cons, fieldLine_iso up interfaceName a hcs]
      exact ih.cons _
    | swap t u ts => exact .swap _ _ _
    | trans _ _ ih₁ ih₂ => exact ih₁.trans ih₂
  exact Prod.ext rfl (Multiset.coe_eq_coe.mpr hlines)

theorem rearranged_interfaceOf (interfaceName : String) (h : ForestIso ts us) :
    Rearranged [interfaceOf up interfaceName ts] [interfaceOf up interfaceName us] := by
  unfold Rearranged
  rw [List.map_singleton, List.map_singleton, interfaceOf_iso up interfaceName h]

/-- The induction is on the isomorphism, with the interface around it left open. -/
theorem rearranged_fieldInterfaces (h : ForestIso ts us) : ∀ interfaceName,
    Rearranged (fieldInterfaces up interfaceName ts) (fieldInterfaces up interfaceName us) := by
  induction h with
  | nil => exact fun _ => .refl _
  | @cons cs ds as bs a hcs _ ihcs ihas =>
    intro interfaceName
    rw [fieldInterfaces, fieldInterfaces]
    refine Rearranged.append ?_ (ihas interfaceName)
    rw [nestedInterfaces, nestedInterfaces, nestedSuffix_iso up a hcs]
    cases nestedSuffix up a ds with
    | none => exact .refl _
    | some suffix => exact (ihcs _).append (rearranged_interfaceOf up _ hcs)
  | swap t u ts =>
    intro interfaceName
    simp only [fieldInterfaces]
    rw [← List.append_assoc, ← List.append_assoc]
    exact (Rearranged.comm _ _).append (.refl _)
  | trans _ _ ih₁ ih₂ => exact fun interfaceName => (ih₁ interfaceName).trans (ih₂ interfaceName)

theorem rearranged_generateInterface (interfaceName : String) (h : ForestIso ts us) :
    Rearranged (generateInterface up interfaceName ts) (generateInterface up interfaceName us) :=
  (rearranged_fieldInterfaces up h _).append (rearranged_interfaceOf up _ h)

theorem names_iso (h : ForestIso ts us) :
    (ts.map (fun t => name t.value)).Perm (us.map (fun t => name t.value)) := by
  induction h with
  | nil => exact .nil
  | cons a _ _ _ ih => exact ih.cons _
  | swap t u ts => exact .swap _ _ _
  | trans _ _ ih₁ ih₂ => exact ih₁.trans ih₂

end Forests

structure SameFetched (a b : FetchedApi) : Prop where
  name : a.name = b.name
  method : a.method = b.method
  path : a.path = b.path
  description : a.description = b.description
  requests : ∀ location, ForestIso (a.requestParams location) (b.requestParams location)
  responses : ∀ statusCode, ForestIso (a.responseParams statusCode) (b.responseParams statusCode)
  codes : ∀ c, b.responseParams c ≠ [] → (c ∈ a.statusCodes ↔ c ∈ b.statusCodes)

theorem SameFetched.trans {a b c : FetchedApi} (h : SameFetched a b) (k : SameFetched b c) :
    SameFetched a c := by
  refine ⟨h.name.trans k.name, h.method.trans k.method, h.path.trans k.path,
    h.description.trans k.description, fun l => (h.requests l).trans (k.requests l),
    fun s => (h.responses s).trans (k.responses s), ?_⟩
  intro s hs
  exact (h.codes s (ne_nil_iso (k.responses s) hs)).trans (k.codes s hs)

/-- The same code, with interfaces, fields and status codes in another order. -/
structure SameCode (g h : GeneratedCode) : Prop where
  namespaces : Rearranged g.namespaces h.namespaces
  functionName : g.apiOption.functionName = h.apiOption.functionName
  apiMethod : g.apiOption.apiMethod = h.apiOption.apiMethod
  apiPath : g.apiOption.apiPath = h.apiOption.apiPath
  apiDescription : g.apiOption.apiDescription = h.apiOption.apiDescription
  reqInterfaceName : g.apiOption.reqInterfaceName = h.apiOption.reqInterfaceName
  respInterfaceNames : g.apiOption.respInterfaceNames.Perm h.apiOption.respInterfaceNames
  reqFields : ∀ location, (g.apiOption.reqFields location).Perm (h.apiOption.reqFields location)

section Api

variable {up : Uppercase} {a b : FetchedApi}

def codesWithParams (api : FetchedApi) : List ℤ :=
  api.statusCodes.filter (fun statusCode => !(api.responseParams statusCode).isEmpty)

theorem codes_perm (h : SameFetched a b) : (codesWithParams a).Perm (codesWithParams b) := by
  refine (List.perm_ext_iff_of_nodup (a.statusCodes_nodup.filter _)
    (b.statusCodes_nodup.filter _)).mpr ?_
  intro c
  simp only [List.mem_filter, Bool.not_eq_true', isEmpty_iso (h.responses c)]
  refine and_congr_left ?_
  intro hne
  exact h.codes c (List.isEmpty_eq_false_iff.mp hne)

theorem flatMap_codes (api : FetchedApi) (f : ℤ → List Interface) :
    api.statusCodes.flatMap (fun statusCode =>
      if (api.responseParams statusCode).isEmpty then [] else f statusCode) =
      (codesWithParams api).flatMap f := by
  unfold codesWithParams
  induction api.statusCodes with
  | nil => rfl
  | cons c cs ih =>
    rw [List.flatMap_cons, ih, List.filter_cons]
    by_cases hc : (api.responseParams c).isEmpty
    · simp [hc]
    · simp [hc]

theorem sameCode_of_sameFetched (up : Uppercase) (h : SameFetched a b) :
    SameCode (generateTSCode up a) (generateTSCode up b) := by
  have hresponseName : responseInterfaceName up a = responseInterfaceName up b := by
    funext statusCode
    rw [responseInterfaceName, responseInterfaceName, h.name]
  have hrequestName : requestInterfaceName up a = requestInterfaceName up b := by
    funext location
    rw [requestInterfaceName, requestInterfaceName, h.name]
  refine ⟨?_, ?_, h.method, h.path, ?_, ?_, ?_, ?_⟩
  · simp only [generateTSCode]
    refine Rearranged.append ?_ ?_
    · refine rearranged_flatMap (List.Perm.refl _) ?_
      intro location _
      rw [isEmpty_iso (h.requests location), hrequestName]
      split
      · exact .refl _
      · exact rearranged_generateInterface up _ (h.requests location)
    · rw [flatMap_codes, flatMap_codes, hresponseName]
      exact rearranged_flatMap (codes_perm h)
        (fun c _ => rearranged_generateInterface up _ (h.responses c))
  · simp only [generateTSCode, h.name, h.method]
  · simp only [generateTSCode, h.description]
  · simp only [generateTSCode]
    funext location
    rw [isEmpty_iso (h.requests location), hrequestName]
  · simp only [generateTSCode, hresponseName]
    exact (codes_perm h).map _
  · intro location
    exact names_iso (h.requests location)

end Api

end UnorderedCode
