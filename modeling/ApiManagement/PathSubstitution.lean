import ApiManagement.GeneratedClient

/-! # Path params in the url

The url is computed by one replacement after the other. It is the template with all its holes
filled if no replacement gets in the way of another, and each hole is there once. -/
namespace PathSubstitution

open ServiceSchema CodeGenerator ScriptStrings TemplateHoles GeneratedClient

def basePart : BaseURL → List Char
  | .text s => (trim s.toList).rdropWhile (· == '/') ++ ['/']
  | .function _ => []

def pathPart : BaseURL → String → List Char
  | .text _, path => (trim path.toList).dropWhile (· == '/')
  | .function f, path => (f path).toList

theorem genBaseURL_eq (base : BaseURL) (path : String) :
    genBaseURL base path = basePart base ++ pathPart base path := by
  cases base with
  | text s => rw [genBaseURL, basePart, pathPart, List.append_assoc, List.singleton_append]
  | function f => rfl

def replacedFields (fields : List String) : List (String × String) :=
  fields.map (fun field => ("\x7b" ++ field ++ "\x7d", field))

section Url

variable {V : Type} (vals : Values V) (base : BaseURL) (req : String → V) (path : String)
  (fields : List String)

def texts (field : String) : List Char := (vals.text (req field)).toList

def segments : List Segment := (basePart base).map .char ++ parse fields (pathPart base path)

/-- All occurrences of all fields in the template are replaced, and nothing else. -/
def simultaneousUrl : List Char :=
  basePart base ++ fill (texts vals req) (parse fields (pathPart base path))

/-- No text that is put in has a meaning of its own, each replacement finds the place in the
template that it is meant for, and that is the only one. -/
structure Clean : Prop where
  undisturbed : Undisturbed (texts vals req) fields (segments base path fields)
  once : Once fields (segments base path fields)

/-- No dollar marks in the values that are put in, and no braces but those around fields. -/
structure Tame : Prop where
  braced : Braced (segments base path fields)
  names : ∀ f ∈ fields, '\x7d' ∉ f.toList
  values : ∀ f, .hole f ∈ segments base path fields →
    '\x7b' ∉ texts vals req f ∧ hasDollarMark (texts vals req f) = false

variable {vals base req path fields}

theorem placeholder_eq (f : String) : ("\x7b" ++ f ++ "\x7d").toList = placeholder f := by
  rw [String.toList_append, String.toList_append]
  rfl

variable (fields) in
theorem render_segments : render (segments base path fields) = genBaseURL base path := by
  rw [segments, render, fill_append, fill_map_char, genBaseURL_eq]
  exact congrArg _ (render_parse _ _)

theorem fill_segments : fill (texts vals req) (segments base path fields) =
    simultaneousUrl vals base req path fields := by
  rw [segments, fill_append, fill_map_char, simultaneousUrl]

theorem mem_of_hole {f : String} (h : .hole f ∈ segments base path fields) : f ∈ fields := by
  rcases List.mem_append.mp h with h | h
  · obtain ⟨c, _, hc⟩ := List.mem_map.mp h
    cases hc
  · exact hole_mem_parse h

/-- Without null values every field is replaced. -/
theorem computedUrl_eq (hreq : ∀ f ∈ fields, vals.isNullish (req f) = false) :
    computedUrl vals base req path (replacedFields fields) =
      replaceEach (texts vals req) fields (genBaseURL base path) := by
  rw [computedUrl, replacedFields, List.foldl_map, replaceEach]
  refine List.foldl_ext _ _ _ ?_
  intro url f hf
  dsimp only
  rw [if_neg (by rw [hreq f hf]; exact Bool.false_ne_true), placeholder_eq]
  rfl

theorem computedUrl_of_clean (hfields : fields.Nodup)
    (hreq : ∀ f ∈ fields, vals.isNullish (req f) = false)
    (h : Clean vals base req path fields) :
    computedUrl vals base req path (replacedFields fields) =
      simultaneousUrl vals base req path fields := by
  rw [computedUrl_eq hreq, ← render_segments fields, ← fill_segments]
  exact replaceEach_eq_fill hfields (fun f => mem_of_hole) h.undisturbed h.once

theorem computedUrl_iff_of_tame (hfields : fields.Nodup)
    (hreq : ∀ f ∈ fields, vals.isNullish (req f) = false)
    (h : Tame vals base req path fields) :
    computedUrl vals base req path (replacedFields fields) =
      simultaneousUrl vals base req path fields ↔ Once fields (segments base path fields) := by
  rw [computedUrl_eq hreq, ← render_segments fields, ← fill_segments]
  exact replaceEach_eq_fill_iff hfields (fun f => mem_of_hole) h.braced h.names h.values

theorem simultaneousUrl_perm {fields' : List String} (hperm : fields'.Perm fields)
    (h : Unambiguous fields (pathPart base path)) :
    simultaneousUrl vals base req path fields' = simultaneousUrl vals base req path fields := by
  rw [simultaneousUrl, parse_perm hperm h, simultaneousUrl]

theorem Tame.clean (h : Tame vals base req path fields)
    (hone : Once fields (segments base path fields)) : Clean vals base req path fields :=
  ⟨undisturbed_of_braced h.braced h.names h.values, hone⟩

end Url

/-- The url is that of all replacements at once if each of them finds the one place that is meant,
and that url is the same for every order; with plain values and names nothing else makes it so. -/
theorem url_simultaneous {V : Type} (vals : Values V) (base : BaseURL) (req : String → V)
    (path : String) (fields : List String) (hfields : fields.Nodup)
    (hreq : ∀ f ∈ fields, vals.isNullish (req f) = false) :
    (Clean vals base req path fields →
      computedUrl vals base req path (replacedFields fields) =
        simultaneousUrl vals base req path fields) ∧
    (Unambiguous fields (pathPart base path) → ∀ fields' : List String, fields'.Perm fields →
      simultaneousUrl vals base req path fields' = simultaneousUrl vals base req path fields ∧
        (Clean vals base req path fields → Clean vals base req path fields' →
          computedUrl vals base req path (replacedFields fields') =
            computedUrl vals base req path (replacedFields fields))) ∧
    (Tame vals base req path fields →
      (computedUrl vals base req path (replacedFields fields) =
          simultaneousUrl vals base req path fields ↔
        Once fields (segments base path fields))) := by
  refine ⟨computedUrl_of_clean hfields hreq, ?_, computedUrl_iff_of_tame hfields hreq⟩
  intro hplain fields' hperm
  have hsame : simultaneousUrl vals base req path fields' =
      simultaneousUrl vals base req path fields := simultaneousUrl_perm hperm hplain
  refine ⟨hsame, ?_⟩
  intro h h'
  have hfields' := hperm.nodup_iff.mpr hfields
  have hreq' : ∀ f ∈ fields', vals.isNullish (req f) = false :=
    fun f hf => hreq f (hperm.mem_iff.mp hf)
  rw [computedUrl_of_clean hfields hreq h, computedUrl_of_clean hfields' hreq' h', hsame]

def textValues : Values String where
  isNullish _ := false
  text s := s

def copyPath : String := "/users/{id}/copies/{copy}"

/-- A user and a copy, each at its own place. -/
theorem copy_url :
    computedUrl textValues (.text "https://api.test/")
        (fun f => if f = "id" then "7" else "9") copyPath (replacedFields ["id", "copy"]) =
      "https://api.test/users/7/copies/9".toList := by
  have hplain : ∀ f ∈ ["id", "copy"],
      '\x7b' ∉ texts textValues (fun f => if f = "id" then "7" else "9") f ∧
        hasDollarMark (texts textValues (fun f => if f = "id" then "7" else "9") f) = false := by
    decide
  have htame : Tame textValues (.text "https://api.test/")
      (fun f => if f = "id" then "7" else "9") copyPath ["id", "copy"] :=
    ⟨braced_iff.mpr (by decide +kernel), by decide,
      fun f hf => hplain f (mem_of_hole hf)⟩
  have honce : Once ["id", "copy"]
      (segments (.text "https://api.test/") copyPath ["id", "copy"]) := by decide +kernel
  have hurl := ((url_simultaneous textValues (.text "https://api.test/")
    (fun f => if f = "id" then "7" else "9") copyPath ["id", "copy"] (by decide)
    (fun _ _ => rfl)).1 (htame.clean honce))
  rw [hurl]
  decide +kernel

/-- The second `{id}` stays as it is. -/
theorem second_hole_open :
    ¬ ∀ (base : BaseURL) (req : String → String) (path : String) (fields : List String),
      fields.Nodup → computedUrl textValues base req path (replacedFields fields) =
        simultaneousUrl textValues base req path fields := by
  intro hall
  have hurl := hall (.text "") (fun _ => "7") "/users/{id}/copies/{id}" ["id"] (by decide)
  exact absurd hurl (by decide +kernel)

end PathSubstitution
