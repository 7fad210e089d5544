import ApiManagement.CompleteForests
import ApiManagement.PythonRuntime

/-! # Shapes of JSON values

A shape says which fields an object has and of which kinds their values are. Whether every value
of one shape is also one of another can be read off the shapes. -/
namespace JsonShapes

open RowForests CompleteForests PythonRuntime

/-- What kind of value; `object` stands for objects with the fields below. -/
inductive ValueKind where
  | any
  | number
  | integer
  | string
  | boolean
  | object
  | array (element : ValueKind)
  deriving DecidableEq

structure FieldShape where
  name : String
  required : Bool
  kind : ValueKind
  deriving DecidableEq

def ValueKind.Accepts (object : JsonValue → Prop) : ValueKind → JsonValue → Prop
  | .any, _ => True
  | .number, v => ∃ q, v = .num q
  | .integer, v => ∃ i : ℤ, v = .num i
  | .string, v => ∃ s, v = .str s
  | .boolean, v => ∃ b, v = .bool b
  | .object, v => object v
  | .array k, v => ∃ xs, v = .arr xs ∧ ∀ x ∈ xs, k.Accepts object x

mutual

def AcceptsField : RoseTree FieldShape → JsonValue → Prop
  | .node f ts, v => f.kind.Accepts (fun w => ∃ kvs, w = .obj kvs ∧ AcceptsFields ts kvs) v

def AcceptsFields : List (RoseTree FieldShape) → List (String × JsonValue) → Prop
  | [], _ => True
  | t :: ts, kvs =>
    (match kvs.lookup t.value.name with
      | some v => AcceptsField t v
      | none => t.value.required = false) ∧ AcceptsFields ts kvs

end

def AcceptsObject (ts : List (RoseTree FieldShape)) (v : JsonValue) : Prop :=
  ∃ kvs, v = .obj kvs ∧ AcceptsFields ts kvs

def ValueKind.covers (object : Bool) : ValueKind → ValueKind → Bool
  | _, .any => true
  | .number, .number => true
  | .integer, .number => true
  | .integer, .integer => true
  | .string, .string => true
  | .boolean, .boolean => true
  | .object, .object => object
  | .array k, .array l => covers object k l
  | _, _ => false

mutual

def coveredField : RoseTree FieldShape → RoseTree FieldShape → Bool
  | .node g ts, u => u.value.kind.covers (coveredFields ts u.children) g.kind

def coveredFields : List (RoseTree FieldShape) → List (RoseTree FieldShape) → Bool
  | [], _ => true
  | t :: ts, us =>
    (match us.find? (fun u => u.value.name == t.value.name) with
      | some u => (!t.value.required || u.value.required) && coveredField t u
      | none => !t.value.required && t.value.kind == .any) && coveredFields ts us

end

inductive DistinctNames : List (RoseTree FieldShape) → Prop where
  | intro {ts} : (ts.map (fun t => t.value.name)).Nodup →
      (∀ t ∈ ts, DistinctNames t.children) → DistinctNames ts

section Accepts

variable {ts us : List (RoseTree FieldShape)}

theorem acceptsField_iff (t : RoseTree FieldShape) (v : JsonValue) :
    AcceptsField t v ↔ t.value.kind.Accepts (AcceptsObject t.children) v := by
  cases t with
  | node f ts => rfl

def FitsField (t : RoseTree FieldShape) (kvs : List (String × JsonValue)) : Prop :=
  (∀ v, kvs.lookup t.value.name = some v → AcceptsField t v) ∧
    (t.value.required = true → kvs.lookup t.value.name ≠ none)

theorem acceptsFields_iff (kvs : List (String × JsonValue)) :
    AcceptsFields ts kvs ↔ ∀ t ∈ ts, FitsField t kvs := by
  induction ts with
  | nil => exact iff_of_true trivial (fun t ht => nomatch ht)
  | cons t ts ih =>
    rw [AcceptsFields, ih, List.forall_mem_cons]
    refine and_congr ?_ Iff.rfl
    cases hv : kvs.lookup t.value.name <;> simp [FitsField, hv]

theorem accepts_mono {O O' : JsonValue → Prop} (h : ∀ v, O v → O' v) {k : ValueKind}
    {v : JsonValue} (hv : k.Accepts O v) : k.Accepts O' v := by
  induction k generalizing v with
  | object => exact h v hv
  | array k ih =>
    obtain ⟨xs, rfl, hxs⟩ := hv
    exact ⟨xs, rfl, fun x hx => ih (hxs x hx)⟩
  | _ => exact hv

end Accepts

section Covers

variable {ts us : List (RoseTree FieldShape)}

/-- The field has its counterpart among the others, or nothing is asked of it. -/
def HasCounterpart (us : List (RoseTree FieldShape)) (t : RoseTree FieldShape) : Prop :=
  (∃ u, us.find? (fun u => u.value.name == t.value.name) = some u ∧
    (t.value.required = true → u.value.required = true) ∧ coveredField t u = true) ∨
  (us.find? (fun u => u.value.name == t.value.name) = none ∧ t.value.required = false ∧
    t.value.kind = .any)

theorem coveredFields_iff : coveredFields ts us = true ↔ ∀ t ∈ ts, HasCounterpart us t := by
  induction ts with
  | nil => exact iff_of_true rfl (fun t ht => nomatch ht)
  | cons t ts ih =>
    rw [coveredFields, Bool.and_eq_true, ih, List.forall_mem_cons]
    refine and_congr ?_ Iff.rfl
    rw [HasCounterpart]
    cases hu : us.find? (fun u => u.value.name == t.value.name) with
    | none => simp
    | some u => cases ht : t.value.required <;> simp

theorem accepts_of_covers {O O' : JsonValue → Prop} {object : Bool}
    (hO : object = true → ∀ v, O v → O' v) {a b : ValueKind} {v : JsonValue}
    (h : a.covers object b = true) (hv : a.Accepts O v) : b.Accepts O' v := by
  induction b generalizing a v with
  | any => trivial
  | number =>
    cases a <;> first | exact absurd h Bool.false_ne_true | skip
    · exact hv
    · obtain ⟨i, rfl⟩ := hv
      exact ⟨i, rfl⟩
  | object =>
    cases a <;> first | exact absurd h Bool.false_ne_true | skip
    exact hO h v hv
  | array l ih =>
    cases a <;> first | exact absurd h Bool.false_ne_true | skip
    obtain ⟨xs, rfl, hxs⟩ := hv
    exact ⟨xs, rfl, fun x hx => ih h (hxs x hx)⟩
  | _ => cases a <;> first | exact absurd h Bool.false_ne_true | exact hv

/-- The induction is on the fields that are covered. -/
theorem accepts_of_coveredField (t : RoseTree FieldShape) : ∀ u, coveredField t u = true →
    ∀ v, AcceptsField u v → AcceptsField t v := by
  induction t using tree_induction with
  | node g ts ih =>
    intro u h v hv
    rw [acceptsField_iff] at hv ⊢
    refine accepts_of_covers ?_ h hv
    rintro hobject _ ⟨kvs, rfl, hkvs⟩
    refine ⟨kvs, rfl, ?_⟩
    rw [acceptsFields_iff] at hkvs ⊢
    intro t ht
    rcases coveredFields_iff.mp hobject t ht with ⟨u', hu', hrequired, hcovered⟩ |
      ⟨_, hrequired, hany⟩
    · have hname : u'.value.name = t.value.name := by simpa using List.find?_some hu'
      have hfits := hkvs u' (List.mem_of_find?_eq_some hu')
      rw [FitsField, hname] at hfits
      exact ⟨fun w hw => ih t ht u' hcovered w (hfits.1 w hw),
        fun hr => hfits.2 (hrequired hr)⟩
    · refine ⟨?_, fun hr => absurd hr (by rw [hrequired]; exact Bool.false_ne_true)⟩
      intro w _
      rw [acceptsField_iff, hany]
      trivial

theorem accepts_of_coveredFields (h : coveredFields ts us = true) (v : JsonValue)
    (hv : AcceptsObject us v) : AcceptsObject ts v := by
  have hfield := accepts_of_coveredField (.node ⟨"", true, .object⟩ ts)
    (.node ⟨"", true, .object⟩ us) h v
  rw [acceptsField_iff, acceptsField_iff] at hfield
  exact hfield hv

def ValueKind.sample (object : JsonValue) : ValueKind → JsonValue
  | .any => .null
  | .number => .num 0
  | .integer => .num 0
  | .string => .str ""
  | .boolean => .bool false
  | .object => object
  | .array _ => .arr []

mutual

def sampleField : RoseTree FieldShape → JsonValue
  | .node f ts => f.kind.sample (.obj (sampleFields ts))

def sampleFields : List (RoseTree FieldShape) → List (String × JsonValue)
  | [] => []
  | t :: ts => (t.value.name, sampleField t) :: sampleFields ts

end

theorem accepts_sample {O : JsonValue → Prop} {o : JsonValue} (h : O o) (k : ValueKind) :
    k.Accepts O (k.sample o) := by
  cases k with
  | any => trivial
  | number => exact ⟨0, rfl⟩
  | integer => exact ⟨0, rfl⟩
  | string => exact ⟨"", rfl⟩
  | boolean => exact ⟨false, rfl⟩
  | object => exact h
  | array k => exact ⟨[], rfl, fun x hx => nomatch hx⟩

theorem lookup_sampleFields {t : RoseTree FieldShape}
    (hn : (ts.map (fun t => t.value.name)).Nodup) (ht : t ∈ ts) :
    (sampleFields ts).lookup t.value.name = some (sampleField t) := by
  induction ts with
  | nil => cases ht
  | cons u ts ih =>
    rw [sampleFields, List.lookup_cons]
    rw [List.map_cons, List.nodup_cons] at hn
    rcases List.mem_cons.mp ht with rfl | ht
    · rw [beq_self_eq_true]
    · have hne : (t.value.name == u.value.name) = false := by
        rw [beq_eq_false_iff_ne]
        rintro he
        exact hn.1 (he ▸ List.mem_map_of_mem ht)
      rw [hne]
      exact ih hn.2 ht

theorem lookup_sampleFields_none {k : String} (hk : k ∉ ts.map (fun t => t.value.name)) :
    (sampleFields ts).lookup k = none := by
  induction ts with
  | nil => rfl
  | cons u ts ih =>
    rw [List.map_cons, List.mem_cons, not_or] at hk
    rw [sampleFields, List.lookup_cons, beq_eq_false_iff_ne.mpr hk.1]
    exact ih hk.2

theorem DistinctNames.names (h : DistinctNames ts) :
    (ts.map (fun t => t.value.name)).Nodup := by
  cases h with
  | intro hn _ => exact hn

theorem DistinctNames.children (h : DistinctNames ts) {t : RoseTree FieldShape} (ht : t ∈ ts) :
    DistinctNames t.children := by
  cases h with
  | intro _ hc => exact hc t ht

theorem acceptsField_sample (t : RoseTree FieldShape) (h : DistinctNames t.children) :
    AcceptsField t (sampleField t) := by
  induction t using tree_induction with
  | node f ts ih =>
    have h : DistinctNames ts := h
    refine accepts_sample ⟨_, rfl, ?_⟩ f.kind
    rw [acceptsFields_iff]
    intro t ht
    rw [FitsField, lookup_sampleFields h.names ht]
    refine ⟨?_, fun _ => Option.some_ne_none _⟩
    intro v hv
    rw [← Option.some.inj hv]
    exact ih t ht (h.children ht)

def without (k : String) (kvs : List (String × JsonValue)) : List (String × JsonValue) :=
  kvs.filter (fun kv => kv.1 != k)

theorem lookup_without_self (kvs : List (String × JsonValue)) (k : String) :
    (without k kvs).lookup k = none := by
  rw [List.lookup_eq_none_iff]
  intro kv hkv
  have hne := (List.mem_filter.mp hkv).2
  rw [bne_iff_ne] at hne
  exact bne_iff_ne.mpr (Ne.symm hne)

theorem lookup_without {k l : String} (hl : l ≠ k) (kvs : List (String × JsonValue)) :
    (without k kvs).lookup l = kvs.lookup l := by
  induction kvs with
  | nil => rfl
  | cons kv kvs ih =>
    obtain ⟨j, v⟩ := kv
    by_cases hj : j = k
    · have hskip : without k ((j, v) :: kvs) = without k kvs := by
        simp [without, hj]
      rw [hskip, ih, List.lookup_cons, hj, beq_eq_false_iff_ne.mpr hl]
    · have hkeep : without k ((j, v) :: kvs) = (j, v) :: without k kvs := by
        simp [without, hj]
      rw [hkeep, List.lookup_cons, List.lookup_cons, ih]

theorem acceptsFields_sample (h : DistinctNames us) : AcceptsFields us (sampleFields us) := by
  have hfield := acceptsField_sample (.node ⟨"", true, .object⟩ us) h
  obtain ⟨kvs, hkvs, hfields⟩ := (acceptsField_iff _ _).mp hfield
  cases hkvs
  exact hfields

/-- An object with one field changed or taken out, the others as in the sample. -/
theorem acceptsFields_changed {k : String} {kvs : List (String × JsonValue)}
    (h : DistinctNames us) (hother : ∀ l, l ≠ k → kvs.lookup l = (sampleFields us).lookup l)
    (hk : ∀ u ∈ us, u.value.name = k → FitsField u kvs) : AcceptsFields us kvs := by
  rw [acceptsFields_iff]
  intro u hu
  by_cases hname : u.value.name = k
  · exact hk u hu hname
  · rw [FitsField, hother _ hname, lookup_sampleFields h.names hu]
    refine ⟨?_, fun _ => Option.some_ne_none _⟩
    intro v hv
    rw [← Option.some.inj hv]
    exact acceptsField_sample u (h.children hu)

theorem covers_of_accepts (O O' : JsonValue → Prop) (o : JsonValue) {object : Bool}
    (ho : O o) (hO : ∀ v, O v → ∃ kvs, v = .obj kvs) (hO' : ∀ v, O' v → ∃ kvs, v = .obj kvs)
    (hobject : (∀ v, O v → O' v) → object = true) {a b : ValueKind}
    (h : ∀ v, a.Accepts O v → b.Accepts O' v) : a.covers object b = true := by
  obtain ⟨kvs, rfl⟩ := hO o ho
  have hsample := h _ (accepts_sample ho a)
  induction b generalizing a with
  | any => cases a <;> rfl
  | integer =>
    obtain ⟨i, hi⟩ := hsample
    cases a <;> first | rfl | cases hi
    obtain ⟨j, hj⟩ := h (.num (mkRat 1 2)) ⟨mkRat 1 2, rfl⟩
    have hden := congrArg Rat.den (JsonValue.num.inj hj)
    rw [Rat.den_intCast] at hden
    exact absurd hden (by decide)
  | object =>
    obtain ⟨kvs', hkvs'⟩ := hO' _ hsample
    cases a <;> first | exact hobject h | cases hkvs'
  | array l ih =>
    obtain ⟨k, rfl⟩ : ∃ k, a = .array k := by
      obtain ⟨xs, hxs, _⟩ := hsample
      cases a <;> first | exact ⟨_, rfl⟩ | cases hxs
    have hone : ∀ v, k.Accepts O v → l.Accepts O' v := by
      intro v hv
      obtain ⟨xs, hxs, hall⟩ := h (.arr [v]) ⟨[v], rfl, by simpa using hv⟩
      cases hxs
      exact hall v List.mem_cons_self
    exact ih hone (hone _ (accepts_sample ho k))
  | _ =>
    obtain ⟨x, hx⟩ := hsample
    cases a <;> first | rfl | cases hx

theorem any_of_accepts_null {O : JsonValue → Prop} (hO : ∀ v, O v → ∃ kvs, v = .obj kvs)
    {k : ValueKind} (h : k.Accepts O .null) : k = .any := by
  cases k with
  | any => rfl
  | object =>
    obtain ⟨kvs, hkvs⟩ := hO _ h
    cases hkvs
  | array k =>
    obtain ⟨xs, hxs, _⟩ := h
    cases hxs
  | _ =>
    obtain ⟨x, hx⟩ := h
    cases hx

/-- One object for each way to miss a field. -/
theorem counterpart_of_accepts {t : RoseTree FieldShape} (h : DistinctNames us)
    (hall : ∀ kvs, AcceptsFields us kvs → FitsField t kvs)
    (ht : ∀ u ∈ us, (∀ v, AcceptsField u v → AcceptsField t v) → coveredField t u = true) :
    HasCounterpart us t := by
  cases hu : us.find? (fun u => u.value.name == t.value.name) with
  | none =>
    have hk : t.value.name ∉ us.map (fun u => u.value.name) := by
      intro hm
      obtain ⟨u, hmem, hname⟩ := List.mem_map.mp hm
      have hfound := List.find?_eq_none.mp hu u hmem
      simp [hname] at hfound
    have hnone : ∀ u ∈ us, u.value.name ≠ t.value.name :=
      fun u hm hname => hk (hname ▸ List.mem_map_of_mem hm)
    refine Or.inr ⟨hu, ?_, ?_⟩
    · by_contra hr
      exact (hall _ (acceptsFields_sample h)).2 (by simpa using hr) (lookup_sampleFields_none hk)
    · have hnull : AcceptsFields us ((t.value.name, .null) :: sampleFields us) := by
        refine acceptsFields_changed (k := t.value.name) h ?_
          (fun u hm hname => absurd hname (hnone u hm))
        intro l hl
        rw [List.lookup_cons, beq_eq_false_iff_ne.mpr hl]
      have haccepts := (hall _ hnull).1 .null (by rw [List.lookup_cons, beq_self_eq_true])
      rw [acceptsField_iff] at haccepts
      exact any_of_accepts_null (fun v ⟨kvs, hv, _⟩ => ⟨kvs, hv⟩) haccepts
  | some u =>
    have hmem := List.mem_of_find?_eq_some hu
    have hname : u.value.name = t.value.name := by simpa using List.find?_some hu
    have hsame : ∀ u' ∈ us, u'.value.name = t.value.name → u' = u :=
      fun u' hm hn => List.inj_on_of_nodup_map h.names hm hmem (hn.trans hname.symm)
    refine Or.inl ⟨u, hu, ?_, ht u hmem ?_⟩
    · intro hr
      by_contra hoptional
      have hgone := lookup_without_self (sampleFields us) t.value.name
      have hkvs : AcceptsFields us (without t.value.name (sampleFields us)) := by
        refine acceptsFields_changed h (fun l hl => lookup_without hl _) ?_
        intro u' hm hn
        obtain rfl := hsame u' hm hn
        rw [FitsField, hn, hgone]
        exact ⟨fun v hv => (nomatch hv), fun hr' => absurd hr' hoptional⟩
      exact (hall _ hkvs).2 hr hgone
    · intro v hv
      have hkvs : AcceptsFields us ((t.value.name, v) :: sampleFields us) := by
        refine acceptsFields_changed (k := t.value.name) h ?_ ?_
        · intro l hl
          rw [List.lookup_cons, beq_eq_false_iff_ne.mpr hl]
        · intro u' hm hn
          obtain rfl := hsame u' hm hn
          rw [FitsField, hn, List.lookup_cons, beq_self_eq_true]
          refine ⟨?_, fun _ => Option.some_ne_none _⟩
          intro w hw
          rwa [← Option.some.inj hw]
      exact (hall _ hkvs).1 v (by rw [List.lookup_cons, beq_self_eq_true])

theorem coveredField_of_accepts (t : RoseTree FieldShape) : ∀ u, DistinctNames u.children →
    (∀ v, AcceptsField u v → AcceptsField t v) → coveredField t u = true := by
  induction t using tree_induction with
  | node g ts ih =>
    intro u hd h
    refine covers_of_accepts (AcceptsObject u.children) (AcceptsObject ts)
      (.obj (sampleFields u.children)) ?_ ?_ ?_ ?_ ?_
    · exact ⟨_, rfl, acceptsFields_sample hd⟩
    · exact fun v ⟨kvs, hv, _⟩ => ⟨kvs, hv⟩
    · exact fun v ⟨kvs, hv, _⟩ => ⟨kvs, hv⟩
    · intro hobjects
      rw [coveredFields_iff]
      intro t ht
      refine counterpart_of_accepts hd ?_ (fun u' hu' => ih t ht u' (hd.children hu'))
      intro kvs hkvs
      obtain ⟨kvs', hkvs', hts⟩ := hobjects _ ⟨kvs, rfl, hkvs⟩
      cases hkvs'
      exact (acceptsFields_iff kvs).mp hts t ht
    · intro v hv
      have hfield := h v ((acceptsField_iff u v).mpr hv)
      exact (acceptsField_iff _ v).mp hfield

/-- Every object with the fields `us` has the fields `ts` just when the shapes say so. -/
theorem coveredFields_iff_accepts (h : DistinctNames us) : coveredFields ts us = true ↔
    ∀ v, AcceptsObject us v → AcceptsObject ts v := by
  constructor
  · exact accepts_of_coveredFields
  · intro hall
    refine coveredField_of_accepts (.node ⟨"", true, .object⟩ ts)
      (.node ⟨"", true, .object⟩ us) h ?_
    exact hall

end Covers

end JsonShapes
