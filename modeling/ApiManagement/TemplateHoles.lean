import ApiManagement.ConcatenatedNames
import ApiManagement.ScriptStrings

/-! # Templates with holes

A text in which names between braces stand for other texts. Replacing the first occurrence of one
name after the other fills the template if nothing that is put in gets in the way. -/
namespace TemplateHoles

open ConcatenatedNames ScriptStrings

def placeholder (f : String) : List Char := '\x7b' :: (f.toList ++ ['\x7d'])

inductive Segment where
  | char (c : Char)
  | hole (f : String)
  deriving DecidableEq

/-- The first so many characters belong to a hole that has been read. -/
def parseFrom (fields : List String) : ℕ → List Char → List Segment
  | _, [] => []
  | skip + 1, _ :: cs => parseFrom fields skip cs
  | 0, c :: cs =>
    match fields.find? (fun f => (placeholder f).isPrefixOf (c :: cs)) with
    | some f => .hole f :: parseFrom fields (f.length + 1) cs
    | none => .char c :: parseFrom fields 0 cs

def parse (fields : List String) (cs : List Char) : List Segment := parseFrom fields 0 cs

def fill (text : String → List Char) (segs : List Segment) : List Char :=
  segs.flatMap (fun
    | .char c => [c]
    | .hole f => text f)

def render (segs : List Segment) : List Char := fill placeholder segs

def fillFirst (f : String) (text : List Char) : List Segment → List Segment
  | [] => []
  | .char c :: segs => .char c :: fillFirst f text segs
  | .hole g :: segs =>
    if g = f then text.map .char ++ segs else .hole g :: fillFirst f text segs

def fillEach (text : String → List Char) (fields : List String) (segs : List Segment) :
    List Segment :=
  fields.foldl (fun segs f => fillFirst f (text f) segs) segs

def replaceEach (text : String → List Char) (fields : List String) (cs : List Char) : List Char :=
  fields.foldl (fun cs f => replace cs (placeholder f) (text f)) cs

/-- No occurrence of the name between braces comes before the first hole of that name. -/
def Aligned (f : String) (segs : List Segment) : Prop :=
  ∀ before after, render segs = before ++ placeholder f ++ after →
    ∃ A B, segs = A ++ .hole f :: B ∧ (render A).length ≤ before.length

section Holes

variable {text : String → List Char} {fields : List String} {segs : List Segment} {f : String}

@[simp]
theorem fill_nil : fill text [] = [] := rfl

@[simp]
theorem fill_char (c : Char) (segs : List Segment) :
    fill text (.char c :: segs) = c :: fill text segs := rfl

@[simp]
theorem fill_hole (f : String) (segs : List Segment) :
    fill text (.hole f :: segs) = text f ++ fill text segs := rfl

@[simp]
theorem fill_append (A B : List Segment) : fill text (A ++ B) = fill text A ++ fill text B :=
  List.flatMap_append

@[simp]
theorem fill_map_char (cs : List Char) : fill text (cs.map .char) = cs := by
  induction cs with
  | nil => rfl
  | cons c cs ih => rw [List.map_cons, fill_char, ih]

theorem placeholder_length (f : String) : (placeholder f).length = f.length + 2 := by
  simp [placeholder, String.length_toList]

theorem render_parseFrom (fields : List String) (cs : List Char) :
    ∀ skip, render (parseFrom fields skip cs) = cs.drop skip := by
  induction cs with
  | nil =>
    intro skip
    cases skip <;> rfl
  | cons c cs ih =>
    intro skip
    cases skip with
    | succ skip => exact ih skip
    | zero =>
      rw [parseFrom]
      cases hf : fields.find? (fun f => (placeholder f).isPrefixOf (c :: cs)) with
      | none => exact congrArg (c :: ·) (ih 0)
      | some f =>
        have hprefix : placeholder f <+: c :: cs := by
          have hfound := List.find?_some hf
          exact List.isPrefixOf_iff_prefix.mp hfound
        have hdrop : cs.drop (f.length + 1) = (c :: cs).drop (placeholder f).length := by
          rw [placeholder_length]
          rfl
        have hrest : render (.hole f :: parseFrom fields (f.length + 1) cs) =
            placeholder f ++ render (parseFrom fields (f.length + 1) cs) := rfl
        rw [hrest, ih, hdrop, List.drop_zero]
        exact List.prefix_iff_eq_append.mp hprefix

theorem render_parse (fields : List String) (cs : List Char) : render (parse fields cs) = cs :=
  render_parseFrom fields cs 0

theorem hole_mem_parseFrom {cs : List Char} : ∀ {skip : ℕ},
    .hole f ∈ parseFrom fields skip cs → f ∈ fields := by
  induction cs with
  | nil =>
    intro skip h
    cases skip <;> cases h
  | cons c cs ih =>
    intro skip h
    cases skip with
    | succ skip => exact ih h
    | zero =>
      rw [parseFrom] at h
      cases hf : fields.find? (fun f => (placeholder f).isPrefixOf (c :: cs)) with
      | none =>
        rw [hf] at h
        rcases List.mem_cons.mp h with h | h
        · cases h
        · exact ih h
      | some g =>
        rw [hf] at h
        rcases List.mem_cons.mp h with h | h
        · cases h
          exact List.mem_of_find?_eq_some hf
        · exact ih h

theorem hole_mem_parse {cs : List Char} (h : .hole f ∈ parse fields cs) : f ∈ fields :=
  hole_mem_parseFrom h

theorem fill_congr {text' : String → List Char} (h : ∀ f, .hole f ∈ segs → text f = text' f) :
    fill text segs = fill text' segs := by
  induction segs with
  | nil => rfl
  | cons s segs ih =>
    have htail := ih (fun f hf => h f (List.mem_cons_of_mem _ hf))
    cases s with
    | char c => rw [fill_char, fill_char, htail]
    | hole f => rw [fill_hole, fill_hole, htail, h f List.mem_cons_self]

theorem fillFirst_of_not_mem {t : List Char} (h : .hole f ∉ segs) : fillFirst f t segs = segs := by
  induction segs with
  | nil => rfl
  | cons s segs ih =>
    have htail := ih (fun hm => h (List.mem_cons_of_mem _ hm))
    cases s with
    | char c => rw [fillFirst, htail]
    | hole g =>
      have hne : g ≠ f := by
        rintro rfl
        exact h List.mem_cons_self
      rw [fillFirst, if_neg hne, htail]

theorem fillFirst_append {A B : List Segment} {t : List Char} (h : .hole f ∉ A) :
    fillFirst f t (A ++ .hole f :: B) = A ++ (t.map .char ++ B) := by
  induction A with
  | nil => rw [List.nil_append, fillFirst, if_pos rfl, List.nil_append]
  | cons s A ih =>
    have htail := ih (fun hm => h (List.mem_cons_of_mem _ hm))
    cases s with
    | char c => rw [List.cons_append, fillFirst, htail, List.cons_append]
    | hole g =>
      have hne : g ≠ f := by
        rintro rfl
        exact h List.mem_cons_self
      rw [List.cons_append, fillFirst, if_neg hne, htail, List.cons_append]

theorem mem_fillFirst {s : Segment} {t : List Char} (h : s ∈ fillFirst f t segs) :
    s ∈ segs ∨ .hole f ∈ segs ∧ ∃ c ∈ t, s = .char c := by
  induction segs with
  | nil => cases h
  | cons r segs ih =>
    cases r with
    | char c =>
      rw [fillFirst] at h
      rcases List.mem_cons.mp h with rfl | h
      · exact Or.inl List.mem_cons_self
      · rcases ih h with h | ⟨hf, hc⟩
        · exact Or.inl (List.mem_cons_of_mem _ h)
        · exact Or.inr ⟨List.mem_cons_of_mem _ hf, hc⟩
    | hole g =>
      rw [fillFirst] at h
      split at h
      · next hg =>
        rcases List.mem_append.mp h with h | h
        · obtain ⟨c, hc, rfl⟩ := List.mem_map.mp h
          exact Or.inr ⟨hg ▸ List.mem_cons_self, c, hc, rfl⟩
        · exact Or.inl (List.mem_cons_of_mem _ h)
      · rcases List.mem_cons.mp h with rfl | h
        · exact Or.inl List.mem_cons_self
        · rcases ih h with h | ⟨hf, hc⟩
          · exact Or.inl (List.mem_cons_of_mem _ h)
          · exact Or.inr ⟨List.mem_cons_of_mem _ hf, hc⟩

theorem hole_of_fillFirst {g : String} {t : List Char} (h : .hole g ∈ fillFirst f t segs) :
    .hole g ∈ segs := by
  rcases mem_fillFirst h with h | ⟨_, c, _, hc⟩
  · exact h
  · cases hc

/-- The replacement hits the first hole of the name, if there is one. -/
theorem replace_render {t : List Char} (ht : .hole f ∈ segs → hasDollarMark t = false)
    (ha : Aligned f segs) :
    replace (render segs) (placeholder f) t = render (fillFirst f t segs) := by
  by_cases hmem : .hole f ∈ segs
  · obtain ⟨A, B, hsegs, hA⟩ := List.eq_append_cons_of_mem hmem
    have hrender : render segs = render A ++ placeholder f ++ render B := by
      rw [hsegs, render, fill_append, fill_hole, List.append_assoc]
      rfl
    cases hd : (render segs).dropInfix? (placeholder f) with
    | none => exact absurd hrender (dropInfix_eq_none hd _ _)
    | some r =>
      obtain ⟨before, after⟩ := r
      obtain ⟨hs, hfirst⟩ := dropInfix_eq_some hd
      obtain ⟨A', B', hsegs', hle⟩ := ha before after hs
      have hshort : (render A).length ≤ (render A').length := by
        have hprefix : A <+: A' := by
          rcases List.append_eq_append_iff.mp (hsegs ▸ hsegs') with ⟨C, hA', _⟩ | ⟨C, hA', hC⟩
          · exact ⟨C, hA'.symm⟩
          · cases C with
            | nil => exact ⟨[], by simpa using hA'⟩
            | cons s C =>
              obtain ⟨rfl, _⟩ := List.cons.inj hC
              rw [hA'] at hA
              exact absurd (List.mem_append_right A' List.mem_cons_self) hA
        obtain ⟨C, rfl⟩ := hprefix
        rw [render, render, fill_append, List.length_append]
        omega
      have hlen : before.length = (render A).length :=
        Nat.le_antisymm (hfirst _ _ hrender) (by omega)
      have hparts : before = render A ∧ after = render B := by
        rw [hrender, List.append_assoc, List.append_assoc] at hs
        obtain ⟨hbefore, hrest⟩ := List.append_inj hs hlen.symm
        exact ⟨hbefore.symm, (List.append_cancel_left hrest).symm⟩
      rw [replace, hd]
      dsimp only
      rw [expand_eq_self (ht hmem), hparts.1, hparts.2, hsegs, fillFirst_append hA, render, render,
        render, fill_append, fill_append, fill_map_char, List.append_assoc]
  · have hnone : (render segs).dropInfix? (placeholder f) = none := by
      cases hd : (render segs).dropInfix? (placeholder f) with
      | none => rfl
      | some r =>
        obtain ⟨A, B, hsegs, _⟩ := ha r.1 r.2 (dropInfix_eq_some hd).1
        rw [hsegs] at hmem
        exact absurd (List.mem_append_right A List.mem_cons_self) hmem
    rw [replace, hnone, fillFirst_of_not_mem hmem]

/-- Each text that has a hole is put in as it is, and where it is meant to. -/
def Undisturbed (text : String → List Char) (fields : List String) (segs : List Segment) : Prop :=
  (∀ f ∈ fields, .hole f ∈ segs → hasDollarMark (text f) = false) ∧
    ∀ done f rest, fields = done ++ f :: rest → Aligned f (fillEach text done segs)

theorem Undisturbed.tail (h : Undisturbed text (f :: fields) segs) :
    Undisturbed text fields (fillFirst f (text f) segs) := by
  refine ⟨fun g hg hhole => h.1 g (List.mem_cons_of_mem _ hg) (hole_of_fillFirst hhole), ?_⟩
  intro done g rest hfields
  exact h.2 (f :: done) g rest (congrArg (f :: ·) hfields)

theorem replaceEach_render (h : Undisturbed text fields segs) :
    replaceEach text fields (render segs) = render (fillEach text fields segs) := by
  induction fields generalizing segs with
  | nil => rfl
  | cons f fields ih =>
    have hfirst : replace (render segs) (placeholder f) (text f) =
        render (fillFirst f (text f) segs) :=
      replace_render (h.1 f List.mem_cons_self) (h.2 [] f fields rfl)
    rw [replaceEach, List.foldl_cons, hfirst]
    exact ih h.tail

def Once (fields : List String) (segs : List Segment) : Prop :=
  ∀ f ∈ fields, segs.count (.hole f) ≤ 1

instance (fields : List String) (segs : List Segment) : Decidable (Once fields segs) :=
  inferInstanceAs (Decidable (∀ f ∈ fields, segs.count (.hole f) ≤ 1))

theorem count_map_char (cs : List Char) : (cs.map Segment.char).count (.hole f) = 0 := by
  refine List.count_eq_zero.mpr ?_
  intro h
  obtain ⟨c, _, hc⟩ := List.mem_map.mp h
  cases hc

theorem count_fillFirst_self (t : List Char) :
    (fillFirst f t segs).count (.hole f) = segs.count (.hole f) - 1 := by
  induction segs with
  | nil => rfl
  | cons s segs ih =>
    cases s with
    | char c =>
      rw [fillFirst, List.count_cons_of_ne (by simp), List.count_cons_of_ne (by simp), ih]
    | hole g =>
      by_cases hg : g = f
      · rw [fillFirst, if_pos hg, List.count_append, count_map_char, hg, List.count_cons_self]
        omega
      · have hne : Segment.hole g ≠ Segment.hole f := fun he => hg (Segment.hole.inj he)
        rw [fillFirst, if_neg hg, List.count_cons_of_ne hne, List.count_cons_of_ne hne, ih]

theorem count_fillFirst_other {g : String} (hg : g ≠ f) (t : List Char) :
    (fillFirst f t segs).count (.hole g) = segs.count (.hole g) := by
  induction segs with
  | nil => rfl
  | cons s segs ih =>
    cases s with
    | char c =>
      rw [fillFirst, List.count_cons_of_ne (by simp), List.count_cons_of_ne (by simp), ih]
    | hole e =>
      by_cases he : e = f
      · have hne : Segment.hole e ≠ Segment.hole g := by
          intro h
          exact hg ((Segment.hole.inj h).symm.trans he)
        rw [fillFirst, if_pos he, List.count_append, count_map_char, List.count_cons_of_ne hne]
        omega
      · rw [fillFirst, if_neg he, List.count_cons, List.count_cons, ih]

/-- With one hole of that name, the first hole is all of them. -/
theorem fill_fillFirst {t : List Char} (h : segs.count (.hole f) ≤ 1) :
    fill text (fillFirst f t segs) = fill (Function.update text f t) segs := by
  induction segs with
  | nil => rfl
  | cons s segs ih =>
    cases s with
    | char c =>
      rw [List.count_cons_of_ne (by simp)] at h
      rw [fillFirst, fill_char, fill_char, ih h]
    | hole g =>
      by_cases hg : g = f
      · rw [hg, List.count_cons_self] at h
        have hnone : .hole f ∉ segs := List.count_eq_zero.mp (by omega)
        have hrest : fill text segs = fill (Function.update text f t) segs := by
          refine fill_congr ?_
          intro e he
          have hne : e ≠ f := by
            rintro rfl
            exact hnone he
          rw [Function.update_of_ne hne]
        rw [fillFirst, if_pos hg, fill_append, fill_map_char, fill_hole, hg,
          Function.update_self, hrest]
      · have hne : Segment.hole g ≠ Segment.hole f := fun he => hg (Segment.hole.inj he)
        rw [List.count_cons_of_ne hne] at h
        rw [fillFirst, if_neg hg, fill_hole, fill_hole, ih h, Function.update_of_ne hg]

/-- The induction is on the fields; each of them loses its hole, the others keep theirs. -/
theorem render_fillEach (hfields : fields.Nodup) (hmem : ∀ f, .hole f ∈ segs → f ∈ fields)
    (hone : Once fields segs) : render (fillEach text fields segs) = fill text segs := by
  have hrun : ∀ (fields : List String) (segs : List Segment), fields.Nodup → Once fields segs →
      render (fillEach text fields segs) =
        fill (fun f => if f ∈ fields then text f else placeholder f) segs := by
    intro fields
    induction fields with
    | nil => exact fun segs _ _ => fill_congr (fun f _ => by simp)
    | cons f fields ih =>
      intro segs hn hone
      have hrest : Once fields (fillFirst f (text f) segs) := by
        intro g hg
        have hne : g ≠ f := by
          rintro rfl
          exact (List.nodup_cons.mp hn).1 hg
        rw [count_fillFirst_other hne]
        exact hone g (List.mem_cons_of_mem _ hg)
      have htail := ih (fillFirst f (text f) segs) (List.nodup_cons.mp hn).2 hrest
      have hstep : fillEach text (f :: fields) segs =
          fillEach text fields (fillFirst f (text f) segs) := rfl
      rw [hstep, htail, fill_fillFirst (hone f List.mem_cons_self)]
      refine fill_congr ?_
      intro g _
      by_cases hg : g = f
      · rw [hg, Function.update_self, if_pos List.mem_cons_self]
      · rw [Function.update_of_ne hg]
        simp [hg]
  rw [hrun fields segs hfields hone]
  exact fill_congr (fun f hf => if_pos (hmem f hf))

/-- Every hole is filled, and with its own text. -/
theorem replaceEach_eq_fill (hfields : fields.Nodup) (hmem : ∀ f, .hole f ∈ segs → f ∈ fields)
    (h : Undisturbed text fields segs) (hone : Once fields segs) :
    replaceEach text fields (render segs) = fill text segs := by
  rw [replaceEach_render h, render_fillEach hfields hmem hone]

structure Braced (segs : List Segment) : Prop where
  chars : ∀ c, .char c ∈ segs → c ≠ '\x7b'
  holes : ∀ f, .hole f ∈ segs → '\x7b' ∉ f.toList ∧ '\x7d' ∉ f.toList

def Segment.isBraced : Segment → Bool
  | .char c => c != '\x7b'
  | .hole f => !f.toList.contains '\x7b' && !f.toList.contains '\x7d'

theorem braced_iff : Braced segs ↔ segs.all Segment.isBraced = true := by
  rw [List.all_eq_true]
  constructor
  · intro h s hs
    cases s with
    | char c => simpa [Segment.isBraced] using h.chars c hs
    | hole f => simpa [Segment.isBraced] using h.holes f hs
  · intro h
    exact ⟨fun c hc => by simpa [Segment.isBraced] using h _ hc,
      fun f hf => by simpa [Segment.isBraced] using h _ hf⟩

theorem Braced.tail {s : Segment} (h : Braced (s :: segs)) : Braced segs :=
  ⟨fun c hc => h.chars c (List.mem_cons_of_mem _ hc),
    fun f hf => h.holes f (List.mem_cons_of_mem _ hf)⟩

/-- Where a brace is, a hole begins. -/
theorem hole_of_brace (h : Braced segs) {before rest : List Char}
    (he : render segs = before ++ '\x7b' :: rest) : ∃ A g B, segs = A ++ .hole g :: B ∧
      render A = before ∧ rest = g.toList ++ '\x7d' :: render B := by
  induction segs generalizing before with
  | nil => exact absurd he (by simp [render])
  | cons s segs ih =>
    cases s with
    | char c =>
      rw [render, fill_char] at he
      cases before with
      | nil => exact absurd (List.cons.inj he).1 (h.chars c List.mem_cons_self)
      | cons d before =>
        have htail : render segs = before ++ '\x7b' :: rest := (List.cons.inj he).2
        obtain ⟨A, g, B, rfl, rfl, hrest⟩ := ih h.tail htail
        exact ⟨.char c :: A, g, B, rfl, by rw [(List.cons.inj he).1]; rfl, hrest⟩
    | hole g =>
      rw [render, fill_hole] at he
      rcases List.append_eq_append_iff.mp he with ⟨x, hbefore, hx⟩ | ⟨x, hg, hx⟩
      · obtain ⟨A, e, B, rfl, hA, hrest⟩ := ih h.tail hx
        exact ⟨.hole g :: A, e, B, rfl, by rw [render, fill_hole, hbefore, ← hA, render], hrest⟩
      · cases x with
        | nil =>
          rw [List.append_nil] at hg
          have hx : render segs = [] ++ '\x7b' :: rest := hx.symm
          obtain ⟨A, e, B, rfl, hA, hrest⟩ := ih h.tail hx
          exact ⟨.hole g :: A, e, B, rfl, by rw [render, fill_hole, ← hg, ← render, hA,
            List.append_nil], hrest⟩
        | cons c x =>
          obtain ⟨rfl, _⟩ := List.cons.inj hx
          have hrest : rest = x ++ render segs := (List.cons.inj hx).2
          cases before with
          | nil =>
            have hx : g.toList ++ ['\x7d'] = x := (List.cons.inj hg).2
            refine ⟨[], g, segs, rfl, rfl, ?_⟩
            rw [hrest, ← hx, List.append_assoc, List.singleton_append]
          | cons d before =>
            have hmem : '\x7b' ∈ g.toList ++ ['\x7d'] := by
              rw [(List.cons.inj hg).2]
              exact List.mem_append_right _ List.mem_cons_self
            have hname := (h.holes g List.mem_cons_self).1
            simp [hname] at hmem

theorem aligned_of_braced (h : Braced segs) (hf : '\x7d' ∉ f.toList) : Aligned f segs := by
  intro before after he
  have hopen : render segs = before ++ '\x7b' :: (f.toList ++ '\x7d' :: after) := by
    rw [he, placeholder]
    simp
  obtain ⟨A, g, B, hsegs, hA, hrest⟩ := hole_of_brace h hopen
  have hg := (h.holes g (hsegs ▸ List.mem_append_right A List.mem_cons_self)).2
  obtain ⟨hname, _⟩ := (append_cons_inj hf hg).mp hrest
  rw [← String.toList_inj.mp hname] at hsegs
  exact ⟨A, B, hsegs, Nat.le_of_eq (congrArg List.length hA)⟩

theorem Braced.fillEach (h : Braced segs) (ht : ∀ f, .hole f ∈ segs → '\x7b' ∉ text f) :
    Braced (fillEach text fields segs) := by
  induction fields generalizing segs with
  | nil => exact h
  | cons f fields ih =>
    refine ih ⟨?_, ?_⟩ (fun g hg => ht g (hole_of_fillFirst hg))
    · intro c hc
      rcases mem_fillFirst hc with hc | ⟨hf, d, hd, he⟩
      · exact h.chars c hc
      · cases he
        rintro rfl
        exact ht f hf hd
    · exact fun g hg => h.holes g (hole_of_fillFirst hg)

theorem undisturbed_of_braced (h : Braced segs) (hf : ∀ f ∈ fields, '\x7d' ∉ f.toList)
    (ht : ∀ f, .hole f ∈ segs → '\x7b' ∉ text f ∧ hasDollarMark (text f) = false) :
    Undisturbed text fields segs := by
  refine ⟨fun f _ hhole => (ht f hhole).2, ?_⟩
  rintro done f rest rfl
  exact aligned_of_braced (h.fillEach (fun g hg => (ht g hg).1))
    (hf f (List.mem_append_right _ List.mem_cons_self))

theorem count_fillEach (hfields : fields.Nodup) (hf : f ∈ fields) :
    (fillEach text fields segs).count (.hole f) = segs.count (.hole f) - 1 := by
  have hother : ∀ (l : List String) (segs : List Segment), f ∉ l →
      (TemplateHoles.fillEach text l segs).count (.hole f) = segs.count (.hole f) := by
    intro l
    induction l with
    | nil => exact fun _ _ => rfl
    | cons g l ih =>
      intro segs hn
      have hne : f ≠ g := by
        rintro rfl
        exact hn List.mem_cons_self
      exact (ih (fillFirst g (text g) segs) (fun hm => hn (List.mem_cons_of_mem _ hm))).trans
        (count_fillFirst_other hne (text g))
  obtain ⟨before, after, rfl⟩ := List.append_of_mem hf
  rw [List.nodup_append'] at hfields
  have hbefore : f ∉ before := fun hm => hfields.2.2 hm List.mem_cons_self
  have hafter : f ∉ after := (List.nodup_cons.mp hfields.2.1).1
  have hsplit : fillEach text (before ++ f :: after) segs =
      fillEach text after (fillFirst f (text f) (fillEach text before segs)) := by
    rw [fillEach, List.foldl_append, List.foldl_cons]
    rfl
  rw [hsplit, hother after _ hafter, count_fillFirst_self, hother before _ hbefore]

/-- If braces open holes and nothing else, a second hole of one name stays open. -/
theorem replaceEach_eq_fill_iff (hfields : fields.Nodup)
    (hmem : ∀ f, .hole f ∈ segs → f ∈ fields) (h : Braced segs)
    (hf : ∀ f ∈ fields, '\x7d' ∉ f.toList)
    (ht : ∀ f, .hole f ∈ segs → '\x7b' ∉ text f ∧ hasDollarMark (text f) = false) :
    replaceEach text fields (render segs) = fill text segs ↔ Once fields segs := by
  have hundisturbed := undisturbed_of_braced h hf ht
  constructor
  · intro he f hfield
    by_contra hmany
    rw [replaceEach_render hundisturbed] at he
    have hopen : .hole f ∈ fillEach text fields segs := by
      refine List.count_pos_iff.mp ?_
      rw [count_fillEach hfields hfield]
      omega
    have hbrace : '\x7b' ∈ render (fillEach text fields segs) :=
      List.mem_flatMap.mpr ⟨_, hopen, List.mem_cons_self⟩
    rw [he] at hbrace
    obtain ⟨s, hs, hin⟩ := List.mem_flatMap.mp hbrace
    cases s with
    | char c => exact h.chars c hs (List.mem_singleton.mp hin).symm
    | hole g => exact (ht g hs).1 hin
  · exact replaceEach_eq_fill hfields hmem hundisturbed

/-- No name between braces that occurs in the text begins with another one. -/
def Unambiguous (fields : List String) (cs : List Char) : Prop :=
  ∀ f ∈ fields, ∀ g ∈ fields, placeholder g <:+: cs → placeholder f <+: placeholder g → f = g

theorem find_perm {α : Type} {p : α → Bool} {l l' : List α} (hl : l.Perm l')
    (h : ∀ a ∈ l, ∀ b ∈ l, p a = true → p b = true → a = b) : l.find? p = l'.find? p := by
  cases ha : l.find? p with
  | none =>
    refine (List.find?_eq_none.mpr ?_).symm
    exact fun b hb => List.find?_eq_none.mp ha b (hl.mem_iff.mpr hb)
  | some a =>
    cases hb : l'.find? p with
    | none =>
      exact absurd (List.find?_some ha)
        (List.find?_eq_none.mp hb a (hl.mem_iff.mp (List.mem_of_find?_eq_some ha)))
    | some b =>
      exact congrArg some (h a (List.mem_of_find?_eq_some ha) b
        (hl.mem_iff.mpr (List.mem_of_find?_eq_some hb)) (List.find?_some ha) (List.find?_some hb))

theorem Unambiguous.tail {c : Char} {cs : List Char} (h : Unambiguous fields (c :: cs)) :
    Unambiguous fields cs :=
  fun f hf g hg hin => h f hf g hg (hin.trans (List.suffix_cons c cs).isInfix)

theorem parse_perm {fields' : List String} {cs : List Char} (hperm : fields'.Perm fields)
    (h : Unambiguous fields cs) : parse fields' cs = parse fields cs := by
  have hfrom : ∀ cs, Unambiguous fields cs → ∀ skip,
      parseFrom fields' skip cs = parseFrom fields skip cs := by
    intro cs
    induction cs with
    | nil =>
      intro _ skip
      cases skip <;> rfl
    | cons c cs ih =>
      intro h skip
      have ih := ih h.tail
      cases skip with
      | succ skip => exact ih skip
      | zero =>
        have hfind : fields'.find? (fun f => (placeholder f).isPrefixOf (c :: cs)) =
            fields.find? (fun f => (placeholder f).isPrefixOf (c :: cs)) := by
          refine (find_perm hperm.symm ?_).symm
          intro f hf g hg hpf hpg
          have hpf := List.isPrefixOf_iff_prefix.mp hpf
          have hpg := List.isPrefixOf_iff_prefix.mp hpg
          rcases List.prefix_or_prefix_of_prefix hpf hpg with hfg | hgf
          · exact h f hf g hg hpg.isInfix hfg
          · exact (h g hg f hf hpf.isInfix hgf).symm
        rw [parseFrom, parseFrom, hfind]
        simp only [ih]
  exact hfrom cs h 0

end Holes

end TemplateHoles
