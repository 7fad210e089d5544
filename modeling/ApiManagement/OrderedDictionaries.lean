import Mathlib.Data.List.Nodup

/-! # Dictionaries that keep the order of insertion

Assignment to a key replaces its value in place or appends the pair. Assignments made one after
the other to a shared dictionary overwrite each other silently: each is found at the end just
when all assignments to one key agree. -/
namespace OrderedDictionaries

variable {κ ι ν : Type*} [DecidableEq κ] [DecidableEq ι]

def set (d : List (κ × ν)) (k : κ) (v : ν) : List (κ × ν) :=
  match d with
  | [] => [(k, v)]
  | (j, w) :: d => if j = k then (k, v) :: d else (j, w) :: set d k v

@[simp] theorem set_nil (k : κ) (v : ν) : set [] k v = [(k, v)] := rfl

theorem lookup_cons_eq (i : κ) (w : ν) (d : List (κ × ν)) (j : κ) :
    ((i, w) :: d).lookup j = if j = i then some w else d.lookup j := by
  rw [List.lookup_cons]
  by_cases hj : j = i
  · simp [hj]
  · rw [if_neg hj, beq_eq_false_iff_ne.mpr hj]

theorem lookup_set (d : List (κ × ν)) (k : κ) (v : ν) (j : κ) :
    (set d k v).lookup j = if j = k then some v else d.lookup j := by
  induction d with
  | nil =>
    rw [set_nil, lookup_cons_eq]
  | cons e d ih =>
    obtain ⟨i, w⟩ := e
    rw [set]
    by_cases hi : i = k
    · rw [if_pos hi, lookup_cons_eq, lookup_cons_eq, hi]
      by_cases hj : j = k
      · rw [if_pos hj, if_pos hj]
      · rw [if_neg hj, if_neg hj, if_neg hj]
    · rw [if_neg hi, lookup_cons_eq, lookup_cons_eq, ih]
      by_cases hj : j = i
      · rw [if_pos hj, if_neg (fun hk => hi (hj.symm.trans hk)), if_pos hj]
      · rw [if_neg hj, if_neg hj]

/-- A new key goes to the end. -/
theorem set_of_lookup_eq_none {d : List (κ × ν)} {k : κ} (h : d.lookup k = none) (v : ν) :
    set d k v = d ++ [(k, v)] := by
  induction d with
  | nil => rfl
  | cons e d ih =>
    obtain ⟨j, w⟩ := e
    rw [lookup_cons_eq] at h
    by_cases hj : k = j
    · rw [if_pos hj] at h
      cases h
    · rw [if_neg hj] at h
      rw [set, if_neg (fun he => hj he.symm), ih h, List.cons_append]

/-- Assignments to new keys, some of them skipped. -/
theorem foldl_set {l d : List (κ × ν)} (skip : κ → Prop) [DecidablePred skip]
    (h : ((d ++ l).map Prod.fst).Nodup) :
    l.foldl (fun d c => if skip c.1 then d else set d c.1 c.2) d =
      d ++ l.filter (fun c => ¬ skip c.1) := by
  induction l generalizing d with
  | nil => simp
  | cons c l ih =>
    have hsplit : (d ++ c :: l).map Prod.fst = d.map Prod.fst ++ c.1 :: l.map Prod.fst := by simp
    rw [hsplit] at h
    obtain ⟨hd, hl, hdisjoint⟩ := List.nodup_append.mp h
    rw [List.foldl_cons]
    by_cases hskip : skip c.1
    · rw [if_pos hskip, ih, List.filter_cons_of_neg (by simpa using hskip)]
      rw [List.map_append]
      refine h.sublist ?_
      exact List.Sublist.append_left (List.sublist_cons_self _ _) _
    · have hnew : d.lookup c.1 = none := by
        rw [List.lookup_eq_none_iff]
        intro e he
        have hne := hdisjoint e.1 (List.mem_map_of_mem he) c.1 List.mem_cons_self
        simpa using fun heq => hne heq.symm
      rw [if_neg hskip, set_of_lookup_eq_none hnew, ih,
        List.filter_cons_of_pos (by simpa using hskip), List.append_assoc]
      · rfl
      · simpa using h

theorem mem_of_lookup {d : List (κ × ν)} {k : κ} {v : ν} (h : d.lookup k = some v) :
    (k, v) ∈ d := by
  obtain ⟨_, _, rfl, _⟩ := List.lookup_eq_some_iff.mp h
  exact List.mem_append_right _ List.mem_cons_self

theorem lookup_of_mem {d : List (κ × ν)} {k : κ} {v : ν} (h : (k, v) ∈ d) :
    ∃ w, d.lookup k = some w := by
  cases hk : d.lookup k with
  | some w => exact ⟨w, rfl⟩
  | none =>
    have hne := List.lookup_eq_none_iff.mp hk _ h
    simp at hne

theorem lookup_of_nodup {d : List (κ × ν)} (hd : (d.map Prod.fst).Nodup) {k : κ} {v : ν}
    (h : (k, v) ∈ d) : d.lookup k = some v := by
  induction d with
  | nil => cases h
  | cons e d ih =>
    rw [List.map_cons, List.nodup_cons] at hd
    rw [lookup_cons_eq]
    rcases List.mem_cons.mp h with rfl | h
    · rw [if_pos rfl]
    · have hk : k ≠ e.1 := fun hk => hd.1 (hk ▸ List.mem_map_of_mem h)
      rw [if_neg hk]
      exact ih hd.2 h

/-- `delete d[k]`. -/
theorem lookup_filter_ne (d : List (κ × ν)) (k j : κ) :
    (d.filter (fun e => e.1 != k)).lookup j = if j = k then none else d.lookup j := by
  induction d with
  | nil => rw [List.filter_nil, List.lookup_nil, ite_self]
  | cons e d ih =>
    rw [List.filter_cons, lookup_cons_eq]
    by_cases he : e.1 = k
    · rw [if_neg (by simp [he]), ih, he]
      by_cases hj : j = k
      · rw [if_pos hj, if_pos hj]
      · rw [if_neg hj, if_neg hj, if_neg hj]
    · rw [if_pos (by simp [he]), lookup_cons_eq, ih]
      by_cases hj : j = e.1
      · rw [if_pos hj, if_neg (fun hk => he (hj.symm.trans hk)), if_pos hj]
      · rw [if_neg hj, if_neg hj]

theorem lookup_map_values {μ : Type*} (f : ν → μ) (d : List (κ × ν)) (k : κ) :
    (d.map (fun e => (e.1, f e.2))).lookup k = (d.lookup k).map f := by
  induction d with
  | nil => rfl
  | cons e d ih =>
    rw [List.map_cons, lookup_cons_eq, lookup_cons_eq, ih]
    by_cases hk : k = e.1
    · rw [if_pos hk, if_pos hk, Option.map_some]
    · rw [if_neg hk, if_neg hk]

def setAll (d : List (κ × ν)) (es : List (κ × ν)) : List (κ × ν) :=
  es.foldl (fun d e => set d e.1 e.2) d

@[simp] theorem setAll_nil (d : List (κ × ν)) : setAll d [] = d := rfl

@[simp] theorem setAll_cons (d : List (κ × ν)) (e : κ × ν) (es : List (κ × ν)) :
    setAll d (e :: es) = setAll (set d e.1 e.2) es := rfl

@[simp] theorem setAll_append (d : List (κ × ν)) (es fs : List (κ × ν)) :
    setAll d (es ++ fs) = setAll (setAll d es) fs := List.foldl_append

/-- The last assignment to a key counts. -/
theorem lookup_setAll (es : List (κ × ν)) (k : κ) : ∀ d : List (κ × ν),
    (setAll d es).lookup k = (es.reverse.lookup k).or (d.lookup k) := by
  induction es with
  | nil => exact fun _ => rfl
  | cons e es ih =>
    intro d
    rw [setAll_cons, ih, lookup_set, List.reverse_cons, List.lookup_append, Option.or_assoc]
    congr 1
    rw [lookup_cons_eq]
    by_cases hk : k = e.1
    · rw [if_pos hk, if_pos hk, Option.some_or]
    · rw [if_neg hk, if_neg hk, List.lookup_nil, Option.none_or]

/-- Every assignment is found at the end just when those to one key agree. -/
theorem found_iff_agree (es : List (κ × ν)) :
    (∀ k v, (k, v) ∈ es → (setAll [] es).lookup k = some v) ↔
      ∀ k v w, (k, v) ∈ es → (k, w) ∈ es → v = w := by
  constructor
  · intro h k v w hv hw
    exact Option.some.inj ((h k v hv).symm.trans (h k w hw))
  · intro h k v hv
    obtain ⟨w, hw⟩ := lookup_of_mem (List.mem_reverse.mpr hv)
    rw [lookup_setAll, hw, Option.some_or]
    exact congrArg some (h k w v (List.mem_reverse.mp (mem_of_lookup hw)) hv)

/-- `d.setdefault(k, {})[i] = v`. -/
def setIn (d : List (κ × List (ι × ν))) (k : κ) (i : ι) (v : ν) : List (κ × List (ι × ν)) :=
  set d k (set ((d.lookup k).getD []) i v)

def lookupIn (d : List (κ × List (ι × ν))) (k : κ) (i : ι) : Option ν :=
  (d.lookup k).bind (fun e => e.lookup i)

theorem lookupIn_setIn (d : List (κ × List (ι × ν))) (k : κ) (i : ι) (v : ν) (l : κ) (j : ι) :
    lookupIn (setIn d k i v) l j = if l = k ∧ j = i then some v else lookupIn d l j := by
  unfold lookupIn setIn
  rw [lookup_set]
  by_cases hl : l = k
  · subst hl
    rw [if_pos rfl, Option.bind_some, lookup_set]
    by_cases hj : j = i
    · simp [hj]
    · rw [if_neg hj, if_neg (fun h => hj h.2)]
      cases d.lookup l <;> rfl
  · rw [if_neg hl, if_neg (fun h => hl h.1)]

/-- Assignments to pairwise different places are all found. -/
theorem lookupIn_foldl {σ : Type*} {key : σ → κ × ι} {value : σ → ν} {es : List σ} :
    ∀ {d : List (κ × List (ι × ν))}, (es.map key).Nodup → ∀ e ∈ es,
      lookupIn (es.foldl (fun d e => setIn d (key e).1 (key e).2 (value e)) d)
        (key e).1 (key e).2 = some (value e) := by
  -- an entry that is not assigned again keeps its value
  have keep : ∀ {l : κ} {j : ι} {fs : List σ} {d : List (κ × List (ι × ν))},
      (l, j) ∉ fs.map key →
      lookupIn (fs.foldl (fun d e => setIn d (key e).1 (key e).2 (value e)) d) l j =
        lookupIn d l j := by
    intro l j fs
    induction fs with
    | nil => exact fun _ => rfl
    | cons f fs ih =>
      intro d hnot
      rw [List.map_cons, List.mem_cons, not_or] at hnot
      rw [List.foldl_cons, ih hnot.2, lookupIn_setIn, if_neg]
      exact fun h => hnot.1 (Prod.ext h.1 h.2)
  induction es with
  | nil =>
    intro _ _ e he
    cases he
  | cons f fs ih =>
    intro d hn e he
    rw [List.map_cons, List.nodup_cons] at hn
    rw [List.foldl_cons]
    rcases List.mem_cons.mp he with rfl | he
    · rw [keep hn.1, lookupIn_setIn, if_pos ⟨rfl, rfl⟩]
    · exact ih hn.2 e he

/-- `d.setdefault(k, []).append(a)`. -/
def appendTo (d : List (κ × List ν)) (k : κ) (a : ν) : List (κ × List ν) :=
  set d k ((d.lookup k).getD [] ++ [a])

theorem keys_set (d : List (κ × ν)) (k : κ) (v : ν) : (set d k v).map Prod.fst =
    if k ∈ d.map Prod.fst then d.map Prod.fst else d.map Prod.fst ++ [k] := by
  induction d with
  | nil => rfl
  | cons e d ih =>
    obtain ⟨j, w⟩ := e
    rw [set]
    by_cases hj : j = k
    · simp [hj]
    · rw [if_neg hj, List.map_cons, ih, List.map_cons]
      by_cases hk : k ∈ d.map Prod.fst
      · rw [if_pos hk, if_pos (List.mem_cons_of_mem _ hk)]
      · have hnot : k ∉ j :: d.map Prod.fst :=
          fun h => (List.mem_cons.mp h).elim (fun he => hj he.symm) hk
        rw [if_neg hk, if_neg hnot, List.cons_append]

theorem nodup_keys_set {d : List (κ × ν)} (h : (d.map Prod.fst).Nodup) (k : κ) (v : ν) :
    ((set d k v).map Prod.fst).Nodup := by
  rw [keys_set]
  by_cases hk : k ∈ d.map Prod.fst
  · rwa [if_pos hk]
  · rw [if_neg hk, List.nodup_append]
    refine ⟨h, List.nodup_singleton k, ?_⟩
    intro a ha b hb
    rw [List.mem_singleton.mp hb]
    exact fun he => hk (he ▸ ha)

/-- An assignment to a key that is there replaces its value. -/
theorem set_of_mem_keys {d : List (κ × ν)} (h : (d.map Prod.fst).Nodup) {k : κ}
    (hk : k ∈ d.map Prod.fst) (v : ν) :
    set d k v = d.map (fun e => if e.1 = k then (k, v) else e) := by
  induction d with
  | nil => cases hk
  | cons e d ih =>
    obtain ⟨j, w⟩ := e
    rw [List.map_cons, List.nodup_cons] at h
    rw [set, List.map_cons]
    by_cases hj : j = k
    · have hkeep : ∀ e ∈ d, (if e.1 = k then (k, v) else e) = e := by
        intro e he
        apply if_neg
        intro hek
        have hmem : e.1 ∈ d.map Prod.fst := List.mem_map_of_mem he
        exact h.1 (by rw [hj, ← hek]; exact hmem)
      rw [if_pos hj, if_pos hj, List.map_congr_left hkeep, List.map_id']
    · rw [if_neg hj, if_neg hj]
      rw [List.map_cons, List.mem_cons] at hk
      rw [ih h.2 (hk.resolve_left (fun he => hj he.symm))]

theorem mem_keys_set {d : List (κ × ν)} {k : κ} {v : ν} {j : κ} :
    j ∈ (set d k v).map Prod.fst ↔ j ∈ d.map Prod.fst ∨ j = k := by
  rw [keys_set]
  by_cases hk : k ∈ d.map Prod.fst
  · rw [if_pos hk]
    constructor
    · exact Or.inl
    · rintro (h | rfl)
      · exact h
      · exact hk
  · rw [if_neg hk, List.mem_append, List.mem_singleton]

theorem mem_set {d : List (κ × ν)} {k : κ} {v : ν} {e : κ × ν} (h : e ∈ set d k v) :
    e ∈ d ∨ e = (k, v) := by
  induction d with
  | nil => exact Or.inr (List.mem_singleton.mp h)
  | cons f d ih =>
    obtain ⟨j, w⟩ := f
    rw [set] at h
    split at h
    · rcases List.mem_cons.mp h with h | h
      · exact Or.inr h
      · exact Or.inl (List.mem_cons_of_mem _ h)
    · rcases List.mem_cons.mp h with h | h
      · exact Or.inl (h ▸ List.mem_cons_self)
      · exact (ih h).imp_left (List.mem_cons_of_mem _)

theorem mem_setAll {e : κ × ν} (es : List (κ × ν)) : ∀ {d : List (κ × ν)},
    e ∈ setAll d es → e ∈ d ∨ e ∈ es := by
  induction es with
  | nil => exact fun h => Or.inl h
  | cons f es ih =>
    intro d h
    rcases ih h with h | h
    · rcases mem_set h with h | h
      · exact Or.inl h
      · exact Or.inr (h ▸ List.mem_cons_self)
    · exact Or.inr (List.mem_cons_of_mem _ h)

theorem mem_keys_setAll (es : List (κ × ν)) (k : κ) : ∀ {d : List (κ × ν)},
    k ∈ (setAll d es).map Prod.fst ↔ k ∈ d.map Prod.fst ∨ k ∈ es.map Prod.fst := by
  induction es with
  | nil => simp
  | cons e es ih =>
    intro d
    rw [setAll_cons, ih, mem_keys_set, List.map_cons, List.mem_cons, or_assoc]

theorem nodup_keys_setAll {d : List (κ × ν)} (h : (d.map Prod.fst).Nodup)
    (es : List (κ × ν)) : ((setAll d es).map Prod.fst).Nodup := by
  induction es generalizing d with
  | nil => exact h
  | cons e es ih => exact ih (nodup_keys_set h e.1 e.2)

theorem lookup_appendTo (d : List (κ × List ν)) (k : κ) (a : ν) (j : κ) :
    ((appendTo d k a).lookup j).getD [] =
      (d.lookup j).getD [] ++ if j = k then [a] else [] := by
  rw [appendTo, lookup_set]
  by_cases hj : j = k
  · rw [if_pos hj, if_pos hj, hj, Option.getD_some]
  · rw [if_neg hj, if_neg hj, List.append_nil]

/-- The entries of a list fall into the buckets of their keys. -/
theorem flatMap_filter_perm {α : Type*} (key : α → κ) : ∀ {ks : List κ} {l : List α},
    ks.Nodup → (∀ a ∈ l, key a ∈ ks) →
      (ks.flatMap (fun k => l.filter (fun a => key a = k))).Perm l := by
  intro ks
  induction ks with
  | nil =>
    intro l _ hl
    cases l with
    | nil => exact .refl _
    | cons a l => cases hl a List.mem_cons_self
  | cons k ks ih =>
    intro l hn hl
    rw [List.nodup_cons] at hn
    have hrest : ks.flatMap (fun j => l.filter (fun a => key a = j)) =
        ks.flatMap (fun j => (l.filter (fun a => !decide (key a = k))).filter
          (fun a => key a = j)) := by
      apply List.flatMap_congr
      intro j hj
      rw [List.filter_filter]
      apply List.filter_congr
      intro a _
      by_cases ha : key a = j
      · have hne : key a ≠ k := fun h => hn.1 (h ▸ ha ▸ hj)
        simp [ha, ha ▸ hne]
      · simp [ha]
    rw [List.flatMap_cons, hrest]
    refine ((ih hn.2 ?_).append_left _).trans (List.filter_append_perm _ l)
    intro a ha
    rw [List.mem_filter] at ha
    exact (List.mem_cons.mp (hl a ha.1)).resolve_left (by simpa using ha.2)

end OrderedDictionaries
