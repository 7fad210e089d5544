import ApiManagement.StateInvariant
import ApiManagement.OpenapiExport
import ApiManagement.CompleteForests
import ApiManagement.ConcatenatedNames
import ApiManagement.OrderedDictionaries
import ApiManagement.SharedNodes

/-! # Rebuilding the forests of params

`organizeReqParams` and `organizeRespParams` as they run: one pass over the rows, in whatever
order, that links shared dictionaries. At the end of the pass every row stands once, below its
parent or in the bucket of a root, in the order of the list at every depth. -/
namespace ForestRebuild

open KeyedTables ParentLinkedRows RowForests CompleteForests OrderedDictionaries SharedNodes
  PythonRuntime ServiceSchema ApiStores ApiOperations OpenapiExport OperationRuns StateInvariant

structure Rebuild (F : Type) where
  heap : Heap (LinkedRow F)
  buckets : List (String × List ℕ)

section Pass

variable {F : Type} (key : LinkedRow F → String)

def paramIndex (rows : List (LinkedRow F)) : List (ℕ × ℕ) :=
  setAll [] (rows.zipIdx.map (fun e => (e.1.id, e.2)))

/-- One turn of the loop. A parent that is not found is passed over; the list of a root's key is
there already for request params. -/
def linkParam (index : List (ℕ × ℕ)) (s : Rebuild F) (e : LinkedRow F × ℕ) : Rebuild F :=
  if isRoot e.1 then { s with buckets := appendTo s.buckets (key e.1) e.2 }
  else match index.lookup (e.1.parent.getD 0) with
    | some p => { s with heap := adopt s.heap p e.2 }
    | none => s

def organize (buckets : List (String × List ℕ)) (rows : List (LinkedRow F)) : Rebuild F :=
  rows.zipIdx.foldl (linkParam key (paramIndex rows)) ⟨allocate rows, buckets⟩

end Pass

def requestKey (p : RequestParam) : String := locationKey p.fields.location

def responseKey (p : ResponseParam) : String := toString p.fields.statusCode

/-- The request params start with a list for each location. -/
def organizeReqParams (requestParams : List RequestParam) : Rebuild RequestFields :=
  organize requestKey
    ([.query, .path, .header, .cookie, .body].map (fun l => (locationKey l, []))) requestParams

def organizeRespParams (responseParams : List ResponseParam) : Rebuild ResponseFields :=
  organize responseKey [] responseParams

section Linking

variable {F : Type} {key : LinkedRow F → String} {rows : List (LinkedRow F)}
  {buckets : List (String × List ℕ)}

def goesBelow (index : List (ℕ × ℕ)) (a : ℕ) (e : LinkedRow F × ℕ) : Bool :=
  !isRoot e.1 && index.lookup (e.1.parent.getD 0) == some a

def goesInto (key : LinkedRow F → String) (k : String) (e : LinkedRow F × ℕ) : Bool :=
  isRoot e.1 && key e.1 == k

structure Linked (key : LinkedRow F → String) (index : List (ℕ × ℕ)) (start : Rebuild F)
    (l : List (LinkedRow F × ℕ)) (s : Rebuild F) : Prop where
  length : s.heap.length = start.heap.length
  values : ∀ a, valueAt s.heap a = valueAt start.heap a
  children : ∀ a, childrenAt s.heap a =
    childrenAt start.heap a ++ (l.filter (goesBelow index a)).map Prod.snd
  buckets : ∀ k, (s.buckets.lookup k).getD [] =
    (start.buckets.lookup k).getD [] ++ (l.filter (goesInto key k)).map Prod.snd
  keys : (s.buckets.map Prod.fst).Nodup
  mem_keys : ∀ k, k ∈ s.buckets.map Prod.fst ↔ k ∈ start.buckets.map Prod.fst ∨
    ∃ e ∈ l, isRoot e.1 = true ∧ key e.1 = k

theorem filter_snoc (p : LinkedRow F × ℕ → Bool) (l : List (LinkedRow F × ℕ))
    (e : LinkedRow F × ℕ) : ((l ++ [e]).filter p).map Prod.snd =
      (l.filter p).map Prod.snd ++ if p e = true then [e.2] else [] := by
  rw [List.filter_append, List.map_append]
  by_cases he : p e = true
  · rw [if_pos he, List.filter_cons_of_pos he]
    rfl
  · rw [if_neg he, List.filter_cons_of_neg he]
    rfl

theorem exists_snoc {P : LinkedRow F × ℕ → Prop} {l : List (LinkedRow F × ℕ)}
    {e : LinkedRow F × ℕ} : (∃ d ∈ l ++ [e], P d) ↔ (∃ d ∈ l, P d) ∨ P e := by
  simp only [List.mem_append, List.mem_singleton, or_and_right, exists_or, exists_eq_left]

theorem linkParam_linked {index : List (ℕ × ℕ)} {start s : Rebuild F}
    {l : List (LinkedRow F × ℕ)} (hindex : ∀ i a, index.lookup i = some a → a < start.heap.length)
    (h : Linked key index start l s) (e : LinkedRow F × ℕ) :
    Linked key index start (l ++ [e]) (linkParam key index s e) := by
  by_cases hroot : isRoot e.1 = true
  · -- a root goes into a bucket and below nothing
    have hinto : ∀ k, (goesInto key k e = true) = (k = key e.1) := by
      intro k
      rw [goesInto, hroot, Bool.true_and, beq_iff_eq]
      exact propext eq_comm
    have hbelow : ∀ a, ¬goesBelow index a e = true := by simp [goesBelow, hroot]
    rw [linkParam, if_pos hroot]
    refine ⟨h.length, h.values, ?_, ?_, nodup_keys_set h.keys _ _, ?_⟩
    · intro a
      rw [filter_snoc, if_neg (hbelow a), List.append_nil]
      exact h.children a
    · intro k
      rw [filter_snoc, lookup_appendTo, h.buckets, List.append_assoc]
      simp only [hinto]
    · intro k
      rw [appendTo, mem_keys_set, h.mem_keys, exists_snoc, or_assoc, and_iff_right hroot]
      exact or_congr_right (or_congr_right eq_comm)
  · -- a child goes below the dictionary that the index has for its parent, if any
    have hinto : ∀ k, ¬goesInto key k e = true := by simp [goesInto, hroot]
    have hkeys : ∀ k, k ∈ s.buckets.map Prod.fst ↔ k ∈ start.buckets.map Prod.fst ∨
        ∃ d ∈ l ++ [e], isRoot d.1 = true ∧ key d.1 = k := by
      intro k
      rw [exists_snoc, h.mem_keys]
      simp only [hroot, false_and, or_false, Bool.false_eq_true]
    have hbuckets : ∀ k, (s.buckets.lookup k).getD [] = (start.buckets.lookup k).getD [] ++
        ((l ++ [e]).filter (goesInto key k)).map Prod.snd := by
      intro k
      rw [filter_snoc, if_neg (hinto k), List.append_nil]
      exact h.buckets k
    rw [linkParam, if_neg hroot]
    cases hp : index.lookup (e.1.parent.getD 0) with
    | none =>
      refine ⟨h.length, h.values, ?_, hbuckets, h.keys, hkeys⟩
      intro a
      have hbelow : ¬goesBelow index a e = true := by simp [goesBelow, hp]
      rw [filter_snoc, if_neg hbelow, List.append_nil]
      exact h.children a
    | some p =>
      have hlt : p < s.heap.length := h.length ▸ hindex _ p hp
      refine ⟨?_, ?_, ?_, hbuckets, h.keys, hkeys⟩
      · rw [← h.length]
        exact List.length_modify ..
      · intro a
        rw [valueAt_adopt, h.values]
      · intro a
        have hbelow : (goesBelow index a e = true) = (p = a) := by simp [goesBelow, hroot, hp]
        rw [filter_snoc, childrenAt_adopt hlt, h.children, List.append_assoc]
        simp only [hbelow]

theorem foldl_linked {index : List (ℕ × ℕ)} {start : Rebuild F}
    (hindex : ∀ i a, index.lookup i = some a → a < start.heap.length)
    (hkeys : (start.buckets.map Prod.fst).Nodup) (l : List (LinkedRow F × ℕ)) :
    Linked key index start l (l.foldl (linkParam key index) start) := by
  induction l using List.reverseRecOn with
  | nil => exact ⟨rfl, fun _ => rfl, by simp, by simp, hkeys, by simp⟩
  | append_singleton l e ih =>
    rw [List.foldl_append]
    exact linkParam_linked hindex ih e

theorem mem_paramEntries {i a : ℕ} : (i, a) ∈ rows.zipIdx.map (fun e => (e.1.id, e.2)) ↔
    ∃ r, rows[a]? = some r ∧ r.id = i := by
  constructor
  · intro h
    obtain ⟨⟨r, b⟩, he, heq⟩ := List.mem_map.mp h
    obtain ⟨rfl, rfl⟩ := Prod.mk.inj heq
    exact ⟨r, List.mem_zipIdx_iff_getElem?.mp he, rfl⟩
  · rintro ⟨r, hr, rfl⟩
    exact List.mem_map.mpr ⟨(r, a), List.mem_zipIdx_iff_getElem?.mpr hr, rfl⟩

theorem of_paramIndex_lookup {i a : ℕ} (h : (paramIndex rows).lookup i = some a) :
    ∃ r, rows[a]? = some r ∧ r.id = i := by
  rw [paramIndex, lookup_setAll, List.lookup_nil, Option.or_none] at h
  exact mem_paramEntries.mp (List.mem_reverse.mp (mem_of_lookup h))

/-- Distinct ids are all found. -/
theorem paramIndex_lookup (hn : (rows.map LinkedRow.id).Nodup) {a : ℕ} {r : LinkedRow F}
    (hr : rows[a]? = some r) : (paramIndex rows).lookup r.id = some a := by
  refine (found_iff_agree _).mpr ?_ _ _ (mem_paramEntries.mpr ⟨r, hr, rfl⟩)
  intro i b c hb hc
  obtain ⟨q, hq, rfl⟩ := mem_paramEntries.mp hb
  obtain ⟨u, hu, hid⟩ := mem_paramEntries.mp hc
  have hlt : b < (rows.map LinkedRow.id).length := by
    rw [List.length_map]
    exact (List.getElem?_eq_some_iff.mp hq).1
  refine (List.getElem?_inj hlt hn).mp ?_
  rw [List.getElem?_map, List.getElem?_map, hq, hu, Option.map_some, Option.map_some, hid]

structure ParamList (rows : List (LinkedRow F)) : Prop where
  nodup : (rows.map LinkedRow.id).Nodup
  positive : ∀ r ∈ rows, 0 < r.id
  parent : ∀ r ∈ rows, ∀ p, r.parent = some p → p ∈ rows.map LinkedRow.id
  acyclic : ∀ i, ¬Relation.TransGen (ParentOf rows) i i

/-- The params of one api, as a query fetches them. -/
theorem paramList_fetched {link : F → F → Prop} {t : Table (LinkedRow F)}
    (hl : WellLinked link t.rows) (env : Environment) (a : ℕ) :
    ParamList (env.fetch (t.rows.filter (fun r => r.holder == a))) := by
  obtain ⟨hlinked, hn⟩ := fetched_linked hl env a
  refine ⟨hn, ?_, ?_, hlinked.acyclic hn⟩
  · intro r hr
    exact (t.bounds r (List.mem_of_mem_filter (env.mem_fetch.mp hr))).1
  · intro r hr p hp
    obtain ⟨q, hq, hid, _⟩ := hlinked.parent hr hp
    exact hid ▸ List.mem_map_of_mem hq

theorem ParamList.isRoot_eq (h : ParamList rows) {r : LinkedRow F} (hr : r ∈ rows) :
    isRoot r = r.parent.isNone := by
  cases hp : r.parent with
  | none => simp [isRoot, hp]
  | some p =>
    obtain ⟨q, hq, rfl⟩ := List.mem_map.mp (h.parent r hr p hp)
    have hpos := h.positive q hq
    have hne : q.id ≠ 0 := by omega
    simp [isRoot, hp, hne]

/-- The entries that go below a row are those that name it as parent. -/
theorem ParamList.goesBelow_eq (h : ParamList rows) {a : ℕ} {r : LinkedRow F}
    (hr : rows[a]? = some r) {e : LinkedRow F × ℕ} (he : e ∈ rows.zipIdx) :
    goesBelow (paramIndex rows) a e = (e.1.parent == some r.id) := by
  have hm : e.1 ∈ rows := List.mem_of_getElem? (List.mem_zipIdx_iff_getElem?.mp he)
  rw [goesBelow, h.isRoot_eq hm]
  cases hp : e.1.parent with
  | none => simp
  | some p =>
    obtain ⟨q, hq, rfl⟩ := List.mem_map.mp (h.parent e.1 hm p hp)
    obtain ⟨b, hb⟩ := List.mem_iff_getElem?.mp hq
    rw [Option.getD_some, paramIndex_lookup h.nodup hb, Bool.eq_iff_iff]
    simp only [Option.isNone_some, Bool.not_false, Bool.true_and, beq_iff_eq, Option.some_inj]
    constructor
    · rintro rfl
      rw [Option.some.inj (hb.symm.trans hr)]
    · intro hid
      have hb := paramIndex_lookup h.nodup hb
      rw [hid, paramIndex_lookup h.nodup hr] at hb
      exact (Option.some.inj hb).symm

theorem zipIdx_filter_fst (p : LinkedRow F → Bool) :
    (rows.zipIdx.filter (fun e => p e.1)).map Prod.fst = rows.filter p := by
  have h := List.filter_map (f := Prod.fst) (p := p) (l := rows.zipIdx)
  rw [List.zipIdx_map_fst] at h
  exact h.symm

theorem representsAll_of_pairs {heap : Heap (LinkedRow F)}
    {grow : LinkedRow F → RoseTree (LinkedRow F)} {pairs : List (LinkedRow F × ℕ)}
    (h : ∀ e ∈ pairs, Represents heap e.2 (grow e.1)) :
    RepresentsAll heap (pairs.map Prod.snd) ((pairs.map Prod.fst).map grow) := by
  induction pairs with
  | nil => exact .nil
  | cons e pairs ih =>
    exact .cons (h e List.mem_cons_self) (ih (fun d hd => h d (List.mem_cons_of_mem _ hd)))

theorem organize_linked (key : LinkedRow F → String) (rows : List (LinkedRow F))
    (hkeys : (buckets.map Prod.fst).Nodup) :
    Linked key (paramIndex rows) ⟨allocate rows, buckets⟩ rows.zipIdx
      (organize key buckets rows) := by
  refine foldl_linked ?_ hkeys _
  intro i a hia
  obtain ⟨r, hr, _⟩ := of_paramIndex_lookup hia
  rw [allocate, List.length_map]
  exact (List.getElem?_eq_some_iff.mp hr).1

/-- The dictionary of a row is the root of its tree, linked in whatever order. -/
theorem organize_represents (hkeys : (buckets.map Prod.fst).Nodup) (h : ParamList rows) {a : ℕ}
    {r : LinkedRow F} (hr : rows[a]? = some r) :
    Represents (organize key buckets rows).heap a (growTree rows rows.length r) := by
  have hlinked := organize_linked key rows hkeys
  have main : ∀ t, ∀ r a, rows[a]? = some r → growTree rows rows.length r = t →
      Represents (organize key buckets rows).heap a t := by
    intro t
    induction t using tree_induction with
    | node v ts ih =>
      intro r a hr ht
      rw [growTree_unfold h.acyclic (List.mem_of_getElem? hr), RoseTree.node.injEq] at ht
      obtain ⟨rfl, rfl⟩ := ht
      refine represents_of_children ?_ ?_
      · rw [hlinked.values, valueAt, allocate, List.getElem?_map, hr]
        rfl
      · have hpairs := List.filter_congr (fun e he => h.goesBelow_eq hr (e := e) he)
        have hstart : childrenAt (allocate rows) a = [] := by
          rw [childrenAt, allocate, List.getElem?_map, hr]
          rfl
        rw [hlinked.children, hstart, List.nil_append, hpairs, childrenOf,
          ← zipIdx_filter_fst (fun c => c.parent == some r.id)]
        refine representsAll_of_pairs ?_
        intro e he
        obtain ⟨hmem, hparent⟩ := List.mem_filter.mp he
        have hat := List.mem_zipIdx_iff_getElem?.mp hmem
        have hchild : e.1 ∈ childrenOf rows r.id :=
          List.mem_filter.mpr ⟨List.mem_of_getElem? hat, hparent⟩
        exact ih _ (List.mem_map_of_mem hchild) e.1 e.2 hat rfl
  exact main _ r a hr rfl

def rootsOf (key : LinkedRow F → String) (rows : List (LinkedRow F)) (k : String) :
    List (LinkedRow F) :=
  rows.filter (fun r => r.parent.isNone && key r == k)

/-- What a pass over the rows has built: the forests of the keys of its buckets. -/
structure Rebuilds (key : LinkedRow F → String) (rows : List (LinkedRow F)) (s : Rebuild F)
    (forest : String → List (RoseTree (LinkedRow F))) : Prop where
  keys : (s.buckets.map Prod.fst).Nodup
  represents : ∀ k as, s.buckets.lookup k = some as →
    ∀ ts, RepresentsAll s.heap as ts ↔ ts = forest k
  roots : ∀ k, (forest k).map RoseTree.value = rootsOf key rows k
  ordered : ∀ k, ∀ t ∈ forest k, InListOrder rows t
  once : (forestValues (s.buckets.flatMap (fun e => forest e.1))).Perm rows

/-- The list of a key holds the dictionaries of its roots. -/
theorem organize_bucket (hkeys : (buckets.map Prod.fst).Nodup) (hempty : ∀ e ∈ buckets, e.2 = [])
    (h : ParamList rows) {k : String} {as : List ℕ}
    (has : (organize key buckets rows).buckets.lookup k = some as) :
    RepresentsAll (organize key buckets rows).heap as
      (growForest rows (rows.filter (fun r => isRoot r && key r == k))) := by
  have hstart : (buckets.lookup k).getD [] = [] := by
    cases hk : buckets.lookup k with
    | none => rfl
    | some bs => exact hempty _ (mem_of_lookup hk)
  have hbucket := (organize_linked key rows hkeys).buckets k
  rw [has, Option.getD_some, hstart, List.nil_append] at hbucket
  rw [hbucket, growForest, ← zipIdx_filter_fst (fun r => isRoot r && key r == k)]
  refine representsAll_of_pairs ?_
  intro e he
  exact organize_represents hkeys h
    (List.mem_zipIdx_iff_getElem?.mp (List.mem_of_mem_filter he))

/-- Every root has its key among the buckets. -/
theorem rootsOf_perm (hkeys : (buckets.map Prod.fst).Nodup) (h : ParamList rows) :
    (((organize key buckets rows).buckets.map Prod.fst).flatMap (rootsOf key rows)).Perm
      (rows.filter (fun r => r.parent.isNone)) := by
  have hlinked := organize_linked key rows hkeys
  have hgroups : ∀ k, rootsOf key rows k =
      (rows.filter (fun r => r.parent.isNone)).filter (fun r => key r = k) := by
    intro k
    rw [rootsOf, List.filter_filter]
    apply List.filter_congr
    intro r _
    rw [Bool.and_comm]
    rfl
  rw [funext hgroups]
  refine flatMap_filter_perm key hlinked.keys ?_
  intro r hr
  obtain ⟨hm, hroot⟩ := List.mem_filter.mp hr
  obtain ⟨a, ha⟩ := List.mem_iff_getElem?.mp hm
  have hat : (r, a) ∈ rows.zipIdx := List.mem_zipIdx_iff_getElem?.mpr ha
  refine (hlinked.mem_keys _).mpr (Or.inr ⟨(r, a), hat, ?_, rfl⟩)
  rw [h.isRoot_eq hm, hroot]

theorem organize_rebuilds (hkeys : (buckets.map Prod.fst).Nodup)
    (hempty : ∀ e ∈ buckets, e.2 = []) (h : ParamList rows) :
    Rebuilds key rows (organize key buckets rows)
      (fun k => growForest rows (rows.filter (fun r => isRoot r && key r == k))) := by
  have hordered : ∀ k, ∀ t ∈ growForest rows (rows.filter (fun r => isRoot r && key r == k)),
      InListOrder rows t := by
    intro k t ht
    obtain ⟨r, hr, rfl⟩ := List.mem_map.mp ht
    exact growTree_inListOrder h.acyclic (List.mem_of_mem_filter hr)
  have hvalues : ∀ k, (growForest rows (rows.filter (fun r => isRoot r && key r == k))).map
      RoseTree.value = rootsOf key rows k := by
    intro k
    have hroots : rows.filter (fun r => isRoot r && key r == k) = rootsOf key rows k := by
      apply List.filter_congr
      intro r hr
      rw [h.isRoot_eq hr]
    rw [hroots, growForest, List.map_map]
    simp [Function.comp_def]
  refine ⟨(organize_linked key rows hkeys).keys, ?_, hvalues, hordered, ?_⟩
  · intro k as has ts
    have hbucket := organize_bucket hkeys hempty h has
    constructor
    · exact fun hts => hts.unique hbucket
    · rintro rfl
      exact hbucket
  · refine values_perm h.nodup (grounded_of_acyclic h.parent h.acyclic) ?_ ?_
    · intro t ht
      obtain ⟨e, _, ht⟩ := List.mem_flatMap.mp ht
      exact (hordered e.1 t ht).complete
    · rw [List.map_flatMap, List.flatMap_congr (fun e _ => hvalues e.1),
        ← List.flatMap_map Prod.fst (rootsOf key rows)]
      exact rootsOf_perm hkeys h

end Linking

theorem locationKey_inj {l m : ParamLocation} : locationKey l = locationKey m ↔ l = m := by
  cases l <;> cases m <;> decide

section Both

variable {requestParams : List RequestParam} {responseParams : List ResponseParam}

theorem organizeReqParams_rebuilds (h : ParamList requestParams) :
    ∃ forest, Rebuilds requestKey requestParams (organizeReqParams requestParams) forest ∧
      (∀ l, forest (locationKey l) = ApiOperations.organizeReqParams requestParams l) ∧
      ∀ k, k ∈ (organizeReqParams requestParams).buckets.map Prod.fst ↔
        ∃ l, locationKey l = k := by
  have hkeys : ([.query, .path, .header, .cookie, .body].map
      (fun l => (locationKey l, ([] : List ℕ)))).map Prod.fst =
      [.query, .path, .header, .cookie, .body].map locationKey := rfl
  have hstart : (([.query, .path, .header, .cookie, .body].map
      (fun l => (locationKey l, ([] : List ℕ)))).map Prod.fst).Nodup := by decide
  refine ⟨_, organize_rebuilds hstart (by simp) h, ?_, ?_⟩
  · intro l
    rw [ApiOperations.organizeReqParams]
    congr 1
    apply List.filter_congr
    intro r _
    rw [requestKey, Bool.eq_iff_iff]
    simp [locationKey_inj]
  · intro k
    refine ((organize_linked requestKey requestParams hstart).mem_keys k).trans ?_
    rw [hkeys, List.mem_map]
    constructor
    · rintro (⟨l, _, hl⟩ | ⟨e, _, _, he⟩)
      · exact ⟨l, hl⟩
      · exact ⟨_, he⟩
    · rintro ⟨l, hl⟩
      exact Or.inl ⟨l, by cases l <;> simp, hl⟩

theorem organizeRespParams_rebuilds (h : ParamList responseParams) :
    ∃ forest, Rebuilds responseKey responseParams (organizeRespParams responseParams) forest ∧
      (∀ c : ℤ, forest (toString c) = ApiOperations.organizeRespParams responseParams c) ∧
      ∀ k, k ∈ (organizeRespParams responseParams).buckets.map Prod.fst ↔
        ∃ r ∈ responseParams, r.parent = none ∧ responseKey r = k := by
  have hstart : (([] : List (String × List ℕ)).map Prod.fst).Nodup := List.nodup_nil
  refine ⟨_, organize_rebuilds hstart (by simp) h, ?_, ?_⟩
  · intro c
    rw [ApiOperations.organizeRespParams]
    congr 1
    apply List.filter_congr
    intro r _
    rw [responseKey, Bool.eq_iff_iff, Bool.and_eq_true, Bool.and_eq_true, beq_iff_eq, beq_iff_eq,
      ConcatenatedNames.toString_inj]
  · intro k
    refine ((organize_linked responseKey responseParams hstart).mem_keys k).trans ?_
    rw [List.map_nil, or_iff_right List.not_mem_nil]
    constructor
    · rintro ⟨e, he, hroot, hkey⟩
      have hm := List.mem_of_getElem? (List.mem_zipIdx_iff_getElem?.mp he)
      rw [h.isRoot_eq hm, Option.isNone_iff_eq_none] at hroot
      exact ⟨e.1, hm, hroot, hkey⟩
    · rintro ⟨r, hr, hroot, hkey⟩
      obtain ⟨a, ha⟩ := List.mem_iff_getElem?.mp hr
      refine ⟨(r, a), List.mem_zipIdx_iff_getElem?.mpr ha, ?_, hkey⟩
      rw [h.isRoot_eq hr, hroot]
      rfl

/-- Both passes lose and duplicate nothing: every row stands once in the forests of the buckets,
the roots of a key and the children of a row in the order of the list. -/
theorem forests_rebuilt (hreq : ParamList requestParams) (hresp : ParamList responseParams) :
    (∃ forest, Rebuilds requestKey requestParams (organizeReqParams requestParams) forest ∧
      (∀ l, forest (locationKey l) = ApiOperations.organizeReqParams requestParams l) ∧
      ∀ k, k ∈ (organizeReqParams requestParams).buckets.map Prod.fst ↔
        ∃ l, locationKey l = k) ∧
    ∃ forest, Rebuilds responseKey responseParams (organizeRespParams responseParams) forest ∧
      (∀ c : ℤ, forest (toString c) = ApiOperations.organizeRespParams responseParams c) ∧
      ∀ k, k ∈ (organizeRespParams responseParams).buckets.map Prod.fst ↔
        ∃ r ∈ responseParams, r.parent = none ∧ responseKey r = k :=
  ⟨organizeReqParams_rebuilds hreq, organizeRespParams_rebuilds hresp⟩

end Both

/-- What the detail of an api shows are the forests that the passes over its params build. -/
theorem apiDetail_rebuilt {link : RequestFields → RequestFields → Prop} {st : ApiStore}
    (hw : WellFormed link st) (env : Environment) (db : Database) (api : ApiRow) :
    (∃ forest, Rebuilds requestKey (env.fetch (st.requestParamsOf api.id))
        (organizeReqParams (env.fetch (st.requestParamsOf api.id))) forest ∧
      ∀ l, forest (locationKey l) = (apiDetail env db st api).requestParamsByLocation l) ∧
    ∃ forest, Rebuilds responseKey (env.fetch (st.responseParamsOf api.id))
        (organizeRespParams (env.fetch (st.responseParamsOf api.id))) forest ∧
      ∀ c : ℤ, forest (toString c) = (apiDetail env db st api).responseParamsByStatusCode c := by
  obtain ⟨f, hf, hl, _⟩ :=
    organizeReqParams_rebuilds (paramList_fetched hw.request_linked env api.id)
  obtain ⟨g, hg, hc, _⟩ :=
    organizeRespParams_rebuilds (paramList_fetched hw.response_linked env api.id)
  exact ⟨⟨f, hf, hl⟩, g, hg, hc⟩

def childFirst : List RequestParam := (opened.drafts.requestParamsOf 2).reverse

def noResponses : List ResponseParam := (opened.drafts.responseParamsOf 2).reverse

theorem childFirst_rebuilt :
    childFirst.map (fun r => r.parent.isNone) = [false, true] ∧
    (∃ forest, Rebuilds requestKey childFirst (organizeReqParams childFirst) forest ∧
      (∀ l, forest (locationKey l) = ApiOperations.organizeReqParams childFirst l) ∧
      ∀ k, k ∈ (organizeReqParams childFirst).buckets.map Prod.fst ↔
        ∃ l, locationKey l = k) ∧
    ∃ forest, Rebuilds responseKey noResponses (organizeRespParams noResponses) forest ∧
      (∀ c : ℤ, forest (toString c) = ApiOperations.organizeRespParams noResponses c) ∧
      ∀ k, k ∈ (organizeRespParams noResponses).buckets.map Prod.fst ↔
        ∃ r ∈ noResponses, r.parent = none ∧ responseKey r = k := by
  have hw := (reachable_invariant opened_reachable).drafts
  let reversing : Environment :=
    { plainEnvironment with fetch := List.reverse, fetch_perm := List.reverse_perm }
  exact ⟨by decide +kernel, forests_rebuilt (paramList_fetched hw.request_linked reversing 2)
    (paramList_fetched hw.response_linked reversing 2)⟩

end ForestRebuild
