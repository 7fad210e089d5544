import ApiManagement.DraftEditor
import ApiManagement.OrderedDictionaries

/-! # The tree of apis

The page of a service shows its apis in a tree with one group for each category and a last one
for the apis without. An api whose category the page does not know is shown in the last group. -/
namespace CategoryTrees

open KeyedTables PythonRuntime ServiceSchema DraftEditor OrderedDictionaries

inductive NodeKey where
  | api (id : ℕ)
  | category (id : ℕ)
  | uncategorised
  deriving DecidableEq

structure TreeNode where
  id : ℕ
  method : HttpMethod
  name : VarChar 128
  path : VarChar 256
  deriving DecidableEq

def nodeOf (api : ApiRow) : TreeNode :=
  ⟨api.id, api.fields.method, api.fields.name, api.fields.path⟩

structure TreeGroup where
  key : NodeKey
  title : Option (VarChar 64 × Option String)
  children : List TreeNode
  deriving DecidableEq

def categoryGroup (cat : ApiCategory) : TreeGroup :=
  ⟨.category cat.id, some (cat.name, cat.description), []⟩

def categoryMap (apiCategories : List ApiCategory) : List (ℕ × TreeGroup) :=
  apiCategories.foldl (fun m cat => set m cat.id (categoryGroup cat)) []

def uncategorizedGroup : TreeGroup := ⟨.uncategorised, none, []⟩

def TreeGroup.push (group : TreeGroup) (api : ApiRow) : TreeGroup :=
  { group with children := group.children ++ [nodeOf api] }

def pushNode (groups : List (ℕ × TreeGroup) × TreeGroup) (api : ApiRow) :
    List (ℕ × TreeGroup) × TreeGroup :=
  match api.fields.categoryId with
  | none => (groups.1, groups.2.push api)
  | some k =>
    match groups.1.lookup k with
    | some group => (set groups.1 k (group.push api), groups.2)
    | none => (groups.1, groups.2.push api)

/-- `a.method.localeCompare(b.method)` does not exceed 0; the methods are words of capital
letters. -/
def methodLE (a b : ApiRow) : Bool :=
  decide (httpMethodValue a.fields.method ≤ httpMethodValue b.fields.method)

/-- `apis.sort(…)`, which is stable. -/
def sortApis (apis : List ApiRow) : List ApiRow := apis.mergeSort methodLE

def treeData (apiCategories : List ApiCategory) (apis : List ApiRow) : List TreeGroup :=
  let groups := (sortApis apis).foldl pushNode (categoryMap apiCategories, uncategorizedGroup)
  groups.1.map Prod.snd ++ [groups.2]

section Groups

variable {m : List (ℕ × TreeGroup)} {other : TreeGroup} {apis : List ApiRow}

def groupKey (known : List ℕ) (api : ApiRow) : NodeKey :=
  match api.fields.categoryId with
  | none => .uncategorised
  | some k => if k ∈ known then .category k else .uncategorised

theorem groupKey_eq_category {known : List ℕ} {api : ApiRow} {k : ℕ} :
    groupKey known api = .category k ↔ api.fields.categoryId = some k ∧ k ∈ known := by
  unfold groupKey
  cases api.fields.categoryId with
  | none => simp
  | some j =>
    by_cases hj : j ∈ known
    · simp only [if_pos hj, NodeKey.category.injEq, Option.some_inj]
      constructor
      · rintro rfl
        exact ⟨rfl, hj⟩
      · exact fun h => h.1
    · simp only [if_neg hj, Option.some_inj, reduceCtorEq, false_iff]
      rintro ⟨rfl, hk⟩
      exact hj hk

def TreeGroup.pushAll (group : TreeGroup) (apis : List ApiRow) : TreeGroup :=
  { group with children := group.children ++ apis.map nodeOf }

@[simp] theorem TreeGroup.pushAll_nil (group : TreeGroup) : group.pushAll [] = group := by
  unfold TreeGroup.pushAll
  rw [List.map_nil, List.append_nil]

theorem TreeGroup.push_pushAll (group : TreeGroup) (api : ApiRow) (apis : List ApiRow) :
    (group.push api).pushAll apis = group.pushAll (api :: apis) := by
  unfold TreeGroup.push TreeGroup.pushAll
  rw [List.map_cons, List.append_assoc, List.singleton_append]

/-- What one turn does to every entry of the map and to the last group. -/
theorem pushNode_eq (hm : (m.map Prod.fst).Nodup) (api : ApiRow) : pushNode (m, other) api =
    (m.map (fun e => (e.1, if groupKey (m.map Prod.fst) api = .category e.1
        then e.2.push api else e.2)),
      if groupKey (m.map Prod.fst) api = .uncategorised then other.push api else other) := by
  have keep : (∀ k, api.fields.categoryId = some k → k ∉ m.map Prod.fst) →
      (m, other.push api) =
        (m.map (fun e => (e.1, if groupKey (m.map Prod.fst) api = .category e.1
            then e.2.push api else e.2)),
          if groupKey (m.map Prod.fst) api = .uncategorised then other.push api else other) := by
    intro hk
    have hkey : groupKey (m.map Prod.fst) api = .uncategorised := by
      unfold groupKey
      cases hc : api.fields.categoryId with
      | none => rfl
      | some k => exact if_neg (hk k hc)
    rw [hkey, if_pos rfl]
    simp
  unfold pushNode
  cases hc : api.fields.categoryId with
  | none => exact keep (fun k hk => by rw [hc] at hk; cases hk)
  | some k =>
    dsimp only
    cases hl : m.lookup k with
    | none =>
      refine keep (fun j hj hmem => ?_)
      rw [hc] at hj
      cases hj
      obtain ⟨e, he, rfl⟩ := List.mem_map.mp hmem
      obtain ⟨w, hw⟩ := lookup_of_mem he
      rw [hl] at hw
      cases hw
    | some group =>
      have hkm : k ∈ m.map Prod.fst := List.mem_map_of_mem (mem_of_lookup hl)
      have hkey : groupKey (m.map Prod.fst) api = .category k :=
        groupKey_eq_category.mpr ⟨hc, hkm⟩
      dsimp only
      rw [hkey, if_neg NodeKey.noConfusion, set_of_mem_keys hm hkm]
      refine congrArg (fun l => (l, other)) (List.map_congr_left ?_)
      intro e he
      by_cases hek : e.1 = k
      · rw [if_pos hek, if_pos (by rw [hek]), hek]
        have hgroup : e.2 = group :=
          Option.some.inj ((lookup_of_nodup hm (hek ▸ he : (k, e.2) ∈ m)).symm.trans hl)
        rw [hgroup]
      · rw [if_neg hek, if_neg (fun h => hek (NodeKey.category.inj h).symm)]

/-- The loop fills every group with its apis, in the order of the list. -/
theorem foldl_pushNode (apis : List ApiRow) : ∀ {m : List (ℕ × TreeGroup)} {other : TreeGroup},
    (m.map Prod.fst).Nodup → apis.foldl pushNode (m, other) =
      (m.map (fun e => (e.1, e.2.pushAll
          (apis.filter (fun a => groupKey (m.map Prod.fst) a = .category e.1)))),
        other.pushAll (apis.filter (fun a => groupKey (m.map Prod.fst) a = .uncategorised))) := by
  induction apis with
  | nil =>
    intro m other _
    simp
  | cons api apis ih =>
    intro m other hm
    have hkeys : (m.map (fun e => (e.1, if groupKey (m.map Prod.fst) api = .category e.1
        then e.2.push api else e.2))).map Prod.fst = m.map Prod.fst := by
      rw [List.map_map]
      rfl
    rw [List.foldl_cons, pushNode_eq hm, ih (by rw [hkeys]; exact hm), hkeys, List.map_map]
    refine Prod.ext (List.map_congr_left ?_) ?_
    · intro e _
      refine Prod.ext rfl ?_
      by_cases hk : groupKey (m.map Prod.fst) api = .category e.1
      · simp [hk, TreeGroup.push_pushAll]
      · simp [hk]
    · by_cases hk : groupKey (m.map Prod.fst) api = .uncategorised
      · simp [hk, TreeGroup.push_pushAll]
      · simp [hk]

end Groups

section Trees

variable {apiCategories : List ApiCategory} {apis : List ApiRow}

theorem categoryMap_eq : categoryMap apiCategories =
    setAll [] (apiCategories.map (fun cat => (cat.id, categoryGroup cat))) := by
  unfold categoryMap setAll
  rw [List.foldl_map]

/-- An entry of the map is the empty group of a category. -/
theorem mem_categoryMap {e : ℕ × TreeGroup} (h : e ∈ categoryMap apiCategories) :
    ∃ cat ∈ apiCategories, e = (cat.id, categoryGroup cat) := by
  rw [categoryMap_eq] at h
  rcases mem_setAll _ h with h | h
  · cases h
  · obtain ⟨cat, hcat, rfl⟩ := List.mem_map.mp h
    exact ⟨cat, hcat, rfl⟩

theorem nodup_categoryMap : ((categoryMap apiCategories).map Prod.fst).Nodup := by
  rw [categoryMap_eq]
  refine nodup_keys_setAll ?_ _
  exact List.nodup_nil

theorem mem_keys_categoryMap {k : ℕ} : k ∈ (categoryMap apiCategories).map Prod.fst ↔
    k ∈ apiCategories.map ApiCategory.id := by
  rw [categoryMap_eq, mem_keys_setAll, List.map_map]
  simp

theorem categoryMap_of_nodup (h : (apiCategories.map ApiCategory.id).Nodup) :
    categoryMap apiCategories = apiCategories.map (fun cat => (cat.id, categoryGroup cat)) := by
  have hmap := foldl_set (l := apiCategories.map (fun cat => (cat.id, categoryGroup cat)))
    (d := []) (fun _ => False) (by rw [List.nil_append, List.map_map]; exact h)
  simp only [if_false, not_false_eq_true, decide_true, List.filter_true, List.nil_append] at hmap
  rw [categoryMap_eq, setAll]
  exact hmap

theorem groupKey_congr {known known' : List ℕ} (h : ∀ k, k ∈ known ↔ k ∈ known') (api : ApiRow) :
    groupKey known api = groupKey known' api := by
  unfold groupKey
  cases api.fields.categoryId with
  | none => rfl
  | some k =>
    dsimp only
    by_cases hk : k ∈ known
    · rw [if_pos hk, if_pos ((h k).mp hk)]
    · rw [if_neg hk, if_neg (fun hk' => hk ((h k).mpr hk'))]

def inGroup (apiCategories : List ApiCategory) (key : NodeKey) (apis : List ApiRow) :
    List ApiRow :=
  apis.filter (fun a => groupKey (apiCategories.map ApiCategory.id) a = key)

theorem treeData_eq (apiCategories : List ApiCategory) (apis : List ApiRow) :
    treeData apiCategories apis =
      (categoryMap apiCategories).map (fun e =>
        e.2.pushAll (inGroup apiCategories (.category e.1) (sortApis apis))) ++
      [uncategorizedGroup.pushAll (inGroup apiCategories .uncategorised (sortApis apis))] := by
  have hkey : groupKey ((categoryMap apiCategories).map Prod.fst) =
      groupKey (apiCategories.map ApiCategory.id) :=
    funext (groupKey_congr (fun _ => mem_keys_categoryMap))
  unfold treeData inGroup
  rw [foldl_pushNode _ nodup_categoryMap, hkey]
  dsimp only
  rw [List.map_map]
  rfl

theorem methodLE_trans (a b c : ApiRow) (hab : methodLE a b = true) (hbc : methodLE b c = true) :
    methodLE a c = true := by
  unfold methodLE at *
  exact decide_eq_true (String.le_trans (of_decide_eq_true hab) (of_decide_eq_true hbc))

theorem methodLE_total (a b : ApiRow) : (methodLE a b || methodLE b a) = true := by
  unfold methodLE
  rw [Bool.or_eq_true, decide_eq_true_eq, decide_eq_true_eq]
  exact String.le_total _ _

/-- The apis of one method keep their order. -/
theorem filter_sortApis (method : HttpMethod) (apis : List ApiRow) :
    (sortApis apis).filter (fun a => a.fields.method = method) =
      apis.filter (fun a => a.fields.method = method) := by
  have hsorted : (apis.filter (fun a => a.fields.method = method)).Pairwise
      (fun a b => methodLE a b = true) := by
    refine List.pairwise_of_forall_mem_list ?_
    intro a ha b hb
    have hma := of_decide_eq_true (List.mem_filter.mp ha).2
    have hmb := of_decide_eq_true (List.mem_filter.mp hb).2
    unfold methodLE
    rw [hma, hmb]
    exact decide_eq_true (String.le_refl _)
  have hsub := (List.sublist_mergeSort methodLE_trans methodLE_total hsorted
    List.filter_sublist).filter (fun a => a.fields.method = method)
  rw [List.filter_filter] at hsub
  simp only [Bool.and_self] at hsub
  exact (hsub.eq_of_length ((List.mergeSort_perm apis methodLE).filter _).length_eq.symm).symm

/-- The tree is a sorted listing of the apis by their groups. -/
structure Listing (apiCategories : List ApiCategory) (apis : List ApiRow)
    (tree : List TreeGroup) : Prop where
  groups : (tree.map TreeGroup.key).Nodup
  last : (tree.map TreeGroup.key).getLast? = some .uncategorised
  complete : (tree.flatMap TreeGroup.children).Perm (apis.map nodeOf)
  own : ∀ g ∈ tree, g.children.Perm ((inGroup apiCategories g.key apis).map nodeOf)
  sorted : ∀ g ∈ tree, g.children.Pairwise
    (fun a b => httpMethodValue a.method ≤ httpMethodValue b.method)
  stable : ∀ g ∈ tree, ∀ method, g.children.filter (fun a => a.method = method) =
    ((inGroup apiCategories g.key apis).filter (fun a => a.fields.method = method)).map nodeOf

/-- The children of every group of the tree. -/
theorem children_eq {g : TreeGroup} (h : g ∈ treeData apiCategories apis) :
    g.children = (inGroup apiCategories g.key (sortApis apis)).map nodeOf := by
  rw [treeData_eq] at h
  rcases List.mem_append.mp h with h | h
  · obtain ⟨e, he, rfl⟩ := List.mem_map.mp h
    obtain ⟨cat, _, rfl⟩ := mem_categoryMap he
    rfl
  · rw [List.mem_singleton.mp h]
    rfl

theorem keys_treeData (apiCategories : List ApiCategory) (apis : List ApiRow) :
    (treeData apiCategories apis).map TreeGroup.key =
      ((categoryMap apiCategories).map Prod.fst).map NodeKey.category ++ [.uncategorised] := by
  rw [treeData_eq, List.map_append, List.map_map, List.map_map]
  refine congrArg (· ++ [NodeKey.uncategorised]) (List.map_congr_left ?_)
  intro e he
  obtain ⟨cat, _, rfl⟩ := mem_categoryMap he
  rfl

theorem nodup_keys_treeData : ((treeData apiCategories apis).map TreeGroup.key).Nodup := by
  rw [keys_treeData, List.nodup_append]
  refine ⟨nodup_categoryMap.map (fun _ _ => NodeKey.category.inj), List.nodup_singleton _, ?_⟩
  intro a ha b hb hab
  obtain ⟨k, _, rfl⟩ := List.mem_map.mp ha
  rw [List.mem_singleton.mp hb] at hab
  cases hab

theorem groupKey_mem (api : ApiRow) : groupKey (apiCategories.map ApiCategory.id) api ∈
    (treeData apiCategories apis).map TreeGroup.key := by
  rw [keys_treeData, List.mem_append, List.mem_singleton]
  cases hk : groupKey (apiCategories.map ApiCategory.id) api with
  | category k =>
    exact Or.inl (List.mem_map_of_mem
      (mem_keys_categoryMap.mpr (groupKey_eq_category.mp hk).2))
  | uncategorised => exact Or.inr rfl
  | api id =>
    unfold groupKey at hk
    cases hc : api.fields.categoryId with
    | none => simp [hc] at hk
    | some k =>
      simp only [hc] at hk
      split at hk <;> cases hk

/-- Every api stands in the tree exactly once, in the group of its category if the page knows
it and in the last group otherwise; the groups are sorted by method, and apis of one method keep
the order of the list. -/
theorem tree_lists_apis (apiCategories : List ApiCategory) (apis : List ApiRow) :
    Listing apiCategories apis (treeData apiCategories apis) := by
  have hperm := List.mergeSort_perm apis methodLE
  refine ⟨nodup_keys_treeData, by rw [keys_treeData, List.getLast?_concat], ?_, ?_, ?_, ?_⟩
  · have hchildren : (treeData apiCategories apis).flatMap TreeGroup.children =
        (((treeData apiCategories apis).map TreeGroup.key).flatMap (fun key =>
          (sortApis apis).filter (fun a =>
            groupKey (apiCategories.map ApiCategory.id) a = key))).map nodeOf := by
      rw [List.map_flatMap, List.flatMap_map]
      exact List.flatMap_congr (fun g hg => children_eq hg)
    rw [hchildren]
    exact ((flatMap_filter_perm _ nodup_keys_treeData (fun a _ => groupKey_mem a)).trans
      hperm).map nodeOf
  · intro g hg
    rw [children_eq hg]
    exact (hperm.filter _).map nodeOf
  · intro g hg
    rw [children_eq hg, List.pairwise_map]
    have hsorted := List.pairwise_mergeSort methodLE_trans methodLE_total apis
    exact (hsorted.sublist List.filter_sublist).imp (fun h => of_decide_eq_true h)
  · intro g hg method
    rw [children_eq hg, List.filter_map]
    have hcomm : ∀ l : List ApiRow, (inGroup apiCategories g.key l).filter
        (fun a => a.fields.method = method) =
          inGroup apiCategories g.key (l.filter (fun a => a.fields.method = method)) := by
      intro l
      unfold inGroup
      rw [List.filter_filter, List.filter_filter]
      exact List.filter_congr (fun a _ => Bool.and_comm _ _)
    refine congrArg (List.map nodeOf) ?_
    rw [hcomm apis, ← filter_sortApis method apis, ← hcomm]
    rfl

structure SameTree (t t' : List TreeGroup) : Prop where
  groups : (t.map (fun g => (g.key, g.title))).Perm (t'.map (fun g => (g.key, g.title)))
  children : ∀ g ∈ t, ∀ g' ∈ t', g.key = g'.key → g.children.Perm g'.children

theorem SameTree.symm {t t' : List TreeGroup} (h : SameTree t t') : SameTree t' t :=
  ⟨h.groups.symm, fun g hg g' hg' hkey => (h.children g' hg' g hg hkey.symm).symm⟩

theorem SameTree.trans {t t' u : List TreeGroup} (h : SameTree t t') (k : SameTree t' u) :
    SameTree t u := by
  refine ⟨h.groups.trans k.groups, ?_⟩
  intro g hg v hv hkey
  have hmem : (g.key, g.title) ∈ t'.map (fun g => (g.key, g.title)) :=
    h.groups.mem_iff.mp (List.mem_map_of_mem hg)
  obtain ⟨g', hg', he⟩ := List.mem_map.mp hmem
  have hkey' : g'.key = g.key := congrArg Prod.fst he
  exact (h.children g hg g' hg' hkey'.symm).trans (k.children g' hg' v hv (hkey'.trans hkey))

theorem titles_treeData (h : (apiCategories.map ApiCategory.id).Nodup) :
    (treeData apiCategories apis).map (fun g => (g.key, g.title)) =
      apiCategories.map (fun cat => (.category cat.id, some (cat.name, cat.description))) ++
        [(.uncategorised, none)] := by
  rw [treeData_eq, categoryMap_of_nodup h, List.map_append, List.map_map, List.map_map]
  rfl

def knownCategory (apiCategories : List ApiCategory) (api : ApiRow) : Option ℕ :=
  api.fields.categoryId.filter (fun k => k ∈ apiCategories.map ApiCategory.id)

theorem knownCategory_eq_some {api : ApiRow} {k : ℕ} : knownCategory apiCategories api = some k ↔
    api.fields.categoryId = some k ∧ ∃ cat ∈ apiCategories, cat.id = k := by
  unfold knownCategory
  rw [Option.filter_eq_some_iff, decide_eq_true_eq, List.mem_map]

def settled (apiCategories : List ApiCategory) (api : ApiRow) : ApiRow :=
  { api with fields := { api.fields with categoryId := knownCategory apiCategories api } }

theorem groupKey_settled (api : ApiRow) :
    groupKey (apiCategories.map ApiCategory.id) (settled apiCategories api) =
      groupKey (apiCategories.map ApiCategory.id) api := by
  unfold groupKey settled knownCategory
  cases hc : api.fields.categoryId with
  | none => rfl
  | some k =>
    dsimp only
    by_cases hk : k ∈ apiCategories.map ApiCategory.id
    · rw [Option.filter_some, if_pos (decide_eq_true hk)]
    · rw [Option.filter_some, if_neg (by simpa using hk), if_neg hk]

theorem inGroup_settled (key : NodeKey) (apis : List ApiRow) :
    (inGroup apiCategories key (apis.map (settled apiCategories))).map nodeOf =
      (inGroup apiCategories key apis).map nodeOf := by
  unfold inGroup
  rw [List.filter_map, List.map_map]
  refine congrArg (List.map nodeOf) (List.filter_congr ?_)
  intro a _
  rw [Function.comp_apply, groupKey_settled]

theorem sameTree_of_perm {rows : List ApiCategory} {apiRows : List ApiRow}
    (hids : (rows.map ApiCategory.id).Nodup) (hcats : apiCategories.Perm rows)
    (hapis : (apis.map (settled apiCategories)).Perm apiRows) :
    SameTree (treeData apiCategories apis) (treeData rows apiRows) := by
  have hids' : (apiCategories.map ApiCategory.id).Nodup := (hcats.map _).nodup_iff.mpr hids
  refine ⟨?_, ?_⟩
  · rw [titles_treeData hids, titles_treeData hids']
    exact (hcats.map _).append_right _
  · intro g hg g' hg' hkey
    have hmem : inGroup rows g.key apiRows = inGroup apiCategories g.key apiRows :=
      List.filter_congr (fun a _ => by
        rw [groupKey_congr (fun k => ((hcats.map ApiCategory.id).mem_iff (a := k)).symm) a])
    have hown := (tree_lists_apis apiCategories apis).own g hg
    have hown' := (tree_lists_apis rows apiRows).own g' hg'
    rw [← hkey, hmem] at hown'
    rw [← inGroup_settled] at hown
    exact (hown.trans ((hapis.filter _).map nodeOf)).trans hown'.symm

end Trees

end CategoryTrees
