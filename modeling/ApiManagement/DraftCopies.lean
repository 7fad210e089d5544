import ApiManagement.CompleteForests
import ApiManagement.ParamEncoding

/-! # Copies of one draft

The recursive copy reads from the table it inserts into. New rows stand below new rows only, so
every old row keeps its children, and the rows of the copied draft are laid out once each below
the new one. -/
namespace DraftCopies

open TransactionRuns KeyedTables ParentLinkedRows RowForests CompleteForests PythonRuntime
  ServiceSchema ApiStores StoreCopies ServiceOperations ApiOperations DraftWrites OperationRuns
  StateInvariant ParamEncoding

section Rows

variable {F : Type} {t₀ : Table (LinkedRow F)} {holder : ℕ} {parent : Option ℕ}

structure Beside (t₀ : Table (LinkedRow F)) (parent : Option ℕ) (t : Table (LinkedRow F)) :
    Prop where
  next : t₀.next ≤ t.next
  children : ∀ r ∈ t₀.rows, childrenOf t.rows r.id = childrenOf t₀.rows r.id
  anchored : ∀ p, parent = some p → t₀.next ≤ p ∧ ∃ q ∈ t.rows, q.id = p

theorem Beside.start : Beside t₀ none t₀ := by
  refine ⟨le_rfl, fun _ _ => rfl, ?_⟩
  intro p hp
  cases hp

theorem Beside.laid {t t' : Table (LinkedRow F)} {ts : List (RoseTree F)}
    (h : Beside t₀ parent t) (hl : Laid holder parent t ts t') : Beside t₀ parent t' := by
  refine ⟨?_, ?_, ?_⟩
  · rw [hl.next]
    exact h.next.trans (Nat.le_add_right _ _)
  · intro r hr
    have hid : r.id < t₀.next := (t₀.bounds r hr).2
    have hne : parent ≠ some r.id := by
      intro hp
      have := (h.anchored r.id hp).1
      omega
    have hnil : childrenOf (layForest holder parent t.next ts) r.id = [] :=
      childrenOf_eq_nil (layForest_laid ts) hne (Or.inl (hid.trans_le h.next))
    rw [hl.rows, childrenOf, List.filter_append, ← childrenOf, ← childrenOf, hnil, List.append_nil,
      h.children r hr]
  · intro p hp
    obtain ⟨hle, q, hq, hid⟩ := h.anchored p hp
    exact ⟨hle, q, by rw [hl.rows]; exact List.mem_append_left _ hq, hid⟩

/-- The row just inserted takes further rows below it. -/
theorem Beside.deeper {t : Table (LinkedRow F)} {f : F} (h : Beside t₀ parent t) :
    Laid holder parent t [.node f []] (t.insert ⟨0, holder, parent, f⟩) ∧
      Beside t₀ (some t.next) (t.insert ⟨0, holder, parent, f⟩) := by
  have hl : Laid holder parent t [.node f []] (t.insert ⟨0, holder, parent, f⟩) := by
    constructor
    · simp [layForest, layTree]
    · simp [forestSize, RoseTree.size]
  refine ⟨hl, (h.laid hl).next, (h.laid hl).children, ?_⟩
  intro p hp
  obtain rfl := Option.some.inj hp
  exact ⟨h.next, ⟨t.next, holder, parent, f⟩, by simp, rfl⟩

def Copies {ε : Type} (t₀ : Table (LinkedRow F)) (holder : ℕ) (parent : Option ℕ)
    (copy : Table (LinkedRow F) → LinkedRow F → Except ε (Table (LinkedRow F)))
    (r : LinkedRow F) : Prop :=
  ∀ t, Beside t₀ parent t → ∃ (t' : Table (LinkedRow F)) (tree : RoseTree (LinkedRow F)),
    copy t r = .ok t' ∧ Complete t₀.rows tree ∧
    tree.value = r ∧ Laid holder parent t [shape tree] t'

theorem copyEach_lays {ε : Type}
    {copy : Table (LinkedRow F) → LinkedRow F → Except ε (Table (LinkedRow F))}
    {cs : List (LinkedRow F)} (step : ∀ c ∈ cs, Copies t₀ holder parent copy c) :
    ∀ t, Beside t₀ parent t → ∃ (t' : Table (LinkedRow F)) (trees : List (RoseTree (LinkedRow F))),
      cs.foldlM copy t = .ok t' ∧
      (∀ tree ∈ trees, Complete t₀.rows tree) ∧ trees.map RoseTree.value = cs ∧
      Laid holder parent t (trees.map shape) t' := by
  induction cs with
  | nil =>
    intro t _
    exact ⟨t, [], rfl, by simp, rfl, by simp [layForest], rfl⟩
  | cons c cs ih =>
    intro t ht
    obtain ⟨u, tree, hu, hcomplete, hvalue, hlaid⟩ := step c List.mem_cons_self t ht
    obtain ⟨t', trees, ht', hall, hvalues, hrest⟩ :=
      ih (fun d hd => step d (List.mem_cons_of_mem _ hd)) u (ht.laid hlaid)
    refine ⟨t', tree :: trees, ?_, ?_, ?_, ?_⟩
    · rw [List.foldlM_cons, hu]
      exact ht'
    · exact List.forall_mem_cons.mpr ⟨hcomplete, hall⟩
    · rw [List.map_cons, hvalue, hvalues]
    · exact hlaid.cons hrest

variable {held : ℕ → Bool} {fetch : List (LinkedRow F) → List (LinkedRow F)}

/-- The depth bound is not what ends the recursion: the rows `above` the one copied are
different rows of `t₀`, so there are fewer of them than `t₀` has. -/
theorem copyTree_lays (hf : ∀ l, (fetch l).Perm l) (hh : held holder = true)
    (hacyclic : ∀ i, ¬ Relation.TransGen (ParentOf t₀.rows) i i) :
    ∀ (n : ℕ) (above : List ℕ) (r : LinkedRow F) (parent : Option ℕ), r ∈ t₀.rows →
      above.Nodup →
      (∀ i ∈ above, i ∈ t₀.rows.map LinkedRow.id ∧ Relation.TransGen (ParentOf t₀.rows) i r.id) →
      t₀.rows.length < n + above.length →
      Copies t₀ holder parent (fun t r => copyTree held fetch holder n r parent t) r := by
  intro n
  induction n with
  | zero =>
    intro above r _ _ hn ha hlen
    have hle := (hn.subperm (fun i hi => (ha i hi).1)).length_le
    rw [List.length_map] at hle
    omega
  | succ n ih =>
    intro above r parent hr hn ha hlen t ht
    have hnew : r.id ∉ above := fun hm => hacyclic _ (ha _ hm).2
    have hinsert := insertRow_succeeds (f := r.fields) hh (fun p hp => (ht.anchored p hp).2)
    have hdeeper : Beside t₀ (some t.next) (t.insert ⟨0, holder, parent, r.fields⟩) := ht.deeper.2
    have step : ∀ c ∈ fetch (childrenOf t₀.rows r.id), Copies t₀ holder (some t.next)
        (fun u c => copyTree held fetch holder n c (some t.next) u) c := by
      intro c hc
      obtain ⟨hc, hp⟩ := mem_childrenOf.mp ((hf _).mem_iff.mp hc)
      have hlink : ParentOf t₀.rows r.id c.id := ⟨c, hc, rfl, hp⟩
      refine ih (r.id :: above) c _ hc (List.nodup_cons.mpr ⟨hnew, hn⟩) ?_ ?_
      · intro i hi
        rcases List.mem_cons.mp hi with rfl | hi
        · exact ⟨List.mem_map_of_mem hr, .single hlink⟩
        · exact ⟨(ha i hi).1, (ha i hi).2.tail hlink⟩
      · rw [List.length_cons]
        omega
    obtain ⟨t', trees, ht', hall, hvalues, hlaid⟩ := copyEach_lays step _ hdeeper
    refine ⟨t', .node r trees, ?_, .node ?_ hall, rfl, ?_, ?_⟩
    · simp only [copyTree, hinsert, ok_bind, hdeeper.children r hr]
      exact ht'
    · rw [hvalues]
      exact hf _
    · rw [hlaid.rows, shape_node]
      simp [layForest, layTree]
    · rw [hlaid.next, shape_node, Table.insert_next, forestSize, forestSize, RoseTree.size]
      omega

/-- The children of a row have its holder. -/
theorem childrenOf_held {bond : F → F → Prop} (hl : WellLinked bond t₀.rows) {a : ℕ}
    {r : LinkedRow F} (hr : r ∈ t₀.rows.filter (fun r => r.holder == a)) :
    childrenOf t₀.rows r.id = childrenOf (t₀.rows.filter (fun r => r.holder == a)) r.id := by
  obtain ⟨hr, ha⟩ := List.mem_filter.mp hr
  rw [childrenOf, childrenOf, filter_filter_of_imp]
  intro c hc hp
  obtain ⟨q, hq, hid, hh, _⟩ := hl.parent hc (beq_iff_eq.mp hp)
  rw [t₀.eq_of_key_eq hq hr hid] at hh
  rw [← hh]
  exact ha

theorem copyParamsRecursively_copies {bond : F → F → Prop} (hl : WellLinked bond t₀.rows)
    (env : Environment) (a : ℕ) (hh : held holder = true) :
    ∃ t' μ, copyParamsRecursively env held holder
        (env.fetch (t₀.rows.filter (fun r => r.holder == a))) t₀ = .ok t' ∧
      CopiedRows (t₀.rows.filter (fun r => r.holder == a)) holder t₀ t' μ := by
  let source := t₀.rows.filter (fun r => r.holder == a)
  let roots := (env.fetch source).filter (fun p => p.parent.isNone)
  have hmem : ∀ r ∈ roots, r ∈ source :=
    fun r hr => env.mem_fetch.mp (List.mem_of_mem_filter hr)
  have step : ∀ r ∈ roots, Copies t₀ holder none
      (fun u p => liftRows (copyTree held env.fetch holder (t₀.rows.length + 1) p none u)) r := by
    intro r hr t ht
    obtain ⟨t', tree, ht', rest⟩ := copyTree_lays env.fetch_perm hh (hl.acyclic t₀.nodup)
      (t₀.rows.length + 1) [] r none (List.mem_of_mem_filter (hmem r hr)) List.nodup_nil (by simp)
      (by simp) t ht
    exact ⟨t', tree, liftRows_eq_ok.mpr ht', rest⟩
  obtain ⟨t', trees, ht', hall, hvalues, hlaid⟩ := copyEach_lays step t₀ Beside.start
  have hcomplete : ∀ tree ∈ trees, Complete source tree := by
    intro tree htree
    refine (hall tree htree).restrict (fun r hr => childrenOf_held hl hr) (hmem _ ?_)
    rw [← hvalues]
    exact List.mem_map_of_mem htree
  have hroots : (trees.map RoseTree.value).Perm (source.filter (fun r => r.parent.isNone)) := by
    rw [hvalues]
    exact (env.fetch_perm source).filter _
  obtain ⟨copied, μ, hperm, hinj, hcopied⟩ := layForest_copies
    (t₀.nodup.sublist (List.filter_sublist.map LinkedRow.id)) (hl.filter (fun i => i == a))
    hcomplete hroots holder t₀.next
  refine ⟨t', μ, ht', ⟨copied, hperm, ?_⟩, copyParamsRecursively_extends ht', hinj⟩
  rw [hlaid.rows, hcopied]

end Rows

/-- The new draft has, under injective renamings that carry parents to parents, the params of
`d`, each once; every other draft has its own params as before. -/
structure Duplicated (d : ApiDraft) (st st' : ApiStore) : Prop where
  drafts : ∃ c f, st'.apis.rows = st.apis.rows ++ [⟨st.apis.next, c, f⟩]
  requests : ∃ μ, Set.InjOn μ { i | i ∈ (st.requestParamsOf d.id).map LinkedRow.id } ∧
    (st'.requestParamsOf st.apis.next).Perm
      ((st.requestParamsOf d.id).map (graft μ st.apis.next))
  responses : ∃ ρ, Set.InjOn ρ { i | i ∈ (st.responseParamsOf d.id).map LinkedRow.id } ∧
    (st'.responseParamsOf st.apis.next).Perm
      ((st.responseParamsOf d.id).map (graft ρ st.apis.next))
  others : ∀ x, x ≠ st.apis.next → st'.requestParamsOf x = st.requestParamsOf x ∧
    st'.responseParamsOf x = st.responseParamsOf x

section OneDraft

variable {link : RequestFields → RequestFields → Prop} {st st' u : ApiStore} {d : ApiDraft}
  {env : Environment} {refs : References} {c : ℕ} {f : ApiFields}

/-- Once the new draft is inserted, its params are copied without fail. -/
theorem copyDraft_duplicates (hw : WellFormed link st) (hu : insertApi refs c f st = .ok u) :
    ∃ st', copyDraft env refs c d f st = .ok st' ∧ Duplicated d st st' := by
  obtain ⟨_, _, rfl⟩ := insertApi_eq_ok.mp hu
  have hheld : (st.apis.insert ⟨0, c, f⟩).contains st.apis.next = true :=
    Table.contains_iff.mpr ⟨⟨st.apis.next, c, f⟩, by simp, rfl⟩
  obtain ⟨t, μ, ht, hct⟩ := copyParamsRecursively_copies hw.request_linked env d.id hheld
  obtain ⟨v, ρ, hv, hcv⟩ := copyParamsRecursively_copies hw.response_linked env d.id hheld
  have hcopy : copyDraft env refs c d f st = .ok
      { apis := st.apis.insert ⟨0, c, f⟩, requestParams := t, responseParams := v } := by
    simp only [copyDraft, hu, ok_bind, bind_eq_ok, pure_eq_ok]
    exact ⟨t, ht, v, hv, rfl⟩
  refine ⟨_, hcopy, ⟨c, f, rfl⟩, ⟨μ, hct.inj, ?_⟩, ⟨ρ, hcv.inj, ?_⟩,
    fun x hx => copyDraft_other hcopy hx⟩
  · exact hct.below (not_held_next hw.request_held)
  · exact hcv.below (not_held_next hw.response_held)

theorem copyDraft_duplicated (hw : WellFormed link st)
    (h : copyDraft env refs c d f st = .ok st') : Duplicated d st st' := by
  obtain ⟨u, hu, _⟩ := bind_eq_ok.mp h
  obtain ⟨st'', h', hdup⟩ := copyDraft_duplicates hw hu
  exact Except.ok.inj (h'.symm.trans h) ▸ hdup

end OneDraft

/-- The copy of a draft's params terminates whenever the new draft could be inserted, and a
successful request leaves an exact copy of both forests and all else as it was. -/
theorem copy_duplicates_params {db : Database} (h : Reachable db) {d : ApiDraft}
    (hd : d ∈ db.drafts.apis.rows) (env : Environment) :
    (∀ c f u, insertApi (draftReferences db) c f db.drafts = .ok u →
      ∃ drafts, copyDraft env (draftReferences db) c d f db.drafts = .ok drafts ∧
        Duplicated d db.drafts drafts) ∧
    ∀ iterationId userId db' r,
      apiCopyApiByApiDraftId env iterationId d.id userId db = .ok (db', r) →
        db' = { db with drafts := db'.drafts } ∧ Duplicated d db.drafts db'.drafts := by
  have hi := reachable_invariant h
  constructor
  · intro c f u hu
    exact copyDraft_duplicates hi.drafts hu
  · intro iterationId userId db' r hr
    simp only [apiCopyApiByApiDraftId, bind_eq_ok, draftOfIteration_eq_ok, pure_eq_ok,
      Prod.mk.injEq] at hr
    obtain ⟨e, ⟨_, he, hid, _⟩, n, _, p, _, drafts, hcopy, rfl, _⟩ := hr
    obtain rfl := db.drafts.apis.eq_of_key_eq he hd hid
    exact ⟨rfl, copyDraft_duplicated hi.drafts hcopy⟩

/-- The draft of the published api, with its object param and the child of that. -/
theorem opened_draft_duplicated :
    ∃ d ∈ opened.drafts.apis.rows, (opened.drafts.requestParamsOf d.id).length = 2 ∧
      (∀ c f u, insertApi (draftReferences opened) c f opened.drafts = .ok u →
        ∃ drafts, copyDraft plainEnvironment (draftReferences opened) c d f opened.drafts =
          .ok drafts ∧ Duplicated d opened.drafts drafts) ∧
      ∀ iterationId userId db' r,
        apiCopyApiByApiDraftId plainEnvironment iterationId d.id userId opened = .ok (db', r) →
          db' = { opened with drafts := db'.drafts } ∧ Duplicated d opened.drafts db'.drafts := by
  obtain ⟨d, hd, hlen⟩ : ∃ d ∈ opened.drafts.apis.rows,
      d.id = 2 ∧ (opened.drafts.requestParamsOf d.id).length = 2 := by decide +kernel
  exact ⟨d, hd, hlen.2, copy_duplicates_params opened_reachable hd plainEnvironment⟩

end DraftCopies
