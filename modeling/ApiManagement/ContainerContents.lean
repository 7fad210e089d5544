import ApiManagement.KeptContent

/-! # Contents of containers

What a container holds, apart from ids and categories: two containers have the same content
when each is a snapshot of the other. In a well-formed store one direction is enough. -/
namespace ContainerContents

open TransactionRuns KeyedTables ParentLinkedRows PythonRuntime ServiceSchema ApiStores
  StoreCopies KeptContent

section Backwards

variable {F : Type} {source dest : List (LinkedRow F)} {μ : ℕ → ℕ} {h a : ℕ}

/-- A renaming of rows is undone by an inverse on their ids. -/
theorem graft_inverse {μ' : ℕ → ℕ} (hinv : ∀ r ∈ source, μ' (μ r.id) = r.id)
    (hparent : ∀ r ∈ source, ∀ p, r.parent = some p → ∃ q ∈ source, q.id = p)
    (hholder : ∀ r ∈ source, r.holder = a) (hp : dest.Perm (source.map (graft μ h))) :
    source.Perm (dest.map (graft μ' a)) := by
  have back : (source.map (graft μ h)).map (graft μ' a) = source := by
    rw [List.map_map]
    refine (List.map_congr_left ?_).trans (List.map_id' source)
    intro r hr
    rw [Function.comp, graft_graft]
    have hrp : r.parent.map (μ' ∘ μ) = r.parent := by
      cases hq : r.parent with
      | none => rfl
      | some p =>
        obtain ⟨q, hqm, rfl⟩ := hparent r hr p hq
        rw [Option.map_some, Function.comp, hinv q hqm]
    rw [graft, hrp, Function.comp, hinv r hr, ← hholder r hr]
  exact (List.Perm.of_eq back).symm.trans (hp.symm.map _)

theorem inverse_injOn {μ' : ℕ → ℕ} (hinv : ∀ r ∈ source, μ' (μ r.id) = r.id)
    (hp : dest.Perm (source.map (graft μ h))) :
    Set.InjOn μ' { i | i ∈ dest.map LinkedRow.id } := by
  have origin : ∀ i ∈ dest.map LinkedRow.id, ∃ r ∈ source, i = μ r.id := by
    intro i hi
    obtain ⟨q, hq, rfl⟩ := List.mem_map.mp hi
    obtain ⟨r, hr, rfl⟩ := List.mem_map.mp (hp.mem_iff.mp hq)
    exact ⟨r, hr, rfl⟩
  intro i hi j hj hij
  obtain ⟨r, hr, rfl⟩ := origin i hi
  obtain ⟨q, hq, rfl⟩ := origin j hj
  rw [hinv r hr, hinv q hq] at hij
  rw [hij]

/-- The renamings below the apis have inverses on the ids in use. -/
theorem inverse_below {apis : List ApiRow} {rows : ℕ → List (LinkedRow F)} {ν ν' : ℕ → ℕ}
    {σ : ℕ → ℕ → ℕ} (hid : ∀ a ∈ apis, ν' (ν a.id) = a.id)
    (hinj : ∀ a ∈ apis, Set.InjOn (σ a.id) { i | i ∈ (rows a.id).map LinkedRow.id }) :
    ∃ σ' : ℕ → ℕ → ℕ, ∀ a ∈ apis, ∀ r ∈ rows a.id, σ' (ν a.id) (σ a.id r.id) = r.id := by
  refine ⟨fun j => Function.invFunOn (σ (ν' j)) { i | i ∈ (rows (ν' j)).map LinkedRow.id }, ?_⟩
  intro a ha r hr
  change Function.invFunOn (σ (ν' (ν a.id))) { i | i ∈ (rows (ν' (ν a.id))).map LinkedRow.id }
    (σ a.id r.id) = r.id
  rw [hid a ha]
  exact (hinj a ha).leftInvOn_invFunOn (List.mem_map_of_mem hr)

end Backwards

theorem snapshot_symm {link : RequestFields → RequestFields → Prop}
    {view : ApiFields → ApiFields} {s t : ApiStore} {c d : ℕ} (hs : WellFormed link s)
    (h : Snapshot view s c t d) : Snapshot view t d s c := by
  obtain ⟨ν, μ, ρ, h⟩ := h
  have hinv := h.api_inj.leftInvOn_invFunOn
  generalize Function.invFunOn ν { i | i ∈ (s.apisOf c).map ApiRow.id } = ν' at hinv
  have hid : ∀ a ∈ s.apisOf c, ν' (ν a.id) = a.id := fun a ha => hinv (List.mem_map_of_mem ha)
  obtain ⟨μ', hμ⟩ := inverse_below hid h.request_inj
  obtain ⟨ρ', hρ⟩ := inverse_below hid h.response_inj
  refine ⟨ν', μ', ρ', ?_, ?_, ?_, ?_, ?_, ?_⟩
  · have hmap := h.apis.symm.map (fun b : ApiRow => (⟨ν' b.id, c, b.fields⟩ : ApiRow))
    rw [List.map_map, List.map_map] at hmap
    refine (List.Perm.of_eq (List.map_congr_left ?_)).trans hmap
    intro a ha
    rw [Function.comp, hid a ha, ← (ApiStore.mem_apisOf.mp ha).2]
    rfl
  · intro b hb
    obtain ⟨a, ha, hba, _⟩ := h.preimage hb
    rw [hba, hid a ha]
    exact graft_inverse (hμ a ha)
      (hs.request_linked.parents_within (fun r => ApiStore.mem_requestParamsOf))
      (fun r hr => (ApiStore.mem_requestParamsOf.mp hr).2) (h.requests a ha)
  · intro b hb
    obtain ⟨a, ha, hba, _⟩ := h.preimage hb
    rw [hba, hid a ha]
    exact graft_inverse (hρ a ha)
      (hs.response_linked.parents_within (fun r => ApiStore.mem_responseParamsOf))
      (fun r hr => (ApiStore.mem_responseParamsOf.mp hr).2) (h.responses a ha)
  · intro i hi j hj hij
    obtain ⟨b, hb, rfl⟩ := List.mem_map.mp hi
    obtain ⟨b', hb', rfl⟩ := List.mem_map.mp hj
    obtain ⟨a, ha, hba, _⟩ := h.preimage hb
    obtain ⟨a', ha', hba', _⟩ := h.preimage hb'
    rw [hba, hba', hid a ha, hid a' ha'] at hij
    rw [hba, hba', hij]
  · intro b hb
    obtain ⟨a, ha, hba, _⟩ := h.preimage hb
    rw [hba]
    exact inverse_injOn (hμ a ha) (h.requests a ha)
  · intro b hb
    obtain ⟨a, ha, hba, _⟩ := h.preimage hb
    rw [hba]
    exact inverse_injOn (hρ a ha) (h.responses a ha)

abbrev Container := ApiStore × ℕ

instance contentSetoid : Setoid Container where
  r x y := Snapshot uncategorised x.1 x.2 y.1 y.2 ∧ Snapshot uncategorised y.1 y.2 x.1 x.2
  iseqv :=
    ⟨fun x => ⟨(Snapshot.refl x.1 x.2).coarsen _, (Snapshot.refl x.1 x.2).coarsen _⟩,
      fun h => ⟨h.2, h.1⟩, fun h k => ⟨h.1.trans k.1, k.2.trans h.2⟩⟩

/-- What a container holds, but for ids and categories. -/
def Content : Type := Quotient contentSetoid

def content (st : ApiStore) (c : ℕ) : Content := Quotient.mk _ (st, c)

section Contents

variable {link : RequestFields → RequestFields → Prop} {s t : ApiStore} {c d : ℕ}

theorem content_eq_iff (hs : WellFormed link s) :
    content s c = content t d ↔ Snapshot uncategorised s c t d := by
  constructor
  · intro h
    exact (Quotient.exact h).1
  · intro h
    exact Quotient.sound ⟨h, snapshot_symm hs h⟩

theorem content_kept (h : Kept c s t) : content t c = content s c := by
  have hsame := h.snapshot ((Snapshot.refl s c).coarsen uncategorised)
  have hback := ((Snapshot.refl s c).coarsen uncategorised).of_same_source h.apis h.requests
    h.responses
  exact Quotient.sound ⟨hback, hsame⟩

def nothing : Content := content ApiStore.empty 0

theorem snapshot_of_no_apis {view : ApiFields → ApiFields} (hs : s.apisOf c = [])
    (ht : t.apisOf d = []) : Snapshot view s c t d := by
  have none : ∀ a, a ∉ s.apisOf c := by
    intro a
    rw [hs]
    exact List.not_mem_nil
  refine ⟨id, fun _ => id, fun _ => id, ?_, fun a ha => absurd ha (none a),
    fun a ha => absurd ha (none a), Function.injective_id.injOn,
    fun _ _ => Function.injective_id.injOn, fun _ _ => Function.injective_id.injOn⟩
  rw [hs, ht]
  rfl

theorem content_eq_nothing : content s c = nothing ↔ s.apisOf c = [] := by
  constructor
  · intro h
    obtain ⟨ν, μ, ρ, h⟩ := (Quotient.exact h).2
    have hp := h.apis
    rw [show ApiStore.empty.apisOf 0 = [] from rfl, List.map_nil] at hp
    exact List.map_eq_nil_iff.mp hp.eq_nil
  · intro h
    exact Quotient.sound ⟨snapshot_of_no_apis h rfl, snapshot_of_no_apis rfl h⟩

end Contents

end ContainerContents
