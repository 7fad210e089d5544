import ApiManagement.RowForests

/-! # Trees of shared mutable nodes

Nodes are cells at fixed addresses; a cell has a value and a list of references to its children.
References to a cell stay valid while the cell is written, so a tree may be linked before its
lower parts are complete: what it represents is read off the final heap. -/
namespace SharedNodes

open RowForests

variable {α : Type}

/-- A dictionary, with the list under its key for children once that has been set. -/
structure Node (α : Type) where
  value : α
  children : Option (List ℕ)

abbrev Heap (α : Type) := List (Node α)

def allocate (values : List α) : Heap α := values.map (fun v => ⟨v, none⟩)

/-- `h[p].setdefault(children, []).append(c)`. -/
def adopt (h : Heap α) (p c : ℕ) : Heap α :=
  h.modify p (fun n => { n with children := some (n.children.getD [] ++ [c]) })

mutual

inductive Represents (h : Heap α) : ℕ → RoseTree α → Prop where
  | node {a n ts} : h[a]? = some n → RepresentsAll h (n.children.getD []) ts →
      Represents h a (.node n.value ts)

inductive RepresentsAll (h : Heap α) : List ℕ → List (RoseTree α) → Prop where
  | nil : RepresentsAll h [] []
  | cons {a as t ts} : Represents h a t → RepresentsAll h as ts →
      RepresentsAll h (a :: as) (t :: ts)

end

variable {h : Heap α}

mutual

/-- An address represents at most one tree. -/
theorem Represents.unique : ∀ {t u : RoseTree α} {a : ℕ}, Represents h a t → Represents h a u →
    t = u
  | _, _, _, .node hn hts, .node hm hus => by
    obtain rfl := Option.some.inj (hn.symm.trans hm)
    rw [RepresentsAll.unique hts hus]

theorem RepresentsAll.unique : ∀ {ts us : List (RoseTree α)} {as : List ℕ},
    RepresentsAll h as ts → RepresentsAll h as us → ts = us
  | _, _, _, .nil, .nil => rfl
  | _, _, _, .cons ht hts, .cons hu hus => by rw [ht.unique hu, hts.unique hus]

end

def childrenAt (h : Heap α) (a : ℕ) : List ℕ := (h[a]?.bind Node.children).getD []

def valueAt (h : Heap α) (a : ℕ) : Option α := h[a]?.map Node.value

theorem adopt_getElem? (h : Heap α) (p c a : ℕ) : (adopt h p c)[a]? =
    if p = a then h[a]?.map (fun n => { n with children := some (n.children.getD [] ++ [c]) })
    else h[a]? := by
  rw [adopt, List.getElem?_modify]
  split
  · rfl
  · simp

@[simp] theorem valueAt_adopt (p c a : ℕ) : valueAt (adopt h p c) a = valueAt h a := by
  rw [valueAt, adopt_getElem?]
  split
  · rw [Option.map_map]
    rfl
  · rfl

theorem childrenAt_adopt {p : ℕ} (hp : p < h.length) (c a : ℕ) :
    childrenAt (adopt h p c) a = childrenAt h a ++ if p = a then [c] else [] := by
  rw [childrenAt, adopt_getElem?]
  by_cases ha : p = a
  · subst ha
    rw [if_pos rfl, if_pos rfl, childrenAt, List.getElem?_eq_getElem hp]
    rfl
  · rw [if_neg ha, if_neg ha, List.append_nil]
    rfl

theorem represents_of_children {a : ℕ} {v : α} {ts : List (RoseTree α)}
    (hv : valueAt h a = some v) (hts : RepresentsAll h (childrenAt h a) ts) :
    Represents h a (.node v ts) := by
  obtain ⟨n, hn, rfl⟩ := Option.map_eq_some_iff.mp hv
  rw [childrenAt, hn] at hts
  exact .node hn hts

end SharedNodes
