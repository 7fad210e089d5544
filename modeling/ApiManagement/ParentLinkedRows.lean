import ApiManagement.KeyedTables
import ApiManagement.TransactionRuns
import Mathlib.Data.Set.Function
import Mathlib.Logic.Relation

/-! # Rows with a parent of the same table

Forests stored as rows: a row belongs to a holder (a foreign key to another table) and
may name a parent row. Covered here are insertion with the foreign keys checked, bulk
deletion with cascades, the two-pass copy that remaps ids through a dictionary, and the
recursive copy that follows children. Well-linkedness is one inductive predicate: every
chain of parents stays with one holder, respects a relation between the fields of a
parent and a child, and ends in a root. -/
namespace ParentLinkedRows

open KeyedTables TransactionRuns

structure LinkedRow (F : Type) where
  id : ℕ
  holder : ℕ
  parent : Option ℕ
  fields : F
  deriving DecidableEq

instance {F : Type} : Keyed (LinkedRow F) where
  key := LinkedRow.id
  setKey k r := { r with id := k }
  key_setKey _ _ := rfl

variable {F : Type}

@[simp] theorem key_eq_id (r : LinkedRow F) : key r = r.id := rfl

@[simp] theorem setKey_row (k : ℕ) (r : LinkedRow F) : setKey k r = { r with id := k } := rfl

inductive RowError where
  | foreignKey
  | missingKey
  | recursionDepth
  deriving DecidableEq, Repr

section Links

variable (link : F → F → Prop)

inductive Rooted (rows : List (LinkedRow F)) : LinkedRow F → Prop where
  | root {r} : r ∈ rows → r.parent = none → Rooted rows r
  | child {r q} : r ∈ rows → r.parent = some q.id → q.holder = r.holder →
      link q.fields r.fields → Rooted rows q → Rooted rows r

def WellLinked (rows : List (LinkedRow F)) : Prop := ∀ r ∈ rows, Rooted link rows r

/-- The parent named for a new row exists, has the same holder and admits the child. -/
def ParentFits (rows : List (LinkedRow F)) (holder : ℕ) (parent : Option ℕ) (f : F) : Prop :=
  ∀ p, parent = some p → ∃ q ∈ rows, q.id = p ∧ q.holder = holder ∧ link q.fields f

def ParentOf (rows : List (LinkedRow F)) (p c : ℕ) : Prop :=
  ∃ r ∈ rows, r.id = c ∧ r.parent = some p

variable {link} {rows more : List (LinkedRow F)}

theorem Rooted.mem {r : LinkedRow F} (h : Rooted link rows r) : r ∈ rows := by
  cases h with
  | root h _ => exact h
  | child h _ _ _ _ => exact h

theorem Rooted.mono {r : LinkedRow F} (h : Rooted link rows r) (hs : rows ⊆ more) :
    Rooted link more r := by
  induction h with
  | root hr hp => exact .root (hs hr) hp
  | child hr hp hh hl _ ih => exact .child (hs hr) hp hh hl ih

theorem Rooted.weaken {other : F → F → Prop} (hl : ∀ f g, link f g → other f g)
    {r : LinkedRow F} (h : Rooted link rows r) : Rooted other rows r := by
  induction h with
  | root hr hp => exact .root hr hp
  | child hr hp hh hf _ ih => exact .child hr hp hh (hl _ _ hf) ih

theorem Rooted.filter {r : LinkedRow F} (h : Rooted link rows r) (p : ℕ → Bool)
    (hr : p r.holder = true) : Rooted link (rows.filter (fun r => p r.holder)) r := by
  induction h with
  | root hm hp => exact .root (List.mem_filter.mpr ⟨hm, hr⟩) hp
  | child hm hp hh hl _ ih =>
    exact .child (List.mem_filter.mpr ⟨hm, hr⟩) hp hh hl (ih (by rw [hh]; exact hr))

theorem wellLinked_nil : WellLinked link ([] : List (LinkedRow F)) := by
  intro r hr
  cases hr

theorem WellLinked.weaken {other : F → F → Prop} (hl : ∀ f g, link f g → other f g)
    (h : WellLinked link rows) : WellLinked other rows :=
  fun r hr => (h r hr).weaken hl

theorem WellLinked.filter (h : WellLinked link rows) (p : ℕ → Bool) :
    WellLinked link (rows.filter (fun r => p r.holder)) := by
  intro r hr
  obtain ⟨hm, hp⟩ := List.mem_filter.mp hr
  exact (h r hm).filter p hp

theorem WellLinked.append (h : WellLinked link rows)
    (hn : ∀ r ∈ more, Rooted link (rows ++ more) r) : WellLinked link (rows ++ more) := by
  intro r hr
  rcases List.mem_append.mp hr with hr | hr
  · exact (h r hr).mono (List.subset_append_left _ _)
  · exact hn r hr

theorem WellLinked.snoc (h : WellLinked link rows) {r : LinkedRow F}
    (hp : ParentFits link rows r.holder r.parent r.fields) : WellLinked link (rows ++ [r]) := by
  apply h.append
  intro x hx
  rw [List.mem_singleton] at hx
  subst x
  have hm : r ∈ rows ++ [r] := by simp
  cases hr : r.parent with
  | none => exact .root hm hr
  | some p =>
    obtain ⟨q, hq, hid, hh, hl⟩ := hp p hr
    exact .child hm (hr.trans (congrArg some hid.symm)) hh hl
      ((h q hq).mono (List.subset_append_left _ _))

theorem WellLinked.parent (h : WellLinked link rows) {r : LinkedRow F} (hr : r ∈ rows) {p : ℕ}
    (hp : r.parent = some p) :
    ∃ q ∈ rows, q.id = p ∧ q.holder = r.holder ∧ link q.fields r.fields := by
  cases h r hr with
  | root _ hn => rw [hn] at hp; cases hp
  | @child _ q _ hq hh hl hroot =>
    rw [hq] at hp
    exact ⟨q, hroot.mem, Option.some.inj hp, hh, hl⟩

theorem ParentFits.mono {holder : ℕ} {parent : Option ℕ} {f : F}
    (h : ParentFits link rows holder parent f) (hs : rows ⊆ more) :
    ParentFits link more holder parent f := by
  intro p hp
  obtain ⟨q, hq, rest⟩ := h p hp
  exact ⟨q, hs hq, rest⟩

theorem parentFits_none {holder : ℕ} {f : F} : ParentFits link rows holder none f := by
  intro p hp
  cases hp

/-- A chain of parents that ends in a root cannot return to where it started. -/
theorem Rooted.acc (hn : (rows.map LinkedRow.id).Nodup) {r : LinkedRow F}
    (h : Rooted link rows r) : Acc (ParentOf rows) r.id := by
  induction h with
  | @root r hr hp =>
    apply Acc.intro _
    rintro p ⟨x, hx, hid, hxp⟩
    rw [List.inj_on_of_nodup_map hn hx hr hid, hp] at hxp
    cases hxp
  | @child r q hr hp _ _ _ ih =>
    apply Acc.intro _
    rintro p ⟨x, hx, hid, hxp⟩
    rw [List.inj_on_of_nodup_map hn hx hr hid, hp] at hxp
    exact Option.some.inj hxp ▸ ih

theorem WellLinked.acyclic (hn : (rows.map LinkedRow.id).Nodup) (h : WellLinked link rows)
    (i : ℕ) : ¬ Relation.TransGen (ParentOf rows) i i := by
  intro hc
  obtain ⟨b, _, r, hr, hid, _⟩ := Relation.TransGen.tail'_iff.mp hc
  have hacc : Acc (ParentOf rows) i := hid ▸ (h r hr).acc hn
  have irreflexive : ∀ j, Acc (Relation.TransGen (ParentOf rows)) j →
      ¬ Relation.TransGen (ParentOf rows) j j := by
    intro j hj
    induction hj with
    | intro j _ ih => exact fun hjj => ih j hjj hjj
  exact irreflexive i hacc.transGen hc

end Links

def Extends (holder : ℕ) (t t' : Table (LinkedRow F)) : Prop :=
  ∃ new, t'.rows = t.rows ++ new ∧ (∀ r ∈ new, r.holder = holder ∧ t.next ≤ r.id) ∧
    t.next ≤ t'.next

theorem Extends.refl (holder : ℕ) (t : Table (LinkedRow F)) : Extends holder t t :=
  ⟨[], by simp, by simp, le_rfl⟩

theorem Extends.trans {holder : ℕ} {t u v : Table (LinkedRow F)} (h : Extends holder t u)
    (k : Extends holder u v) : Extends holder t v := by
  obtain ⟨a, ha, hha, hna⟩ := h
  obtain ⟨b, hb, hhb, hnb⟩ := k
  refine ⟨a ++ b, by rw [hb, ha, List.append_assoc], ?_, hna.trans hnb⟩
  intro r hr
  rcases List.mem_append.mp hr with hr | hr
  · exact hha r hr
  · exact ⟨(hhb r hr).1, hna.trans (hhb r hr).2⟩

theorem Extends.subset {holder : ℕ} {t u : Table (LinkedRow F)} (h : Extends holder t u) :
    t.rows ⊆ u.rows := by
  obtain ⟨a, ha, _⟩ := h
  rw [ha]
  exact List.subset_append_left _ _

theorem Extends.filter_eq {holder : ℕ} {t u : Table (LinkedRow F)} (h : Extends holder t u)
    (p : ℕ → Bool) (hp : p holder = false) :
    u.rows.filter (fun r => p r.holder) = t.rows.filter (fun r => p r.holder) := by
  obtain ⟨a, ha, hh, _⟩ := h
  have none_new : a.filter (fun r => p r.holder) = [] := by
    rw [List.filter_eq_nil_iff]
    intro r hr
    simp [(hh r hr).1, hp]
  rw [ha, List.filter_append, none_new, List.append_nil]

def parentExists (t : Table (LinkedRow F)) : Option ℕ → Bool
  | none => true
  | some p => t.contains p

def insertRow (held : ℕ → Bool) (t : Table (LinkedRow F)) (holder : ℕ) (parent : Option ℕ)
    (f : F) : Except RowError (Table (LinkedRow F)) := do
  require (held holder && parentExists t parent) .foreignKey
  pure (t.insert ⟨0, holder, parent, f⟩)

section Insert

variable {link : F → F → Prop} {held : ℕ → Bool} {t t' : Table (LinkedRow F)} {holder : ℕ}
  {parent : Option ℕ} {f : F}

theorem insertRow_rows (h : insertRow held t holder parent f = .ok t') :
    t'.rows = t.rows ++ [⟨t.next, holder, parent, f⟩] ∧ t'.next = t.next + 1 := by
  simp only [insertRow, bind_eq_ok, require_eq_ok, pure_eq_ok] at h
  obtain ⟨_, _, rfl⟩ := h
  exact ⟨rfl, rfl⟩

theorem insertRow_extends (h : insertRow held t holder parent f = .ok t') :
    Extends holder t t' := by
  obtain ⟨hr, hn⟩ := insertRow_rows h
  refine ⟨[⟨t.next, holder, parent, f⟩], hr, ?_, by omega⟩
  intro r hm
  rw [List.mem_singleton] at hm
  subst r
  exact ⟨rfl, le_rfl⟩

theorem insertRow_wellLinked (h : insertRow held t holder parent f = .ok t')
    (hl : WellLinked link t.rows) (hp : ParentFits link t.rows holder parent f) :
    WellLinked link t'.rows := by
  rw [(insertRow_rows h).1]
  exact hl.snoc hp

theorem insertRow_succeeds (hh : held holder = true)
    (hp : ∀ p, parent = some p → ∃ q ∈ t.rows, q.id = p) :
    insertRow held t holder parent f = .ok (t.insert ⟨0, holder, parent, f⟩) := by
  have hx : parentExists t parent = true := by
    cases parent with
    | none => rfl
    | some p => exact Table.contains_iff.mpr (hp p rfl)
  simp [insertRow, require, hh, hx, bind, Except.bind, pure, Except.pure]

end Insert

def orphans (rows : List (LinkedRow F)) (dead : List ℕ) : List ℕ :=
  (rows.filter (fun r => !dead.contains r.id && r.parent.any dead.contains)).map LinkedRow.id

/-- Each round deletes the rows whose parent was deleted in an earlier one. -/
def spreadDeletion (rows : List (LinkedRow F)) : ℕ → List ℕ → List ℕ
  | 0, dead => dead
  | n + 1, dead => spreadDeletion rows n (dead ++ orphans rows dead)

def deleteCascade (t : Table (LinkedRow F)) (p : LinkedRow F → Bool) : Table (LinkedRow F) :=
  t.restrict (fun r =>
    !(spreadDeletion t.rows t.rows.length ((t.rows.filter p).map LinkedRow.id)).contains r.id)

theorem spreadDeletion_of_no_orphans {rows : List (LinkedRow F)} {dead : List ℕ}
    (h : orphans rows dead = []) (n : ℕ) : spreadDeletion rows n dead = dead := by
  induction n with
  | zero => rfl
  | succ n ih => rw [spreadDeletion, h, List.append_nil, ih]

/-- Children have their parent's holder, so deleting by holder leaves no orphan. -/
theorem deleteCascade_by_holder {link : F → F → Prop} {t : Table (LinkedRow F)}
    (h : WellLinked link t.rows) (p : ℕ → Bool) :
    deleteCascade t (fun r => p r.holder) = t.restrict (fun r => !p r.holder) := by
  have dead : ∀ r ∈ t.rows, r.id ∈ (t.rows.filter (fun r => p r.holder)).map LinkedRow.id ↔
      p r.holder = true := by
    intro r hr
    constructor
    · intro hm
      obtain ⟨q, hq, he⟩ := List.mem_map.mp hm
      obtain ⟨hq, hp⟩ := List.mem_filter.mp hq
      rwa [← t.eq_of_key_eq hq hr he]
    · intro hp
      exact List.mem_map_of_mem (List.mem_filter.mpr ⟨hr, hp⟩)
  have none_left :
      orphans t.rows ((t.rows.filter (fun r => p r.holder)).map LinkedRow.id) = [] := by
    simp only [orphans, List.map_eq_nil_iff, List.filter_eq_nil_iff]
    intro r hr hc
    simp only [Bool.and_eq_true, Bool.not_eq_true', Option.any_eq_true_iff_get] at hc
    obtain ⟨alive, hs, hpd⟩ := hc
    obtain ⟨q, hq, hid, hh, _⟩ := h.parent hr (Option.some_get hs).symm
    rw [List.contains_iff_mem, ← hid, dead q hq, hh, ← dead r hr] at hpd
    rw [List.contains_iff_mem.mpr hpd] at alive
    cases alive
  apply Table.ext'
  · simp only [deleteCascade, Table.restrict_rows, spreadDeletion_of_no_orphans none_left]
    apply List.filter_congr
    intro r hr
    rw [Bool.eq_iff_iff]
    simp only [Bool.not_eq_true', ← Bool.not_eq_true, List.contains_iff_mem, dead r hr]
  · rfl

def insertCopies (held : ℕ → Bool) (holder : ℕ) : List (LinkedRow F) → Table (LinkedRow F) →
    List (ℕ × ℕ) → Except RowError (Table (LinkedRow F) × List (ℕ × ℕ))
  | [], t, ids => .ok (t, ids)
  | r :: rs, t, ids => do
    let t' ← insertRow held t holder none r.fields
    insertCopies held holder rs t' ((r.id, t.next) :: ids)

def setParent (t : Table (LinkedRow F)) (i p : ℕ) : Except RowError (Table (LinkedRow F)) := do
  require (t.contains p) .foreignKey
  pure (t.mapRows (fun q => if key q = i then { q with parent := some p } else q)
    (fun q => by split <;> rfl))

def relinkCopies (ids : List (ℕ × ℕ)) : List (LinkedRow F) → Table (LinkedRow F) →
    Except RowError (Table (LinkedRow F))
  | [], t => .ok t
  | r :: rs, t =>
    match r.parent with
    | none => relinkCopies ids rs t
    | some p => do
      let i ← orAbort (ids.lookup r.id) .missingKey
      -- the copy is fetched by its id first; a missing one is skipped
      if t.contains i then do
        let q ← orAbort (ids.lookup p) .missingKey
        let t' ← setParent t i q
        relinkCopies ids rs t'
      else relinkCopies ids rs t

def copyRows (held : ℕ → Bool) (holder : ℕ) (source : List (LinkedRow F))
    (t : Table (LinkedRow F)) : Except RowError (Table (LinkedRow F)) := do
  let copies ← insertCopies held holder source t []
  relinkCopies copies.2 source copies.1

def graft (μ : ℕ → ℕ) (holder : ℕ) (r : LinkedRow F) : LinkedRow F :=
  ⟨μ r.id, holder, r.parent.map μ, r.fields⟩

/-- The copy of a row after the first pass only. -/
def plant (μ : ℕ → ℕ) (holder : ℕ) (r : LinkedRow F) : LinkedRow F :=
  ⟨μ r.id, holder, none, r.fields⟩

@[simp] theorem graft_id (μ : ℕ → ℕ) (holder : ℕ) (r : LinkedRow F) :
    (graft μ holder r).id = μ r.id := rfl
@[simp] theorem graft_holder (μ : ℕ → ℕ) (holder : ℕ) (r : LinkedRow F) :
    (graft μ holder r).holder = holder := rfl
@[simp] theorem graft_parent (μ : ℕ → ℕ) (holder : ℕ) (r : LinkedRow F) :
    (graft μ holder r).parent = r.parent.map μ := rfl
@[simp] theorem graft_fields (μ : ℕ → ℕ) (holder : ℕ) (r : LinkedRow F) :
    (graft μ holder r).fields = r.fields := rfl

def newId (ids : List (ℕ × ℕ)) (i : ℕ) : ℕ := (ids.lookup i).getD 0

theorem insertCopies_spec {held : ℕ → Bool} {holder : ℕ} (hh : held holder = true)
    (source : List (LinkedRow F)) (hn : (source.map LinkedRow.id).Nodup) :
    ∀ (t : Table (LinkedRow F)) (ids : List (ℕ × ℕ)), ∃ t' ids',
      insertCopies held holder source t ids = .ok (t', ids') ∧
      (∀ i, i ∉ source.map LinkedRow.id → ids'.lookup i = ids.lookup i) ∧
      (∀ r ∈ source, ids'.lookup r.id = some (newId ids' r.id) ∧
        t.next ≤ newId ids' r.id) ∧
      t'.rows = t.rows ++ source.map (plant (newId ids') holder) ∧ t.next ≤ t'.next := by
  induction source with
  | nil => exact fun t ids => ⟨t, ids, rfl, by simp, by simp, by simp, le_rfl⟩
  | cons r rs ih =>
    intro t ids
    rw [List.map_cons, List.nodup_cons] at hn
    have hi : insertRow held t holder none r.fields =
        .ok (t.insert ⟨0, holder, none, r.fields⟩) :=
      insertRow_succeeds hh (fun p hp => by cases hp)
    obtain ⟨t', ids', he, old, new, hrows, hnext⟩ :=
      ih hn.2 (t.insert ⟨0, holder, none, r.fields⟩) ((r.id, t.next) :: ids)
    have head : ids'.lookup r.id = some t.next := by
      rw [old r.id hn.1]
      exact List.lookup_cons_self
    have hren : newId ids' r.id = t.next := by simp [newId, head]
    refine ⟨t', ids', ?_, ?_, ?_, ?_, ?_⟩
    · rw [insertCopies, hi]
      exact he
    · intro i hm
      rw [List.map_cons, List.mem_cons, not_or] at hm
      rw [old i hm.2, List.lookup_cons, beq_eq_false_iff_ne.mpr hm.1]
    · intro q hq
      rcases List.mem_cons.mp hq with rfl | hq
      · exact ⟨by rw [head, hren], hren.ge⟩
      · obtain ⟨hl, hb⟩ := new q hq
        exact ⟨hl, (Nat.le_succ _).trans hb⟩
    · rw [hrows, Table.insert_rows, List.map_cons, List.append_assoc]
      simp [plant, hren]
    · exact (Nat.le_succ _).trans hnext

theorem relinkCopies_spec (ids : List (ℕ × ℕ)) (holder : ℕ) (old rest : List (LinkedRow F)) :
    ∀ (done : List (LinkedRow F)) (t : Table (LinkedRow F)),
      t.rows = old ++ (done.map (graft (newId ids) holder) ++
        rest.map (plant (newId ids) holder)) →
      (∀ r ∈ done ++ rest, ids.lookup r.id = some (newId ids r.id)) →
      (∀ r ∈ rest, ∀ p, r.parent = some p → ∃ q ∈ done ++ rest, q.id = p) →
      ∃ t', relinkCopies ids rest t = .ok t' ∧ t'.next = t.next ∧
        t'.rows = old ++ (done ++ rest).map (graft (newId ids) holder) := by
  induction rest with
  | nil =>
    intro done t ht _ _
    exact ⟨t, rfl, rfl, by simpa using ht⟩
  | cons r rs ih =>
    intro done t ht hids hpar
    have shift : done ++ r :: rs = (done ++ [r]) ++ rs := by simp
    rw [shift] at hids hpar ⊢
    have hpar' : ∀ x ∈ rs, ∀ p, x.parent = some p → ∃ q ∈ (done ++ [r]) ++ rs, q.id = p :=
      fun x hx => hpar x (List.mem_cons_of_mem _ hx)
    have hr := hids r (by simp)
    cases hp : r.parent with
    | none =>
      obtain ⟨t', he, hn, hrows⟩ := ih (done ++ [r]) t (by
        rw [ht]
        simp [graft, plant, hp]) hids hpar'
      exact ⟨t', by rw [relinkCopies, hp]; exact he, hn, hrows⟩
    | some p =>
      obtain ⟨q, hq, rfl⟩ := hpar r List.mem_cons_self p hp
      have hql := hids q hq
      have here : t.contains (newId ids r.id) = true :=
        Table.contains_iff.mpr ⟨plant (newId ids) holder r, by rw [ht]; simp, rfl⟩
      have there : t.contains (newId ids q.id) = true := by
        rw [Table.contains_iff, ht]
        rcases List.mem_append.mp hq with hd | hd
        · rcases List.mem_append.mp hd with hd | hd
          · exact ⟨graft (newId ids) holder q, by
              simp only [List.mem_append, List.mem_map]
              exact Or.inr (Or.inl ⟨q, hd, rfl⟩), rfl⟩
          · rw [List.mem_singleton] at hd
            subst q
            exact ⟨plant (newId ids) holder r, by simp, rfl⟩
        · exact ⟨plant (newId ids) holder q, by
            simp only [List.map_cons, List.mem_append, List.mem_cons, List.mem_map]
            exact Or.inr (Or.inr (Or.inr ⟨q, hd, rfl⟩)), rfl⟩
      let u : Table (LinkedRow F) := t.mapRows
        (fun x => if key x = newId ids r.id then
          { x with parent := some (newId ids q.id) } else x) (fun x => by split <;> rfl)
      have hu : u.rows = old ++ ((done ++ [r]).map (graft (newId ids) holder) ++
          rs.map (plant (newId ids) holder)) := by
        have hnd := t.nodup
        rw [ht, List.map_cons, ← List.append_assoc] at hnd
        have := Table.map_update_split
          (f := fun x => { x with parent := some (newId ids q.id) }) hnd
        simp only [u, Table.mapRows_rows, ht, List.map_cons]
        rw [← List.append_assoc]
        apply this.trans
        simp [graft, plant, hp]
      obtain ⟨t', he, hn, hrows⟩ := ih (done ++ [r]) u hu hids hpar'
      refine ⟨t', ?_, hn, hrows⟩
      simp only [relinkCopies, hp, hr, hql, orAbort, here, if_true, setParent, require, there,
        bind, Except.bind, pure, Except.pure]
      exact he

/-- The two-pass copy never misses a dictionary entry if every parent is among the rows
copied, and its result is the image of the source under an injective renaming. -/
theorem copyRows_spec {held : ℕ → Bool} {holder : ℕ} (hh : held holder = true)
    {source : List (LinkedRow F)} (hn : (source.map LinkedRow.id).Nodup)
    (hp : ∀ r ∈ source, ∀ p, r.parent = some p → ∃ q ∈ source, q.id = p)
    (t : Table (LinkedRow F)) :
    ∃ t' μ, copyRows held holder source t = .ok t' ∧
      t'.rows = t.rows ++ source.map (graft μ holder) ∧ t.next ≤ t'.next ∧
      (∀ r ∈ source, t.next ≤ μ r.id) ∧
      Set.InjOn μ { i | i ∈ source.map LinkedRow.id } := by
  obtain ⟨u, ids, he, _, hids, hrows, hnext⟩ := insertCopies_spec hh source hn t []
  obtain ⟨t', he', hn', hrows'⟩ := relinkCopies_spec ids holder t.rows source [] u
    (by simpa using hrows) (by simpa using fun r hr => (hids r hr).1) (by simpa using hp)
  refine ⟨t', newId ids, ?_, by simpa using hrows', by omega, fun r hr => (hids r hr).2, ?_⟩
  · rw [copyRows, he]
    exact he'
  · have hnd := u.nodup
    rw [hrows, List.map_append, List.nodup_append] at hnd
    have himg := hnd.2.1
    rw [List.map_map] at himg
    intro i hi j hj hij
    obtain ⟨r, hr, rfl⟩ := List.mem_map.mp hi
    obtain ⟨q, hq, rfl⟩ := List.mem_map.mp hj
    rw [List.inj_on_of_nodup_map himg hr hq hij]

/-- The copies of one holder's rows are linked as the originals are. -/
theorem graft_rooted {link : F → F → Prop} {rows source : List (LinkedRow F)} {μ : ℕ → ℕ}
    {holder a : ℕ} (hs : ∀ r, r ∈ source ↔ r ∈ rows ∧ r.holder = a) {r : LinkedRow F}
    (h : Rooted link rows r) (hr : r.holder = a) :
    Rooted link (source.map (graft μ holder)) (graft μ holder r) := by
  induction h with
  | @root r hm hp =>
    exact .root (List.mem_map_of_mem ((hs r).mpr ⟨hm, hr⟩)) (by simp [hp])
  | @child r q hm hp hh hl _ ih =>
    exact .child (q := graft μ holder q) (List.mem_map_of_mem ((hs r).mpr ⟨hm, hr⟩))
      (by simp [hp]) rfl hl (ih (hh.trans hr))

theorem WellLinked.parents_within {link : F → F → Prop} {rows source : List (LinkedRow F)}
    {a : ℕ} (h : WellLinked link rows) (hs : ∀ r, r ∈ source ↔ r ∈ rows ∧ r.holder = a) :
    ∀ r ∈ source, ∀ p, r.parent = some p → ∃ q ∈ source, q.id = p := by
  intro r hr p hp
  obtain ⟨hm, ha⟩ := (hs r).mp hr
  obtain ⟨q, hq, hid, hh, _⟩ := h.parent hm hp
  exact ⟨q, (hs q).mpr ⟨hq, hh.trans ha⟩, hid⟩

def childrenOf (rows : List (LinkedRow F)) (i : ℕ) : List (LinkedRow F) :=
  rows.filter (fun r => r.parent == some i)

def copyTree (held : ℕ → Bool) (fetch : List (LinkedRow F) → List (LinkedRow F)) (holder : ℕ) :
    ℕ → LinkedRow F → Option ℕ → Table (LinkedRow F) → Except RowError (Table (LinkedRow F))
  | 0, _, _, _ => .error .recursionDepth
  | n + 1, r, parent, t => do
    let t' ← insertRow held t holder parent r.fields
    (fetch (childrenOf t'.rows r.id)).foldlM
      (fun u c => copyTree held fetch holder n c (some t.next) u) t'

theorem copyTree_extends {held : ℕ → Bool} {fetch : List (LinkedRow F) → List (LinkedRow F)}
    {holder : ℕ} : ∀ (n : ℕ) (r : LinkedRow F) (parent : Option ℕ) (t t' : Table (LinkedRow F)),
    copyTree held fetch holder n r parent t = .ok t' → Extends holder t t' := by
  intro n
  induction n with
  | zero =>
    intro r parent t t' h
    cases h
  | succ n ih =>
    intro r parent t t' h
    simp only [copyTree, bind_eq_ok] at h
    obtain ⟨u, hu, h⟩ := h
    refine (insertRow_extends hu).trans ?_
    exact foldlM_preserves (fun b c d _ hb hd => hb.trans (ih c _ b d hd))
      (Extends.refl holder u) h

theorem copyTree_wellLinked {link : F → F → Prop} {held : ℕ → Bool}
    {fetch : List (LinkedRow F) → List (LinkedRow F)} (hf : ∀ l, (fetch l).Perm l) {holder : ℕ} :
    ∀ (n : ℕ) (r : LinkedRow F) (parent : Option ℕ) (t t' : Table (LinkedRow F)),
    copyTree held fetch holder n r parent t = .ok t' → WellLinked link t.rows → r ∈ t.rows →
    ParentFits link t.rows holder parent r.fields → WellLinked link t'.rows := by
  intro n
  induction n with
  | zero =>
    intro r parent t t' h
    cases h
  | succ n ih =>
    intro r parent t t' h hl hr hp
    simp only [copyTree, bind_eq_ok] at h
    obtain ⟨u, hu, h⟩ := h
    have hul := insertRow_wellLinked hu hl hp
    have hru : r ∈ u.rows := (insertRow_extends hu).subset hr
    have hnew : (⟨t.next, holder, parent, r.fields⟩ : LinkedRow F) ∈ u.rows := by
      rw [(insertRow_rows hu).1]
      simp
    have keep : WellLinked link t'.rows ∧ u.rows ⊆ t'.rows := by
      refine foldlM_preserves (I := fun b => WellLinked link b.rows ∧ u.rows ⊆ b.rows) ?_
        ⟨hul, fun _ h => h⟩ h
      intro b c d hc hb hd
      have hc := List.mem_filter.mp ((hf _).mem_iff.mp hc)
      have hcp : c.parent = some r.id := by simpa using hc.2
      refine ⟨ih c _ b d hd hb.1 (hb.2 hc.1) ?_,
        List.Subset.trans hb.2 (copyTree_extends n c _ b d hd).subset⟩
      intro p hpe
      refine ⟨_, hb.2 hnew, Option.some.inj hpe, rfl, ?_⟩
      obtain ⟨q, hq, hid, _, hlink⟩ := hul.parent hc.1 hcp
      rwa [u.eq_of_key_eq hq hru hid] at hlink
    exact keep.1

end ParentLinkedRows
