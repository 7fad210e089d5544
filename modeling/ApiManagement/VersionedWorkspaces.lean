import Mathlib.Logic.Function.Basic

/-! # Workspaces over released versions

Projects with a released head each, and workspaces that start as copies of a head, are edited,
and replace the head when they are released. A released workspace is edited no more. -/
namespace VersionedWorkspaces

variable {κ ι C V : Type*}

@[ext] structure Workspace (κ C V : Type*) where
  project : κ
  content : C
  released : Option V

@[ext] structure Depot (κ ι C V : Type*) where
  head : κ → Option (V × C)
  work : ι → Option (Workspace κ C V)

namespace Depot

section Updates

variable [DecidableEq κ] [DecidableEq ι]

def setHead (d : Depot κ ι C V) (k : κ) (h : V × C) : Depot κ ι C V :=
  { d with head := Function.update d.head k (some h) }

def setWork (d : Depot κ ι C V) (i : ι) (w : Option (Workspace κ C V)) : Depot κ ι C V :=
  { d with work := Function.update d.work i w }

end Updates

section Heads

variable [DecidableEq κ] {d : Depot κ ι C V} {k l : κ} {h : V × C}

@[simp] theorem setHead_work : (d.setHead k h).work = d.work := rfl

@[simp] theorem setHead_head : (d.setHead k h).head k = some h := Function.update_self ..

theorem setHead_head_other (hl : l ≠ k) : (d.setHead k h).head l = d.head l :=
  Function.update_of_ne hl ..

end Heads

section Works

variable [DecidableEq ι] {d : Depot κ ι C V} {i j : ι} {w : Option (Workspace κ C V)}

@[simp] theorem setWork_head : (d.setWork i w).head = d.head := rfl

@[simp] theorem setWork_work : (d.setWork i w).work i = w := Function.update_self ..

theorem setWork_work_other (hj : j ≠ i) : (d.setWork i w).work j = d.work j :=
  Function.update_of_ne hj ..

end Works

end Depot

inductive Event (κ ι C V : Type*) where
  | create (k : κ) (v : V)
  | branch (i : ι) (k : κ)
  | edit (i : ι) (c : C)
  | release (i : ι) (v : V)
  | drop (i : ι)
  | skip

variable [DecidableEq κ] [DecidableEq ι]

/-- A project starts with `nothing` in it, and only workspaces with `nothing` in them go. -/
inductive Step (nothing : C) (d : Depot κ ι C V) : Event κ ι C V → Depot κ ι C V → Prop where
  | create {k v} : d.head k = none → Step nothing d (.create k v) (d.setHead k (v, nothing))
  | branch {i k v c} : d.work i = none → d.head k = some (v, c) →
      Step nothing d (.branch i k) (d.setWork i (some ⟨k, c, none⟩))
  | edit {i w c} : d.work i = some w → w.released = none →
      Step nothing d (.edit i c) (d.setWork i (some { w with content := c }))
  | release {i w u c v} : d.work i = some w → w.released = none →
      d.head w.project = some (u, c) → u ≠ v →
      Step nothing d (.release i v) ((d.setHead w.project (v, w.content)).setWork i
        (some { w with released := some v }))
  | drop {i w} : d.work i = some w → w.content = nothing →
      Step nothing d (.drop i) (d.setWork i none)
  | skip : Step nothing d .skip d

inductive Trace (nothing : C) (d : Depot κ ι C V) : List (Event κ ι C V) → Depot κ ι C V → Prop
    where
  | nil : Trace nothing d [] d
  | snoc {es e u u'} : Trace nothing d es u → Step nothing u e u' → Trace nothing d (es ++ [e]) u'

variable {nothing : C} {d d' u : Depot κ ι C V} {e : Event κ ι C V} {es : List (Event κ ι C V)}

theorem Trace.cons (hs : Step nothing d e u) (h : Trace nothing u es d') :
    Trace nothing d (e :: es) d' := by
  induction h with
  | nil => exact Trace.nil.snoc hs
  | snoc _ hs' ih => exact ih.snoc hs'

/-- What every step keeps holds along every trace. -/
theorem Trace.preserves {I : Depot κ ι C V → Prop}
    (step : ∀ d e d', I d → Step nothing d e d' → I d') (h : Trace nothing d es d') (hd : I d) :
    I d' := by
  induction h with
  | nil => exact hd
  | snoc _ hs ih => exact step _ _ _ ih hs

/-- Every workspace belongs to a project, and every head with something in it is the content
of a workspace of its project, released under the version of the head. -/
structure Sound (nothing : C) (d : Depot κ ι C V) : Prop where
  project : ∀ i w, d.work i = some w → ∃ h, d.head w.project = some h
  head : ∀ k v c, d.head k = some (v, c) → c = nothing ∨ ∃ i, d.work i = some ⟨k, c, some v⟩

omit [DecidableEq κ] in
/-- A head keeps its released workspace when another one changes that is not released. -/
theorem Sound.head_of_setWork (h : Sound nothing d) {i : ι} {w' : Option (Workspace κ C V)}
    (hold : ∀ k v c, d.work i = some ⟨k, c, some v⟩ → c = nothing) {k : κ} {v : V} {c : C}
    (hk : d.head k = some (v, c)) :
    c = nothing ∨ ∃ j, (d.setWork i w').work j = some ⟨k, c, some v⟩ := by
  rcases h.head k v c hk with hc | ⟨j, hj⟩
  · exact Or.inl hc
  · by_cases hji : j = i
    · subst hji
      exact Or.inl (hold k v c hj)
    · exact Or.inr ⟨j, (Depot.setWork_work_other hji).trans hj⟩

omit [DecidableEq κ] in
theorem Sound.setWork (h : Sound nothing d) {i : ι} {w' : Option (Workspace κ C V)}
    (hold : ∀ k v c, d.work i = some ⟨k, c, some v⟩ → c = nothing)
    (hnew : ∀ w, w' = some w → ∃ hd, d.head w.project = some hd) :
    Sound nothing (d.setWork i w') := by
  refine ⟨?_, fun k v c hk => h.head_of_setWork hold hk⟩
  intro j w hw
  by_cases hji : j = i
  · subst hji
    exact hnew w (Depot.setWork_work.symm.trans hw)
  · rw [Depot.setWork_work_other hji] at hw
    exact h.project j w hw

theorem Sound.step (h : Sound nothing d) (hs : Step nothing d e d') : Sound nothing d' := by
  have unreleased : ∀ {i : ι} {w : Workspace κ C V}, d.work i = some w → w.released = none →
      ∀ k v c, d.work i = some ⟨k, c, some v⟩ → c = nothing := by
    intro i w hw hn k v c hc
    rw [hw, Option.some_inj] at hc
    rw [hc] at hn
    cases hn
  cases hs with
  | @create k v hk =>
    refine ⟨?_, ?_⟩
    · intro i w hw
      by_cases hwk : w.project = k
      · rw [hwk]
        exact ⟨_, Depot.setHead_head⟩
      · rw [Depot.setHead_head_other hwk]
        exact h.project i w hw
    · intro l u c hl
      by_cases hlk : l = k
      · subst hlk
        rw [Depot.setHead_head, Option.some_inj] at hl
        exact Or.inl (congrArg Prod.snd hl).symm
      · rw [Depot.setHead_head_other hlk] at hl
        exact h.head l u c hl
  | @branch i k v c hi hk =>
    refine h.setWork ?_ ?_
    · intro k v c hc
      rw [hi] at hc
      cases hc
    · intro w hw
      rw [← Option.some_inj.mp hw]
      exact ⟨_, hk⟩
  | @edit i w c hw hn =>
    refine h.setWork (unreleased hw hn) ?_
    intro w' hw'
    rw [← Option.some_inj.mp hw']
    exact h.project i w hw
  | @release i w u c v hw hn hk _ =>
    refine ⟨?_, ?_⟩
    · intro j w' hw'
      have hp : ∃ hd, d.head w'.project = some hd := by
        by_cases hji : j = i
        · subst hji
          rw [Depot.setWork_work, Option.some_inj] at hw'
          rw [← hw']
          exact ⟨_, hk⟩
        · rw [Depot.setWork_work_other hji] at hw'
          exact h.project j w' hw'
      by_cases hwp : w'.project = w.project
      · rw [hwp]
        exact ⟨_, Depot.setHead_head⟩
      · rw [Depot.setWork_head, Depot.setHead_head_other hwp]
        exact hp
    · intro l v' c' hl
      by_cases hlp : l = w.project
      · subst hlp
        rw [Depot.setWork_head, Depot.setHead_head, Option.some_inj] at hl
        obtain ⟨rfl, rfl⟩ := Prod.mk.inj hl
        exact Or.inr ⟨i, Depot.setWork_work⟩
      · rw [Depot.setWork_head, Depot.setHead_head_other hlp] at hl
        exact h.head_of_setWork (unreleased hw hn) hl
  | @drop i w hw hc =>
    refine h.setWork ?_ ?_
    · intro k v c hk
      rw [hw, Option.some_inj] at hk
      rw [hk] at hc
      exact hc
    · rintro w' hw'
      cases hw'
  | skip => exact h

/-- A released workspace with something in it stays as it is. -/
theorem released_step {i : ι} {k : κ} {c : C} {v : V} (hs : Step nothing d e d')
    (hi : d.work i = some ⟨k, c, some v⟩) (hc : c ≠ nothing) :
    d'.work i = some ⟨k, c, some v⟩ := by
  have other : ∀ {j : ι} {w : Workspace κ C V} {w' : Option (Workspace κ C V)},
      d.work j = some w → w.released = none ∨ w.content = nothing →
      (d.setWork j w').work i = some ⟨k, c, some v⟩ := by
    intro j w w' hw hor
    have hij : i ≠ j := by
      rintro rfl
      rw [hi, Option.some_inj] at hw
      rw [← hw] at hor
      rcases hor with hor | hor
      · cases hor
      · exact hc hor
    exact (Depot.setWork_work_other hij).trans hi
  cases hs with
  | create _ => exact hi
  | @branch j _ _ _ hj _ =>
    have hij : i ≠ j := by
      rintro rfl
      rw [hi] at hj
      cases hj
    exact (Depot.setWork_work_other hij).trans hi
  | edit hw hn => exact other hw (Or.inl hn)
  | release hw hn _ _ => exact other hw (Or.inl hn)
  | drop hw hnothing => exact other hw (Or.inr hnothing)
  | skip => exact hi

theorem released_trace {i : ι} {k : κ} {c : C} {v : V} (h : Trace nothing d es d')
    (hi : d.work i = some ⟨k, c, some v⟩) (hc : c ≠ nothing) :
    d'.work i = some ⟨k, c, some v⟩ :=
  h.preserves (I := fun u => u.work i = some ⟨k, c, some v⟩)
    (fun _ _ _ hu hs => released_step hs hu hc) hi

end VersionedWorkspaces
