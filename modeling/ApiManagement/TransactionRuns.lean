import Mathlib.Data.Nat.Notation
import Mathlib.Tactic.TypeStar

/-! # Transactions that may abort, and runs of them

A transaction is a function into `Except`: a success carries the state to commit,
an error rolls everything back. A run is any sequence of transactions whose events
satisfy a guard; aborted ones leave the state as it was. -/
namespace TransactionRuns

universe v

variable {ε σ η : Type*} {α β : Type v}

@[simp] theorem bind_eq_ok {x : Except ε α} {f : α → Except ε β} {b : β} :
    (x >>= f) = .ok b ↔ ∃ a, x = .ok a ∧ f a = .ok b := by
  cases x with
  | error e => simp [bind, Except.bind]
  | ok a => simp [bind, Except.bind]

@[simp] theorem pure_eq_ok {a b : α} : (pure a : Except ε α) = .ok b ↔ a = b := by
  simp [pure, Except.pure]

theorem ok_bind {a : α} {f : α → Except ε β} : ((.ok a : Except ε α) >>= f) = f a := rfl

theorem error_bind {e : ε} {f : α → Except ε β} : ((.error e : Except ε α) >>= f) = .error e :=
  rfl

def require (c : Bool) (e : ε) : Except ε Unit := if c then .ok () else .error e

@[simp] theorem require_eq_ok {c : Bool} {e : ε} {x : Unit} :
    require c e = .ok x ↔ c = true := by
  unfold require
  cases c <;> simp

def orAbort (o : Option α) (e : ε) : Except ε α :=
  match o with
  | none => .error e
  | some a => .ok a

@[simp] theorem orAbort_eq_ok {o : Option α} {e : ε} {a : α} :
    orAbort o e = .ok a ↔ o = some a := by
  cases o <;> simp [orAbort]

/-- A loop of aborting steps keeps what every single step keeps. -/
theorem foldlM_preserves {γ : Type*} {f : β → γ → Except ε β} {I : β → Prop} {l : List γ}
    (step : ∀ b a c, a ∈ l → I b → f b a = .ok c → I c) {b c : β} (hb : I b)
    (h : l.foldlM f b = .ok c) : I c := by
  induction l generalizing b with
  | nil =>
    simp only [List.foldlM_nil, pure_eq_ok] at h
    exact h ▸ hb
  | cons a l ih =>
    simp only [List.foldlM_cons, bind_eq_ok] at h
    obtain ⟨d, hd, h⟩ := h
    exact ih (fun b a c ha => step b a c (List.mem_cons_of_mem _ ha))
      (step b a d List.mem_cons_self hb hd) h

theorem ok_of_mapM {α' : Type*} {f : α' → Except ε β} {l : List α'} {bs : List β}
    (h : l.mapM f = .ok bs) : ∀ a ∈ l, ∃ b, f a = .ok b := by
  induction l generalizing bs with
  | nil =>
    intro a ha
    cases ha
  | cons c l ih =>
    simp only [List.mapM_cons, bind_eq_ok, pure_eq_ok] at h
    obtain ⟨b, hb, cs, hcs, _⟩ := h
    intro a ha
    rcases List.mem_cons.mp ha with rfl | ha
    · exact ⟨b, hb⟩
    · exact ih hcs a ha

/-- The results of a loop are those of its single steps. -/
theorem mem_of_mapM {α' : Type*} {f : α' → Except ε β} {l : List α'} {bs : List β}
    (h : l.mapM f = .ok bs) {b : β} : b ∈ bs ↔ ∃ a ∈ l, f a = .ok b := by
  induction l generalizing bs with
  | nil =>
    rw [List.mapM_nil, pure_eq_ok] at h
    simp [← h]
  | cons a l ih =>
    simp only [List.mapM_cons, bind_eq_ok, pure_eq_ok] at h
    obtain ⟨c, hc, cs, hcs, rfl⟩ := h
    rw [List.mem_cons, ih hcs]
    constructor
    · rintro (rfl | ⟨d, hd, hb⟩)
      · exact ⟨a, List.mem_cons_self, hc⟩
      · exact ⟨d, List.mem_cons_of_mem _ hd, hb⟩
    · rintro ⟨d, hd, hb⟩
      rcases List.mem_cons.mp hd with rfl | hd
      · exact Or.inl (Except.ok.inj (hb.symm.trans hc))
      · exact Or.inr ⟨d, hd, hb⟩

/-- The state after a transaction: its result if it committed, else the old state. -/
def committed (tx : Except ε σ) (s : σ) : σ :=
  match tx with
  | .ok t => t
  | .error _ => s

theorem committed_cases (tx : Except ε σ) (s : σ) :
    (∃ t, tx = .ok t ∧ committed tx s = t) ∨ committed tx s = s := by
  cases tx with
  | error e => exact Or.inr rfl
  | ok t => exact Or.inl ⟨t, rfl, rfl⟩

section Runs

variable (tx : σ → η → Except ε σ) (guard : σ → η → Prop)

/-- Runs in which every event meets the guard in the state where it is executed. -/
inductive Runs : σ → σ → Prop where
  | refl (s) : Runs s s
  | tail {s u e} : Runs s u → guard u e → Runs s (committed (tx u e) u)

variable {tx guard}

theorem Runs.trans {s t u : σ} (h : Runs tx guard s t) (k : Runs tx guard t u) :
    Runs tx guard s u := by
  induction k with
  | refl => exact h
  | tail _ hg ih => exact ih.tail hg

theorem Runs.mono {other : σ → η → Prop} (hg : ∀ s e, guard s e → other s e) {s t : σ}
    (h : Runs tx guard s t) : Runs tx other s t := by
  induction h with
  | refl => exact .refl _
  | tail _ h ih => exact ih.tail (hg _ _ h)

/-- What every successful guarded transaction preserves holds along every run. -/
theorem Runs.preserves {I : σ → Prop}
    (step : ∀ s e t, I s → guard s e → tx s e = .ok t → I t) {s t : σ}
    (h : Runs tx guard s t) (hs : I s) : I t := by
  induction h with
  | refl => exact hs
  | @tail u e _ hg ih =>
    rcases committed_cases (tx u e) u with ⟨t, ht, he⟩ | he
    · rw [he]
      exact step u e t ih hg ht
    · rw [he]
      exact ih

def runEvents (tx : σ → η → Except ε σ) (s : σ) (es : List η) : σ :=
  es.foldl (fun u e => committed (tx u e) u) s

theorem runs_runEvents (es : List η) : ∀ s u : σ, (∀ e ∈ es, ∀ v, guard v e) →
    Runs tx guard s u → Runs tx guard s (runEvents tx u es) := by
  induction es with
  | nil => exact fun _ _ _ h => h
  | cons e es ih =>
    intro s u hg h
    exact ih s _ (fun d hd => hg d (List.mem_cons_of_mem _ hd))
      (h.tail (hg e List.mem_cons_self u))

theorem Runs.exists_runEvents {s t : σ} (h : Runs tx guard s t) : ∃ es, runEvents tx s es = t := by
  induction h with
  | refl => exact ⟨[], rfl⟩
  | @tail u e _ _ ih =>
    obtain ⟨es, rfl⟩ := ih
    refine ⟨es ++ [e], ?_⟩
    rw [runEvents, List.foldl_append]
    rfl

end Runs

end TransactionRuns
