import Mathlib.Data.List.Basic

/-! # Scripts that fail

A script ends in a state, and an error carries the state that was reached before it. -/
namespace FailingScripts

variable {σ α : Type*}

def attempt (s : σ) : Option σ → Except σ σ
  | none => .error s
  | some s' => .ok s'

theorem attempt_eq_ok {s s' : σ} {o : Option σ} : attempt s o = .ok s' ↔ o = some s' := by
  cases o with
  | none => exact iff_of_false (fun h => by cases h) (fun h => by cases h)
  | some t => rw [attempt, Except.ok.injEq, Option.some_inj]

def left : Except σ σ → σ
  | .ok s => s
  | .error s => s

def succeeded : Except σ σ → Bool
  | .ok _ => true
  | .error _ => false

def Leaves (P : σ → Prop) (script : Except σ σ) : Prop := P (left script)

variable {P : σ → Prop} {s : σ}

theorem leaves_attempt {o : Option σ} (hs : P s) (ho : ∀ s', o = some s' → P s') :
    Leaves P (attempt s o) := by
  cases o with
  | none => exact hs
  | some s' => exact ho s' rfl

theorem leaves_bind {script : Except σ σ} {next : σ → Except σ σ} (h : Leaves P script)
    (hnext : ∀ s, P s → Leaves P (next s)) : Leaves P (script >>= next) := by
  cases script with
  | error s => exact h
  | ok s => exact hnext s h

theorem leaves_foldlM {step : σ → α → Except σ σ} : ∀ {as : List α} {s : σ}, P s →
    (∀ s, P s → ∀ a ∈ as, Leaves P (step s a)) → Leaves P (as.foldlM step s) := by
  intro as
  induction as with
  | nil => exact fun hs _ => hs
  | cons a as ih =>
    intro s hs hstep
    rw [List.foldlM_cons]
    exact leaves_bind (hstep s hs a List.mem_cons_self)
      (fun s' hs' => ih hs' (fun s hs a ha => hstep s hs a (List.mem_cons_of_mem _ ha)))

/-- `I done s` holds of the state `s` once the elements `done` were processed. -/
theorem foldlM_ok {step : σ → α → Except σ σ} {I : List α → σ → Prop} :
    ∀ {as done : List α} {s : σ}, I done s →
    (∀ done s, I done s → ∀ a ∈ as, ∃ s', step s a = .ok s' ∧ I (done ++ [a]) s') →
    ∃ s', as.foldlM step s = .ok s' ∧ I (done ++ as) s' := by
  intro as
  induction as with
  | nil =>
    intro done s hs _
    exact ⟨s, rfl, by rwa [List.append_nil]⟩
  | cons a as ih =>
    intro done s hs hstep
    obtain ⟨s', hs', hinv⟩ := hstep done s hs a List.mem_cons_self
    obtain ⟨s'', hs'', hend⟩ :=
      ih hinv (fun done s h a ha => hstep done s h a (List.mem_cons_of_mem _ ha))
    refine ⟨s'', ?_, ?_⟩
    · rw [List.foldlM_cons, hs']
      exact hs''
    · rwa [List.append_assoc, List.singleton_append] at hend

inductive Alike (R : σ → σ → Prop) : Except σ σ → Except σ σ → Prop where
  | ok {s t : σ} : R s t → Alike R (.ok s) (.ok t)
  | error {s t : σ} : R s t → Alike R (.error s) (.error t)

variable {R : σ → σ → Prop} {t : σ}

theorem Alike.left {script script' : Except σ σ} (h : Alike R script script') :
    R (left script) (left script') := by
  cases h with
  | ok h => exact h
  | error h => exact h

theorem alike_attempt {o o' : Option σ} (hs : R s t) (ho : Option.Rel R o o') :
    Alike R (attempt s o) (attempt t o') := by
  cases ho with
  | none => exact .error hs
  | some h => exact .ok h

theorem alike_bind {script script' : Except σ σ} {next next' : σ → Except σ σ}
    (h : Alike R script script') (hnext : ∀ s t, R s t → Alike R (next s) (next' t)) :
    Alike R (script >>= next) (script' >>= next') := by
  cases h with
  | ok h => exact hnext _ _ h
  | error h => exact .error h

theorem alike_foldlM {step : σ → α → Except σ σ} : ∀ {as : List α} {s t : σ}, R s t →
    (∀ s t, R s t → ∀ a ∈ as, Alike R (step s a) (step t a)) →
    Alike R (as.foldlM step s) (as.foldlM step t) := by
  intro as
  induction as with
  | nil => exact fun hs _ => .ok hs
  | cons a as ih =>
    intro s t hs hstep
    rw [List.foldlM_cons, List.foldlM_cons]
    exact alike_bind (hstep s t hs a List.mem_cons_self)
      (fun s t hs => ih hs (fun s t hs a ha => hstep s t hs a (List.mem_cons_of_mem _ ha)))

end FailingScripts
