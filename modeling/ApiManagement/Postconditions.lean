import ApiManagement.TransactionRuns

/-! # Postconditions of computations that may abort

`Ensures P E x`: a success of `x` satisfies `P`, an error satisfies `E`. It is the weakest
precondition of `x`, so it passes through every sequence of steps in both directions. -/
namespace Postconditions

open TransactionRuns

universe v

variable {ε : Type*} {α β : Type v}

def Ensures (P : α → Prop) (E : ε → Prop) : Except ε α → Prop
  | .ok a => P a
  | .error e => E e

variable {P Q : α → Prop} {E : ε → Prop} {x : Except ε α}

@[simp] theorem ensures_ok {a : α} : Ensures P E (.ok a) ↔ P a := Iff.rfl

@[simp] theorem ensures_error {e : ε} : Ensures P E (.error e) ↔ E e := Iff.rfl

@[simp] theorem ensures_pure {a : α} : Ensures P E (pure a) ↔ P a := Iff.rfl

@[simp] theorem ensures_bind {P : β → Prop} {f : α → Except ε β} :
    Ensures P E (x >>= f) ↔ Ensures (fun a => Ensures P E (f a)) E x := by
  cases x with
  | ok a => exact Iff.rfl
  | error e => exact Iff.rfl

@[simp] theorem ensures_map {P : β → Prop} {f : α → β} :
    Ensures P E (f <$> x) ↔ Ensures (fun a => P (f a)) E x := by
  cases x with
  | ok a => exact Iff.rfl
  | error e => exact Iff.rfl

@[simp] theorem ensures_require {P : Unit → Prop} {c : Bool} {e : ε} :
    Ensures P E (require c e) ↔ (c = true → P ()) ∧ (c = false → E e) := by
  cases c with
  | true => simp [require]
  | false => simp [require]

@[simp] theorem ensures_orAbort {o : Option α} {e : ε} :
    Ensures P E (orAbort o e) ↔ (∀ a, o = some a → P a) ∧ (o = none → E e) := by
  cases o with
  | none => simp [orAbort]
  | some a => simp [orAbort]

theorem Ensures.mono {F : ε → Prop} (h : Ensures P E x) (hPQ : ∀ a, P a → Q a)
    (hEF : ∀ e, E e → F e) : Ensures Q F x := by
  cases x with
  | ok a => exact hPQ a h
  | error e => exact hEF e h

theorem Ensures.foldlM {γ : Type*} {f : α → γ → Except ε α} {l : List γ}
    (step : ∀ a, ∀ c ∈ l, P a → Ensures P E (f a c)) :
    ∀ {a : α}, P a → Ensures P E (l.foldlM f a) := by
  induction l with
  | nil => exact fun h => h
  | cons c l ih =>
    intro a h
    rw [List.foldlM_cons, ensures_bind]
    refine (step a c List.mem_cons_self h).mono ?_ (fun _ he => he)
    intro b hb
    exact ih (fun b d hd => step b d (List.mem_cons_of_mem _ hd)) hb

theorem Ensures.mapM {γ : Type*} {f : γ → Except ε α} {l : List γ}
    (step : ∀ c ∈ l, Ensures (fun _ => True) E (f c)) :
    Ensures (fun _ => True) E (l.mapM f) := by
  induction l with
  | nil => exact trivial
  | cons c l ih =>
    rw [List.mapM_cons, ensures_bind]
    refine (step c List.mem_cons_self).mono ?_ (fun _ he => he)
    intro b _
    rw [ensures_bind]
    refine (ih (fun d hd => step d (List.mem_cons_of_mem _ hd))).mono ?_ (fun _ he => he)
    exact fun _ _ => trivial

def Yields (x : Except ε α) : Prop := ∃ a, x = .ok a

@[simp] theorem yields_pure {a : α} : Yields (pure a : Except ε α) ↔ True :=
  iff_true_intro ⟨a, rfl⟩

theorem yields_orAbort {o : Option α} {e : ε} : Yields (orAbort o e) ↔ ∃ a, o = some a := by
  simp only [Yields, orAbort_eq_ok]

theorem yields_bind {f : α → Except ε β} {p : Prop} (h : ∀ a, x = .ok a → (Yields (f a) ↔ p)) :
    Yields (x >>= f) ↔ Yields x ∧ p := by
  cases x with
  | ok a => exact (h a rfl).trans (iff_and_self.mpr (fun _ => ⟨a, rfl⟩))
  | error e =>
    constructor
    · rintro ⟨b, hb⟩
      cases hb
    · rintro ⟨⟨a, ha⟩, _⟩
      cases ha

/-- A loop succeeds just when every step does, if that does not depend on what was done. -/
theorem yields_foldlM {γ : Type*} {f : α → γ → Except ε α} {p : γ → Prop} {l : List γ}
    (step : ∀ a, ∀ c ∈ l, Yields (f a c) ↔ p c) :
    ∀ {a : α}, Yields (l.foldlM f a) ↔ ∀ c ∈ l, p c := by
  induction l with
  | nil => exact fun {a} => iff_of_true ⟨a, rfl⟩ (fun c hc => by cases hc)
  | cons c l ih =>
    intro a
    have hrest := @ih (fun b d hd => step b d (List.mem_cons_of_mem _ hd))
    rw [List.foldlM_cons, yields_bind (fun b _ => hrest), step a c List.mem_cons_self,
      List.forall_mem_cons]

theorem yields_mapM {γ : Type*} {f : γ → Except ε α} {l : List γ} :
    Yields (l.mapM f) ↔ ∀ c ∈ l, Yields (f c) := by
  induction l with
  | nil => exact iff_of_true ⟨[], rfl⟩ (fun c hc => by cases hc)
  | cons c l ih =>
    have hrest : ∀ b : α, Yields (l.mapM f >>= fun bs => pure (b :: bs)) ↔ Yields (l.mapM f) := by
      intro b
      rw [yields_bind (fun _ _ => yields_pure), and_true]
    rw [List.mapM_cons, yields_bind (fun b _ => hrest b), ih, List.forall_mem_cons]

end Postconditions
