import Mathlib.Data.List.Induction

/-!
# Runs whose steps meet a guard

A run folds a step function along a list of steps. A guard is a condition on a step and the
state it starts from; an invariant that every guarded step keeps holds along a guarded run.
-/

namespace GuardedRun

open List

variable {σ ι : Type*} {step : σ → ι → σ} {guard : σ → ι → Prop}

/-- Every step meets the guard in the state it starts from. -/
def Guarded (step : σ → ι → σ) (guard : σ → ι → Prop) : σ → List ι → Prop
  | _, [] => True
  | st, s :: steps => guard st s ∧ Guarded step guard (step st s) steps

instance instDecidableGuarded [∀ st s, Decidable (guard st s)] :
    ∀ (st : σ) (steps : List ι), Decidable (Guarded step guard st steps)
  | _, [] => isTrue trivial
  | st, s :: steps => @instDecidableAnd _ _ _ (instDecidableGuarded (step st s) steps)

theorem guarded_append {st : σ} {pre post : List ι} :
    Guarded step guard st (pre ++ post) ↔
      Guarded step guard st pre ∧ Guarded step guard (pre.foldl step st) post := by
  induction pre generalizing st with
  | nil => simp [Guarded]
  | cons s pre ih => rw [cons_append, Guarded, Guarded, ih, and_assoc, foldl_cons]

theorem guarded_concat {st : σ} {steps : List ι} {s : ι} :
    Guarded step guard st (steps ++ [s]) ↔
      Guarded step guard st steps ∧ guard (steps.foldl step st) s := by
  rw [guarded_append, Guarded, Guarded, and_true]

theorem guarded_of_forall {steps : List ι} (h : ∀ s ∈ steps, ∀ st, guard st s) (st : σ) :
    Guarded step guard st steps := by
  induction steps generalizing st with
  | nil => trivial
  | cons s steps ih =>
    rw [forall_mem_cons] at h
    exact ⟨h.1 st, ih h.2 _⟩

/-- A condition on the steps alone can be added to the guard. -/
theorem Guarded.and_forall {Q : ι → Prop} {st : σ} {steps : List ι}
    (h : Guarded step guard st steps) (hQ : ∀ s ∈ steps, Q s) :
    Guarded step (fun st s => guard st s ∧ Q s) st steps := by
  induction steps generalizing st with
  | nil => trivial
  | cons s steps ih =>
    rw [forall_mem_cons] at hQ
    exact ⟨⟨h.1, hQ.1⟩, ih h.2 hQ.2⟩

theorem invariant (inv : List ι → σ → Prop) {st : σ} (hinit : inv [] st)
    (hstep : ∀ pre s st', inv pre st' → guard st' s → inv (pre ++ [s]) (step st' s))
    {steps : List ι} (h : Guarded step guard st steps) : inv steps (steps.foldl step st) := by
  induction steps using reverseRecOn with
  | nil => exact hinit
  | append_singleton pre s ih =>
    obtain ⟨hpre, hs⟩ := guarded_concat.mp h
    rw [foldl_append, foldl_cons, foldl_nil]
    exact hstep pre s _ (ih hpre) hs

theorem guarded_take {st : σ} {steps : List ι} (h : Guarded step guard st steps) (n : ℕ) :
    Guarded step guard st (steps.take n) := by
  rw [← take_append_drop n steps, guarded_append] at h
  exact h.1

/-- What every guarded step keeps holds along a guarded run. -/
theorem stable {P : σ → Prop} (hstable : ∀ st s, guard st s → P st → P (step st s)) {st : σ}
    (hst : P st) {steps : List ι} (h : Guarded step guard st steps) : P (steps.foldl step st) :=
  invariant (fun _ st' => P st') hst (fun _ s st' hst' hs => hstable st' s hs hst') h

/-- What every guarded step keeps and one of the steps brings about holds after the run. -/
theorem holds_after {P : σ → Prop} (hstable : ∀ st s, guard st s → P st → P (step st s)) {s : ι}
    (hs : ∀ st, P (step st s)) {st : σ} {steps : List ι} (hmem : s ∈ steps)
    (h : Guarded step guard st steps) : P (steps.foldl step st) := by
  obtain ⟨pre, post, rfl⟩ := append_of_mem hmem
  rw [guarded_append, Guarded] at h
  rw [foldl_append, foldl_cons]
  exact stable hstable (hs _) h.2.2

/-- If the guard is what an admissible step needs to keep a property, the property holds at every
point of an admissible run exactly when all steps meet the guard. -/
theorem forall_take_iff_of_guarded {P inv : σ → Prop} {admissible : σ → ι → Prop}
    (hinv : ∀ st s, admissible st s → inv st → P st → inv (step st s))
    (hstep : ∀ st s, admissible st s → inv st → P st → (P (step st s) ↔ guard st s)) {st : σ}
    (hst : inv st) (hP : P st) {steps : List ι} (hrun : Guarded step admissible st steps) :
    (∀ n, P ((steps.take n).foldl step st)) ↔ Guarded step guard st steps := by
  induction steps generalizing st with
  | nil => simpa [Guarded] using hP
  | cons s steps ih =>
    rw [Guarded, ← hstep st s hrun.1 hst hP]
    constructor
    · intro h
      have hs : P (step st s) := h 1
      exact ⟨hs, (ih (hinv st s hrun.1 hst hP) hs hrun.2).mp (fun n => h (n + 1))⟩
    · rintro ⟨hs, hsteps⟩ n
      cases n with
      | zero => exact hP
      | succ n => exact (ih (hinv st s hrun.1 hst hP) hs hrun.2).mpr hsteps n

theorem forall_take_iff {P inv : σ → Prop} (hinv : ∀ st s, inv st → inv (step st s))
    (hstep : ∀ st s, inv st → P st → (P (step st s) ↔ guard st s)) {st : σ} (hst : inv st)
    (hP : P st) (steps : List ι) :
    (∀ n, P ((steps.take n).foldl step st)) ↔ Guarded step guard st steps :=
  forall_take_iff_of_guarded (fun st s _ h _ => hinv st s h) (fun st s _ => hstep st s) hst hP
    (@guarded_of_forall _ _ _ (fun _ _ => True) _ (fun _ _ _ => trivial) st)

end GuardedRun
