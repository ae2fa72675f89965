import Mathlib.Data.List.Sort
import Mathlib.Tactic

/-!
# K-way merge of sorted runs

The next element of the merge is the least head over all runs; among equal heads the earliest
run wins. The merge is a permutation of its inputs and is sorted when they are.
-/

namespace KWayMerge

open List Option

variable {α : Type*} (r : α → α → Prop) [DecidableRel r]

def popMin : List (List α) → Option (α × List (List α))
  | [] => none
  | [] :: runs => (popMin runs).map (fun res => (res.1, [] :: res.2))
  | (x :: xs) :: runs =>
    match popMin runs with
    | none => some (x, xs :: runs)
    | some (y, runs') => if r x y then some (x, xs :: runs) else some (y, (x :: xs) :: runs')

def mergeSteps : ℕ → List (List α) → List α
  | 0, _ => []
  | n + 1, runs =>
    match popMin r runs with
    | none => []
    | some (x, runs') => x :: mergeSteps n runs'

def kWayMerge (runs : List (List α)) : List α :=
  mergeSteps r (runs.map List.length).sum runs

variable {r} {runs : List (List α)} {y : α} {runs' : List (List α)}

theorem popMin_eq_none (h : popMin r runs = none) : runs.flatten = [] := by
  induction runs with
  | nil => rfl
  | cons run runs ih =>
    cases run with
    | nil =>
      simp only [popMin, map_eq_none_iff] at h
      simpa using ih h
    | cons x xs =>
      simp only [popMin] at h
      split at h
      · simp at h
      · split_ifs at h

theorem popMin_cases {x : α} {xs : List α} (h : popMin r ((x :: xs) :: runs) = some (y, runs')) :
    (y = x ∧ runs' = xs :: runs ∧ ∀ z rest, popMin r runs = some (z, rest) → r x z) ∨
      ∃ rest, popMin r runs = some (y, rest) ∧ ¬ r x y ∧ runs' = (x :: xs) :: rest := by
  simp only [popMin] at h
  split at h
  · rename_i hnone
    cases h
    exact .inl ⟨rfl, rfl, by simp [hnone]⟩
  · rename_i z rest hsome
    split_ifs at h with hr
    · cases h
      refine .inl ⟨rfl, rfl, fun z' rest' hz' => ?_⟩
      cases hsome.symm.trans hz'
      exact hr
    · cases h
      exact .inr ⟨rest, hsome, hr, rfl⟩

theorem popMin_nil_cases (h : popMin r ([] :: runs) = some (y, runs')) :
    ∃ rest, popMin r runs = some (y, rest) ∧ runs' = [] :: rest := by
  obtain ⟨⟨z, rest⟩, hp, heq⟩ := map_eq_some_iff.mp h
  cases heq
  exact ⟨rest, hp, rfl⟩

theorem popMin_splits (h : popMin r runs = some (y, runs')) :
    ∃ front xs back, runs = front ++ (y :: xs) :: back ∧ runs' = front ++ xs :: back := by
  induction runs generalizing y runs' with
  | nil => simp [popMin] at h
  | cons run runs ih =>
    cases run with
    | nil =>
      obtain ⟨rest, hp, rfl⟩ := popMin_nil_cases h
      obtain ⟨front, xs, back, rfl, rfl⟩ := ih hp
      exact ⟨[] :: front, xs, back, rfl, rfl⟩
    | cons x xs =>
      rcases popMin_cases h with ⟨rfl, rfl, -⟩ | ⟨rest, hp, -, rfl⟩
      · exact ⟨[], xs, runs, rfl, rfl⟩
      · obtain ⟨front, xs', back, rfl, rfl⟩ := ih hp
        exact ⟨(x :: xs) :: front, xs', back, rfl, rfl⟩

theorem popMin_perm
    (h : popMin r runs = some (y, runs')) : runs.flatten.Perm (y :: runs'.flatten) := by
  obtain ⟨front, xs, back, rfl, rfl⟩ := popMin_splits h
  rw [flatten_append, flatten_append]
  exact perm_middle

theorem length_of_popMin (h : popMin r runs = some (y, runs')) :
    (runs.map length).sum = (runs'.map length).sum + 1 := by
  have hl := (popMin_perm h).length_eq
  simpa [length_flatten] using hl

theorem length_runs_of_popMin {res : α × List (List α)}
    (h : popMin r runs = some res) : res.2.length = runs.length := by
  obtain ⟨front, xs, back, rfl, hres⟩ := popMin_splits h
  rw [hres, length_append, length_append]
  rfl

theorem mergeSteps_perm {n : ℕ}
    (h : (runs.map length).sum ≤ n) : (mergeSteps r n runs).Perm runs.flatten := by
  induction n generalizing runs with
  | zero =>
    have hlen : runs.flatten.length = 0 := by
      rw [length_flatten]
      omega
    rw [length_eq_zero_iff.mp hlen]
    exact Perm.refl _
  | succ n ih =>
    simp only [mergeSteps]
    split
    · rename_i hnone
      rw [popMin_eq_none hnone]
    · rename_i x runs' hsome
      have hlen := length_of_popMin hsome
      exact ((ih (by omega)).cons x).trans (popMin_perm hsome).symm

theorem kWayMerge_perm (runs : List (List α)) : (kWayMerge r runs).Perm runs.flatten :=
  mergeSteps_perm le_rfl

theorem popMin_sorted (h : popMin r runs = some (y, runs')) (hs : ∀ run ∈ runs, run.Pairwise r) :
    ∀ run ∈ runs', run.Pairwise r := by
  obtain ⟨front, xs, back, rfl, rfl⟩ := popMin_splits h
  rw [forall_mem_append, forall_mem_cons] at hs ⊢
  exact ⟨hs.1, hs.2.1.tail, hs.2.2⟩

/-- The least head does not depend on what follows the loaded part of each run. -/
theorem popMin_append (runs : List (List α × List α)) (h : ∀ p ∈ runs, p.1 = [] → p.2 = []) :
    popMin r (runs.map (fun p => p.1 ++ p.2)) = (popMin r (runs.map Prod.fst)).map
        (fun res => (res.1, zipWith (· ++ ·) res.2 (runs.map Prod.snd))) := by
  induction runs with
  | nil => rfl
  | cons p runs ih =>
    rw [forall_mem_cons] at h
    obtain ⟨buf, rest⟩ := p
    have hzip : zipWith (· ++ ·) (runs.map Prod.fst) (runs.map Prod.snd) =
        runs.map (fun p => p.1 ++ p.2) := by
      rw [zipWith_map, zipWith_self]
    cases buf with
    | nil =>
      have hrest : rest = [] := h.1 rfl
      simp [popMin, ih h.2, hrest, Function.comp_def]
    | cons x xs =>
      simp only [map_cons, cons_append, popMin, ih h.2]
      cases popMin r (runs.map Prod.fst) with
      | none => simp [hzip]
      | some res =>
        simp only [map_some]
        split_ifs <;> simp [hzip]

section Sorted

variable [Std.Total r] [IsTrans α r] {runs : List (List α)}

theorem popMin_le (h : popMin r runs = some (y, runs')) (hs : ∀ run ∈ runs, run.Pairwise r) :
    ∀ z ∈ runs.flatten, r y z := by
  induction runs generalizing y runs' with
  | nil => simp [popMin] at h
  | cons run runs ih =>
    rw [forall_mem_cons] at hs
    cases run with
    | nil =>
      obtain ⟨rest, hp, rfl⟩ := popMin_nil_cases h
      simpa using ih hp hs.2
    | cons x xs =>
      rw [flatten_cons]
      have hxs : ∀ z ∈ x :: xs, r x z := by
        intro z hz
        rcases mem_cons.mp hz with rfl | hz
        · exact (Std.Total.total z z).elim id id
        · exact rel_of_pairwise_cons hs.1 hz
      rcases popMin_cases h with ⟨rfl, rfl, hmin⟩ | ⟨rest, hp, hlt, rfl⟩
      · intro z hz
        rcases mem_append.mp hz with hz | hz
        · exact hxs z hz
        · cases hp : popMin r runs with
          | none => simp [popMin_eq_none hp] at hz
          | some res =>
            exact Trans.trans (hmin res.1 res.2 hp) (ih hp hs.2 z hz)
      · intro z hz
        rcases mem_append.mp hz with hz | hz
        · have hyx : r y x := (Std.Total.total y x).resolve_right hlt
          exact Trans.trans hyx (hxs z hz)
        · exact ih hp hs.2 z hz

theorem mergeSteps_pairwise (n : ℕ)
    (h : (runs.map length).sum ≤ n) (hs : ∀ run ∈ runs, run.Pairwise r) :
    (mergeSteps r n runs).Pairwise r := by
  induction n generalizing runs with
  | zero => exact Pairwise.nil
  | succ n ih =>
    simp only [mergeSteps]
    split
    · exact Pairwise.nil
    · rename_i x runs' hsome
      have hlen := length_of_popMin hsome
      have hle : (runs'.map length).sum ≤ n := by omega
      refine pairwise_cons.mpr ⟨?_, ih hle (popMin_sorted hsome hs)⟩
      intro z hz
      have hz' := (mergeSteps_perm hle).mem_iff.mp hz
      exact popMin_le hsome hs z ((popMin_perm hsome).mem_iff.mpr (mem_cons_of_mem x hz'))

theorem kWayMerge_pairwise (hs : ∀ run ∈ runs, run.Pairwise r) :
    (kWayMerge r runs).Pairwise r :=
  mergeSteps_pairwise _ le_rfl hs

end Sorted

end KWayMerge
