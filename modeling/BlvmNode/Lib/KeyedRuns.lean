import BlvmNode.Lib.Timeline

/-!
# Chains of runs and the timelines they hold

A store that is searched run after run, newest first, holds for each key the timeline obtained by
reading that key's records along the chain. Moving a run past runs that share no key with it leaves
every timeline as it was.
-/

namespace KeyedRuns

open Timeline Timeline.Versioned List

class Keyed (E : Type*) (K : outParam (Type*)) where
  key : E → K

open Keyed

variable {E K : Type*} [Keyed E K] [DecidableEq K]

def entriesOf (k : K) (run : List E) : List E :=
  run.filter (fun e => key e = k)

def timeline (k : K) (chain : List (List E)) : List E :=
  chain.flatMap (entriesOf k)

variable {k : K} {e : E} {run : List E} {chain : List (List E)}

@[simp] theorem entriesOf_nil (k : K) : entriesOf k ([] : List E) = [] := rfl

theorem entriesOf_cons (k : K) (e : E) (run : List E) :
    entriesOf k (e :: run) = if key e = k then e :: entriesOf k run else entriesOf k run := by
  simp [entriesOf, filter_cons]

@[simp] theorem entriesOf_append (k : K) (run run' : List E) :
    entriesOf k (run ++ run') = entriesOf k run ++ entriesOf k run' :=
  filter_append ..

@[simp] theorem mem_entriesOf : e ∈ entriesOf k run ↔ e ∈ run ∧ key e = k := by
  simp [entriesOf]

theorem entriesOf_eq_nil (h : ∀ e ∈ run, key e ≠ k) : entriesOf k run = [] := by
  simpa [entriesOf] using h

theorem entriesOf_eq_self (h : ∀ e ∈ run, key e = k) : entriesOf k run = run := by
  simpa [entriesOf] using h

theorem entriesOf_of_nodup (h : (run.map key).Nodup) (he : e ∈ run) :
    entriesOf (key e) run = [e] := by
  induction run with
  | nil => simp at he
  | cons f run ih =>
    rw [map_cons, nodup_cons] at h
    rw [entriesOf_cons]
    rcases mem_cons.mp he with rfl | he
    · have hnil : entriesOf (key e) run = [] :=
        entriesOf_eq_nil (fun x hx hk => h.1 (hk ▸ mem_map_of_mem hx))
      rw [if_pos rfl, hnil]
    · have hne : key f ≠ key e := fun hk => h.1 (hk ▸ mem_map_of_mem he)
      rw [if_neg hne, ih h.2 he]

theorem entriesOf_flatten (k : K) (chain : List (List E)) :
    entriesOf k chain.flatten = timeline k chain := by
  rw [entriesOf, filter_flatten, timeline, flatMap_def]
  rfl

@[simp] theorem timeline_nil (k : K) : timeline k ([] : List (List E)) = [] := rfl

@[simp] theorem timeline_cons (k : K) (run : List E) (chain : List (List E)) :
    timeline k (run :: chain) = entriesOf k run ++ timeline k chain := rfl

@[simp] theorem timeline_append (k : K) (chain chain' : List (List E)) :
    timeline k (chain ++ chain') = timeline k chain ++ timeline k chain' :=
  flatMap_append ..

theorem mem_timeline : e ∈ timeline k chain ↔ e ∈ chain.flatten ∧ key e = k := by
  rw [← entriesOf_flatten, mem_entriesOf]

theorem timeline_eq_nil (h : ∀ e ∈ chain.flatten, key e ≠ k) : timeline k chain = [] := by
  rw [← entriesOf_flatten]
  exact entriesOf_eq_nil h

def KeyDisjoint (chain chain' : List (List E)) : Prop :=
  ∀ e ∈ chain.flatten, ∀ e' ∈ chain'.flatten, key e ≠ key e'

theorem KeyDisjoint.timeline_or {chain' : List (List E)} (h : KeyDisjoint chain chain')
    (k : K) : timeline k chain = [] ∨ timeline k chain' = [] := by
  by_cases hk : ∃ e ∈ chain.flatten, key e = k
  · obtain ⟨e, he, rfl⟩ := hk
    exact .inr (timeline_eq_nil (fun e' he' heq => h e he e' he' heq.symm))
  · push Not at hk
    exact .inl (timeline_eq_nil hk)

/-- Neighbours without a common key may change places. -/
theorem KeyDisjoint.timeline_swap {chain' : List (List E)} (h : KeyDisjoint chain chain')
    (front back : List (List E)) (k : K) :
    timeline k (front ++ (chain' ++ (chain ++ back))) =
      timeline k (front ++ (chain ++ (chain' ++ back))) := by
  simp only [timeline_append]
  rcases h.timeline_or k with hk | hk <;> rw [hk, nil_append, nil_append]

/-- Runs ordered by rank up to disjoint neighbours keep their order for every key when sorted by
rank. -/
theorem holding_ranked {α : Type*} {run : α → List E} {rank : α → ℕ} {l l' : List α}
    (hp : l'.Perm l) (hl : l.Pairwise (fun a b => rank a < rank b ∨ KeyDisjoint [run a] [run b]))
    (hl' : l'.Pairwise (fun a b => rank a < rank b)) (k : K) :
    l'.filter (fun a => !(entriesOf k (run a)).isEmpty) =
      l.filter (fun a => !(entriesOf k (run a)).isEmpty) := by
  have hranked : (l.filter (fun a => !(entriesOf k (run a)).isEmpty)).Pairwise
      (fun a b => rank a < rank b) := by
    refine (hl.filter _).imp_of_mem ?_
    intro a b ha hb hab
    refine hab.resolve_right (fun hdis => ?_)
    have hmem : ∀ x ∈ l.filter (fun a => !(entriesOf k (run a)).isEmpty),
        ∃ e ∈ run x, key e = k := by
      intro x hx
      have hne : entriesOf k (run x) ≠ [] := by simpa using (mem_filter.mp hx).2
      obtain ⟨e, he⟩ := exists_mem_of_ne_nil _ hne
      exact ⟨e, mem_entriesOf.mp he⟩
    obtain ⟨e, he, hek⟩ := hmem a ha
    obtain ⟨e', he', hek'⟩ := hmem b hb
    exact hdis e (by simpa using he) e' (by simpa using he') (hek.trans hek'.symm)
  refine Perm.eq_of_pairwise ?_ (hl'.filter _) hranked (hp.filter _)
  intro a b _ _ hab hba
  omega

section Merged

variable [Versioned E]

theorem eq_of_height_eq {l : List E} (hd : Descending l) {a b : E} (ha : a ∈ l) (hb : b ∈ l)
    (h : height a = height b) : a = b := by
  have hdistinct : (l.map height).Nodup := pairwise_map.mpr (hd.imp ne_of_gt)
  exact inj_on_of_nodup_map hdistinct ha hb h

/-- A timeline is the only order of its records by height. -/
theorem eq_of_perm_of_heights {l m : List E} (hm : Descending m)
    (hl : l.Pairwise (fun a b => height b ≤ height a)) (hp : l.Perm m) : l = m := by
  refine Perm.eq_of_pairwise ?_ hl (hm.imp le_of_lt) hp
  intro a b ha hb hab hba
  exact eq_of_height_eq hm (hp.mem_iff.mp ha) hb (le_antisymm hba hab)

theorem nodup_of_descending [DecidableEq E] (h : ∀ k, Descending (entriesOf k run)) :
    run.Nodup := by
  rw [nodup_iff_count_le_one]
  intro e
  have hnodup : (entriesOf (key e) run).Nodup := (h (key e)).imp fun hlt heq => by simp [heq] at hlt
  rw [← count_filter (p := fun x => decide (key x = key e)) (by simp)]
  exact nodup_iff_count_le_one.mp hnodup e

theorem entriesOf_merged {merged : List E} (hp : merged.Perm chain.flatten)
    (hs : (entriesOf k merged).Pairwise (fun a b => height b ≤ height a))
    (hd : Descending (timeline k chain)) : entriesOf k merged = timeline k chain := by
  have hp' : (entriesOf k merged).Perm (timeline k chain) := by
    rw [← entriesOf_flatten]
    exact hp.filter _
  exact eq_of_perm_of_heights hd hs hp'

end Merged

end KeyedRuns
