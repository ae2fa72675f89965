import Mathlib.Data.Finset.Card
import Mathlib.Logic.Relation
import Mathlib.Tactic

/-!
# Searching a graph with a stack

A search pops nodes from a stack, skips those it has seen and pushes the successors of the others.
It takes at most one round for each node, so a bound on the nodes is enough fuel, and it finds
exactly the nodes that can be reached from the stack.
-/

namespace Worklist

open List

variable {α : Type*} [DecidableEq α] (next : α → List α) {x : α} (fuel : ℕ)

/-- `fuel` bounds the nodes that are found; the nodes seen so far come latest first. -/
def explore : ℕ → List α → List α → List α
  | 0, _, seen => seen
  | fuel + 1, stack, seen =>
    match stack.dropWhile (fun x => decide (x ∈ seen)) with
    | [] => seen
    | x :: rest => explore fuel ((next x).reverse ++ rest) (x :: seen)

def Reaches (a b : α) : Prop := Relation.ReflTransGen (fun x y => y ∈ next x) a b

theorem subset_explore (stack : List α) {seen : List α} (h : x ∈ seen) :
    x ∈ explore next fuel stack seen := by
  induction fuel generalizing stack seen with
  | zero => exact h
  | succ fuel ih =>
    rw [explore]
    split
    · exact h
    · exact ih _ (mem_cons_of_mem _ h)

theorem reaches_of_mem_explore (stack seen : List α)
    (h : x ∈ explore next fuel stack seen) : x ∈ seen ∨ ∃ s ∈ stack, Reaches next s x := by
  induction fuel generalizing stack seen with
  | zero => exact .inl h
  | succ fuel ih =>
    rw [explore] at h
    split at h
    · exact .inl h
    next y rest hdrop =>
      have hsub : ∀ z ∈ y :: rest, z ∈ stack := by
        intro z hz
        rw [← hdrop] at hz
        exact dropWhile_subset _ hz
      rcases ih _ _ h with hseen | ⟨s, hs, hreach⟩
      · rcases mem_cons.mp hseen with rfl | hseen
        · exact .inr ⟨x, hsub x mem_cons_self, Relation.ReflTransGen.refl⟩
        · exact .inl hseen
      · rcases mem_append.mp hs with hs | hs
        · refine .inr ⟨y, hsub y mem_cons_self, ?_⟩
          exact Relation.ReflTransGen.head (mem_reverse.mp hs) hreach
        · exact .inr ⟨s, hsub s (mem_cons_of_mem y hs), hreach⟩

variable {next}

/-- With fuel for every unseen node the result holds the stack and is closed under successors. -/
theorem explore_closed {nodes : Finset α} (hnext : ∀ x ∈ nodes, ∀ y ∈ next x, y ∈ nodes)
    {fuel : ℕ} {stack seen : List α} (hstack : ∀ x ∈ stack, x ∈ nodes)
    (hfuel : (nodes \ seen.toFinset).card ≤ fuel)
    (hseen : ∀ x ∈ seen, ∀ y ∈ next x, y ∈ seen ∨ y ∈ stack) :
    (∀ x ∈ stack, x ∈ explore next fuel stack seen) ∧
      ∀ x ∈ explore next fuel stack seen, ∀ y ∈ next x, y ∈ explore next fuel stack seen := by
  induction fuel generalizing stack seen with
  | zero =>
    have hempty := Finset.card_eq_zero.mp (Nat.le_zero.mp hfuel)
    have hall : ∀ x ∈ nodes, x ∈ seen := fun x hx =>
      mem_toFinset.mp (Finset.sdiff_eq_empty_iff_subset.mp hempty hx)
    refine ⟨fun x hx => hall x (hstack x hx), fun x hx y hy => ?_⟩
    exact (hseen x hx y hy).elim id (fun hy => hall y (hstack y hy))
  | succ fuel ih =>
    have hskip : ∀ x ∈ stack, x ∈ seen ∨ x ∈ stack.dropWhile (fun x => decide (x ∈ seen)) := by
      intro x hx
      rw [← takeWhile_append_dropWhile (p := fun x => decide (x ∈ seen)) (l := stack)] at hx
      rcases mem_append.mp hx with hx | hx
      · exact .inl (of_decide_eq_true (all_eq_true.mp all_takeWhile x hx))
      · exact .inr hx
    rw [explore]
    split
    next hdrop =>
      rw [hdrop] at hskip
      have hall : ∀ x ∈ stack, x ∈ seen := fun x hx => (hskip x hx).resolve_right not_mem_nil
      exact ⟨hall, fun x hx y hy => (hseen x hx y hy).elim id (hall y)⟩
    next z rest hdrop =>
      rw [hdrop] at hskip
      have hsub : ∀ x ∈ z :: rest, x ∈ stack := by
        intro x hx
        rw [← hdrop] at hx
        exact dropWhile_subset _ hx
      have hz : z ∉ seen := by
        have hhead := head?_dropWhile_not (fun x => decide (x ∈ seen)) stack
        rw [hdrop] at hhead
        simpa using hhead
      have hznode : z ∈ nodes := hstack z (hsub z mem_cons_self)
      have hstack' : ∀ x ∈ (next z).reverse ++ rest, x ∈ nodes := by
        rw [forall_mem_append]
        exact ⟨fun x hx => hnext z hznode x (mem_reverse.mp hx),
          fun x hx => hstack x (hsub x (mem_cons_of_mem z hx))⟩
      have hfuel' : (nodes \ (z :: seen).toFinset).card ≤ fuel := by
        have hlt : (nodes \ (z :: seen).toFinset).card < (nodes \ seen.toFinset).card := by
          rw [toFinset_cons, Finset.sdiff_insert]
          exact Finset.card_erase_lt_of_mem (by simp [hznode, hz])
        omega
      have hmoved : ∀ x ∈ stack, x ∈ z :: seen ∨ x ∈ rest := by
        intro x hx
        rcases hskip x hx with hx | hx
        · exact .inl (mem_cons_of_mem z hx)
        · rcases mem_cons.mp hx with rfl | hx
          · exact .inl mem_cons_self
          · exact .inr hx
      have hseen' : ∀ x ∈ z :: seen, ∀ y ∈ next x, y ∈ z :: seen ∨
          y ∈ (next z).reverse ++ rest := by
        intro x hx y hy
        rcases mem_cons.mp hx with rfl | hx
        · exact .inr (mem_append_left _ (mem_reverse.mpr hy))
        · rcases hseen x hx y hy with hy | hy
          · exact .inl (mem_cons_of_mem z hy)
          · exact (hmoved y hy).imp_right (mem_append_right _)
      obtain ⟨hin, hclosed⟩ := ih hstack' hfuel' hseen'
      refine ⟨fun x hx => ?_, hclosed⟩
      rcases hmoved x hx with hx | hx
      · exact subset_explore next fuel _ hx
      · exact hin x (mem_append_right _ hx)

theorem mem_explore_iff {nodes : Finset α} (hnext : ∀ x ∈ nodes, ∀ y ∈ next x, y ∈ nodes)
    {fuel : ℕ} {stack seen : List α} (hstack : ∀ x ∈ stack, x ∈ nodes) (hfuel : nodes.card ≤ fuel)
    (hseen : ∀ x ∈ seen, ∀ y ∈ next x, y ∈ seen) :
    x ∈ explore next fuel stack seen ↔ x ∈ seen ∨ ∃ s ∈ stack, Reaches next s x := by
  obtain ⟨hin, hclosed⟩ := @explore_closed α _ next nodes hnext fuel stack seen hstack
    ((Finset.card_le_card Finset.sdiff_subset).trans hfuel)
      (fun x hx y hy => .inl (hseen x hx y hy))
  constructor
  · exact reaches_of_mem_explore next fuel stack seen
  · rintro (hx | ⟨s, hs, hreach⟩)
    · exact subset_explore next fuel stack hx
    · induction hreach with
      | refl => exact hin s hs
      | tail _ hstep ih => exact hclosed _ ih _ hstep

end Worklist
