import Mathlib.Data.List.Basic
import Mathlib.Logic.Function.Iterate
import Mathlib.Tactic

/-!
# Levels of a Merkle tree

A level is combined in pairs, and the last node of a level of odd width with itself. The widths
depend on the number of leaves only; the root is what is left when one node is.
-/

namespace MerkleTree

open List

def width (n height : ℕ) : ℕ := (n + 2 ^ height - 1) / 2 ^ height

variable {height n pos : ℕ}

theorem lt_width_iff : pos < width n height ↔ pos * 2 ^ height < n := by
  have hpow : 0 < 2 ^ height := Nat.two_pow_pos height
  rw [width, Nat.lt_iff_add_one_le, Nat.le_div_iff_mul_le hpow, Nat.add_mul]
  omega

theorem width_zero (n : ℕ) : width n 0 = n := by
  simp [width]

theorem lt_width_succ : pos < width n (height + 1) ↔ pos * 2 < width n height := by
  rw [lt_width_iff, lt_width_iff, pow_succ', Nat.mul_assoc]

theorem width_succ (n height : ℕ) : width n (height + 1) = (width n height + 1) / 2 := by
  apply eq_of_forall_lt_iff
  intro pos
  rw [lt_width_succ]
  omega

theorem width_pos (hn : 0 < n) (height : ℕ) : 0 < width n height := by
  rw [lt_width_iff]
  simpa using hn

theorem width_le_width {h k : ℕ} (hk : h ≤ k) : width n k ≤ width n h := by
  induction k, hk using Nat.le_induction with
  | base => exact le_rfl
  | succ k _ ih =>
    rw [width_succ]
    omega

variable {α : Type*} (merge : α → α → α)

def pairUp : List α → List α
  | [] => []
  | [a] => [merge a a]
  | a :: b :: rest => merge a b :: pairUp rest

theorem length_pairUp : ∀ l : List α, (pairUp merge l).length = (l.length + 1) / 2
  | [] => by simp [pairUp]
  | [_] => by simp [pairUp]
  | a :: b :: rest => by
      rw [pairUp, length_cons, length_pairUp rest, length_cons, length_cons]
      omega

theorem getElem?_pairUp : ∀ (l : List α) (pos : ℕ), (pairUp merge l)[pos]? =
    (l[pos * 2]?).map (fun a => merge a ((l[pos * 2 + 1]?).getD a))
  | [], pos => rfl
  | [a], pos => by
      cases pos with
      | zero => rfl
      | succ pos =>
        have hpos : (pos + 1) * 2 = pos * 2 + 1 + 1 := by omega
        simp [pairUp, hpos]
  | a :: b :: rest, pos => by
      cases pos with
      | zero => rfl
      | succ pos =>
        have hpos : (pos + 1) * 2 = pos * 2 + 1 + 1 := by omega
        rw [pairUp, getElem?_cons_succ, getElem?_pairUp rest pos, hpos]
        simp only [getElem?_cons_succ]

def level (height : ℕ) (leaves : List α) : List α := (pairUp merge)^[height] leaves

theorem level_succ (height : ℕ) (leaves : List α) :
    level merge (height + 1) leaves = pairUp merge (level merge height leaves) :=
  Function.iterate_succ_apply' _ _ _

theorem length_level (height : ℕ) (leaves : List α) :
    (level merge height leaves).length = width leaves.length height := by
  induction height with
  | zero => exact (width_zero _).symm
  | succ height ih => rw [level_succ, length_pairUp, ih, width_succ]

/-- Levels are combined until one node is left; the leaves bound their number. -/
def reduce : ℕ → List α → List α
  | 0, nodes => nodes
  | fuel + 1, nodes => if nodes.length ≤ 1 then nodes else reduce fuel (pairUp merge nodes)

def root (leaves : List α) : Option α := (reduce merge leaves.length leaves).head?

theorem reduce_eq_level {fuel : ℕ} {nodes : List α} (hfuel : height ≤ fuel)
    (hlow : ∀ k < height, 1 < width nodes.length k) (htop : width nodes.length height ≤ 1) :
    reduce merge fuel nodes = level merge height nodes := by
  induction fuel generalizing height nodes with
  | zero =>
    obtain rfl : height = 0 := Nat.le_zero.mp hfuel
    rfl
  | succ fuel ih =>
    rw [reduce]
    cases height with
    | zero =>
      rw [width_zero] at htop
      rw [if_pos htop]
      rfl
    | succ height =>
      have hlong := hlow 0 (Nat.succ_pos _)
      rw [width_zero] at hlong
      have hwidth : ∀ k, width (pairUp merge nodes).length k = width nodes.length (k + 1) := by
        intro k
        have hlevel := length_level merge (k + 1) nodes
        rw [level, Function.iterate_succ_apply] at hlevel
        rw [← length_level merge k (pairUp merge nodes), level, hlevel]
      rw [if_neg (by omega), ih (Nat.le_of_succ_le_succ hfuel)]
      · exact (Function.iterate_succ_apply _ _ _).symm
      · intro k hk
        rw [hwidth]
        exact hlow (k + 1) (Nat.succ_lt_succ hk)
      · rw [hwidth]
        exact htop

theorem lt_length_of_width (hlow : ∀ k < height, 1 < width n k) (hn : 0 < n) : height < n := by
  cases height with
  | zero => exact hn
  | succ height =>
    have hwide := hlow height (Nat.lt_succ_self _)
    rw [lt_width_iff] at hwide
    have hpow : height < 2 ^ height := Nat.lt_two_pow_self
    omega

/-- The root is the node of the lowest level of width one. -/
theorem root_eq {leaves : List α} (hne : leaves ≠ [])
    (hlow : ∀ k < height, 1 < width leaves.length k) (htop : width leaves.length height ≤ 1) :
    root merge leaves = (level merge height leaves)[0]? := by
  have hlen : 0 < leaves.length := length_pos_iff.mpr hne
  rw [root, reduce_eq_level merge (lt_length_of_width hlow hlen).le hlow htop, head?_eq_getElem?]

end MerkleTree
