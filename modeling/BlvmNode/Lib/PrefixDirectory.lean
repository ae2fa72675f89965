import Mathlib.Data.List.Basic
import Mathlib.Tactic

/-!
# Prefix directories over sorted lists

A directory maps each prefix to the position of the first element with that prefix. It is
filled by one pass over a list sorted by prefix; the slice between two neighbouring bucket
starts is exactly the elements with that prefix.
-/

namespace PrefixDirectory

open List

variable {α : Type*} (pre : α → ℕ) (numBuckets : ℕ)

/-- The single pass: buckets up to the prefix of an element start at its position, the rest past the
last one. -/
def bucketStarts : ℕ → ℕ → List α → List ℕ
  | i, cur, [] => List.replicate (numBuckets + 1 - cur) i
  | i, cur, e :: es =>
    List.replicate (pre e + 1 - cur) i ++ bucketStarts (i + 1) (max cur (pre e + 1)) es

def slice (lo hi : ℕ) (l : List α) : List α := (l.take hi).drop lo

variable {pre numBuckets} {es : List α}

theorem countP_eq_zero_of_le {e : α} {b : ℕ} (hb : b ≤ pre e)
    (hs : ∀ x ∈ es, pre e ≤ pre x) : (e :: es).countP (fun x => decide (pre x < b)) = 0 := by
  rw [countP_eq_zero]
  intro x hx
  rcases mem_cons.mp hx with rfl | hx
  · simpa using hb
  · simpa using hb.trans (hs x hx)

theorem bucketStarts_get (es : List α) (i cur b : ℕ)
    (hs : es.Pairwise (fun x y => pre x ≤ pre y)) (hlt : ∀ x ∈ es, pre x < numBuckets)
    (hcur : cur ≤ b) (hb : b ≤ numBuckets) :
    (bucketStarts pre numBuckets i cur es)[b - cur]? =
      some (i + es.countP (fun x => decide (pre x < b))) := by
  induction es generalizing i cur with
  | nil =>
    simp only [bucketStarts, countP_nil, Nat.add_zero]
    rw [getElem?_replicate, if_pos (by omega)]
  | cons e es ih =>
    have hhead : ∀ x ∈ es, pre e ≤ pre x := fun x hx => rel_of_pairwise_cons hs hx
    simp only [bucketStarts]
    by_cases hbe : b ≤ pre e
    · rw [getElem?_append_left (by simp; omega), getElem?_replicate,
        if_pos (by omega), countP_eq_zero_of_le hbe hhead, Nat.add_zero]
    · have hidx : b - cur - (pre e + 1 - cur) = b - max cur (pre e + 1) := by omega
      rw [getElem?_append_right (by simp; omega), length_replicate, hidx,
        ih (i + 1) (max cur (pre e + 1)) hs.tail
          (fun x hx => hlt x (mem_cons_of_mem e hx)) (by omega)]
      rw [countP_cons_of_pos (by simpa using hbe)]
      congr 1
      omega

theorem le_of_mem_bucketStarts {b : ℕ} (es : List α) (i cur : ℕ)
    (hb : b ∈ bucketStarts pre numBuckets i cur es) : b ≤ i + es.length := by
  induction es generalizing i cur with
  | nil => exact (eq_of_mem_replicate hb).le
  | cons e es ih =>
    rw [length_cons]
    rcases mem_append.mp hb with hb | hb
    · have := eq_of_mem_replicate hb
      omega
    · have := ih _ _ hb
      omega

theorem slice_countP (es : List α) (p : ℕ) (hs : es.Pairwise (fun x y => pre x ≤ pre y)) :
    slice (es.countP (fun x => decide (pre x < p))) (es.countP (fun x => decide (pre x < p + 1)))
      es = es.filter (fun x => decide (pre x = p)) := by
  induction es with
  | nil => rfl
  | cons e es ih =>
    have hhead : ∀ x ∈ es, pre e ≤ pre x := fun x hx => rel_of_pairwise_cons hs hx
    rcases Nat.lt_trichotomy (pre e) p with hlt | heq | hgt
    · rw [countP_cons_of_pos (by simpa using hlt),
        countP_cons_of_pos (by simp; omega), filter_cons_of_neg (by simp; omega),
        ← ih hs.tail]
      simp [slice]
    · have hzero := countP_eq_zero_of_le heq.ge hhead
      have ih' := ih hs.tail
      rw [← countP_cons_of_neg (a := e) (by simp; omega), hzero] at ih'
      rw [hzero, countP_cons_of_pos (by simp; omega),
        filter_cons_of_pos (by simpa using heq), ← ih']
      simp [slice]
    · rw [countP_eq_zero_of_le hgt.le hhead, countP_eq_zero_of_le hgt hhead]
      symm
      simp only [slice, take_zero, drop_nil, filter_eq_nil_iff]
      intro x hx
      rcases mem_cons.mp hx with rfl | hx
      · simp; omega
      · have := hhead x hx
        simp; omega

end PrefixDirectory
