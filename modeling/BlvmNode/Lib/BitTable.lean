import Mathlib.Data.List.Basic
import Mathlib.Tactic

/-!
# Bit tables with several probes per key

The storage of a Bloom filter: 64-bit words in which a key sets and later tests a list of
positions (word number, bit number). A key whose positions were set always tests positive.
-/

namespace BitTable

open List

def setBit (table : List (BitVec 64)) (pos : ℕ × ℕ) : List (BitVec 64) :=
  table.modify pos.1 (fun word => word ||| (1#64 <<< pos.2))

def testBit (table : List (BitVec 64)) (pos : ℕ × ℕ) : Bool :=
  !((table.getD pos.1 0 &&& (1#64 <<< pos.2)) == 0)

def setAll (table : List (BitVec 64)) (probes : List (ℕ × ℕ)) : List (BitVec 64) :=
  probes.foldl setBit table

def testAll (table : List (BitVec 64)) (probes : List (ℕ × ℕ)) : Bool :=
  probes.all (testBit table)

variable {w s : ℕ} (word : BitVec w)

theorem getLsbD_one_shiftLeft (hs : s < w) (i : ℕ) : (1#w <<< s).getLsbD i = decide (i = s) := by
  rw [← BitVec.twoPow_eq, BitVec.getLsbD_twoPow]
  simp [hs, eq_comm]

theorem getLsbD_or_mask (hs : s < w) (i : ℕ) :
    (word ||| (1#w <<< s)).getLsbD i = (word.getLsbD i || decide (i = s)) := by
  rw [BitVec.getLsbD_or, getLsbD_one_shiftLeft hs]

theorem mask_ne_zero_iff (hs : s < w) : word &&& (1#w <<< s) ≠ 0 ↔ word.getLsbD s := by
  have hself := getLsbD_one_shiftLeft hs s
  rw [← BitVec.twoPow_eq] at hself ⊢
  rw [BitVec.and_twoPow]
  split_ifs with hbit
  · refine iff_of_true (fun hzero => ?_) hbit
    simp [hzero] at hself
  · exact iff_of_false (not_not.mpr rfl) hbit

variable (table : List (BitVec 64)) {pos q : ℕ × ℕ}

theorem testBit_iff (hs : pos.2 < 64) : testBit table pos ↔ (table.getD pos.1 0).getLsbD pos.2 := by
  rw [← mask_ne_zero_iff _ hs]
  simp [testBit]

@[simp] theorem length_setBit (pos : ℕ × ℕ) :
    (setBit table pos).length = table.length := by simp [setBit]

theorem setAll_cons (p : ℕ × ℕ) (probes : List (ℕ × ℕ)) :
    setAll table (p :: probes) = setAll (setBit table p) probes := rfl

theorem getD_setBit (pos : ℕ × ℕ) (i : ℕ) (hlen : pos.1 < table.length) :
    (setBit table pos).getD i 0 =
      if i = pos.1 then table.getD i 0 ||| (1#64 <<< pos.2) else table.getD i 0 := by
  simp only [setBit, getD_eq_getElem?_getD, getElem?_modify]
  by_cases hi : i = pos.1
  · subst hi
    simp [getElem?_eq_getElem hlen]
  · simp [hi, Ne.symm hi]

theorem testBit_setBit_self {table : List (BitVec 64)}
    (hlen : pos.1 < table.length) (hs : pos.2 < 64) : testBit (setBit table pos) pos := by
  rw [testBit_iff _ hs, getD_setBit _ _ _ hlen, if_pos rfl, BitVec.getLsbD_or,
    BitVec.getLsbD_shiftLeft]
  simp [hs]

theorem testBit_setBit_mono {table : List (BitVec 64)} (hlen : pos.1 < table.length) (hs : q.2 < 64)
    (h : testBit table q) : testBit (setBit table pos) q := by
  rw [testBit_iff _ hs] at h ⊢
  rw [getD_setBit _ _ _ hlen]
  split_ifs
  · rw [BitVec.getLsbD_or, h, Bool.true_or]
  · exact h

/-- Positions a table of the given length can hold. -/
def InRange (len : ℕ) (probes : List (ℕ × ℕ)) : Prop := ∀ p ∈ probes, p.1 < len ∧ p.2 < 64

theorem InRange.tail {table : List (BitVec 64)} {p : ℕ × ℕ} {probes : List (ℕ × ℕ)}
    (h : InRange table.length (p :: probes)) : InRange (setBit table p).length probes := by
  intro x hx
  simpa using h x (mem_cons_of_mem p hx)

section

variable {table : List (BitVec 64)} {probes : List (ℕ × ℕ)} (hr : InRange table.length probes)
include hr

theorem testBit_setAll_mono (hs : q.2 < 64) (h : testBit table q) :
    testBit (setAll table probes) q := by
  induction probes generalizing table with
  | nil => exact h
  | cons p probes ih =>
    have hp := hr p mem_cons_self
    rw [setAll_cons]
    exact ih hr.tail (testBit_setBit_mono hp.1 hs h)

theorem testBit_setAll_of_mem (hq : q ∈ probes) : testBit (setAll table probes) q := by
  induction probes generalizing table with
  | nil => simp at hq
  | cons p probes ih =>
    have hp := hr p mem_cons_self
    rw [setAll_cons]
    rcases mem_cons.mp hq with rfl | hq
    · exact testBit_setAll_mono hr.tail hp.2 (testBit_setBit_self hp.1 hp.2)
    · exact ih hr.tail hq

end

section Keys

variable {κ : Type*} (probes : κ → List (ℕ × ℕ))

def insertKeys (table : List (BitVec 64)) (keys : List κ) : List (BitVec 64) :=
  keys.foldl (fun t k => setAll t (probes k)) table

variable {probes} {keys : List κ} {k : κ}

theorem insertKeys_cons (table : List (BitVec 64)) (k : κ) (keys : List κ) :
    insertKeys probes table (k :: keys) = insertKeys probes (setAll table (probes k)) keys := rfl

theorem insertKeys_eq_setAll (table : List (BitVec 64)) (keys : List κ) :
    insertKeys probes table keys = setAll table (keys.flatMap probes) :=
  foldl_flatMap.symm

theorem testAll_insertKeys {table : List (BitVec 64)} (hr : ∀ k, InRange table.length (probes k))
    (hk : k ∈ keys) : testAll (insertKeys probes table keys) (probes k) := by
  have hall : InRange table.length (keys.flatMap probes) := by
    intro q hq
    obtain ⟨k', -, hq⟩ := mem_flatMap.mp hq
    exact hr k' q hq
  rw [insertKeys_eq_setAll, testAll, all_eq_true]
  exact fun q hq => testBit_setAll_of_mem hall (mem_flatMap.mpr ⟨k, hk, hq⟩)

end Keys

end BitTable
