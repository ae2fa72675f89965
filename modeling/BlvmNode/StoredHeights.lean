import BlvmNode.HeaderReplies

/-! # Searching the height index

`highest_stored_height` reads the powers of two up to the first missing one and then the midpoints
of a binary search, `stored_height_gap` the heights one, two, four, … above that answer. -/

namespace BlvmNode

variable (stored : ℕ → Bool)

def probeAbove : ℕ → ℕ → ℕ → Bool
  | 0, _, _ => false
  | fuel + 1, probe, step =>
    decide (probe < 2000000000) && (stored probe || probeAbove fuel (probe + step) (2 * step))

def storedHeightGap : Option ℕ :=
  match highestStoredHeight stored with
  | none => if probeAbove stored 32 1 1 then some 0 else none
  | some contiguous =>
    if probeAbove stored 32 (contiguous + 1) 1 then some (contiguous + 1) else none

theorem le_bisectStored (fuel lo hi : ℕ) : lo ≤ bisectStored stored fuel lo hi := by
  induction fuel generalizing lo hi with
  | zero => exact le_rfl
  | succ fuel ih =>
    simp only [bisectStored]
    split_ifs
    · exact (Nat.le_add_right _ _).trans (ih _ _)
    · exact ih _ _
    · exact le_rfl

theorem le_searchBetween {lo hi : ℕ} (h : lo ≤ hi) : lo ≤ searchBetween stored lo hi := by
  rw [searchBetween]
  split_ifs
  · exact h
  · exact le_bisectStored _ _ _ _

theorem le_searchFrom {lo hi : ℕ} (fuel : ℕ) (h : lo ≤ hi) : lo ≤ searchFrom stored fuel lo hi := by
  induction fuel generalizing lo hi with
  | zero => exact le_searchBetween _ h
  | succ fuel ih =>
    rw [searchFrom]
    split_ifs
    · exact h.trans (le_searchBetween _ (by omega))
    · exact h.trans (ih (by omega))
    · exact le_searchBetween _ h

structure FirstMissing (m : ℕ) : Prop where
  missing : stored m = false
  below : ∀ h < m, stored h = true

/-- What the two searches are documented to answer when `m` is the first missing height. -/
def SearchExact (m : ℕ) : Prop :=
  highestStoredHeight stored = (if m = 0 then none else some (m - 1)) ∧
    ∀ g, storedHeightGap stored = some g ↔ (∃ h > m, stored h = true) ∧ m = g

/-- The next multiple of `2 ^ j`: what the search reads at or above `m`. -/
def roundUp (j m : ℕ) : ℕ := (m - 1) / 2 ^ j * 2 ^ j + 2 ^ j

variable {stored} {m : ℕ}

theorem roundUp_eq {j lo : ℕ} (hdvd : 2 ^ j ∣ lo) (hlo : lo < m) (hhi : m ≤ lo + 2 ^ j) :
    roundUp j m = lo + 2 ^ j := by
  obtain ⟨c, rfl⟩ := hdvd
  have hdiv : (m - 1) / 2 ^ j = c :=
    Nat.div_eq_of_lt_le (by rw [Nat.mul_comm]; omega) (by rw [Nat.add_one_mul, Nat.mul_comm]; omega)
  rw [roundUp, hdiv, Nat.mul_comm]

theorem bisectStored_eq_iff (hm : FirstMissing stored m) {j fuel lo : ℕ} (hj : j ≤ fuel)
    (hdvd : 2 ^ j ∣ lo) (hlo : lo < m) (hhi : m ≤ lo + 2 ^ j)
    (htop : stored (lo + 2 ^ j) = false) :
    bisectStored stored fuel lo (lo + 2 ^ j) = m - 1 ↔ ∀ i ≤ j, stored (roundUp i m) = false := by
  induction j generalizing fuel lo with
  | zero =>
    have hstop : bisectStored stored fuel lo (lo + 2 ^ 0) = lo := by
      cases fuel <;> simp [bisectStored]
    simp only [hstop, Nat.le_zero, forall_eq, roundUp_eq hdvd hlo hhi, htop, iff_true]
    omega
  | succ j ih =>
    obtain ⟨fuel, rfl⟩ : ∃ f, fuel = f + 1 := ⟨fuel - 1, by omega⟩
    have hdvd' : 2 ^ j ∣ lo := (pow_dvd_pow 2 (Nat.le_succ j)).trans hdvd
    simp only [Nat.le_succ_iff, or_imp, forall_and, forall_eq, roundUp_eq hdvd hlo hhi, htop,
      and_true]
    rw [pow_succ', Nat.two_mul, ← Nat.add_assoc] at hhi htop ⊢
    have hmid : lo + (lo + 2 ^ j + 2 ^ j - lo) / 2 = lo + 2 ^ j := by omega
    simp only [bisectStored, if_pos (show lo + 1 < lo + 2 ^ j + 2 ^ j by omega), hmid]
    rcases Nat.lt_or_ge (lo + 2 ^ j) m with hbelow | habove
    · rw [if_pos (hm.below _ hbelow)]
      exact ih (by omega) (Nat.dvd_add hdvd' dvd_rfl) hbelow hhi htop
    split_ifs with hread
    -- a midpoint above the gap is stored: the answer is not below it
    · have hle := le_bisectStored stored fuel (lo + 2 ^ j) (lo + 2 ^ j + 2 ^ j)
      refine iff_of_false (by omega) (fun hall => ?_)
      have hup := hall j le_rfl
      rw [roundUp_eq hdvd' hlo habove, hread] at hup
      exact absurd hup (by decide)
    · exact ih (by omega) hdvd' hlo habove (by simpa using hread)

section
variable (hbound : ∀ h, stored h = true → h < 2000000000)
include hbound

theorem searchFrom_succ (fuel lo hi : ℕ) : searchFrom stored (fuel + 1) lo hi =
    if stored hi then searchFrom stored fuel hi (2 * hi)
    else bisectStored stored (hi - lo) lo hi := by
  rw [searchFrom]
  split_ifs with hread hfar
  · have hpast : stored (2 * hi) ≠ true := fun h => absurd (hbound _ h) (by omega)
    cases fuel <;> simp only [searchFrom, if_neg hpast]
  · rfl
  · rw [searchBetween, if_neg hread]

theorem searchFrom_eq_iff (hm : FirstMissing stored m) {k fuel : ℕ} (hfuel : 31 ≤ k + fuel)
    (hlo : 2 ^ k < m) : searchFrom stored fuel (2 ^ k) (2 ^ k + 2 ^ k) = m - 1 ↔
      ∀ j, 2 ^ j < m → stored (roundUp j m) = false := by
  induction fuel generalizing k with
  | zero =>
    have hmax := hbound (m - 1) (hm.below _ (Nat.sub_lt (Nat.zero_lt_of_lt hlo) one_pos))
    have hpow : 2 ^ 31 ≤ 2 ^ k := Nat.pow_le_pow_right two_pos hfuel
    omega
  | succ fuel ih =>
    have hnext : 2 ^ (k + 1) = 2 ^ k + 2 ^ k := by rw [pow_succ', Nat.two_mul]
    rw [searchFrom_succ hbound, Nat.two_mul]
    split_ifs with hread
    · rcases Nat.lt_or_ge (2 ^ k + 2 ^ k) m with hmore | hpast
      · rw [← hnext] at hmore ⊢
        exact ih (by omega) hmore
      · have hle := le_searchFrom stored fuel (Nat.le_add_left (2 ^ k + 2 ^ k) (2 ^ k + 2 ^ k))
        refine iff_of_false (by omega) (fun hall => ?_)
        have hup := hall k hlo
        rw [roundUp_eq dvd_rfl hlo hpast, hread] at hup
        exact absurd hup (by decide)
    · have hhi : m ≤ 2 ^ k + 2 ^ k := not_lt.mp (fun h => hread (hm.below _ h))
      have hj (j : ℕ) : 2 ^ j < m ↔ j ≤ k :=
        ⟨fun h => Nat.lt_succ_iff.mp ((Nat.pow_lt_pow_iff_right one_lt_two).mp
          (h.trans_le (hnext ▸ hhi))), fun h => (Nat.pow_le_pow_right two_pos h).trans_lt hlo⟩
      simp only [hj]
      exact bisectStored_eq_iff hm (by rw [Nat.add_sub_cancel]; exact Nat.lt_two_pow_self.le)
        dvd_rfl hlo hhi (by simpa using hread)

theorem highestStoredHeight_eq_iff (hm : FirstMissing stored m) :
    highestStoredHeight stored = (if m = 0 then none else some (m - 1)) ↔
      ∀ j, 2 ^ j < m → stored (roundUp j m) = false := by
  rw [highestStoredHeight]
  rcases Nat.eq_zero_or_pos m with rfl | hpos
  · simp [hm.missing]
  rw [if_pos (hm.below 0 hpos), if_neg hpos.ne', Option.some_inj, searchFrom_succ hbound]
  rcases Nat.lt_or_ge 1 m with hone | hone
  · rw [if_pos (hm.below 1 hone)]
    exact searchFrom_eq_iff hbound hm (k := 0) le_rfl hone
  · obtain rfl : m = 1 := by omega
    simp [hm.missing, bisectStored]

theorem probeAbove_iff (c i fuel : ℕ) : probeAbove stored fuel (c + 2 ^ i) (2 ^ i) = true ↔
    ∃ j < fuel, stored (c + 2 ^ (i + j)) = true := by
  induction fuel generalizing i with
  | zero => simp [probeAbove]
  | succ fuel ih =>
    rw [probeAbove, Nat.add_assoc, ← Nat.two_mul, ← pow_succ', Bool.and_eq_true, Bool.or_eq_true,
      ih, decide_eq_true_iff]
    constructor
    · rintro ⟨-, h | ⟨j, hj, h⟩⟩
      · exact ⟨0, Nat.succ_pos _, h⟩
      · exact ⟨j + 1, Nat.succ_lt_succ hj, by rwa [← Nat.succ_add_eq_add_succ]⟩
    · rintro ⟨j, hj, h⟩
      have hpow : 2 ^ i ≤ 2 ^ (i + j) := Nat.pow_le_pow_right two_pos (Nat.le_add_right _ _)
      refine ⟨by have := hbound _ h; omega, ?_⟩
      cases j with
      | zero => exact .inl h
      | succ j => exact .inr ⟨j, Nat.lt_of_succ_lt_succ hj, by rwa [Nat.succ_add_eq_add_succ]⟩

theorem storedHeightGap_eq_some (hm : highestStoredHeight stored =
    if m = 0 then none else some (m - 1)) (g : ℕ) :
    storedHeightGap stored = some g ↔ (∃ i, stored (m - 1 + 2 ^ i) = true) ∧ m = g := by
  have hprobe : probeAbove stored 32 (m - 1 + 1) 1 = true ↔ ∃ i, stored (m - 1 + 2 ^ i) = true := by
    rw [← pow_zero 2, probeAbove_iff hbound]
    simp only [Nat.zero_add]
    refine ⟨fun ⟨i, _, hi⟩ => ⟨i, hi⟩, fun ⟨i, hi⟩ => ⟨i, ?_, hi⟩⟩
    by_contra hlarge
    have hpow : 2 ^ 32 ≤ 2 ^ i := Nat.pow_le_pow_right two_pos (not_lt.mp hlarge)
    have := hbound _ hi
    omega
  rw [← hprobe, storedHeightGap, hm]
  rcases Nat.eq_zero_or_pos m with rfl | hpos
  · simp
  · simp [hpos.ne', Nat.sub_add_cancel hpos]

theorem exists_firstMissing : ∃ m, FirstMissing stored m := by
  have hex : ∃ m, ¬ stored m = true := ⟨2000000000, fun h => absurd (hbound _ h) (by decide)⟩
  exact ⟨Nat.find hex, by simpa using Nat.find_spec hex,
    fun h hlt => not_not.mp (Nat.find_min hex hlt)⟩

/-- Both searches are right exactly when no multiple of a power of two that the first one reads
above the gap is stored, and the second one meets a stored height if there is any. -/
theorem stored_height_search_exact_iff : ∃ m, FirstMissing stored m ∧ (SearchExact stored m ↔
    (∀ j, 2 ^ j < m → stored (roundUp j m) = false) ∧
      ((∃ h > m, stored h = true) → ∃ i, stored (m - 1 + 2 ^ i) = true)) := by
  obtain ⟨m, hm⟩ := exists_firstMissing hbound
  refine ⟨m, hm, ?_⟩
  rw [SearchExact, ← highestStoredHeight_eq_iff hbound hm]
  refine and_congr_right (fun hhigh => ?_)
  have habove : (∃ i, stored (m - 1 + 2 ^ i) = true) → ∃ h > m, stored h = true := by
    rintro ⟨i, hi⟩
    have hpos := Nat.two_pow_pos i
    have hne : m - 1 + 2 ^ i ≠ m := fun h => by simp [h, hm.missing] at hi
    exact ⟨_, by omega, hi⟩
  simp only [storedHeightGap_eq_some hbound hhigh, and_congr_left_iff, forall_eq']
  exact ⟨Iff.mpr, fun h => ⟨habove, h⟩⟩

end

theorem stored_height_search_exact_three : ∃ m, FirstMissing (fun h => decide (h < 3)) m ∧
    (SearchExact (fun h => decide (h < 3)) m ↔
      (∀ j, 2 ^ j < m → decide (roundUp j m < 3) = false) ∧
        ((∃ h > m, decide (h < 3) = true) → ∃ i, decide (m - 1 + 2 ^ i < 3) = true)) :=
  stored_height_search_exact_iff (fun h hh => (of_decide_eq_true hh).trans (by decide))

/-- With 0, 1, 2 and 4 stored the search answers 4, and with 0 and 3 the gap at 1 is not seen. -/
theorem stored_height_search_skips :
    FirstMissing (fun h => decide (h ∈ [0, 1, 2, 4])) 3 ∧
    highestStoredHeight (fun h => decide (h ∈ [0, 1, 2, 4])) = some 4 ∧
    FirstMissing (fun h => decide (h ∈ [0, 3])) 1 ∧
    storedHeightGap (fun h => decide (h ∈ [0, 3])) = none :=
  ⟨⟨by decide, by decide⟩, by decide, ⟨by decide, by decide⟩, by decide⟩

end BlvmNode
