import Mathlib.Data.List.Sort
import Mathlib.Tactic

/-!
# Fixed-width decimal numerals

Numerals of one width are ordered as strings exactly as the numbers are; across widths they are
not.
-/

namespace Decimal

open List

/-- The last `w` decimal digits of `n`, the most significant one first. -/
def digits : ℕ → ℕ → List Char
  | 0, _ => []
  | w + 1, n => Char.ofNat (48 + n / 10 ^ w % 10) :: digits w n

/-- The number of digits of `n`, for the numbers of a machine word. -/
def digitCount (n : ℕ) : ℕ := (List.range 20).findIdx (fun w => decide (n < 10 ^ w))

theorem length_digits (w n : ℕ) : (digits w n).length = w := by
  induction w with
  | zero => rfl
  | succ w ih => simp [digits, ih]

theorem digits_mod {v w : ℕ} (h : v ≤ w) (n : ℕ) : digits v (n % 10 ^ w) = digits v n := by
  induction v with
  | zero => rfl
  | succ v ih =>
    have hpow : 10 ^ w = 10 ^ v * 10 ^ (w - v) := by
      rw [← pow_add]
      congr 1
      omega
    have hdvd : 10 ∣ 10 ^ (w - v) := dvd_pow_self 10 (by omega)
    rw [digits, digits, ih (by omega)]
    rw [hpow, Nat.mod_mul_right_div_self, Nat.mod_mod_of_dvd _ hdvd]

theorem digit_lt {a b : ℕ} (h : a < b) (hb : b < 10) :
    Char.ofNat (48 + a) < Char.ofNat (48 + b) := by
  have hall : ∀ b < 10, ∀ a < b, Char.ofNat (48 + a) < Char.ofNat (48 + b) := by decide
  exact hall b hb a h

theorem digits_lt {w n m : ℕ} (h : n < m) (hm : m < 10 ^ w) : digits w n < digits w m := by
  induction w generalizing n m with
  | zero =>
    rw [pow_zero] at hm
    omega
  | succ w ih =>
    have hpos : 0 < 10 ^ w := by positivity
    have hmtop : m / 10 ^ w < 10 := by
      rw [Nat.div_lt_iff_lt_mul hpos, ← pow_succ']
      exact hm
    have hle : n / 10 ^ w ≤ m / 10 ^ w := Nat.div_le_div_right h.le
    rw [digits, digits, cons_lt_cons_iff, Nat.mod_eq_of_lt hmtop,
      Nat.mod_eq_of_lt (hle.trans_lt hmtop)]
    rcases hle.lt_or_eq with hlt | heq
    · exact .inl (digit_lt hlt hmtop)
    · refine .inr ⟨by rw [heq], ?_⟩
      rw [← digits_mod le_rfl n, ← digits_mod le_rfl m]
      apply ih _ (Nat.mod_lt m hpos)
      have hn := Nat.div_add_mod n (10 ^ w)
      have hm' := Nat.div_add_mod m (10 ^ w)
      rw [heq] at hn
      omega

theorem append_lt_append {l m s t : List Char} (hlen : l.length = m.length) (h : l < m) :
    l ++ s < m ++ t := by
  induction l generalizing m with
  | nil =>
    rw [length_nil] at hlen
    rw [length_eq_zero_iff.mp hlen.symm] at h
    exact absurd h (not_lt_nil _)
  | cons a l ih =>
    cases m with
    | nil => simp at hlen
    | cons b m =>
      rw [cons_append, cons_append, cons_lt_cons_iff]
      rw [cons_lt_cons_iff] at h
      refine h.imp_right (fun hlm => ⟨hlm.1, ?_⟩)
      exact ih (by simpa using hlen) hlm.2

theorem digitCount_le {n w : ℕ} (h : n < 10 ^ w) : digitCount n ≤ w := by
  by_contra hlt
  have hfalse := not_of_lt_findIdx (not_le.mp hlt)
  simp [h] at hfalse

end Decimal
