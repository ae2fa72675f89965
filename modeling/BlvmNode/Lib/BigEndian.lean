import Mathlib.Data.List.Lex
import Mathlib.Tactic

/-!
# Big-endian bytes

The bytes of a number in a field of fixed width, most significant first. Within one width the
bytes determine the number and compare like it.
-/

namespace BigEndian

open List

def bytes : ℕ → ℕ → List (BitVec 8)
  | 0, _ => []
  | width + 1, n => BitVec.ofNat 8 (n / 256 ^ width) :: bytes width n

def value : List (BitVec 8) → ℕ
  | [] => 0
  | b :: bs => b.toNat * 256 ^ bs.length + value bs

@[simp] theorem length_bytes (width n : ℕ) : (bytes width n).length = width := by
  induction width with
  | zero => rfl
  | succ width ih => rw [bytes, length_cons, ih]

theorem bytes_add (width width' n : ℕ) :
    bytes (width + width') n = bytes width (n / 256 ^ width') ++ bytes width' n := by
  induction width with
  | zero => rw [Nat.zero_add, bytes, nil_append]
  | succ width ih =>
    rw [Nat.succ_add, bytes, ih, bytes, cons_append, Nat.div_div_eq_div_mul, ← pow_add,
      Nat.add_comm width']

theorem value_bytes (width n : ℕ) : value (bytes width n) = n % 256 ^ width := by
  induction width with
  | zero => rw [bytes, value, pow_zero, Nat.mod_one]
  | succ width ih =>
    have hsplit : n % 256 ^ (width + 1) =
        n % 256 ^ width + 256 ^ width * (n / 256 ^ width % 256) := by
      rw [Nat.pow_succ, Nat.mod_mul]
    rw [bytes, value, length_bytes, ih, BitVec.toNat_ofNat, hsplit, Nat.add_comm, Nat.mul_comm]

theorem value_bytes_of_lt {width n : ℕ} (h : n < 256 ^ width) : value (bytes width n) = n := by
  rw [value_bytes, Nat.mod_eq_of_lt h]

theorem value_lt (bs : List (BitVec 8)) : value bs < 256 ^ bs.length := by
  induction bs with
  | nil => exact Nat.one_pos
  | cons b bs ih =>
    have hb : b.toNat < 256 := b.isLt
    rw [value, length_cons, pow_succ]
    calc b.toNat * 256 ^ bs.length + value bs
        < b.toNat * 256 ^ bs.length + 256 ^ bs.length := Nat.add_lt_add_left ih _
      _ = (b.toNat + 1) * 256 ^ bs.length := by ring
      _ ≤ 256 * 256 ^ bs.length := Nat.mul_le_mul_right _ hb
      _ = 256 ^ bs.length * 256 := Nat.mul_comm _ _

theorem value_append (bs cs : List (BitVec 8)) :
    value (bs ++ cs) = value bs * 256 ^ cs.length + value cs := by
  induction bs with
  | nil => rw [nil_append, value, Nat.zero_mul, Nat.zero_add]
  | cons b bs ih =>
    rw [cons_append, value, ih, value, length_append, pow_add, Nat.add_mul,
      Nat.mul_assoc, Nat.add_assoc]

/-- Byte strings of one length compare like the numbers they hold. -/
theorem lt_iff_value_lt {bs cs : List (BitVec 8)} (h : bs.length = cs.length) :
    bs < cs ↔ value bs < value cs := by
  induction bs generalizing cs with
  | nil =>
    rw [length_nil, eq_comm, length_eq_zero_iff] at h
    rw [h]
    simp
  | cons b bs ih =>
    cases cs with
    | nil => simp at h
    | cons c cs =>
      rw [length_cons, length_cons, Nat.add_right_cancel_iff] at h
      rw [cons_lt_cons_iff, ih h, value, value, h]
      have hbs := value_lt bs
      have hcs := value_lt cs
      rw [h] at hbs
      set p := 256 ^ cs.length
      constructor
      · rintro (hlt | ⟨rfl, hlt⟩)
        · have hlt' : b.toNat + 1 ≤ c.toNat := hlt
          have := Nat.mul_le_mul_right p hlt'
          rw [Nat.add_mul, Nat.one_mul] at this
          omega
        · exact Nat.add_lt_add_left hlt _
      · intro hlt
        rcases Nat.lt_trichotomy b.toNat c.toNat with hbc | hbc | hbc
        · exact .inl hbc
        · rw [BitVec.toNat_inj] at hbc
          rw [hbc] at hlt
          exact .inr ⟨hbc, Nat.lt_of_add_lt_add_left hlt⟩
        · exfalso
          have hbc' : c.toNat + 1 ≤ b.toNat := hbc
          have := Nat.mul_le_mul_right p hbc'
          rw [Nat.add_mul, Nat.one_mul] at this
          omega

theorem bytes_eq_bytes_iff (width m n : ℕ) :
    bytes width m = bytes width n ↔ m % 256 ^ width = n % 256 ^ width := by
  constructor
  · intro h
    rw [← value_bytes, h, value_bytes]
  · intro h
    have hnot : ∀ {m n}, m % 256 ^ width = n % 256 ^ width → ¬ bytes width m < bytes width n := by
      intro m n h
      rw [lt_iff_value_lt (by simp), value_bytes, value_bytes, h]
      exact lt_irrefl _
    exact List.le_antisymm (hnot h.symm) (hnot h)

end BigEndian
