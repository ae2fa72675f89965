import BlvmNode.CoinTree

/-!
# The number formats of a Bitcoin Core data directory

Varints of seven bits a byte, in which every byte but the last counts one more than its bits say,
and amounts with their trailing decimal zeros taken out.
-/

namespace BlvmNode

open List

variable {n : ℕ}

section Varints

/-- The loop of `read_core_varint` over the bytes from the offset on; `|` adds bits that are zero
after the shift. -/
def readCoreVarintLoop : ℕ → ℕ → Bytes → Except String (ℕ × ℕ)
  | _, _, [] => .error "Insufficient data for Core VarInt"
  | n, used, ch :: data =>
    if (2 ^ 64 - 1) / 2 ^ 7 < n then .error "Core VarInt overflow"
    else
      let n := n * 2 ^ 7 % 2 ^ 64 + ch.toNat % 2 ^ 7
      if 2 ^ 7 ≤ ch.toNat then
        if n = 2 ^ 64 - 1 then .error "Core VarInt overflow"
        else readCoreVarintLoop (n + 1) (used + 1) data
      else .ok (n, used + 1)

def readCoreVarint (data : Bytes) (offset : ℕ) : Except String (ℕ × ℕ) :=
  readCoreVarintLoop 0 0 (data.drop offset)

/-- The bytes before the last one, after which the reader has the number `n`. -/
def coreVarintHead : ℕ → Bytes
  | 0 => []
  | n + 1 => coreVarintHead (n / 2 ^ 7) ++ [BitVec.ofNat 8 (2 ^ 7 + n % 2 ^ 7)]

/-- Core's `WriteVarInt`, which computes the last byte from `n`, the one before it from
`(n >> 7) - 1` and so on. -/
def writeCoreVarint (n : ℕ) : Bytes :=
  coreVarintHead (n / 2 ^ 7) ++ [BitVec.ofNat 8 (n % 2 ^ 7)]

theorem readCoreVarintLoop_head (n used : ℕ) (data : Bytes) :
    readCoreVarintLoop 0 used (coreVarintHead n ++ data) =
      if n < 2 ^ 64 then readCoreVarintLoop n (used + (coreVarintHead n).length) data
      else .error "Core VarInt overflow" := by
  induction n using Nat.strongRecOn generalizing data with
  | ind n ih =>
    cases n with
    | zero => simp [coreVarintHead]
    | succ n =>
      have hbyte : (BitVec.ofNat 8 (2 ^ 7 + n % 2 ^ 7)).toNat = 2 ^ 7 + n % 2 ^ 7 := by
        rw [BitVec.toNat_ofNat]
        omega
      rw [coreVarintHead, append_assoc, singleton_append, ih (n / 2 ^ 7) (by omega),
        readCoreVarintLoop, hbyte, length_append, length_singleton]
      by_cases hbig : (2 ^ 64 - 1) / 2 ^ 7 < n / 2 ^ 7
      · rw [if_pos hbig, ite_self, if_neg (by omega)]
      · have hn : n / 2 ^ 7 * 2 ^ 7 % 2 ^ 64 + (2 ^ 7 + n % 2 ^ 7) % 2 ^ 7 = n := by omega
        simp only [if_pos (by omega : n / 2 ^ 7 < 2 ^ 64), if_neg hbig, hn,
          if_pos (Nat.le_add_right (2 ^ 7) _), Nat.add_assoc]
        split_ifs <;> first | rfl | omega

theorem readCoreVarintLoop_last (used : ℕ) (data : Bytes) :
    readCoreVarintLoop (n / 2 ^ 7) used (BitVec.ofNat 8 (n % 2 ^ 7) :: data) =
      if n < 2 ^ 64 then .ok (n, used + 1) else .error "Core VarInt overflow" := by
  have hbyte : (BitVec.ofNat 8 (n % 2 ^ 7)).toNat = n % 2 ^ 7 := by
    rw [BitVec.toNat_ofNat]
    omega
  rw [readCoreVarintLoop, hbyte]
  by_cases hn : n < 2 ^ 64
  · have hsum : n / 2 ^ 7 * 2 ^ 7 % 2 ^ 64 + n % 2 ^ 7 % 2 ^ 7 = n := by omega
    rw [if_neg (by omega), if_pos hn]
    simp only [hsum, if_neg (by omega : ¬2 ^ 7 ≤ n % 2 ^ 7)]
  · rw [if_pos (by omega), if_neg hn]

theorem readCoreVarint_write (n : ℕ) (before data : Bytes) :
    readCoreVarint (before ++ (writeCoreVarint n ++ data)) before.length =
      if n < 2 ^ 64 then .ok (n, (writeCoreVarint n).length)
      else .error "Core VarInt overflow" := by
  rw [readCoreVarint, drop_left, writeCoreVarint, append_assoc, singleton_append,
    readCoreVarintLoop_head, readCoreVarintLoop_last, length_append, length_singleton, Nat.zero_add]
  split_ifs <;> first | rfl | omega

variable {b : BitVec 8} {data : Bytes}

theorem readCoreVarintLoop_truncated (h : ∀ b ∈ data, 2 ^ 7 ≤ b.toNat) (n used : ℕ) :
    ∃ e, readCoreVarintLoop n used data = .error e := by
  induction data generalizing n used with
  | nil => exact ⟨_, rfl⟩
  | cons b data ih =>
    rw [forall_mem_cons] at h
    simp only [readCoreVarintLoop, if_pos h.1]
    split_ifs
    · exact ⟨_, rfl⟩
    · exact ⟨_, rfl⟩
    · exact ih h.2 _ _

theorem continued_of_mem_head (h : b ∈ coreVarintHead n) : 2 ^ 7 ≤ b.toNat := by
  induction n using Nat.strongRecOn with
  | ind n ih =>
    cases n with
    | zero => simp [coreVarintHead] at h
    | succ n =>
      rw [coreVarintHead, mem_append, mem_singleton] at h
      rcases h with h | rfl
      · exact ih _ (by omega) h
      · rw [BitVec.toNat_ofNat]
        omega

theorem coreVarintHead_concat (n : ℕ) (hb : 2 ^ 7 ≤ b.toNat) :
    coreVarintHead (n * 2 ^ 7 + b.toNat % 2 ^ 7 + 1) = coreVarintHead n ++ [b] := by
  rw [coreVarintHead, show (n * 2 ^ 7 + b.toNat % 2 ^ 7) / 2 ^ 7 = n by omega,
    show 2 ^ 7 + (n * 2 ^ 7 + b.toNat % 2 ^ 7) % 2 ^ 7 = b.toNat by omega, BitVec.ofNat_toNat,
    BitVec.setWidth_eq]

theorem writeCoreVarint_concat (n : ℕ) (hb : ¬2 ^ 7 ≤ b.toNat) :
    writeCoreVarint (n * 2 ^ 7 + b.toNat % 2 ^ 7) = coreVarintHead n ++ [b] := by
  rw [writeCoreVarint, show (n * 2 ^ 7 + b.toNat % 2 ^ 7) / 2 ^ 7 = n by omega,
    show (n * 2 ^ 7 + b.toNat % 2 ^ 7) % 2 ^ 7 = b.toNat by omega, BitVec.ofNat_toNat,
    BitVec.setWidth_eq]

/-- The bytes read so far are those that lead to the number the reader has. -/
theorem readCoreVarintLoop_eq_ok {used value len : ℕ}
    (h : readCoreVarintLoop n used data = .ok (value, len)) :
    value < 2 ^ 64 ∧ (∃ rest, coreVarintHead n ++ data = writeCoreVarint value ++ rest) ∧
      len + (coreVarintHead n).length = used + (writeCoreVarint value).length := by
  induction data generalizing n used with
  | nil => simp [readCoreVarintLoop] at h
  | cons b data ih =>
    simp only [readCoreVarintLoop] at h
    split_ifs at h with hbig hmore hmax
    · rw [Nat.mod_eq_of_lt (by omega : n * 2 ^ 7 < 2 ^ 64)] at h
      obtain ⟨hvalue, ⟨rest, hrest⟩, hlen⟩ := ih h
      rw [coreVarintHead_concat n hmore] at hrest hlen
      rw [append_assoc] at hrest
      rw [length_append, length_singleton] at hlen
      exact ⟨hvalue, ⟨rest, hrest⟩, by omega⟩
    · rw [Nat.mod_eq_of_lt (by omega : n * 2 ^ 7 < 2 ^ 64), Except.ok.injEq, Prod.mk.injEq] at h
      obtain ⟨rfl, rfl⟩ := h
      rw [writeCoreVarint_concat n hmore, length_append, length_singleton]
      exact ⟨by omega, ⟨data, by simp⟩, by omega⟩

/-- Reading inverts Core's writing in 64 bits: the number and the length of every encoding, nothing
else is accepted, and larger numbers and cut encodings are refused. -/
theorem core_varint_round_trip :
    (∀ n < 2 ^ 64, ∀ before data, readCoreVarint (before ++ (writeCoreVarint n ++ data))
      before.length = .ok (n, (writeCoreVarint n).length)) ∧
    (∀ data offset n len, readCoreVarint data offset = .ok (n, len) → n < 2 ^ 64 ∧
      (data.drop offset).take len = writeCoreVarint n ∧ len = (writeCoreVarint n).length) ∧
    (∀ n, 2 ^ 64 ≤ n → ∀ before data, ∃ e, readCoreVarint (before ++ (writeCoreVarint n ++ data))
      before.length = .error e) ∧
    ∀ n k, k < (writeCoreVarint n).length → ∀ before : Bytes, ∃ e,
      readCoreVarint (before ++ (writeCoreVarint n).take k) before.length = .error e := by
  refine ⟨?_, ?_, ?_, ?_⟩
  · intro n hn before data
    rw [readCoreVarint_write, if_pos hn]
  · intro data offset n len h
    obtain ⟨hn, ⟨rest, hrest⟩, hlen⟩ := readCoreVarintLoop_eq_ok h
    simp only [coreVarintHead, nil_append, length_nil, Nat.add_zero, Nat.zero_add] at hrest hlen
    exact ⟨hn, by rw [hrest, take_left' hlen.symm], hlen⟩
  · intro n hn before data
    rw [readCoreVarint_write, if_neg (by omega)]
    exact ⟨_, rfl⟩
  · intro n k hk before
    rw [writeCoreVarint, length_append, length_singleton] at hk
    rw [readCoreVarint, drop_left, writeCoreVarint, take_append_of_le_length (by omega)]
    exact readCoreVarintLoop_truncated (fun b hb => continued_of_mem_head (mem_of_mem_take hb)) 0 0

end Varints

section Amounts

def checkedScale : ℕ → ℕ → Option ℕ
  | 0, n => some n
  | e + 1, n => if n * 10 < 2 ^ 64 then checkedScale e (n * 10) else none

/-- `decompress_amount`; sums and products that are not checked wrap at 64 bits. -/
def decompressAmount (x : ℕ) : Except String ℕ :=
  if x = 0 then .ok 0
  else
    let e := (x - 1) % 10
    let x := (x - 1) / 10
    let n := if e < 9 then (x / 9 * 10 + (x % 9 + 1)) % 2 ^ 64 else (x + 1) % 2 ^ 64
    match checkedScale e n with
    | none => .error "decompressed amount does not fit in u64"
    | some n =>
      if 2 ^ 63 ≤ n then .error "decompressed amount does not fit in i64" else .ok n

def stripZeros : ℕ → ℕ → ℕ × ℕ
  | 0, n => (n, 0)
  | k + 1, n =>
    if n % 10 = 0 then ((stripZeros k (n / 10)).1, (stripZeros k (n / 10)).2 + 1) else (n, 0)

def compressAmount (n : ℕ) : ℕ :=
  if n = 0 then 0
  else
    let (n, e) := stripZeros 9 n
    if e < 9 then 1 + (n / 10 * 9 + n % 10 - 1) * 10 + e else 1 + (n - 1) * 10 + 9

theorem checkedScale_eq {e : ℕ} (hn : n < 2 ^ 64) :
    checkedScale e n = if n * 10 ^ e < 2 ^ 64 then some (n * 10 ^ e) else none := by
  induction e generalizing n with
  | zero => rw [checkedScale, pow_zero, Nat.mul_one, if_pos hn]
  | succ e ih =>
    have hpow : n * 10 ^ (e + 1) = n * 10 * 10 ^ e := by ring
    have hle : n * 10 * 1 ≤ n * 10 * 10 ^ e := Nat.mul_le_mul_left _ (Nat.one_le_pow _ _ (by omega))
    rw [checkedScale, hpow]
    split_ifs with hmul hall hall
    · rw [ih hmul, if_pos hall]
    · rw [ih hmul, if_neg hall]
    · omega
    · rfl

theorem stripZeros_spec (k : ℕ) (hn : 0 < n) :
    ∃ m e, stripZeros k n = (m, e) ∧ n = m * 10 ^ e ∧ e ≤ k ∧ 0 < m ∧ (e < k → m % 10 ≠ 0) := by
  induction k generalizing n with
  | zero => exact ⟨n, 0, rfl, by simp, le_rfl, hn, by simp⟩
  | succ k ih =>
    rw [stripZeros]
    split_ifs with hzero
    · obtain ⟨m, e, hstrip, heq, hle, hpos, hlast⟩ := @ih (n / 10) (by omega)
      refine ⟨m, e + 1, by rw [hstrip], ?_, by omega, hpos, fun hlt => hlast (by omega)⟩
      rw [pow_succ, ← Nat.mul_assoc, ← heq]
      omega
    · exact ⟨n, 0, rfl, by simp, by simp, hn, fun _ => hzero⟩

theorem stripZeros_mul {k m e : ℕ} (he : e ≤ k) (hlast : e < k → m % 10 ≠ 0) :
    stripZeros k (m * 10 ^ e) = (m, e) := by
  induction k generalizing e with
  | zero => simp [stripZeros, Nat.le_zero.mp he]
  | succ k ih =>
    cases e with
    | zero => simp [stripZeros, hlast (by omega)]
    | succ e =>
      have hpow : m * 10 ^ (e + 1) = m * 10 ^ e * 10 := by ring
      rw [stripZeros, hpow, if_pos (by omega), Nat.mul_div_cancel _ (by omega),
        ih (by omega) (fun hlt => hlast (by omega))]

theorem decompressAmount_eq {x m e : ℕ} (hx : 0 < x) (hlt : x < 2 ^ 64) (he : (x - 1) % 10 = e)
    (hm : m = if e < 9 then (x - 1) / 10 / 9 * 10 + ((x - 1) / 10 % 9 + 1) else (x - 1) / 10 + 1) :
    decompressAmount x = if m * 10 ^ e < 2 ^ 63 then .ok (m * 10 ^ e)
      else .error (if m * 10 ^ e < 2 ^ 64 then "decompressed amount does not fit in i64"
        else "decompressed amount does not fit in u64") := by
  have hwrap : m < 2 ^ 64 ∧ (if e < 9 then
      ((x - 1) / 10 / 9 * 10 + ((x - 1) / 10 % 9 + 1)) % 2 ^ 64 else ((x - 1) / 10 + 1) % 2 ^ 64) =
      m := by
    split_ifs at hm ⊢ <;> omega
  unfold decompressAmount
  simp only [if_neg hx.ne', he, hwrap.2, checkedScale_eq hwrap.1]
  by_cases hfits : m * 10 ^ e < 2 ^ 64
  · simp only [if_pos hfits]
    split_ifs <;> first | rfl | omega
  · simp only [if_neg hfits, if_neg (by omega : ¬m * 10 ^ e < 2 ^ 63)]

/-- Decompression inverts Core's compression on all amounts of money, and on every input it fails
or returns, exactly, an amount that is compressed to this input. -/
theorem core_amount_round_trip :
    (∀ a ≤ 21 * 10 ^ 14, decompressAmount (compressAmount a) = .ok a) ∧
    ∀ x < 2 ^ 64, (∃ e, decompressAmount x = .error e) ∨
      ∃ v < 2 ^ 63, decompressAmount x = .ok v ∧ compressAmount v = x := by
  constructor
  · intro a ha
    rcases Nat.eq_zero_or_pos a with rfl | hpos
    · rfl
    obtain ⟨m, e, hstrip, heq, he, hm, hlast⟩ := stripZeros_spec 9 hpos
    have hle : m ≤ m * 10 ^ e := Nat.le_mul_of_pos_right m (by positivity)
    rw [compressAmount, if_neg hpos.ne', hstrip]
    dsimp only
    split_ifs with hnine
    · have hdigit := hlast hnine
      rw [decompressAmount_eq (m := m) (e := e) (by omega) (by omega) (by omega)
        (by rw [if_pos hnine]; omega), ← heq, if_pos (by omega)]
    · obtain rfl : e = 9 := by omega
      rw [decompressAmount_eq (m := m) (e := 9) (by omega) (by omega) (by omega)
        (by rw [if_neg hnine]; omega), ← heq, if_pos (by omega)]
  · intro x hx
    rcases Nat.eq_zero_or_pos x with rfl | hpos
    · exact .inr ⟨0, by omega, rfl, rfl⟩
    generalize hm : (if (x - 1) % 10 < 9 then (x - 1) / 10 / 9 * 10 + ((x - 1) / 10 % 9 + 1)
      else (x - 1) / 10 + 1) = m
    rw [decompressAmount_eq hpos hx rfl hm.symm]
    split_ifs with hfits
    · refine .inr ⟨_, hfits, rfl, ?_⟩
      have hstrip : stripZeros 9 (m * 10 ^ ((x - 1) % 10)) = (m, (x - 1) % 10) := by
        apply stripZeros_mul (by omega)
        intro hnine
        rw [if_pos hnine] at hm
        omega
      have hne : m * 10 ^ ((x - 1) % 10) ≠ 0 := by
        have hpow : 0 < 10 ^ ((x - 1) % 10) := by positivity
        have hm0 : 0 < m := by split_ifs at hm <;> omega
        exact (Nat.mul_pos hm0 hpow).ne'
      rw [compressAmount, if_neg hne, hstrip]
      dsimp only
      split_ifs at hm ⊢ <;> omega
    · exact .inl ⟨_, rfl⟩
    · exact .inl ⟨_, rfl⟩

end Amounts

end BlvmNode
