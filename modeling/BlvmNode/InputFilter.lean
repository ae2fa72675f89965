import BlvmNode.UtxoDatabase
import BlvmNode.CoinTree

/-!
# Which inputs of a block are external

The engine takes an input for a spend inside the block if its transaction id is that of any
transaction but the first; the store's filter only knows the ids of the non-coinbase transactions
before the spending one.
-/

namespace BlvmNode

open List Option UtxoDatabase

variable (isCoinbase : Transaction → Bool)

/-- `block_input_keys_into_filtered_with_tx_ids` from transaction `idx` on: the keys kept and the
number filtered out. -/
def filteredKeys (txIds : List Hash) : ℕ → List Hash → List Transaction → List Bytes × ℕ
  | _, _, [] => ([], 0)
  | idx, prior, tx :: txs =>
    if isCoinbase tx then filteredKeys txIds (idx + 1) prior txs
    else
      let (filtered, kept) := tx.inputs.partition (fun o => decide (o.hash ∈ prior))
      -- the id goes in after the inputs, so a transaction cannot filter itself
      let prior := match txIds[idx]? with
        | some txid => txid :: prior
        | none => prior
      let rest := filteredKeys txIds (idx + 1) prior txs
      (kept.map outpointToKey ++ rest.1, filtered.length + rest.2)

def blockInputKeysIntoFilteredWithTxIds (b : ChainBlock) : List Bytes × ℕ :=
  filteredKeys isCoinbase b.txIds 0 [] b.transactions

/-- The external keys of `append_and_classify`; `tx_ids[1..]` panics on a block without
transactions. -/
def externalKeys (runMax : ℕ) (contended contendedAgain : Bool) (b : ChainBlock)
    (db : UtxoDatabase) : Option (List OutputKey) :=
  if b.txIds.isEmpty then none
  else some (db.appendAndClassify isCoinbase runMax contended contendedAgain b).2.1

/-- Transaction number `i` is not a coinbase and spends the outpoint. -/
def SpendsAt (b : ChainBlock) (i : ℕ) (o : OutPoint) : Prop :=
  ∃ tx, b.transactions[i]? = some tx ∧ isCoinbase tx = false ∧ o ∈ tx.inputs

def EarlierId (b : ChainBlock) (i : ℕ) (txid : Hash) : Prop :=
  ∃ j < i, ∃ tx, b.transactions[j]? = some tx ∧ isCoinbase tx = false ∧ b.txIds[j]? = some txid

variable {isCoinbase} {i : ℕ}

section Engine

variable (keys : List OutputKey)

theorem sortedDistinct_eq_dedup :
    (sortExternalKeys keys).destutter (· ≠ ·) = (sortExternalKeys keys).dedup := by
  have hantisymm : Std.Antisymm (fun a b : OutputKey => a.toNat ≤ b.toNat) :=
    ⟨fun _ _ hab hba => OutputKey.toNat_injective (le_antisymm hab hba)⟩
  have hsorted : (sortExternalKeys keys).Pairwise (fun a b => a.toNat ≤ b.toNat) :=
    pairwise_insertionSort _ keys
  exact hsorted.destutter_eq_dedup

theorem mem_sortedDistinct (k : OutputKey) :
    k ∈ (sortExternalKeys keys).destutter (· ≠ ·) ↔ k ∈ keys := by
  rw [sortedDistinct_eq_dedup, mem_dedup, sortExternalKeys, mem_insertionSort]

variable {b : ChainBlock}

theorem mem_classifyInputs {o : OutPoint} :
    o ∈ (classifyInputs isCoinbase b).2 ↔
      (∃ i, SpendsAt isCoinbase b i o) ∧ o.hash ∉ b.txIds.tail := by
  rw [classifyInputs, partition_eq_filter_filter, mem_filter, mem_flatMap]
  simp only [Bool.not_eq_eq_eq_not, Bool.not_true, decide_eq_false_iff_not, Function.comp_apply]
  apply and_congr_left
  intro _
  constructor
  · rintro ⟨tx, htx, ho⟩
    obtain ⟨i, hi⟩ := mem_iff_getElem?.mp htx
    cases hcoinbase : isCoinbase tx with
    | true => simp [hcoinbase] at ho
    | false =>
      simp only [hcoinbase, Bool.false_eq_true, if_false] at ho
      exact ⟨i, tx, hi, hcoinbase, ho⟩
  · rintro ⟨i, tx, hi, hcoinbase, ho⟩
    refine ⟨tx, mem_of_getElem? hi, ?_⟩
    simp only [hcoinbase, Bool.false_eq_true, if_false]
    exact ho

/-- The engine: spent by a transaction of the block, with the id of none but the first. -/
theorem mem_externalKeys {runMax : ℕ} {contended contendedAgain : Bool}
    {db : UtxoDatabase} {keys : List OutputKey}
    (h : externalKeys isCoinbase runMax contended contendedAgain b db = some keys) (o : OutPoint) :
    outpointToOutputKey o ∈ keys ↔
      (∃ i, SpendsAt isCoinbase b i o) ∧ o.hash ∉ b.txIds.tail := by
  rw [externalKeys] at h
  split_ifs at h
  rw [Option.some.injEq] at h
  have hkeys : keys = (sortExternalKeys ((classifyInputs isCoinbase b).2.map
      outpointToOutputKey)).destutter (· ≠ ·) := h.symm
  rw [hkeys, mem_sortedDistinct, ← mem_classifyInputs,
    List.mem_map_of_injective fun _ _ => outpointToOutputKey_injective]

end Engine

section Store

/-- Place `i` spends the outpoint, whose id is neither in `prior` nor brought by an earlier
transaction. -/
def KeptAt (isCoinbase : Transaction → Bool) (txIds : List Hash) (idx : ℕ) (prior : List Hash)
    (txs : List Transaction) (o : OutPoint) (i : ℕ) : Prop :=
  (∃ tx, txs[i]? = some tx ∧ isCoinbase tx = false ∧ o ∈ tx.inputs) ∧ o.hash ∉ prior ∧
    ∀ j < i, ∀ tx, txs[j]? = some tx → isCoinbase tx = false → txIds[idx + j]? ≠ some o.hash

variable {txIds : List Hash} {idx : ℕ} {prior : List Hash} {tx : Transaction}
    {txs : List Transaction} {o : OutPoint}

theorem keptAt_zero :
    KeptAt isCoinbase txIds idx prior (tx :: txs) o 0 ↔
      isCoinbase tx = false ∧ o ∈ tx.inputs ∧ o.hash ∉ prior := by
  simp only [KeptAt, getElem?_cons_zero, some.injEq, exists_eq_left',
    Nat.not_lt_zero, false_imp_iff, implies_true, and_true, and_assoc]

theorem keptAt_succ :
    KeptAt isCoinbase txIds idx prior (tx :: txs) o (i + 1) ↔
      KeptAt isCoinbase txIds (idx + 1) prior txs o i ∧
        (isCoinbase tx = false → txIds[idx]? ≠ some o.hash) := by
  simp only [KeptAt, getElem?_cons_succ]
  constructor
  · rintro ⟨hspends, hprior, hearlier⟩
    refine ⟨⟨hspends, hprior, ?_⟩, ?_⟩
    · intro j hj tx' htx'
      have hstep := hearlier (j + 1) (Nat.succ_lt_succ hj) tx' htx'
      rwa [← Nat.add_assoc, Nat.add_right_comm] at hstep
    · exact hearlier 0 (Nat.succ_pos i) tx rfl
  · rintro ⟨⟨hspends, hprior, hearlier⟩, hfirst⟩
    refine ⟨hspends, hprior, ?_⟩
    intro j hj tx' htx'
    cases j with
    | zero =>
      rw [getElem?_cons_zero, some.injEq] at htx'
      exact htx' ▸ hfirst
    | succ j =>
      have hstep := hearlier j (Nat.lt_of_succ_lt_succ hj) tx' htx'
      rwa [Nat.add_right_comm, Nat.add_assoc] at hstep

theorem exists_keptAt_cons :
    (∃ i, KeptAt isCoinbase txIds idx prior (tx :: txs) o i) ↔
      (isCoinbase tx = false ∧ o ∈ tx.inputs ∧ o.hash ∉ prior) ∨
        (∃ i, KeptAt isCoinbase txIds (idx + 1) prior txs o i) ∧
          (isCoinbase tx = false → txIds[idx]? ≠ some o.hash) := by
  constructor
  · rintro ⟨i, hi⟩
    cases i with
    | zero => exact .inl (keptAt_zero.mp hi)
    | succ i =>
      obtain ⟨hkept, hfirst⟩ := keptAt_succ.mp hi
      exact .inr ⟨⟨i, hkept⟩, hfirst⟩
  · rintro (hzero | ⟨⟨i, hi⟩, hfirst⟩)
    · exact ⟨0, keptAt_zero.mpr hzero⟩
    · exact ⟨i + 1, keptAt_succ.mpr ⟨hi, hfirst⟩⟩

theorem exists_keptAt_prior {prior' : List Hash} {known : Prop}
    (h : o.hash ∉ prior' ↔ o.hash ∉ prior ∧ known) :
    (∃ i, KeptAt isCoinbase txIds idx prior' txs o i) ↔
      (∃ i, KeptAt isCoinbase txIds idx prior txs o i) ∧ known := by
  simp only [KeptAt, h]
  constructor
  · rintro ⟨i, hspends, ⟨hprior, hknown⟩, hearlier⟩
    exact ⟨⟨i, hspends, hprior, hearlier⟩, hknown⟩
  · rintro ⟨⟨i, hspends, hprior, hearlier⟩, hknown⟩
    exact ⟨i, hspends, ⟨hprior, hknown⟩, hearlier⟩

theorem mem_filteredKeys :
    outpointToKey o ∈ (filteredKeys isCoinbase txIds idx prior txs).1 ↔
      ∃ i, KeptAt isCoinbase txIds idx prior txs o i := by
  induction txs generalizing idx prior with
  | nil => simp [filteredKeys, KeptAt]
  | cons tx txs ih =>
    rw [filteredKeys, exists_keptAt_cons]
    cases hcoinbase : isCoinbase tx with
    | true =>
      simp only [if_true, Bool.true_eq_false, false_and, false_or, false_imp_iff, and_true]
      exact ih
    | false =>
      simp only [Bool.false_eq_true, if_false, true_and, forall_const]
      rw [mem_append, ih]
      apply or_congr
      · rw [List.partition_eq_filter_filter,
          List.mem_map_of_injective fun _ _ => outpointToKey_injective]
        simp
      · apply exists_keptAt_prior
        cases txIds[idx]? with
        | none => simp
        | some txid =>
          simp only [mem_cons, not_or, ne_eq, some.injEq]
          rw [and_comm, eq_comm]

theorem mem_blockInputKeys {b : ChainBlock} :
    outpointToKey o ∈ (blockInputKeysIntoFilteredWithTxIds isCoinbase b).1 ↔
      ∃ i, SpendsAt isCoinbase b i o ∧ ¬EarlierId isCoinbase b i o.hash := by
  rw [blockInputKeysIntoFilteredWithTxIds, mem_filteredKeys]
  apply exists_congr
  intro i
  rw [KeptAt, SpendsAt, EarlierId]
  simp only [not_mem_nil, not_false_eq_true, true_and, Nat.zero_add]
  apply and_congr_right
  intro _
  constructor
  · rintro h ⟨j, hj, tx, htx, hcoinbase, hid⟩
    exact h j hj tx htx hcoinbase hid
  · intro h j hj tx htx hcoinbase hid
    exact h ⟨j, hj, tx, htx, hcoinbase, hid⟩

end Store

section Agreement

variable (isCoinbase) in
/-- References to a transaction of the block other than the first go back to an earlier non-coinbase
one; an id not among those is spent at a place that no such transaction precedes. -/
def RefersBack (b : ChainBlock) : Prop :=
  (∀ i o, SpendsAt isCoinbase b i o → o.hash ∈ b.txIds.tail →
    EarlierId isCoinbase b i o.hash) ∧
  ∀ i o, SpendsAt isCoinbase b i o → o.hash ∉ b.txIds.tail →
    ∃ i', SpendsAt isCoinbase b i' o ∧ ¬EarlierId isCoinbase b i' o.hash

section

variable {b : ChainBlock} (hfirst : ∀ tx, b.transactions[0]? = some tx → isCoinbase tx = true)
include hfirst

theorem mem_tail_of_earlierId {txid : Hash} (h : EarlierId isCoinbase b i txid) :
    txid ∈ b.txIds.tail := by
  obtain ⟨j, -, tx, htx, hcoinbase, hid⟩ := h
  cases j with
  | zero => exact absurd (hfirst tx htx) (by rw [hcoinbase]; decide)
  | succ j =>
    rw [← drop_one]
    apply mem_of_getElem? (i := j)
    rw [getElem?_drop, Nat.add_comm, hid]

theorem refersBack_of_ordered
    (hordered : ∀ i o, SpendsAt isCoinbase b i o → o.hash ∈ b.txIds.tail →
      EarlierId isCoinbase b i o.hash) :
    RefersBack isCoinbase b := by
  refine ⟨hordered, ?_⟩
  intro i o hspends houtside
  exact ⟨i, hspends, fun hearlier => houtside (mem_tail_of_earlierId hfirst hearlier)⟩

end

/-- Engine and store agree on the external inputs of a block exactly if it is not empty and refers
back. -/
theorem external_inputs_agree_iff (isCoinbase : Transaction → Bool) (runMax : ℕ)
    (contended contendedAgain : Bool) (db : UtxoDatabase) (b : ChainBlock)
    (hids : b.txIds.length = b.transactions.length) :
    (∃ keys, externalKeys isCoinbase runMax contended contendedAgain b db = some keys ∧
      ∀ o, outpointToOutputKey o ∈ keys ↔
        outpointToKey o ∈ (blockInputKeysIntoFilteredWithTxIds isCoinbase b).1) ↔
      b.transactions ≠ [] ∧ RefersBack isCoinbase b := by
  have hempty : b.txIds.isEmpty = false ↔ b.transactions ≠ [] := by
    rw [← Bool.not_eq_true, List.isEmpty_iff, ← List.length_eq_zero_iff, hids, length_eq_zero_iff]
  constructor
  · rintro ⟨keys, hkeys, hagree⟩
    refine ⟨?_, ?_, ?_⟩
    · rw [← hempty, ← Bool.not_eq_true]
      intro hnone
      rw [externalKeys, if_pos hnone] at hkeys
      simp at hkeys
    · intro i o hspends htail
      by_contra hearlier
      have hstore := mem_blockInputKeys.mpr ⟨i, hspends, hearlier⟩
      rw [← hagree, mem_externalKeys hkeys] at hstore
      exact hstore.2 htail
    · intro i o hspends htail
      rw [← mem_blockInputKeys, ← hagree, mem_externalKeys hkeys]
      exact ⟨⟨i, hspends⟩, htail⟩
  · rintro ⟨hnonempty, hback, houtside⟩
    have hkeys : externalKeys isCoinbase runMax contended contendedAgain b db =
        some (db.appendAndClassify isCoinbase runMax contended contendedAgain b).2.1 :=
      if_neg (by rw [hempty.mpr hnonempty]; decide)
    refine ⟨_, hkeys, ?_⟩
    intro o
    rw [mem_externalKeys hkeys, mem_blockInputKeys]
    constructor
    · rintro ⟨⟨i, hspends⟩, htail⟩
      exact houtside i o hspends htail
    · rintro ⟨i, hspends, hearlier⟩
      exact ⟨⟨i, hspends⟩, fun htail => hearlier (hback i o hspends htail)⟩

theorem external_inputs_agree_iff_handover :
    ∃ keys, externalKeys nullCoinbase 8 false false handoverBlock UtxoDatabase.empty = some keys ∧
      ∀ o, outpointToOutputKey o ∈ keys ↔
        outpointToKey o ∈ (blockInputKeysIntoFilteredWithTxIds nullCoinbase handoverBlock).1 := by
  apply (external_inputs_agree_iff nullCoinbase 8 false false empty handoverBlock
    rfl).mpr
  refine ⟨by decide, refersBack_of_ordered ?_ ?_⟩
  · intro tx htx
    have hcoinbase : some coinbaseTx = some tx := htx
    cases hcoinbase
    decide
  · rintro i o ⟨tx, htx, hcoinbase, ho⟩ htail
    rcases i with _ | _ | _ | i
    · have hfirst : some coinbaseTx = some tx := htx
      rw [← some.inj hfirst] at hcoinbase
      exact absurd hcoinbase (by decide)
    · have hsecond : some (⟨[⟨10, 0⟩], [⟨50, [0x51]⟩]⟩ : Transaction) = some tx := htx
      rw [← some.inj hsecond, mem_singleton] at ho
      rw [ho] at htail
      exact absurd htail (by decide)
    · have hthird : some (⟨[⟨11, 0⟩], [⟨50, [0x51]⟩]⟩ : Transaction) = some tx := htx
      rw [← some.inj hthird, mem_singleton] at ho
      rw [ho]
      exact ⟨1, by decide, _, rfl, by decide, rfl⟩
    · exact absurd htx (nofun)

def forwardBlock : ChainBlock :=
  ⟨[coinbaseTx, ⟨[⟨22, 0⟩], [⟨50, [0x51]⟩]⟩, ⟨[⟨9, 0⟩], [⟨50, [0x51]⟩]⟩], [20, 21, 22], 1⟩

/-- The engine resolves a spend of a later transaction inside the block; the store does not. -/
theorem forward_spend_is_not_external :
    (∃ keys, externalKeys nullCoinbase 8 false false forwardBlock UtxoDatabase.empty = some keys ∧
      outpointToOutputKey ⟨22, 0⟩ ∉ keys) ∧
    outpointToKey ⟨22, 0⟩ ∈ (blockInputKeysIntoFilteredWithTxIds nullCoinbase forwardBlock).1 := by
  have hkeys : externalKeys nullCoinbase 8 false false forwardBlock empty =
      some (empty.appendAndClassify nullCoinbase 8 false false forwardBlock).2.1 := rfl
  refine ⟨⟨_, hkeys, ?_⟩, ?_⟩
  · rw [mem_externalKeys hkeys]
    exact fun h => h.2 (by decide)
  · exact mem_cons_self

end Agreement

end BlvmNode
