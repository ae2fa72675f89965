import BlvmNode.OutputKV

/-!
# Blocks and the set of unspent outputs

The set of unspent outputs is what remains after spending the inputs and adding the outputs of
every transaction in order. A valid block spends only outputs of the current set, repeats no
transaction id of an output that is still unspent, and leaves its own coinbase alone.
-/

namespace BlvmNode

open List

structure TransactionOutput where
  value : BitVec 64
  scriptPubkey : List (BitVec 8)

/-- A transaction as the engine reads it: the outpoints it spends and the outputs it creates. -/
structure Transaction where
  inputs : List OutPoint
  outputs : List TransactionOutput

structure ChainBlock where
  transactions : List Transaction
  txIds : List Hash
  height : ℤ

def createdOutpoints (tx : Transaction × Hash) : List OutPoint :=
  (List.range tx.1.outputs.length).map (fun i => ⟨tx.2, BitVec.ofNat 32 i⟩)

variable (isCoinbase : Transaction → Bool) {o : OutPoint} {tx : Transaction × Hash}

def spentOutpoints (tx : Transaction × Hash) : List OutPoint :=
  if isCoinbase tx.1 then [] else tx.1.inputs

def applyTransaction (coins : Finset OutPoint) (tx : Transaction × Hash) : Finset OutPoint :=
  (coins \ (spentOutpoints isCoinbase tx).toFinset) ∪ (createdOutpoints tx).toFinset

def applyTransactions (coins : Finset OutPoint) (txs : List (Transaction × Hash)) :
    Finset OutPoint :=
  txs.foldl (applyTransaction isCoinbase) coins

/-- Every transaction spends distinct outputs that are unspent when it is reached. -/
def ValidInputs : Finset OutPoint → List (Transaction × Hash) → Prop
  | _, [] => True
  | coins, tx :: txs =>
    ((spentOutpoints isCoinbase tx).Nodup ∧ ∀ o ∈ spentOutpoints isCoinbase tx, o ∈ coins) ∧
      ValidInputs (applyTransaction isCoinbase coins tx) txs

instance decidableValidInputs : (coins : Finset OutPoint) → (txs : List (Transaction × Hash)) →
    Decidable (ValidInputs isCoinbase coins txs)
  | _, [] => isTrue trivial
  | coins, tx :: txs =>
    have := decidableValidInputs (applyTransaction isCoinbase coins tx) txs
    inferInstanceAs (Decidable (_ ∧ _))

namespace ChainBlock

def identified (b : ChainBlock) : List (Transaction × Hash) := b.transactions.zip b.txIds

def created (b : ChainBlock) : List OutPoint := b.identified.flatMap createdOutpoints

def spent (b : ChainBlock) : List OutPoint := b.identified.flatMap (spentOutpoints isCoinbase)

end ChainBlock

structure ValidBlock (coins : Finset OutPoint) (b : ChainBlock) : Prop where
  idsLength : b.txIds.length = b.transactions.length
  idsNodup : b.txIds.Nodup
  coinbaseFirst : b.transactions.map isCoinbase =
    true :: List.replicate (b.transactions.length - 1) false
  outputCount : ∀ tx ∈ b.transactions, tx.outputs.length ≤ 2 ^ 32
  inputs : ValidInputs isCoinbase coins b.identified
  freshIds : ∀ o ∈ coins, o.hash ∉ b.txIds
  matured : ∀ o ∈ b.spent isCoinbase, b.txIds.head? ≠ some o.hash

def coinsAfter (blocks : List ChainBlock) : Finset OutPoint :=
  blocks.foldl (fun coins b => applyTransactions isCoinbase coins b.identified) ∅

def coinsAt (h : ℤ) (blocks : List ChainBlock) : Finset OutPoint :=
  coinsAfter isCoinbase (blocks.filter (fun b => decide (b.height ≤ h)))

structure ValidChain (blocks : List ChainBlock) : Prop where
  heights : blocks.Pairwise (fun b b' => b.height < b'.height)
  nonneg : ∀ b ∈ blocks, 0 ≤ b.height
  valid : ∀ front b back, blocks = front ++ b :: back →
    ValidBlock isCoinbase (coinsAfter isCoinbase front) b

def lastCreation (h : ℤ) (blocks : List ChainBlock) (o : OutPoint) : Option ChainBlock :=
  blocks.reverse.find? (fun b => decide (b.height ≤ h ∧ o ∈ b.created))

def SpentWhereCreated (h : ℤ) (blocks : List ChainBlock) (o : OutPoint) : Prop :=
  ∃ b ∈ lastCreation h blocks o, o ∈ b.spent isCoinbase

theorem hash_of_mem_createdOutpoints (h : o ∈ createdOutpoints tx) : o.hash = tx.2 := by
  obtain ⟨i, -, rfl⟩ := mem_map.mp h
  rfl

theorem hash_of_mem_created {txs : List (Transaction × Hash)}
    (h : o ∈ txs.flatMap createdOutpoints) : o.hash ∈ txs.map Prod.snd := by
  obtain ⟨tx, htx, ho⟩ := mem_flatMap.mp h
  exact mem_map.mpr ⟨tx, htx, (hash_of_mem_createdOutpoints ho).symm⟩

theorem createdOutpoints_nodup (h : tx.1.outputs.length ≤ 2 ^ 32) :
    (createdOutpoints tx).Nodup := by
  apply Nodup.map_on _ nodup_range
  intro i hi j hj hij
  have hval := congrArg (fun o : OutPoint => o.index.toNat) hij
  simp only [mem_range] at hi hj
  simp only [BitVec.toNat_ofNat] at hval
  rwa [Nat.mod_eq_of_lt (by omega), Nat.mod_eq_of_lt (by omega)] at hval

section Transactions

variable {isCoinbase} {coins : Finset OutPoint} {txs : List (Transaction × Hash)}

theorem mem_applyTransaction : o ∈ applyTransaction isCoinbase coins tx ↔
    o ∈ coins ∧ o ∉ spentOutpoints isCoinbase tx ∨ o ∈ createdOutpoints tx := by
  simp [applyTransaction]

theorem freshIds_applyTransaction (hids : ((tx :: txs).map Prod.snd).Nodup)
    (hfresh : ∀ o ∈ coins, o.hash ∉ (tx :: txs).map Prod.snd) :
    ∀ o ∈ applyTransaction isCoinbase coins tx, o.hash ∉ txs.map Prod.snd := by
  rw [map_cons, nodup_cons] at hids
  intro o ho hmem
  rcases mem_applyTransaction.mp ho with ⟨ho, -⟩ | ho
  · exact hfresh o ho (mem_cons_of_mem _ hmem)
  · rw [hash_of_mem_createdOutpoints ho] at hmem
    exact hids.1 hmem

theorem spent_subset (hv : ValidInputs isCoinbase coins txs)
    (ho : o ∈ txs.flatMap (spentOutpoints isCoinbase)) :
    o ∈ coins ∨ o ∈ txs.flatMap createdOutpoints := by
  induction txs generalizing coins with
  | nil => simp at ho
  | cons tx txs ih =>
    rw [flatMap_cons, mem_append] at ho ⊢
    rcases ho with ho | ho
    · exact .inl (hv.1.2 o ho)
    · rcases ih hv.2 ho with hc | hc
      · rcases mem_applyTransaction.mp hc with ⟨hc, -⟩ | hc
        · exact .inl hc
        · exact .inr (.inl hc)
      · exact .inr (.inr hc)

section

variable (hv : ValidInputs isCoinbase coins txs) (hids : (txs.map Prod.snd).Nodup)
    (hfresh : ∀ o ∈ coins, o.hash ∉ txs.map Prod.snd)
include hv hids hfresh

theorem mem_applyTransactions (o : OutPoint) : o ∈ applyTransactions isCoinbase coins txs ↔
      (o ∈ coins ∨ o ∈ txs.flatMap createdOutpoints) ∧
        o ∉ txs.flatMap (spentOutpoints isCoinbase) := by
  induction txs generalizing coins with
  | nil => simp [applyTransactions]
  | cons tx txs ih =>
    have hrest := ih hv.2 (nodup_cons.mp hids).2 (freshIds_applyTransaction hids hfresh)
    have hold : o ∈ spentOutpoints isCoinbase tx →
        o ∉ createdOutpoints tx ∧ o ∉ txs.flatMap createdOutpoints := by
      intro ho
      have hh := hfresh o (hv.1.2 o ho)
      rw [map_cons, mem_cons, not_or] at hh
      exact ⟨fun hc => hh.1 (hash_of_mem_createdOutpoints hc),
        fun hc => hh.2 (hash_of_mem_created hc)⟩
    rw [applyTransactions, foldl_cons]
    rw [applyTransactions] at hrest
    rw [hrest]
    simp only [mem_applyTransaction, flatMap_cons, mem_append]
    by_cases hs : o ∈ spentOutpoints isCoinbase tx
    · simp [hs, hold hs]
    · simp [hs, or_assoc]

theorem spent_nodup : (txs.flatMap (spentOutpoints isCoinbase)).Nodup := by
  induction txs generalizing coins with
  | nil => exact nodup_nil
  | cons tx txs ih =>
    rw [flatMap_cons, nodup_append]
    refine ⟨hv.1.1, ih hv.2 (nodup_cons.mp hids).2 (freshIds_applyTransaction hids hfresh), ?_⟩
    rintro o ho _ ho' rfl
    have hh := hfresh o (hv.1.2 o ho)
    rw [map_cons, mem_cons, not_or] at hh
    rcases spent_subset hv.2 ho' with hc | hc
    · rcases mem_applyTransaction.mp hc with ⟨-, hc⟩ | hc
      · exact hc ho
      · exact hh.1 (hash_of_mem_createdOutpoints hc)
    · exact hh.2 (hash_of_mem_created hc)

end

theorem created_nodup (hids : (txs.map Prod.snd).Nodup)
    (hcount : ∀ tx ∈ txs, tx.1.outputs.length ≤ 2 ^ 32) : (txs.flatMap createdOutpoints).Nodup := by
  induction txs with
  | nil => exact nodup_nil
  | cons tx txs ih =>
    rw [forall_mem_cons] at hcount
    rw [map_cons, nodup_cons] at hids
    rw [flatMap_cons, nodup_append]
    refine ⟨createdOutpoints_nodup hcount.1, ih hids.2 hcount.2, ?_⟩
    rintro o ho _ ho' rfl
    rw [← hash_of_mem_createdOutpoints ho] at hids
    exact hids.1 (hash_of_mem_created ho')

end Transactions

namespace ValidBlock

variable {isCoinbase} {coins : Finset OutPoint} {b : ChainBlock}

section

variable (h : ValidBlock isCoinbase coins b)
include h

theorem identified_ids : b.identified.map Prod.snd = b.txIds :=
  map_snd_zip h.idsLength.le

theorem identified_transactions : b.identified.map Prod.fst = b.transactions :=
  map_fst_zip h.idsLength.ge

theorem spent_eq : b.spent isCoinbase =
    b.transactions.flatMap (fun tx => if isCoinbase tx then [] else tx.inputs) := by
  rw [← h.identified_transactions, flatMap_map]
  rfl

theorem mem_apply (o : OutPoint) : o ∈ applyTransactions isCoinbase coins b.identified ↔
      (o ∈ coins ∨ o ∈ b.created) ∧ o ∉ b.spent isCoinbase :=
  mem_applyTransactions h.inputs (h.identified_ids.symm ▸ h.idsNodup)
    (h.identified_ids.symm ▸ h.freshIds) o

theorem nodup_spent : (b.spent isCoinbase).Nodup :=
  BlvmNode.spent_nodup h.inputs (h.identified_ids.symm ▸ h.idsNodup)
    (h.identified_ids.symm ▸ h.freshIds)

theorem nodup_created : b.created.Nodup := by
  apply BlvmNode.created_nodup (h.identified_ids.symm ▸ h.idsNodup)
  intro tx htx
  apply h.outputCount tx.1
  rw [← h.identified_transactions]
  exact mem_map_of_mem htx

theorem hash_created (ho : o ∈ b.created) : o.hash ∈ b.txIds := by
  rw [← h.identified_ids]
  exact hash_of_mem_created ho

theorem notMem_of_created (ho : o ∈ b.created) : o ∉ coins :=
  fun hc => h.freshIds o hc (h.hash_created ho)

/-- An input refers to another transaction of the block exactly when the block creates the output.
-/
theorem spent_hash_iff (ho : o ∈ b.spent isCoinbase) : o.hash ∈ b.txIds.tail ↔ o ∈ b.created := by
  constructor
  · intro hid
    rcases spent_subset h.inputs ho with hc | hc
    · exact absurd (mem_of_mem_tail hid) (h.freshIds o hc)
    · exact hc
  · intro hc
    have hid := h.hash_created hc
    have hmat := h.matured o ho
    cases hids : b.txIds with
    | nil => simp [hids] at hid
    | cons id ids =>
      rw [hids] at hid hmat
      exact (mem_cons.mp hid).resolve_left (fun heq => hmat (congrArg some heq.symm))

end

end ValidBlock

theorem coinsAfter_append_singleton (blocks : List ChainBlock) (b : ChainBlock) :
    coinsAfter isCoinbase (blocks ++ [b]) =
      applyTransactions isCoinbase (coinsAfter isCoinbase blocks) b.identified := by
  simp [coinsAfter]

theorem coinsAt_append_singleton (h : ℤ) (blocks : List ChainBlock) (b : ChainBlock) :
    coinsAt isCoinbase h (blocks ++ [b]) =
      if b.height ≤ h then applyTransactions isCoinbase (coinsAt isCoinbase h blocks) b.identified
      else coinsAt isCoinbase h blocks := by
  by_cases hb : b.height ≤ h
  · simp [coinsAt, hb, coinsAfter]
  · simp [coinsAt, hb]

theorem lastCreation_append_singleton (h : ℤ) (blocks : List ChainBlock) (b : ChainBlock)
    (o : OutPoint) :
    lastCreation h (blocks ++ [b]) o =
      if b.height ≤ h ∧ o ∈ b.created then some b else lastCreation h blocks o := by
  simp only [lastCreation, reverse_append, reverse_singleton, singleton_append, find?_cons]
  split <;> simp_all

namespace ValidChain

variable {isCoinbase} {blocks : List ChainBlock} {b : ChainBlock} {h : ℤ}

theorem init (hc : ValidChain isCoinbase (blocks ++ [b])) : ValidChain isCoinbase blocks := by
  refine ⟨(pairwise_append.mp hc.heights).1, ?_, ?_⟩
  · exact fun x hx => hc.nonneg x (mem_append_left _ hx)
  · rintro front x back rfl
    exact hc.valid front x (back ++ [b]) (by simp)

theorem nil : ValidChain isCoinbase [] := ⟨Pairwise.nil, by simp, by simp⟩

theorem snoc (hc : ValidChain isCoinbase blocks)
    (hv : ValidBlock isCoinbase (coinsAfter isCoinbase blocks) b)
    (hlt : ∀ x ∈ blocks, x.height < b.height) (h0 : 0 ≤ b.height) :
    ValidChain isCoinbase (blocks ++ [b]) := by
  refine ⟨?_, ?_, ?_⟩
  · rw [pairwise_append]
    exact ⟨hc.heights, pairwise_singleton _ _, by simpa using hlt⟩
  · rw [forall_mem_append, forall_mem_singleton]
    exact ⟨hc.nonneg, h0⟩
  · intro front x back heq
    rcases eq_nil_or_concat back with rfl | ⟨back', y, rfl⟩
    · obtain ⟨rfl, hx⟩ := append_inj' heq rfl
      rw [singleton_inj] at hx
      exact hx ▸ hv
    · rw [concat_eq_append, ← cons_append, ← append_assoc] at heq
      exact hc.valid front x back' (append_inj' heq rfl).1

section

variable (hc : ValidChain isCoinbase (blocks ++ [b]))
include hc

theorem last : ValidBlock isCoinbase (coinsAfter isCoinbase blocks) b :=
  hc.valid blocks b [] rfl

theorem height_lt : ∀ x ∈ blocks, x.height < b.height := by
  intro x hx
  exact (pairwise_append.mp hc.heights).2.2 x hx b (mem_singleton_self b)

theorem coinsAt_eq (hb : b.height ≤ h) :
    coinsAt isCoinbase h blocks = coinsAfter isCoinbase blocks := by
  rw [coinsAt, filter_eq_self.mpr]
  intro x hx
  have := hc.height_lt x hx
  simp only [decide_eq_true_eq]
  omega

end

theorem exists_created (hc : ValidChain isCoinbase blocks)
    (ho : o ∈ coinsAfter isCoinbase blocks) : ∃ b ∈ blocks, o ∈ b.created := by
  induction blocks using reverseRecOn with
  | nil => simp [coinsAfter] at ho
  | append_singleton blocks b ih =>
    rw [coinsAfter_append_singleton, hc.last.mem_apply] at ho
    rcases ho.1 with hold | hnew
    · obtain ⟨x, hx, hcr⟩ := ih hc.init hold
      exact ⟨x, mem_append_left _ hx, hcr⟩
    · exact ⟨b, by simp, hnew⟩

theorem notMem_of_spentWhereCreated (hc : ValidChain isCoinbase blocks)
    (hs : SpentWhereCreated isCoinbase h blocks o) : o ∉ coinsAt isCoinbase h blocks := by
  induction blocks using reverseRecOn with
  | nil => simp [coinsAt, coinsAfter]
  | append_singleton blocks b ih =>
    obtain ⟨x, hx, hspent⟩ := hs
    rw [lastCreation_append_singleton] at hx
    rw [coinsAt_append_singleton]
    by_cases hb : b.height ≤ h
    · rw [if_pos hb, hc.coinsAt_eq hb, hc.last.mem_apply]
      by_cases ho : o ∈ b.created
      · simp only [hb, ho, and_self, if_true, Option.mem_some_iff] at hx
        exact fun hm => hm.2 (hx ▸ hspent)
      · simp only [ho, and_false, if_false] at hx
        have hprev := ih hc.init ⟨x, hx, hspent⟩
        rw [hc.coinsAt_eq hb] at hprev
        simp [hprev, ho]
    · simp only [hb, false_and, if_false] at hx ⊢
      exact ih hc.init ⟨x, hx, hspent⟩

end ValidChain

end BlvmNode
