import BlvmNode.SpendMaps

/-!
# What a replacement pays for

Admission prices displaced transactions on the coins it has collected for the inputs of the new one.
Further confirmed coins they spend count as nothing, so the replacement is sure to pay for all that
it removes only if each confirmed input of a removed transaction is an input of its own too.
-/

namespace BlvmNode

open MempoolManager List Option

variable {rules : ConsensusRules} {env : MempoolEnv} {st : MempoolManager} {view : CoinView}
  {tx : RawTransaction} {witnesses : Option (List Witness)} {displaced : List Hash}

theorem foldlM_addMoney (amounts : List ℕ) {total : ℕ} (htotal : total ≤ maxMoney) :
    amounts.foldlM addMoney total =
      if total + amounts.sum ≤ maxMoney then some (total + amounts.sum) else none := by
  induction amounts generalizing total with
  | nil => simp [htotal]
  | cons amount amounts ih =>
    rw [foldlM_cons, addMoney, sum_cons]
    split_ifs with hfirst hsum hsum
    · rw [bind_eq_bind, bind_some, ih hfirst, if_pos (by omega)]
      congr 1
      omega
    · rw [bind_eq_bind, bind_some, ih hfirst, if_neg (by omega)]
    · omega
    · rfl

theorem moneySats_eq_some {value : BitVec 64} {sats : ℕ} (h : moneySats value = some sats) :
    value.toInt = sats := by
  rw [moneySats] at h
  split_ifs at h with hrange
  cases h
  rw [BitVec.toInt_eq_toNat_cond] at hrange ⊢
  split_ifs at hrange ⊢ with hsmall
  · rfl
  · have hlt := value.isLt
    omega

theorem outputSumSats_eq_some {total : ℕ} (h : outputSumSats tx = some total) :
    (tx.outputs.map (fun output => output.value.toInt)).sum = total := by
  have hfold : ∀ (outputs : List TransactionOutput) (start sum : ℕ),
      outputs.foldlM (fun total output => (moneySats output.value).bind (addMoney total)) start =
        some sum → start + (outputs.map (fun output => output.value.toInt)).sum = sum := by
    intro outputs
    induction outputs with
    | nil =>
      intro start sum hsum
      cases hsum
      simp
    | cons output outputs ih =>
      intro start sum hsum
      rw [foldlM_cons, bind_eq_bind, bind_eq_some_iff] at hsum
      obtain ⟨next, hnext, hrest⟩ := hsum
      obtain ⟨sats, hsats, hadd⟩ := bind_eq_some_iff.mp hnext
      rw [addMoney] at hadd
      split_ifs at hadd
      cases hadd
      have htail := ih _ _ hrest
      rw [map_cons, sum_cons, moneySats_eq_some hsats]
      push_cast at htail ⊢
      omega
  have hsum := hfold tx.outputs 0 total h
  simpa using hsum

namespace MempoolManager

variable (st view)

/-- The value of a spent output, confirmed or pooled; nothing if it is not known. -/
def coinSats (o : OutPoint) : ℕ := (st.prevoutSats view o).getD 0

def trueFee (tx : RawTransaction) : ℤ :=
  ((tx.prevouts.map (st.coinSats view)).sum : ℕ) -
    (tx.outputs.map (fun output => output.value.toInt)).sum

end MempoolManager

theorem sum_filterMap_prevoutSats (prevouts : List OutPoint) :
    (prevouts.filterMap (st.prevoutSats view)).sum = (prevouts.map (st.coinSats view)).sum := by
  induction prevouts with
  | nil => rfl
  | cons o prevouts ih =>
    rw [filterMap_cons, map_cons, sum_cons, coinSats]
    cases st.prevoutSats view o with
    | none => simpa using ih
    | some sats => rw [sum_cons, ih, getD_some]

theorem inputTotal_eq :
    st.inputTotal view tx =
      if (tx.prevouts.map (st.coinSats view)).sum ≤ maxMoney then
        some (tx.prevouts.map (st.coinSats view)).sum else none := by
  have hsum := foldlM_addMoney (tx.prevouts.filterMap (st.prevoutSats view)) (Nat.zero_le maxMoney)
  rw [Nat.zero_add, sum_filterMap_prevoutSats, foldlM_filterMap] at hsum
  rw [inputTotal, ← hsum]
  congr 1
  funext total o
  cases st.prevoutSats view o with
  | none | some sats => rfl

theorem calculateTransactionFee_eq :
    st.calculateTransactionFee view tx =
      match outputSumSats tx with
      | none => 0
      | some outputTotal =>
        if (tx.prevouts.map (st.coinSats view)).sum ≤ maxMoney then
          (tx.prevouts.map (st.coinSats view)).sum - outputTotal else 0 := by
  rw [calculateTransactionFee, inputTotal_eq]
  cases outputSumSats tx with
  | none => split_ifs <;> rfl
  | some outputTotal => split_ifs <;> rfl

theorem trueFee_of_pos (hpos : 0 < st.calculateTransactionFee view tx) :
    st.trueFee view tx = st.calculateTransactionFee view tx := by
  rw [calculateTransactionFee_eq] at hpos ⊢
  split at hpos
  next => exact absurd hpos (lt_irrefl 0)
  next outputTotal hout =>
    split_ifs at hpos ⊢ with hmax
    · rw [trueFee, outputSumSats_eq_some hout, Nat.cast_sub (Nat.lt_of_sub_pos hpos).le]
    · exact absurd hpos (lt_irrefl 0)

theorem nodup_eraseDups (l : List Hash) : l.eraseDups.Nodup := by
  induction hn : l.length using Nat.strong_induction_on generalizing l with
  | _ n ih =>
    cases l with
    | nil => simp
    | cons a l =>
      rw [eraseDups_cons, nodup_cons]
      refine ⟨?_, ih _ ?_ _ rfl⟩
      · rw [mem_eraseDups, mem_filter]
        simp
      · rw [← hn, length_cons]
        exact Nat.lt_succ_of_le (length_filter_le _ _)

theorem nodup_displaced (hset : displacementSet env st tx = some displaced) : displaced.Nodup := by
  rw [displacementSet] at hset
  split_ifs at hset <;>
  · cases hset
    exact nodup_eraseDups _

def removedTransactions (st st' : MempoolManager) : List Hash :=
  st.transactions.keys.filter (fun h => decide (¬ st'.Pooled h))

theorem pooled_of_mem_displaced (hst : SpendsTracked rules st)
    (hset : displacementSet env st tx = some displaced) {h : Hash} (hh : h ∈ displaced) :
    st.Pooled h := by
  obtain ⟨d, hd, hpackage⟩ := (mem_displaced hset).mp hh
  obtain ⟨existing, hex⟩ := hst.exists_of_mem_directConflicts hd
  exact pooled_of_mem_replacementPackage (by simp [Pooled, hex]) hpackage

theorem removedTransactions_perm (hst : SpendsTracked rules st)
    (hc : Clears rules env st tx witnesses displaced) (vsize fee : ℕ) :
    (removedTransactions st ((displace rules env st tx displaced).insertTransaction rules tx
      witnesses vsize fee)).Perm displaced := by
  have hpooled : ∀ h ∈ displaced, st.Pooled h :=
    fun _ => pooled_of_mem_displaced hst hc.displacement
  have hnodup := st.transactions.nodup.filter (fun h => decide (¬ ((displace rules env st tx
    displaced).insertTransaction rules tx witnesses vsize fee).Pooled h))
  refine (perm_ext_iff_of_nodup hnodup (nodup_displaced hc.displacement)).mpr fun h => ?_
  rw [mem_filter, decide_eq_true_eq, pooled_insertTransaction_iff,
    pooled_displace_iff hc.displacement, ← KeyTable.keys, KeyTable.mem_keys_iff]
  change st.Pooled h ∧ _ ↔ _
  constructor
  · rintro ⟨hold, hgone⟩
    by_contra hh
    exact hgone (.inl ⟨hold, hh⟩)
  · intro hh
    refine ⟨hpooled h hh, ?_⟩
    rintro (⟨_, hnot⟩ | rfl)
    · exact hnot hh
    · exact not_pooled_of_checks hc.checks (hpooled _ hh)

namespace MempoolManager

variable (st)

def pooledFee (coins : CoinView) (h : Hash) : ℤ := ((st.tx h).map (st.trueFee coins)).getD 0

/-- What the code takes the fee of a pooled transaction to be. -/
def pricedFee (view : CoinView) (h : Hash) : ℕ :=
  ((st.tx h).map (st.calculateTransactionFee view)).getD 0

/-- Outputs in range, inputs that do not exceed the money supply, and no confirmed input that the
new transaction does not spend itself. -/
structure PricedInFull (env : MempoolEnv) (tx t : RawTransaction) : Prop where
  outputs : (outputSumSats t).isSome = true
  inputs : (t.prevouts.map (st.coinSats (confirmedCoins env st))).sum ≤ maxMoney
  shared : ∀ o ∈ t.prevouts, (confirmedCoins env st o).isSome = true → o ∈ tx.prevouts

end MempoolManager

theorem admissionSnapshot_of_mem {o : OutPoint} (ho : o ∈ tx.prevouts) :
    admissionSnapshot env st tx o = confirmedCoins env st o := if_pos ho

theorem MempoolManager.PricedInFull.coinSats_eq {t : RawTransaction}
    (h : st.PricedInFull env tx t) :
    t.prevouts.map (st.coinSats (admissionSnapshot env st tx)) =
      t.prevouts.map (st.coinSats (confirmedCoins env st)) := by
  refine map_congr_left fun o ho => ?_
  rw [coinSats, coinSats, prevoutSats, prevoutSats]
  by_cases hspent : o ∈ tx.prevouts
  · rw [admissionSnapshot_of_mem hspent]
  · -- an input the new transaction does not spend is not confirmed, so neither view has it
    have hnone : confirmedCoins env st o = none := by
      rw [← not_isSome_iff_eq_none]
      exact fun hsome => hspent (h.shared o ho hsome)
    rw [hnone, admissionSnapshot, if_neg hspent]

theorem pooledFee_le_pricedFee {h : Hash}
    (hpriced : ∀ t, st.tx h = some t → st.PricedInFull env tx t) :
    st.pooledFee (confirmedCoins env st) h ≤ st.pricedFee (admissionSnapshot env st tx) h := by
  rw [pooledFee, pricedFee]
  cases ht : st.tx h with
  | none => rfl
  | some t =>
    have hfull := hpriced t ht
    obtain ⟨outputTotal, hout⟩ := isSome_iff_exists.mp hfull.outputs
    rw [map_some, map_some, getD_some, getD_some, calculateTransactionFee_eq, hout,
      hfull.coinSats_eq]
    dsimp only
    rw [if_pos hfull.inputs, trueFee, outputSumSats_eq_some hout]
    omega

theorem packageFeeAndVsize_fst (package : List Hash) :
    (st.packageFeeAndVsize rules env view package).1 = (package.map (st.pricedFee view)).sum := by
  rw [sum_eq_foldl, foldl_map]
  refine (foldl_hom Prod.fst ?_).symm
  intro totals h
  rw [pricedFee]
  cases st.tx h with
  | none | some tx => rfl

theorem fee_pos_of_rbf {existing : RawTransaction}
    (h : st.checkRbfReplacementWithWitness rules env view tx existing witnesses = .ok true) :
    0 < st.calculateTransactionFee view tx := by
  have hrate := (checkRbfReplacementWithWitness_ok h).1
  unfold replacementClearsFeeRate at hrate
  split at hrate
  · cases hrate
  · split_ifs at hrate
    have hlt := of_decide_eq_true (Except.ok.inj hrate)
    exact Nat.pos_of_mul_pos_right (Nat.zero_lt_of_lt hlt)

theorem clears_of_ok (hok : (addTransactionWithWitness rules env st tx witnesses).2 = .ok true) :
    ∃ displaced, Clears rules env st tx witnesses displaced ∧
      (addTransactionWithWitness rules env st tx witnesses).1 =
        (displace rules env st tx displaced).insertTransaction rules tx witnesses
          (st.admitVsize (admissionSnapshot env st tx) tx rules witnesses env).1
          (recordedFee env st tx) := by
  rcases @addTransactionWithWitness_cases rules env st tx witnesses with
    ⟨res, heq, hres⟩ | ⟨displaced, hc⟩
  · rw [heq] at hok
    exact absurd hok hres
  · refine ⟨displaced, hc, ?_⟩
    rw [addTransactionWithWitness_after hc] at hok ⊢
    split_ifs at hok ⊢
    · rfl
    · cases hok

theorem trueFee_of_replacement (hst : SpendsTracked rules st)
    (hc : Clears rules env st tx witnesses displaced) (hdirect : st.directConflicts tx ≠ []) :
    st.trueFee (confirmedCoins env st) tx =
      st.calculateTransactionFee (admissionSnapshot env st tx) tx := by
  obtain ⟨d, hd⟩ := exists_mem_of_ne_nil _ hdirect
  obtain ⟨existing, hex⟩ := hst.exists_of_mem_directConflicts hd
  have hne := ne_nil_of_mem (directConflicts_subset_displaced hc.displacement hd)
  have hrbf := checkDirectConflicts_ok (hc.replacement hne).2 hd hex
  rw [← trueFee_of_pos (fee_pos_of_rbf hrbf), trueFee, trueFee]
  congr 3
  refine map_congr_left fun o ho => ?_
  rw [coinSats, coinSats, prevoutSats, prevoutSats, admissionSnapshot_of_mem ho]

section Concrete

def richEnv : MempoolEnv :=
  wiredEnv [(⟨0#256, 0#32⟩, plainCoin 11000#64), (⟨0#256, 1#32⟩, plainCoin 100000#64)]

/-- A parent, and a child that also spends the second coin and pays its value as a fee. -/
def richChild : MempoolManager :=
  MempoolOp.run laxRules MempoolManager.new
    [(richEnv, .add (plainTx 1 [⟨0#256, 0#32⟩] [10000#64]) none),
      (richEnv, .add (plainTx 2 [⟨1#256, 0#32⟩, ⟨0#256, 1#32⟩] [10000#64]) none)]

end Concrete

end BlvmNode
