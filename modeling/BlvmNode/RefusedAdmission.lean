import BlvmNode.SpendMaps

/-!
# What a refused admission leaves behind

Every check before the displacement leaves the pool as it was. The limits on ancestors and
descendants are checked after the displaced transactions have been removed, so a transaction that
they refuse has still displaced its conflicts.
-/

namespace BlvmNode

open MempoolManager

variable {rules : ConsensusRules} {env : MempoolEnv} {st : MempoolManager} {tx : RawTransaction}
  {witnesses : Option (List Witness)}

/-- The pooled transactions, their witnesses, the spend maps and the replacement tracking are the
same. -/
structure SameContents (st st' : MempoolManager) : Prop where
  tx : ∀ h, st'.tx h = st.tx h
  txWitnesses : ∀ h, st'.txWitnesses h = st.txWitnesses h
  spenders : ∀ o, st'.spenders o = st.spenders o
  spentOutputs : st'.spentOutputs = st.spentOutputs
  rbfTracking : ∀ h, st'.rbfTracking h = st.rbfTracking h

theorem SameContents.refl (st : MempoolManager) : SameContents st st :=
  ⟨fun _ => rfl, fun _ => rfl, fun _ => rfl, rfl, fun _ => rfl⟩

/-- A replacement that passes every other check meets the limits once what it displaces is gone. -/
def LimitsHoldAfterDisplacing (rules : ConsensusRules) (env : MempoolEnv) (st : MempoolManager)
    (tx : RawTransaction) (witnesses : Option (List Witness)) : Prop :=
  ∀ displaced, Clears rules env st tx witnesses displaced → displaced ≠ [] →
    (displace rules env st tx displaced).checkAncestorDescendantLimits tx env.effectivePolicy
      (st.admitVsize (admissionSnapshot env st tx) tx rules witnesses env).1 = true

theorem displace_nil (hset : displacementSet env st tx = some []) :
    displace rules env st tx [] = st := by
  have hdirect : st.directConflicts tx = [] :=
    List.subset_nil.mp (directConflicts_subset_displaced hset)
  rw [displace, hdirect]

theorem not_sameContents_displace {displaced : List Hash} (hst : SpendsTracked rules st)
    (hset : displacementSet env st tx = some displaced) (hne : displaced ≠ []) :
    ¬ SameContents st (displace rules env st tx displaced) := by
  intro hsame
  obtain ⟨h, hh⟩ := List.exists_mem_of_ne_nil displaced hne
  obtain ⟨d, hd, _⟩ := (mem_displaced hset).mp hh
  obtain ⟨existing, hex⟩ := hst.exists_of_mem_directConflicts hd
  have hgone := hsame.tx d
  rw [tx_displace hset, if_pos (directConflicts_subset_displaced hset hd), hex] at hgone
  cases hgone

/-- A refused transaction, or one whose admission fails, leaves the pool unchanged exactly if the
limits hold after the displacement. -/
theorem refusal_leaves_pool_iff (rules : ConsensusRules) (env : MempoolEnv) (st : MempoolManager)
    (tx : RawTransaction) (witnesses : Option (List Witness)) (hst : SpendsTracked rules st) :
    ((addTransactionWithWitness rules env st tx witnesses).2 ≠ .ok true →
      SameContents st (addTransactionWithWitness rules env st tx witnesses).1) ↔
    LimitsHoldAfterDisplacing rules env st tx witnesses := by
  constructor
  · intro hsame displaced hc hne
    by_contra hlimits
    rw [addTransactionWithWitness_after hc, if_neg hlimits] at hsame
    exact not_sameContents_displace hst hc.displacement hne (hsame (nofun))
  · intro hlimits hrefused
    rcases @addTransactionWithWitness_cases rules env st tx witnesses with
      ⟨res, heq, _⟩ | ⟨displaced, hc⟩
    · rw [heq]
      exact SameContents.refl st
    · rw [addTransactionWithWitness_after hc] at hrefused ⊢
      split_ifs at hrefused ⊢ with hpass
      · exact absurd rfl hrefused
      · by_cases hne : displaced = []
        · subst hne
          rw [displace_nil hc.displacement]
          exact SameContents.refl st
        · exact absurd (hlimits displaced hc hne) hpass

section Concrete

def shortChains : MempoolEnv :=
  { wiredEnv [(⟨0#256, 0#32⟩, plainCoin 11000#64), (⟨0#256, 1#32⟩, plainCoin 11000#64)] with
    policyConfig := some { MempoolPolicyConfig.default with maxAncestorCount := 1 } }

def twoPooled : MempoolManager :=
  MempoolOp.run laxRules MempoolManager.new
    [(shortChains, .add (plainTx 1 [⟨0#256, 0#32⟩] [10000#64]) none),
      (shortChains, .add (plainTx 2 [⟨0#256, 1#32⟩] [10000#64]) none)]

theorem refusal_leaves_pool_unpaid :
    let tx := plainTx 3 [⟨0#256, 0#32⟩] [10000#64]
    (addTransactionWithWitness laxRules shortChains twoPooled tx none).2 = .ok false ∧
    (((addTransactionWithWitness laxRules shortChains twoPooled tx none).2 ≠ .ok true →
      SameContents twoPooled (addTransactionWithWitness laxRules shortChains twoPooled tx none).1) ↔
    LimitsHoldAfterDisplacing laxRules shortChains twoPooled tx none) :=
  ⟨by decide +kernel, refusal_leaves_pool_iff laxRules shortChains twoPooled _ none
    (spendsTracked_run laxRules _)⟩

/-- The first pooled transaction is displaced, and then the chain above the second is too long. -/
theorem refused_replacement_displaces :
    let tx := plainTx 3 [⟨0#256, 0#32⟩, ⟨2#256, 0#32⟩] [15000#64]
    let res := addTransactionWithWitness laxRules shortChains twoPooled tx none
    res.2 = .ok false ∧ (twoPooled.tx 1#256).isSome = true ∧ res.1.tx 1#256 = none ∧
      twoPooled.rbfTracking 3#256 = none ∧ (res.1.rbfTracking 3#256).isSome = true := by
  decide +kernel

end Concrete

end BlvmNode
