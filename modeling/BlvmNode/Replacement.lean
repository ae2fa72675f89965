import BlvmNode.MempoolFees

/-!
# Replacing pooled transactions

The conflicts of a new transaction, the packages they stand for, what these are worth, and the
limits on the ancestors and descendants of a transaction that enters the pool.
-/

namespace BlvmNode

open Worklist

namespace MempoolManager

variable (st : MempoolManager)

section Conflicts

variable (tx : RawTransaction)

/-- The pooled spenders of the inputs, each once, in the order of the inputs. -/
def directConflicts : List Hash := (tx.prevouts.filterMap st.spenders).eraseDups

def txsThisReplacementRemoves : List Hash :=
  ((st.directConflicts tx).flatMap st.replacementPackage).eraseDups

def clusterNeighbours (h : Hash) : List Hash :=
  st.children h ++
    (((st.tx h).map (fun tx => tx.prevouts.map (fun o => o.hash))).getD []).filter
      (fun p => decide (st.Pooled p))

/-- `conflicting_cluster_count`: connected components among the conflicts. -/
def conflictingClusterCount (direct : List Hash) : ℕ :=
  (direct.foldl (fun (acc : List Hash × ℕ) start =>
    if ¬ st.Pooled start ∨ start ∈ acc.1 then acc
    else (explore st.clusterNeighbours (st.transactions.keys.length + 1) [start] acc.1, acc.2 + 1))
    ([], 0)).2

end Conflicts

section Pricing

variable (rules : ConsensusRules) (env : MempoolEnv) (view : CoinView)

def packageFeeAndVsize (package : List Hash) : ℕ × ℕ :=
  package.foldl (fun totals h =>
    match st.tx h with
    | some tx => (totals.1 + st.calculateTransactionFee view tx,
        totals.2 + st.pooledVsize view tx rules env h)
    | none => totals) (0, 0)

/-- `replacement_input_view`: confirmed coins, and pooled outputs that the replacement keeps. -/
def replacementInputView (new existing : RawTransaction) : CoinView := fun o =>
  if o ∈ new.prevouts ++ existing.prevouts then
    match view o with
    | some coin => some coin
    | none =>
      if o.hash ∈ st.replacementPackage (rules.calculateTxId existing) then none
      else (st.poolOutput o).map unconfirmedCoin
  else none

/-- `replacement_clears_fee_rate`, with the multiplier in millionths. -/
def replacementClearsFeeRate (newFeeScaled existingFeeScaled : ℕ) (multiplier : Option ℕ) :
    Except Unit Bool :=
  match multiplier with
  | none => .ok false
  | some millis =>
    if 2 ^ 128 ≤ existingFeeScaled * millis then .error ()
    else .ok (existingFeeScaled * millis / 1000000 < newFeeScaled)

variable (new existing : RawTransaction) (witnesses : Option (List Witness))

/-- The replacement count and the cooldown of a tracked transaction. -/
def trackingRejects (h : Hash) : Bool :=
  (st.rbfTracking h).any fun tracking =>
    env.effectiveRbf.maxReplacementsPerTx ≤ tracking.replacementCount ||
      env.currentTimestamp - tracking.lastReplacementTime < env.effectiveRbf.cooldownSeconds

/-- The fee and the size a replacement of `existing` has to beat. -/
def existingFeeAndVsize : ℕ × ℕ :=
  let h := rules.calculateTxId existing
  if st.Pooled h ∧ env.effectiveRbf.allowPackageReplacements = true then
    st.packageFeeAndVsize rules env view (st.replacementPackage h)
  else (st.calculateTransactionFee view existing, st.pooledVsize view existing rules env h)

/-- `check_rbf_replacement_with_witness`, as admission calls it, without chain storage. -/
def checkRbfReplacementWithWitness : Except Unit Bool :=
  let rbf := env.effectiveRbf
  let h := rules.calculateTxId existing
  if rbf.mode = .disabled then .ok false
  else if rbf.mode = .conservative ∧ rules.signalsRbf existing = false then .ok false
  else if st.trackingRejects env h then .ok false
  else if st.Pooled h ∧ rbf.allowPackageReplacements = false ∧
      1 < (st.replacementPackage h).length then .ok false
  else
    let (existingFee, existingTxSize) := st.existingFeeAndVsize rules env view existing
    let newFee := st.calculateTransactionFee view new
    let newTxSize := (st.admitVsize view new rules witnesses env).1
    if newTxSize = 0 ∨ existingTxSize = 0 then .ok false
    else
      match replacementClearsFeeRate (newFee * existingTxSize) (existingFee * newTxSize)
          rbf.minFeeRateMultiplier with
      | .error e => .error e
      | .ok false => .ok false
      | .ok true =>
        if newFee < existingFee + feeForSize env.effectivePolicy.incrementalRelayFee newTxSize then
          .ok false
        else if rules.hasConflictWithTx new existing = false then .ok false
        else rules.replacementChecks new existing
          (st.replacementInputView rules view new existing) st.transactions.keys witnesses

variable {rules env view new existing witnesses} in
/-- A replacement that passes has a higher fee rate and has passed the consensus check on its own
view. -/
theorem checkRbfReplacementWithWitness_ok {st : MempoolManager}
    (h : st.checkRbfReplacementWithWitness rules env view new existing witnesses = .ok true) :
    replacementClearsFeeRate
        (st.calculateTransactionFee view new * (st.existingFeeAndVsize rules env view existing).2)
        ((st.existingFeeAndVsize rules env view existing).1 *
          (st.admitVsize view new rules witnesses env).1)
        env.effectiveRbf.minFeeRateMultiplier = .ok true ∧
      rules.replacementChecks new existing (st.replacementInputView rules view new existing)
        st.transactions.keys witnesses = .ok true := by
  rw [checkRbfReplacementWithWitness] at h
  dsimp only at h
  -- each condition that is met answers `Ok(false)` or an error
  iterate 5
    split at h
    · cases h
  split at h
  · cases h
  · cases h
  · next hrate =>
      split at h
      · cases h
      · split at h
        · cases h
        · exact ⟨hrate, h⟩

/-- The checks against each direct conflict that is in the pool. -/
def checkDirectConflicts (tx : RawTransaction) : List Hash → Except Unit Bool
  | [] => .ok true
  | h :: rest =>
    match st.tx h with
    | none => checkDirectConflicts tx rest
    | some existing =>
      match st.checkRbfReplacementWithWitness rules env view tx existing witnesses with
      | .ok true => checkDirectConflicts tx rest
      | res => res

end Pricing

section Limits

variable (tx : RawTransaction) (removed : List Hash)

/-- Pooled, or accepted earlier in the package being previewed. -/
def Visible (h : Hash) : Prop :=
  st.Pooled h ∨ (st.packagePreview.txs.get h).isSome = true

instance (h : Hash) : Decidable (st.Visible h) := inferInstanceAs (Decidable (_ ∨ _))

def visibleParents : List Hash :=
  (tx.prevouts.map (fun o => o.hash)).filter (fun p => decide (p ∉ removed ∧ st.Visible p))

def ancestorStep (h : Hash) : List Hash :=
  match st.tx h with
  | some tx => st.visibleParents tx removed
  | none =>
    (((st.packagePreview.txs.get h).map (fun entry => entry.2)).getD []).filter
      (fun p => decide (p ∉ removed))

def ancestorFuel : ℕ :=
  tx.inputs.length + st.transactions.keys.length + st.packagePreview.txs.keys.length +
    (st.packagePreview.txs.rows.map (fun row => row.2.2.length)).sum

def ancestors : List Hash :=
  explore (st.ancestorStep removed) (st.ancestorFuel tx) (st.visibleParents tx removed) []

/-- `descendant_closure`: what can be reached over the links, in one step at least. -/
def descendantClosure (links : LinkMap) (root : Hash) : List Hash :=
  explore links.of (links.rows.map (fun row => row.2.length)).sum (links.of root) []

/-- The size stored at admission, or that of the package being previewed. -/
def entryVsize (h : Hash) : ℕ :=
  ((st.adjustedVsize h).or ((st.packagePreview.txs.get h).map (fun entry => entry.1))).getD 0

def remainingDescendants (h : Hash) : List Hash :=
  (descendantClosure st.txDescendants h ∪ descendantClosure st.packagePreview.descendants h).filter
    (fun d => decide (d ∉ removed))

def checkAncestorDescendantLimits (policy : MempoolPolicyConfig) (candidateVsize : ℕ) : Bool :=
  let removed := st.txsThisReplacementRemoves tx
  let ancestors := st.ancestors tx removed
  ancestors.length + 1 ≤ policy.maxAncestorCount &&
    (ancestors.map st.entryVsize).sum + candidateVsize ≤ policy.maxAncestorSize &&
    ancestors.all fun a =>
      let existing := st.remainingDescendants removed a
      existing.length + 1 + 1 ≤ policy.maxDescendantCount &&
        st.entryVsize a + (existing.map st.entryVsize).sum + candidateVsize ≤
          policy.maxDescendantSize

end Limits

end MempoolManager

end BlvmNode
