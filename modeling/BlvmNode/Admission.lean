import BlvmNode.Replacement

/-!
# Admission to the pool

`add_transaction_with_witness` with its checks in the order of the code, and the dry run that
answers without touching the pool. What a replacement displaces is removed before the limits on
ancestors and descendants are checked.
-/

namespace BlvmNode

open List

namespace MempoolManager

variable (rules : ConsensusRules) (env : MempoolEnv) (st : MempoolManager) (tx : RawTransaction)
  (witnesses : Option (List Witness))

section Checks

def transactionRejects : Bool :=
  let policy := env.effectivePolicy
  decide (st.Pooled (rules.calculateTxId tx)) ||
  decide (¬ tx.prevouts.Nodup) ||
  (tx.inputs.isEmpty || tx.outputs.isEmpty) ||
  decide (policy.maxMempoolMb * 1048576 < accountedTxBytes tx rules witnesses) ||
  (policy.requireStandard && !(1 ≤ tx.version && tx.version ≤ 2)) ||
  (policy.requireStandard && maxStandardTxWeight < transactionWeight tx rules witnesses) ||
  (policy.requireStandard && rules.wireSize tx < minStandardTxNonwitnessSize) ||
  (policy.requireStandard &&
    tx.outputs.any (fun output => !outputScriptIsStandard rules output.scriptPubkey)) ||
  (policy.requireStandard &&
    tx.inputs.any (fun input => !rules.p2shPushOnlyCheck input.scriptSig)) ||
  (policy.requireStandard &&
    tx.inputs.any (fun input => maxStandardScriptsigSize < input.scriptSig.length)) ||
  (policy.rejectSpamInMempool && rules.isSpam tx witnesses)

/-- The confirmed coins a call can read: the wired ones, and by point-read those found nowhere else.
-/
def confirmedCoins : CoinView := fun o =>
  match env.utxoSet with
  | none => none
  | some utxoSet =>
    match utxoSet o with
    | some coin => some coin
    | none => if st.mempoolCreates o then none else env.snapshotPrevout o

def admissionSnapshot : CoinView := fun o =>
  if o ∈ tx.prevouts then confirmedCoins env st o else none

/-- One dust output passes for a parent that the package being admitted has recorded. -/
def ephemeralDustAllowed : Bool :=
  tx.outputs.countP (outputIsDust rules) == 1 &&
    decide (rules.calculateTxId tx ∈ st.ephemeralDustWaivers)

def nextBlock : ℕ × ℕ := env.finalityContext.getD (0, 0)

variable (view : CoinView)

def inputRejects : Bool :=
  !rules.isFinalTx tx (nextBlock env).1 (nextBlock env).2 ||
  st.relativeLockRejects view tx rules env ||
  (tx.outputs.any (outputIsDust rules) && !ephemeralDustAllowed rules st tx) ||
  immatureCoinbaseSpend view tx rules env ||
  st.unknownPrevout view tx env.utxoSet.isSome ||
  prevoutValueOutOfRange view tx ||
  st.prevoutSumExceedsMoney view tx ||
  st.outputsExceedInputs view tx

/-- A spent script that no rule has given a meaning yet. -/
def spendsUndefinedProgram (prevouts : List (Option InputPrevout)) : Bool :=
  prevouts.any (fun prevout => prevout.any (fun p =>
    rules.isUpgradableWitnessProgram p.script && !rules.isPayToAnchor p.script))

def spendsNonstandardScript (prevouts : List (Option InputPrevout)) : Bool :=
  prevouts.any (fun prevout => prevout.any (fun p => !spentScriptIsStandard rules p.script))

def scriptChecksReject : Bool :=
  let standard := env.effectivePolicy.requireStandard
  let prevouts := st.scriptPrevouts view tx
  (standard && p2shRedeemSigopsExceed rules tx prevouts) ||
  (standard && spendsUndefinedProgram rules prevouts) ||
  (standard && payToAnchorWitnessPresent rules tx prevouts witnesses) ||
  (standard && spendsNonstandardScript rules prevouts) ||
  (standard && p2wshDataItemExceeds tx prevouts witnesses) ||
  (standard && p2wshScriptExceeds tx prevouts witnesses) ||
  (standard && p2wshStackCountExceeds tx prevouts witnesses) ||
  (standard && taprootAnnexPresent tx prevouts witnesses) ||
  (standard && tapscriptDataItemExceeds tx prevouts witnesses) ||
  consensusChecksReject rules tx prevouts witnesses standard ||
  decide (rules.maxStandardTxSigopsCost < (st.admitVsize view tx rules witnesses env).2)

def feeRejects : Bool :=
  let fee := st.calculateTransactionFee view tx
  let vsize := (st.admitVsize view tx rules witnesses env).1
  (decide (rules.calculateTxId tx ∉ st.relayFloorWaivers) &&
    decide (fee < feeForSize env.effectivePolicy.minRelayFeeRate vsize)) ||
  decide (fee < env.effectivePolicy.minTxFee)

end Checks

section Displacement

def displacementSet : Option (List Hash) :=
  let direct := st.directConflicts tx
  if env.effectiveRbf.allowPackageReplacements then some (st.txsThisReplacementRemoves tx)
  else if direct.any (fun h => 1 < (st.replacementPackage h).length) then none
  else some direct

def displacedFeeRejects (view : CoinView) (displaced : List Hash) : Bool :=
  let vsize := (st.admitVsize view tx rules witnesses env).1
  decide (st.calculateTransactionFee view tx <
    (st.packageFeeAndVsize rules env view displaced).1 +
      feeForSize env.effectivePolicy.incrementalRelayFee vsize)

/-- Whether admission goes on after the conflicts (without one, after the recorded spends). -/
def conflictVerdict (view : CoinView) (displaced : List Hash) : Except Unit Bool :=
  if displaced.isEmpty then .ok (tx.prevouts.all (fun o => decide (o ∉ st.spentOutputs)))
  else if 100 < st.conflictingClusterCount (st.directConflicts tx) then .ok false
  else if displacedFeeRejects rules env st tx witnesses view displaced then .ok false
  else st.checkDirectConflicts rules env view witnesses tx (st.directConflicts tx)

def nextReplacementCount (counts : List ℕ) : ℕ := min (counts.foldl max 0 + 1) (2 ^ 32 - 1)

/-- The displaced transactions leave, and the new one is then tracked as their replacement. -/
def displace (displaced : List Hash) : MempoolManager :=
  match st.directConflicts tx with
  | [] => st
  | primary :: rest =>
    let cleared := st.removeTransactions displaced
    let original := ((cleared.rbfTracking primary).map (fun t => t.originalTxHash)).getD primary
    let count := nextReplacementCount ((primary :: rest).map fun h =>
      ((cleared.rbfTracking h).map (fun t => t.replacementCount)).getD 0)
    let tracking := Function.update cleared.rbfTracking (rules.calculateTxId tx)
      (some ⟨count, env.currentTimestamp, original⟩)
    { cleared with rbfTracking := fun h => if h ∈ displaced then none else tracking h }

end Displacement

section Admission

def checksReject : Bool :=
  let view := admissionSnapshot env st tx
  transactionRejects rules env st tx witnesses ||
  (env.utxoSet.isSome && env.utxoLocked) ||
  inputRejects rules env st tx view ||
  scriptChecksReject rules env st tx witnesses view ||
  (env.utxoSet.isSome && feeRejects rules env st tx witnesses view)

/-- After the displacement: the limits, the number of witness stacks, and the insertion. -/
def admitInto (cleared : MempoolManager) (vsize fee : ℕ) : MempoolManager × Except Unit Bool :=
  if cleared.checkAncestorDescendantLimits tx env.effectivePolicy vsize = false then
    (cleared, .ok false)
  else if witnesses.any (fun wits => wits.length != tx.inputs.length) then (cleared, .ok false)
  else (cleared.insertTransaction rules tx witnesses vsize fee, .ok true)

/-- The fee kept with the transaction; without a wired coin set none is computed. -/
def recordedFee : ℕ :=
  if env.utxoSet.isSome then st.calculateTransactionFee (admissionSnapshot env st tx) tx else 0

def addTransactionWithWitness : MempoolManager × Except Unit Bool :=
  if checksReject rules env st tx witnesses then (st, .ok false)
  else
    let view := admissionSnapshot env st tx
    match displacementSet env st tx with
    | none => (st, .ok false)
    | some displaced =>
      match conflictVerdict rules env st tx witnesses view displaced with
      | .error e => (st, .error e)
      | .ok false => (st, .ok false)
      | .ok true =>
        admitInto rules env tx witnesses (displace rules env st tx displaced)
          (st.admitVsize view tx rules witnesses env).1 (recordedFee env st tx)

/-- No check refuses the transaction, so that admission removes `displaced` next. -/
structure Clears (displaced : List Hash) : Prop where
  checks : checksReject rules env st tx witnesses = false
  displacement : displacementSet env st tx = some displaced
  verdict : conflictVerdict rules env st tx witnesses (admissionSnapshot env st tx) displaced =
    .ok true

end Admission

section Outcome

variable {rules env st tx witnesses} {h : Hash} {displaced : List Hash}

theorem transactionRejects_of_checks (h : checksReject rules env st tx witnesses = false) :
    transactionRejects rules env st tx witnesses = false := by
  simp only [checksReject, Bool.or_eq_false_iff] at h
  exact h.1.1.1.1

theorem not_pooled_of_checks (h : checksReject rules env st tx witnesses = false) :
    ¬ st.Pooled (rules.calculateTxId tx) := by
  have htx := transactionRejects_of_checks h
  simp only [transactionRejects, Bool.or_eq_false_iff, decide_eq_false_iff_not] at htx
  tauto

theorem witness_count_of_checks (h : checksReject rules env st tx witnesses = false) :
    witnesses.any (fun wits => wits.length != tx.inputs.length) = false := by
  simp only [checksReject, scriptChecksReject, consensusChecksReject, Bool.or_eq_false_iff] at h
  tauto

theorem mem_txsThisReplacementRemoves :
    h ∈ st.txsThisReplacementRemoves tx ↔
      ∃ d ∈ st.directConflicts tx, h ∈ st.replacementPackage d := by
  rw [txsThisReplacementRemoves, mem_eraseDups, mem_flatMap]

section

variable (hset : displacementSet env st tx = some displaced)
include hset

theorem mem_displaced :
    h ∈ displaced ↔ ∃ d ∈ st.directConflicts tx, h ∈ st.replacementPackage d := by
  rw [displacementSet] at hset
  split_ifs at hset with hallow hlong
  · cases hset
    exact mem_txsThisReplacementRemoves
  · cases hset
    rw [any_eq_true] at hlong
    push Not at hlong
    constructor
    · intro hd
      exact ⟨h, hd, root_mem_replacementPackage st h⟩
    · rintro ⟨d, hd, hmem⟩
      have hlen : (st.replacementPackage d).length ≤ 1 := by simpa using hlong d hd
      have hroot := root_mem_replacementPackage st d
      obtain ⟨a, ha⟩ := length_eq_one_iff.mp (le_antisymm hlen (length_pos_of_mem hmem))
      rw [ha, mem_singleton] at hmem hroot
      rwa [hmem, ← hroot]

theorem displaced_eq_nil (hdirect : st.directConflicts tx = []) : displaced = [] := by
  rw [eq_nil_iff_forall_not_mem]
  intro h hh
  obtain ⟨d, hd, _⟩ := (mem_displaced hset).mp hh
  simp [hdirect] at hd

theorem directConflicts_subset_displaced : st.directConflicts tx ⊆ displaced :=
  fun d hd => (mem_displaced hset).mpr ⟨d, hd, root_mem_replacementPackage st d⟩

end

theorem samePool_displace (rules : ConsensusRules)
    (hset : displacementSet env st tx = some displaced) :
    SamePool (st.removeTransactions displaced) (displace rules env st tx displaced) := by
  cases hdirect : st.directConflicts tx with
  | nil =>
    rw [displaced_eq_nil hset hdirect, displace, hdirect]
    exact ⟨rfl, rfl, rfl, rfl, rfl, rfl, rfl, rfl⟩
  | cons primary rest =>
    rw [displace, hdirect]
    exact ⟨rfl, rfl, rfl, rfl, rfl, rfl, rfl, rfl⟩

theorem tx_displace (hset : displacementSet env st tx = some displaced) (h : Hash) :
    (displace rules env st tx displaced).tx h = if h ∈ displaced then none else st.tx h := by
  rw [(samePool_displace rules hset).tx, tx_removeTransactions]

theorem pooled_displace_iff (hset : displacementSet env st tx = some displaced) :
    (displace rules env st tx displaced).Pooled h ↔ st.Pooled h ∧ h ∉ displaced := by
  rw [Pooled, tx_displace hset, Pooled]
  split_ifs with hh
  · simp [hh]
  · simp [hh]

theorem Clears.not_pooled (hc : Clears rules env st tx witnesses displaced) :
    ¬ (displace rules env st tx displaced).Pooled (rules.calculateTxId tx) := by
  rw [pooled_displace_iff hc.displacement]
  exact fun hpooled => not_pooled_of_checks hc.checks hpooled.1

theorem checkDirectConflicts_ok {view : CoinView} {direct : List Hash}
    (h : st.checkDirectConflicts rules env view witnesses tx direct = .ok true) {d : Hash}
    (hd : d ∈ direct) {existing : RawTransaction} (hex : st.tx d = some existing) :
    st.checkRbfReplacementWithWitness rules env view tx existing witnesses = .ok true := by
  induction direct with
  | nil => cases hd
  | cons k rest ih =>
    rw [checkDirectConflicts] at h
    split at h
    next hk =>
      rcases mem_cons.mp hd with rfl | hmem
      · rw [hk] at hex
        cases hex
      · exact ih h hmem
    next other hk =>
      split at h
      next hcheck =>
        rcases mem_cons.mp hd with rfl | hmem
        · rw [hk] at hex
          cases hex
          exact hcheck
        · exact ih h hmem
      next hcheck => exact absurd h hcheck

theorem Clears.replacement
    (hc : Clears rules env st tx witnesses displaced) (hne : displaced ≠ []) :
    displacedFeeRejects rules env st tx witnesses (admissionSnapshot env st tx) displaced = false ∧
      st.checkDirectConflicts rules env (admissionSnapshot env st tx) witnesses tx
        (st.directConflicts tx) = .ok true := by
  have hverdict := hc.verdict
  rw [conflictVerdict, isEmpty_eq_false_iff.mpr hne] at hverdict
  simp only [Bool.false_eq_true, if_false] at hverdict
  split_ifs at hverdict with hclusters hfee
  · cases hverdict
  · cases hverdict
  · exact ⟨by simpa using hfee, hverdict⟩

/-- Either a check before the displacement refuses, or the displaced transactions leave. -/
theorem addTransactionWithWitness_cases :
    (∃ res, addTransactionWithWitness rules env st tx witnesses = (st, res) ∧ res ≠ .ok true) ∨
      ∃ displaced, Clears rules env st tx witnesses displaced := by
  cases hchecks : checksReject rules env st tx witnesses with
  | true => exact .inl ⟨.ok false, by simp [addTransactionWithWitness, hchecks], by simp⟩
  | false =>
    cases hset : displacementSet env st tx with
    | none => exact .inl ⟨.ok false, by simp [addTransactionWithWitness, hchecks, hset], by simp⟩
    | some displaced =>
      cases hverdict : conflictVerdict rules env st tx witnesses (admissionSnapshot env st tx)
          displaced with
      | error e =>
        refine .inl ⟨.error e, ?_, nofun⟩
        simp [addTransactionWithWitness, hchecks, hset, hverdict]
      | ok b =>
        cases b with
        | false =>
          refine .inl ⟨.ok false, ?_, nofun⟩
          simp [addTransactionWithWitness, hchecks, hset, hverdict]
        | true => exact .inr ⟨displaced, hchecks, hset, hverdict⟩

theorem addTransactionWithWitness_after (hc : Clears rules env st tx witnesses displaced) :
    let cleared := displace rules env st tx displaced
    let vsize := (st.admitVsize (admissionSnapshot env st tx) tx rules witnesses env).1
    addTransactionWithWitness rules env st tx witnesses =
      if cleared.checkAncestorDescendantLimits tx env.effectivePolicy vsize then
        (cleared.insertTransaction rules tx witnesses vsize (recordedFee env st tx), .ok true)
      else (cleared, .ok false) := by
  intro cleared vsize
  rw [addTransactionWithWitness, hc.checks]
  simp only [Bool.false_eq_true, if_false, hc.displacement, hc.verdict]
  change admitInto rules env tx witnesses cleared vsize (recordedFee env st tx) = _
  rw [admitInto, witness_count_of_checks hc.checks]
  cases cleared.checkAncestorDescendantLimits tx env.effectivePolicy vsize with
  | false => simp
  | true => simp

-- From here on an admission is known by its outcome only.
attribute [irreducible] addTransactionWithWitness

end Outcome

end MempoolManager

end BlvmNode
