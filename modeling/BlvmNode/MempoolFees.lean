import BlvmNode.MempoolPool

/-!
# Fees, sizes and input coins

What admission reads about the inputs of a transaction. A coin of the view wins; otherwise the
output that a pooled transaction creates at the outpoint is taken. Every function here reads the
view at the inputs of the transaction only, so two views that agree there give the same answers.
-/

namespace BlvmNode

section Money

def maxMoney : ℕ := 2100000000000000

def moneySats (value : BitVec 64) : Option ℕ :=
  if 0 ≤ value.toInt ∧ value.toInt ≤ maxMoney then some value.toNat else none

def addMoney (total sats : ℕ) : Option ℕ :=
  if total + sats ≤ maxMoney then some (total + sats) else none

def outputSumSats (tx : RawTransaction) : Option ℕ :=
  tx.outputs.foldlM (fun total output => (moneySats output.value).bind (addMoney total)) 0

end Money

namespace MempoolManager

variable (st : MempoolManager) (view : CoinView) (tx : RawTransaction)

def unconfirmedCoin (output : TransactionOutput) : Utxo where
  value := output.value
  scriptPubkey := output.scriptPubkey
  height := 0
  isCoinbase := false

/-- The view wins; otherwise the output of a pooled transaction. -/
def spentCoin (o : OutPoint) : Option Utxo :=
  match view o with
  | some coin => some coin
  | none => (st.poolOutput o).map unconfirmedCoin

def scriptPrevouts : List (Option InputPrevout) :=
  tx.prevouts.map fun o =>
    (st.spentCoin view o).map fun coin => ⟨coin.value.toInt, coin.scriptPubkey⟩

section Coins

def mempoolInputValue (o : OutPoint) : Option ℕ :=
  (st.poolOutput o).bind (fun output => moneySats output.value)

def prevoutSats (o : OutPoint) : Option ℕ :=
  match view o with
  | some coin => moneySats coin.value
  | none => st.mempoolInputValue o

def prevoutValueOutOfRange : Bool :=
  tx.prevouts.any (fun o => (view o).any (fun coin => (moneySats coin.value).isNone))

/-- One input in the running sum of the inputs; a prevout that is not known adds nothing. -/
def addPrevout (total : ℕ) (o : OutPoint) : Option ℕ :=
  match st.prevoutSats view o with
  | some sats => addMoney total sats
  | none => if (view o).isSome then none else some total

def prevoutSumExceedsMoney : Bool := (tx.prevouts.foldlM (st.addPrevout view) 0).isNone

def outputsExceedInputs : Bool :=
  match outputSumSats tx,
      tx.prevouts.foldlM (fun total o => (st.prevoutSats view o).bind (addMoney total)) 0 with
  | some outputTotal, some inputTotal => inputTotal < outputTotal
  | _, _ => false

def inputTotal : Option ℕ :=
  tx.prevouts.foldlM (fun total o =>
    match st.prevoutSats view o with
    | some sats => addMoney total sats
    | none => some total) 0

def calculateTransactionFee : ℕ :=
  match st.inputTotal view tx, outputSumSats tx with
  | some inputTotal, some outputTotal => inputTotal - outputTotal
  | _, _ => 0

def unknownPrevout (utxoWired : Bool) : Bool :=
  utxoWired && tx.prevouts.any (fun o => (view o).isNone && !st.mempoolCreates o)

def immatureCoinbaseSpend (rules : ConsensusRules) (env : MempoolEnv) : Bool :=
  let height := (env.finalityContext.map (fun tip => tip.1)).getD 0
  tx.prevouts.any fun o => (view o).any fun coin =>
    !rules.checkCoinbaseMaturity height coin.height.toNat coin.isCoinbase

end Coins

section Locks

variable (rules : ConsensusRules) (env : MempoolEnv)

/-- The median time an input's lock counts from, -1 if the lock is not by time. -/
def lockMedianTime (blockMtp : ℤ) (input : TransactionInput) : Option ℤ :=
  let seq := input.sequence % 2 ^ 32
  if rules.isSequenceDisabled seq || !rules.extractSequenceTypeFlag seq then some (-1)
  else
    match view input.prevout with
    | some coin =>
      match env.priorMedianTime coin.height.toNat with
      | some mtp => some mtp
      | none =>
        if rules.extractSequenceLocktimeValue seq = 0 ∧ 0 ≤ blockMtp then some blockMtp
        else none
    | none =>
      if st.mempoolCreates input.prevout = true ∧ 0 ≤ blockMtp then some blockMtp else none

def relativeLockRejects : Bool :=
  match env.finalityContext with
  | none =>
    rules.versionEnforcesRelativeLock tx.version &&
      tx.inputs.any fun input =>
        let seq := input.sequence % 2 ^ 32
        !rules.isSequenceDisabled seq && rules.extractSequenceLocktimeValue seq != 0
  | some (blockHeight, blockMtp) =>
    let blockMtpI : ℤ := if blockMtp < 2 ^ 63 then blockMtp else -1
    match tx.inputs.mapM (st.lockMedianTime view rules env blockMtpI) with
    | none => true
    | some prevMtps =>
      !env.chainNetworkKnown ||
        rules.relativeLockUnsatisfied tx (tx.prevouts.map view) blockHeight blockMtp prevMtps

end Locks

section Sizes

/-- The guess used when no witness stacks were supplied. -/
def estimateTransactionWeight : ℕ :=
  let baseSize := 10 + (tx.inputs.map (fun input => 41 + input.scriptSig.length)).sum +
    (tx.outputs.map (fun output => 9 + output.scriptPubkey.length)).sum
  let segwitInputs := tx.inputs.countP (fun input => input.scriptSig.isEmpty)
  if 0 < segwitInputs then baseSize * 4 + (107 * segwitInputs + 2) else baseSize * 4

variable (rules : ConsensusRules) (witnesses : Option (List Witness))

def transactionWeight : ℕ :=
  (witnesses.bind (rules.weightFromStacks tx)).getD (estimateTransactionWeight tx)

def accountedTxBytes : ℕ :=
  rules.serializedSize tx +
    ((witnesses.getD []).map (fun stack => (stack.map List.length).sum)).sum

variable (env : MempoolEnv)

def admitVsize : ℕ × ℕ :=
  let policy := env.effectivePolicy
  let sigopCost :=
    if policy.countSigops then rules.sigopCost tx (tx.prevouts.map (st.spentCoin view)) witnesses
    else 0
  (rules.sigopAdjustedVsize (transactionWeight tx rules witnesses) sigopCost policy.bytesPerSigop,
    sigopCost)

def pooledVsize (h : Hash) : ℕ :=
  (st.adjustedVsize h).getD (st.admitVsize view tx rules (st.txWitnesses h) env).1

/-- `div_ceil(1000)` of a rate per kilobyte. -/
def feeForSize (rate vsize : ℕ) : ℕ := (rate * vsize + 999) / 1000

end Sizes

end MempoolManager

end BlvmNode
