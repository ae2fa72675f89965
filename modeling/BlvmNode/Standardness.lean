import BlvmNode.FlatTable

/-!
# Standard transactions

The transactions of the memory pool, the functions of the consensus crate that admission calls,
and the script policy the node adds to them: the pushes of a script, the standard output and input
scripts, the dust floor and the limits on witness stacks.
-/

namespace BlvmNode

open BigEndian

abbrev Script := List (BitVec 8)

abbrev Witness := List Script

structure TransactionInput where
  prevout : OutPoint
  scriptSig : Script
  sequence : ℕ
  deriving DecidableEq

deriving instance DecidableEq for TransactionOutput

/-- A transaction as it is relayed, without its witnesses. -/
structure RawTransaction where
  version : ℕ
  inputs : List TransactionInput
  outputs : List TransactionOutput
  lockTime : ℕ
  deriving DecidableEq

def RawTransaction.prevouts (tx : RawTransaction) : List OutPoint :=
  tx.inputs.map (fun input => input.prevout)

structure InputPrevout where
  value : ℤ
  script : Script

/-- What admission calls in the consensus crate. Coins are passed in the order of the inputs;
`scriptFlags` and `verifyScript` are those of the policy height. -/
structure ConsensusRules where
  calculateTxId : RawTransaction → Hash
  calculateWtxid : RawTransaction → Option (List Witness) → Hash
  isCoinbase : RawTransaction → Bool
  checkTransaction : RawTransaction → Bool
  scriptFlags : RawTransaction → Bool → BitVec 32
  standardFlags : BitVec 32
  verifyScript : BitVec 32 → RawTransaction → ℕ → List ℤ → List Script → Script → Script →
    Option Witness → Bool
  isFinalTx : RawTransaction → ℕ → ℕ → Bool
  versionEnforcesRelativeLock : ℕ → Bool
  isSequenceDisabled : ℕ → Bool
  extractSequenceTypeFlag : ℕ → Bool
  extractSequenceLocktimeValue : ℕ → ℕ
  relativeLockUnsatisfied : RawTransaction → List (Option Utxo) → ℕ → ℕ → List ℤ → Bool
  checkCoinbaseMaturity : ℕ → ℕ → Bool → Bool
  sigopCost : RawTransaction → List (Option Utxo) → Option (List Witness) → ℕ
  maxStandardTxSigopsCost : ℕ
  sigopAdjustedVsize : ℕ → ℕ → ℕ → ℕ
  weightFromStacks : RawTransaction → List Witness → Option ℕ
  serializedSize : RawTransaction → ℕ
  wireSize : RawTransaction → ℕ
  p2shPushOnlyCheck : Script → Bool
  isAnyWitnessProgram : Script → Bool
  isInvalidV0WitnessProgram : Script → Bool
  isUpgradableWitnessProgram : Script → Bool
  isPayToAnchor : Script → Bool
  countSigopsInScript : Script → ℕ
  isSpam : RawTransaction → Option (List Witness) → Bool
  signalsRbf : RawTransaction → Bool
  hasConflictWithTx : RawTransaction → RawTransaction → Bool
  replacementChecks : RawTransaction → RawTransaction → (OutPoint → Option Utxo) → List Hash →
    Option (List Witness) → Except Unit Bool

section Pushes

def takePayload (n : ℕ) (script : Script) : Option (Script × Script) :=
  if n ≤ script.length then some (script.take n, script.drop n) else none

/-- A push at the front of a script and the rest; `reserved` lets the opcode 0x50 pass. -/
def readPush (reserved : Bool) : Script → Option (Script × Script)
  | [] => none
  | opcode :: rest =>
    if opcode ≤ 0x4b#8 then takePayload opcode.toNat rest
    else if opcode = 0x4c#8 then
      if rest.length < 1 then none
      else takePayload (value (rest.take 1).reverse) (rest.drop 1)
    else if opcode = 0x4d#8 then
      if rest.length < 2 then none
      else takePayload (value (rest.take 2).reverse) (rest.drop 2)
    else if opcode = 0x4e#8 then
      if rest.length < 4 then none
      else takePayload (value (rest.take 4).reverse) (rest.drop 4)
    else if opcode = 0x50#8 ∧ reserved = false then none
    else if opcode ≤ 0x60#8 then some ([], rest)
    else none

/-- The pushes of a push-only script; every push is at least one byte long. -/
def pushes (reserved : Bool) : ℕ → Script → Option (List Script)
  | _, [] => some []
  | 0, _ :: _ => none
  | fuel + 1, script => do
      let (payload, rest) ← readPush reserved script
      let more ← pushes reserved fuel rest
      pure (payload :: more)

def lastScriptPush (script : Script) : Option Script :=
  (pushes false script.length script).bind List.getLast?

def lastPushPayload (script : Script) : Option Script :=
  (pushes true script.length script).bind List.getLast?

def opReturnPayloadIsPushOnly (script : Script) : Bool :=
  (pushes true script.length script.tail).isSome

end Pushes

section Scripts

variable (rules : ConsensusRules)

def isP2shScript (script : Script) : Bool :=
  script.length == 23 && script.take 2 == [0xa9#8, 0x14#8] && script.drop 22 == [0x87#8]

def isP2wshScript (script : Script) : Bool :=
  script.length == 34 && script.take 2 == [0x00#8, 0x20#8]

def isTaprootOutput (script : Script) : Bool :=
  script.length == 34 && script.take 2 == [0x51#8, 0x20#8]

/-- `script_needs_witness_verification` of the redeem script of a pay-to-script-hash spend. -/
def p2shRedeemIsWitnessProgram (scriptPubkey scriptSig : Script) : Bool :=
  isP2shScript scriptPubkey && (lastScriptPush scriptSig).any rules.isAnyWitnessProgram

/-- The keys of a bare multisig script: the rest after `n` of them. -/
def skipMultisigKeys : ℕ → Script → Option Script
  | 0, script => some script
  | n + 1, push :: header :: rest =>
    let length := if push = 0x21#8 then 33 else 65
    if (push = 0x21#8 ∧ (header = 0x02#8 ∨ header = 0x03#8)) ∨
        (push = 0x41#8 ∧ header = 0x04#8) then
      (takePayload length (header :: rest)).bind (fun res => skipMultisigKeys n res.2)
    else none
  | _ + 1, _ => none

/-- `bare_multisig_within`: `m` and `n` as opcodes, between them exactly `n` keys. -/
def bareMultisigWithin (script : Script) (maxKeys : ℕ) : Bool :=
  match script.head?, script.reverse with
  | some mOp, last :: nOp :: _ =>
    4 ≤ script.length && last == 0xae#8 && 0x51 ≤ nOp.toNat && nOp.toNat ≤ 0x51 + (maxKeys - 1) &&
      0x51 ≤ mOp.toNat && mOp.toNat ≤ 0x60 && mOp.toNat ≤ nOp.toNat &&
      skipMultisigKeys (nOp.toNat - 0x50) ((script.drop 1).dropLast.dropLast) == some []
  | _, _ => false

def maxStandardTxWeight : ℕ := 400000

def minStandardTxNonwitnessSize : ℕ := 65

def maxStandardScriptsigSize : ℕ := 1650

def maxStandardOpReturnSize : ℕ := maxStandardTxWeight / 4

def outputScriptIsStandard (script : Script) : Bool :=
  if script.isEmpty then false
  else if script.head? = some 0x6a#8 then
    script.length ≤ maxStandardOpReturnSize && opReturnPayloadIsPushOnly script
  else
    (rules.isAnyWitnessProgram script && !rules.isInvalidV0WitnessProgram script) ||
    (script.length == 25 && script.take 3 == [0x76#8, 0xa9#8, 0x14#8] &&
      script.drop 23 == [0x88#8, 0xac#8]) ||
    isP2shScript script ||
    (script.length == 35 && script.head? == some 0x21#8 &&
      (script[1]? == some 0x02#8 || script[1]? == some 0x03#8) && script.drop 34 == [0xac#8]) ||
    (script.length == 67 && script.take 2 == [0x41#8, 0x04#8] && script.drop 66 == [0xac#8]) ||
    bareMultisigWithin script 3

def spentScriptIsStandard (script : Script) : Bool :=
  outputScriptIsStandard rules script || bareMultisigWithin script 16

/-- `output_is_dust`: below three satoshis for each byte the output and its spend take. -/
def outputIsDust (output : TransactionOutput) : Bool :=
  if output.scriptPubkey.head? = some 0x6a#8 then false
  else
    let length := output.scriptPubkey.length
    let compact := if length < 253 then 1 else if length ≤ 0xffff then 3 else 5
    let spend :=
      if rules.isAnyWitnessProgram output.scriptPubkey then 32 + 4 + 1 + 107 / 4 + 4
      else 32 + 4 + 1 + 107 + 4
    let threshold := (8 + compact + length + spend) * 3000 / 1000
    output.value.toInt < (threshold : ℤ)

end Scripts

section Inputs

variable (rules : ConsensusRules) (tx : RawTransaction) (prevouts : List (Option InputPrevout))
  (witnesses : Option (List Witness))

def maxStandardP2shSigops : ℕ := 15

def p2shRedeemSigopsExceed : Bool :=
  (tx.inputs.zip prevouts).any fun (input, prevout) =>
    prevout.any fun p => isP2shScript p.script &&
      (lastPushPayload input.scriptSig).any fun redeem =>
        maxStandardP2shSigops < rules.countSigopsInScript redeem

/-- A condition on the witness stack of some input with a known prevout. -/
def anyWitness (spends : InputPrevout → Script → Bool) (bad : Witness → Bool) : Bool :=
  match witnesses with
  | none => false
  | some wits =>
    ((List.range prevouts.length).any fun i =>
      ((prevouts[i]?).join).any fun prevout =>
        spends prevout (((tx.inputs[i]?).map (fun input => input.scriptSig)).getD []) &&
          (wits[i]?).any bad)

/-- A pay-to-witness-script-hash spend, native or inside a script hash. -/
def spendsP2wsh (prevout : InputPrevout) (scriptSig : Script) : Bool :=
  isP2wshScript prevout.script ||
    (isP2shScript prevout.script && (lastScriptPush scriptSig).any isP2wshScript)

def payToAnchorWitnessPresent : Bool :=
  anyWitness tx prevouts witnesses (fun prevout _ => rules.isPayToAnchor prevout.script)
    (fun stack => !stack.isEmpty)

def p2wshDataItemExceeds : Bool :=
  anyWitness tx prevouts witnesses spendsP2wsh
    (fun stack => (stack.take (stack.length - 1)).any (fun item => 80 < item.length))

def p2wshScriptExceeds : Bool :=
  anyWitness tx prevouts witnesses spendsP2wsh
    (fun stack => stack.getLast?.any (fun script => 3600 < script.length))

def p2wshStackCountExceeds : Bool :=
  anyWitness tx prevouts witnesses spendsP2wsh (fun stack => 100 < stack.length - 1)

def taprootAnnexPresent : Bool :=
  anyWitness tx prevouts witnesses (fun prevout _ => isTaprootOutput prevout.script)
    (fun stack => 2 ≤ stack.length && stack.getLast?.any (fun annex => annex.head? == some 0x50#8))

def tapscriptDataItemExceeds : Bool :=
  anyWitness tx prevouts witnesses (fun prevout _ => isTaprootOutput prevout.script)
    (fun stack => 2 ≤ stack.length &&
      stack.getLast?.any (fun control => control.head?.any
          (fun header => header &&& 0xfe#8 == 0xc0#8)) &&
      (stack.take (stack.length - 2)).any (fun item => 80 < item.length))

def policyFlags (hasWitness requireStandard : Bool) : BitVec 32 :=
  rules.scriptFlags tx hasWitness ||| 0x40#32 |||
    (if requireStandard then rules.standardFlags else 0#32)

/-- `consensus_checks_reject`: structure, coinbase, witness count and scripts with a known prevout.
-/
def consensusChecksReject (requireStandard : Bool) : Bool :=
  rules.isCoinbase tx || !rules.checkTransaction tx ||
    witnesses.any (fun wits => wits.length != tx.inputs.length) ||
    (let needsWitness := (tx.inputs.zip prevouts).any fun (input, prevout) =>
      prevout.any fun p => rules.isAnyWitnessProgram p.script ||
        p2shRedeemIsWitnessProgram rules p.script input.scriptSig
     let hasWitness := needsWitness || witnesses.any (fun wits => !wits.isEmpty)
     let flags := policyFlags rules tx hasWitness requireStandard
     let values := prevouts.map (fun prevout => (prevout.map (fun p => p.value)).getD 0)
     let scripts := prevouts.map (fun prevout => (prevout.map (fun p => p.script)).getD [])
     (List.range tx.inputs.length).any fun i =>
       match tx.inputs[i]?, (prevouts[i]?).join with
       | some input, some p =>
         !rules.verifyScript flags tx i values scripts input.scriptSig p.script
           (witnesses.bind (fun wits => wits[i]?))
       | _, _ => false)

end Inputs

end BlvmNode
