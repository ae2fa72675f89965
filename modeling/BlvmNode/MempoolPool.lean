import BlvmNode.Standardness
import BlvmNode.Lib.KeyTable
import BlvmNode.Lib.Worklist

/-!
# The pool of unconfirmed transactions

The transactions of the pool by id, the outputs they spend, the links from parents to children,
and how a transaction enters and leaves all of these. A transaction is removed with its package:
itself and everything that can be reached from it over the links to pooled children.
-/

namespace BlvmNode

open Worklist List KeyTable

inductive RbfMode where
  | disabled
  | conservative
  | standard
  | aggressive
  deriving DecidableEq

/-- `min_fee_rate_multiplier` in millionths; none if it is not a finite rate. -/
structure RbfConfig where
  mode : RbfMode
  minFeeRateMultiplier : Option ℕ
  allowPackageReplacements : Bool
  maxReplacementsPerTx : ℕ
  cooldownSeconds : ℕ

def RbfConfig.default : RbfConfig where
  mode := .standard
  minFeeRateMultiplier := some 1000000
  allowPackageReplacements := true
  maxReplacementsPerTx := 10
  cooldownSeconds := 0

structure MempoolPolicyConfig where
  maxMempoolMb : ℕ
  minRelayFeeRate : ℕ
  bytesPerSigop : ℕ
  countSigops : Bool
  minTxFee : ℕ
  incrementalRelayFee : ℕ
  maxAncestorCount : ℕ
  maxAncestorSize : ℕ
  maxDescendantCount : ℕ
  maxDescendantSize : ℕ
  requireStandard : Bool
  rejectSpamInMempool : Bool

def MempoolPolicyConfig.default : MempoolPolicyConfig where
  maxMempoolMb := 300
  minRelayFeeRate := 100
  bytesPerSigop := 20
  countSigops := true
  minTxFee := 0
  incrementalRelayFee := 100
  maxAncestorCount := 25
  maxAncestorSize := 101000
  maxDescendantCount := 25
  maxDescendantSize := 101000
  requireStandard := true
  rejectSpamInMempool := false

abbrev CoinView := OutPoint → Option Utxo

/-- What a call reads outside the pool: the wired coins and whether they are locked, the point-read
behind them, the next block's height and median time, and the settings. -/
structure MempoolEnv where
  utxoSet : Option CoinView
  utxoLocked : Bool
  snapshotPrevout : CoinView
  finalityContext : Option (ℕ × ℕ)
  priorMedianTime : ℕ → Option ℤ
  chainNetworkKnown : Bool
  currentTimestamp : ℕ
  policyConfig : Option MempoolPolicyConfig
  rbfConfig : Option RbfConfig

namespace MempoolEnv

def effectivePolicy (env : MempoolEnv) : MempoolPolicyConfig :=
  env.policyConfig.getD MempoolPolicyConfig.default

def effectiveRbf (env : MempoolEnv) : RbfConfig := env.rbfConfig.getD RbfConfig.default

end MempoolEnv

structure RbfTracking where
  replacementCount : ℕ
  lastReplacementTime : ℕ
  originalTxHash : Hash
  deriving DecidableEq

abbrev LinkMap := KeyTable Hash (List Hash)

variable (m : LinkMap)

namespace LinkMap

def of (m : LinkMap) (h : Hash) : List Hash := (KeyTable.get m h).getD []

/-- `entry(h).or_default()` with more members. -/
def add (m : LinkMap) (h : Hash) (new : List Hash) : LinkMap := KeyTable.insert m h (new ∪ m.of h)

/-- `remove(&h)` in the sets of `owners`. -/
def unlink (m : LinkMap) (owners : List Hash) (h : Hash) : LinkMap :=
  KeyTable.mapRows m (fun owner set =>
    if owner ∈ owners then set.filter (fun x => decide (x ≠ h)) else set)

theorem of_add (h : Hash) (new : List Hash) (k : Hash) :
    (m.add h new).of k = if k = h then new ∪ m.of h else m.of k := by
  rw [of, add, get_insert]
  split_ifs <;> rfl

theorem mem_of_unlink {m : LinkMap} {owners : List Hash} {h k x : Hash} :
    x ∈ (m.unlink owners h).of k ↔ x ∈ m.of k ∧ ¬ (k ∈ owners ∧ x = h) := by
  rw [of, unlink, get_mapRows, of]
  cases get m k with
  | none => simp
  | some set =>
    by_cases hk : k ∈ owners
    · simp [hk]
    · simp [hk]

theorem of_erase (h k : Hash) : of (erase m h) k = if k = h then [] else m.of k := by
  rw [of, get_erase]
  split_ifs <;> rfl

end LinkMap

open LinkMap

/-- Accepted inside the previewed package: size and visible parents of each, and the direct
children. -/
structure PackagePreview where
  txs : KeyTable Hash (ℕ × List Hash)
  descendants : LinkMap

def PackagePreview.empty : PackagePreview := ⟨KeyTable.empty, KeyTable.empty⟩

structure MempoolManager where
  transactions : KeyTable Hash RawTransaction
  wtxids : Hash → Option Hash
  txWitnesses : Hash → Option (List Witness)
  adjustedVsize : Hash → Option ℕ
  spentOutputs : Finset OutPoint
  spenders : OutPoint → Option Hash
  feeDeltas : Hash → Option ℤ
  feeCache : Hash → Option ℕ
  feeBasis : Hash → Option (ℕ × ℕ)
  feeIndex : ℕ → List Hash
  rbfTracking : Hash → Option RbfTracking
  txDependencies : LinkMap
  txDescendants : LinkMap
  relayFloorWaivers : Finset Hash
  ephemeralDustWaivers : Finset Hash
  packagePreview : PackagePreview

namespace MempoolManager

def new : MempoolManager where
  transactions := KeyTable.empty
  wtxids := fun _ => none
  txWitnesses := fun _ => none
  adjustedVsize := fun _ => none
  spentOutputs := ∅
  spenders := fun _ => none
  feeDeltas := fun _ => none
  feeCache := fun _ => none
  feeBasis := fun _ => none
  feeIndex := fun _ => []
  rbfTracking := fun _ => none
  txDependencies := KeyTable.empty
  txDescendants := KeyTable.empty
  relayFloorWaivers := ∅
  ephemeralDustWaivers := ∅
  packagePreview := PackagePreview.empty

variable (st : MempoolManager) {p c : Hash} {o : OutPoint}

def tx (h : Hash) : Option RawTransaction := st.transactions.get h

def Pooled (h : Hash) : Prop := (st.tx h).isSome = true

instance (h : Hash) : Decidable (st.Pooled h) := inferInstanceAs (Decidable (_ = _))

def poolOutput (o : OutPoint) : Option TransactionOutput :=
  (st.tx o.hash).bind (fun tx => tx.outputs[o.index.toNat]?)

def mempoolCreates (o : OutPoint) : Bool := (st.poolOutput o).isSome

/-- What the pool records for an id beside the transaction, its links and its spends. -/
def records (k : Hash) :=
  (st.wtxids k, st.txWitnesses k, st.adjustedVsize k, st.feeDeltas k, st.rbfTracking k)

/-- What the fee maps hold for an id: rate, fee and size, and how often each rate lists it. -/
def feeData (k : Hash) := (st.feeCache k, st.feeBasis k, fun rate => (st.feeIndex rate).count k)

def children (h : Hash) : List Hash :=
  (st.txDescendants.of h).filter (fun c => decide (st.Pooled c))

/-- `replacement_package`: the root and all its pooled descendants. -/
def replacementPackage (root : Hash) : List Hash :=
  explore st.children (st.transactions.keys.length + 1) [root] []

/-- The fee index without an id, which it lists under the cached rate. -/
def unlisted (h : Hash) : ℕ → List Hash :=
  match st.feeCache h with
  | none => st.feeIndex
  | some rate => Function.update st.feeIndex rate
      ((st.feeIndex rate).filter (fun k => decide (k ≠ h)))

def removeTransaction (h : Hash) : MempoolManager :=
  match st.tx h with
  | none => st
  | some tx =>
    let dependencies := st.txDependencies.unlink (st.txDescendants.of h) h
    { st with
      transactions := st.transactions.erase h
      wtxids := Function.update st.wtxids h none
      txWitnesses := Function.update st.txWitnesses h none
      adjustedVsize := Function.update st.adjustedVsize h none
      spentOutputs := st.spentOutputs \ tx.prevouts.toFinset
      spenders := fun o => if o ∈ tx.prevouts then none else st.spenders o
      feeDeltas := Function.update st.feeDeltas h none
      feeCache := Function.update st.feeCache h none
      feeBasis :=
        if (st.feeCache h).isSome then Function.update st.feeBasis h none else st.feeBasis
      feeIndex := st.unlisted h
      rbfTracking := Function.update st.rbfTracking h none
      txDependencies := dependencies.erase h
      txDescendants := LinkMap.unlink (st.txDescendants.erase h) (dependencies.of h) h }

def removeTransactions (ids : List Hash) : MempoolManager := ids.foldl removeTransaction st

def updateDependencyGraph (tx : RawTransaction) (h : Hash) : MempoolManager :=
  let parents := (tx.prevouts.map (fun o => o.hash)).filter (fun p => decide (st.Pooled p))
  { st with
    txDependencies := st.txDependencies.add h parents
    txDescendants := parents.foldl (fun m p => m.add p [h]) (st.txDescendants.add h []) }

def insertTransaction (rules : ConsensusRules) (tx : RawTransaction)
    (witnesses : Option (List Witness)) (vsize fee : ℕ) : MempoolManager :=
  let h := rules.calculateTxId tx
  let rate := fee / vsize
  updateDependencyGraph
    { st with
      transactions := st.transactions.insert h tx
      wtxids := Function.update st.wtxids h (some (rules.calculateWtxid tx witnesses))
      adjustedVsize := Function.update st.adjustedVsize h (some vsize)
      txWitnesses :=
        match witnesses with
        | none => st.txWitnesses
        | some wits => Function.update st.txWitnesses h (some wits)
      spentOutputs := st.spentOutputs ∪ tx.prevouts.toFinset
      spenders := fun o => if o ∈ tx.prevouts then some h else st.spenders o
      feeCache := Function.update st.feeCache h (some rate)
      feeBasis := Function.update st.feeBasis h (some (fee, vsize))
      feeIndex := Function.update st.feeIndex rate (st.feeIndex rate ++ [h]) }
    tx h

/-- `clear`, which leaves the witness, size and dependency maps as they are. -/
def clear : MempoolManager :=
  { st with
    transactions := KeyTable.empty
    spentOutputs := ∅
    spenders := fun _ => none
    feeDeltas := fun _ => none
    feeCache := fun _ => none
    feeBasis := fun _ => none
    feeIndex := fun _ => []
    rbfTracking := fun _ => none }

section Packages

variable {root h : Hash}

theorem mem_replacementPackage {st : MempoolManager} :
    h ∈ st.replacementPackage root ↔ Worklist.Reaches st.children root h := by
  have hnext : ∀ x ∈ (root :: st.transactions.keys).toFinset, ∀ y ∈ st.children x,
      y ∈ (root :: st.transactions.keys).toFinset := by
    intro x _ y hy
    have hpooled := of_decide_eq_true (mem_filter.mp hy).2
    rw [mem_toFinset]
    exact mem_cons_of_mem root (mem_keys_iff.mpr hpooled)
  have hcard : (root :: st.transactions.keys).toFinset.card ≤ st.transactions.keys.length + 1 :=
    toFinset_card_le _
  rw [replacementPackage, mem_explore_iff hnext (by simp) hcard (by simp)]
  simp

theorem root_mem_replacementPackage (root : Hash) : root ∈ st.replacementPackage root :=
  mem_replacementPackage.mpr Relation.ReflTransGen.refl

theorem children_subset_replacementPackage {st : MempoolManager}
    (hp : p ∈ st.replacementPackage root) (hc : c ∈ st.children p) :
    c ∈ st.replacementPackage root :=
  mem_replacementPackage.mpr (Relation.ReflTransGen.tail (mem_replacementPackage.mp hp) hc)

theorem pooled_of_mem_replacementPackage {st : MempoolManager}
    (hroot : st.Pooled root) (hh : h ∈ st.replacementPackage root) : st.Pooled h := by
  rcases Relation.ReflTransGen.cases_tail (mem_replacementPackage.mp hh) with heq | ⟨p, _, hstep⟩
  · exact heq ▸ hroot
  · exact of_decide_eq_true (mem_filter.mp hstep).2

end Packages

section Removal

variable {st : MempoolManager} {h : Hash} {tx : RawTransaction}

theorem removeTransaction_of_none (hnone : st.tx h = none) : st.removeTransaction h = st := by
  rw [removeTransaction, hnone]

theorem tx_removeTransaction (h k : Hash) :
    (st.removeTransaction h).tx k = if k = h then none else st.tx k := by
  cases htx : st.tx h with
  | none =>
    rw [removeTransaction_of_none htx]
    split_ifs with hk
    · rw [hk, htx]
    · rfl
  | some tx =>
    simp only [removeTransaction, htx]
    exact get_erase st.transactions h k

theorem pooled_removeTransaction_iff {k : Hash} :
    (st.removeTransaction h).Pooled k ↔ st.Pooled k ∧ k ≠ h := by
  rw [Pooled, tx_removeTransaction, Pooled]
  split_ifs with hk
  · simp [hk]
  · simp [hk]

theorem tx_removeTransactions (ids : List Hash) (k : Hash) :
    (st.removeTransactions ids).tx k = if k ∈ ids then none else st.tx k := by
  induction ids generalizing st with
  | nil => simp [removeTransactions]
  | cons h ids ih =>
    rw [removeTransactions, foldl_cons, ← removeTransactions, ih, tx_removeTransaction]
    by_cases hids : k ∈ ids
    · simp [hids]
    · by_cases hk : k = h
      · simp [hk]
      · simp [hids, hk]

theorem records_removeTransaction (h k : Hash) :
    (st.removeTransaction h).records k =
      if k = h ∧ st.Pooled h then (none, none, none, none, none) else st.records k := by
  cases htx : st.tx h with
  | none => simp [removeTransaction_of_none htx, Pooled, htx]
  | some tx =>
    by_cases hk : k = h
    · simp [records, removeTransaction, htx, Pooled, hk]
    · simp [records, removeTransaction, htx, hk]

theorem records_removeTransactions (ids : List Hash) (k : Hash) :
    (st.removeTransactions ids).records k =
      if k ∈ ids ∧ st.Pooled k then (none, none, none, none, none) else st.records k := by
  induction ids generalizing st with
  | nil => simp [removeTransactions]
  | cons h ids ih =>
    rw [removeTransactions, foldl_cons, ← removeTransactions, ih, records_removeTransaction]
    simp only [pooled_removeTransaction_iff, mem_cons]
    by_cases hk : k = h
    · simp [hk]
    · simp [hk]

theorem feeData_removeTransaction {k : Hash} (hk : k ≠ h) :
    (st.removeTransaction h).feeData k = st.feeData k := by
  cases htx : st.tx h with
  | none => rw [removeTransaction_of_none htx]
  | some tx =>
    simp only [feeData, removeTransaction, htx, Function.update_of_ne hk, Prod.mk.injEq, true_and]
    refine ⟨?_, funext fun rate => ?_⟩
    · split_ifs
      · exact Function.update_of_ne hk _ _
      · rfl
    · unfold unlisted
      cases st.feeCache h with
      | none => rfl
      | some rate' =>
        by_cases hr : rate = rate'
        · subst hr
          simp [count_filter, hk]
        · simp [Function.update_of_ne hr]

theorem feeData_removeTransactions {ids : List Hash} {k : Hash} (hk : k ∉ ids) :
    (st.removeTransactions ids).feeData k = st.feeData k := by
  induction ids generalizing st with
  | nil => rfl
  | cons h ids ih =>
    rw [mem_cons, not_or] at hk
    exact (ih hk.2).trans (feeData_removeTransaction hk.1)

theorem spenders_removeTransaction (htx : st.tx h = some tx) (o : OutPoint) :
    (st.removeTransaction h).spenders o = if o ∈ tx.prevouts then none else st.spenders o := by
  simp only [removeTransaction, htx]

theorem mem_spentOutputs_removeTransaction (htx : st.tx h = some tx) :
    o ∈ (st.removeTransaction h).spentOutputs ↔ o ∈ st.spentOutputs ∧ o ∉ tx.prevouts := by
  simp only [removeTransaction, htx, Finset.mem_sdiff, mem_toFinset]

theorem mem_dependencies_removeTransaction (hh : st.Pooled h) :
    p ∈ (st.removeTransaction h).txDependencies.of c ↔
      c ≠ h ∧ p ∈ st.txDependencies.of c ∧ ¬ (c ∈ st.txDescendants.of h ∧ p = h) := by
  obtain ⟨tx, htx⟩ := Option.isSome_iff_exists.mp hh
  simp only [removeTransaction, htx, of_erase]
  split_ifs with hc
  · simp [hc]
  · rw [mem_of_unlink]
    simp [hc]

theorem mem_descendants_removeTransaction (hh : st.Pooled h) :
    c ∈ (st.removeTransaction h).txDescendants.of p ↔
      p ≠ h ∧ c ∈ st.txDescendants.of p ∧ ¬ (p ∈ st.txDependencies.of h ∧ c = h) := by
  obtain ⟨tx, htx⟩ := Option.isSome_iff_exists.mp hh
  simp only [removeTransaction, htx, mem_of_unlink, of_erase]
  by_cases hp : p = h
  · simp [hp]
  · simp [hp]

end Removal

section Insertion

variable {rules : ConsensusRules} {tx : RawTransaction} {witnesses : Option (List Witness)}
  {vsize fee : ℕ}

theorem tx_insertTransaction (k : Hash) :
    (st.insertTransaction rules tx witnesses vsize fee).tx k =
      if k = rules.calculateTxId tx then some tx else st.tx k :=
  get_insert st.transactions _ _ k

theorem pooled_insertTransaction_iff {st : MempoolManager} {h : Hash} :
    (st.insertTransaction rules tx witnesses vsize fee).Pooled h ↔
      st.Pooled h ∨ h = rules.calculateTxId tx := by
  rw [Pooled, tx_insertTransaction, Pooled]
  split_ifs with hh
  · simp [hh]
  · simp [hh]

theorem spenders_insertTransaction (o : OutPoint) :
    (st.insertTransaction rules tx witnesses vsize fee).spenders o =
      if o ∈ tx.prevouts then some (rules.calculateTxId tx) else st.spenders o := rfl

theorem mem_spentOutputs_insertTransaction :
    o ∈ (st.insertTransaction rules tx witnesses vsize fee).spentOutputs ↔
      o ∈ st.spentOutputs ∨ o ∈ tx.prevouts := by
  simp only [insertTransaction, updateDependencyGraph, Finset.mem_union, mem_toFinset]

theorem mem_foldl_add (parents : List Hash) {h k x : Hash} :
    x ∈ (parents.foldl (fun m p => m.add p [h]) m).of k ↔
      x ∈ m.of k ∨ k ∈ parents ∧ x = h := by
  induction parents generalizing m with
  | nil => simp
  | cons p parents ih =>
    rw [foldl_cons, ih, of_add]
    split_ifs with hk
    · subst hk
      rw [mem_union_iff, mem_singleton, mem_cons]
      tauto
    · rw [mem_cons]
      tauto

theorem mem_parents_insertTransaction : p ∈ (tx.prevouts.map (fun o => o.hash)).filter
        (fun p => decide ((st.transactions.insert (rules.calculateTxId tx) tx).get p).isSome) ↔
      p ∈ tx.prevouts.map (fun o => o.hash) ∧ (st.Pooled p ∨ p = rules.calculateTxId tx) := by
  rw [mem_filter, decide_eq_true_eq]
  refine and_congr_right fun _ => ?_
  rw [get_insert]
  split_ifs with hp
  · simp [hp]
  · simp [hp, Pooled, MempoolManager.tx]

theorem mem_dependencies_insertTransaction :
    p ∈ (st.insertTransaction rules tx witnesses vsize fee).txDependencies.of c ↔
      p ∈ st.txDependencies.of c ∨ c = rules.calculateTxId tx ∧
        p ∈ tx.prevouts.map (fun o => o.hash) ∧ (st.Pooled p ∨ p = rules.calculateTxId tx) := by
  rw [← mem_parents_insertTransaction]
  simp only [insertTransaction, updateDependencyGraph, of_add]
  split_ifs with hc
  · subst hc
    rw [mem_union_iff]
    tauto
  · tauto

theorem mem_descendants_insertTransaction :
    c ∈ (st.insertTransaction rules tx witnesses vsize fee).txDescendants.of p ↔
      c ∈ st.txDescendants.of p ∨ c = rules.calculateTxId tx ∧
        p ∈ tx.prevouts.map (fun o => o.hash) ∧ (st.Pooled p ∨ p = rules.calculateTxId tx) := by
  rw [← mem_parents_insertTransaction]
  simp only [insertTransaction, updateDependencyGraph, mem_foldl_add, of_add]
  split_ifs with hp
  · subst hp
    rw [nil_union]
    tauto
  · tauto

end Insertion

section Frames

/-- The part of the state that says which transactions are pooled and how they are linked. -/
structure SamePool (st st' : MempoolManager) : Prop where
  transactions : st'.transactions = st.transactions
  wtxids : st'.wtxids = st.wtxids
  txWitnesses : st'.txWitnesses = st.txWitnesses
  adjustedVsize : st'.adjustedVsize = st.adjustedVsize
  spentOutputs : st'.spentOutputs = st.spentOutputs
  spenders : st'.spenders = st.spenders
  txDependencies : st'.txDependencies = st.txDependencies
  txDescendants : st'.txDescendants = st.txDescendants

theorem SamePool.tx {st st' : MempoolManager} (hsame : SamePool st st') (h : Hash) :
    st'.tx h = st.tx h := by
  rw [MempoolManager.tx, hsame.transactions, MempoolManager.tx]

theorem SamePool.pooled_iff {st st' : MempoolManager} (hsame : SamePool st st') {h : Hash} :
    st'.Pooled h ↔ st.Pooled h := by
  rw [Pooled, hsame.tx, Pooled]

end Frames

end MempoolManager

end BlvmNode
