import BlvmNode.Admission

/-!
# Operations on the pool

Packages with their waivers and their roll-back, eviction, connected blocks, reorgs and the other
operations a node calls on its pool. An operation reads its own surroundings: the coin set, the
tip and the settings may be different ones at every call.
-/

namespace BlvmNode

open Worklist List

namespace MempoolManager

abbrev PackageEntry := RawTransaction × Option (List Witness)

variable (rules : ConsensusRules) (env : MempoolEnv) (st : MempoolManager) (txs : List PackageEntry)

def packageIds : List Hash := txs.map (fun entry => rules.calculateTxId entry.1)

def packageUtxo (utxoSet : CoinView) : CoinView := fun o =>
  match txs.reverse.findSome? (fun entry =>
      if rules.calculateTxId entry.1 = o.hash then entry.1.outputs[o.index.toNat]? else none) with
  | some output => some (unconfirmedCoin output)
  | none => if o ∈ txs.flatMap (fun entry => entry.1.prevouts) then utxoSet o else none

/-- `package_relay_waivers`: the last transaction and its parents below the rate, if together they
meet it. -/
def packageRelayWaivers (utxo : CoinView) (rate : ℕ) : List Hash :=
  let spentByLast :=
    (txs.getLast?.map fun entry => entry.1.prevouts.map (fun o => o.hash)).getD []
  let fee := fun entry : PackageEntry => st.calculateTransactionFee utxo entry.1
  let vsize := fun entry : PackageEntry => (st.admitVsize utxo entry.1 rules entry.2 env).1
  let counted := (txs.zipIdx.filter fun entry =>
    decide (entry.2 + 1 = txs.length ∨ rules.calculateTxId entry.1.1 ∈ spentByLast)).map Prod.fst
  let totalFee := (counted.map fee).sum
  let totalVsize := (counted.map vsize).sum
  if totalVsize = 0 ∨ totalFee < feeForSize rate totalVsize then []
  else packageIds rules (counted.filter fun entry =>
    decide (fee entry < feeForSize rate (vsize entry)))

/-- `ephemeral_dust_parents`: zero-fee transactions whose one dust output the package spends. -/
def ephemeralDustParents (utxo : CoinView) : List PackageEntry → List Hash
  | [] => []
  | entry :: later =>
    let rest := ephemeralDustParents utxo later
    if st.calculateTransactionFee utxo entry.1 ≠ 0 then rest
    else
      match entry.1.outputs.zipIdx.filter (fun output => outputIsDust rules output.1) with
      | [dust] =>
        let spent : OutPoint := ⟨rules.calculateTxId entry.1, BitVec.ofNat 32 dust.2⟩
        if later.any (fun child => decide (spent ∈ child.1.prevouts)) then
          rules.calculateTxId entry.1 :: rest
        else rest
      | _ => rest

def armWaivers : MempoolManager :=
  match env.utxoSet with
  | none => st
  | some utxoSet =>
    let utxo := packageUtxo rules txs utxoSet
    { st with
      relayFloorWaivers := (packageRelayWaivers rules env st txs utxo
        env.effectivePolicy.minRelayFeeRate).toFinset
      ephemeralDustWaivers := (ephemeralDustParents rules st utxo txs).toFinset }

def dropWaivers : MempoolManager :=
  { st with relayFloorWaivers := ∅, ephemeralDustWaivers := ∅ }

def packageChildren (h : Hash) : List Hash :=
  packageIds rules (txs.filter fun entry => decide (h ∈ entry.1.prevouts.map (fun o => o.hash)))

def packageDescendants (h : Hash) : List Hash :=
  explore (packageChildren rules txs) (txs.length + 1) [h] []

def admittedIds (flags : List Bool) : List Hash :=
  (((packageIds rules txs).zip flags).filter (fun entry => entry.2)).map Prod.fst

abbrev RollState := MempoolManager × List Bool

def dropMember (acc : RollState) (member : Hash) : RollState :=
  (acc.1.removeTransaction member, acc.2.set ((packageIds rules txs).idxOf member) false)

/-- A waived transaction with a descendant that was not admitted takes its admitted descendants
along. -/
def dropWaived (waived : Finset Hash) (admitted : List Hash) (acc : RollState) (h : Hash) :
    RollState :=
  let closure := packageDescendants rules txs h
  if h ∈ waived ∧ h ∈ admitted ∧ closure.any (fun member => decide (member ∉ admitted)) then
    (closure.filter (fun member => decide (member ∈ admitted))).foldl (dropMember rules txs) acc
  else acc

def rollBackWaived (waived : Finset Hash) (admitted : List Hash) (acc : RollState) : RollState :=
  (packageIds rules txs).foldl (dropWaived rules txs waived admitted) acc

def parentMissing (flags : List Bool) (tx : RawTransaction) : Bool :=
  tx.prevouts.any fun o =>
    decide (o.hash ∈ packageIds rules txs) &&
      decide (flags[(packageIds rules txs).idxOf o.hash]? ≠ some true)

def dropOrphan (acc : RollState) (entry : PackageEntry × ℕ) : RollState :=
  if acc.2[entry.2]? = some true ∧ parentMissing rules txs acc.2 entry.1.1 = true then
    (acc.1.removeTransaction (rules.calculateTxId entry.1.1), acc.2.set entry.2 false)
  else acc

def orphanPass (acc : RollState) : RollState := txs.zipIdx.foldl (dropOrphan rules txs) acc

/-- Second phase: passes over the package until one drops nothing. -/
def rollBackOrphans : ℕ → RollState → RollState
  | 0, acc => acc
  | fuel + 1, acc =>
    let next := orphanPass rules txs acc
    if next.2 = acc.2 then next else rollBackOrphans fuel next

def rollBack (waived : Finset Hash) (acc : RollState) : RollState :=
  rollBackOrphans rules txs (txs.length + 1)
    (rollBackWaived rules txs waived (admittedIds rules txs acc.2) acc)

/-- The admissions of a package up to the first error: pool, flags and whether there was one. -/
def admitAll : MempoolManager → List PackageEntry → MempoolManager × List Bool × Bool
  | st, [] => (st, [], false)
  | st, entry :: rest =>
    match addTransactionWithWitness rules env st entry.1 entry.2 with
    | (st', .error _) => (st', [], true)
    | (st', .ok flag) =>
      let later := admitAll st' rest
      (later.1, flag :: later.2.1, later.2.2)

def addPackageWithWitnesses : MempoolManager × Except Unit (List Bool) :=
  if txs.isEmpty then (st, .ok [])
  else if env.utxoSet.isSome && env.utxoLocked then (st, .ok (txs.map fun _ => false))
  else
    let armed := armWaivers rules env st txs
    let waived := armed.relayFloorWaivers ∪ armed.ephemeralDustWaivers
    let offered := admitAll rules env armed txs
    let rolled := rollBack rules txs waived (dropWaivers offered.1, offered.2.1)
    (rolled.1, if offered.2.2 then .error () else .ok rolled.2)

/-- `evict_with_descendants`: the pool, the bytes and the number of transactions removed. -/
def evictWithDescendants (h : Hash) : MempoolManager × ℕ × ℕ :=
  if st.Pooled h then
    (st.replacementPackage h).foldl (fun acc id =>
      match acc.1.tx id with
      | none => acc
      | some tx => (acc.1.removeTransaction id,
          acc.2.1 + accountedTxBytes tx rules (acc.1.txWitnesses id), acc.2.2 + 1)) (st, 0, 0)
  else (st, 0, 0)

def mempoolSizeBytes : ℕ :=
  (st.transactions.rows.map fun row => accountedTxBytes row.2 rules (st.txWitnesses row.1)).sum

/-- The loop of `evict_ordered`: the bytes and transactions the caps still count. -/
def evictUntil (targetBytes targetTxCount : ℕ) :
    MempoolManager → ℕ → ℕ → List Hash → MempoolManager
  | st, _, _, [] => st
  | st, bytes, count, h :: order =>
    if bytes ≤ targetBytes ∧ count ≤ targetTxCount then st
    else
      let evicted := evictWithDescendants rules st h
      evictUntil targetBytes targetTxCount evicted.1 (bytes - evicted.2.1)
        (count - evicted.2.2) order

def evictOrdered (order : List Hash) (targetBytes targetTxCount : ℕ) : MempoolManager :=
  evictUntil rules targetBytes targetTxCount st (mempoolSizeBytes rules st)
    st.transactions.keys.length order

/-- The expired transactions of `cleanup_old_transactions`. -/
def expire (expired : List Hash) : MempoolManager :=
  expired.foldl (fun st h => (evictWithDescendants rules st h).1) st

/-- The ids a connected block removes: its own, and conflicting spends with all descendants. -/
def confirmedOrConflicting (block : List RawTransaction) : List Hash :=
  let spending := block.filter (fun tx => !rules.isCoinbase tx)
  let confirmed := spending.map rules.calculateTxId
  let spent := spending.flatMap (fun tx => tx.prevouts)
  let conflicting := ((st.transactions.rows.map Prod.snd).filter fun tx =>
    tx.prevouts.any (fun o => decide (o ∈ spent))).map rules.calculateTxId
  let conflicts := conflicting.filter (fun h => decide (h ∉ confirmed))
  (confirmed ++ conflicting ++ conflicts.flatMap st.replacementPackage).eraseDups

def removeForConnectedBlock (block : List RawTransaction) : MempoolManager :=
  st.removeTransactions (confirmedOrConflicting rules st block)

/-- The disconnected transactions offered again, with the witness stacks of their place. -/
def disconnectedEntries (disconnected : List (List RawTransaction))
    (witnesses : List (List (List Witness))) : List PackageEntry :=
  disconnected.zipIdx.flatMap fun block =>
    (block.1.zipIdx.filter (fun entry => !rules.isCoinbase entry.1)).map fun entry =>
      (entry.1, (witnesses[block.2]?).bind (fun stacksOfBlock => stacksOfBlock[entry.2]?))

def offerAll (entries : List PackageEntry) : MempoolManager :=
  entries.foldl (fun st entry => (addTransactionWithWitness rules env st entry.1 entry.2).1) st

/-- `apply_reorg`; the surroundings hold the installed coin set. -/
def applyReorg (disconnected : List (List RawTransaction))
    (witnesses : List (List (List Witness))) (connected : List (List RawTransaction)) :
    MempoolManager :=
  offerAll rules env (connected.foldl (removeForConnectedBlock rules) st)
    (disconnectedEntries rules disconnected witnesses)

/-- `prioritise_transaction`; the delta saturates at 64 bits. -/
def prioritiseTransaction (h : Hash) (feeDelta : ℤ) : MempoolManager :=
  if st.Pooled h then
    let sum := (st.feeDeltas h).getD 0 + feeDelta
    { st with
      feeDeltas :=
        Function.update st.feeDeltas h (some (max (-2 ^ 63) (min (2 ^ 63 - 1) sum))) }
  else st

variable {rules env st txs} {P : MempoolManager → Prop}

section Removals

variable {acc : RollState}

theorem rollBackWaived_induction {motive : RollState → Prop} {waived : Finset Hash}
    {admitted : List Hash} (hacc : motive acc)
    (hstep : ∀ acc, motive acc → ∀ member ∈ admitted, motive (dropMember rules txs acc member)) :
    motive (rollBackWaived rules txs waived admitted acc) := by
  refine foldlRecOn _ _ hacc ?_
  intro acc hacc h _
  rw [dropWaived]
  split_ifs
  · refine foldlRecOn _ _ hacc ?_
    intro acc hacc member hmember
    exact hstep acc hacc member (of_decide_eq_true (mem_filter.mp hmember).2)
  · exact hacc

theorem rollBackOrphans_induction {motive : RollState → Prop} (fuel : ℕ) (hacc : motive acc)
    (hstep : ∀ acc, motive acc → ∀ entry ∈ txs.zipIdx, motive (dropOrphan rules txs acc entry)) :
    motive (rollBackOrphans rules txs fuel acc) := by
  induction fuel generalizing acc with
  | zero => exact hacc
  | succ fuel ih =>
    have hnext : motive (orphanPass rules txs acc) := foldlRecOn _ _ hacc hstep
    rw [rollBackOrphans]
    split_ifs
    · exact hnext
    · exact ih hnext

section

variable (hremove : ∀ st h, P st → P (st.removeTransaction h)) {waived : Finset Hash}
include hremove

theorem removeTransactions_invariant (ids : List Hash) (hst : P st) :
    P (st.removeTransactions ids) :=
  foldlRecOn ids removeTransaction hst (fun st hst h _ => hremove st h hst)

theorem rollBack_invariant (hacc : P acc.1) : P (rollBack rules txs waived acc).1 := by
  refine rollBackOrphans_induction (motive := fun acc => P acc.1) _
    (rollBackWaived_induction (motive := fun acc => P acc.1) hacc ?_) ?_
  · exact fun acc hacc member _ => hremove acc.1 member hacc
  · intro acc hacc entry _
    rw [dropOrphan]
    split_ifs
    · exact hremove acc.1 _ hacc
    · exact hacc

end

theorem evictWithDescendants_eq (h : Hash) :
    (evictWithDescendants rules st h).1 =
      if st.Pooled h then st.removeTransactions (st.replacementPackage h) else st := by
  rw [evictWithDescendants]
  split_ifs
  · refine (foldl_hom Prod.fst ?_).symm
    intro acc id
    cases htx : acc.1.tx id with
    | none => exact removeTransaction_of_none htx
    | some tx => rfl
  · rfl

theorem evictWithDescendants_invariant (hremove : ∀ st h, P st → P (st.removeTransaction h))
    (h : Hash) (hst : P st) : P (evictWithDescendants rules st h).1 := by
  rw [evictWithDescendants_eq]
  split_ifs
  · exact removeTransactions_invariant hremove _ hst
  · exact hst

theorem evictOrdered_invariant (hevict : ∀ st h, P st → P (evictWithDescendants rules st h).1)
    (order : List Hash) (targetBytes targetTxCount : ℕ) (hst : P st) :
    P (evictOrdered rules st order targetBytes targetTxCount) := by
  rw [evictOrdered]
  generalize mempoolSizeBytes rules st = bytes
  generalize st.transactions.keys.length = count
  induction order generalizing st bytes count with
  | nil => exact hst
  | cons h order ih =>
    rw [evictUntil]
    split_ifs
    · exact hst
    · exact ih (hevict st h hst) _ _

theorem expire_invariant (hevict : ∀ st h, P st → P (evictWithDescendants rules st h).1)
    (expired : List Hash) (hst : P st) :
    P (MempoolManager.expire rules st expired) :=
  foldlRecOn (motive := P) expired _ hst (fun st hst h _ => hevict st h hst)

def poolLoad (rules : ConsensusRules) (st : MempoolManager) : ℕ × ℕ :=
  (mempoolSizeBytes rules st, st.transactions.keys.length)

theorem poolLoad_removeTransaction {h : Hash} {tx : RawTransaction} (htx : st.tx h = some tx) :
    (accountedTxBytes tx rules (st.txWitnesses h), 1) + poolLoad rules (st.removeTransaction h) =
      poolLoad rules st := by
  have hperm := KeyTable.rows_perm_erase htx
  simp only [poolLoad, mempoolSizeBytes, removeTransaction, htx, KeyTable.keys, length_map]
  rw [(hperm.map _).sum_eq, hperm.length_eq, map_cons, sum_cons, length_cons, Prod.mk_add_mk,
    add_comm 1]
  congr 3
  refine map_congr_left (fun row hrow => ?_)
  rw [Function.update_of_ne (of_decide_eq_true (mem_filter.mp hrow).2)]

theorem poolLoad_evictWithDescendants (rules : ConsensusRules) (st : MempoolManager) (h : Hash) :
    let evicted := evictWithDescendants rules st h
    evicted.2 + poolLoad rules evicted.1 = poolLoad rules st := by
  rw [evictWithDescendants]
  split_ifs
  · refine foldlRecOn (motive := fun acc : MempoolManager × ℕ × ℕ =>
      acc.2 + poolLoad rules acc.1 = _) _ _ (zero_add _) ?_
    intro acc hacc id _
    cases htx : acc.1.tx id with
    | none => exact hacc
    | some tx =>
      rw [← hacc, ← poolLoad_removeTransaction htx, ← add_assoc]
      rfl
  · exact zero_add _

/-- Eviction in an order that names every pooled transaction ends below both caps. -/
theorem eviction_restores_caps (rules : ConsensusRules) (st : MempoolManager) (order : List Hash)
    (targetBytes targetTxCount : ℕ) (horder : ∀ h, st.Pooled h → h ∈ order) :
    poolLoad rules (evictOrdered rules st order targetBytes targetTxCount) ≤
      (targetBytes, targetTxCount) := by
  rw [evictOrdered]
  induction order generalizing st with
  | nil =>
    have hempty : st.transactions.keys = [] := eq_nil_iff_forall_not_mem.mpr
      fun h hh => not_mem_nil (horder h (KeyTable.mem_keys_iff.mp hh))
    simp [evictUntil, poolLoad, mempoolSizeBytes, hempty, map_eq_nil_iff.mp hempty]
  | cons h order ih =>
    rw [evictUntil]
    split_ifs with hfits
    · exact hfits
    · -- the loop's counts are those of the pool that is left
      obtain ⟨hbytes, hcount⟩ := Prod.mk.inj (poolLoad_evictWithDescendants rules st h)
      simp only [← hbytes, ← hcount, Nat.add_sub_cancel_left]
      refine ih _ (fun k hk => ?_)
      rw [evictWithDescendants_eq] at hk
      split_ifs at hk with hpooled
      · rw [Pooled, tx_removeTransactions] at hk
        split_ifs at hk with hgone
        · cases hk
        · refine (mem_cons.mp (horder k hk)).resolve_left fun heq => hgone ?_
          exact heq ▸ root_mem_replacementPackage st h
      · exact (mem_cons.mp (horder k hk)).resolve_left fun heq => hpooled (heq ▸ hk)

end Removals

section Frames

theorem samePool_armWaivers (rules : ConsensusRules) (env : MempoolEnv) (st : MempoolManager)
    (txs : List PackageEntry) : SamePool st (armWaivers rules env st txs) := by
  rw [armWaivers]
  cases env.utxoSet with
  | none | some utxoSet => exact ⟨rfl, rfl, rfl, rfl, rfl, rfl, rfl, rfl⟩

variable (st : MempoolManager)

theorem samePool_dropWaivers : SamePool st (dropWaivers st) :=
  ⟨rfl, rfl, rfl, rfl, rfl, rfl, rfl, rfl⟩

theorem samePool_prioritise (h : Hash) (feeDelta : ℤ) :
    SamePool st (prioritiseTransaction st h feeDelta) := by
  rw [prioritiseTransaction]
  split_ifs <;> exact ⟨rfl, rfl, rfl, rfl, rfl, rfl, rfl, rfl⟩

end Frames

section Packages

variable {st' : MempoolManager} {rest : List PackageEntry} {entry : PackageEntry}

theorem admitAll_cons_error {e : Unit}
    (hres : addTransactionWithWitness rules env st entry.1 entry.2 = (st', .error e)) :
    admitAll rules env st (entry :: rest) = (st', [], true) := by
  simp only [admitAll, hres]

theorem admitAll_cons_ok {flag : Bool}
    (hres : addTransactionWithWitness rules env st entry.1 entry.2 = (st', .ok flag)) :
    admitAll rules env st (entry :: rest) =
      ((admitAll rules env st' rest).1, flag :: (admitAll rules env st' rest).2.1,
        (admitAll rules env st' rest).2.2) := by
  simp only [admitAll, hres]

theorem admitAll_invariant (hadd : ∀ st, ∀ entry ∈ txs, P st →
    P (addTransactionWithWitness rules env st entry.1 entry.2).1)
    (hst : P st) : P (admitAll rules env st txs).1 := by
  induction txs generalizing st with
  | nil => exact hst
  | cons entry rest ih =>
    have hnext := hadd st entry (mem_cons_self ..) hst
    rcases hres : addTransactionWithWitness rules env st entry.1 entry.2 with ⟨st', e | flag⟩
    · rw [hres] at hnext
      rw [admitAll_cons_error hres]
      exact hnext
    · rw [hres] at hnext
      rw [admitAll_cons_ok hres]
      exact ih (fun st other hother => hadd st other (mem_cons_of_mem _ hother)) hnext

theorem length_flags_admitAll_le (st : MempoolManager) (txs : List PackageEntry) :
    (admitAll rules env st txs).2.1.length ≤ txs.length := by
  induction txs generalizing st with
  | nil => exact le_rfl
  | cons entry rest ih =>
    rcases hres : addTransactionWithWitness rules env st entry.1 entry.2 with ⟨st', e | flag⟩
    · rw [admitAll_cons_error hres]
      exact Nat.zero_le _
    · rw [admitAll_cons_ok hres]
      exact Nat.succ_le_succ (ih st')

theorem offerAll_invariant (hadd : ∀ st (entry : PackageEntry), P st →
    P (addTransactionWithWitness rules env st entry.1 entry.2).1)
    (entries : List PackageEntry) (hst : P st) : P (offerAll rules env st entries) :=
  foldlRecOn (motive := P) entries _ hst (fun st hst entry _ => hadd st entry hst)

theorem addPackageWithWitnesses_invariant (hremove : ∀ st h, P st → P (st.removeTransaction h))
    (hsame : ∀ st st', SamePool st st' → P st → P st') (hoffers : P (armWaivers rules env st txs) →
      P (admitAll rules env (armWaivers rules env st txs) txs).1) (hst : P st) :
    P (addPackageWithWitnesses rules env st txs).1 := by
  rw [addPackageWithWitnesses]
  split_ifs
  · exact hst
  · exact hst
  · apply rollBack_invariant hremove
    apply hsame _ _ (samePool_dropWaivers _)
    exact hoffers (hsame _ _ (samePool_armWaivers rules env st txs) hst)

end Packages

end MempoolManager

inductive MempoolOp where
  | add (tx : RawTransaction) (witnesses : Option (List Witness))
  | addPackage (txs : List MempoolManager.PackageEntry)
  | remove (h : Hash)
  | evict (order : List Hash) (targetBytes targetTxCount : ℕ)
  | expire (expired : List Hash)
  | connectBlock (block : List RawTransaction)
  | reorg (disconnected : List (List RawTransaction)) (witnesses : List (List (List Witness)))
      (connected : List (List RawTransaction))
  | prioritise (h : Hash) (feeDelta : ℤ)
  | clear

namespace MempoolOp

open MempoolManager

def apply (rules : ConsensusRules) (st : MempoolManager) (call : MempoolEnv × MempoolOp) :
    MempoolManager :=
  match call.2 with
  | .add tx witnesses => (addTransactionWithWitness rules call.1 st tx witnesses).1
  | .addPackage txs => (addPackageWithWitnesses rules call.1 st txs).1
  | .remove h => st.removeTransaction h
  | .evict order targetBytes targetTxCount =>
    evictOrdered rules st order targetBytes targetTxCount
  | .expire expired => MempoolManager.expire rules st expired
  | .connectBlock block => removeForConnectedBlock rules st block
  | .reorg disconnected witnesses connected =>
    applyReorg rules call.1 st disconnected witnesses connected
  | .prioritise h feeDelta => prioritiseTransaction st h feeDelta
  | .clear => st.clear

def run (rules : ConsensusRules) (st : MempoolManager) (calls : List (MempoolEnv × MempoolOp)) :
    MempoolManager :=
  calls.foldl (apply rules) st

section

variable {rules : ConsensusRules} {P : MempoolManager → Prop} {st : MempoolManager}
  {call : MempoolEnv × MempoolOp}

/-- The offers of an operation, and its clearing, keep `P`. -/
def OffersKeep (rules : ConsensusRules) (P : MempoolManager → Prop) (st : MempoolManager)
    (call : MempoolEnv × MempoolOp) : Prop :=
  match call.2 with
  | .add tx witnesses => P (addTransactionWithWitness rules call.1 st tx witnesses).1
  | .addPackage txs =>
    let armed := armWaivers rules call.1 st txs
    P armed → P (admitAll rules call.1 armed txs).1
  | .reorg disconnected witnesses connected =>
    let reached := connected.foldl (removeForConnectedBlock rules) st
    P reached → P (offerAll rules call.1 reached (disconnectedEntries rules disconnected witnesses))
  | .clear => P st.clear
  | _ => True

theorem apply_invariant (hremove : ∀ st h, P st → P (st.removeTransaction h))
    (hsame : ∀ st st', SamePool st st' → P st → P st')
    (hoffers : OffersKeep rules P st call) (hst : P st) : P (apply rules st call) := by
  obtain ⟨env, op⟩ := call
  have hevict : ∀ st h, P st → P (evictWithDescendants rules st h).1 :=
    fun st h => evictWithDescendants_invariant hremove h
  cases op with
  | add tx witnesses => exact hoffers
  | addPackage txs => exact addPackageWithWitnesses_invariant hremove hsame hoffers hst
  | remove h => exact hremove st h hst
  | evict order targetBytes targetTxCount =>
    exact evictOrdered_invariant hevict order targetBytes targetTxCount hst
  | expire expired => exact expire_invariant hevict expired hst
  | connectBlock block => exact removeTransactions_invariant hremove _ hst
  | reorg disconnected witnesses connected =>
    apply hoffers
    exact foldlRecOn (motive := P) connected _ hst
      (fun st hst block _ => removeTransactions_invariant hremove _ hst)
  | prioritise h feeDelta => exact hsame _ _ (samePool_prioritise st h feeDelta) hst
  | clear => exact hoffers

end

end MempoolOp

section Concrete

/-- Rules under which every script passes and a transaction is named by its lock time. -/
def laxRules : ConsensusRules where
  calculateTxId := fun tx => BitVec.ofNat 256 tx.lockTime
  calculateWtxid := fun tx _ => BitVec.ofNat 256 tx.lockTime
  isCoinbase := fun tx => decide (tx.prevouts = [⟨0#256, 0xffffffff#32⟩])
  checkTransaction := fun _ => true
  scriptFlags := fun _ _ => 0
  standardFlags := 0
  verifyScript := fun _ _ _ _ _ _ _ _ => true
  isFinalTx := fun _ _ _ => true
  versionEnforcesRelativeLock := fun version => 2 ≤ version
  isSequenceDisabled := fun seq => seq.testBit 31
  extractSequenceTypeFlag := fun seq => seq.testBit 22
  extractSequenceLocktimeValue := fun seq => seq % 2 ^ 16
  relativeLockUnsatisfied := fun tx coins blockHeight _ _ =>
    (List.zipWith (heightLocked blockHeight) tx.inputs coins).any id
  checkCoinbaseMaturity := fun height coinHeight isCoinbase =>
    !isCoinbase || decide (coinHeight + 100 ≤ height)
  sigopCost := fun _ _ _ => 0
  maxStandardTxSigopsCost := 16000
  sigopAdjustedVsize := fun weight _ _ => weight / 4
  weightFromStacks := fun _ _ => none
  serializedSize := fun _ => 100
  wireSize := fun _ => 100
  p2shPushOnlyCheck := fun _ => true
  isAnyWitnessProgram := fun script => script.length = 22 && script[1]? == some 0x14#8
  isInvalidV0WitnessProgram := fun _ => false
  isUpgradableWitnessProgram := fun script => script.length = 22 && script[0]? == some 0x52#8
  isPayToAnchor := fun _ => false
  countSigopsInScript := fun _ => 0
  isSpam := fun _ _ => false
  signalsRbf := signals
  hasConflictWithTx := fun new existing =>
    new.prevouts.any (fun o => decide (o ∈ existing.prevouts))
  replacementChecks := fun new existing view _ _ =>
    .ok (signals existing && new.prevouts.all (fun o => (view o).isSome) &&
      decide (feeOn view existing + 1000 < feeOn view new))
where
  -- an unconfirmed coin counts as confirmed in the next block
  heightLocked (blockHeight : ℕ) (input : TransactionInput) (coin : Option Utxo) : Bool :=
    !input.sequence.testBit 31 && !input.sequence.testBit 22 &&
      blockHeight < (coin.map (·.height.toNat)).getD blockHeight + input.sequence % 2 ^ 16
  signals (tx : RawTransaction) : Bool := tx.inputs.any (fun input => input.sequence < 0xfffffffe)
  feeOn (view : CoinView) (tx : RawTransaction) : ℤ :=
    (tx.prevouts.map (fun o => ((view o).map (·.value.toInt)).getD 0)).sum -
      (tx.outputs.map (·.value.toInt)).sum

/-- A version 0 witness program of 20 bytes. -/
def keyHashScript : Script := 0x00#8 :: 0x14#8 :: List.replicate 20 0x01#8

def plainTx (id : ℕ) (inputs : List OutPoint) (values : List (BitVec 64)) : RawTransaction where
  version := 2
  inputs := inputs.map (fun o => ⟨o, [], 0xfffffffd⟩)
  outputs := values.map (fun value => ⟨value, keyHashScript⟩)
  lockTime := id

def plainCoin (value : BitVec 64) : Utxo := ⟨value, keyHashScript, 1, false⟩

def wiredEnv (coins : List (OutPoint × Utxo)) : MempoolEnv where
  utxoSet := some (fun o => (coins.find? (fun coin => decide (coin.1 = o))).map Prod.snd)
  utxoLocked := false
  snapshotPrevout := fun _ => none
  finalityContext := some (1000, 1000)
  priorMedianTime := fun _ => some 0
  chainNetworkKnown := true
  currentTimestamp := 0
  policyConfig := none
  rbfConfig := none

def confirmedOutput : OutPoint := ⟨0#256, 0#32⟩

def parentTx : RawTransaction := plainTx 1 [confirmedOutput] [10000#64]

def childTx : RawTransaction := plainTx 2 [⟨1#256, 0#32⟩] [9000#64]

def chainCalls : List (MempoolEnv × MempoolOp) :=
  [(wiredEnv [(confirmedOutput, plainCoin 11000#64)], .add parentTx none),
    (wiredEnv [(confirmedOutput, plainCoin 11000#64)], .add childTx none)]

theorem eviction_restores_caps_chain :
    let st := MempoolOp.run laxRules MempoolManager.new chainCalls
    (st.evictOrdered laxRules [2#256, 1#256] 100 5).poolLoad laxRules ≤ (100, 5) := by
  intro st
  have hkeys : st.transactions.keys = [2#256, 1#256] := by decide +kernel
  exact st.eviction_restores_caps laxRules _ _ _ fun h hh => hkeys ▸ KeyTable.mem_keys_iff.mpr hh

end Concrete

end BlvmNode
