import BlvmNode.ForkAtomicity
import BlvmNode.ReorgPool

/-!
# The pool after a fork activation, with the coins in memory or on disk

With the coins in memory the pool gets the whole set of the new tip. With the coins on disk it reads
coins one by one from the rewritten tree. Both ways give one pool as long as no pooled transaction
is confirmed below the fork point.
-/

namespace BlvmNode

open MempoolManager List Option Function

variable {M G : Type} [CommGroup G] (prevHash : Hash → Hash) (pin : ℕ) (hash : MuHash Utxo M G)
  (codec : ValueCodec Utxo) (store : NodeStore) (plan : ForkPlan Utxo) (utxoSetEmpty : Bool)

def readChainPrevout (o : OutPoint) : Option Utxo :=
  (match store.source with
    | .snapshot => (store.coins (outpointToKey o)).map codec.decode
    | _ => getUtxo codec store.coins o).join

def installUtxoSnapshot (env : MempoolEnv) (utxoSet : CoinView) : MempoolEnv :=
  { env with utxoSet := env.utxoSet.map (fun _ => utxoSet) }

/-- `try_activate_heavier_fork` makes all its writes and returns `Ok(true)`. -/
def Activates : Prop :=
  plan.heavier = true ∧
    if utxoSetEmpty then
      store.source ≠ .missingSnapshot ∧ plan.tipFirst.all plan.bodyStored = true ∧
        (connectDelta hash codec store plan).isSome = true
    else ∃ set logs table, plan.reorganized = some (set, logs) ∧ storeUtxoSet codec set = some table

/-- The caller's set when the pool is called: the map of a live store is dropped. -/
def setAfterFork : UtxoSet Utxo :=
  if utxoSetEmpty then ∅ else (plan.reorganized.map Prod.fst).getD ∅

/-- The blocks the pool gets back: those the consensus crate reports, else those kept from the disk.
-/
def disconnectedForPool (reported disk : List (List RawTransaction)) : List (List RawTransaction) :=
  if reported.isEmpty then disk else reported

def envAfterFork (env : MempoolEnv) : MempoolEnv :=
  installUtxoSnapshot
    { env with
      snapshotPrevout := readChainPrevout codec
        (store.applyAll (activationWrites prevHash pin hash codec store plan utxoSetEmpty)) }
    (fun o => (setAfterFork plan utxoSetEmpty).lookup o)

def poolAfterFork (rules : ConsensusRules) (env : MempoolEnv) (pool : MempoolManager)
    (reported disk : List (List RawTransaction)) (witnesses : List (List (List Witness)))
    (connected : List (List RawTransaction)) : MempoolManager :=
  applyReorg rules (envAfterFork prevHash pin hash codec store plan utxoSetEmpty env) pool
    (disconnectedForPool reported disk) witnesses connected

abbrev liveStore (done : DeltaCommit M) : NodeStore :=
  ((store.applyAll (undoPhase hash codec store plan)).apply (.coins done.tree)).applyAll
    (muhashWrite hash done.muhash ++ finishPhase prevHash pin store plan)

def rewire (env : MempoolEnv) (utxoSet snapshotPrevout : CoinView) : MempoolEnv :=
  { env with utxoSet := some utxoSet, snapshotPrevout := snapshotPrevout }

variable {rules : ConsensusRules} {env : MempoolEnv} {st : MempoolManager} {tx : RawTransaction}
  {witnesses : Option (List Witness)} {utxoSet utxoSet' pointRead pointRead' : CoinView}

theorem checkDirectConflicts_rewire (view : CoinView) (direct : List Hash) :
    st.checkDirectConflicts rules (rewire env utxoSet pointRead) view witnesses tx direct =
      st.checkDirectConflicts rules (rewire env utxoSet' pointRead') view witnesses tx direct := by
  induction direct with
  | nil => rfl
  | cons h rest ih =>
    rw [checkDirectConflicts, checkDirectConflicts]
    cases st.tx h with
    | none => exact ih
    | some existing =>
      have hcheck : st.checkRbfReplacementWithWitness rules (rewire env utxoSet pointRead) view
          tx existing witnesses = st.checkRbfReplacementWithWitness rules
            (rewire env utxoSet' pointRead') view tx existing witnesses := rfl
      simp only [hcheck, ih]

theorem conflictVerdict_rewire (view : CoinView) (displaced : List Hash) :
    conflictVerdict rules (rewire env utxoSet pointRead) st tx witnesses view displaced =
      conflictVerdict rules (rewire env utxoSet' pointRead') st tx witnesses view displaced := by
  have hfee : displacedFeeRejects rules (rewire env utxoSet pointRead) st tx witnesses view
      displaced = displacedFeeRejects rules (rewire env utxoSet' pointRead') st tx witnesses view
        displaced := rfl
  rw [conflictVerdict, conflictVerdict, hfee, checkDirectConflicts_rewire]

theorem addTransactionWithWitness_rewire
    (hview : admissionSnapshot (rewire env utxoSet pointRead) st tx =
      admissionSnapshot (rewire env utxoSet' pointRead') st tx) :
    addTransactionWithWitness rules (rewire env utxoSet pointRead) st tx witnesses =
      addTransactionWithWitness rules (rewire env utxoSet' pointRead') st tx witnesses := by
  have hchecks : checksReject rules (rewire env utxoSet pointRead) st tx witnesses =
      checksReject rules (rewire env utxoSet' pointRead') st tx witnesses := by
    simp only [checksReject, hview]
    rfl
  have hset : displacementSet (rewire env utxoSet pointRead) st tx =
      displacementSet (rewire env utxoSet' pointRead') st tx := rfl
  have hfee : recordedFee (rewire env utxoSet pointRead) st tx =
      recordedFee (rewire env utxoSet' pointRead') st tx := by
    rw [recordedFee, recordedFee, hview]
    rfl
  rw [addTransactionWithWitness, addTransactionWithWitness, hchecks, hset, hview, hfee]
  cases displacementSet (rewire env utxoSet' pointRead') st tx with
  | none => rfl
  | some displaced =>
    simp only [@conflictVerdict_rewire rules env st tx witnesses utxoSet utxoSet' pointRead
      pointRead']
    rfl

section Stores

variable {prevHash pin hash codec store plan} {utxoAt : Hash → OutPoint → Option (Option Utxo)}
  {coins : CoinView} {done : DeltaCommit M} {o : OutPoint} {key : Bytes}

theorem envAfterFork_eq (hwired : env.utxoSet.isSome) (utxoSetEmpty : Bool) :
    envAfterFork prevHash pin hash codec store plan utxoSetEmpty env =
      rewire env (fun o => (setAfterFork plan utxoSetEmpty).lookup o) (readChainPrevout codec
        (store.applyAll (activationWrites prevHash pin hash codec store plan utxoSetEmpty))) := by
  obtain ⟨utxoSet, hset⟩ := isSome_iff_exists.mp hwired
  rw [envAfterFork, installUtxoSnapshot, rewire, hset]
  rfl

theorem memory_reads (h : SoundPlan codec utxoAt store plan false)
    (hok : Activates hash codec store plan false) (hsource : store.source = .chainTable)
    (hnew : utxoAt plan.newTip = stored coins) (o : OutPoint) :
    (setAfterFork plan false).lookup o = coins o ∧
      readChainPrevout codec
        (store.applyAll (activationWrites prevHash pin hash codec store plan false)) o =
          coins o := by
  obtain ⟨hheavier, set, logs, table, hplan, htable⟩ := hok
  have hcoins : set.lookup o = coins o := by
    have hstored := congrFun ((h.memory rfl set logs hplan).symm.trans hnew) o
    exact map_injective (some_injective _) hstored
  have hlast : (store.applyAll (activationWrites prevHash pin hash codec store plan false)).coins =
      table := by
    rw [activationWrites, hheavier, memoryWrites, hplan]
    simp only [Bool.true_eq_false, if_false, Bool.false_eq_true, htable, applyAll_append]
    rfl
  constructor
  · rw [setAfterFork, hplan]
    exact hcoins
  · rw [readChainPrevout, source_applyAll, hsource]
    simp only
    rw [hlast, getUtxo_storeUtxoSet htable, stored, hcoins]
    cases coins o with
    | none | some coin => rfl

theorem legacyKey_ne (hlen : key.length ≠ 36) (o : OutPoint) : legacyOutpointKey o ≠ key := by
  intro heq
  apply hlen
  rw [← heq, length_legacyOutpointKey]

theorem liveWrites_eq (hheavier : plan.heavier)
    (hsource : store.source ≠ .missingSnapshot) (hbodies : plan.tipFirst.all plan.bodyStored)
    (hdone : connectDelta hash codec store plan = some done) :
    store.applyAll (activationWrites prevHash pin hash codec store plan true) =
      liveStore prevHash pin hash codec store plan done := by
  have hgoes : ¬ (store.source = .missingSnapshot ∨ plan.tipFirst.all plan.bodyStored = false) := by
    rw [not_or, hbodies]
    exact ⟨hsource, nofun⟩
  rw [activationWrites, hheavier, liveWrites, if_neg hgoes, hdone]
  simp only [Bool.true_eq_false, if_false, if_true, applyAll_append]
  rfl

theorem legacy_live (hdone : connectDelta hash codec store plan = some done)
    (hnone : store.coins (legacyOutpointKey o) = none) :
    (liveStore prevHash pin hash codec store plan done).coins (legacyOutpointKey o) = none := by
  have hkeeps : ∀ w ∈ muhashWrite hash done.muhash ++ finishPhase prevHash pin store plan,
      KeepsCoins w := by
    rw [forall_mem_append]
    exact ⟨fun w hw => keepsCoins_of_keepsBoth (keepsBoth_muhashWrite hash done.muhash w hw),
      keepsCoins_finishPhase store⟩
  have hcoinKey : ∀ o', outpointToKey o' ≠ legacyOutpointKey o :=
    fun o' => outpointToKey_ne_legacyOutpointKey o' o
  have hjournal : legacyOutpointKey o ≠ snapshotReorgJournalKey := legacyKey_ne (by decide) o
  have hmuhash : legacyOutpointKey o ≠ snapshotMuhashKey := legacyKey_ne (by decide) o
  have hbatch : done.tree (legacyOutpointKey o) = none := by
    simp only [connectDelta, bind_eq_bind, bind_eq_some_iff] at hdone
    obtain ⟨live, hlive, connected, _, hcommit⟩ := hdone
    obtain ⟨-, hother, -⟩ := undoWindows_take store
      (le_refl (undone hash codec store plan).1.length)
    rw [← undone, take_length, undone, (undoWindows_all store hlive).2] at hother
    rw [commit_of_ne_key hcommit hcoinKey (.inl hjournal) (.inl hmuhash),
      hother _ ⟨hcoinKey, hmuhash⟩, hnone]
  rcases row_applyAll hkeeps (legacyOutpointKey o)
    ((store.applyAll (undoPhase hash codec store plan)).apply (.coins done.tree)) with hrow | hrow
  · exact hrow.trans hbatch
  · exact hrow

theorem live_reads (h : SoundPlan codec utxoAt store plan true)
    (hok : Activates hash codec store plan true)
    (htable : store.source = .chainTable → getUtxo codec store.coins = utxoAt store.chain.tip)
    (hnew : utxoAt plan.newTip = stored coins)
    (hspent : utxoAt store.chain.tip o = none) : readChainPrevout codec
      (store.applyAll (activationWrites prevHash pin hash codec store plan true)) o = coins o := by
  obtain ⟨hheavier, hsource, hbodies, hdelta⟩ := hok
  obtain ⟨done, hdone⟩ := isSome_iff_exists.mp hdelta
  rw [liveWrites_eq hheavier hsource hbodies hdone]
  have hcoins := (@connected_take _ _ _ _ prevHash pin _ _ _ _ _ h _ hdone
    (muhashWrite hash done.muhash ++ finishPhase prevHash pin store plan).length).1
  rw [connectedStore, take_length, ← liveStore] at hcoins
  have hrow := congrFun (hcoins.trans hnew) o
  have hlegacy : store.source = .chainTable →
      (liveStore prevHash pin hash codec store plan done).coins (legacyOutpointKey o) = none := by
    intro hchain
    apply legacy_live hdone
    have hread := (congrFun (htable hchain) o).trans hspent
    rw [getUtxo] at hread
    cases hkey : store.coins (outpointToKey o) with
    | some row => simp [hkey] at hread
    | none => simpa [hkey] using hread
  generalize hafter : liveStore prevHash pin hash codec store plan done = after at hrow hlegacy ⊢
  have hsame : after.source = store.source := by
    rw [← hafter, source_applyAll]
    exact source_applyAll _ _
  have hjoin : ((after.coins (outpointToKey o)).map codec.decode).join = coins o := by
    have hmap : (after.coins (outpointToKey o)).map codec.decode = (coins o).map some := hrow
    rw [hmap]
    cases coins o with
    | none | some coin => rfl
  rw [readChainPrevout, hsame]
  cases hkind : store.source with
  | snapshot => exact hjoin
  | missingSnapshot => exact absurd hkind hsource
  | chainTable =>
    rw [← hjoin]
    simp only [getUtxo, hlegacy hkind]
    cases after.coins (outpointToKey o) with
    | none | some row => rfl

end Stores

section Offers

variable {known : Set RawTransaction} {s : Switch} {diskRead : CoinView}

theorem admissionSnapshot_rewire (hst : Unconfirmed rules s st)
    (hset : ∀ o, utxoSet o = tipCoins rules s.newChain o)
    (hread : ∀ o, pointRead o = tipCoins rules s.newChain o)
    (hdisk : ∀ o ∈ tx.prevouts, diskRead o = tipCoins rules s.newChain o) :
    admissionSnapshot (rewire env utxoSet pointRead) st tx =
      admissionSnapshot (rewire env (fun _ => none) diskRead) st tx := by
  funext o
  simp only [admissionSnapshot]
  split_ifs with ho
  · simp only [confirmedCoins, rewire, hset, hread, hdisk o ho]
    cases hcoin : tipCoins rules s.newChain o with
    | none => simp
    | some coin =>
      have hfresh : st.mempoolCreates o = false := by
        obtain ⟨creator, hcreator, hcreates⟩ := created_of_tipCoins (by rw [hcoin]; rfl)
        rw [mempoolCreates, poolOutput, hash_of_createsOutput hcreates, hst creator hcreator]
        rfl
      simp [hfresh]
  · rfl

theorem offerAll_rewire (hs : ValidSwitch rules known s) {entries : List PackageEntry}
    (hentries : ∀ entry ∈ entries,
      entry.1 ∈ s.disconnected.flatten ∧ rules.isCoinbase entry.1 = false)
    (hset : ∀ o, utxoSet o = tipCoins rules s.newChain o)
    (hread : ∀ o, pointRead o = tipCoins rules s.newChain o)
    (hdisk : ∀ o, tipCoins rules s.oldChain o = none → diskRead o = tipCoins rules s.newChain o)
    (hst : Unconfirmed rules s st) :
    offerAll rules (rewire env utxoSet pointRead) st entries =
      offerAll rules (rewire env (fun _ => none) diskRead) st entries := by
  have henv : ReadsChain (tipCoins rules s.newChain) (rewire env utxoSet pointRead) := by
    refine ⟨⟨utxoSet, rfl, fun o ho => ?_⟩, fun o ho => ?_⟩
    · rwa [hset] at ho
    · rw [← hread]
      exact ho
  induction entries generalizing st with
  | nil => rfl
  | cons entry rest ih =>
    obtain ⟨hmem, hcoinbase⟩ := hentries entry mem_cons_self
    have hspent : ∀ o ∈ entry.1.prevouts, diskRead o = tipCoins rules s.newChain o := by
      intro o ho
      apply hdisk
      have hnone := hs.oldOrdered.tipCoins_of_spent (Switch.mem_oldChain.mpr (.inr hmem))
        hcoinbase ho
      simpa using hnone
    have hstep := @addTransactionWithWitness_rewire rules env st entry.1 entry.2 utxoSet
      (fun _ => none) pointRead diskRead (admissionSnapshot_rewire hst hset hread hspent)
    rw [offerAll, offerAll, foldl_cons, foldl_cons, ← offerAll, ← offerAll, ← hstep]
    apply ih fun later hlater => hentries later (mem_cons_of_mem _ hlater)
    exact hst.offer hs henv hmem hcoinbase

end Offers

section Statement

variable (rules) (codec : ValueCodec Utxo) (utxoAt : Hash → OutPoint → Option (Option Utxo))
  (s : Switch)

/-- One fork over two stores: coins in memory and in the chain table, and coins in the live tree. -/
structure SameFork (memory disk : NodeStore) (memoryPlan diskPlan : ForkPlan Utxo) : Prop where
  soundMemory : SoundPlan codec utxoAt memory memoryPlan false
  soundDisk : SoundPlan codec utxoAt disk diskPlan true
  memoryTable : memory.source = .chainTable
  diskTable : disk.source = .chainTable → getUtxo codec disk.coins = utxoAt disk.chain.tip
  sameTip : memoryPlan.newTip = diskPlan.newTip
  oldCoins : utxoAt disk.chain.tip = stored (tipCoins rules s.oldChain)
  newCoins : utxoAt diskPlan.newTip = stored (tipCoins rules s.newChain)

/-- No pooled transaction is a coinbase or is confirmed below the fork point. -/
structure UnconfirmedBelow (pool : MempoolManager) : Prop where
  base : ∀ tx ∈ s.base.flatten, pool.tx (rules.calculateTxId tx) = none
  coinbase : ∀ h tx, pool.tx h = some tx → rules.isCoinbase tx = false

end Statement

/-- A fork activation that succeeds with the coins in memory and with the coins on disk leaves one
pool, if no pooled transaction is confirmed below the fork point. -/
theorem fork_pool_store_independent {M G : Type} [CommGroup G] (rules : ConsensusRules)
    (prevHash : Hash → Hash) (pin : ℕ) (hash : MuHash Utxo M G) (codec : ValueCodec Utxo)
    (utxoAt : Hash → OutPoint → Option (Option Utxo)) (known : Set RawTransaction) (s : Switch)
    (hs : ValidSwitch rules known s) (memory disk : NodeStore) (memoryPlan diskPlan : ForkPlan Utxo)
    (hfork : SameFork rules codec utxoAt s memory disk memoryPlan diskPlan)
    (hmemory : Activates hash codec memory memoryPlan false)
    (hdisk : Activates hash codec disk diskPlan true) (env : MempoolEnv)
    (hwired : env.utxoSet.isSome = true) (pool : MempoolManager)
    (hpool : KnownPool rules known pool) (hbelow : UnconfirmedBelow rules s pool)
    (witnesses : List (List (List Witness))) :
    poolAfterFork prevHash pin hash codec memory memoryPlan false rules env pool s.disconnected []
        witnesses s.connected =
      poolAfterFork prevHash pin hash codec disk diskPlan true rules env pool [] s.disconnected
        witnesses s.connected := by
  have hreported : disconnectedForPool s.disconnected [] = s.disconnected := by
    cases hblocks : s.disconnected with
    | nil | cons block rest => rfl
  have hkept : disconnectedForPool [] s.disconnected = s.disconnected := rfl
  rw [poolAfterFork, poolAfterFork, envAfterFork_eq hwired, envAfterFork_eq hwired, hreported,
    hkept, applyReorg, applyReorg]
  have hnew : utxoAt memoryPlan.newTip = stored (tipCoins rules s.newChain) := by
    rw [hfork.sameTip, hfork.newCoins]
  have hread := @memory_reads _ _ _ prevHash pin hash codec memory memoryPlan utxoAt _
    hfork.soundMemory hmemory hfork.memoryTable hnew
  apply offerAll_rewire hs (fun entry hentry => mem_disconnectedEntries hentry)
    (fun o => (hread o).1) (fun o => (hread o).2)
  · intro o hnone
    apply live_reads hfork.soundDisk hdisk hfork.diskTable hfork.newCoins
    rw [hfork.oldCoins, stored, hnone]
    rfl
  · exact unconfirmed_connectAll hs hpool hbelow.base hbelow.coinbase

section Concrete

open BigEndian

def sourceTx : RawTransaction := plainTx 50 [⟨101#256, 0#32⟩] [10500#64]

/-- Its input carries a relative lock of one block. -/
def disputedTx : RawTransaction :=
  { plainTx 1 [] [10000#64] with inputs := [⟨⟨50#256, 0#32⟩, [], 1⟩] }

def disputedSwitch : Switch where
  base := maturedChain ++ [[rewardTx 201, sourceTx]]
  disconnected := [[rewardTx 301, disputedTx]]
  connected := [[rewardTx 302], [rewardTx 303]]

def rewardCoin (height : ℕ) : Utxo := ⟨11000#64, keyHashScript, BitVec.ofNat 64 height, true⟩

def sourceCoin : Utxo := ⟨10500#64, keyHashScript, 101#64, false⟩

def disputedCoin : Utxo := ⟨10000#64, keyHashScript, 102#64, false⟩

def coinCodec : ValueCodec Utxo where
  encode u := some (bytes 8 u.value.toNat ++ (bytes 8 u.height.toNat ++
    (if u.isCoinbase then 1#8 else 0#8) :: u.scriptPubkey))
  decode row := some ⟨BitVec.ofNat 64 (value (row.take 8)), row.drop 17,
    BitVec.ofNat 64 (value ((row.drop 8).take 8)), (row.drop 16).head? == some 1#8⟩
  decode_encode := by
    rintro ⟨amount, script, height, flag⟩ row hrow
    cases hrow
    have hamount : value (bytes 8 amount.toNat) = amount.toNat :=
      value_bytes_of_lt (amount.isLt.trans_le (by norm_num))
    have hheight : value (bytes 8 height.toNat) = height.toNat :=
      value_bytes_of_lt (height.isLt.trans_le (by norm_num))
    have hfirst : (bytes 8 amount.toNat).drop 17 = [] := drop_eq_nil_of_le (by simp)
    have hsecond : (bytes 8 height.toNat).drop 9 = [] := drop_eq_nil_of_le (by simp)
    cases flag <;> simp [drop_append, hamount, hheight, hfirst, hsecond]

def coinHash : MuHash Utxo (Multiplicative (BitVec 8)) (Multiplicative (BitVec 8)) :=
  checksumOf fun outpoint _ => outpointToKey outpoint

def coinTree (coins : CoinView) : ByteTree := fun key =>
  if key.length = 40 then (coins (keyToOutpoint key)).bind coinCodec.encode else none

def disputedStore : NodeStore :=
  { sampleStore .chainTable with coins := coinTree (tipCoins laxRules disputedSwitch.oldChain) }

def disputedLog : BlockUndoLog Utxo where
  entries := [⟨⟨1#256, 0#32⟩, none, some disputedCoin⟩, ⟨⟨50#256, 0#32⟩, some sourceCoin, none⟩,
    ⟨⟨301#256, 0#32⟩, none, some (rewardCoin 102)⟩]

def disputedPlan (newSet : UtxoSet Utxo) : ForkPlan Utxo where
  heavier := true
  tipFirst := [8]
  bodyStored := fun _ => true
  undoLog := fun _ => some disputedLog
  undoLogged := []
  reorganized := some (newSet, [⟨[⟨⟨302#256, 0#32⟩, none, some (rewardCoin 102)⟩]⟩,
    ⟨[⟨⟨303#256, 0#32⟩, none, some (rewardCoin 103)⟩]⟩])
  newTip := 9
  newHeight := 103#64

def disputedUtxoAt (tip : Hash) : OutPoint → Option (Option Utxo) :=
  if tip = 9 then stored (tipCoins laxRules disputedSwitch.newChain)
  else stored (tipCoins laxRules disputedSwitch.oldChain)

theorem coinsOf_coinTree (coins : CoinView) :
    coinsOf coinCodec (coinRows (coinTree coins)) = stored coins := by
  funext o
  rw [coinsOf, coinRows, coinTree, if_pos (length_outpointToKey o), keyToOutpoint_outpointToKey,
    stored]
  cases coins o with
  | none => rfl
  | some coin => exact congrArg some (coinCodec.decode_encode rfl)

theorem getUtxo_coinTree (coins : CoinView) :
    getUtxo coinCodec (coinTree coins) = stored coins := by
  have hlegacy : ∀ o, coinTree coins (legacyOutpointKey o) = none := by
    intro o
    rw [coinTree, length_legacyOutpointKey]
    rfl
  rw [← coinsOf_coinTree]
  funext o
  rw [getUtxo, coinsOf, coinRows, hlegacy]
  cases coinTree coins (outpointToKey o) with
  | none | some row => rfl

theorem connectTx_single {output : TransactionOutput} (height : ℕ)
    (coins : CoinView) (hout : tx.outputs = [output]) : connectTx laxRules height coins tx =
      update (fun o => if laxRules.isCoinbase tx = false ∧ o ∈ tx.prevouts then none else coins o)
        ⟨laxRules.calculateTxId tx, 0#32⟩ (some ⟨output.value, output.scriptPubkey,
          BitVec.ofNat 64 height, laxRules.isCoinbase tx⟩) := by
  funext o
  rcases o with ⟨hash, index⟩
  rw [connectTx, hout, update_apply]
  by_cases hindex : index = 0#32
  · by_cases hname : hash = laxRules.calculateTxId tx
    · simp [hname, hindex]
    · simp [hname]
  · have hpos : index.toNat ≠ 0 := fun hzero => hindex (BitVec.eq_of_toNat_eq hzero)
    simp [hindex, hpos]

theorem connectTx_rewardTx (height id : ℕ) (coins : CoinView) :
    connectTx laxRules height coins (rewardTx id) =
      update coins ⟨BitVec.ofNat 256 id, 0#32⟩ (some (rewardCoin height)) := by
  rw [connectTx_single height coins rfl]
  rfl

theorem connectTx_spend (tx : RawTransaction) {spent : OutPoint} {output : TransactionOutput}
    (height : ℕ) (coins : CoinView) (hcoinbase : laxRules.isCoinbase tx = false)
    (hin : tx.prevouts = [spent]) (hout : tx.outputs = [output]) :
    connectTx laxRules height coins tx =
      update (update coins spent none) ⟨laxRules.calculateTxId tx, 0#32⟩
        (some ⟨output.value, output.scriptPubkey, BitVec.ofNat 64 height, false⟩) := by
  rw [connectTx_single height coins hout, hcoinbase]
  congr 1
  funext o
  rw [update_apply, hin]
  simp

theorem tipCoins_disputed_new : tipCoins laxRules disputedSwitch.newChain =
    update (update (tipCoins laxRules disputedSwitch.base) ⟨302#256, 0#32⟩ (some (rewardCoin 102)))
      ⟨303#256, 0#32⟩ (some (rewardCoin 103)) := by
  rw [Switch.newChain, tipCoins, connectBlocks_append, ← connectTx_rewardTx, ← connectTx_rewardTx]
  rfl

theorem tipCoins_disputed_old : tipCoins laxRules disputedSwitch.oldChain =
    update (update (update (tipCoins laxRules disputedSwitch.base) ⟨301#256, 0#32⟩
      (some (rewardCoin 102))) ⟨50#256, 0#32⟩ none) ⟨1#256, 0#32⟩ (some disputedCoin) := by
  rw [Switch.oldChain, tipCoins, connectBlocks_append, ← connectTx_rewardTx]
  exact connectTx_spend disputedTx 102 _ rfl rfl rfl

def rewardSet : ℕ → UtxoSet Utxo
  | 0 => ∅
  | n + 1 => (rewardSet n).insert ⟨BitVec.ofNat 256 (100 + n), 0#32⟩ (rewardCoin n)

def baseSet : UtxoSet Utxo :=
  (((rewardSet 101).insert ⟨201#256, 0#32⟩ (rewardCoin 101)).erase ⟨101#256, 0#32⟩).insert
    ⟨50#256, 0#32⟩ sourceCoin

def disputedSet : UtxoSet Utxo :=
  (baseSet.insert ⟨302#256, 0#32⟩ (rewardCoin 102)).insert ⟨303#256, 0#32⟩ (rewardCoin 103)

theorem lookup_rewardSet (n : ℕ) : (fun o => (rewardSet n).lookup o) =
    tipCoins laxRules ((range n).map fun height => [rewardTx (100 + height)]) := by
  induction n with
  | zero => rfl
  | succ n ih =>
    rw [range_succ, map_append, tipCoins, connectBlocks_append, ← tipCoins, ← ih, rewardSet,
      lookup_insert_eq_update, length_map, length_range, zero_add]
    exact (connectTx_rewardTx n (100 + n) _).symm

theorem lookup_disputedSet :
    (fun o => disputedSet.lookup o) = tipCoins laxRules disputedSwitch.newChain := by
  have hbase : (fun o => baseSet.lookup o) = tipCoins laxRules disputedSwitch.base := by
    rw [disputedSwitch, tipCoins, connectBlocks_append, ← tipCoins, maturedChain,
      ← lookup_rewardSet, baseSet, lookup_insert_eq_update, lookup_erase_eq_update,
      lookup_insert_eq_update, ← connectTx_rewardTx]
    exact (connectTx_spend sourceTx 101 _ rfl rfl rfl).symm
  rw [tipCoins_disputed_new, disputedSet, lookup_insert_eq_update, lookup_insert_eq_update, hbase]

theorem undo_disputed : update (update (update (tipCoins laxRules disputedSwitch.oldChain)
    ⟨1#256, 0#32⟩ none) ⟨50#256, 0#32⟩ (some sourceCoin)) ⟨301#256, 0#32⟩ none =
      tipCoins laxRules disputedSwitch.base := by
  have hcreated : tipCoins laxRules disputedSwitch.base ⟨1#256, 0#32⟩ = none := by decide +kernel
  have hspent : tipCoins laxRules disputedSwitch.base ⟨50#256, 0#32⟩ = some sourceCoin := by
    decide +kernel
  have hreward : tipCoins laxRules disputedSwitch.base ⟨301#256, 0#32⟩ = none := by decide +kernel
  rw [tipCoins_disputed_old]
  funext o
  simp only [update_apply]
  split_ifs with h301 h50 h1
  · rw [h301, hreward]
  · rw [h50, hspent]
  · rw [h1, hcreated]
  · rfl

theorem sameFork_of_lookup {newSet : UtxoSet Utxo}
    (hlookup : ∀ o, newSet.lookup o = tipCoins laxRules disputedSwitch.newChain o) :
    SameFork laxRules coinCodec disputedUtxoAt disputedSwitch disputedStore disputedStore
      (disputedPlan newSet) (disputedPlan ∅) := by
  have hold : disputedUtxoAt disputedStore.chain.tip =
      stored (tipCoins laxRules disputedSwitch.oldChain) := if_neg (by decide)
  have hbefore : CoinsMatch coinCodec disputedUtxoAt disputedStore :=
    coinsOf_coinTree (tipCoins laxRules disputedSwitch.oldChain)
  refine ⟨⟨hbefore, by simp [disputedStore, sampleStore], by simp, fun _ set logs hplan => ?_⟩,
    ⟨hbefore, by simp [disputedStore, sampleStore], fun _ set logs hplan coins hcoins => ?_,
      by simp⟩, rfl, fun _ => ?_, rfl, hold, if_pos rfl⟩
  · cases hplan
    rw [funext hlookup]
    exact if_pos rfl
  · cases hplan
    have hdone : some (update (update (update (update (update
        (stored (tipCoins laxRules disputedSwitch.oldChain)) ⟨1#256, 0#32⟩ none) ⟨50#256, 0#32⟩
          (some (some sourceCoin))) ⟨301#256, 0#32⟩ none) ⟨302#256, 0#32⟩
            (some (some (rewardCoin 102)))) ⟨303#256, 0#32⟩ (some (some (rewardCoin 103)))) =
        some coins := hcoins
    have hnew := congrArg stored tipCoins_disputed_new
    rw [← undo_disputed] at hnew
    simp only [stored_update, map_some, map_none] at hnew
    exact (some.inj hdone).symm.trans hnew.symm
  · rw [hold]
    exact getUtxo_coinTree _

theorem sameFork_disputed : SameFork laxRules coinCodec disputedUtxoAt disputedSwitch
    disputedStore disputedStore (disputedPlan disputedSet)
    (disputedPlan ∅) :=
  sameFork_of_lookup (congrFun lookup_disputedSet)

def disputedTxs : List RawTransaction :=
  disputedSwitch.oldChain.flatten ++ [rewardTx 302, rewardTx 303, childTx]

theorem validSwitch_disputed : ValidSwitch laxRules {tx | tx ∈ disputedTxs} disputedSwitch :=
  .of_check (by decide +kernel) (by decide +kernel) (by decide +kernel) (by decide +kernel)
    (by decide +kernel)

theorem activates_memory : Activates coinHash coinCodec disputedStore
    (disputedPlan disputedSet) false := by
  obtain ⟨table, htable⟩ := isSome_iff_exists.mp
    (by decide +kernel : (storeUtxoSet coinCodec disputedSet).isSome = true)
  exact ⟨rfl, _, _, table, rfl, htable⟩

theorem activates_disk :
    Activates coinHash coinCodec disputedStore (disputedPlan ∅) true :=
  ⟨rfl, by decide, rfl, rfl⟩

def disputedInMemory (pool : MempoolManager) : MempoolManager :=
  poolAfterFork (fun _ => 0) 0 coinHash coinCodec disputedStore
    (disputedPlan disputedSet) false laxRules
    (tipEnv disputedSwitch.newChain) pool disputedSwitch.disconnected [] [] disputedSwitch.connected

def disputedOnDisk (pool : MempoolManager) : MempoolManager :=
  poolAfterFork (fun _ => 0) 0 coinHash coinCodec disputedStore (disputedPlan ∅) true laxRules
    (tipEnv disputedSwitch.newChain) pool [] disputedSwitch.disconnected [] disputedSwitch.connected

/-- A child of the disputed transaction is pooled; both runs take its parent back. -/
theorem fork_pool_store_independent_disputed :
    let pool := poolAt disputedSwitch.oldChain childTx
    disputedInMemory pool = disputedOnDisk pool ∧
      (disputedInMemory pool).transactions.keys = [1#256, 2#256] := by
  intro pool
  have hrows : pool.transactions.rows = [(2#256, childTx)] := by decide +kernel
  refine ⟨fork_pool_store_independent laxRules (fun _ => 0) 0 coinHash coinCodec
    disputedUtxoAt _ disputedSwitch validSwitch_disputed disputedStore disputedStore _ _
    sameFork_disputed activates_memory activates_disk (tipEnv disputedSwitch.newChain) rfl _
    (knownPool_poolAt _ (by simp [disputedTxs])) ⟨?_, ?_⟩ [], by decide +kernel⟩
  · decide +kernel
  · intro h tx htx
    rw [eq_of_one_row hrows htx]
    decide +kernel

/-- A pooled transaction is confirmed below the fork point. In memory the disputed transaction finds
the confirmed coin and returns; on disk the pooled creator hides the coin, and the relative lock
refuses it. -/
theorem stale_parent_splits_pools :
    let pool := poolAt maturedChain sourceTx
    ValidSwitch laxRules {tx | tx ∈ disputedTxs} disputedSwitch ∧
    SameFork laxRules coinCodec disputedUtxoAt disputedSwitch disputedStore disputedStore
      (disputedPlan disputedSet) (disputedPlan ∅) ∧
    Activates coinHash coinCodec disputedStore
      (disputedPlan disputedSet) false ∧
    Activates coinHash coinCodec disputedStore (disputedPlan ∅) true ∧
    KnownPool laxRules {tx | tx ∈ disputedTxs} pool ∧
    (disputedInMemory pool).transactions.keys = [1#256, 50#256] ∧
    (disputedOnDisk pool).transactions.keys = [50#256] :=
  ⟨validSwitch_disputed, sameFork_disputed, activates_memory, activates_disk,
    knownPool_poolAt _ (by simp [disputedTxs, disputedSwitch, Switch.oldChain]),
    by decide +kernel, by decide +kernel⟩

end Concrete

end BlvmNode
