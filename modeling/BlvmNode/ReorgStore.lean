import BlvmNode.DeltaInverse
import BlvmNode.HeightIndex

/-!
# The durable store around a reorg

What a connect or a reorg writes, one durable write at a time, and the recovery that runs at
start. A stop is a cut in the sequence of writes, so everything that can be found at start is
the state after a front part of such a sequence.
-/

namespace BlvmNode

open NetWrites List Option Function

variable {U M G : Type} [CommGroup G]

/-- Where a connect or reorg finds the coins when the in-memory set is empty. -/
inductive DiskUtxoSource
  | snapshot
  | chainTable
  | missingSnapshot
  deriving DecidableEq

def diskUtxoSource (snapshotOpen exportHeightSet : Bool) : DiskUtxoSource :=
  if snapshotOpen then .snapshot
  else if exportHeightSet then .missingSnapshot
  else .chainTable

/-- The durable state: the coin tree, whether it is the engine's resume snapshot, the indexes with
the tip, and the rows of `chain_info` that follow the coins. -/
structure NodeStore where
  source : DiskUtxoSource
  coins : ByteTree
  chain : ChainIndex
  watermark : Option ℕ
  exportHeight : Option ℕ
  muhashRunning : Option Bytes

inductive DurableWrite
  | coins (tree : ByteTree)
  | removeRow (key : Bytes)
  | muhash (running : Bytes)
  | dropMuhash
  | undoLog (block : Hash)
  | tip (hash : Hash) (height : ℕ)
  | height (height : ℕ) (hash : Hash)
  | clearHeight (height : ℕ)
  | watermark (height : ℕ)
  | exportHeight (height : ℕ)

def NodeStore.apply (st : NodeStore) : DurableWrite → NodeStore
  | .coins tree => { st with coins := tree }
  | .removeRow key => { st with coins := Function.update st.coins key none }
  | .muhash running => { st with muhashRunning := some running }
  | .dropMuhash => { st with muhashRunning := none }
  | .undoLog _ => st
  | .tip hash height =>
    { st with
      chain := { st.chain with
        blockIndex := Function.update st.chain.blockIndex hash (some height)
        tip := hash
        tipHeight := height } }
  | .height height hash =>
    { st with
      chain := { st.chain with
        heightIndex := Function.update st.chain.heightIndex height (some hash) } }
  | .clearHeight height =>
    { st with
      chain := { st.chain with
        heightIndex := Function.update st.chain.heightIndex height none } }
  | .watermark height => { st with watermark := some height }
  | .exportHeight height => { st with exportHeight := some height }

def NodeStore.applyAll (st : NodeStore) (writes : List DurableWrite) : NodeStore :=
  writes.foldl NodeStore.apply st

section Source

/-- Only advances. -/
def setUtxoWatermark (st : NodeStore) (height : ℕ) : List DurableWrite :=
  if st.watermark.getD 0 < height then [.watermark height] else []

/-- Only advances, and not past the tip. -/
def persistEngineExportHeight (st : NodeStore) (height : ℕ) : List DurableWrite :=
  if st.chain.tipHeight < height then []
  else if st.exportHeight.getD 0 < height then [.exportHeight height] else []

def noteSnapshotHeight (st : NodeStore) (height : ℕ) : List DurableWrite :=
  setUtxoWatermark st height ++ persistEngineExportHeight st height

def forceSetIbdUtxoWatermark (height : ℕ) : List DurableWrite :=
  .watermark height :: if height = 0 then [.dropMuhash] else []

def rewindSnapshotHeight (height : ℕ) : List DurableWrite :=
  forceSetIbdUtxoWatermark height ++ [.exportHeight height]

variable (prevHash : Hash → Hash)

/-- The entries that `refresh_active_height_index` writes, in order. -/
def refreshWrites (blockIndex : Hash → Option ℕ) :
    ℕ → List Hash → (ℕ → Option Hash) → Hash → List (ℕ × Hash)
  | 0, _, _, _ => []
  | fuel + 1, seen, heightIndex, current =>
    if current ∈ seen then []
    else match blockIndex current with
      | none => []
      | some height =>
        if heightIndex height = some current then []
        else if height = 0 then [(height, current)]
        else (height, current) :: refreshWrites blockIndex fuel (current :: seen)
          (Function.update heightIndex height (some current)) (prevHash current)

/-- The move of the tip: `update_tip`, then the height index from the new tip down. -/
def tipWrites (chain : ChainIndex) (hash : Hash) (height : ℕ) : List DurableWrite :=
  .tip hash height ::
    (refreshWrites prevHash (Function.update chain.blockIndex hash (some height)) (height + 1) []
      chain.heightIndex hash).map (fun e => .height e.1 e.2)

/-- The MuHash row, if there is one, goes to `chain_info` when it has the right length. -/
def recoverMuhash (hash : MuHash U M G) (st : NodeStore) : List DurableWrite :=
  match st.coins snapshotMuhashKey with
  | none => []
  | some row => (if row.length = hash.runningStateBytes then [.muhash row] else []) ++
      [.removeRow snapshotMuhashKey]

/-- The journal's tip is made the tip. `tipReady`: a header is stored for it with its parent's
chainwork; without, recovery stops. -/
def recoverJournal (tipReady : Hash → Bool) (st : NodeStore) : List DurableWrite :=
  match st.coins snapshotReorgJournalKey with
  | none => []
  | some raw =>
    match parseReorgJournal raw with
    | none => [.removeRow snapshotReorgJournalKey]
    | some (height, hash) =>
      if st.chain.tip ≠ hash ∧ tipReady hash = false then []
      else (if st.chain.tip ≠ hash then tipWrites prevHash st.chain hash height.toNat else []) ++
        rewindSnapshotHeight height.toNat ++ [.removeRow snapshotReorgJournalKey]

/-- `recover_snapshot_commit`: only the engine's resume snapshot is looked at. -/
def recoverSnapshotCommit (hash : MuHash U M G) (tipReady : Hash → Bool) (st : NodeStore) :
    List DurableWrite :=
  match st.source with
  | .snapshot => recoverMuhash hash st ++ recoverJournal prevHash tipReady st
  | _ => []

def runningMuhash (hash : MuHash U M G) (st : NodeStore) : Option M :=
  (st.muhashRunning.filter (fun row => row.length = hash.runningStateBytes)).map
    hash.deserializeRunningState

end Source

section Hash

/-- The product of all coins. Rows that do not decode do not count. -/
def Accumulates (hash : MuHash U M G) (coins : OutPoint → Option (Option U)) (g : G) : Prop :=
  ∃ rows : List (OutPoint × U), rows.Nodup ∧
    (∀ o u, (o, u) ∈ rows ↔ coins o = some (some u)) ∧
    g = (rows.map (fun row => hash.element (hash.preimage row.1 row.2))).prod

variable {hash : MuHash U M G} {o : OutPoint} {codec : ValueCodec U} {tree : ByteTree}
  {coins : OutPoint → Option (Option U)} {net : NetMap} {mh' mh : M}

theorem Accumulates.insert {g : G}
    (h : Accumulates hash coins g) (habsent : coins o = none) (u : U) :
    Accumulates hash (update coins o (some (some u))) (g * hash.element (hash.preimage o u)) := by
  obtain ⟨rows, hnodup, hrows, rfl⟩ := h
  have hnew : ∀ v, (o, v) ∉ rows := by
    intro v hmem
    rw [hrows, habsent] at hmem
    simp at hmem
  refine ⟨(o, u) :: rows, nodup_cons.mpr ⟨hnew u, hnodup⟩, ?_, ?_⟩
  · intro o' v
    rw [mem_cons]
    by_cases heq : o' = o
    · subst heq
      rw [update_self]
      simp only [Prod.mk.injEq, true_and, hnew v, or_false, some.injEq]
      exact eq_comm
    · rw [update_of_ne heq]
      simp only [Prod.mk.injEq, heq, false_and, false_or, hrows]
  · rw [map_cons, prod_cons, mul_comm]

theorem Accumulates.remove {g : G}
    (h : Accumulates hash coins g) {u : U} (hpresent : coins o = some (some u)) :
    Accumulates hash (update coins o none) (g / hash.element (hash.preimage o u)) := by
  classical
  obtain ⟨rows, hnodup, hrows, rfl⟩ := h
  have hmem : (o, u) ∈ rows := (hrows o u).mpr hpresent
  refine ⟨rows.erase (o, u), hnodup.erase _, ?_, ?_⟩
  · intro o' v
    rw [hnodup.mem_erase_iff, hrows]
    by_cases heq : o' = o
    · subst heq
      rw [update_self, hpresent]
      simp only [some.injEq, ne_eq, Prod.mk.injEq, true_and, reduceCtorEq, iff_false, not_and]
      exact fun hne heq => absurd heq.symm hne
    · rw [update_of_ne heq]
      simp only [ne_eq, Prod.mk.injEq, heq, false_and, not_false_eq_true, true_and]
  · have hperm := (perm_cons_erase hmem).map
      (fun row => hash.element (hash.preimage row.1 row.2))
    rw [hperm.prod_eq, map_cons, prod_cons, mul_div_cancel_left]

theorem accumulates_muhashRow {row : Option Bytes}
    (h : Accumulates hash (coinsOf codec (coinRows tree)) (hash.value mh))
    (hstep : muhashRow hash codec tree mh (outpointToKey o, row) = some mh') :
    Accumulates hash (coinsOf codec (coinRows (update tree (outpointToKey o) row)))
      (hash.value mh') := by
  rw [coinRows_update_key, coinsOf_update]
  simp only [muhashRow, keyToOutpoint_outpointToKey, bind_eq_bind, bind_eq_some_iff] at hstep
  obtain ⟨mid, hold, hnew⟩ := hstep
  have hmid : Accumulates hash (update (coinsOf codec (coinRows tree)) o none)
      (hash.value mid) := by
    cases hrow : tree (outpointToKey o) with
    | none =>
      rw [hrow, muhashCoin, some.injEq] at hold
      have habsent : coinsOf codec (coinRows tree) o = none := by
        rw [coinsOf, coinRows, hrow, map_none]
      rwa [← habsent, update_eq_self, ← hold]
    | some old =>
      simp only [hrow, muhashCoin, map_eq_some_iff] at hold
      obtain ⟨utxo, hutxo, rfl⟩ := hold
      have hpresent : coinsOf codec (coinRows tree) o = some (some utxo) := by
        rw [coinsOf, coinRows, hrow, map_some, hutxo]
      simp only [applySnapshotCoin, Bool.false_eq_true, if_false, hash.value_removeMut]
      exact h.remove hpresent
  cases row with
  | none =>
    rw [muhashCoin, some.injEq] at hnew
    rwa [map_none, ← hnew]
  | some new =>
    simp only [muhashCoin, map_eq_some_iff] at hnew
    obtain ⟨utxo, hutxo, rfl⟩ := hnew
    have hinsert := hmid.insert (update_self ..) utxo
    rw [update_idem] at hinsert
    simp only [applySnapshotCoin, if_true, hash.value_insertMut, map_some, hutxo]
    exact hinsert

theorem foldlM_muhashRow_update
    {key : Bytes} (row : Option Bytes) (hkey : key ∉ net.map Prod.fst) (mh : M) :
    net.foldlM (muhashRow hash codec (update tree key row)) mh =
      net.foldlM (muhashRow hash codec tree) mh := by
  induction net generalizing mh with
  | nil => rfl
  | cons r net ih =>
    rw [map_cons, mem_cons, not_or] at hkey
    have hstep : muhashRow hash codec (update tree key row) mh r =
        muhashRow hash codec tree mh r := by
      rw [muhashRow, muhashRow, update_of_ne (Ne.symm hkey.1)]
    rw [foldlM_cons, foldlM_cons, hstep]
    congr 1
    funext mid
    exact ih hkey.2 mid

theorem accumulates_foldlM (hnodup : (net.map Prod.fst).Nodup)
    (hkeys : ∀ key ∈ net.map Prod.fst, ∃ o, outpointToKey o = key)
    (h : Accumulates hash (coinsOf codec (coinRows tree)) (hash.value mh))
    (hrun : net.foldlM (muhashRow hash codec tree) mh = some mh') :
    Accumulates hash (coinsOf codec (coinRows (applyRows tree net))) (hash.value mh') := by
  induction net generalizing tree mh with
  | nil =>
    cases hrun
    exact h
  | cons row net ih =>
    obtain ⟨key, row⟩ := row
    rw [map_cons, nodup_cons] at hnodup
    rw [map_cons, forall_mem_cons] at hkeys
    rw [foldlM_cons, bind_eq_bind, bind_eq_some_iff] at hrun
    obtain ⟨⟨o, rfl⟩, hkeys⟩ := hkeys
    obtain ⟨mid, hmid, hrest⟩ := hrun
    apply ih hnodup.2 hkeys (accumulates_muhashRow h hmid)
    rw [foldlM_muhashRow_update row hnodup.1]
    exact hrest

theorem accumulates_commit
    {disconnects connects : List (BlockUndoLog U)} {journalTip : Option (BitVec 64 × Hash)}
    {muhash : Option M} {done : DeltaCommit M}
    (hdone : commitUtxoSnapshotDelta hash codec tree disconnects connects journalTip muhash =
      some done)
    (h : ∀ mh ∈ muhash, Accumulates hash (coinsOf codec (coinRows tree)) (hash.value mh)) :
    ∀ mh' ∈ done.muhash,
      Accumulates hash (coinsOf codec (coinRows done.tree)) (hash.value mh') := by
  obtain ⟨net, muhash', hnet, hdelta, rfl⟩ := commitUtxoSnapshotDelta_eq_some.mp hdone
  intro mh' hmh'
  rw [coinRows_putRow _ _ outpointToKey_ne_muhashKey,
    coinRows_putRow _ _ outpointToKey_ne_journalKey]
  cases muhash with
  | none =>
    rw [muhashDelta, some.injEq] at hdelta
    simp [← hdelta] at hmh'
  | some mh =>
    simp only [muhashDelta, map_eq_some_iff] at hdelta
    obtain ⟨mh'', hrun, rfl⟩ := hdelta
    rw [mem_def, some.injEq] at hmh'
    subst hmh'
    exact accumulates_foldlM (nodup_netDelta hnet) (coinKeys_netDelta hnet) (h mh rfl) hrun

/-- The hash a commit leaves, and writes for the next start, is that of the coins it leaves. On rows
that decode, a commit fails only before the hash is touched. -/
theorem muhash_tracks_tree (hash : MuHash U M G) (codec : ValueCodec U) (tree : ByteTree)
    (disconnects connects : List (BlockUndoLog U)) (journalTip : Option (BitVec 64 × Hash)) (mh : M)
    (h : Accumulates hash (coinsOf codec (coinRows tree)) (hash.value mh)) :
    (∀ done, commitUtxoSnapshotDelta hash codec tree disconnects connects journalTip (some mh) =
        some done →
      ∃ mh', done.muhash = some mh' ∧
        done.tree snapshotMuhashKey = some (hash.serializeRunningState mh') ∧
        Accumulates hash (coinsOf codec (coinRows done.tree)) (hash.value mh')) ∧
    ((∀ outpoint row, coinRows tree outpoint = some row → ∃ utxo, codec.decode row = some utxo) →
      (commitUtxoSnapshotDelta hash codec tree disconnects connects journalTip (some mh) = none ↔
        netDelta codec disconnects connects = none)) := by
  constructor
  · intro done hdone
    have hkept : done.muhash ≠ none := by
      rw [ne_eq, muhash_commit_none hdone]
      exact some_ne_none mh
    obtain ⟨mh', hmh'⟩ := ne_none_iff_exists'.mp hkept
    have hafter := accumulates_commit hdone (fun _ heq => some.inj heq ▸ h) mh' hmh'
    refine ⟨mh', hmh', ?_, hafter⟩
    obtain ⟨net, muhash', -, -, rfl⟩ := commitUtxoSnapshotDelta_eq_some.mp hdone
    have hm : muhash' = some mh' := hmh'
    simp only [hm, map_some, putRow_self]
  · intro hrows
    rw [← not_iff_not, ← ne_eq, ← ne_eq, ne_none_iff_exists', ne_none_iff_exists']
    constructor
    · rintro ⟨done, hdone⟩
      obtain ⟨net, -, hnet, -, -⟩ := commitUtxoSnapshotDelta_eq_some.mp hdone
      exact ⟨net, hnet⟩
    · rintro ⟨net, hnet⟩
      obtain ⟨muhash', hdelta⟩ :=
        muhashDelta_of_decodable hash (decodable_of_rows hrows hnet) (some mh)
      exact ⟨_, commitUtxoSnapshotDelta_eq_some.mpr ⟨net, muhash', hnet, hdelta, rfl⟩⟩

theorem accumulates_oneCoinTree :
    Accumulates checksumHash (coinsOf byteCodec (coinRows oneCoinTree))
      (Multiplicative.ofAdd 5) := by
  refine ⟨[(⟨1, 0⟩, 4)], nodup_singleton _, ?_, ?_⟩
  · intro o u
    rw [coinRows_oneCoinTree, coinsOf_update, mem_singleton, Prod.mk.injEq]
    by_cases heq : o = ⟨1, 0⟩
    · rw [heq, update_self]
      simp [byteCodec, eq_comm]
    · rw [update_of_ne heq]
      exact iff_of_false (fun hand => heq hand.1) (some_ne_none _).symm
  · decide

theorem muhash_tracks_tree_spendLog :
    ∃ done, commitUtxoSnapshotDelta checksumHash byteCodec oneCoinTree [] [spendLog] none
        (some (Multiplicative.ofAdd 5)) = some done ∧
      ∃ mh', done.muhash = some mh' ∧
        Accumulates checksumHash (coinsOf byteCodec (coinRows done.tree)) mh' := by
  obtain ⟨coins, hcoins⟩ : ∃ coins, (deltaEffects [] [spendLog]).foldlM (writeRow byteCodec)
      (coinRows oneCoinTree) = some coins := ⟨_, rfl⟩
  obtain ⟨done, hdone, -⟩ := commit_of_fits checksumHash consistent_spendLog hcoins none
    (some (Multiplicative.ofAdd 5))
  obtain ⟨mh', hmh', -, hafter⟩ := (muhash_tracks_tree checksumHash byteCodec oneCoinTree []
    [spendLog] none _ accumulates_oneCoinTree).1 done hdone
  exact ⟨done, hdone, mh', hmh', hafter⟩

end Hash

end BlvmNode
