import BlvmNode.CoinDelta
import Mathlib.Data.BitVec

/-!
# Connecting and disconnecting are inverse

A commit applies its effects to the coin rows one at a time, writes the journal and MuHash rows when
they are asked for, and changes no other row. On a consistent tree only a coin that does not encode
can fail, and the disconnects restore the tree.
-/

namespace BlvmNode

open NetWrites List Option

variable {U M G : Type} [CommGroup G] {hash : MuHash U M G} {codec : ValueCodec U} {tree : ByteTree}
  {disconnects connects : List (BlockUndoLog U)} {key : Bytes}

section Commit

variable {journalTip : Option (BitVec 64 × Hash)} {muhash : Option M} {done : DeltaCommit M}

theorem commitUtxoSnapshotDelta_eq_some :
    commitUtxoSnapshotDelta hash codec tree disconnects connects journalTip muhash = some done ↔
      ∃ net muhash', netDelta codec disconnects connects = some net ∧
        muhashDelta hash codec tree net muhash = some muhash' ∧
        done = ⟨putRow (putRow (applyRows tree net) snapshotReorgJournalKey
          (journalTip.map (fun tip => encodeReorgJournal tip.1 tip.2))) snapshotMuhashKey
          (muhash'.map hash.serializeRunningState), muhash', net.length⟩ := by
  simp only [commitUtxoSnapshotDelta, bind_eq_bind, bind_eq_some_iff, some.injEq]
  constructor
  · rintro ⟨net, hnet, muhash', hmuhash, rfl⟩
    exact ⟨net, muhash', hnet, hmuhash, rfl⟩
  · rintro ⟨net, muhash', hnet, hmuhash, rfl⟩
    exact ⟨net, hnet, muhash', hmuhash, rfl⟩

theorem putRow_of_ne (tree : ByteTree) {key' : Bytes} (h : key' ≠ key) (row : Option Bytes) :
    putRow tree key row key' = tree key' := by
  cases row with
  | none => rfl
  | some row => exact Function.update_of_ne h _ _

theorem putRow_self (tree : ByteTree) (key row : Bytes) :
    putRow tree key (some row) key = some row := by
  rw [putRow, Function.update_self]

theorem muhashDelta_none {net : NetMap} {muhash' : Option M}
    (h : muhashDelta hash codec tree net muhash = some muhash') :
    muhash' = none ↔ muhash = none := by
  cases muhash with
  | none =>
    rw [muhashDelta, some.injEq] at h
    simp [← h]
  | some mh =>
    simp only [muhashDelta, map_eq_some_iff] at h
    obtain ⟨mh', -, rfl⟩ := h
    simp

section

variable
    (h : commitUtxoSnapshotDelta hash codec tree disconnects connects journalTip muhash = some done)
include h

theorem muhash_commit_none : done.muhash = none ↔ muhash = none := by
  obtain ⟨net, muhash', -, hdelta, rfl⟩ := commitUtxoSnapshotDelta_eq_some.mp h
  exact muhashDelta_none hdelta

theorem coinRows_commit :
    (deltaEffects disconnects connects).foldlM (writeRow codec) (coinRows tree) =
      some (coinRows done.tree) := by
  obtain ⟨net, muhash', hnet, -, rfl⟩ := commitUtxoSnapshotDelta_eq_some.mp h
  rw [← netDelta_coinRows, hnet, map_some, coinRows_putRow _ _ outpointToKey_ne_muhashKey,
    coinRows_putRow _ _ outpointToKey_ne_journalKey]

theorem coinsOf_commit :
    (deltaEffects disconnects connects).foldlM (writeCoin codec) (coinsOf codec (coinRows tree)) =
      some (coinsOf codec (coinRows done.tree)) := by
  rw [← foldlM_writeRow_coinsOf, coinRows_commit h, map_some]

theorem row_commit {outpoint : OutPoint} {row : Bytes}
    (hrow : coinRows done.tree outpoint = some row) :
    coinRows tree outpoint = some row ∨ ∃ utxo, codec.encode utxo = some row := by
  obtain ⟨net, muhash', hnet, -, rfl⟩ := commitUtxoSnapshotDelta_eq_some.mp h
  rw [coinRows_putRow _ _ outpointToKey_ne_muhashKey,
    coinRows_putRow _ _ outpointToKey_ne_journalKey] at hrow
  rcases mem_of_applyRows hrow with hold | hmem
  · exact .inl hold
  · exact .inr (encoded_netDelta hnet _ hmem row rfl)

theorem commit_of_ne_key (hkey : ∀ outpoint, outpointToKey outpoint ≠ key)
    (hjournal : key ≠ snapshotReorgJournalKey ∨ journalTip = none)
    (hmuhash : key ≠ snapshotMuhashKey ∨ muhash = none) : done.tree key = tree key := by
  obtain ⟨net, muhash', hnet, hdelta, rfl⟩ := commitUtxoSnapshotDelta_eq_some.mp h
  rw [← muhashDelta_none hdelta] at hmuhash
  have hrows : putRow (applyRows tree net) snapshotReorgJournalKey
      (journalTip.map (fun tip => encodeReorgJournal tip.1 tip.2)) key = tree key := by
    rw [← applyRows_netDelta_of_ne hnet tree hkey]
    rcases hjournal with hne | rfl
    · exact putRow_of_ne _ hne _
    · rfl
  rw [← hrows]
  rcases hmuhash with hne | rfl
  · exact putRow_of_ne _ hne _
  · rfl

end

theorem journal_commit {tip : BitVec 64 × Hash}
    (h : commitUtxoSnapshotDelta hash codec tree disconnects connects (some tip) muhash =
      some done) : done.tree snapshotReorgJournalKey = some (encodeReorgJournal tip.1 tip.2) := by
  obtain ⟨net, muhash', -, -, rfl⟩ := commitUtxoSnapshotDelta_eq_some.mp h
  simp only [putRow_of_ne _ journalKey_ne_muhashKey, map_some, putRow_self]

end Commit

section Decoding

def Decodable (codec : ValueCodec U) (tree : ByteTree) (net : NetMap) : Prop :=
  ∀ row ∈ net, (∀ old, tree row.1 = some old → ∃ utxo, codec.decode old = some utxo) ∧
    ∀ new, row.2 = some new → ∃ utxo, codec.decode new = some utxo

variable {net : NetMap} {entry : UndoEntry U} {row : Option Bytes} {net' : NetMap}

theorem decodable_put (h : Decodable codec tree net)
    (hold : ∀ old, tree key = some old → ∃ utxo, codec.decode old = some utxo)
    (hnew : ∀ new, row = some new → ∃ utxo, codec.decode new = some utxo) :
    Decodable codec tree (RowTable.put net (key, row)) := by
  intro r hr
  rw [RowTable.put, mem_cons] at hr
  rcases hr with rfl | hr
  · exact ⟨hold, hnew⟩
  · exact h r (mem_of_mem_filter hr)

theorem decodes_of_fits (h : Decodable codec tree net)
    (hfits : Fits codec (coinsOf codec (coinRows (applyRows tree net))) entry)
    (htouch : entry.previousUtxo.isSome ∨ entry.newUtxo.isSome) :
    ∀ old, tree (outpointToKey entry.outpoint) = some old →
      ∃ utxo, codec.decode old = some utxo := by
  intro old hold
  by_cases hmem : outpointToKey entry.outpoint ∈ net.map Prod.fst
  · obtain ⟨row, hrow, hfst⟩ := mem_map.mp hmem
    apply (h row hrow).1
    rw [hfst, hold]
  · have hcurrent : coinsOf codec (coinRows (applyRows tree net)) entry.outpoint =
        some (codec.decode old) := by
      rw [coinsOf, coinRows, applyRows_of_notMem hmem, hold, map_some]
    obtain ⟨outpoint, previous, new⟩ := entry
    cases previous with
    | some utxo =>
      have hpresent := hfits.1
      rw [hcurrent, some.injEq] at hpresent
      exact ⟨utxo, hpresent⟩
    | none =>
      cases new with
      | none => simp at htouch
      | some utxo =>
        have habsent : coinsOf codec (coinRows (applyRows tree net)) outpoint = none := hfits
        rw [hcurrent] at habsent
        simp at habsent

theorem decodable_connectEntry (h : Decodable codec tree net)
    (hfits : Fits codec (coinsOf codec (coinRows (applyRows tree net))) entry)
    (hstep : connectEntry codec net entry = some net') : Decodable codec tree net' := by
  have hold := decodes_of_fits h hfits
  have hdelete : Decodable codec tree (if entry.previousUtxo.isSome then
      RowTable.put net (outpointToKey entry.outpoint, none) else net) := by
    split_ifs with hprevious
    · exact decodable_put h (hold (.inl hprevious)) (nofun)
    · exact h
  simp only [connectEntry, netEffect] at hstep
  split at hstep
  next =>
    cases hstep
    exact hdelete
  next utxo hnew =>
    obtain ⟨row, hrow, rfl⟩ := map_eq_some_iff.mp hstep
    apply decodable_put hdelete (hold (.inr (by rw [hnew]; rfl)))
    intro new hsome
    rw [some.injEq] at hsome
    exact ⟨utxo, codec.decode_encode (hsome ▸ hrow)⟩

theorem decodable_foldlM {effects : List (UndoEntry U)} (h : Decodable codec tree net)
    (hfits : FitsAlong (writeCoin codec) (Fits codec)
      (coinsOf codec (coinRows (applyRows tree net))) effects)
    (hrun : effects.foldlM (connectEntry codec) net = some net') : Decodable codec tree net' := by
  induction effects generalizing net with
  | nil =>
    cases hrun
    exact h
  | cons entry effects ih =>
    rw [foldlM_cons, bind_eq_bind, bind_eq_some_iff] at hrun
    obtain ⟨mid, hmid, hrest⟩ := hrun
    apply ih (decodable_connectEntry h hfits.1 hmid) _ hrest
    apply hfits.2
    rw [← writeRow_coinsOf, ← connectEntry_coinRows, hmid, map_some, map_some]

theorem decodable_netDelta
    (hfits : FitsAlong (writeCoin codec) (Fits codec) (coinsOf codec (coinRows tree))
      (deltaEffects disconnects connects))
    (h : netDelta codec disconnects connects = some net) : Decodable codec tree net := by
  rw [netDelta_eq] at h
  exact decodable_foldlM (fun _ hrow => absurd hrow not_mem_nil) hfits h

theorem decodable_of_rows (hrows : ∀ outpoint row, coinRows tree outpoint = some row →
      ∃ utxo, codec.decode row = some utxo) (h : netDelta codec disconnects connects = some net) :
    Decodable codec tree net := by
  intro row hrow
  constructor
  · obtain ⟨outpoint, hkey⟩ := coinKeys_netDelta h _ (mem_map_of_mem hrow)
    rw [← hkey]
    exact hrows outpoint
  · intro new hnew
    obtain ⟨utxo, hutxo⟩ := encoded_netDelta h row hrow new hnew
    exact ⟨utxo, codec.decode_encode hutxo⟩

theorem muhashCoin_of_decodes (hash : MuHash U M G) (mh : M) (outpoint : OutPoint) (insert : Bool)
    (h : ∀ bytes, row = some bytes → ∃ utxo, codec.decode bytes = some utxo) :
    ∃ mh', muhashCoin hash codec mh outpoint insert row = some mh' := by
  cases row with
  | none => exact ⟨mh, rfl⟩
  | some bytes =>
    obtain ⟨utxo, hutxo⟩ := h bytes rfl
    exact ⟨_, by rw [muhashCoin, hutxo, map_some]⟩

theorem muhashDelta_of_decodable (hash : MuHash U M G)
    (h : Decodable codec tree net) (muhash : Option M) :
    ∃ muhash', muhashDelta hash codec tree net muhash = some muhash' := by
  cases muhash with
  | none => exact ⟨none, rfl⟩
  | some mh =>
    have hrun : ∃ mh', net.foldlM (muhashRow hash codec tree) mh = some mh' := by
      induction net generalizing mh with
      | nil => exact ⟨mh, rfl⟩
      | cons row net ih =>
        obtain ⟨hold, hnew⟩ := h row mem_cons_self
        obtain ⟨mid, hmid⟩ := muhashCoin_of_decodes hash mh (keyToOutpoint row.1) false hold
        obtain ⟨mh', hmh'⟩ := muhashCoin_of_decodes hash mid (keyToOutpoint row.1) true hnew
        have hstep : muhashRow hash codec tree mh row = some mh' := by
          rw [muhashRow, hmid]
          exact hmh'
        rw [foldlM_cons, hstep]
        exact ih (fun r hr => h r (mem_cons_of_mem _ hr)) mh'
    obtain ⟨mh', hmh'⟩ := hrun
    exact ⟨some mh', by rw [muhashDelta, hmh', map_some]⟩

end Decoding

section Inverse

variable (hash) {rows : OutPoint → Option Bytes}

theorem commit_of_decodable
    (hdecodable : ∀ net, netDelta codec disconnects connects = some net → Decodable codec tree net)
    (hrun : (deltaEffects disconnects connects).foldlM (writeRow codec) (coinRows tree) = some rows)
    (journalTip : Option (BitVec 64 × Hash)) (muhash : Option M) :
    ∃ done, commitUtxoSnapshotDelta hash codec tree disconnects connects journalTip muhash =
      some done ∧ coinRows done.tree = rows := by
  obtain ⟨net, hnet, -⟩ :=
    map_eq_some_iff.mp ((netDelta_coinRows codec tree disconnects connects).trans hrun)
  obtain ⟨muhash', hmuhash⟩ := muhashDelta_of_decodable hash (hdecodable net hnet) muhash
  have hdone : ∃ done, commitUtxoSnapshotDelta hash codec tree disconnects connects journalTip
      muhash = some done :=
    ⟨_, commitUtxoSnapshotDelta_eq_some.mpr ⟨net, muhash', hnet, hmuhash, rfl⟩⟩
  obtain ⟨done, hdone⟩ := hdone
  refine ⟨done, hdone, ?_⟩
  have hrows := coinRows_commit hdone
  rw [hrun, some.injEq] at hrows
  exact hrows.symm

theorem commit_of_fits
    (hfits : FitsAlong (writeCoin codec) (Fits codec) (coinsOf codec (coinRows tree))
      (deltaEffects disconnects connects))
    (hrun : (deltaEffects disconnects connects).foldlM (writeRow codec) (coinRows tree) = some rows)
    (journalTip : Option (BitVec 64 × Hash)) (muhash : Option M) :
    ∃ done, commitUtxoSnapshotDelta hash codec tree disconnects connects journalTip muhash =
      some done ∧ coinRows done.tree = rows :=
  commit_of_decodable hash (fun _ hnet => decodable_netDelta hfits hnet) hrun journalTip muhash

theorem disconnectWindows_of_fits {windows : List (List (BlockUndoLog U))}
    (hfits : FitsAlong (writeCoin codec) (Fits codec) (coinsOf codec (coinRows tree))
      (deltaEffects windows.flatten []))
    (hrun : (deltaEffects windows.flatten []).foldlM (writeRow codec) (coinRows tree) = some rows)
    (muhash : Option M) :
    ∃ res, disconnectWindows hash codec windows tree muhash = some res ∧
      coinRows res.1 = rows ∧
      ∀ key, (∀ outpoint, outpointToKey outpoint ≠ key) →
        key ≠ snapshotMuhashKey ∨ muhash = none → res.1 key = tree key := by
  induction windows generalizing tree muhash with
  | nil =>
    rw [flatten_nil] at hrun
    rw [some.inj hrun.symm]
    exact ⟨(tree, muhash), rfl, rfl, fun _ _ _ => rfl⟩
  | cons window windows ih =>
    rw [flatten_cons, deltaEffects_append] at hfits hrun
    rw [fitsAlong_append] at hfits
    rw [foldlM_append, bind_eq_bind, bind_eq_some_iff] at hrun
    obtain ⟨mid, hmid, hrest⟩ := hrun
    obtain ⟨done, hdone, hrows⟩ := commit_of_fits hash hfits.1 hmid none muhash
    rw [← hrows] at hrest
    obtain ⟨res, hres, hresRows, hkeys⟩ :=
      ih (hfits.2 _ (coinsOf_commit hdone)) hrest done.muhash
    refine ⟨res, ?_, hresRows, ?_⟩
    · rw [disconnectWindows, hdone]
      exact hres
    · intro key hkey hmuhash
      rw [← commit_of_ne_key hdone hkey (.inr rfl) hmuhash]
      apply hkeys key hkey
      rwa [muhash_commit_none hdone]

/-- Every coin row is the encoding of the coin it decodes to. -/
def Canonical (codec : ValueCodec U) (tree : ByteTree) : Prop :=
  ∀ outpoint row utxo, coinRows tree outpoint = some row →
    codec.decode row = some utxo → codec.encode utxo = some row

theorem coinRows_eq_of_canonical (h : Canonical codec tree)
    (hcoins : coinsOf codec rows = coinsOf codec (coinRows tree))
    (hrows : ∀ outpoint row, rows outpoint = some row →
      coinRows tree outpoint = some row ∨ ∃ utxo, codec.encode utxo = some row) :
    rows = coinRows tree := by
  funext outpoint
  have hcoin := congrFun hcoins outpoint
  simp only [coinsOf] at hcoin
  cases hrow : rows outpoint with
  | none =>
    rw [hrow, map_none, eq_comm, map_eq_none_iff] at hcoin
    exact hcoin.symm
  | some row =>
    rcases hrows outpoint row hrow with hsame | ⟨utxo, hutxo⟩
    · exact hsame.symm
    · rw [hrow, map_some, codec.decode_encode hutxo, eq_comm, map_eq_some_iff] at hcoin
      obtain ⟨old, hold, hdecode⟩ := hcoin
      have hencode := h outpoint old utxo hold hdecode
      rw [hutxo, some.injEq] at hencode
      rw [hold, hencode]

theorem tree_eq_of_coinRows {tree' : ByteTree} (hcoins : coinRows tree = coinRows tree')
    (hother : (∀ outpoint, outpointToKey outpoint ≠ key) → tree key = tree' key) :
    tree key = tree' key := by
  by_cases hkey : ∃ outpoint, outpointToKey outpoint = key
  · obtain ⟨outpoint, rfl⟩ := hkey
    exact congrFun hcoins outpoint
  · exact hother (fun outpoint heq => hkey ⟨outpoint, heq⟩)

theorem foldlM_disconnect {logs : List (BlockUndoLog U)} {connected : ByteTree}
    (hconsistent : Consistent codec tree logs)
    (hconnect : (deltaEffects [] logs).foldlM (writeCoin codec) (coinsOf codec (coinRows tree)) =
      some (coinsOf codec (coinRows connected))) :
    FitsAlong (writeCoin codec) (Fits codec) (coinsOf codec (coinRows connected))
        (deltaEffects logs.reverse []) ∧
      ∃ rows, (deltaEffects logs.reverse []).foldlM (writeRow codec) (coinRows connected) =
        some rows ∧ coinsOf codec rows = coinsOf codec (coinRows tree) := by
  obtain ⟨hback, hfits⟩ := foldlM_undo (writeCoin_swap codec) hconsistent hconnect
  rw [← deltaEffects_reverse] at hback hfits
  rw [← foldlM_writeRow_coinsOf, map_eq_some_iff] at hback
  exact ⟨hfits, hback⟩

/-- On a consistent tree connecting fails only on a coin that does not encode. Disconnecting the
same logs tip first restores every coin and every row not written anew; windows of any sizes give
the same tree. -/
theorem disconnect_restores_tree (hash : MuHash U M G) (codec : ValueCodec U) (tree : ByteTree)
    (logs : List (BlockUndoLog U)) (hconsistent : Consistent codec tree logs)
    (journal journal' : Option (BitVec 64 × Hash)) (muhash muhash' : Option M) :
    (commitUtxoSnapshotDelta hash codec tree [] logs journal muhash = none ↔
      ∃ entry ∈ deltaEffects [] logs, ∃ utxo, entry.newUtxo = some utxo ∧
        codec.encode utxo = none) ∧
    ∀ connected, commitUtxoSnapshotDelta hash codec tree [] logs journal muhash =
        some connected →
      ∃ restored, commitUtxoSnapshotDelta hash codec connected.tree logs.reverse [] journal'
          muhash' = some restored ∧
        coinsOf codec (coinRows restored.tree) = coinsOf codec (coinRows tree) ∧
        (∀ key, (Canonical codec tree ∨ ∀ outpoint, outpointToKey outpoint ≠ key) →
          key ≠ snapshotReorgJournalKey ∨ (journal = none ∧ journal' = none) →
          key ≠ snapshotMuhashKey ∨ (muhash = none ∧ muhash' = none) →
          restored.tree key = tree key) ∧
        ∀ windows : List (List (BlockUndoLog U)), windows.flatten = logs.reverse →
          ∃ res, disconnectWindows hash codec windows connected.tree muhash' = some res ∧
            ∀ key, key ≠ snapshotReorgJournalKey ∨ journal' = none →
              key ≠ snapshotMuhashKey ∨ muhash' = none → res.1 key = restored.tree key := by
  constructor
  · rw [← foldlM_writeCoin_eq_none codec (coinsOf codec (coinRows tree))]
    constructor
    · intro hnone
      by_contra hrun
      obtain ⟨coins, hcoins⟩ := ne_none_iff_exists'.mp hrun
      rw [← foldlM_writeRow_coinsOf, map_eq_some_iff] at hcoins
      obtain ⟨rows, hrows, -⟩ := hcoins
      obtain ⟨done, hdone, -⟩ := commit_of_fits hash hconsistent hrows journal muhash
      rw [hnone] at hdone
      simp at hdone
    · intro hnone
      by_contra hsome
      obtain ⟨done, hdone⟩ := ne_none_iff_exists'.mp hsome
      rw [coinsOf_commit hdone] at hnone
      simp at hnone
  · intro connected hconnect
    obtain ⟨hfits, rows, hback, hcoins⟩ := foldlM_disconnect hconsistent (coinsOf_commit hconnect)
    obtain ⟨restored, hrestored, hrows⟩ := commit_of_fits hash hfits hback journal' muhash'
    refine ⟨restored, hrestored, by rw [hrows, hcoins], ?_, ?_⟩
    · intro key hcanonical hjournal hmuhash
      have hother : (∀ outpoint, outpointToKey outpoint ≠ key) →
          restored.tree key = tree key := by
        intro hkey
        rw [commit_of_ne_key hrestored hkey (hjournal.imp_right And.right)
          (hmuhash.imp_right And.right), commit_of_ne_key hconnect hkey
          (hjournal.imp_right And.left) (hmuhash.imp_right And.left)]
      rcases hcanonical with hcanonical | hkey
      · refine tree_eq_of_coinRows (hrows.trans ?_) hother
        apply coinRows_eq_of_canonical hcanonical hcoins
        intro outpoint row hrow
        rw [← hrows] at hrow
        rcases row_commit hrestored hrow with hconnected | hencoded
        · exact row_commit hconnect hconnected
        · exact .inr hencoded
      · exact hother hkey
    · intro windows hwindows
      rw [← hwindows] at hback hfits
      obtain ⟨res, hres, hresRows, hkeys⟩ := disconnectWindows_of_fits hash hfits hback muhash'
      refine ⟨res, hres, ?_⟩
      intro key hjournal hmuhash
      apply tree_eq_of_coinRows (hresRows.trans hrows.symm)
      intro hkey
      rw [hkeys key hkey hmuhash, commit_of_ne_key hrestored hkey hjournal hmuhash]

end Inverse

section Sample

def byteCodec : ValueCodec (BitVec 8) where
  encode utxo := some [utxo]
  decode row := row.head?
  decode_encode := by
    intro u b h
    rw [Option.some.injEq] at h
    rw [← h, List.head?_cons]

def checksumOf (preimage : OutPoint → U → Bytes) :
    MuHash U (Multiplicative (BitVec 8)) (Multiplicative (BitVec 8)) where
  preimage := preimage
  element data := Multiplicative.ofAdd data.sum
  value := id
  insertMut mh data := mh * Multiplicative.ofAdd data.sum
  removeMut mh data := mh / Multiplicative.ofAdd data.sum
  serializeRunningState mh := [mh.toAdd]
  deserializeRunningState row := Multiplicative.ofAdd (row.headD 0)
  runningStateBytes := 1
  value_insertMut _ _ := rfl
  value_removeMut _ _ := rfl
  deserialize_serialize _ := rfl
  length_serialize _ := rfl

def checksumHash :
    MuHash (BitVec 8) (Multiplicative (BitVec 8)) (Multiplicative (BitVec 8)) :=
  checksumOf fun outpoint utxo => utxo :: outpointToKey outpoint

def spendLog : BlockUndoLog (BitVec 8) where
  entries := [⟨⟨2, 0⟩, some 5, none⟩, ⟨⟨3, 0⟩, none, some 6⟩, ⟨⟨2, 0⟩, none, some 5⟩,
    ⟨⟨1, 0⟩, some 4, none⟩]

def oneCoinTree : ByteTree := Function.update (fun _ => none) (outpointToKey ⟨1, 0⟩) (some [4])

theorem coinRows_oneCoinTree :
    coinRows oneCoinTree = Function.update (fun _ : OutPoint => none) ⟨1, 0⟩ (some [4]) := by
  rw [oneCoinTree, coinRows_update_key]
  rfl

theorem consistent_spendLog : Consistent byteCodec oneCoinTree [spendLog] := by
  rw [Consistent, coinRows_oneCoinTree, coinsOf_update]
  simp [deltaEffects, spendLog, FitsAlong, Fits, writeCoin, byteCodec, coinsOf]

theorem disconnect_restores_tree_spendLog :
    Consistent byteCodec oneCoinTree [spendLog] ∧
      ∃ connected, commitUtxoSnapshotDelta checksumHash byteCodec oneCoinTree [] [spendLog]
          (some (7, 9)) none = some connected ∧
        ∃ restored, commitUtxoSnapshotDelta checksumHash byteCodec connected.tree [spendLog] []
            none none = some restored ∧
          coinsOf byteCodec (coinRows restored.tree) =
            coinsOf byteCodec (coinRows oneCoinTree) := by
  have hmain := disconnect_restores_tree checksumHash byteCodec oneCoinTree [spendLog]
    consistent_spendLog (some (7, 9)) none none none
  have hsome : ∃ connected, commitUtxoSnapshotDelta checksumHash byteCodec oneCoinTree []
      [spendLog] (some (7, 9)) none = some connected := by
    apply ne_none_iff_exists'.mp
    rw [Ne, hmain.1]
    rintro ⟨entry, -, utxo, -, hencode⟩
    exact absurd hencode (nofun)
  obtain ⟨connected, hconnected⟩ := hsome
  obtain ⟨restored, hrestored, hcoins, -⟩ := hmain.2 connected hconnected
  exact ⟨consistent_spendLog, connected, hconnected, restored, hrestored, hcoins⟩

end Sample

end BlvmNode
