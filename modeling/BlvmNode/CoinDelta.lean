import BlvmNode.CoinTree
import BlvmNode.Lib.NetWrites

/-!
# Net coin deltas

`commit_utxo_snapshot_delta` collects the effects of disconnected and connected blocks in one map
per key and writes the map as one batch. On the coin rows the batch is the effects applied one at a
time.
-/

namespace BlvmNode

open NetWrites List Option Function RowTable

structure UndoEntry (U : Type) where
  outpoint : OutPoint
  previousUtxo : Option U
  newUtxo : Option U

structure BlockUndoLog (U : Type) where
  entries : List (UndoEntry U)

/-- The rolling hash: a state stands for an element of a commutative group, a coin enters it as a
factor, and states are kept as bytes of a fixed number. -/
structure MuHash (U M G : Type) [CommGroup G] where
  preimage : OutPoint → U → Bytes
  element : Bytes → G
  value : M → G
  insertMut : M → Bytes → M
  removeMut : M → Bytes → M
  serializeRunningState : M → Bytes
  deserializeRunningState : Bytes → M
  runningStateBytes : ℕ
  value_insertMut : ∀ m data, value (insertMut m data) = value m * element data
  value_removeMut : ∀ m data, value (removeMut m data) = value m / element data
  deserialize_serialize : ∀ m, deserializeRunningState (serializeRunningState m) = m
  length_serialize : ∀ m, (serializeRunningState m).length = runningStateBytes

variable {U M G : Type} [CommGroup G] {key : Bytes}

def applySnapshotCoin (hash : MuHash U M G) (mh : M) (outpoint : OutPoint) (utxo : U)
    (insert : Bool) : M :=
  if insert then hash.insertMut mh (hash.preimage outpoint utxo)
  else hash.removeMut mh (hash.preimage outpoint utxo)

abbrev NetMap := List (Bytes × Option Bytes)

def netEffect (codec : ValueCodec U) (net : NetMap) (outpoint : OutPoint) (old new : Option U) :
    Option NetMap :=
  let key := outpointToKey outpoint
  let net := if old.isSome then RowTable.put net (key, none) else net
  match new with
  | none => some net
  | some utxo => (codec.encode utxo).map (fun row => RowTable.put net (key, some row))

def disconnectEntry (codec : ValueCodec U) (net : NetMap) (entry : UndoEntry U) :
    Option NetMap :=
  netEffect codec net entry.outpoint entry.newUtxo entry.previousUtxo

def connectEntry (codec : ValueCodec U) (net : NetMap) (entry : UndoEntry U) : Option NetMap :=
  netEffect codec net entry.outpoint entry.previousUtxo entry.newUtxo

def netDelta (codec : ValueCodec U) (disconnectTipFirst connectLowToHigh : List (BlockUndoLog U)) :
    Option NetMap := do
  let net ← disconnectTipFirst.foldlM
    (fun net undo => undo.entries.foldlM (disconnectEntry codec) net) []
  connectLowToHigh.foldlM
    (fun net undo => undo.entries.reverse.foldlM (connectEntry codec) net) net

def muhashCoin (hash : MuHash U M G) (codec : ValueCodec U) (mh : M) (outpoint : OutPoint)
    (insert : Bool) : Option Bytes → Option M
  | none => some mh
  | some row =>
    (codec.decode row).map (fun utxo => applySnapshotCoin hash mh outpoint utxo insert)

def muhashRow (hash : MuHash U M G) (codec : ValueCodec U) (tree : ByteTree) (mh : M)
    (row : Bytes × Option Bytes) : Option M := do
  let outpoint := keyToOutpoint row.1
  let mh ← muhashCoin hash codec mh outpoint false (tree row.1)
  muhashCoin hash codec mh outpoint true row.2

def muhashDelta (hash : MuHash U M G) (codec : ValueCodec U) (tree : ByteTree) (net : NetMap) :
    Option M → Option (Option M)
  | none => some none
  | some mh => (net.foldlM (muhashRow hash codec tree) mh).map some

def putRow (tree : ByteTree) (key : Bytes) : Option Bytes → ByteTree
  | none => tree
  | some row => Function.update tree key (some row)

structure DeltaCommit (M : Type) where
  tree : ByteTree
  muhash : Option M
  count : ℕ

def commitUtxoSnapshotDelta (hash : MuHash U M G) (codec : ValueCodec U) (tree : ByteTree)
    (disconnectTipFirst connectLowToHigh : List (BlockUndoLog U))
    (journalTip : Option (BitVec 64 × Hash)) (muhash : Option M) : Option (DeltaCommit M) := do
  let net ← netDelta codec disconnectTipFirst connectLowToHigh
  let muhash ← muhashDelta hash codec tree net muhash
  let rows := applyRows tree net
  let rows := putRow rows snapshotReorgJournalKey
    (journalTip.map (fun tip => encodeReorgJournal tip.1 tip.2))
  let rows := putRow rows snapshotMuhashKey (muhash.map hash.serializeRunningState)
  some ⟨rows, muhash, net.length⟩

def disconnectWindows (hash : MuHash U M G) (codec : ValueCodec U) :
    List (List (BlockUndoLog U)) → ByteTree → Option M → Option (ByteTree × Option M)
  | [], tree, muhash => some (tree, muhash)
  | window :: windows, tree, muhash => do
      let done ← commitUtxoSnapshotDelta hash codec tree window [] none muhash
      disconnectWindows hash codec windows done.tree done.muhash

section Effects

def coinRows (tree : ByteTree) (outpoint : OutPoint) : Option Bytes :=
  tree (outpointToKey outpoint)

def coinsOf (codec : ValueCodec U) (rows : OutPoint → Option Bytes) (outpoint : OutPoint) :
    Option (Option U) :=
  (rows outpoint).map codec.decode

def writeRow (codec : ValueCodec U) (rows : OutPoint → Option Bytes) (entry : UndoEntry U) :
    Option (OutPoint → Option Bytes) :=
  let rows := if entry.previousUtxo.isSome then Function.update rows entry.outpoint none else rows
  match entry.newUtxo with
  | none => some rows
  | some utxo =>
    (codec.encode utxo).map (fun row => Function.update rows entry.outpoint (some row))

def writeCoin (codec : ValueCodec U) (coins : OutPoint → Option (Option U))
    (entry : UndoEntry U) : Option (OutPoint → Option (Option U)) :=
  let coins := if entry.previousUtxo.isSome then Function.update coins entry.outpoint none
    else coins
  match entry.newUtxo with
  | none => some coins
  | some utxo =>
    (codec.encode utxo).map (fun _ => Function.update coins entry.outpoint (some (some utxo)))

def UndoEntry.swap (entry : UndoEntry U) : UndoEntry U :=
  ⟨entry.outpoint, entry.newUtxo, entry.previousUtxo⟩

def deltaEffects (disconnectTipFirst connectLowToHigh : List (BlockUndoLog U)) :
    List (UndoEntry U) :=
  disconnectTipFirst.flatMap (fun undo => undo.entries.map UndoEntry.swap) ++
    connectLowToHigh.flatMap (fun undo => undo.entries.reverse)

/-- A spent coin is the one present, and it encodes; a coin is created where no row is, unless the
entry carries the coin it overwrites. -/
def Fits (codec : ValueCodec U) (coins : OutPoint → Option (Option U)) (entry : UndoEntry U) :
    Prop :=
  match entry.previousUtxo, entry.newUtxo with
  | some utxo, _ => coins entry.outpoint = some (some utxo) ∧ ∃ row, codec.encode utxo = some row
  | none, some _ => coins entry.outpoint = none
  | none, none => True

def Consistent (codec : ValueCodec U) (tree : ByteTree) (logs : List (BlockUndoLog U)) : Prop :=
  FitsAlong (writeCoin codec) (Fits codec) (coinsOf codec (coinRows tree)) (deltaEffects [] logs)

theorem coinRows_update_key (tree : ByteTree) (outpoint : OutPoint) (row : Option Bytes) :
    coinRows (update tree (outpointToKey outpoint) row) = update (coinRows tree) outpoint row :=
  update_comp_eq_of_injective tree (fun _ _ => outpointToKey_injective) outpoint row

variable (codec : ValueCodec U) (rows : OutPoint → Option Bytes)
  (coins : OutPoint → Option (Option U))

theorem coinsOf_update (outpoint : OutPoint) (row : Option Bytes) :
    coinsOf codec (update rows outpoint row) =
      update (coinsOf codec rows) outpoint (row.map codec.decode) :=
  comp_update (Option.map codec.decode) rows outpoint row

theorem coinRows_putRow (tree : ByteTree) (row : Option Bytes)
    (h : ∀ outpoint, outpointToKey outpoint ≠ key) :
    coinRows (putRow tree key row) = coinRows tree := by
  funext outpoint
  cases row with
  | none => rfl
  | some row => exact update_of_ne (h outpoint) _ _

theorem connectEntry_coinRows (tree : ByteTree) (net : NetMap) (entry : UndoEntry U) :
    (connectEntry codec net entry).map (fun net => coinRows (applyRows tree net)) =
      writeRow codec (coinRows (applyRows tree net)) entry := by
  have hdelete : coinRows (applyRows tree (if entry.previousUtxo.isSome then
        put net (outpointToKey entry.outpoint, none) else net)) =
      if entry.previousUtxo.isSome then
        update (coinRows (applyRows tree net)) entry.outpoint none
      else coinRows (applyRows tree net) := by
    split_ifs
    · rw [applyRows_put, coinRows_update_key]
    · rfl
  simp only [connectEntry, netEffect, writeRow]
  cases entry.newUtxo with
  | none => rw [map_some, hdelete]
  | some utxo =>
    simp only [Option.map_map]
    congr 1
    funext row
    simp only [Function.comp_apply]
    rw [applyRows_put, coinRows_update_key, hdelete]

theorem writeRow_coinsOf (entry : UndoEntry U) :
    (writeRow codec rows entry).map (coinsOf codec) =
      writeCoin codec (coinsOf codec rows) entry := by
  have hdelete : coinsOf codec (if entry.previousUtxo.isSome then
        update rows entry.outpoint none else rows) =
      if entry.previousUtxo.isSome then
        update (coinsOf codec rows) entry.outpoint none
      else coinsOf codec rows := by
    split_ifs
    · rw [coinsOf_update, map_none]
    · rfl
  simp only [writeRow, writeCoin]
  cases entry.newUtxo with
  | none => rw [map_some, hdelete]
  | some utxo =>
    cases hrow : codec.encode utxo with
    | none => simp only [hrow, map_none]
    | some row =>
      simp only [hrow, map_some]
      rw [coinsOf_update, hdelete, map_some, codec.decode_encode hrow]

theorem foldlM_flatMap {σ ι κ : Type} (step : σ → κ → Option σ) (f : ι → List κ) (st : σ)
    (is : List ι) :
    is.foldlM (fun st i => (f i).foldlM step st) st = (is.flatMap f).foldlM step st := by
  induction is generalizing st with
  | nil => rfl
  | cons i is ih =>
    rw [foldlM_cons, flatMap_cons, foldlM_append]
    congr 1
    funext st'
    exact ih st'

theorem netDelta_eq (disconnects connects : List (BlockUndoLog U)) :
    netDelta codec disconnects connects =
      (deltaEffects disconnects connects).foldlM (connectEntry codec) [] := by
  have hdisconnect : ∀ (net : NetMap) (undo : BlockUndoLog U),
      undo.entries.foldlM (disconnectEntry codec) net =
        (undo.entries.map UndoEntry.swap).foldlM (connectEntry codec) net := by
    intro net undo
    rw [List.foldlM_map]
    rfl
  simp only [netDelta, deltaEffects, hdisconnect]
  rw [foldlM_append, foldlM_flatMap]
  congr 1
  funext net
  exact foldlM_flatMap (connectEntry codec) _ net connects

theorem netDelta_coinRows (tree : ByteTree) (disconnects connects : List (BlockUndoLog U)) :
    (netDelta codec disconnects connects).map (fun net => coinRows (applyRows tree net)) =
      (deltaEffects disconnects connects).foldlM (writeRow codec) (coinRows tree) := by
  rw [netDelta_eq]
  exact foldlM_map (connectEntry_coinRows codec tree) [] _

theorem foldlM_writeRow_coinsOf (effects : List (UndoEntry U)) :
    (effects.foldlM (writeRow codec) rows).map (coinsOf codec) =
      effects.foldlM (writeCoin codec) (coinsOf codec rows) :=
  foldlM_map (writeRow_coinsOf codec) rows effects

theorem writeCoin_swap (entry : UndoEntry U) (coins' : OutPoint → Option (Option U))
    (hfits : Fits codec coins entry) (h : writeCoin codec coins entry = some coins') :
    writeCoin codec coins' entry.swap = some coins ∧ Fits codec coins' entry.swap := by
  obtain ⟨outpoint, previous, new⟩ := entry
  cases previous with
  | none =>
    cases new with
    | none =>
      simp only [writeCoin, isSome_none, Bool.false_eq_true, if_false, some.injEq] at h
      rw [← h]
      exact ⟨rfl, trivial⟩
    | some utxo =>
      have habsent : coins outpoint = none := hfits
      simp only [writeCoin, isSome_none, Bool.false_eq_true, if_false, map_eq_some_iff] at h
      obtain ⟨row, hrow, rfl⟩ := h
      refine ⟨?_, update_self .., row, hrow⟩
      simp only [writeCoin, UndoEntry.swap, isSome_some, if_true, update_idem]
      rw [← habsent, update_eq_self]
  | some old =>
    obtain ⟨hpresent, oldRow, hold⟩ := hfits
    simp only at hpresent
    cases new with
    | none =>
      simp only [writeCoin, isSome_some, if_true, some.injEq] at h
      subst h
      refine ⟨?_, update_self ..⟩
      simp only [writeCoin, UndoEntry.swap, isSome_none, Bool.false_eq_true, if_false,
        hold, map_some, update_idem]
      rw [← hpresent, update_eq_self]
    | some utxo =>
      simp only [writeCoin, isSome_some, if_true, map_eq_some_iff, update_idem] at h
      obtain ⟨row, hrow, rfl⟩ := h
      refine ⟨?_, update_self .., row, hrow⟩
      simp only [writeCoin, UndoEntry.swap, isSome_some, if_true, hold, map_some, update_idem]
      rw [← hpresent, update_eq_self]

theorem deltaEffects_reverse (logs : List (BlockUndoLog U)) :
    deltaEffects logs.reverse [] = (deltaEffects [] logs).reverse.map UndoEntry.swap := by
  simp only [deltaEffects, flatMap_nil, append_nil, nil_append]
  induction logs with
  | nil => rfl
  | cons log logs ih =>
    rw [reverse_cons, flatMap_append, ih]
    simp only [flatMap_cons, flatMap_nil, append_nil, reverse_append, map_append, reverse_reverse]

theorem deltaEffects_append (disconnects more : List (BlockUndoLog U)) :
    deltaEffects (disconnects ++ more) [] =
      deltaEffects disconnects [] ++ deltaEffects more [] := by
  simp only [deltaEffects, flatMap_append, flatMap_nil, append_nil]

theorem foldlM_writeCoin_eq_none (effects : List (UndoEntry U)) :
    effects.foldlM (writeCoin codec) coins = none ↔
      ∃ entry ∈ effects, ∃ utxo, entry.newUtxo = some utxo ∧ codec.encode utxo = none := by
  induction effects generalizing coins with
  | nil => simp
  | cons entry effects ih =>
    rw [foldlM_cons, exists_mem_cons_iff]
    cases hnew : entry.newUtxo with
    | none =>
      simp only [writeCoin, hnew, bind_eq_bind, bind_some, ih]
      simp
    | some utxo =>
      cases hrow : codec.encode utxo with
      | none => simp [writeCoin, hnew, hrow]
      | some row =>
        simp only [writeCoin, hnew, hrow, map_some, bind_eq_bind, bind_some, ih]
        simp [hrow]

end Effects

section Keys

variable {codec : ValueCodec U} {disconnects connects : List (BlockUndoLog U)} {net : NetMap}

theorem netDelta_induction (P : NetMap → Prop) (hnil : P [])
    (hput : ∀ net outpoint row, (∀ new, row = some new → ∃ utxo, codec.encode utxo = some new) →
      P net → P (put net (outpointToKey outpoint, row)))
    (h : netDelta codec disconnects connects = some net) : P net := by
  rw [netDelta_eq] at h
  generalize deltaEffects disconnects connects = effects at h
  generalize ([] : NetMap) = start at h hnil
  induction effects generalizing start with
  | nil =>
    cases h
    exact hnil
  | cons entry effects ih =>
    rw [foldlM_cons, bind_eq_bind, bind_eq_some_iff] at h
    obtain ⟨mid, hmid, hrest⟩ := h
    apply ih mid hrest
    have hdelete : P (if entry.previousUtxo.isSome then
        put start (outpointToKey entry.outpoint, none) else start) := by
      split_ifs
      · exact hput start _ none (nofun) hnil
      · exact hnil
    simp only [connectEntry, netEffect] at hmid
    split at hmid
    next =>
      cases hmid
      exact hdelete
    next utxo _ =>
      obtain ⟨row, hrow, rfl⟩ := map_eq_some_iff.mp hmid
      apply hput _ _ _ _ hdelete
      intro new hnew
      exact ⟨utxo, hnew ▸ hrow⟩

section

variable (h : netDelta codec disconnects connects = some net)
include h

theorem coinKeys_netDelta : ∀ key ∈ net.map Prod.fst, ∃ outpoint, outpointToKey outpoint = key := by
  refine netDelta_induction (fun net => ∀ key ∈ net.map Prod.fst, ∃ outpoint,
    outpointToKey outpoint = key) ?_ ?_ h
  · intro key hkey
    cases hkey
  · intro net outpoint row _ hnet key hkey
    rw [put, map_cons, mem_cons] at hkey
    rcases hkey with rfl | hkey
    · exact ⟨outpoint, rfl⟩
    · exact hnet key ((filter_sublist.map Prod.fst).subset hkey)

theorem encoded_netDelta : ∀ row ∈ net, ∀ new, row.2 = some new →
    ∃ utxo, codec.encode utxo = some new := by
  refine netDelta_induction (fun net => ∀ row ∈ net, ∀ new, row.2 = some new →
    ∃ utxo, codec.encode utxo = some new) ?_ ?_ h
  · exact nofun
  · intro net outpoint row hrow hnet r hr
    rcases mem_cons.mp hr with rfl | hr
    · exact hrow
    · exact hnet r (mem_of_mem_filter hr)

theorem nodup_netDelta : (net.map Prod.fst).Nodup := by
  apply netDelta_induction (fun net => (net.map Prod.fst).Nodup) nodup_nil _ h
  intro net outpoint row _ hnet
  exact nodup_put hnet _

theorem applyRows_netDelta_of_ne (tree : ByteTree)
    (hkey : ∀ outpoint, outpointToKey outpoint ≠ key) : applyRows tree net key = tree key := by
  apply applyRows_of_notMem
  intro hmem
  obtain ⟨outpoint, hout⟩ := coinKeys_netDelta h key hmem
  exact hkey outpoint hout

end

end Keys

end BlvmNode
