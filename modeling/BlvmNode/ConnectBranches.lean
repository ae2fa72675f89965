import BlvmNode.DeltaInverse
import BlvmNode.CoinSet
import Mathlib.Data.List.AList

/-!
# The three ways to connect a tip block

A block on the active tip is connected against the engine's snapshot, the chainstate table, or the
coins in memory. The first two read only the block's inputs and write what the undo log says; the
last rewrites the table. All three persist the same coins.
-/

namespace BlvmNode

open NetWrites Option Function AList

variable {U M G : Type} [CommGroup G]

abbrev UtxoSet (U : Type) := AList (fun _ : OutPoint => U)

/-- What the consensus crate returns for a valid block: the connected set and the undo log. -/
abbrev ConnectBlock (U : Type) := UtxoSet U → Option (UtxoSet U × BlockUndoLog U)

section Source

variable (isCoinbase : Transaction → Bool)

def blockInputs (transactions : List Transaction) : List OutPoint :=
  transactions.flatMap (fun tx => if isCoinbase tx then [] else tx.inputs)

def readInput (lookup : OutPoint → Option (Option U)) (set : UtxoSet U) (prevout : OutPoint) :
    Option (UtxoSet U) :=
  if prevout ∈ set then some set
  else match lookup prevout with
    | none => some set
    | some utxo => utxo.map (fun utxo => set.insert prevout utxo)

def readInputs (lookup : OutPoint → Option (Option U)) (set : UtxoSet U)
    (inputs : List OutPoint) : Option (UtxoSet U) :=
  inputs.foldlM (readInput lookup) set

def readSnapshotInputs (codec : ValueCodec U) (tree : ByteTree) (blocks : List (List Transaction))
    (set : UtxoSet U) : Option (UtxoSet U) :=
  readInputs (coinsOf codec (coinRows tree)) set (blocks.flatMap (blockInputs isCoinbase))

/-- `get_utxo`: the row of the 40-byte key, or else of the 36-byte key. -/
def getUtxo (codec : ValueCodec U) (table : ByteTree) (outpoint : OutPoint) :
    Option (Option U) :=
  match table (outpointToKey outpoint) with
  | some row => some (codec.decode row)
  | none => (table (legacyOutpointKey outpoint)).map codec.decode

def addUtxo (codec : ValueCodec U) (table : ByteTree) (outpoint : OutPoint) (utxo : U) :
    Option ByteTree :=
  (codec.encode utxo).map (fun row => Function.update table (outpointToKey outpoint) (some row))

def removeUtxo (table : ByteTree) (outpoint : OutPoint) : ByteTree :=
  Function.update (Function.update table (outpointToKey outpoint) none)
    (legacyOutpointKey outpoint) none

def readTableInputs (codec : ValueCodec U) (table : ByteTree) (transactions : List Transaction)
    (set : UtxoSet U) : Option (UtxoSet U) :=
  readInputs (getUtxo codec table) set (blockInputs isCoinbase transactions)

def connectTableEntry (codec : ValueCodec U) (table : ByteTree) (entry : UndoEntry U) :
    Option ByteTree :=
  let table := if entry.previousUtxo.isSome then removeUtxo table entry.outpoint else table
  match entry.newUtxo with
  | none => some table
  | some created => addUtxo codec table entry.outpoint created

def applyConnectUndoToChainstate (codec : ValueCodec U) (table : ByteTree)
    (undo : BlockUndoLog U) : Option ByteTree :=
  undo.entries.reverse.foldlM (connectTableEntry codec) table

def storeUtxoSet (codec : ValueCodec U) (set : UtxoSet U) : Option ByteTree :=
  set.entries.foldlM (fun table coin => addUtxo codec table coin.1 coin.2) (fun _ => none)

/-- The snapshot branch: the coins the tree holds once the journal and MuHash rows are gone. -/
def connectSnapshot (hash : MuHash U M G) (codec : ValueCodec U) (tree : ByteTree)
    (transactions : List Transaction) (connect : ConnectBlock U) (height : BitVec 64)
    (blockHash : Hash) (muhash : Option M) : Option ByteTree := do
  let utxoForConnect ← readSnapshotInputs isCoinbase codec tree [transactions] ∅
  let (_, undoLog) ← connect utxoForConnect
  let done ← commitUtxoSnapshotDelta hash codec tree [] [undoLog] (some (height, blockHash)) muhash
  some (Function.update (Function.update done.tree snapshotReorgJournalKey none)
    snapshotMuhashKey none)

def connectTable (codec : ValueCodec U) (table : ByteTree) (transactions : List Transaction)
    (connect : ConnectBlock U) : Option ByteTree := do
  let utxoForConnect ← readTableInputs isCoinbase codec table transactions ∅
  let (_, undoLog) ← connect utxoForConnect
  applyConnectUndoToChainstate codec table undoLog

def connectMemory (codec : ValueCodec U) (utxoSet : UtxoSet U) (connect : ConnectBlock U) :
    Option ByteTree := do
  let (connectedUtxo, _) ← connect utxoSet
  storeUtxoSet codec connectedUtxo

end Source

section Consensus

def Records : (OutPoint → Option U) → List (UndoEntry U) → Prop
  | _, [] => True
  | coins, entry :: entries => entry.previousUtxo = coins entry.outpoint ∧
      Records (Function.update coins entry.outpoint entry.newUtxo) entries

def UndoEntry.effect (entry : UndoEntry U) : OutPoint × Option U :=
  (entry.outpoint, entry.newUtxo)

/-- The undo log lists the block's effects, last first, and is exactly the change to the connected
set. -/
def RecordsBlock (connect : ConnectBlock U) (effects : List (OutPoint × Option U)) : Prop :=
  ∀ set connected undo, connect set = some (connected, undo) →
    undo.entries.reverse.map UndoEntry.effect = effects ∧
      Records (fun o => set.lookup o) undo.entries.reverse ∧
      (fun o => connected.lookup o) = applyRows (fun o => set.lookup o) effects

def stored (coins : OutPoint → Option U) (outpoint : OutPoint) : Option (Option U) :=
  (coins outpoint).map some

theorem stored_update (coins : OutPoint → Option U) (outpoint : OutPoint) (utxo : Option U) :
    stored (update coins outpoint utxo) = update (stored coins) outpoint (utxo.map some) :=
  comp_update (Option.map some) coins outpoint utxo

variable {coins' : OutPoint → Option (Option U)} {codec : ValueCodec U}

theorem writeCoin_stored {coins : OutPoint → Option U} {entry : UndoEntry U}
    (hdelete : entry.newUtxo = none → entry.previousUtxo = coins entry.outpoint)
    (h : writeCoin codec (stored coins) entry = some coins') :
    coins' = stored (update coins entry.outpoint entry.newUtxo) := by
  rw [stored_update]
  cases hnew : entry.newUtxo with
  | none =>
    simp only [writeCoin, hnew, some.injEq] at h
    rw [← h, map_none, hdelete hnew]
    split_ifs with hsome
    · rfl
    · rw [not_isSome_iff_eq_none] at hsome
      rw [eq_comm, update_eq_self_iff, stored, hsome, map_none]
  | some utxo =>
    simp only [writeCoin, hnew, map_eq_some_iff] at h
    obtain ⟨row, -, rfl⟩ := h
    rw [map_some]
    split_ifs
    · rw [update_idem]
    · rfl

theorem foldlM_writeCoin_stored {inputs : List OutPoint}
    {entries : List (UndoEntry U)} {set coins : OutPoint → Option U}
    (hagree : ∀ o ∈ inputs, set o = coins o) (hrecords : Records set entries)
    (hspend : ∀ entry ∈ entries, entry.newUtxo = none → entry.outpoint ∈ inputs)
    (h : entries.foldlM (writeCoin codec) (stored coins) = some coins') :
    coins' = stored (applyRows coins (entries.map UndoEntry.effect)) := by
  induction entries generalizing set coins with
  | nil =>
    cases h
    rfl
  | cons entry entries ih =>
    rw [List.foldlM_cons, bind_eq_bind, bind_eq_some_iff] at h
    rw [List.forall_mem_cons] at hspend
    obtain ⟨mid, hmid, hrest⟩ := h
    have hdelete : entry.newUtxo = none → entry.previousUtxo = coins entry.outpoint := by
      intro hnew
      rw [hrecords.1, hagree _ (hspend.1 hnew)]
    rw [writeCoin_stored hdelete hmid] at hrest
    have hagree' : ∀ o ∈ inputs, update set entry.outpoint entry.newUtxo o =
        update coins entry.outpoint entry.newUtxo o := by
      intro o ho
      rw [update_apply, update_apply, hagree o ho]
    exact ih hagree' hrecords.2 hspend.2 hrest

end Consensus

variable {set : UtxoSet U}

section Inputs

def PartOf (set : UtxoSet U) (coins : OutPoint → Option U) : Prop :=
  ∀ o, set.lookup o = none ∨ set.lookup o = coins o

theorem lookup_insert_eq_update (set : UtxoSet U) (outpoint : OutPoint) (utxo : U) :
    (fun o => (set.insert outpoint utxo).lookup o) =
      update (fun o => set.lookup o) outpoint (some utxo) := by
  funext o
  by_cases h : o = outpoint
  · rw [h, update_self, lookup_insert]
  · rw [update_of_ne h, lookup_insert_ne h]

variable {coins : OutPoint → Option U}

theorem readInput_stored (hset : PartOf set coins) (prevout : OutPoint) :
    ∃ set', readInput (stored coins) set prevout = some set' ∧
      set'.lookup prevout = coins prevout ∧
      ∀ o, set'.lookup o = set.lookup o ∨ set'.lookup o = coins o := by
  by_cases hmem : prevout ∈ set
  · refine ⟨set, if_pos hmem, ?_, fun _ => .inl rfl⟩
    apply (hset prevout).resolve_left
    rwa [lookup_eq_none, not_not]
  · cases hcoin : coins prevout with
    | none =>
      refine ⟨set, ?_, lookup_eq_none.mpr hmem, fun _ => .inl rfl⟩
      rw [readInput, if_neg hmem, stored, hcoin, map_none]
    | some utxo =>
      refine ⟨set.insert prevout utxo, ?_, lookup_insert set, fun o => ?_⟩
      · rw [readInput, if_neg hmem, stored, hcoin]
        rfl
      · by_cases heq : o = prevout
        · rw [heq, lookup_insert, hcoin]
          exact .inr rfl
        · exact .inl (lookup_insert_ne heq)

theorem readInputs_stored (inputs : List OutPoint) (hset : PartOf set coins) :
    ∃ set', readInputs (stored coins) set inputs = some set' ∧
      (∀ o ∈ inputs, set'.lookup o = coins o) ∧
      ∀ o, set.lookup o = coins o → set'.lookup o = coins o := by
  induction inputs generalizing set with
  | nil => exact ⟨set, rfl, fun _ ho => absurd ho List.not_mem_nil, fun _ ho => ho⟩
  | cons prevout inputs ih =>
    obtain ⟨mid, hmid, hprevout, hread⟩ := readInput_stored hset prevout
    have hpart : PartOf mid coins := fun o => (hread o).elim (fun heq => heq ▸ hset o) .inr
    obtain ⟨set', hset', hinputs, hkeep⟩ := ih hpart
    refine ⟨set', ?_, ?_, fun o ho => hkeep o ((hread o).elim (fun heq => heq.trans ho) id)⟩
    · rw [readInputs, List.foldlM_cons, hmid]
      exact hset'
    · rw [List.forall_mem_cons]
      exact ⟨hkeep prevout hprevout, hinputs⟩

theorem partOf_empty (coins : OutPoint → Option U) : PartOf ∅ coins :=
  fun o => .inl (lookup_empty o)

end Inputs

variable {table table' : ByteTree}

section Table

variable {codec : ValueCodec U}

theorem getUtxo_addUtxo {outpoint : OutPoint} {utxo : U}
    (h : addUtxo codec table outpoint utxo = some table') :
    getUtxo codec table' = update (getUtxo codec table) outpoint (some (some utxo)) := by
  rw [addUtxo, map_eq_some_iff] at h
  obtain ⟨row, hrow, rfl⟩ := h
  funext other
  by_cases heq : other = outpoint
  · rw [heq, update_self, getUtxo, update_self]
    exact congrArg some (codec.decode_encode hrow)
  · rw [update_of_ne heq, getUtxo, update_of_ne (fun hkey => heq (outpointToKey_injective hkey)),
      update_of_ne (outpointToKey_ne_legacyOutpointKey outpoint other).symm, getUtxo]

theorem getUtxo_removeUtxo (table : ByteTree) (outpoint : OutPoint) :
    getUtxo codec (removeUtxo table outpoint) = update (getUtxo codec table) outpoint none := by
  funext other
  have hkey : removeUtxo table outpoint (outpointToKey other) =
      update table (outpointToKey outpoint) none (outpointToKey other) :=
    update_of_ne (outpointToKey_ne_legacyOutpointKey other outpoint) _ _
  by_cases heq : other = outpoint
  · subst heq
    rw [update_self, getUtxo, hkey, update_self, removeUtxo, update_self, map_none]
  · rw [update_of_ne heq, getUtxo, hkey,
      update_of_ne (fun hsame => heq (outpointToKey_injective hsame)), removeUtxo,
      update_of_ne (fun hsame => heq (legacyOutpointKey_injective hsame)),
      update_of_ne (outpointToKey_ne_legacyOutpointKey outpoint other).symm, getUtxo]

theorem connectTableEntry_getUtxo (codec : ValueCodec U) (table : ByteTree) (entry : UndoEntry U) :
    (connectTableEntry codec table entry).map (getUtxo codec) =
      writeCoin codec (getUtxo codec table) entry := by
  have hremove : getUtxo codec (if entry.previousUtxo.isSome then removeUtxo table entry.outpoint
        else table) =
      if entry.previousUtxo.isSome then update (getUtxo codec table) entry.outpoint none
      else getUtxo codec table := by
    split_ifs
    · exact getUtxo_removeUtxo table entry.outpoint
    · rfl
  simp only [connectTableEntry, writeCoin]
  rw [← hremove]
  generalize (if entry.previousUtxo.isSome then removeUtxo table entry.outpoint else table) = mid
  cases entry.newUtxo with
  | none => rfl
  | some created =>
    cases hrow : codec.encode created with
    | none => simp only [addUtxo, hrow, map_none]
    | some row =>
      have hadd : addUtxo codec mid entry.outpoint created =
          some (update mid (outpointToKey entry.outpoint) (some row)) := by
        rw [addUtxo, hrow, map_some]
      simp only [hadd, hrow, map_some, getUtxo_addUtxo hadd]

variable {entries : List (Sigma fun _ : OutPoint => U)}

theorem foldlM_addUtxo_getUtxo (hnodup : entries.NodupKeys)
    (h : entries.foldlM (fun table coin => addUtxo codec table coin.1 coin.2) table = some table')
    (outpoint : OutPoint) :
    getUtxo codec table' outpoint =
      ((entries.dlookup outpoint).map some).or (getUtxo codec table outpoint) := by
  induction entries generalizing table with
  | nil =>
    cases h
    rw [List.dlookup_nil, map_none, none_or]
  | cons coin entries ih =>
    rw [List.foldlM_cons, bind_eq_bind, bind_eq_some_iff] at h
    rw [List.nodupKeys_cons] at hnodup
    obtain ⟨mid, hmid, hrest⟩ := h
    rw [ih hnodup.2 hrest, getUtxo_addUtxo hmid]
    by_cases heq : outpoint = coin.1
    · have habsent : entries.dlookup outpoint = none := by
        rw [List.dlookup_eq_none, heq]
        exact hnodup.1
      rw [habsent, heq, update_self, List.dlookup_cons_eq]
      rfl
    · rw [update_of_ne heq, List.dlookup_cons_ne _ _ heq]

theorem getUtxo_storeUtxoSet (h : storeUtxoSet codec set = some table) :
    getUtxo codec table = stored (fun o => set.lookup o) := by
  funext outpoint
  rw [foldlM_addUtxo_getUtxo set.nodupKeys h outpoint]
  exact or_none

theorem exists_foldlM_addUtxo
    (h : ∀ coin ∈ entries, ∃ row, codec.encode coin.2 = some row) (table : ByteTree) :
    ∃ table', entries.foldlM (fun table coin => addUtxo codec table coin.1 coin.2) table =
      some table' := by
  induction entries generalizing table with
  | nil => exact ⟨table, rfl⟩
  | cons coin entries ih =>
    rw [List.forall_mem_cons] at h
    obtain ⟨row, hrow⟩ := h.1
    rw [List.foldlM_cons, addUtxo, hrow]
    exact ih h.2 _

end Table

section Branches

variable {isCoinbase : Transaction → Bool} {codec : ValueCodec U}
  {transactions : List Transaction} {connect : ConnectBlock U}
  {effects : List (OutPoint × Option U)} {coins : UtxoSet U} {view : OutPoint → Option U}

theorem deltaEffects_single (undo : BlockUndoLog U) :
    deltaEffects [] [undo] = undo.entries.reverse := by
  rw [deltaEffects, List.flatMap_nil, List.nil_append, List.flatMap_singleton]

structure Connectable (isCoinbase : Transaction → Bool) (codec : ValueCodec U)
    (transactions : List Transaction) (connect : ConnectBlock U)
    (effects : List (OutPoint × Option U)) (coins : UtxoSet U) : Prop where
  valid : ∀ set : UtxoSet U,
    (∀ o ∈ blockInputs isCoinbase transactions, set.lookup o = coins.lookup o) →
    ∃ connected undo, connect set = some (connected, undo)
  createdEncode : ∀ o utxo, (o, some utxo) ∈ effects → ∃ row, codec.encode utxo = some row
  coinsEncode : ∀ o utxo, coins.lookup o = some utxo → ∃ row, codec.encode utxo = some row

section

variable (hrecords : RecordsBlock connect effects) {undo : BlockUndoLog U} {connected : UtxoSet U}
include hrecords

theorem writeCoin_undo
    (hspend : ∀ o, (o, none) ∈ effects → o ∈ blockInputs isCoinbase transactions)
    (hset : ∀ o ∈ blockInputs isCoinbase transactions, set.lookup o = view o)
    (hconnect : connect set = some (connected, undo)) {coins' : OutPoint → Option (Option U)}
    (h : undo.entries.reverse.foldlM (writeCoin codec) (stored view) = some coins') :
    coins' = stored (applyRows view effects) := by
  obtain ⟨heffects, hrecord, -⟩ := hrecords set connected undo hconnect
  rw [← heffects]
  refine foldlM_writeCoin_stored hset hrecord ?_ h
  intro entry hentry hnew
  apply hspend
  rw [← hnew, ← heffects]
  exact List.mem_map_of_mem hentry

theorem exists_writeCoin_undo
    (hencode : ∀ o utxo, (o, some utxo) ∈ effects → ∃ row, codec.encode utxo = some row)
    (hconnect : connect set = some (connected, undo)) (start : OutPoint → Option (Option U)) :
    ∃ coins', undo.entries.reverse.foldlM (writeCoin codec) start = some coins' := by
  apply ne_none_iff_exists'.mp
  rw [Ne, foldlM_writeCoin_eq_none]
  rintro ⟨entry, hentry, utxo, hnew, hnone⟩
  have hmem : entry.effect ∈ effects :=
    (hrecords set connected undo hconnect).1 ▸ List.mem_map_of_mem hentry
  rw [UndoEntry.effect, hnew] at hmem
  obtain ⟨row, hrow⟩ := hencode _ utxo hmem
  rw [hrow] at hnone
  simp at hnone

theorem coinsOf_connectSnapshot {hash : MuHash U M G} {tree tree' : ByteTree}
    (hspend : ∀ o, (o, none) ∈ effects → o ∈ blockInputs isCoinbase transactions)
    (htree : coinsOf codec (coinRows tree) = stored view) {height : BitVec 64}
    {blockHash : Hash} {muhash : Option M}
    (h : connectSnapshot isCoinbase hash codec tree transactions connect height blockHash muhash =
      some tree') :
    coinsOf codec (coinRows tree') = stored (applyRows view effects) := by
  obtain ⟨set, hset, hinputs, -⟩ := readInputs_stored (blockInputs isCoinbase transactions)
    (partOf_empty view)
  simp only [connectSnapshot, readSnapshotInputs, List.flatMap_singleton, htree, hset, bind_eq_bind,
    bind_some, bind_eq_some_iff, some.injEq] at h
  obtain ⟨⟨connected, undo⟩, hconnect, done, hdone, rfl⟩ := h
  have hcoins : coinRows (update (update done.tree snapshotReorgJournalKey none)
      snapshotMuhashKey none) = coinRows done.tree := by
    funext o
    rw [coinRows, update_of_ne (outpointToKey_ne_muhashKey o),
      update_of_ne (outpointToKey_ne_journalKey o), coinRows]
  have hrun := coinsOf_commit hdone
  rw [htree, deltaEffects_single] at hrun
  rw [hcoins]
  exact writeCoin_undo hrecords hspend hinputs hconnect hrun

theorem getUtxo_connectTable
    (hspend : ∀ o, (o, none) ∈ effects → o ∈ blockInputs isCoinbase transactions)
    (htable : getUtxo codec table = stored view)
    (h : connectTable isCoinbase codec table transactions connect = some table') :
    getUtxo codec table' = stored (applyRows view effects) := by
  obtain ⟨set, hset, hinputs, -⟩ := readInputs_stored (blockInputs isCoinbase transactions)
    (partOf_empty view)
  simp only [connectTable, readTableInputs, htable, hset, bind_eq_bind,
    bind_some, bind_eq_some_iff] at h
  obtain ⟨⟨connected, undo⟩, hconnect, hundo⟩ := h
  have hrun := foldlM_map (connectTableEntry_getUtxo codec) table undo.entries.reverse
  rw [applyConnectUndoToChainstate] at hundo
  rw [hundo, map_some, htable, eq_comm] at hrun
  exact writeCoin_undo hrecords hspend hinputs hconnect hrun

theorem getUtxo_connectMemory (h : connectMemory codec coins connect = some table') :
    getUtxo codec table' = stored (applyRows (fun o => coins.lookup o) effects) := by
  simp only [connectMemory, bind_eq_bind, bind_eq_some_iff] at h
  obtain ⟨⟨connected, undo⟩, hconnect, hstore⟩ := h
  rw [getUtxo_storeUtxoSet hstore, (hrecords coins connected undo hconnect).2.2]

variable (hblock : Connectable isCoinbase codec transactions connect effects coins)
include hblock

theorem exists_connectSnapshot (hash : MuHash U M G) {tree : ByteTree}
    (htree : coinsOf codec (coinRows tree) = stored (fun o => coins.lookup o))
    (height : BitVec 64) (blockHash : Hash) (muhash : Option M) :
    ∃ tree', connectSnapshot isCoinbase hash codec tree transactions connect height blockHash
      muhash = some tree' := by
  obtain ⟨set, hset, hinputs, -⟩ := readInputs_stored (blockInputs isCoinbase transactions)
    (partOf_empty (fun o => coins.lookup o))
  obtain ⟨connected, undo, hconnect⟩ := hblock.valid set hinputs
  obtain ⟨coins', hrun⟩ := exists_writeCoin_undo hrecords hblock.createdEncode hconnect
    (coinsOf codec (coinRows tree))
  rw [← foldlM_writeRow_coinsOf, ← deltaEffects_single, map_eq_some_iff] at hrun
  obtain ⟨rows, hrows, -⟩ := hrun
  have hdecode : ∀ outpoint row, coinRows tree outpoint = some row →
      ∃ utxo, codec.decode row = some utxo := by
    intro outpoint row hrow
    have hcoin := congrFun htree outpoint
    rw [coinsOf, hrow, map_some, stored, eq_comm, map_eq_some_iff] at hcoin
    obtain ⟨utxo, -, hutxo⟩ := hcoin
    exact ⟨utxo, hutxo.symm⟩
  obtain ⟨done, hdone, -⟩ := commit_of_decodable hash
    (fun _ hnet => decodable_of_rows hdecode hnet) hrows (some (height, blockHash)) muhash
  exact ⟨_, by simp only [connectSnapshot, readSnapshotInputs, List.flatMap_singleton, htree, hset,
    hconnect, hdone, bind_eq_bind, bind_some]; rfl⟩

theorem exists_connectTable (htable : getUtxo codec table = stored (fun o => coins.lookup o)) :
    ∃ table', connectTable isCoinbase codec table transactions connect = some table' := by
  obtain ⟨set, hset, hinputs, -⟩ := readInputs_stored (blockInputs isCoinbase transactions)
    (partOf_empty (fun o => coins.lookup o))
  obtain ⟨connected, undo, hconnect⟩ := hblock.valid set hinputs
  obtain ⟨coins', hrun⟩ := exists_writeCoin_undo hrecords hblock.createdEncode hconnect
    (getUtxo codec table)
  rw [← foldlM_map (connectTableEntry_getUtxo codec), map_eq_some_iff] at hrun
  obtain ⟨table', htable', -⟩ := hrun
  refine ⟨table', ?_⟩
  simp only [connectTable, readTableInputs, htable, hset, hconnect, bind_eq_bind, bind_some]
  exact htable'

theorem exists_connectMemory : ∃ table', connectMemory codec coins connect = some table' := by
  obtain ⟨connected, undo, hconnect⟩ := hblock.valid coins (fun _ _ => rfl)
  have hencode : ∀ coin ∈ connected.entries, ∃ row, codec.encode coin.2 = some row := by
    intro coin hcoin
    have hlookup : connected.lookup coin.1 = some coin.2 :=
      mem_lookup_iff.mpr hcoin
    have hafter := congrFun (hrecords coins connected undo hconnect).2.2 coin.1
    simp only [hlookup] at hafter
    rcases mem_of_applyRows hafter.symm with hold | hcreated
    · exact hblock.coinsEncode coin.1 coin.2 hold
    · exact hblock.createdEncode coin.1 coin.2 hcreated
  obtain ⟨table', htable'⟩ := exists_foldlM_addUtxo hencode (fun _ => none)
  refine ⟨table', ?_⟩
  simp only [connectMemory, hconnect, bind_eq_bind, bind_some]
  exact htable'

end

/-- From the same coins every branch persists what the block's effects leave, and a valid block
whose coins encode is connected by all three. -/
theorem connect_branches_agree (isCoinbase : Transaction → Bool) (hash : MuHash U M G)
    (codec : ValueCodec U) (transactions : List Transaction) (connect : ConnectBlock U)
    (effects : List (OutPoint × Option U)) (hrecords : RecordsBlock connect effects)
    (hspend : ∀ o, (o, none) ∈ effects → o ∈ blockInputs isCoinbase transactions)
    (coins : UtxoSet U) (tree table : ByteTree)
    (htree : coinsOf codec (coinRows tree) = stored (fun o => coins.lookup o))
    (htable : getUtxo codec table = stored (fun o => coins.lookup o))
    (height : BitVec 64) (blockHash : Hash) (muhash : Option M) :
    (∀ tree', connectSnapshot isCoinbase hash codec tree transactions connect height blockHash
        muhash = some tree' →
      coinsOf codec (coinRows tree') = stored (applyRows (fun o => coins.lookup o) effects)) ∧
    (∀ table', connectTable isCoinbase codec table transactions connect = some table' →
      getUtxo codec table' = stored (applyRows (fun o => coins.lookup o) effects)) ∧
    (∀ table', connectMemory codec coins connect = some table' →
      getUtxo codec table' = stored (applyRows (fun o => coins.lookup o) effects)) ∧
    (Connectable isCoinbase codec transactions connect effects coins →
      (∃ tree', connectSnapshot isCoinbase hash codec tree transactions connect height blockHash
          muhash = some tree') ∧
      (∃ table', connectTable isCoinbase codec table transactions connect = some table') ∧
      ∃ table', connectMemory codec coins connect = some table') := by
  refine ⟨?_, ?_, ?_, ?_⟩
  · intro tree' h
    exact coinsOf_connectSnapshot hrecords hspend htree h
  · intro table' h
    exact getUtxo_connectTable hrecords hspend htable h
  · intro table' h
    exact getUtxo_connectMemory hrecords h
  · intro hblock
    exact ⟨exists_connectSnapshot hrecords hblock hash htree height blockHash muhash,
      exists_connectTable hrecords hblock htable, exists_connectMemory hrecords hblock⟩

end Branches

section Recording

theorem lookup_erase_eq_update (set : UtxoSet U) (outpoint : OutPoint) :
    (fun o => (set.erase outpoint).lookup o) = update (fun o => set.lookup o) outpoint none := by
  funext o
  by_cases h : o = outpoint
  · rw [h, update_self, lookup_erase]
  · rw [update_of_ne h, lookup_erase_ne h]

def recordEffects : List (OutPoint × Option U) → UtxoSet U → UtxoSet U × List (UndoEntry U)
  | [], set => (set, [])
  | (outpoint, new) :: effects, set =>
    let res := recordEffects effects (match new with
      | some utxo => set.insert outpoint utxo
      | none => set.erase outpoint)
    (res.1, ⟨outpoint, set.lookup outpoint, new⟩ :: res.2)

variable (effects : List (OutPoint × Option U))

theorem recordEffects_spec (set : UtxoSet U) :
    (recordEffects effects set).2.map UndoEntry.effect = effects ∧
      Records (fun o => set.lookup o) (recordEffects effects set).2 ∧
      (fun o => (recordEffects effects set).1.lookup o) =
        applyRows (fun o => set.lookup o) effects := by
  induction effects generalizing set with
  | nil => exact ⟨rfl, trivial, rfl⟩
  | cons effect effects ih =>
    obtain ⟨outpoint, new⟩ := effect
    cases new with
    | none =>
      obtain ⟨hmap, hrecords, hlookup⟩ := ih (set.erase outpoint)
      rw [lookup_erase_eq_update] at hrecords hlookup
      exact ⟨congrArg _ hmap, ⟨rfl, hrecords⟩, hlookup⟩
    | some utxo =>
      obtain ⟨hmap, hrecords, hlookup⟩ := ih (set.insert outpoint utxo)
      rw [lookup_insert_eq_update] at hrecords hlookup
      exact ⟨congrArg _ hmap, ⟨rfl, hrecords⟩, hlookup⟩

def connectEffects (effects : List (OutPoint × Option U)) : ConnectBlock U := fun set =>
  some ((recordEffects effects set).1, ⟨(recordEffects effects set).2.reverse⟩)

theorem recordsBlock_connectEffects : RecordsBlock (connectEffects effects) effects := by
  intro set connected undo h
  rw [connectEffects, some.injEq, Prod.mk.injEq] at h
  obtain ⟨rfl, rfl⟩ := h
  rw [List.reverse_reverse]
  exact recordEffects_spec effects set

def chainEffects : List (OutPoint × Option (BitVec 8)) :=
  [(⟨1, 0⟩, none), (⟨2, 0⟩, some 5), (⟨2, 0⟩, none), (⟨3, 0⟩, some 6)]

def chainTransactions : List Transaction := [⟨[⟨1, 0⟩], []⟩, ⟨[⟨2, 0⟩], []⟩]

def twoCoins : UtxoSet (BitVec 8) :=
  ((∅ : UtxoSet (BitVec 8)).insert ⟨1, 0⟩ 4).insert ⟨3, 0⟩ 9

def twoCoinTree : ByteTree := Function.update oneCoinTree (outpointToKey ⟨3, 0⟩) (some [9])

theorem lookup_twoCoins : (fun o => twoCoins.lookup o) =
    update (update (fun _ => none) ⟨1, 0⟩ (some 4)) ⟨3, 0⟩ (some 9) := by
  rw [twoCoins, lookup_insert_eq_update, lookup_insert_eq_update]
  rfl

theorem coinsOf_twoCoinTree :
    coinsOf byteCodec (coinRows twoCoinTree) = stored (fun o => twoCoins.lookup o) := by
  rw [lookup_twoCoins, stored_update, stored_update, twoCoinTree, coinRows_update_key,
    coinRows_oneCoinTree, coinsOf_update, coinsOf_update]
  rfl

theorem getUtxo_twoCoinTree :
    getUtxo byteCodec twoCoinTree = stored (fun o => twoCoins.lookup o) := by
  have hone : addUtxo byteCodec (fun _ => none) ⟨1, 0⟩ 4 = some oneCoinTree := rfl
  have htwo : addUtxo byteCodec oneCoinTree ⟨3, 0⟩ 9 = some twoCoinTree := rfl
  rw [getUtxo_addUtxo htwo, getUtxo_addUtxo hone, lookup_twoCoins, stored_update, stored_update]
  rfl

theorem connect_branches_agree_chainEffects :
    (∃ tree', connectSnapshot (fun _ => false) checksumHash byteCodec twoCoinTree
        chainTransactions (connectEffects chainEffects) 7 9 none = some tree' ∧
      coinsOf byteCodec (coinRows tree') =
        stored (applyRows (fun o => twoCoins.lookup o) chainEffects)) ∧
    (∃ table', connectTable (fun _ => false) byteCodec twoCoinTree chainTransactions
        (connectEffects chainEffects) = some table' ∧
      getUtxo byteCodec table' = stored (applyRows (fun o => twoCoins.lookup o) chainEffects)) ∧
    ∃ table', connectMemory byteCodec twoCoins (connectEffects chainEffects) = some table' ∧
      getUtxo byteCodec table' = stored (applyRows (fun o => twoCoins.lookup o) chainEffects) := by
  have hspend : ∀ o, (o, none) ∈ chainEffects →
      o ∈ blockInputs (fun _ => false) chainTransactions := by
    intro o ho
    simpa [chainEffects, blockInputs, chainTransactions] using ho
  obtain ⟨hsnapshot, htable, hmemory, hall⟩ := connect_branches_agree (fun _ => false)
    checksumHash byteCodec chainTransactions (connectEffects chainEffects) chainEffects
    (recordsBlock_connectEffects chainEffects) hspend twoCoins twoCoinTree twoCoinTree
    coinsOf_twoCoinTree getUtxo_twoCoinTree 7 9 none
  obtain ⟨⟨tree', htree'⟩, ⟨table', htable'⟩, ⟨memory', hmemory'⟩⟩ :=
    hall ⟨fun _ _ => ⟨_, _, rfl⟩, fun _ utxo _ => ⟨[utxo], rfl⟩, fun _ utxo _ => ⟨[utxo], rfl⟩⟩
  exact ⟨⟨tree', htree', hsnapshot tree' htree'⟩, ⟨table', htable', htable table' htable'⟩,
    ⟨memory', hmemory', hmemory memory' hmemory'⟩⟩

end Recording

end BlvmNode
