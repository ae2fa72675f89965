import BlvmNode.DiskCompaction
import BlvmNode.UtxoIndex
import BlvmNode.Lib.RowTable

/-!
# Checkpoint export

An export hands the unspent entries at a height to a writer: those of the disk from the tee of a
compaction, those of memory from a snapshot taken before it. The writer encodes every entry into a
row and into the running hash; at the end the keys the snapshot saw spent are deleted from the tree.
-/

namespace BlvmNode

open KeyedRuns Timeline KWayMerge RowTable

def checkpointAllcoldWriteOk (coldLen coldEntries fan max : ℕ) : Bool :=
  if coldLen ≤ fan then true
  else if max = 0 then decide (coldLen ≤ fan)
  else decide (coldEntries ≤ max * Nat.max fan 1)

namespace DiskIndex

def coldSegments (disk : DiskIndex) : List DiskSegment :=
  disk.segments.filter (fun s => !s.hot)

def fitsAllcold (cfg : CompactConfig) (disk : DiskIndex) : Bool :=
  !disk.segments.any DiskSegment.hot &&
    checkpointAllcoldWriteOk disk.coldSegments.length (inputCount disk.coldSegments) cfg.fanIn
      cfg.compactMax

def oversized (cfg : CompactConfig) (disk : DiskIndex) : ℕ :=
  disk.segments.countP (fun s => !s.hot && decide (cfg.compactMax < s.entries.length))

def doCompactStallPairPlain (cfg : CompactConfig) (unreadable : ℕ → Option ℕ)
    (disk : DiskIndex) : DiskIndex :=
  (disk.doCompact { cfg with checkpointHeight := -1 } .oldestAndNewest unreadable
    (fun (_ : Unit) _ => some ()) ()).disk

def drainStallPairs (cfg : CompactConfig) (unreadable : ℕ → Option ℕ) : ℕ → DiskIndex → DiskIndex
  | 0, disk => disk
  | fuel + 1, disk =>
    if disk.oversized cfg = 0 then disk
    else
      let disk' := disk.doCompactStallPairPlain cfg unreadable
      if disk.oversized cfg ≤ disk'.oversized cfg then disk'
      else drainStallPairs cfg unreadable fuel disk'

def drained (cfg : CompactConfig) (unreadable : ℕ → Option ℕ) (disk : DiskIndex) : DiskIndex :=
  if disk.fitsAllcold cfg ∧ 0 < cfg.compactMax then disk.drainStallPairs cfg unreadable 128
  else disk

def checkpointScope (cfg : CompactConfig) (disk : DiskIndex) : CompactScope :=
  if disk.fitsAllcold cfg then .allCold else .teeScan

def compactForCheckpointSyncWithSink {σ : Type} (cfg : CompactConfig)
    (unreadable : ℕ → Option ℕ) (sink : σ → OutputKV → Option σ) (s : σ) (disk : DiskIndex) :
    CompactOutcome σ :=
  let disk := disk.drained cfg unreadable
  if disk.segments.isEmpty then ⟨disk, [], [], some s⟩
  else disk.doCompact cfg (disk.checkpointScope cfg) unreadable sink s

end DiskIndex

namespace UtxoIndex

/-- The memory ages from the oldest on; runs that wait for their file are not among them. -/
def collectMemoryEntriesAtOrBelow (maxHeight : ℤ) (idx : UtxoIndex) : List OutputKV :=
  sortEntries (idx.ages.reverse.flatMap (fun age =>
    age.runs.flatMap (fun r => r.run.entries.filter (fun e => decide (e.height ≤ maxHeight)))))

end UtxoIndex

section Overlay

variable (ckpt : ℤ)

/-- The loop of `partition_memory_overlay`: the first entry of a key at or below the checkpoint
decides. -/
def overlayFrom : Option OutputKey → List OutputKV → List OutputKV × List OutputKey
  | _, [] => ([], [])
  | decided, e :: mem =>
    if ckpt < e.height then overlayFrom decided mem
    else if decided = some e.key then overlayFrom decided mem
    else
      let res := overlayFrom (some e.key) mem
      if e.isAdd ∧ e.id ≠ 0 then (e :: res.1, res.2)
      else if e.isDelete then (res.1, e.key :: res.2)
      else res

def partitionMemoryOverlay (mem : List OutputKV) : List OutputKV × List OutputKey :=
  overlayFrom ckpt none (sortEntries mem)

def absorbs (e : OutputKV) : Bool :=
  e.isAdd && decide (e.id ≠ 0) && decide (e.height ≤ ckpt)

def absorbLiveAdd (absorbed : List OutputKV) (e : OutputKV) : Option (List OutputKV) :=
  some (if absorbs ckpt e then absorbed ++ [e] else absorbed)

end Overlay

def exportChunkSize : ℕ := 500000

def e3cSortRamEntries : ℕ := 8000000

def overlayBatch : ℕ := 4096

/-- Export settings: fetch in table order, load by appending, and whether the tree supports it. -/
structure ExportConfig where
  globalOffsetSort : Bool
  appendLoad : Bool
  heedTree : Bool
  compact : CompactConfig

def IdCodec.offset (id : OutputId) : ℕ := (id >>> lenBits).toNat

def offsetLe (a b : OutputKV) : Prop := IdCodec.offset a.id ≤ IdCodec.offset b.id

instance : DecidableRel offsetLe := fun _ _ => inferInstanceAs (Decidable (_ ≤ _))

/-- `finish_global_offset_sort`: in one piece, or in sorted runs that are merged. -/
def offsetSorted (absorbed : List OutputKV) : List OutputKV :=
  if absorbed.length ≤ e3cSortRamEntries then absorbed.insertionSort offsetLe
  else kWayMerge offsetLe
    ((cutList e3cSortRamEntries absorbed.length absorbed).map (List.insertionSort offsetLe))

def exportChunks (cfg : ExportConfig) (absorbed : List OutputKV) : List (List OutputKV) :=
  let ordered := if cfg.globalOffsetSort then offsetSorted absorbed else absorbed
  cutList exportChunkSize ordered.length ordered

structure ExportResult (V G : Type) where
  tree : List (OutputKey × V)
  liveCount : ℕ
  muhash : G

section Writer

variable {U V G : Type} (utxo : OutputId → U) (row : U → V) (element : OutputKey → U → G)

def coin (e : OutputKV) : OutputKey × U := (e.key, utxo e.id)

def exportRow (e : OutputKV) : OutputKey × V := (e.key, row (utxo e.id))

def coinElement (e : OutputKV) : G := element e.key (utxo e.id)

def rowKeyLe (a b : OutputKey × V) : Prop := a.1.toNat ≤ b.1.toNat

instance : DecidableRel (rowKeyLe (V := V)) := fun _ _ => inferInstanceAs (Decidable (_ ≤ _))

def encodeChunk (chunk : List OutputKV) : List (OutputKey × V) :=
  (chunk.map (exportRow utxo row)).insertionSort rowKeyLe

/-- The tree and the live count once all chunks are written. Append loading merges the sorted
chunks; only the appending tree collapses equal keys and takes them off the count. -/
def loadRows (cfg : ExportConfig) (runs : List (List (OutputKey × V))) :
    List (OutputKey × V) × ℕ :=
  let encoded := (runs.map List.length).sum
  if cfg.appendLoad then
    let merged := kWayMerge rowKeyLe runs
    if cfg.heedTree then (putAll [] (collapse merged).1, encoded - (collapse merged).2)
    else (putAll [] merged, encoded)
  else (putAll [] runs.flatten, encoded)

def finishExport [CommGroup G] (cfg : ExportConfig) (absorbed : List OutputKV) :
    ExportResult V G :=
  let chunks := exportChunks cfg absorbed
  let loaded := loadRows cfg (chunks.map (encodeChunk utxo row))
  ⟨loaded.1, loaded.2, (chunks.flatten.map (coinElement utxo element)).prod⟩

end Writer

def deleteBatch {V G : Type} (r : ExportResult V G) (keys : List OutputKey) : ExportResult V G :=
  let toDel := keys.filter (fun k => decide (k ∈ r.tree.map Prod.fst))
  { r with
    tree := r.tree.filter (fun row => decide (row.1 ∉ toDel))
    liveCount := r.liveCount - toDel.length }

def applyMemoryOverlayDeletes {V G : Type} (deletes : List OutputKey) (r : ExportResult V G) :
    ExportResult V G :=
  (cutList overlayBatch deletes.length deletes).foldl deleteBatch r

/-- `run_checkpoint_export_piggyback`. `disk` is the index under the compaction's lock, maybe later
than the memory snapshot of `idx`; `none` is a failure. -/
def runCheckpointExportPiggyback {U V G : Type} [CommGroup G] (cfg : ExportConfig)
    (utxo : OutputId → U) (row : U → V) (element : OutputKey → U → G)
    (unreadable : ℕ → Option ℕ) (ckpt : ℤ) (idx : UtxoIndex) (disk : DiskIndex) :
    Option (ExportResult V G) :=
  let overlay := partitionMemoryOverlay ckpt (idx.collectMemoryEntriesAtOrBelow ckpt)
  let outcome := disk.compactForCheckpointSyncWithSink
    { cfg.compact with checkpointHeight := ckpt } unreadable (absorbLiveAdd ckpt) []
  let absorbed := outcome.sink.bind (fun tee => overlay.1.foldlM (absorbLiveAdd ckpt) tee)
  absorbed.map (fun all =>
    applyMemoryOverlayDeletes overlay.2 (finishExport utxo row element cfg all))

end BlvmNode
