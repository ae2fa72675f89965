import BlvmNode.Lookup
import BlvmNode.RunMerge
import BlvmNode.Lib.PageSearch

/-!
# The disk index

Segments stand from the oldest to the newest; runs whose file is still being written wait in
`pendingSpills` and are newer than every segment. Reopening the directory puts the segments in the
order of their file names.
-/

namespace BlvmNode

open KeyedRuns Timeline PrefixDirectory List

/-- How lookups read a segment: from the body kept in memory, or from the file. In a file the span
of a probed key is narrowed page by page first. Which keys are probed depends on the read settings
and on what else a batch asks of the segment, and is left open. -/
structure SegmentReads where
  hot : Bool
  probed : OutputKey → Bool

structure DiskSegment where
  idx : ℕ
  entries : List OutputKV
  reads : SegmentReads
  sorted : Sorted entries

/-- Entries of 56 bytes on a page of 4096. -/
def probePageEntries : ℕ := 4096 / 56

namespace DiskSegment

def hot (seg : DiskSegment) : Bool := seg.reads.hot

def body (seg : DiskSegment) : MemoryRun := ⟨seg.entries, false, seg.sorted⟩

def probes (seg : DiskSegment) (key : OutputKey) : Bool := !seg.hot && seg.reads.probed key

def probeNarrow (seg : DiskSegment) (key : OutputKey) : ℕ × ℕ :=
  let range := (Directory.build none seg.entries).lookupRange key
  PageSearch.narrow (fun e : OutputKV => e.key.toNat) key.toNat probePageEntries seg.entries
    range.1 range.2

def probedSlice (seg : DiskSegment) (key : OutputKey) : List OutputKV :=
  if (BloomFilter.build seg.entries).mayContain key = false then []
  else slice (seg.probeNarrow key).1 (seg.probeNarrow key).2 seg.entries

def lookupKey (seg : DiskSegment) (key : OutputKey) (since before : ℤ) : Option OutputId :=
  if seg.probes key then
    if seg.body.heightRange.2 < since ∨ before ≤ seg.body.heightRange.1 then none
    else searchSlice key since before (seg.probedSlice key)
  else seg.body.lookupKey key since before

def FitsPage (seg : DiskSegment) : Prop :=
  ∀ key, seg.probes key → (entriesOf key seg.entries).length ≤ probePageEntries

variable {seg : DiskSegment} {key : OutputKey}

theorem entriesOf_eq_filter (key : OutputKey) (l : List OutputKV) :
    entriesOf key l = l.filter (fun e => decide (e.key.toNat = key.toNat)) := by
  refine filter_congr (fun e _ => ?_)
  exact decide_eq_decide.mpr ⟨congrArg OutputKey.toNat, OutputKey.toNat_injective⟩

theorem entriesOf_probedSlice (hfit : (entriesOf key seg.entries).length ≤ probePageEntries) :
    Sorted (seg.probedSlice key) ∧
      entriesOf key (seg.probedSlice key) = entriesOf key seg.entries := by
  unfold probedSlice
  split_ifs with hf
  · refine ⟨Pairwise.nil, (MemoryRun.entriesOf_of_filtered ?_ hf).symm⟩
    exact fun _ he => BloomFilter.mayContain_build he
  · have hkeys := seg.sorted.imp (fun h => OutputKV.le_key h)
    obtain ⟨bits, hrange⟩ := Directory.lookupRange_build none seg.sorted key
    refine ⟨seg.sorted.sublist ((drop_sublist _ _).trans (take_sublist _ _)), ?_⟩
    rw [entriesOf_eq_filter] at hfit ⊢
    rw [entriesOf_eq_filter, probeNarrow, hrange]
    -- an entry with a smaller prefix has a smaller key
    refine PageSearch.filter_narrow hkeys ?_ ?_ hfit
    · refine countP_mono_left (fun e _ he => ?_)
      rw [decide_eq_true_eq] at he ⊢
      exact lt_of_not_ge (fun hle => (keyPrefix_mono bits hle).not_gt he)
    · refine countP_mono_left (fun e _ he => ?_)
      rw [decide_eq_true_eq, Nat.lt_succ_iff] at he ⊢
      exact keyPrefix_mono bits he

theorem lookupKey_eq (h : seg.FitsPage) (key : OutputKey) (since before : ℤ) :
    seg.lookupKey key since before = scanKey key since before (entriesOf key seg.entries) := by
  unfold lookupKey
  split_ifs with hp hr
  · exact (if_pos hr).symm.trans (seg.body.searchSlice_of_entriesOf since before
      (entriesOf_probedSlice (h key hp)))
  · exact (if_neg hr).symm.trans (seg.body.searchSlice_of_entriesOf since before
      (entriesOf_probedSlice (h key hp)))
  · exact seg.body.lookupKey_eq key since before

end DiskSegment

structure DiskIndex where
  segments : List DiskSegment
  pendingSpills : List MemoryRun
  nextIdx : ℕ
  asyncSpillBusy : Bool

/-- Settings of a spill: the segment limit (`0` for none), background writing, and how the segments
are read. -/
structure SpillConfig where
  spillMaxEntries : ℕ
  asyncDiskSpill : Bool
  reads : SegmentReads

namespace DiskIndex

def empty : DiskIndex := ⟨[], [], 0, false⟩

def pushSegment (disk : DiskIndex) (run : MemoryRun) (reads : SegmentReads) :
    DiskIndex :=
  { disk with
    segments := disk.segments ++ [⟨disk.nextIdx, run.entries, reads, run.sorted⟩]
    nextIdx := disk.nextIdx + 1 }

def pushRunNoCompactSync (disk : DiskIndex) (cfg : SpillConfig) (run : MemoryRun) : DiskIndex :=
  disk.pushSegment run cfg.reads

def pushChunks (cfg : SpillConfig) : ℕ → MemoryRun → DiskIndex → DiskIndex
  | 0, _, disk => disk
  | fuel + 1, run, disk =>
    if run.entries.isEmpty then disk
    else
      let chunk : MemoryRun :=
        ⟨run.entries.take cfg.spillMaxEntries, false, run.sorted.take⟩
      let rest : MemoryRun :=
        ⟨run.entries.drop cfg.spillMaxEntries, false, run.sorted.drop⟩
      pushChunks cfg fuel rest (disk.pushSegment chunk cfg.reads)

def pushRunNoCompactSplit (disk : DiskIndex) (cfg : SpillConfig) (run : MemoryRun) : DiskIndex :=
  pushChunks cfg run.len run disk

def pushRunNoCompactAsync (disk : DiskIndex) (run : MemoryRun) : DiskIndex :=
  { disk with pendingSpills := disk.pendingSpills ++ [run], asyncSpillBusy := true }

def pushRunNoCompact (disk : DiskIndex) (cfg : SpillConfig) (run : MemoryRun) : DiskIndex :=
  if 0 < cfg.spillMaxEntries ∧ cfg.spillMaxEntries < run.len then
    disk.pushRunNoCompactSplit cfg run
  else if cfg.asyncDiskSpill ∧ disk.asyncSpillBusy = false then disk.pushRunNoCompactAsync run
  else disk.pushRunNoCompactSync cfg run

/-- The background writer publishes its segment, numbered when it started, and drops the waiting
run. -/
def finishAsyncSpill (disk : DiskIndex) (idx : ℕ) (reads : SegmentReads) : DiskIndex :=
  match disk.pendingSpills with
  | [] => disk
  | run :: rest =>
    { disk with
      segments := disk.segments ++ [⟨idx, run.entries, reads, run.sorted⟩]
      pendingSpills := rest
      asyncSpillBusy := false }

def chain (disk : DiskIndex) : List (List OutputKV) :=
  disk.pendingSpills.reverse.map MemoryRun.entries ++
    disk.segments.reverse.map DiskSegment.entries

def lookups (disk : DiskIndex) (before : ℤ) : List (OutputKey → Option OutputId) :=
  disk.pendingSpills.reverse.map (fun run key => run.lookupKey key 0 before) ++
    disk.segments.reverse.map (fun seg key => seg.lookupKey key 0 before)

def normalizeDeleted (slots : List Slot) : List Slot :=
  slots.map (fun s => if s.2 = outputIdDeleted then (s.1, outputIdMax) else s)

def batchQuery (disk : DiskIndex) (slots : List Slot) (before : ℤ) : List Slot :=
  normalizeDeleted
    (if unresolved slots then batchRuns (disk.lookups before) slots else slots)

theorem batchQuery_eq (disk : DiskIndex) (slots : List Slot) (before : ℤ) :
    disk.batchQuery slots before =
      normalizeDeleted (slots.map (resolveSlot (disk.lookups before))) := by
  rw [batchQuery, ← batchRuns_eq_map]
  cases h : unresolved slots with
  | true => rfl
  | false => rw [batchRuns_of_resolved h]; rfl

def FitsPages (disk : DiskIndex) : Prop := ∀ seg ∈ disk.segments, seg.FitsPage

theorem fitsPages_of_timeline {disk : DiskIndex}
    (h : ∀ k, (timeline k disk.chain).length ≤ probePageEntries) : disk.FitsPages := by
  intro seg hseg k _
  have hmem : seg.entries ∈ disk.chain :=
    mem_append_right _ (mem_map_of_mem (mem_reverse.mpr hseg))
  have hsub : (entriesOf k seg.entries).Sublist (timeline k disk.chain) :=
    sublist_flatten_of_mem (mem_map_of_mem hmem)
  exact hsub.length_le.trans (h k)

theorem lookups_eq_scans {disk : DiskIndex} (h : disk.FitsPages) (before : ℤ) :
    disk.lookups before = scans before disk.chain := by
  simp only [lookups, chain, scans, map_append, map_map]
  congr 1
  · refine map_congr_left fun run _ => funext fun key => ?_
    exact run.lookupKey_eq key 0 before
  · refine map_congr_left fun seg hseg => funext fun key => ?_
    exact DiskSegment.lookupKey_eq (h seg (mem_reverse.mp hseg)) key 0 before

def PendingBounded (disk : DiskIndex) : Prop :=
  disk.pendingSpills.length ≤ if disk.asyncSpillBusy then 1 else 0

variable {disk : DiskIndex} {cfg : SpillConfig} {run : MemoryRun}

theorem PendingBounded.eq_nil (h : disk.PendingBounded)
    (hb : disk.asyncSpillBusy = false) : disk.pendingSpills = [] := by
  simpa [PendingBounded, hb] using h

theorem pushRunNoCompact_chain
    (hp : disk.PendingBounded) (hs : cfg.spillMaxEntries = 0 ∨ run.len ≤ cfg.spillMaxEntries) :
    (disk.pushRunNoCompact cfg run).chain = disk.pendingSpills.reverse.map MemoryRun.entries ++
        run.entries :: disk.segments.reverse.map DiskSegment.entries := by
  unfold pushRunNoCompact
  rw [if_neg (by omega)]
  split_ifs with ha
  · simp [pushRunNoCompactAsync, chain, hp.eq_nil ha.2]
  · simp [pushRunNoCompactSync, pushSegment, chain]

theorem pushChunks_pending (cfg : SpillConfig) (fuel : ℕ) (run : MemoryRun) (disk : DiskIndex) :
    (pushChunks cfg fuel run disk).pendingSpills = disk.pendingSpills ∧
      (pushChunks cfg fuel run disk).asyncSpillBusy = disk.asyncSpillBusy := by
  induction fuel generalizing run disk with
  | zero => exact ⟨rfl, rfl⟩
  | succ fuel ih =>
    simp only [pushChunks]
    split_ifs
    · exact ⟨rfl, rfl⟩
    · exact ih _ _

theorem pushRunNoCompact_pending (hp : disk.PendingBounded) (cfg : SpillConfig)
    (run : MemoryRun) : (disk.pushRunNoCompact cfg run).PendingBounded := by
  unfold pushRunNoCompact
  split_ifs with hcut ha
  · obtain ⟨hpending, hbusy⟩ := pushChunks_pending cfg run.len run disk
    unfold PendingBounded pushRunNoCompactSplit
    rw [hpending, hbusy]
    exact hp
  · simp [pushRunNoCompactAsync, PendingBounded, hp.eq_nil ha.2]
  · exact hp

theorem pushSegment_contents (disk : DiskIndex) (run : MemoryRun) (reads : SegmentReads) :
    (disk.pushSegment run reads).chain.flatten.Perm (run.entries ++ disk.chain.flatten) := by
  simp only [pushSegment, chain, reverse_append, reverse_singleton, singleton_append,
    map_cons, flatten_append, flatten_cons]
  exact perm_append_comm_assoc _ _ _

theorem pushChunks_contents (hcfg : 0 < cfg.spillMaxEntries) {fuel : ℕ}
    (hf : run.len ≤ fuel) (disk : DiskIndex) :
    (pushChunks cfg fuel run disk).chain.flatten.Perm (run.entries ++ disk.chain.flatten) := by
  induction fuel generalizing run disk with
  | zero =>
    have hnil : run.entries = [] := length_eq_zero_iff.mp (Nat.le_zero.mp hf)
    rw [hnil]
    exact Perm.refl _
  | succ fuel ih =>
    simp only [pushChunks]
    split_ifs with hempty
    · rw [isEmpty_iff.mp hempty]
      exact Perm.refl _
    · have hlen : 0 < run.entries.length := length_pos_iff.mpr (by simpa using hempty)
      have hfuel : run.entries.length - cfg.spillMaxEntries ≤ fuel := by
        rw [MemoryRun.len] at hf
        omega
      have hsplit : (run.entries.drop cfg.spillMaxEntries ++
          (run.entries.take cfg.spillMaxEntries ++ disk.chain.flatten)).Perm
            (run.entries ++ disk.chain.flatten) := by
        conv_rhs => rw [← take_append_drop cfg.spillMaxEntries run.entries]
        rw [append_assoc]
        exact perm_append_comm_assoc _ _ _
      refine Perm.trans ?_ hsplit
      refine Perm.trans (ih ?_ _) ((pushSegment_contents _ _ _).append_left _)
      simpa [MemoryRun.len] using hfuel

theorem pushRunNoCompact_contents (disk : DiskIndex) (cfg : SpillConfig) (run : MemoryRun) :
    (disk.pushRunNoCompact cfg run).chain.flatten.Perm (run.entries ++ disk.chain.flatten) := by
  unfold pushRunNoCompact
  split_ifs with hcut ha
  · exact pushChunks_contents hcut.1 le_rfl disk
  · simp [pushRunNoCompactAsync, chain]
  · exact pushSegment_contents _ _ _

theorem finishAsyncSpill_chain (disk : DiskIndex) (idx : ℕ) (reads : SegmentReads) :
    (disk.finishAsyncSpill idx reads).chain = disk.chain := by
  unfold finishAsyncSpill
  cases h : disk.pendingSpills with
  | nil => rfl
  | cons run rest => simp [chain, h]

theorem finishAsyncSpill_pending (hp : disk.PendingBounded) (idx : ℕ)
    (reads : SegmentReads) : (disk.finishAsyncSpill idx reads).PendingBounded := by
  unfold finishAsyncSpill
  cases h : disk.pendingSpills with
  | nil => exact hp
  | cons run rest =>
    unfold PendingBounded at hp ⊢
    rw [h, length_cons] at hp
    simp only [Bool.false_eq_true, if_false]
    split_ifs at hp <;> omega

end DiskIndex

end BlvmNode
