import BlvmNode.DiskIndex
import BlvmNode.DiskMerge

/-!
# Compaction of disk segments

A compaction selects segments by its scope, streams their merge through the garbage collection
and the export tee into new segments, puts these where the first selected segment stood, and
deletes the files of the selected ones.
-/

namespace BlvmNode

open KeyedRuns Timeline KWayMerge List SegmentReader

inductive CompactScope where
  | fanIn
  | fanInYoung
  | allCold
  | oldestAndNewest
  | teeScan
  deriving DecidableEq

/-- Settings of a compaction; `compactMax = 0` is no limit, and a negative checkpoint height lets
every live Add through the tee. -/
structure CompactConfig where
  fanIn : ℕ
  compactMax : ℕ
  fence : ℤ
  checkpointHeight : ℤ
  probed : OutputKey → Bool

def stallPairIndices (entryCounts : List ℕ) (max : ℕ) : Option (ℕ × ℕ) :=
  let n := entryCounts.length
  let oversized := fun c => decide (0 < max ∧ max < c)
  if n < 2 then none
  else
    match entryCounts.findIdx? oversized with
    | none => some (0, n - 1)
    | some oi =>
      let lastOver := n - 1 - entryCounts.reverse.findIdx oversized
      if oi = lastOver then (if oi = 0 then some (0, n - 1) else some (0, oi))
      else some (oi, lastOver)

def coldPositions (segments : List DiskSegment) : List ℕ :=
  (segments.zipIdx.filter (fun p => !p.1.hot)).map Prod.snd

def selectPositions (cfg : CompactConfig) (segments : List DiskSegment) : CompactScope → List ℕ
  | .allCold => coldPositions segments
  | .teeScan => List.range segments.length
  | .fanIn =>
    let cold := coldPositions segments
    if cold.length < cfg.fanIn then [] else cold.take cfg.fanIn
  | .fanInYoung =>
    let cold := coldPositions segments
    if cold.length < cfg.fanIn then [] else cold.drop (cold.length - cfg.fanIn)
  | .oldestAndNewest =>
    let cold := coldPositions segments
    let counts := (segments.filter (fun s => !s.hot)).map (fun s => s.entries.length)
    match stallPairIndices counts cfg.compactMax with
    | some (i, j) => if i ≠ j then [cold.getD i 0, cold.getD j 0] else []
    | none => []

def marked (positions : List ℕ) (segments : List DiskSegment) : List (DiskSegment × Bool) :=
  segments.zipIdx.map (fun p => (p.1, decide (p.2 ∈ positions)))

def chosen (marks : List (DiskSegment × Bool)) : List DiskSegment :=
  (marks.filter (fun m => m.2)).map Prod.fst

def retained (marks : List (DiskSegment × Bool)) : List DiskSegment :=
  (marks.filter (fun m => !m.2)).map Prod.fst

def insertPos (marks : List (DiskSegment × Bool)) : ℕ :=
  (marks.findIdx? (fun m => m.2)).getD 0

def swapSegments (marks : List (DiskSegment × Bool)) (new : List DiskSegment) :
    List DiskSegment :=
  (retained marks).take (insertPos marks) ++ new ++ (retained marks).drop (insertPos marks)

theorem swapSegments_perm (marks : List (DiskSegment × Bool)) (new : List DiskSegment) :
    (swapSegments marks new).Perm (new ++ retained marks) := by
  refine (perm_append_comm.append_right _).trans ?_
  rw [append_assoc, take_append_drop]

/-- What the tee hands to the export: Adds with a record, up to the checkpoint height. -/
def isExported (ckpt : ℤ) (e : OutputKV) : Bool :=
  e.isAdd && decide (e.id ≠ 0) && decide (ckpt < 0 ∨ e.height ≤ ckpt)

section Tee

variable {σ : Type} (ckpt : ℤ) (sink : σ → OutputKV → Option σ)

/-- `ExportTee`: the entries that pass, and the sink afterwards unless it refused one. -/
def exportTee : σ → List OutputKV → List OutputKV × Option σ
  | s, [] => ([], some s)
  | s, e :: entries =>
    if isExported ckpt e then
      match sink s e with
      | none => ([], none)
      | some s' =>
        let res := exportTee s' entries
        (e :: res.1, res.2)
    else
      let res := exportTee s entries
      (e :: res.1, res.2)

theorem exportTee_isPrefix (s : σ) (entries : List OutputKV) :
    (exportTee ckpt sink s entries).1 <+: entries := by
  induction entries generalizing s with
  | nil => exact prefix_rfl
  | cons e entries ih =>
    simp only [exportTee]
    split_ifs
    · cases sink s e with
      | none => exact nil_prefix
      | some s' => exact cons_prefix_cons.mpr ⟨rfl, ih s'⟩
    · exact cons_prefix_cons.mpr ⟨rfl, ih s⟩

theorem exportTee_some {s s' : σ} {entries : List OutputKV}
    (h : (exportTee ckpt sink s entries).2 = some s') :
    (exportTee ckpt sink s entries).1 = entries := by
  induction entries generalizing s with
  | nil => rfl
  | cons e entries ih =>
    simp only [exportTee] at h ⊢
    split_ifs at h ⊢
    · cases hs : sink s e with
      | none => simp [hs] at h
      | some t =>
        rw [hs] at h
        simp only at h ⊢
        rw [ih h]
    · simp only at h ⊢
      rw [ih h]

end Tee

namespace DiskSegment

def stream (seg : DiskSegment) (unreadable : Option ℕ) : SegmentReader :=
  ⟨[], seg.entries, unreadable⟩

@[simp] theorem remaining_stream (seg : DiskSegment) (unreadable : Option ℕ) :
    (seg.stream unreadable).remaining = seg.entries := rfl

end DiskSegment

open DiskSegment

def openReaders (unreadable : ℕ → Option ℕ) (inputs : List DiskSegment) : List SegmentReader :=
  inputs.map (fun seg => seg.stream (unreadable seg.idx))

def inputCount (inputs : List DiskSegment) : ℕ := (inputs.map (fun s => s.entries.length)).sum

def mergeInputs (unreadable : ℕ → Option ℕ) (inputs : List DiskSegment) :
    List OutputKV × List SegmentReader :=
  mergeStream (inputCount inputs) (openReaders unreadable inputs)

theorem remaining_openReaders (unreadable : ℕ → Option ℕ) (inputs : List DiskSegment) :
    (openReaders unreadable inputs).map remaining = inputs.map entries := by
  rw [openReaders, map_map]
  rfl

variable (inputs : List DiskSegment)

theorem inputCount_eq : inputCount inputs = ((inputs.map entries).map length).sum := by
  rw [inputCount, map_map]
  rfl

theorem mergeInputs_isPrefix (unreadable : ℕ → Option ℕ) (inputs : List DiskSegment) :
    (mergeInputs unreadable inputs).1 <+: kWayMerge OutputKV.le (inputs.map entries) := by
  have h := mergeStream_isPrefix (inputCount inputs) (openReaders unreadable inputs)
  rw [remaining_openReaders] at h
  rw [mergeInputs, kWayMerge, ← inputCount_eq]
  exact h

theorem sorted_merge : Sorted (kWayMerge OutputKV.le (inputs.map entries)) := by
  apply kWayMerge_pairwise
  intro run hrun
  obtain ⟨seg, -, rfl⟩ := mem_map.mp hrun
  exact seg.sorted

theorem sorted_output {σ : Type} (cfg : CompactConfig) (unreadable : ℕ → Option ℕ)
    (sink : σ → OutputKV → Option σ) (s : σ) (inputs : List DiskSegment) :
    Sorted (exportTee cfg.checkpointHeight sink s
      (gcGroups cfg.fence (mergeInputs unreadable inputs).1)).1 := by
  apply Pairwise.sublist _ (sorted_merge inputs)
  exact ((exportTee_isPrefix _ _ _ _).sublist.trans (gcGroups_sublist _ _)).trans
    (mergeInputs_isPrefix unreadable inputs).sublist

/-- The output cut into segments of at most `size` entries; `fuel` bounds their number. -/
def cutRun (size : ℕ) : ℕ → MemoryRun → List MemoryRun
  | 0, _ => []
  | fuel + 1, run =>
    if run.entries.isEmpty then []
    else
      ⟨run.entries.take size, false, run.sorted.take⟩ ::
        cutRun size fuel ⟨run.entries.drop size, false, run.sorted.drop⟩

def chunkSize (cfg : CompactConfig) (run : MemoryRun) : ℕ :=
  if cfg.compactMax = 0 then run.len else cfg.compactMax

def outputSegments (cfg : CompactConfig) (nextIdx : ℕ) (run : MemoryRun) : List DiskSegment :=
  (cutRun (chunkSize cfg run) run.len run).zipIdx.map
    (fun p => ⟨nextIdx + p.2, p.1.entries, ⟨false, cfg.probed⟩, p.1.sorted⟩)

/-- The state after a compaction, the files it deleted, the readers it left, and the sink unless it
failed. -/
structure CompactOutcome (σ : Type) where
  disk : DiskIndex
  removed : List ℕ
  leftover : List SegmentReader
  sink : Option σ

def DiskIndex.marks (cfg : CompactConfig) (scope : CompactScope) (disk : DiskIndex) :
    List (DiskSegment × Bool) :=
  marked (selectPositions cfg disk.segments scope) disk.segments

def DiskIndex.doCompact {σ : Type} (cfg : CompactConfig) (scope : CompactScope)
    (unreadable : ℕ → Option ℕ) (sink : σ → OutputKV → Option σ) (s : σ) (disk : DiskIndex) :
    CompactOutcome σ :=
  let inputs := chosen (disk.marks cfg scope)
  if inputs.isEmpty then ⟨disk, [], [], some s⟩
  else
    let stream := mergeInputs unreadable inputs
    let tee := exportTee cfg.checkpointHeight sink s (gcGroups cfg.fence stream.1)
    if scope = .teeScan then ⟨disk, [], stream.2, tee.2⟩
    else
      let run : MemoryRun := ⟨tee.1, false, sorted_output cfg unreadable sink s inputs⟩
      let new := outputSegments cfg disk.nextIdx run
      let disk' := { disk with nextIdx := disk.nextIdx + new.length }
      match tee.2 with
      | none => ⟨disk', [], stream.2, none⟩
      | some s' =>
        ⟨{ disk' with segments := swapSegments (disk.marks cfg scope) new },
          inputs.map DiskSegment.idx, stream.2, some s'⟩

theorem cutRun_flatten {size fuel : ℕ} (hs : 0 < size) {run : MemoryRun} (hf : run.len ≤ fuel) :
    ((cutRun size fuel run).map MemoryRun.entries).flatten = run.entries := by
  induction fuel generalizing run with
  | zero => exact (length_eq_zero_iff.mp (Nat.le_zero.mp hf)).symm
  | succ fuel ih =>
    simp only [cutRun]
    split_ifs with he
    · exact (isEmpty_iff.mp he).symm
    · have hne : run.entries ≠ [] := by simpa using he
      rw [map_cons, flatten_cons, ih, take_append_drop]
      simp only [MemoryRun.len, length_drop] at hf ⊢
      omega

theorem outputSegments_entries (cfg : CompactConfig) (nextIdx : ℕ) (run : MemoryRun) :
    (outputSegments cfg nextIdx run).map entries =
      (cutRun (chunkSize cfg run) run.len run).map MemoryRun.entries := by
  have hfst := zipIdx_map_fst 0 (cutRun (chunkSize cfg run) run.len run)
  rw [outputSegments, map_map]
  conv_rhs => rw [← hfst, map_map]
  rfl

theorem chunkSize_pos (cfg : CompactConfig) {run : MemoryRun} (h : 0 < run.len) :
    0 < chunkSize cfg run := by
  unfold chunkSize
  split_ifs <;> omega

theorem outputSegments_flatten (cfg : CompactConfig) (nextIdx : ℕ) (run : MemoryRun) :
    ((outputSegments cfg nextIdx run).map entries).flatten = run.entries := by
  rw [outputSegments_entries]
  rcases Nat.eq_zero_or_pos run.len with h0 | hpos
  · rw [h0]
    exact (length_eq_zero_iff.mp h0).symm
  · exact cutRun_flatten (chunkSize_pos cfg hpos) le_rfl

theorem marks_split {marks : List (DiskSegment × Bool)} (h : chosen marks ≠ []) :
    ∃ front rest, marks = front.map (fun s => (s, false)) ++ rest ∧
      insertPos marks = front.length ∧ retained marks = front ++ retained rest ∧
      chosen marks = chosen rest := by
  suffices hfind : ∃ front rest, marks = front.map (fun s => (s, false)) ++ rest ∧
      marks.findIdx? (fun m => m.2) = some front.length ∧
      retained marks = front ++ retained rest ∧ chosen marks = chosen rest by
    obtain ⟨front, rest, hm, hf, hret, hch⟩ := hfind
    exact ⟨front, rest, hm, by rw [insertPos, hf]; rfl, hret, hch⟩
  induction marks with
  | nil => exact absurd rfl h
  | cons m marks ih =>
    obtain ⟨seg, b⟩ := m
    cases b with
    | true => exact ⟨[], (seg, true) :: marks, rfl, rfl, rfl, rfl⟩
    | false =>
      obtain ⟨front, rest, hm, hfind, hret, hch⟩ := ih (by simpa [chosen] using h)
      refine ⟨seg :: front, rest, by simp [hm], by simp [findIdx?_cons, hfind], ?_, ?_⟩
      · simpa [retained] using hret
      · simpa [chosen] using hch

theorem marks_perm (marks : List (DiskSegment × Bool)) :
    (marks.map Prod.fst).Perm (chosen marks ++ retained marks) := by
  rw [chosen, retained, ← map_append]
  exact (filter_append_perm _ marks).symm.map _

theorem marked_fst (positions : List ℕ) (segments : List DiskSegment) :
    (marked positions segments).map Prod.fst = segments := by
  rw [marked, map_map]
  exact zipIdx_map_fst 0 segments

def survivors (fence : ℤ) (inputs : List DiskSegment) : List OutputKV :=
  gcGroups fence (kWayMerge OutputKV.le (inputs.map DiskSegment.entries))

def survivorRun (fence : ℤ) (inputs : List DiskSegment) : MemoryRun :=
  ⟨survivors fence inputs, false,
    List.Pairwise.sublist (gcGroups_sublist _ _) (sorted_merge inputs)⟩

section Outcome

variable {σ : Type} (cfg : CompactConfig) (scope : CompactScope) (unreadable : ℕ → Option ℕ)
  (sink : σ → OutputKV → Option σ) (s : σ) (disk : DiskIndex)

inductive CompactionEnds : CompactOutcome σ → Prop
  | idle (hnone : chosen (disk.marks cfg scope) = []) : CompactionEnds ⟨disk, [], [], some s⟩
  | scanned (left : List SegmentReader) (s' : Option σ)
      (hsome : chosen (disk.marks cfg scope) ≠ []) (htee : scope = .teeScan) :
      CompactionEnds ⟨disk, [], left, s'⟩
  | refused (left : List SegmentReader) (n : ℕ) (hsome : chosen (disk.marks cfg scope) ≠ [])
      (hwrite : scope ≠ .teeScan) (hn : disk.nextIdx ≤ n)
      (hsink : (exportTee cfg.checkpointHeight sink s (gcGroups cfg.fence
        (mergeInputs unreadable (chosen (disk.marks cfg scope))).1)).2 = none) :
      CompactionEnds ⟨{ disk with nextIdx := n }, [], left, none⟩
  | swapped (run : MemoryRun) (s' : σ) (hsome : chosen (disk.marks cfg scope) ≠ [])
      (hwrite : scope ≠ .teeScan) (hfrozen : run.isMutable = false)
      (hrun : run.entries =
        gcGroups cfg.fence (mergeInputs unreadable (chosen (disk.marks cfg scope))).1)
      (hsink : exportTee cfg.checkpointHeight sink s run.entries = (run.entries, some s')) :
      CompactionEnds
        ⟨{ disk with
            nextIdx := disk.nextIdx + (outputSegments cfg disk.nextIdx run).length
            segments := swapSegments (disk.marks cfg scope)
              (outputSegments cfg disk.nextIdx run) },
          (chosen (disk.marks cfg scope)).map DiskSegment.idx,
          (mergeInputs unreadable (chosen (disk.marks cfg scope))).2, some s'⟩

theorem doCompact_ends : CompactionEnds cfg scope unreadable sink s disk
    (disk.doCompact cfg scope unreadable sink s) := by
  unfold DiskIndex.doCompact
  dsimp only
  split_ifs with hempty htee
  · exact .idle (isEmpty_iff.mp hempty)
  · exact .scanned _ _ (by simpa using hempty) htee
  · have hsome : chosen (disk.marks cfg scope) ≠ [] := by simpa using hempty
    split
    next hs => exact .refused _ _ hsome htee (Nat.le_add_right _ _) hs
    next s' hs =>
      have hpass := exportTee_some _ _ hs
      apply CompactionEnds.swapped ⟨_, false, sorted_output cfg unreadable sink s _⟩ s' hsome
        htee rfl hpass
      simp only
      rw [hpass]
      exact Prod.ext hpass hs

end Outcome

def coldReads : SegmentReads := ⟨false, fun _ => true⟩

def defaultCompaction : CompactConfig := ⟨8, 20000000, 0, -1, fun _ => true⟩

theorem intact_openReaders : ¬ ∃ r ∈ openReaders (fun _ => none) inputs, r.Broken := by
  simp [openReaders, Broken, stream]

theorem mergeInputs_intact {unreadable : ℕ → Option ℕ} {inputs : List DiskSegment}
    (h : ¬ ∃ r ∈ openReaders unreadable inputs, r.Broken) :
    (mergeInputs unreadable inputs).1 = kWayMerge OutputKV.le (inputs.map entries) ∧
      ((mergeInputs unreadable inputs).2.map remaining).flatten = [] := by
  have hcount := inputCount_eq inputs
  obtain ⟨hstream, hleft⟩ := mergeStream_intact h
    (by rw [remaining_openReaders, ← hcount])
  refine ⟨?_, hleft⟩
  rw [mergeInputs, hstream, remaining_openReaders, kWayMerge, ← hcount]

end BlvmNode
