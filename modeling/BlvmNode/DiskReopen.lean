import BlvmNode.CompactionQuery
import BlvmNode.Lib.Decimal
import BlvmNode.Lib.GuardedRun
import Mathlib.Data.Char
import Mathlib.Data.List.Lex

/-!
# Reopening the disk index

The list position of a segment is its age, but a reopened index lists the segments by file name.
Compaction outputs get the newest numbers and stand at old places, so the two orders agree for
every key only as long as no output is overtaken by a segment that shares a key with it.
-/

namespace BlvmNode

open KeyedRuns Timeline KWayMerge GuardedRun List DiskSegment

/-- `seg_{idx:06}.bin`. -/
def segmentFileName (idx : ℕ) : List Char :=
  ['s', 'e', 'g', '_'] ++ (Decimal.digits (max 6 (Decimal.digitCount idx)) idx ++
    ['.', 'b', 'i', 'n'])

theorem segmentFileName_lt {i j : ℕ} (h : i < j) (hj : j < 10 ^ 6) :
    segmentFileName i < segmentFileName j := by
  have hi : i < 10 ^ 6 := h.trans hj
  have hwidth : ∀ n, n < 10 ^ 6 → max 6 (Decimal.digitCount n) = 6 :=
    fun n hn => max_eq_left (Decimal.digitCount_le hn)
  rw [segmentFileName, segmentFileName, hwidth i hi, hwidth j hj]
  apply List.append_left_lt
  apply Decimal.append_lt_append
  · rw [Decimal.length_digits, Decimal.length_digits]
  · exact Decimal.digits_lt h hj

def fileOrder (a b : DiskSegment) : Prop := segmentFileName a.idx ≤ segmentFileName b.idx

instance : DecidableRel fileOrder := fun _ _ => inferInstanceAs (Decidable (_ ≤ _))

instance : Std.Total fileOrder :=
  ⟨fun a b => le_total (segmentFileName a.idx) (segmentFileName b.idx)⟩

instance : IsTrans DiskSegment fileOrder := ⟨fun _ _ _ hab hbc => le_trans hab hbc⟩

/-- `DiskIndex::new` over the files of a directory: sorted by name, nothing pinned; which keys are
probed depends on the directories built while loading. -/
def DiskIndex.reopen (files : List DiskSegment) (probed : ℕ → OutputKey → Bool) : DiskIndex where
  segments := (files.insertionSort fileOrder).map
    (fun seg => { seg with reads := ⟨false, probed seg.idx⟩ })
  pendingSpills := []
  nextIdx := files.foldr (fun seg n => max n (seg.idx + 1)) 0
  asyncSpillBusy := false

structure DiskState where
  disk : DiskIndex
  reserved : Option ℕ

inductive DiskStep where
  | push (cfg : SpillConfig) (run : MemoryRun)
  | startSpill
  | finishSpill (reads : SegmentReads)
  | compact (cfg : CompactConfig) (scope : CompactScope) (accepts : OutputKV → Bool)
  | repin (hot : ℕ → Bool)

open DiskIndex DiskStep

def plainSink (accepts : OutputKV → Bool) (_ : Unit) (e : OutputKV) : Option Unit :=
  if accepts e then some () else none

namespace DiskStep

def apply (st : DiskState) : DiskStep → DiskState
  | push cfg run => { st with disk := st.disk.pushRunNoCompact cfg run }
  | startSpill =>
    if st.disk.pendingSpills.isEmpty = false ∧ st.reserved = none then
      ⟨{ st.disk with nextIdx := st.disk.nextIdx + 1 }, some st.disk.nextIdx⟩
    else st
  | finishSpill reads =>
    match st.reserved with
    | some idx => ⟨st.disk.finishAsyncSpill idx reads, none⟩
    | none => st
  | compact cfg scope accepts =>
    { st with
      disk := (st.disk.doCompact cfg scope (fun _ => none) (plainSink accepts) ()).disk }
  | repin hot =>
    { st with
      disk := { st.disk with
        segments := st.disk.segments.map
          (fun seg => { seg with reads := { seg.reads with hot := hot seg.idx } }) } }

/-- No segment is moved past one that shares a key: neither past the output of a compaction nor when
a background spill is published. -/
def KeepsOrder (st : DiskState) : DiskStep → Prop
  | compact cfg scope _ =>
    ∀ a ∈ chosen (st.disk.marks cfg scope), ∀ b ∈ overtaking (st.disk.marks cfg scope),
      KeyDisjoint [a.entries] [b.entries]
  | finishSpill _ =>
    ∀ idx ∈ st.reserved, ∀ run ∈ st.disk.pendingSpills.head?, ∀ seg ∈ st.disk.segments,
      idx < seg.idx → KeyDisjoint [seg.entries] [run.entries]
  | _ => True

end DiskStep

def runDisk (st : DiskState) (steps : List DiskStep) : DiskState :=
  steps.foldl DiskStep.apply st

def OrderedRun : DiskState → List DiskStep → Prop :=
  Guarded DiskStep.apply DiskStep.KeepsOrder

/-- Numbers are fresh, and segments whose list order and number order differ share no key. -/
structure NumberedByAge (st : DiskState) : Prop where
  fresh : ∀ seg ∈ st.disk.segments, seg.idx < st.disk.nextIdx
  reserved : ∀ idx ∈ st.reserved, idx < st.disk.nextIdx ∧ ∀ seg ∈ st.disk.segments, seg.idx ≠ idx
  distinct : (st.disk.segments.map DiskSegment.idx).Nodup
  ordered : st.disk.segments.Pairwise
    (fun a b => a.idx < b.idx ∨ KeyDisjoint [a.entries] [b.entries])

variable {st : DiskState}

theorem numberedByAge_empty : NumberedByAge ⟨empty, none⟩ :=
  ⟨nofun, nofun, nodup_nil, Pairwise.nil⟩

theorem NumberedByAge.snoc (h : NumberedByAge st) {disk : DiskIndex}
    {reserved : Option ℕ} {seg : DiskSegment}
    (hsegs : disk.segments = st.disk.segments ++ [seg]) (hnext : st.disk.nextIdx ≤ disk.nextIdx)
    (hlt : seg.idx < disk.nextIdx) (hne : ∀ a ∈ st.disk.segments, a.idx ≠ seg.idx)
    (hord : ∀ a ∈ st.disk.segments, a.idx < seg.idx ∨ KeyDisjoint [a.entries] [seg.entries])
    (hres : ∀ idx ∈ reserved, idx ∈ st.reserved ∧ seg.idx ≠ idx) :
    NumberedByAge ⟨disk, reserved⟩ := by
  refine ⟨?_, ?_, ?_, ?_⟩
  · rw [hsegs, forall_mem_append, forall_mem_singleton]
    exact ⟨fun a ha => (h.fresh a ha).trans_le hnext, hlt⟩
  · intro idx hidx
    obtain ⟨hold, hother⟩ := hres idx hidx
    obtain ⟨hbound, hfree⟩ := h.reserved idx hold
    rw [hsegs, forall_mem_append, forall_mem_singleton]
    exact ⟨hbound.trans_le hnext, hfree, hother⟩
  · rw [hsegs, map_append, nodup_append]
    refine ⟨h.distinct, nodup_singleton _, ?_⟩
    intro a ha b hb
    obtain ⟨x, hx, rfl⟩ := mem_map.mp ha
    rw [mem_singleton.mp hb]
    exact hne x hx
  · rw [hsegs, pairwise_append]
    refine ⟨h.ordered, pairwise_singleton _ _, ?_⟩
    intro a ha b hb
    rw [mem_singleton.mp hb]
    exact hord a ha

theorem NumberedByAge.push (h : NumberedByAge st) (run : MemoryRun)
    (reads : SegmentReads) : NumberedByAge { st with disk := st.disk.pushSegment run reads } := by
  apply h.snoc rfl (Nat.le_succ _) (Nat.lt_succ_self _)
  · exact fun a ha => (h.fresh a ha).ne
  · exact fun a ha => .inl (h.fresh a ha)
  · exact fun idx hidx => ⟨hidx, (h.reserved idx hidx).1.ne'⟩

theorem NumberedByAge.pushChunks (cfg : SpillConfig) (fuel : ℕ)
    (h : NumberedByAge st) (run : MemoryRun) :
    NumberedByAge { st with disk := pushChunks cfg fuel run st.disk } := by
  induction fuel generalizing st run with
  | zero => exact h
  | succ fuel ih =>
    simp only [pushChunks]
    split_ifs
    · exact h
    · exact ih (h.push _ _) _

theorem NumberedByAge.pushRun (h : NumberedByAge st) (cfg : SpillConfig)
    (run : MemoryRun) : NumberedByAge { st with disk := st.disk.pushRunNoCompact cfg run } := by
  unfold pushRunNoCompact
  split_ifs
  · exact h.pushChunks cfg _ run
  · exact ⟨h.fresh, h.reserved, h.distinct, h.ordered⟩
  · exact h.push run _

theorem NumberedByAge.startSpill (h : NumberedByAge st) : NumberedByAge (startSpill.apply st) := by
  simp only [apply]
  split_ifs
  · refine ⟨fun seg hseg => (h.fresh seg hseg).trans (Nat.lt_succ_self _), ?_, h.distinct,
      h.ordered⟩
    intro idx hidx
    rw [Option.mem_some_iff] at hidx
    rw [← hidx]
    exact ⟨Nat.lt_succ_self _, fun seg hseg => (h.fresh seg hseg).ne⟩
  · exact h

theorem NumberedByAge.finishSpill (h : NumberedByAge st) {reads : SegmentReads}
    (hk : (finishSpill reads).KeepsOrder st) : NumberedByAge ((finishSpill reads).apply st) := by
  simp only [apply]
  cases hres : st.reserved with
  | none => exact h
  | some idx =>
    obtain ⟨hlt, hne⟩ := h.reserved idx hres
    simp only [finishAsyncSpill]
    cases hp : st.disk.pendingSpills with
    | nil => exact ⟨h.fresh, by simp, h.distinct, h.ordered⟩
    | cons run rest =>
      have hdis := hk idx hres run (by simp [hp])
      have hord : ∀ a ∈ st.disk.segments, a.idx < idx ∨ KeyDisjoint [a.entries] [run.entries] := by
        intro a ha
        rcases Nat.lt_trichotomy a.idx idx with hlt' | heq | hgt
        · exact .inl hlt'
        · exact absurd heq (hne a ha)
        · exact .inr (hdis a ha hgt)
      dsimp only
      apply h.snoc
      · rfl
      · exact le_rfl
      · exact hlt
      · exact hne
      · exact hord
      · simp

theorem mem_survivors {fence : ℤ} {inputs : List DiskSegment} {e : OutputKV}
    (h : e ∈ survivors fence inputs) : ∃ seg ∈ inputs, e ∈ seg.entries := by
  have hmem := (kWayMerge_perm _).mem_iff.mp ((gcGroups_sublist fence _).subset h)
  obtain ⟨run, hrun, he⟩ := mem_flatten.mp hmem
  obtain ⟨seg, hseg, rfl⟩ := mem_map.mp hrun
  exact ⟨seg, hseg, he⟩

theorem idx_outputSegments (cfg : CompactConfig) (nextIdx : ℕ) (run : MemoryRun) :
    (outputSegments cfg nextIdx run).map idx =
      range' nextIdx (outputSegments cfg nextIdx run).length := by
  have hlen : (outputSegments cfg nextIdx run).length =
      (cutRun (chunkSize cfg run) run.len run).length := by simp [outputSegments]
  rw [hlen, outputSegments, map_map]
  apply ext_getElem
  · simp
  · intro i h₁ h₂
    simp

theorem NumberedByAge.swap (h : NumberedByAge st) {cfg : CompactConfig}
    {scope : CompactScope} (hsome : chosen (st.disk.marks cfg scope) ≠ [])
    (hk : ∀ a ∈ chosen (st.disk.marks cfg scope), ∀ b ∈ overtaking (st.disk.marks cfg scope),
      KeyDisjoint [a.entries] [b.entries]) :
    NumberedByAge { st with disk := swappedIndex cfg scope st.disk } := by
  obtain ⟨front, rest, hm, hpos, hret, hch⟩ := marks_split hsome
  have hover : overtaking (st.disk.marks cfg scope) = retained rest := by
    rw [overtaking, hret, hpos, drop_left]
  have hswap : (swappedIndex cfg scope st.disk).segments =
      front ++ (st.disk.compacted cfg scope ++ retained rest) := by
    rw [← append_assoc]
    simp only [swappedIndex, swapSegments, hpos, hret, take_left, drop_left]
  have hold : (front ++ retained rest).Sublist st.disk.segments := by
    rw [← hret]
    have hsub : (retained (st.disk.marks cfg scope)).Sublist
        ((st.disk.marks cfg scope).map Prod.fst) := filter_sublist.map _
    rwa [marks, marked_fst] at hsub
  have hidx := idx_outputSegments cfg st.disk.nextIdx
    (st.disk.collected cfg scope)
  rw [← compacted] at hidx
  set output := st.disk.compacted cfg scope
  have hnew : ∀ seg ∈ output, st.disk.nextIdx ≤ seg.idx ∧
      seg.idx < st.disk.nextIdx + output.length := by
    intro seg hseg
    have hmem := mem_map_of_mem (f := idx) hseg
    rw [hidx, mem_range'_1] at hmem
    exact hmem
  have hfresh : ∀ seg ∈ front ++ retained rest, seg.idx < st.disk.nextIdx :=
    fun seg hseg => h.fresh seg (hold.subset hseg)
  have hdisjoint : ∀ a ∈ output, ∀ b ∈ retained rest,
      KeyDisjoint [a.entries] [b.entries] := by
    intro a ha b hb e he e' he'
    have hsurv : e ∈ survivors cfg.fence (chosen (st.disk.marks cfg scope)) := by
      refine (mem_compacted_runs ?_).subset (by simpa using he)
      exact mem_map_of_mem (mem_reverse.mpr ha)
    obtain ⟨c, hc, hec⟩ := mem_survivors hsurv
    exact hk c hc b (hover ▸ hb) e (by simpa using hec) e' he'
  have hperm : (swappedIndex cfg scope st.disk).segments.Perm
      (output ++ (front ++ retained rest)) := by
    rw [← hret]
    exact swapSegments_perm _ _
  refine ⟨?_, ?_, ?_, ?_⟩
  · intro seg hseg
    rcases mem_append.mp (hperm.subset hseg) with hseg | hseg
    · exact (hnew seg hseg).2
    · exact (hfresh seg hseg).trans_le (Nat.le_add_right _ _)
  · intro idx hres
    obtain ⟨hlt, hne⟩ := h.reserved idx hres
    refine ⟨hlt.trans_le (Nat.le_add_right _ _), ?_⟩
    intro seg hseg
    rcases mem_append.mp (hperm.subset hseg) with hseg | hseg
    · have := (hnew seg hseg).1
      omega
    · exact hne seg (hold.subset hseg)
  · rw [(hperm.map idx).nodup_iff, map_append, nodup_append]
    refine ⟨hidx ▸ nodup_range', h.distinct.sublist (hold.map _), ?_⟩
    intro a ha b hb
    obtain ⟨x, hx, rfl⟩ := mem_map.mp ha
    obtain ⟨y, hy, rfl⟩ := mem_map.mp hb
    have hx' := (hnew x hx).1
    have hy' := hfresh y hy
    omega
  · have hold' := pairwise_append.mp (Pairwise.sublist hold h.ordered)
    rw [hswap, pairwise_append, pairwise_append]
    refine ⟨hold'.1, ⟨?_, hold'.2.1, fun a ha b hb => .inr (hdisjoint a ha b hb)⟩, ?_⟩
    · have hsorted : output.Pairwise (fun a b => a.idx < b.idx) := by
        rw [← pairwise_map, hidx]
        exact pairwise_lt_range'
      exact hsorted.imp Or.inl
    · intro a ha b hb
      rcases mem_append.mp hb with hb | hb
      · exact .inl ((hfresh a (mem_append_left _ ha)).trans_le (hnew b hb).1)
      · exact hold'.2.2 a ha b hb

theorem NumberedByAge.step (h : NumberedByAge st) {s : DiskStep}
    (hk : s.KeepsOrder st) : NumberedByAge (s.apply st) := by
  cases s with
  | push cfg run => exact h.pushRun cfg run
  | startSpill => exact h.startSpill
  | finishSpill reads => exact h.finishSpill hk
  | compact cfg scope accepts =>
    have hends := doCompact_ends cfg scope (fun _ => none) (plainSink accepts) () st.disk
    simp only [apply]
    generalize st.disk.doCompact cfg scope (fun _ => none) (plainSink accepts) () = outcome
      at hends ⊢
    cases hends with
    | idle => exact h
    | scanned => exact h
    | refused left n hsome hwrite hn hsink =>
      exact ⟨fun seg hseg => (h.fresh seg hseg).trans_le hn,
        fun idx hidx => ⟨(h.reserved idx hidx).1.trans_le hn, (h.reserved idx hidx).2⟩,
        h.distinct, h.ordered⟩
    | swapped run s' hsome hwrite hfrozen hrun hsink =>
      rw [(mergeInputs_intact (intact_openReaders _)).1] at hrun
      rw [eq_survivorRun hfrozen hrun]
      exact h.swap hsome hk
  | repin hot =>
    refine ⟨?_, ?_, ?_, ?_⟩
    · simpa [apply] using h.fresh
    · simpa [apply] using h.reserved
    · simpa [apply, Function.comp_def] using h.distinct
    · simpa [apply, pairwise_map] using h.ordered

theorem numberedByAge_runDisk {steps : List DiskStep} (h : NumberedByAge st)
    (hrun : OrderedRun st steps) : NumberedByAge (runDisk st steps) :=
  invariant (fun _ => NumberedByAge) h (fun _ _ _ hst hs => hst.step hs) hrun

theorem firstHit_scans_filter (before : ℤ) (chain : List (List OutputKV)) (k : OutputKey) :
    firstHit (scans before chain) k =
      firstHit (scans before (chain.filter (fun run => !(entriesOf k run).isEmpty))) k := by
  simp only [firstHit, scans, ← head?_filterMap, filterMap_map, filterMap_filter]
  congr 2
  funext run
  by_cases hrun : entriesOf k run = [] <;> simp [hrun, scanKey]

theorem reopened_order (h : NumberedByAge st)
    (hidx : st.disk.nextIdx ≤ 10 ^ 6) {files : List DiskSegment}
    (hfiles : files.Perm st.disk.segments) :
    (files.insertionSort fileOrder).Pairwise (fun a b => a.idx < b.idx) := by
  have hperm := (perm_insertionSort fileOrder files).trans hfiles
  have hdistinct : (files.insertionSort fileOrder).Pairwise (fun a b => a.idx ≠ b.idx) := by
    have hnodup := (hperm.map idx).nodup_iff.mpr h.distinct
    exact pairwise_map.mp hnodup
  have hsorted := pairwise_insertionSort fileOrder files
  refine (hsorted.and hdistinct).imp_of_mem ?_
  intro a b ha hb hab
  rcases Nat.lt_trichotomy a.idx b.idx with hlt | heq | hgt
  · exact hlt
  · exact absurd heq hab.2
  · have hbound := (h.fresh a (hperm.mem_iff.mp ha)).trans_le hidx
    exact absurd hab.1 (not_le.mpr (segmentFileName_lt hgt hbound))

theorem DiskIndex.fitsPages_of_entries {disk : DiskIndex}
    (h : ∀ seg ∈ disk.segments, ∀ k, (entriesOf k seg.entries).length ≤ probePageEntries) :
    disk.FitsPages :=
  fun seg hseg k _ => h seg hseg k

/-- In every run that moves no segment past one with a common key, an index closed without a
waiting spill, with at most a page of entries per key and segment, answers every query alike after
it is reopened. -/
theorem reopen_answers_alike {steps : List DiskStep}
    (hrun : OrderedRun ⟨DiskIndex.empty, none⟩ steps)
    (hpending : (runDisk ⟨DiskIndex.empty, none⟩ steps).disk.pendingSpills = [])
    (hidx : (runDisk ⟨DiskIndex.empty, none⟩ steps).disk.nextIdx ≤ 10 ^ 6)
    (hpage : ∀ seg ∈ (runDisk ⟨DiskIndex.empty, none⟩ steps).disk.segments, ∀ k,
      (entriesOf k seg.entries).length ≤ probePageEntries)
    {files : List DiskSegment}
    (hfiles : files.Perm (runDisk ⟨DiskIndex.empty, none⟩ steps).disk.segments)
    (probed : ℕ → OutputKey → Bool) (slots : List Slot) (before : ℤ) :
    (DiskIndex.reopen files probed).batchQuery slots before =
      (runDisk ⟨DiskIndex.empty, none⟩ steps).disk.batchQuery slots before := by
  have hinv := numberedByAge_runDisk numberedByAge_empty hrun
  generalize runDisk ⟨empty, none⟩ steps = st at hinv hpending hidx hpage hfiles ⊢
  have horder := reopened_order hinv hidx hfiles
  have hperm := (perm_insertionSort fileOrder files).trans hfiles
  have hreopened : (reopen files probed).FitsPages := by
    apply fitsPages_of_entries
    intro seg hseg
    obtain ⟨a, ha, rfl⟩ := mem_map.mp hseg
    exact hpage a (hperm.mem_iff.mp ha)
  rw [batchQuery_eq, batchQuery_eq, lookups_eq_scans hreopened,
    lookups_eq_scans (fitsPages_of_entries hpage)]
  congr 1
  refine map_congr_left fun s _ => ?_
  have hhit : firstHit (scans before (reopen files probed).chain) s.1 =
      firstHit (scans before st.disk.chain) s.1 := by
    rw [firstHit_scans_filter, firstHit_scans_filter before st.disk.chain]
    have hranked := holding_ranked hperm hinv.ordered horder s.1
    congr 2
    have hchain : (reopen files probed).chain =
        (files.insertionSort fileOrder).reverse.map entries := by
      simp only [chain, reopen, reverse_nil, map_nil, nil_append, ← map_reverse, map_map]
      rfl
    rw [hchain, chain, hpending, reverse_nil, map_nil, nil_append, filter_map, filter_map]
    congr 1
    rw [filter_reverse, filter_reverse]
    exact congrArg reverse hranked
  simp only [resolveSlot, hhit]

def singleRun (e : OutputKV) : MemoryRun := ⟨[e], false, List.pairwise_singleton _ _⟩

def syncSpill (hotPin : Bool) : SpillConfig := ⟨0, false, ⟨hotPin, fun _ => true⟩⟩

def pinnedSteps : List DiskStep :=
  [.push (syncSpill false) (singleRun (OutputKV.newAdd respentKey 1 1)),
    .push (syncSpill true) (singleRun (OutputKV.newDelete respentKey 2)),
    .push (syncSpill false) (singleRun (OutputKV.newAdd ⟨8, 0⟩ 3 2)),
    .compact defaultCompaction .allCold (fun _ => true)]

/-- The reopened index finds the spent output again. -/
theorem reopen_revives_spent :
    (runDisk ⟨DiskIndex.empty, none⟩ pinnedSteps).disk.pendingSpills = [] ∧
      (runDisk ⟨DiskIndex.empty, none⟩ pinnedSteps).disk.nextIdx ≤ 10 ^ 6 ∧
      (∀ seg ∈ (runDisk ⟨DiskIndex.empty, none⟩ pinnedSteps).disk.segments,
        seg.entries.length ≤ probePageEntries) ∧
      (DiskIndex.reopen (runDisk ⟨DiskIndex.empty, none⟩ pinnedSteps).disk.segments
          (fun _ _ => true)).batchQuery [(respentKey, outputIdMax)] 9 ≠
        (runDisk ⟨DiskIndex.empty, none⟩ pinnedSteps).disk.batchQuery
          [(respentKey, outputIdMax)] 9 := by
  refine ⟨rfl, by decide, by decide, by decide⟩

def unpinnedSteps : List DiskStep :=
  [.push (syncSpill false) (singleRun (OutputKV.newAdd respentKey 1 1)),
    .push (syncSpill false) (singleRun (OutputKV.newDelete respentKey 2)),
    .push (syncSpill false) (singleRun (OutputKV.newAdd ⟨8, 0⟩ 3 2)),
    .compact defaultCompaction .allCold (fun _ => true)]

theorem reopen_unpinned_alike :
    (runDisk ⟨DiskIndex.empty, none⟩ unpinnedSteps).disk.pendingSpills = [] ∧
      ∀ probed slots before,
      (DiskIndex.reopen (runDisk ⟨DiskIndex.empty, none⟩ unpinnedSteps).disk.segments
          probed).batchQuery slots before =
        (runDisk ⟨DiskIndex.empty, none⟩ unpinnedSteps).disk.batchQuery slots before := by
  have hrun : OrderedRun ⟨empty, none⟩ unpinnedSteps := by
    refine ⟨trivial, trivial, trivial, ?_, trivial⟩
    intro a ha b hb
    cases hb
  have hpage : ∀ seg ∈ (runDisk ⟨empty, none⟩ unpinnedSteps).disk.segments,
      seg.entries.length ≤ probePageEntries := by decide
  exact ⟨rfl, reopen_answers_alike hrun rfl (by decide)
    (fun seg hseg k => (length_filter_le _ _).trans (hpage seg hseg)) (Perm.refl _)⟩

end BlvmNode
