import BlvmNode.DiskCompaction

/-!
# Compaction and readers

The output of a compaction stands where its oldest input stood, so retained segments behind that
place overtake it, and an output that is cut inside a key reads its older half first. A reader
above the fence notices nothing exactly when neither changes what it is shown, provided that the
entries of a key fit on one page.
-/

namespace BlvmNode

open KeyedRuns Timeline KWayMerge List

def shownId (before : ℤ) (l : List OutputKV) : OutputId :=
  ((live before l).map OutputKV.id).getD outputIdMax

variable {inputs : List DiskSegment} {before fence : ℤ} {l m : List OutputKV}

theorem shownId_append_of_some (h : newest before l ≠ none) :
    shownId before (l ++ m) = shownId before l := by
  cases hn : newest before l with
  | none => exact absurd hn h
  | some e => simp [shownId, live, newest_append, hn]

theorem shownId_append_of_none (h : newest before l = none) :
    shownId before (l ++ m) = shownId before m := by
  simp [shownId, live, newest_append, h]

namespace DiskIndex

theorem batchQuery_shown {disk : DiskIndex} (hfit : disk.FitsPages)
    (h : ∀ k, ∀ run ∈ disk.chain, Readable (entriesOf k run)) (slots : List Slot) (before : ℤ) :
    disk.batchQuery slots before = slots.map (fun s =>
      if s.2 = outputIdMax then (s.1, shownId before (timeline s.1 disk.chain))
      else if s.2 = outputIdDeleted then (s.1, outputIdMax) else s) := by
  rw [batchQuery_eq, lookups_eq_scans hfit, normalizeDeleted, map_map]
  refine map_congr_left fun s _ => ?_
  obtain ⟨k, id⟩ := s
  by_cases hid : id = outputIdMax
  · simp only [Function.comp_apply, resolveSlot, hid, if_true, firstHit_scans_runs (h k), shownId,
      live]
    cases hn : newest before (timeline k disk.chain) with
    | none => simp [outputIdDeleted_ne_max.symm]
    | some e =>
      cases ha : e.isAdd with
      | false => simp [entryId, ha, Option.filter_some]
      | true =>
        obtain ⟨run, hrun, he⟩ := mem_flatMap.mp (mem_of_newest hn)
        have hne := ((h k run hrun).tableIds e he ha).2
        simp [entryId, ha, Option.filter_some, hne]
  · simp [resolveSlot, hid]

theorem batchQuery_eq_iff {disk disk' : DiskIndex} (hfit : disk.FitsPages)
    (hfit' : disk'.FitsPages) (h : ∀ k, ∀ run ∈ disk.chain, Readable (entriesOf k run))
    (h' : ∀ k, ∀ run ∈ disk'.chain, Readable (entriesOf k run)) (before : ℤ) :
    (∀ slots, disk'.batchQuery slots before = disk.batchQuery slots before) ↔
      ∀ k, shownId before (timeline k disk'.chain) = shownId before (timeline k disk.chain) := by
  constructor
  · intro heq k
    have hone := heq [(k, outputIdMax)]
    rw [batchQuery_shown hfit h, batchQuery_shown hfit' h'] at hone
    simpa using hone
  · intro heq slots
    rw [batchQuery_shown hfit h, batchQuery_shown hfit' h']
    refine map_congr_left fun s _ => ?_
    rw [heq s.1]

end DiskIndex

open DiskIndex

def runsOf (segments : List DiskSegment) : List (List OutputKV) :=
  segments.reverse.map DiskSegment.entries

theorem runsOf_append (segments segments' : List DiskSegment) :
    runsOf (segments ++ segments') = runsOf segments' ++ runsOf segments := by
  simp [runsOf]

theorem runsOf_flatten_perm (segments : List DiskSegment) :
    (runsOf segments).flatten.Perm (segments.map DiskSegment.entries).flatten := by
  rw [runsOf, map_reverse]
  exact (reverse_perm _).flatten

section Marks

variable (k : OutputKey) (rest : List (DiskSegment × Bool))

theorem timeline_chosen_sublist :
    (timeline k (runsOf (chosen rest))).Sublist (timeline k (runsOf (rest.map Prod.fst))) := by
  have hsub : (chosen rest).Sublist (rest.map Prod.fst) := filter_sublist.map _
  exact (hsub.reverse.map _).flatMap _

theorem timeline_marks_perm :
    (timeline k (runsOf (rest.map Prod.fst))).Perm
      (timeline k (runsOf (chosen rest)) ++ timeline k (runsOf (retained rest))) := by
  rw [← timeline_append, ← entriesOf_flatten, ← entriesOf_flatten]
  apply Perm.filter
  rw [flatten_append]
  have hflat := ((marks_perm rest).map DiskSegment.entries).flatten
  rw [map_append, flatten_append] at hflat
  refine ((runsOf_flatten_perm _).trans hflat).trans ?_
  exact ((runsOf_flatten_perm _).symm.append (runsOf_flatten_perm _).symm)

end Marks

theorem entriesOf_merge_inputs (hd : ∀ k, Descending (timeline k (runsOf inputs)))
    (k : OutputKey) : entriesOf k (kWayMerge OutputKV.le (inputs.map DiskSegment.entries)) =
      timeline k (runsOf inputs) := by
  apply entriesOf_merged _ ((sorted_merge inputs).entriesOf_heights k) (hd k)
  exact (kWayMerge_perm _).trans (runsOf_flatten_perm inputs).symm

theorem survivors_cancels (hd : ∀ k, Descending (timeline k (runsOf inputs))) (k : OutputKey) :
    Cancels (fence + 1) (timeline k (runsOf inputs)) (entriesOf k (survivors fence inputs)) := by
  rw [← entriesOf_merge_inputs hd k]
  apply gcGroups_cancels
  intro k
  rw [entriesOf_merge_inputs hd k]
  exact hd k

/-- The last cut of `entries` that has a visible entry of `k` behind it: a lookup starts there. -/
structure LastCut (size : ℕ) (k : OutputKey) (before : ℤ) (entries : List OutputKV) (n : ℕ) :
    Prop where
  cut : size ∣ n
  behind : newest before (entriesOf k (entries.drop n)) ≠ none
  last : newest before (entriesOf k (entries.drop (n + size))) = none

section Cuts

variable {size fuel : ℕ} {k : OutputKey} {run : MemoryRun}

theorem exists_lastCut (hs : 0 < size) {entries : List OutputKV}
    (h : newest before (entriesOf k entries) ≠ none) : ∃ n, LastCut size k before entries n := by
  let behind := fun m => newest before (entriesOf k (entries.drop (m * size))) ≠ none
  have hlast : ∃ m, ¬ behind m := by
    refine ⟨entries.length, ?_⟩
    simp [behind, drop_eq_nil_of_le (Nat.le_mul_of_pos_right entries.length hs)]
  have hpos : Nat.find hlast ≠ 0 := by
    intro h0
    have hspec := Nat.find_spec hlast
    rw [h0] at hspec
    exact hspec (by simpa [behind] using h)
  obtain ⟨m, hm⟩ := Nat.exists_eq_succ_of_ne_zero hpos
  refine ⟨m * size, dvd_mul_left size m, ?_, ?_⟩
  · exact not_not.mp (Nat.find_min hlast (by rw [hm]; exact Nat.lt_succ_self m))
  · have hspec := Nat.find_spec hlast
    rw [hm] at hspec
    simpa [behind, Nat.succ_mul] using hspec

theorem cutRun_cons (hne : run.entries ≠ []) : cutRun size (fuel + 1) run =
    ⟨run.entries.take size, false, run.sorted.take⟩ ::
      cutRun size fuel ⟨run.entries.drop size, false, run.sorted.drop⟩ := by
  simp [cutRun, hne]

theorem newest_cutRun_eq_none_iff (hs : 0 < size) (hf : run.len ≤ fuel) :
    newest before (timeline k ((cutRun size fuel run).map MemoryRun.entries).reverse) = none ↔
      newest before (entriesOf k run.entries) = none := by
  have hperm : (timeline k ((cutRun size fuel run).map MemoryRun.entries).reverse).Perm
      (entriesOf k run.entries) := by
    rw [← entriesOf_flatten, ← cutRun_flatten hs hf]
    exact (reverse_perm _).flatten.filter _
  simp only [newest_eq_none_iff, hperm.mem_iff]

theorem newest_cutRun (hs : 0 < size) (hf : run.len ≤ fuel) {n : ℕ}
    (h : LastCut size k before run.entries n) :
    newest before (timeline k ((cutRun size fuel run).map MemoryRun.entries).reverse) =
      newest before (entriesOf k (run.entries.drop n)) := by
  induction fuel generalizing run n with
  | zero =>
    have hnil : run.entries = [] := length_eq_zero_iff.mp (Nat.le_zero.mp hf)
    exact absurd (by simp [hnil]) h.behind
  | succ fuel ih =>
    have hne : run.entries ≠ [] := fun hnil => h.behind (by simp [hnil])
    let later : MemoryRun := ⟨run.entries.drop size, false, run.sorted.drop⟩
    have hlen : later.len ≤ fuel := by
      simp only [later, MemoryRun.len, length_drop] at hf ⊢
      omega
    rw [cutRun_cons hne, map_cons, reverse_cons, timeline_append, newest_append]
    obtain ⟨m, rfl⟩ := h.cut
    cases m with
    | zero =>
      -- nothing of the key is visible behind the first piece
      have hlast : newest before (entriesOf k later.entries) = none := by simpa using h.last
      have hfirst : newest before (entriesOf k run.entries) =
          newest before (entriesOf k (run.entries.take size)) := by
        conv_lhs => rw [← take_append_drop size run.entries]
        rw [entriesOf_append, newest_append, hlast, Option.or_none]
      rw [(newest_cutRun_eq_none_iff hs hlen).mpr hlast, Option.none_or, Nat.mul_zero, drop_zero,
        hfirst, timeline_cons, timeline_nil, append_nil]
    | succ m =>
      have hdrop : run.entries.drop (size * (m + 1)) = later.entries.drop (size * m) := by
        rw [drop_drop, Nat.mul_succ, Nat.add_comm]
      have hrest : LastCut size k before later.entries (size * m) := by
        refine ⟨dvd_mul_right size m, hdrop ▸ h.behind, ?_⟩
        have hlast := h.last
        rwa [← drop_drop, hdrop, drop_drop] at hlast
      rw [ih hlen hrest, ← hdrop]
      obtain ⟨e, he⟩ := Option.ne_none_iff_exists'.mp h.behind
      rw [he, Option.some_or]

end Cuts

def overtaking (marks : List (DiskSegment × Bool)) : List DiskSegment :=
  (retained marks).drop (insertPos marks)

namespace DiskIndex

/-- The waiting runs and the overtaking segments, which a lookup visits before the output. -/
def newerChain (cfg : CompactConfig) (scope : CompactScope) (disk : DiskIndex) :
    List (List OutputKV) :=
  disk.pendingSpills.reverse.map MemoryRun.entries ++ runsOf (overtaking (disk.marks cfg scope))

def collected (cfg : CompactConfig) (scope : CompactScope) (disk : DiskIndex) : MemoryRun :=
  survivorRun cfg.fence (chosen (disk.marks cfg scope))

def compacted (cfg : CompactConfig) (scope : CompactScope) (disk : DiskIndex) :
    List DiskSegment :=
  outputSegments cfg disk.nextIdx (disk.collected cfg scope)

end DiskIndex

/-- When a reader of `k` at `before` is shown the same after the compaction: what overtakes the
output shows the reader what the whole index did, or else the merged inputs from the last cut on
show the reader what all of them do. -/
structure Undisturbed (cfg : CompactConfig) (scope : CompactScope) (disk : DiskIndex)
    (k : OutputKey) (before : ℤ) : Prop where
  order : newest before (timeline k (disk.newerChain cfg scope)) ≠ none →
    shownId before (timeline k (disk.newerChain cfg scope)) =
      shownId before (timeline k disk.chain)
  cut : newest before (timeline k (disk.newerChain cfg scope)) = none →
    ∀ n, LastCut (chunkSize cfg (disk.collected cfg scope)) k before
        (disk.collected cfg scope).entries n →
      shownId before (entriesOf k ((disk.collected cfg scope).entries.drop n)) =
        shownId before (entriesOf k (disk.collected cfg scope).entries)

section Swapped

variable {cfg : CompactConfig} {scope : CompactScope} {disk : DiskIndex}

def swappedIndex (cfg : CompactConfig) (scope : CompactScope) (disk : DiskIndex) : DiskIndex :=
  { disk with
    nextIdx := disk.nextIdx + (disk.compacted cfg scope).length
    segments := swapSegments (disk.marks cfg scope) (disk.compacted cfg scope) }

theorem swapped_chains (h : chosen (disk.marks cfg scope) ≠ []) :
    ∃ front rest, chosen (disk.marks cfg scope) = chosen rest ∧
      disk.newerChain cfg scope =
        disk.pendingSpills.reverse.map MemoryRun.entries ++ runsOf (retained rest) ∧
      disk.chain = disk.pendingSpills.reverse.map MemoryRun.entries ++
        (runsOf (rest.map Prod.fst) ++ runsOf front) ∧
      (swappedIndex cfg scope disk).chain =
        disk.newerChain cfg scope ++ (runsOf (disk.compacted cfg scope) ++ runsOf front) := by
  obtain ⟨front, rest, hm, hpos, hret, hch⟩ := marks_split h
  have hover : overtaking (disk.marks cfg scope) = retained rest := by
    rw [overtaking, hret, hpos, drop_left]
  have hsegs : disk.segments = front ++ rest.map Prod.fst := by
    have hfst := marked_fst (selectPositions cfg disk.segments scope) disk.segments
    rw [← marks, hm, map_append, map_map] at hfst
    simpa [Function.comp_def] using hfst.symm
  have hswap : swapSegments (disk.marks cfg scope) (disk.compacted cfg scope) =
      front ++ disk.compacted cfg scope ++ retained rest := by
    rw [swapSegments, hpos, hret, take_left, drop_left]
  refine ⟨front, rest, hch, by rw [newerChain, hover], ?_, ?_⟩
  · rw [chain, hsegs]
    exact congrArg _ (runsOf_append _ _)
  · rw [chain, swappedIndex, newerChain, hover]
    simp only [hswap]
    rw [← runsOf, runsOf_append, runsOf_append, append_assoc]

theorem mem_compacted_runs {run : List OutputKV} (h : run ∈ runsOf (disk.compacted cfg scope)) :
    run.Sublist (disk.collected cfg scope).entries := by
  have hmem : run ∈ (disk.compacted cfg scope).map DiskSegment.entries := by
    simpa [runsOf] using h
  rw [← outputSegments_flatten cfg disk.nextIdx]
  exact sublist_flatten_of_mem hmem

theorem runsOf_compacted (cfg : CompactConfig) (scope : CompactScope) (disk : DiskIndex) :
    runsOf (disk.compacted cfg scope) =
      ((cutRun (chunkSize cfg (disk.collected cfg scope)) (disk.collected cfg scope).len
        (disk.collected cfg scope)).map MemoryRun.entries).reverse := by
  rw [runsOf, map_reverse, compacted, outputSegments_entries]

theorem timeline_compacted_perm {k : OutputKey} :
    (timeline k (runsOf (disk.compacted cfg scope))).Perm
      (entriesOf k (disk.collected cfg scope).entries) := by
  rw [← entriesOf_flatten, ← outputSegments_flatten cfg disk.nextIdx]
  exact (runsOf_flatten_perm _).filter _

theorem newest_compacted_eq_none_iff {k : OutputKey} :
    newest before (timeline k (runsOf (disk.compacted cfg scope))) = none ↔
      newest before (entriesOf k (disk.collected cfg scope).entries) = none := by
  simp only [newest_eq_none_iff, timeline_compacted_perm.mem_iff]

/-- The cut output shows a reader what the merged inputs show from the last cut on. -/
theorem shownId_compacted_iff {k : OutputKey} :
    shownId before (timeline k (runsOf (disk.compacted cfg scope))) =
        shownId before (entriesOf k (disk.collected cfg scope).entries) ↔
      ∀ n, LastCut (chunkSize cfg (disk.collected cfg scope)) k before
          (disk.collected cfg scope).entries n →
        shownId before (entriesOf k ((disk.collected cfg scope).entries.drop n)) =
          shownId before (entriesOf k (disk.collected cfg scope).entries) := by
  by_cases hnone : newest before (entriesOf k (disk.collected cfg scope).entries) = none
  · have hout := newest_compacted_eq_none_iff.mpr hnone
    refine ⟨fun _ n hn => absurd ?_ hn.behind, fun _ => by simp [shownId, live, hout, hnone]⟩
    rw [newest_eq_none_iff] at hnone ⊢
    exact fun e he => hnone e (((drop_sublist n _).filter _).subset he)
  · have hpos : 0 < chunkSize cfg (disk.collected cfg scope) := by
      apply chunkSize_pos
      apply length_pos_of_ne_nil
      intro hnil
      exact hnone (by simp [hnil])
    have hshown : ∀ n, LastCut (chunkSize cfg (disk.collected cfg scope)) k before
          (disk.collected cfg scope).entries n →
        shownId before (timeline k (runsOf (disk.compacted cfg scope))) =
          shownId before (entriesOf k ((disk.collected cfg scope).entries.drop n)) := by
      intro n hn
      rw [shownId, live, runsOf_compacted, newest_cutRun hpos le_rfl hn]
      rfl
    constructor
    · exact fun heq n hn => (hshown n hn).symm.trans heq
    · intro hall
      obtain ⟨n, hn⟩ := exists_lastCut hpos hnone
      exact (hshown n hn).trans (hall n hn)

variable (hlog : WellFormedLog disk.chain.flatten) {rest : List (DiskSegment × Bool)}
  {front : List DiskSegment} {k : OutputKey}

include hlog in
theorem readable_chain (k : OutputKey) : ∀ run ∈ disk.chain, Readable (entriesOf k run) := by
  have h := hlog.readable k
  rw [entriesOf_flatten] at h
  exact fun _ hrun => h.of_timeline hrun

variable (hch : chosen (disk.marks cfg scope) = chosen rest)
  (hchain : disk.chain = disk.pendingSpills.reverse.map MemoryRun.entries ++
    (runsOf (rest.map Prod.fst) ++ runsOf front))

include hlog hch hchain in
theorem survivors_cancels_chosen (k : OutputKey) :
    Cancels (cfg.fence + 1) (timeline k (runsOf (chosen rest)))
      (entriesOf k (disk.collected cfg scope).entries) := by
  rw [collected, hch]
  apply survivors_cancels
  intro k
  have hd := (hlog.readable k).descending
  rw [entriesOf_flatten, hchain, timeline_append, timeline_append] at hd
  exact (descending_left (descending_right hd)).sublist (timeline_chosen_sublist k rest)

include hlog in
theorem readable_swapped (h : chosen (disk.marks cfg scope) ≠ []) (k : OutputKey) :
    ∀ run ∈ (swappedIndex cfg scope disk).chain, Readable (entriesOf k run) := by
  obtain ⟨front, rest, hch, hnewer, hchain, hswapped⟩ := swapped_chains h
  have hread := readable_chain hlog k
  rw [hswapped, hnewer]
  intro run hrun
  simp only [hchain, mem_append] at hread hrun
  rcases hrun with (hrun | hrun) | hrun | hrun
  · exact hread run (.inl hrun)
  · have hsub : (retained rest).Sublist (rest.map Prod.fst) := filter_sublist.map _
    exact hread run (.inr (.inl ((hsub.reverse.map _).subset hrun)))
  · have hall := (hlog.readable k)
    rw [entriesOf_flatten, hchain, timeline_append, timeline_append] at hall
    have hsel : Readable (timeline k (runsOf (chosen rest))) := by
      apply hall.sublist
      exact ((timeline_chosen_sublist k rest).trans (sublist_append_left _ _)).trans
        (sublist_append_right _ _)
    apply hsel.sublist
    exact ((mem_compacted_runs hrun).filter _).trans
      (survivors_cancels_chosen hlog hch hchain k).sublist
  · exact hread run (.inr (.inr hrun))

include hlog in
theorem length_timeline_swapped (h : chosen (disk.marks cfg scope) ≠ []) (k : OutputKey) :
    (timeline k (swappedIndex cfg scope disk).chain).length ≤ (timeline k disk.chain).length := by
  obtain ⟨front, rest, hch, hnewer, hchain, hswapped⟩ := swapped_chains h
  have hcut : (timeline k (runsOf (disk.compacted cfg scope))).length ≤
      (timeline k (runsOf (chosen rest))).length := by
    rw [timeline_compacted_perm.length_eq]
    exact (survivors_cancels_chosen hlog hch hchain k).sublist.length_le
  have hmarks := (timeline_marks_perm k rest).length_eq
  rw [hswapped, hnewer, hchain]
  simp only [timeline_append, length_append] at hmarks ⊢
  omega

include hlog hch hchain in
theorem shownId_survivors (hnewer : disk.newerChain cfg scope =
      disk.pendingSpills.reverse.map MemoryRun.entries ++ runsOf (retained rest))
    (hb : cfg.fence < before)
    (hnone : newest before (timeline k (disk.newerChain cfg scope)) = none) :
    shownId before (entriesOf k (disk.collected cfg scope).entries ++
        timeline k (runsOf front)) = shownId before (timeline k disk.chain) := by
  have hread := hlog.readable k
  have halt := hlog.alternating k
  rw [entriesOf_flatten, hchain, timeline_append, timeline_append, ← append_assoc] at hread halt
  rw [hnewer, timeline_append, newest_append, Option.or_eq_none_iff] at hnone
  have hlive := live_collected_of_invisible hread.descending halt (timeline_marks_perm k rest)
    (timeline_chosen_sublist k rest) (survivors_cancels_chosen hlog hch hchain k) hb hnone.1 hnone.2
  rw [hchain, timeline_append, timeline_append, ← append_assoc, shownId, shownId, hlive]

include hlog in
theorem shownId_swapped_iff (h : chosen (disk.marks cfg scope) ≠ []) (hb : cfg.fence < before) :
    shownId before (timeline k (swappedIndex cfg scope disk).chain) =
        shownId before (timeline k disk.chain) ↔ Undisturbed cfg scope disk k before := by
  obtain ⟨front, rest, hch, hnewer, hchain, hswapped⟩ := swapped_chains h
  rw [hswapped, timeline_append, timeline_append]
  by_cases hnone : newest before (timeline k (disk.newerChain cfg scope)) = none
  · rw [shownId_append_of_none hnone, ← shownId_survivors hlog hch hchain hnewer hb hnone]
    have hcut : shownId before (timeline k (runsOf (disk.compacted cfg scope)) ++
          timeline k (runsOf front)) =
        shownId before (entriesOf k (disk.collected cfg scope).entries ++
          timeline k (runsOf front)) ↔
        shownId before (timeline k (runsOf (disk.compacted cfg scope))) =
          shownId before (entriesOf k (disk.collected cfg scope).entries) := by
      by_cases hsurv : newest before (entriesOf k (disk.collected cfg scope).entries) = none
      · have hout := newest_compacted_eq_none_iff.mpr hsurv
        rw [shownId_append_of_none hout, shownId_append_of_none hsurv]
        simp [shownId, live, hout, hsurv]
      · rw [shownId_append_of_some hsurv,
          shownId_append_of_some (fun hn => hsurv (newest_compacted_eq_none_iff.mp hn))]
    rw [hcut, shownId_compacted_iff]
    exact ⟨fun heq => ⟨fun hsome => absurd hnone hsome, fun _ => heq⟩, fun hu => hu.cut hnone⟩
  · rw [shownId_append_of_some hnone]
    exact ⟨fun heq => ⟨fun _ => heq, fun hn => absurd hn hnone⟩, fun hu => hu.order hnone⟩

end Swapped

theorem eq_survivorRun {run : MemoryRun} (hfrozen : run.isMutable = false)
    (h : run.entries = survivors fence inputs) : run = survivorRun fence inputs := by
  cases run
  simp_all [survivorRun]

def respentKey : OutputKey := ⟨7, 0⟩

def respentIndex : DiskIndex where
  segments :=
    [⟨0, [OutputKV.newAdd respentKey 1 1], coldReads, List.pairwise_singleton _ _⟩,
      ⟨1, [OutputKV.newDelete respentKey 2], coldReads, List.pairwise_singleton _ _⟩,
      ⟨2, [OutputKV.newAdd respentKey 3 2], coldReads, List.pairwise_singleton _ _⟩]
  pendingSpills := []
  nextIdx := 3
  asyncSpillBusy := false

def acceptAll (_ : Unit) (_ : OutputKV) : Option Unit := some ()

theorem wellFormedLog_respentIndex : WellFormedLog respentIndex.chain.flatten :=
  wellFormedLog_of_keys (by decide)

theorem timeline_respentIndex_le (k : OutputKey) :
    (timeline k respentIndex.chain).length ≤ probePageEntries := by
  rw [← entriesOf_flatten]
  exact (length_filter_le _ _).trans (by decide)

end BlvmNode
