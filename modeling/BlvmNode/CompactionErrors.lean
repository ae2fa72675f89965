import BlvmNode.DiskCompaction

/-!
# Read errors during a compaction

The merge cannot report an error to its caller: a failed read looks like the end of the input, the
shortened output is swapped in and the input files are deleted.
-/

namespace BlvmNode

open KeyedRuns Timeline KWayMerge

variable {σ : Type}

/-- Nothing changes, or the inputs were read to their end and all their survivors are swapped in. -/
inductive AllOrNothing (cfg : CompactConfig) (scope : CompactScope) (disk : DiskIndex)
    (outcome : CompactOutcome σ) : Prop
  | unchanged (hsegs : outcome.disk.segments = disk.segments) (hfiles : outcome.removed = [])
      (hwhy : outcome.sink = none ∨ chosen (disk.marks cfg scope) = [] ∨ scope = .teeScan)
  | complete (new : List DiskSegment)
      (hsegs : outcome.disk.segments = swapSegments (disk.marks cfg scope) new)
      (hall : ∀ e ∈ survivors cfg.fence (chosen (disk.marks cfg scope)),
        e ∈ (new.map DiskSegment.entries).flatten)
      (hread : ∀ r ∈ outcome.leftover, r.remaining = [])

theorem SegmentReader.Broken.remaining_ne_nil {r : SegmentReader} (h : r.Broken) :
    r.remaining ≠ [] := by
  obtain ⟨p, -, hp⟩ := h
  intro hnil
  have hrest : r.rest = [] := (List.append_eq_nil_iff.mp hnil).2
  rw [hrest] at hp
  exact Nat.not_lt_zero p hp

theorem exists_leftover {unreadable : ℕ → Option ℕ} {inputs : List DiskSegment}
    (h : ∃ r ∈ openReaders unreadable inputs, r.Broken) :
    ∃ r ∈ (mergeInputs unreadable inputs).2, r.remaining ≠ [] := by
  obtain ⟨r, hr, hbroken⟩ := (mergeStream_broken (inputCount inputs) _).mpr h
  exact ⟨r, hr, hbroken.remaining_ne_nil⟩

/-- A compaction is all-or-nothing exactly when it writes nothing, its sink refuses an entry, or
every entry of its inputs can be read. -/
theorem compaction_allOrNothing_iff (cfg : CompactConfig) (scope : CompactScope)
    (unreadable : ℕ → Option ℕ) (sink : σ → OutputKV → Option σ) (s : σ) (disk : DiskIndex) :
    AllOrNothing cfg scope disk (disk.doCompact cfg scope unreadable sink s) ↔
      chosen (disk.marks cfg scope) = [] ∨ scope = .teeScan ∨
        (exportTee cfg.checkpointHeight sink s (gcGroups cfg.fence
          (mergeInputs unreadable (chosen (disk.marks cfg scope))).1)).2 = none ∨
        ¬ ∃ r ∈ openReaders unreadable (chosen (disk.marks cfg scope)), r.Broken := by
  have hends := doCompact_ends cfg scope unreadable sink s disk
  generalize disk.doCompact cfg scope unreadable sink s = outcome at hends ⊢
  cases hends with
  | idle hnone => exact iff_of_true (.unchanged rfl rfl (.inr (.inl hnone))) (.inl hnone)
  | scanned left s' hsome htee =>
    exact iff_of_true (.unchanged rfl rfl (.inr (.inr htee))) (.inr (.inl htee))
  | refused left n hsome hwrite hn hsink =>
    exact iff_of_true (.unchanged rfl rfl (.inl rfl)) (.inr (.inr (.inl hsink)))
  | swapped run s' hsome hwrite hfrozen hrun hsink =>
    have haccepted : (exportTee cfg.checkpointHeight sink s (gcGroups cfg.fence
        (mergeInputs unreadable (chosen (disk.marks cfg scope))).1)).2 ≠ none := by
      rw [← hrun, hsink]
      exact Option.some_ne_none s'
    simp only [hsome, hwrite, haccepted, false_or]
    constructor
    · intro hprop hbroken
      cases hprop with
      | unchanged hsegs hfiles hwhy => exact hsome (List.map_eq_nil_iff.mp hfiles)
      | complete new hsegs hall hread =>
        obtain ⟨r, hr, hne⟩ := exists_leftover hbroken
        exact hne (hread r hr)
    · intro hintact
      obtain ⟨hstream, hleft⟩ := mergeInputs_intact hintact
      refine .complete _ rfl ?_ ?_
      · intro e he
        rwa [outputSegments_flatten, hrun, hstream]
      · intro r hr
        rw [List.flatten_eq_nil_iff] at hleft
        exact hleft _ (List.mem_map_of_mem hr)

def twoSegments : DiskIndex where
  segments :=
    [⟨0, [OutputKV.newAdd ⟨1, 0⟩ 1 1], coldReads, List.pairwise_singleton _ _⟩,
      ⟨1, [OutputKV.newAdd ⟨2, 0⟩ 2 2], coldReads, List.pairwise_singleton _ _⟩]
  pendingSpills := []
  nextIdx := 2
  asyncSpillBusy := false

/-- The first file cannot be read, so nothing is merged; both files are deleted all the same. -/
theorem read_error_loses_segments : ¬ AllOrNothing defaultCompaction .allCold twoSegments
        (twoSegments.doCompact defaultCompaction .allCold
          (fun idx => if idx = 0 then some 0 else none) (fun (_ : Unit) _ => some ()) ()) := by
  intro h
  cases h with
  | unchanged hsegs hfiles hwhy => exact absurd hfiles (by decide)
  | complete new hsegs hall hread => exact absurd hread (by decide)

end BlvmNode
