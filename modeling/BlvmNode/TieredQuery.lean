import BlvmNode.TieredRefinement

/-!
# Queries of the tiered index

In a run whose merges skip no run with a key of theirs, a batch query answers every key as the
flat log does. A merge that is spilled past a deeper age breaks this: the older entries in that
age are found first.
-/

namespace BlvmNode

open KeyedRuns Timeline List UtxoIndex OutputKV IndexStep MergeConfig

/-- The id of the newest entry below `before` if it is an Add, and otherwise no table record's id.
-/
def LogAnswers (before : ℤ) (log : List OutputKV) (s : Slot) : Prop :=
  match live before (entriesOf s.1 log) with
  | some e => s.2 = e.id
  | none => ¬ IsTableId s.2

variable {idx : UtxoIndex} {before : ℤ} {log : List OutputKV} {s : Slot} {keys : List OutputKey}

theorem not_isTableId_max : ¬ IsTableId outputIdMax := by decide

theorem not_isTableId_deleted : ¬ IsTableId outputIdDeleted := by decide

theorem answer_eq {k : OutputKey} (hfit : idx.disk.FitsPages)
    (h : Readable (timeline k idx.chain)) :
    idx.answer before k = match newest before (timeline k idx.chain) with
      | some e => entryId e
      | none => outputIdMax := by
  rw [answer, lookups_eq_scans hfit, firstHit_scans h]
  cases newest before (timeline k idx.chain) <;> rfl

theorem logAnswers_of_live (hfit : idx.disk.FitsPages)
    (hs : s ∈ idx.batchQuery (keys.map (fun k => (k, outputIdMax))) before)
    (hread : Readable (timeline s.1 idx.chain))
    (hlive : live before (timeline s.1 idx.chain) = live before (entriesOf s.1 log)) :
    LogAnswers before log s := by
  obtain ⟨-, hid⟩ := mem_batchQuery hs
  rw [answer_eq hfit hread] at hid
  unfold LogAnswers
  rw [← hlive, live]
  cases hn : newest before (timeline s.1 idx.chain) with
  | none =>
    rw [hn] at hid
    rcases hid with hid | ⟨-, hid⟩ <;> simpa [hid] using not_isTableId_max
  | some e =>
    rw [hn] at hid
    cases ha : e.isAdd with
    | true =>
      have hnd := (hread.tableIds e (mem_of_newest hn) ha).2
      simp only [entryId, ha, if_true] at hid
      simp only [Option.filter_some, versioned_isAdd, ha, if_true]
      exact hid.resolve_right (fun hdel => hnd hdel.1)
    | false =>
      simp only [entryId, ha, Bool.false_eq_true, if_false] at hid
      simp only [Option.filter_some, versioned_isAdd, ha, Bool.false_eq_true, if_false]
      rcases hid with hid | ⟨-, hid⟩
      · rw [hid]
        exact not_isTableId_deleted
      · rw [hid]
        exact not_isTableId_max

/-- With at most a page of entries per key in the log, no segment has more. -/
theorem Refines.fitsPages (h : Refines before log idx)
    (hlen : ∀ k, (entriesOf k log).length ≤ probePageEntries) : idx.disk.FitsPages := by
  apply DiskIndex.fitsPages_of_timeline
  intro k
  have hsub : (timeline k idx.disk.chain).Sublist (timeline k idx.chain) :=
    (sublist_append_right _ _).flatMap _
  exact (hsub.trans (h.cancels k).sublist).length_le.trans (hlen k)

theorem Refines.logAnswers (h : Refines before log idx) (hfit : idx.disk.FitsPages)
    (hlog : WellFormedLog log)
    (hs : s ∈ idx.batchQuery (keys.map (fun k => (k, outputIdMax))) before) :
    LogAnswers before log s := by
  have hcancels := h.cancels s.1
  apply logAnswers_of_live hfit hs ((hlog.readable s.1).sublist hcancels.sublist)
  exact hcancels.live (hlog.alternating s.1) (hlog.readable s.1).descending le_rfl

/-- Two answers that agree with one log name the same record, or both none. -/
theorem LogAnswers.sameRecord {s' : Slot} (h : LogAnswers before log s)
    (h' : LogAnswers before log s') (hkey : s.1 = s'.1) :
    s.2 = s'.2 ∨ ¬ IsTableId s.2 ∧ ¬ IsTableId s'.2 := by
  unfold LogAnswers at h h'
  rw [← hkey] at h'
  generalize live before (entriesOf s.1 log) = answer at h h'
  cases answer with
  | none => exact .inr ⟨h, h'⟩
  | some e => exact .inl (h.trans h'.symm)

theorem LogAnswers.isTableId_iff
    (h : LogAnswers before log s) (hread : Readable (entriesOf s.1 log)) :
    IsTableId s.2 ↔ (live before (entriesOf s.1 log)).isSome := by
  unfold LogAnswers at h
  cases hl : live before (entriesOf s.1 log) with
  | none =>
    rw [hl] at h
    simpa using h
  | some e =>
    rw [hl] at h
    obtain ⟨hmem, hadd, -⟩ := mem_of_live hl
    simpa [h] using hread.tableIds e hmem hadd

theorem batchQuery_keys (idx : UtxoIndex) (keys : List OutputKey) (before : ℤ) :
    (idx.batchQuery (keys.map (fun k => (k, outputIdMax))) before).map Prod.fst = keys := by
  obtain ⟨found, heq, -⟩ := exists_batchQuery_eq_map idx keys before
  rw [heq, map_map]
  exact map_id keys

def spentKey : OutputKey := ⟨0, 0⟩

def createSpent : OutputKV := OutputKV.newAdd spentKey 1 1

/-- A merge with the usual eviction age; `force` is the outcome of the size test. All keys of a
spilled segment are probed. -/
def plainMerge (force : Bool) (fence : ℤ) : MergeConfig :=
  ⟨4, false, false, force, fence, ⟨0, false, ⟨false, fun _ => true⟩⟩⟩

theorem cleanMerge_toNext (fence : ℤ) {i : ℕ} (hi : i + 1 < 4) (idx : UtxoIndex) :
    idx.CleanMerge (plainMerge false fence) i := by
  intro age n _ _
  refine ⟨?_, .inl rfl⟩
  intro e _ e' he'
  simp [skippedChain, plainMerge, destination, oldestAcc,
    effectiveEviction, tipHold, forceDisk, hi] at he'

/-- A spill past nothing but empty ages is clean. -/
theorem cleanMerge_toDisk {cfg : MergeConfig} {i : ℕ} (hdest : cfg.destination i = .disk)
    (hmax : cfg.spill.spillMaxEntries = 0)
    (hnone : (idx.ages.drop (i + 1)).flatMap MemoryAge.chain ++
      idx.disk.pendingSpills.reverse.map MemoryRun.entries = []) : idx.CleanMerge cfg i := by
  intro age n _ _
  refine ⟨?_, .inl hmax⟩
  intro e _ e' he'
  rw [skippedChain, hdest] at he'
  exact absurd (hnone ▸ he') not_mem_nil

theorem evictionInRange_plainMerge (force : Bool) (fence : ℤ) (i : ℕ) :
    (merge (plainMerge force fence) i).EvictionInRange :=
  ⟨by simp [plainMerge, kMutableAges], by simp [plainMerge, kAges]⟩

theorem wellFormedLog_spent : WellFormedLog [newDelete spentKey 9, createSpent] :=
  wellFormedLog_of_keys (by decide)

/-- The creation is merged after a pressure tick, then the spend is appended. -/
def mergedCreation (force : Bool) : List IndexStep :=
  [.append false false [createSpent] 1, .releasePin 1, .setSpillTier 1 1,
    .merge (plainMerge force 0) 0, .append false false [OutputKV.newDelete spentKey 9] 9]

/-- The creation is in the second age when the spend goes to disk. -/
def forcedSteps : List IndexStep :=
  mergedCreation false ++ [.releasePin 9, .merge (plainMerge true 0) 0]

theorem evictionInRange_mergedCreation (force : Bool) :
    ∀ s ∈ mergedCreation force, s.EvictionInRange := by
  simp only [mergedCreation, forall_mem_cons]
  exact ⟨trivial, trivial, trivial, evictionInRange_plainMerge force 0 0, trivial,
    forall_mem_nil _⟩

theorem aboveFences_mergedCreation (force : Bool) : AboveFences 17 (mergedCreation force) := by
  left
  simp [mergedCreation, fences, plainMerge]

theorem cleanRun_mergedCreation : CleanRun 35000 empty (mergedCreation true) :=
  ⟨trivial, trivial, trivial, cleanMerge_toDisk rfl rfl (by decide +kernel), trivial, trivial⟩

theorem refines_mergedCreation :
    Refines 17 (logOf (mergedCreation true)) (runSteps 35000 empty (mergedCreation true)) :=
  refines_runSteps wellFormedLog_spent (evictionInRange_mergedCreation true)
    cleanRun_mergedCreation (aboveFences_mergedCreation true)

end BlvmNode
