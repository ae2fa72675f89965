import BlvmNode.MemoryAge
import BlvmNode.DiskIndex

/-!
# The age-tiered index

Seven memory ages, the newest first, over a disk index. Appends go to the first age; a merge
takes the oldest runs of one age and delivers the result to the next age, to the oldest age that
stays in memory, or to disk.
-/

namespace BlvmNode

open KeyedRuns Timeline List

def kAges : ℕ := 7

def kMutableAges : ℕ := 3

def kFanIn : ℕ := 8

structure UtxoIndex where
  ages : List MemoryAge
  disk : DiskIndex
  contiguousLength : ℤ
  nextPtr : ℕ

/-- What a merge reads: the live eviction age, residency settings, the size test, the fence and
spill settings. -/
structure MergeConfig where
  evictionAge : ℕ
  tipResident : Bool
  oldestAccumulate : Bool
  forceSpill : Bool
  fence : ℤ
  spill : SpillConfig

namespace MergeConfig

def emergencyFloor (cfg : MergeConfig) : Bool := decide (cfg.evictionAge ≤ kMutableAges)

def tipHold (cfg : MergeConfig) : Bool := cfg.tipResident && !cfg.emergencyFloor

def oldestAcc (cfg : MergeConfig) : Bool := cfg.oldestAccumulate && !cfg.emergencyFloor

def forceDisk (cfg : MergeConfig) : Bool := !cfg.tipHold && cfg.forceSpill

def effectiveEviction (cfg : MergeConfig) : ℕ :=
  if cfg.tipHold && !cfg.oldestAcc then kAges else cfg.evictionAge

def wouldLeaveRam (cfg : MergeConfig) (ageIdx : ℕ) : Bool :=
  decide (cfg.effectiveEviction ≤ ageIdx + 1) || cfg.forceDisk

end MergeConfig

inductive Destination where
  | age (i : ℕ)
  | disk
  deriving DecidableEq

def MergeConfig.destination (cfg : MergeConfig) (ageIdx : ℕ) : Destination :=
  if cfg.oldestAcc && cfg.wouldLeaveRam ageIdx && !cfg.forceDisk then
    .age (min (cfg.effectiveEviction - 1) (kAges - 1))
  else if ageIdx + 1 < cfg.effectiveEviction ∧ cfg.forceDisk = false then .age (ageIdx + 1)
  else .disk

namespace UtxoIndex

def empty : UtxoIndex where
  ages := (List.range kAges).map (fun i => MemoryAge.new (decide (i < kMutableAges)) kFanIn)
  disk := DiskIndex.empty
  contiguousLength := -1
  nextPtr := 0

def modifyAge (idx : UtxoIndex) (i : ℕ) (f : MemoryAge → MemoryAge) : UtxoIndex :=
  { idx with ages := idx.ages.modify i f }

/-- `append`: pin the height, append to the first age and raise the contiguous length. -/
def append (runMax : ℕ) (contended contendedAgain : Bool) (entries : List OutputKV)
    (height : ℤ) (idx : UtxoIndex) : UtxoIndex :=
  let idx' := idx.modifyAge 0 (fun age =>
    (age.pinHeight height).append runMax idx.nextPtr contended contendedAgain entries)
  { idx' with
    contiguousLength := max idx.contiguousLength height
    nextPtr := idx.nextPtr + 2 }

def releasePin (height : ℤ) (idx : UtxoIndex) : UtxoIndex :=
  idx.modifyAge 0 (fun age => age.unpinHeight height)

/-- The part of `memory_pressure_tick` that retargets the early-merge marks. -/
def setSpillTier (target take : ℕ) (idx : UtxoIndex) : UtxoIndex :=
  { idx with
    ages := idx.ages.mapIdx (fun i age =>
      { age with spillEarlyTake := if target ≤ i + 1 then take else 0 }) }

def deliver (cfg : MergeConfig) (ageIdx : ℕ) (merged : MemoryRun) (idx : UtxoIndex) :
    UtxoIndex :=
  if merged.entries.isEmpty then idx
  else
    match cfg.destination ageIdx with
    | .age dest =>
      { (idx.modifyAge dest (fun age => age.pushFrozenRun ⟨idx.nextPtr, merged⟩)) with
        nextPtr := idx.nextPtr + 1 }
    | .disk => { idx with disk := idx.disk.pushRunNoCompact cfg.spill merged }

def maxHeight (taken : List RunRef) : ℤ :=
  taken.foldr (fun r m => max r.run.heightRange.2 m) i32Min

/-- `run_merge_for_age`: take, merge, deliver, and only then remove the sources. -/
def runMergeForAge (cfg : MergeConfig) (ageIdx : ℕ) (idx : UtxoIndex) : UtxoIndex :=
  match idx.ages[ageIdx]? with
  | none => idx
  | some age =>
    match age.takeForMerge with
    | none => idx
    | some (taken, age') =>
      let merged := MemoryRun.merge cfg.fence (taken.map RunRef.run)
      let idx := idx.modifyAge ageIdx (fun _ => age')
      let idx := idx.deliver cfg ageIdx merged
      idx.modifyAge ageIdx (fun age => age.completeMerge (maxHeight taken) taken)

def chain (idx : UtxoIndex) : List (List OutputKV) :=
  idx.ages.flatMap MemoryAge.chain ++ idx.disk.chain

end UtxoIndex

namespace MemoryAge

def lookups (age : MemoryAge) (before : ℤ) : List (OutputKey → Option OutputId) :=
  age.runs.reverse.map (fun r key => r.run.lookupKey key 0 before)

def batchQuery (age : MemoryAge) (slots : List Slot) (before : ℤ) : List Slot :=
  batchRuns (age.lookups before) slots

theorem lookups_eq_scans (age : MemoryAge) (before : ℤ) :
    age.lookups before = scans before age.chain := by
  simp only [lookups, chain, scans, map_map]
  refine map_congr_left fun r _ => funext fun key => ?_
  exact r.run.lookupKey_eq key 0 before

end MemoryAge

variable {idx : UtxoIndex} {before : ℤ} {k : OutputKey}

namespace UtxoIndex

def queryAges (ages : List MemoryAge) (slots : List Slot) (before : ℤ) : List Slot :=
  ages.foldl (fun slots age => if unresolved slots then age.batchQuery slots before else slots)
    slots

def batchQuery (idx : UtxoIndex) (slots : List Slot) (before : ℤ) : List Slot :=
  let slots := queryAges idx.ages slots before
  if unresolved slots then idx.disk.batchQuery slots before else slots

theorem queryAges_eq (ages : List MemoryAge) (slots : List Slot) (before : ℤ) :
    queryAges ages slots before =
      batchRuns (scans before (ages.flatMap MemoryAge.chain)) slots := by
  induction ages generalizing slots with
  | nil => rfl
  | cons age ages ih =>
    rw [flatMap_cons, scans_append, batchRuns_append, ← ih]
    simp only [queryAges, foldl_cons, MemoryAge.batchQuery, MemoryAge.lookups_eq_scans]
    cases h : unresolved slots with
    | true => rfl
    | false => rw [batchRuns_of_resolved h]; rfl

/-- What a query asks one after the other: the runs in memory, then the disk. -/
def lookups (idx : UtxoIndex) (before : ℤ) : List (OutputKey → Option OutputId) :=
  scans before (idx.ages.flatMap MemoryAge.chain) ++ idx.disk.lookups before

theorem lookups_eq_scans (h : idx.disk.FitsPages) (before : ℤ) :
    idx.lookups before = scans before idx.chain := by
  rw [lookups, chain, scans_append, DiskIndex.lookups_eq_scans h]

/-- The id a lookup settles on before Delete marks are normalised. -/
def answer (idx : UtxoIndex) (before : ℤ) (k : OutputKey) : OutputId :=
  (firstHit (idx.lookups before) k).getD outputIdMax

/-- A query resolves keys along the whole chain; if one needed the disk, Delete marks become not
found. -/
theorem batchQuery_eq (idx : UtxoIndex) (keys : List OutputKey) (before : ℤ) :
    idx.batchQuery (keys.map (fun k => (k, outputIdMax))) before =
      if unresolved (queryAges idx.ages (keys.map (fun k => (k, outputIdMax))) before) then
        DiskIndex.normalizeDeleted (keys.map (fun k => (k, idx.answer before k)))
      else keys.map (fun k => (k, idx.answer before k)) := by
  have hmap : (keys.map (fun k => (k, outputIdMax))).map (resolveSlot (idx.lookups before)) =
      keys.map (fun k => (k, idx.answer before k)) := by
    rw [map_map]
    rfl
  rw [← hmap, ← batchRuns_eq_map, lookups, batchRuns_append, ← queryAges_eq]
  simp only [batchQuery]
  split_ifs with h
  · rw [DiskIndex.batchQuery_eq, batchRuns_eq_map]
  · rw [batchRuns_of_resolved (Bool.not_eq_true _ ▸ h)]

theorem exists_batchQuery_eq_map (idx : UtxoIndex) (keys : List OutputKey) (before : ℤ) :
    ∃ found : OutputKey → OutputId,
      idx.batchQuery (keys.map (fun k => (k, outputIdMax))) before =
        keys.map (fun k => (k, found k)) ∧
      ∀ k, found k = idx.answer before k ∨
        idx.answer before k = outputIdDeleted ∧ found k = outputIdMax := by
  rw [batchQuery_eq]
  split_ifs
  · refine ⟨fun k => if idx.answer before k = outputIdDeleted then outputIdMax
      else idx.answer before k, ?_, ?_⟩
    · rw [DiskIndex.normalizeDeleted, map_map]
      apply map_congr_left
      intro k _
      by_cases hd : idx.answer before k = outputIdDeleted <;> simp [hd]
    · intro k
      by_cases hd : idx.answer before k = outputIdDeleted
      · exact .inr ⟨hd, if_pos hd⟩
      · exact .inl (if_neg hd)
  · exact ⟨idx.answer before, rfl, fun k => .inl rfl⟩

theorem mem_batchQuery {keys : List OutputKey} {s : Slot}
    (h : s ∈ idx.batchQuery (keys.map (fun k => (k, outputIdMax))) before) :
    s.1 ∈ keys ∧ (s.2 = idx.answer before s.1 ∨
      idx.answer before s.1 = outputIdDeleted ∧ s.2 = outputIdMax) := by
  obtain ⟨found, heq, hfound⟩ := exists_batchQuery_eq_map idx keys before
  rw [heq, mem_map] at h
  obtain ⟨k, hk, rfl⟩ := h
  exact ⟨hk, hfound k⟩

end UtxoIndex

/-- The table id that a query for the key alone returns. -/
def UtxoIndex.resolves (idx : UtxoIndex) (before : ℤ) (k : OutputKey) : Option OutputId :=
  ((idx.batchQuery [(k, outputIdMax)] before).map Prod.snd).find? (fun id => decide (IsTableId id))

/-- Only a table id is taken from an answer, and it is the same in any batch. -/
theorem isTableId_found_iff {found id : OutputId} (h : found = idx.answer before k ∨
      idx.answer before k = outputIdDeleted ∧ found = outputIdMax) :
    found = id ∧ IsTableId id ↔ idx.answer before k = id ∧ IsTableId id := by
  rcases h with rfl | ⟨hdeleted, hmax⟩
  · rfl
  · apply iff_of_false
    · rintro ⟨rfl, hid⟩
      exact hid.1 hmax
    · rintro ⟨rfl, hid⟩
      exact hid.2 hdeleted

theorem resolves_eq_some_iff {id : OutputId} :
    idx.resolves before k = some id ↔ idx.answer before k = id ∧ IsTableId id := by
  obtain ⟨found, heq, hfound⟩ := idx.exists_batchQuery_eq_map [k] before
  rw [map_singleton, map_singleton] at heq
  rw [← isTableId_found_iff (hfound k), UtxoIndex.resolves, heq, map_singleton, find?_singleton]
  by_cases hid : IsTableId (found k)
  · rw [if_pos (decide_eq_true hid), Option.some.injEq]
    exact ⟨fun heq => ⟨heq, heq ▸ hid⟩, And.left⟩
  · rw [if_neg (by simpa using hid)]
    exact iff_of_false (Option.some_ne_none id ∘ Eq.symm) (fun h => hid (h.1 ▸ h.2))

end BlvmNode
