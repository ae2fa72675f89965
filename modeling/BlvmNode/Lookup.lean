import BlvmNode.MemoryRun

/-!
# Batch lookups along a chain of runs

A batch is a list of keys, each with the id found so far. Runs are asked one after another, and
only for the keys that are still unresolved, so the first run that reports a key decides it.
-/

namespace BlvmNode

open KeyedRuns Timeline List

abbrev Slot := OutputKey × OutputId

/-- `ids.contains(&OutputId::MAX)`. -/
def unresolved (slots : List Slot) : Bool := slots.any (fun s => decide (s.2 = outputIdMax))

def batchLookup (lookup : OutputKey → Option OutputId) (slots : List Slot) : List Slot :=
  slots.map (fun s => if s.2 = outputIdMax then (s.1, (lookup s.1).getD s.2) else s)

def batchRuns (lookups : List (OutputKey → Option OutputId)) (slots : List Slot) : List Slot :=
  lookups.foldl (fun slots lookup => if unresolved slots then batchLookup lookup slots else slots)
    slots

def firstHit (lookups : List (OutputKey → Option OutputId)) (k : OutputKey) : Option OutputId :=
  lookups.findSome? (fun lookup => (lookup k).filter (fun id => decide (id ≠ outputIdMax)))

def resolveSlot (lookups : List (OutputKey → Option OutputId)) (s : Slot) : Slot :=
  if s.2 = outputIdMax then (s.1, (firstHit lookups s.1).getD outputIdMax) else s

variable {slots : List Slot}

theorem batchLookup_of_resolved {lookup : OutputKey → Option OutputId}
    (h : unresolved slots = false) : batchLookup lookup slots = slots := by
  have hne : ∀ s ∈ slots, s.2 ≠ outputIdMax := by
    simpa [unresolved] using h
  refine (map_congr_left fun s hs => ?_).trans (map_id slots)
  rw [if_neg (hne s hs)]
  rfl

variable (lookup : OutputKey → Option OutputId)
  (lookups lookups' : List (OutputKey → Option OutputId))

theorem batchStep_eq (slots : List Slot) :
    (if unresolved slots then batchLookup lookup slots else slots) = batchLookup lookup slots := by
  cases h : unresolved slots with
  | true => rfl
  | false => simp [batchLookup_of_resolved h]

theorem resolveSlot_cons (lookups : List (OutputKey → Option OutputId)) (s : Slot) :
    resolveSlot (lookup :: lookups) s = resolveSlot lookups
        (if s.2 = outputIdMax then (s.1, (lookup s.1).getD s.2) else s) := by
  obtain ⟨k, id⟩ := s
  by_cases hid : id = outputIdMax
  · subst hid
    cases hl : lookup k with
    | none => simp [resolveSlot, firstHit, hl]
    | some found =>
      by_cases hf : found = outputIdMax <;> simp [resolveSlot, firstHit, hl, hf, Option.filter_some]
  · simp [resolveSlot, hid]

theorem batchRuns_eq_map (lookups : List (OutputKey → Option OutputId)) (slots : List Slot) :
    batchRuns lookups slots = slots.map (resolveSlot lookups) := by
  induction lookups generalizing slots with
  | nil =>
    refine ((map_congr_left fun s _ => ?_).trans (map_id slots)).symm
    obtain ⟨k, id⟩ := s
    by_cases hid : id = outputIdMax <;> simp [resolveSlot, firstHit, hid]
  | cons lookup lookups ih =>
    rw [batchRuns, foldl_cons, batchStep_eq]
    refine (ih (batchLookup lookup slots)).trans ?_
    rw [batchLookup, map_map]
    refine map_congr_left fun s _ => ?_
    rw [resolveSlot_cons]
    rfl

theorem batchRuns_append (slots : List Slot) :
    batchRuns (lookups ++ lookups') slots = batchRuns lookups' (batchRuns lookups slots) :=
  foldl_append

theorem batchRuns_of_resolved {lookups : List (OutputKey → Option OutputId)}
    (h : unresolved slots = false) : batchRuns lookups slots = slots := by
  rw [batchRuns_eq_map]
  refine (map_congr_left fun s hs => ?_).trans (map_id slots)
  have hne : s.2 ≠ outputIdMax := by simpa using any_eq_false.mp h s hs
  exact if_neg hne

theorem outputIdDeleted_ne_max : outputIdDeleted ≠ outputIdMax := by decide

def scans (before : ℤ) (chain : List (List OutputKV)) : List (OutputKey → Option OutputId) :=
  chain.map (fun run key => scanKey key 0 before (entriesOf key run))

theorem scans_append (before : ℤ) (chain chain' : List (List OutputKV)) :
    scans before (chain ++ chain') = scans before chain ++ scans before chain' :=
  map_append

/-- What the timelines of a key must satisfy for first-hit lookups to read them off. -/
structure Readable (l : List OutputKV) : Prop where
  descending : Descending l
  nonneg : ∀ e ∈ l, 0 ≤ e.height
  tableIds : ∀ e ∈ l, e.isAdd = true → IsTableId e.id

instance decidableReadable (l : List OutputKV) : Decidable (Readable l) :=
  decidable_of_iff (Descending l ∧ (∀ e ∈ l, 0 ≤ e.height) ∧
      ∀ e ∈ l, e.isAdd = true → IsTableId e.id)
    ⟨fun h => ⟨h.1, h.2.1, h.2.2⟩, fun h => ⟨h.1, h.2, h.3⟩⟩

variable {chain : List (List OutputKV)} {k : OutputKey} {before : ℤ}

theorem Readable.sublist {l m : List OutputKV} (h : Readable l) (hs : m.Sublist l) :
    Readable m :=
  ⟨h.descending.sublist hs, fun e he => h.nonneg e (hs.subset he),
    fun e he => h.tableIds e (hs.subset he)⟩

theorem entryId_ne_max {l : List OutputKV} (h : Readable l) {e : OutputKV} (he : e ∈ l) :
    entryId e ≠ outputIdMax := by
  unfold entryId
  split_ifs with ha
  · exact (h.tableIds e he ha).1
  · exact outputIdDeleted_ne_max

/-- First-hit lookup over a chain returns the first visible entry of the key's timeline. -/
theorem firstHit_scans_runs (h : ∀ run ∈ chain, Readable (entriesOf k run)) :
    firstHit (scans before chain) k = (newest before (timeline k chain)).map entryId := by
  induction chain with
  | nil => rfl
  | cons run chain ih =>
    rw [forall_mem_cons] at h
    have hscan : scanKey k 0 before (entriesOf k run) =
        (newest before (entriesOf k run)).map entryId :=
      scanKey_descending (fun e he => (mem_entriesOf.mp he).2) h.1.nonneg h.1.descending
    rw [timeline_cons, newest_append]
    simp only [firstHit, scans, map_cons, findSome?_cons, hscan]
    cases hn : newest before (entriesOf k run) with
    | none => simpa [firstHit, scans] using ih h.2
    | some e => simp [Option.filter_some, entryId_ne_max h.1 (mem_of_newest hn)]

theorem Readable.of_timeline
    (h : Readable (timeline k chain)) {run : List OutputKV} (hrun : run ∈ chain) :
    Readable (entriesOf k run) := by
  apply h.sublist
  obtain ⟨front, back, rfl⟩ := append_of_mem hrun
  rw [timeline_append, timeline_cons]
  exact (sublist_append_left _ _).trans (sublist_append_right _ _)

theorem firstHit_scans (h : Readable (timeline k chain)) :
    firstHit (scans before chain) k = (newest before (timeline k chain)).map entryId :=
  firstHit_scans_runs (fun _ hrun => h.of_timeline hrun)

/-- Per key, Adds and Deletes alternate from an Add on, at distinct heights. -/
structure WellFormedLog (log : List OutputKV) : Prop where
  readable : ∀ k, Readable (entriesOf k log)
  alternating : ∀ k, Alternating (entriesOf k log)

theorem WellFormedLog.of_append {new log : List OutputKV} (h : WellFormedLog (new ++ log)) :
    WellFormedLog log := by
  refine ⟨fun k => ?_, fun k => ?_⟩
  · exact (h.readable k).sublist ((sublist_append_right ..).filter _)
  · have := h.alternating k
    rw [entriesOf_append] at this
    exact alternating_right this

theorem readable_nil : Readable [] :=
  ⟨Pairwise.nil, nofun, nofun⟩

theorem wellFormedLog_of_keys {log : List OutputKV}
    (h : ∀ e ∈ log, Readable (entriesOf e.key log) ∧ Alternating (entriesOf e.key log)) :
    WellFormedLog log := by
  have hall : ∀ k, Readable (entriesOf k log) ∧ Alternating (entriesOf k log) := by
    intro k
    by_cases hk : ∃ e ∈ log, e.key = k
    · obtain ⟨e, he, rfl⟩ := hk
      exact h e he
    · rw [entriesOf_eq_nil (fun e he heq => hk ⟨e, he, heq⟩)]
      exact ⟨readable_nil, trivial⟩
  exact ⟨fun k => (hall k).1, fun k => (hall k).2⟩

end BlvmNode
