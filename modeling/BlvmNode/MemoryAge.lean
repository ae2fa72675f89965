import BlvmNode.RunMerge

/-!
# Memory ages

One tier of the index: runs from the oldest to the newest, the last of which may be the mutable
tip. Runs are shared by reference, so each carries the address of its allocation; a merge
removes its sources by address.
-/

namespace BlvmNode

open KeyedRuns Timeline List

namespace MemoryRun

def newMutable : MemoryRun := ⟨[], true, List.Pairwise.nil⟩

/-- The tip merge of `append_and_rebuild`. -/
def rebuiltEntries (base new : List OutputKV) : List OutputKV :=
  if new.isEmpty then base
  else if base.isEmpty then sortEntries new
  else KWayMerge.kWayMerge OutputKV.le [base, sortEntries new]

theorem rebuiltEntries_perm (base new : List OutputKV) :
    (rebuiltEntries base new).Perm (new ++ base) := by
  unfold rebuiltEntries
  split_ifs with hn hb
  · rw [isEmpty_iff.mp hn]
    exact Perm.refl _
  · rw [isEmpty_iff.mp hb, append_nil]
    exact sortEntries_perm new
  · refine (KWayMerge.kWayMerge_perm _).trans ?_
    rw [flatten_cons, flatten_cons, flatten_nil, append_nil]
    exact perm_append_comm.trans ((sortEntries_perm new).append_right base)

theorem sorted_rebuiltEntries {base : List OutputKV} (hb : Sorted base) (new : List OutputKV) :
    Sorted (rebuiltEntries base new) := by
  unfold rebuiltEntries
  split_ifs
  · exact hb
  · exact sorted_sortEntries new
  · refine KWayMerge.kWayMerge_pairwise ?_
    intro run hrun
    rcases mem_pair.mp hrun with rfl | rfl
    · exact hb
    · exact sorted_sortEntries new

def appendAndRebuild (run : MemoryRun) (new : List OutputKV) : MemoryRun :=
  ⟨rebuiltEntries run.entries new, run.isMutable, sorted_rebuiltEntries run.sorted new⟩

def freeze (run : MemoryRun) : MemoryRun := { run with isMutable := false }

end MemoryRun

open MemoryRun

/-- An `Arc<MemoryRun>`: the run and the address that identifies it. -/
structure RunRef where
  ptr : ℕ
  run : MemoryRun

structure MemoryAge where
  isMutable : Bool
  mergeFanIn : ℕ
  spillEarlyTake : ℕ
  runs : List RunRef
  pins : List ℤ
  mergedTo : ℤ
  isMerging : Bool

variable {age age' : MemoryAge} {front : List RunRef} {last : RunRef}

namespace MemoryAge

def new (isMutable : Bool) (mergeFanIn : ℕ) : MemoryAge :=
  ⟨isMutable, mergeFanIn, 0, [], [], i32Min, false⟩

def pinHeight (age : MemoryAge) (height : ℤ) : MemoryAge :=
  { age with pins := if height ∈ age.pins then age.pins else height :: age.pins }

def unpinHeight (age : MemoryAge) (height : ℤ) : MemoryAge :=
  { age with pins := age.pins.filter (fun h => decide (h ≠ height)) }

/-- `try_append_in_place`: the tip is extended where it stands, unless it or the run list is shared
(`contended`), or it is missing, frozen or full. -/
def tryAppendInPlace (runMax : ℕ) (contended : Bool) (entries : List OutputKV)
    (age : MemoryAge) : Option MemoryAge :=
  if contended then none
  else
    match age.runs.getLast? with
    | none => none
    | some last =>
      if last.run.isMutable = false ∨ runMax < last.run.len + entries.length then none
      else some { age with
        runs := age.runs.dropLast ++ [⟨last.ptr, last.run.appendAndRebuild entries⟩] }

/-- `append_slow_path`: extend a clone of the tip, freeze a full tip and start a new one, or start
the first. New allocations are `fresh` and `fresh + 1`. -/
def appendSlowPath (runMax fresh : ℕ) (entries : List OutputKV) (age : MemoryAge) : MemoryAge :=
  match age.runs.getLast? with
  | some last =>
    if last.run.isMutable then
      if last.run.len + entries.length ≤ runMax then
        { age with
          runs := age.runs.dropLast ++ [⟨fresh, last.run.appendAndRebuild entries⟩] }
      else
        { age with
          runs := age.runs.dropLast ++ [⟨fresh, last.run.freeze⟩,
            ⟨fresh + 1, MemoryRun.newMutable.appendAndRebuild entries⟩] }
    else { age with
      runs := age.runs ++ [⟨fresh, MemoryRun.newMutable.appendAndRebuild entries⟩] }
  | none => { age with
      runs := age.runs ++ [⟨fresh, MemoryRun.newMutable.appendAndRebuild entries⟩] }

/-- `append`: in place, else staged, with a second in-place attempt before the slow path. -/
def append (runMax fresh : ℕ) (contended contendedAgain : Bool) (entries : List OutputKV)
    (age : MemoryAge) : MemoryAge :=
  match age.tryAppendInPlace runMax contended entries with
  | some age' => age'
  | none =>
    match age.tryAppendInPlace runMax contendedAgain entries with
    | some age' => age'
    | none => age.appendSlowPath runMax fresh entries

def pushFrozenRun (age : MemoryAge) (ref : RunRef) : MemoryAge :=
  { age with runs := age.runs ++ [ref] }

def minPinHeight (age : MemoryAge) : Option ℤ := age.pins.min?

/-- How many of the oldest runs lie strictly below every pin. -/
def mergeablePrefixLen (runs : List RunRef) : Option ℤ → ℕ
  | none => runs.length
  | some pin => (runs.takeWhile (fun r => decide (r.run.heightRange.2 < pin))).length

def minPartialMerge : ℕ := 1

def mergeTakeCount (runCount mergeable fanIn spillEarly : ℕ) : Option ℕ :=
  if mergeable = 0 then none
  else if 0 < spillEarly ∧ spillEarly ≤ mergeable then
    some (min (min mergeable spillEarly) fanIn)
  else if fanIn * 2 ≤ runCount ∧ minPartialMerge ≤ mergeable then
    some (min (min mergeable 2) fanIn)
  else if fanIn ≤ mergeable then some fanIn
  else if fanIn ≤ runCount ∧ minPartialMerge ≤ mergeable then some (min mergeable fanIn)
  else none

def takeCount (age : MemoryAge) : Option ℕ :=
  mergeTakeCount age.runs.length (mergeablePrefixLen age.runs age.minPinHeight) age.mergeFanIn
    age.spillEarlyTake

def takeForMerge (age : MemoryAge) : Option (List RunRef × MemoryAge) :=
  if age.isMerging then none
  else age.takeCount.map (fun n => (age.runs.take n, { age with isMerging := true }))

def completeMerge (age : MemoryAge) (mergedHeight : ℤ) (taken : List RunRef) : MemoryAge :=
  { age with
    runs := age.runs.filter (fun r => decide (r.ptr ∉ taken.map RunRef.ptr))
    mergedTo := max age.mergedTo mergedHeight
    isMerging := false }

def chain (age : MemoryAge) : List (List OutputKV) :=
  age.runs.reverse.map (fun r => r.run.entries)

theorem tryAppendInPlace_eq_some {runMax : ℕ} {contended : Bool} {entries : List OutputKV}
    (h : age.tryAppendInPlace runMax contended entries = some age') :
    contended = false ∧ ∃ front last, age.runs = front ++ [last] ∧ last.run.isMutable ∧
      last.run.len + entries.length ≤ runMax ∧
      age' = { age with runs := front ++ [⟨last.ptr, last.run.appendAndRebuild entries⟩] } := by
  unfold tryAppendInPlace at h
  rcases eq_nil_or_concat' age.runs with hr | ⟨front, last, hr⟩
  · simp [hr] at h
  · simp only [hr, getLast?_concat, dropLast_concat] at h
    split_ifs at h with hc hf
    rw [not_or, Bool.not_eq_false, not_lt] at hf
    cases h
    exact ⟨by simpa using hc, front, last, hr, hf.1, hf.2, rfl⟩

/-- An append extends the tip in place or as a new allocation, freezes a full tip and starts a new
one, or starts the first one. -/
theorem append_cases (runMax fresh : ℕ) (contended contendedAgain : Bool)
    (entries : List OutputKV) (age : MemoryAge) :
    ∃ runs', age.append runMax fresh contended contendedAgain entries = { age with runs := runs' } ∧
      ((∃ front last p, age.runs = front ++ [last] ∧ last.run.isMutable ∧
          last.run.len + entries.length ≤ runMax ∧
          (p = last.ptr ∧ (contended = false ∨ contendedAgain = false) ∨ p = fresh) ∧
          runs' = front ++ [⟨p, last.run.appendAndRebuild entries⟩]) ∨
        (∃ front last, age.runs = front ++ [last] ∧ last.run.isMutable ∧
          runMax < last.run.len + entries.length ∧
          runs' = front ++ [⟨fresh, last.run.freeze⟩,
            ⟨fresh + 1, newMutable.appendAndRebuild entries⟩]) ∨
        ((∀ last ∈ age.runs.getLast?, last.run.isMutable = false) ∧
          runs' = age.runs ++ [⟨fresh, newMutable.appendAndRebuild entries⟩])) := by
  unfold append
  cases h₁ : age.tryAppendInPlace runMax contended entries with
  | some age' =>
    obtain ⟨hc, front, last, hr, hm, hfit, rfl⟩ := tryAppendInPlace_eq_some h₁
    exact ⟨_, rfl, .inl ⟨front, last, last.ptr, hr, hm, hfit, .inl ⟨rfl, .inl hc⟩, rfl⟩⟩
  | none =>
    cases h₂ : age.tryAppendInPlace runMax contendedAgain entries with
    | some age' =>
      obtain ⟨hc, front, last, hr, hm, hfit, rfl⟩ := tryAppendInPlace_eq_some h₂
      exact ⟨_, rfl, .inl ⟨front, last, last.ptr, hr, hm, hfit, .inl ⟨rfl, .inr hc⟩, rfl⟩⟩
    | none =>
      simp only [appendSlowPath]
      rcases eq_nil_or_concat' age.runs with hr | ⟨front, last, hr⟩
      · exact ⟨_, by simp [hr], .inr (.inr ⟨by simp [hr], rfl⟩)⟩
      · simp only [hr, getLast?_concat, dropLast_concat]
        split_ifs with hm hfit
        · exact ⟨_, rfl, .inl ⟨front, last, fresh, rfl, hm, hfit, .inr rfl, rfl⟩⟩
        · exact ⟨_, rfl, .inr (.inl ⟨front, last, rfl, hm, by omega, rfl⟩)⟩
        · exact ⟨_, rfl, .inr (.inr ⟨by simpa using hm, rfl⟩)⟩

theorem chain_concat (h : age.runs = front ++ [last]) :
    age.chain = last.run.entries :: (front.reverse.map (fun r => r.run.entries)) := by
  simp [chain, h]

section

variable (runMax fresh : ℕ) (contended contendedAgain : Bool) (entries : List OutputKV)

theorem append_chain (age : MemoryAge) : (∃ tip rest, age.chain = tip :: rest ∧ Sorted tip ∧
      (age.append runMax fresh contended contendedAgain entries).chain =
        rebuiltEntries tip entries :: rest) ∨
    (age.append runMax fresh contended contendedAgain entries).chain =
      rebuiltEntries [] entries :: age.chain := by
  obtain ⟨runs', heq, hcases⟩ :=
    append_cases runMax fresh contended contendedAgain entries age
  rw [heq]
  rcases hcases with ⟨front, last, p, hr, -, -, -, rfl⟩ | ⟨front, last, hr, -, -, rfl⟩ | ⟨-, rfl⟩
  · refine .inl ⟨_, _, chain_concat hr, last.run.sorted, ?_⟩
    simp [chain, appendAndRebuild]
  · right
    simp [chain, hr, freeze, appendAndRebuild, newMutable]
  · right
    simp [chain, appendAndRebuild, newMutable]

theorem append_flatten_perm (age : MemoryAge) :
    (age.append runMax fresh contended contendedAgain entries).chain.flatten.Perm
      (entries ++ age.chain.flatten) := by
  rcases append_chain runMax fresh contended contendedAgain entries age with
    ⟨tip, rest, hc, -, hc'⟩ | hc'
  · rw [hc, hc', flatten_cons, flatten_cons, ← append_assoc]
    exact (rebuiltEntries_perm tip entries).append_right _
  · rw [hc', flatten_cons]
    refine Perm.append_right _ ?_
    simpa using rebuiltEntries_perm [] entries

end

variable {k : OutputKey}

theorem entriesOf_rebuilt {tip entries : List OutputKV} (ht : Sorted tip)
    (hd : Descending (entriesOf k entries ++ entriesOf k tip)) :
    entriesOf k (rebuiltEntries tip entries) = entriesOf k entries ++ entriesOf k tip := by
  have hperm : (rebuiltEntries tip entries).Perm [entries, tip].flatten := by
    simpa using rebuiltEntries_perm tip entries
  have hdesc : Descending (timeline k [entries, tip]) := by simpa using hd
  simpa using entriesOf_merged hperm
    (Sorted.entriesOf_heights (sorted_rebuiltEntries ht entries) k) hdesc

theorem append_timeline (runMax fresh : ℕ) (contended contendedAgain : Bool)
    {entries : List OutputKV} (hd : Descending (entriesOf k entries ++ timeline k age.chain)) :
    timeline k (age.append runMax fresh contended contendedAgain entries).chain =
      entriesOf k entries ++ timeline k age.chain := by
  rcases append_chain runMax fresh contended contendedAgain entries age with
    ⟨tip, rest, hc, ht, hc'⟩ | hc'
  · rw [hc] at hd ⊢
    rw [timeline_cons, ← append_assoc] at hd
    rw [hc', timeline_cons, timeline_cons, entriesOf_rebuilt ht (descending_left hd), append_assoc]
  · rw [hc', timeline_cons, entriesOf_rebuilt Pairwise.nil (by simpa using descending_left hd)]
    simp

end MemoryAge

/-- The runs are allocations of their own, all of them made before `nextPtr`. -/
structure FreshRuns (nextPtr : ℕ) (runs : List RunRef) : Prop where
  ptrNodup : (runs.map RunRef.ptr).Nodup
  ptrLt : ∀ r ∈ runs, r.ptr < nextPtr

namespace FreshRuns

variable {p q : ℕ} {runs : List RunRef}

theorem mono (h : FreshRuns p runs) (hpq : p ≤ q) : FreshRuns q runs :=
  ⟨h.ptrNodup, fun r hr => (h.ptrLt r hr).trans_le hpq⟩

theorem sublist {kept : List RunRef} (h : FreshRuns p runs) (hs : kept.Sublist runs) :
    FreshRuns p kept :=
  ⟨h.ptrNodup.sublist (hs.map _), fun r hr => h.ptrLt r (hs.subset hr)⟩

theorem concat (h : FreshRuns p runs) {ref : RunRef} (hp : p ≤ ref.ptr) (hq : ref.ptr < q) :
    FreshRuns q (runs ++ [ref]) := by
  constructor
  · rw [map_append, map_cons, map_nil, nodup_append]
    refine ⟨h.ptrNodup, nodup_singleton _, ?_⟩
    intro a ha b hb
    obtain ⟨r, hr, rfl⟩ := mem_map.mp ha
    rw [mem_singleton.mp hb]
    exact ((h.ptrLt r hr).trans_le hp).ne
  · rw [forall_mem_append, forall_mem_singleton]
    exact ⟨fun r hr => ((h.ptrLt r hr).trans_le hp).trans hq, hq⟩

theorem replace (h : FreshRuns p (front ++ [last]))
    (run : MemoryRun) : FreshRuns p (front ++ [⟨last.ptr, run⟩]) := by
  obtain ⟨hnd, hlt⟩ := h
  rw [forall_mem_append, forall_mem_singleton] at hlt
  constructor
  · simpa using hnd
  · rw [forall_mem_append, forall_mem_singleton]
    exact hlt

end FreshRuns

namespace MemoryAge

theorem append_freshRuns {p : ℕ} (h : FreshRuns p age.runs) (runMax : ℕ)
    (contended contendedAgain : Bool) (entries : List OutputKV) :
    FreshRuns (p + 2) (age.append runMax p contended contendedAgain entries).runs := by
  obtain ⟨runs', heq, hcases⟩ := append_cases runMax p contended contendedAgain entries age
  rw [heq]
  rcases hcases with ⟨front, last, q, hr, -, -, hq, rfl⟩ | ⟨front, last, hr, -, -, rfl⟩ | ⟨-, rfl⟩
  · rw [hr] at h
    rcases hq with ⟨rfl, -⟩ | rfl
    · exact (h.replace _).mono (Nat.le_add_right p 2)
    · exact (h.sublist (sublist_append_left _ _)).concat le_rfl
        (Nat.lt_add_of_pos_right Nat.two_pos)
  · rw [hr] at h
    have hfront := h.sublist (sublist_append_left _ _)
    have hfrozen : FreshRuns (p + 1) (front ++ [⟨p, last.run.freeze⟩]) :=
      hfront.concat le_rfl (Nat.lt_succ_self p)
    rw [append_cons]
    exact hfrozen.concat le_rfl (Nat.lt_succ_self (p + 1))
  · exact h.concat le_rfl (Nat.lt_add_of_pos_right Nat.two_pos)

theorem takeForMerge_eq_some {taken : List RunRef} (h : age.takeForMerge = some (taken, age')) :
    age.isMerging = false ∧ age' = { age with isMerging := true } ∧
      ∃ n, age.takeCount = some n ∧ taken = age.runs.take n := by
  unfold takeForMerge at h
  split_ifs at h with hm
  rw [Option.map_eq_some_iff] at h
  obtain ⟨n, hn, hpair⟩ := h
  rw [Prod.mk.injEq] at hpair
  exact ⟨by simpa using hm, hpair.2.symm, n, hn, hpair.1.symm⟩

theorem filter_not_taken (taken rest : List RunRef) (h : ((taken ++ rest).map RunRef.ptr).Nodup) :
    (taken ++ rest).filter (fun r => decide (r.ptr ∉ taken.map RunRef.ptr)) = rest := by
  rw [map_append, nodup_append] at h
  rw [filter_append]
  have htaken : taken.filter (fun r => decide (r.ptr ∉ taken.map RunRef.ptr)) = [] := by
    rw [filter_eq_nil_iff]
    intro r hr
    simpa using ⟨r, hr, rfl⟩
  have hrest : rest.filter (fun r => decide (r.ptr ∉ taken.map RunRef.ptr)) = rest := by
    rw [filter_eq_self]
    intro r hr
    simp only [decide_eq_true_eq]
    intro hmem
    exact h.2.2 r.ptr hmem r.ptr (mem_map_of_mem hr) rfl
  rw [htaken, hrest, nil_append]

end MemoryAge

end BlvmNode
