import BlvmNode.RunFilter

/-!
# Memory runs and the key scan

A run is a sorted list of entries. Looking a key up narrows the entries to a slice, seeks the
first entry of the key, and walks the key's entries from the newest to the oldest. The results
below remove the acceleration structures: a lookup is the walk over the key's own entries.
-/

namespace BlvmNode

open KeyedRuns Timeline List OutputKV Directory

/-- The walk of `lookup_key` over the key's entries; an Add followed by a Delete of its height is
skipped with it. -/
def scanKey (key : OutputKey) (since before : ℤ) : List OutputKV → Option OutputId
  | [] => none
  | [e] =>
    if e.key ≠ key then none
    else if e.height < since ∨ before ≤ e.height then none
    else if e.isAdd then some e.id
    else some outputIdDeleted
  | e :: n :: rest =>
    if e.key ≠ key then none
    else if e.height < since ∨ before ≤ e.height then scanKey key since before (n :: rest)
    else if e.isAdd then
      if n.key = key ∧ n.height = e.height ∧ n.isDelete then scanKey key since before rest
      else some e.id
    else some outputIdDeleted

/-- `partition_point` on a sorted slice, then the walk. -/
def searchSlice (key : OutputKey) (since before : ℤ) (slice : List OutputKV) :
    Option OutputId :=
  scanKey key since before (slice.dropWhile (fun e => decide (e.key.toNat < key.toNat)))

variable {key : OutputKey} {since before : ℤ} {e : OutputKV}

theorem scanKey_cons_other
    (h : e.key ≠ key) (l : List OutputKV) : scanKey key since before (e :: l) = none := by
  cases l <;> simp [scanKey, h]

theorem scanKey_cons_invisible
    (h : e.key = key) (hv : e.height < since ∨ before ≤ e.height) (l : List OutputKV) :
    scanKey key since before (e :: l) = scanKey key since before l := by
  cases l <;> simp [scanKey, h, hv]

theorem scanKey_cons_delete
    (h : e.key = key) (hv : ¬ (e.height < since ∨ before ≤ e.height)) (hd : e.isAdd = false)
    (l : List OutputKV) : scanKey key since before (e :: l) = some outputIdDeleted := by
  cases l <;> simp [scanKey, h, hv, hd]

/-- The entry after an Add at the same height is its own Delete. -/
def followedByDelete (e : OutputKV) (l : List OutputKV) : Bool :=
  l.head?.any (fun n => decide (n.key = e.key) && decide (n.height = e.height) && !n.isAdd)

variable {key : OutputKey} {e : OutputKV} {l : List OutputKV} {since before : ℤ}

theorem scanKey_cons_add
    (h : e.key = key) (hv : ¬ (e.height < since ∨ before ≤ e.height)) (ha : e.isAdd)
    (l : List OutputKV) : scanKey key since before (e :: l) =
      if followedByDelete e l then scanKey key since before l.tail else some e.id := by
  cases l with
  | nil => simp [scanKey, h, hv, ha, followedByDelete]
  | cons n rest => simp [scanKey, h, hv, ha, followedByDelete, and_assoc]

theorem takeWhile_cons_key (h : e.key = key)
    (l : List OutputKV) : (e :: l).takeWhile (fun x => decide (x.key = key)) =
      e :: l.takeWhile (fun x => decide (x.key = key)) := by
  simp [h]

theorem followedByDelete_takeWhile (h : e.key = key) (l : List OutputKV) :
    followedByDelete e (l.takeWhile (fun x => decide (x.key = key))) = followedByDelete e l := by
  cases l with
  | nil => rfl
  | cons n rest =>
    by_cases hn : n.key = key
    · rw [takeWhile_cons_key hn]
      rfl
    · simp [followedByDelete, hn, h]

theorem scanKey_takeWhile (key : OutputKey) (since before : ℤ) (l : List OutputKV) :
    scanKey key since before (l.takeWhile (fun e => decide (e.key = key))) =
      scanKey key since before l := by
  induction hn : l.length using Nat.strong_induction_on generalizing l with
  | _ n ih =>
    cases l with
    | nil => rfl
    | cons e l =>
      by_cases hk : e.key = key
      · rw [takeWhile_cons_key hk]
        have hl : l.length < n := by simp [← hn]
        by_cases hv : e.height < since ∨ before ≤ e.height
        · rw [scanKey_cons_invisible hk hv, scanKey_cons_invisible hk hv, ih _ hl l rfl]
        · cases ha : e.isAdd with
          | false => rw [scanKey_cons_delete hk hv ha, scanKey_cons_delete hk hv ha]
          | true =>
            rw [scanKey_cons_add hk hv ha, scanKey_cons_add hk hv ha, followedByDelete_takeWhile hk]
            cases l with
            | nil => rfl
            | cons m rest =>
              by_cases hm : m.key = key
              · rw [takeWhile_cons_key hm, tail_cons, tail_cons,
                  ih rest.length (by simp at hl; omega) rest rfl]
              · simp [followedByDelete, hk, hm]
      · rw [scanKey_cons_other hk]
        simp [hk, scanKey]

theorem entriesOf_of_key_lt (h : ∀ x ∈ l, key.toNat < x.key.toNat) : entriesOf key l = [] := by
  refine entriesOf_eq_nil (fun x hx heq => ?_)
  have hlt := h x hx
  rw [keyed_key] at heq
  exact absurd hlt (by simp [heq])

theorem takeWhile_key (hs : Sorted l) (h : ∀ x ∈ l, key.toNat ≤ x.key.toNat) :
    l.takeWhile (fun e => decide (e.key = key)) = entriesOf key l := by
  induction l with
  | nil => rfl
  | cons e l ih =>
    rw [forall_mem_cons] at h
    by_cases hk : e.key = key
    · rw [takeWhile_cons_key hk, ih hs.tail h.2, entriesOf_cons, keyed_key, if_pos hk]
    · have hlt : key.toNat < e.key.toNat := by
        refine lt_of_le_of_ne h.1 (fun heq => hk ?_)
        exact (OutputKey.toNat_injective heq).symm
      have hall : ∀ x ∈ e :: l, key.toNat < x.key.toNat := by
        refine forall_mem_cons.mpr ⟨hlt, fun x hx => ?_⟩
        exact hlt.trans_le (le_key (rel_of_pairwise_cons hs hx))
      rw [entriesOf_of_key_lt hall]
      simp [hk]

theorem takeWhile_dropWhile_key (hs : Sorted l) (key : OutputKey) :
    (l.dropWhile (fun e => decide (e.key.toNat < key.toNat))).takeWhile
      (fun e => decide (e.key = key)) = entriesOf key l := by
  induction l with
  | nil => rfl
  | cons e l ih =>
    by_cases hlt : e.key.toNat < key.toNat
    · have hne : e.key ≠ key := fun h => by simp [h] at hlt
      rw [dropWhile_cons_of_pos (by simpa using hlt), ih hs.tail, entriesOf_cons,
        keyed_key, if_neg hne]
    · rw [dropWhile_cons_of_neg (by simpa using hlt)]
      refine takeWhile_key hs (forall_mem_cons.mpr ⟨by omega, fun x hx => ?_⟩)
      have := le_key (rel_of_pairwise_cons hs hx)
      omega

/-- Seeking in a sorted slice and walking is the walk over the key's own entries. -/
theorem searchSlice_eq (hs : Sorted l) (key : OutputKey) (since before : ℤ) :
    searchSlice key since before l = scanKey key since before (entriesOf key l) := by
  rw [searchSlice, ← scanKey_takeWhile, takeWhile_dropWhile_key hs]

theorem scanKey_invisible (h : ∀ e ∈ l, e.height < since ∨ before ≤ e.height) :
    scanKey key since before l = none := by
  induction l with
  | nil => rfl
  | cons e l ih =>
    rw [forall_mem_cons] at h
    by_cases hk : e.key = key
    · rw [scanKey_cons_invisible hk h.1, ih h.2]
    · exact scanKey_cons_other hk l

/-- The id a lookup reports for the newest visible entry of a key. -/
def entryId (e : OutputKV) : OutputId := if e.isAdd then e.id else outputIdDeleted

/-- Where no Add is followed by a Delete of its height, the walk stops at the first visible entry.
-/
theorem scanKey_find
    (hk : ∀ e ∈ l, e.key = key) (hl : l.IsChain (fun a b => a.isAdd → b.height ≠ a.height)) :
    scanKey key since before l =
      (l.find? (fun e => decide (since ≤ e.height ∧ e.height < before))).map entryId := by
  induction l with
  | nil => rfl
  | cons e l ih =>
    rw [forall_mem_cons] at hk
    by_cases hv : e.height < since ∨ before ≤ e.height
    · rw [scanKey_cons_invisible hk.1 hv, ih hk.2 hl.tail,
        find?_cons_of_neg (by simp only [decide_eq_true_eq]; omega)]
    · rw [find?_cons_of_pos (by simp only [decide_eq_true_eq]; omega), Option.map_some]
      cases ha : e.isAdd with
      | false => simp [scanKey_cons_delete hk.1 hv ha, entryId, ha]
      | true =>
        have hf : followedByDelete e l = false := by
          cases l with
          | nil => rfl
          | cons n rest => simp [followedByDelete, (isChain_cons_cons.mp hl).1 ha]
        simp [scanKey_cons_add hk.1 hv ha, hf, entryId, ha]

theorem scanKey_descending (hk : ∀ e ∈ l, e.key = key) (h0 : ∀ e ∈ l, 0 ≤ e.height)
    (hd : Descending l) : scanKey key 0 before l = (newest before l).map entryId := by
  have hchain : l.IsChain (fun a b => a.isAdd → b.height ≠ a.height) := by
    refine Pairwise.isChain (Pairwise.imp ?_ hd)
    intro a b hlt _
    exact hlt.ne
  rw [scanKey_find hk hchain, newest]
  congr 1
  refine find?_congr (fun e he => ?_)
  simp [h0 e he, versioned_height]

/-- One run of a memory age, its entries kept in index order. -/
structure MemoryRun where
  entries : List OutputKV
  isMutable : Bool
  sorted : Sorted entries

namespace MemoryRun

def len (run : MemoryRun) : ℕ := run.entries.length

def heightRangeOf (entries : List OutputKV) : ℤ × ℤ :=
  (entries.foldr (fun e m => min e.height m) i32Max,
    entries.foldr (fun e m => max e.height m) i32Min)

def heightRange (run : MemoryRun) : ℤ × ℤ := heightRangeOf run.entries

variable {entries : List OutputKV} (run : MemoryRun)

theorem heightRangeOf_bounds (he : e ∈ entries) :
    (heightRangeOf entries).1 ≤ e.height ∧ e.height ≤ (heightRangeOf entries).2 := by
  induction entries with
  | nil => simp at he
  | cons x xs ih =>
    simp only [heightRangeOf, foldr_cons] at ih ⊢
    rcases mem_cons.mp he with rfl | he
    · omega
    · have := ih he
      omega

def filteredSlice (filter : BloomFilter) (directory : Directory) (entries : List OutputKV)
    (key : OutputKey) : List OutputKV :=
  if filter.mayContain key = false then []
  else
    let range := directory.lookupRange key
    PrefixDirectory.slice range.1 range.2 entries

/-- What `lookup_key` searches: all of a mutable tip; of a frozen run the directory slice, unless
the filter rules the key out. -/
def lookupSlice (run : MemoryRun) (key : OutputKey) : List OutputKV :=
  if run.isMutable then run.entries
  else filteredSlice (BloomFilter.build run.entries) (Directory.build none run.entries)
    run.entries key

def lookupKey (run : MemoryRun) (key : OutputKey) (since before : ℤ) : Option OutputId :=
  if run.heightRange.2 < since ∨ before ≤ run.heightRange.1 then none
  else searchSlice key since before (run.lookupSlice key)

theorem entriesOf_of_filtered {filter : BloomFilter}
    (hfilter : ∀ e ∈ entries, filter.mayContain e.key) (hf : filter.mayContain key = false) :
    entriesOf key entries = [] := by
  refine entriesOf_eq_nil (fun e he heq => ?_)
  rw [keyed_key] at heq
  have := hfilter e he
  rw [heq, hf] at this
  exact Bool.false_ne_true this

/-- Neither a filter without false negatives nor the directory hides an entry of the key. -/
theorem entriesOf_slice (override : Option ℕ) (hs : Sorted entries) {filter : BloomFilter}
    (hfilter : ∀ e ∈ entries, filter.mayContain e.key) (key : OutputKey) :
    Sorted (filteredSlice filter (build override entries) entries key) ∧
      entriesOf key (filteredSlice filter (build override entries) entries key) =
        entriesOf key entries := by
  unfold filteredSlice
  split_ifs with hf
  · exact ⟨Pairwise.nil, (entriesOf_of_filtered hfilter hf).symm⟩
  · obtain ⟨bits, hslice⟩ := slice_lookupRange override hs key
    simp only [hslice]
    refine ⟨Pairwise.filter _ hs, ?_⟩
    rw [entriesOf, entriesOf, filter_filter]
    refine filter_congr (fun e _ => ?_)
    by_cases hk : e.key = key <;> simp [hk]

theorem entriesOf_lookupSlice (key : OutputKey) :
    Sorted (run.lookupSlice key) ∧
      entriesOf key (run.lookupSlice key) = entriesOf key run.entries := by
  unfold lookupSlice
  split_ifs with hm
  · exact ⟨run.sorted, rfl⟩
  · exact entriesOf_slice none run.sorted (fun _ he => BloomFilter.mayContain_build he) key

theorem searchSlice_of_entriesOf (since before : ℤ)
    {slice : List OutputKV} (h : Sorted slice ∧ entriesOf key slice = entriesOf key run.entries) :
    (if run.heightRange.2 < since ∨ before ≤ run.heightRange.1 then none
      else searchSlice key since before slice) =
      scanKey key since before (entriesOf key run.entries) := by
  split_ifs with hr
  · symm
    refine scanKey_invisible (fun e he => ?_)
    have := heightRangeOf_bounds (mem_entriesOf.mp he).1
    simp only [heightRange] at hr
    omega
  · rw [searchSlice_eq h.1, h.2]

theorem lookupKey_eq (key : OutputKey) (since before : ℤ) :
    run.lookupKey key since before = scanKey key since before (entriesOf key run.entries) :=
  run.searchSlice_of_entriesOf since before (run.entriesOf_lookupSlice key)

/-- A lookup of a frozen run with the filter and the directory it was given. -/
def lookupKeyWith (run : MemoryRun) (filter : BloomFilter) (directory : Directory)
    (key : OutputKey) (since before : ℤ) : Option OutputId :=
  if run.heightRange.2 < since ∨ before ≤ run.heightRange.1 then none
  else searchSlice key since before (filteredSlice filter directory run.entries key)

theorem lookupKeyWith_eq (override : Option ℕ) {filter : BloomFilter}
    (hfilter : ∀ e ∈ run.entries, filter.mayContain e.key) (key : OutputKey) (since before : ℤ) :
    run.lookupKeyWith filter (build override run.entries) key since before =
      run.lookupKey key since before := by
  rw [lookupKey_eq, lookupKeyWith]
  exact run.searchSlice_of_entriesOf since before (entriesOf_slice override run.sorted hfilter key)

def plainScan (run : MemoryRun) (key : OutputKey) (since before : ℤ) : Option OutputId :=
  (run.entries.find? (fun e =>
    decide (e.key = key ∧ since ≤ e.height ∧ e.height < before))).map entryId

/-- A lookup walks over the key's own entries: the plain scan, except where an Add is followed by a
Delete of the same height. Any limit of the prefix bits and both builders give the same lookups, as
long as the positions fit into the directory's `u32`. -/
theorem lookup_is_plain_scan (run : MemoryRun) (override : Option ℕ) (capacity : ℕ)
    (hlen : run.len < 2 ^ 32) (key : OutputKey) (since before : ℤ) :
    run.lookupKey key since before = scanKey key since before (entriesOf key run.entries) ∧
      ((entriesOf key run.entries).IsChain (fun a b => a.isAdd = true → b.height ≠ a.height) →
        run.lookupKey key since before = run.plainScan key since before) ∧
      run.lookupKeyWith (BloomFilter.build run.entries)
          (Directory.build override run.entries).stored key since before =
        run.lookupKey key since before ∧
      run.lookupKeyWith (BloomFilter.buildStreaming capacity run.entries)
          (Directory.buildStreaming override run.len run.entries).stored key since before =
        run.lookupKey key since before := by
  refine ⟨run.lookupKey_eq key since before, fun hpairs => ?_, ?_, ?_⟩
  · rw [lookupKey_eq, scanKey_find (fun e he => (mem_entriesOf.mp he).2) hpairs, plainScan,
      entriesOf, find?_filter]
    simp only [decide_eq_true_eq, keyed_key]
  · rw [stored_build override hlen]
    exact run.lookupKeyWith_eq override (fun _ he => BloomFilter.mayContain_build he) key since
      before
  · rw [len, buildStreaming_eq, stored_build override hlen]
    exact run.lookupKeyWith_eq override
      (fun _ he => BloomFilter.mayContain_buildStreaming capacity he) key since before

def pairedRun : MemoryRun :=
  ⟨[OutputKV.newAdd ⟨1, 0⟩ 5 7, OutputKV.newDelete ⟨1, 0⟩ 5], false, by decide⟩

theorem lookup_is_plain_scan_pair :
    pairedRun.lookupKeyWith (BloomFilter.build pairedRun.entries)
        (Directory.build (some 28) pairedRun.entries).stored ⟨1, 0⟩ 0 9 =
      scanKey ⟨1, 0⟩ 0 9 pairedRun.entries := by
  have hlen : pairedRun.len < 2 ^ 32 := by decide
  obtain ⟨hscan, -, hbuilt, -⟩ := lookup_is_plain_scan pairedRun (some 28) 2 hlen ⟨1, 0⟩ 0 9
  rw [hbuilt, hscan]
  rfl

/-- Created and spent at one height: the scan stops at the Add, the lookup skips both entries. -/
theorem same_height_pair_skipped :
    pairedRun.lookupKey ⟨1, 0⟩ 0 9 = none ∧ pairedRun.plainScan ⟨1, 0⟩ 0 9 = some 7 := by
  decide +kernel

end MemoryRun

end BlvmNode
