import BlvmNode.CheckpointExport
import BlvmNode.CompactionQuery
import BlvmNode.GcFence

/-!
# The views of the unspent outputs at a height

`scan_live_at_height` collects and sorts the entries at or below a height, `iter_live_at_height`
streams them through a merge, and a batch query looks each key up. The scan reads the runs that wait
for their file, the stream does not.
-/

namespace BlvmNode

open KeyedRuns Timeline KWayMerge GuardedRun List Option OutputKV SegmentReader EngineState

/-- `compact_for_checkpoint_sync` after its wait; `sameFence` says that the last one used the same
fence. Without a sink only a rewrite is worth a pass. -/
def DiskIndex.compactForCheckpointSync (cfg : CompactConfig) (sameFence : Bool)
    (unreadable : ℕ → Option ℕ) (disk : DiskIndex) : DiskIndex :=
  if disk.segments.length ≤ 1 ∧ sameFence then disk
  else
    let disk := disk.drained cfg unreadable
    if disk.segments.isEmpty then disk
    else
      match disk.checkpointScope cfg with
      | .allCold =>
        (disk.doCompact { cfg with checkpointHeight := -1 } .allCold unreadable
          (fun (_ : Unit) _ => some ()) ()).disk
      | _ => disk

open DiskIndex

/-- What a reader of the segment delivers before its end or its first error. -/
def DiskSegment.delivered (unreadable : Option ℕ) (seg : DiskSegment) : List OutputKV :=
  (mergeStream seg.entries.length [seg.stream unreadable]).1

open DiskSegment

/-- The last loop of `scan_live_at_height`: the first entry of a key decides. -/
def liveHeads : Option OutputKey → List OutputKV → List OutputKV
  | _, [] => []
  | decided, first :: rest =>
    if decided = some first.key then liveHeads decided rest
    else if first.isAdd then first :: liveHeads (some first.key) rest
    else liveHeads (some first.key) rest

/-- The results of `next_live` to the end; an entry above the height does not decide its key. -/
def nextLives (maxHeight : ℤ) : Option OutputKey → List OutputKV → List OutputKV
  | _, [] => []
  | lastKey, entry :: rest =>
    if maxHeight < entry.height then nextLives maxHeight lastKey rest
    else if lastKey = some entry.key then nextLives maxHeight lastKey rest
    else if entry.isAdd then entry :: nextLives maxHeight (some entry.key) rest
    else nextLives maxHeight (some entry.key) rest

namespace UtxoIndex

section Views

variable (cfg : CompactConfig) (sameFence : Bool) (unreadable : ℕ → Option ℕ) (maxHeight : ℤ)
  (idx : UtxoIndex)

def scanLiveAtHeight : List OutputKV :=
  let disk := idx.disk.compactForCheckpointSync cfg sameFence unreadable
  let mem := idx.ages.reverse.flatMap (fun age =>
    age.runs.flatMap (fun r => r.run.entries.filter (fun e => decide (e.height ≤ maxHeight))))
  let pending := disk.pendingSpills.flatMap (fun run =>
    run.entries.filter (fun e => decide (e.height ≤ maxHeight)))
  let stored := disk.segments.flatMap (fun seg =>
    (seg.delivered (unreadable seg.idx)).filter (fun e => decide (e.height ≤ maxHeight)))
  liveHeads none (sortEntries (mem ++ pending ++ stored))

/-- `iter_live_at_height` read to the end; `pick_min` takes the memory entry unless a segment has a
smaller one. `none` is a read error. -/
def iterLiveAtHeight : Option (List OutputKV) :=
  let disk := idx.disk.compactForCheckpointSync cfg sameFence unreadable
  let mem := idx.collectMemoryEntriesAtOrBelow maxHeight
  let res := mergeStream (mem.length + inputCount disk.segments)
    (⟨mem, [], none⟩ :: openReaders unreadable disk.segments)
  if (res.2.map SegmentReader.remaining).flatten.isEmpty then
    some (nextLives maxHeight none res.1)
  else none

end Views

end UtxoIndex

open UtxoIndex

variable (k : OutputKey)

section Heads

variable (maxHeight : ℤ)

theorem nextLives_eq_liveHeads (lastKey : Option OutputKey) (entries : List OutputKV) :
    nextLives maxHeight lastKey entries =
      liveHeads lastKey (entries.filter (fun e => decide (e.height ≤ maxHeight))) := by
  induction entries generalizing lastKey with
  | nil => rfl
  | cons e entries ih =>
    rw [nextLives]
    split
    next he => rw [ih, filter_cons_of_neg (by simpa using he)]
    next he => rw [filter_cons_of_pos (by simpa using he), liveHeads, ih, ih]

variable {decided : Option OutputKey} {entries : List OutputKV} {e : OutputKV}

theorem le_of_le_head {x : OutputKV} (hx : ∀ y ∈ entries, le x y) :
    ∀ k ∈ some x.key, ∀ y ∈ entries, k.toNat ≤ y.key.toNat := by
  rintro k hk y hy
  cases hk
  exact le_key (hx y hy)

theorem mem_liveHeads (hs : Sorted entries)
    (hd : ∀ k ∈ decided, ∀ e ∈ entries, k.toNat ≤ e.key.toNat) :
    e ∈ liveHeads decided entries ↔ decided ≠ some e.key ∧
      (entriesOf e.key entries).head? = some e ∧ e.isAdd := by
  induction entries generalizing decided with
  | nil => simp [liveHeads]
  | cons x entries ih =>
    obtain ⟨hx, htail⟩ := pairwise_cons.mp hs
    have hnext := le_of_le_head hx
    have hrest : ∀ k ∈ decided, ∀ y ∈ entries, k.toNat ≤ y.key.toNat :=
      fun k hk y hy => hd k hk y (mem_cons_of_mem x hy)
    rw [liveHeads]
    by_cases hsame : decided = some x.key
    · rw [if_pos hsame, ih htail hrest]
      refine and_congr_right fun hne => ?_
      have hkey : x.key ≠ e.key := fun heq => hne (heq ▸ hsame)
      rw [entriesOf_cons, keyed_key, if_neg hkey]
    · rw [if_neg hsame]
      by_cases hkey : x.key = e.key
      · -- only `x` itself can be the head of its key
        have hnot : e ∉ liveHeads (some x.key) entries := by
          rw [ih htail hnext, hkey]
          exact fun h => h.1 rfl
        rw [entriesOf_cons, keyed_key, if_pos hkey, head?_cons, some.injEq, ← hkey]
        split_ifs with hadd
        · rw [mem_cons, or_iff_left hnot]
          exact ⟨fun heq => ⟨hsame, heq.symm, heq ▸ hadd⟩, fun h => h.2.1.symm⟩
        · refine iff_of_false hnot ?_
          rintro ⟨-, rfl, hadd'⟩
          exact hadd hadd'
      · have hmem : e ∈ liveHeads (some x.key) entries ↔ decided ≠ some e.key ∧
            (entriesOf e.key (x :: entries)).head? = some e ∧ e.isAdd := by
          rw [ih htail hnext, entriesOf_cons, keyed_key, if_neg hkey]
          have hne : some x.key ≠ some e.key := fun heq => hkey (some.inj heq)
          refine and_congr_left fun h => iff_of_true hne fun hdec => hkey ?_
          have hin : e ∈ entries := (mem_entriesOf.mp (mem_of_head? h.1)).1
          exact OutputKey.toNat_injective (le_antisymm (le_key (hx e hin))
            (hd e.key hdec x mem_cons_self))
        split_ifs
        · rw [mem_cons, or_iff_right (fun heq => hkey (congrArg key heq.symm)), hmem]
        · exact hmem

theorem nodup_liveHeads
    (hs : Sorted entries) (hd : ∀ k ∈ decided, ∀ e ∈ entries, k.toNat ≤ e.key.toNat) :
    ((liveHeads decided entries).map key).Nodup := by
  induction entries generalizing decided with
  | nil => exact nodup_nil
  | cons x entries ih =>
    obtain ⟨hx, htail⟩ := pairwise_cons.mp hs
    have hnext := le_of_le_head hx
    rw [liveHeads]
    split_ifs
    · exact ih htail (fun k hk y hy => hd k hk y (mem_cons_of_mem x hy))
    · refine nodup_cons.mpr ⟨fun hmem => ?_, ih htail hnext⟩
      obtain ⟨e, he, hkey⟩ := mem_map.mp hmem
      exact ((mem_liveHeads htail hnext).mp he).1 (congrArg some hkey.symm)
    · exact ih htail hnext

theorem mem_liveHeads_iff_live {maxHeight : ℤ} {sorted l : List OutputKV} (hs : Sorted sorted)
    (hd : Descending l) (hp : (entriesOf e.key sorted).Perm (visible (maxHeight + 1) l)) :
    e ∈ liveHeads none sorted ↔ live (maxHeight + 1) l = some e := by
  have heq := eq_of_perm_of_heights hd.visible (hs.entriesOf_heights e.key) hp
  have hhead : newest (maxHeight + 1) (visible (maxHeight + 1) l) =
      (visible (maxHeight + 1) l).head? := by
    apply newest_eq_head
    intro a ha
    simpa using (mem_filter.mp ha).2
  rw [mem_liveHeads hs (by simp), heq, ← hhead, ← live_visible, live,
    filter_eq_some_iff]
  exact and_iff_right (some_ne_none e.key).symm

theorem visible_add_one (l : List OutputKV) :
    visible (maxHeight + 1) l = l.filter (fun e => decide (e.height ≤ maxHeight)) := by
  apply filter_congr
  intro e _
  rw [versioned_height]
  exact decide_eq_decide.mpr Int.lt_add_one_iff

theorem entriesOf_filter_le (maxHeight : ℤ) (l : List OutputKV) :
    entriesOf k (l.filter (fun e => decide (e.height ≤ maxHeight))) =
      visible (maxHeight + 1) (entriesOf k l) := by
  rw [visible_add_one, entriesOf, entriesOf, List.filter_filter, List.filter_filter]
  exact List.filter_congr fun e _ => Bool.and_comm _ _

end Heads

section Compacted

variable {cfg : CompactConfig} {disk : DiskIndex} (sameFence : Bool)

def DiskIndex.stored (disk : DiskIndex) : List OutputKV :=
  (disk.segments.map DiskSegment.entries).flatten

theorem chosen_marked_all {positions : List ℕ} {segments : List DiskSegment}
    (h : ∀ p ∈ segments.zipIdx, p.2 ∈ positions) :
    chosen (marked positions segments) = segments := by
  have hall : (marked positions segments).filter (fun m => m.2) = marked positions segments := by
    rw [filter_eq_self]
    intro m hm
    obtain ⟨p, hp, rfl⟩ := mem_map.mp hm
    simpa using h p hp
  rw [chosen, hall, marked_fst]

theorem chosen_checkpointScope (cfg : CompactConfig) (disk : DiskIndex) :
    chosen (disk.marks cfg (disk.checkpointScope cfg)) = disk.segments := by
  apply chosen_marked_all
  intro p hp
  unfold checkpointScope
  split_ifs with hfits
  · simp only [fitsAllcold, Bool.and_eq_true, Bool.not_eq_true'] at hfits
    have hcold : p.1.hot = false := by
      have hmem : p.1 ∈ disk.segments := fst_mem_of_mem_zipIdx hp
      have hany := hfits.1
      rw [List.any_eq_false] at hany
      simpa using hany p.1 hmem
    rw [selectPositions, coldPositions]
    exact mem_map_of_mem (mem_filter.mpr ⟨hp, by simp [hcold]⟩)
  · rw [selectPositions, mem_range]
    exact snd_lt_of_mem_zipIdx hp

theorem retained_eq_nil {marks : List (DiskSegment × Bool)}
    (h : chosen marks = marks.map Prod.fst) : retained marks = [] := by
  have hlen := (marks_perm marks).length_eq
  rw [h, length_append] at hlen
  exact length_eq_zero_iff.mp (by omega)

theorem exists_kept (fence : ℤ) (disk : DiskIndex) :
    ∃ kept, Cancels fence (timeline k (runsOf disk.segments)) kept ∧
      (entriesOf k disk.stored).Perm kept := by
  refine ⟨_, Cancels.refl _, ?_⟩
  rw [← entriesOf_flatten]
  exact (runsOf_flatten_perm disk.segments).symm.filter _

theorem doCompact_all_stored {σ : Type} {scope : CompactScope} {sink : σ → OutputKV → Option σ}
    {s : σ} (hd : ∀ k, Descending (timeline k (runsOf disk.segments)))
    (hall : chosen (disk.marks cfg scope) = disk.segments) (k : OutputKey) :
    ∃ kept, Cancels (cfg.fence + 1) (timeline k (runsOf disk.segments)) kept ∧
      (entriesOf k (disk.doCompact cfg scope (fun _ => none) sink s).disk.stored).Perm kept := by
  have hends := doCompact_ends cfg scope (fun _ => none) sink s disk
  generalize disk.doCompact cfg scope (fun _ => none) sink s = outcome at hends ⊢
  cases hends with
  | idle | scanned | refused => exact exists_kept k _ disk
  | swapped run s' hsome hwrite hfrozen hrun hsink =>
    rw [(mergeInputs_intact (intact_openReaders _)).1, hall, ← survivors] at hrun
    have hnone : retained (disk.marks cfg scope) = [] := by
      apply retained_eq_nil
      rw [hall, marks, marked_fst]
    refine ⟨_, survivors_cancels hd k, ?_⟩
    have hswap := ((swapSegments_perm (disk.marks cfg scope)
      (outputSegments cfg disk.nextIdx run)).map entries).flatten
    rw [hnone, append_nil, outputSegments_flatten, hrun] at hswap
    exact hswap.filter _

theorem doCompact_pendingSpills {σ : Type} (scope : CompactScope)
    (unreadable : ℕ → Option ℕ) (sink : σ → OutputKV → Option σ) (s : σ) :
    (disk.doCompact cfg scope unreadable sink s).disk.pendingSpills = disk.pendingSpills := by
  have hends := doCompact_ends cfg scope unreadable sink s disk
  generalize disk.doCompact cfg scope unreadable sink s = outcome at hends ⊢
  cases hends <;> rfl

theorem compactForCheckpointSync_stored (hd : ∀ k, Descending (timeline k (runsOf disk.segments)))
    (hdrained : disk.drained cfg (fun _ => none) = disk) (k : OutputKey) :
    ∃ kept, Cancels (cfg.fence + 1) (timeline k (runsOf disk.segments)) kept ∧
      (entriesOf k (disk.compactForCheckpointSync cfg sameFence (fun _ => none)).stored).Perm
        kept := by
  have hchosen := chosen_checkpointScope cfg disk
  simp only [compactForCheckpointSync, hdrained]
  split_ifs
  · exact exists_kept k _ disk
  · exact exists_kept k _ disk
  · split
    next hscope =>
      rw [hscope] at hchosen
      exact @doCompact_all_stored { cfg with checkpointHeight := -1 } disk _ .allCold _ _ hd
        hchosen k
    next => exact exists_kept k _ disk

theorem compactForCheckpointSync_pendingSpills
    (hdrained : disk.drained cfg (fun _ => none) = disk) :
    (disk.compactForCheckpointSync cfg sameFence (fun _ => none)).pendingSpills =
      disk.pendingSpills := by
  simp only [compactForCheckpointSync, hdrained]
  split_ifs
  · rfl
  · rfl
  · split
    · exact doCompact_pendingSpills _ _ _ _
    · rfl

end Compacted

/-- The view has each key once and exactly the ids a query just above the height returns. -/
structure ShowsLive (idx : UtxoIndex) (maxHeight : ℤ) (view : List OutputKV) : Prop where
  once : (view.map OutputKV.key).Nodup
  ids : ∀ k id, (k, id) ∈ view.map (fun e => (e.key, e.id)) ↔
    idx.resolves (maxHeight + 1) k = some id

theorem resolves_iff_live {idx : UtxoIndex} {before : ℤ} {k : OutputKey} {id : OutputId}
    (hfit : idx.disk.FitsPages) (h : Readable (timeline k idx.chain)) :
    idx.resolves before k = some id ↔
      ∃ e, live before (timeline k idx.chain) = some e ∧ e.id = id := by
  rw [resolves_eq_some_iff, answer_eq hfit h, live]
  cases hn : newest before (timeline k idx.chain) with
  | none =>
    refine iff_of_false ?_ (by simp)
    rintro ⟨rfl, hid⟩
    exact not_isTableId_max hid
  | some e =>
    cases ha : e.isAdd with
    | true =>
      have hid := h.tableIds e (mem_of_newest hn) ha
      simp only [entryId, ha, if_true, filter_some, versioned_isAdd, some.injEq, exists_eq_left']
      exact ⟨And.left, fun heq => ⟨heq, heq ▸ hid⟩⟩
    | false =>
      refine iff_of_false ?_ (by simp [ha])
      rintro ⟨heq, hid⟩
      simp only [entryId, ha, Bool.false_eq_true, if_false] at heq
      exact not_isTableId_deleted (heq ▸ hid)

/-- Every spilled run has its file, and the compaction merges no pair of segments on its own. -/
structure Settled (cfg : CompactConfig) (disk : DiskIndex) : Prop where
  written : disk.pendingSpills = []
  unpaired : disk.fitsAllcold cfg = true → 0 < cfg.compactMax → disk.oversized cfg = 0

theorem Settled.drained {cfg : CompactConfig} {disk : DiskIndex} (h : Settled cfg disk)
    (unreadable : ℕ → Option ℕ) : disk.drained cfg unreadable = disk := by
  unfold DiskIndex.drained
  split_ifs with hfits
  · rw [drainStallPairs, if_pos (h.unpaired hfits.1 hfits.2)]
  · rfl

section State

variable {cfg : CompactConfig} {idx : UtxoIndex} {maxHeight : ℤ} (sameFence : Bool)

def UtxoIndex.memory (idx : UtxoIndex) : List OutputKV := (idx.ages.flatMap MemoryAge.chain).flatten

theorem memory_filter_perm (maxHeight : ℤ) (idx : UtxoIndex) :
    let low := fun e : OutputKV => decide (e.height ≤ maxHeight)
    (idx.ages.reverse.flatMap (fun age => age.runs.flatMap (fun r =>
      r.run.entries.filter low))).Perm (idx.memory.filter low) := by
  intro low
  have hage : ∀ age : MemoryAge, (age.runs.flatMap (fun r => r.run.entries.filter low)).Perm
      (age.chain.flatten.filter low) := by
    intro age
    rw [MemoryAge.chain, List.map_reverse, List.filter_flatten, List.map_reverse, List.map_map]
    exact (reverse_perm _).symm.flatten
  have hmemory : idx.memory = idx.ages.flatMap (fun age => age.chain.flatten) := by
    simp only [memory, List.flatMap_def, List.flatten_flatten, List.map_map]
    rfl
  rw [hmemory, List.filter_flatMap]
  exact ((List.reverse_perm idx.ages).flatMap_right _).trans
    (List.Perm.flatMap_left _ fun age _ => hage age)

theorem delivered_perm (seg : DiskSegment) : (seg.delivered none).Perm seg.entries := by
  have hintact : ¬ ∃ r ∈ [seg.stream none], r.Broken := by
    simp [Broken, stream]
  rw [delivered, (mergeStream_intact hintact (by simp)).1]
  have hperm : (mergeSteps le seg.entries.length [seg.entries]).Perm
      [seg.entries].flatten := mergeSteps_perm (by simp)
  rwa [flatten_singleton] at hperm

theorem timeline_chain_of_written (h : idx.disk.pendingSpills = []) (k : OutputKey) :
    timeline k idx.chain = entriesOf k idx.memory ++ timeline k (runsOf idx.disk.segments) := by
  rw [UtxoIndex.chain, timeline_append, UtxoIndex.memory, entriesOf_flatten, DiskIndex.chain, h]
  rfl

variable (hfit : idx.disk.FitsPages) (hset : Settled cfg idx.disk)
  (hfence : cfg.fence ≤ maxHeight)
  (hread : ∀ k, Readable (timeline k idx.chain)) (halt : ∀ k, Alternating (timeline k idx.chain))

include hfit hset hfence hread halt

/-- A sorted view over the memory and the compacted disk shows what a query finds. -/
theorem showsLive_of_sorted {sorted : List OutputKV} (hs : Sorted sorted)
    (hp : sorted.Perm ((idx.memory ++ (idx.disk.compactForCheckpointSync cfg sameFence
      (fun _ => none)).stored).filter (fun e => decide (e.height ≤ maxHeight)))) :
    ShowsLive idx maxHeight (liveHeads none sorted) := by
  have hsplit := timeline_chain_of_written hset.written
  have hdisk : ∀ k, Descending (timeline k (runsOf idx.disk.segments)) := by
    intro k
    have hd := (hread k).descending
    rw [hsplit k] at hd
    exact descending_right hd
  have hlive : ∀ e, e ∈ liveHeads none sorted ↔
      live (maxHeight + 1) (timeline e.key idx.chain) = some e := by
    intro e
    obtain ⟨kept, hcancels, hkept⟩ :=
      compactForCheckpointSync_stored sameFence hdisk (hset.drained _) e.key
    have hwhole : Cancels (cfg.fence + 1) (timeline e.key idx.chain)
        (entriesOf e.key idx.memory ++ kept) := by
      rw [hsplit e.key]
      exact (Cancels.refl _).append hcancels
    have hd := (hread e.key).descending
    rw [← hwhole.live (halt e.key) hd (by omega)]
    apply mem_liveHeads_iff_live hs (hwhole.descending hd)
    have hp' : (entriesOf e.key sorted).Perm _ := hp.filter _
    refine hp'.trans ?_
    rw [← entriesOf, entriesOf_filter_le, entriesOf_append, visible, visible]
    exact (hkept.append_left _).filter _
  refine ⟨nodup_liveHeads hs (by simp), fun k id => ?_⟩
  rw [resolves_iff_live hfit (hread k), List.mem_map]
  constructor
  · rintro ⟨e, he, heq⟩
    cases heq
    exact ⟨e, (hlive e).mp he, rfl⟩
  · rintro ⟨e, he, rfl⟩
    obtain rfl : e.key = k := (mem_timeline.mp (mem_of_live he).1).2
    exact ⟨e, (hlive e).mpr he, rfl⟩

theorem scanLiveAtHeight_showsLive :
    ShowsLive idx maxHeight (idx.scanLiveAtHeight cfg sameFence (fun _ => none) maxHeight) := by
  have hpending :=
    (compactForCheckpointSync_pendingSpills sameFence (hset.drained _)).trans hset.written
  apply showsLive_of_sorted sameFence hfit hset hfence hread halt (sorted_sortEntries _)
  refine (sortEntries_perm _).trans ?_
  rw [hpending, List.flatMap_nil, List.append_nil, List.filter_append]
  refine (memory_filter_perm maxHeight idx).append ?_
  rw [DiskIndex.stored, List.filter_flatten, List.map_map, ← List.flatMap_def]
  exact List.Perm.flatMap_left _ fun seg _ => (delivered_perm seg).filter _

theorem iterLiveAtHeight_showsLive :
    ∃ stream, idx.iterLiveAtHeight cfg sameFence (fun _ => none) maxHeight = some stream ∧
      ShowsLive idx maxHeight stream := by
  have hsorted : Sorted (idx.collectMemoryEntriesAtOrBelow maxHeight) := sorted_sortEntries _
  have hmem : (idx.collectMemoryEntriesAtOrBelow maxHeight).Perm
      (idx.memory.filter (fun e => decide (e.height ≤ maxHeight))) :=
    (sortEntries_perm _).trans (memory_filter_perm maxHeight idx)
  have hshows := @showsLive_of_sorted cfg idx maxHeight sameFence hfit hset hfence hread halt
  simp only [iterLiveAtHeight]
  generalize idx.collectMemoryEntriesAtOrBelow maxHeight = mem at hsorted hmem ⊢
  generalize idx.disk.compactForCheckpointSync cfg sameFence (fun _ => none) = disk at hshows ⊢
  have hintact : ¬ ∃ r ∈ mk mem [] none :: openReaders (fun _ => none)
      disk.segments, r.Broken := by
    rintro ⟨r, hr, hbroken⟩
    rcases mem_cons.mp hr with rfl | hr
    · simp [Broken] at hbroken
    · exact intact_openReaders _ ⟨r, hr, hbroken⟩
  have hremaining : (mk mem [] none :: openReaders (fun _ => none)
      disk.segments).map remaining = mem :: disk.segments.map entries := by
    rw [map_cons, remaining_openReaders, remaining, append_nil]
  have hcount : ((mem :: disk.segments.map entries).map List.length).sum =
      mem.length + inputCount disk.segments := by
    rw [inputCount_eq, map_cons, sum_cons]
  obtain ⟨hstream, hleft⟩ := mergeStream_intact hintact (by rw [hremaining, hcount])
  refine ⟨_, by rw [hleft]; rfl, ?_⟩
  rw [hstream, hremaining, nextLives_eq_liveHeads]
  apply hshows
  · apply List.Pairwise.filter
    apply mergeSteps_pairwise _ hcount.le
    rw [forall_mem_cons]
    refine ⟨hsorted, fun run hrun => ?_⟩
    obtain ⟨seg, -, rfl⟩ := mem_map.mp hrun
    exact seg.sorted
  · refine ((mergeSteps_perm hcount.le).filter _).trans ?_
    rw [flatten_cons, filter_append, filter_append]
    refine List.Perm.append_right _ ((hmem.filter _).trans ?_)
    rw [List.filter_filter]
    simp only [Bool.and_self, List.Perm.refl]

end State

section EngineRuns

def sampledSteps (runMax : ℕ) : EngineState → List EngineStep → List IndexStep
  | _, [] => []
  | st, s :: steps => s.sampled st ++ sampledSteps runMax (s.apply runMax st) steps

def EngineStep.Clean (st : EngineState) : EngineStep → Prop
  | index s => s.Clean st.index
  | _ => True

def CleanEngine (runMax : ℕ) : EngineState → List EngineStep → Prop :=
  Guarded (EngineStep.apply runMax) EngineStep.Clean

theorem EngineStep.logOf_sampled (st : EngineState) (s : EngineStep) :
    logOf (s.sampled st) = s.appended := by
  cases s with
  | index s => cases s <;> exact append_nil _
  | _ => rfl

theorem index_runEngine (runMax : ℕ) (st : EngineState) (steps : List EngineStep) :
    (runEngine runMax st steps).index =
      runSteps runMax st.index (sampledSteps runMax st steps) := by
  induction steps generalizing st with
  | nil => rfl
  | cons s steps ih => rw [sampledSteps, runSteps_append, ← EngineStep.index_apply, ← ih]; rfl

theorem logOf_sampledSteps (runMax : ℕ) (st : EngineState) (steps : List EngineStep) :
    logOf (sampledSteps runMax st steps) = engineLog steps := by
  induction steps generalizing st with
  | nil => rfl
  | cons s steps ih =>
    rw [sampledSteps, logOf_append, ih, EngineStep.logOf_sampled]
    simp [engineLog]

variable {steps : List EngineStep} {st : EngineState} {runMax : ℕ}

theorem evictionInRange_sampledSteps (h : ∀ s ∈ steps, s.EvictionInRange) :
    ∀ s ∈ sampledSteps runMax st steps, s.EvictionInRange := by
  induction steps generalizing st with
  | nil => exact nofun
  | cons s steps ih =>
    rw [forall_mem_cons] at h
    rw [sampledSteps, forall_mem_append]
    refine ⟨?_, ih h.2⟩
    cases s with
    | index s =>
      rw [EngineStep.sampled, forall_mem_singleton]
      cases s with
      | merge => exact h.1
      | _ => trivial
    | _ => exact nofun

theorem cleanRun_sampledSteps (h : CleanEngine runMax st steps) :
    CleanRun runMax st.index (sampledSteps runMax st steps) := by
  induction steps generalizing st with
  | nil => trivial
  | cons s steps ih =>
    have hrest := ih h.2
    rw [EngineStep.index_apply] at hrest
    refine cleanRun_append ?_ hrest
    cases s with
    | index s =>
      refine ⟨?_, trivial⟩
      cases s with
      | merge => exact h.1
      | _ => trivial
    | _ => trivial

theorem valid_runEngine (runMax : ℕ) (h : st.gc.Valid)
    (steps : List EngineStep) : (runEngine runMax st steps).gc.Valid := by
  induction steps generalizing st with
  | nil => exact h
  | cons s steps ih => exact ih (s.gc_apply runMax h).1

def asyncSpill : MergeConfig := ⟨4, false, false, true, 0, ⟨0, true, coldReads⟩⟩

/-- The creation of `spentKey` is spilled and waits for its file. -/
def waitingSteps : List EngineStep :=
  [.setGcFence 5, .index (.append false false [createSpent] 1), .index (.releasePin 1),
    .index (.setSpillTier 1 1), .index (.merge asyncSpill 0)]

def writtenSteps : List EngineStep := waitingSteps ++ [.index (.finishSpill 0 coldReads)]

def fencedCompaction : CompactConfig := ⟨8, 20000000, 5, -1, fun _ => true⟩

theorem wellFormedLog_createSpent : WellFormedLog [createSpent] :=
  wellFormedLog_of_keys (by decide)

theorem evictionInRange_writtenSteps : ∀ s ∈ writtenSteps, s.EvictionInRange := by
  simp only [writtenSteps, waitingSteps, cons_append, nil_append, forall_mem_cons]
  exact ⟨trivial, trivial, trivial, trivial, show kMutableAges ≤ 4 ∧ 4 ≤ kAges by decide, trivial,
    nofun⟩

theorem cleanEngine_writtenSteps : CleanEngine 35000 fresh writtenSteps := by
  refine ⟨trivial, trivial, trivial, trivial, ?_, trivial, trivial⟩
  intro age n _ _
  refine ⟨?_, .inl rfl⟩
  have hskip : ∀ idx, skippedChain asyncSpill 0 n idx =
      skippedChain asyncSpill 0 0 idx := fun _ => rfl
  have hnone : skippedChain asyncSpill 0 0
      (runEngine 35000 fresh (waitingSteps.take 4)).index = [] := by
    decide +kernel
  intro e _ e' he'
  rw [hskip] at he'
  exact absurd (hnone ▸ he') not_mem_nil

end EngineRuns

end BlvmNode
