import BlvmNode.UtxoDatabase

/-!
# Rolling the engine back

`erase_since` removes the entries from a height on, but only from the mutable ages. What merges
have moved to the deeper ages or to disk stays, and what they have cancelled does not come back.
The results below say exactly when the engine then answers like one that never saw the erased
blocks.
-/

namespace BlvmNode

open KeyedRuns Timeline GuardedRun List OutputKV DatabaseStep UtxoDatabase

namespace MemoryRun

def eraseSince (since : ℤ) (run : MemoryRun) : MemoryRun :=
  ⟨run.entries.filter (fun e => decide (e.height < since)), run.isMutable,
    List.Pairwise.filter _ run.sorted⟩

theorem entriesOf_eraseSince (since : ℤ) (run : MemoryRun) (k : OutputKey) :
    entriesOf k (run.eraseSince since).entries = visible since (entriesOf k run.entries) := by
  simp only [eraseSince, entriesOf, visible, filter_filter, versioned_height, Bool.and_comm]

end MemoryRun

namespace MemoryAge

/-- The loop of `erase_since`: runs are dropped or kept, and one that overlaps the height is
replaced by a new allocation unless it ends up empty. -/
def eraseRuns (since : ℤ) : ℕ → List RunRef → List RunRef
  | _, [] => []
  | fresh, r :: runs =>
    if since ≤ r.run.heightRange.1 then eraseRuns since fresh runs
    else if r.run.heightRange.2 < since then r :: eraseRuns since fresh runs
    else if (r.run.eraseSince since).entries.isEmpty then eraseRuns since fresh runs
    else ⟨fresh, r.run.eraseSince since⟩ :: eraseRuns since (fresh + 1) runs

def eraseSince (since : ℤ) (fresh : ℕ) (age : MemoryAge) : MemoryAge :=
  { age with runs := eraseRuns since fresh age.runs }

theorem timeline_eraseRuns (since : ℤ) (fresh : ℕ) (runs : List RunRef) (k : OutputKey) :
    timeline k ((eraseRuns since fresh runs).reverse.map (fun r => r.run.entries)) =
      visible since (timeline k (runs.reverse.map (fun r => r.run.entries))) := by
  induction runs generalizing fresh with
  | nil => rfl
  | cons r runs ih =>
    have hcons : ∀ (x : RunRef) (rest : List RunRef),
        timeline k ((x :: rest).reverse.map (fun r => r.run.entries)) =
          timeline k (rest.reverse.map (fun r => r.run.entries)) ++ entriesOf k x.run.entries := by
      intro x rest
      simp
    rw [hcons, visible_append, eraseRuns]
    split_ifs with hall hnone hempty
    · have hnil : visible since (entriesOf k r.run.entries) = [] := by
        apply visible_eq_nil
        rw [newest_eq_none_iff]
        intro e he
        exact hall.trans (MemoryRun.heightRangeOf_bounds (mem_entriesOf.mp he).1).1
      rw [ih, hnil, append_nil]
    · have hself : visible since (entriesOf k r.run.entries) = entriesOf k r.run.entries := by
        rw [visible, filter_eq_self]
        intro e he
        have hle := (MemoryRun.heightRangeOf_bounds (mem_entriesOf.mp he).1).2
        exact decide_eq_true (lt_of_le_of_lt hle hnone)
      rw [hcons, ih, hself]
    · have hnil := r.run.entriesOf_eraseSince since k
      rw [isEmpty_iff.mp hempty, entriesOf_nil] at hnil
      rw [ih, ← hnil, append_nil]
    · rw [hcons, ih, r.run.entriesOf_eraseSince]

theorem timeline_eraseSince (since : ℤ) (fresh : ℕ) (age : MemoryAge) (k : OutputKey) :
    timeline k (age.eraseSince since fresh).chain = visible since (timeline k age.chain) :=
  timeline_eraseRuns since fresh age.runs k

end MemoryAge

namespace UtxoIndex

/-- `erase_since` on the mutable ages, each with allocations behind those of the ages before it. -/
def eraseSince (since : ℤ) (idx : UtxoIndex) : UtxoIndex :=
  { idx with
    ages := idx.ages.mapIdx (fun i age =>
      if i < kMutableAges then
        age.eraseSince since (idx.nextPtr + ((idx.ages.take i).map (fun a => a.runs.length)).sum)
      else age)
    contiguousLength := min idx.contiguousLength (since - 1)
    nextPtr := idx.nextPtr + (idx.ages.map (fun a => a.runs.length)).sum }

def memoryChain (idx : UtxoIndex) : List (List OutputKV) := idx.ages.flatMap MemoryAge.chain

def mutableChain (idx : UtxoIndex) : List (List OutputKV) :=
  (idx.ages.take kMutableAges).flatMap MemoryAge.chain

def frozenChain (idx : UtxoIndex) : List (List OutputKV) :=
  (idx.ages.drop kMutableAges).flatMap MemoryAge.chain ++ idx.disk.chain

theorem chain_eq_mutable_frozen (idx : UtxoIndex) :
    idx.chain = idx.mutableChain ++ idx.frozenChain := by
  rw [chain, mutableChain, frozenChain, ← append_assoc, ← flatMap_append, take_append_drop]

theorem timeline_mapIdx {since : ℤ} {k : OutputKey} {f : ℕ → MemoryAge → MemoryAge} {n : ℕ}
    (herase : ∀ i age, i < n → timeline k (f i age).chain = visible since (timeline k age.chain))
    (hkeep : ∀ i age, n ≤ i → f i age = age) (ages : List MemoryAge) :
    timeline k ((ages.mapIdx f).flatMap MemoryAge.chain) =
      visible since (timeline k ((ages.take n).flatMap MemoryAge.chain)) ++
        timeline k ((ages.drop n).flatMap MemoryAge.chain) := by
  induction ages generalizing f n with
  | nil => simp [visible]
  | cons age ages ih =>
    rw [mapIdx_cons, flatMap_cons, timeline_append]
    cases n with
    | zero =>
      have hrest := @ih (fun i => f (i + 1)) 0 (fun i _ hi => absurd hi (Nat.not_lt_zero i))
        (fun i age _ => hkeep (i + 1) age (Nat.zero_le _))
      rw [hkeep 0 age le_rfl, hrest]
      simp [visible]
    | succ n =>
      have hrest := @ih (fun i => f (i + 1)) n
        (fun i age hi => herase (i + 1) age (Nat.succ_lt_succ hi))
        (fun i age hi => hkeep (i + 1) age (Nat.succ_le_succ hi))
      rw [herase 0 age (Nat.succ_pos n), hrest, take_succ_cons, drop_succ_cons,
        flatMap_cons, timeline_append, visible_append, append_assoc]

theorem timeline_memoryChain_eraseSince (since : ℤ) (idx : UtxoIndex) (k : OutputKey) :
    timeline k (idx.eraseSince since).memoryChain = visible since (timeline k idx.mutableChain) ++
      timeline k ((idx.ages.drop kMutableAges).flatMap MemoryAge.chain) := by
  apply timeline_mapIdx
  · intro i age hi
    rw [if_pos hi]
    exact age.timeline_eraseSince since _ k
  · intro i age hi
    rw [if_neg (Nat.not_lt.mpr hi)]

theorem timeline_eraseSince (since : ℤ) (idx : UtxoIndex) (k : OutputKey) :
    timeline k (idx.eraseSince since).chain =
      visible since (timeline k idx.mutableChain) ++ timeline k idx.frozenChain := by
  rw [chain, timeline_append, frozenChain, timeline_append, ← append_assoc]
  exact congrArg (· ++ _) (timeline_memoryChain_eraseSince since idx k)

theorem exists_append_eraseSince (since : ℤ) {idx : UtxoIndex} {k : OutputKey}
    (hd : Descending (timeline k idx.chain)) :
    ∃ p, timeline k idx.chain = p ++ timeline k (idx.eraseSince since).chain := by
  rw [chain_eq_mutable_frozen, timeline_append] at hd ⊢
  obtain ⟨p, hp⟩ := exists_append_visible since (descending_left hd)
  refine ⟨p, ?_⟩
  rw [timeline_eraseSince, ← append_assoc, ← hp]

end UtxoIndex

open UtxoIndex

section Stored

variable {runMax : ℕ} {fence : ℤ}

theorem mergeEntries_sublist {inputs chain : List (List OutputKV)} {k : OutputKey}
    (hs : ∀ run ∈ inputs, Sorted run) (hp : inputs.flatten.Perm chain.flatten)
    (hd : Descending (timeline k chain)) :
    (entriesOf k (MemoryRun.mergeEntries fence inputs)).Sublist (timeline k chain) := by
  have hperm := (KWayMerge.kWayMerge_perm (r := le) inputs).trans hp
  have hsorted := Sorted.entriesOf_heights (KWayMerge.kWayMerge_pairwise hs) k
  rw [← entriesOf_merged hperm hsorted hd]
  exact (gcPass_sublist fence _).filter _

theorem UtxoIndex.Replaces.sublist {age : MemoryAge} {n : ℕ} {idx idx' : UtxoIndex}
    (hr : Replaces (takenChain age n)
      (MemoryRun.mergeEntries fence ((age.runs.take n).map (fun r => r.run.entries))) idx idx')
    {k : OutputKey} (hd : Descending (timeline k idx.chain)) :
    (timeline k idx'.chain).Sublist (timeline k idx.chain) := by
  obtain ⟨front, back, hk⟩ := hr
  have hmid : Descending (timeline k (takenChain age n)) := by
    rw [(hk k).1, timeline_append, timeline_append] at hd
    exact descending_right (descending_left hd)
  rw [(hk k).1, (hk k).2]
  simp only [timeline_append, timeline_cons, timeline_nil, append_nil]
  apply Sublist.append_right
  apply Sublist.append_left
  apply mergeEntries_sublist _ _ hmid
  · intro run hrun
    obtain ⟨r, -, rfl⟩ := mem_map.mp hrun
    exact r.run.sorted
  · rw [takenChain, map_reverse]
    exact (reverse_perm _).symm.flatten

structure StoredIn (log : List OutputKV) (idx : UtxoIndex) : Prop where
  idle : idx.Idle
  sublist : ∀ k, (timeline k idx.chain).Sublist (entriesOf k log)

theorem StoredIn.step {log : List OutputKV} {idx : UtxoIndex} {s : IndexStep} (h : StoredIn log idx)
    (hread : ∀ k, Readable (entriesOf k (s.appended ++ log))) (hE : s.EvictionInRange)
    (hclean : s.Clean idx) : StoredIn (s.appended ++ log) (s.apply runMax idx) := by
  refine ⟨s.apply_idle runMax h.idle hE, fun k => ?_⟩
  have hdesc := descending_appended hread h.sublist
  rw [entriesOf_append]
  rcases IndexStep.timeline_apply runMax h.idle hE hclean hdesc with heq |
    ⟨happ, fence, -, age, n, hr⟩
  · rw [heq]
    exact (h.sublist k).append_left _
  · rw [happ, entriesOf_nil, nil_append]
    exact (hr.sublist (descending_right (hdesc k))).trans (h.sublist k)

theorem storedIn_runSteps {steps : List IndexStep}
    (hread : ∀ k, Readable (entriesOf k (logOf steps))) (hE : ∀ s ∈ steps, s.EvictionInRange)
    (hclean : CleanRun runMax empty steps) :
    StoredIn (logOf steps) (runSteps runMax empty steps) := by
  induction steps using reverseRecOn with
  | nil => exact ⟨(refines_empty 0).idle, fun k => ((refines_empty 0).cancels k).sublist⟩
  | append_singleton steps s ih =>
    rw [logOf_append_singleton] at hread ⊢
    rw [runSteps_append_singleton]
    obtain ⟨hprev, hlast⟩ := guarded_concat.mp hclean
    rw [forall_mem_append, forall_mem_singleton] at hE
    have hread' : ∀ k, Readable (entriesOf k (logOf steps)) :=
      fun k => (hread k).sublist ((sublist_append_right ..).filter _)
    exact (ih hread' hE.1 hprev).step hread hE.2 hlast

end Stored

section Reach

/-- No merge has cancelled an entry below the height, and no entry from it on has left the mutable
ages. -/
structure Reaches (since : ℤ) (log : List OutputKV) (idx : UtxoIndex) : Prop where
  stored : ∀ e ∈ log, e.height < since → e ∈ idx.chain.flatten
  erasable : ∀ e ∈ idx.frozenChain.flatten, e.height < since

variable {since : ℤ} {log : List OutputKV} {idx : UtxoIndex} {l : List OutputKV}

theorem visible_eq_self (h : ∀ e ∈ l, e.height < since) : visible since l = l :=
  filter_eq_self.mpr (fun e he => decide_eq_true (h e he))

theorem timeline_eraseSince_of_erasable (h : ∀ e ∈ idx.frozenChain.flatten, e.height < since)
    (k : OutputKey) :
    timeline k (idx.eraseSince since).chain = visible since (timeline k idx.chain) := by
  have hfrozen : visible since (timeline k idx.frozenChain) = timeline k idx.frozenChain :=
    visible_eq_self (fun e he => h e (mem_timeline.mp he).1)
  rw [timeline_eraseSince, chain_eq_mutable_frozen, timeline_append, visible_append, hfrozen]

/-- Up to the height, no key is spent wherever some key is found on disk only. A query that consults
the disk reports the spent keys of its batch as unknown, one that stays in memory as deleted. -/
def Unmixed (since : ℤ) (log : List OutputKV) (idx : UtxoIndex) : Prop :=
  ∀ before ≤ since, ∀ k k' e, newest before (timeline k idx.memoryChain) = none →
    newest before (timeline k idx.disk.chain) ≠ none →
      newest before (entriesOf k' log) = some e → e.isAdd

theorem unmixed_iff (h : ∀ e ∈ idx.frozenChain.flatten, e.height < since)
    (htimeline : ∀ k, timeline k (idx.eraseSince since).chain = visible since (entriesOf k log)) :
    (∀ before k k' e, newest before (timeline k (idx.eraseSince since).memoryChain) = none →
      newest before (timeline k (idx.eraseSince since).chain) ≠ none →
        newest before (timeline k' (idx.eraseSince since).chain) = some e → e.isAdd) ↔
      Unmixed since log idx := by
  have hdisk : ∀ k, visible since (timeline k idx.disk.chain) = timeline k idx.disk.chain := by
    refine fun k => visible_eq_self (fun e he => h e ?_)
    rw [frozenChain, flatten_append]
    exact mem_append_right _ (mem_timeline.mp he).1
  have hages : ∀ k, timeline k (idx.eraseSince since).memoryChain =
      visible since (timeline k idx.memoryChain) := by
    intro k
    have hfrozen : visible since (timeline k ((idx.ages.drop kMutableAges).flatMap
        MemoryAge.chain)) = timeline k ((idx.ages.drop kMutableAges).flatMap MemoryAge.chain) := by
      refine visible_eq_self (fun e he => h e ?_)
      rw [frozenChain, flatten_append]
      exact mem_append_left _ (mem_timeline.mp he).1
    rw [timeline_memoryChain_eraseSince, ← hfrozen, ← visible_append, ← timeline_append,
      mutableChain, ← flatMap_append, take_append_drop]
    rfl
  have hchain : ∀ before k, newest before (timeline k (idx.eraseSince since).memoryChain) = none →
      (newest before (timeline k (idx.eraseSince since).chain) ≠ none ↔
        newest (min before since) (timeline k idx.disk.chain) ≠ none) := by
    intro before k hnone
    rw [chain, timeline_append, newest_append, show newest before (timeline k
      ((idx.eraseSince since).ages.flatMap MemoryAge.chain)) = none from hnone, Option.none_or,
      ← newest_visible, hdisk]
    rfl
  constructor
  · intro hall before hb k k' e hnone hsome hnew
    have hmin : min before since = before := min_eq_left hb
    have hnone' : newest before (timeline k (idx.eraseSince since).memoryChain) = none := by
      rwa [hages, newest_visible, hmin]
    refine hall before k k' e hnone' ((hchain before k hnone').mpr (by rwa [hmin])) ?_
    rwa [htimeline, newest_visible, hmin]
  · intro hall before k k' e hnone hsome hnew
    have hsome' := (hchain before k hnone).mp hsome
    rw [hages, newest_visible] at hnone
    rw [htimeline, newest_visible] at hnew
    exact hall _ (min_le_right _ _) k k' e hnone hsome' hnew

theorem mem_visible {e : OutputKV} : e ∈ visible since l ↔ e ∈ l ∧ e.height < since := by
  rw [visible, mem_filter, decide_eq_true_eq, versioned_height]

theorem nodup_of_descending (h : Descending l) : l.Nodup :=
  h.imp fun hlt heq => hlt.ne' (congrArg _ heq)

theorem Reaches.timeline_eq (h : Reaches since log idx) (hst : StoredIn log idx)
    {k : OutputKey} (hd : Descending (entriesOf k log)) :
    timeline k (idx.eraseSince since).chain = visible since (entriesOf k log) := by
  rw [timeline_eraseSince_of_erasable h.erasable]
  have hdt : Descending (timeline k idx.chain) := hd.sublist (hst.sublist k)
  apply Descending.eq_of_perm hdt.visible hd.visible
  rw [perm_ext_iff_of_nodup (nodup_of_descending hdt.visible) (nodup_of_descending hd.visible)]
  intro e
  rw [mem_visible, mem_visible]
  constructor
  · exact fun he => ⟨(hst.sublist k).subset he.1, he.2⟩
  · rintro ⟨he, hlt⟩
    rw [mem_entriesOf] at he
    exact ⟨mem_timeline.mpr ⟨h.stored e he.1 hlt, he.2⟩, hlt⟩

theorem reaches_of_live (hst : StoredIn log idx) (hlog : WellFormedLog log)
    (halt : ∀ k, Alternating (timeline k idx.chain))
    (hsame : ∀ k before, (live before (timeline k (idx.eraseSince since).chain)).isSome =
      (live before (visible since (entriesOf k log))).isSome) : Reaches since log idx := by
  have hheights : ∀ k h, (∃ e ∈ timeline k (idx.eraseSince since).chain, e.height = h) ↔
      ∃ e ∈ visible since (entriesOf k log), e.height = h := by
    intro k h
    have hd := (hlog.readable k).descending
    have hdt : Descending (timeline k idx.chain) := hd.sublist (hst.sublist k)
    obtain ⟨p, hp⟩ := exists_append_eraseSince since hdt
    obtain ⟨q, hq⟩ := exists_append_visible since hd
    have halt₁ := halt k
    have halt₂ := hlog.alternating k
    rw [hp] at hdt halt₁
    rw [hq] at halt₂
    have hiff := exists_height_iff (alternating_right halt₁) (descending_right hdt) h
    rw [hsame k h, hsame k (h + 1)] at hiff
    exact hiff.trans (exists_height_iff (alternating_right halt₂) hd.visible h).symm
  have hsub : ∀ k, ∀ e ∈ timeline k (idx.eraseSince since).chain, e ∈ timeline k idx.chain := by
    intro k e he
    obtain ⟨p, hp⟩ := exists_append_eraseSince since
      ((hlog.readable k).descending.sublist (hst.sublist k))
    rw [hp]
    exact mem_append_right p he
  constructor
  · intro e he hlt
    have hmem : e ∈ entriesOf e.key log := mem_entriesOf.mpr ⟨he, rfl⟩
    obtain ⟨e', he', hheight⟩ :=
      (hheights e.key e.height).mpr ⟨e, mem_visible.mpr ⟨hmem, hlt⟩, rfl⟩
    have hstored := hsub e.key e' he'
    have heq : e' = e := eq_of_height_eq (hlog.readable e.key).descending
      ((hst.sublist e.key).subset hstored) hmem hheight
    rw [← heq]
    exact (mem_timeline.mp hstored).1
  · intro e he
    have hmem : e ∈ timeline e.key (idx.eraseSince since).chain := by
      rw [timeline_eraseSince]
      exact mem_append_right _ (mem_timeline.mpr ⟨he, rfl⟩)
    obtain ⟨e', he', hheight⟩ := (hheights e.key e.height).mp ⟨e, hmem, rfl⟩
    rw [← hheight]
    exact (mem_visible.mp he').2

end Reach

section Blocks

variable (isCoinbase : Transaction → Bool)

/-- Blocks at increasing heights, at most one entry per key in each, whose records fit into the
table. -/
structure IncreasingBlocks (blocks : List ChainBlock) : Prop where
  increasing : blocks.Pairwise (fun b b' => b.height < b'.height)
  nonneg : ∀ b ∈ blocks, 0 ≤ b.height
  distinct : ∀ b ∈ blocks, ((blockEntries isCoinbase 0 b).map OutputKV.key).Nodup
  fits : totalSize blocks ≤ 2 ^ 44

variable {isCoinbase} {blocks : List ChainBlock} {b : ChainBlock}

theorem key_blockEntries (offset : ℕ) (b : ChainBlock) :
    (blockEntries isCoinbase offset b).map key = (blockEntries isCoinbase 0 b).map key := by
  rw [blockEntries, blockEntries, map_append, map_append, key_addEntries, key_addEntries]

theorem IncreasingBlocks.init (h : IncreasingBlocks isCoinbase (blocks ++ [b])) :
    IncreasingBlocks isCoinbase blocks := by
  have hfits := h.fits
  rw [totalSize_append_singleton] at hfits
  exact ⟨(pairwise_append.mp h.increasing).1, fun x hx => h.nonneg x (mem_append_left _ hx),
    fun x hx => h.distinct x (mem_append_left _ hx), by omega⟩

theorem IncreasingBlocks.height_lt (h : IncreasingBlocks isCoinbase (blocks ++ [b])) :
    ∀ x ∈ blocks, x.height < b.height :=
  fun x hx => (pairwise_append.mp h.increasing).2.2 x hx b (mem_singleton_self b)

section

variable (h : IncreasingBlocks isCoinbase blocks)
include h

theorem IncreasingBlocks.descending (k : OutputKey) :
    Descending (entriesOf k (blockLog isCoinbase 0 blocks)) := by
  induction blocks using reverseRecOn with
  | nil => exact Pairwise.nil
  | append_singleton blocks b ih =>
    have hfits := h.fits
    rw [totalSize_append_singleton] at hfits
    have hkeys := h.distinct b (by simp)
    rw [← key_blockEntries (totalSize blocks) b, Nodup, pairwise_map] at hkeys
    rw [blockLog_append_singleton, entriesOf_append, Nat.zero_add]
    apply pairwise_append.mpr
    refine ⟨?_, ih h.init, ?_⟩
    · -- a key has at most one entry in the block
      apply (hkeys.filter _).imp_of_mem
      intro e e' he he' hne
      exact absurd ((mem_entriesOf.mp he).2.trans (mem_entriesOf.mp he').2.symm) hne
    · intro e he e' he'
      obtain ⟨hheight, -⟩ := mem_blockEntries hfits (mem_entriesOf.mp he).1
      obtain ⟨⟨x, hx, hheight'⟩, -⟩ := mem_blockLog h.init.fits (mem_entriesOf.mp he').1
      rw [versioned_height, versioned_height, hheight, hheight']
      exact h.height_lt x hx

theorem IncreasingBlocks.readable (k : OutputKey) :
    Readable (entriesOf k (blockLog isCoinbase 0 blocks)) := by
  refine ⟨h.descending k, ?_, fun e he => (mem_blockLog h.fits (mem_entriesOf.mp he).1).2⟩
  intro e he
  obtain ⟨⟨b, hb, hheight⟩, -⟩ := mem_blockLog h.fits (mem_entriesOf.mp he).1
  rw [hheight]
  exact h.nonneg b hb

theorem IncreasingBlocks.blockLog_filter (since : ℤ) :
    blockLog isCoinbase 0 (blocks.filter (fun b => decide (b.height < since))) =
      (blockLog isCoinbase 0 blocks).filter (fun e => decide (e.height < since)) := by
  induction blocks using reverseRecOn with
  | nil => rfl
  | append_singleton blocks b ih =>
    have hfits := h.fits
    rw [totalSize_append_singleton] at hfits
    have hentries : (blockEntries isCoinbase (totalSize blocks) b).filter
        (fun e => decide (e.height < since)) = (blockEntries isCoinbase (totalSize blocks) b).filter
          (fun _ => decide (b.height < since)) :=
      filter_congr fun e he => by rw [(mem_blockEntries hfits he).1]
    rw [blockLog_append_singleton, Nat.zero_add, filter_append, filter_append, ← ih h.init,
      hentries]
    by_cases hlt : b.height < since
    · -- the blocks before a kept one are all kept, so the records keep their offsets
      have hall : blocks.filter (fun x => decide (x.height < since)) = blocks := by
        rw [filter_eq_self]
        intro x hx
        exact decide_eq_true ((h.height_lt x hx).trans hlt)
      simp [hlt, hall, blockLog_append_singleton]
    · simp [hlt]

end

end Blocks

section Engine

/-- `erase_since` of the engine. Committing the table leaves its next offset. -/
def UtxoDatabase.eraseSince (since : ℤ) (db : UtxoDatabase) : UtxoDatabase :=
  { db with index := db.index.eraseSince since }

def AnswersAlike (db db' : UtxoDatabase) : Prop :=
  ∀ keys before, db.query keys before = db'.query keys before

section Marks

variable {idx ref : UtxoIndex} {before : ℤ}

theorem unresolved_queryAges (hread : ∀ k, Readable (timeline k idx.memoryChain))
    (keys : List OutputKey) :
    unresolved (queryAges idx.ages (keys.map (fun k => (k, outputIdMax))) before) ↔
      ∃ k ∈ keys, newest before (timeline k idx.memoryChain) = none := by
  rw [queryAges_eq, batchRuns_eq_map, unresolved, map_map, any_map, any_eq_true]
  refine exists_congr fun k => and_congr_right fun _ => ?_
  have hhit : firstHit (scans before idx.memoryChain) k = _ := firstHit_scans (hread k)
  change decide ((firstHit (scans before idx.memoryChain) k).getD outputIdMax = outputIdMax) ↔ _
  rw [hhit, decide_eq_true_eq]
  cases hn : newest before (timeline k idx.memoryChain) with
  | none => simp
  | some e => simp [entryId_ne_max (hread k) (mem_of_newest hn)]

variable (hfit : idx.disk.FitsPages) (hfit' : ref.disk.FitsPages)
  (hread : ∀ k, Readable (timeline k idx.chain))
  (heq : ∀ k, timeline k idx.chain = timeline k ref.chain) (hdisk : ref.disk.chain = [])
include hfit hfit' hread heq hdisk

/-- Indexes with the same timelines, the second one all in memory, answer every batch alike if and
only if no key is spent wherever some key is found on disk only. -/
theorem batchQuery_alike_iff :
    (∀ (keys : List OutputKey) (before : ℤ),
      idx.batchQuery (keys.map (fun k => (k, outputIdMax))) before =
        ref.batchQuery (keys.map (fun k => (k, outputIdMax))) before) ↔
    ∀ before k k' e, newest before (timeline k idx.memoryChain) = none →
      newest before (timeline k idx.chain) ≠ none →
      newest before (timeline k' idx.chain) = some e → e.isAdd := by
  have hmemory : ∀ k, Readable (timeline k idx.memoryChain) := fun k =>
    (hread k).sublist (by rw [chain, timeline_append]; exact sublist_append_left _ _)
  have hwhole : ∀ k, timeline k ref.memoryChain = timeline k idx.chain := by
    intro k
    rw [heq, chain, hdisk, append_nil]
    rfl
  have hunresolved : ∀ (keys : List OutputKey) (before : ℤ), unresolved (queryAges ref.ages
      (keys.map (fun k => (k, outputIdMax))) before) ↔
        ∃ k ∈ keys, newest before (timeline k idx.chain) = none := by
    intro keys before
    rw [unresolved_queryAges (fun k => (hwhole k).symm ▸ hread k)]
    simp only [hwhole]
  have hanswer : ∀ before k, ref.answer before k = idx.answer before k := by
    intro before k
    rw [answer_eq hfit (hread k), answer_eq hfit' (heq k ▸ hread k), heq]
  simp only [batchQuery_eq, hanswer, hunresolved, unresolved_queryAges hmemory]
  constructor
  · intro hall before k k' e hnone hsome hnew
    by_contra hadd
    have hmarked : idx.answer before k' = outputIdDeleted := by
      rw [answer_eq hfit (hread k'), hnew]
      exact if_neg hadd
    have hmixed := hall [k', k] before
    rw [if_pos ⟨k, by simp, hnone⟩, if_neg (by simp [hsome, hnew])] at hmixed
    have hhead := congrArg (fun l => l.head?.map Prod.snd) hmixed
    simp [DiskIndex.normalizeDeleted, hmarked, outputIdDeleted_ne_max.symm] at hhead
  · intro hall keys before
    split_ifs with hmiss hnone hnone
    · rfl
    · obtain ⟨k, hk, hmiss⟩ := hmiss
      push Not at hnone
      rw [DiskIndex.normalizeDeleted, map_map]
      apply map_congr_left
      intro k' hk'
      obtain ⟨e, hnew⟩ := Option.ne_none_iff_exists'.mp (hnone k' hk')
      have hadd := hall before k k' e hmiss (hnone k hk) hnew
      have hid : idx.answer before k' ≠ outputIdDeleted := by
        rw [answer_eq hfit (hread k'), hnew]
        simpa [entryId, hadd] using ((hread k').tableIds e (mem_of_newest hnew) hadd).2
      exact if_neg hid
    · obtain ⟨k, hk, hnone⟩ := hnone
      rw [chain, timeline_append, newest_append, Option.or_eq_none_iff] at hnone
      exact absurd ⟨k, hk, hnone.1⟩ hmiss
    · rfl

end Marks

variable {db' db : UtxoDatabase} {before : ℤ}

theorem AnswersAlike.isSome_live (h : AnswersAlike db db') (hfit : db.index.disk.FitsPages)
    (hfit' : db'.index.disk.FitsPages) {k : OutputKey}
    (hread : Readable (timeline k db.index.chain)) (hread' : Readable (timeline k db'.index.chain))
    (before : ℤ) : (live before (timeline k db.index.chain)).isSome =
      (live before (timeline k db'.index.chain)).isSome := by
  obtain ⟨s, hs, hkey⟩ := map_eq_singleton_iff.mp (query_keys db [k] before)
  have hmem : s ∈ db.query [k] before := hs ▸ mem_singleton_self s
  have hiff : ∀ d : UtxoDatabase, d.index.disk.FitsPages → Readable (timeline k d.index.chain) →
      s ∈ d.query [k] before →
        (IsTableId s.2 ↔ (live before (timeline k d.index.chain)).isSome) := by
    intro d hd hreadable hin
    rw [← hkey] at hreadable ⊢
    rw [← entriesOf_flatten]
    apply LogAnswers.isTableId_iff _ (by rwa [entriesOf_flatten])
    exact logAnswers_of_live hd hin hreadable (by rw [entriesOf_flatten])
  rw [Bool.eq_iff_iff, ← hiff db hfit hread hmem, ← hiff db' hfit' hread' (h [k] before ▸ hmem)]

variable {isCoinbase : Transaction → Bool} {runMax runMax' : ℕ}
  {steps reference : List DatabaseStep} {since : ℤ}

theorem timeline_reference (hblocks : IncreasingBlocks isCoinbase (blocksOf steps))
    (hfree : ∀ s ∈ reference, s.MergeFree)
    (href : blocksOf reference = (blocksOf steps).filter (fun b => decide (b.height < since)))
    (k : OutputKey) :
    timeline k (runDatabase isCoinbase runMax' empty reference).index.chain =
      visible since (entriesOf k (blockLog isCoinbase 0 (blocksOf steps))) := by
  have hlog : ∀ k, entriesOf k (logOf (indexSteps isCoinbase 0 reference)) =
      visible since (entriesOf k (blockLog isCoinbase 0 (blocksOf steps))) := by
    intro k
    rw [logOf_indexSteps, href, hblocks.blockLog_filter since]
    exact filter_comm _ _ _
  have hread : ∀ k, Readable (entriesOf k (logOf (indexSteps isCoinbase 0 reference))) := by
    intro k
    rw [hlog]
    exact (hblocks.readable k).sublist filter_sublist
  rw [runDatabase_index, ← hlog]
  exact timeline_runSteps hread (fences_indexSteps isCoinbase hfree 0) k

section Rollback

variable (hblocks : IncreasingBlocks isCoinbase (blocksOf steps))
  (hE : ∀ s ∈ indexSteps isCoinbase 0 steps, s.EvictionInRange)
  (hclean : CleanRun runMax UtxoIndex.empty (indexSteps isCoinbase 0 steps))

include hblocks hE hclean

theorem storedIn_runDatabase : StoredIn (blockLog isCoinbase 0 (blocksOf steps))
      (runDatabase isCoinbase runMax empty steps).index := by
  rw [runDatabase_index, ← logOf_indexSteps]
  apply storedIn_runSteps _ hE hclean
  intro k
  rw [logOf_indexSteps]
  exact hblocks.readable k

theorem readable_eraseSince (since : ℤ) (k : OutputKey) : Readable (timeline k
      ((runDatabase isCoinbase runMax empty steps).index.eraseSince since).chain) := by
  have hstored := (storedIn_runDatabase hblocks hE hclean).sublist k
  have hread := (hblocks.readable k).sublist hstored
  obtain ⟨p, hp⟩ := exists_append_eraseSince since hread.descending
  rw [hp] at hread
  exact hread.sublist (sublist_append_right _ _)

theorem refines_runDatabase
    (halt : ∀ k, Alternating (entriesOf k (blockLog isCoinbase 0 (blocksOf steps)))) {bound : ℤ}
    (hb : AboveFences bound (indexSteps isCoinbase 0 steps)) :
    Refines bound (blockLog isCoinbase 0 (blocksOf steps))
      (runDatabase isCoinbase runMax empty steps).index := by
  have hlog : WellFormedLog (logOf (indexSteps isCoinbase 0 steps)) := by
    rw [logOf_indexSteps]
    exact ⟨hblocks.readable, halt⟩
  rw [runDatabase_index, ← logOf_indexSteps]
  exact refines_runSteps hlog hE hclean hb

variable (hfit : (runDatabase isCoinbase runMax UtxoDatabase.empty steps).index.disk.FitsPages)
  (hfree : ∀ s ∈ reference, s.MergeFree)
  (href : blocksOf reference = (blocksOf steps).filter (fun b => decide (b.height < since)))
include hfit hfree href

theorem reaches_of_answersAlike
    (halt : ∀ k, Alternating (entriesOf k (blockLog isCoinbase 0 (blocksOf steps))))
    (h : AnswersAlike ((runDatabase isCoinbase runMax empty steps).eraseSince since)
      (runDatabase isCoinbase runMax' empty reference)) :
    Reaches since (blockLog isCoinbase 0 (blocksOf steps))
      (runDatabase isCoinbase runMax empty steps).index := by
  obtain ⟨b, hb⟩ :=
    ((indexSteps isCoinbase 0 steps).flatMap IndexStep.fences).toFinset.bddAbove
  have hfences : AboveFences (b + 1) (indexSteps isCoinbase 0 steps) := by
    left
    intro f hf
    exact Int.lt_add_one_of_le (hb (mem_toFinset.mpr hf))
  have hrefines := refines_runDatabase hblocks hE hclean halt hfences
  apply reaches_of_live (storedIn_runDatabase hblocks hE hclean) ⟨hblocks.readable, halt⟩
  · exact fun k => (hrefines.cancels k).alternating (halt k)
  · intro k before
    have htimeline : timeline k (runDatabase isCoinbase runMax' empty
        reference).index.chain = _ := timeline_reference hblocks hfree href k
    rw [← htimeline]
    apply h.isSome_live hfit (fitsPages_of_mergeFree hfree)
      (readable_eraseSince hblocks hE hclean since k)
    rw [htimeline]
    exact (hblocks.readable k).sublist filter_sublist

theorem answersAlike_iff_unmixed (hreach : Reaches since (blockLog isCoinbase 0 (blocksOf steps))
      (runDatabase isCoinbase runMax empty steps).index) :
    AnswersAlike ((runDatabase isCoinbase runMax empty steps).eraseSince since)
        (runDatabase isCoinbase runMax' empty reference) ↔
      Unmixed since (blockLog isCoinbase 0 (blocksOf steps))
        (runDatabase isCoinbase runMax empty steps).index := by
  have htimeline := fun k =>
    hreach.timeline_eq (storedIn_runDatabase hblocks hE hclean) (hblocks.descending k)
  rw [← unmixed_iff hreach.erasable htimeline]
  refine batchQuery_alike_iff hfit (fitsPages_of_mergeFree hfree)
    (readable_eraseSince hblocks hE hclean since) (fun k => ?_) ?_
  · rw [timeline_reference hblocks hfree href]
    exact htimeline k
  · rw [disk_of_mergeFree hfree]
    rfl

end Rollback

end Engine

section Sample

def spendBlock : ChainBlock :=
  ⟨[coinbaseTx, ⟨[⟨10, 0⟩], [⟨50, [0x51]⟩]⟩], [20, 11], 101⟩

def spendRun (merges : List (ℤ × ℕ)) : List DatabaseStep :=
  releasedRun [subsidyBlock, spendBlock] merges

variable (merges : List (ℤ × ℕ))

theorem blocksOf_spendRun : blocksOf (spendRun merges) = [subsidyBlock, spendBlock] :=
  blocksOf_releasedRun

theorem increasingBlocks_spendRun : IncreasingBlocks nullCoinbase (blocksOf (spendRun merges)) := by
  rw [blocksOf_spendRun]
  constructor <;> decide

theorem once_spendRun (k : OutputKey) :
    Alternating (entriesOf k (blockLog nullCoinbase 0 (blocksOf (spendRun merges)))) ∧
      (entriesOf k (blockLog nullCoinbase 0 (blocksOf (spendRun merges)))).length ≤ 2 := by
  have hfirst : ValidChain nullCoinbase [subsidyBlock] := by
    apply ValidChain.nil.snoc _ (nofun) (by decide)
    constructor <;> decide
  have hvalid : ValidChain nullCoinbase ([subsidyBlock] ++ [spendBlock]) := by
    apply hfirst.snoc _ (by decide) (by decide)
    constructor <;> decide
  obtain ⟨o, rfl⟩ := exists_outpoint k
  rw [blocksOf_spendRun]
  obtain ⟨halt, hlength⟩ := alternating_blockLog hvalid (by decide) (by decide) o
  exact ⟨halt, hlength.trans (by split_ifs <;> omega)⟩

theorem fitsPages_spendRun {merges : List (ℤ × ℕ)} (h : ∀ m ∈ merges, m.2 + 1 < 4) :
    (runDatabase nullCoinbase 35000 UtxoDatabase.empty (spendRun merges)).index.disk.FitsPages := by
  obtain ⟨b, hb⟩ := (merges.map Prod.fst).toFinset.bddAbove
  have habove := @cleanMerges_releasedRun nullCoinbase [subsidyBlock, spendBlock] merges (b + 1) h
    (by decide) (fun m hm => Int.lt_add_one_of_le (hb (by simpa using ⟨m.2, hm⟩)))
  have hrefines := refines_runDatabase (increasingBlocks_spendRun merges)
    (fun t ht => (releasedRun_steps h t ht).1) (cleanRun_releasedRun h)
    (fun k => (once_spendRun merges k).1) habove.above
  exact hrefines.fitsPages (fun k => (once_spendRun merges k).2.trans (by decide))

def firstOnly : List DatabaseStep := [.block false false subsidyBlock]

theorem blocksOf_firstOnly :
    blocksOf firstOnly =
      (blocksOf (spendRun merges)).filter (fun b => decide (b.height < 101)) := by
  rw [blocksOf_spendRun]
  rfl

theorem mergeFree_firstOnly : ∀ s ∈ firstOnly, s.MergeFree := by
  simp [firstOnly, MergeFree]

end Sample

end BlvmNode
