import BlvmNode.MemoryRun

/-!
# Merging runs and the garbage collection pass

`MemoryRun::merge` merges the runs in index order and then drops Add/Delete pairs of one key.
A Delete waits in `pending` until the next entry shows whether its Add is part of the merge.
-/

namespace BlvmNode

open KeyedRuns Timeline List Option OutputKV

/-- The survivors so far, last one first, and the Delete that waits for its Add. -/
structure GcState where
  kept : List OutputKV
  pending : Option OutputKV

namespace GcState

def init : GcState := ⟨[], none⟩

def flush (st : GcState) (e : OutputKV) : GcState :=
  match st.pending with
  | some d => if d.key ≠ e.key then ⟨d :: st.kept, none⟩ else st
  | none => st

def step (fence : ℤ) (st : GcState) (e : OutputKV) : GcState :=
  let st := st.flush e
  if e.isDelete then
    if st.kept.head?.any (fun last =>
        decide (last.key = e.key) && decide (last.height = e.height) && last.isAdd) then
      ⟨st.kept.tail, st.pending⟩
    else ⟨st.kept, some e⟩
  else
    match st.pending with
    | some d =>
      if d.key = e.key ∧ e.height < d.height then
        if d.height ≤ fence then ⟨st.kept, none⟩ else ⟨e :: d :: st.kept, none⟩
      else ⟨e :: d :: st.kept, none⟩
    | none => ⟨e :: st.kept, none⟩

def output (st : GcState) : List OutputKV := st.kept.reverse ++ st.pending.toList

end GcState

open GcState

def gcPass (fence : ℤ) (merged : List OutputKV) : List OutputKV :=
  (merged.foldl (GcState.step fence) GcState.init).output

variable {d e : OutputKV} {pre : List OutputKV} {st : GcState}

namespace GcState

theorem output_flush (st : GcState) (e : OutputKV) : (st.flush e).output = st.output := by
  unfold flush
  split
  · rename_i d hd
    split_ifs <;> simp [output, hd]
  · rfl

theorem flush_pending (h : (st.flush e).pending = some d) :
    st.pending = some d ∧ d.key = e.key := by
  unfold flush at h
  split at h
  · rename_i d' hd
    split_ifs at h with hk
    rw [hd] at h ⊢
    cases h
    exact ⟨rfl, not_not.mp hk⟩
  · rename_i hnone
    rw [hnone] at h
    cases h

/-- A same-height pair leaves, the entry joins (perhaps for a waiting Delete), or a cross-height
pair below the fence leaves. -/
theorem step_cases (fence : ℤ) (st : GcState) (e : OutputKV) :
    (∃ last rest, e.isAdd = false ∧ (st.flush e).kept = last :: rest ∧ last.isAdd ∧
      last.key = e.key ∧ last.height = e.height ∧
      st.step fence e = ⟨rest, (st.flush e).pending⟩) ∨
    (e.isAdd = false ∧ st.step fence e = ⟨(st.flush e).kept, some e⟩) ∨
    (∃ d, e.isAdd ∧ (st.flush e).pending = some d ∧ e.height < d.height ∧
      d.height ≤ fence ∧ st.step fence e = ⟨(st.flush e).kept, none⟩) ∨
    (e.isAdd ∧ st.step fence e = ⟨e :: (st.flush e).output.reverse, none⟩) := by
  unfold step
  cases he : e.isAdd with
  | false =>
    simp only [isDelete_eq, he, Bool.not_false, if_true]
    split_ifs with hlast
    · rw [Option.any_eq_true] at hlast
      obtain ⟨last, hhead, hcond⟩ := hlast
      simp only [Bool.and_eq_true, decide_eq_true_eq] at hcond
      obtain ⟨rest, hrest⟩ : ∃ rest, (st.flush e).kept = last :: rest :=
        ⟨_, eq_cons_of_mem_head? hhead⟩
      refine .inl ⟨last, rest, trivial, hrest, hcond.2, hcond.1.1, hcond.1.2, ?_⟩
      rw [hrest, tail_cons]
    · exact .inr (.inl ⟨trivial, rfl⟩)
  | true =>
    simp only [isDelete_eq, he, Bool.not_true, Bool.false_eq_true, if_false]
    cases hp : (st.flush e).pending with
    | none => exact .inr (.inr (.inr ⟨trivial, by simp [output, hp]⟩))
    | some d =>
      simp only
      split_ifs with hcross hf
      · exact .inr (.inr (.inl ⟨d, trivial, rfl, hcross.2, hf, rfl⟩))
      · exact .inr (.inr (.inr ⟨trivial, by simp [output, hp]⟩))
      · exact .inr (.inr (.inr ⟨trivial, by simp [output, hp]⟩))

end GcState

theorem gcPass_append (fence : ℤ) (pre : List OutputKV) (e : OutputKV) :
    gcPass fence (pre ++ [e]) = ((pre.foldl (step fence) init).step fence e).output := by
  simp [gcPass]

theorem gcPass_eq_flush (fence : ℤ) (pre : List OutputKV) (e : OutputKV) :
    gcPass fence pre = ((pre.foldl (step fence) init).flush e).output := by
  rw [output_flush]
  rfl

theorem GcState.step_sublist (fence : ℤ) (st : GcState) (e : OutputKV) :
    (st.step fence e).output.Sublist (st.output ++ [e]) := by
  have hkept : (st.flush e).kept.reverse.Sublist (st.output ++ [e]) := by
    rw [← st.output_flush e]
    exact (sublist_append_left _ _).trans (sublist_append_left _ _)
  rcases st.step_cases fence e with ⟨last, rest, -, hk, -, -, -, hstep⟩ | ⟨-, hstep⟩ |
    ⟨d, -, -, -, -, hstep⟩ | ⟨-, hstep⟩
  · rw [hstep, ← st.output_flush e]
    refine Sublist.trans ?_ (sublist_append_left _ _)
    simp only [output, hk, reverse_cons, append_assoc]
    exact Sublist.append_left (sublist_append_right _ _) _
  · rw [hstep, ← st.output_flush e]
    simp only [output, toList_some]
    exact (sublist_append_left _ _).append_right [e]
  · rw [hstep]
    simpa [output] using hkept
  · rw [hstep, ← st.output_flush e]
    simp [output]

theorem GcState.foldl_sublist (fence : ℤ) (st : GcState) (entries : List OutputKV) :
    (entries.foldl (step fence) st).output.Sublist (st.output ++ entries) := by
  induction entries generalizing st with
  | nil => simp
  | cons e entries ih =>
    refine (ih (st.step fence e)).trans ?_
    have := (st.step_sublist fence e).append_right entries
    rwa [append_assoc, singleton_append] at this

theorem gcPass_sublist (fence : ℤ) (merged : List OutputKV) :
    (gcPass fence merged).Sublist merged :=
  foldl_sublist fence init merged

theorem sorted_gcPass {fence : ℤ} {merged : List OutputKV} (h : Sorted merged) :
    Sorted (gcPass fence merged) := Pairwise.sublist (gcPass_sublist fence merged) h

namespace MemoryRun

def mergeEntries (fence : ℤ) (inputs : List (List OutputKV)) : List OutputKV :=
  gcPass fence (KWayMerge.kWayMerge OutputKV.le inputs)

def merge (fence : ℤ) (inputs : List MemoryRun) : MemoryRun where
  entries := mergeEntries fence (inputs.map MemoryRun.entries)
  isMutable := false
  sorted := by
    refine sorted_gcPass (KWayMerge.kWayMerge_pairwise ?_)
    intro run hrun
    obtain ⟨r, -, rfl⟩ := List.mem_map.mp hrun
    exact r.sorted

end MemoryRun

def NoAdjacentDeletes (entries : List OutputKV) : Prop :=
  entries.IsChain (fun a b => a.key = b.key → a.isAdd = false → b.isAdd = true)

theorem NoAdjacentDeletes.of_append (h : NoAdjacentDeletes (pre ++ [e])) : NoAdjacentDeletes pre ∧
      ∀ x ∈ pre.getLast?, x.key = e.key → x.isAdd = false → e.isAdd := by
  have hc := isChain_append.mp h
  exact ⟨hc.1, fun x hx => hc.2.2 x hx e rfl⟩

theorem pending_spec {fence : ℤ} {merged : List OutputKV}
    (h : (merged.foldl (step fence) init).pending = some d) :
    d.isAdd = false ∧ ∃ x, merged.getLast? = some x ∧ x.key = d.key ∧ x.isAdd = false := by
  induction merged using reverseRecOn with
  | nil => simp [init] at h
  | append_singleton pre e ih =>
    rw [foldl_append, foldl_cons, foldl_nil] at h
    rw [getLast?_concat]
    set st := pre.foldl (step fence) init
    rcases st.step_cases fence e with ⟨last, rest, he, -, -, -, -, hstep⟩ | ⟨he, hstep⟩ |
      ⟨d', -, -, -, -, hstep⟩ | ⟨-, hstep⟩
    · rw [hstep] at h
      obtain ⟨hpend, hkey⟩ := flush_pending h
      exact ⟨(ih hpend).1, e, rfl, hkey.symm, he⟩
    · rw [hstep, some.injEq] at h
      rw [← h]
      exact ⟨he, e, rfl, rfl, he⟩
    · simp [hstep] at h
    · simp [hstep] at h

theorem flush_pending_none {fence : ℤ} (hn : NoAdjacentDeletes (pre ++ [e]))
    (he : e.isAdd = false) : ((pre.foldl (step fence) init).flush e).pending = none := by
  cases hp : ((pre.foldl (step fence) init).flush e).pending with
  | none => rfl
  | some d =>
    obtain ⟨hpend, hkey⟩ := flush_pending hp
    obtain ⟨-, x, hx, hxk, hxd⟩ := pending_spec hpend
    have := hn.of_append.2 x hx (hxk.trans hkey) hxd
    rw [he] at this
    cases this

structure CancelledPair (fence : ℤ) (a d : OutputKV) : Prop where
  isAdd : a.isAdd = true
  isDelete : d.isAdd = false
  key : a.key = d.key
  height : a.height = d.height ∨ a.height < d.height ∧ d.height ≤ fence

def pairEntries (pairs : List (OutputKV × OutputKV)) : List OutputKV :=
  pairs.flatMap (fun p => [p.1, p.2])

variable {fence : ℤ} {merged : List OutputKV} {k : OutputKey}

/-- What the pass drops is an Add with its Delete, or a Delete replaced by a later one while it
waited. -/
theorem gcPass_account (fence : ℤ) (merged : List OutputKV) :
    ∃ pairs lost, merged.Perm (gcPass fence merged ++ (pairEntries pairs ++ lost)) ∧
      (∀ p ∈ pairs, CancelledPair fence p.1 p.2) ∧ (∀ x ∈ lost, x.isAdd = false) ∧
      (NoAdjacentDeletes merged → lost = []) := by
  induction merged using reverseRecOn with
  | nil => exact ⟨[], [], by simp [gcPass, init, output, pairEntries], by simp⟩
  | append_singleton pre e ih =>
    obtain ⟨pairs, lost, hperm, hpairs, hlost, hnone⟩ := ih
    have hnone' : NoAdjacentDeletes (pre ++ [e]) → lost = [] := fun h => hnone h.of_append.1
    rw [gcPass_eq_flush fence pre e, perm_iff_count] at hperm
    rw [gcPass_append]
    set st := pre.foldl (step fence) init with hst
    rcases st.step_cases fence e with ⟨last, rest, he, hk, hla, hlk, hlh, hstep⟩ |
      ⟨he, hstep⟩ | ⟨d, he, hpend, hlt, hf, hstep⟩ | ⟨-, hstep⟩
    · refine ⟨(last, e) :: pairs, lost, perm_iff_count.mpr fun x => ?_,
        forall_mem_cons.mpr ⟨⟨hla, he, hlk, .inl hlh⟩, hpairs⟩, hlost, hnone'⟩
      have hx := hperm x
      simp only [hstep, hk, output, pairEntries, count_append, count_cons,
        count_nil, flatMap_cons, reverse_cons, count_reverse] at hx ⊢
      omega
    · refine ⟨pairs, (st.flush e).pending.toList ++ lost, perm_iff_count.mpr fun x => ?_,
        hpairs, ?_, ?_⟩
      · have hx := hperm x
        simp only [hstep, output, count_append, toList_some] at hx ⊢
        omega
      · intro x hx
        rcases mem_append.mp hx with hx | hx
        · rw [mem_toList] at hx
          exact (pending_spec (flush_pending hx).1).1
        · exact hlost x hx
      · intro hn
        rw [hst, flush_pending_none hn he, hnone' hn]
        rfl
    · have hd := pending_spec (flush_pending hpend).1
      have hkey := (flush_pending hpend).2
      refine ⟨(e, d) :: pairs, lost, perm_iff_count.mpr fun x => ?_,
        forall_mem_cons.mpr ⟨⟨he, hd.1, hkey.symm, .inr ⟨hlt, hf⟩⟩, hpairs⟩, hlost, hnone'⟩
      have hx := hperm x
      simp only [hstep, hpend, output, pairEntries, count_append, count_cons,
        count_nil, flatMap_cons, toList_some, toList_none] at hx ⊢
      omega
    · refine ⟨pairs, lost, perm_iff_count.mpr fun x => ?_, hpairs, hlost, hnone'⟩
      have hx := hperm x
      simp only [hstep, output, count_append, count_cons, count_nil,
        reverse_cons, count_reverse, toList_none, reverse_append] at hx ⊢
      omega

/-- On strictly descending timelines the pass only drops a Delete at or below the fence with the Add
below it. -/
theorem gcPass_cancels (hd : ∀ k, Descending (entriesOf k merged)) (hn : NoAdjacentDeletes merged)
    (k : OutputKey) :
    Cancels (fence + 1) (entriesOf k merged) (entriesOf k (gcPass fence merged)) := by
  induction merged using reverseRecOn with
  | nil => exact Cancels.refl _
  | append_singleton pre e ih =>
    have hpre : ∀ k, Descending (entriesOf k pre) :=
      fun k => (hd k).sublist ((sublist_append_left ..).filter _)
    have ih' := ih hpre hn.of_append.1
    have hsub := gcPass_sublist fence pre
    rw [gcPass_eq_flush fence pre e] at ih' hsub
    rw [gcPass_append, entriesOf_append]
    set st := pre.foldl (step fence) init with hst
    rcases st.step_cases fence e with ⟨last, rest, -, hk, -, hlk, hlh, -⟩ |
      ⟨he, hstep⟩ | ⟨d, he, hpend, hlt, hf, hstep⟩ | ⟨-, hstep⟩
    · exfalso
      have hmem : last ∈ pre := hsub.subset (by simp [output, hk])
      have hdesc := hd e.key
      rw [entriesOf_append] at hdesc
      have hlt : e.height < last.height :=
        (pairwise_append.mp hdesc).2.2 last (mem_entriesOf.mpr ⟨hmem, hlk⟩) e
          (mem_entriesOf.mpr ⟨mem_singleton_self e, rfl⟩)
      omega
    · have hp : (st.flush e).pending = none := by
        rw [hst]
        exact flush_pending_none hn he
      simp only [output, hp, toList_none, append_nil] at ih'
      simp only [hstep, output, toList_some, entriesOf_append]
      exact ih'.append (Cancels.refl _)
    · have hdd := (pending_spec (flush_pending hpend).1).1
      have hkey := (flush_pending hpend).2
      simp only [output, hpend, toList_some, entriesOf_append] at ih'
      simp only [hstep, output, toList_none, append_nil]
      refine (ih'.append (Cancels.refl (entriesOf k [e]))).trans ?_
      by_cases hek : e.key = k
      · have hpair := (Cancels.pair d e hdd he (by simpa using Int.lt_add_one_of_le hf)
          (Cancels.refl ([] : List OutputKV)) : Cancels (fence + 1) _ _)
        have hctx := hpair.context (entriesOf k (st.flush e).kept.reverse) []
        simpa [entriesOf_cons, hkey, hek] using hctx
      · simpa [entriesOf_cons, hkey, hek] using Cancels.refl _
    · simp only [hstep, output, reverse_cons, reverse_reverse,
        toList_none, append_nil, entriesOf_append]
      rw [output, entriesOf_append] at ih'
      exact ih'.append (Cancels.refl _)

theorem noAdjacentDeletes_of_entriesOf
    (h : ∀ k, NoDoubleRemoval (entriesOf k merged)) : NoAdjacentDeletes merged := by
  induction merged with
  | nil => exact IsChain.nil
  | cons a merged ih =>
    have htail : ∀ k, NoDoubleRemoval (entriesOf k merged) := by
      intro k
      have := h k
      rw [entriesOf_cons] at this
      split_ifs at this
      · exact IsChain.tail this
      · exact this
    cases merged with
    | nil => exact isChain_singleton a
    | cons b rest =>
      refine isChain_cons_cons.mpr ⟨?_, ih htail⟩
      intro hk ha
      have := h b.key
      simp only [entriesOf_cons, keyed_key, hk, if_true] at this
      exact (isChain_cons_cons.mp this).1 ha

/-- Merging adjacent runs collects garbage on every timeline and does nothing else. -/
theorem mergeEntries_cancels {inputs chain : List (List OutputKV)}
    (hs : ∀ run ∈ inputs, Sorted run) (hp : inputs.flatten.Perm chain.flatten)
    (hd : ∀ k, Descending (timeline k chain)) (hn : ∀ k, NoDoubleRemoval (timeline k chain))
    (k : OutputKey) : Cancels (fence + 1) (timeline k chain)
      (entriesOf k (MemoryRun.mergeEntries fence inputs)) := by
  have hsorted := KWayMerge.kWayMerge_pairwise hs
  have hperm := (KWayMerge.kWayMerge_perm (r := le) inputs).trans hp
  have heq : ∀ k, entriesOf k (KWayMerge.kWayMerge le inputs) = timeline k chain :=
    fun k => entriesOf_merged hperm (Sorted.entriesOf_heights hsorted k) (hd k)
  rw [← heq k]
  refine gcPass_cancels ?_ (noAdjacentDeletes_of_entriesOf ?_) k
  · intro k'
    rw [heq k']
    exact hd k'
  · intro k'
    rw [heq k']
    exact hn k'

namespace MemoryRun

/-- Runs are asked from the newest on; the first one that reports the key decides. -/
def chainLookup (before : ℤ) (key : OutputKey) (chain : List MemoryRun) : Option OutputId :=
  chain.findSome? (fun run => run.lookupKey key 0 before)

def liveId (before : ℤ) (key : OutputKey) (chain : List MemoryRun) : Option OutputId :=
  (chainLookup before key chain).filter (fun id => decide (id ≠ outputIdDeleted))

/-- The history of each key along a chain: Adds and Deletes alternate at increasing heights. -/
def History (chain : List MemoryRun) : Prop :=
  ∀ k, Alternating (timeline k (chain.map entries)) ∧ Descending (timeline k (chain.map entries)) ∧
    ∀ e ∈ timeline k (chain.map entries), 0 ≤ e.height

section

variable {key : OutputKey} {chain : List MemoryRun}
    (hd : Descending (timeline key (chain.map entries)))
    (h0 : ∀ e ∈ timeline key (chain.map entries), 0 ≤ e.height) {before : ℤ}
include hd h0

theorem chainLookup_eq : chainLookup before key chain =
      (newest before (timeline key (chain.map entries))).map entryId := by
  induction chain with
  | nil => rfl
  | cons run chain ih =>
    rw [map_cons, timeline_cons] at hd h0 ⊢
    rw [forall_mem_append] at h0
    have hrun : scanKey key 0 before (entriesOf key run.entries) = _ :=
      scanKey_descending (fun e he => (mem_entriesOf.mp he).2) h0.1 (descending_left hd)
    rw [chainLookup, findSome?_cons, lookupKey_eq, hrun, newest_append]
    cases newest before (entriesOf key run.entries) with
    | none => exact ih (descending_right hd) h0.2
    | some e => rfl

theorem liveId_eq : liveId before key chain = ((live before (timeline key (chain.map entries))).map
      OutputKV.id).filter (fun id => decide (id ≠ outputIdDeleted)) := by
  rw [liveId, chainLookup_eq hd h0, live]
  cases newest before (timeline key (chain.map entries)) with
  | none => rfl
  | some e =>
    rw [filter_some, versioned_isAdd, map_some, entryId]
    split_ifs with ha
    · rfl
    · simp

end

/-- Replacing neighbouring runs of a chain by their merge changes no live id above the fence. -/
theorem merge_keeps_live_ids (fence : ℤ) {before : ℤ} (hb : fence < before)
    {newer runs older : List MemoryRun} (h : History (newer ++ runs.reverse ++ older))
    (key : OutputKey) :
    liveId before key (newer ++ [merge fence runs] ++ older) =
        liveId before key (newer ++ runs.reverse ++ older) ∧
      Sorted (merge fence runs).entries := by
  refine ⟨?_, (merge fence runs).sorted⟩
  have hsplit : ∀ k (mid : List MemoryRun), timeline k ((newer ++ mid ++ older).map entries) =
      timeline k (newer.map entries) ++ timeline k (mid.map entries) ++
        timeline k (older.map entries) := by
    intro k mid
    rw [map_append, map_append, timeline_append, timeline_append]
  have hmerge := @mergeEntries_cancels fence (runs.map entries) (runs.reverse.map entries)
    (fun run hrun => by
      obtain ⟨r, -, rfl⟩ := mem_map.mp hrun
      exact r.sorted)
    (by
      rw [map_reverse]
      exact ((reverse_perm (runs.map entries)).flatten).symm)
    (fun k => by
      have hd := (h k).2.1
      rw [hsplit] at hd
      exact descending_right (descending_left hd))
    (fun k => by
      have ha := (h k).1.noDoubleRemoval
      rw [hsplit] at ha
      exact ha.infix) key
  obtain ⟨halt, hdesc, hpos⟩ := h key
  have hcancels : Cancels (fence + 1) (timeline key ((newer ++ runs.reverse ++ older).map entries))
      (timeline key ((newer ++ [merge fence runs] ++ older).map entries)) := by
    rw [hsplit, hsplit, map_singleton, timeline_cons, timeline_nil, append_nil]
    exact hmerge.context _ _
  rw [liveId_eq hdesc hpos, liveId_eq (hcancels.descending hdesc)
    (fun e he => hpos e (hcancels.sublist.subset he)), hcancels.live halt hdesc (by omega)]

/-- A creation and its spend in two neighbouring runs: the merge drops both. -/
theorem merge_keeps_live_ids_pair :
    let add : MemoryRun := ⟨[OutputKV.newAdd ⟨1, 0⟩ 3 7], false, pairwise_singleton ..⟩
    let spend : MemoryRun := ⟨[OutputKV.newDelete ⟨1, 0⟩ 5], false, pairwise_singleton ..⟩
    (merge 8 [add, spend]).entries = [] ∧
      liveId 9 ⟨1, 0⟩ ([] ++ [merge 8 [add, spend]] ++ []) =
        liveId 9 ⟨1, 0⟩ ([] ++ [add, spend].reverse ++ []) := by
  refine ⟨by decide, (merge_keeps_live_ids 8 (by decide) (fun k => ?_) ⟨1, 0⟩).1⟩
  have hline : timeline k [[newDelete ⟨1, 0⟩ 5], [newAdd ⟨1, 0⟩ 3 7]] =
      if (⟨1, 0⟩ : OutputKey) = k then [newDelete ⟨1, 0⟩ 5, newAdd ⟨1, 0⟩ 3 7]
      else [] := by
    simp only [timeline_cons, timeline_nil, entriesOf_cons, entriesOf_nil, keyed_key,
      newAdd, newDelete]
    split_ifs <;> rfl
  change Alternating (timeline k [[_], [_]]) ∧ Descending (timeline k [[_], [_]]) ∧
    ∀ e ∈ timeline k [[_], [_]], 0 ≤ height e
  rw [hline]
  split_ifs
  · simp [Descending, newAdd, newDelete, isAdd]
  · simp [Descending]

end MemoryRun

end BlvmNode
