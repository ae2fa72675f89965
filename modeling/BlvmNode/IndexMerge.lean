import BlvmNode.UtxoIndex

/-!
# What one index merge does to the timelines

A merge takes a block of runs that is contiguous in lookup order and delivers one run. When no run
that the delivery skips holds a key of the merged runs, every timeline changes only by the garbage
collected inside the block.
-/

namespace BlvmNode

open KeyedRuns Timeline List MemoryAge MemoryRun RunRef

theorem modify_middle {α : Type*} (front back : List α) (a : α) (f : α → α) :
    (front ++ a :: back).modify front.length f = front ++ f a :: back := by
  induction front with
  | nil => rfl
  | cons x front ih => simp [modify_succ_cons, ih]

theorem exists_middle {α : Type*} {l : List α} {i : ℕ} {a : α} (h : l[i]? = some a) :
    ∃ front back, l = front ++ a :: back ∧ front.length = i := by
  obtain ⟨hi, rfl⟩ := List.getElem?_eq_some_iff.mp h
  refine ⟨l.take i, l.drop (i + 1), ?_, List.length_take_of_le hi.le⟩
  rw [List.getElem_cons_drop, List.take_append_drop]

namespace UtxoIndex

/-- No merge is under way in the age, and its runs are allocations of their own. -/
structure AgeIdle (nextPtr : ℕ) (age : MemoryAge) : Prop extends FreshRuns nextPtr age.runs where
  notMerging : age.isMerging = false

structure Idle (idx : UtxoIndex) : Prop where
  agesLength : idx.ages.length = kAges
  ages : ∀ age ∈ idx.ages, AgeIdle idx.nextPtr age
  pending : idx.disk.PendingBounded

def takenChain (age : MemoryAge) (n : ℕ) : List (List OutputKV) :=
  (age.runs.take n).reverse.map (fun r => r.run.entries)

def restChain (age : MemoryAge) (n : ℕ) : List (List OutputKV) :=
  (age.runs.drop n).reverse.map (fun r => r.run.entries)

theorem chain_take_drop (age : MemoryAge) (n : ℕ) :
    age.chain = restChain age n ++ takenChain age n := by
  rw [restChain, takenChain, ← map_append, ← reverse_append, take_append_drop]
  rfl

/-- The runs that lie between the old and the new position of a merge of age `ageIdx`. -/
def skippedChain (cfg : MergeConfig) (ageIdx n : ℕ) (idx : UtxoIndex) : List (List OutputKV) :=
  match cfg.destination ageIdx with
  | .disk =>
    (idx.ages.drop (ageIdx + 1)).flatMap MemoryAge.chain ++
      idx.disk.pendingSpills.reverse.map MemoryRun.entries
  | .age dest =>
    if dest ≤ ageIdx then
      ((idx.ages.drop dest).take (ageIdx - dest)).flatMap MemoryAge.chain ++
        (idx.ages[ageIdx]?.toList.flatMap (fun age => restChain age n))
    else []

/-- The delivery skips no run that holds a key of the merged ones, and a spill stays in one segment.
-/
def CleanMerge (cfg : MergeConfig) (ageIdx : ℕ) (idx : UtxoIndex) : Prop :=
  ∀ age n, idx.ages[ageIdx]? = some age → age.takeCount = some n →
    KeyDisjoint (takenChain age n) (idx.skippedChain cfg ageIdx n) ∧
    (cfg.spill.spillMaxEntries = 0 ∨
      (takenChain age n).flatten.length ≤ cfg.spill.spillMaxEntries)

/-- Every timeline of `idx'` is that of `idx` with the block `taken` replaced by `merged`. -/
def Replaces (taken : List (List OutputKV)) (merged : List OutputKV) (idx idx' : UtxoIndex) :
    Prop :=
  ∃ front back : List (List OutputKV), ∀ k,
    timeline k idx.chain = timeline k (front ++ taken ++ back) ∧
      timeline k idx'.chain = timeline k (front ++ [merged] ++ back)

variable (fence : ℤ)

theorem mergeEntries_perm_sublist (inputs : List (List OutputKV)) :
    ∃ m, m.Perm inputs.flatten ∧ (mergeEntries fence inputs).Sublist m :=
  ⟨_, KWayMerge.kWayMerge_perm inputs, gcPass_sublist _ _⟩

theorem length_mergeEntries_le (inputs : List (List OutputKV)) :
    (mergeEntries fence inputs).length ≤ inputs.flatten.length := by
  obtain ⟨m, hp, hs⟩ := mergeEntries_perm_sublist fence inputs
  exact hs.length_le.trans hp.length_eq.le

theorem mergeEntries_subset {fence : ℤ} {inputs : List (List OutputKV)} {e : OutputKV}
    (h : e ∈ mergeEntries fence inputs) : e ∈ inputs.flatten := by
  obtain ⟨m, hp, hs⟩ := mergeEntries_perm_sublist fence inputs
  exact hp.mem_iff.mp (hs.subset h)

theorem entries_merge_runs (runs : List RunRef) :
    (merge fence (runs.map run)).entries =
      mergeEntries fence (runs.map fun r => r.run.entries) := by
  simp [MemoryRun.merge, Function.comp_def]

def finished (age : MemoryAge) (n : ℕ) : MemoryAge :=
  { age with isMerging := true }.completeMerge (maxHeight (age.runs.take n)) (age.runs.take n)

variable {age : MemoryAge} {cfg : MergeConfig} {idx : UtxoIndex} {p : ℕ}

theorem finished_runs (h : (age.runs.map ptr).Nodup) (n : ℕ) :
    (finished age n).runs = age.runs.drop n := by
  have hkept := filter_not_taken (age.runs.take n) (age.runs.drop n)
    (by rwa [take_append_drop])
  rwa [take_append_drop] at hkept

theorem completeMerge_push (ref : RunRef) {n : ℕ} (h : ∀ r ∈ age.runs, r.ptr ≠ ref.ptr) :
    ({ age with isMerging := true }.pushFrozenRun ref).completeMerge
      (maxHeight (age.runs.take n)) (age.runs.take n) = (finished age n).pushFrozenRun ref := by
  have hkeep : [ref].filter (fun r => decide (r.ptr ∉ (age.runs.take n).map ptr)) = [ref] := by
    rw [filter_eq_self]
    intro r hr
    rw [mem_singleton.mp hr]
    simp only [mem_map, not_exists, not_and, decide_eq_true_eq]
    intro x hx
    exact h x (mem_of_mem_take hx)
  simp only [completeMerge, pushFrozenRun, finished, filter_append, hkeep]

theorem destination_cases (ageIdx : ℕ) (h : cfg.evictionAge ≤ kAges) :
    cfg.destination ageIdx = .disk ∨
      cfg.destination ageIdx = .age (ageIdx + 1) ∧ ageIdx + 1 < kAges ∨
      ∃ dest, cfg.destination ageIdx = .age dest ∧ dest ≤ ageIdx := by
  have heff : cfg.effectiveEviction ≤ kAges := by
    unfold MergeConfig.effectiveEviction
    split_ifs
    · exact le_rfl
    · exact h
  unfold MergeConfig.destination
  split_ifs with hfold hnext
  · refine .inr (.inr ⟨_, rfl, ?_⟩)
    simp only [MergeConfig.wouldLeaveRam, Bool.and_eq_true, Bool.or_eq_true, decide_eq_true_eq,
      Bool.not_eq_true'] at hfold
    rcases hfold.1.2 with hle | hforce
    · omega
    · rw [hfold.2] at hforce
      cases hforce
  · exact .inr (.inl ⟨rfl, by omega⟩)
  · exact .inl rfl

section Outcome

variable (cfg : MergeConfig) (ageIdx : ℕ) (idx : UtxoIndex) (front back : List MemoryAge)
  (age : MemoryAge) (n : ℕ) (merged : MemoryRun)

inductive MergeOutcome : UtxoIndex → Prop
  | vanished (h : merged.entries.isEmpty) :
      MergeOutcome { idx with ages := front ++ finished age n :: back }
  | toNext (next : MemoryAge) (deeper : List MemoryAge) (hb : back = next :: deeper)
      (hd : cfg.destination ageIdx = .age (ageIdx + 1)) :
      MergeOutcome { idx with
          ages := front ++ finished age n :: next.pushFrozenRun ⟨idx.nextPtr, merged⟩ :: deeper
          nextPtr := idx.nextPtr + 1 }
  | toDisk (hd : cfg.destination ageIdx = .disk) :
      MergeOutcome { idx with
          ages := front ++ finished age n :: back
          disk := idx.disk.pushRunNoCompact cfg.spill merged }
  | foldBack (newer older : List MemoryAge) (dest : MemoryAge)
      (hf : front = newer ++ dest :: older) (hd : cfg.destination ageIdx = .age newer.length) :
      MergeOutcome { idx with
          ages := newer ++ dest.pushFrozenRun ⟨idx.nextPtr, merged⟩ ::
            (older ++ finished age n :: back)
          nextPtr := idx.nextPtr + 1 }
  | foldSame (hd : cfg.destination ageIdx = .age ageIdx) :
      MergeOutcome { idx with
          ages := front ++ (finished age n).pushFrozenRun ⟨idx.nextPtr, merged⟩ :: back
          nextPtr := idx.nextPtr + 1 }

end Outcome

theorem runMergeForAge_cases (ageIdx : ℕ) (hi : idx.Idle) (hE : cfg.evictionAge ≤ kAges) :
    (idx.runMergeForAge cfg ageIdx = idx ∧
        ∀ age, idx.ages[ageIdx]? = some age → age.takeForMerge = none) ∨
      ∃ front age back n, idx.ages = front ++ age :: back ∧ front.length = ageIdx ∧
        age.takeCount = some n ∧
        MergeOutcome cfg ageIdx idx front back age n (merge cfg.fence ((age.runs.take n).map run))
          (idx.runMergeForAge cfg ageIdx) := by
  unfold runMergeForAge
  cases hage : idx.ages[ageIdx]? with
  | none => exact .inl ⟨rfl, nofun⟩
  | some age =>
    cases htake : age.takeForMerge with
    | none => exact .inl ⟨by simp only [htake], by simp [htake]⟩
    | some res =>
      obtain ⟨taken, age'⟩ := res
      obtain ⟨-, rfl, n, hn, rfl⟩ := takeForMerge_eq_some htake
      obtain ⟨front, back, hages, rfl⟩ := exists_middle hage
      refine .inr ⟨front, age, back, n, hages, rfl, hn, ?_⟩
      simp only [htake]
      set merged := merge cfg.fence ((age.runs.take n).map run)
      have hmem : age ∈ idx.ages := by simp [hages]
      have hlen : front.length + (back.length + 1) = kAges := by
        simpa [hages] using hi.agesLength
      simp only [deliver]
      split_ifs with hempty
      · simp only [modifyAge, hages, modify_middle]
        exact .vanished hempty
      · rcases destination_cases front.length hE with hd | ⟨hd, hlt⟩ | ⟨dest, hd, hle⟩
        · simp only [hd, modifyAge, hages, modify_middle]
          exact .toDisk hd
        · cases hback : back with
          | nil =>
            rw [hback] at hlen
            simp only [length_nil] at hlen
            omega
          | cons next deeper =>
            have hnext : ∀ (x : MemoryAge) (f : MemoryAge → MemoryAge),
                (front ++ x :: next :: deeper).modify (front.length + 1) f =
                  front ++ x :: f next :: deeper := by
              intro x f
              simpa using modify_middle (front ++ [x]) deeper next f
            simp only [hd, modifyAge, hages, hback, modify_middle, hnext]
            exact .toNext next deeper rfl hd
        · rcases Nat.lt_or_eq_of_le hle with hlt | rfl
          · obtain ⟨newer, older, hfront, rfl⟩ :=
              exists_middle (getElem?_eq_getElem hlt)
            set a := front[newer.length]
            have hpush : ∀ (x : MemoryAge) (f : MemoryAge → MemoryAge),
                (front ++ x :: back).modify newer.length f =
                  newer ++ f a :: older ++ x :: back := by
              intro x f
              rw [hfront, append_assoc, cons_append, modify_middle, append_assoc, cons_append]
            have hdone : ∀ (y x : MemoryAge) (f : MemoryAge → MemoryAge),
                (newer ++ y :: (older ++ x :: back)).modify front.length f =
                  newer ++ y :: (older ++ f x :: back) := by
              intro y x f
              have hl : front.length = (newer ++ y :: older).length := by simp [hfront]
              rw [hl]
              simpa using modify_middle (newer ++ y :: older) back x f
            simp only [hd, modifyAge, hages, modify_middle, hpush, hdone, append_assoc, cons_append]
            exact .foldBack newer older a hfront hd
          · have hfresh : ∀ r ∈ age.runs, r.ptr ≠ idx.nextPtr :=
              fun r hr => ((hi.ages age hmem).ptrLt r hr).ne
            simp only [hd, modifyAge, hages, modify_middle,
              completeMerge_push ⟨idx.nextPtr, merged⟩ hfresh]
            exact .foldSame hd

theorem chain_middle {front back : List MemoryAge} (h : idx.ages = front ++ age :: back) :
    idx.chain = front.flatMap MemoryAge.chain ++
      (age.chain ++ (back.flatMap MemoryAge.chain ++ idx.disk.chain)) := by
  simp [chain, h]

theorem finished_chain (h : (age.runs.map RunRef.ptr).Nodup) (n : ℕ) :
    (finished age n).chain = restChain age n := by
  simp only [MemoryAge.chain, restChain, finished_runs h n]

theorem pushFrozenRun_chain (age : MemoryAge) (ref : RunRef) :
    (age.pushFrozenRun ref).chain = ref.run.entries :: age.chain := by
  simp [MemoryAge.chain, MemoryAge.pushFrozenRun]

section Replaced

variable {idx' : UtxoIndex} {skipped taken : List (List OutputKV)} {merged : List OutputKV}
  (front back : List (List OutputKV))

/-- The merged run is put in front of runs that hold none of its keys. -/
theorem Replaces.of_front (hskip : KeyDisjoint taken skipped)
    (h : idx.chain = front ++ (skipped ++ (taken ++ back)))
    (h' : idx'.chain = front ++ (merged :: (skipped ++ back))) :
    Replaces taken merged idx idx' := by
  refine ⟨front, skipped ++ back, fun k => ⟨?_, by simp [h']⟩⟩
  rw [h, hskip.timeline_swap, append_assoc]

/-- The merged run is put behind such runs. -/
theorem Replaces.of_back (hskip : KeyDisjoint taken skipped)
    (h : idx.chain = front ++ (taken ++ (skipped ++ back)))
    (h' : idx'.chain = front ++ (skipped ++ (merged :: back))) :
    Replaces taken merged idx idx' := by
  refine ⟨front ++ skipped, back, fun k => ⟨?_, by simp [h']⟩⟩
  rw [h, ← hskip.timeline_swap, append_assoc, append_assoc]

end Replaced

theorem skippedChain_foldBack {newer older back : List MemoryAge} {dest : MemoryAge}
    (hages : idx.ages = newer ++ dest :: older ++ age :: back)
    (hd : cfg.destination (newer ++ dest :: older).length = .age newer.length) (n : ℕ) :
    idx.skippedChain cfg (newer ++ dest :: older).length n =
      dest.chain ++ older.flatMap MemoryAge.chain ++ restChain age n := by
  have hdrop : idx.ages.drop newer.length = dest :: (older ++ age :: back) := by simp [hages]
  have hget : idx.ages[newer.length + (older.length + 1)]? = some age := by simp [hages]
  rw [skippedChain, hd]
  simp [hdrop, hget]

theorem len_merge_le (age : MemoryAge) (fence : ℤ) (n : ℕ) :
    (merge fence ((age.runs.take n).map run)).len ≤ (takenChain age n).flatten.length := by
  rw [MemoryRun.len, entries_merge_runs]
  refine (length_mergeEntries_le _ _).trans (le_of_eq ?_)
  simp [takenChain, length_flatten]

theorem runMergeForAge_replaces {ageIdx : ℕ}
    (hi : idx.Idle) (hE : cfg.evictionAge ≤ kAges) (hclean : idx.CleanMerge cfg ageIdx) :
    idx.runMergeForAge cfg ageIdx = idx ∨
      ∃ age n, age ∈ idx.ages ∧
        Replaces (takenChain age n)
          (MemoryRun.mergeEntries cfg.fence ((age.runs.take n).map (fun r => r.run.entries)))
          idx (idx.runMergeForAge cfg ageIdx) := by
  rcases runMergeForAge_cases ageIdx hi hE with ⟨h, -⟩ |
    ⟨front, age, back, n, hages, rfl, hn, hout⟩
  · exact .inl h
  right
  have hmem : age ∈ idx.ages := by simp [hages]
  have hget : idx.ages[front.length]? = some age := by simp [hages]
  obtain ⟨hdisj, hspill⟩ := hclean age n hget hn
  have hfin := finished_chain (hi.ages age hmem).ptrNodup n
  have hentries := entries_merge_runs cfg.fence (age.runs.take n)
  refine ⟨age, n, hmem, ?_⟩
  rw [← hentries]
  set merged := MemoryRun.merge cfg.fence ((age.runs.take n).map RunRef.run)
  have hchain := chain_middle hages
  rw [chain_take_drop age n] at hchain
  generalize idx.runMergeForAge cfg front.length = idx' at hout
  cases hout with
  | vanished hempty =>
    refine ⟨front.flatMap MemoryAge.chain ++ restChain age n,
      back.flatMap MemoryAge.chain ++ idx.disk.chain, fun k => ⟨?_, ?_⟩⟩
    · rw [hchain]
      simp
    · rw [chain_middle rfl, hfin]
      simp [isEmpty_iff.mp hempty]
  | toNext next deeper hb hd =>
    refine ⟨front.flatMap MemoryAge.chain ++ restChain age n,
      back.flatMap MemoryAge.chain ++ idx.disk.chain, fun k => ⟨?_, ?_⟩⟩
    · rw [hchain]
      simp
    · rw [chain_middle rfl, hfin, hb]
      simp [pushFrozenRun_chain]
  | toDisk hd =>
    have hlen : _ ∨ merged.len ≤ _ := hspill.imp_right (len_merge_le age cfg.fence n).trans
    rw [skippedChain, hd] at hdisj
    refine .of_back (front.flatMap MemoryAge.chain ++ restChain age n)
      (idx.disk.segments.reverse.map DiskSegment.entries) hdisj ?_ ?_
    · rw [hchain, DiskIndex.chain]
      simp [hages]
    · rw [chain_middle rfl, hfin, DiskIndex.pushRunNoCompact_chain hi.pending hlen]
      simp [hages]
  | foldBack newer older dest hf hd =>
    subst hf
    rw [skippedChain_foldBack hages hd] at hdisj
    refine .of_front (newer.flatMap MemoryAge.chain)
      (back.flatMap MemoryAge.chain ++ idx.disk.chain) hdisj ?_ ?_
    · rw [hchain]
      simp
    · rw [chain_middle rfl, pushFrozenRun_chain, flatMap_append, flatMap_cons, hfin]
      simp
  | foldSame hd =>
    have hskip : KeyDisjoint (takenChain age n) (restChain age n) := by
      simpa [skippedChain, hd, hget] using hdisj
    rw [append_assoc] at hchain
    refine .of_front _ _ hskip hchain ?_
    rw [chain_middle rfl, pushFrozenRun_chain, hfin]
    rfl

theorem runMergeForAge_contents {ageIdx : ℕ} (hi : idx.Idle) (hE : cfg.evictionAge ≤ kAges) :
    (idx.runMergeForAge cfg ageIdx = idx ∧
        ∀ age, idx.ages[ageIdx]? = some age → age.takeForMerge = none) ∨
      ∃ age n rest, idx.ages[ageIdx]? = some age ∧ age.takeCount = some n ∧
        idx.chain.flatten.Perm ((takenChain age n).flatten ++ rest) ∧
        (idx.runMergeForAge cfg ageIdx).chain.flatten.Perm
          (mergeEntries cfg.fence ((age.runs.take n).map (fun r => r.run.entries)) ++ rest) := by
  rcases runMergeForAge_cases ageIdx hi hE with hnone |
    ⟨front, age, back, n, hages, rfl, hn, hout⟩
  · exact .inl hnone
  have hmem : age ∈ idx.ages := by simp [hages]
  have hget : idx.ages[front.length]? = some age := by simp [hages]
  have hfin := finished_chain (hi.ages age hmem).ptrNodup n
  have hchain := chain_middle hages
  rw [chain_take_drop age n] at hchain
  refine .inr ⟨age, n, (front.flatMap MemoryAge.chain ++ (restChain age n ++
    (back.flatMap MemoryAge.chain ++ idx.disk.chain))).flatten, hget, hn, ?_, ?_⟩
  · rw [hchain, perm_iff_count]
    intro x
    simp only [flatten_append, count_append]
    omega
  · rw [← entries_merge_runs]
    generalize merge cfg.fence ((age.runs.take n).map run) = merged at hout ⊢
    generalize idx.runMergeForAge cfg front.length = idx' at hout
    rw [perm_iff_count]
    intro x
    cases hout with
    | vanished hempty =>
      rw [chain_middle rfl, hfin, isEmpty_iff.mp hempty, nil_append]
    | toNext next deeper hb hd =>
      rw [chain_middle rfl, hfin, hb, flatMap_cons, pushFrozenRun_chain]
      simp only [flatMap_cons, flatten_append, flatten_cons, count_append]
      omega
    | toDisk hd =>
      have hdisk := perm_iff_count.mp
        (DiskIndex.pushRunNoCompact_contents idx.disk cfg.spill merged) x
      rw [chain_middle rfl, hfin]
      simp only [flatten_append, count_append, hdisk]
      omega
    | foldBack newer older dest hf hd =>
      rw [chain_middle rfl, pushFrozenRun_chain, flatMap_append, flatMap_cons, hfin, hf]
      simp only [flatMap_append, flatMap_cons, flatten_append, flatten_cons, count_append]
      omega
    | foldSame hd =>
      rw [chain_middle rfl, pushFrozenRun_chain, hfin]
      simp only [flatten_append, flatten_cons, count_append]
      omega

theorem AgeIdle.mono {q : ℕ} (h : AgeIdle p age) (hpq : p ≤ q) : AgeIdle q age :=
  ⟨h.toFreshRuns.mono hpq, h.notMerging⟩

theorem AgeIdle.finished (h : AgeIdle p age) (n : ℕ) : AgeIdle p (UtxoIndex.finished age n) := by
  refine ⟨?_, rfl⟩
  rw [finished_runs h.ptrNodup]
  exact h.toFreshRuns.sublist (drop_sublist n _)

theorem AgeIdle.pushFrozenRun (h : AgeIdle p age) (run : MemoryRun) :
    AgeIdle (p + 1) (age.pushFrozenRun ⟨p, run⟩) :=
  ⟨h.toFreshRuns.concat le_rfl (Nat.lt_succ_self p), h.notMerging⟩

theorem forall_mem_middle {α : Type*} {P : α → Prop} {front back : List α} {a : α} :
    (∀ x ∈ front ++ a :: back, P x) ↔ (∀ x ∈ front, P x) ∧ P a ∧ ∀ x ∈ back, P x := by
  rw [forall_mem_append, forall_mem_cons]

theorem runMergeForAge_idle {ageIdx : ℕ}
    (hi : idx.Idle) (hE : cfg.evictionAge ≤ kAges) : (idx.runMergeForAge cfg ageIdx).Idle := by
  rcases runMergeForAge_cases ageIdx hi hE with ⟨h, -⟩ |
    ⟨front, age, back, n, hages, rfl, hn, hout⟩
  · rwa [h]
  obtain ⟨hlen, hall, hpend⟩ := hi
  rw [hages, forall_mem_middle] at hall
  obtain ⟨hfront, hage, hback⟩ := hall
  have hlen' : front.length + (back.length + 1) = kAges := by simpa [hages] using hlen
  have hup : ∀ {l : List MemoryAge}, (∀ x ∈ l, AgeIdle idx.nextPtr x) →
      ∀ x ∈ l, AgeIdle (idx.nextPtr + 1) x := fun h x hx => (h x hx).mono (Nat.le_succ _)
  generalize idx.runMergeForAge cfg front.length = idx' at hout
  cases hout with
  | vanished hempty =>
    refine ⟨by simpa using hlen', ?_, hpend⟩
    exact forall_mem_middle.mpr ⟨hfront, hage.finished n, hback⟩
  | toNext next deeper hb hd =>
    subst hb
    rw [forall_mem_cons] at hback
    refine ⟨by simpa using hlen', ?_, hpend⟩
    refine forall_mem_middle.mpr ⟨hup hfront, (hage.finished n).mono (Nat.le_succ _), ?_⟩
    exact forall_mem_cons.mpr ⟨hback.1.pushFrozenRun _, hup hback.2⟩
  | toDisk hd =>
    refine ⟨by simpa using hlen', ?_, DiskIndex.pushRunNoCompact_pending hpend _ _⟩
    exact forall_mem_middle.mpr ⟨hfront, hage.finished n, hback⟩
  | foldBack newer older dest hf hd =>
    subst hf
    rw [forall_mem_middle] at hfront
    refine ⟨by simpa [Nat.add_assoc, Nat.add_comm 1] using hlen', ?_, hpend⟩
    refine forall_mem_middle.mpr ⟨hup hfront.1, hfront.2.1.pushFrozenRun _, ?_⟩
    exact forall_mem_middle.mpr
      ⟨hup hfront.2.2, (hage.finished n).mono (Nat.le_succ _), hup hback⟩
  | foldSame hd =>
    refine ⟨by simpa using hlen', ?_, hpend⟩
    exact forall_mem_middle.mpr ⟨hup hfront, (hage.finished n).pushFrozenRun _, hup hback⟩

end UtxoIndex

end BlvmNode
