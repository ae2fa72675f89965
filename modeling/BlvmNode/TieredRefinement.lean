import BlvmNode.Lib.GuardedRun
import BlvmNode.IndexMerge

/-!
# The tiered index against a flat log

A run of the index interleaves appends, pin releases, pressure ticks, complete merges and
finished background spills. The flat log keeps every appended entry and answers a query with the
newest entry of the key below the query height.
-/

namespace BlvmNode

open KeyedRuns Timeline GuardedRun List MemoryAge MemoryRun

inductive IndexStep where
  | append (contended contendedAgain : Bool) (entries : List OutputKV) (height : ℤ)
  | releasePin (height : ℤ)
  | setSpillTier (target take : ℕ)
  | merge (cfg : MergeConfig) (ageIdx : ℕ)
  | finishSpill (idx : ℕ) (reads : SegmentReads)

namespace IndexStep

def apply (runMax : ℕ) (idx : UtxoIndex) : IndexStep → UtxoIndex
  | append c c' entries height => idx.append runMax c c' entries height
  | releasePin height => idx.releasePin height
  | setSpillTier target take => idx.setSpillTier target take
  | merge cfg ageIdx => idx.runMergeForAge cfg ageIdx
  | finishSpill n reads => { idx with disk := idx.disk.finishAsyncSpill n reads }

def appended : IndexStep → List OutputKV
  | append _ _ entries _ => entries
  | _ => []

def fences : IndexStep → List ℤ
  | merge cfg _ => [cfg.fence]
  | _ => []

def EvictionInRange : IndexStep → Prop
  | merge cfg _ => kMutableAges ≤ cfg.evictionAge ∧ cfg.evictionAge ≤ kAges
  | _ => True

/-- The merges of the step skip no run that holds one of their keys. -/
def Clean (idx : UtxoIndex) : IndexStep → Prop
  | merge cfg ageIdx => idx.CleanMerge cfg ageIdx
  | _ => True

end IndexStep

def runSteps (runMax : ℕ) (idx : UtxoIndex) (steps : List IndexStep) : UtxoIndex :=
  steps.foldl (IndexStep.apply runMax) idx

def logOf (steps : List IndexStep) : List OutputKV :=
  steps.reverse.flatMap IndexStep.appended

def CleanRun (runMax : ℕ) : UtxoIndex → List IndexStep → Prop :=
  Guarded (IndexStep.apply runMax) IndexStep.Clean

/-- The query height lies above every fence a merge of the run used, or above the whole log. -/
def AboveFences (before : ℤ) (steps : List IndexStep) : Prop :=
  (∀ f ∈ steps.flatMap IndexStep.fences, f < before) ∨ ∀ e ∈ logOf steps, e.height < before

theorem logOf_append_singleton (steps : List IndexStep) (s : IndexStep) :
    logOf (steps ++ [s]) = s.appended ++ logOf steps := by
  simp [logOf]

theorem runSteps_append_singleton (runMax : ℕ) (idx : UtxoIndex) (steps : List IndexStep)
    (s : IndexStep) :
    runSteps runMax idx (steps ++ [s]) = s.apply runMax (runSteps runMax idx steps) := by
  simp [runSteps]

theorem logOf_append (steps steps' : List IndexStep) :
    logOf (steps ++ steps') = logOf steps' ++ logOf steps := by
  simp [logOf]

theorem runSteps_append (runMax : ℕ) (idx : UtxoIndex) (steps steps' : List IndexStep) :
    runSteps runMax idx (steps ++ steps') = runSteps runMax (runSteps runMax idx steps) steps' := by
  simp [runSteps]

theorem cleanRun_append {runMax : ℕ} {idx : UtxoIndex} {steps steps' : List IndexStep}
    (h : CleanRun runMax idx steps) (h' : CleanRun runMax (runSteps runMax idx steps) steps') :
    CleanRun runMax idx (steps ++ steps') :=
  guarded_append.mpr ⟨h, h'⟩

variable {log : List OutputKV}

namespace UtxoIndex

variable {age : MemoryAge} {idx : UtxoIndex} {n : ℕ}

theorem AgeIdle.append {p : ℕ} (h : AgeIdle p age) (runMax : ℕ) (c c' : Bool)
    (entries : List OutputKV) : AgeIdle (p + 2) (age.append runMax p c c' entries) := by
  refine ⟨append_freshRuns h.toFreshRuns runMax c c' entries, ?_⟩
  obtain ⟨runs', heq, -⟩ := append_cases runMax p c c' entries age
  rw [heq]
  exact h.notMerging

theorem Idle.exists_cons (h : idx.Idle) : ∃ tip deeper, idx.ages = tip :: deeper :=
  exists_of_length_succ idx.ages h.agesLength

section

variable (h : idx.Idle) (runMax : ℕ) (c c' : Bool)
include h

theorem append_idle (entries : List OutputKV) (height : ℤ) :
    (idx.append runMax c c' entries height).Idle := by
  obtain ⟨tip, deeper, ha⟩ := h.exists_cons
  have hages := h.ages
  rw [ha, forall_mem_cons] at hages
  have htip : AgeIdle idx.nextPtr (tip.pinHeight height) :=
    ⟨hages.1.toFreshRuns, hages.1.notMerging⟩
  refine ⟨by simpa [append, modifyAge] using h.agesLength, ?_, h.pending⟩
  simp only [append, modifyAge, ha, modify_zero_cons, forall_mem_cons]
  exact ⟨htip.append runMax c c' entries, fun x hx => (hages.2 x hx).mono (Nat.le_add_right _ 2)⟩

theorem append_timeline {entries : List OutputKV} (height : ℤ) {k : OutputKey}
    (hd : Descending (entriesOf k entries ++ timeline k idx.chain)) :
    timeline k (idx.append runMax c c' entries height).chain =
      entriesOf k entries ++ timeline k idx.chain := by
  obtain ⟨tip, deeper, ha⟩ := h.exists_cons
  have hchain : timeline k idx.chain = timeline k (tip.pinHeight height).chain ++
      timeline k (deeper.flatMap MemoryAge.chain ++ idx.disk.chain) := by
    simp [chain, ha, MemoryAge.chain, MemoryAge.pinHeight]
  rw [hchain, ← append_assoc] at hd
  have htip := MemoryAge.append_timeline runMax idx.nextPtr c c' (descending_left hd)
  rw [hchain]
  simp [append, modifyAge, chain, ha, htip]

theorem append_contents (entries : List OutputKV) (height : ℤ) :
    (idx.append runMax c c' entries height).chain.flatten.Perm (entries ++ idx.chain.flatten) := by
  obtain ⟨tip, deeper, ha⟩ := h.exists_cons
  have htip := append_flatten_perm runMax idx.nextPtr c c' entries
    (tip.pinHeight height)
  simp only [append, modifyAge, chain, ha, modify_zero_cons, flatMap_cons,
    append_assoc, flatten_append]
  rw [← append_assoc entries]
  exact htip.append_right _

end

theorem takenChain_cancels (fence : ℤ) (hd : ∀ k, Descending (timeline k (takenChain age n)))
    (hn : ∀ k, NoDoubleRemoval (timeline k (takenChain age n))) (k : OutputKey) :
    Cancels (fence + 1) (timeline k (takenChain age n)) (timeline k [mergeEntries fence
        ((age.runs.take n).map (fun r => r.run.entries))]) := by
  rw [timeline_cons, timeline_nil, append_nil]
  refine mergeEntries_cancels ?_ ?_ hd hn k
  · intro run hrun
    obtain ⟨r, -, rfl⟩ := mem_map.mp hrun
    exact r.run.sorted
  · rw [takenChain, map_reverse]
    exact (reverse_perm _).symm.flatten

theorem Replaces.cancels {fence bound : ℤ} {idx' : UtxoIndex} (hlog : WellFormedLog log)
    (hc : ∀ k, Cancels bound (entriesOf k log) (timeline k idx.chain))
    (hb : fence < bound ∨ ∀ e ∈ log, e.height < bound) (hr : Replaces (takenChain age n)
      (mergeEntries fence ((age.runs.take n).map (fun r => r.run.entries))) idx idx')
    (k : OutputKey) : Cancels bound (entriesOf k log) (timeline k idx'.chain) := by
  obtain ⟨front, back, hk⟩ := hr
  set merged := mergeEntries fence ((age.runs.take n).map (fun r => r.run.entries))
  have hmid : ∀ k, Descending (timeline k (takenChain age n)) ∧
      NoDoubleRemoval (timeline k (takenChain age n)) := by
    intro k'
    have hdesc := (hc k').descending (hlog.readable k').descending
    have halt := ((hc k').alternating (hlog.alternating k')).noDoubleRemoval
    rw [(hk k').1, timeline_append, timeline_append] at hdesc halt
    exact ⟨descending_right (descending_left hdesc), halt.infix⟩
  have hblock := takenChain_cancels fence (fun k => (hmid k).1) (fun k => (hmid k).2) k
  have hbound : Cancels bound (timeline k (takenChain age n)) (timeline k [merged]) := by
    rcases hb with hf | hall
    · exact hblock.mono hf
    · refine hblock.of_heights (fun e he => ?_)
      have hmem : e ∈ timeline k idx.chain := by
        rw [(hk k).1, timeline_append, timeline_append]
        simp [he]
      exact hall e (mem_entriesOf.mp ((hc k).sublist.subset hmem)).1
  refine (hc k).trans ?_
  rw [(hk k).1, (hk k).2]
  simpa using hbound.context (timeline k front) (timeline k back)

end UtxoIndex

open UtxoIndex

/-- Every timeline of the index is that of the log after collecting garbage no reader at `before`
can see. -/
structure Refines (before : ℤ) (log : List OutputKV) (idx : UtxoIndex) : Prop where
  idle : idx.Idle
  cancels : ∀ k, Cancels before (entriesOf k log) (timeline k idx.chain)

theorem refines_empty (before : ℤ) : Refines before [] empty := by
  refine ⟨⟨rfl, ?_, by simp [empty, DiskIndex.empty, DiskIndex.PendingBounded]⟩, ?_⟩
  · intro age ha
    simp only [empty, mem_map] at ha
    obtain ⟨i, -, rfl⟩ := ha
    exact ⟨⟨by simp [MemoryAge.new], by simp [MemoryAge.new]⟩, rfl⟩
  · intro k
    have hnil : timeline k UtxoIndex.empty.chain = [] := by
      refine timeline_eq_nil (fun e he => ?_)
      simp [UtxoIndex.chain, UtxoIndex.empty, MemoryAge.new, MemoryAge.chain, DiskIndex.chain,
        DiskIndex.empty] at he
    rw [hnil]
    exact Cancels.refl _

namespace UtxoIndex

theorem releasePin_chain (height : ℤ) (idx : UtxoIndex) :
    (idx.releasePin height).chain = idx.chain := by
  cases ha : idx.ages <;> simp [releasePin, modifyAge, chain, ha, MemoryAge.chain,
    MemoryAge.unpinHeight]

variable {idx : UtxoIndex}

theorem releasePin_idle (h : idx.Idle) (height : ℤ) : (idx.releasePin height).Idle := by
  obtain ⟨tip, deeper, ha⟩ := h.exists_cons
  have hages := h.ages
  rw [ha, forall_mem_cons] at hages
  refine ⟨by simpa [releasePin, modifyAge] using h.agesLength, ?_, h.pending⟩
  simp only [releasePin, modifyAge, ha, modify_zero_cons, forall_mem_cons]
  exact ⟨⟨hages.1.toFreshRuns, hages.1.notMerging⟩, hages.2⟩

theorem flatMap_mapIdx {α β : Type*} {f : ℕ → α → α} {g : α → List β}
    (h : ∀ i a, g (f i a) = g a) (l : List α) : (l.mapIdx f).flatMap g = l.flatMap g := by
  induction l generalizing f with
  | nil => rfl
  | cons a l ih =>
    rw [mapIdx_cons, flatMap_cons, flatMap_cons, h]
    congr 1
    exact ih (fun i b => h (i + 1) b)

theorem setSpillTier_chain (target take : ℕ) (idx : UtxoIndex) :
    (idx.setSpillTier target take).chain = idx.chain := by
  unfold setSpillTier chain
  rw [flatMap_mapIdx]
  intro i age
  rfl

theorem setSpillTier_idle (h : idx.Idle) (target take : ℕ) :
    (idx.setSpillTier target take).Idle := by
  refine ⟨by simpa [setSpillTier] using h.agesLength, ?_, h.pending⟩
  intro age ha
  simp only [setSpillTier, mem_mapIdx] at ha
  obtain ⟨i, hi, rfl⟩ := ha
  have hidle := h.ages _ (getElem_mem hi)
  exact ⟨hidle.toFreshRuns, hidle.notMerging⟩

end UtxoIndex

variable {s : IndexStep} {idx : UtxoIndex} {runMax : ℕ} {steps : List IndexStep} {before : ℤ}

theorem IndexStep.apply_idle (runMax : ℕ) (h : idx.Idle)
    (hE : s.EvictionInRange) : (s.apply runMax idx).Idle := by
  cases s with
  | append c c' entries height => exact append_idle h runMax c c' entries height
  | releasePin height => exact releasePin_idle h height
  | setSpillTier target take => exact setSpillTier_idle h target take
  | merge cfg ageIdx => exact runMergeForAge_idle h hE.2
  | finishSpill n reads =>
    exact ⟨h.agesLength, h.ages, DiskIndex.finishAsyncSpill_pending h.pending n reads⟩

open IndexStep

/-- A step puts the appended entries on top, or a clean merge replaces the block it took. -/
theorem IndexStep.timeline_apply (runMax : ℕ) (h : idx.Idle)
    (hE : s.EvictionInRange) (hclean : s.Clean idx)
    (hd : ∀ k, Descending (entriesOf k s.appended ++ timeline k idx.chain)) :
    (∀ k, timeline k (s.apply runMax idx).chain = entriesOf k s.appended ++ timeline k idx.chain) ∨
      s.appended = [] ∧ ∃ fence ∈ s.fences, ∃ age n, UtxoIndex.Replaces (UtxoIndex.takenChain age n)
          (MemoryRun.mergeEntries fence ((age.runs.take n).map (fun r => r.run.entries)))
          idx (s.apply runMax idx) := by
  cases s with
  | append c c' entries height =>
    exact .inl (fun k => UtxoIndex.append_timeline h runMax c c' height (hd k))
  | releasePin height =>
    left
    simp [apply, appended, UtxoIndex.releasePin_chain]
  | setSpillTier target take =>
    left
    simp [apply, appended, UtxoIndex.setSpillTier_chain]
  | merge cfg ageIdx =>
    rcases UtxoIndex.runMergeForAge_replaces h hE.2 hclean with heq | ⟨age, n, -, hr⟩
    · left
      simp [apply, appended, heq]
    · exact .inr ⟨rfl, cfg.fence, mem_singleton_self _, age, n, hr⟩
  | finishSpill n reads =>
    left
    simp [apply, appended, UtxoIndex.chain, DiskIndex.finishAsyncSpill_chain]

theorem descending_appended {new : List OutputKV} {chain : List (List OutputKV)}
    (hread : ∀ k, Readable (entriesOf k (new ++ log)))
    (hsub : ∀ k, (timeline k chain).Sublist (entriesOf k log)) (k : OutputKey) :
    Descending (entriesOf k new ++ timeline k chain) := by
  have hd := (hread k).descending
  rw [entriesOf_append] at hd
  exact hd.sublist ((hsub k).append_left _)

theorem Refines.step (h : Refines before log idx)
    (hread : ∀ k, Readable (entriesOf k (s.appended ++ log)))
    (halt : s.fences = [] ∨ ∀ k, Alternating (entriesOf k log)) (hE : s.EvictionInRange)
    (hclean : s.Clean idx) (hb : (∀ f ∈ s.fences, f < before) ∨ ∀ e ∈ log, e.height < before) :
    Refines before (s.appended ++ log) (s.apply runMax idx) := by
  refine ⟨s.apply_idle runMax h.idle hE, fun k => ?_⟩
  have hdesc := descending_appended hread (fun k => (h.cancels k).sublist)
  rcases timeline_apply runMax h.idle hE hclean hdesc with heq |
    ⟨happ, fence, hfence, age, n, hr⟩
  · rw [heq, entriesOf_append]
    exact (Cancels.refl _).append (h.cancels k)
  · have halt' := halt.resolve_left (ne_nil_of_mem hfence)
    have hlog : WellFormedLog log := by
      rw [happ] at hread
      exact ⟨hread, halt'⟩
    rw [happ, nil_append]
    exact hr.cancels hlog h.cancels (hb.imp_left (fun hf => hf fence hfence)) k

/-- A clean run keeps the invariant; without merges the log need not alternate. -/
theorem refines_of_readable (hread : ∀ k, Readable (entriesOf k (logOf steps)))
    (halt : (∀ s ∈ steps, s.fences = []) ∨ ∀ k, Alternating (entriesOf k (logOf steps)))
    (hE : ∀ s ∈ steps, s.EvictionInRange) (hclean : CleanRun runMax empty steps)
    (hb : AboveFences before steps) :
    Refines before (logOf steps) (runSteps runMax empty steps) := by
  induction steps using reverseRecOn with
  | nil => exact refines_empty before
  | append_singleton steps s ih =>
    rw [logOf_append_singleton] at hread halt ⊢
    rw [runSteps_append_singleton]
    obtain ⟨hprev, hlast⟩ := guarded_concat.mp hclean
    rw [forall_mem_append, forall_mem_singleton] at hE
    have hread₁ : ∀ k, Readable (entriesOf k (logOf steps)) :=
      fun k => (hread k).sublist ((sublist_append_right ..).filter _)
    have halt₁ : ((∀ t ∈ steps, t.fences = []) ∧ s.fences = []) ∨
        ∀ k, Alternating (entriesOf k (logOf steps)) := by
      refine halt.imp (fun hf => ?_) (fun ha k => ?_)
      · rwa [forall_mem_append, forall_mem_singleton] at hf
      · have := ha k
        rw [entriesOf_append] at this
        exact alternating_right this
    have hb₁ : ((∀ f ∈ steps.flatMap fences, f < before) ∧ ∀ f ∈ s.fences, f < before) ∨
        ∀ e ∈ logOf steps, e.height < before := by
      refine hb.imp (fun hf => ?_) (fun hl e he => hl e ?_)
      · rwa [flatMap_append, flatMap_singleton, forall_mem_append] at hf
      · rw [logOf_append_singleton]
        exact mem_append_right _ he
    have hrefines := ih hread₁ (halt₁.imp_left And.left) hE.1 hprev (hb₁.imp_left And.left)
    exact hrefines.step hread (halt₁.imp_left And.right) hE.2 hlast (hb₁.imp_left And.right)

theorem refines_runSteps (hlog : WellFormedLog (logOf steps)) (hE : ∀ s ∈ steps, s.EvictionInRange)
    (hclean : CleanRun runMax empty steps) (hb : AboveFences before steps) :
    Refines before (logOf steps) (runSteps runMax empty steps) :=
  refines_of_readable hlog.readable (.inr hlog.alternating) hE hclean hb

theorem harmless_of_fences_nil (h : s.fences = []) :
    s.EvictionInRange ∧ ∀ idx, s.Clean idx := by
  cases s with
  | merge cfg ageIdx => simp [fences] at h
  | _ => exact ⟨trivial, fun _ => trivial⟩

theorem disk_runSteps (hf : ∀ s ∈ steps, s.fences = []) :
    (runSteps runMax empty steps).disk = DiskIndex.empty := by
  refine foldlRecOn (motive := fun idx : UtxoIndex => idx.disk = DiskIndex.empty) steps _ rfl ?_
  intro idx hidx s hs
  cases s with
  | merge cfg ageIdx => cases hf _ hs
  | finishSpill n reads => simp [apply, DiskIndex.finishAsyncSpill, hidx, DiskIndex.empty]
  | _ => exact hidx

theorem timeline_runSteps
    (hread : ∀ k, Readable (entriesOf k (logOf steps))) (hf : ∀ s ∈ steps, s.fences = [])
    (k : OutputKey) :
    timeline k (runSteps runMax empty steps).chain = entriesOf k (logOf steps) := by
  have hE : ∀ s ∈ steps, s.EvictionInRange := fun s hs => (harmless_of_fences_nil (hf s hs)).1
  have hclean : CleanRun runMax empty steps :=
    guarded_of_forall (fun s hs => (harmless_of_fences_nil (hf s hs)).2) _
  have hb : AboveFences 0 steps := by
    left
    intro f hmem
    obtain ⟨s, hs, hfs⟩ := mem_flatMap.mp hmem
    simp [hf s hs] at hfs
  have hrefines := refines_of_readable hread (.inl hf) hE hclean hb
  exact (hrefines.cancels k).eq_of_bound (fun e he => (hread k).nonneg e he)

end BlvmNode
