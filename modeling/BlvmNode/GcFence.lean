import BlvmNode.TieredQuery

/-!
# The garbage collection fence and exports

Merges sample a global fence and drop an Add with its Delete when the Delete lies at or below it.
The high-water mark records the finite fences, and an export is refused below it. The fence starts
at `i32Max`, which the high-water mark never records.
-/

namespace BlvmNode

open KeyedRuns Timeline GuardedRun List UtxoIndex OutputKV KWayMerge

/-- The globals `CHECKPOINT_GC_FENCE`, `GC_FENCE_HIGH_WATER` and `NEXT_CHECKPOINT_TARGET`. -/
structure GcFence where
  fence : ℤ
  highWater : ℤ
  nextTarget : ℤ

namespace GcFence

def fresh : GcFence := ⟨i32Max, 0, 0⟩

def noteHighWater (height : ℤ) (gc : GcFence) : GcFence :=
  if 0 < height ∧ height ≠ i32Max then { gc with highWater := max gc.highWater height } else gc

def setGcFence (height : ℤ) (gc : GcFence) : GcFence :=
  noteHighWater height { gc with fence := height }

def advanceGcFenceTo (height : ℤ) (gc : GcFence) : GcFence :=
  if height ≤ 0 then gc else noteHighWater height { gc with fence := max gc.fence height }

def setNextCheckpointTarget (height : ℤ) (gc : GcFence) : GcFence :=
  { gc with nextTarget := max height 0 }

def advanceGcFenceBetweenExports (height : ℤ) (exportActive : Bool) (gc : GcFence) : GcFence :=
  if exportActive ∨ height ≤ 0 then gc
  else if gc.nextTarget ≤ 0 then gc
  else
    let height := min height gc.nextTarget
    noteHighWater height { gc with fence := max gc.fence height }

def Recorded (gc : GcFence) : Prop := gc.fence = i32Max ∨ gc.fence ≤ gc.highWater

theorem noteHighWater_le (height : ℤ) (gc : GcFence) :
    gc.highWater ≤ (noteHighWater height gc).highWater := by
  unfold noteHighWater
  split_ifs
  · exact le_max_left _ _
  · exact le_rfl

/-- A recorded mark never lies below zero, so that low fences need no record. -/
structure Valid (gc : GcFence) : Prop where
  recorded : gc.Recorded
  nonneg : 0 ≤ gc.highWater

theorem valid_fresh : fresh.Valid := ⟨.inl rfl, le_rfl⟩

theorem Valid.note {gc : GcFence} (h : gc.Valid) {height fence : ℤ}
    (hf : fence = height ∨ fence = max gc.fence height) :
    (noteHighWater height { gc with fence := fence }).Valid := by
  have hnonneg := h.nonneg
  have hrec := h.recorded
  unfold Recorded at hrec
  unfold noteHighWater
  split_ifs with hnote
  · refine ⟨?_, by simp only; omega⟩
    unfold Recorded
    simp only
    omega
  · refine ⟨?_, hnonneg⟩
    unfold Recorded
    simp only
    omega

end GcFence

structure EngineState where
  index : UtxoIndex
  gc : GcFence

open EngineState

def EngineState.fresh : EngineState := ⟨UtxoIndex.empty, GcFence.fresh⟩

inductive EngineStep where
  | index (s : IndexStep)
  | setGcFence (height : ℤ)
  | advanceGcFenceTo (height : ℤ)
  | setNextCheckpointTarget (height : ℤ)
  | advanceGcFenceBetweenExports (height : ℤ) (exportActive : Bool)
  | exportCheckpoint (ckpt : ℤ)

open EngineStep

def IndexStep.withFence (fence : ℤ) : IndexStep → IndexStep
  | merge cfg ageIdx => merge { cfg with fence := fence } ageIdx
  | s => s

namespace EngineStep

/-- An export below the high-water mark is put off; one that starts sets the fence. -/
def apply (runMax : ℕ) (st : EngineState) : EngineStep → EngineState
  | index s => { st with index := (s.withFence st.gc.fence).apply runMax st.index }
  | setGcFence height => { st with gc := st.gc.setGcFence height }
  | advanceGcFenceTo height => { st with gc := st.gc.advanceGcFenceTo height }
  | setNextCheckpointTarget height => { st with gc := st.gc.setNextCheckpointTarget height }
  | advanceGcFenceBetweenExports height active =>
    { st with gc := st.gc.advanceGcFenceBetweenExports height active }
  | exportCheckpoint ckpt =>
    if ckpt < st.gc.highWater then st else { st with gc := st.gc.setGcFence ckpt }

def appended : EngineStep → List OutputKV
  | index s => s.appended
  | _ => []

def EvictionInRange : EngineStep → Prop
  | index s => s.EvictionInRange
  | _ => True

/-- A merge under an unrecorded fence takes no Add with a Delete of its key above the high-water
mark. -/
def Fenced (st : EngineState) : EngineStep → Prop
  | index (.merge _ ageIdx) => st.gc.fence ≠ i32Max ∨
      ∀ age n, st.index.ages[ageIdx]? = some age → age.takeCount = some n →
        ∀ a ∈ (UtxoIndex.takenChain age n).flatten, ∀ d ∈ (UtxoIndex.takenChain age n).flatten,
          a.isAdd = true → d.isAdd = false → a.key = d.key → a.height < d.height →
            d.height ≤ st.gc.highWater
  | _ => True

end EngineStep

def EngineStep.sampled (st : EngineState) : EngineStep → List IndexStep
  | index s => [s.withFence st.gc.fence]
  | _ => []

variable (runMax : ℕ)

theorem EngineStep.index_apply (st : EngineState) (s : EngineStep) :
    (s.apply runMax st).index = runSteps runMax st.index (s.sampled st) := by
  cases s with
  | exportCheckpoint ckpt =>
    simp only [apply]
    split_ifs <;> rfl
  | _ => rfl

theorem EngineStep.gc_apply {st : EngineState} (h : st.gc.Valid) (s : EngineStep) :
    (s.apply runMax st).gc.Valid ∧ st.gc.highWater ≤ (s.apply runMax st).gc.highWater := by
  have hsame : st.gc.Valid ∧ st.gc.highWater ≤ st.gc.highWater := ⟨h, le_rfl⟩
  cases s with
  | index s => exact hsame
  | setGcFence height => exact ⟨h.note (.inl rfl), GcFence.noteHighWater_le _ _⟩
  | advanceGcFenceTo height =>
    simp only [apply, GcFence.advanceGcFenceTo]
    split_ifs
    · exact hsame
    · exact ⟨h.note (.inr rfl), GcFence.noteHighWater_le _ _⟩
  | setNextCheckpointTarget height => exact ⟨⟨h.recorded, h.nonneg⟩, le_rfl⟩
  | advanceGcFenceBetweenExports height active =>
    simp only [apply, GcFence.advanceGcFenceBetweenExports]
    split_ifs
    · exact hsame
    · exact hsame
    · exact ⟨h.note (.inr rfl), GcFence.noteHighWater_le _ _⟩
  | exportCheckpoint ckpt =>
    simp only [apply]
    split_ifs
    · exact hsame
    · exact ⟨h.note (.inl rfl), GcFence.noteHighWater_le _ _⟩

def runEngine (runMax : ℕ) (st : EngineState) (steps : List EngineStep) : EngineState :=
  steps.foldl (EngineStep.apply runMax) st

def engineLog (steps : List EngineStep) : List OutputKV :=
  steps.reverse.flatMap EngineStep.appended

def FencedRun (runMax : ℕ) : EngineState → List EngineStep → Prop :=
  Guarded (EngineStep.apply runMax) EngineStep.Fenced

/-- The Adds of the log are still stored, or a Delete at or below the high-water mark spent
them. -/
structure KeepsLive (log : List OutputKV) (st : EngineState) : Prop where
  idle : st.index.Idle
  valid : st.gc.Valid
  fromLog : ∀ e ∈ st.index.chain.flatten, e ∈ log
  kept : ∀ a ∈ log, a.isAdd = true → a ∈ st.index.chain.flatten ∨
    ∃ d ∈ log, d.isAdd = false ∧ d.key = a.key ∧ a.height < d.height ∧
      d.height ≤ st.gc.highWater

theorem keepsLive_fresh : KeepsLive [] fresh := by
  have hempty := refines_empty 0
  refine ⟨hempty.idle, GcFence.valid_fresh, ?_, nofun⟩
  intro e he
  have hmem : e ∈ timeline e.key empty.chain := mem_timeline.mpr ⟨he, rfl⟩
  exact absurd ((hempty.cancels e.key).sublist.subset hmem) not_mem_nil

namespace KeepsLive

variable {log : List OutputKV} {st : EngineState}

theorem raise (h : KeepsLive log st) {st' : EngineState} (hi : st'.index = st.index)
    (hv : st'.gc.Valid) (hle : st.gc.highWater ≤ st'.gc.highWater) : KeepsLive log st' := by
  refine ⟨hi ▸ h.idle, hv, hi ▸ h.fromLog, fun a ha hadd => ?_⟩
  rw [hi]
  rcases h.kept a ha hadd with hin | ⟨d, hd, hdel, hkey, hlt, hhw⟩
  · exact .inl hin
  · exact .inr ⟨d, hd, hdel, hkey, hlt, hhw.trans hle⟩

theorem store (h : KeepsLive log st) {entries : List OutputKV} {idx : UtxoIndex} (hi : idx.Idle)
    (hc : idx.chain.flatten.Perm (entries ++ st.index.chain.flatten)) :
    KeepsLive (entries ++ log) { st with index := idx } := by
  refine ⟨hi, h.valid, ?_, ?_⟩
  · intro e he
    rcases mem_append.mp (hc.mem_iff.mp he) with he | he
    · exact mem_append_left _ he
    · exact mem_append_right _ (h.fromLog e he)
  · intro a ha hadd
    rcases mem_append.mp ha with ha | ha
    · exact .inl (hc.mem_iff.mpr (mem_append_left _ ha))
    · rcases h.kept a ha hadd with hin | ⟨d, hd, hrest⟩
      · exact .inl (hc.mem_iff.mpr (mem_append_right _ hin))
      · exact .inr ⟨d, mem_append_right _ hd, hrest⟩

end KeepsLive

theorem exists_cancelled {fence : ℤ} {inputs : List (List OutputKV)} {a : OutputKV}
    (ha : a ∈ inputs.flatten) (hadd : a.isAdd) (hgone : a ∉ MemoryRun.mergeEntries fence inputs) :
    ∃ d ∈ inputs.flatten, CancelledPair fence a d := by
  have hmerged := kWayMerge_perm (r := le) inputs
  obtain ⟨pairs, lost, hperm, hpairs, hlost, -⟩ :=
    gcPass_account fence (kWayMerge le inputs)
  have hsplit := hperm.mem_iff.mp (hmerged.mem_iff.mpr ha)
  rw [mem_append, mem_append] at hsplit
  rcases hsplit with hin | hpair | hin
  · exact absurd hin hgone
  · obtain ⟨p, hp, hmem⟩ := mem_flatMap.mp hpair
    rcases mem_pair.mp hmem with rfl | rfl
    · refine ⟨p.2, hmerged.mem_iff.mp (hperm.mem_iff.mpr ?_), hpairs p hp⟩
      apply mem_append_right
      apply mem_append_left
      exact mem_flatMap.mpr ⟨p, hp, by simp⟩
    · exact absurd (hadd.symm.trans (hpairs p hp).isDelete) Bool.noConfusion
  · exact absurd (hadd.symm.trans (hlost a hin)) Bool.noConfusion

namespace KeepsLive

variable {log : List OutputKV} {st : EngineState}

theorem merge (h : KeepsLive log st) (hd : ∀ k, Descending (entriesOf k log)) {cfg : MergeConfig}
    {ageIdx : ℕ} (hE : cfg.evictionAge ≤ kAges) (hf : (index (.merge cfg ageIdx)).Fenced st) :
    KeepsLive log { st with
      index := st.index.runMergeForAge { cfg with fence := st.gc.fence } ageIdx } := by
  have hidle : (st.index.runMergeForAge { cfg with fence := st.gc.fence } ageIdx).Idle :=
    runMergeForAge_idle h.idle hE
  rcases @UtxoIndex.runMergeForAge_contents { cfg with fence := st.gc.fence } st.index ageIdx h.idle
    hE with ⟨heq, -⟩ | ⟨age, n, rest, hage, hn, hbefore, hafter⟩
  · rw [heq]
    exact h
  have htaken : ∀ e, e ∈ ((age.runs.take n).map (fun r => r.run.entries)).flatten ↔
      e ∈ (takenChain age n).flatten := by
    intro e
    rw [takenChain, map_reverse]
    exact (reverse_perm _).flatten.mem_iff.symm
  have hstored : ∀ e ∈ (takenChain age n).flatten, e ∈ log :=
    fun e he => h.fromLog e (hbefore.mem_iff.mpr (mem_append_left _ he))
  refine ⟨hidle, h.valid, ?_, ?_⟩
  · intro e he
    rcases mem_append.mp (hafter.mem_iff.mp he) with he | he
    · exact hstored e ((htaken e).mp (mergeEntries_subset he))
    · exact h.fromLog e (hbefore.mem_iff.mpr (mem_append_right _ he))
  · intro a ha hadd
    rcases h.kept a ha hadd with hin | hspent
    · rcases mem_append.mp (hbefore.mem_iff.mp hin) with hin | hin
      · by_cases hgone : a ∈ MemoryRun.mergeEntries st.gc.fence
            ((age.runs.take n).map (fun r => r.run.entries))
        · exact .inl (hafter.mem_iff.mpr (mem_append_left _ hgone))
        · obtain ⟨d, hmem, hpair⟩ := exists_cancelled ((htaken a).mpr hin) hadd hgone
          have hdin := (htaken d).mp hmem
          have hlt : a.height < d.height ∧ d.height ≤ st.gc.fence := by
            refine hpair.height.resolve_left (fun heq => ?_)
            have hsame : a = d := eq_of_height_eq (hd a.key) (mem_entriesOf.mpr ⟨ha, rfl⟩)
              (mem_entriesOf.mpr ⟨hstored d hdin, hpair.key.symm⟩) heq
            exact absurd (hadd.symm.trans (hsame ▸ hpair.isDelete)) Bool.noConfusion
          refine .inr ⟨d, hstored d hdin, hpair.isDelete, hpair.key.symm, hlt.1, ?_⟩
          rcases hf with hne | hall
          · exact hlt.2.trans (h.valid.recorded.resolve_left hne)
          · exact hall age n hage hn a hin d hdin hadd hpair.isDelete hpair.key hlt.1
      · exact .inl (hafter.mem_iff.mpr (mem_append_right _ hin))
    · exact .inr hspent

theorem step (h : KeepsLive log st) {s : EngineStep} (runMax : ℕ)
    (hd : ∀ k, Descending (entriesOf k log)) (hE : s.EvictionInRange) (hf : s.Fenced st) :
    KeepsLive (s.appended ++ log) (s.apply runMax st) := by
  cases s with
  | index s =>
    cases s with
    | append c c' entries height =>
      exact h.store (append_idle h.idle runMax c c' entries height)
        (append_contents h.idle runMax c c' entries height)
    | merge cfg ageIdx => exact h.merge hd hE.2 hf
    | releasePin height =>
      apply h.store (releasePin_idle h.idle height)
      rw [releasePin_chain]
      exact Perm.refl _
    | setSpillTier target take =>
      apply h.store (setSpillTier_idle h.idle target take)
      rw [setSpillTier_chain]
      exact Perm.refl _
    | finishSpill n reads =>
      apply h.store ((IndexStep.finishSpill n reads).apply_idle runMax h.idle trivial)
      simp only [IndexStep.apply, chain, DiskIndex.finishAsyncSpill_chain]
      exact Perm.refl _
  | _ =>
    obtain ⟨hv, hle⟩ := gc_apply runMax h.valid _
    exact h.raise (index_apply runMax st _) hv hle

end KeepsLive

theorem runEngine_append_singleton (st : EngineState) (steps : List EngineStep) (s : EngineStep) :
    runEngine runMax st (steps ++ [s]) = s.apply runMax (runEngine runMax st steps) := by
  simp [runEngine]

theorem engineLog_append_singleton (steps : List EngineStep) (s : EngineStep) :
    engineLog (steps ++ [s]) = s.appended ++ engineLog steps := by
  simp [engineLog]

theorem keepsLive_runEngine {runMax : ℕ} {steps : List EngineStep}
    (hlog : ∀ k, Descending (entriesOf k (engineLog steps)))
    (hE : ∀ s ∈ steps, s.EvictionInRange) (hf : FencedRun runMax fresh steps) :
    KeepsLive (engineLog steps) (runEngine runMax fresh steps) := by
  induction steps using reverseRecOn with
  | nil => exact keepsLive_fresh
  | append_singleton steps s ih =>
    rw [engineLog_append_singleton] at hlog ⊢
    rw [runEngine_append_singleton]
    rw [forall_mem_append, forall_mem_singleton] at hE
    obtain ⟨hprev, hlast⟩ := guarded_concat.mp hf
    have hold : ∀ k, Descending (entriesOf k (engineLog steps)) :=
      fun k => (hlog k).sublist ((sublist_append_right ..).filter _)
    exact (ih hold hE.1 hprev).step runMax hold hE.2 hlast

theorem fencedRun_of_recorded {runMax : ℕ} {st : EngineState} (h : st.gc.fence ≠ i32Max)
    (steps : List IndexStep) : FencedRun runMax st (steps.map index) := by
  induction steps generalizing st with
  | nil => trivial
  | cons s steps ih =>
    refine ⟨?_, ih h⟩
    cases s with
    | merge cfg ageIdx => exact .inl h
    | _ => trivial

/-- Two outputs and the spend of the first are in the tip when it is merged after a pressure tick.
-/
def mergedSteps : List IndexStep :=
  [.append false false [createSpent, OutputKV.newAdd ⟨2, 0⟩ 1 2] 1,
    .append false false [OutputKV.newDelete spentKey 3] 3, .releasePin 1, .releasePin 3,
    .setSpillTier 1 1, .merge (plainMerge false 0) 0]

theorem evictionInRange_mergedSteps :
    ∀ s ∈ mergedSteps.map EngineStep.index, s.EvictionInRange := by
  simp only [mergedSteps, map_cons, map_nil, forall_mem_cons]
  exact ⟨trivial, trivial, trivial, trivial, trivial, evictionInRange_plainMerge false 0 0,
    forall_mem_nil _⟩

def fencedSteps : List EngineStep := .setGcFence 5 :: mergedSteps.map EngineStep.index

end BlvmNode
