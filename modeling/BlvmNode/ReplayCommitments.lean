import BlvmNode.PrunedBlocks
import BlvmNode.Lib.GuardedRun

/-!
# Commitments by replay

A commitment for the block at a height is made from the set that a replay of the blocks below
leaves, and the replay needs their bodies.
-/

namespace BlvmNode

open List

variable {H B W S C : Type} {n m : ℕ}

def setAfter (rules : ReplayRules H B W S C) (chain : List (B × List W)) : ℕ → Option S
  | 0 => some rules.emptySet
  | n + 1 => do
    let set ← setAfter rules chain n
    let block ← chain[n]?
    rules.connectBlock block.1 block.2 set n

theorem setAfter_of_le {rules : ReplayRules H B W S C} {chain : List (B × List W)}
    (hmn : m ≤ n) (h : (setAfter rules chain n).isSome) : (setAfter rules chain m).isSome := by
  induction n with
  | zero => rwa [Nat.le_zero.mp hmn]
  | succ n ih =>
    rcases Nat.le_succ_iff.mp hmn with hle | rfl
    · apply ih hle
      rw [setAfter] at h
      cases hset : setAfter rules chain n with
      | none => simp [hset] at h
      | some set => rfl
    · exact h

variable {rules : ReplayRules H B W S C}

namespace PruneStore

def Holds (st : PruneStore rules) (block : B × List W) (height : ℕ) : Prop :=
  ∃ wire, st.bodies (rules.blockHash block.1) = some (block.1, wire) ∧
    st.loadWitnesses block.1 height = .ok block.2

/-- The blocks of a valid chain are indexed, and stored with witnesses or without a body. -/
structure Indexes (st : PruneStore rules) (chain : List (B × List W)) : Prop where
  valid : (setAfter rules chain chain.length).isSome
  nodup : (chain.map (fun block => rules.blockHash block.1)).Nodup
  index : ∀ (height : ℕ) (block : B × List W), chain[height]? = some block →
    st.heightIndex height = some (rules.blockHash block.1)
  whole : ∀ (height : ℕ) (block : B × List W), chain[height]? = some block →
    st.bodies (rules.blockHash block.1) = none ∨ st.Holds block height

/-- Their undo logs are stored too, so that the bodies may be pruned. -/
structure Retains (st : PruneStore rules) (chain : List (B × List W)) : Prop
    extends st.Indexes chain where
  undo : ∀ (height : ℕ) (block : B × List W), chain[height]? = some block →
    st.undoLogs (rules.blockHash block.1) = true

def BodiesBelow (st : PruneStore rules) (chain : List (B × List W)) (height : ℕ) : Prop :=
  ∀ below < height, ∀ block, chain[below]? = some block →
    st.bodies (rules.blockHash block.1) ≠ none

variable {st st' : PruneStore rules} {chain : List (B × List W)} {height : ℕ} {block : B × List W}
  {set : S}

theorem reconstruct_succ (st : PruneStore rules) (n : ℕ) :
    st.reconstructUtxoSetAtHeight (n + 1) =
      st.reconstructUtxoSetAtHeight n >>= fun set => st.replayBlock set n := by
  rw [reconstructUtxoSetAtHeight, range_succ, foldlM_append]
  simp only [foldlM_cons, foldlM_nil, bind_pure]
  rfl

theorem Indexes.eq_height (h : st.Indexes chain) {other : ℕ} {block' : B × List W}
    (hblock : chain[height]? = some block) (hother : chain[other]? = some block')
    (heq : rules.blockHash block.1 = rules.blockHash block'.1) : height = other := by
  obtain ⟨hlt, -⟩ := List.getElem?_eq_some_iff.mp hblock
  exact (List.getElem?_inj (by simpa using hlt) h.nodup).mp (by simp [hblock, hother, heq])

/-- A replay from bodies that are there gives the set of the chain. -/
theorem Indexes.reconstruct (h : st.Indexes chain) (hbodies : st.BodiesBelow chain n)
    (hset : setAfter rules chain n = some set) : st.reconstructUtxoSetAtHeight n = .ok set := by
  induction n generalizing set with
  | zero => exact congrArg Except.ok (Option.some.inj hset)
  | succ n ih =>
    simp only [setAfter, bind, Option.bind_eq_some_iff] at hset
    obtain ⟨before, hbefore, block, hblock, hconnect⟩ := hset
    have hprev := ih (fun below hlt => hbodies below (by omega)) hbefore
    rcases h.whole n block hblock with hnone | ⟨wire, hbody, hload⟩
    · exact absurd hnone (hbodies n (by omega) block hblock)
    · rw [reconstruct_succ, hprev]
      simp only [bind, Except.bind, replayBlock, h.index n block hblock, hbody, hload, hconnect]

theorem Indexes.bodiesBelow (h : st.Indexes chain)
    (hok : st.reconstructUtxoSetAtHeight n = .ok set) : st.BodiesBelow chain n := by
  induction n generalizing set with
  | zero => intro below hlt; omega
  | succ n ih =>
    rw [reconstruct_succ] at hok
    cases hprev : st.reconstructUtxoSetAtHeight n with
    | error e => simp [hprev, bind, Except.bind] at hok
    | ok before =>
      intro below hlt block hblock
      rcases Nat.lt_succ_iff_lt_or_eq.mp hlt with hbelow | rfl
      · exact ih hprev below hbelow block hblock
      · intro hnone
        simp [hprev, bind, Except.bind, replayBlock, h.index below block hblock, hnone] at hok

end PruneStore

open PruneStore

variable [DecidableEq H]

/-- The replay for a height commits to the set before the block, so it agrees with the commitment
after the block exactly when these two are the same. -/
theorem commitments_agree_iff {st : PruneStore rules} {chain : List (B × List W)} {height : ℕ}
    {block : B × List W} {after : S} (h : st.Indexes chain)
    (hbodies : st.BodiesBelow chain chain.length) (hblock : chain[height]? = some block)
    (hafter : setAfter rules chain (height + 1) = some after) :
    (st.generateCommitmentForBlock (rules.blockHash block.1) height).1 = none ∧
      ((st.generateCommitmentForBlock (rules.blockHash block.1) height).2.commitments
          (rules.blockHash block.1) =
        (st.generateCommitmentFromCurrentState (rules.blockHash block.1) height
          after).commitments (rules.blockHash block.1) ↔
      ∃ before, setAfter rules chain height = some before ∧
        rules.commitment before (rules.blockHash block.1) height =
          rules.commitment after (rules.blockHash block.1) height) := by
  obtain ⟨hlt, -⟩ := List.getElem?_eq_some_iff.mp hblock
  have hsome := setAfter_of_le (Nat.le_succ height) (Option.isSome_of_eq_some hafter)
  obtain ⟨before, hbefore⟩ := Option.isSome_iff_exists.mp hsome
  have hreplay := h.reconstruct (fun below hb => hbodies below (Nat.lt_trans hb hlt)) hbefore
  rw [generateCommitmentForBlock, hreplay]
  refine ⟨rfl, ?_⟩
  simp [generateCommitmentFromCurrentState, storeCommitment, hbefore]

def countingChain (n : ℕ) : List (ℕ × List Unit) := (List.range n).map (fun i => (i, [()]))

theorem getElem?_countingChain {height : ℕ} {block : ℕ × List Unit}
    (h : (countingChain n)[height]? = some block) : block = (height, [()]) := by
  obtain ⟨hlt, rfl⟩ := List.getElem?_eq_some_iff.mp h
  simp [countingChain]

theorem setAfter_countingChain (hm : m ≤ n) :
    setAfter countingRules (countingChain n) m = some m := by
  induction m with
  | zero => rfl
  | succ m ih =>
    have hblock : (countingChain n)[m]? = some (m, [()]) := by
      simp [countingChain, getElem?_range (by omega : m < n)]
    rw [setAfter, ih (by omega), hblock]
    rfl

theorem retains_countingStore (n : ℕ) :
    (countingStore (fun _ => true)).Retains (countingChain n) where
  valid := by rw [setAfter_countingChain (by simp [countingChain])]; rfl
  nodup := by simpa [countingChain, countingRules, Function.comp_def] using nodup_range
  index height block h := by rw [getElem?_countingChain h]; rfl
  undo _ _ _ := rfl
  whole height block h := by rw [getElem?_countingChain h]; exact .inr ⟨none, rfl, rfl⟩

theorem commitments_agree_iff_counting :
    ((countingStore (fun _ => true)).generateCommitmentForBlock 1 1).1 = none ∧
      ((countingStore (fun _ => true)).generateCommitmentForBlock 1 1).2.commitments 1 ≠
        ((countingStore (fun _ => true)).generateCommitmentFromCurrentState 1 1 2).commitments
          1 := by
  obtain ⟨hok, hiff⟩ := commitments_agree_iff (retains_countingStore 2).toIndexes
    (fun _ _ _ _ => nofun) (show (countingChain 2)[1]? = some (1, [()]) from rfl)
    (setAfter_countingChain (Nat.le_refl 2))
  refine ⟨hok, fun heq => ?_⟩
  obtain ⟨before, hbefore, hcommit⟩ := hiff.mp heq
  cases hbefore
  cases hcommit

/-- The replay for the block at height 1 commits to one coin, and the block leaves two. -/
theorem replay_omits_block :
    (countingStore (fun _ => true)).Retains (countingChain 2) ∧
      setAfter countingRules (countingChain 2) 2 = some 2 ∧
      ((countingStore (fun _ => true)).generateCommitmentForBlock 1 1).2.commitments 1 = some 1 ∧
      ((countingStore (fun _ => true)).generateCommitmentFromCurrentState 1 1 2).commitments 1 =
        some 2 :=
  ⟨retains_countingStore 2, rfl, rfl, rfl⟩

end BlvmNode
