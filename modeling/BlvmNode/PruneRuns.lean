import BlvmNode.ReplayCommitments

/-!
# Pruning again and again

With commitments a call has to replay the chain for every new commitment, but it and the calls
before it remove the bodies that the replay needs.
-/

namespace BlvmNode

open PruneStore GuardedRun

variable {H B W S C : Type} {rules : ReplayRules H B W S C} {st st' : PruneStore rules}
  {chain : List (B × List W)} {height : ℕ} {block : B × List W} {ibd : Bool}

namespace PruneStore

def CommittedAt (st : PruneStore rules) (chain : List (B × List W)) (height : ℕ) : Prop :=
  ∀ block, chain[height]? = some block → (st.commitments (rules.blockHash block.1)).isSome

theorem Retains.exists_block (h : st.Retains chain) (hlt : height < chain.length) :
    ∃ block, chain[height]? = some block ∧
      st.heightIndex height = some (rules.blockHash block.1) :=
  ⟨chain[height], List.getElem?_eq_getElem hlt, h.index _ _ (List.getElem?_eq_getElem hlt)⟩

variable {keepWitnesses : Bool}

theorem Retains.trimmed (h : st.Retains chain) {reached : H → Prop}
    (ht : Trimmed keepWitnesses reached st st') : st'.Retains chain where
  valid := h.valid
  nodup := h.nodup
  index height block hblock := by
    rw [ht.heightIndex]
    exact h.index height block hblock
  undo height block hblock := by
    rw [ht.undoLogs]
    exact h.undo height block hblock
  whole height block hblock := by
    rcases ht.bodies (rules.blockHash block.1) with hsame | ⟨hnone, -⟩
    · rcases h.whole height block hblock with hnone | ⟨wire, hbody, hload⟩
      · exact .inl (hsame.trans hnone)
      · rcases ht.witnessRows (rules.blockHash block.1) with hrow | ⟨-, -, -, hgone⟩
        · refine .inr ⟨wire, hsame.trans hbody, ?_⟩
          rw [← hload]
          simp only [loadWitnesses, getWitness, hsame, hrow]
        · exact .inl (hgone (h.undo height block hblock))
    · exact .inl hnone

variable [DecidableEq H]

/-- A commitment is there, or it can be made if the bodies below are. -/
theorem Retains.commitIfMissing_iff (h : st.Retains chain) (hblock : chain[height]? = some block) :
    (st.commitIfMissing (rules.blockHash block.1) height).1 = none ↔
      st.CommittedAt chain height ∨ st.BodiesBelow chain height := by
  have hcommitted : st.CommittedAt chain height ↔
      (st.commitments (rules.blockHash block.1)).isSome :=
    ⟨fun hall => hall block hblock, fun hsome other hother => by
      rwa [← Option.some.inj (hblock.symm.trans hother)]⟩
  have hlt := (List.getElem?_eq_some_iff.mp hblock).1
  obtain ⟨set, hset⟩ := Option.isSome_iff_exists.mp (setAfter_of_le (Nat.le_of_lt hlt) h.valid)
  rw [hcommitted, commitIfMissing, generateCommitmentForBlock]
  split
  next hsome => simp [hsome]
  next hmissing =>
    simp only [hmissing, Bool.false_eq_true, false_or]
    constructor
    · intro hok
      cases hreplay : st.reconstructUtxoSetAtHeight height with
      | error e => simp [hreplay] at hok
      | ok set => exact h.bodiesBelow hreplay
    · intro hbodies
      rw [h.reconstruct hbodies hset]

theorem Retains.committedAt_iff (h : st.Retains chain) (hblock : chain[height]? = some block)
    (hok : (st.commitIfMissing (rules.blockHash block.1) height).1 = none) (other : ℕ) :
    (st.commitIfMissing (rules.blockHash block.1) height).2.CommittedAt chain other ↔
      st.CommittedAt chain other ∨ other = height := by
  rcases st.commitIfMissing_cases (rules.blockHash block.1) height with
    ⟨hsome, heq⟩ | ⟨e, -, heq⟩ | ⟨set, -, heq⟩ <;> rw [heq] at hok ⊢
  · refine ⟨.inl, ?_⟩
    rintro (hother | rfl)
    · exact hother
    · intro block' hblock'
      rwa [← Option.some.inj (hblock.symm.trans hblock')]
  · cases hok
  · constructor
    · intro hall
      by_cases heq : other = height
      · exact .inr heq
      · refine .inl (fun block' hblock' => ?_)
        have hne : rules.blockHash block'.1 ≠ rules.blockHash block.1 :=
          fun hhash => heq (h.eq_height hblock' hblock hhash)
        simpa [storeCommitment, hne] using hall block' hblock'
    · rintro hother block' hblock'
      by_cases hhash : rules.blockHash block'.1 = rules.blockHash block.1
      · simp [storeCommitment, hhash]
      · rcases hother with hother | rfl
        · simpa [storeCommitment, hhash] using hother block' hblock'
        · rw [Option.some.inj (hblock.symm.trans hblock')] at hhash
          exact absurd rfl hhash

section Loop

variable {body : H → ℕ → PruneStore rules → Option PruneError × PruneStore rules}
  {heights : List ℕ} {hash : H} {can : ℕ → Prop} {turn : Option PruneError × PruneStore rules}

omit [DecidableEq H]

variable (st chain heights can) in
/-- The loop succeeds exactly if every commitment is there or can be made, and then makes them. -/
def LoopCommits (loop : Option PruneError × PruneStore rules) : Prop :=
  (loop.1 = none ↔ ∀ height ∈ heights, st.CommittedAt chain height ∨ can height) ∧
    (loop.1 = none → ∀ n, loop.2.CommittedAt chain n ↔ st.CommittedAt chain n ∨ n ∈ heights)

theorem loopCommits_cons (hindex : st.heightIndex height = some hash)
    (hturn : body hash height st = turn)
    (hiff : turn.1 = none ↔ st.CommittedAt chain height ∨ can height)
    (hcommitted : turn.1 = none → ∀ n, turn.2.CommittedAt chain n ↔
      st.CommittedAt chain n ∨ n = height)
    (hrest : turn.2.LoopCommits chain heights can (forHeights body heights turn.2)) :
    st.LoopCommits chain (height :: heights) can (forHeights body (height :: heights) st) := by
  simp only [LoopCommits, forHeights, hindex, hturn, List.forall_mem_cons]
  obtain ⟨failure, next⟩ := turn
  cases failure with
  | none =>
    obtain ⟨hloop, hall⟩ := hrest
    have hhead := hiff.mp rfl
    simp only [hcommitted rfl] at hloop hall
    refine ⟨hloop.trans ⟨fun htail => ⟨hhead, fun n hn => ?_⟩, fun hcond n hn => ?_⟩,
      fun hok n => (hall hok n).trans ?_⟩
    · rcases htail n hn with (hc | rfl) | hb
      · exact .inl hc
      · exact hhead
      · exact .inr hb
    · exact (hcond.2 n hn).imp_left .inl
    · rw [List.mem_cons, or_assoc]
  | some e =>
    refine ⟨⟨by simp, fun hcond => ?_⟩, by simp⟩
    cases hiff.mpr hcond.1

end Loop

theorem bodiesBelow_commitIfMissing (hash : H) (height : ℕ) :
    (st.commitIfMissing hash height).2.BodiesBelow chain = st.BodiesBelow chain := by
  rcases st.commitIfMissing_cases hash height with ⟨-, heq⟩ | ⟨_, -, heq⟩ | ⟨_, -, heq⟩ <;>
    exact heq ▸ rfl

theorem trimmed_commitIfMissing (st : PruneStore rules) (hash : H) (height : ℕ) :
    Trimmed true (fun _ => False) st (st.commitIfMissing hash height).2 :=
  Trimmed.refl.commitIfMissing height

theorem Retains.commitLoop (h : st.Retains chain) {heights : List ℕ}
    (hlt : ∀ height ∈ heights, height < chain.length) :
    st.LoopCommits chain heights (st.BodiesBelow chain)
      (forHeights (fun hash height st => st.commitIfMissing hash height) heights st) := by
  induction heights generalizing st with
  | nil => simp [forHeights, LoopCommits]
  | cons height heights ih =>
    rw [List.forall_mem_cons] at hlt
    obtain ⟨block, hblock, hindex⟩ := h.exists_block hlt.1
    have hrest := ih (h.trimmed (st.trimmed_commitIfMissing (rules.blockHash block.1) height)) hlt.2
    rw [bodiesBelow_commitIfMissing] at hrest
    exact loopCommits_cons hindex rfl (h.commitIfMissing_iff hblock) (h.committedAt_iff hblock)
        hrest

/-- The loop from genesis on, or from a height where the body of genesis is gone: genesis is
committed from the empty set, and no other block can be replayed. -/
theorem Retains.customLoop (h : st.Retains chain) {start keepBodiesFrom : ℕ} (count : ℕ)
    (hgone : start = 0 ∨ ¬ st.BodiesBelow chain 1) (hlen : start + count ≤ chain.length)
    (hkeep : start + count ≤ keepBodiesFrom) :
    st.LoopCommits chain (List.range' start count) (· = 0) (forHeights (fun hash height st =>
      (st.trim (!decide (height < keepBodiesFrom)) keepWitnesses hash).commitIfMissing hash height)
      (List.range' start count) st) := by
  induction count generalizing start st with
  | zero => simp [forHeights, LoopCommits]
  | succ count ih =>
    obtain ⟨block, hblock, hindex⟩ := h.exists_block (show start < _ by omega)
    generalize hnext : st.trim false keepWitnesses (rules.blockHash block.1) = next
    have hframe : Trimmed keepWitnesses (fun _ => True) st next := hnext ▸ Trimmed.refl.trim trivial
    have hret := h.trimmed hframe
    have hsame : ∀ n, next.CommittedAt chain n ↔ st.CommittedAt chain n := fun n => by
      simp only [CommittedAt, ← hnext, trim_frame]
    have hbelow : ∀ n, 0 < n → ¬ next.BodiesBelow chain n := by
      intro n hn hbodies
      rcases hgone with rfl | hgone
      · apply hbodies 0 hn block hblock
        rw [← hnext, bodies_trim, if_pos ⟨rfl, rfl, h.undo 0 block hblock⟩]
      · refine hgone (fun below hb block hblock hnone => ?_)
        apply hbodies below (by omega) block hblock
        rcases hframe.bodies (rules.blockHash block.1) with heq | hnone
        · rw [heq, hnone]
        · exact hnone.1
    have hzero : next.BodiesBelow chain start ↔ start = 0 := by
      refine ⟨fun hbodies => ?_, ?_⟩
      · by_contra hne
        exact hbelow start (Nat.pos_of_ne_zero hne) hbodies
      · rintro rfl below hlt
        exact absurd hlt (Nat.not_lt_zero below)
    have hiff := hret.commitIfMissing_iff hblock
    have hcommitted := hret.committedAt_iff hblock
    simp only [hzero, hsame] at hiff hcommitted
    have hstart : start < keepBodiesFrom := by omega
    rw [List.range'_succ]
    refine loopCommits_cons hindex (by simp [hstart, hnext]) hiff hcommitted
      (ih (hret.trimmed (next.trimmed_commitIfMissing _ start)) (.inr ?_) (by omega) (by omega))
    rw [bodiesBelow_commitIfMissing]
    exact hbelow 1 Nat.one_pos

theorem Retains.pruneCustom_iff (h : st.Retains chain) {pruneTo keepBodiesFrom : ℕ}
    (hlen : pruneTo ≤ chain.length) (hkeep : pruneTo ≤ keepBodiesFrom) :
    let call := st.pruneCustom pruneTo keepBodiesFrom true keepWitnesses
    (call.1 = none ↔ ∀ height < pruneTo, st.CommittedAt chain height ∨ height = 0) ∧
      (call.1 = none → ∀ height < pruneTo, call.2.CommittedAt chain height) := by
  obtain ⟨hloop, hall⟩ := @customLoop _ _ _ _ _ _ _ _ keepWitnesses _ h 0 keepBodiesFrom pruneTo
    (.inl rfl) (by omega) (by omega)
  simp only [← List.range_eq_range', List.mem_range] at hloop hall
  simp only [pruneCustom, if_true]
  exact ⟨hloop, fun hok height hlt => (hall hok height).mpr (.inr hlt)⟩

end PruneStore

namespace PruningManager

variable (mgr : PruningManager)

def commits : Bool :=
  mgr.storesAttached &&
    match mgr.mode with
    | .aggressive _ keepCommitments _ _ => keepCommitments
    | .custom _ keepCommitments _ => keepCommitments
    | _ => false

/-- The heights at which a pruned block is to have a commitment. -/
def Promises (height : ℕ) : Prop :=
  match mgr.mode with
  | .aggressive .. => height % checkpointInterval = 0
  | _ => True

/-- Every promised commitment below the prune height exists or can be made: in Aggressive mode from
the bodies below, in Custom mode only for genesis. -/
def Replayable (st : PruneStore rules) (chain : List (B × List W)) (pruneTo current : ℕ) : Prop :=
  ∀ height < mgr.actualPruneHeight pruneTo current, mgr.Promises height →
    st.CommittedAt chain height ∨
      match mgr.mode with
      | .aggressive .. => st.BodiesBelow chain height
      | _ => height = 0

theorem pruneToHeight_iff [DecidableEq H] {pruneTo current : ℕ}
    (hcommits : mgr.commits) (hcheck : mgr.checkPrune pruneTo current ibd = none)
    (h : st.Retains chain) (hlen : mgr.actualPruneHeight pruneTo current ≤ chain.length) :
    let call := mgr.pruneToHeight st pruneTo current ibd
    (call.1 = none ↔ mgr.Replayable st chain pruneTo current) ∧
      (call.1 = none → ∀ height < mgr.actualPruneHeight pruneTo current, mgr.Promises height →
        call.2.CommittedAt chain height) := by
  unfold commits at hcommits
  unfold Replayable Promises
  rw [pruneToHeight, hcheck]
  cases hmode : mgr.mode with
  | disabled | normal => simp [hmode] at hcommits
  | aggressive keepFrom keepCommitments keepFilteredBlocks minBlocks =>
    rw [hmode, Bool.and_eq_true] at hcommits
    simp only [hcommits.1, hcommits.2, Bool.and_self, pruneAggressive, if_true,
      generateCommitmentsBeforePrune]
    generalize mgr.actualPruneHeight pruneTo current = bound at hlen ⊢
    have hmem : ∀ height, height ∈ checkpointHeights bound ↔
        height < bound ∧ height % checkpointInterval = 0 := by simp [checkpointHeights]
    obtain ⟨hloop, hall⟩ := @Retains.commitLoop _ _ _ _ _ _ _ _ _ h (checkpointHeights bound)
      (fun height hheight => Nat.lt_of_lt_of_le ((hmem height).mp hheight).1 hlen)
    simp only [hmem, and_imp] at hloop hall
    generalize forHeights _ (checkpointHeights bound) st = committed at hloop hall ⊢
    obtain ⟨_ | e, next⟩ := committed
    · refine ⟨(iff_of_true (forHeights_eq_none (fun _ _ _ => rfl)) (hloop.mp rfl)), ?_⟩
      intro _ height hlt hpromised
      have hkept : (forHeights (fun hash _ st => (none, st.trim false keepFilteredBlocks hash))
          (List.range bound) next).2.commitments = next.commitments :=
        forHeights_invariant (P := fun st' => st'.commitments = next.commitments)
          (fun _ _ _ _ _ hst => (trim_frame ..).2.2.trans hst) rfl
      unfold CommittedAt
      rw [hkept]
      exact (hall rfl height).mpr (.inr ⟨hlt, hpromised⟩)
    · exact ⟨hloop, by simp⟩
  | custom keepBodiesFrom keepCommitments keepWitnesses =>
    rw [hmode, Bool.and_eq_true] at hcommits
    have hkeep : mgr.actualPruneHeight pruneTo current ≤ keepBodiesFrom := by
      simp only [actualPruneHeight, hmode]
      exact Nat.min_le_right ..
    simp only [hcommits.1, hcommits.2, Bool.and_self, forall_const]
    exact h.pruneCustom_iff hlen hkeep

end PruningManager

variable [DecidableEq H]

/-- A connected block with its witnesses in a row or in wire bytes. A new block has no row yet. -/
def PruneStore.recordBlock (st : PruneStore rules) (block : B × List W) (wire : Bool)
    (height : ℕ) : PruneStore rules where
  heightIndex := Function.update st.heightIndex height (some (rules.blockHash block.1))
  bodies := Function.update st.bodies (rules.blockHash block.1)
    (some (block.1, if wire then some block.2 else none))
  witnessRows := Function.update st.witnessRows (rules.blockHash block.1)
    (if wire then none else some block.2)
  undoLogs := Function.update st.undoLogs (rules.blockHash block.1) true
  commitments := st.commitments
  own hash body hbody := by
    by_cases hhash : hash = rules.blockHash block.1
    · rw [hhash, Function.update_self] at hbody
      rw [hhash, ← Option.some.inj hbody]
    · rw [Function.update_of_ne hhash] at hbody
      exact st.own hash body hbody

structure PruneSystem (rules : ReplayRules H B W S C) where
  chain : List (B × List W)
  store : PruneStore rules
  failed : Bool

open PruneSystem

/-- The chain grows by a block, which the run loop may commit to at once, or a call prunes. -/
inductive PruneEvent (B W : Type) where
  | grow (block : B × List W) (wire commit : Bool)
  | prune (pruneTo : ℕ) (ibd : Bool)

namespace PruneSystem

variable (mgr : PruningManager) (sys : PruneSystem rules)

def grown (block : B × List W) (wire commit : Bool) : PruneStore rules :=
  let stored := sys.store.recordBlock block wire sys.chain.length
  match commit, setAfter rules (sys.chain ++ [block]) (sys.chain.length + 1) with
  | true, some set =>
    stored.generateCommitmentFromCurrentState (rules.blockHash block.1) sys.chain.length set
  | _, _ => stored

def step : PruneEvent B W → PruneSystem rules
  | .grow block wire commit =>
    { sys with chain := sys.chain ++ [block], store := sys.grown block wire commit }
  | .prune pruneTo ibd =>
    let call := mgr.pruneToHeight sys.store pruneTo (sys.chain.length - 1) ibd
    { sys with store := call.2, failed := sys.failed || call.1.isSome }

/-- New blocks are valid and not in the chain yet, and calls are accepted. -/
def Admissible : PruneEvent B W → Prop
  | .grow block _ _ =>
    (setAfter rules (sys.chain ++ [block]) (sys.chain.length + 1)).isSome ∧
      rules.blockHash block.1 ∉ sys.chain.map (fun old => rules.blockHash old.1) ∧
      block.2.length = rules.txCount block.1
  | .prune pruneTo ibd => mgr.checkPrune pruneTo (sys.chain.length - 1) ibd = none

def CanCommit : PruneEvent B W → Prop
  | .grow .. => True
  | .prune pruneTo _ => mgr.Replayable sys.store sys.chain pruneTo (sys.chain.length - 1)

/-- Every call so far has succeeded, and pruned blocks have the commitments they were promised. -/
def Succeeded : Prop :=
  sys.failed = false ∧ ∀ (height : ℕ) (block : B × List W), sys.chain[height]? = some block →
    mgr.Promises height → sys.store.bodies (rules.blockHash block.1) = none →
    (sys.store.commitments (rules.blockHash block.1)).isSome

variable {mgr sys} {event : PruneEvent B W}

theorem getElem?_concat_cases {new : B × List W} (h : (chain ++ [new])[height]? = some block) :
    chain[height]? = some block ∨ height = chain.length ∧ block = new := by
  rcases Nat.lt_trichotomy height chain.length with hlt | rfl | hlt
  · rw [List.getElem?_append_left hlt] at h
    exact .inl h
  · simp at h
    exact .inr ⟨rfl, h.symm⟩
  · rw [List.getElem?_eq_none (by simp; omega)] at h
    cases h

omit [DecidableEq H] in
theorem blockHash_ne {new : B × List W}
    (hfresh : rules.blockHash new.1 ∉ sys.chain.map (fun old => rules.blockHash old.1))
    (hblock : sys.chain[height]? = some block) :
    rules.blockHash block.1 ≠ rules.blockHash new.1 := fun heq =>
  hfresh (heq ▸ List.mem_map_of_mem (f := fun old => rules.blockHash old.1)
    (List.mem_of_getElem? hblock))

theorem retains_recordBlock (h : sys.store.Retains sys.chain) (wire : Bool)
    (hvalid : (setAfter rules (sys.chain ++ [block]) (sys.chain.length + 1)).isSome)
    (hfresh : rules.blockHash block.1 ∉ sys.chain.map (fun old => rules.blockHash old.1))
    (hcount : block.2.length = rules.txCount block.1) :
    (sys.store.recordBlock block wire sys.chain.length).Retains (sys.chain ++ [block]) where
  valid := by simpa using hvalid
  nodup := by
    rw [List.map_append, List.nodup_append]
    refine ⟨h.nodup, by simp, ?_⟩
    rintro _ hold _ hnew rfl
    rw [List.map_singleton, List.mem_singleton] at hnew
    exact hfresh (hnew ▸ hold)
  index height old hold := by
    rcases getElem?_concat_cases hold with hold | ⟨rfl, rfl⟩
    · have hlt := (List.getElem?_eq_some_iff.mp hold).1
      simpa [recordBlock, Nat.ne_of_lt hlt] using h.index height old hold
    · simp [recordBlock]
  undo height old hold := by
    rcases getElem?_concat_cases hold with hold | ⟨rfl, rfl⟩
    · simpa [recordBlock, blockHash_ne hfresh hold] using h.undo height old hold
    · simp [recordBlock]
  whole height old hold := by
    rcases getElem?_concat_cases hold with hold | ⟨rfl, rfl⟩
    · simpa [recordBlock, blockHash_ne hfresh hold, Holds, loadWitnesses, getWitness]
        using h.whole height old hold
    · right
      refine ⟨_, Function.update_self .., ?_⟩
      cases wire <;> simp [loadWitnesses, getWitness, recordBlock, hcount]

theorem retains_step (h : sys.store.Retains sys.chain) (hevent : sys.Admissible mgr event) :
    (sys.step mgr event).store.Retains (sys.step mgr event).chain := by
  cases event with
  | grow block wire commit =>
    have hstored := retains_recordBlock h wire hevent.1 hevent.2.1 hevent.2.2
    simp only [step, grown]
    split
    · exact ⟨⟨hstored.valid, hstored.nodup, hstored.index, hstored.whole⟩, hstored.undo⟩
    · exact hstored
  | prune pruneTo ibd => exact h.trimmed (mgr.trimmed_pruneToHeight sys.store pruneTo _ ibd)

theorem commitments_grown (block : B × List W) (wire commit : Bool) {hash : H}
    (h : (sys.store.commitments hash).isSome) :
    ((sys.grown block wire commit).commitments hash).isSome := by
  simp only [grown]
  split
  · by_cases hhash : hash = rules.blockHash block.1 <;>
      simp [generateCommitmentFromCurrentState, storeCommitment, hhash, recordBlock, h]
  · exact h

theorem bodies_grown (block : B × List W) (wire commit : Bool) (hash : H) :
    (sys.grown block wire commit).bodies hash =
      (sys.store.recordBlock block wire sys.chain.length).bodies hash := by
  simp only [grown]
  split <;> rfl

theorem actualPruneHeight_le {pruneTo current : ℕ} :
    mgr.actualPruneHeight pruneTo current ≤ pruneTo := by
  unfold PruningManager.actualPruneHeight
  cases mgr.mode <;> dsimp only <;> omega

theorem lt_of_checkPrune {pruneTo current : ℕ}
    (h : mgr.checkPrune pruneTo current ibd = none) : pruneTo < current := by
  unfold PruningManager.checkPrune at h
  split_ifs at h
  omega

theorem succeeded_step_iff (hcommits : mgr.commits) (h : sys.store.Retains sys.chain)
    (hevent : sys.Admissible mgr event) (hsys : sys.Succeeded mgr) :
    (sys.step mgr event).Succeeded mgr ↔ sys.CanCommit mgr event := by
  cases event with
  | grow block wire commit =>
    refine iff_of_true ⟨hsys.1, fun height old hold hpromised hnone => ?_⟩ trivial
    simp only [step, bodies_grown, recordBlock] at hnone
    rcases getElem?_concat_cases hold with hold | ⟨rfl, rfl⟩
    · rw [Function.update_of_ne (blockHash_ne hevent.2.1 hold)] at hnone
      exact commitments_grown block wire commit (hsys.2 height old hold hpromised hnone)
    · rw [Function.update_self] at hnone
      cases hnone
  | prune pruneTo ibd =>
    have hlt : pruneTo < sys.chain.length - 1 := lt_of_checkPrune hevent
    have hle := @actualPruneHeight_le mgr pruneTo (sys.chain.length - 1)
    obtain ⟨hiff, hall⟩ := mgr.pruneToHeight_iff hcommits hevent h (by omega)
    have htrim := mgr.trimmed_pruneToHeight sys.store pruneTo (sys.chain.length - 1) ibd
    rw [CanCommit, ← hiff]
    constructor
    · intro hafter
      simpa [step, hsys.1] using hafter.1
    · intro hok
      refine ⟨by simp [step, hsys.1, hok], fun height block hblock hpromised hnone => ?_⟩
      rcases htrim.bodies (rules.blockHash block.1) with hsame | ⟨-, -, below, hbelow, hindex⟩
      · exact htrim.commitments _ (hsys.2 height block hblock hpromised (hsame.symm.trans hnone))
      · obtain ⟨other, hother, hhash⟩ := h.exists_block (Nat.lt_of_lt_of_le hbelow (by omega))
        have heq := h.eq_height hother hblock (Option.some.inj (hhash.symm.trans hindex))
        exact hall hok height (heq ▸ hbelow) hpromised block hblock

end PruneSystem

/-- From a chain with everything stored, all calls of a run succeed and leave the promised
commitments exactly when every call can make those it lacks. -/
theorem pruning_repeats_iff {mgr : PruningManager} (hcommits : mgr.commits = true)
    {sys : PruneSystem rules} (h : sys.store.Retains sys.chain)
    (hbodies : sys.store.BodiesBelow sys.chain sys.chain.length) (hfailed : sys.failed = false)
    {events : List (PruneEvent B W)}
    (hrun : Guarded (PruneSystem.step mgr) (PruneSystem.Admissible mgr) sys events) :
    (∀ n, ((events.take n).foldl (PruneSystem.step mgr) sys).Succeeded mgr) ↔
      Guarded (PruneSystem.step mgr) (PruneSystem.CanCommit mgr) sys events := by
  refine forall_take_iff_of_guarded (fun sys event hevent h _ => retains_step h hevent)
    (fun sys event hevent h hsys => succeeded_step_iff hcommits h hevent hsys) h
    ⟨hfailed, fun height block hblock _ hnone => ?_⟩ hrun
  exact absurd hnone (hbodies height (List.getElem?_eq_some_iff.mp hblock).1 block hblock)

def countingSystem : PruneSystem countingRules :=
  ⟨countingChain 434, countingStore (fun _ => true), false⟩

theorem bodiesBelow_countingStore (n : ℕ) :
    (countingStore (fun _ => true)).BodiesBelow (countingChain 434) n :=
  fun _ _ _ _ hnone => by cases hnone

theorem canCommit_below_interval {sys : PruneSystem countingRules} {pruneTo : ℕ}
    (hpruneTo : pruneTo ≤ 144) : sys.CanCommit aggressiveManager (.prune pruneTo false) := by
  intro height hlt hpromised
  refine .inr fun below hbelow => ?_
  have hle : height < pruneTo := Nat.lt_of_lt_of_le hlt actualPruneHeight_le
  have hmultiple : height % 144 = 0 := hpromised
  omega

theorem pruning_repeats_twice : aggressiveManager.commits = true ∧
    ∀ n, ((([.prune 1 false, .prune 100 false] : List (PruneEvent ℕ Unit)).take n).foldl
      (PruneSystem.step aggressiveManager) countingSystem).Succeeded aggressiveManager := by
  have hrun : Guarded (step aggressiveManager) (Admissible aggressiveManager)
      countingSystem [.prune 1 false, .prune 100 false] := by
    simp only [Guarded, Admissible, and_true]
    decide +kernel
  exact ⟨rfl, (pruning_repeats_iff rfl (retains_countingStore 434) (bodiesBelow_countingStore _)
    rfl hrun).mpr ⟨canCommit_below_interval (by decide), canCommit_below_interval (by decide),
      trivial⟩⟩

def customManager : PruningManager := ⟨.custom 1000 true false, false, 288, 144, true⟩

/-- The second Aggressive call replays 144 blocks, of which the first has no body; the first Custom
call fails at height 1. -/
theorem pruned_bodies_stop_replay :
    Guarded (PruneSystem.step aggressiveManager) (PruneSystem.Admissible aggressiveManager)
        countingSystem [.prune 1 false, .prune 145 false] ∧
      (([.prune 1 false, .prune 145 false] : List (PruneEvent ℕ Unit)).foldl
        (PruneSystem.step aggressiveManager) countingSystem).failed = true ∧
      PruneSystem.Admissible customManager countingSystem (.prune 2 false) ∧
      (countingSystem.step customManager (.prune 2 false)).failed = true := by
  simp only [Guarded, Admissible, and_true]
  decide +kernel

end BlvmNode
