import Mathlib.Data.List.Basic

/-!
# Pruning of stored blocks

`PruningManager::prune_to_height` removes the bodies and the witness rows of the blocks below a
height, in one of three modes. With UTXO commitments it first replays the chain from the stored
bodies. What a call has removed stays removed when it fails, so the error is returned beside the
store.
-/

namespace BlvmNode

/-- The consensus crate. `commitment` is the tree of a set with `generate_commitment`;
`connectBlock` gives nothing for an error or an invalid block. -/
structure ReplayRules (H B W S C : Type) where
  blockHash : B → H
  txCount : B → ℕ
  emptyWitnesses : B → List W
  segwitActive : ℕ → Bool
  emptySet : S
  connectBlock : B → List W → S → ℕ → Option S
  commitment : S → H → ℕ → C

inductive PruneError where
  | disabled
  | duringIbd
  | fewSynced (required current : ℕ)
  | aboveTip (pruneTo current : ℕ)
  | fewKept (kept required : ℕ)
  | witnessCount (witnesses transactions height : ℕ)
  | missingWitness (height : ℕ)
  | invalidBlock (height : ℕ)
  | missingBody (height : ℕ)
  | unknownHeight (height : ℕ)
  deriving DecidableEq

/-- The flags that decide about bodies, witness rows and commitments. -/
inductive PruningMode where
  | disabled
  | normal (keepFromHeight minRecentBlocks : ℕ)
  | aggressive (keepFromHeight : ℕ) (keepCommitments keepFilteredBlocks : Bool) (minBlocks : ℕ)
  | custom (keepBodiesFromHeight : ℕ) (keepCommitments keepWitnesses : Bool)
  deriving DecidableEq

/-- The configuration; `storesAttached` says that there are a commitment store and a UTXO store. -/
structure PruningManager where
  mode : PruningMode
  incrementalPruneDuringIbd : Bool
  minBlocksForIncrementalPrune : ℕ
  minBlocksToKeep : ℕ
  storesAttached : Bool

/-- A body from wire bytes has its witnesses with it; bodies lie under the hash of their block. -/
structure PruneStore {H B W S C : Type} (rules : ReplayRules H B W S C) where
  heightIndex : ℕ → Option H
  bodies : H → Option (B × Option (List W))
  witnessRows : H → Option (List W)
  undoLogs : H → Bool
  commitments : H → Option C
  own : ∀ hash body, bodies hash = some body → rules.blockHash body.1 = hash

variable {H B W S C : Type} {rules : ReplayRules H B W S C}

namespace PruneStore

section Replay

variable (st : PruneStore rules)

def getWitness (hash : H) : Option (List W) :=
  (st.witnessRows hash).or ((st.bodies hash).bind Prod.snd)

def loadWitnesses (block : B) (height : ℕ) : Except PruneError (List W) :=
  match st.getWitness (rules.blockHash block) with
  | some witnesses =>
    if witnesses.length ≠ rules.txCount block then
      .error (.witnessCount witnesses.length (rules.txCount block) height)
    else .ok witnesses
  | none =>
    if rules.segwitActive height then .error (.missingWitness height)
    else .ok (rules.emptyWitnesses block)

def replayBlock (set : S) (height : ℕ) : Except PruneError S :=
  match st.heightIndex height with
  | none => .error (.unknownHeight height)
  | some hash =>
    match st.bodies hash with
    | none => .error (.missingBody height)
    | some body => do
      let witnesses ← st.loadWitnesses body.1 height
      match rules.connectBlock body.1 witnesses set height with
      | some next => .ok next
      | none => .error (.invalidBlock height)

/-- The block at the target height is not replayed. -/
def reconstructUtxoSetAtHeight (target : ℕ) : Except PruneError S :=
  (List.range target).foldlM st.replayBlock rules.emptySet

end Replay

variable [DecidableEq H] (st : PruneStore rules)

def storeCommitment (hash : H) (commitment : C) : PruneStore rules :=
  { st with commitments := Function.update st.commitments hash (some commitment) }

def generateCommitmentForBlock (hash : H) (height : ℕ) : Option PruneError × PruneStore rules :=
  match st.reconstructUtxoSetAtHeight height with
  | .error e => (some e, st)
  | .ok set => (none, st.storeCommitment hash (rules.commitment set hash height))

def generateCommitmentFromCurrentState (hash : H) (height : ℕ) (set : S) : PruneStore rules :=
  st.storeCommitment hash (rules.commitment set hash height)

def commitIfMissing (hash : H) (height : ℕ) : Option PruneError × PruneStore rules :=
  if (st.commitments hash).isSome then (none, st) else st.generateCommitmentForBlock hash height

def removeBlockBody (hash : H) : PruneStore rules :=
  { st with
    bodies := Function.update st.bodies hash none
    own := fun other body hbody => by
      by_cases hhash : other = hash
      · rw [hhash, Function.update_self] at hbody
        cases hbody
      · rw [Function.update_of_ne hhash] at hbody
        exact st.own other body hbody }

def removeBodyIfUndoIsDurable (hash : H) : PruneStore rules :=
  if (st.bodies hash).isSome && st.undoLogs hash then st.removeBlockBody hash else st

def removeWitness (hash : H) : PruneStore rules :=
  { st with witnessRows := Function.update st.witnessRows hash none }

/-- What a loop body removes: the body of a block if there is an undo log, and its witness row. -/
def trim (keepBody keepWitnesses : Bool) (hash : H) : PruneStore rules :=
  let kept := if keepBody then st else st.removeBodyIfUndoIsDurable hash
  if keepWitnesses then kept else kept.removeWitness hash

/-- A loop over heights with a known block, left at the first error. -/
def forHeights (body : H → ℕ → PruneStore rules → Option PruneError × PruneStore rules) :
    List ℕ → PruneStore rules → Option PruneError × PruneStore rules
  | [], st => (none, st)
  | height :: heights, st =>
    match st.heightIndex height with
    | none => forHeights body heights st
    | some hash =>
      match body hash height st with
      | (none, next) => forHeights body heights next
      | (some e, next) => (some e, next)

def pruneNormal (actualPruneHeight : ℕ) : Option PruneError × PruneStore rules :=
  forHeights (fun hash _ st => (none, st.trim false true hash)) (List.range actualPruneHeight) st

def checkpointInterval : ℕ := 144

/-- `(0..prune_to_height).step_by(checkpoint_interval)`. -/
def checkpointHeights (pruneTo : ℕ) : List ℕ :=
  (List.range pruneTo).filter (fun height => height % checkpointInterval = 0)

def generateCommitmentsBeforePrune (pruneTo : ℕ) : Option PruneError × PruneStore rules :=
  forHeights (fun hash height st => st.commitIfMissing hash height) (checkpointHeights pruneTo) st

def pruneAggressive (actualPruneHeight : ℕ) (commits keepFilteredBlocks : Bool) :
    Option PruneError × PruneStore rules :=
  match if commits then st.generateCommitmentsBeforePrune actualPruneHeight else (none, st) with
  | (some e, st) => (some e, st)
  | (none, st) =>
    forHeights (fun hash _ st => (none, st.trim false keepFilteredBlocks hash))
      (List.range actualPruneHeight) st

/-- Body and witnesses go before the commitment is made. -/
def pruneCustom (actualPruneHeight keepBodiesFromHeight : ℕ) (commits keepWitnesses : Bool) :
    Option PruneError × PruneStore rules :=
  forHeights
    (fun hash height st =>
      let trimmed := st.trim (!decide (height < keepBodiesFromHeight)) keepWitnesses hash
      if commits then trimmed.commitIfMissing hash height else (none, trimmed))
    (List.range actualPruneHeight) st

end PruneStore

namespace PruningManager

variable (mgr : PruningManager)

def canIncrementalPruneDuringIbd : Bool :=
  mgr.storesAttached &&
    match mgr.mode with
    | .aggressive .. => true
    | .custom _ keepCommitments _ => keepCommitments
    | _ => false

def checkPrune (pruneTo current : ℕ) (ibd : Bool) : Option PruneError :=
  if mgr.mode = .disabled then some .disabled
  else if ibd && !(mgr.incrementalPruneDuringIbd && mgr.canIncrementalPruneDuringIbd) then
    some .duringIbd
  else if ibd && current < mgr.minBlocksForIncrementalPrune then
    some (.fewSynced mgr.minBlocksForIncrementalPrune current)
  else if current ≤ pruneTo then some (.aboveTip pruneTo current)
  else if current - pruneTo < mgr.minBlocksToKeep then
    some (.fewKept (current - pruneTo) mgr.minBlocksToKeep)
  else none

def actualPruneHeight (pruneTo current : ℕ) : ℕ :=
  match mgr.mode with
  | .disabled => 0
  | .normal keepFromHeight minRecentBlocks =>
    min pruneTo (max keepFromHeight (current - minRecentBlocks))
  | .aggressive keepFromHeight _ _ minBlocks =>
    min pruneTo (max keepFromHeight (current - minBlocks))
  | .custom keepBodiesFromHeight _ _ => min pruneTo keepBodiesFromHeight

def pruneToHeight [DecidableEq H] (st : PruneStore rules) (pruneTo current : ℕ) (ibd : Bool) :
    Option PruneError × PruneStore rules :=
  match mgr.checkPrune pruneTo current ibd with
  | some e => (some e, st)
  | none =>
    match mgr.mode with
    | .disabled => (some .disabled, st)
    | .normal .. => st.pruneNormal (mgr.actualPruneHeight pruneTo current)
    | .aggressive _ keepCommitments keepFilteredBlocks _ =>
      st.pruneAggressive (mgr.actualPruneHeight pruneTo current)
        (keepCommitments && mgr.storesAttached) keepFilteredBlocks
    | .custom keepBodiesFromHeight keepCommitments keepWitnesses =>
      st.pruneCustom (mgr.actualPruneHeight pruneTo current) keepBodiesFromHeight
        (keepCommitments && mgr.storesAttached) keepWitnesses

end PruningManager

namespace PruneStore

section Loops

variable {st : PruneStore rules} {heights : List ℕ}
  {body : H → ℕ → PruneStore rules → Option PruneError × PruneStore rules}
  {P : PruneStore rules → Prop}

theorem forHeights_invariant
    (hstep : ∀ hash height st, height ∈ heights → st.heightIndex height = some hash → P st →
      P (body hash height st).2) (hst : P st) : P (forHeights body heights st).2 := by
  fun_induction forHeights body heights st with
  | case1 => exact hst
  | case2 height heights st hnone ih =>
    exact ih (fun hash h st hh => hstep hash h st (.tail _ hh)) hst
  | case3 height heights st hash hhash next hbody ih =>
    have hnext := hstep hash height st (.head _) hhash hst
    rw [hbody] at hnext
    exact ih (fun hash h st hh => hstep hash h st (.tail _ hh)) hnext
  | case4 height heights st hash hhash e next hbody =>
    have hnext := hstep hash height st (.head _) hhash hst
    rwa [hbody] at hnext

theorem forHeights_done {D : ℕ → PruneStore rules → Prop}
    (hinv : ∀ hash height st, height ∈ heights → st.heightIndex height = some hash → P st →
      P (body hash height st).2)
    (hkeep : ∀ hash height other st, D other st → D other (body hash height st).2)
    (hnone : ∀ height st, P st → st.heightIndex height = none → D height st)
    (hdone : ∀ hash height st, P st → height ∈ heights → st.heightIndex height = some hash →
      (body hash height st).1 = none → D height (body hash height st).2)
    (hst : P st) (hok : (forHeights body heights st).1 = none) :
    ∀ height ∈ heights, D height (forHeights body heights st).2 := by
  have hlater : ∀ height st heights, D height st → D height (forHeights body heights st).2 :=
    fun height st heights => forHeights_invariant (fun hash h st _ _ => hkeep hash h height st)
  fun_induction forHeights body heights st with
  | case1 => simp
  | case2 height heights st hhash ih =>
    rw [List.forall_mem_cons]
    refine ⟨hlater height st heights (hnone height st hst hhash), ?_⟩
    exact ih (fun hash h st hh => hinv hash h st (.tail _ hh))
      (fun hash h st hP hh => hdone hash h st hP (.tail _ hh)) hst hok
  | case3 height heights st hash hhash next hbody ih =>
    have hnext := hinv hash height st (.head _) hhash hst
    have hD := hdone hash height st hst (.head _) hhash
    rw [hbody] at hnext hD
    rw [List.forall_mem_cons]
    refine ⟨hlater height next heights (hD rfl), ?_⟩
    exact ih (fun hash h st hh => hinv hash h st (.tail _ hh))
      (fun hash h st hP hh => hdone hash h st hP (.tail _ hh)) hnext hok
  | case4 => cases hok

theorem forHeights_eq_none (h : ∀ hash height st, (body hash height st).1 = none) :
    (forHeights body heights st).1 = none := by
  fun_induction forHeights body heights st with
  | case1 => rfl
  | case2 height heights st hnone ih => exact ih
  | case3 height heights st hash hhash next hbody ih => exact ih
  | case4 height heights st hash hhash e next hbody =>
    have hnone := h hash height st
    rw [hbody] at hnone
    cases hnone

end Loops

section Trim

variable [DecidableEq H] (st : PruneStore rules) (keepBody keepWitnesses : Bool) (hash other : H)

@[simp] theorem trim_frame :
    (st.trim keepBody keepWitnesses hash).heightIndex = st.heightIndex ∧
      (st.trim keepBody keepWitnesses hash).undoLogs = st.undoLogs ∧
      (st.trim keepBody keepWitnesses hash).commitments = st.commitments := by
  unfold trim removeBodyIfUndoIsDurable
  split_ifs <;> exact ⟨rfl, rfl, rfl⟩

theorem bodies_trim :
    (st.trim keepBody keepWitnesses hash).bodies other =
      if other = hash ∧ keepBody = false ∧ st.undoLogs hash then none else st.bodies other := by
  have hremove : (st.removeBodyIfUndoIsDurable hash).bodies other =
      if other = hash ∧ st.undoLogs hash then none else st.bodies other := by
    rw [removeBodyIfUndoIsDurable]
    by_cases hother : other = hash
    · subst hother
      cases hbody : st.bodies other <;> cases st.undoLogs other <;>
        simp [hbody, removeBlockBody]
    · split <;> simp [hother, removeBlockBody]
  unfold trim
  cases keepBody <;> cases keepWitnesses <;> simp [removeWitness, hremove]

theorem witnessRows_trim :
    (st.trim keepBody keepWitnesses hash).witnessRows other =
      if other = hash ∧ keepWitnesses = false then none else st.witnessRows other := by
  have hremove : (st.removeBodyIfUndoIsDurable hash).witnessRows = st.witnessRows := by
    unfold removeBodyIfUndoIsDurable
    split <;> rfl
  unfold trim
  cases keepBody <;> cases keepWitnesses <;>
    simp [removeWitness, hremove, Function.update_apply]

end Trim

/-- What pruning has done to a store, when only blocks of `reached` were trimmed. -/
structure Trimmed (keepWitnesses : Bool) (reached : H → Prop) (st st' : PruneStore rules) :
    Prop where
  heightIndex : st'.heightIndex = st.heightIndex
  undoLogs : st'.undoLogs = st.undoLogs
  bodies : ∀ hash, st'.bodies hash = st.bodies hash ∨
    st'.bodies hash = none ∧ st.undoLogs hash = true ∧ reached hash
  witnessRows : ∀ hash, st'.witnessRows hash = st.witnessRows hash ∨
    st'.witnessRows hash = none ∧ keepWitnesses = false ∧ reached hash ∧
      (st.undoLogs hash = true → st'.bodies hash = none)
  commitments : ∀ hash, (st.commitments hash).isSome → (st'.commitments hash).isSome

section Trimming

variable {st st' : PruneStore rules} {keepWitnesses : Bool} {reached : H → Prop}

theorem Trimmed.refl : Trimmed keepWitnesses reached st st :=
  ⟨rfl, rfl, fun _ => .inl rfl, fun _ => .inl rfl, fun _ => id⟩

variable [DecidableEq H] {hash : H}

theorem Trimmed.trim (h : Trimmed keepWitnesses reached st st') (hhash : reached hash) :
    Trimmed keepWitnesses reached st (st'.trim false keepWitnesses hash) where
  heightIndex := (trim_frame ..).1.trans h.heightIndex
  undoLogs := (trim_frame ..).2.1.trans h.undoLogs
  bodies other := by
    rw [bodies_trim, h.undoLogs]
    split
    next hgone => exact .inr ⟨rfl, hgone.1 ▸ ⟨hgone.2.2, hhash⟩⟩
    next => exact h.bodies other
  witnessRows other := by
    rw [witnessRows_trim, bodies_trim, h.undoLogs]
    by_cases hother : other = hash
    · subst hother
      cases hkeep : keepWitnesses with
      | false => exact .inr ⟨by simp, rfl, hhash, fun hundo => by simp [hundo]⟩
      | true =>
        rcases h.witnessRows other with hsame | ⟨-, hdrop, -⟩
        · exact .inl (by simpa using hsame)
        · rw [hkeep] at hdrop
          cases hdrop
    · simpa [hother] using h.witnessRows other
  commitments other := by
    rw [(trim_frame ..).2.2]
    exact h.commitments other

theorem commitIfMissing_cases (st : PruneStore rules) (hash : H) (height : ℕ) :
    (st.commitments hash).isSome ∧ st.commitIfMissing hash height = (none, st) ∨
    (∃ e, st.reconstructUtxoSetAtHeight height = .error e ∧
      st.commitIfMissing hash height = (some e, st)) ∨
    ∃ set, st.reconstructUtxoSetAtHeight height = .ok set ∧ st.commitIfMissing hash height =
      (none, st.storeCommitment hash (rules.commitment set hash height)) := by
  unfold commitIfMissing generateCommitmentForBlock
  cases hset : st.reconstructUtxoSetAtHeight height <;>
    by_cases hsome : (st.commitments hash).isSome <;> simp [hsome]

@[simp] theorem commitIfMissing_frame (st : PruneStore rules) (hash : H) (height : ℕ) :
    (st.commitIfMissing hash height).2.heightIndex = st.heightIndex ∧
      (st.commitIfMissing hash height).2.witnessRows = st.witnessRows := by
  rcases st.commitIfMissing_cases hash height with ⟨-, heq⟩ | ⟨_, -, heq⟩ | ⟨_, -, heq⟩ <;>
    exact heq ▸ ⟨rfl, rfl⟩

theorem Trimmed.commitIfMissing (h : Trimmed keepWitnesses reached st st') (height : ℕ) :
    Trimmed keepWitnesses reached st (st'.commitIfMissing hash height).2 := by
  rcases st'.commitIfMissing_cases hash height with ⟨-, heq⟩ | ⟨_, -, heq⟩ | ⟨_, -, heq⟩ <;>
    rw [heq]
  · exact h
  · exact h
  · refine { h with commitments := fun other hother => ?_ }
    by_cases hhash : other = hash
    · simp [storeCommitment, hhash]
    · simpa [storeCommitment, hhash] using h.commitments other hother

end Trimming

end PruneStore

namespace PruningManager

def keepsWitnesses (mgr : PruningManager) : Bool :=
  match mgr.mode with
  | .aggressive _ _ keepFilteredBlocks _ => keepFilteredBlocks
  | .custom _ _ keepWitnesses => keepWitnesses
  | _ => true

variable [DecidableEq H] (mgr : PruningManager) (st : PruneStore rules) (pruneTo current : ℕ)
  (ibd : Bool)

open PruneStore

theorem trimmed_pruneToHeight : Trimmed mgr.keepsWitnesses
      (fun hash => ∃ height < mgr.actualPruneHeight pruneTo current,
        st.heightIndex height = some hash) st (mgr.pruneToHeight st pruneTo current ibd).2 := by
  generalize hreached : (fun hash => ∃ height < mgr.actualPruneHeight pruneTo current,
    st.heightIndex height = some hash) = reached
  have hmem : ∀ {st' hash height}, Trimmed mgr.keepsWitnesses reached st st' →
      height ∈ List.range (mgr.actualPruneHeight pruneTo current) →
      st'.heightIndex height = some hash → reached hash := by
    intro st' hash height h hheight hhash
    rw [← hreached]
    exact ⟨height, List.mem_range.mp hheight, h.heightIndex ▸ hhash⟩
  rw [pruneToHeight]
  cases mgr.checkPrune pruneTo current ibd with
  | some e => exact .refl
  | none =>
    unfold keepsWitnesses at hmem ⊢
    cases hmode : mgr.mode with
    | disabled => exact .refl
    | normal =>
      simp only [hmode] at hmem ⊢
      exact forHeights_invariant (fun hash _ _ hh hhash h => h.trim (hmem h hh hhash)) .refl
    | aggressive _ keepCommitments keepFilteredBlocks =>
      simp only [hmode] at hmem ⊢
      have hcommits : Trimmed keepFilteredBlocks reached st
          (if keepCommitments && mgr.storesAttached then
            st.generateCommitmentsBeforePrune (mgr.actualPruneHeight pruneTo current)
          else (none, st)).2 := by
        split
        · exact forHeights_invariant (fun _ height _ _ _ h => h.commitIfMissing height) .refl
        · exact .refl
      rw [pruneAggressive]
      generalize (if keepCommitments && mgr.storesAttached then
        st.generateCommitmentsBeforePrune (mgr.actualPruneHeight pruneTo current)
        else (none, st)) = committed at hcommits ⊢
      obtain ⟨_ | e, next⟩ := committed
      · exact forHeights_invariant (fun hash _ _ hh hhash h => h.trim (hmem h hh hhash)) hcommits
      · exact hcommits
    | custom keepBodiesFromHeight keepCommitments _ =>
      have hbelow : mgr.actualPruneHeight pruneTo current ≤ keepBodiesFromHeight := by
        simp only [actualPruneHeight, hmode]
        exact Nat.min_le_right ..
      simp only [hmode] at hmem ⊢
      refine forHeights_invariant (fun hash height _ hh hhash h => ?_) .refl
      have hlt : height < keepBodiesFromHeight := Nat.lt_of_lt_of_le (List.mem_range.mp hh) hbelow
      have htrim := h.trim (hmem h hh hhash)
      simp only [hlt, decide_true, Bool.not_true]
      split
      · exact htrim.commitIfMissing height
      · exact htrim

end PruningManager

end BlvmNode
