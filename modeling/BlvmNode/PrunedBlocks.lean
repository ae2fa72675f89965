import BlvmNode.Pruning

/-!
# What pruning leaves of a block

A block can be disconnected if it has an undo log, or a body whose witnesses load. A body goes only
if the undo log is there, but witness rows go with or without it.
-/

namespace BlvmNode

open Option

variable {H B W S C : Type} {rules : ReplayRules H B W S C}

namespace PruneStore

/-- What `load_witnesses_from_store` asks of the witnesses that were found. -/
def WitnessesFit (rules : ReplayRules H B W S C) (block : B) (height : ℕ) :
    Option (List W) → Prop
  | some witnesses => witnesses.length = rules.txCount block
  | none => rules.segwitActive height = false

def Disconnectable (st : PruneStore rules) (height : ℕ) (hash : H) : Prop :=
  st.undoLogs hash = true ∨ ∃ body witnesses, st.bodies hash = some body ∧
    st.loadWitnesses body.1 height = .ok witnesses

def KeepsDisconnectable (st st' : PruneStore rules) : Prop :=
  ∀ height hash, st.heightIndex height = some hash → st.Disconnectable height hash →
    st'.Disconnectable height hash

/-- There is an undo log, or the body has its witnesses, or none are required at the height. -/
def RowDispensable (st : PruneStore rules) (height : ℕ) (hash : H) : Prop :=
  st.undoLogs hash = true ∨ ∀ body, st.bodies hash = some body →
    WitnessesFit rules body.1 height body.2

variable {st st' : PruneStore rules} {height : ℕ} {hash : H} {body : B × Option (List W)}

theorem exists_loadWitnesses_iff (hbody : st.bodies hash = some body) :
    (∃ witnesses, st.loadWitnesses body.1 height = .ok witnesses) ↔
      WitnessesFit rules body.1 height ((st.witnessRows hash).or body.2) := by
  have hget : st.getWitness (rules.blockHash body.1) = (st.witnessRows hash).or body.2 := by
    rw [st.own hash body hbody, getWitness, hbody, bind_some]
  rw [loadWitnesses, hget]
  cases (st.witnessRows hash).or body.2 with
  | none => cases hactive : rules.segwitActive height <;> simp [WitnessesFit, hactive]
  | some witnesses =>
    by_cases hlength : witnesses.length = rules.txCount body.1 <;> simp [WitnessesFit, hlength]

theorem disconnectable_iff (hundo : st.undoLogs hash = false) :
    st.Disconnectable height hash ↔ ∃ body, st.bodies hash = some body ∧
      WitnessesFit rules body.1 height ((st.witnessRows hash).or body.2) := by
  simp only [Disconnectable, hundo, Bool.false_eq_true, false_or]
  constructor
  · rintro ⟨body, witnesses, hbody, hload⟩
    exact ⟨body, hbody, (exists_loadWitnesses_iff hbody).mp ⟨witnesses, hload⟩⟩
  · rintro ⟨body, hbody, hfit⟩
    obtain ⟨witnesses, hload⟩ := (exists_loadWitnesses_iff hbody).mpr hfit
    exact ⟨body, witnesses, hbody, hload⟩

namespace Trimmed

variable {keepWitnesses : Bool} {reached : H → Prop}

section

variable (h : Trimmed keepWitnesses reached st st')
include h

theorem bodies_of_no_undo (hundo : st.undoLogs hash = false) :
    st'.bodies hash = st.bodies hash := by
  rcases h.bodies hash with hbody | ⟨-, hlog, -⟩
  · exact hbody
  · rw [hundo] at hlog
    cases hlog

theorem disconnectable (hrow : keepWitnesses = false → reached hash → st.RowDispensable height hash)
    (hbefore : st.Disconnectable height hash) : st'.Disconnectable height hash := by
  cases hundo : st.undoLogs hash with
  | true => exact .inl (h.undoLogs ▸ hundo)
  | false =>
    obtain ⟨body, hbody, hfit⟩ := (disconnectable_iff hundo).mp hbefore
    refine (disconnectable_iff (h.undoLogs ▸ hundo)).mpr
      ⟨body, (h.bodies_of_no_undo hundo).trans hbody, ?_⟩
    rcases h.witnessRows hash with hsame | ⟨hgone, hdrop, hreached, -⟩
    · rw [hsame]
      exact hfit
    · rw [hgone, none_or]
      rcases hrow hdrop hreached with hlog | hown
      · rw [hundo] at hlog
        cases hlog
      · exact hown body hbody

theorem rowDispensable (hgone : st'.witnessRows hash = none)
    (hafter : st'.Disconnectable height hash) : st.RowDispensable height hash := by
  cases hundo : st.undoLogs hash with
  | true => exact .inl hundo
  | false =>
    obtain ⟨body, hbody, hfit⟩ := (disconnectable_iff (h.undoLogs ▸ hundo)).mp hafter
    rw [hgone, none_or] at hfit
    refine .inr (fun other hother => ?_)
    rw [h.bodies_of_no_undo hundo, hother] at hbody
    rw [some.inj hbody]
    exact hfit

end

end Trimmed

theorem witnessRows_forHeights [DecidableEq H] {heights : List ℕ}
    {body : H → ℕ → PruneStore rules → Option PruneError × PruneStore rules}
    (hindex : ∀ hash height st, (body hash height st).2.heightIndex = st.heightIndex)
    (hrows : ∀ hash height st other, (body hash height st).2.witnessRows other =
      if other = hash then none else st.witnessRows other)
    (hok : (forHeights body heights st).1 = none) :
    ∀ height ∈ heights, ∀ hash, st.heightIndex height = some hash →
      (forHeights body heights st).2.witnessRows hash = none := by
  refine forHeights_done
    (P := fun st' => st'.heightIndex = st.heightIndex)
    (D := fun height st' => ∀ hash, st.heightIndex height = some hash →
      st'.witnessRows hash = none) ?_ ?_ ?_ ?_ rfl hok
  · intro hash height st' _ _ hst'
    rw [hindex, hst']
  · intro hash height other st' hdone hash' hhash'
    rw [hrows]
    split
    · rfl
    · exact hdone hash' hhash'
  · intro height st' hst' hnone hash hhash
    rw [← hst', hnone] at hhash
    cases hhash
  · intro hash height st' hst' _ hhash _ hash' hhash'
    rw [← hst', hhash] at hhash'
    rw [hrows, if_pos (some.inj hhash').symm]

end PruneStore

namespace PruningManager

open PruneStore

variable [DecidableEq H] (mgr : PruningManager) (st : PruneStore rules) (pruneTo current : ℕ)
  (ibd : Bool)

/-- Unless the mode keeps witnesses, no block below the prune height needs its witness row. -/
def RowsDispensable : Prop :=
  mgr.keepsWitnesses = true ∨ ∀ height hash, st.heightIndex height = some hash →
    (∃ below < mgr.actualPruneHeight pruneTo current, st.heightIndex below = some hash) →
    st.Disconnectable height hash → st.RowDispensable height hash

theorem witnessRows_pruneToHeight (hdrop : mgr.keepsWitnesses = false)
    (hok : (mgr.pruneToHeight st pruneTo current ibd).1 = none) {height : ℕ}
    (hheight : height < mgr.actualPruneHeight pruneTo current) {hash : H}
    (hhash : st.heightIndex height = some hash) :
    (mgr.pruneToHeight st pruneTo current ibd).2.witnessRows hash = none := by
  have hmem := List.mem_range.mpr hheight
  unfold keepsWitnesses at hdrop
  rw [pruneToHeight] at hok ⊢
  split at hok
  next => cases hok
  next =>
    cases hmode : mgr.mode with
    | disabled | normal => simp [hmode] at hdrop
    | aggressive _ keepCommitments keepFilteredBlocks =>
      simp only [hmode] at hdrop
      simp only [hmode, pruneAggressive] at hok ⊢
      have hcommits : (if keepCommitments && mgr.storesAttached then
            st.generateCommitmentsBeforePrune (mgr.actualPruneHeight pruneTo current)
          else (none, st)).2.heightIndex = st.heightIndex := by
        split
        · exact forHeights_invariant (P := fun st' => st'.heightIndex = st.heightIndex)
            (fun hash height st' _ _ h => (st'.commitIfMissing_frame hash height).1.trans h) rfl
        · rfl
      generalize (if keepCommitments && mgr.storesAttached then
        st.generateCommitmentsBeforePrune (mgr.actualPruneHeight pruneTo current)
        else (none, st)) = committed at hcommits hok ⊢
      obtain ⟨_ | e, next⟩ := committed
      · exact witnessRows_forHeights (fun _ _ _ => (trim_frame ..).1)
          (fun _ _ _ _ => by simp [witnessRows_trim, hdrop]) hok height hmem hash
          (by rw [hcommits, hhash])
      · cases hok
    | custom =>
      simp only [hmode] at hdrop
      simp only [hmode, pruneCustom] at hok ⊢
      refine witnessRows_forHeights (fun _ _ _ => ?_) (fun _ _ _ _ => ?_) hok height hmem hash hhash
      · split <;> simp
      · split <;> simp [witnessRows_trim, hdrop]

/-- A call keeps every block disconnectable if no block below the prune height needs its witness
row; and if it returns `Ok`, only then. -/
theorem pruned_blocks_disconnectable :
    (mgr.RowsDispensable st pruneTo current →
      st.KeepsDisconnectable (mgr.pruneToHeight st pruneTo current ibd).2) ∧
    ((mgr.pruneToHeight st pruneTo current ibd).1 = none →
      st.KeepsDisconnectable (mgr.pruneToHeight st pruneTo current ibd).2 →
      mgr.RowsDispensable st pruneTo current) := by
  have htrim := trimmed_pruneToHeight mgr st pruneTo current ibd
  constructor
  · intro hrows height hash hhash hbefore
    refine htrim.disconnectable (fun hdrop hreached => ?_) hbefore
    rcases hrows with hkeep | hrows
    · rw [hdrop] at hkeep
      cases hkeep
    · exact hrows height hash hhash hreached hbefore
  · intro hok hkeeps
    cases hdrop : mgr.keepsWitnesses with
    | true => exact .inl hdrop
    | false =>
      refine .inr (fun height hash hhash ⟨below, hbelow, hreached⟩ hbefore => ?_)
      have hgone := mgr.witnessRows_pruneToHeight st pruneTo current ibd hdrop hok hbelow hreached
      exact htrim.rowDispensable hgone (hkeeps height hash hhash hbefore)

end PruningManager

/-- Blocks are their own hashes, every block adds one coin, and a set is its own commitment. -/
def countingRules : ReplayRules ℕ ℕ Unit ℕ ℕ where
  blockHash := id
  txCount _ := 1
  emptyWitnesses _ := [()]
  segwitActive _ := true
  emptySet := 0
  connectBlock _ _ set _ := some (set + 1)
  commitment set _ _ := set

/-- Bodies with separate witness rows, as `store_block_with_witness` leaves them; `logged` blocks
have undo logs. -/
def countingStore (logged : ℕ → Bool) : PruneStore countingRules where
  heightIndex height := some height
  bodies hash := some (hash, none)
  witnessRows _ := some [()]
  undoLogs := logged
  commitments _ := none
  own hash body hbody := by rw [← Option.some.inj hbody]; rfl

def aggressiveManager : PruningManager :=
  ⟨.aggressive 0 true false 288, false, 288, 144, true⟩

/-- Genesis has no undo log. Its body stays, but its witnesses go. -/
theorem witness_row_lost :
    (countingStore (fun _ => false)).Disconnectable 0 0 ∧
      (aggressiveManager.pruneToHeight (countingStore (fun _ => false)) 1 300 false).1 = none ∧
      ¬ (aggressiveManager.pruneToHeight (countingStore (fun _ => false)) 1 300
        false).2.Disconnectable 0 0 := by
  refine ⟨.inr ⟨(0, none), [()], rfl, rfl⟩, rfl, ?_⟩
  rintro (hundo | ⟨body, witnesses, hbody, hload⟩)
  · cases hundo
  · rw [← some.inj hbody] at hload
    cases hload

end BlvmNode
