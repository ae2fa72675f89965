import BlvmNode.ReorgStore
import BlvmNode.ConnectBranches

/-!
# The caller's coin set across a failed block

`process_block_with_fork_choice` may return at any `?`. The caller's set is moved out for a block
that extends the tip and filled from disk for a fork, and an empty set means that the coins are on
disk. Storage and consensus are answers: for each block taken from the queue, what every fallible
call returns.
-/

namespace BlvmNode

open GuardedRun

variable {U : Type}

inductive BlockExit
  | err (moved : Bool)
  | rejected
  | skipped (held : Bool)
  | stored (moved : Bool)
  deriving DecidableEq

def BlockExit.moved : BlockExit → Bool
  | .err moved => moved
  | .rejected => false
  | .skipped _ => false
  | .stored moved => moved

structure BlockChecks (U : Type) where
  badPrevHash : Option Bool
  protocolValid : UtxoSet U → Option Bool
  connectBlock : UtxoSet U → Option (Bool × UtxoSet U × BlockUndoLog U)

structure TipAttempt (U : Type) where
  transactions : List Transaction
  openSnapshot : Option (Option ByteTree)
  table : ByteTree
  exportHeightSet : Bool
  checks : BlockChecks U
  blockStored : Bool
  snapshotCommitted : Bool
  tipUpdated : Bool
  finished : Bool

/-- A side block that may make its branch the heavier one. `undoOnDisk` covers all up to the first
read of inputs. -/
structure SideAttempt (U : Type) where
  protocolValid : UtxoSet U → Option Bool
  blockStored : Bool
  heavier : Option Bool
  openSnapshot : Option (Option ByteTree)
  table : ByteTree
  exportHeightSet : Bool
  undoOnDisk : ByteTree → Option ByteTree
  newChain : List (List Transaction)
  forkChains : Option Bool
  witnessesLoaded : Bool
  rehydrated : List (List Transaction)
  reorganize : UtxoSet U → Option (UtxoSet U)
  liveCommitted : Bool
  tipUpdated : Bool
  finished : Bool

/-- A block from the queue: the index is unreadable, the parent is not indexed, or the block extends
the tip or a side branch. -/
inductive BlockAttempt (U : Type)
  | unreadable
  | parentUnknown (held : Bool)
  | extends (attempt : TipAttempt U)
  | side (attempt : SideAttempt U)

def utxoSetIsEmpty (set : UtxoSet U) : Bool := set.entries.isEmpty

variable (isCoinbase : Transaction → Bool) (codec : ValueCodec U)

def validateBlockWithContextAndUndo (checks : BlockChecks U) (set : UtxoSet U) :
    Option (Bool × UtxoSet U × BlockUndoLog U) × UtxoSet U :=
  match checks.badPrevHash with
  | none => (none, set)
  | some true => (some (false, set, ⟨[]⟩), set)
  | some false =>
    match checks.protocolValid set with
    | none => (none, set)
    | some false => (some (false, set, ⟨[]⟩), set)
    | some true => (checks.connectBlock set, ∅)

def readTipInputs (attempt : TipAttempt U) (set : UtxoSet U) : Option (UtxoSet U) :=
  match attempt.openSnapshot with
  | none => none
  | some (some tree) => readSnapshotInputs isCoinbase codec tree [attempt.transactions] set
  | some none => readTableInputs isCoinbase codec attempt.table attempt.transactions set

def moveTo (attempt : TipAttempt U) (before after : UtxoSet U) : BlockExit × UtxoSet U :=
  if attempt.tipUpdated = false then (.err false, before)
  else if attempt.finished = false then (.err true, after)
  else (.stored true, after)

/-- After validation. The set was moved out, so every error leaves it empty. -/
def persistConnected (attempt : TipAttempt U) (fromDisk : Bool) (connectedUtxo : UtxoSet U) :
    BlockExit × UtxoSet U :=
  if attempt.blockStored = false then (.err false, ∅)
  else if fromDisk then
    match diskUtxoSource (attempt.openSnapshot.join.isSome) attempt.exportHeightSet with
    | .snapshot =>
      if attempt.snapshotCommitted = false then (.err false, ∅) else moveTo attempt ∅ ∅
    | .missingSnapshot => (.err false, ∅)
    | .chainTable => moveTo attempt ∅ ∅
  else moveTo attempt ∅ connectedUtxo

def extendActive (attempt : TipAttempt U) (utxoSet : UtxoSet U) : BlockExit × UtxoSet U :=
  let fromDisk := utxoSetIsEmpty utxoSet
  match if fromDisk then readTipInputs isCoinbase codec attempt utxoSet else some utxoSet with
  | none => (.err false, ∅)
  | some utxoForConnect =>
    match validateBlockWithContextAndUndo attempt.checks utxoForConnect with
    | (none, _) => (.err false, ∅)
    | (some (false, _, _), left) => (.rejected, if fromDisk then ∅ else left)
    | (some (true, connectedUtxo, _), _) => persistConnected attempt fromDisk connectedUtxo

/-- `read_snapshot_inputs` on the caller's own set: what was read before an error stays. -/
def loadInputs (lookup : OutPoint → Option (Option U)) :
    UtxoSet U → List OutPoint → UtxoSet U × Bool
  | set, [] => (set, true)
  | set, prevout :: inputs =>
    match readInput lookup set prevout with
    | none => (set, false)
    | some set' => loadInputs lookup set' inputs

def loadSnapshotInputs (tree : ByteTree) (blocks : List (List Transaction)) (set : UtxoSet U) :
    UtxoSet U × Bool :=
  loadInputs (coinsOf codec (coinRows tree)) set (blocks.flatMap (blockInputs isCoinbase))

def reorganizeSet (attempt : SideAttempt U) (live : Bool) (utxoSet : UtxoSet U) :
    BlockExit × UtxoSet U :=
  match attempt.reorganize utxoSet with
  | none => (.err false, utxoSet)
  | some newUtxoSet =>
    if live = true ∧ attempt.liveCommitted = false then (.err false, newUtxoSet)
    else if attempt.tipUpdated = false then (.err false, newUtxoSet)
    else if attempt.finished = false then (.err true, newUtxoSet)
    else (.stored true, if live then ∅ else newUtxoSet)

/-- The tree that a reorg undoes in place; `none` if the reorg is refused. -/
def liveTree (attempt : SideAttempt U) (snapshot : Option ByteTree) : Option ByteTree :=
  match diskUtxoSource snapshot.isSome attempt.exportHeightSet with
  | .snapshot => snapshot
  | .chainTable => some attempt.table
  | .missingSnapshot => none

def activateLive (attempt : SideAttempt U) (snapshot : Bool) (tree : ByteTree)
    (utxoSet : UtxoSet U) : BlockExit × UtxoSet U :=
  let first := loadSnapshotInputs isCoinbase codec tree attempt.newChain utxoSet
  if first.2 = false then (.err false, first.1)
  else if attempt.witnessesLoaded = false then (.err false, first.1)
  else
    let second := if snapshot then
        loadSnapshotInputs isCoinbase codec tree attempt.rehydrated first.1
      else (first.1, true)
    if second.2 = false then (.err false, second.1)
    else reorganizeSet attempt true second.1

def activateMemory (attempt : SideAttempt U) (utxoSet : UtxoSet U) : BlockExit × UtxoSet U :=
  match attempt.forkChains with
  | none => (.err false, utxoSet)
  | some false => (.stored false, utxoSet)
  | some true =>
    if attempt.witnessesLoaded = false then (.err false, utxoSet)
    else reorganizeSet attempt false utxoSet

def tryActivateHeavierFork (attempt : SideAttempt U) (utxoSet : UtxoSet U) :
    BlockExit × UtxoSet U :=
  match attempt.heavier with
  | none => (.err false, utxoSet)
  | some false => (.stored false, utxoSet)
  | some true =>
    if utxoSetIsEmpty utxoSet then
      match attempt.openSnapshot with
      | none => (.err false, utxoSet)
      | some snapshot =>
        match (liveTree attempt snapshot).bind attempt.undoOnDisk with
        | none => (.err false, utxoSet)
        | some tree => activateLive isCoinbase codec attempt snapshot.isSome tree utxoSet
    else activateMemory attempt utxoSet

def processSide (attempt : SideAttempt U) (utxoSet : UtxoSet U) : BlockExit × UtxoSet U :=
  match attempt.protocolValid utxoSet with
  | none => (.err false, utxoSet)
  | some false => (.rejected, utxoSet)
  | some true =>
    if attempt.blockStored = false then (.err false, utxoSet)
    else tryActivateHeavierFork isCoinbase codec attempt utxoSet

def processOne (attempt : BlockAttempt U) (utxoSet : UtxoSet U) : BlockExit × UtxoSet U :=
  match attempt with
  | .unreadable => (.err false, utxoSet)
  | .parentUnknown held => (.skipped held, utxoSet)
  | .extends attempt => extendActive isCoinbase codec attempt utxoSet
  | .side attempt => processSide isCoinbase codec attempt utxoSet

structure CallState (U : Type) where
  utxoSet : UtxoSet U
  storedAny : Bool
  heldAny : Bool
  moved : Bool
  returned : Option (Option Bool)

def CallState.start (utxoSet : UtxoSet U) : CallState U := ⟨utxoSet, false, false, false, none⟩

def callStep (st : CallState U) (attempt : BlockAttempt U) : CallState U :=
  if st.returned.isSome then st
  else
    let (exit, utxoSet) := processOne isCoinbase codec attempt st.utxoSet
    let st := { st with utxoSet := utxoSet, moved := st.moved || exit.moved }
    match exit with
    | .err _ => { st with returned := some none }
    | .rejected => if st.storedAny then st else { st with returned := some (some false) }
    | .skipped held => { st with heldAny := st.heldAny || held }
    | .stored _ => { st with storedAny := true }

/-- `process_block_with_fork_choice` on the blocks it takes from the queue. -/
def processBlockWithForkChoice (attempts : List (BlockAttempt U)) (utxoSet : UtxoSet U) :
    CallState U :=
  attempts.foldl (callStep isCoinbase codec) (CallState.start utxoSet)

def CallState.result (st : CallState U) : Option Bool :=
  st.returned.getD (some (st.storedAny || st.heldAny))

def SameCoins (set set' : UtxoSet U) : Prop := ∀ o, set.lookup o = set'.lookup o

theorem SameCoins.trans {first second third : UtxoSet U} (h : SameCoins first second)
    (h' : SameCoins second third) : SameCoins first third := fun o => (h o).trans (h' o)

variable {set : UtxoSet U}

theorem SameCoins.symm {set' : UtxoSet U} (h : SameCoins set set') : SameCoins set' set :=
  fun o => (h o).symm

theorem utxoSetIsEmpty_iff : utxoSetIsEmpty set ↔ set = ∅ := by
  rw [utxoSetIsEmpty, List.isEmpty_iff]
  exact ⟨fun h => AList.ext h, fun h => h ▸ rfl⟩

theorem sameCoins_empty : SameCoins set ∅ ↔ set = ∅ := by
  constructor
  · intro h
    rw [← utxoSetIsEmpty_iff, utxoSetIsEmpty, List.isEmpty_iff]
    cases hentries : set.entries with
    | nil => rfl
    | cons coin entries =>
      have hmem : coin.1 ∈ set := by
        rw [AList.mem_keys, AList.keys, hentries]
        exact List.mem_cons_self
      have hnone : set.lookup coin.1 = none := (h coin.1).trans (AList.lookup_empty _)
      exact absurd hmem (AList.lookup_eq_none.mp hnone)
  · rintro rfl o
    rfl

def BlockChecks.refuses (checks : BlockChecks U) (set : UtxoSet U) : Prop :=
  checks.badPrevHash = some true ∨
    (checks.badPrevHash = some false ∧ checks.protocolValid set = some false)

def SideAttempt.reorganized (attempt : SideAttempt U) (set : UtxoSet U) : UtxoSet U :=
  (attempt.reorganize set).getD set

/-- A reorg on disk that fails has read no coin into the set, and has made none. -/
def LoadsNothing (attempt : SideAttempt U) (snapshot : Bool) (tree : ByteTree) : Prop :=
  let first := loadSnapshotInputs isCoinbase codec tree attempt.newChain ∅
  if first.2 = false ∨ attempt.witnessesLoaded = false then first.1 = ∅
  else
    let second := if snapshot then
        loadSnapshotInputs isCoinbase codec tree attempt.rehydrated first.1
      else (first.1, true)
    if second.2 = false then second.1 = ∅ else attempt.reorganized second.1 = ∅

/-- A fork that is not activated leaves the set: it is not heavier, or fails before it reads inputs,
or reads none; in memory, the new set is not there or is the old one. -/
def KeepsFork (attempt : SideAttempt U) (set : UtxoSet U) : Prop :=
  attempt.heavier = some true →
    if utxoSetIsEmpty set then
      ∀ snapshot ∈ attempt.openSnapshot,
        ∀ tree ∈ (liveTree attempt snapshot).bind attempt.undoOnDisk,
          LoadsNothing isCoinbase codec attempt snapshot.isSome tree
    else attempt.forkChains = some true → attempt.witnessesLoaded = true →
      SameCoins (attempt.reorganized set) set

def KeepsSet (attempt : BlockAttempt U) (set : UtxoSet U) : Prop :=
  match attempt with
  | .unreadable => True
  | .parentUnknown _ => True
  | .extends attempt => set = ∅ ∨ attempt.checks.refuses set
  | .side attempt => attempt.protocolValid set = some true → attempt.blockStored = true →
      KeepsFork isCoinbase codec attempt set

variable {isCoinbase codec} {attempt : SideAttempt U} {st : CallState U}

theorem extendActive_empty (attempt : TipAttempt U) :
    (extendActive isCoinbase codec attempt ∅).2 = ∅ := by
  have hmove : (moveTo attempt ∅ ∅).2 = ∅ := by
    rw [moveTo]
    split_ifs <;> rfl
  have hpersist : ∀ connected, (persistConnected attempt true connected).2 = ∅ := by
    intro connected
    rw [persistConnected, if_pos rfl]
    split
    · rfl
    · cases diskUtxoSource (attempt.openSnapshot.join.isSome) attempt.exportHeightSet with
      | snapshot =>
        simp only
        split_ifs
        · rfl
        · exact hmove
      | missingSnapshot => rfl
      | chainTable => exact hmove
  have hempty : utxoSetIsEmpty (∅ : UtxoSet U) := rfl
  rw [extendActive]
  simp only [hempty, if_true]
  cases readTipInputs isCoinbase codec attempt ∅ with
  | none => rfl
  | some utxoForConnect =>
    simp only
    rcases validateBlockWithContextAndUndo attempt.checks utxoForConnect with
      ⟨_ | ⟨_ | _, connected, undo⟩, left⟩
    · rfl
    · rfl
    · exact hpersist connected

theorem extendActive_memory (attempt : TipAttempt U) (hset : utxoSetIsEmpty set = false)
    (hmoved : (extendActive isCoinbase codec attempt set).1.moved = false) :
    (attempt.checks.refuses set ∧ (extendActive isCoinbase codec attempt set).2 = set) ∨
      (¬attempt.checks.refuses set ∧ (extendActive isCoinbase codec attempt set).2 = ∅) := by
  have hpersist : ∀ connected, (persistConnected attempt false connected).1.moved = false →
      (persistConnected attempt false connected).2 = ∅ := by
    intro connected
    rw [persistConnected, if_neg Bool.false_ne_true, moveTo]
    split_ifs
    · exact fun _ => rfl
    · exact fun _ => rfl
    · exact nofun
    · exact nofun
  simp only [extendActive, hset, Bool.false_eq_true, if_false,
    validateBlockWithContextAndUndo] at hmoved ⊢
  rw [BlockChecks.refuses]
  rcases hprev : attempt.checks.badPrevHash with _ | _ | _
  · right
    simp
  · cases hprotocol : attempt.checks.protocolValid set with
    | none =>
      right
      simp
    | some valid =>
      cases valid with
      | false =>
        left
        simp
      | true =>
        right
        simp only [hprev, hprotocol] at hmoved ⊢
        refine ⟨nofun, ?_⟩
        rcases hconnect : attempt.checks.connectBlock set with _ | ⟨_ | _, connected, undo⟩
        · rfl
        · rfl
        · rw [hconnect] at hmoved
          exact hpersist connected hmoved
  · left
    simp

theorem reorganizeSet_of_not_moved {live : Bool}
    (hmoved : (reorganizeSet attempt live set).1.moved = false) :
    (reorganizeSet attempt live set).2 = attempt.reorganized set := by
  rw [reorganizeSet] at hmoved ⊢
  rw [SideAttempt.reorganized]
  cases hresult : attempt.reorganize set with
  | none => rfl
  | some newUtxoSet =>
    simp only [hresult, Option.getD_some] at hmoved ⊢
    split_ifs at hmoved ⊢
    · rfl
    · rfl
    · rfl
    · cases hmoved
    · rfl

theorem activateLive_iff {snapshot : Bool} {tree : ByteTree}
    (hmoved : (activateLive isCoinbase codec attempt snapshot tree ∅).1.moved = false) :
    (activateLive isCoinbase codec attempt snapshot tree ∅).2 = ∅ ↔
      LoadsNothing isCoinbase codec attempt snapshot tree := by
  simp only [activateLive] at hmoved ⊢
  rw [LoadsNothing]
  by_cases hfirst : (loadSnapshotInputs isCoinbase codec tree attempt.newChain ∅).2 = false
  · rw [if_pos hfirst, if_pos (.inl hfirst)]
  by_cases hwitnesses : attempt.witnessesLoaded = false
  · rw [if_neg hfirst, if_pos hwitnesses, if_pos (.inr hwitnesses)]
  rw [if_neg hfirst, if_neg hwitnesses] at hmoved
  rw [if_neg hfirst, if_neg hwitnesses, if_neg (not_or.mpr ⟨hfirst, hwitnesses⟩)]
  generalize (if snapshot then loadSnapshotInputs isCoinbase codec tree attempt.rehydrated
    (loadSnapshotInputs isCoinbase codec tree attempt.newChain ∅).1
    else ((loadSnapshotInputs isCoinbase codec tree attempt.newChain ∅).1, true)) = second
    at hmoved ⊢
  dsimp only
  split_ifs at hmoved ⊢
  · rfl
  · rw [reorganizeSet_of_not_moved hmoved]

theorem tryActivateHeavierFork_iff
    (hmoved : (tryActivateHeavierFork isCoinbase codec attempt set).1.moved = false) :
    SameCoins (tryActivateHeavierFork isCoinbase codec attempt set).2 set ↔
      KeepsFork isCoinbase codec attempt set := by
  have hsame : SameCoins set set := fun _ => rfl
  rw [tryActivateHeavierFork] at hmoved ⊢
  rw [KeepsFork]
  rcases hheavier : attempt.heavier with _ | _ | _
  · exact iff_of_true hsame (nofun)
  · exact iff_of_true hsame (nofun)
  simp only [hheavier, forall_const] at hmoved ⊢
  split_ifs at hmoved ⊢ with hempty
  · rw [utxoSetIsEmpty_iff] at hempty
    subst hempty
    cases hopen : attempt.openSnapshot with
    | none => exact iff_of_true hsame (nofun)
    | some snapshot =>
      simp only [hopen, Option.mem_def, Option.some.injEq, forall_eq'] at hmoved ⊢
      cases htree : (liveTree attempt snapshot).bind attempt.undoOnDisk with
      | none => exact iff_of_true hsame (nofun)
      | some tree =>
        simp only [htree, Option.some.injEq, forall_eq'] at hmoved ⊢
        rw [sameCoins_empty, activateLive_iff hmoved]
  · rw [activateMemory] at hmoved ⊢
    rcases hchains : attempt.forkChains with _ | _ | _
    · exact iff_of_true hsame (nofun)
    · exact iff_of_true hsame (nofun)
    simp only [hchains, forall_const] at hmoved ⊢
    split_ifs at hmoved ⊢ with hwitnesses
    · exact iff_of_true hsame (fun h => absurd (h.symm.trans hwitnesses) (by decide))
    · rw [reorganizeSet_of_not_moved hmoved]
      rw [Bool.not_eq_false] at hwitnesses
      exact ⟨fun h _ => h, fun h => h hwitnesses⟩

theorem processOne_iff (attempt : BlockAttempt U)
    (hmoved : (processOne isCoinbase codec attempt set).1.moved = false) :
    SameCoins (processOne isCoinbase codec attempt set).2 set ↔
      KeepsSet isCoinbase codec attempt set := by
  have hsame : SameCoins set set := fun _ => rfl
  cases attempt with
  | unreadable | parentUnknown held => exact iff_of_true hsame trivial
  | «extends» attempt =>
    rw [processOne] at hmoved ⊢
    rw [KeepsSet]
    by_cases hempty : set = ∅
    · subst hempty
      rw [extendActive_empty]
      exact iff_of_true (fun _ => rfl) (.inl rfl)
    · rw [or_iff_right hempty]
      have hset : utxoSetIsEmpty set = false := by
        rw [← Bool.not_eq_true, utxoSetIsEmpty_iff]
        exact hempty
      rcases extendActive_memory attempt hset hmoved with ⟨hrefuses, hleft⟩ | ⟨hrefuses, hleft⟩
      · rw [hleft]
        exact iff_of_true hsame hrefuses
      · rw [hleft]
        exact iff_of_false (fun h => hempty (sameCoins_empty.mp h.symm)) hrefuses
  | side attempt =>
    rw [processOne, processSide] at hmoved ⊢
    rw [KeepsSet]
    rcases hvalid : attempt.protocolValid set with _ | _ | _
    · exact iff_of_true hsame (nofun)
    · exact iff_of_true hsame (nofun)
    simp only [hvalid, forall_const] at hmoved ⊢
    split_ifs at hmoved ⊢ with hstored
    · exact iff_of_true hsame (fun h => absurd (h.symm.trans hstored) (by decide))
    · rw [tryActivateHeavierFork_iff hmoved]
      rw [Bool.not_eq_false] at hstored
      exact ⟨fun h _ => h, fun h => h hstored⟩

theorem callStep_returned (h : st.returned.isSome)
    (attempt : BlockAttempt U) : callStep isCoinbase codec st attempt = st := by
  rw [callStep, if_pos h]

theorem callStep_of_running (h : ¬st.returned.isSome) (attempt : BlockAttempt U) :
    (callStep isCoinbase codec st attempt).utxoSet =
        (processOne isCoinbase codec attempt st.utxoSet).2 ∧
      (callStep isCoinbase codec st attempt).moved =
        (st.moved || (processOne isCoinbase codec attempt st.utxoSet).1.moved) := by
  rw [callStep, if_neg h]
  rcases processOne isCoinbase codec attempt st.utxoSet with ⟨exit, utxoSet⟩
  cases exit with
  | err moved => exact ⟨rfl, rfl⟩
  | rejected =>
    simp only
    split_ifs <;> exact ⟨rfl, rfl⟩
  | skipped held | stored moved => exact ⟨rfl, rfl⟩

def TurnKeeps (isCoinbase : Transaction → Bool) (codec : ValueCodec U) (st : CallState U)
    (attempt : BlockAttempt U) : Prop :=
  st.returned.isSome = true ∨ KeepsSet isCoinbase codec attempt st.utxoSet

theorem callStep_iff {attempt : BlockAttempt U}
    (hmoved : (callStep isCoinbase codec st attempt).moved = false) :
    SameCoins (callStep isCoinbase codec st attempt).utxoSet st.utxoSet ↔
      TurnKeeps isCoinbase codec st attempt := by
  rw [TurnKeeps]
  by_cases h : st.returned.isSome
  · rw [callStep_returned h]
    exact iff_of_true (fun _ => rfl) (.inl h)
  · obtain ⟨hset, hflag⟩ := @callStep_of_running _ isCoinbase codec _ h attempt
    rw [hflag, Bool.or_eq_false_iff] at hmoved
    rw [hset, processOne_iff attempt hmoved.2, or_iff_right h]

theorem moved_of_callStep {attempt : BlockAttempt U}
    (hmoved : (callStep isCoinbase codec st attempt).moved = false) : st.moved = false := by
  by_cases h : st.returned.isSome
  · rwa [callStep_returned h] at hmoved
  · rw [(callStep_of_running h attempt).2, Bool.or_eq_false_iff] at hmoved
    exact hmoved.1

section

variable {attempts : List (BlockAttempt U)}
    (hmoved : (attempts.foldl (callStep isCoinbase codec) st).moved = false)
include hmoved

theorem moved_of_foldl : st.moved = false := by
  induction attempts generalizing st with
  | nil => exact hmoved
  | cons attempt attempts ih => exact moved_of_callStep (ih hmoved)

theorem guarded_moved : Guarded (callStep isCoinbase codec)
    (fun st attempt => (callStep isCoinbase codec st attempt).moved = false) st attempts := by
  induction attempts generalizing st with
  | nil => trivial
  | cons attempt attempts ih => exact ⟨moved_of_foldl hmoved, ih hmoved⟩

end

/-- A call that connects nothing leaves the caller's set as on entry, also when the queue is cut
after any block, exactly if every block meets the condition in the state it finds. -/
theorem failed_block_keeps_set_iff (isCoinbase : Transaction → Bool) (codec : ValueCodec U)
    (attempts : List (BlockAttempt U)) (utxoSet : UtxoSet U)
    (hmoved : (processBlockWithForkChoice isCoinbase codec attempts utxoSet).moved = false) :
    (∀ k, SameCoins (processBlockWithForkChoice isCoinbase codec (attempts.take k) utxoSet).utxoSet
        utxoSet) ↔
      Guarded (callStep isCoinbase codec) (TurnKeeps isCoinbase codec) (CallState.start utxoSet)
        attempts := by
  refine @forall_take_iff_of_guarded _ _ _ _ (SameCoins ·.utxoSet utxoSet) (fun _ => True) _
    (fun _ _ _ _ _ => trivial) (fun st attempt hattempt _ hst => ?_) _ trivial (fun _ => rfl) _
    (guarded_moved hmoved)
  rw [← callStep_iff hattempt]
  exact ⟨fun h => h.trans hst.symm, fun h => h.trans hst⟩

section Sample

def oneCoinSet : UtxoSet (BitVec 8) := (∅ : UtxoSet (BitVec 8)).insert ⟨1, 0⟩ 4

def tipSample (badPrevHash : Bool) : BlockAttempt (BitVec 8) :=
  .extends
    { transactions := []
      openSnapshot := some none
      table := fun _ => none
      exportHeightSet := false
      checks := ⟨some badPrevHash, fun _ => some true, fun set => some (true, set, ⟨[]⟩)⟩
      blockStored := false
      snapshotCommitted := true
      tipUpdated := true
      finished := true }

theorem failed_block_keeps_set_iff_badPrevHash :
    (processBlockWithForkChoice (fun _ => false) byteCodec [tipSample true] oneCoinSet).result =
        some false ∧
      SameCoins (processBlockWithForkChoice (fun _ => false) byteCodec [tipSample true]
        oneCoinSet).utxoSet oneCoinSet :=
  ⟨rfl, (failed_block_keeps_set_iff (fun _ => false) byteCodec [tipSample true] oneCoinSet
    rfl).mpr ⟨.inr (.inr (.inl rfl)), trivial⟩ 1⟩

def forkSample : BlockAttempt (BitVec 8) :=
  .side
    { protocolValid := fun _ => some true
      blockStored := true
      heavier := some true
      openSnapshot := some none
      table := oneCoinTree
      exportHeightSet := false
      undoOnDisk := some
      newChain := [[⟨[⟨1, 0⟩], []⟩]]
      forkChains := some true
      witnessesLoaded := true
      rehydrated := [[⟨[⟨1, 0⟩], []⟩]]
      reorganize := fun _ => none
      liveCommitted := true
      tipUpdated := true
      finished := true }

/-- A valid block that cannot be stored empties the set; a fork that does not validate leaves its
inputs in a set that was empty. -/
theorem failed_block_changes_set :
    ((processBlockWithForkChoice (fun _ => false) byteCodec [tipSample false]
        oneCoinSet).result = none ∧
      (processBlockWithForkChoice (fun _ => false) byteCodec [tipSample false]
        oneCoinSet).moved = false ∧
      oneCoinSet.lookup ⟨1, 0⟩ = some 4 ∧
      (processBlockWithForkChoice (fun _ => false) byteCodec [tipSample false]
        oneCoinSet).utxoSet = ∅) ∧
    (processBlockWithForkChoice (fun _ => false) byteCodec [forkSample] ∅).result = none ∧
      (processBlockWithForkChoice (fun _ => false) byteCodec [forkSample] ∅).moved = false ∧
      (processBlockWithForkChoice (fun _ => false) byteCodec [forkSample] ∅).utxoSet.lookup
        ⟨1, 0⟩ = some 4 := by
  exact ⟨⟨rfl, rfl, rfl, rfl⟩, rfl, rfl, rfl⟩

end Sample

end BlvmNode
