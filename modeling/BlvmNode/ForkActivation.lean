import BlvmNode.SnapshotRecovery
import BlvmNode.ConnectBranches

/-!
# Stops in the middle of a fork activation

`try_activate_heavier_fork` on coins that are on disk undoes the active blocks in the live tree
before the candidate is validated; the connect batch carries a journal, and then the tip moves. With
the coins in memory the tip moves first and the table is rewritten last.
-/

namespace BlvmNode

open NetWrites GuardedRun List JournalledCommit

variable {U M G : Type} [CommGroup G] {tip : Hash}

/-- A candidate fork: whether it has more work; the active blocks above the fork point, tip first,
with what is stored of them; what the consensus crate makes of it (`none` for an error before the
commit), the undo logs it stores, and the new tip. -/
structure ForkPlan (U : Type) where
  heavier : Bool
  tipFirst : List Hash
  bodyStored : Hash → Bool
  undoLog : Hash → Option (BlockUndoLog U)
  undoLogged : List Hash
  reorganized : Option (UtxoSet U × List (BlockUndoLog U))
  newTip : Hash
  newHeight : BitVec 64

variable (prevHash : Hash → Hash) (pin : ℕ) (hash : MuHash U M G) (codec : ValueCodec U)
  (st : NodeStore) (plan : ForkPlan U)

def disconnectBodyWindow : ℕ := 8

def disconnectBodyWindows (tipFirst : List Hash) : List (List Hash) :=
  RowTable.cutList disconnectBodyWindow tipFirst.length tipFirst

def ForkPlan.loadUndo (hash : Hash) : Option (BlockUndoLog U) :=
  if plan.bodyStored hash then plan.undoLog hash else none

def applyDisconnectWindow (tree : ByteTree) (muhash : Option M) (window : List Hash) :
    Option (DeltaCommit M) := do
  let undos ← window.mapM plan.loadUndo
  commitUtxoSnapshotDelta hash codec tree undos [] none muhash

def undoWindows : List (List Hash) → ByteTree → Option M →
    List DurableWrite × Option (ByteTree × Option M)
  | [], tree, muhash => ([], some (tree, muhash))
  | window :: windows, tree, muhash =>
    match applyDisconnectWindow hash codec plan tree muhash window with
    | none => ([], none)
    | some done =>
      let rest := undoWindows windows done.tree done.muhash
      (.coins done.tree :: rest.1, rest.2)

def liveMuhash : Option M :=
  match st.source with
  | .snapshot => runningMuhash hash st
  | _ => none

def undone : List DurableWrite × Option (ByteTree × Option M) :=
  undoWindows hash codec plan (disconnectBodyWindows plan.tipFirst) st.coins (liveMuhash hash st)

def muhashWrite (muhash : Option M) : List DurableWrite :=
  (muhash.map (fun mh => DurableWrite.muhash (hash.serializeRunningState mh))).toList

def undoPhase : List DurableWrite :=
  (undone hash codec st plan).1 ++
    match (undone hash codec st plan).2 with
    | none => []
    | some live => muhashWrite hash live.2 ++ plan.undoLogged.map DurableWrite.undoLog

def connectDelta : Option (DeltaCommit M) := do
  let live ← (undone hash codec st plan).2
  let connected ← plan.reorganized
  commitUtxoSnapshotDelta hash codec live.1 [] connected.2
    (some (plan.newHeight, plan.newTip)) live.2

def connectPhase (done : DeltaCommit M) : List DurableWrite :=
  .coins done.tree :: muhashWrite hash done.muhash

def moveTip : List DurableWrite :=
  tipWrites prevHash st.chain plan.newTip plan.newHeight.toNat ++
    if plan.newHeight.toNat < pin then [.clearHeight pin] else []

def finishPhase : List DurableWrite :=
  moveTip prevHash pin st plan ++
    match st.source with
    | .snapshot => rewindSnapshotHeight plan.newHeight.toNat ++ JournalledCommit.dropRows
    | _ => []

def liveWrites : List DurableWrite :=
  if st.source = .missingSnapshot ∨ plan.tipFirst.all plan.bodyStored = false then []
  else undoPhase hash codec st plan ++
    match connectDelta hash codec st plan with
    | none => []
    | some done => connectPhase hash done ++ finishPhase prevHash pin st plan

def memoryWrites : List DurableWrite :=
  plan.undoLogged.map DurableWrite.undoLog ++
    match plan.reorganized with
    | none => []
    | some connected =>
      moveTip prevHash pin st plan ++ (.coins (fun _ => none) ::
        match storeUtxoSet codec connected.1 with
        | none => []
        | some table => [.coins table])

def activationWrites (utxoSetEmpty : Bool) : List DurableWrite :=
  if plan.heavier = false then []
  else if utxoSetEmpty then liveWrites prevHash pin hash codec st plan
  else memoryWrites prevHash pin codec st plan

def KeepsCoins : DurableWrite → Prop
  | .coins _ => False
  | .removeRow key => ∀ o, outpointToKey o ≠ key
  | _ => True

def KeepsTip : DurableWrite → Prop
  | .tip _ _ => False
  | _ => True

variable {writes : List DurableWrite}

theorem applyAll_rec {st : NodeStore} (P : NodeStore → Prop) (hst : P st)
    (hstep : ∀ now, P now → ∀ w ∈ writes, P (now.apply w)) : P (st.applyAll writes) :=
  foldlRecOn writes _ hst hstep

theorem coinRows_applyAll (h : ∀ w ∈ writes, KeepsCoins w)
    (st : NodeStore) : coinRows (st.applyAll writes).coins = coinRows st.coins := by
  refine applyAll_rec (fun now => coinRows now.coins = coinRows st.coins) rfl
    fun now hnow w hw => ?_
  rw [← hnow]
  replace hw := h w hw
  cases w with
  | coins tree => exact hw.elim
  | removeRow key =>
    funext o
    exact Function.update_of_ne (hw o) _ _
  | _ => rfl

theorem tip_applyAll (h : ∀ w ∈ writes, KeepsTip w)
    (st : NodeStore) : (st.applyAll writes).chain.tip = st.chain.tip := by
  refine applyAll_rec (fun now => now.chain.tip = st.chain.tip) rfl fun now hnow w hw => ?_
  rw [← hnow]
  replace hw := h w hw
  cases w with
  | tip tip height => exact hw.elim
  | _ => rfl

theorem applyAll_append (st : NodeStore) (first second : List DurableWrite) :
    st.applyAll (first ++ second) = (st.applyAll first).applyAll second := foldl_append

theorem keepsTip_heights (entries : List (ℕ × Hash)) :
    ∀ w ∈ entries.map (fun e => DurableWrite.height e.1 e.2), KeepsTip w ∧ KeepsCoins w := by
  rw [forall_mem_map]
  exact fun _ _ => ⟨trivial, trivial⟩

theorem keeps_rewind (height : ℕ) : ∀ w ∈ rewindSnapshotHeight height,
    KeepsTip w ∧ KeepsCoins w := by
  rw [rewindSnapshotHeight, forceSetIbdUtxoWatermark]
  split_ifs <;> simp [KeepsTip, KeepsCoins]

theorem keepsCoins_journal : KeepsCoins (.removeRow snapshotReorgJournalKey) :=
  outpointToKey_ne_journalKey

theorem keepsCoins_muhash : KeepsCoins (.removeRow snapshotMuhashKey) :=
  outpointToKey_ne_muhashKey

theorem keepsCoins_tipWrites (chain : ChainIndex) (tip : Hash)
    (height : ℕ) : ∀ w ∈ tipWrites prevHash chain tip height, KeepsCoins w := by
  rw [tipWrites, forall_mem_cons]
  exact ⟨trivial, fun w hw => (keepsTip_heights _ w hw).2⟩

theorem tip_tipWrites (chain : ChainIndex) (tip : Hash) (height : ℕ)
    (st : NodeStore) : (st.applyAll (tipWrites prevHash chain tip height)).chain.tip = tip := by
  rw [tipWrites, NodeStore.applyAll, foldl_cons]
  exact tip_applyAll (fun w hw => (keepsTip_heights _ w hw).1) (st.apply (.tip tip height))

theorem source_applyAll (writes : List DurableWrite) (st : NodeStore) :
    (st.applyAll writes).source = st.source := by
  refine applyAll_rec (fun now => now.source = st.source) rfl fun now hnow w _ => ?_
  rw [← hnow]
  cases w with
  | _ => rfl

theorem row_applyAll (h : ∀ w ∈ writes, KeepsCoins w) (key : Bytes) (st : NodeStore) :
    (st.applyAll writes).coins key = st.coins key ∨ (st.applyAll writes).coins key = none := by
  refine applyAll_rec (fun now => now.coins key = st.coins key ∨ now.coins key = none) (.inl rfl)
    fun now hnow w hw => ?_
  replace hw := h w hw
  cases w with
  | coins tree => exact hw.elim
  | removeRow key' =>
    by_cases heq : key = key'
    · exact .inr (heq ▸ coins_removeRow_self now key)
    · have hkept : (now.apply (.removeRow key')).coins key = now.coins key :=
        Function.update_of_ne heq _ _
      rwa [hkept]
  | _ => exact hnow

def KeepsBoth : DurableWrite → Prop
  | .muhash _ => True
  | .undoLog _ => True
  | _ => False

theorem both_applyAll (h : ∀ w ∈ writes, KeepsBoth w) (st : NodeStore) :
    (st.applyAll writes).coins = st.coins ∧ (st.applyAll writes).chain = st.chain := by
  refine applyAll_rec (fun now => now.coins = st.coins ∧ now.chain = st.chain) ⟨rfl, rfl⟩
    fun now hnow w hw => ?_
  replace hw := h w hw
  cases w with
  | muhash running | undoLog block => exact hnow
  | _ => exact hw.elim

theorem keepsBoth_undoLogs (blocks : List Hash) :
    ∀ w ∈ blocks.map DurableWrite.undoLog, KeepsBoth w := by
  rw [forall_mem_map]
  exact fun _ _ => trivial

theorem keepsBoth_muhashWrite (hash : MuHash U M G) (muhash : Option M) :
    ∀ w ∈ muhashWrite hash muhash, KeepsBoth w := by
  intro w hw
  rw [muhashWrite, Option.mem_toList, Option.map_eq_some_iff] at hw
  obtain ⟨mh, -, rfl⟩ := hw
  trivial

section Restart

variable (tipReady : Hash → Bool) {st}

theorem keeps_recoverMuhash (st : NodeStore) :
    ∀ w ∈ recoverMuhash hash st, KeepsTip w ∧ KeepsCoins w := by
  rw [recoverMuhash]
  split
  · exact forall_mem_nil _
  · rw [forall_mem_append, forall_mem_singleton]
    refine ⟨?_, trivial, keepsCoins_muhash⟩
    split_ifs
    · exact forall_mem_singleton.mpr ⟨trivial, trivial⟩
    · exact forall_mem_nil _

theorem keepsCoins_recoverJournal (st : NodeStore) :
    ∀ w ∈ recoverJournal prevHash tipReady st, KeepsCoins w := by
  rw [recoverJournal]
  split
  · exact forall_mem_nil _
  · split
    · exact forall_mem_singleton.mpr keepsCoins_journal
    · split_ifs
      · exact forall_mem_nil _
      all_goals
        rw [forall_mem_append, forall_mem_append, forall_mem_singleton]
        refine ⟨⟨?_, fun w hw => (keeps_rewind _ w hw).2⟩, keepsCoins_journal⟩
      · exact keepsCoins_tipWrites _ _ _ _
      · exact forall_mem_nil _

theorem coinRows_recovered (st : NodeStore) :
    coinRows (recovered prevHash tipReady hash st).coins = coinRows st.coins := by
  apply coinRows_applyAll
  intro w hw
  rw [recoverSnapshotCommit] at hw
  cases hsource : st.source with
  | snapshot =>
    simp only [hsource, mem_append] at hw
    rcases hw with hw | hw
    · exact (keeps_recoverMuhash hash st w hw).2
    · exact keepsCoins_recoverJournal prevHash tipReady st w hw
  | chainTable | missingSnapshot => simp [hsource] at hw

theorem recovered_of_source (h : st.source ≠ .snapshot) :
    recovered prevHash tipReady hash st = st := by
  rw [recovered, recoverSnapshotCommit_of_source prevHash tipReady hash st h]
  rfl

theorem tip_recovered_of_no_journal
    (h : st.source = .snapshot → st.coins snapshotReorgJournalKey = none) :
    (recovered prevHash tipReady hash st).chain.tip = st.chain.tip := by
  by_cases hsource : st.source = .snapshot
  · have hjournal : recoverJournal prevHash tipReady st = [] := by
      rw [recoverJournal, h hsource]
    rw [recovered, recoverSnapshotCommit, hsource, hjournal, append_nil]
    exact tip_applyAll (fun w hw => (keeps_recoverMuhash hash st w hw).1) st
  · rw [recovered_of_source prevHash hash tipReady hsource]

theorem tip_recovered_of_journal (hsource : st.source = .snapshot)
    {height : BitVec 64} (hready : tipReady tip)
    (h : st.coins snapshotReorgJournalKey = some (encodeReorgJournal height tip)) :
    (recovered prevHash tipReady hash st).chain.tip = tip := by
  have hjournal : recoverJournal prevHash tipReady st =
      (if st.chain.tip ≠ tip then tipWrites prevHash st.chain tip height.toNat else []) ++
        (rewindSnapshotHeight height.toNat ++ [.removeRow snapshotReorgJournalKey]) := by
    rw [recoverJournal, h]
    simp only [parseReorgJournal_encode, hready, Bool.true_eq_false, and_false, if_false,
      append_assoc]
  have hrest : ∀ w ∈ rewindSnapshotHeight height.toNat ++ [.removeRow snapshotReorgJournalKey],
      KeepsTip w := by
    rw [forall_mem_append, forall_mem_singleton]
    exact ⟨fun w hw => (keeps_rewind _ w hw).1, trivial⟩
  rw [recovered, recoverSnapshotCommit, hsource, hjournal]
  simp only [applyAll_append]
  rw [← applyAll_append _ (rewindSnapshotHeight height.toNat), tip_applyAll hrest]
  by_cases heq : st.chain.tip = tip
  · rw [if_neg (not_not.mpr heq), ← heq]
    exact tip_applyAll (fun w hw => (keeps_recoverMuhash hash st w hw).1) st
  · rw [if_pos heq]
    exact tip_tipWrites _ _ _ _ _

end Restart

section Phases

variable {prevHash pin hash codec plan} {muhash : Option M} {done : DeltaCommit M}

def undoneLogs (plan : ForkPlan U) (n : ℕ) : List (BlockUndoLog U) :=
  ((disconnectBodyWindows plan.tipFirst).take n).flatten.filterMap plan.loadUndo

theorem filterMap_of_mapM {α β : Type} {f : α → Option β} {l : List α} {r : List β}
    (h : l.mapM f = some r) : l.filterMap f = r := by
  induction l generalizing r with
  | nil =>
    rw [mapM_nil, Option.pure_def, Option.some.injEq] at h
    exact h
  | cons a l ih =>
    simp only [mapM_cons, Option.bind_eq_bind, Option.bind_eq_some_iff, Option.pure_def,
      Option.some.injEq] at h
    obtain ⟨b, hb, rest, hrest, rfl⟩ := h
    rw [filterMap_cons_some hb, ih hrest]

def OtherKey (key : Bytes) : Prop :=
  (∀ o, outpointToKey o ≠ key) ∧ key ≠ snapshotMuhashKey

theorem applyDisconnectWindow_spec {tree : ByteTree} {window : List Hash}
    (h : applyDisconnectWindow hash codec plan tree muhash window = some done) :
    (deltaEffects (window.filterMap plan.loadUndo) []).foldlM (writeCoin codec)
        (coinsOf codec (coinRows tree)) = some (coinsOf codec (coinRows done.tree)) ∧
      ∀ key, OtherKey key → done.tree key = tree key := by
  rw [applyDisconnectWindow, Option.bind_eq_bind, Option.bind_eq_some_iff] at h
  obtain ⟨undos, hundos, hdone⟩ := h
  rw [filterMap_of_mapM hundos]
  exact ⟨coinsOf_commit hdone, fun _ hkey => commit_of_ne_key hdone hkey.1 (.inr rfl) (.inl hkey.2)⟩

variable {windows : List (List Hash)} {n : ℕ}

theorem undoWindows_take (hn : n ≤ (undoWindows hash codec plan windows st.coins muhash).1.length) :
    let now := st.applyAll ((undoWindows hash codec plan windows st.coins muhash).1.take n)
    (deltaEffects ((windows.take n).flatten.filterMap plan.loadUndo) []).foldlM (writeCoin codec)
        (coinsOf codec (coinRows st.coins)) = some (coinsOf codec (coinRows now.coins)) ∧
      (∀ key, OtherKey key → now.coins key = st.coins key) ∧ now.chain = st.chain := by
  induction windows generalizing muhash st n with
  | nil =>
    rw [undoWindows, take_nil, take_nil]
    exact ⟨rfl, fun _ _ => rfl, rfl⟩
  | cons window windows ih =>
    cases n with
    | zero => exact ⟨rfl, fun _ _ => rfl, rfl⟩
    | succ n =>
      cases hwindow : applyDisconnectWindow hash codec plan st.coins muhash window with
      | none => simp [undoWindows, hwindow] at hn
      | some done =>
        obtain ⟨heffects, hother⟩ := applyDisconnectWindow_spec hwindow
        simp only [undoWindows, hwindow, length_cons, Nat.add_le_add_iff_right] at hn ⊢
        obtain ⟨hcoins, hrow, hchain⟩ := ih (st.apply (.coins done.tree)) hn
        refine ⟨?_, fun key hkey => (hrow key hkey).trans (hother key hkey), hchain⟩
        rw [take_succ_cons, flatten_cons, filterMap_append,
          deltaEffects_append, foldlM_append, heffects]
        exact hcoins

theorem undoWindows_all {live : ByteTree × Option M}
    (h : (undoWindows hash codec plan windows st.coins muhash).2 = some live) :
    (undoWindows hash codec plan windows st.coins muhash).1.length = windows.length ∧
      (st.applyAll (undoWindows hash codec plan windows st.coins muhash).1).coins = live.1 := by
  induction windows generalizing muhash st with
  | nil =>
    rw [undoWindows, Option.some.injEq] at h
    exact ⟨rfl, congrArg Prod.fst h⟩
  | cons window windows ih =>
    cases hwindow : applyDisconnectWindow hash codec plan st.coins muhash window with
    | none => simp [undoWindows, hwindow] at h
    | some done =>
      simp only [undoWindows, hwindow, length_cons, Nat.add_right_cancel_iff] at h ⊢
      exact ih (st.apply (.coins done.tree)) h

theorem undoPhase_take (hn : n ≤ (undoPhase hash codec st plan).length) :
    (deltaEffects (undoneLogs plan n) []).foldlM (writeCoin codec)
        (coinsOf codec (coinRows st.coins)) = some (coinsOf codec (coinRows
          (st.applyAll ((undoPhase hash codec st plan).take n)).coins)) ∧
      (∀ key, OtherKey key →
        (st.applyAll ((undoPhase hash codec st plan).take n)).coins key = st.coins key) ∧
      (st.applyAll ((undoPhase hash codec st plan).take n)).chain = st.chain := by
  rw [undoPhase] at hn ⊢
  rw [take_append, applyAll_append]
  cases hlive : (undone hash codec st plan).2 with
  | none =>
    simp only [hlive, append_nil] at hn
    simp only [take_nil]
    exact undoWindows_take st hn
  | some live =>
    have hlength : (undone hash codec st plan).1.length =
        (disconnectBodyWindows plan.tipFirst).length := (undoWindows_all st hlive).1
    have htail : ∀ w ∈ (muhashWrite hash live.2 ++ plan.undoLogged.map DurableWrite.undoLog).take
        (n - (undone hash codec st plan).1.length), KeepsBoth w := by
      intro w hw
      rcases mem_append.mp (mem_of_mem_take hw) with hw | hw
      · exact keepsBoth_muhashWrite hash live.2 w hw
      · exact keepsBoth_undoLogs _ w hw
    simp only
    rw [(both_applyAll htail _).1, (both_applyAll htail _).2]
    by_cases hle : n ≤ (undone hash codec st plan).1.length
    · exact undoWindows_take st hle
    · have hall := undoWindows_take st (le_refl (undone hash codec st plan).1.length)
      have hlogs : undoneLogs plan n = undoneLogs plan (undone hash codec st plan).1.length := by
        rw [undoneLogs, undoneLogs, take_of_length_le (by omega),
          take_of_length_le (by omega)]
      rw [hlogs, take_of_length_le (by omega)]
      rwa [← undone, take_length] at hall

theorem undoneLogs_all (plan : ForkPlan U) :
    undoneLogs plan (disconnectBodyWindows plan.tipFirst).length =
      plan.tipFirst.filterMap plan.loadUndo := by
  have hflatten : (disconnectBodyWindows plan.tipFirst).flatten = plan.tipFirst :=
    RowTable.cutList_flatten (by decide) le_rfl
  rw [undoneLogs, take_length, hflatten]

theorem connectDelta_spec {st : NodeStore} (h : connectDelta hash codec st plan = some done) :
    ∃ set logs, plan.reorganized = some (set, logs) ∧
      (deltaEffects (plan.tipFirst.filterMap plan.loadUndo) logs).foldlM (writeCoin codec)
        (coinsOf codec (coinRows st.coins)) = some (coinsOf codec (coinRows done.tree)) ∧
      done.tree snapshotReorgJournalKey = some (encodeReorgJournal plan.newHeight plan.newTip) := by
  simp only [connectDelta, Option.bind_eq_bind, Option.bind_eq_some_iff] at h
  obtain ⟨live, hlive, ⟨set, logs⟩, hplan, hdone⟩ := h
  refine ⟨set, logs, hplan, ?_, journal_commit hdone⟩
  obtain ⟨hlength, htree⟩ := undoWindows_all st hlive
  obtain ⟨heffects, -⟩ := undoWindows_take st
    (le_refl (undoWindows hash codec plan (disconnectBodyWindows plan.tipFirst) st.coins
      (liveMuhash hash st)).1.length)
  rw [take_length, htree, hlength, ← undoneLogs, undoneLogs_all] at heffects
  have hsplit : deltaEffects (plan.tipFirst.filterMap plan.loadUndo) logs =
      deltaEffects (plan.tipFirst.filterMap plan.loadUndo) [] ++ deltaEffects [] logs := by
    simp only [deltaEffects, flatMap_nil, append_nil, nil_append]
  rw [hsplit, foldlM_append, heffects]
  exact coinsOf_commit hdone

theorem keepsCoins_of_keepsBoth {w : DurableWrite} (h : KeepsBoth w) : KeepsCoins w := by
  cases w with
  | muhash running | undoLog block => trivial
  | _ => exact h.elim

theorem moveTip_eq : ∃ rest, moveTip prevHash pin st plan =
    .tip plan.newTip plan.newHeight.toNat :: rest ∧ ∀ w ∈ rest, KeepsTip w ∧ KeepsCoins w := by
  refine ⟨_, rfl, forall_mem_append.mpr ⟨keepsTip_heights _, ?_⟩⟩
  split_ifs
  · exact forall_mem_singleton.mpr ⟨trivial, trivial⟩
  · exact nofun

theorem finishPhase_eq : ∃ rest, finishPhase prevHash pin st plan =
    .tip plan.newTip plan.newHeight.toNat :: rest ∧ ∀ w ∈ rest, KeepsTip w ∧ KeepsCoins w := by
  obtain ⟨rest, hmove, hrest⟩ := @moveTip_eq _ prevHash pin st plan
  rw [finishPhase, hmove]
  refine ⟨_, rfl, forall_mem_append.mpr ⟨hrest, ?_⟩⟩
  split
  · rw [forall_mem_append, dropRows, forall_mem_cons, forall_mem_singleton]
    exact ⟨keeps_rewind _, ⟨trivial, keepsCoins_journal⟩, trivial, keepsCoins_muhash⟩
  · exact nofun

theorem keepsCoins_moveTip : ∀ w ∈ moveTip prevHash pin st plan, KeepsCoins w := by
  obtain ⟨rest, hmove, hrest⟩ := @moveTip_eq _ prevHash pin st plan
  rw [hmove, forall_mem_cons]
  exact ⟨trivial, fun w hw => (hrest w hw).2⟩

theorem keepsCoins_finishPhase : ∀ w ∈ finishPhase prevHash pin st plan, KeepsCoins w := by
  obtain ⟨rest, hfinish, hrest⟩ := @finishPhase_eq _ prevHash pin st plan
  rw [hfinish, forall_mem_cons]
  exact ⟨trivial, fun w hw => (hrest w hw).2⟩

theorem tip_take_of_moved {rest : List DurableWrite} {height : ℕ}
    (h : writes = .tip tip height :: rest) (hrest : ∀ w ∈ rest, KeepsTip w) (st : NodeStore)
    {k : ℕ} (hk : 0 < k) : (st.applyAll (writes.take k)).chain.tip = tip := by
  obtain ⟨k, rfl⟩ := Nat.exists_eq_add_of_le' hk
  rw [h, take_succ_cons]
  exact tip_applyAll (fun w hw => hrest w (mem_of_mem_take hw)) (st.apply (.tip tip height))

end Phases

end BlvmNode
