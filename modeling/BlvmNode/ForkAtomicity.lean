import BlvmNode.ForkActivation

/-!
# When a stopped fork activation leaves the coins of the tip

After a stop the coins on disk are those of the active tip exactly if the stop is before the first
undone block, after the tip has moved with its coins in place, or between the connect batch and the
tip with a restart that finds the journal.
-/

namespace BlvmNode

open NetWrites List DurableWrite

variable {U M G : Type} [CommGroup G]

variable (prevHash : Hash → Hash) (pin : ℕ) (tipReady : Hash → Bool) (hash : MuHash U M G)
  (codec : ValueCodec U) (utxoAt : Hash → OutPoint → Option (Option U)) (st : NodeStore)
  (plan : ForkPlan U)

def CoinsMatch (st : NodeStore) : Prop := coinsOf codec (coinRows st.coins) = utxoAt st.chain.tip

/-- The store matches its tip and has no unfinished commit; the undo logs, or the set in memory,
lead to the coins of the new tip. -/
structure SoundPlan (utxoSetEmpty : Bool) : Prop where
  before : CoinsMatch codec utxoAt st
  noJournal : st.source = .snapshot → st.coins snapshotReorgJournalKey = none
  undo : utxoSetEmpty = true → ∀ set logs, plan.reorganized = some (set, logs) →
    ∀ coins, (deltaEffects (plan.tipFirst.filterMap plan.loadUndo) logs).foldlM (writeCoin codec)
      (utxoAt st.chain.tip) = some coins → coins = utxoAt plan.newTip
  memory : utxoSetEmpty = false → ∀ set logs, plan.reorganized = some (set, logs) →
    utxoAt plan.newTip = stored (fun o => set.lookup o)

def stopped (writes : List DurableWrite) (n : ℕ) (restart : Bool) : NodeStore :=
  if restart then recovered prevHash tipReady hash (st.applyAll (writes.take n))
  else st.applyAll (writes.take n)

abbrev connectedStore (done : DeltaCommit M) (k : ℕ) : NodeStore :=
  ((st.applyAll (undoPhase hash codec st plan)).apply (.coins done.tree)).applyAll
    ((muhashWrite hash done.muhash ++ finishPhase prevHash pin st plan).take k)

/-- Safe stops with the coins on disk: the undone windows left the coins as they were; or after the
connect batch the tip has moved, a restart finds the journal, or both tips have the same coins. -/
def SafeLive (n : ℕ) (restart : Bool) : Prop :=
  if n ≤ (undoPhase hash codec st plan).length then
    (deltaEffects (undoneLogs plan n) []).foldlM (writeCoin codec) (utxoAt st.chain.tip) =
      some (utxoAt st.chain.tip)
  else
    (∃ done ∈ connectDelta hash codec st plan,
      (undoPhase hash codec st plan).length + (connectPhase hash done).length < n) ∨
    (restart = true ∧ st.source = .snapshot) ∨ utxoAt plan.newTip = utxoAt st.chain.tip

/-- Safe stops with the coins in memory: before the tip moves, after the table is stored, or with a
table that fits the new tip. -/
def SafeMemory (n : ℕ) : Prop :=
  n ≤ plan.undoLogged.length ∨
  (n ≤ plan.undoLogged.length + (moveTip prevHash pin st plan).length ∧
    utxoAt plan.newTip = utxoAt st.chain.tip) ∨
  (n = plan.undoLogged.length + (moveTip prevHash pin st plan).length + 1 ∧
    utxoAt plan.newTip = fun _ => none) ∨
  plan.undoLogged.length + (moveTip prevHash pin st plan).length + 1 < n

def SafeStop (utxoSetEmpty : Bool) (n : ℕ) (restart : Bool) : Prop :=
  if utxoSetEmpty then SafeLive hash codec utxoAt st plan n restart
  else SafeMemory prevHash pin utxoAt st plan n

variable {prevHash pin tipReady hash codec utxoAt st plan} {n : ℕ}

theorem coinsMatch_stopped {writes : List DurableWrite}
    (h : st.source = .snapshot →
      (st.applyAll (writes.take n)).coins snapshotReorgJournalKey = none) (restart : Bool) :
    CoinsMatch codec utxoAt (stopped prevHash tipReady hash st writes n restart) ↔
      CoinsMatch codec utxoAt (st.applyAll (writes.take n)) := by
  cases restart with
  | false => exact Iff.rfl
  | true =>
    rw [stopped, if_pos rfl, CoinsMatch, CoinsMatch, coinRows_recovered,
      tip_recovered_of_no_journal]
    rw [source_applyAll]
    exact h

section Live

theorem coinsMatch_undoing (h : SoundPlan codec utxoAt st plan true) {rest : List DurableWrite}
    (hn : n ≤ (undoPhase hash codec st plan).length) (restart : Bool) : CoinsMatch codec utxoAt
        (stopped prevHash tipReady hash st (undoPhase hash codec st plan ++ rest) n restart) ↔
      (deltaEffects (undoneLogs plan n) []).foldlM (writeCoin codec) (utxoAt st.chain.tip) =
        some (utxoAt st.chain.tip) := by
  have htake : (undoPhase hash codec st plan ++ rest).take n =
      (undoPhase hash codec st plan).take n := take_append_of_le_length hn
  obtain ⟨hcoins, hother, hchain⟩ := undoPhase_take st hn
  have hbefore := h.before
  rw [CoinsMatch] at hbefore
  rw [hbefore] at hcoins
  rw [coinsMatch_stopped, htake, CoinsMatch, hchain, hcoins, Option.some.injEq]
  intro hsource
  rw [htake, hother _ ⟨outpointToKey_ne_journalKey, journalKey_ne_muhashKey⟩]
  exact h.noJournal hsource

theorem connected_take (h : SoundPlan codec utxoAt st plan true) {done : DeltaCommit M}
    (hdone : connectDelta hash codec st plan = some done) (k : ℕ) :
    let reached := connectedStore prevHash pin hash codec st plan done k
    coinsOf codec (coinRows reached.coins) = utxoAt plan.newTip ∧
      (reached.coins snapshotReorgJournalKey =
        some (encodeReorgJournal plan.newHeight plan.newTip) ∨
        reached.coins snapshotReorgJournalKey = none) := by
  intro reached
  have hkeeps : ∀ w ∈ (muhashWrite hash done.muhash ++ finishPhase prevHash pin st plan).take k,
      KeepsCoins w := by
    intro w hw
    rcases mem_append.mp (mem_of_mem_take hw) with hw | hw
    · exact keepsCoins_of_keepsBoth (keepsBoth_muhashWrite hash done.muhash w hw)
    · exact keepsCoins_finishPhase st w hw
  obtain ⟨set, logs, hplan, heffects, hjournal⟩ := connectDelta_spec hdone
  have hbefore := h.before
  rw [CoinsMatch] at hbefore
  rw [hbefore] at heffects
  constructor
  · rw [coinRows_applyAll hkeeps]
    exact h.undo rfl set logs hplan _ heffects
  · rw [← hjournal]
    exact row_applyAll hkeeps _ _

theorem connecting_take {done : DeltaCommit M} (hdone : connectDelta hash codec st plan = some done)
    {k : ℕ} (hk : k ≤ (muhashWrite hash done.muhash).length) :
    let reached := connectedStore prevHash pin hash codec st plan done k
    reached.chain = st.chain ∧ reached.coins snapshotReorgJournalKey =
      some (encodeReorgJournal plan.newHeight plan.newTip) := by
  intro reached
  obtain ⟨-, -, -, -, hjournal⟩ := connectDelta_spec hdone
  obtain ⟨-, -, hchain⟩ := undoPhase_take st (le_refl (undoPhase hash codec st plan).length)
  rw [take_length] at hchain
  have hreached : reached = ((st.applyAll (undoPhase hash codec st plan)).apply
      (.coins done.tree)).applyAll ((muhashWrite hash done.muhash).take k) := by
    rw [← @List.take_append_of_le_length _ _ (finishPhase prevHash pin st plan) _ hk]
  have hkeeps : ∀ w ∈ (muhashWrite hash done.muhash).take k, KeepsBoth w :=
    fun w hw => keepsBoth_muhashWrite hash done.muhash w (mem_of_mem_take hw)
  rw [hreached, (both_applyAll hkeeps _).1, (both_applyAll hkeeps _).2]
  exact ⟨hchain, hjournal⟩

theorem coinsMatch_connected (h : SoundPlan codec utxoAt st plan true)
    (hready : tipReady plan.newTip) {done : DeltaCommit M}
    (hdone : connectDelta hash codec st plan = some done)
    (hn : (undoPhase hash codec st plan).length < n) (restart : Bool) :
    CoinsMatch codec utxoAt (stopped prevHash tipReady hash st (undoPhase hash codec st plan ++
        (connectPhase hash done ++ finishPhase prevHash pin st plan)) n restart) ↔
      (undoPhase hash codec st plan).length + (connectPhase hash done).length < n ∨
        (restart ∧ st.source = .snapshot) ∨
        utxoAt plan.newTip = utxoAt st.chain.tip := by
  obtain ⟨k, rfl⟩ : ∃ k, n = (undoPhase hash codec st plan).length + (k + 1) :=
    ⟨n - (undoPhase hash codec st plan).length - 1, by omega⟩
  have hreached : st.applyAll ((undoPhase hash codec st plan ++ (connectPhase hash done ++
        finishPhase prevHash pin st plan)).take ((undoPhase hash codec st plan).length + (k + 1))) =
      connectedStore prevHash pin hash codec st plan done k := by
    rw [take_length_add_append, applyAll_append]
    rfl
  have hlength : (connectPhase hash done).length = (muhashWrite hash done.muhash).length + 1 := rfl
  obtain ⟨hcoins, hrow⟩ := @connected_take _ _ _ _ prevHash pin _ _ _ _ _ h _ hdone k
  rw [stopped, hreached, hlength]
  set reached := connectedStore prevHash pin hash codec st plan done k with heq
  have hsource : reached.source = st.source := by
    rw [heq, source_applyAll]
    exact source_applyAll _ _
  by_cases hmoved : (muhashWrite hash done.muhash).length < k
  · -- the tip has moved, and a journal, if it is still there, names it
    have htip : reached.chain.tip = plan.newTip := by
      obtain ⟨rest, hfinish, hrest⟩ := @finishPhase_eq _ prevHash pin st plan
      rw [heq, connectedStore, take_append, take_of_length_le hmoved.le, applyAll_append]
      exact tip_take_of_moved hfinish (fun w hw => (hrest w hw).1) _ (by omega)
    apply iff_of_true
    · cases restart with
      | false => exact hcoins.trans (congrArg utxoAt htip.symm)
      | true =>
        rw [if_pos rfl, CoinsMatch, coinRows_recovered, hcoins]
        by_cases hsnapshot : st.source = .snapshot
        · rcases hrow with hjournal | hgone
          · rw [tip_recovered_of_journal _ _ _ (hsource.trans hsnapshot) hready hjournal]
          · rw [tip_recovered_of_no_journal _ _ _ (fun _ => hgone), htip]
        · rw [recovered_of_source _ _ _ (fun hs => hsnapshot (hsource.symm.trans hs)), htip]
    · left
      omega
  · obtain ⟨hchain, hjournal⟩ :=
      @connecting_take _ _ _ _ prevHash pin _ _ _ _ _ hdone k (not_lt.mp hmoved)
    rw [or_iff_right (by omega)]
    cases restart with
    | false =>
      rw [if_neg Bool.false_ne_true, CoinsMatch, hcoins, hchain]
      simp only [Bool.false_eq_true, false_and, false_or]
    | true =>
      rw [if_pos rfl, CoinsMatch, coinRows_recovered, hcoins]
      by_cases hsnapshot : st.source = .snapshot
      · rw [tip_recovered_of_journal _ _ _ (hsource.trans hsnapshot) hready hjournal]
        exact iff_of_true rfl (.inl ⟨rfl, hsnapshot⟩)
      · rw [recovered_of_source _ _ _ (fun hs => hsnapshot (hsource.symm.trans hs)), hchain]
        simp only [hsnapshot, and_false, false_or]

theorem coinsMatch_live (h : SoundPlan codec utxoAt st plan true) (hready : tipReady plan.newTip)
    (hn : n ≤ (liveWrites prevHash pin hash codec st plan).length) (restart : Bool) :
    CoinsMatch codec utxoAt
        (stopped prevHash tipReady hash st (liveWrites prevHash pin hash codec st plan) n restart) ↔
      SafeLive hash codec utxoAt st plan n restart := by
  rw [SafeLive]
  by_cases hrefused : st.source = .missingSnapshot ∨ plan.tipFirst.all plan.bodyStored = false
  · rw [liveWrites, if_pos hrefused] at hn ⊢
    obtain rfl := Nat.le_zero.mp hn
    rw [if_pos (Nat.zero_le _), coinsMatch_stopped h.noJournal]
    exact iff_of_true h.before rfl
  rw [liveWrites, if_neg hrefused] at hn ⊢
  by_cases hundo : n ≤ (undoPhase hash codec st plan).length
  · rw [if_pos hundo]
    exact coinsMatch_undoing h hundo restart
  rw [if_neg hundo]
  cases hdone : connectDelta hash codec st plan with
  | none =>
    rw [hdone, append_nil] at hn
    exact absurd hn hundo
  | some done =>
    simp only [Option.mem_def, Option.some.injEq, exists_eq_left']
    exact coinsMatch_connected h hready hdone (not_le.mp hundo) restart

end Live

section Memory

variable {table : ByteTree} {set : UtxoSet U} {key : Bytes}

theorem foldlM_addUtxo_of_ne {entries : List (Sigma fun _ : OutPoint => U)} {table' : ByteTree}
    (h : entries.foldlM (fun table coin => addUtxo codec table coin.1 coin.2) table = some table')
    (hkey : ∀ o, outpointToKey o ≠ key) : table' key = table key := by
  induction entries generalizing table with
  | nil =>
    cases h
    rfl
  | cons coin entries ih =>
    rw [foldlM_cons, Option.bind_eq_bind, Option.bind_eq_some_iff] at h
    obtain ⟨mid, hmid, hrest⟩ := h
    rw [addUtxo, Option.map_eq_some_iff] at hmid
    obtain ⟨row, -, rfl⟩ := hmid
    rw [ih hrest, Function.update_of_ne (hkey coin.1).symm]

theorem storeUtxoSet_of_ne (h : storeUtxoSet codec set = some table)
    (hkey : ∀ o, outpointToKey o ≠ key) : table key = none := foldlM_addUtxo_of_ne h hkey

theorem coinsOf_storeUtxoSet (h : storeUtxoSet codec set = some table) :
    coinsOf codec (coinRows table) = stored (fun o => set.lookup o) := by
  rw [← getUtxo_storeUtxoSet h]
  funext o
  have hlegacy : table (legacyOutpointKey o) = none :=
    storeUtxoSet_of_ne h (fun o' => outpointToKey_ne_legacyOutpointKey o' o)
  rw [coinsOf, coinRows, getUtxo]
  cases table (outpointToKey o) with
  | none => rw [hlegacy]
  | some row => rfl

theorem journal_memory (h : SoundPlan codec utxoAt st plan false) (n : ℕ) :
    st.source = .snapshot → (st.applyAll ((memoryWrites prevHash pin codec st plan).take n)).coins
      snapshotReorgJournalKey = none := by
  intro hsource
  have hwrites : ∀ w ∈ memoryWrites prevHash pin codec st plan,
      KeepsCoins w ∨ ∃ tree, w = .coins tree ∧ tree snapshotReorgJournalKey = none := by
    intro w hw
    rcases mem_append.mp hw with hw | hw
    · exact .inl (keepsCoins_of_keepsBoth (keepsBoth_undoLogs _ w hw))
    split at hw
    next => cases hw
    next =>
      simp only [mem_append, mem_cons] at hw
      rcases hw with hw | rfl | hw
      · exact .inl (keepsCoins_moveTip st w hw)
      · exact .inr ⟨_, rfl, rfl⟩
      · split at hw
        next => cases hw
        next table htable =>
          rw [mem_singleton] at hw
          exact .inr ⟨table, hw, storeUtxoSet_of_ne htable outpointToKey_ne_journalKey⟩
  have hguard : GuardedRun.Guarded NodeStore.apply (fun _ w => KeepsCoins w ∨
      ∃ tree, w = .coins tree ∧ tree snapshotReorgJournalKey = none) st
      ((memoryWrites prevHash pin codec st plan).take n) :=
    GuardedRun.guarded_of_forall (fun w hw _ => hwrites w (mem_of_mem_take hw)) st
  apply GuardedRun.stable (P := fun now : NodeStore => now.coins snapshotReorgJournalKey = none) _
    (h.noJournal hsource) hguard
  rintro now w (hkeeps | ⟨tree, rfl, htree⟩) hnone
  · have hrow := @row_applyAll [w] (forall_mem_singleton.mpr hkeeps) snapshotReorgJournalKey now
    rw [hnone, or_self] at hrow
    exact hrow
  · exact htree

def tableWrites (codec : ValueCodec U) (set : UtxoSet U) : List DurableWrite :=
  .coins (fun _ => none) ::
    match storeUtxoSet codec set with
    | none => []
    | some table => [.coins table]

theorem keepsTip_tableWrites (codec : ValueCodec U) (set : UtxoSet U) :
    ∀ w ∈ tableWrites codec set, KeepsTip w := by
  rw [tableWrites, forall_mem_cons]
  refine ⟨trivial, ?_⟩
  cases storeUtxoSet codec set with
  | none => exact nofun
  | some table => exact forall_mem_singleton.mpr trivial

theorem coins_moving (h : SoundPlan codec utxoAt st plan false) {logs : List (BlockUndoLog U)}
    (hplan : plan.reorganized = some (set, logs)) {mid : NodeStore} (hmid : mid.coins = st.coins)
    {k : ℕ} (hk : k ≤ (moveTip prevHash pin st plan ++ tableWrites codec set).length) :
    coinsOf codec (coinRows (mid.applyAll
        ((moveTip prevHash pin st plan ++ tableWrites codec set).take k)).coins) =
      if k ≤ (moveTip prevHash pin st plan).length then utxoAt st.chain.tip
      else if k = (moveTip prevHash pin st plan).length + 1 then fun _ => none
      else utxoAt plan.newTip := by
  by_cases hmoving : k ≤ (moveTip prevHash pin st plan).length
  · rw [if_pos hmoving, take_append_of_le_length hmoving,
      coinRows_applyAll (fun w hw => keepsCoins_moveTip st w (mem_of_mem_take hw)), hmid]
    exact h.before
  rw [if_neg hmoving]
  by_cases hcleared : k = (moveTip prevHash pin st plan).length + 1
  · rw [if_pos hcleared, hcleared, take_length_add_append, applyAll_append]
    rfl
  rw [if_neg hcleared]
  obtain ⟨j, rfl⟩ : ∃ j, k = (moveTip prevHash pin st plan).length + (j + 2) :=
    ⟨k - (moveTip prevHash pin st plan).length - 2, by omega⟩
  rw [length_append, tableWrites] at hk
  rw [take_length_add_append, applyAll_append, tableWrites]
  cases htable : storeUtxoSet codec set with
  | none =>
    simp only [htable, length_singleton] at hk
    omega
  | some table =>
    rw [h.memory rfl set logs hplan, ← coinsOf_storeUtxoSet htable,
      take_of_length_le (Nat.le_add_left 2 j)]
    rfl

theorem coinsMatch_memory (h : SoundPlan codec utxoAt st plan false)
    (hn : n ≤ (memoryWrites prevHash pin codec st plan).length) (restart : Bool) :
    CoinsMatch codec utxoAt
        (stopped prevHash tipReady hash st (memoryWrites prevHash pin codec st plan) n restart) ↔
      SafeMemory prevHash pin utxoAt st plan n := by
  rw [coinsMatch_stopped (journal_memory h n), SafeMemory]
  have hu : (plan.undoLogged.map undoLog).length = plan.undoLogged.length :=
    length_map _
  by_cases hlogs : n ≤ plan.undoLogged.length
  · have hkeeps : ∀ w ∈ (plan.undoLogged.map undoLog).take n, KeepsBoth w :=
      fun w hw => keepsBoth_undoLogs _ w (mem_of_mem_take hw)
    apply iff_of_true _ (.inl hlogs)
    rw [memoryWrites, take_append_of_le_length (hu ▸ hlogs), CoinsMatch,
      (both_applyAll hkeeps st).1, (both_applyAll hkeeps st).2]
    exact h.before
  cases hplan : plan.reorganized with
  | none =>
    rw [memoryWrites, hplan, append_nil, hu] at hn
    exact absurd hn hlogs
  | some connected =>
    obtain ⟨set, logs⟩ := connected
    have hwrites : memoryWrites prevHash pin codec st plan =
        plan.undoLogged.map undoLog ++
          (moveTip prevHash pin st plan ++ tableWrites codec set) := by
      rw [memoryWrites, hplan]
      rfl
    obtain ⟨k, rfl⟩ : ∃ k, n = plan.undoLogged.length + k := ⟨n - plan.undoLogged.length, by omega⟩
    rw [hwrites, length_append, hu, Nat.add_le_add_iff_left] at hn
    have hreached : st.applyAll ((memoryWrites prevHash pin codec st plan).take
          (plan.undoLogged.length + k)) =
        (st.applyAll (plan.undoLogged.map undoLog)).applyAll
          ((moveTip prevHash pin st plan ++ tableWrites codec set).take k) := by
      rw [hwrites, ← hu, take_length_add_append, applyAll_append]
    have htip : (st.applyAll ((memoryWrites prevHash pin codec st plan).take
        (plan.undoLogged.length + k))).chain.tip = plan.newTip := by
      obtain ⟨rest, hmove, hrest⟩ := @moveTip_eq _ prevHash pin st plan
      rw [hreached, hmove]
      apply tip_take_of_moved rfl _ _ (by omega)
      exact forall_mem_append.mpr ⟨fun w hw => (hrest w hw).1, keepsTip_tableWrites codec set⟩
    rw [CoinsMatch, htip, hreached,
      coins_moving h hplan (both_applyAll (keepsBoth_undoLogs _) st).1 hn]
    rw [or_iff_right hlogs]
    split_ifs with hmoving hcleared
    · rw [or_iff_left (by omega), and_iff_right (by omega), eq_comm]
    · rw [or_iff_right (by omega), or_iff_left (by omega), and_iff_right (by omega), eq_comm]
    · apply iff_of_true rfl
      right
      right
      omega

end Memory

/-- For every store, fork and stop: the coins on disk are those of the tip on disk exactly if
the stop is safe. -/
theorem activation_stop_matches_iff (prevHash : Hash → Hash) (pin : ℕ) (tipReady : Hash → Bool)
    (hash : MuHash U M G) (codec : ValueCodec U) (utxoAt : Hash → OutPoint → Option (Option U))
    (st : NodeStore) (plan : ForkPlan U) (utxoSetEmpty : Bool)
    (h : SoundPlan codec utxoAt st plan utxoSetEmpty) (hready : tipReady plan.newTip = true)
    (n : ℕ) (hn : n ≤ (activationWrites prevHash pin hash codec st plan utxoSetEmpty).length)
    (restart : Bool) : CoinsMatch codec utxoAt (stopped prevHash tipReady hash st
        (activationWrites prevHash pin hash codec st plan utxoSetEmpty) n restart) ↔
      SafeStop prevHash pin hash codec utxoAt st plan utxoSetEmpty n restart := by
  rw [SafeStop]
  by_cases hheavier : plan.heavier = false
  · rw [activationWrites, if_pos hheavier] at hn ⊢
    obtain rfl := Nat.le_zero.mp hn
    rw [coinsMatch_stopped h.noJournal]
    apply iff_of_true h.before
    cases utxoSetEmpty with
    | true =>
      rw [if_pos rfl, SafeLive, if_pos (Nat.zero_le _)]
      rfl
    | false => exact .inl (Nat.zero_le _)
  · rw [activationWrites, if_neg hheavier] at hn ⊢
    cases utxoSetEmpty with
    | true => exact coinsMatch_live h hready hn restart
    | false => exact coinsMatch_memory h hn restart

section Sample

open Function

def sampleUtxoAt (tip : Hash) : OutPoint → Option (Option (BitVec 8)) :=
  if tip = 8 then coinsOf byteCodec (coinRows oneCoinTree)
  else update (fun _ => none) ⟨2, 0⟩ (some (some 5))

/-- Block 8 created the one coin; the block of the candidate creates another. -/
def samplePlan (reorganized : Option (UtxoSet (BitVec 8) × List (BlockUndoLog (BitVec 8)))) :
    ForkPlan (BitVec 8) where
  heavier := true
  tipFirst := [8]
  bodyStored _ := true
  undoLog _ := some ⟨[⟨⟨1, 0⟩, none, some 4⟩]⟩
  undoLogged := []
  reorganized := reorganized
  newTip := 9
  newHeight := 7

theorem noJournal_sampleStore : (sampleStore .snapshot).coins snapshotReorgJournalKey = none := by
  have hcoins : (sampleStore .snapshot).coins = oneCoinTree := rfl
  rw [hcoins, oneCoinTree, update_of_ne (outpointToKey_ne_journalKey ⟨1, 0⟩).symm]

theorem sampleUtxoAt_old : sampleUtxoAt (sampleStore .snapshot).chain.tip =
    coinsOf byteCodec (coinRows oneCoinTree) := if_pos rfl

def createdCoin : Option (UtxoSet (BitVec 8) × List (BlockUndoLog (BitVec 8))) :=
  some (∅, [⟨[⟨⟨2, 0⟩, none, some 5⟩]⟩])

theorem soundPlan_live :
    SoundPlan byteCodec sampleUtxoAt (sampleStore .snapshot) (samplePlan createdCoin) true where
  before := sampleUtxoAt_old.symm
  noJournal := fun _ => noJournal_sampleStore
  undo := by
    intro _ set logs hplan coins hcoins
    cases hplan
    rw [sampleUtxoAt_old, coinRows_oneCoinTree, coinsOf_update] at hcoins
    have hdone : some (update (update (update (coinsOf byteCodec fun _ => none) ⟨1, 0⟩ _) ⟨1, 0⟩
        none) ⟨2, 0⟩ (some (some 5))) = some coins := hcoins
    rw [← Option.some.inj hdone, update_idem]
    change update (update (fun _ => none) _ none) _ _ = update _ _ _
    rw [update_eq_self]
  memory := nofun

/-- The process stops right after the connect batch; the restart finds its journal. -/
theorem activation_stop_matches_iff_sample :
    let writes := activationWrites (fun _ => 0) 0 checksumHash byteCodec (sampleStore .snapshot)
      (samplePlan createdCoin) true
    3 < writes.length ∧ CoinsMatch byteCodec sampleUtxoAt (stopped (fun _ => 0) (fun _ => true)
      checksumHash (sampleStore .snapshot) writes 3 true) := by
  intro writes
  have hlength : 3 < writes.length := by decide +kernel
  refine ⟨hlength, (activation_stop_matches_iff (fun _ => 0) 0 (fun _ => true) checksumHash
    byteCodec sampleUtxoAt (sampleStore .snapshot) (samplePlan createdCoin) true soundPlan_live rfl
    3 hlength.le true).mpr ?_⟩
  have hundo : ¬ 3 ≤ (undoPhase checksumHash byteCodec (sampleStore .snapshot)
      (samplePlan createdCoin)).length := by decide +kernel
  rw [SafeStop, if_pos rfl, SafeLive, if_neg hundo]
  exact .inr (.inl ⟨rfl, rfl⟩)

theorem soundPlan_invalid :
    SoundPlan byteCodec sampleUtxoAt (sampleStore .snapshot) (samplePlan none) true where
  before := sampleUtxoAt_old.symm
  noJournal := fun _ => noJournal_sampleStore
  undo := by
    intro _ set logs hplan
    exact absurd hplan (nofun)
  memory := nofun

/-- The candidate does not validate: the tip is still block 8, but its coin is gone for good. -/
theorem invalid_candidate_undoes_tip :
    CoinsMatch byteCodec sampleUtxoAt (sampleStore .snapshot) ∧
      ∀ restart, ¬CoinsMatch byteCodec sampleUtxoAt (stopped (fun _ => 0) (fun _ => true)
        checksumHash (sampleStore .snapshot) (activationWrites (fun _ => 0) 0 checksumHash
          byteCodec (sampleStore .snapshot) (samplePlan none) true) 2 restart) := by
  refine ⟨soundPlan_invalid.before, ?_⟩
  intro restart
  have hlength : (undoPhase checksumHash byteCodec (sampleStore .snapshot)
      (samplePlan none)).length = 2 := rfl
  have hwrites : activationWrites (fun _ => 0) 0 checksumHash byteCodec (sampleStore .snapshot)
      (samplePlan none) true =
      undoPhase checksumHash byteCodec (sampleStore .snapshot) (samplePlan none) ++ [] := rfl
  rw [hwrites, coinsMatch_undoing soundPlan_invalid hlength.ge, sampleUtxoAt_old]
  intro hsame
  -- the undo log of block 8 removes the coin that the tree has
  have hcoin := congrFun (Option.some.inj hsame) ⟨1, 0⟩
  rw [coinRows_oneCoinTree, coinsOf_update, update_self] at hcoin
  exact absurd hcoin (by decide)

end Sample

end BlvmNode
