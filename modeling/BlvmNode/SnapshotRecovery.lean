import BlvmNode.ReorgStore

/-!
# Recovery of a journalled commit

The coin batch of a connect or reorg carries a journal row that names the new tip and a row with the
new MuHash. The journal goes only when tip and watermark have moved, the MuHash row only when the
running MuHash has, so a recovery completes the commit wherever the process stops.
-/

namespace BlvmNode

open NetWrites GuardedRun List Function NodeStore

variable {U M G : Type} [CommGroup G]

/-- A commit with a journal: the store before it, the batch and the new tip, which has a parent and
is not the tip yet; the running MuHash, where known, is that of the coins, and otherwise no row was
left. -/
structure JournalledCommit (hash : MuHash U M G) (codec : ValueCodec U) where
  before : NodeStore
  disconnects : List (BlockUndoLog U)
  connects : List (BlockUndoLog U)
  height : BitVec 64
  tip : Hash
  done : DeltaCommit M
  committed : commitUtxoSnapshotDelta hash codec before.coins disconnects connects
    (some (height, tip)) (runningMuhash hash before) = some done
  heightPos : height.toNat ≠ 0
  newTip : before.chain.tip ≠ tip
  accumulates : ∀ mh ∈ runningMuhash hash before,
    Accumulates hash (coinsOf codec (coinRows before.coins)) (hash.value mh)
  noMuhashRow : runningMuhash hash before = none → before.coins snapshotMuhashKey = none

inductive CommitCaller
  | connect
  | reorg

open JournalledCommit

variable {hash : MuHash U M G} {codec : ValueCodec U}

namespace JournalledCommit

variable (prevHash : Hash → Hash) (pin : ℕ) (c : JournalledCommit hash codec)

def muhashWrites : List DurableWrite :=
  (c.done.muhash.map (fun mh => DurableWrite.muhash (hash.serializeRunningState mh))).toList

def dropRows : List DurableWrite :=
  [.removeRow snapshotReorgJournalKey, .removeRow snapshotMuhashKey]

/-- What follows the batch when a block extends the tip (`sync.rs`). -/
def connectTail : List DurableWrite :=
  let moved := (c.before.apply (.coins c.done.tree)).apply (.tip c.tip c.height.toNat)
  .tip c.tip c.height.toNat ::
    (noteSnapshotHeight moved c.height.toNat ++ c.muhashWrites ++ dropRows)

/-- What follows the batch when a heavier fork is activated (`reorg_executor.rs`). -/
def reorgTail : List DurableWrite :=
  c.muhashWrites ++ tipWrites prevHash c.before.chain c.tip c.height.toNat ++
    (if c.height.toNat < pin then [.clearHeight pin] else []) ++
    (match c.before.source with
      | .snapshot => rewindSnapshotHeight c.height.toNat ++ dropRows
      | _ => [])

def commitWrites : CommitCaller → List DurableWrite
  | .connect => .coins c.done.tree :: c.connectTail
  | .reorg => .coins c.done.tree :: c.reorgTail prevHash pin

def TipMoved (st : NodeStore) : Prop :=
  st.chain.tip = c.tip ∧ st.chain.tipHeight = c.height.toNat

def WatermarkMoved (st : NodeStore) : Prop := st.watermark = some c.height.toNat

def MuhashMoved (st : NodeStore) : Prop :=
  ∀ mh ∈ c.done.muhash, st.muhashRunning = some (hash.serializeRunningState mh)

/-- The write moves a part to the new tip, touches what does not matter, or drops a row no longer
needed. -/
def Completes (st : NodeStore) : DurableWrite → Prop
  | .coins _ => False
  | .removeRow key => (key = snapshotMuhashKey ∧ c.MuhashMoved st) ∨
      (key = snapshotReorgJournalKey ∧ c.TipMoved st ∧ c.WatermarkMoved st)
  | .muhash running => ∃ mh ∈ c.done.muhash, running = hash.serializeRunningState mh
  | .dropMuhash => False
  | .undoLog _ => True
  | .tip tip height => tip = c.tip ∧ height = c.height.toNat
  | .height _ _ => True
  | .clearHeight _ => True
  | .watermark height => height = c.height.toNat
  | .exportHeight _ => True

/-- The store between the coin batch and the end of the commit. -/
structure Committed (st : NodeStore) : Prop where
  source : st.source = c.before.source
  coins : coinRows st.coins = coinRows c.done.tree
  journal : st.coins snapshotReorgJournalKey = some (encodeReorgJournal c.height c.tip) ∨
    (st.coins snapshotReorgJournalKey = none ∧ c.TipMoved st ∧ c.WatermarkMoved st)
  muhashRow : ∀ row, st.coins snapshotMuhashKey = some row →
    ∃ mh ∈ c.done.muhash, row = hash.serializeRunningState mh
  muhashDone : st.coins snapshotMuhashKey = none → c.MuhashMoved st
  muhashUnknown : c.done.muhash = none → runningMuhash hash st = none
  tipHeight : st.chain.tip = c.tip → st.chain.tipHeight = c.height.toNat

variable {prevHash pin c} {st : NodeStore} {w : DurableWrite} {key : Bytes}

theorem TipMoved.apply (h : c.TipMoved st) (hw : c.Completes st w) : c.TipMoved (st.apply w) := by
  cases w with
  | tip tip height => exact hw
  | coins tree | dropMuhash => exact hw.elim
  | _ => exact h

theorem WatermarkMoved.apply (h : c.WatermarkMoved st)
    (hw : c.Completes st w) : c.WatermarkMoved (st.apply w) := by
  cases w with
  | watermark height => exact congrArg some hw
  | coins tree | dropMuhash => exact hw.elim
  | _ => exact h

theorem muhashMoved_muhash {mh : M} (hmh : mh ∈ c.done.muhash) (st : NodeStore) :
    c.MuhashMoved (st.apply (.muhash (hash.serializeRunningState mh))) := by
  intro mh' hmh'
  rw [Option.mem_unique hmh' hmh]
  rfl

theorem MuhashMoved.apply (h : c.MuhashMoved st) (hw : c.Completes st w) :
    c.MuhashMoved (st.apply w) := by
  cases w with
  | muhash running =>
    obtain ⟨mh, hmh, rfl⟩ := hw
    exact muhashMoved_muhash hmh st
  | coins tree | dropMuhash => exact hw.elim
  | _ => exact h

theorem rowGone_apply (h : st.coins key = none)
    (hw : c.Completes st w) : (st.apply w).coins key = none := by
  cases w with
  | removeRow key' =>
    simp only [apply, update_apply, h, ite_self]
  | coins tree | dropMuhash => exact hw.elim
  | _ => exact h

theorem coins_removeRow (st : NodeStore) (key : Bytes) :
    (st.apply (.removeRow key)).coins = update st.coins key none := rfl

theorem coins_removeRow_self (st : NodeStore) (key : Bytes) :
    (st.apply (.removeRow key)).coins key = none := by
  rw [coins_removeRow, update_self]

theorem muhashRow_removeRow {row : Bytes}
    (h : (st.apply (.removeRow key)).coins snapshotMuhashKey = some row) :
    st.coins snapshotMuhashKey = some row := by
  rw [coins_removeRow, update_apply] at h
  split_ifs at h
  exact h

theorem Committed.apply (h : c.Committed st) (hw : c.Completes st w) :
    c.Committed (st.apply w) := by
  have htip : c.TipMoved st → c.TipMoved (st.apply w) := fun ht => ht.apply hw
  have hwatermark : c.WatermarkMoved st → c.WatermarkMoved (st.apply w) := fun ht => ht.apply hw
  cases w with
  | coins tree | dropMuhash => exact hw.elim
  | undoLog block => exact h
  | removeRow key =>
    have hne : ∀ o, outpointToKey o ≠ key := by
      rcases hw with ⟨rfl, -⟩ | ⟨rfl, -⟩
      · exact outpointToKey_ne_muhashKey
      · exact outpointToKey_ne_journalKey
    refine { h with
      coins := ?_, journal := ?_, muhashDone := ?_
      muhashRow := fun row hrow => h.muhashRow row (muhashRow_removeRow hrow) }
    · rw [← h.coins]
      funext o
      exact update_of_ne (hne o) _ _
    · rcases hw with ⟨rfl, -⟩ | ⟨rfl, ht, hwm⟩
      · rw [coins_removeRow, update_of_ne journalKey_ne_muhashKey]
        exact h.journal
      · rw [coins_removeRow, update_self]
        exact .inr ⟨rfl, ht, hwm⟩
    · intro hnone
      rcases hw with ⟨rfl, hm⟩ | ⟨rfl, -⟩
      · exact hm
      · rw [coins_removeRow, update_of_ne journalKey_ne_muhashKey.symm] at hnone
        exact h.muhashDone hnone
  | muhash running =>
    obtain ⟨mh, hmh, rfl⟩ := hw
    refine { h with muhashDone := fun _ => muhashMoved_muhash hmh st, muhashUnknown := ?_ }
    intro hnone
    rw [hnone] at hmh
    cases hmh
  | tip tip height =>
    exact { h with
      journal := h.journal.imp_right fun hj => ⟨hj.1, htip hj.2.1, hj.2.2⟩
      tipHeight := fun _ => hw.2 }
  | watermark height =>
    exact { h with
      journal := h.journal.imp_right fun hj => ⟨hj.1, hj.2.1, hwatermark hj.2.2⟩ }
  | height height tip | clearHeight height | exportHeight height =>
    exact { h with journal := h.journal }

theorem committed_batch (c : JournalledCommit hash codec) :
    c.Committed (c.before.apply (.coins c.done.tree)) := by
  obtain ⟨net, muhash', hnet, hdelta, hdone⟩ :=
    commitUtxoSnapshotDelta_eq_some.mp c.committed
  have hjournal := journal_commit c.committed
  have hnone := (muhash_commit_none c.committed).mp
  have hmuhash : ∀ mh, c.done.muhash = some mh →
      c.done.tree snapshotMuhashKey = some (hash.serializeRunningState mh) := by
    intro mh hmh
    rw [hdone] at hmh ⊢
    simp only at hmh
    simp only [hmh, Option.map_some, putRow_self]
  have hunknown : c.done.muhash = none → c.done.tree snapshotMuhashKey = none := by
    intro hmh
    rw [commit_of_ne_key c.committed outpointToKey_ne_muhashKey
      (.inl journalKey_ne_muhashKey.symm) (.inr (hnone hmh))]
    exact c.noMuhashRow (hnone hmh)
  refine ⟨rfl, rfl, .inl hjournal, ?_, ?_, hnone, fun htip => absurd htip c.newTip⟩
  · intro row hrow
    cases hmh : c.done.muhash with
    | none => cases (hunknown hmh).symm.trans hrow
    | some mh =>
      have hsame : some (hash.serializeRunningState mh) = some row :=
        (hmuhash mh hmh).symm.trans hrow
      exact ⟨mh, rfl, (Option.some.inj hsame).symm⟩
  · intro hgone mh hmh
    cases (hmuhash mh hmh).symm.trans hgone

section Recovery

variable {tipReady : Hash → Bool}

section

variable (c)

theorem tipMoved_tip (st : NodeStore) :
    c.TipMoved (st.apply (.tip c.tip c.height.toNat)) := ⟨rfl, rfl⟩

theorem watermarkMoved_watermark (st : NodeStore) :
    c.WatermarkMoved (st.apply (.watermark c.height.toNat)) := rfl

theorem completes_tipWrites (chain : ChainIndex) :
    ∀ w ∈ tipWrites prevHash chain c.tip c.height.toNat, ∀ st, c.Completes st w := by
  rw [tipWrites, forall_mem_cons, forall_mem_map]
  exact ⟨fun _ => ⟨rfl, rfl⟩, fun _ _ _ => trivial⟩

theorem rewindSnapshotHeight_eq : rewindSnapshotHeight c.height.toNat =
      [.watermark c.height.toNat, .exportHeight c.height.toNat] := by
  rw [rewindSnapshotHeight, forceSetIbdUtxoWatermark, if_neg c.heightPos]
  rfl

theorem completes_rewind : ∀ w ∈ rewindSnapshotHeight c.height.toNat, ∀ st, c.Completes st w := by
  rw [rewindSnapshotHeight_eq, forall_mem_cons, forall_mem_singleton]
  exact ⟨fun _ => rfl, fun _ => trivial⟩

end

theorem guarded_recoverMuhash (h : c.Committed st) :
    Guarded apply c.Completes st (recoverMuhash hash st) ∧
      (st.applyAll (recoverMuhash hash st)).coins snapshotMuhashKey = none := by
  rw [recoverMuhash]
  cases hrow : st.coins snapshotMuhashKey with
  | none => exact ⟨trivial, hrow⟩
  | some row =>
    obtain ⟨mh, hmh, rfl⟩ := h.muhashRow row hrow
    simp only [hash.length_serialize, if_true]
    exact ⟨⟨⟨mh, hmh, rfl⟩, .inl ⟨rfl, muhashMoved_muhash hmh st⟩, trivial⟩,
      coins_removeRow_self _ _⟩

theorem guarded_recoverJournal (hready : tipReady c.tip) (h : c.Committed st)
    {now : NodeStore} (hnow : c.Committed now) (htip : now.chain = st.chain)
    (hrow : now.coins snapshotReorgJournalKey = st.coins snapshotReorgJournalKey) :
    Guarded apply c.Completes now (recoverJournal prevHash tipReady st) ∧
      (now.applyAll (recoverJournal prevHash tipReady st)).coins snapshotReorgJournalKey =
        none := by
  rw [recoverJournal]
  rcases h.journal with hjournal | ⟨hjournal, -⟩
  swap
  · rw [hjournal] at hrow ⊢
    exact ⟨trivial, hrow⟩
  simp only [hjournal, parseReorgJournal_encode, hready, Bool.true_eq_false, and_false, if_false]
  generalize hmoves : (if st.chain.tip ≠ c.tip then
    tipWrites prevHash st.chain c.tip c.height.toNat else []) ++
      rewindSnapshotHeight c.height.toNat = moves
  have hguard : Guarded apply c.Completes now moves := by
    apply guarded_of_forall
    rw [← hmoves, forall_mem_append]
    refine ⟨?_, completes_rewind c⟩
    split_ifs
    · exact completes_tipWrites c st.chain
    · exact nofun
  have hmoved : c.TipMoved (moves.foldl apply now) := by
    by_cases heq : st.chain.tip = c.tip
    · apply stable (fun st w hw ht => ht.apply hw) _ hguard
      rw [← htip] at heq
      exact ⟨heq, hnow.tipHeight heq⟩
    · apply holds_after (fun st w hw ht => ht.apply hw) (tipMoved_tip c) _ hguard
      rw [← hmoves, if_pos heq]
      exact mem_append_left _ mem_cons_self
  have hwatermark : c.WatermarkMoved (moves.foldl apply now) := by
    apply holds_after (fun st w hw ht => ht.apply hw) (watermarkMoved_watermark c) _ hguard
    rw [← hmoves, rewindSnapshotHeight_eq]
    exact mem_append_right _ mem_cons_self
  rw [guarded_append, applyAll, foldl_append]
  exact ⟨⟨hguard, .inr ⟨rfl, hmoved, hwatermark⟩, trivial⟩, coins_removeRow_self _ _⟩

theorem recoverMuhash_frame (hash : MuHash U M G) (st : NodeStore) :
    (st.applyAll (recoverMuhash hash st)).chain = st.chain ∧
      (st.applyAll (recoverMuhash hash st)).coins snapshotReorgJournalKey =
        st.coins snapshotReorgJournalKey := by
  rw [recoverMuhash]
  cases st.coins snapshotMuhashKey with
  | none => exact ⟨rfl, rfl⟩
  | some row =>
    have hkeep : ∀ now : NodeStore, now.coins = st.coins →
        (now.apply (.removeRow snapshotMuhashKey)).coins snapshotReorgJournalKey =
          st.coins snapshotReorgJournalKey := by
      intro now hnow
      rw [coins_removeRow, update_of_ne journalKey_ne_muhashKey, hnow]
    simp only
    split_ifs
    · exact ⟨rfl, hkeep (st.apply (.muhash row)) rfl⟩
    · exact ⟨rfl, hkeep st rfl⟩

theorem guarded_recover (hsource : c.before.source = .snapshot) (hready : tipReady c.tip)
    (h : c.Committed st) :
    let writes := recoverSnapshotCommit prevHash hash tipReady st
    Guarded apply c.Completes st writes ∧
      (st.applyAll writes).coins snapshotReorgJournalKey = none ∧
      (st.applyAll writes).coins snapshotMuhashKey = none := by
  intro writes
  have hopens : writes = recoverMuhash hash st ++ recoverJournal prevHash tipReady st := by
    simp only [writes, recoverSnapshotCommit, h.source, hsource]
  rw [hopens]
  obtain ⟨hmuhash, hmuhashGone⟩ := guarded_recoverMuhash h
  obtain ⟨hchain, hrow⟩ := recoverMuhash_frame hash st
  have hmid : c.Committed (st.applyAll (recoverMuhash hash st)) :=
    stable (fun _ _ hw hc => hc.apply hw) h hmuhash
  obtain ⟨hjournal, hjournalGone⟩ :=
    @guarded_recoverJournal _ _ _ _ _ _ prevHash c st tipReady hready h _ hmid hchain hrow
  refine ⟨guarded_append.mpr ⟨hmuhash, hjournal⟩, ?_, ?_⟩
  · rw [applyAll, foldl_append]
    exact hjournalGone
  · rw [applyAll, foldl_append]
    exact stable (P := fun now => now.coins snapshotMuhashKey = none)
      (fun _ _ hw hgone => rowGone_apply hgone hw) hmuhashGone hjournal

end Recovery

theorem completes_muhashWrites (c : JournalledCommit hash codec) :
    ∀ w ∈ c.muhashWrites, ∀ st, c.Completes st w := by
  intro w hw st
  rw [muhashWrites, Option.mem_toList, Option.map_eq_some_iff] at hw
  obtain ⟨mh, hmh, rfl⟩ := hw
  exact ⟨mh, hmh, rfl⟩

theorem guarded_dropRows {moves : List DurableWrite}
    (hmoves : ∀ w ∈ moves, ∀ st, c.Completes st w) (hmuhash : c.muhashWrites ⊆ moves)
    (htip : .tip c.tip c.height.toNat ∈ moves) (hwatermark : .watermark c.height.toNat ∈ moves) :
    Guarded apply c.Completes st (moves ++ dropRows) := by
  have hguard : Guarded apply c.Completes st moves := guarded_of_forall hmoves st
  have hmoved : c.TipMoved (moves.foldl apply st) :=
    holds_after (fun _ _ hw ht => ht.apply hw) (tipMoved_tip c) htip hguard
  have hmark : c.WatermarkMoved (moves.foldl apply st) :=
    holds_after (fun _ _ hw ht => ht.apply hw) (watermarkMoved_watermark c) hwatermark hguard
  have hhash : c.MuhashMoved (moves.foldl apply st) := by
    intro mh hmh
    have hmem : .muhash (hash.serializeRunningState mh) ∈ c.muhashWrites := by
      rw [muhashWrites, Option.mem_toList, Option.map_eq_some_iff]
      exact ⟨mh, hmh, rfl⟩
    have hmoved : c.MuhashMoved (moves.foldl apply st) :=
      holds_after (fun _ _ hw ht => ht.apply hw) (muhashMoved_muhash hmh) (hmuhash hmem) hguard
    exact hmoved mh hmh
  rw [guarded_append]
  have hjournal : c.Completes (moves.foldl apply st)
      (.removeRow snapshotReorgJournalKey) := .inr ⟨rfl, hmoved, hmark⟩
  exact ⟨hguard, hjournal, .inl ⟨rfl, hhash.apply hjournal⟩, trivial⟩

theorem guarded_connectTail (hwatermark : c.before.watermark.getD 0 < c.height.toNat) :
    Guarded apply c.Completes st c.connectTail := by
  set moved := (c.before.apply (.coins c.done.tree)).apply (.tip c.tip c.height.toNat)
  have hnote : noteSnapshotHeight moved c.height.toNat =
      .watermark c.height.toNat :: persistEngineExportHeight moved c.height.toNat := by
    have hmark : moved.watermark.getD 0 < c.height.toNat := hwatermark
    rw [noteSnapshotHeight, setUtxoWatermark, if_pos hmark]
    rfl
  have hexport : ∀ w ∈ persistEngineExportHeight moved c.height.toNat,
      ∀ st, c.Completes st w := by
    rw [persistEngineExportHeight]
    split_ifs
    · exact nofun
    · exact forall_mem_singleton.mpr fun _ => trivial
    · exact nofun
  rw [connectTail, hnote, ← cons_append]
  apply guarded_dropRows
  · rw [forall_mem_cons, forall_mem_append, forall_mem_cons]
    exact ⟨fun _ => ⟨rfl, rfl⟩, ⟨fun _ => rfl, hexport⟩, completes_muhashWrites c⟩
  · intro w hw
    exact mem_cons_of_mem _ (mem_append_right _ hw)
  · exact mem_cons_self
  · exact mem_cons_of_mem _ (mem_append_left _ mem_cons_self)

theorem guarded_reorgTail (hsource : c.before.source = .snapshot) :
    Guarded apply c.Completes st (c.reorgTail prevHash pin) := by
  rw [reorgTail, hsource]
  simp only
  rw [← append_assoc]
  apply guarded_dropRows
  · rw [forall_mem_append, forall_mem_append, forall_mem_append]
    refine ⟨⟨⟨completes_muhashWrites c, completes_tipWrites c _⟩, ?_⟩, completes_rewind c⟩
    split_ifs
    · exact forall_mem_singleton.mpr fun _ => trivial
    · exact nofun
  · intro w hw
    rw [append_assoc, append_assoc]
    exact mem_append_left _ hw
  · apply mem_append_left
    apply mem_append_left
    exact mem_append_right _ mem_cons_self
  · apply mem_append_right
    rw [rewindSnapshotHeight_eq]
    exact mem_cons_self

section Outcome

variable (c)

/-- Tip, coins, watermark and running MuHash are those of the new tip. -/
structure Describes (st : NodeStore) : Prop where
  tip : st.chain.tip = c.tip ∧ st.chain.tipHeight = c.height.toNat
  coins : (deltaEffects c.disconnects c.connects).foldlM (writeCoin codec)
    (coinsOf codec (coinRows c.before.coins)) = some (coinsOf codec (coinRows st.coins))
  watermark : st.watermark = some c.height.toNat
  muhash : ∀ mh ∈ runningMuhash hash st,
    Accumulates hash (coinsOf codec (coinRows st.coins)) (hash.value mh)
  muhashKnown : runningMuhash hash st = none ↔ runningMuhash hash c.before = none

variable {c}

theorem Committed.describes (h : c.Committed st)
    (hjournal : st.coins snapshotReorgJournalKey = none)
    (hmuhash : st.coins snapshotMuhashKey = none) : c.Describes st := by
  have hrunning : runningMuhash hash st = c.done.muhash := by
    cases hdone : c.done.muhash with
    | none => exact h.muhashUnknown hdone
    | some mh =>
      rw [runningMuhash, h.muhashDone hmuhash mh hdone, Option.filter_some_pos, Option.map_some,
        hash.deserialize_serialize]
      simp only [hash.length_serialize, decide_true]
  obtain ⟨-, htip, hwatermark⟩ := h.journal.resolve_left (by rw [hjournal]; simp)
  refine ⟨htip, ?_, hwatermark, ?_, ?_⟩
  · rw [h.coins]
    exact coinsOf_commit c.committed
  · rw [h.coins, hrunning]
    exact accumulates_commit c.committed c.accumulates
  · rw [hrunning, muhash_commit_none c.committed]

end Outcome

end JournalledCommit

section Stops

variable (prevHash : Hash → Hash) (tipReady : Hash → Bool)

theorem recoverSnapshotCommit_of_source (hash : MuHash U M G) (st : NodeStore)
    (h : st.source ≠ .snapshot) : recoverSnapshotCommit prevHash hash tipReady st = [] := by
  rw [recoverSnapshotCommit]
  cases hsource : st.source with
  | snapshot => exact absurd hsource h
  | chainTable | missingSnapshot => rfl

def recovered (hash : MuHash U M G) (st : NodeStore) : NodeStore :=
  st.applyAll (recoverSnapshotCommit prevHash hash tipReady st)

/-- A recovery that stops after some of its writes. -/
def Interrupted (hash : MuHash U M G) (st st' : NodeStore) : Prop :=
  ∃ n, st' = st.applyAll ((recoverSnapshotCommit prevHash hash tipReady st).take n)

variable {prevHash tipReady}

theorem committed_interrupted {c : JournalledCommit hash codec}
    (hsource : c.before.source = .snapshot) (hready : tipReady c.tip)
    {st st' : NodeStore} (h : c.Committed st)
    (hrun : Relation.ReflTransGen (Interrupted prevHash tipReady hash) st st') :
    c.Committed st' := by
  induction hrun with
  | refl => exact h
  | tail _ hstep ih =>
    obtain ⟨n, rfl⟩ := hstep
    exact stable (fun _ _ hw hc => hc.apply hw) ih
      (guarded_take (guarded_recover hsource hready ih).1 n)

theorem committed_commitWrites (c : JournalledCommit hash codec) (pin : ℕ)
    (caller : CommitCaller) (hsource : c.before.source = .snapshot)
    (hwatermark : caller = .connect → c.before.watermark.getD 0 < c.height.toNat) {n : ℕ}
    (hn : 1 ≤ n) :
    c.Committed (c.before.applyAll ((c.commitWrites prevHash pin caller).take n)) := by
  obtain ⟨n, rfl⟩ := Nat.exists_eq_add_of_le' hn
  cases caller with
  | connect =>
    exact stable (fun _ _ hw hc => hc.apply hw) c.committed_batch
      (guarded_take (guarded_connectTail (hwatermark rfl)) n)
  | reorg =>
    exact stable (fun _ _ hw hc => hc.apply hw) c.committed_batch
      (guarded_take (guarded_reorgTail hsource) n)

/-- Stop the commit anywhere after its coin batch and any recoveries anywhere in them: the next
recovery that ends has moved everything to the new tip, exactly if the coins are in the engine's
resume snapshot. -/
theorem recovery_completes_iff (prevHash : Hash → Hash) (pin : ℕ) (tipReady : Hash → Bool)
    (hash : MuHash U M G) (codec : ValueCodec U) (c : JournalledCommit hash codec)
    (caller : CommitCaller) (hready : tipReady c.tip = true)
    (hconnect : caller = .connect → c.before.watermark.getD 0 < c.height.toNat) :
    (∀ n ≥ 1, ∀ st, Relation.ReflTransGen (Interrupted prevHash tipReady hash)
        (c.before.applyAll ((c.commitWrites prevHash pin caller).take n)) st →
      c.Describes (recovered prevHash tipReady hash st) ∧
        recoverSnapshotCommit prevHash hash tipReady (recovered prevHash tipReady hash st) = []) ↔
      c.before.source = .snapshot := by
  constructor
  · intro h
    by_contra hsource
    -- the batch alone: recovery opens nothing, and the tip is still the old one
    obtain ⟨hdescribes, -⟩ := h 1 le_rfl _ Relation.ReflTransGen.refl
    have hbatch : c.before.applyAll ((c.commitWrites prevHash pin caller).take 1) =
        c.before.apply (.coins c.done.tree) := by
      cases caller with
      | connect | reorg => rfl
    rw [hbatch, recovered, recoverSnapshotCommit_of_source prevHash tipReady hash
      (c.before.apply (.coins c.done.tree)) hsource] at hdescribes
    exact c.newTip hdescribes.tip.1
  · intro hsource n hn st hrun
    have hcommitted := committed_interrupted hsource hready
      (committed_commitWrites c pin caller hsource hconnect hn) hrun
    obtain ⟨hguard, hjournal, hmuhash⟩ := guarded_recover hsource hready hcommitted
    have hafter : c.Committed (recovered prevHash tipReady hash st) :=
      stable (fun _ _ hw hc => hc.apply hw) hcommitted hguard
    refine ⟨hafter.describes hjournal hmuhash, ?_⟩
    have hsource' := hafter.source.trans hsource
    rw [recoverSnapshotCommit, hsource']
    simp only
    rw [recoverMuhash, recoverJournal, recovered, hmuhash, hjournal]
    rfl

def sampleStore (source : DiskUtxoSource) : NodeStore where
  source := source
  coins := oneCoinTree
  chain := ⟨Function.update (fun _ => none) 8 (some 6), fun _ => none, 8, 6⟩
  watermark := some 6
  exportHeight := some 6
  muhashRunning := some [5]

/-- The block of the sample log as a commit that moves the tip from 8 to 9. -/
theorem exists_sampleCommit (source : DiskUtxoSource) :
    ∃ c : JournalledCommit checksumHash byteCodec, c.before = sampleStore source ∧ c.tip = 9 ∧
      c.height = 7 := by
  obtain ⟨coins, hcoins⟩ : ∃ coins, (deltaEffects [] [spendLog]).foldlM (writeRow byteCodec)
      (coinRows oneCoinTree) = some coins := ⟨_, rfl⟩
  obtain ⟨done, hdone, -⟩ := commit_of_fits checksumHash consistent_spendLog hcoins
    (some (7, 9)) (runningMuhash checksumHash (sampleStore source))
  have htip : (sampleStore source).chain.tip ≠ 9 := by
    have hold : (sampleStore source).chain.tip = 8 := rfl
    rw [hold]
    decide
  have hrunning : runningMuhash checksumHash (sampleStore source) =
      some (Multiplicative.ofAdd 5) := rfl
  exact ⟨⟨sampleStore source, [], [spendLog], 7, 9, done, hdone, by decide, htip,
    fun mh hmh => (Option.some.inj (hrunning.symm.trans hmh)) ▸ accumulates_oneCoinTree,
    fun hnone => absurd (hrunning.symm.trans hnone) (nofun)⟩, rfl, rfl, rfl⟩

theorem recovery_completes_iff_sample :
    ∃ c : JournalledCommit checksumHash byteCodec, c.before = sampleStore .snapshot ∧
      ∀ n ≥ 1, ∀ st, Relation.ReflTransGen (Interrupted (fun _ => 0) (fun _ => true) checksumHash)
          (c.before.applyAll ((c.commitWrites (fun _ => 0) 0 .connect).take n)) st →
        c.Describes (recovered (fun _ => 0) (fun _ => true) checksumHash st) := by
  obtain ⟨c, hbefore, htip, hheight⟩ := exists_sampleCommit .snapshot
  have hsource : c.before.source = .snapshot := by rw [hbefore]; rfl
  have hwatermark : CommitCaller.connect = .connect →
      c.before.watermark.getD 0 < c.height.toNat := by
    intro _
    rw [hbefore, hheight]
    decide
  refine ⟨c, hbefore, fun n hn st hrun => ?_⟩
  exact ((recovery_completes_iff (fun _ => 0) 0 (fun _ => true) checksumHash byteCodec c .connect
    rfl hwatermark).mpr hsource n hn st hrun).1

/-- With the coins in the chainstate table no journal is looked at: the new coins stay under the old
tip. -/
theorem chainTable_journal_ignored :
    ∃ c : JournalledCommit checksumHash byteCodec, c.before = sampleStore .chainTable ∧
      c.tip = 9 ∧
      recovered (fun _ => 0) (fun _ => true) checksumHash
          (c.before.applyAll ((c.commitWrites (fun _ => 0) 0 .reorg).take 1)) =
        c.before.apply (.coins c.done.tree) ∧
      (c.before.apply (.coins c.done.tree)).chain.tip = 8 ∧
      ¬c.Describes (c.before.apply (.coins c.done.tree)) := by
  obtain ⟨c, hbefore, htip, hheight⟩ := exists_sampleCommit .chainTable
  refine ⟨c, hbefore, htip, ?_, ?_, fun hdescribes => c.newTip hdescribes.tip.1⟩
  · have hnothing : recoverSnapshotCommit (fun _ => 0) checksumHash (fun _ => true)
        (c.before.apply (.coins c.done.tree)) = [] := by
      have hsource : (c.before.apply (.coins c.done.tree)).source = .chainTable := by
        rw [hbefore]
        rfl
      rw [recoverSnapshotCommit, hsource]
    have hbatch : c.before.applyAll ((c.commitWrites (fun _ => 0) 0 .reorg).take 1) =
        c.before.apply (.coins c.done.tree) := rfl
    rw [recovered, hbatch, hnothing]
    rfl
  · rw [hbefore]
    rfl

end Stops

end BlvmNode
