import BlvmNode.SpendSession

/-!
# Sessions along a run of the engine

A session gives each input its own coin exactly if the table has, for the id that the index
resolves, the record appended for that key. A rollback after which a block is flushed to the wrong
place gives an input the coin of another one.
-/

namespace BlvmNode

open KeyedRuns Timeline GuardedRun List Option TableHistory UtxoDatabase SpendSession

section Sessions

/-- On any two engines, for the append and for the completion: both paths give the same session,
exact if and only if the table still has, for each id of an input, the record appended for it. -/
theorem session_exact_iff {isCoinbase : Transaction → Bool} {runMax : ℕ} {c c' uring : Bool}
    {b : ChainBlock} {e e' : SpendEngine} {p : PartialSpendSession}
    (happend : SpendSession.append isCoinbase runMax c c' b e = some (e', p))
    {h : TableHistory} {idx : UtxoIndex} {s : SpendSession}
    (hcomplete : p.complete uring ⟨h.table, idx⟩ = some s) :
    SpendSession.resolve isCoinbase runMax c c' uring b e = some (e', p.complete uring e') ∧
      (SessionExact h idx p s ↔ ∀ k id, p.resolvedId idx k = some id →
        ∃ d, h.AppendedAs k id d ∧ h.table.resolveSlot uring id = some (some d)) :=
  ⟨resolve_eq_complete happend uring, sessionExact_iff_recorded happend hcomplete⟩

def minerBlock (txid : Hash) (height : ℤ) (value : BitVec 64) : ChainBlock :=
  ⟨[⟨[], [⟨value, [0x51]⟩]⟩], [txid], height⟩

/-- Spends the output of the block before, and in its last transaction its own output. -/
def chainedSpends : ChainBlock :=
  ⟨[⟨[], [⟨60, [0x51]⟩]⟩, ⟨[⟨1, 0⟩], [⟨9, [0x52]⟩]⟩, ⟨[⟨7, 0⟩], [⟨8, [0x53]⟩]⟩], [6, 7, 8], 2⟩

def chainedSteps : List DatabaseStep :=
  [.block false false (minerBlock 1 1 10), .block false false chainedSpends]

def chainedHistory : TableHistory :=
  [TableOp.append (minerBlock 1 1 10), .append chainedSpends].foldl TableHistory.apply
    (TableHistory.start [])

/-- An input from an earlier block and one from the block itself, both with their own coin. -/
theorem chained_session_exact :
    ∃ e' p s, SpendSession.append nullCoinbase 35000 false false chainedSpends
        ⟨(FlatTable.open []).appendOutputs (minerBlock 1 1 10) |>.2,
          (runDatabase nullCoinbase 35000 UtxoDatabase.empty (chainedSteps.take 1)).index⟩ =
        some (e', p) ∧
      p.complete true ⟨chainedHistory.table,
        (runDatabase nullCoinbase 35000 UtxoDatabase.empty chainedSteps).index⟩ = some s ∧
      SessionExact chainedHistory
        (runDatabase nullCoinbase 35000 UtxoDatabase.empty chainedSteps).index p s ∧
      s.detailOf ⟨1, 0⟩ = some (some (outputDetailFromParts ⟨1, 1, 10⟩ [0x51])) ∧
      s.detailOf ⟨7, 0⟩ = some (some (outputDetailFromParts ⟨2, 0, 9⟩ [0x52])) := by
  have hcoins : ((append nullCoinbase 35000 false false chainedSpends
      ⟨(FlatTable.open []).appendOutputs (minerBlock 1 1 10) |>.2,
        (runDatabase nullCoinbase 35000 empty (chainedSteps.take 1)).index⟩).bind
      (fun r => r.2.complete true ⟨chainedHistory.table,
        (runDatabase nullCoinbase 35000 empty chainedSteps).index⟩)).map
      (fun s => (s.detailOf ⟨1, 0⟩, s.detailOf ⟨7, 0⟩)) =
      some (some (some (outputDetailFromParts ⟨1, 1, 10⟩ [0x51])),
        some (some (outputDetailFromParts ⟨2, 0, 9⟩ [0x52]))) := by decide +kernel
  obtain ⟨s, hs, hdetails⟩ := map_eq_some_iff.mp hcoins
  obtain ⟨⟨e', p⟩, happend, hcomplete⟩ := bind_eq_some_iff.mp hs
  rw [Prod.mk.injEq] at hdetails
  refine ⟨e', p, s, happend, hcomplete, ?_, hdetails.1, hdetails.2⟩
  have hids : (append nullCoinbase 35000 false false chainedSpends
      ⟨(FlatTable.open []).appendOutputs (minerBlock 1 1 10) |>.2,
        (runDatabase nullCoinbase 35000 empty (chainedSteps.take 1)).index⟩).map
      (fun r => (r.2.externalKeys, r.2.intraBlockKeys,
        [⟨1, 0⟩, ⟨7, 0⟩].map (r.2.resolvedId
          (runDatabase nullCoinbase 35000 empty chainedSteps).index))) =
      some ([⟨1, 0⟩], [⟨7, 0⟩], [some (IdCodec.encode (BitVec.ofNat 64 0) 17),
        some (IdCodec.encode (BitVec.ofNat 64 34) 17)]) := by decide +kernel
  rw [happend, map_some, some.injEq, Prod.mk.injEq, Prod.mk.injEq] at hids
  obtain ⟨hexternal, hintra, hids⟩ := hids
  rw [(session_exact_iff happend hcomplete).2]
  intro k id hid
  have hk : k = ⟨1, 0⟩ ∨ k = ⟨7, 0⟩ := by
    rw [PartialSpendSession.resolvedId, hexternal, hintra] at hid
    split_ifs at hid with hfirst hsecond
    · exact .inl (mem_singleton.mp hfirst)
    · exact .inr (mem_singleton.mp hsecond)
  rw [map_cons, map_cons, cons.injEq, cons.injEq] at hids
  rcases hk with rfl | rfl
  · rw [hids.1] at hid
    cases hid
    refine ⟨outputDetailFromParts ⟨1, 1, 10⟩ [0x51], ?_⟩
    rw [AppendedAs]
    decide +kernel
  · rw [hids.2.1] at hid
    cases hid
    refine ⟨outputDetailFromParts ⟨2, 0, 9⟩ [0x52], ?_⟩
    rw [AppendedAs]
    decide +kernel

/-- Blocks 2 and 3 are rolled back and replaced. -/
def reorgHistory : TableHistory :=
  [TableOp.append (minerBlock 1 1 10), .append (minerBlock 2 2 20), .append (minerBlock 3 3 30),
    .eraseSince 2, .append (minerBlock 4 2 40), .flush 3, .append (minerBlock 5 3 50),
    .flush 4].foldl TableHistory.apply (TableHistory.start [])

def reorgIndex : UtxoIndex :=
  (runDatabase nullCoinbase 35000
    ((runDatabase nullCoinbase 35000 UtxoDatabase.empty
      [.block false false (minerBlock 1 1 10), .block false false (minerBlock 2 2 20),
        .block false false (minerBlock 3 3 30)]).eraseSince 2)
    [.block false false (minerBlock 4 2 40), .block false false (minerBlock 5 3 50)]).index

def spenderBlock : ChainBlock :=
  ⟨[⟨[], [⟨60, [0x51]⟩]⟩, ⟨[⟨4, 0⟩], [⟨39, [0x51]⟩]⟩], [6, 7], 4⟩

/-- The engine after the reorganisation, before and after the spending block. -/
def reorgEngine : SpendEngine := ⟨reorgHistory.table, reorgIndex⟩

def spentHistory : TableHistory := reorgHistory.apply (.append spenderBlock)

/-- The rolled back block 3 still waits in the tail when the new block 2 is flushed, so the two are
written in each other's place. -/
theorem input_gets_rolled_back_coin :
    ∃ e' p s, SpendSession.append nullCoinbase 35000 false false spenderBlock reorgEngine =
        some (e', p) ∧ e'.table = spentHistory.table ∧ p.complete false e' = some s ∧
      s.detailOf ⟨4, 0⟩ = some (some (outputDetailFromParts ⟨3, 1, 30⟩ [0x51])) ∧
      ¬ SessionExact spentHistory e'.index p s := by
  have hcoin : ((append nullCoinbase 35000 false false spenderBlock
      reorgEngine).bind (fun r => r.2.complete false r.1)).map (fun s => s.detailOf ⟨4, 0⟩) =
      some (some (some (outputDetailFromParts ⟨3, 1, 30⟩ [0x51]))) := by decide +kernel
  have hid : (append nullCoinbase 35000 false false spenderBlock reorgEngine).map
      (fun r => r.2.resolvedId r.1.index ⟨4, 0⟩) =
      some (some (IdCodec.encode (BitVec.ofNat 64 51) 17)) := by decide +kernel
  have hwrong : ¬ spentHistory.AppendedAs ⟨4, 0⟩ (IdCodec.encode (BitVec.ofNat 64 51) 17)
      (outputDetailFromParts ⟨3, 1, 30⟩ [0x51]) := by
    rw [AppendedAs]
    decide +kernel
  obtain ⟨s, hs, hdetail⟩ := map_eq_some_iff.mp hcoin
  obtain ⟨⟨e', p⟩, happend, hcomplete⟩ := bind_eq_some_iff.mp hs
  rw [happend, map_some, some.injEq] at hid
  refine ⟨e', p, s, happend, ?_, hcomplete, hdetail, ?_⟩
  · have hclassify := (append_eq_some happend).1
    rw [SpendEngine.appendAndClassify] at hclassify
    split_ifs at hclassify
    rw [some.injEq, Prod.mk.injEq] at hclassify
    rw [← hclassify.1]
    rfl
  · intro hexact
    obtain ⟨d, happended, hd⟩ := hexact.own _ _ hid
    rw [hdetail, some.injEq, some.injEq] at hd
    rw [← hd] at happended
    exact hwrong happended

end Sessions

end BlvmNode
