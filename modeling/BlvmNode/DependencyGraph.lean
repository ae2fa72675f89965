import BlvmNode.SpendMaps

/-!
# The dependency graph and the spend relation

Links are made when the child is inserted and torn down when either end leaves. They are the spend
relation as long as no transaction is inserted below a pooled child and the pool is not cleared with
transactions in it.
-/

namespace BlvmNode

open MempoolManager Function MempoolOp

def MempoolManager.Spends (st : MempoolManager) (child parent : Hash) : Prop :=
  ∃ tx, st.tx child = some tx ∧ parent ∈ tx.prevouts.map (fun o => o.hash) ∧ st.Pooled parent

/-- The graph is the spend relation, and nothing is recorded for what is not pooled. -/
structure Linked (st : MempoolManager) : Prop where
  dependencies_iff : ∀ {c p}, p ∈ st.txDependencies.of c ↔ st.Spends c p
  descendants_iff : ∀ {c p}, c ∈ st.txDescendants.of p ↔ st.Spends c p
  wtxids : ∀ {h}, (st.wtxids h).isSome = true → st.Pooled h
  txWitnesses : ∀ {h}, (st.txWitnesses h).isSome = true → st.Pooled h
  adjustedVsize : ∀ {h}, (st.adjustedVsize h).isSome = true → st.Pooled h

theorem spends_iff_of_samePool {st st' : MempoolManager} (hsame : SamePool st st') {c p : Hash} :
    st'.Spends c p ↔ st.Spends c p := by
  simp only [Spends, hsame.tx, hsame.pooled_iff]

theorem spends_removeTransactions_iff {st : MempoolManager} {ids : List Hash} {c p : Hash} :
    (st.removeTransactions ids).Spends c p ↔ st.Spends c p ∧ c ∉ ids ∧ p ∉ ids := by
  simp only [Spends, Pooled, tx_removeTransactions]
  constructor
  · rintro ⟨tx, htx, hmem, hp⟩
    split_ifs at htx hp with hc hpids
    · cases hp
    · exact ⟨⟨tx, htx, hmem, hp⟩, hc, hpids⟩
  · rintro ⟨⟨tx, htx, hmem, hp⟩, hc, hpids⟩
    exact ⟨tx, by rw [if_neg hc, htx], hmem, by rwa [if_neg hpids]⟩

theorem spends_removeTransaction_iff {st : MempoolManager} {h c p : Hash} :
    (st.removeTransaction h).Spends c p ↔ st.Spends c p ∧ c ≠ h ∧ p ≠ h := by
  simpa [removeTransactions] using @spends_removeTransactions_iff st [h] c p

namespace Linked

variable {rules : ConsensusRules} {st st' : MempoolManager}

theorem new : Linked MempoolManager.new := by
  constructor <;> simp [MempoolManager.new, Spends, MempoolManager.tx,
    LinkMap.of, KeyTable.get_empty]

theorem of_samePool (hsame : SamePool st st') (hst : Linked st) : Linked st' where
  dependencies_iff := by
    intro c p
    rw [hsame.txDependencies, spends_iff_of_samePool hsame]
    exact hst.dependencies_iff
  descendants_iff := by
    intro c p
    rw [hsame.txDescendants, spends_iff_of_samePool hsame]
    exact hst.descendants_iff
  wtxids := by
    intro h hh
    rw [hsame.wtxids] at hh
    exact hsame.pooled_iff.mpr (hst.wtxids hh)
  txWitnesses := by
    intro h hh
    rw [hsame.txWitnesses] at hh
    exact hsame.pooled_iff.mpr (hst.txWitnesses hh)
  adjustedVsize := by
    intro h hh
    rw [hsame.adjustedVsize] at hh
    exact hsame.pooled_iff.mpr (hst.adjustedVsize hh)

theorem recorded_removeTransaction {α : Type} {record : Hash → Option α} {h k : Hash}
    (hrecord : ∀ {k}, (record k).isSome → st.Pooled k)
    (hk : (update record h none k).isSome) : (st.removeTransaction h).Pooled k := by
  by_cases hkh : k = h
  · simp [hkh] at hk
  · rw [update_of_ne hkh] at hk
    exact pooled_removeTransaction_iff.mpr ⟨hrecord hk, hkh⟩

theorem removeTransaction (hst : Linked st) (h : Hash) : Linked (st.removeTransaction h) := by
  cases htx : st.tx h with
  | none => rwa [removeTransaction_of_none htx]
  | some tx =>
    have hpooled : st.Pooled h := by simp [Pooled, htx]
    have hfields : (st.removeTransaction h).wtxids = update st.wtxids h none ∧
        (st.removeTransaction h).txWitnesses = update st.txWitnesses h none ∧
        (st.removeTransaction h).adjustedVsize = update st.adjustedVsize h none := by
      simp only [MempoolManager.removeTransaction, htx, and_self]
    obtain ⟨hwtxids, hwits, hvsize⟩ := hfields
    constructor
    · intro c p
      rw [mem_dependencies_removeTransaction hpooled, spends_removeTransaction_iff,
        hst.dependencies_iff, hst.descendants_iff]
      constructor
      · rintro ⟨hc, hsp, hlink⟩
        refine ⟨hsp, hc, ?_⟩
        rintro rfl
        exact hlink ⟨hsp, rfl⟩
      · rintro ⟨hsp, hc, hp⟩
        exact ⟨hc, hsp, fun hlink => hp hlink.2⟩
    · intro c p
      rw [mem_descendants_removeTransaction hpooled, spends_removeTransaction_iff,
        hst.dependencies_iff, hst.descendants_iff]
      constructor
      · rintro ⟨hp, hsp, hlink⟩
        refine ⟨hsp, ?_, hp⟩
        rintro rfl
        exact hlink ⟨hsp, rfl⟩
      · rintro ⟨hsp, hc, hp⟩
        exact ⟨hp, hsp, fun hlink => hc hlink.2⟩
    · intro k hk
      rw [hwtxids] at hk
      exact recorded_removeTransaction hst.wtxids hk
    · intro k hk
      rw [hwits] at hk
      exact recorded_removeTransaction hst.txWitnesses hk
    · intro k hk
      rw [hvsize] at hk
      exact recorded_removeTransaction hst.adjustedVsize hk

theorem removeTransactions (hst : Linked st) (ids : List Hash) :
    Linked (st.removeTransactions ids) :=
  removeTransactions_invariant (fun _ h hst => hst.removeTransaction h) ids hst

theorem insertTransaction (hst : Linked st) {tx : RawTransaction}
    {witnesses : Option (List Witness)} {vsize fee : ℕ}
    (hfresh : ¬ st.Pooled (rules.calculateTxId tx))
    (hchild : ∀ h t, st.tx h = some t → rules.calculateTxId tx ∉ t.prevouts.map (fun o => o.hash)) :
    Linked (st.insertTransaction rules tx witnesses vsize fee) := by
  have hspends : ∀ c p, (st.insertTransaction rules tx witnesses vsize fee).Spends c p ↔
      st.Spends c p ∨ c = rules.calculateTxId tx ∧ p ∈ tx.prevouts.map (fun o => o.hash) ∧
        (st.Pooled p ∨ p = rules.calculateTxId tx) := by
    intro c p
    simp only [Spends, pooled_insertTransaction_iff, tx_insertTransaction]
    constructor
    · rintro ⟨t, ht, hmem, hp⟩
      split_ifs at ht with hc
      · cases ht
        exact .inr ⟨hc, hmem, hp⟩
      · refine .inl ⟨t, ht, hmem, hp.resolve_right ?_⟩
        rintro rfl
        exact hchild c t ht hmem
    · rintro (⟨t, ht, hmem, hp⟩ | ⟨hc, hmem, hp⟩)
      · have hc : c ≠ rules.calculateTxId tx := by
          rintro rfl
          exact hfresh (by simp [Pooled, ht])
        exact ⟨t, by rw [if_neg hc, ht], hmem, .inl hp⟩
      · exact ⟨tx, if_pos hc, hmem, hp⟩
  have hrecord : ∀ {α : Type} {record : Hash → Option α} {value : α} {k : Hash},
      (∀ {k}, (record k).isSome → st.Pooled k) →
      (update record (rules.calculateTxId tx) (some value) k).isSome →
      (st.insertTransaction rules tx witnesses vsize fee).Pooled k := by
    intro α record value k hold hk
    rw [pooled_insertTransaction_iff]
    by_cases hid : k = rules.calculateTxId tx
    · exact .inr hid
    · rw [update_of_ne hid] at hk
      exact .inl (hold hk)
  constructor
  · intro c p
    rw [mem_dependencies_insertTransaction, hspends, hst.dependencies_iff]
  · intro c p
    rw [mem_descendants_insertTransaction, hspends, hst.descendants_iff]
  · exact fun hk => hrecord hst.wtxids hk
  · intro k hk
    cases witnesses with
    | none => exact pooled_insertTransaction_iff.mpr (.inl (hst.txWitnesses hk))
    | some wits => exact hrecord hst.txWitnesses hk
  · exact fun hk => hrecord hst.adjustedVsize hk

theorem clear (hst : Linked st) (hempty : ∀ h, ¬ st.Pooled h) : Linked st.clear := by
  have hspends : ∀ c p, st.clear.Spends c p ↔ st.Spends c p := by
    intro c p
    constructor
    · rintro ⟨t, ht, _⟩
      simp [MempoolManager.clear, MempoolManager.tx, KeyTable.get_empty] at ht
    · rintro ⟨t, ht, _⟩
      exact absurd (by simp [Pooled, ht]) (hempty c)
  constructor
  · intro c p
    rw [hspends]
    exact hst.dependencies_iff
  · intro c p
    rw [hspends]
    exact hst.descendants_iff
  · exact fun hk => absurd (hst.wtxids hk) (hempty _)
  · exact fun hk => absurd (hst.txWitnesses hk) (hempty _)
  · exact fun hk => absurd (hst.adjustedVsize hk) (hempty _)

end Linked

section Guards

variable (rules : ConsensusRules) (env : MempoolEnv)

/-- No pooled transaction that the admission leaves in place refers to the new one. -/
def ChildFree (st : MempoolManager) (tx : RawTransaction) : Prop :=
  ∀ h t, st.tx h = some t → rules.calculateTxId tx ∈ t.prevouts.map (fun o => o.hash) →
    h ∈ st.txsThisReplacementRemoves tx

def ChildFreeOffers : MempoolManager → List PackageEntry → Prop
  | _, [] => True
  | st, entry :: rest => ChildFree rules st entry.1 ∧
      ChildFreeOffers (addTransactionWithWitness rules env st entry.1 entry.2).1 rest

/-- Nothing is inserted below a pooled child, and only an empty pool is cleared. -/
def KeepsGraph (st : MempoolManager) (call : MempoolEnv × MempoolOp) : Prop :=
  match call.2 with
  | .add tx _ => ChildFree rules st tx
  | .addPackage txs => ChildFreeOffers rules call.1 (armWaivers rules call.1 st txs) txs
  | .reorg disconnected witnesses connected =>
    ChildFreeOffers rules call.1 (connected.foldl (removeForConnectedBlock rules) st)
      (disconnectedEntries rules disconnected witnesses)
  | .clear => ∀ h, ¬ st.Pooled h
  | _ => True

instance (st : MempoolManager) (tx : RawTransaction) : Decidable (ChildFree rules st tx) :=
  decidable_of_iff (∀ row ∈ st.transactions.rows,
      rules.calculateTxId tx ∈ row.2.prevouts.map (fun o => o.hash) →
        row.1 ∈ st.txsThisReplacementRemoves tx) (by
    constructor
    · exact fun h k t ht => h (k, t) (KeyTable.get_eq_some_iff.mp ht)
    · exact fun h row hrow => h row.1 row.2 (KeyTable.get_eq_some_iff.mpr hrow))

end Guards

variable {rules : ConsensusRules} {env : MempoolEnv} {st : MempoolManager} {tx : RawTransaction}
  {witnesses : Option (List Witness)}

theorem mem_children (hgraph : ∀ {c p}, c ∈ st.txDescendants.of p ↔ st.Spends c p) {c p : Hash} :
    c ∈ st.children p ↔ st.Spends c p := by
  rw [children, List.mem_filter, hgraph, decide_eq_true_eq, and_iff_left_iff_imp]
  rintro ⟨tx, htx, _⟩
  simp [Pooled, htx]

namespace Linked

theorem displace {displaced : List Hash} (hst : Linked st)
    (hset : displacementSet env st tx = some displaced) :
    Linked (displace rules env st tx displaced) :=
  of_samePool (samePool_displace rules hset) (hst.removeTransactions displaced)

theorem add (hst : Linked st) (hfree : ChildFree rules st tx) :
    Linked (addTransactionWithWitness rules env st tx witnesses).1 := by
  rcases @addTransactionWithWitness_cases rules env st tx witnesses with
    ⟨res, heq, _⟩ | ⟨displaced, hc⟩
  · rw [heq]
    exact hst
  · rw [addTransactionWithWitness_after hc]
    have hcleared : Linked (MempoolManager.displace rules env st tx displaced) :=
      hst.displace hc.displacement
    split_ifs
    · apply hcleared.insertTransaction hc.not_pooled
      intro h t ht hmem
      rw [tx_displace hc.displacement] at ht
      split_ifs at ht with hin
      apply hin
      rw [mem_displaced hc.displacement, ← mem_txsThisReplacementRemoves]
      exact hfree h t ht hmem
    · exact hcleared

theorem admitAll {txs : List PackageEntry} (hst : Linked st)
    (hfree : ChildFreeOffers rules env st txs) : Linked (admitAll rules env st txs).1 := by
  induction txs generalizing st with
  | nil => exact hst
  | cons entry rest ih =>
    have hnext : Linked (addTransactionWithWitness rules env st entry.1 entry.2).1 :=
      hst.add hfree.1
    have hlater := hfree.2
    rcases hres : addTransactionWithWitness rules env st entry.1 entry.2 with ⟨st', e | flag⟩
    · rw [hres] at hnext
      rw [admitAll_cons_error hres]
      exact hnext
    · rw [hres] at hnext hlater
      rw [admitAll_cons_ok hres]
      exact ih hnext hlater

theorem offerAll {entries : List PackageEntry} (hst : Linked st)
    (hfree : ChildFreeOffers rules env st entries) : Linked (offerAll rules env st entries) := by
  induction entries generalizing st with
  | nil => exact hst
  | cons entry rest ih => exact ih (hst.add hfree.1) hfree.2

theorem apply (hst : Linked st) {call : MempoolEnv × MempoolOp}
    (hcall : KeepsGraph rules st call) : Linked (apply rules st call) := by
  refine apply_invariant (fun _ h hst => hst.removeTransaction h)
    (fun _ _ hsame hst => hst.of_samePool hsame) ?_ hst
  obtain ⟨env, op⟩ := call
  cases op with
  | add tx witnesses => exact hst.add hcall
  | addPackage txs => exact fun harmed => harmed.admitAll hcall
  | reorg disconnected witnesses connected => exact fun hreached => hreached.offerAll hcall
  | clear => exact hst.clear hcall
  | _ => trivial

end Linked

theorem linked_run {calls : List (MempoolEnv × MempoolOp)}
    (hcalls : GuardedRun.Guarded (apply rules) (KeepsGraph rules) new
      calls) : Linked (run rules new calls) :=
  GuardedRun.stable (P := Linked) (fun _ _ hcall hst => hst.apply hcall) Linked.new hcalls

/-- In every run whose operations keep the graph it is the spend relation after each of them, with
no record for a transaction that is not pooled. -/
theorem graph_is_spend_relation (rules : ConsensusRules) (calls : List (MempoolEnv × MempoolOp))
    (hcalls : GuardedRun.Guarded (MempoolOp.apply rules) (KeepsGraph rules) MempoolManager.new
      calls) (n : ℕ) : Linked (MempoolOp.run rules MempoolManager.new (calls.take n)) :=
  linked_run (GuardedRun.guarded_take hcalls n)

/-- A connected block removes what it confirms and what conflicts with it, the latter with every
pooled descendant. All that is recorded for another transaction stays, with its links to the
transactions that stay. -/
theorem connected_block_removes_exactly (rules : ConsensusRules) (st : MempoolManager)
    (block : List RawTransaction) (hst : SpendsTracked rules st) (hlinked : Linked st) :
    let after := removeForConnectedBlock rules st block
    let Removed h := Confirmed rules block h ∨
      ∃ d, ConflictsWith rules st block d ∧ Relation.ReflTransGen (fun p c => st.Spends c p) d h
    ∀ h, (after.Pooled h ↔ st.Pooled h ∧ ¬ Removed h) ∧
      (¬ Removed h → after.tx h = st.tx h ∧ after.records h = st.records h ∧
        after.feeData h = st.feeData h ∧
        ∀ k, (k ∈ after.txDependencies.of h ↔ k ∈ st.txDependencies.of h ∧ ¬ Removed k) ∧
          (k ∈ after.txDescendants.of h ↔ k ∈ st.txDescendants.of h ∧ ¬ Removed k)) := by
  intro after Removed h
  have hids : ∀ k, k ∈ confirmedOrConflicting rules st block ↔ Removed k := by
    intro k
    rw [hst.mem_confirmedOrConflicting]
    simp only [mem_replacementPackage, Worklist.Reaches, mem_children hlinked.descendants_iff,
      Removed]
  have hafter : Linked after := hlinked.removeTransactions _
  have hspends : ∀ {c p}, after.Spends c p ↔ _ := spends_removeTransactions_iff
  have htx : after.tx h = _ := tx_removeTransactions _ h
  simp only [← hids]
  refine ⟨?_, fun hkept => ⟨?_, ?_, feeData_removeTransactions hkept, fun k => ⟨?_, ?_⟩⟩⟩
  · rw [Pooled, htx, Pooled]
    split_ifs with hgone
    · simp [hgone]
    · simp [hgone]
  · rw [htx, if_neg hkept]
  · exact (records_removeTransactions _ h).trans (if_neg fun hgone => hkept hgone.1)
  · rw [hafter.dependencies_iff, hlinked.dependencies_iff, hspends]
    tauto
  · rw [hafter.descendants_iff, hlinked.descendants_iff, hspends]
    tauto

section Concrete

theorem keepsGraph_chain : GuardedRun.Guarded (apply laxRules) (KeepsGraph laxRules)
    new chainCalls := by
  have hparent : ChildFree laxRules new parentTx := by decide +kernel
  have hchild : ChildFree laxRules (run laxRules new
      (chainCalls.take 1)) childTx := by decide +kernel
  exact ⟨hparent, hchild, trivial⟩

theorem graph_is_spend_relation_chain :
    Linked (MempoolOp.run laxRules MempoolManager.new (chainCalls.take 2)) ∧
      (MempoolOp.run laxRules MempoolManager.new chainCalls).Spends 2#256 1#256 := by
  refine ⟨graph_is_spend_relation laxRules chainCalls keepsGraph_chain 2, childTx, ?_⟩
  decide +kernel

theorem connected_block_removes_exactly_rival :
    let st := MempoolOp.run laxRules MempoolManager.new chainCalls
    let block := [plainTx 3 [confirmedOutput] [9000#64]]
    st.Pooled 2#256 ∧ ¬ Confirmed laxRules block 2#256 ∧ ∃ d, ConflictsWith laxRules st block d ∧
      Relation.ReflTransGen (fun p c => st.Spends c p) d 2#256 := by
  intro st block
  have hpooled : st.Pooled 2#256 := by decide +kernel
  have hgone : ¬ (removeForConnectedBlock laxRules st block).Pooled 2#256 := by decide +kernel
  have hnot : ¬ Confirmed laxRules block 2#256 := by simp [Confirmed, block, laxRules, plainTx]
  have hexact := connected_block_removes_exactly laxRules st block (spendsTracked_run laxRules _)
    (linked_run keepsGraph_chain) 2#256
  refine ⟨hpooled, hnot, ?_⟩
  by_contra hkept
  exact hgone (hexact.1.mpr ⟨hpooled, not_or.mpr ⟨hnot, hkept⟩⟩)

/-- A reorg puts the parent of a pooled child into the pool without a link. A cleared pool keeps its
records. -/
theorem reorg_parent_not_linked :
    (let st := MempoolOp.run laxRules MempoolManager.new
      [(wiredEnv [(⟨1#256, 0#32⟩, plainCoin 10000#64)], .add childTx none),
        (wiredEnv [(confirmedOutput, plainCoin 11000#64)], .reorg [[parentTx]] [] [])]
     st.tx 1#256 = some parentTx ∧ st.tx 2#256 = some childTx ∧
       1#256 ∈ childTx.prevouts.map (fun o => o.hash) ∧ 2#256 ∉ st.txDescendants.of 1#256 ∧
       1#256 ∉ st.txDependencies.of 2#256) ∧
    (let st := MempoolOp.run laxRules MempoolManager.new (chainCalls ++ [(wiredEnv [], .clear)])
     ¬ st.Pooled 1#256 ∧ (st.wtxids 1#256).isSome = true ∧
       (st.adjustedVsize 1#256).isSome = true ∧ 2#256 ∈ st.txDescendants.of 1#256) := by
  decide +kernel

end Concrete

end BlvmNode
