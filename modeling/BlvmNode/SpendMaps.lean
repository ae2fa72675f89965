import BlvmNode.MempoolRuns

/-!
# The spend maps of the pool

`spenders` and `spent_outputs` repeat what the pooled transactions say. Removing a transaction takes
its inputs out of both maps, and an admission inserts inputs that no pooled transaction spends once
the displaced ones have left.
-/

namespace BlvmNode

open MempoolManager

/-- The maps say exactly what the pooled transactions spend. -/
structure SpendsTracked (rules : ConsensusRules) (st : MempoolManager) : Prop where
  keyed : ∀ {h tx}, st.tx h = some tx → rules.calculateTxId tx = h
  spenders_iff : ∀ {o h}, st.spenders o = some h ↔ ∃ tx, st.tx h = some tx ∧ o ∈ tx.prevouts
  spent_iff : ∀ {o}, o ∈ st.spentOutputs ↔ (st.spenders o).isSome = true

namespace SpendsTracked

variable {rules : ConsensusRules} {st st' : MempoolManager} {o : OutPoint}

theorem new (rules : ConsensusRules) : SpendsTracked rules new where
  keyed := fun htx => absurd htx (by simp [MempoolManager.new, MempoolManager.tx,
    KeyTable.get_empty])
  spenders_iff := by
    intro o h
    simp [MempoolManager.new, MempoolManager.tx, KeyTable.get_empty]
  spent_iff := by
    intro o
    simp [MempoolManager.new]

theorem clear (rules : ConsensusRules) (st : MempoolManager) : SpendsTracked rules st.clear :=
  ⟨(new rules).keyed, (new rules).spenders_iff, (new rules).spent_iff⟩

theorem of_samePool (hsame : SamePool st st') (hst : SpendsTracked rules st) :
    SpendsTracked rules st' where
  keyed := by
    intro h tx htx
    rw [MempoolManager.tx, hsame.transactions] at htx
    exact hst.keyed htx
  spenders_iff := by
    intro o h
    rw [hsame.spenders, tx, hsame.transactions]
    exact hst.spenders_iff
  spent_iff := by
    intro o
    rw [hsame.spentOutputs, hsame.spenders]
    exact hst.spent_iff

section

variable (hst : SpendsTracked rules st)
include hst

theorem eq_of_mem_prevouts {h k : Hash} {tx tx' : RawTransaction} (htx : st.tx h = some tx)
    (htx' : st.tx k = some tx') (ho : o ∈ tx.prevouts) (ho' : o ∈ tx'.prevouts) : h = k := by
  have hh : st.spenders o = some h := hst.spenders_iff.mpr ⟨tx, htx, ho⟩
  have hk : st.spenders o = some k := hst.spenders_iff.mpr ⟨tx', htx', ho'⟩
  exact Option.some.inj (hh.symm.trans hk)

theorem removeTransaction (h : Hash) : SpendsTracked rules (st.removeTransaction h) := by
  cases htx : st.tx h with
  | none => rwa [removeTransaction_of_none htx]
  | some tx =>
    constructor
    · intro k t hk
      rw [tx_removeTransaction] at hk
      split_ifs at hk
      exact hst.keyed hk
    · intro o k
      rw [spenders_removeTransaction htx, tx_removeTransaction]
      constructor
      · intro hsp
        split_ifs at hsp with ho
        obtain ⟨t, ht, hmem⟩ := hst.spenders_iff.mp hsp
        have hne : k ≠ h := by
          rintro rfl
          rw [htx] at ht
          exact ho (Option.some.inj ht ▸ hmem)
        exact ⟨t, by rw [if_neg hne, ht], hmem⟩
      · rintro ⟨t, ht, hmem⟩
        split_ifs at ht with hk
        have ho : o ∉ tx.prevouts := fun ho => hk (hst.eq_of_mem_prevouts ht htx hmem ho)
        rw [if_neg ho]
        exact hst.spenders_iff.mpr ⟨t, ht, hmem⟩
    · intro o
      rw [mem_spentOutputs_removeTransaction htx, spenders_removeTransaction htx, hst.spent_iff]
      split_ifs with ho
      · simp [ho]
      · simp [ho]

theorem removeTransactions (ids : List Hash) : SpendsTracked rules (st.removeTransactions ids) :=
  removeTransactions_invariant (fun _ h hst => hst.removeTransaction h) ids hst

theorem insertTransaction {tx : RawTransaction} {witnesses : Option (List Witness)} {vsize fee : ℕ}
    (hfresh : ¬ st.Pooled (rules.calculateTxId tx))
    (hfree : ∀ o ∈ tx.prevouts, st.spenders o = none) :
    SpendsTracked rules (st.insertTransaction rules tx witnesses vsize fee) := by
  constructor
  · intro k t hk
    rw [tx_insertTransaction] at hk
    split_ifs at hk with hid
    · cases hk
      exact hid.symm
    · exact hst.keyed hk
  · intro o k
    rw [spenders_insertTransaction, tx_insertTransaction]
    constructor
    · intro hsp
      split_ifs at hsp with ho
      · cases hsp
        exact ⟨tx, if_pos rfl, ho⟩
      · obtain ⟨t, ht, hmem⟩ := hst.spenders_iff.mp hsp
        have hne : k ≠ rules.calculateTxId tx := by
          rintro rfl
          exact hfresh (by simp [Pooled, ht])
        exact ⟨t, by rw [if_neg hne, ht], hmem⟩
    · rintro ⟨t, ht, hmem⟩
      split_ifs at ht with hid
      · cases ht
        rw [if_pos hmem, hid]
      · have hsp : st.spenders o = some k := hst.spenders_iff.mpr ⟨t, ht, hmem⟩
        have ho : o ∉ tx.prevouts := by
          intro ho
          rw [hfree o ho] at hsp
          cases hsp
        rw [if_neg ho, hsp]
  · intro o
    rw [mem_spentOutputs_insertTransaction, spenders_insertTransaction, hst.spent_iff]
    split_ifs with ho
    · simp [ho]
    · simp [ho]

end

variable {env : MempoolEnv} {tx : RawTransaction} {witnesses : Option (List Witness)}
  {displaced : List Hash}

theorem exists_of_mem_directConflicts (hst : SpendsTracked rules st) {d : Hash}
    (hd : d ∈ st.directConflicts tx) : ∃ existing, st.tx d = some existing := by
  rw [directConflicts, List.mem_eraseDups, List.mem_filterMap] at hd
  obtain ⟨o, _, hspender⟩ := hd
  obtain ⟨existing, hex, _⟩ := hst.spenders_iff.mp hspender
  exact ⟨existing, hex⟩

theorem displace (hst : SpendsTracked rules st)
    (hset : displacementSet env st tx = some displaced) :
    SpendsTracked rules (displace rules env st tx displaced) :=
  of_samePool (samePool_displace rules hset) (hst.removeTransactions displaced)

theorem spenders_displace (hst : SpendsTracked rules st)
    (hset : displacementSet env st tx = some displaced) (ho : o ∈ tx.prevouts) :
    (MempoolManager.displace rules env st tx displaced).spenders o = none := by
  rw [Option.eq_none_iff_forall_ne_some]
  intro k hk
  obtain ⟨t, ht, hmem⟩ := (hst.displace hset).spenders_iff.mp hk
  rw [tx_displace hset] at ht
  split_ifs at ht with hin
  apply hin
  apply directConflicts_subset_displaced hset
  rw [directConflicts, List.mem_eraseDups, List.mem_filterMap]
  exact ⟨o, ho, hst.spenders_iff.mpr ⟨t, ht, hmem⟩⟩

theorem add (hst : SpendsTracked rules st) :
    SpendsTracked rules (addTransactionWithWitness rules env st tx witnesses).1 := by
  rcases @addTransactionWithWitness_cases rules env st tx witnesses with
    ⟨res, heq, _⟩ | ⟨displaced, hc⟩
  · rw [heq]
    exact hst
  · rw [addTransactionWithWitness_after hc]
    have hcleared := hst.displace hc.displacement
    split_ifs
    · apply hcleared.insertTransaction hc.not_pooled
      exact fun o ho => hst.spenders_displace hc.displacement ho
    · exact hcleared

end SpendsTracked

section ConnectedBlocks

variable (rules : ConsensusRules)

def Confirmed (block : List RawTransaction) (h : Hash) : Prop :=
  ∃ t ∈ block, rules.isCoinbase t = false ∧ rules.calculateTxId t = h

def ConflictsWith (st : MempoolManager) (block : List RawTransaction) (d : Hash) : Prop :=
  ∃ tx, st.tx d = some tx ∧ ¬ Confirmed rules block d ∧
    ∃ o ∈ tx.prevouts, ∃ t ∈ block, rules.isCoinbase t = false ∧ o ∈ t.prevouts

variable {rules} in
theorem SpendsTracked.mem_confirmedOrConflicting {st : MempoolManager}
    (hst : SpendsTracked rules st) {block : List RawTransaction} {h : Hash} :
    h ∈ confirmedOrConflicting rules st block ↔ Confirmed rules block h ∨
      ∃ d, ConflictsWith rules st block d ∧ h ∈ st.replacementPackage d := by
  have hconfirmed : ∀ {k}, k ∈ (block.filter (fun tx => !rules.isCoinbase tx)).map
      rules.calculateTxId ↔ Confirmed rules block k := by
    simp [Confirmed, and_assoc]
  -- a pooled transaction is filed under its id
  have hspender : ∀ {k}, k ∈ ((st.transactions.rows.map Prod.snd).filter fun tx =>
      tx.prevouts.any (fun o => decide (o ∈ (block.filter (fun tx => !rules.isCoinbase tx)).flatMap
        (fun tx => tx.prevouts)))).map rules.calculateTxId ↔
      ∃ tx, st.tx k = some tx ∧
        ∃ o ∈ tx.prevouts, ∃ t ∈ block, rules.isCoinbase t = false ∧ o ∈ t.prevouts := by
    intro k
    simp only [List.mem_map, List.mem_filter, List.any_eq_true, decide_eq_true_eq,
      List.mem_flatMap, Bool.not_eq_true', and_assoc]
    constructor
    · rintro ⟨_, ⟨row, hrow, rfl⟩, hspends, rfl⟩
      have htx : st.tx row.1 = some row.2 := KeyTable.get_eq_some_iff.mpr hrow
      exact ⟨row.2, by rwa [hst.keyed htx], hspends⟩
    · rintro ⟨tx, htx, hspends⟩
      exact ⟨tx, ⟨(k, tx), KeyTable.get_eq_some_iff.mp htx, rfl⟩, hspends, hst.keyed htx⟩
  rw [confirmedOrConflicting, List.mem_eraseDups]
  simp only [List.mem_append, List.mem_flatMap, List.mem_filter, decide_eq_true_eq, hconfirmed,
    hspender]
  constructor
  · rintro ((hin | ⟨tx, htx, hspends⟩) | ⟨d, ⟨⟨tx, htx, hspends⟩, hnot⟩, hmem⟩)
    · exact .inl hin
    · by_cases hin : Confirmed rules block h
      · exact .inl hin
      · exact .inr ⟨h, ⟨tx, htx, hin, hspends⟩, root_mem_replacementPackage st h⟩
    · exact .inr ⟨d, ⟨tx, htx, hnot, hspends⟩, hmem⟩
  · rintro (hin | ⟨d, ⟨tx, htx, hnot, hspends⟩, hmem⟩)
    · exact .inl (.inl hin)
    · exact .inr ⟨d, ⟨⟨tx, htx, hspends⟩, hnot⟩, hmem⟩

end ConnectedBlocks

theorem spendsTracked_run (rules : ConsensusRules) (calls : List (MempoolEnv × MempoolOp)) :
    SpendsTracked rules (MempoolOp.run rules new calls) := by
  refine List.foldlRecOn (motive := SpendsTracked rules) calls _ (SpendsTracked.new rules) ?_
  intro st hst call _
  refine MempoolOp.apply_invariant (fun _ h hst => hst.removeTransaction h)
    (fun _ _ hsame hst => hst.of_samePool hsame) ?_ hst
  obtain ⟨env, op⟩ := call
  cases op with
  | add tx witnesses => exact hst.add
  | addPackage txs => exact admitAll_invariant fun _ _ _ hst => hst.add
  | reorg disconnected witnesses connected => exact offerAll_invariant (fun _ _ hst => hst.add) _
  | clear => exact SpendsTracked.clear rules st
  | _ => trivial

/-- After every sequence of operations `spenders` maps exactly the inputs of pooled transactions to
their ids, `spent_outputs` is its key set, and nothing pooled conflicts. -/
theorem spend_maps_exact (rules : ConsensusRules) (calls : List (MempoolEnv × MempoolOp)) :
    let st := MempoolOp.run rules MempoolManager.new calls
    (∀ o h, st.spenders o = some h ↔
      ∃ tx, st.tx h = some tx ∧ rules.calculateTxId tx = h ∧ o ∈ tx.prevouts) ∧
    (∀ o, o ∈ st.spentOutputs ↔ (st.spenders o).isSome = true) ∧
    ∀ h k tx tx', st.tx h = some tx → st.tx k = some tx' → h ≠ k →
      ∀ o ∈ tx.prevouts, o ∉ tx'.prevouts := by
  intro st
  have hst : SpendsTracked rules st := spendsTracked_run rules calls
  refine ⟨fun o h => ?_, fun o => hst.spent_iff, fun h k tx tx' htx htx' hne o ho ho' => ?_⟩
  · rw [hst.spenders_iff]
    constructor
    · rintro ⟨tx, htx, ho⟩
      exact ⟨tx, htx, hst.keyed htx, ho⟩
    · rintro ⟨tx, htx, _, ho⟩
      exact ⟨tx, htx, ho⟩
  · exact hne (hst.eq_of_mem_prevouts htx htx' ho ho')

end BlvmNode
