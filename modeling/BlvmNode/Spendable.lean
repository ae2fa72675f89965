import BlvmNode.SpendMaps
import BlvmNode.RollBack

/-!
# The pool stays spendable

Every input of a pooled transaction has a coin of the chain, or an output of a pooled parent that is
linked to it. Packages are removed along the links: whoever takes the parent away takes the child
with it. A rolled back package removes transactions one by one; there the invariant also remembers
which were admitted by the call.
-/

namespace BlvmNode

open MempoolManager List Option

/-- Every input is a coin or a pooled output whose parent is linked to its child; children of
`admitted` are in `admitted`. -/
def Funded (coins : CoinView) (admitted : List Hash) (st : MempoolManager) : Prop :=
  ∀ h tx, st.tx h = some tx → ∀ o ∈ tx.prevouts, (coins o).isSome = true ∨
    o.hash ≠ h ∧ (st.poolOutput o).isSome = true ∧ h ∈ st.txDescendants.of o.hash ∧
      (o.hash ∈ admitted → h ∈ admitted)

variable {rules : ConsensusRules} {env : MempoolEnv} {coins : CoinView} {admitted ids : List Hash}
  {st st' : MempoolManager} {tx : RawTransaction} {witnesses : Option (List Witness)}
  {txs : List PackageEntry} {known : Set RawTransaction} {o : OutPoint}

theorem mem_descendants_removeTransactions {p c : Hash} (hlink : c ∈ st.txDescendants.of p)
    (hp : p ∉ ids) (hc : c ∉ ids) : c ∈ (st.removeTransactions ids).txDescendants.of p := by
  induction ids generalizing st with
  | nil => exact hlink
  | cons h ids ih =>
    rw [mem_cons, not_or] at hp hc
    rw [removeTransactions, foldl_cons, ← removeTransactions]
    apply ih _ hp.2 hc.2
    by_cases hpooled : st.Pooled h
    · rw [mem_descendants_removeTransaction hpooled]
      exact ⟨hp.1, hlink, fun hself => hc.1 hself.2⟩
    · rw [removeTransaction_of_none (by simpa [Pooled] using hpooled)]
      exact hlink

theorem poolOutput_of_tx_eq (htx : st'.tx o.hash = st.tx o.hash) :
    st'.poolOutput o = st.poolOutput o := by
  rw [poolOutput, htx, poolOutput]

theorem pooled_of_poolOutput (ho : (st.poolOutput o).isSome) : st.Pooled o.hash := by
  rw [poolOutput] at ho
  cases htx : st.tx o.hash with
  | none => simp [htx] at ho
  | some tx => simp [Pooled, htx]

namespace Funded

theorem of_samePool (hsame : SamePool st st') (hst : Funded coins admitted st) :
    Funded coins admitted st' := by
  intro h tx htx o ho
  rw [hsame.tx] at htx
  rw [poolOutput_of_tx_eq (hsame.tx o.hash), hsame.txDescendants]
  exact hst h tx htx o ho

/-- Transactions leave and the coins change: what stays has its coins, also for every parent that
left. -/
theorem removeTransactions {coins' : CoinView} (hst : Funded coins admitted st)
    (hcoins : ∀ h tx, st.tx h = some tx → h ∉ ids → ∀ o ∈ tx.prevouts, (coins o).isSome →
      (coins' o).isSome)
    (hparents : ∀ h tx, st.tx h = some tx → h ∉ ids → ∀ o ∈ tx.prevouts, o.hash ∈ ids →
      (st.poolOutput o).isSome → h ∈ st.txDescendants.of o.hash →
      (coins' o).isSome) : Funded coins' admitted (st.removeTransactions ids) := by
  intro h tx htx o ho
  rw [tx_removeTransactions] at htx
  split_ifs at htx with hh
  rcases hst h tx htx o ho with hcoin | ⟨hne, hout, hlink, hadmitted⟩
  · exact .inl (hcoins h tx htx hh o ho hcoin)
  · by_cases hparent : o.hash ∈ ids
    · exact .inl (hparents h tx htx hh o ho hparent hout hlink)
    · refine .inr ⟨hne, ?_, mem_descendants_removeTransactions hlink hparent hh, hadmitted⟩
      rw [poolOutput, tx_removeTransactions, if_neg hparent]
      exact hout

theorem mem_children_of_link {p h : Hash} (htx : st.tx h = some tx)
    (hlink : h ∈ st.txDescendants.of p) : h ∈ st.children p := by
  rw [children, mem_filter, decide_eq_true_eq]
  exact ⟨hlink, by simp [Pooled, htx]⟩

theorem removeClosed (hst : Funded coins admitted st)
    (hclosed : ∀ p ∈ ids, ∀ c ∈ st.children p, c ∈ ids) :
    Funded coins admitted (st.removeTransactions ids) := by
  refine hst.removeTransactions (fun _ _ _ _ _ _ hcoin => hcoin) ?_
  intro h tx htx hh o _ hparent _ hlink
  exact absurd (hclosed _ hparent h (mem_children_of_link htx hlink)) hh

theorem insertTransaction {vsize fee : ℕ} (hst : Funded coins admitted st)
    (hfresh : ¬ st.Pooled (rules.calculateTxId tx))
    (hinputs : ∀ o ∈ tx.prevouts, (coins o).isSome ∨ (st.poolOutput o).isSome) :
    Funded coins (rules.calculateTxId tx :: admitted)
      (st.insertTransaction rules tx witnesses vsize fee) := by
  have houtput : ∀ o, (st.poolOutput o).isSome → o.hash ≠ rules.calculateTxId tx ∧
      ((st.insertTransaction rules tx witnesses vsize fee).poolOutput o).isSome := by
    intro o ho
    have hne : o.hash ≠ rules.calculateTxId tx :=
      fun heq => hfresh (heq ▸ pooled_of_poolOutput ho)
    rw [poolOutput, tx_insertTransaction, if_neg hne]
    exact ⟨hne, ho⟩
  intro h t ht o ho
  rw [tx_insertTransaction] at ht
  split_ifs at ht with hh
  · cases ht
    refine (hinputs o ho).imp_right fun hout => ?_
    obtain ⟨hne, hnew⟩ := houtput o hout
    refine ⟨hh ▸ hne, hnew, ?_, fun _ => by simp [hh]⟩
    rw [mem_descendants_insertTransaction]
    exact .inr ⟨hh, mem_map.mpr ⟨o, ho, rfl⟩, .inl (pooled_of_poolOutput hout)⟩
  · refine (hst h t ht o ho).imp_right ?_
    rintro ⟨hself, hout, hlink, hadmitted⟩
    obtain ⟨hne, hnew⟩ := houtput o hout
    refine ⟨hself, hnew, (mem_descendants_insertTransaction st).mpr (.inl hlink), ?_⟩
    intro hmem
    rcases mem_cons.mp hmem with heq | hmem
    · exact absurd heq hne
    · exact mem_cons_of_mem _ (hadmitted hmem)

end Funded

section Admissions

variable {displaced : List Hash}

/-- The wired set and the point-read of a call read the coins of the chain. -/
structure ReadsChain (coins : CoinView) (env : MempoolEnv) : Prop where
  wired : ∃ utxoSet, env.utxoSet = some utxoSet ∧
    ∀ o, (utxoSet o).isSome = true → (coins o).isSome = true
  pointRead : ∀ o, (env.snapshotPrevout o).isSome = true → (coins o).isSome = true

theorem ReadsChain.snapshot (henv : ReadsChain coins env)
    (ho : (admissionSnapshot env st tx o).isSome) : (coins o).isSome := by
  obtain ⟨utxoSet, hwired, hcoins⟩ := henv.wired
  rw [admissionSnapshot] at ho
  by_cases hmem : o ∈ tx.prevouts
  · simp only [if_pos hmem, confirmedCoins, hwired] at ho
    cases hutxo : utxoSet o with
    | some coin => exact hcoins o (by simp [hutxo])
    | none =>
      rw [hutxo] at ho
      by_cases hcreates : st.mempoolCreates o
      · simp [hcreates] at ho
      · simp only [hcreates] at ho
        exact henv.pointRead o ho
  · simp [hmem] at ho

theorem known_of_checks (hwired : env.utxoSet.isSome)
    (h : checksReject rules env st tx witnesses = false) (ho : o ∈ tx.prevouts) :
    (admissionSnapshot env st tx o).isSome ∨ (st.poolOutput o).isSome := by
  have hunknown : st.unknownPrevout (admissionSnapshot env st tx) tx env.utxoSet.isSome
      = false := by
    simp only [checksReject, inputRejects, Bool.or_eq_false_iff] at h
    tauto
  rw [unknownPrevout, hwired, Bool.true_and, List.any_eq_false] at hunknown
  have hboth := hunknown o ho
  rw [mempoolCreates] at hboth
  cases hview : admissionSnapshot env st tx o with
  | some coin => exact .inl rfl
  | none =>
    rw [hview] at hboth
    simpa [Option.isSome_iff_ne_none] using hboth

/-- The replacement check refuses an input whose coin is absent from its view. -/
def RefusesUnknownInputs (rules : ConsensusRules) : Prop :=
  ∀ new existing view pool witnesses,
    rules.replacementChecks new existing view pool witnesses = .ok true →
      ∀ o ∈ new.prevouts, (view o).isSome = true

theorem parent_not_displaced (htracked : SpendsTracked rules st)
    (hrules : RefusesUnknownInputs rules) (hc : Clears rules env st tx witnesses displaced)
    (ho : o ∈ tx.prevouts) (hview : admissionSnapshot env st tx o = none) : o.hash ∉ displaced := by
  intro hin
  obtain ⟨d, hd, hpackage⟩ := (mem_displaced hc.displacement).mp hin
  obtain ⟨existing, hex⟩ := htracked.exists_of_mem_directConflicts hd
  have hdirect := (hc.replacement (ne_nil_of_mem hin)).2
  have hrbf := (checkRbfReplacementWithWitness_ok (checkDirectConflicts_ok hdirect hd hex)).2
  have hcoin := hrules _ _ _ _ _ hrbf o ho
  rw [replacementInputView, if_pos (mem_append_left _ ho), hview, htracked.keyed hex] at hcoin
  simp [hpackage] at hcoin

theorem Funded.displace (hst : Funded coins admitted st)
    (hset : displacementSet env st tx = some displaced) :
    Funded coins admitted (displace rules env st tx displaced) := by
  refine of_samePool (samePool_displace rules hset) (hst.removeClosed ?_)
  intro p hp c hchild
  obtain ⟨d, hd, hpackage⟩ := (mem_displaced hset).mp hp
  exact (mem_displaced hset).mpr ⟨d, hd, children_subset_replacementPackage hpackage hchild⟩

theorem Funded.add (hst : Funded coins admitted st) (htracked : SpendsTracked rules st)
    (hrules : RefusesUnknownInputs rules) (henv : ReadsChain coins env) : Funded coins
      (if (addTransactionWithWitness rules env st tx witnesses).2 = .ok true then
        rules.calculateTxId tx :: admitted else admitted)
      (addTransactionWithWitness rules env st tx witnesses).1 := by
  rcases @addTransactionWithWitness_cases rules env st tx witnesses with
    ⟨res, heq, hres⟩ | ⟨displaced, hc⟩
  · rw [heq, if_neg hres]
    exact hst
  · have hcleared : Funded coins admitted (MempoolManager.displace rules env st tx displaced) :=
      hst.displace hc.displacement
    rw [addTransactionWithWitness_after hc]
    split_ifs with hlimits hok
    · apply hcleared.insertTransaction hc.not_pooled
      intro o ho
      obtain ⟨utxoSet, hwired, _⟩ := henv.wired
      cases hview : admissionSnapshot env st tx o with
      | some coin => exact .inl (henv.snapshot (by rw [hview]; rfl))
      | none =>
        have hout := known_of_checks (by rw [hwired]; rfl) hc.checks ho
        rw [hview] at hout
        have hstays := parent_not_displaced htracked hrules hc ho hview
        rw [poolOutput, tx_displace hc.displacement, if_neg hstays]
        exact .inr (hout.resolve_left nofun)
    · exact absurd rfl hok
    · next hok => cases hok
    · exact hcleared

theorem Funded.addAlone (hst : Funded coins [] st) (htracked : SpendsTracked rules st)
    (hrules : RefusesUnknownInputs rules) (henv : ReadsChain coins env) :
    Funded coins [] (addTransactionWithWitness rules env st tx witnesses).1 := by
  intro h t ht o ho
  refine ((@Funded.add rules env coins [] st tx witnesses hst htracked hrules henv)
    h t ht o ho).imp_right ?_
  rintro ⟨hne, hout, hlink, _⟩
  exact ⟨hne, hout, hlink, nofun⟩

theorem pooled_before_or_added {h : Hash} {t : RawTransaction}
    (ht : (addTransactionWithWitness rules env st tx witnesses).1.tx h = some t) :
    st.tx h = some t ∨
      t = tx ∧ h = rules.calculateTxId tx ∧ checksReject rules env st tx witnesses = false := by
  rcases @addTransactionWithWitness_cases rules env st tx witnesses with
    ⟨res, heq, _⟩ | ⟨displaced, hc⟩
  · rw [heq] at ht
    exact .inl ht
  · have hcleared : ∀ h t, (displace rules env st tx displaced).tx h = some t →
        st.tx h = some t := by
      intro h t ht
      rw [tx_displace hc.displacement] at ht
      split_ifs at ht
      exact ht
    rw [addTransactionWithWitness_after hc] at ht
    split_ifs at ht
    · rw [tx_insertTransaction] at ht
      split_ifs at ht with hid
      · exact .inr ⟨(some.inj ht).symm, hid, hc.checks⟩
      · exact .inl (hcleared h t ht)
    · exact .inl (hcleared h t ht)

end Admissions

section Packages

theorem Funded.congr {admitted' : List Hash} (hst : Funded coins admitted st)
    (hiff : ∀ h, h ∈ admitted' ↔ h ∈ admitted) : Funded coins admitted' st := by
  intro h tx htx o ho
  rw [hiff, hiff]
  exact hst h tx htx o ho

theorem admittedIds_cons (entry : PackageEntry) (flag : Bool) (flags : List Bool) :
    admittedIds rules (entry :: txs) (flag :: flags) =
      (if flag then [rules.calculateTxId entry.1] else []) ++ admittedIds rules txs flags := by
  cases flag <;> simp [admittedIds, packageIds]

theorem Funded.admitAll (hst : Funded coins admitted st) (htracked : SpendsTracked rules st)
    (hrules : RefusesUnknownInputs rules) (henv : ReadsChain coins env) :
    Funded coins (admittedIds rules txs (admitAll rules env st txs).2.1 ++ admitted)
      (admitAll rules env st txs).1 := by
  induction txs generalizing st admitted with
  | nil => exact hst
  | cons entry rest ih =>
    have hnext := @Funded.add rules env coins admitted st entry.1 entry.2 hst htracked hrules henv
    have htracked' : SpendsTracked rules
        (addTransactionWithWitness rules env st entry.1 entry.2).1 := htracked.add
    rcases hres : addTransactionWithWitness rules env st entry.1 entry.2 with ⟨st', e | flag⟩
    · rw [hres] at hnext
      rw [admitAll_cons_error hres]
      exact hnext.congr fun h => by simp [admittedIds]
    · rw [hres] at hnext htracked'
      rw [admitAll_cons_ok hres, admittedIds_cons]
      refine (ih hnext htracked').congr fun h => ?_
      cases flag with
      | false => simp
      | true =>
        simp only [if_true, mem_append, mem_cons, not_mem_nil, or_false]
        tauto

theorem tx_new (h : Hash) : MempoolManager.new.tx h = none := by
  rw [MempoolManager.tx, MempoolManager.new, KeyTable.get_empty]

/-- Transactions of a set in which the id determines the transaction. -/
structure KnownPool (rules : ConsensusRules) (known : Set RawTransaction) (st : MempoolManager) :
    Prop where
  tracked : SpendsTracked rules st
  mem : ∀ {h tx}, st.tx h = some tx → tx ∈ known

theorem KnownPool.new : KnownPool rules known MempoolManager.new :=
  ⟨SpendsTracked.new rules, fun htx => by simp [tx_new] at htx⟩

theorem KnownPool.removeTransaction (hst : KnownPool rules known st) (h : Hash) :
    KnownPool rules known (st.removeTransaction h) where
  tracked := hst.tracked.removeTransaction h
  mem := by
    intro k tx htx
    rw [tx_removeTransaction] at htx
    split_ifs at htx
    exact hst.mem htx

theorem KnownPool.of_samePool (hsame : SamePool st st')
    (hst : KnownPool rules known st) : KnownPool rules known st' where
  tracked := hst.tracked.of_samePool hsame
  mem := fun htx => hst.mem (by rwa [hsame.tx] at htx)

theorem KnownPool.add (hst : KnownPool rules known st) (htx : tx ∈ known) :
    KnownPool rules known (addTransactionWithWitness rules env st tx witnesses).1 where
  tracked := hst.tracked.add
  mem := by
    intro h t ht
    rcases pooled_before_or_added ht with hbefore | ⟨rfl, _⟩
    · exact hst.mem hbefore
    · exact htx

theorem Funded.rollBack {start : RollState} {waived : Finset Hash}
    (hinj : Set.InjOn rules.calculateTxId known) (hpool : KnownPool rules known start.1)
    (htxs : ∀ entry ∈ txs, entry.1 ∈ known) (hlen : start.2.length ≤ txs.length)
    (hstart : Funded coins (admittedIds rules txs start.2) start.1) :
    Funded coins [] (rollBack rules txs waived start).1 := by
  have hrolled := @RolledFrom.rollBack rules txs start waived
  have hstable : ∀ (k : ℕ) entry, txs[k]? = some entry →
      (MempoolManager.rollBack rules txs waived start).2[k]? = some true →
      parentMissing rules txs (MempoolManager.rollBack rules txs waived start).2 entry.1 = false :=
    fun k entry hk hflag => rollBack_stable hlen hk hflag
  have hmem : ∀ (k : ℕ) entry, txs[k]? = some entry → entry.1 ∈ known :=
    fun k entry hk => htxs entry (mem_of_getElem? hk)
  generalize MempoolManager.rollBack rules txs waived start = acc at hrolled hstable ⊢
  intro h tx htx o ho
  have hfrom : start.1.tx h = some tx := by
    rcases hrolled.kept h with heq | hnone
    · rw [← heq, htx]
    · rw [htx] at hnone
      cases hnone
  refine (hstart h tx hfrom o ho).imp_right ?_
  rintro ⟨hne, hout, hlink, hadmitted⟩
  rcases hrolled.kept o.hash with heq | hnone
  · have hparent : acc.1.Pooled o.hash := by
      rw [Pooled, heq]
      exact pooled_of_poolOutput hout
    rw [poolOutput_of_tx_eq heq]
    exact ⟨hne, hout, hrolled.links _ _ hlink hparent (by simp [Pooled, htx]), by simp⟩
  · -- the parent was dropped, so the child was admitted by this call and is an orphan
    exfalso
    obtain ⟨k, entry, hk, hid, hparent, hflag, hreason⟩ :=
      hrolled.dropped o.hash (pooled_of_poolOutput hout) hnone
    obtain ⟨m, hm, hset⟩ := mem_admittedIds_iff.mp (hadmitted hparent)
    have hkeeps : acc.2[m]? = some true := by
      by_contra hclear
      rw [hrolled.cleared m h hm hset hclear] at htx
      cases htx
    rw [getElem?_packageIds, map_eq_some_iff] at hm
    obtain ⟨child, hchild, hchildId⟩ := hm
    have hsame : child.1 = tx := hinj (hmem m child hchild) (hpool.mem hfrom)
      (hchildId.trans (hpool.tracked.keyed hfrom).symm)
    have hfirst : acc.2[(packageIds rules txs).idxOf o.hash]? = some true := by
      by_contra hclear
      have hmissing : parentMissing rules txs acc.2 child.1 :=
        parentMissing_iff.mpr ⟨o, hsame ▸ ho, mem_packageIds_of_admitted hparent, hclear⟩
      rw [hstable m child hchild hkeeps] at hmissing
      cases hmissing
    rcases hreason with hplace | hmissing
    · rw [hid] at hplace
      exact hflag (hplace ▸ hfirst)
    · have hplace := getElem?_idxOf (mem_packageIds_of_admitted hparent)
      rw [getElem?_packageIds, map_eq_some_iff] at hplace
      obtain ⟨first, hentry, hfirstId⟩ := hplace
      have hsameParent : first.1 = entry.1 := hinj (hmem _ first hentry) (hmem k entry hk)
        (hfirstId.trans hid.symm)
      rw [← hsameParent, hstable _ first hentry hfirst] at hmissing
      cases hmissing

end Packages

section Blocks

variable (rules) (height : ℕ)

def connectTx (coins : CoinView) (tx : RawTransaction) : CoinView := fun o =>
  match if o.hash = rules.calculateTxId tx then tx.outputs[o.index.toNat]? else none with
  | some output =>
    some ⟨output.value, output.scriptPubkey, BitVec.ofNat 64 height, rules.isCoinbase tx⟩
  | none => if rules.isCoinbase tx = false ∧ o ∈ tx.prevouts then none else coins o

def connectBlockCoins (coins : CoinView) (block : List RawTransaction) : CoinView :=
  block.foldl (connectTx rules height) coins

variable {rules height} {block : List RawTransaction}

theorem isSome_connectTx (hcoin : (coins o).isSome)
    (hspent : rules.isCoinbase tx = false → o ∉ tx.prevouts) :
    (connectTx rules height coins tx o).isSome := by
  rw [connectTx]
  split
  · rfl
  · rw [if_neg fun hspends => hspent hspends.1 hspends.2]
    exact hcoin

theorem isSome_connectBlockCoins (hcoin : (coins o).isSome)
    (hspent : ∀ tx ∈ block, rules.isCoinbase tx = false → o ∉ tx.prevouts) :
    (connectBlockCoins rules height coins block o).isSome :=
  foldlRecOn (motive := fun coins : CoinView => (coins o).isSome) block _ hcoin
    (fun _ hcoin tx htx => isSome_connectTx hcoin (hspent tx htx))

theorem isSome_connectBlockCoins_of_created (htx : tx ∈ block)
    (hid : o.hash = rules.calculateTxId tx) (hout : (tx.outputs[o.index.toNat]?).isSome)
    (hspent : ∀ tx ∈ block, rules.isCoinbase tx = false → o ∉ tx.prevouts) :
    (connectBlockCoins rules height coins block o).isSome := by
  obtain ⟨before, after, rfl⟩ := append_of_mem htx
  rw [connectBlockCoins, foldl_append, foldl_cons, ← connectBlockCoins, ← connectBlockCoins]
  apply isSome_connectBlockCoins
  · obtain ⟨output, hget⟩ := isSome_iff_exists.mp hout
    rw [connectTx, if_pos hid, hget]
    rfl
  · intro other hother
    exact hspent other (mem_append_right _ (mem_cons_of_mem _ hother))

theorem Funded.connectBlock (hinj : Set.InjOn rules.calculateTxId known)
    (hpool : KnownPool rules known st) (hblock : ∀ tx ∈ block, tx ∈ known)
    (hst : Funded coins [] st) : Funded (connectBlockCoins rules height coins block) []
      (removeForConnectedBlock rules st block) := by
  have hgone : ∀ {h}, h ∈ confirmedOrConflicting rules st block ↔ _ :=
    hpool.tracked.mem_confirmedOrConflicting
  have hspent : ∀ h tx, st.tx h = some tx → h ∉ confirmedOrConflicting rules st block →
      ∀ o ∈ tx.prevouts, ∀ t ∈ block, rules.isCoinbase t = false → o ∉ t.prevouts := by
    intro h tx htx hh o ho t ht hcoinbase hspends
    rw [hgone, not_or] at hh
    exact hh.2 ⟨h, ⟨tx, htx, hh.1, o, ho, t, ht, hcoinbase, hspends⟩,
      root_mem_replacementPackage st h⟩
  refine hst.removeTransactions ?_ ?_
  · intro h tx htx hh o ho hcoin
    exact isSome_connectBlockCoins hcoin (hspent h tx htx hh o ho)
  · intro h tx htx hh o ho hparent hout hlink
    have hchild := mem_children_of_link htx hlink
    -- the parent is in the block: otherwise the child would have been removed with it
    have hconfirmed : Confirmed rules block o.hash := by
      refine (hgone.mp hparent).resolve_right ?_
      rintro ⟨d, hd, hmem⟩
      exact hh (hgone.mpr (.inr ⟨d, hd, children_subset_replacementPackage hmem hchild⟩))
    obtain ⟨parent, hinBlock, _, hid⟩ := hconfirmed
    refine isSome_connectBlockCoins_of_created hinBlock hid.symm ?_ (hspent h tx htx hh o ho)
    rw [poolOutput] at hout
    obtain ⟨pooled, hpooled⟩ := isSome_iff_exists.mp (pooled_of_poolOutput hout)
    have hsame : parent = pooled := hinj (hblock parent hinBlock) (hpool.mem hpooled)
      (hid.trans (hpool.tracked.keyed hpooled).symm)
    rw [hpooled] at hout
    rw [hsame]
    exact hout

end Blocks

section Runs

variable (rules)

def MempoolOp.transactions : MempoolOp → List RawTransaction
  | .add tx _ => [tx]
  | .addPackage txs => txs.map Prod.fst
  | .connectBlock block => block
  | .reorg disconnected _ connected => disconnected.flatten ++ connected.flatten
  | _ => []

/-- The pool and the chain's coins after an operation, those of the new tip after a connected block.
-/
def chainStep (s : MempoolManager × CoinView) (call : MempoolEnv × MempoolOp) :
    MempoolManager × CoinView :=
  (MempoolOp.apply rules s.1 call,
    match call.2 with
    | .connectBlock block => connectBlockCoins rules (nextBlock call.1).1 s.2 block
    | _ => s.2)

/-- Admissions, packages, evictions and connected blocks, over the coins of the chain. -/
def ExtendsChain (s : MempoolManager × CoinView) (call : MempoolEnv × MempoolOp) : Prop :=
  ReadsChain s.2 call.1 ∧
    match call.2 with
    | .remove _ => False
    | .reorg _ _ _ => False
    | .clear => False
    | _ => True

variable {rules} {s : MempoolManager × CoinView} {call : MempoolEnv × MempoolOp}

theorem knownPool_apply (hpool : KnownPool rules known s.1)
    (hknown : ∀ tx ∈ call.2.transactions, tx ∈ known) (hcall : ExtendsChain s call) :
    KnownPool rules known (MempoolOp.apply rules s.1 call) := by
  refine MempoolOp.apply_invariant (fun _ h hst => hst.removeTransaction h)
    (fun _ _ hsame hst => hst.of_samePool hsame) ?_ hpool
  obtain ⟨env, op⟩ := call
  cases op with
  | add tx witnesses => exact hpool.add (hknown tx mem_cons_self)
  | addPackage txs =>
    refine admitAll_invariant fun st entry hentry hst => ?_
    exact hst.add (hknown _ (mem_map.mpr ⟨entry, hentry, rfl⟩))
  | reorg disconnected witnesses connected | clear => exact hcall.2.elim
  | _ => trivial

theorem funded_evict (h : Hash) (hst : Funded coins [] st) :
    Funded coins [] (evictWithDescendants rules st h).1 := by
  rw [evictWithDescendants_eq]
  split_ifs
  · exact hst.removeClosed fun p hp c hc => children_subset_replacementPackage hp hc
  · exact hst

theorem funded_addPackage (hrules : RefusesUnknownInputs rules)
    (hinj : Set.InjOn rules.calculateTxId known) (hpool : KnownPool rules known st)
    (htxs : ∀ entry ∈ txs, entry.1 ∈ known) (henv : ReadsChain coins env)
    (hst : Funded coins [] st) : Funded coins [] (addPackageWithWitnesses rules env st txs).1 := by
  rw [addPackageWithWitnesses]
  split_ifs
  · exact hst
  · exact hst
  · have harmed : SamePool st (armWaivers rules env st txs) := samePool_armWaivers rules env st txs
    set offered := admitAll rules env (armWaivers rules env st txs) txs
    have hdropped := samePool_dropWaivers offered.1
    have hoffered : KnownPool rules known offered.1 :=
      admitAll_invariant (fun st entry hentry hst => hst.add (htxs entry hentry))
        (hpool.of_samePool harmed)
    apply Funded.rollBack hinj (hoffered.of_samePool hdropped) htxs
    · exact length_flags_admitAll_le _ _
    · have hfunded : Funded coins (admittedIds rules txs offered.2.1 ++ []) offered.1 :=
        (hst.of_samePool harmed).admitAll (hpool.of_samePool harmed).tracked hrules henv
      rw [append_nil] at hfunded
      exact hfunded.of_samePool hdropped

theorem funded_apply (hrules : RefusesUnknownInputs rules)
    (hinj : Set.InjOn rules.calculateTxId known) (hpool : KnownPool rules known s.1)
    (hknown : ∀ tx ∈ call.2.transactions, tx ∈ known)
    (hcall : ExtendsChain s call) (hst : Funded s.2 [] s.1) :
    Funded (chainStep rules s call).2 [] (chainStep rules s call).1 := by
  obtain ⟨env, op⟩ := call
  cases op with
  | add tx witnesses => exact hst.addAlone hpool.tracked hrules hcall.1
  | addPackage txs =>
    refine funded_addPackage hrules hinj hpool (fun entry hentry => ?_) hcall.1 hst
    exact hknown _ (mem_map.mpr ⟨entry, hentry, rfl⟩)
  | evict order targetBytes targetTxCount =>
    exact evictOrdered_invariant (fun _ h => funded_evict h) order targetBytes targetTxCount hst
  | expire expired => exact expire_invariant (fun _ h => funded_evict h) expired hst
  | connectBlock block => exact hst.connectBlock hinj hpool hknown
  | prioritise h feeDelta => exact hst.of_samePool (samePool_prioritise s.1 h feeDelta)
  | remove h | reorg disconnected witnesses connected | clear => exact hcall.2.elim

end Runs

/-- In every run of admissions, packages, evictions and connected blocks, every input of a pooled
transaction is a coin of the current tip or another pooled output. Ids of the run are taken to be
unique. -/
theorem pool_stays_spendable (rules : ConsensusRules) (hrules : RefusesUnknownInputs rules)
    (coins : CoinView) (calls : List (MempoolEnv × MempoolOp))
    (hinj : Set.InjOn rules.calculateTxId {tx | ∃ call ∈ calls, tx ∈ call.2.transactions})
    (hcalls : GuardedRun.Guarded (chainStep rules) ExtendsChain (MempoolManager.new, coins) calls)
    (n : ℕ) :
    let s := (calls.take n).foldl (chainStep rules) (MempoolManager.new, coins)
    ∀ h tx, s.1.tx h = some tx → ∀ o ∈ tx.prevouts, (s.2 o).isSome = true ∨
      ∃ parent, o.hash ≠ h ∧ s.1.tx o.hash = some parent ∧
        (parent.outputs[o.index.toNat]?).isSome = true := by
  intro s
  have hguarded := (GuardedRun.guarded_take hcalls n).and_forall
    (Q := fun call => ∀ tx ∈ call.2.transactions,
      tx ∈ {tx | ∃ call ∈ calls, tx ∈ call.2.transactions})
    (fun call hcall tx htx => ⟨call, mem_of_mem_take hcall, htx⟩)
  have hs := GuardedRun.stable
    (P := fun s : MempoolManager × CoinView =>
      KnownPool rules {tx | ∃ call ∈ calls, tx ∈ call.2.transactions} s.1 ∧ Funded s.2 [] s.1)
    (fun s call hcall hst => ⟨knownPool_apply hst.1 hcall.2 hcall.1,
      funded_apply hrules hinj hst.1 hcall.2 hcall.1 hst.2⟩)
    ⟨KnownPool.new, fun h tx htx => by simp [tx_new] at htx⟩ hguarded
  intro h tx htx o ho
  refine (hs.2 h tx htx o ho).imp_right ?_
  rintro ⟨hne, hout, _, _⟩
  obtain ⟨parent, hparent⟩ := isSome_iff_exists.mp (pooled_of_poolOutput hout)
  change s.1.tx o.hash = some parent at hparent
  refine ⟨parent, hne, hparent, ?_⟩
  rw [poolOutput, hparent] at hout
  exact hout

section Concrete

theorem laxRules_refusesUnknownInputs : RefusesUnknownInputs laxRules := by
  intro new existing view pool witnesses hok o ho
  have hall := Except.ok.inj hok
  rw [Bool.and_eq_true, Bool.and_eq_true] at hall
  exact all_eq_true.mp hall.1.2 o ho

def confirmCalls : List (MempoolEnv × MempoolOp) :=
  chainCalls ++ [(wiredEnv [(confirmedOutput, plainCoin 11000#64)], .connectBlock [parentTx])]

def confirmCoins : CoinView := fun o =>
  if confirmedOutput = o then some (plainCoin 11000#64) else none

theorem readsChain_confirmCoins :
    ReadsChain confirmCoins (wiredEnv [(confirmedOutput, plainCoin 11000#64)]) where
  wired := by
    refine ⟨_, rfl, fun o ho => ?_⟩
    rw [confirmCoins]
    by_cases heq : confirmedOutput = o
    · simp [heq]
    · simp [heq] at ho
  pointRead := fun o ho => by simp [wiredEnv] at ho

theorem pool_stays_spendable_confirmCalls :
    (let s := (confirmCalls.take 3).foldl (chainStep laxRules) (MempoolManager.new, confirmCoins)
     ∀ h tx, s.1.tx h = some tx → ∀ o ∈ tx.prevouts, (s.2 o).isSome = true ∨
      ∃ parent, o.hash ≠ h ∧ s.1.tx o.hash = some parent ∧
        (parent.outputs[o.index.toNat]?).isSome = true) ∧
    (let s := (confirmCalls.take 3).foldl (chainStep laxRules) (MempoolManager.new, confirmCoins)
     s.1.tx 2#256 = some childTx ∧ s.1.tx 1#256 = none) := by
  refine ⟨pool_stays_spendable laxRules laxRules_refusesUnknownInputs confirmCoins confirmCalls ?_
    ⟨⟨readsChain_confirmCoins, trivial⟩, ⟨readsChain_confirmCoins, trivial⟩,
      ⟨readsChain_confirmCoins, trivial⟩, trivial⟩ 3, by decide +kernel⟩
  have htxs : ∀ tx, (∃ call ∈ confirmCalls, tx ∈ call.2.transactions) →
      tx = parentTx ∨ tx = childTx := by
    rintro tx ⟨call, hcall, htx⟩
    simp only [confirmCalls, chainCalls, cons_append, nil_append, mem_cons,
      not_mem_nil, or_false] at hcall
    rcases hcall with rfl | rfl | rfl
    · exact .inl (mem_singleton.mp htx)
    · exact .inr (mem_singleton.mp htx)
    · exact .inl (mem_singleton.mp htx)
  intro tx htx tx' htx' heq
  rcases htxs tx htx with rfl | rfl <;> rcases htxs tx' htx' with rfl | rfl
  · rfl
  · exact absurd heq (by decide)
  · exact absurd heq (by decide)
  · rfl

end Concrete

end BlvmNode
