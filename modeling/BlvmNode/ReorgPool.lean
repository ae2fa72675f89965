import BlvmNode.DependencyGraph
import BlvmNode.Spendable

/-!
# The pool after a switch of branches

`apply_reorg` drops what the new branch confirms or conflicts with and offers the transactions of
the old branch again. None of them conflicts with the pool, which was spendable on the old chain, so
the offers only add. A pooled transaction may rest on an output that only the old branch created; it
stays spendable only if the creator of that output is offered and admitted.
-/

namespace BlvmNode

open MempoolManager List KeyTable

variable (rules : ConsensusRules)

def connectBlocks : ℕ → CoinView → List (List RawTransaction) → CoinView
  | _, coins, [] => coins
  | height, coins, block :: rest =>
    connectBlocks (height + 1) (connectBlockCoins rules height coins block) rest

def tipCoins (chain : List (List RawTransaction)) : CoinView :=
  connectBlocks rules 0 (fun _ => none) chain

def createsOutput (o : OutPoint) (tx : RawTransaction) : Bool :=
  decide (o.hash = rules.calculateTxId tx) && (tx.outputs[o.index.toNat]?).isSome

def spendsOutput (o : OutPoint) (tx : RawTransaction) : Bool :=
  !rules.isCoinbase tx && decide (o ∈ tx.prevouts)

/-- Whether an output is a coin after a transaction, when `present` tells whether it was before. -/
def unspentAfter (o : OutPoint) (present : Bool) (tx : RawTransaction) : Bool :=
  createsOutput rules o tx || !spendsOutput rules o tx && present

/-- An id names one transaction, and all but coinbases spend something, and only outputs of earlier
ones. -/
structure OrderedChain (chain : List (List RawTransaction)) : Prop where
  distinct : (chain.flatten.map rules.calculateTxId).Nodup
  spends : ∀ before tx after, chain.flatten = before ++ tx :: after →
    rules.isCoinbase tx = false → tx.prevouts ≠ [] ∧
      ∀ o ∈ tx.prevouts, ∃ parent ∈ before, rules.calculateTxId parent = o.hash

def SpendsOnce (chain : List (List RawTransaction)) : Prop :=
  ∀ tx ∈ chain.flatten, ∀ tx' ∈ chain.flatten, rules.isCoinbase tx = false →
    rules.isCoinbase tx' = false → ∀ o ∈ tx.prevouts, o ∈ tx'.prevouts → tx = tx'

instance decidableSpendsOnce (chain : List (List RawTransaction)) :
    Decidable (SpendsOnce rules chain) :=
  inferInstanceAs (Decidable (∀ tx ∈ chain.flatten, ∀ tx' ∈ chain.flatten,
    rules.isCoinbase tx = false → rules.isCoinbase tx' = false →
      ∀ o ∈ tx.prevouts, o ∈ tx'.prevouts → tx = tx'))

/-- A coinbase has an input, and its inputs name no transaction. -/
def NullCoinbases (known : Set RawTransaction) : Prop :=
  ∀ tx ∈ known, rules.isCoinbase tx = true → tx.prevouts ≠ [] ∧
    ∀ o ∈ tx.prevouts, ∀ t ∈ known, rules.calculateTxId t ≠ o.hash

variable {rules} {height : ℕ} {coins : CoinView} {o : OutPoint} {chain : List (List RawTransaction)}

theorem isSome_connectTx_eq (tx : RawTransaction) :
    (connectTx rules height coins tx o).isSome = unspentAfter rules o (coins o).isSome tx := by
  have hspent : (if rules.isCoinbase tx = false ∧ o ∈ tx.prevouts then none
      else coins o).isSome = (!spendsOutput rules o tx && (coins o).isSome) := by
    rw [spendsOutput]
    cases rules.isCoinbase tx <;> by_cases ho : o ∈ tx.prevouts <;> simp [ho]
  rw [connectTx, unspentAfter, createsOutput]
  by_cases hid : o.hash = rules.calculateTxId tx
  · cases tx.outputs[o.index.toNat]? with
    | some output => simp [hid]
    | none => simp [hid, hspent]
  · simp [hid, hspent]

theorem isSome_connectBlockCoins_eq (block : List RawTransaction) :
    (connectBlockCoins rules height coins block o).isSome =
      block.foldl (unspentAfter rules o) (coins o).isSome :=
  (foldl_hom (fun coins : CoinView => (coins o).isSome)
    fun _ tx => (isSome_connectTx_eq tx).symm).symm

theorem isSome_connectBlocks (blocks : List (List RawTransaction)) :
    (connectBlocks rules height coins blocks o).isSome =
      blocks.flatten.foldl (unspentAfter rules o) (coins o).isSome := by
  induction blocks generalizing height coins with
  | nil => rfl
  | cons block rest ih =>
    rw [connectBlocks, ih, isSome_connectBlockCoins_eq, flatten_cons, foldl_append]

theorem connectBlocks_append (xs ys : List (List RawTransaction)) :
    connectBlocks rules height coins (xs ++ ys) =
      connectBlocks rules (height + xs.length) (connectBlocks rules height coins xs) ys := by
  induction xs generalizing height coins with
  | nil => rfl
  | cons block xs ih =>
    rw [cons_append, connectBlocks, connectBlocks, ih, length_cons]
    congr 1
    omega

theorem created_of_unspent {txs : List RawTransaction} {present : Bool}
    (hcoin : txs.foldl (unspentAfter rules o) present = true) :
    present = true ∨ ∃ tx ∈ txs, createsOutput rules o tx = true := by
  revert hcoin
  refine foldlRecOn (motive := fun b => b = true → present = true ∨
    ∃ tx ∈ txs, createsOutput rules o tx = true) txs _ Or.inl ?_
  intro b ih tx htx hb
  rw [unspentAfter, Bool.or_eq_true] at hb
  rcases hb with hcreates | hkept
  · exact .inr ⟨tx, htx, hcreates⟩
  · exact ih (Bool.and_eq_true_iff.mp hkept).2

theorem created_of_tipCoins (hcoin : (tipCoins rules chain o).isSome = true) :
    ∃ tx ∈ chain.flatten, createsOutput rules o tx = true := by
  rw [tipCoins, isSome_connectBlocks] at hcoin
  exact (created_of_unspent hcoin).resolve_left (nofun)

variable {tx : RawTransaction} {before after : List RawTransaction}

theorem hash_of_createsOutput (h : createsOutput rules o tx) : o.hash = rules.calculateTxId tx := by
  rw [createsOutput, Bool.and_eq_true] at h
  exact of_decide_eq_true h.1

theorem OrderedChain.parent_ne (hchain : OrderedChain rules chain) {parent t : RawTransaction}
    (hsplit : chain.flatten = before ++ tx :: after) (hparent : parent ∈ before)
    (ht : t ∈ tx :: after) : rules.calculateTxId parent ≠ rules.calculateTxId t := by
  have hdistinct := hchain.distinct
  rw [hsplit, map_append] at hdistinct
  exact (nodup_append.mp hdistinct).2.2 _ (mem_map_of_mem hparent) _
    (mem_map_of_mem ht)

theorem OrderedChain.tipCoins_of_spent (hchain : OrderedChain rules chain)
    (htx : tx ∈ chain.flatten) (hcoinbase : rules.isCoinbase tx = false)
    (ho : o ∈ tx.prevouts) : (tipCoins rules chain o).isSome = false := by
  obtain ⟨before, after, hsplit⟩ := append_of_mem htx
  obtain ⟨parent, hparent, hid⟩ := (hchain.spends before tx after hsplit hcoinbase).2 o ho
  have hcreates : ∀ t ∈ tx :: after, createsOutput rules o t = false := by
    intro t ht
    rw [Bool.eq_false_iff]
    intro hcreates
    exact hchain.parent_ne hsplit hparent ht (hid.trans (hash_of_createsOutput hcreates))
  rw [tipCoins, isSome_connectBlocks, hsplit, foldl_append, foldl_cons]
  have hspent : ∀ present, unspentAfter rules o present tx = false := by
    intro present
    simp [unspentAfter, hcreates tx mem_cons_self, spendsOutput, hcoinbase, ho]
  rw [hspent, Bool.eq_false_iff]
  intro hcoin
  obtain ⟨t, ht, hcreated⟩ := (created_of_unspent hcoin).resolve_left (nofun)
  rw [hcreates t (mem_cons_of_mem _ ht)] at hcreated
  cases hcreated

theorem isSome_tipCoins_append (xs ys : List (List RawTransaction)) :
    (tipCoins rules (xs ++ ys) o).isSome =
      ys.flatten.foldl (unspentAfter rules o) (tipCoins rules xs o).isSome := by
  rw [tipCoins, tipCoins, isSome_connectBlocks, isSome_connectBlocks, flatten_append, foldl_append]

/-- Checks a list of transactions whose predecessors have the ids `seen`. -/
def parentsEarlier (rules : ConsensusRules) : List Hash → List RawTransaction → Bool
  | _, [] => true
  | seen, tx :: rest =>
    (rules.isCoinbase tx ||
      !tx.prevouts.isEmpty && tx.prevouts.all (fun o => decide (o.hash ∈ seen))) &&
    parentsEarlier rules (rules.calculateTxId tx :: seen) rest

theorem parentsEarlier_split {seen : List Hash}
    (hcheck : parentsEarlier rules seen (before ++ tx :: after))
    (hcoinbase : rules.isCoinbase tx = false) : tx.prevouts ≠ [] ∧ ∀ o ∈ tx.prevouts,
      o.hash ∈ seen ∨ ∃ parent ∈ before, rules.calculateTxId parent = o.hash := by
  induction before generalizing seen with
  | nil =>
    rw [nil_append, parentsEarlier, hcoinbase, Bool.false_or, Bool.and_eq_true,
      Bool.and_eq_true] at hcheck
    refine ⟨by simpa using hcheck.1.1, fun o ho => .inl ?_⟩
    exact of_decide_eq_true (all_eq_true.mp hcheck.1.2 o ho)
  | cons first before ih =>
    rw [cons_append, parentsEarlier, Bool.and_eq_true] at hcheck
    obtain ⟨hsome, hparents⟩ := ih hcheck.2
    refine ⟨hsome, fun o ho => ?_⟩
    rcases hparents o ho with hseen | ⟨parent, hparent, hid⟩
    · rcases mem_cons.mp hseen with hfirst | hseen
      · exact .inr ⟨first, mem_cons_self, hfirst.symm⟩
      · exact .inl hseen
    · exact .inr ⟨parent, mem_cons_of_mem _ hparent, hid⟩

theorem OrderedChain.of_check (hdistinct : (chain.flatten.map rules.calculateTxId).Nodup)
    (hcheck : parentsEarlier rules [] chain.flatten) : OrderedChain rules chain where
  distinct := hdistinct
  spends := by
    intro before tx after hsplit hcoinbase
    obtain ⟨hsome, hparents⟩ := parentsEarlier_split (hsplit ▸ hcheck) hcoinbase
    exact ⟨hsome, fun o ho => (hparents o ho).resolve_left not_mem_nil⟩

variable {env : MempoolEnv} {known : Set RawTransaction} {coins' : CoinView} {st : MempoolManager}

section Pools

/-- Every input is a coin or an output of another pooled transaction. -/
def SpendablePool (coins : CoinView) (st : MempoolManager) : Prop :=
  ∀ h tx, st.tx h = some tx → ∀ o ∈ tx.prevouts, (coins o).isSome = true ∨
    o.hash ≠ h ∧ (st.poolOutput o).isSome = true

theorem exists_known_of_poolOutput (hpool : KnownPool rules known st)
    (hout : (st.poolOutput o).isSome) :
    ∃ t ∈ known, st.tx o.hash = some t ∧ rules.calculateTxId t = o.hash := by
  obtain ⟨t, ht⟩ := Option.isSome_iff_exists.mp (pooled_of_poolOutput hout)
  exact ⟨t, hpool.mem ht, ht, hpool.tracked.keyed ht⟩

theorem poolOutput_mono {st' : MempoolManager}
    (hgrows : ∀ h t, st.tx h = some t → st'.tx h = some t)
    (hout : (st.poolOutput o).isSome = true) : (st'.poolOutput o).isSome = true := by
  obtain ⟨parent, hparent⟩ := Option.isSome_iff_exists.mp (pooled_of_poolOutput hout)
  rw [poolOutput, hparent] at hout
  rw [poolOutput, hgrows _ _ hparent]
  exact hout

variable {blocks : List (List RawTransaction)} {h : Hash}

theorem not_coinbase_of_pooled (hnull : NullCoinbases rules known)
    (hknown : ∀ tx ∈ chain.flatten, tx ∈ known) (hpool : KnownPool rules known st)
    (hst : SpendablePool (tipCoins rules chain) st)
    (htx : st.tx h = some tx) : rules.isCoinbase tx = false := by
  rw [Bool.eq_false_iff]
  intro hcoinbase
  obtain ⟨hsome, hnames⟩ := hnull tx (hpool.mem htx) hcoinbase
  obtain ⟨o, ho⟩ := exists_mem_of_ne_nil _ hsome
  rcases hst h tx htx o ho with hcoin | ⟨_, hout⟩
  · obtain ⟨t, ht, hcreates⟩ := created_of_tipCoins hcoin
    exact hnames o ho t (hknown t ht) (hash_of_createsOutput hcreates).symm
  · obtain ⟨t, ht, _, hid⟩ := exists_known_of_poolOutput hpool hout
    exact hnames o ho t ht hid

/-- A spendable pool holds no confirmed transaction: the first confirmed one would spend an output
the chain has spent, so its parent would be pooled too. -/
theorem unconfirmed_of_spendable (hinj : Set.InjOn rules.calculateTxId known)
    (hnull : NullCoinbases rules known) (hchain : OrderedChain rules chain)
    (hknown : ∀ tx ∈ chain.flatten, tx ∈ known) (hpool : KnownPool rules known st)
    (hst : SpendablePool (tipCoins rules chain) st)
    (htx : tx ∈ chain.flatten) : st.tx (rules.calculateTxId tx) = none := by
  obtain ⟨before, after, hsplit⟩ := append_of_mem htx
  clear htx
  induction hlen : before.length using Nat.strong_induction_on generalizing before tx after with
  | _ n ih =>
    have htx : tx ∈ chain.flatten := hsplit ▸ mem_append_right _ mem_cons_self
    refine Option.eq_none_iff_forall_ne_some.mpr fun pooled hpooled => ?_
    obtain rfl : pooled = tx := hinj (hpool.mem hpooled) (hknown tx htx)
      (hpool.tracked.keyed hpooled)
    have hcoinbase := not_coinbase_of_pooled hnull hknown hpool hst hpooled
    obtain ⟨hsome, hparents⟩ := hchain.spends before pooled after hsplit hcoinbase
    obtain ⟨o, ho⟩ := exists_mem_of_ne_nil _ hsome
    obtain ⟨parent, hparent, hid⟩ := hparents o ho
    rcases hst _ pooled hpooled o ho with hcoin | ⟨_, hout⟩
    · rw [hchain.tipCoins_of_spent htx hcoinbase ho] at hcoin
      cases hcoin
    · obtain ⟨earlier, later, rfl⟩ := append_of_mem hparent
      have hshort : earlier.length < n := by
        rw [← hlen, length_append, length_cons]
        omega
      have hnone := ih earlier.length hshort earlier (later ++ pooled :: after)
        (by rw [hsplit, append_assoc, cons_append]) rfl
      have hparentPooled := pooled_of_poolOutput hout
      rw [Pooled, ← hid, hnone] at hparentPooled
      cases hparentPooled

theorem KnownPool.removeForConnectedBlock (hpool : KnownPool rules known st)
    (block : List RawTransaction) :
    KnownPool rules known (removeForConnectedBlock rules st block) :=
  removeTransactions_invariant (fun _ h hst => hst.removeTransaction h) _ hpool

theorem KnownPool.connectAll (hpool : KnownPool rules known st)
    (blocks : List (List RawTransaction)) :
    KnownPool rules known (blocks.foldl (MempoolManager.removeForConnectedBlock rules) st) :=
  foldlRecOn (motive := KnownPool rules known) blocks _ hpool
    (fun _ hst block _ => hst.removeForConnectedBlock block)

theorem Funded.mono {admitted : List Hash} (hst : Funded coins admitted st)
    (hcoins : ∀ o, (coins o).isSome → (coins' o).isSome) : Funded coins' admitted st :=
  fun h tx htx o ho => (hst h tx htx o ho).imp_left (hcoins o)

theorem Funded.connectAll (hinj : Set.InjOn rules.calculateTxId known)
    (hpool : KnownPool rules known st) (height : ℕ)
    (hblocks : ∀ tx ∈ blocks.flatten, tx ∈ known) (hst : Funded coins [] st) :
    Funded (connectBlocks rules height coins blocks) []
      (blocks.foldl (removeForConnectedBlock rules) st) := by
  induction blocks generalizing height coins st with
  | nil => exact hst
  | cons block rest ih =>
    rw [flatten_cons] at hblocks
    rw [connectBlocks, foldl_cons]
    apply ih (hpool.removeForConnectedBlock block)
    · exact fun tx htx => hblocks tx (mem_append_right _ htx)
    · exact hst.connectBlock hinj hpool fun tx htx => hblocks tx (mem_append_left _ htx)

theorem tx_connectAll (htx : (blocks.foldl (removeForConnectedBlock rules) st).tx h = some tx) :
    st.tx h = some tx ∧ ∀ t ∈ blocks.flatten, rules.isCoinbase t = false →
      h ≠ rules.calculateTxId t := by
  induction blocks generalizing st with
  | nil => exact ⟨htx, nofun⟩
  | cons block rest ih =>
    rw [foldl_cons] at htx
    obtain ⟨hkept, hrest⟩ := ih htx
    rw [removeForConnectedBlock, tx_removeTransactions] at hkept
    split_ifs at hkept with hgone
    refine ⟨hkept, ?_⟩
    rw [flatten_cons]
    intro t ht hcoinbase
    rcases mem_append.mp ht with hfirst | hlater
    · rintro rfl
      apply hgone
      rw [confirmedOrConflicting, mem_eraseDups]
      refine mem_append_left _ (mem_append_left _ (mem_map.mpr ⟨t, ?_, rfl⟩))
      rw [mem_filter, hcoinbase]
      exact ⟨hfirst, rfl⟩
    · exact hrest t hlater hcoinbase

end Pools

section Switches

variable (rules)

/-- Two branches over a common chain, all of them oldest block first. -/
structure Switch where
  base : List (List RawTransaction)
  disconnected : List (List RawTransaction)
  connected : List (List RawTransaction)

namespace Switch

def oldChain (s : Switch) : List (List RawTransaction) := s.base ++ s.disconnected

def newChain (s : Switch) : List (List RawTransaction) := s.base ++ s.connected

end Switch

/-- Both chains are ordered, and in `known`, which holds them and the pool, ids are unique. -/
structure ValidSwitch (known : Set RawTransaction) (s : Switch) : Prop where
  oldOrdered : OrderedChain rules s.oldChain
  newOrdered : OrderedChain rules s.newChain
  oldKnown : ∀ tx ∈ s.oldChain.flatten, tx ∈ known
  newKnown : ∀ tx ∈ s.newChain.flatten, tx ∈ known
  inj : Set.InjOn rules.calculateTxId known
  coinbases : NullCoinbases rules known

variable {rules} in
theorem ValidSwitch.of_check {s : Switch} {known : List RawTransaction}
    (hold : s.oldChain.flatten.Sublist known) (hnew : s.newChain.flatten.Sublist known)
    (hdistinct : (known.map rules.calculateTxId).Nodup)
    (hparents : parentsEarlier rules [] s.oldChain.flatten = true ∧
      parentsEarlier rules [] s.newChain.flatten = true)
    (hcoinbases : ∀ tx ∈ known, rules.isCoinbase tx = true → tx.prevouts ≠ [] ∧
      ∀ o ∈ tx.prevouts, ∀ t ∈ known, rules.calculateTxId t ≠ o.hash) :
    ValidSwitch rules {tx | tx ∈ known} s where
  oldOrdered := .of_check (hdistinct.sublist (hold.map _)) hparents.1
  newOrdered := .of_check (hdistinct.sublist (hnew.map _)) hparents.2
  oldKnown := fun _ htx => hold.subset htx
  newKnown := fun _ htx => hnew.subset htx
  inj := fun _ htx _ htx' heq => inj_on_of_nodup_map hdistinct htx htx' heq
  coinbases := hcoinbases

/-- The transaction is among the offers, and admitted when its turn comes. -/
def TakenBack (env : MempoolEnv) : MempoolManager → List PackageEntry → RawTransaction → Prop
  | _, [], _ => False
  | st, entry :: rest, tx =>
    entry.1 = tx ∧ (addTransactionWithWitness rules env st entry.1 entry.2).2 = .ok true ∨
      TakenBack env (addTransactionWithWitness rules env st entry.1 entry.2).1 rest tx

def connectAll (s : Switch) (st : MempoolManager) : MempoolManager :=
  s.connected.foldl (removeForConnectedBlock rules) st

def createdByOldBranch (s : Switch) (o : OutPoint) : Prop :=
  ∃ tx ∈ s.disconnected.flatten, createsOutput rules o tx = true

/-- The coins together with outputs that are trusted to be there. -/
noncomputable def lending (trusted : OutPoint → Prop) (coins : CoinView) : CoinView := by
  classical exact fun o => if trusted o then some ⟨0#64, [], 0, false⟩ else coins o

variable {rules} {s : Switch} {trusted : OutPoint → Prop}

theorem lending_of_not (h : ¬ trusted o) : lending trusted coins o = coins o := by
  classical
  rw [lending, if_neg h]

theorem isSome_lending_iff : (lending trusted coins o).isSome ↔ trusted o ∨ (coins o).isSome := by
  classical
  rw [lending]
  split_ifs with h <;> simp [h]

theorem mem_disconnectedEntries {disconnected : List (List RawTransaction)}
    {witnesses : List (List (List Witness))} {entry : PackageEntry}
    (hentry : entry ∈ disconnectedEntries rules disconnected witnesses) :
    entry.1 ∈ disconnected.flatten ∧ rules.isCoinbase entry.1 = false := by
  rw [disconnectedEntries, mem_flatMap] at hentry
  obtain ⟨block, hblock, hmem⟩ := hentry
  obtain ⟨place, hplace, rfl⟩ := mem_map.mp hmem
  rw [mem_filter, Bool.not_eq_true'] at hplace
  refine ⟨mem_flatten.mpr ⟨block.1, ?_, ?_⟩, hplace.2⟩
  · exact fst_mem_of_mem_zipIdx hblock
  · exact fst_mem_of_mem_zipIdx hplace.1

theorem funded_lending (hlinks : ∀ c p, st.Spends c p → c ∈ st.txDescendants.of p)
    (hst : SpendablePool (tipCoins rules s.oldChain) st) :
    Funded (lending (createdByOldBranch rules s) (tipCoins rules s.base)) [] st := by
  intro h tx htx o ho
  rcases hst h tx htx o ho with hcoin | ⟨hne, hout⟩
  · rw [Switch.oldChain, isSome_tipCoins_append] at hcoin
    exact .inl (isSome_lending_iff.mpr (created_of_unspent hcoin).symm)
  · have hspends : st.Spends h o.hash := ⟨tx, htx, mem_map_of_mem ho, pooled_of_poolOutput hout⟩
    exact .inr ⟨hne, hout, hlinks _ _ hspends, nofun⟩

theorem isSome_connect_lending
    (hcoin : (connectBlocks rules s.base.length (lending trusted (tipCoins rules s.base))
      s.connected o).isSome) : (lending trusted (tipCoins rules s.newChain) o).isSome := by
  rw [isSome_lending_iff]
  by_cases hloan : trusted o
  · exact .inl hloan
  · refine .inr ?_
    rw [isSome_connectBlocks, lending_of_not hloan] at hcoin
    rwa [Switch.newChain, isSome_tipCoins_append]

def Unconfirmed (rules : ConsensusRules) (s : Switch) (st : MempoolManager) : Prop :=
  ∀ tx ∈ s.newChain.flatten, st.tx (rules.calculateTxId tx) = none

/-- Nothing pooled is confirmed on the new chain, and what the offers have added is of the old
branch and spends coins or pooled outputs. -/
structure AfterSwitch (rules : ConsensusRules) (known : Set RawTransaction) (s : Switch)
    (before st : MempoolManager) : Prop where
  pool : KnownPool rules known st
  unconfirmed : Unconfirmed rules s st
  origin : ∀ {h tx}, st.tx h = some tx → before.tx h = some tx ∨
    tx ∈ s.disconnected.flatten ∧ rules.isCoinbase tx = false ∧
      ∀ o ∈ tx.prevouts, (tipCoins rules s.newChain o).isSome = true ∨
        (st.poolOutput o).isSome = true

variable {witnesses : Option (List Witness)}

theorem Switch.mem_oldChain :
    tx ∈ s.oldChain.flatten ↔ tx ∈ s.base.flatten ∨ tx ∈ s.disconnected.flatten := by
  rw [Switch.oldChain, flatten_append, mem_append]

theorem Switch.mem_newChain :
    tx ∈ s.newChain.flatten ↔ tx ∈ s.base.flatten ∨ tx ∈ s.connected.flatten := by
  rw [Switch.newChain, flatten_append, mem_append]

section

variable (hs : ValidSwitch rules known s)
include hs

theorem unconfirmed_connectAll (hpool : KnownPool rules known st)
    (hbase : ∀ tx ∈ s.base.flatten, st.tx (rules.calculateTxId tx) = none)
    (hcoinbase : ∀ h tx, st.tx h = some tx → rules.isCoinbase tx = false) :
    Unconfirmed rules s (s.connected.foldl (removeForConnectedBlock rules) st) := by
  intro tx htx
  refine Option.eq_none_iff_forall_ne_some.mpr fun pooled hkept => ?_
  obtain ⟨hbefore, hgone⟩ := tx_connectAll hkept
  have hsame : pooled = tx := hs.inj (hpool.mem hbefore) (hs.newKnown tx htx)
    (hpool.tracked.keyed hbefore)
  rcases Switch.mem_newChain.mp htx with hmem | hconnected
  · rw [hbase tx hmem] at hbefore
    cases hbefore
  · exact hgone tx hconnected (hsame ▸ hcoinbase _ pooled hbefore) rfl

theorem ValidSwitch.spends_other (htx : tx ∈ s.disconnected.flatten)
    (hcoinbase : rules.isCoinbase tx = false) (ho : o ∈ tx.prevouts) :
    o.hash ≠ rules.calculateTxId tx := by
  intro hself
  obtain ⟨before, later, hsplit⟩ := append_of_mem (Switch.mem_oldChain.mpr (.inr htx))
  obtain ⟨parent, hparent, hname⟩ := (hs.oldOrdered.spends before tx later hsplit hcoinbase).2 o ho
  exact hs.oldOrdered.parent_ne hsplit hparent mem_cons_self (hname.trans hself)

section

variable (hpool : KnownPool rules known st) (hst : SpendablePool (tipCoins rules s.oldChain) st)
include hpool hst

theorem unconfirmed_oldChain (htx : tx ∈ s.oldChain.flatten) :
    st.tx (rules.calculateTxId tx) = none :=
  unconfirmed_of_spendable hs.inj hs.coinbases hs.oldOrdered hs.oldKnown hpool hst htx

theorem id_ne_of_pooled {h : Hash} {t : RawTransaction} (ht : (connectAll rules s st).tx h = some t)
    (htx : tx ∈ s.disconnected.flatten) : rules.calculateTxId tx ≠ h := by
  rintro rfl
  have hnone := unconfirmed_oldChain hs hpool hst (Switch.mem_oldChain.mpr (.inr htx))
  rw [(tx_connectAll ht).1] at hnone
  cases hnone

theorem AfterSwitch.start :
    AfterSwitch rules known s (connectAll rules s st) (connectAll rules s st) where
  pool := hpool.connectAll s.connected
  unconfirmed := by
    apply unconfirmed_connectAll hs hpool
    · intro tx htx
      exact unconfirmed_oldChain hs hpool hst (Switch.mem_oldChain.mpr (.inl htx))
    · intro h tx htx
      exact not_coinbase_of_pooled hs.coinbases hs.oldKnown hpool hst htx
  origin := .inl

theorem funded_connectAll (hlinks : ∀ c p, st.Spends c p → c ∈ st.txDescendants.of p) :
    Funded (lending (createdByOldBranch rules s) (tipCoins rules s.newChain)) []
      (connectAll rules s st) := by
  have hconnected : ∀ tx ∈ s.connected.flatten, tx ∈ known :=
    fun tx htx => hs.newKnown tx (Switch.mem_newChain.mpr (.inr htx))
  have hfunded := (funded_lending hlinks hst).connectAll hs.inj hpool s.base.length hconnected
  exact hfunded.mono fun o => isSome_connect_lending

/-- What the old chain spends is no coin of its tip and no output of a pooled transaction. -/
theorem not_spent_by_pool {h : Hash} {pooled : RawTransaction} (hpooled : st.tx h = some pooled)
    (htx : tx ∈ s.oldChain.flatten) (hcoinbase : rules.isCoinbase tx = false)
    (ho : o ∈ tx.prevouts) : o ∉ pooled.prevouts := by
  intro hspent
  rcases hst h pooled hpooled o hspent with hcoin | ⟨_, hout⟩
  · rw [hs.oldOrdered.tipCoins_of_spent htx hcoinbase ho] at hcoin
    cases hcoin
  · obtain ⟨before, after, hsplit⟩ := append_of_mem htx
    obtain ⟨parent, hparent, hid⟩ := (hs.oldOrdered.spends before tx after hsplit hcoinbase).2 o ho
    have hnone := unconfirmed_oldChain hs hpool hst (hsplit ▸ mem_append_left _ hparent)
    have hparentPooled := pooled_of_poolOutput hout
    rw [Pooled, ← hid, hnone] at hparentPooled
    cases hparentPooled

end

/-- A transaction the new chain confirms is refused: what it spends is no coin, and its parents are
not pooled. -/
theorem Unconfirmed.refuses_confirmed (henv : ReadsChain (tipCoins rules s.newChain) env)
    (hst : Unconfirmed rules s st) (htx : tx ∈ s.newChain.flatten)
    (hcoinbase : rules.isCoinbase tx = false) : checksReject rules env st tx witnesses := by
  rw [← Bool.not_eq_false]
  intro hchecks
  obtain ⟨before, after, hsplit⟩ := append_of_mem htx
  obtain ⟨hsome, hparents⟩ := hs.newOrdered.spends before tx after hsplit hcoinbase
  obtain ⟨o, ho⟩ := exists_mem_of_ne_nil _ hsome
  obtain ⟨parent, hparent, hid⟩ := hparents o ho
  obtain ⟨utxoSet, hwired, _⟩ := henv.wired
  rcases known_of_checks (by rw [hwired]; rfl) hchecks ho with hview | hout
  · have hcoin := henv.snapshot hview
    rw [hs.newOrdered.tipCoins_of_spent htx hcoinbase ho] at hcoin
    cases hcoin
  · have hpooled := pooled_of_poolOutput hout
    have hnone := hst parent (hsplit ▸ mem_append_left _ hparent)
    rw [Pooled, ← hid, hnone] at hpooled
    cases hpooled

theorem Unconfirmed.offer (henv : ReadsChain (tipCoins rules s.newChain) env)
    (hst : Unconfirmed rules s st) (htx : tx ∈ s.disconnected.flatten)
    (hcoinbase : rules.isCoinbase tx = false) :
    Unconfirmed rules s (addTransactionWithWitness rules env st tx witnesses).1 := by
  intro confirmed hconfirmed
  refine Option.eq_none_iff_forall_ne_some.mpr fun pooled hpooled => ?_
  rcases pooled_before_or_added hpooled with hbefore | ⟨_, hid, hchecks⟩
  · rw [hst confirmed hconfirmed] at hbefore
    cases hbefore
  · obtain rfl : confirmed = tx := hs.inj (hs.newKnown confirmed hconfirmed)
      (hs.oldKnown tx (Switch.mem_oldChain.mpr (.inr htx))) hid
    rw [hst.refuses_confirmed hs henv hconfirmed hcoinbase] at hchecks
    cases hchecks

end

/-- Without a conflict an offer adds the transaction or leaves the pool as it is. -/
theorem tx_add_alone (hst : SpendsTracked rules st) (halone : ¬ st.Pooled (rules.calculateTxId tx) →
      ∀ o ∈ tx.prevouts, ∀ h t, st.tx h = some t → o ∉ t.prevouts) :
    ∀ h t, (addTransactionWithWitness rules env st tx witnesses).1.tx h = some t ↔
      st.tx h = some t ∨ h = rules.calculateTxId t ∧ tx = t ∧
        (addTransactionWithWitness rules env st tx witnesses).2 = .ok true := by
  intro h t
  rcases @addTransactionWithWitness_cases rules env st tx witnesses with
    ⟨res, heq, hres⟩ | ⟨displaced, hc⟩
  · rw [heq]
    simp [hres]
  · have hempty : ∀ d, d ∉ displaced := by
      intro d hd
      obtain ⟨c, hconflict, _⟩ := (mem_displaced hc.displacement).mp hd
      rw [directConflicts, mem_eraseDups, mem_filterMap] at hconflict
      obtain ⟨o, ho, hspender⟩ := hconflict
      obtain ⟨existing, hex, hspent⟩ := hst.spenders_iff.mp hspender
      exact halone (not_pooled_of_checks hc.checks) o ho c existing hex hspent
    have hkept : ∀ k, (displace rules env st tx displaced).tx k = st.tx k := fun k => by
      rw [tx_displace hc.displacement, if_neg (hempty k)]
    have hfresh : st.tx (rules.calculateTxId tx) = none := by
      simpa [Pooled] using not_pooled_of_checks hc.checks
    rw [addTransactionWithWitness_after hc]
    split_ifs
    · rw [tx_insertTransaction, hkept]
      split_ifs with hid
      · rw [hid, hfresh]
        simp only [Option.some.injEq, reduceCtorEq, false_or, and_true]
        constructor
        · rintro rfl
          exact ⟨rfl, rfl⟩
        · exact And.right
      · simp only [and_true, iff_self_or]
        rintro ⟨rfl, rfl⟩
        exact absurd rfl hid
    · simp [hkept]

section

variable (hs : ValidSwitch rules known s) (honce : SpendsOnce rules s.oldChain)
    (henv : ReadsChain (tipCoins rules s.newChain) env) {start : MempoolManager}
    (hpool : KnownPool rules known start)
    (hstart : SpendablePool (tipCoins rules s.oldChain) start)
include hs honce hpool hstart

theorem AfterSwitch.tx_offer_iff (hst : AfterSwitch rules known s (connectAll rules s start) st)
    (htx : tx ∈ s.disconnected.flatten) (hcoinbase : rules.isCoinbase tx = false) :
    ∀ h t, (addTransactionWithWitness rules env st tx witnesses).1.tx h = some t ↔
      st.tx h = some t ∨ h = rules.calculateTxId t ∧ tx = t ∧
        (addTransactionWithWitness rules env st tx witnesses).2 = .ok true := by
  have hmem : tx ∈ s.oldChain.flatten := Switch.mem_oldChain.mpr (.inr htx)
  refine tx_add_alone hst.pool.tracked fun hfresh o ho h t ht hspent => ?_
  rcases hst.origin ht with hbefore | ⟨hold, hother, _⟩
  · exact not_spent_by_pool hs hpool hstart (tx_connectAll hbefore).1 hmem hcoinbase ho hspent
  · have hsame := honce tx hmem t (Switch.mem_oldChain.mpr (.inr hold)) hcoinbase hother o ho hspent
    rw [hsame, hst.pool.tracked.keyed ht] at hfresh
    exact hfresh (by simp [Pooled, ht])

include henv

theorem AfterSwitch.offer (hst : AfterSwitch rules known s (connectAll rules s start) st)
    (htx : tx ∈ s.disconnected.flatten) (hcoinbase : rules.isCoinbase tx = false) :
    AfterSwitch rules known s (connectAll rules s start)
      (addTransactionWithWitness rules env st tx witnesses).1 where
  pool := hst.pool.add (hs.oldKnown tx (Switch.mem_oldChain.mpr (.inr htx)))
  unconfirmed := hst.unconfirmed.offer hs henv htx hcoinbase
  origin := by
    intro h t ht
    have hgrows : ∀ k t, st.tx k = some t →
        (addTransactionWithWitness rules env st tx witnesses).1.tx k = some t := fun k t ht =>
      (hst.tx_offer_iff hs honce hpool hstart htx hcoinbase k t).mpr (.inl ht)
    rcases pooled_before_or_added ht with hbefore | ⟨rfl, _, hchecks⟩
    · refine (hst.origin hbefore).imp_right fun ⟨hold, hother, hinputs⟩ => ⟨hold, hother, ?_⟩
      exact fun o ho => (hinputs o ho).imp_right (poolOutput_mono hgrows)
    · refine .inr ⟨htx, hcoinbase, fun o ho => ?_⟩
      obtain ⟨utxoSet, hwired, _⟩ := henv.wired
      rcases known_of_checks (by rw [hwired]; rfl) hchecks ho with hview | hout
      · exact .inl (henv.snapshot hview)
      · exact .inr (poolOutput_mono hgrows hout)

theorem AfterSwitch.offerAll (hst : AfterSwitch rules known s (connectAll rules s start) st)
    {entries : List PackageEntry} (hentries : ∀ entry ∈ entries,
      entry.1 ∈ s.disconnected.flatten ∧ rules.isCoinbase entry.1 = false) :
    AfterSwitch rules known s (connectAll rules s start) (offerAll rules env st entries) ∧
      ∀ h t, (offerAll rules env st entries).tx h = some t ↔
        st.tx h = some t ∨ h = rules.calculateTxId t ∧ TakenBack rules env st entries t := by
  induction entries generalizing st with
  | nil => exact ⟨hst, fun h t => by simp [MempoolManager.offerAll, TakenBack]⟩
  | cons entry rest ih =>
    obtain ⟨hmem, hcoinbase⟩ := hentries entry mem_cons_self
    have hnext : AfterSwitch rules known s (connectAll rules s start)
        (addTransactionWithWitness rules env st entry.1 entry.2).1 :=
      hst.offer hs honce henv hpool hstart hmem hcoinbase
    obtain ⟨hlast, hiff⟩ := ih hnext fun later hlater => hentries later (mem_cons_of_mem _ hlater)
    refine ⟨hlast, fun h t => (hiff h t).trans ?_⟩
    rw [hst.tx_offer_iff hs honce hpool hstart hmem hcoinbase, TakenBack]
    tauto

end

end Switches

section Concrete

def rewardTx (id : ℕ) : RawTransaction := plainTx id [⟨0#256, 0xffffffff#32⟩] [11000#64]

/-- Blocks of a coinbase each, up to the height at which the one of height 1 is mature. -/
def maturedChain : List (List RawTransaction) :=
  (range 101).map fun height => [rewardTx (100 + height)]

/-- Confirmed on the old branch only; it pays what `paid` leaves of the reward as its fee. -/
def paymentTx (paid : BitVec 64) : RawTransaction := plainTx 1 [⟨101#256, 0#32⟩] [paid]

/-- One block with a payment gives way to two blocks without it. -/
def paymentSwitch (paid : BitVec 64) : Switch where
  base := maturedChain
  disconnected := [[rewardTx 301, paymentTx paid]]
  connected := [[rewardTx 302], [rewardTx 303]]

def tipEnv (chain : List (List RawTransaction)) : MempoolEnv :=
  { wiredEnv [] with
    utxoSet := some (tipCoins laxRules chain)
    finalityContext := some (chain.length, 1000) }

def poolAt (chain : List (List RawTransaction)) (tx : RawTransaction) : MempoolManager :=
  (addTransactionWithWitness laxRules (tipEnv chain) MempoolManager.new tx none).1

def spenderPool (paid : BitVec 64) : MempoolManager :=
  poolAt (paymentSwitch paid).oldChain childTx

def paymentTxs (paid : BitVec 64) : List RawTransaction :=
  (paymentSwitch paid).oldChain.flatten ++ [rewardTx 302, rewardTx 303, childTx]

theorem readsChain_tipEnv (chain : List (List RawTransaction)) :
    ReadsChain (tipCoins laxRules chain) (tipEnv chain) where
  wired := ⟨_, rfl, fun _ ho => ho⟩
  pointRead := fun o ho => by simp [tipEnv, wiredEnv] at ho

theorem validSwitch_payment {paid : BitVec 64} (hpaid : paid = 10000#64 ∨ paid = 11000#64) :
    ValidSwitch laxRules {tx | tx ∈ paymentTxs paid} (paymentSwitch paid) := by
  rcases hpaid with rfl | rfl
  · exact .of_check (by decide +kernel) (by decide +kernel) (by decide +kernel) (by decide +kernel)
      (by decide +kernel)
  · exact .of_check (by decide +kernel) (by decide +kernel) (by decide +kernel) (by decide +kernel)
      (by decide +kernel)

theorem knownPool_poolAt {txs : List RawTransaction} (chain : List (List RawTransaction))
    (htx : tx ∈ txs) : KnownPool laxRules {tx | tx ∈ txs} (poolAt chain tx) :=
  KnownPool.new.add htx

theorem knownPool_spenderPool (paid : BitVec 64) :
    KnownPool laxRules {tx | tx ∈ paymentTxs paid} (spenderPool paid) :=
  knownPool_poolAt _ (by simp [paymentTxs])

theorem eq_of_one_row {h k : Hash} {pooled : RawTransaction}
    (hrows : st.transactions.rows = [(k, pooled)]) (htx : st.tx h = some tx) : tx = pooled := by
  have hmem := get_eq_some_iff.mp htx
  rw [hrows, mem_singleton, Prod.mk.injEq] at hmem
  exact hmem.2

theorem links_spenderPool {paid : BitVec 64} (c p : Hash) (h : (spenderPool paid).Spends c p) :
    c ∈ (spenderPool paid).txDescendants.of p :=
  (Linked.new.add (by decide +kernel)).descendants_iff.mpr h

theorem spendablePool_spenderPool {paid : BitVec 64}
    (hrows : (spenderPool paid).transactions.rows = [(2#256, childTx)])
    (hcoin : (tipCoins laxRules (paymentSwitch paid).oldChain ⟨1#256, 0#32⟩).isSome = true) :
    SpendablePool (tipCoins laxRules (paymentSwitch paid).oldChain) (spenderPool paid) := by
  intro h tx htx o ho
  rw [eq_of_one_row hrows htx] at ho
  obtain rfl : o = ⟨1#256, 0#32⟩ := mem_singleton.mp ho
  exact .inl hcoin

end Concrete

end BlvmNode
