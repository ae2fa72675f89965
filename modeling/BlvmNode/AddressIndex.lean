import BlvmNode.Lib.KeyTable

/-!
# The address index of transactions

The eager strategy indexes the outputs of a transaction by the hash of their scripts when the
transaction comes in. The lazy strategy does so when an address is queried, and only if the address
has no entry yet: an entry that a query has made is not kept up to date.
-/

namespace BlvmNode

open List Option KeyTable

inductive IndexingStrategy
  | eager
  | lazy
  deriving DecidableEq

structure TxIndexRules (T S H A : Type) where
  calculateTxId : T → H
  outputScripts : T → List S
  sha256 : S → A

structure TxIndex (T H A : Type) where
  txByHash : KeyTable H T
  addressTxIndex : KeyTable A (List H)
  addressOutputIndex : KeyTable A (List (H × ℕ))
  enableAddressIndex : Bool
  strategy : IndexingStrategy
  maxIndexedAddresses : ℕ

variable {T S H A : Type} {h : H} {a : A}

namespace TxIndex

structure Frame (idx idx' : TxIndex T H A) : Prop where
  txByHash : idx'.txByHash = idx.txByHash
  enabled : idx'.enableAddressIndex = idx.enableAddressIndex
  strategy : idx'.strategy = idx.strategy
  cap : idx'.maxIndexedAddresses = idx.maxIndexedAddresses

theorem Frame.refl (idx : TxIndex T H A) : Frame idx idx := ⟨rfl, rfl, rfl, rfl⟩

theorem Frame.trans {a b c : TxIndex T H A} (hab : Frame a b) (hbc : Frame b c) : Frame a c :=
  ⟨hbc.txByHash.trans hab.txByHash, hbc.enabled.trans hab.enabled, hbc.strategy.trans hab.strategy,
    hbc.cap.trans hab.cap⟩

theorem Frame.foldl {α : Type} {f : TxIndex T H A → α → TxIndex T H A}
    (hf : ∀ idx a, Frame idx (f idx a)) (l : List α) (idx : TxIndex T H A) :
    Frame idx (l.foldl f idx) := by
  induction l generalizing idx with
  | nil => exact Frame.refl idx
  | cons a l ih => exact (hf idx a).trans (ih (f idx a))

variable [DecidableEq H] [DecidableEq A] (txHash : H)

def withConfig (enableAddressIndex : Bool) (strategy : IndexingStrategy)
    (maxIndexedAddresses : ℕ) : TxIndex T H A :=
  ⟨.empty, .empty, .empty, enableAddressIndex, strategy, maxIndexedAddresses⟩

def getAddressTransactions (idx : TxIndex T H A) (address : A) : List H :=
  (idx.addressTxIndex.get address).getD []

def getAddressOutputs (idx : TxIndex T H A) (address : A) : List (H × ℕ) :=
  (idx.addressOutputIndex.get address).getD []

def getTransaction (idx : TxIndex T H A) (txHash : H) : Option T := idx.txByHash.get txHash

def canAddAddressKey (idx : TxIndex T H A) (address : A) : Bool :=
  idx.maxIndexedAddresses = 0 || (idx.addressTxIndex.get address).isSome ||
    decide (idx.addressTxIndex.rows.length < idx.maxIndexedAddresses)

def addAddressTx (txHash : H) (idx : TxIndex T H A) (address : A) : TxIndex T H A :=
  if idx.canAddAddressKey address = true ∧ txHash ∉ idx.getAddressTransactions address then
    { idx with
      addressTxIndex :=
        idx.addressTxIndex.insert address (idx.getAddressTransactions address ++ [txHash]) }
  else idx

def addAddressOutputs (txHash : H) (positions : A → List ℕ) (idx : TxIndex T H A) (address : A) :
    TxIndex T H A :=
  let existing := idx.getAddressOutputs address
  let fresh := ((positions address).map (fun i => (txHash, i))).filter (fun o => o ∉ existing)
  if idx.canAddAddressKey address = true ∧ fresh ≠ [] then
    { idx with addressOutputIndex := idx.addressOutputIndex.insert address (existing ++ fresh) }
  else idx

theorem frame_addAddressTx (idx : TxIndex T H A) (address : A) :
    Frame idx (addAddressTx txHash idx address) := by
  unfold addAddressTx
  split_ifs <;> exact ⟨rfl, rfl, rfl, rfl⟩

theorem frame_addAddressOutputs (positions : A → List ℕ) (idx : TxIndex T H A)
    (address : A) : Frame idx (addAddressOutputs txHash positions idx address) ∧
      (addAddressOutputs txHash positions idx address).addressTxIndex = idx.addressTxIndex := by
  simp only [addAddressOutputs]
  split_ifs <;> exact ⟨⟨rfl, rfl, rfl, rfl⟩, rfl⟩

variable {idx : TxIndex T H A}

theorem mem_addAddressTx (hcap : idx.maxIndexedAddresses = 0) (txHash : H) (address : A) :
    h ∈ (addAddressTx txHash idx address).getAddressTransactions a ↔
      h ∈ idx.getAddressTransactions a ∨ a = address ∧ h = txHash := by
  have hfree : idx.canAddAddressKey address := by simp [canAddAddressKey, hcap]
  unfold addAddressTx
  by_cases hold : txHash ∈ idx.getAddressTransactions address
  · rw [if_neg (fun hnew => hnew.2 hold)]
    constructor
    · exact .inl
    · rintro (hin | ⟨rfl, rfl⟩)
      · exact hin
      · exact hold
  · rw [if_pos ⟨hfree, hold⟩]
    simp only [getAddressTransactions, get_insert]
    by_cases ha : a = address <;> simp [ha]

theorem mem_foldl_addAddressTx (hcap : idx.maxIndexedAddresses = 0)
    (txHash : H) (addresses : List A) :
    h ∈ (addresses.foldl (addAddressTx txHash) idx).getAddressTransactions a ↔
      h ∈ idx.getAddressTransactions a ∨ a ∈ addresses ∧ h = txHash := by
  induction addresses generalizing idx with
  | nil => simp
  | cons address addresses ih =>
    rw [foldl_cons, ih ((frame_addAddressTx txHash idx address).cap.trans hcap),
      mem_addAddressTx hcap, mem_cons]
    tauto

variable (rules : TxIndexRules T S H A)

def paidAddresses (tx : T) : List A := (rules.outputScripts tx).map rules.sha256

/-- `index_addresses`; the addresses are taken in the order of the outputs. -/
def indexAddresses (idx : TxIndex T H A) (tx : T) (txHash : H) : TxIndex T H A :=
  let addresses := (paidAddresses rules tx).dedup
  let positions := fun address => (List.range (paidAddresses rules tx).length).filter
    (fun i => (paidAddresses rules tx)[i]? = some address)
  addresses.foldl (addAddressOutputs txHash positions) (addresses.foldl (addAddressTx txHash) idx)

theorem frame_indexAddresses (idx : TxIndex T H A) (tx : T) (txHash : H) :
    Frame idx (indexAddresses rules idx tx txHash) :=
  (Frame.foldl (frame_addAddressTx txHash) _ idx).trans
    (Frame.foldl (fun idx a => (frame_addAddressOutputs txHash _ idx a).1) _ _)

theorem mem_indexAddresses (hcap : idx.maxIndexedAddresses = 0) (tx : T) (txHash : H) :
    h ∈ (indexAddresses rules idx tx txHash).getAddressTransactions a ↔
      h ∈ idx.getAddressTransactions a ∨ a ∈ paidAddresses rules tx ∧ h = txHash := by
  have houtputs (addresses : List A) (positions : A → List ℕ) (idx : TxIndex T H A) :
      (addresses.foldl (addAddressOutputs txHash positions) idx).addressTxIndex =
        idx.addressTxIndex :=
    foldlRecOn (motive := (TxIndex.addressTxIndex · = idx.addressTxIndex)) addresses _ rfl
      fun idx' h address _ => (frame_addAddressOutputs txHash positions idx' address).2.trans h
  unfold indexAddresses getAddressTransactions
  dsimp only
  rw [houtputs]
  have hfold := @mem_foldl_addAddressTx T H A h a _ _ idx hcap txHash (paidAddresses rules tx).dedup
  rw [mem_dedup] at hfold
  exact hfold

/-- `index_transaction_basic`, of which queries by address read one tree. -/
def indexTransactionBasic (idx : TxIndex T H A) (tx : T) : TxIndex T H A :=
  { idx with txByHash := idx.txByHash.insert (rules.calculateTxId tx) tx }

def indexTransactionAdvanced (idx : TxIndex T H A) (tx : T) : TxIndex T H A :=
  if idx.enableAddressIndex then indexAddresses rules idx tx (rules.calculateTxId tx) else idx

def indexTransaction (idx : TxIndex T H A) (tx : T) : TxIndex T H A :=
  let idx := indexTransactionBasic rules idx tx
  if idx.strategy = .eager then indexTransactionAdvanced rules idx tx else idx

def indexBlock (idx : TxIndex T H A) (transactions : List T) : TxIndex T H A :=
  transactions.foldl (indexTransaction rules) idx

variable [DecidableEq S]

/-- The rows the scan of `ensure_address_indexed` goes through, in the order of the tree. -/
def scanRows (scriptPubkey : S) (idx : TxIndex T H A) (rows : List (H × T)) : TxIndex T H A :=
  rows.foldl (fun idx row => if scriptPubkey ∈ rules.outputScripts row.2 then
    indexAddresses rules idx row.2 row.1 else idx) idx

def ensureAddressIndexed (idx : TxIndex T H A) (scriptPubkey : S) : TxIndex T H A :=
  if idx.enableAddressIndex = false ∨ idx.strategy ≠ .lazy then idx
  else if idx.getAddressTransactions (rules.sha256 scriptPubkey) ≠ [] then idx
  else scanRows rules scriptPubkey idx idx.txByHash.rows

/-- `get_transactions_by_address` without a background indexer. -/
def getTransactionsByAddress (idx : TxIndex T H A) (scriptPubkey : S) :
    List T × TxIndex T H A :=
  if idx.enableAddressIndex = false then ([], idx)
  else
    let idx := if idx.strategy = .lazy then ensureAddressIndexed rules idx scriptPubkey else idx
    ((idx.getAddressTransactions (rules.sha256 scriptPubkey)).filterMap idx.getTransaction, idx)

end TxIndex

inductive TxIndexStep (T S : Type)
  | block (transactions : List T)
  | transaction (tx : T)
  | query (scriptPubkey : S)

def TxIndexStep.indexed : TxIndexStep T S → List T
  | .block transactions => transactions
  | .transaction tx => [tx]
  | .query _ => []

namespace TxIndex

variable {idx' : TxIndex T H A}

section Invariant

variable [DecidableEq H] {rules : TxIndexRules T S H A} {known : List T} {idx : TxIndex T H A}

theorem Frame.getTransaction (hframe : Frame idx idx') (h : H) :
    idx'.getTransaction h = idx.getTransaction h := by
  rw [TxIndex.getTransaction, hframe.txByHash]
  rfl

theorem getTransaction_basic (tx : T) (h : H) :
    (indexTransactionBasic rules idx tx).getTransaction h =
      if h = rules.calculateTxId tx then some tx else idx.getTransaction h :=
  get_insert ..

variable [DecidableEq A] {tx : T}

/-- An index without a cap whose entries list transactions of `known` that pay the address. -/
structure Indexed (rules : TxIndexRules T S H A) (known : List T) (idx : TxIndex T H A) : Prop where
  enabled : idx.enableAddressIndex = true
  cap : idx.maxIndexedAddresses = 0
  keyed : ∀ h tx, idx.getTransaction h = some tx → rules.calculateTxId tx = h ∧ tx ∈ known
  sound : ∀ a, ∀ h ∈ idx.getAddressTransactions a, ∃ tx, idx.getTransaction h = some tx ∧
    a ∈ paidAddresses rules tx

def Complete (rules : TxIndexRules T S H A) (idx : TxIndex T H A) : Prop :=
  ∀ h tx, idx.getTransaction h = some tx → ∀ a ∈ paidAddresses rules tx,
    h ∈ idx.getAddressTransactions a

theorem Indexed.of_frame (hidx : Indexed rules known idx)
    (hframe : Frame idx idx') (hsound : ∀ a, ∀ h ∈ idx'.getAddressTransactions a,
      ∃ tx, idx.getTransaction h = some tx ∧ a ∈ paidAddresses rules tx) :
    Indexed rules known idx' := by
  simp only [← hframe.getTransaction] at hsound
  refine ⟨hframe.enabled.trans hidx.enabled, hframe.cap.trans hidx.cap, fun h tx htx => ?_, hsound⟩
  rw [hframe.getTransaction] at htx
  exact hidx.keyed h tx htx

theorem Indexed.advanced (hidx : Indexed rules known idx) (htx : idx.getTransaction h = some tx) :
    Indexed rules known (indexAddresses rules idx tx h) := by
  refine hidx.of_frame (frame_indexAddresses rules idx tx h) fun a h' hh' => ?_
  rcases (mem_indexAddresses rules hidx.cap tx h).mp hh' with hold | ⟨ha, rfl⟩
  · exact hidx.sound a h' hold
  · exact ⟨tx, htx, ha⟩

theorem indexTransaction_frame (tx : T) :
    Frame (indexTransactionBasic rules idx tx) (indexTransaction rules idx tx) := by
  simp only [indexTransaction, indexTransactionAdvanced]
  split_ifs
  · exact frame_indexAddresses rules _ tx _
  · exact Frame.refl _
  · exact Frame.refl _

theorem Indexed.opened (rules : TxIndexRules T S H A) (known : List T)
    (strategy : IndexingStrategy) : Indexed rules known (withConfig true strategy 0) where
  enabled := rfl
  cap := rfl
  keyed := nofun
  sound := nofun

variable (hids : ∀ a ∈ known, ∀ b ∈ known, rules.calculateTxId a = rules.calculateTxId b → a = b)

include hids

theorem Indexed.basic (hidx : Indexed rules known idx) (htx : tx ∈ known) :
    Indexed rules known (indexTransactionBasic rules idx tx) where
  enabled := hidx.enabled
  cap := hidx.cap
  keyed := fun h other hother => by
    rw [getTransaction_basic] at hother
    split_ifs at hother with hh
    · cases hother
      exact ⟨hh.symm, htx⟩
    · exact hidx.keyed h other hother
  sound := fun a h hh => by
    obtain ⟨other, hother, ha⟩ := hidx.sound a h hh
    rw [getTransaction_basic]
    split_ifs with heq
    · -- the row is written again with the same transaction
      obtain ⟨hid, hknown⟩ := hidx.keyed h other hother
      rw [hids tx htx other hknown (heq.symm.trans hid.symm)]
      exact ⟨other, rfl, ha⟩
    · exact ⟨other, hother, ha⟩

theorem Indexed.transaction (hidx : Indexed rules known idx) (htx : tx ∈ known) :
    Indexed rules known (indexTransaction rules idx tx) := by
  have hbasic := hidx.basic hids htx
  simp only [indexTransaction, indexTransactionAdvanced]
  split_ifs
  · refine hbasic.advanced ?_
    rw [getTransaction_basic, if_pos rfl]
  · exact hbasic
  · exact hbasic

theorem Complete.transaction (hcomplete : Complete rules idx) (hidx : Indexed rules known idx)
    (htx : tx ∈ known) (heager : idx.strategy = .eager) :
    Complete rules (indexTransaction rules idx tx) := by
  have hbasic := hidx.basic hids htx
  have hstrategy : (indexTransactionBasic rules idx tx).strategy = .eager := heager
  simp only [indexTransaction, indexTransactionAdvanced, hstrategy, hbasic.enabled, if_true]
  intro h other hother a ha
  rw [(frame_indexAddresses rules _ tx _).getTransaction, getTransaction_basic] at hother
  rw [mem_indexAddresses rules hbasic.cap]
  split_ifs at hother with hh
  · cases hother
    exact .inr ⟨ha, hh⟩
  · exact .inl (hcomplete h other hother a ha)

end Invariant

section Runs

variable [DecidableEq S] [DecidableEq H] [DecidableEq A] (rules : TxIndexRules T S H A)

theorem mem_scanRows {idx : TxIndex T H A} (hcap : idx.maxIndexedAddresses = 0) (scriptPubkey : S)
    (rows : List (H × T)) :
    h ∈ (scanRows rules scriptPubkey idx rows).getAddressTransactions a ↔
      h ∈ idx.getAddressTransactions a ∨ ∃ row ∈ rows, scriptPubkey ∈ rules.outputScripts row.2 ∧
        a ∈ paidAddresses rules row.2 ∧ h = row.1 := by
  unfold scanRows
  induction rows generalizing idx with
  | nil => simp
  | cons row rows ih =>
    rw [foldl_cons, exists_mem_cons_iff]
    split_ifs with hpays
    · rw [ih ((frame_indexAddresses rules idx row.2 row.1).cap.trans hcap),
        mem_indexAddresses rules hcap]
      tauto
    · rw [ih hcap]
      tauto

theorem frame_scanRows (scriptPubkey : S) (idx : TxIndex T H A) (rows : List (H × T)) :
    Frame idx (scanRows rules scriptPubkey idx rows) := by
  refine Frame.foldl (fun idx row => ?_) rows idx
  split_ifs
  · exact frame_indexAddresses rules idx row.2 row.1
  · exact Frame.refl idx

theorem frame_query (idx : TxIndex T H A) (scriptPubkey : S) :
    Frame idx (getTransactionsByAddress rules idx scriptPubkey).2 := by
  simp only [getTransactionsByAddress, ensureAddressIndexed]
  split_ifs <;> first | exact Frame.refl idx | exact frame_scanRows rules scriptPubkey idx _

def step (idx : TxIndex T H A) : TxIndexStep T S → TxIndex T H A
  | .block transactions => indexBlock rules idx transactions
  | .transaction tx => indexTransaction rules idx tx
  | .query scriptPubkey => (getTransactionsByAddress rules idx scriptPubkey).2

def run (idx : TxIndex T H A) (steps : List (TxIndexStep T S)) : TxIndex T H A :=
  steps.foldl (step rules) idx

variable {rules} {known : List T} {idx : TxIndex T H A}

theorem Indexed.query (hidx : Indexed rules known idx) (scriptPubkey : S) :
    Indexed rules known (getTransactionsByAddress rules idx scriptPubkey).2 := by
  refine hidx.of_frame (frame_query rules idx scriptPubkey) fun a h hh => ?_
  simp only [getTransactionsByAddress, ensureAddressIndexed] at hh
  split_ifs at hh
  all_goals first | exact hidx.sound a h hh | skip
  rcases (mem_scanRows rules hidx.cap scriptPubkey _).mp hh with hold | ⟨row, hrow, _, ha, rfl⟩
  · exact hidx.sound a h hold
  · exact ⟨row.2, get_eq_some_iff.mpr hrow, ha⟩

theorem run_rec {P : TxIndex T H A → Prop} (hidx : P idx)
    (htx : ∀ idx, P idx → ∀ tx ∈ known, P (indexTransaction rules idx tx))
    (hquery : ∀ idx, P idx → ∀ scriptPubkey, P (getTransactionsByAddress rules idx scriptPubkey).2)
    {steps : List (TxIndexStep T S)} (hsteps : ∀ s ∈ steps, ∀ tx ∈ s.indexed, tx ∈ known) :
    P (run rules idx steps) := by
  refine foldlRecOn (motive := P) steps _ hidx fun idx hidx s hs => ?_
  have hknown := hsteps s hs
  cases s with
  | block transactions =>
    exact foldlRecOn (motive := P) transactions _ hidx fun idx hidx tx hin =>
      htx idx hidx tx (hknown tx hin)
  | transaction tx => exact htx idx hidx tx (hknown tx (mem_singleton_self tx))
  | query scriptPubkey => exact hquery idx hidx scriptPubkey

theorem strategy_run (steps : List (TxIndexStep T S)) :
    (run rules idx steps).strategy = idx.strategy :=
  run_rec (P := fun now => now.strategy = idx.strategy) rfl
    (fun _ hnow tx _ => (indexTransaction_frame tx).strategy.trans hnow)
    (fun now hnow scriptPubkey => (frame_query rules now scriptPubkey).strategy.trans hnow)
    (fun s hs _ htx => mem_flatMap.mpr ⟨s, hs, htx⟩)

theorem txByHash_run (hsame : idx.txByHash = idx'.txByHash) (steps : List (TxIndexStep T S)) :
    (run rules idx steps).txByHash = (run rules idx' steps).txByHash := by
  have htx : ∀ tx (a b : TxIndex T H A), a.txByHash = b.txByHash →
      (indexTransaction rules a tx).txByHash = (indexTransaction rules b tx).txByHash := by
    intro tx a b hab
    rw [(indexTransaction_frame tx).txByHash, (indexTransaction_frame tx).txByHash]
    simp only [indexTransactionBasic, hab]
  refine foldl_rel (r := fun a b : TxIndex T H A => a.txByHash = b.txByHash) hsame
    fun s _ a b hab => ?_
  cases s with
  | block transactions =>
    exact foldl_rel (r := fun a b : TxIndex T H A => a.txByHash = b.txByHash) hab fun tx _ => htx tx
  | transaction tx => exact htx tx a b hab
  | query scriptPubkey =>
    exact (frame_query rules a scriptPubkey).txByHash.trans
      (hab.trans (frame_query rules b scriptPubkey).txByHash.symm)

theorem mem_queried (hidx : Indexed rules known idx) (scriptPubkey : S) (h : H) :
    h ∈ (getTransactionsByAddress rules idx scriptPubkey).2.getAddressTransactions
        (rules.sha256 scriptPubkey) ↔
      h ∈ idx.getAddressTransactions (rules.sha256 scriptPubkey) ∨
        idx.strategy = .lazy ∧ idx.getAddressTransactions (rules.sha256 scriptPubkey) = [] ∧
          ∃ tx, idx.getTransaction h = some tx ∧ scriptPubkey ∈ rules.outputScripts tx := by
  simp only [getTransactionsByAddress, ensureAddressIndexed, hidx.enabled, Bool.true_eq_false,
    if_false, false_or]
  split_ifs with hlazy hnot hfilled
  · exact absurd hlazy hnot
  · simp [hfilled]
  · rw [mem_scanRows rules hidx.cap]
    refine or_congr_right ⟨?_, ?_⟩
    · rintro ⟨row, hrow, hpays, -, rfl⟩
      exact ⟨hlazy, not_not.mp hfilled, row.2, get_eq_some_iff.mpr hrow, hpays⟩
    · rintro ⟨-, -, tx, htx, hpays⟩
      exact ⟨(h, tx), get_eq_some_iff.mp htx, hpays, mem_map_of_mem hpays, rfl⟩
  · simp [hlazy]

theorem mem_query (hidx : Indexed rules known idx) (scriptPubkey : S) (tx : T) :
    tx ∈ (getTransactionsByAddress rules idx scriptPubkey).1 ↔
      ∃ h, idx.getTransaction h = some tx ∧
        (h ∈ idx.getAddressTransactions (rules.sha256 scriptPubkey) ∨
          idx.strategy = .lazy ∧ idx.getAddressTransactions (rules.sha256 scriptPubkey) = [] ∧
            scriptPubkey ∈ rules.outputScripts tx) := by
  have hframe := frame_query rules idx scriptPubkey
  have hanswer : tx ∈ (getTransactionsByAddress rules idx scriptPubkey).1 ↔
      ∃ h ∈ (getTransactionsByAddress rules idx scriptPubkey).2.getAddressTransactions
        (rules.sha256 scriptPubkey), idx.getTransaction h = some tx := by
    simp only [← hframe.getTransaction, ← mem_filterMap]
    simp [getTransactionsByAddress, hidx.enabled]
  rw [hanswer]
  refine exists_congr fun h => ?_
  rw [mem_queried hidx, and_comm]
  refine and_congr_right fun htx => ?_
  simp [htx]

variable (hids : ∀ a ∈ known, ∀ b ∈ known, rules.calculateTxId a = rules.calculateTxId b → a = b)
  {steps : List (TxIndexStep T S)} (hsteps : ∀ s ∈ steps, ∀ tx ∈ s.indexed, tx ∈ known)

include hids hsteps

theorem Indexed.run (hidx : Indexed rules known idx) : Indexed rules known (run rules idx steps) :=
  run_rec hidx (fun _ hidx _ htx => hidx.transaction hids htx) (fun _ hidx => hidx.query) hsteps

theorem Complete.run (hcomplete : Complete rules idx) (hidx : Indexed rules known idx)
    (heager : idx.strategy = .eager) : Complete rules (run rules idx steps) := by
  have hrun : Complete rules (TxIndex.run rules idx steps) ∧
      Indexed rules known (TxIndex.run rules idx steps) ∧
      (TxIndex.run rules idx steps).strategy = .eager := by
    refine run_rec (P := fun idx => Complete rules idx ∧ Indexed rules known idx ∧
      idx.strategy = .eager) ⟨hcomplete, hidx, heager⟩ ?_ ?_ hsteps
    · rintro idx ⟨hcomplete, hidx, heager⟩ tx htx
      exact ⟨hcomplete.transaction hids hidx htx heager, hidx.transaction hids htx,
        (indexTransaction_frame tx).strategy.trans heager⟩
    · rintro idx ⟨hcomplete, hidx, heager⟩ scriptPubkey
      have hquery : (getTransactionsByAddress rules idx scriptPubkey).2 = idx := by
        simp [getTransactionsByAddress, heager, hidx.enabled]
      rw [hquery]
      exact ⟨hcomplete, hidx, heager⟩
  exact hrun.1

end Runs

end TxIndex

open TxIndex

/-- A lazy query answers like the eager one exactly when the address has no entry yet or its entry
lists every indexed transaction that pays the script. -/
theorem lazy_query_agrees_iff [DecidableEq S] [DecidableEq H] [DecidableEq A]
    (rules : TxIndexRules T S H A) (steps : List (TxIndexStep T S)) (scriptPubkey : S)
    (hids : ∀ a ∈ steps.flatMap TxIndexStep.indexed, ∀ b ∈ steps.flatMap TxIndexStep.indexed,
      rules.calculateTxId a = rules.calculateTxId b → a = b)
    (hscripts : ∀ tx ∈ steps.flatMap TxIndexStep.indexed, ∀ script ∈ rules.outputScripts tx,
      rules.sha256 script = rules.sha256 scriptPubkey → script = scriptPubkey) :
    let lazy := TxIndex.run rules (.withConfig true .lazy 0) steps
    let eager := TxIndex.run rules (.withConfig true .eager 0) steps
    (∀ tx, tx ∈ (lazy.getTransactionsByAddress rules scriptPubkey).1 ↔
        tx ∈ (eager.getTransactionsByAddress rules scriptPubkey).1) ↔
      lazy.getAddressTransactions (rules.sha256 scriptPubkey) = [] ∨
        ∀ h tx, lazy.getTransaction h = some tx → scriptPubkey ∈ rules.outputScripts tx →
          h ∈ lazy.getAddressTransactions (rules.sha256 scriptPubkey) := by
  intro lazy eager
  have hsteps : ∀ s ∈ steps, ∀ tx ∈ s.indexed, tx ∈ steps.flatMap TxIndexStep.indexed :=
    fun s hs tx htx => mem_flatMap.mpr ⟨s, hs, htx⟩
  have hlazy : Indexed rules _ lazy := (Indexed.opened rules _ .lazy).run hids hsteps
  have heager : Indexed rules _ eager := (Indexed.opened rules _ .eager).run hids hsteps
  have hcomplete : Complete rules eager :=
    Complete.run hids hsteps nofun (Indexed.opened rules _ .eager) rfl
  have hstrategy : lazy.strategy = .lazy := strategy_run steps
  have hstrategy' : eager.strategy = .eager := strategy_run steps
  have hsame : ∀ h, eager.getTransaction h = lazy.getTransaction h := by
    intro h
    have htxs : eager.txByHash = lazy.txByHash := by
      apply txByHash_run
      rfl
    rw [getTransaction, htxs]
    rfl
  -- a transaction is listed under the address only if it pays the script
  have hpays : ∀ idx, Indexed rules (steps.flatMap TxIndexStep.indexed) idx →
      ∀ h tx, idx.getTransaction h = some tx →
      h ∈ idx.getAddressTransactions (rules.sha256 scriptPubkey) →
      scriptPubkey ∈ rules.outputScripts tx := by
    intro idx hidx h tx htx hlisted
    obtain ⟨other, hother, haddress⟩ := hidx.sound _ h hlisted
    obtain rfl := some.inj (htx.symm.trans hother)
    obtain ⟨script, hscript, hhash⟩ := mem_map.mp haddress
    rw [← hscripts tx (hidx.keyed h tx htx).2 script hscript hhash]
    exact hscript
  have heagerAnswer : ∀ tx, tx ∈ (eager.getTransactionsByAddress rules scriptPubkey).1 ↔
      ∃ h, lazy.getTransaction h = some tx ∧ scriptPubkey ∈ rules.outputScripts tx := by
    intro tx
    rw [mem_query heager, hstrategy']
    constructor
    · rintro ⟨h, htx, hlisted | ⟨hlazy, _⟩⟩
      · exact ⟨h, (hsame h).symm.trans htx, hpays eager heager h tx htx hlisted⟩
      · cases hlazy
    · rintro ⟨h, htx, hscript⟩
      rw [← hsame] at htx
      exact ⟨h, htx, .inl (hcomplete h tx htx _ (mem_map_of_mem hscript))⟩
  have hlazyAnswer := mem_query hlazy scriptPubkey
  rw [hstrategy] at hlazyAnswer
  constructor
  · intro hagree
    by_cases hempty : lazy.getAddressTransactions (rules.sha256 scriptPubkey) = []
    · exact .inl hempty
    · right
      intro h tx htx hscript
      obtain ⟨h', htx', hlisted | ⟨_, hnone, _⟩⟩ := (hlazyAnswer tx).mp
        ((hagree tx).mpr ((heagerAnswer tx).mpr ⟨h, htx, hscript⟩))
      · rwa [← (hlazy.keyed h tx htx).1, (hlazy.keyed h' tx htx').1]
      · exact absurd hnone hempty
  · intro hfilled tx
    rw [hlazyAnswer, heagerAnswer]
    constructor
    · rintro ⟨h, htx, hlisted | ⟨_, _, hscript⟩⟩
      · exact ⟨h, htx, hpays lazy hlazy h tx htx hlisted⟩
      · exact ⟨h, htx, hscript⟩
    · rintro ⟨h, htx, hscript⟩
      refine ⟨h, htx, ?_⟩
      rcases hfilled with hempty | hall
      · exact .inr ⟨rfl, hempty, hscript⟩
      · exact .inl (hall h tx htx hscript)

section Concrete

def plainIndexRules : TxIndexRules (ℕ × List ℕ) ℕ ℕ ℕ := ⟨Prod.fst, Prod.snd, id⟩

def paidAfterQuery : List (TxIndexStep (ℕ × List ℕ) ℕ) :=
  [.transaction (1, [5]), .query 5, .block [(2, [6]), (3, [5])]]

theorem lazy_query_misses_later_payment :
    ((TxIndex.run plainIndexRules (.withConfig true .lazy 0)
      paidAfterQuery).getTransactionsByAddress plainIndexRules 5).1 = [(1, [5])] ∧
    ((TxIndex.run plainIndexRules (.withConfig true .eager 0)
      paidAfterQuery).getTransactionsByAddress plainIndexRules 5).1 = [(1, [5]), (3, [5])] := by
  decide

theorem lazy_query_agrees_iff_first :
    (TxIndex.run plainIndexRules (.withConfig true .lazy 0) paidAfterQuery).getAddressTransactions
        (plainIndexRules.sha256 6) = [] ∧
      ∀ tx, tx ∈ ((TxIndex.run plainIndexRules (.withConfig true .lazy 0)
          paidAfterQuery).getTransactionsByAddress plainIndexRules 6).1 ↔
        tx ∈ ((TxIndex.run plainIndexRules (.withConfig true .eager 0)
          paidAfterQuery).getTransactionsByAddress plainIndexRules 6).1 := by
  have hnone : (TxIndex.run plainIndexRules (.withConfig true .lazy 0)
      paidAfterQuery).getAddressTransactions (plainIndexRules.sha256 6) = [] := by
    decide
  exact ⟨hnone, (lazy_query_agrees_iff plainIndexRules paidAfterQuery 6 (by decide)
    (by decide)).mpr (.inl hnone)⟩

end Concrete

end BlvmNode
