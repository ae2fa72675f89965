import BlvmNode.MuHashFold

/-!
# The rolling MuHash is the MuHash of the unspent outputs

Outputs that a block creates and spends cancel. The folder multiplies the contributions of
consecutive heights, each once, and reports the last folded height, except that a folder that starts
at height 0 reports height 0 before it has folded anything.
-/

namespace BlvmNode

open List ChainBlock InOrderMuHashFolder

section Chain

variable {M G : Type} [CommGroup G] (isCoinbase : Transaction → Bool) (hash : MuHash Utxo M G)
  (chain : List ChainBlock)

def chainOutputs : List (OutPoint × Utxo) := chain.flatMap (engineOutputs isCoinbase)

def outpointFactor (o : OutPoint) : G :=
  match (chainOutputs isCoinbase chain).lookup o with
  | some utxo => coinFactor hash (o, utxo)
  | none => 1

def muhashOf (coins : Finset OutPoint) : G :=
  ∏ o ∈ coins, outpointFactor isCoinbase hash chain o

/-- Both maps of the session together have the coin of every input of the block. -/
def CompleteSession (b : ChainBlock) (session : SpendSession) : Prop :=
  ∀ o ∈ b.spent isCoinbase, ∃ detail,
    session.detailOf (outpointToOutputKey o) = some (some detail) ∧
      (o, detail.utxo) ∈ chainOutputs isCoinbase chain

/-- The block's unspent outputs and its spends of older coins, in any order of enumeration. -/
structure NetDelta (b : ChainBlock) (delta : UtxoDelta OutPoint Utxo) : Prop where
  additions : delta.additions.Perm
    ((engineOutputs isCoinbase b).filter (fun coin => decide (coin.1 ∉ b.spent isCoinbase)))
  deletions : delta.deletions.Perm
    ((b.spent isCoinbase).filter (fun o => decide (o ∉ b.created)))

def PresentIn (delta : UtxoDelta OutPoint Utxo) (spentInputs : OutPoint → Option Utxo) : Prop :=
  ∀ o ∈ delta.deletions, ∃ utxo, spentInputs o = some utxo ∧
    (o, utxo) ∈ chainOutputs isCoinbase chain

theorem map_fst_engineOutputs (b : ChainBlock) :
    (engineOutputs isCoinbase b).map Prod.fst = b.created := by
  rw [engineOutputs, created, map_flatMap]
  congr 1
  funext tx
  rw [createdOutpoints, range_eq_range', ← zipIdx_map_snd 0 tx.1.outputs, map_map, map_map]
  rfl

theorem map_fst_chainOutputs :
    (chainOutputs isCoinbase chain).map Prod.fst = chain.flatMap created := by
  rw [chainOutputs, map_flatMap]
  simp only [map_fst_engineOutputs]

variable {isCoinbase hash chain}

theorem outpointFactor_of_mem (hunique : (chain.flatMap created).Nodup)
    {coin : OutPoint × Utxo} (h : coin ∈ chainOutputs isCoinbase chain) :
    outpointFactor isCoinbase hash chain coin.1 = coinFactor hash coin := by
  rw [← map_fst_chainOutputs isCoinbase] at hunique
  rw [outpointFactor, (RowTable.lookup_eq_some_iff hunique).mpr h]

variable (isCoinbase hash) in
theorem map_coinFactor_engineOutputs (hunique : (chain.flatMap created).Nodup)
    {b : ChainBlock} (hb : b ∈ chain) (p : OutPoint → Bool) :
    ((engineOutputs isCoinbase b).filter (fun coin => p coin.1)).map (coinFactor hash) =
      (b.created.filter p).map (outpointFactor isCoinbase hash chain) := by
  rw [← map_fst_engineOutputs isCoinbase, filter_map, map_map]
  apply map_congr_left
  intro coin hcoin
  have hmem : coin ∈ chainOutputs isCoinbase chain :=
    mem_flatMap_of_mem hb (mem_of_mem_filter hcoin)
  exact (outpointFactor_of_mem hunique hmem).symm

theorem ValidBlock.tail_inputs {coins : Finset OutPoint} {b : ChainBlock}
    (h : ValidBlock isCoinbase coins b) :
    b.transactions.tail.flatMap Transaction.inputs = b.spent isCoinbase := by
  have hfirst := h.coinbaseFirst
  rw [h.spent_eq]
  cases htxs : b.transactions with
  | nil => rfl
  | cons tx txs =>
    rw [htxs, map_cons, cons.injEq] at hfirst
    rw [flatMap_cons, hfirst.1, if_pos rfl, nil_append, tail_cons]
    apply flatMap_congr
    intro tx' htx'
    have hplain : isCoinbase tx' = false := by
      have hmem : isCoinbase tx' ∈ txs.map isCoinbase := mem_map_of_mem htx'
      rw [hfirst.2] at hmem
      exact eq_of_mem_replicate hmem
    rw [hplain]
    rfl

def blockFactor (factor : OutPoint → G) (isCoinbase : Transaction → Bool) (b : ChainBlock) : G :=
  (b.created.map factor).prod / ((b.spent isCoinbase).map factor).prod

variable (hash) in
theorem value_foldBlockEngineMuhash (hunique : (chain.flatMap created).Nodup)
    {coins : Finset OutPoint} {b : ChainBlock} (hv : ValidBlock isCoinbase coins b)
    (hb : b ∈ chain) {session : SpendSession}
    (hsession : CompleteSession isCoinbase chain b session) (acc : M) :
    ∃ acc', foldBlockEngineMuhash isCoinbase hash b session acc = some acc' ∧
      hash.value acc' = hash.value acc *
        blockFactor (outpointFactor isCoinbase hash chain) isCoinbase b := by
  have hcoins : ∀ o ∈ b.spent isCoinbase, ∃ detail,
      session.detailOf (outpointToOutputKey o) = some (some detail) ∧
        coinFactor hash (o, detail.utxo) = outpointFactor isCoinbase hash chain o := by
    intro o ho
    obtain ⟨detail, hdetail, hmem⟩ := hsession o ho
    exact ⟨detail, hdetail, (outpointFactor_of_mem hunique hmem).symm⟩
  obtain ⟨acc', hfold, hvalue⟩ := value_foldlM_removeCoin hash hcoins
    ((engineOutputs isCoinbase b).foldl (insertCoin hash) acc)
  have hcreated := map_coinFactor_engineOutputs isCoinbase hash hunique hb (fun _ => true)
  rw [filter_true, filter_true] at hcreated
  refine ⟨acc', ?_, ?_⟩
  · rw [foldBlockEngineMuhash, hv.tail_inputs]
    exact hfold
  · rw [hvalue, value_foldl_insertCoin, hcreated, blockFactor, mul_div_assoc]

variable {coins : Finset OutPoint} {b : ChainBlock}

theorem blockFactor_eq_net (hv : ValidBlock isCoinbase coins b) (factor : OutPoint → G) :
    blockFactor factor isCoinbase b =
      ((b.created.filter (fun o => decide (o ∉ b.spent isCoinbase))).map factor).prod /
        (((b.spent isCoinbase).filter (fun o => decide (o ∉ b.created))).map factor).prod := by
  have hfilter : ∀ l l' : List OutPoint,
      (l.filter (fun o => decide (o ∉ l'))).toFinset = l.toFinset \ l'.toFinset := by
    intro l l'
    ext o
    simp
  rw [blockFactor, ← prod_toFinset factor hv.nodup_created,
    ← prod_toFinset factor hv.nodup_spent, ← Finset.prod_sdiff_div_prod_sdiff,
    ← prod_toFinset factor (hv.nodup_created.filter _),
    ← prod_toFinset factor (hv.nodup_spent.filter _), hfilter, hfilter]

theorem value_foldBlockUtxoDeltaMuhash (hunique : (chain.flatMap created).Nodup)
    (hv : ValidBlock isCoinbase coins b)
    (hb : b ∈ chain) {delta : UtxoDelta OutPoint Utxo} {spentInputs : OutPoint → Option Utxo}
    (hdelta : NetDelta isCoinbase b delta) (hpresent : PresentIn isCoinbase chain delta spentInputs)
    (acc : M) : hash.value (foldBlockUtxoDeltaMuhash hash delta spentInputs acc) = hash.value acc *
      blockFactor (outpointFactor isCoinbase hash chain) isCoinbase b := by
  have hcoins : ∀ o ∈ delta.deletions, ∃ utxo, spentInputs o = some utxo ∧
      coinFactor hash (o, utxo) = outpointFactor isCoinbase hash chain o := by
    intro o ho
    obtain ⟨utxo, hutxo, hmem⟩ := hpresent o ho
    exact ⟨utxo, hutxo, (outpointFactor_of_mem hunique hmem).symm⟩
  rw [foldBlockUtxoDeltaMuhash, value_foldl_removeCoin hash hcoins, value_foldl_insertCoin,
    (hdelta.additions.map _).prod_eq, (hdelta.deletions.map _).prod_eq, blockFactor_eq_net hv,
    map_coinFactor_engineOutputs isCoinbase hash hunique hb
      (fun o => decide (o ∉ b.spent isCoinbase)), mul_div_assoc]

theorem muhashOf_applyTransactions (hv : ValidBlock isCoinbase coins b) :
    muhashOf isCoinbase hash chain (applyTransactions isCoinbase coins b.identified) =
      muhashOf isCoinbase hash chain coins *
        blockFactor (outpointFactor isCoinbase hash chain) isCoinbase b := by
  have hset : applyTransactions isCoinbase coins b.identified =
      (coins ∪ b.created.toFinset) \ (b.spent isCoinbase).toFinset := by
    ext o
    rw [hv.mem_apply]
    simp
  have hspent : (b.spent isCoinbase).toFinset ⊆ coins ∪ b.created.toFinset := by
    intro o ho
    rw [mem_toFinset] at ho
    rw [Finset.mem_union, mem_toFinset]
    exact spent_subset hv.inputs ho
  have hfresh : Disjoint coins b.created.toFinset := by
    rw [Finset.disjoint_right]
    intro o ho
    exact hv.notMem_of_created (mem_toFinset.mp ho)
  have hprod := Finset.prod_sdiff (f := outpointFactor isCoinbase hash chain) hspent
  rw [Finset.prod_union hfresh, prod_toFinset _ hv.nodup_created,
    prod_toFinset _ hv.nodup_spent] at hprod
  rw [muhashOf, muhashOf, hset, blockFactor, ← mul_div_assoc, ← hprod, mul_div_cancel_right]

end Chain

/-- A chain whose last part is validated from a first height on, without gaps. -/
structure FoldedChain (isCoinbase : Transaction → Bool) (base blocks : List ChainBlock)
    (firstHeight : ℕ) : Prop where
  valid : ValidChain isCoinbase (base ++ blocks)
  unique : ((base ++ blocks).flatMap ChainBlock.created).Nodup
  below : ∀ b ∈ base, b.height < firstHeight
  heights : ∀ (i : ℕ) (b : ChainBlock), blocks[i]? = some b → b.height = (firstHeight + i : ℕ)

section Folder

variable {M G : Type} [CommGroup G] {isCoinbase : Transaction → Bool} {hash : MuHash3072 M G}
  {base blocks : List ChainBlock} {firstHeight : ℕ}

namespace FoldedChain

variable (h : FoldedChain isCoinbase base blocks firstHeight)

include h

theorem validBlock {i : ℕ} {b : ChainBlock} (hb : blocks[i]? = some b) :
    ValidBlock isCoinbase (coinsAfter isCoinbase (base ++ blocks.take i)) b := by
  obtain ⟨hlt, rfl⟩ := List.getElem?_eq_some_iff.mp hb
  apply h.valid.valid _ _ (blocks.drop (i + 1))
  rw [List.append_assoc, List.cons_getElem_drop_succ, List.take_append_drop]

theorem coinsAt_eq {k : ℕ} {height : ℤ} (hheight : height + 1 = (firstHeight + k : ℕ)) :
    coinsAt isCoinbase height (base ++ blocks) = coinsAfter isCoinbase (base ++ blocks.take k) := by
  have hbase : base.filter (fun b => decide (b.height ≤ height)) = base := by
    rw [filter_eq_self]
    intro b hb
    have hlow := h.below b hb
    rw [decide_eq_true_eq]
    omega
  have hkept : (blocks.take k).filter (fun b => decide (b.height ≤ height)) = blocks.take k := by
    rw [filter_eq_self]
    intro b hb
    obtain ⟨i, hi⟩ := List.mem_iff_getElem?.mp hb
    have hik : i < k := by
      obtain ⟨hlt, -⟩ := List.getElem?_eq_some_iff.mp hi
      rw [List.length_take] at hlt
      omega
    rw [getElem?_take_of_lt hik] at hi
    have hat := h.heights i b hi
    rw [decide_eq_true_eq]
    omega
  have hdropped : (blocks.drop k).filter (fun b => decide (b.height ≤ height)) = [] := by
    rw [filter_eq_nil_iff]
    intro b hb
    obtain ⟨i, hi⟩ := mem_iff_getElem?.mp hb
    rw [getElem?_drop] at hi
    have hat := h.heights _ b hi
    rw [decide_eq_true_eq]
    omega
  have hsplit : (base ++ blocks).filter (fun b => decide (b.height ≤ height)) =
      base ++ blocks.take k := by
    conv_lhs => rw [← take_append_drop k blocks]
    rw [filter_append, filter_append, hbase, hkept, hdropped, append_nil]
  rw [coinsAt, hsplit]

end FoldedChain

/-- After some events `k` blocks are folded, and what waits are contributions of blocks of the
chain. -/
structure FoldedTo (isCoinbase : Transaction → Bool) (hash : MuHash3072 M G)
    (base blocks : List ChainBlock) (firstHeight k : ℕ) (folder : InOrderMuHashFolder M) (acc : M) :
    Prop where
  next : folder.next = firstHeight + k
  value : hash.value acc = muhashOf isCoinbase hash.toMuHash (base ++ blocks)
    (coinsAfter isCoinbase (base ++ blocks.take k))
  pending : ∀ height sub, folder.pending.get height = some sub → ∃ b ∈ blocks,
    b.height = height ∧ hash.value sub.1 =
      blockFactor (outpointFactor isCoinbase hash.toMuHash (base ++ blocks)) isCoinbase b

section

variable (hchain : FoldedChain isCoinbase base blocks firstHeight) {k : ℕ}
    {folder : InOrderMuHashFolder M} {acc : M}
    (h : FoldedTo isCoinbase hash base blocks firstHeight k folder acc)
include hchain h

theorem FoldedTo.round {sub : M × ℕ} (hsub : folder.pending.get folder.next = some sub) :
    FoldedTo isCoinbase hash base blocks firstHeight (k + 1)
      ⟨folder.next + 1, folder.pending.erase folder.next⟩ (hash.multiplyMut acc sub.1) := by
  obtain ⟨b, hb, hheight, hfactor⟩ := h.pending folder.next sub hsub
  obtain ⟨i, hi⟩ := mem_iff_getElem?.mp hb
  have hik : i = k := by
    have hat := hchain.heights i b hi
    have hnext := h.next
    omega
  subst hik
  have htake : blocks.take (i + 1) = blocks.take i ++ [b] := by
    rw [take_add_one, hi]
    rfl
  constructor
  · have hnext := h.next
    dsimp only
    omega
  · rw [htake, ← append_assoc, coinsAfter_append_singleton,
      muhashOf_applyTransactions (hchain.validBlock hi), hash.value_multiplyMut, h.value, hfactor]
  · intro height sub' hget
    dsimp only at hget
    rw [KeyTable.get_erase] at hget
    split_ifs at hget
    exact h.pending height sub' hget

theorem FoldedTo.push {b : ChainBlock} (hb : b ∈ blocks) {sub : M}
    (hsub : hash.value sub = blockFactor (outpointFactor isCoinbase hash.toMuHash (base ++ blocks))
      isCoinbase b)
    (us : ℕ) :
    FoldedTo isCoinbase hash base blocks firstHeight k (folder.push ⟨b.height.toNat, sub, us⟩)
      acc := by
  rw [InOrderMuHashFolder.push]
  split_ifs with hold
  · exact h
  · refine ⟨h.next, h.value, ?_⟩
    intro height sub' hget
    dsimp only at hget
    rw [KeyTable.get_insert] at hget
    split_ifs at hget with heq
    · cases hget
      have hnonneg := hchain.valid.nonneg b (mem_append_right _ hb)
      exact ⟨b, hb, by omega, hsub⟩
    · exact h.pending height sub' hget

end

/-- Every push comes from a worker on a block of the chain with a complete session. -/
def MuHashEvent.FromWorker (isCoinbase : Transaction → Bool) (base blocks : List ChainBlock) :
    MuHashEvent → Prop
  | .push b session _ => b ∈ blocks ∧ CompleteSession isCoinbase (base ++ blocks) b session
  | .foldReady => True

theorem FoldedTo.step (hchain : FoldedChain isCoinbase base blocks firstHeight) {k : ℕ}
    {orch : MuHashOrchestrator M}
    (h : FoldedTo isCoinbase hash base blocks firstHeight k orch.folder orch.acc)
    {event : MuHashEvent} (hevent : event.FromWorker isCoinbase base blocks) :
    ∃ k', FoldedTo isCoinbase hash base blocks firstHeight k'
      (orch.step isCoinbase hash event).folder (orch.step isCoinbase hash event).acc := by
  cases event with
  | push b session us =>
    obtain ⟨hb, hsession⟩ := hevent
    obtain ⟨i, hi⟩ := mem_iff_getElem?.mp hb
    obtain ⟨sub, hfold, hvalue⟩ := value_foldBlockEngineMuhash hash.toMuHash hchain.unique
      (hchain.validBlock hi) (mem_append_right _ hb) hsession hash.new
    rw [hash.value_new, one_mul] at hvalue
    refine ⟨k, ?_⟩
    simp only [MuHashOrchestrator.step, hfold]
    exact h.push hchain hb hvalue us
  | foldReady =>
    exact foldLoop_invariant
      (fun folder acc => ∃ k', FoldedTo isCoinbase hash base blocks firstHeight k' folder acc)
      (fun folder acc sub hprev hsub => ⟨_, hprev.choose_spec.round hchain hsub⟩) _ ⟨k, h⟩ 0

theorem FoldedTo.run (hchain : FoldedChain isCoinbase base blocks firstHeight)
    {orch : MuHashOrchestrator M} {k : ℕ}
    (h : FoldedTo isCoinbase hash base blocks firstHeight k orch.folder orch.acc)
    {events : List MuHashEvent} (hevents : ∀ e ∈ events, e.FromWorker isCoinbase base blocks) :
    ∃ k', FoldedTo isCoinbase hash base blocks firstHeight k'
      (events.foldl (MuHashOrchestrator.step isCoinbase hash) orch).folder
      (events.foldl (MuHashOrchestrator.step isCoinbase hash) orch).acc := by
  induction events generalizing orch k with
  | nil => exact ⟨k, h⟩
  | cons event events ih =>
    rw [forall_mem_cons] at hevents
    obtain ⟨k', hk'⟩ := h.step hchain hevents.1
    exact ih hk' hevents.2

def foldedRun (isCoinbase : Transaction → Bool) (hash : MuHash3072 M G) (firstHeight : ℕ) (acc : M)
    (events : List MuHashEvent) : MuHashOrchestrator M :=
  (events ++ [MuHashEvent.foldReady]).foldl (MuHashOrchestrator.step isCoinbase hash)
    ⟨.new firstHeight, acc⟩

/-- After any events and a fold, nothing waits for the next height and the accumulator is the MuHash
of the outputs unspent at the reported height, unless the folder starts at height 0 and has folded
nothing. For each block the engine's contribution is that of its net delta. -/
theorem rolling_muhash_iff (hash : MuHash3072 M G)
    (hchain : FoldedChain isCoinbase base blocks firstHeight) (acc : M)
    (hacc : hash.value acc = muhashOf isCoinbase hash.toMuHash (base ++ blocks)
      (coinsAfter isCoinbase base))
    (events : List MuHashEvent) (hevents : ∀ e ∈ events, e.FromWorker isCoinbase base blocks) :
    (foldedRun isCoinbase hash firstHeight acc events).folder.pending.get
        (foldedRun isCoinbase hash firstHeight acc events).folder.next = none ∧
      (hash.value (foldedRun isCoinbase hash firstHeight acc events).acc =
          muhashOf isCoinbase hash.toMuHash (base ++ blocks) (coinsAt isCoinbase
            (foldedRun isCoinbase hash firstHeight acc events).folder.foldedThrough
            (base ++ blocks)) ↔
        0 < (foldedRun isCoinbase hash firstHeight acc events).folder.next ∨
          muhashOf isCoinbase hash.toMuHash (base ++ blocks)
            (coinsAt isCoinbase 0 (base ++ blocks)) = 1) ∧
      ∀ b ∈ blocks, ∀ session, CompleteSession isCoinbase (base ++ blocks) b session →
        ∀ delta spentInputs, NetDelta isCoinbase b delta →
          PresentIn isCoinbase (base ++ blocks) delta spentInputs → ∀ m, ∃ m',
            foldBlockEngineMuhash isCoinbase hash.toMuHash b session m = some m' ∧
              hash.value m' =
                hash.value (foldBlockUtxoDeltaMuhash hash.toMuHash delta spentInputs m) := by
  have hstart : FoldedTo isCoinbase hash base blocks firstHeight 0 (.new firstHeight) acc := by
    refine ⟨rfl, ?_, fun height sub hget => ?_⟩
    · rw [take_zero, append_nil]
      exact hacc
    · rw [new, KeyTable.get_empty] at hget
      cases hget
  have hlast : ∀ e ∈ events ++ [MuHashEvent.foldReady], e.FromWorker isCoinbase base blocks := by
    rw [forall_mem_append, forall_mem_singleton]
    exact ⟨hevents, trivial⟩
  obtain ⟨k, hk⟩ := @FoldedTo.run _ _ _ _ _ _ _ _ hchain ⟨.new firstHeight, acc⟩ 0 hstart _ hlast
  refine ⟨?_, ?_, ?_⟩
  · rw [foldedRun, foldl_append]
    exact foldReady_drained hash.multiplyMut _ _
  · have hnext := hk.next
    have hvalue := hk.value
    rw [← foldedRun] at hnext hvalue
    set run := foldedRun isCoinbase hash firstHeight acc events
    by_cases hpos : 0 < run.folder.next
    · have hheight : (run.folder.foldedThrough : ℤ) + 1 = (firstHeight + k : ℕ) := by
        rw [foldedThrough]
        omega
      rw [hchain.coinsAt_eq hheight]
      exact ⟨fun _ => .inl hpos, fun _ => hvalue⟩
    · have hzero : run.folder.foldedThrough = 0 := by
        rw [foldedThrough]
        omega
      have hempty : base = [] := by
        apply eq_nil_iff_forall_not_mem.mpr
        intro b hb
        have hlow := hchain.below b hb
        have hnonneg := hchain.valid.nonneg b (mem_append_left _ hb)
        omega
      have hk0 : k = 0 := by omega
      have hone : hash.value run.acc = 1 := by
        rw [hvalue, hk0, hempty]
        rfl
      rw [hzero, hone, or_iff_right hpos, eq_comm]
      rfl
  · intro b hb session hsession delta spentInputs hdelta hpresent m
    obtain ⟨i, hi⟩ := mem_iff_getElem?.mp hb
    have hmem := mem_append_right base hb
    obtain ⟨m', hfold, hm'⟩ := value_foldBlockEngineMuhash hash.toMuHash hchain.unique
      (hchain.validBlock hi) hmem hsession m
    refine ⟨m', hfold, ?_⟩
    rw [hm', value_foldBlockUtxoDeltaMuhash hchain.unique (hchain.validBlock hi) hmem hdelta
      hpresent]

end Folder

section Parity

/-- A hash that counts coins modulo two. -/
def parityHash : MuHash3072 (Multiplicative (ZMod 2)) (Multiplicative (ZMod 2)) where
  preimage := fun _ _ => []
  element := fun _ => Multiplicative.ofAdd 1
  value := id
  insertMut := fun m _ => m * Multiplicative.ofAdd 1
  removeMut := fun m _ => m / Multiplicative.ofAdd 1
  serializeRunningState := fun m => [if m = 1 then 0 else 1]
  deserializeRunningState := fun data => if data = [0] then 1 else Multiplicative.ofAdd 1
  runningStateBytes := 1
  value_insertMut := fun _ _ => rfl
  value_removeMut := fun _ _ => rfl
  deserialize_serialize := by decide
  length_serialize := fun _ => rfl
  new := 1
  multiplyMut := fun m m' => m * m'
  value_new := rfl
  value_multiplyMut := fun _ _ => rfl

theorem heights_singleton {b : ChainBlock} {firstHeight : ℕ} (h : b.height = firstHeight) (i : ℕ)
    (b' : ChainBlock) (hb : [b][i]? = some b') : b'.height = (firstHeight + i : ℕ) := by
  obtain ⟨hlt, rfl⟩ := List.getElem?_eq_some_iff.mp hb
  obtain rfl : i = 0 := by simpa using hlt
  exact h

theorem foldedChain_handover : FoldedChain nullCoinbase [subsidyBlock] [handoverBlock] 101 where
  valid := validChain_handover
  unique := by decide
  below := by decide
  heights := heights_singleton rfl

/-- The older coin is fetched, the coin of the block itself is kept with it. -/
def handoverSession : SpendSession :=
  ⟨[outputDetailFromParts ⟨0, 1, 50⟩ [0x51]], [(outpointToOutputKey ⟨10, 0⟩, 0)],
    [(outpointToOutputKey ⟨11, 0⟩, outputDetailFromParts ⟨101, 0, 50⟩ [0x51])]⟩

theorem completeSession_handover :
    CompleteSession nullCoinbase [subsidyBlock, handoverBlock] handoverBlock handoverSession := by
  have hspent : handoverBlock.spent nullCoinbase = [⟨10, 0⟩, ⟨11, 0⟩] := by decide
  rw [CompleteSession, hspent, forall_mem_cons, forall_mem_singleton]
  exact ⟨⟨_, rfl, by decide⟩, ⟨_, rfl, by decide⟩⟩

/-- The contribution of block 101, which spends an older output and one of its own, arrives twice
and is folded once. -/
theorem rolling_muhash_iff_repeated :
    parityHash.value (foldedRun nullCoinbase parityHash 101 (Multiplicative.ofAdd 1)
        [.push handoverBlock handoverSession 0, .foldReady,
          .push handoverBlock handoverSession 0]).acc =
      muhashOf nullCoinbase parityHash.toMuHash [subsidyBlock, handoverBlock]
        (coinsAt nullCoinbase 101 [subsidyBlock, handoverBlock]) := by
  have hworker : MuHashEvent.FromWorker nullCoinbase [subsidyBlock] [handoverBlock]
      (.push handoverBlock handoverSession 0) :=
    ⟨mem_singleton_self _, completeSession_handover⟩
  have hevents : ∀ e ∈ [MuHashEvent.push handoverBlock handoverSession 0, .foldReady,
      .push handoverBlock handoverSession 0],
      e.FromWorker nullCoinbase [subsidyBlock] [handoverBlock] := by
    simp only [forall_mem_cons]
    exact ⟨hworker, trivial, hworker, nofun⟩
  exact (rolling_muhash_iff parityHash foldedChain_handover _ (by decide) _ hevents).2.1.mpr
    (.inl (by decide))

def coinbaseOnly : ChainBlock := ⟨[coinbaseTx], [1], 0⟩

theorem foldedChain_coinbaseOnly : FoldedChain nullCoinbase [] [coinbaseOnly] 0 where
  valid := by
    apply ValidChain.nil.snoc _ (nofun) (by decide)
    constructor <;> decide
  unique := by decide
  below := nofun
  heights := heights_singleton rfl

/-- A folder for height 0 that has folded nothing reports height 0, where an output is unspent. -/
theorem unfolded_genesis_reported :
    FoldedChain nullCoinbase [] [coinbaseOnly] 0 ∧
      (foldedRun nullCoinbase parityHash 0 1 []).folder.foldedThrough = 0 ∧
      parityHash.value (foldedRun nullCoinbase parityHash 0 1 []).acc ≠
        muhashOf nullCoinbase parityHash.toMuHash [coinbaseOnly]
          (coinsAt nullCoinbase 0 [coinbaseOnly]) :=
  ⟨foldedChain_coinbaseOnly, rfl, by decide⟩

end Parity

end BlvmNode
