import BlvmNode.CoinDelta
import BlvmNode.PendingLog
import BlvmNode.SessionRuns
import BlvmNode.Lib.KeyTable

/-!
# The MuHash of a block and the folder of the workers' contributions

A worker hashes the outputs of its block and removes its inputs with the coins of the spend session.
The contributions reach the orchestrator in any order; the folder multiplies them into the running
accumulator by height.
-/

namespace BlvmNode

open List

/-- The rolling hash of the coins of the engine, with the neutral state and the product. -/
structure MuHash3072 (M G : Type) [CommGroup G] extends MuHash Utxo M G where
  new : M
  multiplyMut : M → M → M
  value_new : value new = 1
  value_multiplyMut : ∀ m m', value (multiplyMut m m') = value m * value m'

section Fold

variable {M G : Type} [CommGroup G] (isCoinbase : Transaction → Bool)

/-- The coins the engine hashes for a block; transactions without an id are left out. -/
def engineOutputs (b : ChainBlock) : List (OutPoint × Utxo) :=
  b.identified.flatMap fun tx => tx.1.outputs.zipIdx.map fun out =>
    (⟨tx.2, BitVec.ofNat 32 out.2⟩,
      ⟨out.1.value, out.1.scriptPubkey, BitVec.ofInt 64 b.height, isCoinbase tx.1⟩)

def insertCoin (hash : MuHash Utxo M G) (acc : M) (coin : OutPoint × Utxo) : M :=
  hash.insertMut acc (hash.preimage coin.1 coin.2)

def removeCoin (hash : MuHash Utxo M G) (acc : M) (coin : OutPoint × Utxo) : M :=
  hash.removeMut acc (hash.preimage coin.1 coin.2)

/-- `fold_block_utxo_delta_muhash`: a deletion whose coin is missing is skipped. -/
def foldBlockUtxoDeltaMuhash (hash : MuHash Utxo M G) (delta : UtxoDelta OutPoint Utxo)
    (spentInputs : OutPoint → Option Utxo) (acc : M) : M :=
  delta.deletions.foldl
    (fun acc o => match spentInputs o with
      | some utxo => removeCoin hash acc (o, utxo)
      | none => acc)
    (delta.additions.foldl (insertCoin hash) acc)

/-- `fold_block_engine_muhash`: an input without a coin is skipped, a rank outside the details
panics. -/
def foldBlockEngineMuhash (hash : MuHash Utxo M G) (b : ChainBlock) (session : SpendSession)
    (acc : M) : Option M :=
  (b.transactions.tail.flatMap Transaction.inputs).foldlM
    (fun acc o => (session.detailOf (outpointToOutputKey o)).map fun found => match found with
      | some detail => removeCoin hash acc (o, detail.utxo)
      | none => acc)
    ((engineOutputs isCoinbase b).foldl (insertCoin hash) acc)

end Fold

structure MuHashSub (M : Type) where
  height : ℕ
  sub : M
  computeUs : ℕ

structure InOrderMuHashFolder (M : Type) where
  next : ℕ
  pending : KeyTable ℕ (M × ℕ)

namespace InOrderMuHashFolder

variable {M : Type} {folder : InOrderMuHashFolder M} (multiply : M → M → M)

def new (firstHeight : ℕ) : InOrderMuHashFolder M := ⟨firstHeight, .empty⟩

def push (folder : InOrderMuHashFolder M) (s : MuHashSub M) : InOrderMuHashFolder M :=
  if s.height < folder.next then folder
  else { folder with pending := folder.pending.insert s.height (s.sub, s.computeUs) }

def saturatingAdd (a b : ℕ) : ℕ := min (a + b) (2 ^ 64 - 1)

/-- The loop of `fold_ready`: the new folder, the new accumulator and the time that was summed. -/
def foldLoop (multiply : M → M → M) :
    ℕ → InOrderMuHashFolder M → M → ℕ → InOrderMuHashFolder M × M × ℕ
  | 0, folder, acc, us => (folder, acc, us)
  | fuel + 1, folder, acc, us =>
    match folder.pending.get folder.next with
    | none => (folder, acc, us)
    | some sub => foldLoop multiply fuel ⟨folder.next + 1, folder.pending.erase folder.next⟩
        (multiply acc sub.1) (saturatingAdd us sub.2)

/-- Each round removes a row, so there are no more rounds than rows. -/
def foldReady (multiply : M → M → M) (folder : InOrderMuHashFolder M) (acc : M) :
    InOrderMuHashFolder M × M × ℕ :=
  foldLoop multiply folder.pending.rows.length folder acc 0

def foldedThrough (folder : InOrderMuHashFolder M) : ℕ := folder.next - 1

theorem foldLoop_drained {fuel : ℕ} (h : folder.pending.rows.length ≤ fuel) (acc : M) (us : ℕ) :
    (foldLoop multiply fuel folder acc us).1.pending.get
      (foldLoop multiply fuel folder acc us).1.next = none := by
  induction fuel generalizing folder acc us with
  | zero =>
    have hrows : folder.pending.rows = [] := length_eq_zero_iff.mp (Nat.le_zero.mp h)
    rw [foldLoop, KeyTable.get, hrows]
    rfl
  | succ fuel ih =>
    rw [foldLoop]
    cases hget : folder.pending.get folder.next with
    | none => exact hget
    | some sub =>
      apply ih
      have hshort := KeyTable.length_erase_lt hget
      dsimp only
      omega

theorem foldReady_drained (folder : InOrderMuHashFolder M) (acc : M) :
    (folder.foldReady multiply acc).1.pending.get (folder.foldReady multiply acc).1.next = none :=
  foldLoop_drained multiply le_rfl acc 0

theorem foldLoop_invariant {multiply : M → M → M} (P : InOrderMuHashFolder M → M → Prop)
    (hround : ∀ folder acc sub, P folder acc → folder.pending.get folder.next = some sub →
      P ⟨folder.next + 1, folder.pending.erase folder.next⟩ (multiply acc sub.1))
    (fuel : ℕ) {acc : M} (h : P folder acc) (us : ℕ) :
    P (foldLoop multiply fuel folder acc us).1 (foldLoop multiply fuel folder acc us).2.1 := by
  induction fuel generalizing folder acc us with
  | zero => exact h
  | succ fuel ih =>
    rw [foldLoop]
    cases hget : folder.pending.get folder.next with
    | none => exact h
    | some sub => exact ih (hround folder acc sub h hget) _

end InOrderMuHashFolder

structure MuHashOrchestrator (M : Type) where
  folder : InOrderMuHashFolder M
  acc : M

inductive MuHashEvent
  | push (b : ChainBlock) (session : SpendSession) (computeUs : ℕ)
  | foldReady

namespace MuHashOrchestrator

variable {M G : Type} [CommGroup G] (isCoinbase : Transaction → Bool) (hash : MuHash3072 M G)

/-- The worker starts from the neutral state; a worker that panicked sends nothing. -/
def step (orch : MuHashOrchestrator M) : MuHashEvent → MuHashOrchestrator M
  | .push b session computeUs =>
    match foldBlockEngineMuhash isCoinbase hash.toMuHash b session hash.new with
    | some sub => { orch with folder := orch.folder.push ⟨b.height.toNat, sub, computeUs⟩ }
    | none => orch
  | .foldReady =>
    let folded := orch.folder.foldReady hash.multiplyMut orch.acc
    ⟨folded.1, folded.2.1⟩

end MuHashOrchestrator

section Values

variable {M G : Type} [CommGroup G] (hash : MuHash Utxo M G) {factor : OutPoint → G}
  {spent : List OutPoint}

def coinFactor (coin : OutPoint × Utxo) : G := hash.element (hash.preimage coin.1 coin.2)

theorem value_foldl_insertCoin (coins : List (OutPoint × Utxo)) (acc : M) :
    hash.value (coins.foldl (insertCoin hash) acc) =
      hash.value acc * (coins.map (coinFactor hash)).prod := by
  induction coins generalizing acc with
  | nil => simp
  | cons coin coins ih =>
    rw [foldl_cons, ih, insertCoin, hash.value_insertMut, map_cons, prod_cons, mul_assoc]
    rfl

theorem value_foldl_removeCoin {spentInputs : OutPoint → Option Utxo}
    (h : ∀ o ∈ spent, ∃ utxo, spentInputs o = some utxo ∧ coinFactor hash (o, utxo) = factor o)
    (acc : M) :
    hash.value (spent.foldl (fun acc o => match spentInputs o with
        | some utxo => removeCoin hash acc (o, utxo)
        | none => acc) acc) = hash.value acc / (spent.map factor).prod := by
  induction spent generalizing acc with
  | nil => simp
  | cons o spent ih =>
    rw [forall_mem_cons] at h
    obtain ⟨⟨utxo, hutxo, hfactor⟩, hrest⟩ := h
    rw [foldl_cons, ih hrest, hutxo, map_cons, prod_cons, ← hfactor, ← div_div]
    simp only [removeCoin, hash.value_removeMut, coinFactor]

theorem value_foldlM_removeCoin {session : SpendSession}
    (h : ∀ o ∈ spent, ∃ detail, session.detailOf (outpointToOutputKey o) = some (some detail) ∧
      coinFactor hash (o, detail.utxo) = factor o) (acc : M) : ∃ acc', spent.foldlM
        (fun acc o => (session.detailOf (outpointToOutputKey o)).map fun found => match found with
          | some detail => removeCoin hash acc (o, detail.utxo)
          | none => acc) acc = some acc' ∧
      hash.value acc' = hash.value acc / (spent.map factor).prod := by
  induction spent generalizing acc with
  | nil => exact ⟨acc, rfl, by simp⟩
  | cons o spent ih =>
    rw [forall_mem_cons] at h
    obtain ⟨⟨detail, hdetail, hfactor⟩, hrest⟩ := h
    obtain ⟨acc', hfold, hvalue⟩ := ih hrest (removeCoin hash acc (o, detail.utxo))
    refine ⟨acc', ?_, ?_⟩
    · rw [foldlM_cons, hdetail]
      exact hfold
    · rw [hvalue, map_cons, prod_cons, ← hfactor, ← div_div]
      simp only [removeCoin, hash.value_removeMut, coinFactor]

end Values

end BlvmNode
