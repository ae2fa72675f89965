import BlvmNode.Standardness
import Mathlib.Data.List.MinMax

/-!
# Compact blocks

A compact block names transactions by short ids, except for the prefilled ones. The receiver places
prefilled transactions by their index and pool transactions by their short id, and asks for the
rest. A short id stands for the next position that is not prefilled.
-/

namespace BlvmNode

open List

abbrev ShortTxId := BitVec 48

structure TxHashes where
  calculateTxId : RawTransaction → Hash
  witnessHash : RawTransaction → List Witness → Option Hash

def hasWitness (wits : List Witness) : Bool := wits.any (fun stack => !stack.isEmpty)

def calculateWtxid (hashes : TxHashes) (tx : RawTransaction) (witnesses : Option (List Witness)) :
    Hash :=
  match witnesses with
  | none => hashes.calculateTxId tx
  | some wits =>
    if hasWitness wits then (hashes.witnessHash tx wits).getD (hashes.calculateTxId tx)
    else hashes.calculateTxId tx

section Types

variable (Header : Type)

structure FullBlock where
  header : Header
  transactions : List RawTransaction

abbrev SlotEntry := RawTransaction × Option (List Witness)

structure CompactBlock where
  header : Header
  nonce : BitVec 64
  shortIds : List ShortTxId
  prefilledTxs : List (ℕ × SlotEntry)

/-- A block under reconstruction; its age and the bytes it retains are left out. -/
structure CompactAssembly where
  header : Header
  nonce : BitVec 64
  slots : List (Option SlotEntry)
  missing : List ℕ

end Types

section Positions

def skipPrefilled (prefilled : List ℕ) : ℕ → ℕ → ℕ
  | 0, next => next
  | fuel + 1, next => if next ∈ prefilled then skipPrefilled prefilled fuel (next + 1) else next

def shortIdPositions (prefilled : List ℕ) : ℕ → ℕ → List ℕ
  | 0, _ => []
  | count + 1, next =>
    let blockIndex := skipPrefilled prefilled (prefilled.foldr max 0 + 1) next
    blockIndex :: shortIdPositions prefilled count (blockIndex + 1)

variable {prefilled : List ℕ}

theorem skipPrefilled_spec {fuel next : ℕ} (hfuel : ∀ a ∈ prefilled, a < next + fuel) :
    next ≤ skipPrefilled prefilled fuel next ∧ skipPrefilled prefilled fuel next ∉ prefilled ∧
      ∀ k, next ≤ k → k < skipPrefilled prefilled fuel next → k ∈ prefilled := by
  induction fuel generalizing next with
  | zero =>
    refine ⟨le_rfl, fun hmem => ?_, fun k hk hlt => ?_⟩
    · have hlt := hfuel next hmem
      omega
    · rw [skipPrefilled] at hlt
      omega
  | succ fuel ih =>
    rw [skipPrefilled]
    split_ifs with hmem
    · obtain ⟨hle, hfree, hbetween⟩ := @ih (next + 1) fun a ha => by
        have hlt := hfuel a ha
        omega
      refine ⟨by omega, hfree, fun k hk hlt => ?_⟩
      rcases Nat.eq_or_lt_of_le hk with rfl | hlater
      · exact hmem
      · exact hbetween k hlater hlt
    · exact ⟨le_rfl, hmem, fun k hk hlt => by omega⟩

theorem skipPrefilled_of_mem {next : ℕ} (hmem : next ∈ prefilled) :
    skipPrefilled prefilled (prefilled.foldr max 0 + 1) next =
      skipPrefilled prefilled (prefilled.foldr max 0 + 1) (next + 1) := by
  have hfuel : ∀ next, ∀ a ∈ prefilled, a < next + (prefilled.foldr max 0 + 1) := by
    intro next a ha
    have hle : a ≤ prefilled.foldr max 0 := le_max_of_le ha le_rfl
    omega
  obtain ⟨hle, hfree, hbetween⟩ := skipPrefilled_spec (hfuel next)
  obtain ⟨hle', hfree', hbetween'⟩ := skipPrefilled_spec (hfuel (next + 1))
  -- both are the first free index, which is not `next`
  have hne : skipPrefilled prefilled (prefilled.foldr max 0 + 1) next ≠ next := by
    intro heq
    rw [heq] at hfree
    exact hfree hmem
  apply Nat.le_antisymm
  · by_contra hlt
    exact hfree' (hbetween _ (by omega) (by omega))
  · by_contra hlt
    exact hfree (hbetween' _ (by omega) (by omega))

theorem shortIdPositions_eq (prefilled : List ℕ) (len next : ℕ) : shortIdPositions prefilled
      ((range' next len).filter (fun i => decide (i ∉ prefilled))).length next =
      (range' next len).filter (fun i => decide (i ∉ prefilled)) := by
  induction len generalizing next with
  | zero => rfl
  | succ len ih =>
    rw [range'_succ, filter_cons]
    by_cases hmem : next ∈ prefilled
    · have hshift : ∀ count, shortIdPositions prefilled count next =
          shortIdPositions prefilled count (next + 1) := by
        intro count
        cases count with
        | zero => rfl
        | succ count => rw [shortIdPositions, shortIdPositions, skipPrefilled_of_mem hmem]
      rw [if_neg (by simpa using hmem), hshift]
      exact ih (next + 1)
    · have hfree : skipPrefilled prefilled (prefilled.foldr max 0 + 1) next = next := by
        rw [skipPrefilled, if_neg hmem]
      rw [if_pos (by simpa using hmem), length_cons, shortIdPositions, hfree, ih (next + 1)]

end Positions

section Reconstruction

variable {Header : Type} (shortTxId : Header → Hash → BitVec 64 → ShortTxId)

def hasConflictWithTx (tx other : RawTransaction) : Bool :=
  tx.prevouts.any (fun o => decide (o ∈ other.prevouts))

def shortIdMatches (compact : CompactBlock Header) (pool : List (Hash × SlotEntry))
    (shortId : ShortTxId) : List SlotEntry :=
  (pool.filter fun row => decide (shortTxId compact.header row.1 compact.nonce = shortId)).map
    Prod.snd

def prefilledIndices (compact : CompactBlock Header) : List ℕ :=
  compact.prefilledTxs.map Prod.fst

def placedShortIds (compact : CompactBlock Header) : List (ShortTxId × ℕ) :=
  compact.shortIds.zip
    (shortIdPositions (prefilledIndices compact) compact.shortIds.length 0)

def reconstructStep (compact : CompactBlock Header) (pool : List (Hash × SlotEntry))
    (acc : List RawTransaction × List ℕ) (placed : ShortTxId × ℕ) :
    List RawTransaction × List ℕ :=
  match shortIdMatches shortTxId compact pool placed.1 with
  | [entry] =>
    if acc.1.any (hasConflictWithTx entry.1) ||
        compact.prefilledTxs.any (fun prefilled => hasConflictWithTx entry.1 prefilled.2.1) then
      (acc.1, acc.2 ++ [placed.2])
    else (acc.1 ++ [entry.1], acc.2)
  | _ => (acc.1, acc.2 ++ [placed.2])

def reconstructBlock (compact : CompactBlock Header) (pool : List (Hash × SlotEntry)) : List ℕ :=
  ((placedShortIds compact).foldl (reconstructStep shortTxId compact pool) ([], [])).2

def placePrefilled (n : ℕ) :
    List (ℕ × SlotEntry) → List (Option SlotEntry) → Except String (List (Option SlotEntry))
  | [], slots => .ok slots
  | (index, entry) :: rest, slots =>
    if n ≤ index then .error s!"prefilled compact-block index {index} is past {n}"
    else placePrefilled n rest (slots.set index (some entry))

def placeMatch (compact : CompactBlock Header) (pool : List (Hash × SlotEntry))
    (missing : List ℕ) (slots : List (Option SlotEntry)) (placed : ShortTxId × ℕ) :
    List (Option SlotEntry) :=
  if placed.2 ∈ missing then slots
  else
    match (shortIdMatches shortTxId compact pool placed.1).head? with
    | none => slots
    | some entry => slots.set placed.2 (some entry)

/-- `begin_compact_assembly`; the pool is keyed by witness id. -/
def beginCompactAssembly (compact : CompactBlock Header) (pool : List (Hash × SlotEntry)) :
    Except String (CompactAssembly Header) :=
  let missing := reconstructBlock shortTxId compact pool
  let n := compact.shortIds.length + compact.prefilledTxs.length
  match placePrefilled n compact.prefilledTxs (List.replicate n none) with
  | .error e => .error e
  | .ok slots => .ok ⟨compact.header, compact.nonce,
      (placedShortIds compact).foldl (placeMatch shortTxId compact pool missing) slots, missing⟩

def fillMissing (witnesses : Option (List (List Witness))) :
    List (ℕ × RawTransaction × ℕ) → List (Option SlotEntry) →
      Except String (List (Option SlotEntry))
  | [], slots => .ok slots
  | (index, tx, i) :: rest, slots =>
    if slots.length ≤ index then .error s!"blocktxn index {index} is past the compact block"
    else
      fillMissing witnesses rest
        (slots.set index (some (tx, witnesses.bind (fun all => all[i]?))))

def applyBlocktxn (assembly : CompactAssembly Header) (transactions : List RawTransaction)
    (witnesses : Option (List (List Witness))) : Except String (CompactAssembly Header) :=
  let given := transactions.length
  let wanted := assembly.missing.length
  if given ≠ wanted then
    .error s!"blocktxn count {given} does not match {wanted} missing positions"
  else
    match fillMissing witnesses (assembly.missing.zip transactions.zipIdx) assembly.slots with
    | .error e => .error e
    | .ok slots => .ok { assembly with slots := slots, missing := [] }

/-- A transaction without witnesses has an empty stack for every input. -/
def slotStacks (entry : SlotEntry) : List Witness :=
  entry.2.getD (entry.1.inputs.map fun _ => [])

def collectSlots :
    List (Option SlotEntry × ℕ) → Except String (List RawTransaction × List (List Witness))
  | [] => .ok ([], [])
  | (none, index) :: _ => .error s!"compact block position {index} is still missing"
  | (some entry, _) :: rest =>
    match collectSlots rest with
    | .error e => .error e
    | .ok later => .ok (entry.1 :: later.1, slotStacks entry :: later.2)

def completedCompactBlock (assembly : CompactAssembly Header) :
    Except String (FullBlock Header × List (List Witness)) :=
  match collectSlots assembly.slots.zipIdx with
  | .error e => .error e
  | .ok collected => .ok (⟨assembly.header, collected.1⟩, collected.2)

variable (hashes : TxHashes)

def createCompactBlock (block : FullBlock Header) (nonce : BitVec 64) (prefilled : Finset ℕ)
    (witnesses : List (Option (List Witness))) : CompactBlock Header :=
  let entries := block.transactions.zipIdx
  let stacksAt := fun index => (witnesses[index]?).join
  { header := block.header
    nonce := nonce
    shortIds := (entries.filter fun entry => decide (entry.2 ∉ prefilled)).map fun entry =>
      shortTxId block.header (calculateWtxid hashes entry.1 (stacksAt entry.2)) nonce
    prefilledTxs := (entries.filter fun entry => decide (entry.2 ∈ prefilled)).map fun entry =>
      (entry.2, entry.1, (stacksAt entry.2).filter hasWitness) }

end Reconstruction

end BlvmNode
