import BlvmNode.CoinSet
import BlvmNode.TieredQuery
import Mathlib.Data.List.Destutter

/-!
# Appending blocks to the engine

A block adds an entry for each of its outputs and removes what its inputs spend, except for
inputs that spend another transaction of the same block: those are resolved from the block
itself and leave no removal behind.
-/

namespace BlvmNode

open KeyedRuns Timeline List OutputKV IdCodec

def outputHeaderSize : ℕ := 16

def entryLen (o : TransactionOutput) : ℕ := outputHeaderSize + o.scriptPubkey.length

def txSize (tx : Transaction) : ℕ := (tx.outputs.map entryLen).sum

/-- The flat file, of which only the next write offset matters here. -/
structure UtxoTable where
  nextOffset : ℕ

/-- The Adds of the outputs from number `vout` on, with records laid out from `offset`. -/
def outputEntries (height : ℤ) (txid : Hash) : ℕ → ℕ → List TransactionOutput → List OutputKV
  | _, _, [] => []
  | vout, offset, o :: outputs =>
    OutputKV.newAdd ⟨txid, BitVec.ofNat 32 vout⟩ height
        (IdCodec.encode (BitVec.ofNat 64 offset) (entryLen o)) ::
      outputEntries height txid (vout + 1) (offset + entryLen o) outputs

def addEntries (height : ℤ) : ℕ → List (Transaction × Hash) → List OutputKV
  | _, [] => []
  | offset, tx :: txs =>
    outputEntries height tx.2 0 offset tx.1.outputs ++
      addEntries height (offset + txSize tx.1) txs

namespace ChainBlock

def tableSize (b : ChainBlock) : ℕ := (b.identified.map (fun tx => txSize tx.1)).sum

end ChainBlock

def UtxoTable.appendOutputs (b : ChainBlock) (table : UtxoTable) : List OutputKV × UtxoTable :=
  (addEntries b.height table.nextOffset b.identified, ⟨table.nextOffset + b.tableSize⟩)

structure UtxoDatabase where
  table : UtxoTable
  index : UtxoIndex

open UtxoDatabase

variable (isCoinbase : Transaction → Bool) {e : OutputKV} {o : OutPoint} {height : ℤ}

/-- The inputs in order, split into those that spend another transaction of the block and the
others. -/
def classifyInputs (b : ChainBlock) : List OutPoint × List OutPoint :=
  (b.transactions.flatMap (fun tx => if isCoinbase tx then [] else tx.inputs)).partition
    (fun o => decide (o.hash ∈ b.txIds.tail))

def sortExternalKeys (keys : List OutputKey) : List OutputKey :=
  keys.insertionSort (fun a b => a.toNat ≤ b.toNat)

def blockEntries (offset : ℕ) (b : ChainBlock) : List OutputKV :=
  addEntries b.height offset b.identified ++
    (classifyInputs isCoinbase b).2.map
      (fun o => OutputKV.newDelete (outpointToOutputKey o) b.height)

namespace UtxoDatabase

def empty : UtxoDatabase := ⟨⟨0⟩, UtxoIndex.empty⟩

/-- The new state, the external keys for the batch query and the keys resolved in the block. -/
def appendAndClassify (runMax : ℕ) (contended contendedAgain : Bool) (b : ChainBlock)
    (db : UtxoDatabase) : UtxoDatabase × List OutputKey × List OutputKey :=
  let (adds, table) := db.table.appendOutputs b
  let (intra, external) := classifyInputs isCoinbase b
  let deletes := external.map (fun o => OutputKV.newDelete (outpointToOutputKey o) b.height)
  (⟨table, db.index.append runMax contended contendedAgain (adds ++ deletes) b.height⟩,
    (sortExternalKeys (external.map outpointToOutputKey)).destutter (· ≠ ·),
    intra.map outpointToOutputKey)

def query (db : UtxoDatabase) (keys : List OutputKey) (before : ℤ) : List Slot :=
  db.index.batchQuery (keys.map (fun k => (k, outputIdMax))) before

end UtxoDatabase

inductive DatabaseStep where
  | block (contended contendedAgain : Bool) (b : ChainBlock)
  | background (s : IndexStep) (h : s.appended = [])

namespace DatabaseStep

def apply (runMax : ℕ) (db : UtxoDatabase) : DatabaseStep → UtxoDatabase
  | block c c' b => (db.appendAndClassify isCoinbase runMax c c' b).1
  | background s _ => { db with index := s.apply runMax db.index }

def chainBlock : DatabaseStep → Option ChainBlock
  | block _ _ b => some b
  | background _ _ => none

def toIndexStep (offset : ℕ) : DatabaseStep → IndexStep
  | block c c' b => .append c c' (blockEntries isCoinbase offset b) b.height
  | background s _ => s

def tableSize : DatabaseStep → ℕ
  | block _ _ b => b.tableSize
  | background _ _ => 0

end DatabaseStep

def runDatabase (runMax : ℕ) (db : UtxoDatabase) (steps : List DatabaseStep) : UtxoDatabase :=
  steps.foldl (fun db s => s.apply isCoinbase runMax db) db

def blocksOf (steps : List DatabaseStep) : List ChainBlock :=
  steps.filterMap DatabaseStep.chainBlock

def indexSteps : ℕ → List DatabaseStep → List IndexStep
  | _, [] => []
  | offset, s :: steps =>
    s.toIndexStep isCoinbase offset :: indexSteps (offset + s.tableSize) steps

def totalSize (blocks : List ChainBlock) : ℕ := (blocks.map ChainBlock.tableSize).sum

def blockLog : ℕ → List ChainBlock → List OutputKV
  | _, [] => []
  | offset, b :: blocks =>
    blockLog (offset + b.tableSize) blocks ++ blockEntries isCoinbase offset b

theorem runDatabase_index (runMax : ℕ) (db : UtxoDatabase) (steps : List DatabaseStep) :
    (runDatabase isCoinbase runMax db steps).index =
      runSteps runMax db.index (indexSteps isCoinbase db.table.nextOffset steps) := by
  induction steps generalizing db with
  | nil => rfl
  | cons s steps ih =>
    rw [runDatabase, foldl_cons, indexSteps, runSteps, foldl_cons]
    cases s with
    | block c c' b | background s h => exact ih _

theorem logOf_indexSteps (offset : ℕ) (steps : List DatabaseStep) :
    logOf (indexSteps isCoinbase offset steps) = blockLog isCoinbase offset (blocksOf steps) := by
  induction steps generalizing offset with
  | nil => rfl
  | cons s steps ih =>
    have hcons : logOf (indexSteps isCoinbase offset (s :: steps)) =
        logOf (indexSteps isCoinbase (offset + s.tableSize) steps) ++
          (s.toIndexStep isCoinbase offset).appended := by
      simp [indexSteps, logOf]
    rw [hcons, ih]
    cases s with
    | block c c' b => rfl
    | background s h =>
      simp only [DatabaseStep.toIndexStep, h, append_nil]
      rfl

theorem blockLog_append_singleton (offset : ℕ) (blocks : List ChainBlock) (b : ChainBlock) :
    blockLog isCoinbase offset (blocks ++ [b]) =
      blockEntries isCoinbase (offset + totalSize blocks) b ++
        blockLog isCoinbase offset blocks := by
  induction blocks generalizing offset with
  | nil => simp [blockLog, totalSize]
  | cons x blocks ih =>
    rw [cons_append, blockLog, ih, blockLog, append_assoc]
    simp [totalSize, Nat.add_assoc]

theorem isTableId_encode {offset : ℕ} (h : offset < 2 ^ 44 - 1) (length : ℕ) :
    IsTableId (encode (BitVec.ofNat 64 offset) length) := by
  have hval : (encode (BitVec.ofNat 64 offset) length).toNat < 2 ^ 64 - 2 ^ 20 := by
    have hlen : (BitVec.ofNat 64 length &&& lenMask).toNat < 2 ^ 20 := by
      rw [BitVec.toNat_and]
      exact Nat.and_lt_two_pow _ (by decide)
    have hoff : (BitVec.ofNat 64 offset <<< lenBits).toNat = offset <<< 20 := by
      simp only [BitVec.toNat_shiftLeft, BitVec.toNat_ofNat, lenBits, Nat.shiftLeft_eq]
      omega
    rw [encode, BitVec.toNat_or, hoff, ← Nat.shiftLeft_add_eq_or_of_lt hlen, Nat.shiftLeft_eq]
    omega
  constructor <;>
  · intro heq
    rw [heq] at hval
    exact absurd hval (by decide)

theorem key_outputEntries (height : ℤ) (txid : Hash) (vout offset : ℕ)
    (outputs : List TransactionOutput) :
    (outputEntries height txid vout offset outputs).map key =
      (range' vout outputs.length).map (fun i => ⟨txid, BitVec.ofNat 32 i⟩) := by
  induction outputs generalizing vout offset with
  | nil => rfl
  | cons o outputs ih =>
    rw [outputEntries, map_cons, ih, length_cons, range'_succ, map_cons]
    rfl

theorem key_addEntries (height : ℤ) (offset : ℕ) (txs : List (Transaction × Hash)) :
    (addEntries height offset txs).map key =
      (txs.flatMap createdOutpoints).map outpointToOutputKey := by
  induction txs generalizing offset with
  | nil => rfl
  | cons tx txs ih =>
    rw [addEntries, map_append, key_outputEntries, ih, flatMap_cons, map_append,
      createdOutpoints, map_map, range_eq_range']
    rfl

theorem mem_outputEntries {txid : Hash} {vout offset : ℕ}
    {outputs : List TransactionOutput} (h : offset + (outputs.map entryLen).sum ≤ 2 ^ 44)
    (he : e ∈ outputEntries height txid vout offset outputs) :
    e.height = height ∧ e.isAdd ∧ IsTableId e.id := by
  induction outputs generalizing vout offset with
  | nil => simp [outputEntries] at he
  | cons o outputs ih =>
    rw [map_cons, sum_cons] at h
    rw [outputEntries, mem_cons] at he
    rcases he with rfl | he
    · have hlen : outputHeaderSize ≤ entryLen o := Nat.le_add_right _ _
      simp only [outputHeaderSize] at hlen
      exact ⟨rfl, rfl, isTableId_encode (by omega) _⟩
    · exact ih (by omega) he

theorem mem_addEntries {offset : ℕ} {txs : List (Transaction × Hash)}
    (h : offset + (txs.map (fun tx => txSize tx.1)).sum ≤ 2 ^ 44)
    (he : e ∈ addEntries height offset txs) : e.height = height ∧ e.isAdd ∧ IsTableId e.id := by
  induction txs generalizing offset with
  | nil => simp [addEntries] at he
  | cons tx txs ih =>
    rw [map_cons, sum_cons] at h
    rw [addEntries, mem_append] at he
    rcases he with he | he
    · apply mem_outputEntries _ he
      rw [← txSize]
      omega
    · exact ih (by omega) he

section Block

variable {isCoinbase} {coins : Finset OutPoint} {b : ChainBlock} {offset : ℕ}

theorem classifyInputs_eq (hv : ValidBlock isCoinbase coins b) :
    classifyInputs isCoinbase b = (b.spent isCoinbase).partition
      (fun o => decide (o.hash ∈ b.txIds.tail)) := by
  rw [classifyInputs, hv.spent_eq]

theorem mem_external (hv : ValidBlock isCoinbase coins b) (o : OutPoint) :
    o ∈ (classifyInputs isCoinbase b).2 ↔ o ∈ b.spent isCoinbase ∧ o ∉ b.created := by
  rw [classifyInputs_eq hv, partition_eq_filter_filter, mem_filter]
  refine and_congr_right fun ho => ?_
  simp [hv.spent_hash_iff ho]

theorem nodup_key_blockEntries (hv : ValidBlock isCoinbase coins b) :
    ((blockEntries isCoinbase offset b).map Keyed.key).Nodup := by
  have hinj : Function.Injective outpointToOutputKey := fun _ _ => outpointToOutputKey_injective
  have hadds : (addEntries b.height offset b.identified).map Keyed.key =
      b.created.map outpointToOutputKey := key_addEntries _ _ _
  rw [blockEntries, map_append, hadds, map_map, nodup_append]
  refine ⟨hv.nodup_created.map hinj, ?_, ?_⟩
  · apply Nodup.map hinj
    rw [classifyInputs_eq hv, partition_eq_filter_filter]
    exact hv.nodup_spent.filter _
  · rintro _ hc _ hd rfl
    obtain ⟨o, ho, rfl⟩ := mem_map.mp hc
    obtain ⟨o', ho', heq⟩ := mem_map.mp hd
    have hsame : o' = o := outpointToOutputKey_injective heq
    rw [hsame, mem_external hv] at ho'
    exact ho'.2 ho

theorem mem_blockEntries (hsize : offset + b.tableSize ≤ 2 ^ 44)
    (he : e ∈ blockEntries isCoinbase offset b) :
    e.height = b.height ∧ (e.isAdd → IsTableId e.id) := by
  rcases mem_append.mp he with he | he
  · obtain ⟨hh, -, hid⟩ := mem_addEntries hsize he
    exact ⟨hh, fun _ => hid⟩
  · obtain ⟨o, -, rfl⟩ := mem_map.mp he
    exact ⟨rfl, nofun⟩

variable (isCoinbase) in
/-- What a valid block records about an outpoint. -/
inductive BlockRecords (b : ChainBlock) (o : OutPoint) : List OutputKV → Prop
  | added (e : OutputKV) (hc : o ∈ b.created) (hh : e.height = b.height) (ha : e.isAdd = true) :
      BlockRecords b o [e]
  | removed (e : OutputKV) (hc : o ∉ b.created) (hs : o ∈ b.spent isCoinbase)
      (hh : e.height = b.height) (ha : e.isAdd = false) : BlockRecords b o [e]
  | untouched (hc : o ∉ b.created) (hs : o ∉ b.spent isCoinbase) : BlockRecords b o []

theorem entriesOf_blockEntries (hv : ValidBlock isCoinbase coins b)
    (hsize : offset + b.tableSize ≤ 2 ^ 44) (o : OutPoint) : BlockRecords isCoinbase b o
      (entriesOf (outpointToOutputKey o) (blockEntries isCoinbase offset b)) := by
  by_cases hc : o ∈ b.created
  · have hkey : outpointToOutputKey o ∈
        (addEntries b.height offset b.identified).map key := by
      rw [key_addEntries]
      exact mem_map_of_mem hc
    obtain ⟨e, he, hk⟩ := mem_map.mp hkey
    have hmem : e ∈ blockEntries isCoinbase offset b := mem_append_left _ he
    have hone := entriesOf_of_nodup (nodup_key_blockEntries hv) hmem
    rw [keyed_key, hk] at hone
    rw [hone]
    obtain ⟨hh, ha, -⟩ := mem_addEntries hsize he
    exact .added e hc hh ha
  · by_cases hs : o ∈ b.spent isCoinbase
    · have he : newDelete (outpointToOutputKey o) b.height ∈
          blockEntries isCoinbase offset b := by
        apply mem_append_right
        exact mem_map.mpr ⟨o, (mem_external hv o).mpr ⟨hs, hc⟩, rfl⟩
      have hone := entriesOf_of_nodup (nodup_key_blockEntries hv) he
      rw [keyed_key, newDelete] at hone
      rw [hone]
      exact .removed _ hc hs rfl rfl
    · rw [entriesOf_eq_nil]
      · exact .untouched hc hs
      · intro e he hk
        rcases mem_append.mp he with he | he
        · have hmem := mem_map_of_mem (f := key) he
          rw [key_addEntries] at hmem
          obtain ⟨o', ho', heq⟩ := mem_map.mp hmem
          exact hc (outpointToOutputKey_injective (heq.trans hk) ▸ ho')
        · obtain ⟨o', ho', rfl⟩ := mem_map.mp he
          have hsame : o' = o := outpointToOutputKey_injective hk
          rw [hsame, mem_external hv] at ho'
          exact hs ho'.1

end Block

section Chain

variable {isCoinbase} {blocks : List ChainBlock}

theorem totalSize_append_singleton (blocks : List ChainBlock) (b : ChainBlock) :
    totalSize (blocks ++ [b]) = totalSize blocks + b.tableSize := by
  simp [totalSize]

theorem mem_blockLog (hsize : totalSize blocks ≤ 2 ^ 44) (he : e ∈ blockLog isCoinbase 0 blocks) :
    (∃ b ∈ blocks, e.height = b.height) ∧ (e.isAdd → IsTableId e.id) := by
  induction blocks using reverseRecOn with
  | nil => simp [blockLog] at he
  | append_singleton blocks b ih =>
    rw [totalSize_append_singleton] at hsize
    rw [blockLog_append_singleton, mem_append, Nat.zero_add] at he
    rcases he with he | he
    · obtain ⟨hh, hid⟩ := mem_blockEntries hsize he
      exact ⟨⟨b, by simp, hh⟩, hid⟩
    · obtain ⟨⟨x, hx, hh⟩, hid⟩ := ih (by omega) he
      exact ⟨⟨x, mem_append_left _ hx, hh⟩, hid⟩

theorem exists_records {b : ChainBlock} (hc : ValidChain isCoinbase (blocks ++ [b]))
    (hsize : totalSize blocks + b.tableSize ≤ 2 ^ 44) (o : OutPoint) :
    ∃ es, BlockRecords isCoinbase b o es ∧
      entriesOf (outpointToOutputKey o) (blockLog isCoinbase 0 (blocks ++ [b])) =
        es ++ entriesOf (outpointToOutputKey o) (blockLog isCoinbase 0 blocks) := by
  refine ⟨_, entriesOf_blockEntries hc.last hsize o, ?_⟩
  rw [blockLog_append_singleton, entriesOf_append, Nat.zero_add]

section

variable (hc : ValidChain isCoinbase blocks) (hsize : totalSize blocks ≤ 2 ^ 44)
include hc hsize

theorem readable_blockLog (o : OutPoint) :
    Readable (entriesOf (outpointToOutputKey o) (blockLog isCoinbase 0 blocks)) := by
  refine ⟨?_, ?_, ?_⟩
  · induction blocks using reverseRecOn with
    | nil => exact Pairwise.nil
    | append_singleton blocks b ih =>
      rw [totalSize_append_singleton] at hsize
      have hrest := ih hc.init (by omega)
      have hlt : ∀ e ∈ entriesOf (outpointToOutputKey o) (blockLog isCoinbase 0 blocks),
          e.height < b.height := by
        intro e he
        obtain ⟨⟨x, hx, hh⟩, -⟩ := mem_blockLog (by omega) (mem_entriesOf.mp he).1
        exact hh ▸ hc.height_lt x hx
      obtain ⟨es, hrec, hlog⟩ := exists_records hc hsize o
      rw [hlog]
      cases hrec with
      | added e _ hh _ | removed e _ _ hh _ =>
        exact Pairwise.cons (fun x hx => (hlt x hx).trans_eq hh.symm) hrest
      | untouched => exact hrest
  · intro e he
    obtain ⟨⟨b, hb, hh⟩, -⟩ := mem_blockLog hsize (mem_entriesOf.mp he).1
    exact hh ▸ hc.nonneg b hb
  · intro e he
    exact (mem_blockLog hsize (mem_entriesOf.mp he).1).2

/-- In the log of a valid chain an outpoint is live at `h` exactly when it is unspent there, or the
last block that creates it also spends it. -/
theorem live_blockLog_iff (h : ℤ) (o : OutPoint) : (live (h + 1) (entriesOf (outpointToOutputKey o)
        (blockLog isCoinbase 0 blocks))).isSome ↔
      o ∈ coinsAt isCoinbase h blocks ∨ SpentWhereCreated isCoinbase h blocks o := by
  induction blocks using reverseRecOn with
  | nil => simp [blockLog, coinsAt, coinsAfter, SpentWhereCreated, lastCreation]
  | append_singleton blocks b ih =>
    rw [totalSize_append_singleton] at hsize
    have hrest := ih hc.init (by omega)
    obtain ⟨es, hrec, hlog⟩ := exists_records hc hsize o
    rw [hlog, coinsAt_append_singleton]
    simp only [SpentWhereCreated, lastCreation_append_singleton] at hrest ⊢
    by_cases hb : b.height ≤ h
    · have happly := hc.last.mem_apply o
      rw [hc.coinsAt_eq hb] at hrest ⊢
      cases hrec with
      | added e hcr hh ha =>
        have hlt : e.height < h + 1 := by omega
        by_cases hs : o ∈ b.spent isCoinbase <;>
          simp [live_cons, hlt, ha, hb, hcr, hs, happly]
      | removed e hcr hs hh ha =>
        have hlt : e.height < h + 1 := by omega
        have hold : o ∈ coinsAfter isCoinbase blocks :=
          (spent_subset hc.last.inputs hs).resolve_right hcr
        have hstale : ¬ SpentWhereCreated isCoinbase h blocks o := by
          intro hst
          have := hc.init.notMem_of_spentWhereCreated hst
          rw [hc.coinsAt_eq hb] at this
          exact this hold
        simpa [live_cons, hlt, ha, hb, hcr, hs, happly] using
          fun x hx hsp => hstale ⟨x, hx, hsp⟩
      | untouched hcr hs => simpa [hb, hcr, hs, happly] using hrest
    · cases hrec with
      | added e hcr hh ha | removed e hcr hs hh ha =>
        have hlt : ¬ e.height < h + 1 := by omega
        simpa [live_cons, hlt, hb] using hrest
      | untouched => simpa [hb] using hrest

theorem entriesOf_blockLog_nil (ho : ∀ b ∈ blocks, o ∉ b.created) :
    entriesOf (outpointToOutputKey o) (blockLog isCoinbase 0 blocks) = [] := by
  induction blocks using reverseRecOn with
  | nil => rfl
  | append_singleton blocks b ih =>
    rw [forall_mem_append, forall_mem_singleton] at ho
    rw [totalSize_append_singleton] at hsize
    obtain ⟨es, hrec, hlog⟩ := exists_records hc hsize o
    rw [hlog, ih hc.init (by omega) ho.1, append_nil]
    cases hrec with
    | added e hcr _ _ => exact absurd hcr ho.2
    | removed e hcr hs _ _ =>
      have hold := (spent_subset hc.last.inputs hs).resolve_right hcr
      obtain ⟨x, hx, hcreated⟩ := hc.init.exists_created hold
      exact absurd hcreated (ho.1 x hx)
    | untouched => rfl

/-- An outpoint that is created once has no entry, its Add, or the Delete above it. -/
theorem alternating_blockLog (honce : blocks.Pairwise (fun b b' => ∀ o ∈ b'.created, o ∉ b.created))
    (o : OutPoint) :
    Alternating (entriesOf (outpointToOutputKey o) (blockLog isCoinbase 0 blocks)) ∧
      (entriesOf (outpointToOutputKey o) (blockLog isCoinbase 0 blocks)).length ≤
        if headIsAdd (entriesOf (outpointToOutputKey o) (blockLog isCoinbase 0 blocks)) then 1
        else 2 := by
  induction blocks using reverseRecOn with
  | nil => exact ⟨trivial, Nat.zero_le _⟩
  | append_singleton blocks b ih =>
    rw [totalSize_append_singleton] at hsize
    rw [pairwise_append] at honce
    have hrest := ih hc.init (by omega) honce.1
    obtain ⟨es, hrec, hlog⟩ := exists_records hc hsize o
    have hvisible := live_blockLog_iff hc.init (by omega) b.height o
    rw [hc.coinsAt_eq le_rfl, live, newest_eq_head] at hvisible
    · rw [hlog]
      cases hrec with
      | added e hcr _ ha =>
        rw [entriesOf_blockLog_nil hc.init (by omega)
          (fun x hx => honce.2.2 x hx b (by simp) o hcr)]
        refine ⟨⟨by simpa using ha, trivial⟩, ?_⟩
        split_ifs <;> simp
      | removed e hcr hs _ ha =>
        have hold := (spent_subset hc.last.inputs hs).resolve_right hcr
        have hhead : headIsAdd (entriesOf (outpointToOutputKey o)
            (blockLog isCoinbase 0 blocks)) := by
          rw [headIsAdd, ← Option.isSome_filter]
          exact hvisible.mpr (.inl hold)
        have hlength := hrest.2
        rw [if_pos hhead] at hlength
        refine ⟨⟨by simpa [hhead] using ha, hrest.1⟩, ?_⟩
        simpa [headIsAdd, ha] using hlength
      | untouched => exact hrest
    · intro e he
      obtain ⟨⟨x, hx, hh⟩, -⟩ := mem_blockLog (by omega) (mem_entriesOf.mp he).1
      have := hc.height_lt x hx
      simp only [versioned_height]
      omega

end

end Chain

def DatabaseStep.MergeFree : DatabaseStep → Prop
  | block _ _ _ => True
  | background s _ => s.fences = []

theorem forall_indexSteps {P : IndexStep → Prop} {steps : List DatabaseStep}
    (h : ∀ s ∈ steps, ∀ offset, P (s.toIndexStep isCoinbase offset)) (offset : ℕ) :
    ∀ t ∈ indexSteps isCoinbase offset steps, P t := by
  induction steps generalizing offset with
  | nil => simp [indexSteps]
  | cons s steps ih =>
    rw [forall_mem_cons] at h
    rw [indexSteps, forall_mem_cons]
    exact ⟨h.1 offset, ih h.2 _⟩

theorem fences_indexSteps {steps : List DatabaseStep} (h : ∀ s ∈ steps, s.MergeFree)
    (offset : ℕ) : ∀ s ∈ indexSteps isCoinbase offset steps, s.fences = [] := by
  apply forall_indexSteps
  intro s hs _
  cases s with
  | block c c' b => rfl
  | background s happ => exact h _ hs

theorem exists_outpoint (k : OutputKey) : ∃ o, outpointToOutputKey o = k := ⟨⟨k.txid, k.vout⟩, rfl⟩

/-- Every merge is clean where it starts, no outpoint is created twice, and a query at `before` lies
above the fences. -/
structure CleanMerges (runMax : ℕ) (before : ℤ) (steps : List DatabaseStep) : Prop where
  once : (blocksOf steps).Pairwise (fun b b' => ∀ o ∈ b'.created, o ∉ b.created)
  eviction : ∀ s ∈ indexSteps isCoinbase 0 steps, s.EvictionInRange
  clean : CleanRun runMax UtxoIndex.empty (indexSteps isCoinbase 0 steps)
  above : AboveFences before (indexSteps isCoinbase 0 steps)

variable {isCoinbase} {steps : List DatabaseStep} {s : Slot} {keys : List OutputKey} {runMax : ℕ}
  {h : ℤ}

theorem disk_of_mergeFree (hfree : ∀ s ∈ steps, s.MergeFree) :
    (runDatabase isCoinbase runMax empty steps).index.disk = DiskIndex.empty := by
  rw [runDatabase_index]
  exact disk_runSteps (fences_indexSteps isCoinbase hfree 0)

theorem fitsPages_of_mergeFree (hfree : ∀ s ∈ steps, s.MergeFree) :
    (runDatabase isCoinbase runMax empty steps).index.disk.FitsPages := by
  rw [disk_of_mergeFree hfree]
  exact forall_mem_nil _

section

variable (hc : ValidChain isCoinbase (blocksOf steps)) (hsize : totalSize (blocksOf steps) ≤ 2 ^ 44)
include hc hsize

theorem readable_indexSteps (k : OutputKey) :
    Readable (entriesOf k (logOf (indexSteps isCoinbase 0 steps))) := by
  obtain ⟨o, rfl⟩ := exists_outpoint k
  rw [logOf_indexSteps]
  exact readable_blockLog hc hsize o

/-- An answer that agrees with the log resolves exactly the outpoints the chain leaves unspent and
those it spends where it creates them. -/
theorem LogAnswers.resolves_iff (hs : LogAnswers (h + 1) (logOf (indexSteps isCoinbase 0 steps)) s)
    (ho : s.1 = outpointToOutputKey o) : IsTableId s.2 ↔ o ∈ coinsAt isCoinbase h (blocksOf steps) ∨
      SpentWhereCreated isCoinbase h (blocksOf steps) o := by
  rw [hs.isTableId_iff (readable_indexSteps hc hsize s.1), ho, logOf_indexSteps]
  exact live_blockLog_iff hc hsize h o

theorem query_answers_log {before : ℤ}
    (hm : (∀ s ∈ steps, s.MergeFree) ∨ CleanMerges isCoinbase runMax before steps)
    (hs : s ∈ (runDatabase isCoinbase runMax empty steps).query keys before) :
    LogAnswers before (logOf (indexSteps isCoinbase 0 steps)) s := by
  have hread := readable_indexSteps hc hsize
  rcases hm with hfree | hclean
  · have htimeline : timeline s.1 (runSteps runMax UtxoIndex.empty
        (indexSteps isCoinbase 0 steps)).chain =
          entriesOf s.1 (logOf (indexSteps isCoinbase 0 steps)) :=
      timeline_runSteps hread (fences_indexSteps isCoinbase hfree 0) s.1
    have hfit : (runDatabase isCoinbase runMax empty steps).index.disk.FitsPages :=
      fitsPages_of_mergeFree hfree
    rw [query, runDatabase_index] at hs
    rw [runDatabase_index] at hfit
    apply logAnswers_of_live hfit hs
    · exact htimeline ▸ hread s.1
    · exact congrArg (live before) htimeline
  · have honce : ∀ k, Alternating (entriesOf k (logOf (indexSteps isCoinbase 0 steps))) ∧
        (entriesOf k (logOf (indexSteps isCoinbase 0 steps))).length ≤ 2 := by
      intro k
      obtain ⟨o, rfl⟩ := exists_outpoint k
      rw [logOf_indexSteps]
      obtain ⟨halt, hlength⟩ := alternating_blockLog hc hsize hclean.once o
      exact ⟨halt, hlength.trans (by split_ifs <;> omega)⟩
    have hlog : WellFormedLog (logOf (indexSteps isCoinbase 0 steps)) :=
      ⟨hread, fun k => (honce k).1⟩
    have hrefines := refines_runSteps hlog hclean.eviction hclean.clean hclean.above
    have hfit := hrefines.fitsPages (fun k => (honce k).2.trans (by decide))
    rw [query, runDatabase_index] at hs
    exact hrefines.logAnswers hfit hlog hs

end

theorem query_keys (db : UtxoDatabase) (keys : List OutputKey) (before : ℤ) :
    (db.query keys before).map Prod.fst = keys :=
  batchQuery_keys db.index keys before

/-- After any run of valid blocks, pin releases, pressure ticks and clean merges, a query just above
height `h` resolves an outpoint exactly when it is unspent there or was spent by the block that
created it last. -/
theorem query_resolves_iff {runMax : ℕ} {steps : List DatabaseStep}
    (hc : ValidChain isCoinbase (blocksOf steps)) (hsize : totalSize (blocksOf steps) ≤ 2 ^ 44)
    {h : ℤ}
    (hm : (∀ s ∈ steps, s.MergeFree) ∨ CleanMerges isCoinbase runMax (h + 1) steps)
    (keys : List OutputKey) :
    ((runDatabase isCoinbase runMax UtxoDatabase.empty steps).query keys (h + 1)).map Prod.fst =
        keys ∧
      ∀ s ∈ (runDatabase isCoinbase runMax UtxoDatabase.empty steps).query keys (h + 1),
        ∀ o, s.1 = outpointToOutputKey o →
          (IsTableId s.2 ↔ o ∈ coinsAt isCoinbase h (blocksOf steps) ∨
            SpentWhereCreated isCoinbase h (blocksOf steps) o) := by
  refine ⟨query_keys _ keys _, fun s hs o ho => ?_⟩
  exact (query_answers_log hc hsize hm hs).resolves_iff hc hsize ho

/-- Two engines that were given the same blocks resolve a key to the same record or both to none,
whatever clean merges ran in either of them. -/
theorem answers_independent_of_merges {runMax runMax' : ℕ} {steps steps' : List DatabaseStep}
    (hc : ValidChain isCoinbase (blocksOf steps)) (hsize : totalSize (blocksOf steps) ≤ 2 ^ 44)
    (hsame : blocksOf steps' = blocksOf steps) {before : ℤ}
    (hm : (∀ s ∈ steps, s.MergeFree) ∨ CleanMerges isCoinbase runMax before steps)
    (hm' : (∀ s ∈ steps', s.MergeFree) ∨ CleanMerges isCoinbase runMax' before steps')
    {keys keys' : List OutputKey} {s s' : Slot}
    (hs : s ∈ (runDatabase isCoinbase runMax UtxoDatabase.empty steps).query keys before)
    (hs' : s' ∈ (runDatabase isCoinbase runMax' UtxoDatabase.empty steps').query keys' before)
    (hkey : s.1 = s'.1) : s.2 = s'.2 ∨ ¬ IsTableId s.2 ∧ ¬ IsTableId s'.2 := by
  have hlog := query_answers_log hc hsize hm hs
  have hlog' := query_answers_log (hsame ▸ hc) (hsame ▸ hsize) hm' hs'
  rw [logOf_indexSteps] at hlog hlog'
  rw [hsame] at hlog'
  exact hlog.sameRecord hlog' hkey

def nullCoinbase (tx : Transaction) : Bool :=
  decide (tx.inputs = [⟨0, BitVec.allOnes 32⟩])

def coinbaseTx : Transaction := ⟨[⟨0, BitVec.allOnes 32⟩], [⟨50, [0x51]⟩]⟩

def subsidyBlock : ChainBlock := ⟨[coinbaseTx], [10], 0⟩

/-- The second transaction creates an output and the third one spends it. -/
def handoverBlock : ChainBlock :=
  ⟨[coinbaseTx, ⟨[⟨10, 0⟩], [⟨50, [0x51]⟩]⟩, ⟨[⟨11, 0⟩], [⟨50, [0x51]⟩]⟩], [20, 11, 12], 101⟩

def handoverSteps : List DatabaseStep :=
  [.block false false subsidyBlock, .block false false handoverBlock]

theorem validChain_handover : ValidChain nullCoinbase (blocksOf handoverSteps) := by
  have hfirst : ValidChain nullCoinbase [subsidyBlock] := by
    apply ValidChain.nil.snoc _ (nofun) (by decide)
    constructor <;> decide
  apply hfirst.snoc _ (by decide) (by decide)
  constructor <;> decide

theorem mergeFree_handover : ∀ s ∈ handoverSteps, s.MergeFree := by
  simp [handoverSteps, DatabaseStep.MergeFree]

/-- An output that is created and spent in one block still resolves for the next block. -/
theorem handover_still_resolves :
    ValidChain nullCoinbase (blocksOf handoverSteps) ∧
      totalSize (blocksOf handoverSteps) ≤ 2 ^ 44 ∧ (∀ s ∈ handoverSteps, s.MergeFree) ∧
      ¬ ∀ s ∈ (runDatabase nullCoinbase 35000 UtxoDatabase.empty handoverSteps).query
          [outpointToOutputKey ⟨11, 0⟩] (101 + 1),
        IsTableId s.2 ↔ (⟨11, 0⟩ : OutPoint) ∈
          coinsAt nullCoinbase 101 (blocksOf handoverSteps) := by
  have hsize : totalSize (blocksOf handoverSteps) ≤ 2 ^ 44 := by decide
  refine ⟨validChain_handover, hsize, mergeFree_handover, fun hall => ?_⟩
  obtain ⟨s, hs, hkey⟩ := map_eq_singleton_iff.mp
    (query_keys (runDatabase nullCoinbase 35000 empty handoverSteps)
      [outpointToOutputKey ⟨11, 0⟩] (101 + 1))
  have hmem := hs ▸ mem_singleton_self s
  have hresolves := (query_answers_log validChain_handover hsize
    (.inl mergeFree_handover) hmem).resolves_iff
    validChain_handover hsize hkey
  have hstale : SpentWhereCreated nullCoinbase 101 (blocksOf handoverSteps) ⟨11, 0⟩ :=
    ⟨handoverBlock, rfl, by decide⟩
  have hcoin := (hall s hmem).mp (hresolves.mpr (.inr hstale))
  exact absurd hcoin (by decide)

/-- Blocks whose pins are released, a pressure tick, and merges of the ages by fence. -/
def releasedRun (blocks : List ChainBlock) (merges : List (ℤ × ℕ)) : List DatabaseStep :=
  blocks.flatMap (fun b => [.block false false b, .background (.releasePin b.height) rfl]) ++
    .background (.setSpillTier 1 1) rfl ::
      merges.map (fun m => .background (.merge (plainMerge false m.1) m.2) rfl)

variable {blocks : List ChainBlock} {merges : List (ℤ × ℕ)}

theorem blocksOf_releasedRun : blocksOf (releasedRun blocks merges) = blocks := by
  have hmerges : (DatabaseStep.background (.setSpillTier 1 1) rfl :: merges.map (fun m =>
      DatabaseStep.background (.merge (plainMerge false m.1) m.2) rfl)).filterMap
        DatabaseStep.chainBlock = [] := by
    rw [filterMap_eq_nil_iff, forall_mem_cons, forall_mem_map]
    exact ⟨rfl, fun _ _ => rfl⟩
  rw [blocksOf, releasedRun, filterMap_append, hmerges, append_nil, filterMap_flatMap]
  exact flatMap_singleton' blocks

theorem releasedRun_steps (h : ∀ m ∈ merges, m.2 + 1 < 4) :
    ∀ t ∈ indexSteps isCoinbase 0 (releasedRun blocks merges), t.EvictionInRange ∧
      (∀ idx, t.Clean idx) ∧ ∀ f ∈ t.fences, ∃ m ∈ merges, m.1 = f := by
  apply forall_indexSteps
  intro s hs offset
  rw [releasedRun, mem_append, mem_cons, mem_flatMap, mem_map] at hs
  rcases hs with ⟨b, -, hs⟩ | rfl | ⟨m, hm, rfl⟩
  · simp only [mem_cons, not_mem_nil, or_false] at hs
    rcases hs with rfl | rfl <;> exact ⟨trivial, fun _ => trivial, forall_mem_nil _⟩
  · exact ⟨trivial, fun _ => trivial, forall_mem_nil _⟩
  · refine ⟨evictionInRange_plainMerge false m.1 m.2, cleanMerge_toNext m.1 (h m hm), ?_⟩
    exact forall_mem_singleton.mpr ⟨m, hm, rfl⟩

theorem cleanRun_releasedRun (h : ∀ m ∈ merges, m.2 + 1 < 4) :
    CleanRun 35000 UtxoIndex.empty (indexSteps isCoinbase 0 (releasedRun blocks merges)) :=
  GuardedRun.guarded_of_forall (fun t ht => (releasedRun_steps h t ht).2.1) _

theorem cleanMerges_releasedRun {before : ℤ} (h : ∀ m ∈ merges, m.2 + 1 < 4)
    (honce : blocks.Pairwise (fun b b' => ∀ o ∈ b'.created, o ∉ b.created))
    (hb : ∀ m ∈ merges, m.1 < before) :
    CleanMerges isCoinbase 35000 before (releasedRun blocks merges) where
  once := by rwa [blocksOf_releasedRun]
  eviction := fun t ht => (releasedRun_steps h t ht).1
  clean := cleanRun_releasedRun h
  above := by
    left
    intro f hf
    obtain ⟨t, ht, hmem⟩ := mem_flatMap.mp hf
    obtain ⟨m, hm, rfl⟩ := (releasedRun_steps h t ht).2.2 f hmem
    exact hb m hm

theorem cleanMerges_handover : CleanMerges nullCoinbase 35000 (101 + 1)
    (releasedRun [subsidyBlock, handoverBlock] [(-1, 0), (101, 1)]) :=
  cleanMerges_releasedRun (by decide) (by decide) (by decide)

/-- Two merges run after the blocks: the second one drops the cancelled pair. -/
theorem query_resolves_handover :
    let db := runDatabase nullCoinbase 35000 UtxoDatabase.empty
      (releasedRun [subsidyBlock, handoverBlock] [(-1, 0), (101, 1)])
    (db.query [outpointToOutputKey ⟨12, 0⟩] (101 + 1)).map Prod.fst =
        [outpointToOutputKey ⟨12, 0⟩] ∧
      ∀ s ∈ db.query [outpointToOutputKey ⟨12, 0⟩] (101 + 1),
        ∀ o, s.1 = outpointToOutputKey o →
          (IsTableId s.2 ↔ o ∈ coinsAt nullCoinbase 101 (blocksOf handoverSteps) ∨
            SpentWhereCreated nullCoinbase 101 (blocksOf handoverSteps) o) := by
  have hblocks : blocksOf (releasedRun [subsidyBlock, handoverBlock] [(-1, 0), (101, 1)]) =
      blocksOf handoverSteps := blocksOf_releasedRun
  have hresolves := query_resolves_iff (hblocks ▸ validChain_handover) (by rw [hblocks]; decide)
    (.inr cleanMerges_handover) [outpointToOutputKey ⟨12, 0⟩]
  rwa [hblocks] at hresolves

theorem answers_independent_of_merges_handover :
    ∃ s ∈ (runDatabase nullCoinbase 35000 UtxoDatabase.empty
        (releasedRun [subsidyBlock, handoverBlock] [(-1, 0), (101, 1)])).query
          [outpointToOutputKey ⟨12, 0⟩] (101 + 1),
      ∃ s' ∈ (runDatabase nullCoinbase 3 UtxoDatabase.empty handoverSteps).query
          [outpointToOutputKey ⟨12, 0⟩, outpointToOutputKey ⟨10, 0⟩] (101 + 1),
        s.2 = s'.2 ∨ ¬ IsTableId s.2 ∧ ¬ IsTableId s'.2 := by
  obtain ⟨s, hs, hkey⟩ := map_eq_singleton_iff.mp (query_keys (runDatabase nullCoinbase 35000 empty
    (releasedRun [subsidyBlock, handoverBlock] [(-1, 0), (101, 1)]))
      [outpointToOutputKey ⟨12, 0⟩] (101 + 1))
  obtain ⟨s', rest, hs', hkey', -⟩ := map_eq_cons_iff.mp (query_keys (runDatabase nullCoinbase 3
    empty handoverSteps) [outpointToOutputKey ⟨12, 0⟩, outpointToOutputKey ⟨10, 0⟩] (101 + 1))
  have hmem := hs ▸ mem_singleton_self s
  have hmem' := hs' ▸ mem_cons_self
  have hblocks : blocksOf handoverSteps =
      blocksOf (releasedRun [subsidyBlock, handoverBlock] [(-1, 0), (101, 1)]) :=
    blocksOf_releasedRun.symm
  exact ⟨s, hmem, s', hmem', answers_independent_of_merges (hblocks ▸ validChain_handover)
    (by rw [← hblocks]; decide) hblocks (.inr cleanMerges_handover) (.inl mergeFree_handover) hmem
    hmem' (hkey.trans hkey'.symm)⟩

end BlvmNode
