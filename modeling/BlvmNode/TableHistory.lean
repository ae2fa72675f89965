import BlvmNode.FlatTable
import Mathlib.Data.List.Fold

/-!
# Ids that survive flush, rollback and reopen

A history of the flat table remembers what every append put under its ids. The bytes of a block come
to lie at its ids exactly if the write handle stands at the block's offset when it is flushed.
-/

namespace BlvmNode

open FileSlices GuardedRun List FlatTable TableRecord

structure Issued where
  block : BlockOutputs
  records : List (OutputId × TableRecord)
  flushed : Bool

structure TableHistory where
  table : FlatTable
  issued : List Issued

inductive TableOp
  | append (b : ChainBlock)
  | flush (limit : ℤ)
  | eraseSince (since : ℤ)
  | reopen

namespace TableHistory

def issueRecords (height : ℤ) (records : List TableRecord) (t : FlatTable) : Issued where
  block := ⟨t.nextOffset, height, records.flatMap TableRecord.bytes⟩
  records := ((t.appendRecords height records).1.map OutputKV.id).zip records
  flushed := false

def issue (b : ChainBlock) (t : FlatTable) : Issued where
  block := ⟨t.nextOffset, b.height, (blockRecords b).flatMap TableRecord.bytes⟩
  records := ((t.appendOutputs b).1.map OutputKV.id).zip (blockRecords b)
  flushed := false

def markFlushed (limit : ℤ) (t : FlatTable) (i : Issued) : Issued :=
  { i with flushed := i.flushed || decide (i.block ∈ t.toFlush limit) }

/-- `erase_since` flushes below the height and rolls the rest back; a reopened table has only what
was flushed. -/
def apply (h : TableHistory) : TableOp → TableHistory
  | .append b => ⟨(h.table.appendOutputs b).2, h.issued ++ [issue b h.table]⟩
  | .flush limit => ⟨h.table.flushBefore limit, h.issued.map (markFlushed limit h.table)⟩
  | .eraseSince since =>
    ⟨h.table.flushBefore since, (h.issued.map (markFlushed since h.table)).filter
      (fun i => decide (i.block.height < since))⟩
  | .reopen => ⟨FlatTable.open h.table.file, h.issued.filter Issued.flushed⟩

def start (file : List (BitVec 8)) : TableHistory := ⟨FlatTable.open file, []⟩

end TableHistory

open TableHistory

/-- Written one after another from the cursor, each block lands at its own offset. -/
def InPlace : ℕ → List BlockOutputs → Prop
  | _, [] => True
  | cursor, b :: blocks => b.beginOffset = cursor ∧ InPlace (cursor + b.data.length) blocks

/-- The condition on a step: records fit into an id, and a flush writes in place. -/
def TableHistory.StepFits (h : TableHistory) : TableOp → Prop
  | .append b => (∀ r ∈ blockRecords b, r.bytes.length < 2 ^ 20) ∧
      h.table.nextOffset + ((blockRecords b).flatMap TableRecord.bytes).length ≤ 2 ^ 44
  | .flush limit => InPlace h.table.cursor (h.table.toFlush limit)
  | .eraseSince since => InPlace h.table.cursor (h.table.toFlush since)
  | .reopen => True

variable {records : List TableRecord} {p : OutputId × TableRecord} {b a : BlockOutputs}
  {tail : List BlockOutputs} {file : List (BitVec 8)} {height : ℤ} {op : TableOp} {offset : ℕ}

section Writes

def endOffset (b : BlockOutputs) : ℕ := b.beginOffset + b.data.length

def Apart (a b : BlockOutputs) : Prop := endOffset a ≤ b.beginOffset ∨ endOffset b ≤ a.beginOffset

theorem apart_symm (h : Apart a b) : Apart b a := Or.symm h

def LiesIn (file : List (BitVec 8)) (b : BlockOutputs) : Prop :=
  slice file b.beginOffset b.data.length = b.data ∧ endOffset b ≤ file.length

theorem liesIn_overwrite {b' : BlockOutputs} (h : LiesIn file b)
    (hapart : Apart b b') : LiesIn (overwrite 0 file b'.beginOffset b'.data) b := by
  refine ⟨slice_overwrite_of_disjoint 0 h.1 hapart, ?_⟩
  rw [length_overwrite]
  exact h.2.trans (le_max_left _ _)

theorem liesIn_overwrite_self (file : List (BitVec 8)) (b : BlockOutputs) :
    LiesIn (overwrite 0 file b.beginOffset b.data) b := by
  refine ⟨slice_overwrite_self 0 file b.beginOffset b.data, ?_⟩
  rw [length_overwrite]
  exact le_max_right _ _

theorem liesIn_writeBlocks {blocks : List BlockOutputs} {cursor : ℕ}
    (hplace : InPlace cursor blocks) (hapart : blocks.Pairwise Apart) :
    (∀ b, LiesIn file b → (∀ b' ∈ blocks, Apart b b') →
      LiesIn (writeBlocks blocks file cursor).1 b) ∧
      ∀ b ∈ blocks, LiesIn (writeBlocks blocks file cursor).1 b := by
  induction blocks generalizing file cursor with
  | nil => exact ⟨fun b hb _ => hb, nofun⟩
  | cons first blocks ih =>
    obtain ⟨hcursor, hplace⟩ := hplace
    rw [pairwise_cons] at hapart
    rw [writeBlocks, ← hcursor]
    rw [← hcursor] at hplace
    obtain ⟨hkeeps, hlies⟩ := @ih (overwrite 0 file first.beginOffset first.data) _ hplace
      hapart.2
    constructor
    · intro b hb hothers
      rw [forall_mem_cons] at hothers
      exact hkeeps b (liesIn_overwrite hb hothers.1) hothers.2
    · rw [forall_mem_cons]
      exact ⟨hkeeps first (liesIn_overwrite_self file first) hapart.1, hlies⟩

end Writes

section Records

/-- The records of an append lie in its block, where their ids say. -/
def Placed (i : Issued) : Prop :=
  ∀ p ∈ i.records, ∃ rel, IdCodec.decode p.1 = (i.block.beginOffset + rel, p.2.bytes.length) ∧
    slice i.block.data rel p.2.bytes.length = p.2.bytes ∧
    rel + p.2.bytes.length ≤ i.block.data.length

theorem length_layout (height : ℤ) (offset : ℕ) (records : List TableRecord) :
    (layout height offset records).length = records.length := by
  induction records generalizing offset with
  | nil => rfl
  | cons r records ih => rw [layout, length_cons, ih, length_cons]

theorem exists_mem_zip_layout {e : OutputKV} (h : e ∈ layout height offset records) :
    ∃ r, (e, r) ∈ (layout height offset records).zip records := by
  rw [← map_fst_zip (length_layout height offset records).le] at h
  obtain ⟨p, hp, rfl⟩ := mem_map.mp h
  exact ⟨p.2, hp⟩

theorem mem_zip_layout {q : OutputKV × TableRecord}
    (h : q ∈ (layout height offset records).zip records) :
    q.1.key = q.2.key ∧ ∃ front back, records = front ++ q.2 :: back ∧
      q.1.id = IdCodec.encode
        (BitVec.ofNat 64 (offset + (front.flatMap bytes).length)) q.2.bytes.length := by
  induction records generalizing offset with
  | nil => cases h
  | cons r records ih =>
    rw [layout, zip_cons_cons, mem_cons] at h
    rcases h with rfl | h
    · exact ⟨rfl, [], records, rfl, rfl⟩
    · obtain ⟨hkey, front, back, hsplit, hid⟩ := ih h
      refine ⟨hkey, r :: front, back, by rw [hsplit, cons_append], ?_⟩
      rw [hid, flatMap_cons, length_append, Nat.add_assoc]

theorem placed_issueRecords {t : FlatTable} (hlength : ∀ r ∈ records, r.bytes.length < 2 ^ 20)
    (hsize : t.nextOffset + (records.flatMap bytes).length ≤ 2 ^ 44) :
    Placed (issueRecords height records t) := by
  intro _ hp
  rw [issueRecords, zip_map_left] at hp
  obtain ⟨p, hmem, rfl⟩ := mem_map.mp hp
  rw [Prod.map_fst, Prod.map_snd, id_eq]
  obtain ⟨-, front, back, hsplit, hid⟩ := mem_zip_layout hmem
  have hdata : (issueRecords height records t).block.data =
      front.flatMap bytes ++ (p.2.bytes ++ back.flatMap bytes) := by
    rw [issueRecords, hsplit, flatMap_append, flatMap_cons]
  have hpos : 0 < p.2.bytes.length := by
    rw [length_bytes]
    exact Nat.lt_of_lt_of_le (by decide) (Nat.le_add_right _ _)
  have htotal : (front.flatMap bytes).length + p.2.bytes.length ≤
      (records.flatMap bytes).length := by
    rw [hsplit, flatMap_append, flatMap_cons, length_append, length_append]
    omega
  refine ⟨(front.flatMap bytes).length, ?_, ?_, ?_⟩
  · rw [hid, IdCodec.decode_encode (by omega) (hlength p.2 (by rw [hsplit]; simp))]
    rfl
  · rw [hdata, slice_append_middle]
  · exact htotal

end Records

section Invariant

/-- The tail is in order and apart from what was flushed, which lies in the file below the fence. -/
structure TableInv (h : TableHistory) : Prop where
  ordered : h.table.tail.Pairwise (fun a b => endOffset a ≤ b.beginOffset)
  bounded : ∀ b ∈ h.table.tail, endOffset b ≤ h.table.nextOffset
  placed : ∀ i ∈ h.issued, Placed i
  lies : ∀ i ∈ h.issued, i.flushed = true → LiesIn h.table.file i.block
  fenced : ∀ i ∈ h.issued, i.flushed = true → endOffset i.block ≤ h.table.committedFence
  issuedBelow : ∀ i ∈ h.issued, i.flushed = true → endOffset i.block ≤ h.table.nextOffset
  apart : ∀ i ∈ h.issued, i.flushed = true → ∀ b ∈ h.table.tail, Apart i.block b

variable {h : TableHistory} {limit : ℤ} {i : Issued}

theorem tableInv_start (file : List (BitVec 8)) : TableInv (start file) where
  ordered := Pairwise.nil
  bounded := nofun
  placed := nofun
  lies := nofun
  fenced := nofun
  issuedBelow := nofun
  apart := nofun

theorem TableInv.appendRecords (hinv : TableInv h)
    (hlength : ∀ r ∈ records, r.bytes.length < 2 ^ 20)
    (hsize : h.table.nextOffset + (records.flatMap bytes).length ≤ 2 ^ 44) :
    TableInv ⟨(h.table.appendRecords height records).2,
      h.issued ++ [issueRecords height records h.table]⟩ := by
  have htail : (h.table.appendRecords height records).2.tail =
      h.table.tail ++ [(issueRecords height records h.table).block] := rfl
  have hnext : (h.table.appendRecords height records).2.nextOffset =
      endOffset (issueRecords height records h.table).block := rfl
  have hgrow : h.table.nextOffset ≤ (h.table.appendRecords height records).2.nextOffset :=
    Nat.le_add_right _ _
  have hissued : ∀ i ∈ h.issued ++ [issueRecords height records h.table],
      i.flushed → i ∈ h.issued := by
    rw [forall_mem_append, forall_mem_singleton]
    exact ⟨fun _ hi _ => hi, nofun⟩
  constructor
  · rw [htail, pairwise_append]
    refine ⟨hinv.ordered, pairwise_singleton _ _, ?_⟩
    intro a ha b' hb'
    rw [mem_singleton.mp hb']
    exact hinv.bounded a ha
  · rw [htail, forall_mem_append, forall_mem_singleton]
    exact ⟨fun b hb => (hinv.bounded b hb).trans hgrow, hnext.ge⟩
  · rw [forall_mem_append, forall_mem_singleton]
    exact ⟨hinv.placed, placed_issueRecords hlength hsize⟩
  · exact fun i hi hflushed => hinv.lies i (hissued i hi hflushed) hflushed
  · exact fun i hi hflushed => hinv.fenced i (hissued i hi hflushed) hflushed
  · exact fun i hi hflushed => (hinv.issuedBelow i (hissued i hi hflushed) hflushed).trans hgrow
  · intro i hi hflushed
    have hi := hissued i hi hflushed
    rw [htail, forall_mem_append, forall_mem_singleton]
    exact ⟨hinv.apart i hi hflushed, .inl (hinv.issuedBelow i hi hflushed)⟩

theorem TableInv.append (hinv : TableInv h) {b : ChainBlock} (hfits : h.StepFits (.append b)) :
    TableInv (h.apply (.append b)) :=
  hinv.appendRecords hfits.1 hfits.2

theorem insertionSort_toFlush (hinv : TableInv h) (limit : ℤ) :
    (h.table.toFlush limit).insertionSort (fun a b => a.beginOffset ≤ b.beginOffset) =
      h.table.toFlush limit := by
  apply Pairwise.insertionSort_eq
  apply (hinv.ordered.imp _).sublist filter_sublist
  intro a b hab
  exact (Nat.le_add_right _ _).trans hab

theorem TableInv.apart_of_ne (hinv : TableInv h) (ha : a ∈ h.table.tail)
    (hb : b ∈ h.table.tail) (hne : a ≠ b) : Apart a b := by
  have hpairwise : h.table.tail.Pairwise Apart := hinv.ordered.imp Or.inl
  have hsymm : Std.Symm Apart := ⟨fun _ _ => apart_symm⟩
  exact hpairwise.forall ha hb hne

theorem apply_flush_of_isEmpty (hempty : (h.table.toFlush limit).isEmpty) :
    h.apply (.flush limit) = h := by
  have hnone : h.table.toFlush limit = [] := isEmpty_iff.mp hempty
  have hmark : markFlushed limit h.table = id := by
    funext i
    rw [markFlushed, hnone]
    simp
  rw [apply, flushBefore, if_pos hempty, hmark, map_id]

theorem TableInv.table_flush (hinv : TableInv h) (hsome : ¬ (h.table.toFlush limit).isEmpty) :
    (h.apply (.flush limit)).table = { h.table with
        file := (writeBlocks (h.table.toFlush limit) h.table.file h.table.cursor).1
        cursor := (writeBlocks (h.table.toFlush limit) h.table.file h.table.cursor).2
        committedFence := max h.table.committedFence
          (((h.table.toFlush limit).map endOffset).foldl max 0)
        tail := h.table.tail.filter (fun b => decide
          (b.beginOffset ∉ (h.table.toFlush limit).map BlockOutputs.beginOffset)) } := by
  rw [apply, flushBefore, if_neg hsome, insertionSort_toFlush hinv]
  rfl

theorem exists_issued_of_flush (hi : i ∈ (h.apply (.flush limit)).issued) :
    ∃ i₀ ∈ h.issued, i₀.block = i.block ∧ i₀.records = i.records ∧
      (i.flushed ↔ i₀.flushed ∨ i.block ∈ h.table.toFlush limit) := by
  obtain ⟨i₀, hi₀, rfl⟩ := mem_map.mp hi
  refine ⟨i₀, hi₀, rfl, rfl, ?_⟩
  rw [markFlushed, Bool.or_eq_true, decide_eq_true_eq]

theorem forall_flushed {P : BlockOutputs → Prop} (hbefore : ∀ i ∈ h.issued, i.flushed → P i.block)
    (hnow : ∀ b ∈ h.table.toFlush limit, P b) :
    ∀ i ∈ (h.apply (.flush limit)).issued, i.flushed → P i.block := by
  intro i hi hflushed
  obtain ⟨i₀, hi₀, hblock, -, hcases⟩ := exists_issued_of_flush hi
  rcases hcases.mp hflushed with hold | hnew
  · exact hblock ▸ hbefore i₀ hi₀ hold
  · exact hnow i.block hnew

theorem TableInv.flush (hinv : TableInv h)
    (hfits : InPlace h.table.cursor (h.table.toFlush limit)) :
    TableInv (h.apply (.flush limit)) := by
  by_cases hempty : (h.table.toFlush limit).isEmpty
  · rwa [apply_flush_of_isEmpty hempty]
  have htable := hinv.table_flush hempty
  have hsub : ∀ b ∈ h.table.toFlush limit, b ∈ h.table.tail :=
    fun b hb => mem_of_mem_filter hb
  have hpairwise : (h.table.toFlush limit).Pairwise Apart :=
    (hinv.ordered.imp Or.inl).sublist filter_sublist
  obtain ⟨hkeeps, hlies⟩ := @liesIn_writeBlocks h.table.file _ _ hfits hpairwise
  have hend : ∀ b ∈ h.table.toFlush limit,
      endOffset b ≤ (((h.table.toFlush limit).map endOffset).foldl max 0) := by
    intro b hb
    rw [foldl_eq_foldr]
    exact le_max_of_le (mem_map_of_mem hb) le_rfl
  constructor
  · rw [htable]
    exact hinv.ordered.sublist filter_sublist
  · rw [htable]
    exact fun b hb => hinv.bounded b (mem_of_mem_filter hb)
  · intro i hi
    obtain ⟨i₀, hi₀, hblock, hrecords, -⟩ := exists_issued_of_flush hi
    have hplaced := hinv.placed i₀ hi₀
    rwa [Placed, hblock, hrecords] at hplaced
  · rw [htable]
    exact forall_flushed (fun i hi hbefore => hkeeps i.block (hinv.lies i hi hbefore)
      (fun b hb => hinv.apart i hi hbefore b (hsub b hb))) hlies
  · rw [htable]
    exact forall_flushed (fun i hi hbefore => (hinv.fenced i hi hbefore).trans (le_max_left _ _))
      (fun b hb => (hend b hb).trans (le_max_right _ _))
  · rw [htable]
    exact forall_flushed hinv.issuedBelow (fun b hb => hinv.bounded b (hsub b hb))
  · refine forall_flushed (P := fun a => ∀ b ∈ (h.apply (.flush limit)).table.tail, Apart a b)
      (fun i hi hbefore b hb => ?_) (fun a ha b hb => ?_)
    · rw [htable] at hb
      exact hinv.apart i hi hbefore b (mem_of_mem_filter hb)
    · rw [htable, mem_filter, decide_eq_true_eq] at hb
      apply hinv.apart_of_ne (hsub a ha) hb.1
      intro heq
      exact hb.2 (heq ▸ mem_map_of_mem ha)

theorem TableInv.filter (hinv : TableInv h) (keep : Issued → Bool) :
    TableInv ⟨h.table, h.issued.filter keep⟩ where
  ordered := hinv.ordered
  bounded := hinv.bounded
  placed := fun i hi => hinv.placed i (mem_of_mem_filter hi)
  lies := fun i hi => hinv.lies i (mem_of_mem_filter hi)
  fenced := fun i hi => hinv.fenced i (mem_of_mem_filter hi)
  issuedBelow := fun i hi => hinv.issuedBelow i (mem_of_mem_filter hi)
  apart := fun i hi => hinv.apart i (mem_of_mem_filter hi)

theorem TableInv.reopen (hinv : TableInv h) : TableInv (h.apply .reopen) := by
  have hlies : ∀ i ∈ (h.apply .reopen).issued, LiesIn h.table.file i.block := by
    intro i hi
    obtain ⟨hi, hflushed⟩ := mem_filter.mp hi
    exact hinv.lies i hi hflushed
  constructor
  · exact Pairwise.nil
  · exact nofun
  · exact fun i hi => hinv.placed i (mem_of_mem_filter hi)
  · exact fun i hi _ => hlies i hi
  · exact fun i hi _ => (hlies i hi).2
  · exact fun i hi _ => (hlies i hi).2
  · exact fun _ _ _ _ hb => absurd hb not_mem_nil

theorem TableInv.apply (hinv : TableInv h) (hfits : h.StepFits op) : TableInv (h.apply op) := by
  cases op with
  | append b => exact hinv.append hfits
  | flush limit => exact hinv.flush hfits
  | eraseSince since => exact (hinv.flush hfits).filter _
  | reopen => exact hinv.reopen

theorem detailOfBytes_bytes (r : TableRecord) : detailOfBytes r.bytes = some r.detail := by
  have hlength : ¬ r.bytes.length < outputHeaderSize := by
    rw [length_bytes]
    omega
  rw [detailOfBytes, if_neg hlength, bytes, OutputHeader.ofBytes_append,
    drop_left' (OutputHeader.length_bytes _)]
  rfl

theorem TableInv.resolveSlot (hinv : TableInv h) (uring : Bool) (hi : i ∈ h.issued)
    (hflushed : i.flushed) (hp : p ∈ i.records) :
    h.table.resolveSlot uring p.1 = some (some p.2.detail) := by
  obtain ⟨rel, hid, hdata, hend⟩ := hinv.placed i hi p hp
  obtain ⟨hfile, hlength⟩ := hinv.lies i hi hflushed
  have hsize := length_bytes p.2
  have hheader : outputHeaderSize = 16 := rfl
  have hblock : endOffset i.block = i.block.beginOffset + i.block.data.length := rfl
  have hfenced := hinv.fenced i hi hflushed
  have htail : h.table.tailSlot p.1 = none := by
    rw [tailSlot, hid, fromTail, if_pos (by omega)]
  have hread : readAt uring h.table.file (i.block.beginOffset + rel) p.2.bytes.length =
      some p.2.bytes := by
    rw [readAt, if_pos (by omega), ← slice_slice hend, hfile, hdata]
  rw [FlatTable.resolveSlot, htail, hid]
  simp only
  rw [hread, Option.map_some, detailOfBytes_bytes]

theorem getLast?_takeWhile_tail (hordered : tail.Pairwise (fun a b => endOffset a ≤ b.beginOffset))
    (hb : b ∈ tail) (hbegin : b.beginOffset ≤ offset) (hend : offset < endOffset b) :
    (tail.takeWhile (fun b => decide (b.beginOffset ≤ offset))).getLast? = some b := by
  obtain ⟨front, back, rfl⟩ := append_of_mem hb
  rw [pairwise_append, pairwise_cons] at hordered
  obtain ⟨-, ⟨hback, -⟩, hfront⟩ := hordered
  have hbefore : ∀ a ∈ front, decide (a.beginOffset ≤ offset) := by
    intro a ha
    have hle := hfront a ha b mem_cons_self
    rw [endOffset] at hle
    exact decide_eq_true (by omega)
  have hstop : back.takeWhile (fun b => decide (b.beginOffset ≤ offset)) = [] := by
    cases back with
    | nil => rfl
    | cons c back =>
      have hle := hback c mem_cons_self
      rw [takeWhile_cons_of_neg]
      simpa using hend.trans_le hle
  have hself : (b :: back).takeWhile (fun b => decide (b.beginOffset ≤ offset)) = [b] := by
    rw [takeWhile_cons, if_pos (decide_eq_true hbegin), hstop]
  rw [takeWhile_append_of_pos hbefore, hself, getLast?_concat]

theorem TableInv.resolveSlot_tail (hinv : TableInv h) (uring : Bool) (hi : i ∈ h.issued)
    (htail : i.block ∈ h.table.tail) (hfence : h.table.committedFence ≤ i.block.beginOffset)
    (hp : p ∈ i.records) : h.table.resolveSlot uring p.1 = some (some p.2.detail) := by
  obtain ⟨rel, hid, hdata, hend⟩ := hinv.placed i hi p hp
  have hsize := length_bytes p.2
  have hheader : outputHeaderSize = 16 := rfl
  have hlast := getLast?_takeWhile_tail hinv.ordered htail
    (Nat.le_add_right i.block.beginOffset rel) (by rw [endOffset]; omega)
  have hget : i.block.get (i.block.beginOffset + rel) p.2.bytes.length =
      some (p.2.header, p.2.script) := by
    rw [BlockOutputs.get, if_neg (by omega), Nat.add_sub_cancel_left, if_neg (by omega), hdata,
      bytes, OutputHeader.ofBytes_append,
      drop_left' (OutputHeader.length_bytes _)]
  have hslot : h.table.tailSlot p.1 = some p.2.detail := by
    rw [tailSlot, hid, fromTail, if_neg (by omega), hlast, Option.bind_some,
      hget]
    rfl
  rw [FlatTable.resolveSlot, hslot]

end Invariant

theorem inPlace_append {cursor : ℕ} {blocks more : List BlockOutputs} :
    InPlace cursor (blocks ++ more) ↔ InPlace cursor blocks ∧
      InPlace (cursor + (blocks.flatMap BlockOutputs.data).length) more := by
  induction blocks generalizing cursor with
  | nil => simp [InPlace]
  | cons b blocks ih =>
    rw [cons_append, InPlace, InPlace, ih, flatMap_cons, length_append, Nat.add_assoc, and_assoc]

section Runs

/-- In every history whose steps meet the condition, all records flushed and not rolled back are
fetched, in any batch, as appended. -/
theorem flushed_records_fetched (uring : Bool) (file : List (BitVec 8)) (ops : List TableOp)
    (hfits : Guarded TableHistory.apply TableHistory.StepFits (TableHistory.start file) ops)
    (records : List (OutputId × TableRecord))
    (hrecords : ∀ p ∈ records,
      ∃ i ∈ (ops.foldl TableHistory.apply (TableHistory.start file)).issued,
      i.flushed = true ∧ p ∈ i.records) :
    (ops.foldl TableHistory.apply (TableHistory.start file)).table.fetch uring
        (records.map Prod.fst) = some (records.map (fun p => p.2.detail)) := by
  have hinv : TableInv (ops.foldl apply (start file)) :=
    stable (fun _ _ hop hst => hst.apply hop) (tableInv_start file) hfits
  have hfetch := @FlatTable.fetch_of_resolved uring
    (ops.foldl apply (start file)).table
    (records.map (fun p => (p.1, p.2.detail))) (by
      intro q hq
      obtain ⟨p, hp, rfl⟩ := mem_map.mp hq
      obtain ⟨i, hi, hflushed, hmem⟩ := hrecords p hp
      exact hinv.resolveSlot uring hi hflushed hmem)
  rw [map_map, map_map] at hfetch
  exact hfetch

def tableBlock (height : ℤ) (value : BitVec 64) : ChainBlock :=
  ⟨[⟨[], [⟨value, [0x51]⟩]⟩], [7], height⟩

def tableRecord (height : ℤ) (value : BitVec 64) (offset : ℕ) : OutputId × TableRecord :=
  (IdCodec.encode (BitVec.ofNat 64 offset) 17,
    ⟨⟨7, 0⟩, ⟨BitVec.ofInt 32 height, 1, value⟩, [0x51]⟩)

/-- Block 3 is rolled back and replaced before it is flushed, and the file is reopened. -/
def replacedSteps : List TableOp :=
  [.append (tableBlock 1 5), .append (tableBlock 2 6), .flush 3, .append (tableBlock 3 7),
    .eraseSince 3, .append (tableBlock 3 8), .flush 4, .reopen]

theorem flushed_records_fetched_sample :
    Guarded TableHistory.apply TableHistory.StepFits (TableHistory.start []) replacedSteps ∧
      (replacedSteps.foldl TableHistory.apply (TableHistory.start [])).table.fetch true
          [(tableRecord 3 8 51).1, (tableRecord 1 5 0).1] =
        some [(tableRecord 3 8 51).2.detail, (tableRecord 1 5 0).2.detail] := by
  have hfits : Guarded apply StepFits (start []) replacedSteps :=
    ⟨⟨by decide, by decide⟩, ⟨by decide, by decide⟩, ⟨rfl, rfl, trivial⟩, ⟨by decide, by decide⟩,
      trivial, ⟨by decide, by decide⟩, ⟨rfl, rfl, trivial⟩, trivial, trivial⟩
  refine ⟨hfits, flushed_records_fetched true [] _ hfits [tableRecord 3 8 51, tableRecord 1 5 0] ?_⟩
  intro p hp
  rw [mem_cons, mem_singleton] at hp
  rcases hp with rfl | rfl
  · exact ⟨_, mem_cons_of_mem _ (mem_cons_of_mem _ mem_cons_self), rfl, mem_cons_self⟩
  · exact ⟨_, mem_cons_self, rfl, mem_cons_self⟩

/-- A reopened file is overwritten from its start; and after a rollback a block is flushed before
the rolled back one in front of it, to the wrong place. -/
theorem reopened_table_overwrites :
    (∃ i ∈ ([TableOp.append (tableBlock 1 5), .flush 3, .reopen, .append (tableBlock 2 6),
          .flush 3].foldl TableHistory.apply (TableHistory.start [])).issued,
      i.flushed = true ∧ tableRecord 1 5 0 ∈ i.records ∧
        ([TableOp.append (tableBlock 1 5), .flush 3, .reopen, .append (tableBlock 2 6),
          .flush 3].foldl TableHistory.apply (TableHistory.start [])).table.fetch true
            [(tableRecord 1 5 0).1] = some [(tableRecord 2 6 0).2.detail]) ∧
    ∃ i ∈ ([TableOp.append (tableBlock 1 5), .append (tableBlock 3 6), .eraseSince 2,
          .append (tableBlock 2 7), .flush 3].foldl TableHistory.apply
            (TableHistory.start [])).issued,
      i.flushed = true ∧ tableRecord 2 7 34 ∈ i.records ∧
        ([TableOp.append (tableBlock 1 5), .append (tableBlock 3 6), .eraseSince 2,
          .append (tableBlock 2 7), .flush 3].foldl TableHistory.apply
            (TableHistory.start [])).table.fetch false [(tableRecord 2 7 34).1] = none := by
  refine ⟨⟨_, mem_cons_self, rfl, mem_cons_self, ?_⟩, _,
    mem_cons_of_mem _ mem_cons_self, rfl, mem_cons_self, ?_⟩
  · decide
  · decide

end Runs

end BlvmNode
