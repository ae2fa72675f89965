import BlvmNode.Lib.FileSlices
import BlvmNode.Lib.BigEndian
import BlvmNode.UtxoDatabase
import Mathlib.Data.List.ReduceOption

/-!
# The flat table of outputs

Records of header and script lie in one file. An append fixes the offsets of a block's records and
keeps the bytes in a tail; a flush writes blocks of the tail where the write handle stands. An id is
the offset and length of a record.
-/

namespace BlvmNode

open FileSlices BigEndian List Option

structure OutputHeader where
  height : BitVec 32
  flags : BitVec 32
  amount : BitVec 64
  deriving DecidableEq

namespace OutputHeader

/-- The header as it lies in memory on a little-endian machine. -/
def bytes (h : OutputHeader) : List (BitVec 8) :=
  (BigEndian.bytes 4 h.height.toNat).reverse ++ (BigEndian.bytes 4 h.flags.toNat).reverse ++
    (BigEndian.bytes 8 h.amount.toNat).reverse

def ofBytes (data : List (BitVec 8)) : OutputHeader :=
  ⟨BitVec.ofNat 32 (value (slice data 0 4).reverse),
    BitVec.ofNat 32 (value (slice data 4 4).reverse),
    BitVec.ofNat 64 (value (slice data 8 8).reverse)⟩

def isCoinbase (h : OutputHeader) : Bool := h.flags.getLsbD 0

theorem length_bytes (h : OutputHeader) : h.bytes.length = outputHeaderSize := by
  simp only [bytes, length_append, length_reverse]
  rfl

theorem ofNat_value_bytes {w : ℕ} (width : ℕ) (x : BitVec w) (h : 2 ^ w ≤ 256 ^ width) :
    BitVec.ofNat w (value (BigEndian.bytes width x.toNat)) = x := by
  rw [value_bytes_of_lt (lt_of_lt_of_le x.isLt h), BitVec.ofNat_toNat, BitVec.setWidth_eq]

theorem ofBytes_append (h : OutputHeader) (rest : List (BitVec 8)) :
    ofBytes (h.bytes ++ rest) = h := by
  have hheight : slice (h.bytes ++ rest) 0 4 = (BigEndian.bytes 4 h.height.toNat).reverse := by
    rw [bytes, slice, drop_zero, append_assoc, append_assoc, take_left']
    rw [length_reverse, BigEndian.length_bytes]
  have hflags : slice (h.bytes ++ rest) 4 4 = (BigEndian.bytes 4 h.flags.toNat).reverse := by
    rw [bytes, slice, append_assoc, append_assoc, drop_left', take_left']
    · rw [length_reverse, BigEndian.length_bytes]
    · rw [length_reverse, BigEndian.length_bytes]
  have hamount : slice (h.bytes ++ rest) 8 8 = (BigEndian.bytes 8 h.amount.toNat).reverse := by
    rw [bytes, slice, append_assoc, drop_left', take_left']
    · rw [length_reverse, BigEndian.length_bytes]
    · rw [length_append, length_reverse, length_reverse, BigEndian.length_bytes,
        BigEndian.length_bytes]
  rw [ofBytes, hheight, hflags, hamount, reverse_reverse, reverse_reverse,
    reverse_reverse, ofNat_value_bytes 4 _ (by norm_num), ofNat_value_bytes 4 _ (by norm_num),
    ofNat_value_bytes 8 _ (by norm_num)]

end OutputHeader

structure Utxo where
  value : BitVec 64
  scriptPubkey : List (BitVec 8)
  height : BitVec 64
  isCoinbase : Bool
  deriving DecidableEq

structure OutputDetail where
  header : OutputHeader
  utxo : Utxo
  deriving DecidableEq

def outputDetailFromParts (header : OutputHeader) (script : List (BitVec 8)) : OutputDetail :=
  ⟨header, ⟨header.amount, script, header.height.signExtend 64, header.isCoinbase⟩⟩

structure TableRecord where
  key : OutputKey
  header : OutputHeader
  script : List (BitVec 8)

namespace TableRecord

def bytes (r : TableRecord) : List (BitVec 8) := r.header.bytes ++ r.script

def detail (r : TableRecord) : OutputDetail := outputDetailFromParts r.header r.script

theorem length_bytes (r : TableRecord) : r.bytes.length = outputHeaderSize + r.script.length := by
  rw [bytes, length_append, OutputHeader.length_bytes]

end TableRecord

open TableRecord

def IdCodec.decode (id : OutputId) : ℕ × ℕ :=
  ((id >>> IdCodec.lenBits).toNat, (id &&& IdCodec.lenMask).toNat)

open IdCodec

variable {offset length : ℕ}

theorem IdCodec.toNat_encode (ho : offset < 2 ^ 44) (hl : length < 2 ^ 20) :
    (encode (BitVec.ofNat 64 offset) length).toNat = offset * 2 ^ 20 + length := by
  have hmask : lenMask.toNat = 2 ^ 20 - 1 := by decide
  have hoffset : (BitVec.ofNat 64 offset).toNat = offset := by
    rw [BitVec.toNat_ofNat, Nat.mod_eq_of_lt (by omega)]
  have hlength : (BitVec.ofNat 64 length).toNat = length := by
    rw [BitVec.toNat_ofNat, Nat.mod_eq_of_lt (by omega)]
  rw [encode, BitVec.toNat_or, BitVec.toNat_shiftLeft, BitVec.toNat_and, hmask, hoffset,
    hlength, Nat.and_two_pow_sub_one_eq_mod, Nat.mod_eq_of_lt hl, lenBits,
    Nat.mod_eq_of_lt (by rw [Nat.shiftLeft_eq]; omega), ← Nat.shiftLeft_add_eq_or_of_lt hl,
    Nat.shiftLeft_eq]

theorem IdCodec.decode_encode (ho : offset < 2 ^ 44) (hl : length < 2 ^ 20) :
    decode (encode (BitVec.ofNat 64 offset) length) = (offset, length) := by
  have hmask : lenMask.toNat = 2 ^ 20 - 1 := by decide
  rw [decode, BitVec.toNat_ushiftRight, BitVec.toNat_and, hmask,
    toNat_encode ho hl, Nat.and_two_pow_sub_one_eq_mod, Nat.shiftRight_eq_div_pow, lenBits]
  congr 1
  · omega
  · omega

def outputRecords (height : ℤ) (coinbase : Bool) (txid : Hash) (vout : ℕ)
    (outputs : List TransactionOutput) : List TableRecord :=
  (outputs.zipIdx vout).map (fun o =>
    ⟨⟨txid, BitVec.ofNat 32 o.2⟩,
      ⟨BitVec.ofInt 32 height, if coinbase then 1 else 0, o.1.value⟩, o.1.scriptPubkey⟩)

/-- The outputs of a block in order; the first transaction is marked as the coinbase. -/
def blockRecords (b : ChainBlock) : List TableRecord :=
  b.identified.zipIdx.flatMap (fun tx =>
    outputRecords b.height (decide (tx.2 = 0)) tx.1.2 0 tx.1.1.outputs)

def layout (height : ℤ) : ℕ → List TableRecord → List OutputKV
  | _, [] => []
  | offset, r :: records =>
    OutputKV.newAdd r.key height (IdCodec.encode (BitVec.ofNat 64 offset) r.bytes.length) ::
      layout height (offset + r.bytes.length) records

theorem layout_append (height : ℤ) (offset : ℕ) (records more : List TableRecord) :
    layout height offset (records ++ more) = layout height offset records ++
      layout height (offset + (records.flatMap bytes).length) more := by
  induction records generalizing offset with
  | nil => rfl
  | cons r records ih =>
    rw [cons_append, layout, layout, ih, cons_append, flatMap_cons, length_append, Nat.add_assoc]

structure BlockOutputs where
  beginOffset : ℕ
  height : ℤ
  data : List (BitVec 8)
  deriving DecidableEq

def BlockOutputs.get (b : BlockOutputs) (offset length : ℕ) :
    Option (OutputHeader × List (BitVec 8)) :=
  if offset < b.beginOffset then none
  else if b.data.length < offset - b.beginOffset + length ∨ length < outputHeaderSize then none
  else some (OutputHeader.ofBytes (slice b.data (offset - b.beginOffset) length),
    (slice b.data (offset - b.beginOffset) length).drop outputHeaderSize)

structure FlatTable where
  file : List (BitVec 8)
  cursor : ℕ
  nextOffset : ℕ
  committedFence : ℕ
  tail : List BlockOutputs

namespace FlatTable

/-- The write handle is opened without seeking, so it stands at the start of the file. -/
def «open» (file : List (BitVec 8)) : FlatTable := ⟨file, 0, file.length, file.length, []⟩

def appendRecords (height : ℤ) (records : List TableRecord) (t : FlatTable) :
    List OutputKV × FlatTable :=
  let data := records.flatMap TableRecord.bytes
  (layout height t.nextOffset records,
    { t with
      nextOffset := t.nextOffset + data.length
      tail := t.tail ++ [⟨t.nextOffset, height, data⟩] })

def appendOutputs (b : ChainBlock) (t : FlatTable) : List OutputKV × FlatTable :=
  t.appendRecords b.height (blockRecords b)

def importOutputsBatch (items : List TableRecord) (tagHeight : ℤ) (t : FlatTable) :
    List OutputKV × FlatTable :=
  if items.isEmpty then ([], t) else t.appendRecords tagHeight items

def writeBlocks : List BlockOutputs → List (BitVec 8) → ℕ → List (BitVec 8) × ℕ
  | [], file, cursor => (file, cursor)
  | b :: blocks, file, cursor =>
    writeBlocks blocks (overwrite 0 file cursor b.data) (cursor + b.data.length)

def toFlush (limit : ℤ) (t : FlatTable) : List BlockOutputs :=
  t.tail.filter (fun b => decide (b.height < limit))

def flushBefore (limit : ℤ) (t : FlatTable) : FlatTable :=
  if (t.toFlush limit).isEmpty then t
  else
    let ordered := (t.toFlush limit).insertionSort (fun a b => a.beginOffset ≤ b.beginOffset)
    let written := writeBlocks ordered t.file t.cursor
    let maxEnd := (ordered.map (fun b => b.beginOffset + b.data.length)).foldl max 0
    { t with
      file := written.1
      cursor := written.2
      committedFence := max t.committedFence maxEnd
      tail := t.tail.filter (fun b => b.beginOffset ∉ ordered.map BlockOutputs.beginOffset) }

/-- A record of the tail: looked for in the last block that starts at or before the offset. -/
def fromTail (t : FlatTable) (offset length : ℕ) : Option OutputDetail :=
  if offset < t.committedFence then none
  else ((t.tail.takeWhile (fun b => decide (b.beginOffset ≤ offset))).getLast?.bind
    (fun b => b.get offset length)).map (fun parts => outputDetailFromParts parts.1 parts.2)

/-- Past the end of the file `pread` fails, while a batch of io_uring reads leaves zeros. -/
def readAt (uring : Bool) (file : List (BitVec 8)) (offset length : ℕ) :
    Option (List (BitVec 8)) :=
  if offset + length ≤ file.length then some (slice file offset length)
  else if uring then
    some (slice file offset length ++
      List.replicate (length - (slice file offset length).length) 0)
  else none

def detailOfBytes (data : List (BitVec 8)) : Option OutputDetail :=
  if data.length < outputHeaderSize then none
  else some (outputDetailFromParts (OutputHeader.ofBytes data) (data.drop outputHeaderSize))

structure DiskRead where
  slot : ℕ
  offset : ℕ
  length : ℕ

def fillSlot (uring : Bool) (file : List (BitVec 8)) (slots : List (Option OutputDetail))
    (e : DiskRead) : Option (List (Option OutputDetail)) :=
  (readAt uring file e.offset e.length).map (fun data =>
    match detailOfBytes data with
    | none => slots
    | some detail => slots.set e.slot (some detail))

/-- The ids that are not in the tail, with their place in the batch. -/
def diskReads (t : FlatTable) (ids : List (OutputId × ℕ)) : List DiskRead :=
  ids.filterMap (fun id =>
    match t.fromTail (IdCodec.decode id.1).1 (IdCodec.decode id.1).2 with
    | some _ => none
    | none => some ⟨id.2, (IdCodec.decode id.1).1, (IdCodec.decode id.1).2⟩)

def tailSlot (t : FlatTable) (id : OutputId) : Option OutputDetail :=
  t.fromTail (IdCodec.decode id).1 (IdCodec.decode id).2

/-- The details in the order of the ids; slots that stay empty are left out. -/
def fetch (uring : Bool) (t : FlatTable) (ids : List OutputId) : Option (List OutputDetail) :=
  (((t.diskReads ids.zipIdx).insertionSort (fun a b => a.offset ≤ b.offset)).foldlM
    (fillSlot uring t.file) (ids.map t.tailSlot)).map List.reduceOption

section Fetch

variable (uring : Bool) (t : FlatTable)

def resolveSlot (id : OutputId) : Option (Option OutputDetail) :=
  match t.tailSlot id with
  | some detail => some (some detail)
  | none => (readAt uring t.file (IdCodec.decode id).1 (IdCodec.decode id).2).map detailOfBytes

variable {ids : List OutputId} {details : List OutputDetail} {detail : OutputDetail} {id : OutputId}

theorem fillSlot_comm {file : List (BitVec 8)} {e e' : DiskRead} (h : e.slot ≠ e'.slot)
    (slots : List (Option OutputDetail)) :
    (fillSlot uring file slots e).bind (fun s => fillSlot uring file s e') =
      (fillSlot uring file slots e').bind (fun s => fillSlot uring file s e) := by
  simp only [fillSlot]
  cases readAt uring file e.offset e.length with
  | none =>
    cases readAt uring file e'.offset e'.length with
    | none | some data' => rfl
  | some data =>
    cases readAt uring file e'.offset e'.length with
    | none => rfl
    | some data' =>
      simp only [map_some, bind_some]
      cases detailOfBytes data with
      | none => rfl
      | some detail =>
        cases detailOfBytes data' with
        | none => rfl
        | some detail' => exact congrArg some (set_comm _ _ h)

theorem foldlM_fillSlot_perm {file : List (BitVec 8)} {reads reads' : List DiskRead}
    (hperm : reads.Perm reads') (hnodup : (reads.map DiskRead.slot).Nodup)
    (slots : List (Option OutputDetail)) :
    reads.foldlM (fillSlot uring file) slots = reads'.foldlM (fillSlot uring file) slots := by
  rw [foldlM_eq_foldl, foldlM_eq_foldl]
  apply hperm.foldl_eq'
  intro e he e' he' acc
  by_cases heq : e = e'
  · rw [heq]
  cases acc with
  | none => rfl
  | some slots =>
    exact fillSlot_comm uring (fun hslot => heq (inj_on_of_nodup_map hnodup he he' hslot)) slots

theorem slot_of_mem_diskReads {ids : List (OutputId × ℕ)} :
    ((t.diskReads ids).map DiskRead.slot).Sublist (ids.map Prod.snd) := by
  induction ids with
  | nil => exact Sublist.slnil
  | cons id ids ih =>
    rw [diskReads, map_cons]
    cases htail : t.fromTail (decode id.1).1 (decode id.1).2 with
    | none =>
      rw [filterMap_cons_some (by rw [htail])]
      exact ih.cons_cons _
    | some detail =>
      rw [filterMap_cons_none (by rw [htail])]
      exact ih.cons _

theorem foldlM_diskReads (ids : List OutputId) (front : List (Option OutputDetail)) :
    (t.diskReads (ids.zipIdx front.length)).foldlM (fillSlot uring t.file)
        (front ++ ids.map t.tailSlot) =
      (ids.mapM (t.resolveSlot uring)).map (fun slots => front ++ slots) := by
  induction ids generalizing front with
  | nil => simp [diskReads]
  | cons id ids ih =>
    have hrest : ∀ slot : Option OutputDetail,
        (t.diskReads (ids.zipIdx (front.length + 1))).foldlM (fillSlot uring t.file)
            (front ++ slot :: ids.map t.tailSlot) =
          (ids.mapM (t.resolveSlot uring)).map (fun slots => front ++ slot :: slots) := by
      intro slot
      have hih := ih (front ++ [slot])
      simp only [length_append, length_singleton, append_assoc, singleton_append] at hih
      exact hih
    rw [zipIdx_cons, map_cons, mapM_cons, diskReads]
    cases htail : t.tailSlot id with
    | some detail =>
      rw [filterMap_cons_none (by rw [← tailSlot, htail]), resolveSlot, htail]
      refine (hrest (some detail)).trans ?_
      cases ids.mapM (t.resolveSlot uring) with
      | none | some slots => rfl
    | none =>
      rw [filterMap_cons_some (by rw [← tailSlot, htail]), resolveSlot, htail, foldlM_cons,
        fillSlot]
      cases readAt uring t.file (decode id).1 (decode id).2 with
      | none => rfl
      | some data =>
        have hset : (match detailOfBytes data with
            | none => front ++ none :: ids.map t.tailSlot
            | some detail => (front ++ none :: ids.map t.tailSlot).set front.length
                (some detail)) =
            front ++ detailOfBytes data :: ids.map t.tailSlot := by
          cases detailOfBytes data with
          | none => rfl
          | some detail =>
            simp only
            rw [set_append_right _ _ le_rfl, Nat.sub_self, set_cons_zero]
        simp only [map_some, bind_eq_bind, bind_some, hset]
        refine (hrest (detailOfBytes data)).trans ?_
        cases ids.mapM (t.resolveSlot uring) with
        | none | some slots => rfl

theorem fetch_eq (ids : List OutputId) :
    t.fetch uring ids = (ids.mapM (t.resolveSlot uring)).map List.reduceOption := by
  have hnodup : (((t.diskReads ids.zipIdx).insertionSort (fun a b => a.offset ≤ b.offset)).map
      DiskRead.slot).Nodup := by
    rw [((perm_insertionSort _ _).map DiskRead.slot).nodup_iff]
    apply (t.slot_of_mem_diskReads).nodup
    rw [zipIdx_map_snd]
    exact nodup_range'
  have hfill := foldlM_diskReads uring t ids []
  simp only [List.length_nil, List.nil_append, Option.map_id_fun', id] at hfill
  rw [fetch, foldlM_fillSlot_perm uring (perm_insertionSort _ _) hnodup, hfill]

theorem mapM_eq_some_iff_map {α β : Type*} {f : α → Option β} {l : List α} {m : List β} :
    l.mapM f = some m ↔ l.map f = m.map some := by
  induction l generalizing m with
  | nil => cases m <;> simp
  | cons a l ih =>
    cases m with
    | nil => simp [Option.bind_eq_some_iff]
    | cons c m => simp [Option.bind_eq_some_iff, ih]

theorem eq_map_some_of_length {α : Type*} {l : List (Option α)}
    (h : l.reduceOption.length = l.length) : l = l.reduceOption.map some := by
  rw [reduceOption_length_eq_iff] at h
  induction l with
  | nil => rfl
  | cons x l ih =>
    rw [forall_mem_cons] at h
    obtain ⟨a, rfl⟩ := isSome_iff_exists.mp h.1
    rw [reduceOption_cons_of_some, map_cons, ← ih h.2]

theorem length_fetch_le (h : t.fetch uring ids = some details) : details.length ≤ ids.length := by
  rw [fetch_eq] at h
  obtain ⟨slots, hslots, rfl⟩ := map_eq_some_iff.mp h
  have hlength := congrArg length (mapM_eq_some_iff_map.mp hslots)
  rw [length_map, length_map] at hlength
  rw [hlength]
  exact reduceOption_length_le slots

theorem fetch_eq_some_iff (hlength : details.length = ids.length) :
    t.fetch uring ids = some details ↔
      ids.map (t.resolveSlot uring) = details.map (fun detail => some (some detail)) := by
  rw [fetch_eq]
  constructor
  · intro h
    obtain ⟨slots, hslots, rfl⟩ := map_eq_some_iff.mp h
    rw [mapM_eq_some_iff_map] at hslots
    have hfull : slots.reduceOption.length = slots.length := by
      rw [hlength, ← length_map (t.resolveSlot uring), hslots, length_map]
    calc ids.map (t.resolveSlot uring) = slots.map some := hslots
      _ = (slots.reduceOption.map some).map some := by rw [← eq_map_some_of_length hfull]
      _ = slots.reduceOption.map (fun detail => some (some detail)) := map_map
  · intro h
    have hslots : ids.mapM (t.resolveSlot uring) = some (details.map some) := by
      rw [mapM_eq_some_iff_map, h, List.map_map]
      rfl
    rw [hslots, map_some, reduceOption, filterMap_map]
    exact congrArg some (congrFun filterMap_eq_map details |>.trans (map_id details))

theorem length_fetch_eq (h : t.fetch uring ids = some details)
    (hfound : ∀ id ∈ ids, ∃ detail, some (some detail) = t.resolveSlot uring id) :
    details.length = ids.length := by
  obtain ⟨found, hslots⟩ : ids.map (t.resolveSlot uring) ∈
      Set.range (map (fun detail : OutputDetail => some (some detail))) := by
    rw [Set.range_list_map]
    intro slot hslot
    obtain ⟨id, hid, rfl⟩ := mem_map.mp hslot
    exact hfound id hid
  have hlength : found.length = ids.length := by
    have hlengths := congrArg length hslots
    rwa [length_map, length_map] at hlengths
  rw [(fetch_eq_some_iff uring t hlength).mpr hslots.symm, some.injEq] at h
  rw [← h, hlength]

theorem fetch_of_resolved {records : List (OutputId × OutputDetail)}
    (h : ∀ p ∈ records, t.resolveSlot uring p.1 = some (some p.2)) :
    t.fetch uring (records.map Prod.fst) = some (records.map Prod.snd) := by
  rw [fetch_eq_some_iff uring t (by rw [List.length_map, List.length_map]), List.map_map,
    List.map_map]
  exact map_congr_left h

theorem length_readAt {file data : List (BitVec 8)}
    (h : readAt uring file offset length = some data) : data.length = length := by
  rw [readAt] at h
  split_ifs at h with hin
  · rw [← some.inj h, length_slice hin]
  · rw [← some.inj h, length_append, length_replicate]
    have hle : (slice file offset length).length ≤ length := length_take_le _ _
    omega

theorem length_of_resolveSlot (h : t.resolveSlot uring id = some (some detail)) :
    outputHeaderSize + detail.utxo.scriptPubkey.length = (decode id).2 := by
  rw [resolveSlot] at h
  split at h
  next found htail =>
    rw [← some.inj (some.inj h)]
    rw [tailSlot, fromTail] at htail
    split_ifs at htail
    obtain ⟨parts, hparts, rfl⟩ := map_eq_some_iff.mp htail
    obtain ⟨b, -, hget⟩ := bind_eq_some_iff.mp hparts
    rw [BlockOutputs.get] at hget
    split_ifs at hget with hbegin hinside
    rw [not_or, not_lt, not_lt] at hinside
    cases hget
    have hscript := length_slice hinside.1
    simp only [outputDetailFromParts, length_drop, hscript]
    omega
  next =>
    obtain ⟨data, hread, hdetail⟩ := map_eq_some_iff.mp h
    have hlength := length_readAt uring hread
    rw [detailOfBytes] at hdetail
    split_ifs at hdetail with hshort
    cases hdetail
    simp only [outputDetailFromParts, length_drop, hlength]
    omega

theorem resolveSlot_of_fetch
    (h : t.fetch uring [id] = some [detail]) : t.resolveSlot uring id = some (some detail) := by
  rw [fetch_eq, mapM_cons, mapM_nil] at h
  obtain ⟨slots, hslots, hreduce⟩ := map_eq_some_iff.mp h
  obtain ⟨slot, hslot, hslots⟩ := bind_eq_some_iff.mp hslots
  cases hslots
  cases slot with
  | none => cases hreduce
  | some found => rw [hslot, (cons.inj hreduce).1]

end Fetch

end FlatTable

end BlvmNode
