import BlvmNode.OutputKV
import BlvmNode.Lib.BigEndian

/-!
# Coin trees and the bytes they hold

The persisted UTXO trees map byte keys to byte values. A coin is stored under the 40 bytes of
its outpoint (the chainstate table also reads a 36-byte key of earlier versions); the reorg
journal and the running MuHash lie in the same tree under keys of another length.
-/

namespace BlvmNode

open BigEndian List

abbrev Bytes := List (BitVec 8)

abbrev ByteTree := Bytes → Option Bytes

def asciiBytes (s : String) : Bytes := s.toList.map (fun c => BitVec.ofNat 8 c.toNat)

def hashBytes (h : Hash) : Bytes := bytes 32 h.toNat

def outpointToKey (outpoint : OutPoint) : Bytes :=
  hashBytes outpoint.hash ++ bytes 8 outpoint.index.toNat

def keyToOutpoint (key : Bytes) : OutPoint where
  hash := BitVec.ofNat 256 (value (key.take 32))
  index := BitVec.ofNat 32 (value (key.drop 32))

def legacyOutpointKey (outpoint : OutPoint) : Bytes :=
  hashBytes outpoint.hash ++ bytes 4 outpoint.index.toNat

def snapshotReorgJournalKey : Bytes := asciiBytes "blvm-reorg-journal"

def snapshotMuhashKey : Bytes := asciiBytes "blvm-muhash-running"

def encodeReorgJournal (height : BitVec 64) (tip : Hash) : Bytes :=
  bytes 8 height.toNat ++ hashBytes tip

def parseReorgJournal (row : Bytes) : Option (BitVec 64 × Hash) :=
  if row.length ≠ 40 then none
  else some (BitVec.ofNat 64 (value (row.take 8)), BitVec.ofNat 256 (value (row.drop 8)))

section Keys

theorem length_hashBytes (h : Hash) : (hashBytes h).length = 32 := length_bytes 32 _

theorem value_hashBytes (h : Hash) : value (hashBytes h) = h.toNat := by
  apply value_bytes_of_lt
  exact h.isLt.trans_le (by norm_num)

theorem value_index (width : ℕ) (h : 4 ≤ width) (i : BitVec 32) :
    value (bytes width i.toNat) = i.toNat := by
  apply value_bytes_of_lt
  calc i.toNat < 256 ^ 4 := i.isLt
    _ ≤ 256 ^ width := Nat.pow_le_pow_right (by norm_num) h

variable (outpoint : OutPoint) {a b : OutPoint}

theorem length_outpointToKey : (outpointToKey outpoint).length = 40 := by
  rw [outpointToKey, length_append, length_hashBytes, length_bytes]

theorem length_legacyOutpointKey : (legacyOutpointKey outpoint).length = 36 := by
  rw [legacyOutpointKey, length_append, length_hashBytes, length_bytes]

theorem keyToOutpoint_outpointToKey : keyToOutpoint (outpointToKey outpoint) = outpoint := by
  have htake : (outpointToKey outpoint).take 32 = hashBytes outpoint.hash :=
    take_left' (length_hashBytes _)
  have hdrop : (outpointToKey outpoint).drop 32 = bytes 8 outpoint.index.toNat :=
    drop_left' (length_hashBytes _)
  rw [keyToOutpoint, htake, hdrop, value_hashBytes, value_index 8 (by norm_num),
    BitVec.ofNat_toNat, BitVec.ofNat_toNat, BitVec.setWidth_eq, BitVec.setWidth_eq]

theorem outpointToKey_injective (h : outpointToKey a = outpointToKey b) : a = b := by
  rw [← keyToOutpoint_outpointToKey a, h, keyToOutpoint_outpointToKey]

theorem legacyOutpointKey_injective (h : legacyOutpointKey a = legacyOutpointKey b) : a = b := by
  have hsplit := append_inj h (by rw [length_hashBytes, length_hashBytes])
  have hhash : a.hash = b.hash := by
    apply BitVec.eq_of_toNat_eq
    rw [← value_hashBytes, hsplit.1, value_hashBytes]
  have hindex : a.index = b.index := by
    apply BitVec.eq_of_toNat_eq
    rw [← value_index 4 le_rfl, hsplit.2, value_index 4 le_rfl]
  cases a
  cases b
  congr

theorem outpointToKey_ne {key : Bytes} (h : key.length ≠ 40) : outpointToKey outpoint ≠ key :=
  fun heq => h (heq ▸ length_outpointToKey outpoint)

theorem outpointToKey_ne_legacyOutpointKey (a b : OutPoint) :
    outpointToKey a ≠ legacyOutpointKey b := by
  apply outpointToKey_ne
  rw [length_legacyOutpointKey]
  decide

theorem outpointToKey_ne_journalKey : outpointToKey outpoint ≠ snapshotReorgJournalKey :=
  outpointToKey_ne outpoint (by decide)

theorem outpointToKey_ne_muhashKey : outpointToKey outpoint ≠ snapshotMuhashKey :=
  outpointToKey_ne outpoint (by decide)

theorem journalKey_ne_muhashKey : snapshotReorgJournalKey ≠ snapshotMuhashKey := by decide

end Keys

theorem parseReorgJournal_encode (height : BitVec 64) (tip : Hash) :
    parseReorgJournal (encodeReorgJournal height tip) = some (height, tip) := by
  have hlen : (encodeReorgJournal height tip).length = 40 := by
    rw [encodeReorgJournal, length_append, length_hashBytes, length_bytes]
  have htake : (encodeReorgJournal height tip).take 8 = bytes 8 height.toNat :=
    take_left' (length_bytes _ _)
  have hdrop : (encodeReorgJournal height tip).drop 8 = hashBytes tip :=
    drop_left' (length_bytes _ _)
  have hheight : value (bytes 8 height.toNat) = height.toNat :=
    value_bytes_of_lt (height.isLt.trans_le (by norm_num))
  rw [parseReorgJournal, if_neg (not_not.mpr hlen), htake, hdrop, value_hashBytes, hheight,
    BitVec.ofNat_toNat, BitVec.ofNat_toNat, BitVec.setWidth_eq, BitVec.setWidth_eq]

/-- Encoding of coins as tree values (bincode or rkyv): an encoded coin decodes to itself. -/
structure ValueCodec (U : Type) where
  encode : U → Option Bytes
  decode : Bytes → Option U
  decode_encode : ∀ {u b}, encode u = some b → decode b = some u

end BlvmNode
