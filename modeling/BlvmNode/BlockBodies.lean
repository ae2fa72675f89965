import BlvmNode.CoinTree
import BlvmNode.Lib.KeyTable

/-!
# Stored block bodies

One table holds block bodies in three encodings: the bincode of the block, that bincode under zstd,
and the bytes of the peer's message behind a tag. A reader tells them apart by their first bytes,
and a bincode body starts with the version of its header.
-/

namespace BlvmNode

open BigEndian List

def littleEndian (width n : ℕ) : Bytes := (bytes width n).reverse

def littleValue (data : Bytes) : ℕ := value data.reverse

@[simp] theorem length_littleEndian (width n : ℕ) : (littleEndian width n).length = width := by
  rw [littleEndian, length_reverse, length_bytes]

theorem littleValue_littleEndian (width n : ℕ) :
    littleValue (littleEndian width n) = n % 256 ^ width := by
  rw [littleValue, littleEndian, reverse_reverse, value_bytes]

theorem littleEndian_add (width width' n : ℕ) :
    littleEndian (width + width') n =
      littleEndian width n ++ littleEndian width' (n / 256 ^ width) := by
  rw [littleEndian, Nat.add_comm, bytes_add, reverse_append]
  rfl

theorem littleEndian_eq_iff (width m n : ℕ) :
    littleEndian width m = littleEndian width n ↔ m % 256 ^ width = n % 256 ^ width := by
  rw [littleEndian, littleEndian, reverse_inj, bytes_eq_bytes_iff]

section Blobs

/-- `WIRE_BODY_MAGIC`, the text `BLVW`. -/
def wireBodyMagic : Bytes := [0x42#8, 0x4C#8, 0x56#8, 0x57#8]

theorem length_wireBodyMagic : wireBodyMagic.length = 4 := rfl

def wireBodyVersion : ℕ := 0x57564C42

def isWireBodyBlob (data : Bytes) : Bool :=
  decide (8 ≤ data.length) && decide (data.take 4 = wireBodyMagic)

/-- `encode_wire_body_blob`: the length is cast to 32 bits. -/
def encodeWireBodyBlob (payload : Bytes) : Bytes :=
  wireBodyMagic ++ littleEndian 4 payload.length ++ payload

def decodeWireBodyBlob (data : Bytes) : Option Bytes :=
  if isWireBodyBlob data = true then
    let len := littleValue ((data.drop 4).take 4)
    if data.length < 8 + len then none else some ((data.drop 8).take len)
  else none

def zstdMagic : Bytes := [0x28#8, 0xB5#8, 0x2F#8, 0xFD#8]

def zstdVersion : ℕ := 0xFD2FB528

def isCompressed (data : Bytes) : Bool :=
  decide (4 ≤ data.length) && decide (data.take 4 = zstdMagic)

def maxDecompressedBlob : ℕ := 4000000

theorem decodeWireBodyBlob_encode {payload : Bytes} (h : payload.length < 2 ^ 32) :
    decodeWireBodyBlob (encodeWireBodyBlob payload) = some payload := by
  have hdata : encodeWireBodyBlob payload =
      wireBodyMagic ++ (littleEndian 4 payload.length ++ payload) := append_assoc _ _ _
  have hwire : isWireBodyBlob (encodeWireBodyBlob payload) := by
    rw [isWireBodyBlob, hdata, take_left' length_wireBodyMagic]
    simp [wireBodyMagic]
  have hlen : littleValue (((encodeWireBodyBlob payload).drop 4).take 4) = payload.length := by
    rw [hdata, drop_left' length_wireBodyMagic, take_left' (length_littleEndian 4 _),
      littleValue_littleEndian]
    exact Nat.mod_eq_of_lt h
  have hbody : (encodeWireBodyBlob payload).drop 8 = payload := by
    rw [encodeWireBodyBlob, drop_left' (by simp [wireBodyMagic])]
  have htotal : ¬ (encodeWireBodyBlob payload).length < 8 + payload.length := by
    simp only [encodeWireBodyBlob, length_append, length_wireBodyMagic, length_littleEndian]
    omega
  simp only [decodeWireBodyBlob, hwire, if_true, hlen, if_neg htotal, hbody, take_length]

theorem take_four_littleEndian (n : ℕ) (tail : Bytes) :
    (littleEndian 8 n ++ tail).take 4 = littleEndian 4 n := by
  rw [littleEndian_add 4 4, append_assoc, take_left' (length_littleEndian 4 n)]

/-- A body that starts with a 64-bit number passes for wire bytes exactly when its low half spells
the tag and its high half is a length that fits. -/
theorem decodeWireBodyBlob_isSome_iff (n : ℕ) (tail : Bytes) :
    (decodeWireBodyBlob (littleEndian 8 n ++ tail)).isSome ↔
      n % 2 ^ 32 = wireBodyVersion ∧ n / 2 ^ 32 % 2 ^ 32 ≤ tail.length := by
  have hmagic : isWireBodyBlob (littleEndian 8 n ++ tail) ↔
      n % 2 ^ 32 = wireBodyVersion := by
    have hword : wireBodyMagic = littleEndian 4 wireBodyVersion := by decide
    rw [isWireBodyBlob, take_four_littleEndian, hword, Bool.and_eq_true, decide_eq_true_eq,
      decide_eq_true_eq, littleEndian_eq_iff]
    simp [wireBodyVersion]
  have hlen : littleValue (((littleEndian 8 n ++ tail).drop 4).take 4) = n / 2 ^ 32 % 2 ^ 32 := by
    rw [littleEndian_add 4 4, append_assoc, drop_left' (length_littleEndian 4 n),
      take_left' (length_littleEndian 4 _), littleValue_littleEndian]
    rfl
  simp only [decodeWireBodyBlob, hlen, length_append, length_littleEndian]
  rw [← hmagic]
  by_cases hwire : isWireBodyBlob (littleEndian 8 n ++ tail)
  · by_cases hfit : n / 2 ^ 32 % 2 ^ 32 ≤ tail.length
    · have hcut : ¬ 8 + tail.length < 8 + n / 2 ^ 32 % 2 ^ 32 := by omega
      rw [if_pos hwire, if_neg hcut]
      exact ⟨fun _ => ⟨hwire, hfit⟩, fun _ => rfl⟩
    · have hcut : 8 + tail.length < 8 + n / 2 ^ 32 % 2 ^ 32 := by omega
      rw [if_pos hwire, if_pos hcut]
      exact ⟨nofun, fun h => absurd h.2 hfit⟩
  · simp [hwire]

theorem isCompressed_littleEndian_iff (n : ℕ) (tail : Bytes) :
    isCompressed (littleEndian 8 n ++ tail) ↔ n % 2 ^ 32 = zstdVersion := by
  have hword : zstdMagic = littleEndian 4 zstdVersion := by decide
  rw [isCompressed, take_four_littleEndian, hword, Bool.and_eq_true, decide_eq_true_eq,
    decide_eq_true_eq, littleEndian_eq_iff]
  simp only [length_append, length_littleEndian]
  constructor
  · intro h
    exact h.2
  · intro h
    exact ⟨by omega, h⟩

theorem decodeWireBodyBlob_of_isCompressed {data : Bytes} (h : isCompressed data) :
    decodeWireBodyBlob data = none := by
  have hfirst : data.take 4 = zstdMagic :=
    of_decide_eq_true (Bool.and_eq_true_iff.mp h).2
  have hwire : isWireBodyBlob data = false := by
    rw [isWireBodyBlob, hfirst]
    simp [zstdMagic, wireBodyMagic]
  rw [decodeWireBodyBlob, hwire]
  rfl

end Blobs

/-- The serialisers of the other crates. A bincode body starts with the 64-bit version of the
header, a witness list with its 64-bit length. -/
structure BlockCodec (B W H : Type) where
  blockHash : B → H
  version : B → BitVec 64
  bodyTail : B → Bytes
  deserializeBlock : Bytes → Except String B
  witnessTail : List W → Bytes
  deserializeWitnesses : Bytes → Except String (List W)
  deserializeBlockWithWitnesses : Bytes → Except String (B × List W)
  encodeAll : Bytes → Bytes
  decodeAll : Bytes → Except String Bytes

structure BodyConfig where
  blockCompression : Bool
  blockCompressionEnabled : Bool
  witnessCompression : Bool
  witnessCompressionEnabled : Bool
  heed3 : Bool

inductive BlockKey (H : Type)
  | hash (hash : H)
  | row (height : ℕ) (hash : H)
  deriving DecidableEq

structure BodyStore (H : Type) where
  blocks : KeyTable (BlockKey H) Bytes
  witnesses : KeyTable (BlockKey H) Bytes
  hashToHeight : KeyTable H ℕ

section Codec

variable {B W H : Type} (codec : BlockCodec B W H) (cfg : BodyConfig)

namespace BlockCodec

def serializeBlock (block : B) : Bytes :=
  littleEndian 8 (codec.version block).toNat ++ codec.bodyTail block

def serializeWitnesses (witnesses : List W) : Bytes :=
  littleEndian 8 witnesses.length ++ codec.witnessTail witnesses

def decodeBounded (data : Bytes) : Except String Bytes :=
  match codec.decodeAll data with
  | .error e => .error e
  | .ok out =>
    if maxDecompressedBlob < out.length then
      .error "decompressed output exceeds 4000000 bytes"
    else .ok out

def bodyBlob (block : B) : Bytes :=
  if cfg.blockCompression && cfg.blockCompressionEnabled then
    codec.encodeAll (codec.serializeBlock block)
  else codec.serializeBlock block

def witnessBlob (witnesses : List W) : Option Bytes :=
  if witnesses = [] then none
  else if cfg.witnessCompression && cfg.witnessCompressionEnabled then
    some (codec.encodeAll (codec.serializeWitnesses witnesses))
  else some (codec.serializeWitnesses witnesses)

def inflate (feature : Bool) (what : String) (data : Bytes) : Except String Bytes :=
  if feature && isCompressed data then
    match codec.decodeBounded data with
    | .error e => .error (what ++ " decompression failed: " ++ e)
    | .ok out => .ok out
  else .ok data

def decodeBlockBlob (data : Bytes) : Except String B :=
  match decodeWireBodyBlob data with
  | some payload =>
    match codec.deserializeBlockWithWitnesses payload with
    | .error e => .error ("wire body deserialize: " ++ e)
    | .ok res => .ok res.1
  | none => (codec.inflate cfg.blockCompression "Block" data).bind codec.deserializeBlock

def decodeWitnessBlob (data : Bytes) : Except String (List W) :=
  (codec.inflate cfg.witnessCompression "Witness" data).bind codec.deserializeWitnesses

end BlockCodec

namespace BodyStore

variable [DecidableEq H] (st : BodyStore H)

def storeBlock (block : B) : BodyStore H :=
  { st with blocks := st.blocks.insert (.hash (codec.blockHash block)) (codec.bodyBlob cfg block) }

/-- `store_height` and `store_hash_height`, as far as readers by hash see them. -/
def storeHeight (height : ℕ) (hash : H) : BodyStore H :=
  { st with hashToHeight := st.hashToHeight.insert hash height }

/-- `store_block_wire_bytes`: no witness row, and the height is indexed in the same batch. -/
def storeBlockWireBytes (block : B) (height : ℕ) (payload : Bytes) : BodyStore H :=
  { st with
    blocks := st.blocks.insert (.row height (codec.blockHash block)) (encodeWireBodyBlob payload)
    hashToHeight := st.hashToHeight.insert (codec.blockHash block) height }

/-- `store_block_with_witness`; the heed3 transaction also writes the index rows. -/
def storeBlockWithWitness (block : B) (witnesses : List W) (height : ℕ) : BodyStore H where
  blocks := st.blocks.insert (.row height (codec.blockHash block)) (codec.bodyBlob cfg block)
  witnesses :=
    match codec.witnessBlob cfg witnesses with
    | some blob => st.witnesses.insert (.row height (codec.blockHash block)) blob
    | none => st.witnesses
  hashToHeight :=
    if cfg.heed3 then st.hashToHeight.insert (codec.blockHash block) height else st.hashToHeight

def storeBlocksWithWitnessBatch (items : List (B × List W × ℕ)) : BodyStore H :=
  items.foldl (fun st item => st.storeBlockWithWitness codec cfg item.1 item.2.1 item.2.2) st

def getHeightByHash (hash : H) : Option ℕ := st.hashToHeight.get hash

def loadBlockBlob (hash : H) : Option Bytes :=
  match st.getHeightByHash hash with
  | some height => (st.blocks.get (.row height hash)).or (st.blocks.get (.hash hash))
  | none => st.blocks.get (.hash hash)

def getBlock (hash : H) : Except String (Option B) :=
  match st.loadBlockBlob hash with
  | some data => (codec.decodeBlockBlob cfg data).map some
  | none => .ok none

/-- The witnesses at the row of a height: the witness row, or those in a wire body. -/
def rowWitness (height : ℕ) (hash : H) : Except String (Option (List W)) :=
  match st.witnesses.get (.row height hash) with
  | some data => (codec.decodeWitnessBlob cfg data).map some
  | none =>
    match (st.blocks.get (.row height hash)).bind decodeWireBodyBlob with
    | some payload =>
      match codec.deserializeBlockWithWitnesses payload with
      | .error e => .error ("wire witness deserialize: " ++ e)
      | .ok res => .ok (some res.2)
    | none => .ok none

def hashWitness (hash : H) : Except String (Option (List W)) :=
  match st.witnesses.get (.hash hash) with
  | some data => (codec.decodeWitnessBlob cfg data).map some
  | none => .ok none

def getWitness (hash : H) : Except String (Option (List W)) :=
  match st.getHeightByHash hash with
  | none => st.hashWitness codec cfg hash
  | some height =>
    match st.rowWitness codec cfg height hash with
    | .ok none => st.hashWitness codec cfg hash
    | found => found

def getBlockAndWitnesses (hash : H) : Except String (Option (B × List W)) :=
  match st.loadBlockBlob hash with
  | none => .ok none
  | some data =>
    match decodeWireBodyBlob data with
    | some payload =>
      match codec.deserializeBlockWithWitnesses payload with
      | .error e => .error ("wire body deserialize: " ++ e)
      | .ok res => .ok (some res)
    | none =>
      (codec.decodeBlockBlob cfg data).bind fun block =>
        (st.getWitness codec cfg hash).map fun witnesses =>
          some (block, witnesses.getD [])

end BodyStore

end Codec

end BlvmNode
