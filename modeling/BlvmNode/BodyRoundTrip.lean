import BlvmNode.BlockBodies

/-!
# Stored blocks read back

A block stored as bincode reads back unless its header version spells one of the tags that the
reader looks for, or its compressed form expands past the cap of the decoder. A block stored as wire
bytes always reads back.
-/

namespace BlvmNode

open List Option KeyTable

inductive BodyOp (B W H : Type)
  | storeBlock (block : B)
  | storeBlockWithWitness (block : B) (witnesses : List W) (height : ℕ)
  | storeBlocksWithWitnessBatch (items : List (B × List W × ℕ))
  | storeBlockWireBytes (block : B) (height : ℕ) (payload : Bytes)
  | storeHeight (height : ℕ) (hash : H)

section RoundTrip

variable {B W H : Type} (codec : BlockCodec B W H) (cfg : BodyConfig)

/-- The serialisers invert, a zstd frame starts with its magic number, and a bincode body taken for
another encoding does not give its own content back. -/
structure BlockCodec.Lawful : Prop where
  block : ∀ block, codec.deserializeBlock (codec.serializeBlock block) = .ok block
  witnesses : ∀ witnesses,
    codec.deserializeWitnesses (codec.serializeWitnesses witnesses) = .ok witnesses
  zstd : ∀ data, codec.decodeAll (codec.encodeAll data) = .ok data
  zstdFrame : ∀ data, isCompressed (codec.encodeAll data) = true
  wireForeign : ∀ block payload, decodeWireBodyBlob (codec.serializeBlock block) = some payload →
    ∀ witnesses, codec.deserializeBlockWithWitnesses payload ≠ .ok (block, witnesses)
  zstdForeignBlock : ∀ block data, isCompressed (codec.serializeBlock block) = true →
    codec.decodeAll (codec.serializeBlock block) = .ok data →
      codec.deserializeBlock data ≠ .ok block
  zstdForeignWitnesses : ∀ witnesses data,
    isCompressed (codec.serializeWitnesses witnesses) = true →
    codec.decodeAll (codec.serializeWitnesses witnesses) = .ok data →
      codec.deserializeWitnesses data ≠ .ok witnesses

/-- A compressed body fits the decoder's cap; another one has a version that spells neither tag. -/
def BlockCodec.BodyReadable (block : B) : Prop :=
  if cfg.blockCompression && cfg.blockCompressionEnabled then
    (codec.serializeBlock block).length ≤ maxDecompressedBlob
  else
    ¬ ((codec.version block).toNat % 2 ^ 32 = wireBodyVersion ∧
        (codec.version block).toNat / 2 ^ 32 ≤ (codec.bodyTail block).length) ∧
      (cfg.blockCompression = true → (codec.version block).toNat % 2 ^ 32 ≠ zstdVersion)

/-- The same for the witness row, whose first bytes are the number of witness stacks. -/
def BlockCodec.WitnessesReadable (witnesses : List W) : Prop :=
  witnesses = [] ∨
    if cfg.witnessCompression && cfg.witnessCompressionEnabled then
      (codec.serializeWitnesses witnesses).length ≤ maxDecompressedBlob
    else cfg.witnessCompression = true → witnesses.length % 2 ^ 32 ≠ zstdVersion

namespace BodyOp

/-- The write stores the block with its witnesses at its height; a wire payload is a message of the
peer-to-peer protocol. -/
def Stores (block : B) (witnesses : List W) (height : ℕ) : BodyOp B W H → Prop
  | storeBlock b => b = block ∧ witnesses = []
  | storeBlockWithWitness b ws n => b = block ∧ ws = witnesses ∧ n = height
  | storeBlocksWithWitnessBatch items => ∃ before after,
      items = before ++ (block, witnesses, height) :: after ∧
        ∀ item ∈ before ++ after, codec.blockHash item.1 ≠ codec.blockHash block
  | storeBlockWireBytes b n payload => b = block ∧ n = height ∧
      codec.deserializeBlockWithWitnesses payload = .ok (block, witnesses) ∧
      payload.length < 2 ^ 32
  | storeHeight _ _ => False

def Spares (hash : H) : BodyOp B W H → Prop
  | storeBlock b => codec.blockHash b ≠ hash
  | storeBlockWithWitness b _ _ => codec.blockHash b ≠ hash
  | storeBlocksWithWitnessBatch items => ∀ item ∈ items, codec.blockHash item.1 ≠ hash
  | storeBlockWireBytes b _ _ => codec.blockHash b ≠ hash
  | storeHeight _ _ => True

def IsWire : BodyOp B W H → Prop
  | storeBlockWireBytes _ _ _ => True
  | _ => False

variable [DecidableEq H]

def apply (st : BodyStore H) : BodyOp B W H → BodyStore H
  | storeBlock b => st.storeBlock codec cfg b
  | storeBlockWithWitness b ws n => st.storeBlockWithWitness codec cfg b ws n
  | storeBlocksWithWitnessBatch items => st.storeBlocksWithWitnessBatch codec cfg items
  | storeBlockWireBytes b n payload => st.storeBlockWireBytes codec b n payload
  | storeHeight n hash => st.storeHeight n hash

end BodyOp

namespace BodyStore

variable [DecidableEq H]

structure RowsAre (st : BodyStore H) (hash : H) (height : ℕ) (plain row witness : Option Bytes) :
    Prop where
  plain : st.blocks.get (.hash hash) = plain
  row : st.blocks.get (.row height hash) = row
  witness : st.witnesses.get (.row height hash) = witness
  legacy : st.witnesses.get (.hash hash) = none

variable {codec cfg} {st : BodyStore H} {hash : H} {height : ℕ} {plain row witness : Option Bytes}

theorem RowsAre.storeBlockWithWitness_other (h : RowsAre st hash height plain row witness)
    {b : B} {ws : List W} {n : ℕ} (hb : codec.blockHash b ≠ hash) :
    RowsAre (st.storeBlockWithWitness codec cfg b ws n) hash height plain row witness := by
  have hkey : BlockKey.row height hash ≠ .row n (codec.blockHash b) := by
    intro heq
    exact hb (BlockKey.row.inj heq).2.symm
  constructor
  · simp only [storeBlockWithWitness, get_insert, reduceCtorEq, if_false, h.plain]
  · simp only [storeBlockWithWitness, get_insert, if_neg hkey, h.row]
  · cases hblob : codec.witnessBlob cfg ws <;>
      simp only [storeBlockWithWitness, hblob, get_insert, if_neg hkey, h.witness]
  · cases hblob : codec.witnessBlob cfg ws <;>
      simp only [storeBlockWithWitness, hblob, get_insert, reduceCtorEq, if_false, h.legacy]

variable (cfg) in
theorem RowsAre.batch_other (h : RowsAre st hash height plain row witness)
    {items : List (B × List W × ℕ)} (hitems : ∀ item ∈ items, codec.blockHash item.1 ≠ hash) :
    RowsAre (st.storeBlocksWithWitnessBatch codec cfg items) hash height plain row witness := by
  refine foldlRecOn (motive := (RowsAre · hash height plain row witness)) items _ h ?_
  intro st h item hitem
  exact h.storeBlockWithWitness_other (hitems item hitem)

theorem RowsAre.apply (h : RowsAre st hash height plain row witness) {op : BodyOp B W H}
    (hop : op.Spares codec hash) :
    RowsAre (op.apply codec cfg st) hash height plain row witness := by
  cases op with
  | storeBlock b =>
    have hkey : BlockKey.hash hash ≠ .hash (codec.blockHash b) := by
      intro heq
      exact hop (BlockKey.hash.inj heq).symm
    constructor
    · simp only [BodyOp.apply, storeBlock, get_insert, if_neg hkey, h.plain]
    · simp only [BodyOp.apply, storeBlock, get_insert, reduceCtorEq, if_false, h.row]
    · exact h.witness
    · exact h.legacy
  | storeBlockWithWitness b ws n => exact h.storeBlockWithWitness_other hop
  | storeBlocksWithWitnessBatch items => exact h.batch_other cfg hop
  | storeBlockWireBytes b n payload =>
    have hkey : BlockKey.row height hash ≠ .row n (codec.blockHash b) := by
      intro heq
      exact hop (BlockKey.row.inj heq).2.symm
    constructor
    · simp only [BodyOp.apply, storeBlockWireBytes, get_insert, reduceCtorEq, if_false, h.plain]
    · simp only [BodyOp.apply, storeBlockWireBytes, get_insert, if_neg hkey, h.row]
    · exact h.witness
    · exact h.legacy
  | storeHeight n hash' => exact ⟨h.plain, h.row, h.witness, h.legacy⟩

theorem RowsAre.run (h : RowsAre st hash height plain row witness) {ops : List (BodyOp B W H)}
    (hops : ∀ op ∈ ops, op.Spares codec hash) :
    RowsAre (ops.foldl (fun st op => op.apply codec cfg st) st) hash height plain row witness := by
  refine foldlRecOn (motive := (RowsAre · hash height plain row witness)) ops _ h ?_
  intro st h op hop
  exact h.apply (hops op hop)

variable (cfg) in
/-- A write of the block into a store without rows of its hash: except for wire bytes, the body lies
under the height or the hash, beside the list's witness row. -/
theorem RowsAre.stores {block : B} {ws : List W}
    (h : RowsAre st (codec.blockHash block) height none none none) {op : BodyOp B W H}
    (hop : op.Stores codec block ws height) (hwire : ¬ op.IsWire) :
    ∃ plain row, RowsAre (op.apply codec cfg st) (codec.blockHash block) height plain row
        (codec.witnessBlob cfg ws) ∧
      (row = none ∨ row = some (codec.bodyBlob cfg block)) ∧
      row.or plain = some (codec.bodyBlob cfg block) := by
  have hwith : ∀ {st : BodyStore H},
      RowsAre st (codec.blockHash block) height none none none →
      RowsAre (st.storeBlockWithWitness codec cfg block ws height) (codec.blockHash block) height
        none (some (codec.bodyBlob cfg block)) (codec.witnessBlob cfg ws) := by
    intro st h
    constructor
    · simp only [storeBlockWithWitness, get_insert, reduceCtorEq, if_false, h.plain]
    · simp only [storeBlockWithWitness, get_insert, if_true]
    · cases hblob : codec.witnessBlob cfg ws <;>
        simp only [storeBlockWithWitness, hblob, get_insert, if_true, h.witness]
    · cases hblob : codec.witnessBlob cfg ws <;>
        simp only [storeBlockWithWitness, hblob, get_insert, reduceCtorEq, if_false, h.legacy]
  cases op with
  | storeBlock b =>
    obtain ⟨rfl, rfl⟩ := hop
    refine ⟨some (codec.bodyBlob cfg b), none, ⟨?_, ?_, h.witness, h.legacy⟩, .inl rfl, rfl⟩
    · simp only [BodyOp.apply, storeBlock, get_insert, if_true]
    · simp only [BodyOp.apply, storeBlock, get_insert, reduceCtorEq, if_false, h.row]
  | storeBlockWithWitness b ws' n =>
    obtain ⟨rfl, rfl, rfl⟩ := hop
    exact ⟨none, _, hwith h, .inr rfl, rfl⟩
  | storeBlocksWithWitnessBatch items =>
    obtain ⟨before, after, rfl, hother⟩ := hop
    have hbefore := h.batch_other cfg fun item hitem =>
      hother item (mem_append_left _ hitem)
    have hafter := (hwith hbefore).batch_other cfg fun item hitem =>
      hother item (mem_append_right _ hitem)
    refine ⟨none, _, ?_, .inr rfl, rfl⟩
    simpa only [BodyOp.apply, storeBlocksWithWitnessBatch, foldl_append, foldl_cons]
      using hafter
  | storeBlockWireBytes b n payload => exact absurd trivial hwire
  | storeHeight n hash => exact hop.elim

variable (cfg) in
theorem RowsAre.stores_wire {block : B} {ws : List W}
    (h : RowsAre st (codec.blockHash block) height none none none) {op : BodyOp B W H}
    (hop : op.Stores codec block ws height) (hwire : op.IsWire) :
    ∃ data payload,
      RowsAre (op.apply codec cfg st) (codec.blockHash block) height none (some data) none ∧
      decodeWireBodyBlob data = some payload ∧
      codec.deserializeBlockWithWitnesses payload = .ok (block, ws) := by
  cases op with
  | storeBlockWireBytes b n payload =>
    obtain ⟨rfl, rfl, hpayload, hlen⟩ := hop
    refine ⟨encodeWireBodyBlob payload, payload, ⟨?_, ?_, h.witness, h.legacy⟩,
      decodeWireBodyBlob_encode hlen, hpayload⟩
    · simp only [BodyOp.apply, storeBlockWireBytes, get_insert, reduceCtorEq, if_false, h.plain]
    · simp only [BodyOp.apply, storeBlockWireBytes, get_insert, if_true]
  | storeBlock _ | storeBlockWithWitness _ _ _ | storeBlocksWithWitnessBatch _
  | storeHeight _ _ => exact hwire.elim

variable (codec cfg) in
def ReadsBack (st : BodyStore H) (block : B) (ws : List W) : Prop :=
  st.getBlock codec cfg (codec.blockHash block) = .ok (some block) ∧
    st.getBlockAndWitnesses codec cfg (codec.blockHash block) = .ok (some (block, ws))

theorem RowsAre.loadBlockBlob (h : RowsAre st hash height plain row witness)
    (hindex : st.getHeightByHash hash = some height) : st.loadBlockBlob hash = row.or plain := by
  rw [BodyStore.loadBlockBlob, hindex]
  simp only [h.row, h.plain]

end BodyStore

namespace BlockCodec

variable {codec cfg}

theorem Lawful.decodeBounded (h : codec.Lawful) (data : Bytes) :
    codec.decodeBounded (codec.encodeAll data) =
      if maxDecompressedBlob < data.length then .error "decompressed output exceeds 4000000 bytes"
      else .ok data := by
  simp only [BlockCodec.decodeBounded, h.zstd]

theorem Lawful.inflate_encodeAll (h : codec.Lawful) {α : Type} {what : String} {data : Bytes}
    {parse : Bytes → Except String α} {a : α} (hparse : parse data = .ok a) :
    (codec.inflate true what (codec.encodeAll data)).bind parse = .ok a ↔
      data.length ≤ maxDecompressedBlob := by
  simp only [inflate, h.zstdFrame, Bool.and_self, if_true, h.decodeBounded]
  split_ifs with hlen
  · exact ⟨nofun, fun hle => absurd hlen (Nat.not_lt.mpr hle)⟩
  · exact ⟨fun _ => Nat.le_of_not_lt hlen, fun _ => hparse⟩

theorem inflate_plain {feature : Bool} {α : Type} {what : String} {data : Bytes}
    {parse : Bytes → Except String α} {a : α} (hparse : parse data = .ok a)
    (hforeign : ∀ out, isCompressed data → codec.decodeAll data = .ok out →
      parse out ≠ .ok a) :
    (codec.inflate feature what data).bind parse = .ok a ↔
      (feature → ¬ isCompressed data) := by
  by_cases htaken : (feature && isCompressed data)
  · obtain ⟨hfeature, hcompressed⟩ := Bool.and_eq_true_iff.mp htaken
    refine ⟨fun hok => ?_, fun hno => absurd hcompressed (hno hfeature)⟩
    simp only [inflate, htaken, if_true, BlockCodec.decodeBounded] at hok
    split at hok
    next => cases hok
    next out hout =>
      split at hout
      next => cases hout
      next hdecode =>
        split_ifs at hout
        cases hout
        exact absurd hok (hforeign out hcompressed hdecode)
  · have hplain : ∀ hfeature : feature, ¬ isCompressed data := by
      intro hfeature hcompressed
      exact htaken (Bool.and_eq_true_iff.mpr ⟨hfeature, hcompressed⟩)
    simp only [inflate, htaken]
    exact ⟨fun _ => hplain, fun _ => hparse⟩

variable (codec) in
theorem isSome_decodeWire_serializeBlock (block : B) :
    (decodeWireBodyBlob (codec.serializeBlock block)).isSome ↔
      (codec.version block).toNat % 2 ^ 32 = wireBodyVersion ∧
        (codec.version block).toNat / 2 ^ 32 ≤ (codec.bodyTail block).length := by
  have hhigh : (codec.version block).toNat / 2 ^ 32 % 2 ^ 32 =
      (codec.version block).toNat / 2 ^ 32 := by
    omega
  rw [serializeBlock, decodeWireBodyBlob_isSome_iff, hhigh]

theorem Lawful.decodeBlockBlob_bodyBlob (h : codec.Lawful) (block : B) :
    codec.decodeBlockBlob cfg (codec.bodyBlob cfg block) = .ok block ↔
      codec.BodyReadable cfg block := by
  by_cases hzip : (cfg.blockCompression && cfg.blockCompressionEnabled)
  · have hfeature := (Bool.and_eq_true_iff.mp hzip).1
    rw [bodyBlob, if_pos hzip, BodyReadable, if_pos hzip, decodeBlockBlob,
      decodeWireBodyBlob_of_isCompressed (h.zstdFrame _), hfeature]
    exact h.inflate_encodeAll (h.block block)
  · rw [bodyBlob, if_neg hzip, BodyReadable, if_neg hzip, decodeBlockBlob]
    cases hwire : decodeWireBodyBlob (codec.serializeBlock block) with
    | some payload =>
      have htag := (codec.isSome_decodeWire_serializeBlock block).mp
        (hwire ▸ rfl)
      refine ⟨fun hok => ?_, fun hno => absurd htag hno.1⟩
      dsimp only at hok
      split at hok
      next => cases hok
      next res hres =>
        obtain rfl : res.1 = block := Except.ok.inj hok
        exact absurd hres (h.wireForeign _ payload hwire res.2)
    | none =>
      have htag : ¬ ((codec.version block).toNat % 2 ^ 32 = wireBodyVersion ∧
          (codec.version block).toNat / 2 ^ 32 ≤ (codec.bodyTail block).length) := by
        rw [← isSome_decodeWire_serializeBlock, hwire]
        exact nofun
      dsimp only
      rw [inflate_plain (h.block block) (h.zstdForeignBlock block)]
      simp only [serializeBlock, isCompressed_littleEndian_iff]
      exact ⟨fun hno => ⟨htag, hno⟩, fun hno => hno.2⟩

theorem Lawful.decodeWitnessBlob_witnessBlob (h : codec.Lawful) {ws : List W} {blob : Bytes}
    (hblob : codec.witnessBlob cfg ws = some blob) :
    codec.decodeWitnessBlob cfg blob = .ok ws ↔ codec.WitnessesReadable cfg ws := by
  rw [witnessBlob] at hblob
  split_ifs at hblob with hnil hzip
  · cases hblob
    have hfeature := (Bool.and_eq_true_iff.mp hzip).1
    rw [decodeWitnessBlob, hfeature, h.inflate_encodeAll (h.witnesses ws), WitnessesReadable,
      if_pos hzip, or_iff_right hnil]
  · cases hblob
    rw [decodeWitnessBlob, inflate_plain (h.witnesses ws) (h.zstdForeignWitnesses ws),
      WitnessesReadable, if_neg hzip, or_iff_right hnil]
    simp only [serializeWitnesses, isCompressed_littleEndian_iff, ne_eq]

theorem BodyReadable.decodeWire_eq_none (h : codec.Lawful) {block : B}
    (hread : codec.BodyReadable cfg block) :
    decodeWireBodyBlob (codec.bodyBlob cfg block) = none := by
  rw [bodyBlob]
  rw [BodyReadable] at hread
  split_ifs at hread ⊢ with hzip
  · exact decodeWireBodyBlob_of_isCompressed (h.zstdFrame _)
  · rw [← isSome_decodeWire_serializeBlock] at hread
    exact not_isSome_iff_eq_none.mp hread.1

end BlockCodec

namespace BodyStore

variable {codec cfg} [DecidableEq H] {st : BodyStore H} {height : ℕ} {plain row : Option Bytes}
  {block : B} {ws : List W}

section

variable (h : codec.Lawful)
    (hrows : RowsAre st (codec.blockHash block) height plain row (codec.witnessBlob cfg ws))
    (hindex : st.getHeightByHash (codec.blockHash block) = some height)
include h hrows hindex

theorem RowsAre.getWitness_iff (hrow : row = none ∨ row = some (codec.bodyBlob cfg block))
    (hread : codec.BodyReadable cfg block) :
    (∃ found, st.getWitness codec cfg (codec.blockHash block) = .ok found ∧ found.getD [] = ws) ↔
      codec.WitnessesReadable cfg ws := by
  have hbody : row.bind decodeWireBodyBlob = none := by
    obtain rfl | rfl := hrow
    · rfl
    · exact hread.decodeWire_eq_none h
  simp only [getWitness, hindex, rowWitness, hrows.witness, hrows.row]
  cases hblob : codec.witnessBlob cfg ws with
  | none =>
    have hnil : ws = [] := by
      rw [BlockCodec.witnessBlob] at hblob
      split_ifs at hblob with hnil
      exact hnil
    simp only [hbody, hashWitness, hrows.legacy]
    exact ⟨fun _ => .inl hnil, fun _ => ⟨none, rfl, hnil.symm⟩⟩
  | some blob =>
    rw [← h.decodeWitnessBlob_witnessBlob hblob]
    dsimp only
    cases hdecode : codec.decodeWitnessBlob cfg blob with
    | error e | ok found => simp [Except.map]

theorem RowsAre.readsBack_iff (hrow : row = none ∨ row = some (codec.bodyBlob cfg block))
    (hload : row.or plain = some (codec.bodyBlob cfg block)) : st.ReadsBack codec cfg block ws ↔
      codec.BodyReadable cfg block ∧ codec.WitnessesReadable cfg ws := by
  have hblob := (hrows.loadBlockBlob hindex).trans hload
  have hget : st.getBlock codec cfg (codec.blockHash block) = .ok (some block) ↔
      codec.BodyReadable cfg block := by
    rw [← h.decodeBlockBlob_bodyBlob, getBlock, hblob]
    dsimp only
    cases codec.decodeBlockBlob cfg (codec.bodyBlob cfg block) with
    | error e | ok found => simp [Except.map]
  rw [ReadsBack, hget]
  refine and_congr_right fun hread => ?_
  rw [← hrows.getWitness_iff h hindex hrow hread, getBlockAndWitnesses, hblob]
  simp only [hread.decodeWire_eq_none h, (h.decodeBlockBlob_bodyBlob block).mpr hread, Except.bind]
  cases st.getWitness codec cfg (codec.blockHash block) with
  | error e | ok found => simp [Except.map]

end

theorem RowsAre.readsBack_wire {data payload : Bytes}
    (hrows : RowsAre st (codec.blockHash block) height plain (some data) none)
    (hindex : st.getHeightByHash (codec.blockHash block) = some height)
    (hdecode : decodeWireBodyBlob data = some payload)
    (hpayload : codec.deserializeBlockWithWitnesses payload = .ok (block, ws)) :
    st.ReadsBack codec cfg block ws := by
  have hblob := hrows.loadBlockBlob hindex
  rw [some_or] at hblob
  constructor
  · simp only [getBlock, hblob, BlockCodec.decodeBlockBlob, hdecode, hpayload, Except.map]
  · simp only [getBlockAndWitnesses, hblob, hdecode, hpayload]

end BodyStore

variable [DecidableEq H]

/-- A block stored in any of the ways, with writes for other blocks and index writes after it, reads
back exactly when it was stored as wire bytes or its body and witnesses are readable. -/
theorem stored_block_reads_back_iff (hcodec : codec.Lawful) (st : BodyStore H) (block : B)
    (witnesses : List W) (height : ℕ)
    (hfresh : st.RowsAre (codec.blockHash block) height none none none)
    (op : BodyOp B W H) (hop : op.Stores codec block witnesses height)
    (later : List (BodyOp B W H)) (hlater : ∀ op ∈ later, op.Spares codec (codec.blockHash block))
    (hindex : (later.foldl (fun st op => op.apply codec cfg st)
      (op.apply codec cfg st)).getHeightByHash (codec.blockHash block) = some height) :
    (later.foldl (fun st op => op.apply codec cfg st) (op.apply codec cfg st)).ReadsBack codec cfg
        block witnesses ↔
      op.IsWire ∨ codec.BodyReadable cfg block ∧ codec.WitnessesReadable cfg witnesses := by
  by_cases hwire : op.IsWire
  · obtain ⟨data, payload, hrows, hdecode, hpayload⟩ := hfresh.stores_wire cfg hop hwire
    exact iff_of_true ((hrows.run hlater).readsBack_wire hindex hdecode hpayload) (.inl hwire)
  · obtain ⟨plain, row, hrows, hrow, hload⟩ := hfresh.stores cfg hop hwire
    rw [or_iff_right hwire]
    exact (hrows.run hlater).readsBack_iff hcodec hindex hrow hload

end RoundTrip

open BlockCodec

section Versions

def versionCodec : BlockCodec (BitVec 64) (BitVec 8) (BitVec 64) where
  blockHash := id
  version := id
  bodyTail := fun _ => []
  deserializeBlock := fun data =>
    if data.length = 8 then .ok (BitVec.ofNat 64 (littleValue data)) else .error "block length"
  witnessTail := id
  deserializeWitnesses := fun data =>
    if data.length < 8 then .error "witness length" else .ok (data.drop 8)
  deserializeBlockWithWitnesses := fun payload =>
    if payload.length < 8 then .error "short payload"
    else .ok (BitVec.ofNat 64 (littleValue (payload.take 8)), payload.drop 8)
  encodeAll := fun data => zstdMagic ++ data
  decodeAll := fun data => .ok (data.drop 4)

theorem versionCodec_deserializeBlock (data : Bytes) : versionCodec.deserializeBlock data =
    if data.length = 8 then .ok (BitVec.ofNat 64 (littleValue data)) else .error "block length" :=
  rfl

theorem versionCodec_deserializeWitnesses (data : Bytes) : versionCodec.deserializeWitnesses data =
    if data.length < 8 then .error "witness length" else .ok (data.drop 8) :=
  rfl

theorem length_serializeBlock_versionCodec (v : BitVec 64) :
    (versionCodec.serializeBlock v).length = 8 := by
  rw [serializeBlock, length_append, length_littleEndian]
  rfl

theorem versionCodec_lawful : versionCodec.Lawful where
  block := by
    intro v
    have hvalue : littleValue (versionCodec.serializeBlock v) = v.toNat := by
      have hbytes : versionCodec.serializeBlock v = littleEndian 8 v.toNat := append_nil _
      rw [hbytes, littleValue_littleEndian]
      exact Nat.mod_eq_of_lt v.isLt
    have hread : BitVec.ofNat 64 (littleValue (versionCodec.serializeBlock v)) = v := by
      rw [hvalue, BitVec.ofNat_toNat, BitVec.setWidth_eq]
    rw [versionCodec_deserializeBlock, if_pos (length_serializeBlock_versionCodec v), hread]
  witnesses := by
    intro ws
    have hlen : ¬ (versionCodec.serializeWitnesses ws).length < 8 := by
      rw [serializeWitnesses, length_append, length_littleEndian]
      omega
    rw [versionCodec_deserializeWitnesses, if_neg hlen, serializeWitnesses,
      drop_left' (length_littleEndian 8 _)]
    rfl
  zstd := fun data => congrArg Except.ok (drop_left' rfl)
  zstdFrame := by
    intro data
    have hfirst : (zstdMagic ++ data).take 4 = zstdMagic := take_left' rfl
    change isCompressed (zstdMagic ++ data)
    rw [isCompressed, hfirst]
    simp [zstdMagic]
  wireForeign := by
    intro v payload hwire ws hread
    have hshort : payload.length < 8 := by
      rw [decodeWireBodyBlob] at hwire
      dsimp only at hwire
      split_ifs at hwire
      cases hwire
      rw [length_take, length_drop, length_serializeBlock_versionCodec]
      omega
    change (if payload.length < 8 then _ else _) = _ at hread
    rw [if_pos hshort] at hread
    cases hread
  zstdForeignBlock := by
    intro v data _ hdata hread
    obtain rfl : (versionCodec.serializeBlock v).drop 4 = data := Except.ok.inj hdata
    have hlen : ((versionCodec.serializeBlock v).drop 4).length ≠ 8 := by
      rw [length_drop, length_serializeBlock_versionCodec]
      decide
    rw [versionCodec_deserializeBlock, if_neg hlen] at hread
    cases hread
  zstdForeignWitnesses := by
    intro ws data hmagic hdata hread
    obtain rfl : (versionCodec.serializeWitnesses ws).drop 4 = data := Except.ok.inj hdata
    have hcount : ws.length % 2 ^ 32 = zstdVersion :=
      (isCompressed_littleEndian_iff ws.length ws).mp hmagic
    rw [versionCodec_deserializeWitnesses] at hread
    split_ifs at hread with hshort
    have hlen := congrArg length (Except.ok.inj hread)
    rw [drop_drop, length_drop, serializeWitnesses, length_append, length_littleEndian] at hlen
    change 8 + ws.length - (4 + 8) = ws.length at hlen
    rw [zstdVersion] at hcount
    omega

def defaultBodies : BodyConfig := ⟨false, false, false, false, true⟩

theorem stored_block_reads_back_iff_version_one :
    ((BodyOp.storeBlockWithWitness 1#64 [7#8] 5).apply versionCodec defaultBodies
        (⟨.empty, .empty, .empty⟩ : BodyStore (BitVec 64))).ReadsBack versionCodec defaultBodies
      1#64 [7#8] := by
  refine (stored_block_reads_back_iff versionCodec defaultBodies versionCodec_lawful
    ⟨.empty, .empty, .empty⟩ 1#64 [7#8] 5 ⟨rfl, rfl, rfl, rfl⟩
    (.storeBlockWithWitness 1#64 [7#8] 5) ⟨rfl, rfl, rfl⟩ [] (by simp) rfl).mpr (.inr ⟨?_, ?_⟩)
  · simp [BlockCodec.BodyReadable, defaultBodies, versionCodec, wireBodyVersion]
  · exact .inr (by simp [defaultBodies])

/-- A version that is the number of the tag `BLVW` is stored and cannot be read back. -/
theorem tagged_version_unreadable :
    versionCodec.Lawful ∧
    ((BodyOp.storeBlockWithWitness 0x57564C42#64 [7#8] 5).apply versionCodec defaultBodies
        (⟨.empty, .empty, .empty⟩ : BodyStore (BitVec 64))).getBlock versionCodec defaultBodies
      0x57564C42#64 = .error "wire body deserialize: short payload" :=
  ⟨versionCodec_lawful, by decide⟩

end Versions

end BlvmNode
