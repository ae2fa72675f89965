import BlvmNode.OutputKV
import BlvmNode.Lib.PrefixDirectory
import BlvmNode.Lib.BitTable

/-!
# Directory and Bloom filter of a frozen run

A frozen run is probed through a blocked Bloom filter and a prefix directory before it is
searched. Both are built from the entries of the run; neither ever hides an entry.
-/

namespace BlvmNode

open KeyedRuns PrefixDirectory BitTable

/-- The top `bits` bits of the first four key bytes. -/
def keyPrefix (key : OutputKey) (bits : ℕ) : ℕ := key.txid.toNat >>> 224 >>> (32 - bits)

/-- The limit of the prefix bits: 20, unless `BLVM_IBD_DIR_PREFIX_BITS_MAX` sets another one. -/
def directoryPrefixBitsMax (override : Option ℕ) : ℕ := max 4 (min (override.getD 20) 28)

/-- About 85 entries per bucket, within the limits. -/
def directoryPrefixBits (override : Option ℕ) (entryCount : ℕ) : ℕ :=
  if entryCount ≤ 128 then 4
  else max 4 (min (Nat.size (max (entryCount / 85) 1)) (directoryPrefixBitsMax override))

structure Directory where
  buckets : List ℕ
  prefixBits : ℕ

namespace Directory

def build (override : Option ℕ) (entries : List OutputKV) : Directory :=
  if entries.isEmpty then ⟨[0, 0], 1⟩
  else
    let prefixBits := directoryPrefixBits override entries.length
    ⟨PrefixDirectory.bucketStarts (fun e : OutputKV => keyPrefix e.key prefixBits)
      (2 ^ prefixBits) 0 0 entries, prefixBits⟩

def lookupRange (dir : Directory) (key : OutputKey) : ℕ × ℕ :=
  let p := keyPrefix key dir.prefixBits
  (dir.buckets.getD p 0, dir.buckets.getD (p + 1) 0)

/-- Bucket starts are kept as `u32`. -/
def stored (dir : Directory) : Directory := { dir with buckets := dir.buckets.map (· % 2 ^ 32) }

/-- The loop of the streaming builders: the buckets left over start at the announced count. -/
def streamBuckets (bits entryCount : ℕ) : ℕ → ℕ → List OutputKV → List ℕ
  | _, cur, [] => List.replicate (2 ^ bits + 1 - cur) entryCount
  | i, cur, e :: es =>
    List.replicate (keyPrefix e.key bits + 1 - cur) i ++
      streamBuckets bits entryCount (i + 1) (max cur (keyPrefix e.key bits + 1)) es

def buildStreaming (override : Option ℕ) (entryCount : ℕ) (entries : List OutputKV) : Directory :=
  if entryCount = 0 then ⟨[0, 0], 1⟩
  else
    let prefixBits := directoryPrefixBits override entryCount
    ⟨streamBuckets prefixBits entryCount 0 0 entries, prefixBits⟩

theorem streamBuckets_eq (bits i cur : ℕ) (entries : List OutputKV) :
    streamBuckets bits (i + entries.length) i cur entries =
      bucketStarts (fun e : OutputKV => keyPrefix e.key bits) (2 ^ bits) i cur entries := by
  induction entries generalizing i cur with
  | nil => rfl
  | cons e es ih =>
    rw [streamBuckets, bucketStarts, ← ih, List.length_cons, Nat.add_right_comm, Nat.add_assoc]

variable (override : Option ℕ)

theorem buildStreaming_eq (entries : List OutputKV) :
    buildStreaming override entries.length entries = build override entries := by
  unfold buildStreaming build
  cases entries with
  | nil => rfl
  | cons e es =>
    have hbuckets := streamBuckets_eq (directoryPrefixBits override (e :: es).length) 0 0 (e :: es)
    rw [Nat.zero_add] at hbuckets
    rw [if_neg (List.length_pos_of_mem List.mem_cons_self).ne', List.isEmpty_cons,
      if_neg Bool.false_ne_true]
    exact congrArg (Directory.mk · _) hbuckets

theorem stored_build {entries : List OutputKV} (h : entries.length < 2 ^ 32) :
    (build override entries).stored = build override entries := by
  have hstart : ∀ b ∈ (build override entries).buckets, b < 2 ^ 32 := by
    intro b hb
    unfold build at hb
    split_ifs at hb
    · have : b = 0 := by simpa using hb
      omega
    · have := le_of_mem_bucketStarts entries 0 0 hb
      omega
  rw [stored, List.map_congr_left (fun b hb => Nat.mod_eq_of_lt (hstart b hb)), List.map_id']

end Directory

variable (override : Option ℕ)

theorem directoryPrefixBits_le (n : ℕ) : directoryPrefixBits override n ≤ 32 := by
  unfold directoryPrefixBits directoryPrefixBitsMax
  split_ifs <;> omega

theorem keyPrefix_lt (key : OutputKey) {bits : ℕ} (hb : bits ≤ 32) :
    keyPrefix key bits < 2 ^ bits := by
  have hlt := key.txid.isLt
  have htop : key.txid.toNat / 2 ^ 224 < 2 ^ 32 := by
    rw [Nat.div_lt_iff_lt_mul (by positivity), ← pow_add]
    exact hlt
  rw [keyPrefix, Nat.shiftRight_eq_div_pow, Nat.shiftRight_eq_div_pow,
    Nat.div_lt_iff_lt_mul (by positivity), ← pow_add, Nat.add_sub_cancel' hb]
  exact htop

variable {entries : List OutputKV} {a b : OutputKey}

theorem txid_le_of_toNat_le (h : a.toNat ≤ b.toNat) : a.txid.toNat ≤ b.txid.toNat := by
  simp only [OutputKey.toNat] at h
  omega

theorem keyPrefix_mono (bits : ℕ) (h : a.toNat ≤ b.toNat) :
    keyPrefix a bits ≤ keyPrefix b bits := by
  simp only [keyPrefix, Nat.shiftRight_eq_div_pow]
  exact Nat.div_le_div_right (Nat.div_le_div_right (txid_le_of_toNat_le h))

/-- The range of a key runs over the entries with its prefix. -/
theorem Directory.lookupRange_build (hs : Sorted entries) (key : OutputKey) : ∃ bits,
    (build override entries).lookupRange key =
      (entries.countP (fun e => decide (keyPrefix e.key bits < keyPrefix key bits)),
        entries.countP (fun e => decide (keyPrefix e.key bits < keyPrefix key bits + 1))) := by
  cases entries with
  | nil =>
    have hp := @keyPrefix_lt key 1 (by decide)
    refine ⟨1, ?_⟩
    obtain h | h : keyPrefix key 1 = 0 ∨ keyPrefix key 1 = 1 := by omega
    all_goals simp [build, lookupRange, h]
  | cons e es =>
    set bits := directoryPrefixBits override (e :: es).length with hbits
    have hle : bits ≤ 32 := directoryPrefixBits_le override _
    have hpre := hs.imp (fun h => keyPrefix_mono bits (OutputKV.le_key h))
    have hlt : ∀ x ∈ e :: es, keyPrefix x.key bits < 2 ^ bits :=
      fun x _ => keyPrefix_lt x.key hle
    have hp : keyPrefix key bits < 2 ^ bits := keyPrefix_lt key hle
    have hlo := bucketStarts_get (e :: es) 0 0 (keyPrefix key bits) hpre hlt
      (Nat.zero_le _) hp.le
    have hhi := bucketStarts_get (e :: es) 0 0 (keyPrefix key bits + 1) hpre hlt
      (Nat.zero_le _) hp
    simp only [Nat.sub_zero, Nat.zero_add] at hlo hhi
    refine ⟨bits, ?_⟩
    simp only [build, lookupRange, List.isEmpty_cons, Bool.false_eq_true, if_false, ← hbits]
    rw [List.getD_eq_getElem?_getD, List.getD_eq_getElem?_getD, hlo, hhi, Option.getD_some,
      Option.getD_some]

theorem Directory.slice_lookupRange (hs : Sorted entries)
    (key : OutputKey) : ∃ bits, slice ((build override entries).lookupRange key).1
      ((build override entries).lookupRange key).2 entries =
        entries.filter (fun e => decide (keyPrefix e.key bits = keyPrefix key bits)) := by
  obtain ⟨bits, hrange⟩ := lookupRange_build override hs key
  rw [hrange]
  exact ⟨bits, slice_countP _ _ (hs.imp (fun h => keyPrefix_mono bits (OutputKV.le_key h)))⟩

structure BloomFilter where
  data : List (BitVec 64)
  numBlocks : ℕ

namespace BloomFilter

def wordsPerBlock : ℕ := 8

def goldenRatio64 : BitVec 64 := 0x9e3779b97f4a7c15

/-- Bytes `i .. i + n` of the 36 key bytes as a little-endian number. -/
def leBytes (key : OutputKey) (i n : ℕ) : BitVec 64 :=
  (List.range n).foldr
    (fun j acc => acc <<< 8 ||| BitVec.ofNat 64 (key.toNat >>> (8 * (35 - (i + j))) % 256)) 0

def fmix (x : BitVec 64) : BitVec 64 :=
  let x := x ^^^ (x >>> 33)
  let x := x * 0xff51afd7ed558ccd
  let x := x ^^^ (x >>> 33)
  let x := x * 0xc4ceb9fe1a85ec53
  x ^^^ (x >>> 33)

def hashKey (key : OutputKey) (numBlocks : ℕ) : ℕ × BitVec 64 :=
  let r0 := leBytes key 0 8
  let r1 := leBytes key 8 8
  let r2 := leBytes key 16 8
  let r3 := leBytes key 24 8
  let r4 := leBytes key 32 4
  let acc := r0 + r1.rotateLeft 17 + r2.rotateRight 11 + r3.rotateLeft 29 + r4 * goldenRatio64
  ((fmix acc).toNat % numBlocks, fmix (acc + goldenRatio64))

/-- The word and bit touched by each of the seven probes of a key. -/
def probes (numBlocks : ℕ) (key : OutputKey) : List (ℕ × ℕ) :=
  let hash := hashKey key numBlocks
  (List.range 7).map (fun probe =>
    let bit := ((hash.2 >>> (probe * 9)) &&& 0x1FF).toNat
    (hash.1 * wordsPerBlock + bit / 64 % wordsPerBlock, bit % 64))

def build (entries : List OutputKV) : BloomFilter :=
  if entries.isEmpty then ⟨List.replicate wordsPerBlock 0, 1⟩
  else
    let numBlocks := max ((entries.length * 12 + 511) / 512) 1
    ⟨BitTable.insertKeys (probes numBlocks) (List.replicate (numBlocks * wordsPerBlock) 0)
      (entries.map OutputKV.key), numBlocks⟩

def mayContain (filter : BloomFilter) (key : OutputKey) : Bool :=
  BitTable.testAll filter.data (probes filter.numBlocks key)

theorem probes_inRange {numBlocks : ℕ} (h : 0 < numBlocks) (key : OutputKey) :
    InRange (numBlocks * wordsPerBlock) (probes numBlocks key) := by
  intro p hp
  simp only [probes, List.mem_map] at hp
  obtain ⟨probe, -, rfl⟩ := hp
  have hblock : (hashKey key numBlocks).1 < numBlocks := Nat.mod_lt _ h
  simp only [wordsPerBlock]
  constructor <;> omega

variable {e : OutputKV}

theorem mayContain_build (he : e ∈ entries) : (build entries).mayContain e.key := by
  have hne : entries.isEmpty = false := List.isEmpty_eq_false_iff.mpr (List.ne_nil_of_mem he)
  simp only [build, hne, Bool.false_eq_true, if_false, mayContain]
  refine testAll_insertKeys ?_ (List.mem_map_of_mem he)
  intro k
  rw [List.length_replicate]
  exact probes_inRange (by omega) k

def newForCapacity (capacity : ℕ) : BloomFilter :=
  let numBlocks := max ((max capacity 1 * 12 + 511) / 512) 1
  ⟨List.replicate (numBlocks * wordsPerBlock) 0, numBlocks⟩

def insert (filter : BloomFilter) (key : OutputKey) : BloomFilter :=
  { filter with data := BitTable.setAll filter.data (probes filter.numBlocks key) }

def buildStreaming (capacity : ℕ) (entries : List OutputKV) : BloomFilter :=
  entries.foldl (fun filter e => filter.insert e.key) (newForCapacity capacity)

theorem foldl_insert (filter : BloomFilter) (entries : List OutputKV) :
    entries.foldl (fun filter e => filter.insert e.key) filter =
      ⟨insertKeys (probes filter.numBlocks) filter.data (entries.map OutputKV.key),
        filter.numBlocks⟩ := by
  induction entries generalizing filter with
  | nil => rfl
  | cons e es ih => rw [List.foldl_cons, ih, List.map_cons, insertKeys_cons, insert]

theorem mayContain_buildStreaming (capacity : ℕ)
    (he : e ∈ entries) : (buildStreaming capacity entries).mayContain e.key := by
  rw [buildStreaming, foldl_insert]
  refine testAll_insertKeys (fun k => ?_) (List.mem_map_of_mem he)
  simp only [newForCapacity, List.length_replicate]
  exact probes_inRange (by omega) k

end BloomFilter

end BlvmNode
