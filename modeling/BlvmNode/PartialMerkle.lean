import BlvmNode.CoinTree
import BlvmNode.Lib.MerkleTree

/-!
# Partial merkle trees

The proofs of `gettxoutproof`: a tree cut back to the paths above the matched transactions, its
flags in the order of the traversal and the hashes where the traversal stops. `calc_tree_width` and
the leaf ranges wrap at 32 bits, the other values stay in range.
-/

namespace BlvmNode

open MerkleTree

def hashOfBytes (bs : Bytes) : Hash := BitVec.ofNat 256 (BigEndian.value bs)

theorem hashOfBytes_hashBytes (h : Hash) : hashOfBytes (hashBytes h) = h := by
  rw [hashOfBytes, value_hashBytes, BitVec.ofNat_toNat, BitVec.setWidth_eq]

def u32Bytes (n : ℕ) : Bytes := (BigEndian.bytes 4 n).reverse

def u32OfBytes (bs : Bytes) : ℕ := BigEndian.value bs.reverse

theorem u32OfBytes_u32Bytes {n : ℕ} (hn : n < 2 ^ 32) : u32OfBytes (u32Bytes n) = n := by
  rw [u32OfBytes, u32Bytes, List.reverse_reverse, BigEndian.value_bytes_of_lt]
  norm_num at hn ⊢
  exact hn

/-- The variable-length integers of the protocol crate: the number and the bytes consumed. -/
structure VarintCodec where
  encode : ℕ → Bytes
  decode : Bytes → Except String (ℕ × ℕ)
  decode_encode : ∀ n < 2 ^ 64, ∀ rest, decode (encode n ++ rest) = .ok (n, (encode n).length)

inductive MerkleBlockError where
  | emptyTransactions
  | invalidEncoding (msg : String)
  | badProof
  deriving DecidableEq

structure PartialMerkleTree where
  nTransactions : ℕ
  vBits : List Bool
  vHash : List Hash
  bad : Bool
  deriving DecidableEq

section Shape

def calcTreeWidth (n height : ℕ) : ℕ := (n + 2 ^ height - 1) % 2 ^ 32 / 2 ^ height

def heightFrom (n : ℕ) : ℕ → ℕ → ℕ
  | 0, height => height
  | fuel + 1, height =>
    if 1 < calcTreeWidth n height then heightFrom n fuel (height + 1) else height

/-- The loop over the heights; 32 bits shifted by 31 are at most 1. -/
def treeHeight (n : ℕ) : ℕ := heightFrom n 31 0

variable {height fuel n k : ℕ}

theorem heightFrom_spec (hend : fuel + height = 31) :
    heightFrom n fuel height ≤ 31 ∧ calcTreeWidth n (heightFrom n fuel height) ≤ 1 ∧
      ∀ k, height ≤ k → k < heightFrom n fuel height → 1 < calcTreeWidth n k := by
  induction fuel generalizing height with
  | zero =>
    obtain rfl : height = 31 := by omega
    refine ⟨le_rfl, ?_, fun k hk hlt => absurd hlt (Nat.not_lt.mpr hk)⟩
    rw [heightFrom, calcTreeWidth]
    omega
  | succ fuel ih =>
    rw [heightFrom]
    split_ifs with hwide
    · obtain ⟨hle, htop, hlow⟩ := @ih (height + 1) (by omega)
      refine ⟨hle, htop, fun k hk hlt => ?_⟩
      rcases Nat.eq_or_lt_of_le hk with rfl | hlater
      · exact hwide
      · exact hlow k hlater hlt
    · exact ⟨by omega, by omega, fun k hk hlt => absurd hlt (Nat.not_lt.mpr hk)⟩

theorem treeHeight_le (n : ℕ) : treeHeight n ≤ 31 := (heightFrom_spec rfl).1

theorem calcTreeWidth_eq (hn : n ≤ 2 ^ 31) (hheight : height ≤ 31) :
    calcTreeWidth n height = width n height := by
  have hpow : 2 ^ height ≤ 2 ^ 31 := Nat.pow_le_pow_right (by omega) hheight
  rw [calcTreeWidth, width, Nat.mod_eq_of_lt (by omega)]

theorem width_below_treeHeight (hn : n ≤ 2 ^ 31) (hk : k < treeHeight n) : 1 < width n k := by
  have hle := treeHeight_le n
  rw [← calcTreeWidth_eq hn (by omega)]
  exact (heightFrom_spec rfl).2.2 k (Nat.zero_le k) hk

theorem width_treeHeight (hn : n ≤ 2 ^ 31) : width n (treeHeight n) ≤ 1 := by
  rw [← calcTreeWidth_eq hn (treeHeight_le n)]
  exact (heightFrom_spec rfl).2.1

end Shape

section Build

variable (merge : Hash → Hash → Hash) (txids : List Hash) (vMatch : List Bool) (n : ℕ)

def mergeMerkleNode (doubleSha256 : Bytes → Hash) (left right : Hash) : Hash :=
  doubleSha256 (hashBytes left ++ hashBytes right)

def calcHash : ℕ → ℕ → Hash
  | 0, pos => txids.getD pos 0
  | height + 1, pos =>
    let left := calcHash height (pos * 2)
    let right :=
      if pos * 2 + 1 < calcTreeWidth n height then calcHash height (pos * 2 + 1) else left
    merge left right

def parentOfMatch (height pos : ℕ) : Bool :=
  let first := pos * 2 ^ height % 2 ^ 32
  (List.range' first (min ((pos + 1) * 2 ^ height % 2 ^ 32) n - first)).any
    (fun p => vMatch.getD p false)

def traverseAndBuild : ℕ → ℕ → List Bool × List Hash → List Bool × List Hash
  | 0, pos, acc =>
    (acc.1 ++ [parentOfMatch vMatch n 0 pos], acc.2 ++ [calcHash merge txids n 0 pos])
  | height + 1, pos, acc =>
    if parentOfMatch vMatch n (height + 1) pos then
      let left := traverseAndBuild height (pos * 2) (acc.1 ++ [true], acc.2)
      if pos * 2 + 1 < calcTreeWidth n height then traverseAndBuild height (pos * 2 + 1) left
      else left
    else (acc.1 ++ [false], acc.2 ++ [calcHash merge txids n (height + 1) pos])

def PartialMerkleTree.new : Except MerkleBlockError PartialMerkleTree :=
  if txids.isEmpty then .error .emptyTransactions
  else if txids.length ≠ vMatch.length then
    .error (.invalidEncoding "txid/match length mismatch")
  else
    let n := txids.length % 2 ^ 32
    let built := traverseAndBuild merge txids vMatch n (treeHeight n) 0 ([], [])
    .ok ⟨n, built.1, built.2, false⟩

end Build

section Extract

variable (merge : Hash → Hash → Hash) (n : ℕ) (vBits : List Bool) (vHash : List Hash)

structure ExtractState where
  bitsUsed : ℕ
  hashUsed : ℕ
  matched : List Hash
  bad : Bool

/-- The hash of a node where the traversal stops; that of a matched leaf is recorded. -/
def readHash (leafMatched : Bool) (s : ExtractState) : Hash × ExtractState :=
  match vHash[s.hashUsed]? with
  | none => (0, { s with bad := true })
  | some hash => (hash, { s with
      hashUsed := s.hashUsed + 1
      matched := if leafMatched then s.matched ++ [hash] else s.matched })

/-- `traverse_and_extract`. A missing right child counts as equal to the left one. -/
def traverseAndExtract : ℕ → ℕ → ExtractState → Hash × ExtractState
  | 0, _, s =>
    match vBits[s.bitsUsed]? with
    | none => (0, { s with bad := true })
    | some flag => readHash vHash flag { s with bitsUsed := s.bitsUsed + 1 }
  | height + 1, pos, s =>
    match vBits[s.bitsUsed]? with
    | none => (0, { s with bad := true })
    | some false => readHash vHash false { s with bitsUsed := s.bitsUsed + 1 }
    | some true =>
      let left := traverseAndExtract height (pos * 2) { s with bitsUsed := s.bitsUsed + 1 }
      let right :=
        if pos * 2 + 1 < calcTreeWidth n height then
          traverseAndExtract height (pos * 2 + 1) left.2
        else left
      (merge left.1 right.1,
        if right.1 = left.1 then { right.2 with bad := true } else right.2)

def divCeil (a b : ℕ) : ℕ := (a + b - 1) / b

/-- `extract_matches`: the root and the matched ids, and the tree with its flag updated. -/
def PartialMerkleTree.extractMatches (t : PartialMerkleTree) :
    (Hash × List Hash) × PartialMerkleTree :=
  let failed := ((0, []), { t with bad := true })
  if t.nTransactions = 0 then ((0, []), t)
  else if t.nTransactions < t.vHash.length then failed
  else if t.vBits.length < t.vHash.length then failed
  else
    let res := traverseAndExtract merge t.nTransactions t.vBits t.vHash
      (treeHeight t.nTransactions) 0 ⟨0, 0, [], t.bad⟩
    if res.2.bad then failed
    else if divCeil res.2.bitsUsed 8 ≠ divCeil t.vBits.length 8 then failed
    else if res.2.hashUsed ≠ t.vHash.length then failed
    else ((res.1, res.2.matched), t)

end Extract

section Encoding

def packBit (out : Bytes) (entry : Bool × ℕ) : Bytes :=
  if entry.1 then out.modify (entry.2 / 8) (fun byte => byte ||| (1#8 <<< (entry.2 % 8))) else out

def bitsToBytes (bits : List Bool) : Bytes :=
  bits.zipIdx.foldl packBit (List.replicate (divCeil bits.length 8) 0#8)

def bytesToBits (bytes : Bytes) : List Bool :=
  (List.range (bytes.length * 8)).map fun p =>
    decide (bytes.getD (p / 8) 0 &&& (1#8 <<< (p % 8)) ≠ 0)

variable (varint : VarintCodec)

def PartialMerkleTree.serialize (t : PartialMerkleTree) : Bytes :=
  let flagBytes := bitsToBytes t.vBits
  u32Bytes t.nTransactions ++ (varint.encode t.vHash.length ++
    (t.vHash.flatMap hashBytes ++ (varint.encode flagBytes.length ++ flagBytes)))

/-- `PartialMerkleTree::deserialize`. A count whose size computation would wrap aborts; here it is
an encoding error. -/
def PartialMerkleTree.deserialize (data : Bytes) : Except MerkleBlockError PartialMerkleTree :=
  if data.length < 4 then .error (.invalidEncoding "partial merkle tree too short")
  else
    match varint.decode (data.drop 4) with
    | .error e => .error (.invalidEncoding ("hash count varint: " ++ e))
    | .ok (hashCount, consumed) =>
      let offset := 4 + consumed
      if data.length < offset + hashCount * 32 then
        .error (.invalidEncoding "truncated hash list")
      else
        let vHash := (List.range hashCount).map fun i =>
          hashOfBytes ((data.drop (offset + i * 32)).take 32)
        match varint.decode (data.drop (offset + hashCount * 32)) with
        | .error e => .error (.invalidEncoding ("flag length varint: " ++ e))
        | .ok (flagLen, consumed) =>
          let offset := offset + hashCount * 32 + consumed
          if data.length < offset + flagLen then
            .error (.invalidEncoding "truncated flag bytes")
          else
            .ok ⟨u32OfBytes (data.take 4), bytesToBits ((data.drop offset).take flagLen),
              vHash, false⟩

end Encoding

end BlvmNode
