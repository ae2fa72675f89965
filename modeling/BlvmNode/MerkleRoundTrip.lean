import BlvmNode.PartialMerkle
import BlvmNode.Lib.BitTable

/-!
# Partial merkle trees that are built and read again

What `traverse_and_build` writes for a node is read back by `traverse_and_extract` node for node.
The comparison of the two children is made for a missing right child as well, so a proof is refused
as soon as it leads through the last node of a level of odd width.
-/

namespace BlvmNode

open List Option MerkleTree PartialMerkleTree

section Leaves

def leavesBelow (n height pos : ℕ) : List ℕ :=
  List.range' (pos * 2 ^ height) (min ((pos + 1) * 2 ^ height) n - pos * 2 ^ height)

variable {height pos n : ℕ}

theorem mem_leavesBelow {p : ℕ} :
    p ∈ leavesBelow n height pos ↔ pos * 2 ^ height ≤ p ∧ p < (pos + 1) * 2 ^ height ∧ p < n := by
  rw [leavesBelow, mem_range'_1]
  omega

theorem leavesBelow_eq_nil (hpos : width n height ≤ pos) : leavesBelow n height pos = [] := by
  have hlast : ¬ pos < width n height := by omega
  rw [lt_width_iff] at hlast
  have hnone : min ((pos + 1) * 2 ^ height) n - pos * 2 ^ height = 0 := by omega
  rw [leavesBelow, hnone, range'_zero]

theorem leavesBelow_zero (hpos : pos < n) : leavesBelow n 0 pos = [pos] := by
  have hone : min ((pos + 1) * 2 ^ 0) n - pos * 2 ^ 0 = 1 := by omega
  rw [leavesBelow, hone, pow_zero, Nat.mul_one]
  rfl

theorem leavesBelow_succ (hpos : pos < width n (height + 1)) :
    leavesBelow n (height + 1) pos =
      leavesBelow n height (pos * 2) ++ leavesBelow n height (pos * 2 + 1) := by
  rw [lt_width_succ, lt_width_iff] at hpos
  have hleft : (pos * 2 + 1) * 2 ^ height = pos * 2 * 2 ^ height + 2 ^ height := by ring
  have hright : (pos * 2 + 1 + 1) * 2 ^ height =
      pos * 2 * 2 ^ height + 2 ^ height + 2 ^ height := by
    ring
  have hend : (pos + 1) * 2 ^ (height + 1) =
      pos * 2 * 2 ^ height + 2 ^ height + 2 ^ height := by ring
  have hstart : pos * 2 ^ (height + 1) = pos * 2 * 2 ^ height := by ring
  rw [leavesBelow, leavesBelow, leavesBelow, hend, hstart, hleft, hright]
  generalize pos * 2 * 2 ^ height = a at hpos ⊢
  generalize 2 ^ height = b
  by_cases hfull : a + b ≤ n
  · have hfirst : min (a + b) n - a = b := by omega
    have hsplit : min (a + b + b) n - a = b + (min (a + b + b) n - (a + b)) := by omega
    rw [hfirst, hsplit, ← range'_append_1]
  · have hnone : min (a + b + b) n - (a + b) = 0 := by omega
    have hsame : min (a + b + b) n - a = min (a + b) n - a := by omega
    rw [hnone, hsame, range'_zero, append_nil]

theorem length_leavesBelow_pos (hpos : pos < width n height) :
    0 < (leavesBelow n height pos).length := by
  rw [lt_width_iff] at hpos
  have hpow : 0 < 2 ^ height := Nat.two_pow_pos height
  have hnext : (pos + 1) * 2 ^ height = pos * 2 ^ height + 2 ^ height := by ring
  rw [leavesBelow, length_range']
  omega

theorem leavesBelow_root (hn : n ≤ 2 ^ 31) : leavesBelow n (treeHeight n) 0 = range n := by
  have htop := width_treeHeight hn
  have hfit : n ≤ 2 ^ treeHeight n := by
    by_contra hlt
    have hsecond : 1 < width n (treeHeight n) := by
      rw [lt_width_iff]
      omega
    omega
  rw [leavesBelow, range_eq_range']
  simp [hfit]

theorem parentOfMatch_eq {vMatch : List Bool} (hn : n ≤ 2 ^ 31)
    (hheight : height ≤ 31) (hpos : pos < width n height) :
    parentOfMatch vMatch n height pos =
      (leavesBelow n height pos).any (fun p => vMatch.getD p false) := by
  rw [lt_width_iff] at hpos
  have hpow : 2 ^ 31 = 2 ^ (31 - height) * 2 ^ height := by
    rw [← pow_add, Nat.sub_add_cancel hheight]
  have hlast : pos < 2 ^ (31 - height) := by
    by_contra hge
    have := Nat.mul_le_mul_right (2 ^ height) (not_lt.mp hge)
    omega
  have hend : (pos + 1) * 2 ^ height ≤ 2 ^ 31 := by
    rw [hpow]
    exact Nat.mul_le_mul_right _ hlast
  rw [parentOfMatch, leavesBelow, Nat.mod_eq_of_lt (by omega), Nat.mod_eq_of_lt (by omega)]

end Leaves

variable {merge : Hash → Hash → Hash} {txids : List Hash} {vMatch : List Bool}

theorem getElem?_level {height pos : ℕ} (hn : txids.length ≤ 2 ^ 31) (hheight : height ≤ 31)
    (hpos : pos < width txids.length height) :
    (level merge height txids)[pos]? = some (calcHash merge txids txids.length height pos) := by
  induction height generalizing pos with
  | zero =>
    rw [width_zero] at hpos
    rw [calcHash, level, Function.iterate_zero, id, getD_eq_getElem?_getD,
      getElem?_eq_getElem hpos, getD_some]
  | succ height ih =>
    have hleft := lt_width_succ.mp hpos
    rw [level_succ, getElem?_pairUp, ih (by omega) hleft, map_some,
      calcHash, calcTreeWidth_eq hn (by omega)]
    split_ifs with hright
    · rw [ih (by omega) hright, getD_some]
    · rw [getElem?_eq_none, getD_none]
      rw [length_level]
      omega

theorem root_eq_calcHash (hne : txids ≠ []) (hn : txids.length ≤ 2 ^ 31) :
    root merge txids = some (calcHash merge txids txids.length (treeHeight txids.length) 0) := by
  have hlen : 0 < txids.length := length_pos_iff.mpr hne
  rw [root_eq merge hne (fun k hk => width_below_treeHeight hn hk) (width_treeHeight hn)]
  exact getElem?_level hn (treeHeight_le _) (width_pos hlen _)

section Honest

variable {n : ℕ}

theorem traverseAndBuild_append (height pos : ℕ) (acc : List Bool × List Hash) :
    traverseAndBuild merge txids vMatch n height pos acc =
      (acc.1 ++ (traverseAndBuild merge txids vMatch n height pos ([], [])).1,
        acc.2 ++ (traverseAndBuild merge txids vMatch n height pos ([], [])).2) := by
  induction height generalizing pos acc with
  | zero => simp [traverseAndBuild]
  | succ height ih =>
    rw [traverseAndBuild, traverseAndBuild]
    split_ifs with hmatch hright
    · rw [ih (pos * 2 + 1), ih (pos * 2), ih (pos * 2 + 1) (traverseAndBuild merge txids vMatch n
        height (pos * 2) _), ih (pos * 2) ([] ++ [true], [])]
      simp
    · rw [ih (pos * 2), ih (pos * 2) ([] ++ [true], [])]
      simp
    · simp

variable (merge txids vMatch n)

def nodeBits (height pos : ℕ) : List Bool :=
  (traverseAndBuild merge txids vMatch n height pos ([], [])).1

def nodeHashes (height pos : ℕ) : List Hash :=
  (traverseAndBuild merge txids vMatch n height pos ([], [])).2

def nodeMatches (height pos : ℕ) : List Hash :=
  ((leavesBelow n height pos).filter (fun p => vMatch.getD p false)).map (fun p => txids.getD p 0)

/-- The traversal leads through a node without a right child. -/
def meetsLoneChild : ℕ → ℕ → Bool
  | 0, _ => false
  | height + 1, pos =>
    parentOfMatch vMatch n (height + 1) pos && (meetsLoneChild height (pos * 2) ||
      (if pos * 2 + 1 < calcTreeWidth n height then meetsLoneChild height (pos * 2 + 1)
        else true))

variable {merge txids vMatch n} {height pos : ℕ}

theorem nodeBits_zero (pos : ℕ) :
    nodeBits merge txids vMatch n 0 pos = [parentOfMatch vMatch n 0 pos] := rfl

theorem nodeHashes_zero (pos : ℕ) :
    nodeHashes merge txids vMatch n 0 pos = [calcHash merge txids n 0 pos] := rfl

theorem node_of_not (hmatch : parentOfMatch vMatch n (height + 1) pos = false) :
    nodeBits merge txids vMatch n (height + 1) pos = [false] ∧
    nodeHashes merge txids vMatch n (height + 1) pos =
      [calcHash merge txids n (height + 1) pos] := by
  simp [nodeBits, nodeHashes, traverseAndBuild, hmatch]

theorem node_of_match (hmatch : parentOfMatch vMatch n (height + 1) pos) :
    nodeBits merge txids vMatch n (height + 1) pos =
      true :: (nodeBits merge txids vMatch n height (pos * 2) ++
        if pos * 2 + 1 < calcTreeWidth n height then
          nodeBits merge txids vMatch n height (pos * 2 + 1) else []) ∧
    nodeHashes merge txids vMatch n (height + 1) pos =
      nodeHashes merge txids vMatch n height (pos * 2) ++
        if pos * 2 + 1 < calcTreeWidth n height then
          nodeHashes merge txids vMatch n height (pos * 2 + 1) else [] := by
  rw [nodeBits, nodeHashes, traverseAndBuild, if_pos hmatch]
  split_ifs
  · rw [traverseAndBuild_append, traverseAndBuild_append height (pos * 2)]
    simp [nodeBits, nodeHashes]
  · rw [traverseAndBuild_append]
    simp [nodeBits, nodeHashes]

theorem node_counts (hn : n ≤ 2 ^ 31) (hheight : height ≤ 31)
    (hpos : pos < width n height) :
    (nodeHashes merge txids vMatch n height pos).length ≤ (leavesBelow n height pos).length ∧
    (nodeHashes merge txids vMatch n height pos).length ≤
      (nodeBits merge txids vMatch n height pos).length ∧
    (nodeBits merge txids vMatch n height pos).length ≤
      (height + 1) * (leavesBelow n height pos).length := by
  have hleaves := length_leavesBelow_pos hpos
  induction height generalizing pos with
  | zero =>
    rw [nodeBits_zero, nodeHashes_zero, length_singleton, length_singleton]
    omega
  | succ height ih =>
    by_cases hmatch : parentOfMatch vMatch n (height + 1) pos
    · have hleft := lt_width_succ.mp hpos
      obtain ⟨h₁, h₂, h₃⟩ := ih (by omega) hleft (length_leavesBelow_pos hleft)
      rw [(node_of_match hmatch).1, (node_of_match hmatch).2, leavesBelow_succ hpos,
        calcTreeWidth_eq hn (by omega), length_cons, length_append, length_append,
        length_append]
      have hmul : ∀ k, (height + 1 + 1) * k = (height + 1) * k + k := fun k => by ring
      have hpos' := length_leavesBelow_pos hleft
      split_ifs with hright
      · obtain ⟨g₁, g₂, g₃⟩ := ih (by omega) hright (length_leavesBelow_pos hright)
        rw [hmul, Nat.mul_add]
        omega
      · simp only [leavesBelow_eq_nil (not_lt.mp hright), length_nil, hmul, Nat.add_zero]
        omega
    · rw [Bool.not_eq_true] at hmatch
      rw [(node_of_not hmatch).1, (node_of_not hmatch).2, length_singleton, length_singleton]
      refine ⟨hleaves, le_rfl, ?_⟩
      exact Nat.one_le_iff_ne_zero.mpr (Nat.mul_ne_zero (by omega) (by omega))

theorem nodeMatches_succ (hpos : pos < width n (height + 1)) :
    nodeMatches txids vMatch n (height + 1) pos = nodeMatches txids vMatch n height (pos * 2) ++
      nodeMatches txids vMatch n height (pos * 2 + 1) := by
  rw [nodeMatches, leavesBelow_succ hpos, filter_append, map_append]
  rfl

theorem nodeMatches_of_not (hn : n ≤ 2 ^ 31) (hheight : height ≤ 31) (hpos : pos < width n height)
    (hmatch : parentOfMatch vMatch n height pos = false) :
    nodeMatches txids vMatch n height pos = [] := by
  rw [parentOfMatch_eq hn hheight hpos, List.any_eq_false] at hmatch
  rw [nodeMatches, List.map_eq_nil_iff, List.filter_eq_nil_iff]
  exact hmatch

end Honest

section Reading

variable {n : ℕ} {vBits : List Bool} {vHash : List Hash}

def DistinctNodes (merge : Hash → Hash → Hash) (txids : List Hash) (n : ℕ) : Prop :=
  ∀ height pos pos', pos < MerkleTree.width n height → pos' < MerkleTree.width n height →
    calcHash merge txids n height pos = calcHash merge txids n height pos' → pos = pos'

theorem getElem?_of_drop_eq {α : Type*} {l rest : List α} {k : ℕ} {a : α}
    (h : l.drop k = a :: rest) : l[k]? = some a := by
  have hhead : (l.drop k)[0]? = l[k + 0]? := getElem?_drop
  rw [h, getElem?_cons_zero, Nat.add_zero] at hhead
  exact hhead.symm

theorem drop_add_of_drop_eq {α : Type*} {l first rest : List α} {k : ℕ}
    (h : l.drop k = first ++ rest) : l.drop (k + first.length) = rest := by
  rw [← drop_drop, h, drop_left]

theorem readHash_of_drop (s : ExtractState) {hash : Hash} {rest : List Hash} (leafMatched : Bool)
    (h : vHash.drop s.hashUsed = hash :: rest) : readHash vHash leafMatched s = (hash, { s with
      hashUsed := s.hashUsed + 1
      matched := if leafMatched then s.matched ++ [hash] else s.matched }) := by
  rw [readHash, getElem?_of_drop_eq h]

theorem traverseAndExtract_node {height pos : ℕ} (hn : n ≤ 2 ^ 31) (hheight : height ≤ 31)
    (hdistinct : DistinctNodes merge txids n) (hpos : pos < width n height)
    {s : ExtractState} {restBits : List Bool} {restHashes : List Hash}
    (hbits : vBits.drop s.bitsUsed = nodeBits merge txids vMatch n height pos ++ restBits)
    (hhashes : vHash.drop s.hashUsed = nodeHashes merge txids vMatch n height pos ++ restHashes) :
    traverseAndExtract merge n vBits vHash height pos s = (calcHash merge txids n height pos,
        ⟨s.bitsUsed + (nodeBits merge txids vMatch n height pos).length,
          s.hashUsed + (nodeHashes merge txids vMatch n height pos).length,
          s.matched ++ nodeMatches txids vMatch n height pos,
          s.bad || meetsLoneChild vMatch n height pos⟩) := by
  induction height generalizing pos s restBits restHashes with
  | zero =>
    rw [nodeBits_zero] at hbits
    rw [nodeHashes_zero] at hhashes
    rw [traverseAndExtract, getElem?_of_drop_eq hbits]
    dsimp only
    rw [readHash_of_drop { s with bitsUsed := s.bitsUsed + 1 } _ hhashes, nodeBits_zero,
      nodeHashes_zero]
    have hleaf := @parentOfMatch_eq 0 pos n vMatch hn hheight hpos
    rw [width_zero] at hpos
    rw [leavesBelow_zero hpos, any_cons, any_nil, Bool.or_false] at hleaf
    rw [nodeMatches, leavesBelow_zero hpos, hleaf, filter_singleton, calcHash]
    generalize vMatch.getD pos false = flag
    cases flag with
    | false | true => simp [meetsLoneChild]
  | succ height ih =>
    have hheight' : height ≤ 31 := by omega
    by_cases hmatch : parentOfMatch vMatch n (height + 1) pos
    · have hleftPos := lt_width_succ.mp hpos
      rw [(node_of_match hmatch).1, cons_append, append_assoc] at hbits
      rw [(node_of_match hmatch).2, append_assoc] at hhashes
      have htail := @drop_add_of_drop_eq _ vBits [true] _ _ hbits
      rw [length_singleton] at htail
      have hleft := ih hheight' hleftPos (s := { s with bitsUsed := s.bitsUsed + 1 }) htail hhashes
      have hbitsRest := drop_add_of_drop_eq htail
      have hhashesRest := drop_add_of_drop_eq hhashes
      rw [traverseAndExtract, getElem?_of_drop_eq hbits]
      dsimp only
      rw [hleft, (node_of_match hmatch).1, (node_of_match hmatch).2, nodeMatches_succ hpos,
        meetsLoneChild, hmatch, calcHash, calcTreeWidth_eq hn hheight']
      rw [calcTreeWidth_eq hn hheight'] at hbitsRest hhashesRest
      by_cases hright : pos * 2 + 1 < width n height
      · rw [if_pos hright] at hbitsRest hhashesRest
        have hne : calcHash merge txids n height (pos * 2 + 1) ≠
            calcHash merge txids n height (pos * 2) := by
          intro heq
          have hsame := hdistinct height _ _ hright hleftPos heq
          omega
        simp only [if_pos hright]
        rw [ih hheight' hright (s := ⟨_, _, _, _⟩) hbitsRest hhashesRest]
        simp only [if_neg hne]
        simp [Bool.or_assoc, Nat.add_assoc, Nat.add_comm]
      · have hnone : nodeMatches txids vMatch n height (pos * 2 + 1) = [] := by
          rw [nodeMatches, leavesBelow_eq_nil (not_lt.mp hright)]
          rfl
        simp only [if_neg hright, hnone]
        simp [Nat.add_assoc, Nat.add_comm]
    · rw [Bool.not_eq_true] at hmatch
      rw [(node_of_not hmatch).1] at hbits
      rw [(node_of_not hmatch).2] at hhashes
      rw [traverseAndExtract, getElem?_of_drop_eq hbits]
      dsimp only
      rw [readHash_of_drop { s with bitsUsed := s.bitsUsed + 1 } _ hhashes,
        (node_of_not hmatch).1, (node_of_not hmatch).2,
        nodeMatches_of_not hn hheight hpos hmatch, meetsLoneChild, hmatch]
      simp

end Reading

section LoneChildren

variable {n : ℕ}

/-- A lone child is met if a matched leaf stands below the last node of a lower level of odd width.
-/
theorem meetsLoneChild_iff {height pos : ℕ} (hn : n ≤ 2 ^ 31) (hheight : height ≤ 31)
    (hpos : pos < width n height) :
    meetsLoneChild vMatch n height pos ↔ ∃ k < height, ¬ 2 ∣ width n k ∧
      ∃ p ∈ leavesBelow n height pos, (width n k - 1) * 2 ^ k ≤ p ∧
        vMatch.getD p false := by
  induction height generalizing pos with
  | zero => simp [meetsLoneChild]
  | succ height ih =>
    have hleftPos := lt_width_succ.mp hpos
    rw [meetsLoneChild, calcTreeWidth_eq hn (by omega), Bool.and_eq_true, Bool.or_eq_true,
      ih (by omega) hleftPos, parentOfMatch_eq hn hheight hpos, List.any_eq_true,
      leavesBelow_succ hpos]
    by_cases hright : pos * 2 + 1 < width n height
    · rw [if_pos hright, ih (by omega) hright]
      constructor
      · rintro ⟨_, ⟨k, hk, hodd, p, hp, hmatch⟩ | ⟨k, hk, hodd, p, hp, hmatch⟩⟩
        · exact ⟨k, by omega, hodd, p, mem_append_left _ hp, hmatch⟩
        · exact ⟨k, by omega, hodd, p, mem_append_right _ hp, hmatch⟩
      · rintro ⟨k, hk, hodd, p, hp, hlast, hmatch⟩
        refine ⟨⟨p, hp, hmatch⟩, ?_⟩
        -- the last node of the level below stands further to the right if the width is odd
        rcases Nat.lt_succ_iff_lt_or_eq.mp hk with hlow | rfl
        · rcases mem_append.mp hp with hp | hp
          · exact .inl ⟨k, hlow, hodd, p, hp, hlast, hmatch⟩
          · exact .inr ⟨k, hlow, hodd, p, hp, hlast, hmatch⟩
        · exfalso
          have hend : p < (pos * 2 + 1 + 1) * 2 ^ k := by
            rcases mem_append.mp hp with hp | hp
            · have hlt := (mem_leavesBelow.mp hp).2.1
              have hmono : (pos * 2 + 1) * 2 ^ k ≤ (pos * 2 + 1 + 1) * 2 ^ k :=
                Nat.mul_le_mul_right _ (Nat.le_succ _)
              omega
            · exact (mem_leavesBelow.mp hp).2.1
          have hfar : (pos * 2 + 1 + 1) * 2 ^ k ≤ (width n k - 1) * 2 ^ k :=
            Nat.mul_le_mul_right _ (by omega)
          omega
    · have hwidth : width n height = pos * 2 + 1 := by omega
      rw [if_neg hright, leavesBelow_eq_nil (not_lt.mp hright), append_nil]
      constructor
      · rintro ⟨⟨p, hp, hmatch⟩, _⟩
        refine ⟨height, Nat.lt_succ_self _, by omega, p, hp, ?_, hmatch⟩
        rw [hwidth, Nat.add_sub_cancel]
        exact (mem_leavesBelow.mp hp).1
      · rintro ⟨_, _, _, p, hp, _, hmatch⟩
        exact ⟨⟨p, hp, hmatch⟩, .inr rfl⟩

/-- No matched transaction stands below the last node of a level of odd width above one. -/
def NoMatchBelowLoneNode (vMatch : List Bool) (n : ℕ) : Prop :=
  ∀ k p, 1 < MerkleTree.width n k → ¬ 2 ∣ MerkleTree.width n k →
    (MerkleTree.width n k - 1) * 2 ^ k ≤ p → p < n → vMatch.getD p false = false

theorem meetsLoneChild_root (hpos : 0 < n) (hn : n ≤ 2 ^ 31) :
    meetsLoneChild vMatch n (treeHeight n) 0 = false ↔ NoMatchBelowLoneNode vMatch n := by
  rw [← Bool.not_eq_true, meetsLoneChild_iff hn (treeHeight_le n) (width_pos hpos _),
    leavesBelow_root hn]
  constructor
  · intro hnone k p hwide hodd hlast hp
    by_contra hmatch
    rw [Bool.not_eq_false] at hmatch
    refine hnone ⟨k, ?_, hodd, p, mem_range.mpr hp, hlast, hmatch⟩
    by_contra hk
    have htop : width n k ≤ width n (treeHeight n) :=
      width_le_width (not_lt.mp hk)
    have hone := width_treeHeight hn
    omega
  · rintro hnone ⟨k, hk, hodd, p, hp, hlast, hmatch⟩
    rw [hnone k p (width_below_treeHeight hn hk) hodd hlast (mem_range.mp hp)] at hmatch
    cases hmatch

end LoneChildren

section Bytes

theorem length_packBit (out : Bytes) (entry : Bool × ℕ) :
    (packBit out entry).length = out.length := by
  rw [packBit]
  split_ifs
  · exact length_modify ..
  · rfl

variable {i j : ℕ} (bits : List Bool)

theorem getLsbD_packBit {out : Bytes} {bit : Bool} {p : ℕ} (hp : p < out.length * 8)
    (hj : j < 8) : ((packBit out (bit, p)).getD i 0).getLsbD j =
      ((out.getD i 0).getLsbD j || (bit && decide (i * 8 + j = p))) := by
  cases bit with
  | false => simp [packBit]
  | true =>
    have hlen : p / 8 < out.length := by omega
    rw [packBit, if_pos rfl, getD_eq_getElem?_getD, getElem?_modify,
      List.getD_eq_getElem?_getD, Bool.true_and]
    by_cases hi : p / 8 = i
    · subst hi
      have hsame : (p / 8 * 8 + j = p) = (j = p % 8) := by
        apply propext
        omega
      have hmod : p % 8 < 8 := Nat.mod_lt p (by norm_num)
      simp only [if_true, List.getElem?_eq_getElem hlen, Option.map_eq_map, Option.map_some,
        getD_some, BitTable.getLsbD_or_mask _ hmod, hsame]
    · have hne : ¬ i * 8 + j = p := by omega
      simp [hi, hne]

theorem length_foldl_packBit (entries : List (Bool × ℕ)) (out : Bytes) :
    (entries.foldl packBit out).length = out.length := by
  induction entries generalizing out with
  | nil => rfl
  | cons entry entries ih => rw [foldl_cons, ih, length_packBit]

theorem getLsbD_foldl_packBit (out : Bytes) (i : ℕ) (hj : j < 8)
    (hlen : bits.length ≤ out.length * 8) :
    ((bits.zipIdx.foldl packBit out).getD i 0).getLsbD j =
      ((out.getD i 0).getLsbD j || bits.getD (i * 8 + j) false) := by
  induction bits using reverseRecOn with
  | nil => simp
  | append_singleton bits bit ih =>
    rw [length_append, length_singleton] at hlen
    rw [zipIdx_append, foldl_append, zipIdx_singleton, foldl_cons, foldl_nil, getLsbD_packBit
      (by rw [length_foldl_packBit]; omega) hj, ih (by omega), Bool.or_assoc, Nat.zero_add]
    congr 1
    rcases Nat.lt_trichotomy (i * 8 + j) bits.length with hlt | heq | hgt
    · simp [getElem?_append_left hlt, hlt.ne]
    · simp [heq]
    · simp [getElem?_eq_none, hgt.le, hgt.ne', Nat.succ_le_of_lt hgt]

theorem length_bitsToBytes : (bitsToBytes bits).length = divCeil bits.length 8 := by
  rw [bitsToBytes, length_foldl_packBit, length_replicate]

theorem bytesToBits_bitsToBytes :
    bytesToBits (bitsToBytes bits) =
      bits ++ replicate (divCeil bits.length 8 * 8 - bits.length) false := by
  have hceil : bits.length ≤ divCeil bits.length 8 * 8 := by
    rw [divCeil]
    omega
  have hbit : ∀ p, decide ((bitsToBytes bits).getD (p / 8) 0 &&& (1#8 <<< (p % 8)) ≠ 0) =
      bits.getD p false := by
    intro p
    have hj : p % 8 < 8 := Nat.mod_lt p (by omega)
    have hget : ((bitsToBytes bits).getD (p / 8) 0).getLsbD (p % 8) = bits.getD p false := by
      rw [bitsToBytes, getLsbD_foldl_packBit bits _ _ hj (by
        rw [length_replicate]
        omega)]
      have hzero : (replicate (divCeil bits.length 8) 0#8).getD (p / 8) 0 = 0#8 := by
        rw [getD_eq_getElem?_getD, getElem?_replicate]
        split_ifs <;> rfl
      have hp : p / 8 * 8 + p % 8 = p := by omega
      rw [hzero, hp]
      simp
    rw [← hget, Bool.eq_iff_iff, decide_eq_true_iff]
    exact BitTable.mask_ne_zero_iff _ hj
  rw [bytesToBits, length_bitsToBytes]
  simp only [hbit]
  apply ext_getElem
  · rw [length_map, length_range, length_append, length_replicate, Nat.add_sub_cancel' hceil]
  · intro p _ _
    rw [getElem_map, getElem_range, getElem_append]
    split_ifs with hlt
    · rw [getD_eq_getElem?_getD, getElem?_eq_getElem hlt, getD_some]
    · rw [getD_eq_getElem?_getD, getElem?_eq_none (not_lt.mp hlt), getD_none, getElem_replicate]

theorem hashes_at (hashes : List Hash) (before after : Bytes) :
    (range hashes.length).map (fun i => hashOfBytes (((before ++ (hashes.flatMap hashBytes ++
      after)).drop (before.length + i * 32)).take 32)) = hashes := by
  apply ext_getElem
  · rw [length_map, length_range]
  intro i _ hi
  have hlen : ((hashes.take i).flatMap hashBytes).length = i * 32 := by
    rw [length_flatMap]
    simp [length_hashBytes, hi.le]
  have hsplit : hashes.flatMap hashBytes =
      (hashes.take i).flatMap hashBytes ++ (hashBytes hashes[i] ++
        (hashes.drop (i + 1)).flatMap hashBytes) := by
    rw [← flatMap_cons, ← flatMap_append, getElem_cons_drop, take_append_drop]
  rw [getElem_map, getElem_range, ← drop_drop, drop_left, hsplit, append_assoc, append_assoc,
    drop_left' hlen, take_left' (length_hashBytes _), hashOfBytes_hashBytes]

theorem deserialize_serialize (varint : VarintCodec) (t : PartialMerkleTree)
    (hn : t.nTransactions < 2 ^ 32) (hhash : t.vHash.length < 2 ^ 64)
    (hbits : divCeil t.vBits.length 8 < 2 ^ 64) :
    deserialize varint (t.serialize varint) = .ok { t with
        vBits := t.vBits ++ replicate (divCeil t.vBits.length 8 * 8 - t.vBits.length) false
        bad := false } := by
  have hflags := bytesToBits_bitsToBytes t.vBits
  have hflagLen := length_bitsToBytes t.vBits
  rw [serialize]
  generalize bitsToBytes t.vBits = flags at hflags hflagLen ⊢
  have hcount : (u32Bytes t.nTransactions).length = 4 := by
    rw [u32Bytes, length_reverse, BigEndian.length_bytes]
  have hhashes : (t.vHash.flatMap hashBytes).length = t.vHash.length * 32 := by
    rw [length_flatMap]
    simp [length_hashBytes]
  have hfirst := varint.decode_encode t.vHash.length hhash
    (t.vHash.flatMap hashBytes ++ (varint.encode flags.length ++ flags))
  have hsecond := varint.decode_encode flags.length (by omega) flags
  set rest := varint.encode flags.length ++ flags with hrest
  set bytes := u32Bytes t.nTransactions ++ (varint.encode t.vHash.length ++
    (t.vHash.flatMap hashBytes ++ rest)) with hbytes
  have hlist := hashes_at t.vHash (u32Bytes t.nTransactions ++ varint.encode t.vHash.length) rest
  rw [length_append, hcount, append_assoc, ← hbytes] at hlist
  have hdropHashes : bytes.drop
      (4 + (varint.encode t.vHash.length).length + t.vHash.length * 32) = rest := by
    rw [hbytes, ← append_assoc, ← append_assoc, drop_left']
    rw [length_append, length_append, hcount, hhashes]
  have hlength : bytes.length =
      4 + (varint.encode t.vHash.length).length + t.vHash.length * 32 + rest.length := by
    rw [hbytes, length_append, length_append, length_append, hcount, hhashes]
    omega
  have hrestLen : rest.length = (varint.encode flags.length).length + flags.length := by
    rw [hrest, length_append]
  rw [deserialize, if_neg (by omega), drop_left' hcount, hfirst]
  dsimp only
  rw [if_neg (by omega), hlist, hdropHashes, hsecond]
  dsimp only
  rw [if_neg (by omega), ← drop_drop, hdropHashes, hrest, drop_left, take_length,
    take_left' hcount, u32OfBytes_u32Bytes hn, hflags]

end Bytes

section RoundTrip

def matchedIds (txids : List Hash) (vMatch : List Bool) : List Hash :=
  ((txids.zip vMatch).filter (fun entry => entry.2)).map Prod.fst

theorem matchedIds_eq
    (hlen : txids.length = vMatch.length) :
    ((range txids.length).filter (fun p => vMatch.getD p false)).map
      (fun p => txids.getD p 0) = matchedIds txids vMatch := by
  have hzip : txids.zip vMatch =
      (range txids.length).map (fun p => (txids.getD p 0, vMatch.getD p false)) := by
    apply ext_getElem
    · rw [length_zip, ← hlen, min_self, length_map, length_range]
    · intro p hp _
      obtain ⟨hfirst, hsecond⟩ := lt_min_iff.mp (length_zip ▸ hp)
      simp [hfirst, hsecond]
  rw [matchedIds, hzip, List.filter_map, List.map_map]
  rfl

theorem new_eq (hne : txids ≠ []) (hlen : txids.length = vMatch.length)
    (hn : txids.length ≤ 2 ^ 31) : new merge txids vMatch = .ok ⟨txids.length,
      nodeBits merge txids vMatch txids.length (treeHeight txids.length) 0,
      nodeHashes merge txids vMatch txids.length (treeHeight txids.length) 0, false⟩ := by
  have hempty : ¬ txids.isEmpty := by rwa [List.isEmpty_iff]
  rw [new, if_neg hempty, if_neg (not_not.mpr hlen), Nat.mod_eq_of_lt (by omega)]
  rfl

theorem extractMatches_padded (hne : txids ≠ []) (hlen : txids.length = vMatch.length)
    (hn : txids.length ≤ 2 ^ 31) (hdistinct : DistinctNodes merge txids txids.length) {bits pad}
    (hbits : bits = nodeBits merge txids vMatch txids.length (treeHeight txids.length) 0)
    (hpad : pad = replicate (divCeil bits.length 8 * 8 - bits.length) false) :
    (extractMatches merge ⟨txids.length, bits ++ pad,
      nodeHashes merge txids vMatch txids.length (treeHeight txids.length) 0, false⟩).1 =
      if meetsLoneChild vMatch txids.length (treeHeight txids.length) 0 then (0, [])
      else (calcHash merge txids txids.length (treeHeight txids.length) 0,
        matchedIds txids vMatch) := by
  have hpos : 0 < txids.length := length_pos_iff.mpr hne
  have hwidth := width_pos hpos (treeHeight txids.length)
  obtain ⟨hcount, hfewer, _⟩ :=
    @node_counts merge txids vMatch _ _ _ hn (treeHeight_le txids.length) hwidth
  rw [leavesBelow_root hn, length_range] at hcount
  rw [← hbits] at hfewer
  have hpadLen : (bits ++ pad).length = divCeil bits.length 8 * 8 := by
    rw [length_append, hpad, length_replicate, divCeil]
    omega
  have hmore : bits.length ≤ (bits ++ pad).length := by
    rw [length_append]
    omega
  have hread := @traverseAndExtract_node merge txids vMatch txids.length (bits ++ pad)
    (nodeHashes merge txids vMatch txids.length (treeHeight txids.length) 0) _ 0 hn
    (treeHeight_le txids.length) hdistinct hwidth ⟨0, 0, [], false⟩ pad []
    (by rw [hbits, drop_zero]) (by rw [append_nil, drop_zero])
  have hceil : divCeil bits.length 8 = divCeil (bits ++ pad).length 8 := by
    rw [hpadLen]
    simp only [divCeil]
    omega
  rw [extractMatches]
  dsimp only
  rw [if_neg (by omega), if_neg (by omega), if_neg (by omega), hread, ← hbits]
  dsimp only
  rw [Bool.false_or]
  split_ifs with hlone hbad hused
  · rfl
  · rw [Nat.zero_add] at hbad
    exact absurd hceil hbad
  · rw [Nat.zero_add] at hused
    exact absurd rfl hused
  · rw [nil_append, nodeMatches, leavesBelow_root hn, matchedIds_eq hlen]

/-- A proof is read back with the root and exactly the matched ids if and only if it does not lead
through a lone node. -/
theorem partial_merkle_round_trip_iff (doubleSha256 : Bytes → Hash) (varint : VarintCodec)
    (txids : List Hash) (vMatch : List Bool) (hne : txids ≠ [])
    (hlen : txids.length = vMatch.length) (hn : txids.length ≤ 2 ^ 31)
    (hdistinct : DistinctNodes (mergeMerkleNode doubleSha256) txids txids.length) :
    (∃ t t', PartialMerkleTree.new (mergeMerkleNode doubleSha256) txids vMatch = .ok t ∧
      PartialMerkleTree.deserialize varint (t.serialize varint) = .ok t' ∧
      MerkleTree.root (mergeMerkleNode doubleSha256) txids =
        some (t'.extractMatches (mergeMerkleNode doubleSha256)).1.1 ∧
      (t'.extractMatches (mergeMerkleNode doubleSha256)).1.2 = matchedIds txids vMatch) ↔
    NoMatchBelowLoneNode vMatch txids.length := by
  have hpos : 0 < txids.length := length_pos_iff.mpr hne
  have hheight := treeHeight_le txids.length
  obtain ⟨hcount, _, hflags⟩ := @node_counts (mergeMerkleNode doubleSha256) txids vMatch _ _ _ hn
    hheight (width_pos hpos _)
  rw [leavesBelow_root hn, length_range] at hcount hflags
  have hmul : (treeHeight txids.length + 1) * txids.length ≤ 32 * 2 ^ 31 :=
    Nat.mul_le_mul (by omega) hn
  have hdecode := deserialize_serialize varint
    ⟨txids.length, nodeBits (mergeMerkleNode doubleSha256)
    txids vMatch txids.length (treeHeight txids.length) 0, nodeHashes (mergeMerkleNode doubleSha256)
    txids vMatch txids.length (treeHeight txids.length) 0, false⟩ (by dsimp only; omega)
    (by dsimp only; omega) (by dsimp only [divCeil]; omega)
  have hextract := extractMatches_padded hne hlen hn hdistinct rfl rfl
  rw [new_eq hne hlen hn, root_eq_calcHash hne hn, ← meetsLoneChild_root hpos hn]
  constructor
  · rintro ⟨t, t', ht, ht', _, hmatched⟩
    cases ht
    rw [hdecode] at ht'
    cases ht'
    by_contra hlone
    rw [Bool.not_eq_false] at hlone
    rw [hextract, if_pos hlone] at hmatched
    -- the extraction has failed, so nothing would be matched
    obtain ⟨_, _, _, p, hp, _, hmatch⟩ :=
      (meetsLoneChild_iff hn hheight (width_pos hpos _)).mp hlone
    rw [leavesBelow_root hn] at hp
    rw [← matchedIds_eq hlen, eq_comm, map_eq_nil_iff, filter_eq_nil_iff] at hmatched
    exact hmatched p hp hmatch
  · intro hlone
    refine ⟨_, _, rfl, hdecode, ?_⟩
    rw [hextract, if_neg (by rw [hlone]; exact Bool.false_ne_true)]
    exact ⟨rfl, rfl⟩

end RoundTrip

section Concrete

def varintWidth (tag : BitVec 8) : ℕ := if tag = 0xfd then 2 else if tag = 0xfe then 4 else 8

def decodeVarint : Bytes → Except String (ℕ × ℕ)
  | [] => .error "empty"
  | tag :: rest =>
    if tag.toNat < 0xfd then .ok (tag.toNat, 1)
    else if rest.length < varintWidth tag then .error "short"
    else .ok (BigEndian.value (rest.take (varintWidth tag)).reverse, varintWidth tag + 1)

theorem decodeVarint_tagged {tag : BitVec 8} (htag : ¬ tag.toNat < 0xfd) {n : ℕ}
    (hn : n < 256 ^ varintWidth tag) (rest : Bytes) :
    decodeVarint (tag :: (BigEndian.bytes (varintWidth tag) n).reverse ++ rest) =
      .ok (n, (tag :: (BigEndian.bytes (varintWidth tag) n).reverse).length) := by
  have hlen : (BigEndian.bytes (varintWidth tag) n).reverse.length = varintWidth tag := by simp
  rw [cons_append, decodeVarint, if_neg htag, if_neg (by rw [length_append, hlen]; omega),
    take_left' hlen, reverse_reverse, BigEndian.value_bytes_of_lt hn, length_cons, hlen]

/-- The variable length integers of the wire format. -/
def wireVarint : VarintCodec where
  encode n :=
    if n < 0xfd then [BitVec.ofNat 8 n]
    else if n ≤ 0xffff then 0xfd :: (BigEndian.bytes 2 n).reverse
    else if n ≤ 0xffffffff then 0xfe :: (BigEndian.bytes 4 n).reverse
    else 0xff :: (BigEndian.bytes 8 n).reverse
  decode := decodeVarint
  decode_encode := by
    intro n hn rest
    split_ifs
    · have hbyte : (BitVec.ofNat 8 n).toNat = n := by
        rw [BitVec.toNat_ofNat]
        omega
      rw [singleton_append, decodeVarint, hbyte, if_pos ‹_›]
      rfl
    · exact @decodeVarint_tagged 0xfd (by decide) n (by change n < 256 ^ 2; omega) rest
    · exact @decodeVarint_tagged 0xfe (by decide) n (by change n < 256 ^ 4; omega) rest
    · exact @decodeVarint_tagged 0xff (by decide) n (by change n < 256 ^ 8; omega) rest

def lowBits (bs : Bytes) : Hash := BitVec.ofNat 256 (BigEndian.value bs)

theorem distinctNodes_of_nodup
    (hn : txids.length ≤ 2 ^ 31)
    (hlevels : ∀ k ≤ treeHeight txids.length, (level merge k txids).Nodup) :
    DistinctNodes merge txids txids.length := by
  intro height pos pos' hpos hpos' heq
  by_cases hheight : height ≤ treeHeight txids.length
  · have hle := treeHeight_le txids.length
    have hsame : (level merge height txids)[pos]? =
        (level merge height txids)[pos']? := by
      rw [getElem?_level hn (by omega) hpos, getElem?_level hn (by omega) hpos', heq]
    rw [← length_level merge] at hpos
    exact (getElem?_inj hpos (hlevels height hheight)).mp hsame
  · have hle : width txids.length height ≤
        width txids.length (treeHeight txids.length) :=
      width_le_width (by omega)
    have htop := width_treeHeight hn
    omega

theorem distinctNodes_three : DistinctNodes (mergeMerkleNode lowBits) [1, 2, 3] 3 := by
  refine @distinctNodes_of_nodup _ [1, 2, 3] (by decide) ?_
  decide +kernel

theorem partial_merkle_round_trip_first :
    ∃ t t', PartialMerkleTree.new (mergeMerkleNode lowBits) [1, 2, 3] [true, false, false] = .ok t ∧
      PartialMerkleTree.deserialize wireVarint (t.serialize wireVarint) = .ok t' ∧
      MerkleTree.root (mergeMerkleNode lowBits) [1, 2, 3] =
        some (t'.extractMatches (mergeMerkleNode lowBits)).1.1 ∧
      (t'.extractMatches (mergeMerkleNode lowBits)).1.2 =
        matchedIds [1, 2, 3] [true, false, false] := by
  refine (partial_merkle_round_trip_iff lowBits wireVarint [1, 2, 3] [true, false, false]
    (by decide) rfl (by decide) distinctNodes_three).mpr ?_
  intro k p hwide hodd hlast hp
  match k with
  | 0 =>
    rw [length_cons, length_cons, length_singleton, width_zero] at hlast
    obtain rfl : p = 2 := by
      simp at hlast hp
      omega
    rfl
  | 1 => exact absurd (by decide) hodd
  | k + 2 =>
    have hwidth : width 3 (k + 2) ≤ width 3 2 :=
      width_le_width (by omega)
    have htwo : width 3 2 = 1 := by decide
    change 1 < width 3 (k + 2) at hwide
    omega

/-- The last of three transactions is matched: its sibling is missing and the proof is refused. -/
theorem lone_leaf_proof_refused :
    DistinctNodes (mergeMerkleNode lowBits) [1, 2, 3] 3 ∧
    (∀ t, PartialMerkleTree.new (mergeMerkleNode lowBits) [1, 2, 3] [false, false, true] = .ok t →
      ∀ t', PartialMerkleTree.deserialize wireVarint (t.serialize wireVarint) = .ok t' →
        (t'.extractMatches (mergeMerkleNode lowBits)).1 = (0, [])) ∧
    matchedIds [1, 2, 3] [false, false, true] = [3] := by
  refine ⟨distinctNodes_three, ?_, by decide⟩
  intro t ht t' ht'
  cases ht
  cases ht'
  decide +kernel

end Concrete

end BlvmNode
