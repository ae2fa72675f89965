import BlvmNode.MerkleRoundTrip

/-!
# What an accepted merkle proof shows

The shape of the tree is fixed by the number of transactions. From the root downwards, a hash of two
children that equals a node of the block's tree is a hash of that node's children, so every leaf the
traversal records is the transaction at its place.
-/

namespace BlvmNode

open List MerkleTree

variable {merge : Hash → Hash → Hash} {txids : List Hash} {n : ℕ} {vBits : List Bool}
  {vHash : List Hash} {s : ExtractState} {height pos : ℕ}

def recordedLeaves (n : ℕ) (vBits : List Bool) : ℕ → ℕ → ℕ → List ℕ × ℕ
  | 0, pos, used => (if vBits[used]? = some true then [pos] else [], used + 1)
  | height + 1, pos, used =>
    if vBits[used]? = some true then
      let left := recordedLeaves n vBits height (pos * 2) (used + 1)
      if pos * 2 + 1 < calcTreeWidth n height then
        let right := recordedLeaves n vBits height (pos * 2 + 1) left.2
        (left.1 ++ right.1, right.2)
      else left
    else ([], used + 1)

theorem recordedLeaves_sorted (hn : n ≤ 2 ^ 31) (hheight : height ≤ 31)
    (hpos : pos < width n height) (used : ℕ) :
    (recordedLeaves n vBits height pos used).1.Sublist (leavesBelow n height pos) := by
  induction height generalizing pos used with
  | zero =>
    rw [width_zero] at hpos
    rw [recordedLeaves, leavesBelow_zero hpos]
    split_ifs
    · exact Sublist.refl _
    · exact nil_sublist _
  | succ height ih =>
    have hleftPos := lt_width_succ.mp hpos
    rw [recordedLeaves, leavesBelow_succ hpos, calcTreeWidth_eq hn (by omega)]
    split_ifs with hflag hright
    · exact (ih (by omega) hleftPos _).append (ih (by omega) hright _)
    · rw [leavesBelow_eq_nil (not_lt.mp hright), append_nil]
      exact ih (by omega) hleftPos _
    · exact nil_sublist _

/-- An inner node of the block's tree is the hash of its own children only. -/
def NoSecondPreimage (merge : Hash → Hash → Hash) (txids : List Hash) (n : ℕ) : Prop :=
  ∀ height < treeHeight n, ∀ pos < MerkleTree.width n (height + 1), ∀ a b,
    merge a b = calcHash merge txids n (height + 1) pos →
      a = calcHash merge txids n height (pos * 2) ∧
      b = if pos * 2 + 1 < calcTreeWidth n height then calcHash merge txids n height (pos * 2 + 1)
        else calcHash merge txids n height (pos * 2)

theorem bad_of_bad (hbad : s.bad) :
    (traverseAndExtract merge n vBits vHash height pos s).2.bad := by
  have hread : ∀ (flag : Bool) (s : ExtractState), s.bad →
      (readHash vHash flag s).2.bad := by
    intro flag s hs
    rw [readHash]
    split
    · rfl
    · exact hs
  induction height generalizing pos s with
  | zero =>
    rw [traverseAndExtract]
    split
    · rfl
    · exact hread _ _ hbad
  | succ height ih =>
    rw [traverseAndExtract]
    split
    · rfl
    · exact hread _ _ hbad
    · dsimp only
      split_ifs
      · rfl
      · apply ih
        apply ih
        exact hbad
      · rfl
      · apply ih
        exact hbad

/-- A successful traversal with the hash of a node has recorded transactions of the block, each at
its place. -/
theorem traverseAndExtract_sound (hn : n ≤ 2 ^ 31) (hheight : height ≤ treeHeight n)
    (hpre : NoSecondPreimage merge txids n) (hpos : pos < width n height)
    (hgood : (traverseAndExtract merge n vBits vHash height pos s).2.bad = false)
    (hnode : (traverseAndExtract merge n vBits vHash height pos s).1 =
      calcHash merge txids n height pos) :
    (traverseAndExtract merge n vBits vHash height pos s).2.bitsUsed =
      (recordedLeaves n vBits height pos s.bitsUsed).2 ∧
    (traverseAndExtract merge n vBits vHash height pos s).2.matched =
      s.matched ++ (recordedLeaves n vBits height pos s.bitsUsed).1.map
        (fun p => txids.getD p 0) := by
  induction height generalizing pos s with
  | zero =>
    rw [traverseAndExtract] at hgood hnode ⊢
    cases hbit : vBits[s.bitsUsed]? with
    | none => simp [hbit] at hgood
    | some flag =>
      simp only [hbit, readHash] at hgood hnode ⊢
      cases hhash : vHash[s.hashUsed]? with
      | none => simp [hhash] at hgood
      | some hash =>
        simp only [hhash] at hnode ⊢
        rw [calcHash] at hnode
        rw [recordedLeaves, hbit]
        cases flag with
        | false => simp
        | true => simp [hnode]
  | succ height ih =>
    have hleftPos := lt_width_succ.mp hpos
    rw [traverseAndExtract] at hgood hnode ⊢
    rw [recordedLeaves]
    cases hbit : vBits[s.bitsUsed]? with
    | none => simp [hbit] at hgood
    | some flag =>
      cases flag with
      | false =>
        simp only [hbit, readHash] at hgood hnode ⊢
        cases hhash : vHash[s.hashUsed]? with
        | none => simp [hhash] at hgood
        | some hash => simp
      | true =>
        simp only [hbit] at hgood hnode ⊢
        set left := traverseAndExtract merge n vBits vHash height (pos * 2)
          { s with bitsUsed := s.bitsUsed + 1 } with hleft
        obtain ⟨hleftNode, hrightNode⟩ := hpre height (by omega) pos hpos _ _ hnode
        by_cases hright : pos * 2 + 1 < calcTreeWidth n height
        · simp only [if_pos hright] at hgood hnode hrightNode ⊢
          split_ifs at hgood with hsame
          rw [if_neg hsame, if_true]
          have hleftGood : left.2.bad = false := by
            by_contra hbad
            rw [bad_of_bad (Bool.not_eq_false _ ▸ hbad)] at hgood
            cases hgood
          obtain ⟨hused, hmatched⟩ := ih (by omega) hleftPos hleftGood hleftNode
          have hrightPos : pos * 2 + 1 < width n height := by
            have hle := treeHeight_le n
            rwa [calcTreeWidth_eq hn (by omega)] at hright
          obtain ⟨hused', hmatched'⟩ := ih (by omega) hrightPos hgood hrightNode
          rw [← hleft] at hused hmatched
          rw [hused', hmatched', hused, hmatched, map_append, append_assoc]
          exact ⟨rfl, rfl⟩
        · simp [if_neg hright] at hgood

theorem extractMatches_cases (merge : Hash → Hash → Hash) {t : PartialMerkleTree}
    (hpos : t.nTransactions ≠ 0) :
    ((t.extractMatches merge).1 = (0, []) ∧ (t.extractMatches merge).2.bad) ∨
    ∃ res, res = traverseAndExtract merge t.nTransactions t.vBits t.vHash
        (treeHeight t.nTransactions) 0 ⟨0, 0, [], t.bad⟩ ∧ res.2.bad = false ∧
      (t.extractMatches merge).1 = (res.1, res.2.matched) := by
  rw [PartialMerkleTree.extractMatches, if_neg hpos]
  dsimp only
  split_ifs with _ _ hbad
  · exact .inl ⟨rfl, rfl⟩
  · exact .inl ⟨rfl, rfl⟩
  · exact .inl ⟨rfl, rfl⟩
  · exact .inl ⟨rfl, rfl⟩
  · exact .inl ⟨rfl, rfl⟩
  · exact .inr ⟨_, rfl, Bool.not_eq_true _ ▸ hbad, rfl⟩

/-- Whatever bytes a proof is read from: with the block's number of transactions and root, its ids
are those of the block at the recorded places, which increase. -/
theorem merkle_proof_sound (doubleSha256 : Bytes → Hash) (varint : VarintCodec) (data : Bytes)
    (txids : List Hash) (t : PartialMerkleTree) (hn : txids.length ≤ 2 ^ 31)
    (hpre : NoSecondPreimage (mergeMerkleNode doubleSha256) txids txids.length)
    (_hdecode : PartialMerkleTree.deserialize varint data = .ok t)
    (hcount : t.nTransactions = txids.length)
    (hroot : MerkleTree.root (mergeMerkleNode doubleSha256) txids =
      some (t.extractMatches (mergeMerkleNode doubleSha256)).1.1) :
    ∃ positions : List ℕ, positions.Pairwise (· < ·) ∧
      (t.extractMatches (mergeMerkleNode doubleSha256)).1.2.map some =
        positions.map (fun p => txids[p]?) ∧
      ((t.extractMatches (mergeMerkleNode doubleSha256)).2.bad = false → positions =
        (recordedLeaves txids.length t.vBits (treeHeight txids.length) 0 0).1) := by
  have hne : txids ≠ [] := by
    rintro rfl
    cases hroot
  have hlen : 0 < txids.length := length_pos_iff.mpr hne
  have hwidth := width_pos hlen (treeHeight txids.length)
  have hcounted : t.nTransactions ≠ 0 := by omega
  rcases extractMatches_cases (mergeMerkleNode doubleSha256) hcounted with ⟨hfailed, hbad⟩
    | ⟨res, hres, hgood, hfound⟩
  · refine ⟨[], Pairwise.nil, by rw [hfailed]; rfl, fun hgood => ?_⟩
    rw [hbad] at hgood
    cases hgood
  · rw [hcount] at hres
    rw [hfound, root_eq_calcHash hne hn, Option.some.injEq] at hroot
    subst hres
    obtain ⟨_, hmatched⟩ := traverseAndExtract_sound hn le_rfl hpre hwidth hgood
      hroot.symm
    have hsub := @recordedLeaves_sorted _ t.vBits _ _ hn (treeHeight_le _) hwidth 0
    rw [leavesBelow_root hn] at hsub
    refine ⟨_, pairwise_lt_range.sublist hsub, ?_, fun _ => rfl⟩
    rw [hfound, hmatched, nil_append, map_map]
    apply map_congr_left
    intro p hp
    have hlt := mem_range.mp (hsub.subset hp)
    rw [Function.comp, getD_eq_getElem?_getD, getElem?_eq_getElem hlt, Option.getD_some]

section Concrete

def onePair (bs : Bytes) : Hash := if bs = hashBytes 1 ++ hashBytes 2 then 7 else 0

theorem noSecondPreimage_onePair : NoSecondPreimage (mergeMerkleNode onePair) [1, 2] 2 := by
  intro height hheight pos hpos a b hmerge
  have htree : treeHeight 2 = 1 := by decide
  obtain rfl : height = 0 := by omega
  have hwidth : width 2 (0 + 1) = 1 := by decide
  obtain rfl : pos = 0 := by omega
  have hnode : calcHash (mergeMerkleNode onePair) [1, 2] 2 (0 + 1) 0 = 7 := by decide +kernel
  rw [hnode, mergeMerkleNode, onePair] at hmerge
  split_ifs at hmerge with hbytes
  · obtain ⟨ha, hb⟩ := append_inj hbytes (by rw [length_hashBytes, length_hashBytes])
    have hleft := congrArg hashOfBytes ha
    have hright := congrArg hashOfBytes hb
    rw [hashOfBytes_hashBytes, hashOfBytes_hashBytes] at hleft hright
    exact ⟨hleft, hright⟩
  · exact absurd hmerge (by decide)

/-- The bytes of a proof for the second of two transactions. -/
def secondProof : Bytes :=
  PartialMerkleTree.serialize wireVarint ⟨2, [true, false, true], [1, 2], false⟩

theorem merkle_proof_sound_second :
    ∃ t, PartialMerkleTree.deserialize wireVarint secondProof = .ok t ∧
      (t.extractMatches (mergeMerkleNode onePair)).1 = (7, [2]) ∧
      ∃ positions : List ℕ, positions.Pairwise (· < ·) ∧
        (t.extractMatches (mergeMerkleNode onePair)).1.2.map some =
          positions.map (fun p => [(1 : Hash), 2][p]?) ∧
        ((t.extractMatches (mergeMerkleNode onePair)).2.bad = false → positions =
          (recordedLeaves 2 t.vBits (treeHeight 2) 0 0).1) := by
  refine ⟨_, deserialize_serialize wireVarint _ (by decide) (by decide) (by decide),
    by decide +kernel, ?_⟩
  exact merkle_proof_sound onePair wireVarint secondProof [1, 2] _ (by decide)
    noSecondPreimage_onePair (deserialize_serialize wireVarint _ (by decide) (by decide)
      (by decide))
    rfl (by decide +kernel)

end Concrete

end BlvmNode
