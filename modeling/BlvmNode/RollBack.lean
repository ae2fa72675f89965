import BlvmNode.MempoolRuns

/-!
# What the roll-back of a package does

Both phases drop one place of the package at a time. What has been dropped has a reason that stays
true while more is dropped, and the second phase ends where every flagged place has all its parents
inside the package flagged.
-/

namespace BlvmNode

open MempoolManager List

variable {rules : ConsensusRules} {txs : List PackageEntry} {flags : List Bool}
  {entry : PackageEntry} {tx : RawTransaction} {k : ℕ}

section Ids

theorem getElem?_packageIds (rules : ConsensusRules) (txs : List PackageEntry) (k : ℕ) :
    (packageIds rules txs)[k]? = (txs[k]?).map (fun entry => rules.calculateTxId entry.1) := by
  rw [packageIds, getElem?_map]

variable {h : Hash}

theorem mem_admittedIds_iff :
    h ∈ admittedIds rules txs flags ↔
      ∃ k : ℕ, (packageIds rules txs)[k]? = some h ∧ flags[k]? = some true := by
  rw [admittedIds, mem_map]
  constructor
  · rintro ⟨⟨h', flag⟩, hmem, rfl⟩
    obtain ⟨hzip, hflag⟩ := mem_filter.mp hmem
    obtain ⟨k, hk⟩ := mem_iff_getElem?.mp hzip
    obtain ⟨hid, hset⟩ := getElem?_zip_eq_some.mp hk
    exact ⟨k, hid, by rw [hset]; exact congrArg some hflag⟩
  · rintro ⟨k, hid, hset⟩
    refine ⟨(h, true), mem_filter.mpr ⟨?_, rfl⟩, rfl⟩
    exact mem_iff_getElem?.mpr ⟨k, getElem?_zip_eq_some.mpr ⟨hid, hset⟩⟩

theorem mem_packageIds_of_admitted
    (hh : h ∈ admittedIds rules txs flags) : h ∈ packageIds rules txs := by
  obtain ⟨k, hk, _⟩ := mem_admittedIds_iff.mp hh
  exact mem_iff_getElem?.mpr ⟨k, hk⟩

theorem parentMissing_iff :
    parentMissing rules txs flags tx ↔
      ∃ o ∈ tx.prevouts, o.hash ∈ packageIds rules txs ∧
        flags[(packageIds rules txs).idxOf o.hash]? ≠ some true := by
  simp only [parentMissing, any_eq_true, Bool.and_eq_true, decide_eq_true_eq]

end Ids

section Flags

theorem getElem?_of_set_false {j : ℕ}
    (hk : (flags.set j false)[k]? = some true) : flags[k]? = some true := by
  rw [getElem?_set] at hk
  split_ifs at hk
  · cases hk
  · exact hk

theorem parentMissing_mono {flags' : List Bool}
    (hmono : ∀ k : ℕ, flags'[k]? = some true → flags[k]? = some true)
    (hmissing : parentMissing rules txs flags tx) : parentMissing rules txs flags' tx := by
  obtain ⟨o, ho, hid, hflag⟩ := parentMissing_iff.mp hmissing
  exact parentMissing_iff.mpr ⟨o, ho, hid, fun hset => hflag (hmono _ hset)⟩

theorem count_set_false (hk : flags[k]? = some true) :
    (flags.set k false).count true + 1 = flags.count true := by
  obtain ⟨hlt, hget⟩ := List.getElem?_eq_some_iff.mp hk
  have hpos : 0 < flags.count true :=
    List.count_pos_iff.mpr (List.mem_iff_getElem?.mpr ⟨k, hk⟩)
  rw [count_set hlt, hget]
  simp only [beq_self_eq_true, if_true, beq_iff_eq, Bool.false_eq_true, if_false]
  omega

end Flags

/-- The first place of its transaction, or a parent inside the package has no flag. -/
def DropReason (rules : ConsensusRules) (txs : List PackageEntry) (flags : List Bool) (k : ℕ)
    (entry : PackageEntry) : Prop :=
  k = (packageIds rules txs).idxOf (rules.calculateTxId entry.1) ∨
    parentMissing rules txs flags entry.1 = true

/-- The pool and the flags after some places have been dropped from `start`. -/
structure RolledFrom (rules : ConsensusRules) (txs : List PackageEntry) (start acc : RollState) :
    Prop where
  flags_length : acc.2.length = start.2.length
  flags_mono : ∀ k : ℕ, acc.2[k]? = some true → start.2[k]? = some true
  kept : ∀ h, acc.1.tx h = start.1.tx h ∨ acc.1.tx h = none
  cleared : ∀ (k : ℕ) h, (packageIds rules txs)[k]? = some h → start.2[k]? = some true →
    acc.2[k]? ≠ some true → acc.1.tx h = none
  dropped : ∀ h, start.1.Pooled h → acc.1.tx h = none → ∃ (k : ℕ) (entry : PackageEntry),
    txs[k]? = some entry ∧
    rules.calculateTxId entry.1 = h ∧ h ∈ admittedIds rules txs start.2 ∧
      acc.2[k]? ≠ some true ∧ DropReason rules txs acc.2 k entry
  links : ∀ p c, c ∈ start.1.txDescendants.of p → acc.1.Pooled p → acc.1.Pooled c →
    c ∈ acc.1.txDescendants.of p

namespace RolledFrom

variable {start acc : RollState}

theorem refl (start : RollState) : RolledFrom rules txs start start where
  flags_length := rfl
  flags_mono := fun _ hk => hk
  kept := fun _ => .inl rfl
  cleared := fun _ _ _ hset hclear => absurd hset hclear
  dropped := fun h hpooled hnone => by simp [Pooled, hnone] at hpooled
  links := fun _ _ hlink _ _ => hlink

section

variable (hacc : RolledFrom rules txs start acc)
include hacc

theorem drop (hk : txs[k]? = some entry)
    (hadmitted : rules.calculateTxId entry.1 ∈ admittedIds rules txs start.2)
    (hreason : DropReason rules txs acc.2 k entry) : RolledFrom rules txs start
      (acc.1.removeTransaction (rules.calculateTxId entry.1), acc.2.set k false) where
  flags_length := by rw [length_set, hacc.flags_length]
  flags_mono := fun j hj => hacc.flags_mono j (getElem?_of_set_false hj)
  kept := by
    intro h
    rw [tx_removeTransaction]
    split_ifs
    · exact .inr rfl
    · exact hacc.kept h
  cleared := by
    intro j h hj hset hclear
    rw [tx_removeTransaction]
    split_ifs with hh
    · rfl
    · apply hacc.cleared j h hj hset
      intro hflag
      have hjk : k ≠ j := by
        rintro rfl
        rw [getElem?_packageIds, hk] at hj
        exact hh (Option.some.inj hj).symm
      exact hclear (by rw [getElem?_set_ne hjk, hflag])
  dropped := by
    intro h hpooled hnone
    rw [tx_removeTransaction] at hnone
    split_ifs at hnone with hh
    · refine ⟨k, entry, hk, hh.symm, hh ▸ hadmitted, ?_, ?_⟩
      · rw [getElem?_set_self']
        cases acc.2[k]? <;> simp
      · exact hreason.imp_right (parentMissing_mono fun j hj => getElem?_of_set_false hj)
    · obtain ⟨j, other, hj, hid, hmem, hflag, hwhy⟩ := hacc.dropped h hpooled hnone
      refine ⟨j, other, hj, hid, hmem, fun hset => hflag (getElem?_of_set_false hset), ?_⟩
      exact hwhy.imp_right (parentMissing_mono fun j hj => getElem?_of_set_false hj)
  links := by
    intro p c hlink hp hc
    obtain ⟨hp, hpk⟩ := pooled_removeTransaction_iff.mp hp
    obtain ⟨hc, hck⟩ := pooled_removeTransaction_iff.mp hc
    by_cases hpooled : acc.1.Pooled (rules.calculateTxId entry.1)
    · rw [mem_descendants_removeTransaction hpooled]
      exact ⟨hpk, hacc.links p c hlink hp hc, fun hself => hck hself.2⟩
    · rw [removeTransaction_of_none (by simpa [Pooled] using hpooled)]
      exact hacc.links p c hlink hp hc

theorem dropMember {member : Hash} (hmember : member ∈ admittedIds rules txs start.2) :
    RolledFrom rules txs start (dropMember rules txs acc member) := by
  have hplace := getElem?_idxOf (mem_packageIds_of_admitted hmember)
  rw [getElem?_packageIds, Option.map_eq_some_iff] at hplace
  obtain ⟨entry, hentry, hid⟩ := hplace
  have hdrop := hacc.drop hentry (hid ▸ hmember) (.inl (by rw [hid]))
  rw [hid] at hdrop
  exact hdrop

theorem rollBackWaived {waived : Finset Hash} : RolledFrom rules txs start
      (rollBackWaived rules txs waived (admittedIds rules txs start.2) acc) :=
  rollBackWaived_induction hacc (fun _ hacc _ hmember => hacc.dropMember hmember)

theorem dropOrphan {entry : PackageEntry × ℕ} (hentry : entry ∈ txs.zipIdx) :
    RolledFrom rules txs start (dropOrphan rules txs acc entry) := by
  rw [MempoolManager.dropOrphan]
  split_ifs with hdrop
  · have hk := mem_zipIdx_iff_getElem?.mp hentry
    refine hacc.drop hk (mem_admittedIds_iff.mpr ⟨entry.2, ?_, ?_⟩) (.inr hdrop.2)
    · rw [getElem?_packageIds, hk]
      rfl
    · exact hacc.flags_mono _ hdrop.1
  · exact hacc

theorem rollBackOrphans (fuel : ℕ) :
    RolledFrom rules txs start (rollBackOrphans rules txs fuel acc) :=
  rollBackOrphans_induction fuel hacc (fun _ hacc _ hentry => hacc.dropOrphan hentry)

end

theorem rollBack (start : RollState) (waived : Finset Hash) :
    RolledFrom rules txs start (rollBack rules txs waived start) :=
  (RolledFrom.refl start).rollBackWaived.rollBackOrphans _

end RolledFrom

section Fixpoint

theorem count_dropOrphan_le (acc : RollState) (entry : PackageEntry × ℕ) :
    (dropOrphan rules txs acc entry).2.count true ≤ acc.2.count true := by
  rw [dropOrphan]
  split_ifs with hdrop
  · have hcount := count_set_false hdrop.1
    dsimp only
    omega
  · exact le_rfl

theorem count_foldl_dropOrphan_le (entries : List (PackageEntry × ℕ)) (acc : RollState) :
    (entries.foldl (dropOrphan rules txs) acc).2.count true ≤ acc.2.count true := by
  induction entries generalizing acc with
  | nil => exact le_rfl
  | cons entry entries ih => exact (ih _).trans (count_dropOrphan_le acc entry)

theorem foldl_dropOrphan_cases (entries : List (PackageEntry × ℕ)) (acc : RollState) :
    (entries.foldl (dropOrphan rules txs) acc = acc ∧ ∀ entry ∈ entries,
      acc.2[entry.2]? = some true → parentMissing rules txs acc.2 entry.1.1 = false) ∨
    (entries.foldl (dropOrphan rules txs) acc).2.count true < acc.2.count true := by
  induction entries with
  | nil => exact .inl ⟨rfl, nofun⟩
  | cons entry entries ih =>
    rw [foldl_cons]
    by_cases hdrop : acc.2[entry.2]? = some true ∧
        parentMissing rules txs acc.2 entry.1.1
    · right
      refine (count_foldl_dropOrphan_le entries _).trans_lt ?_
      have hcount := count_set_false hdrop.1
      rw [dropOrphan, if_pos hdrop]
      dsimp only
      omega
    · rw [dropOrphan, if_neg hdrop]
      refine ih.imp_left fun hstay => ⟨hstay.1, forall_mem_cons.mpr ⟨fun hflag => ?_, hstay.2⟩⟩
      exact Bool.eq_false_iff.mpr fun hmissing => hdrop ⟨hflag, hmissing⟩

theorem rollBackOrphans_stable {fuel : ℕ} {acc : RollState} (hfuel : acc.2.count true < fuel)
    (hk : txs[k]? = some entry) (hflag : (rollBackOrphans rules txs fuel acc).2[k]? = some true) :
    parentMissing rules txs (rollBackOrphans rules txs fuel acc).2 entry.1 = false := by
  induction fuel generalizing acc with
  | zero => omega
  | succ fuel ih =>
    rw [rollBackOrphans] at hflag ⊢
    rcases @foldl_dropOrphan_cases rules txs txs.zipIdx acc with ⟨hsame, hnone⟩ | hless
    · have hpass : orphanPass rules txs acc = acc := hsame
      rw [hpass, if_pos rfl] at hflag ⊢
      exact hnone (entry, k) (mem_zipIdx_iff_getElem?.mpr hk) hflag
    · have hne : (orphanPass rules txs acc).2 ≠ acc.2 := by
        intro heq
        rw [orphanPass] at heq
        rw [heq] at hless
        exact absurd hless (lt_irrefl _)
      rw [if_neg hne] at hflag ⊢
      refine ih ?_ hflag
      rw [orphanPass]
      omega

theorem rollBack_stable {start : RollState} {waived : Finset Hash}
    (hlen : start.2.length ≤ txs.length)
    (hk : txs[k]? = some entry) (hflag : (rollBack rules txs waived start).2[k]? = some true) :
    parentMissing rules txs (rollBack rules txs waived start).2 entry.1 = false := by
  refine rollBackOrphans_stable ?_ hk hflag
  have hphase : RolledFrom rules txs start
      (rollBackWaived rules txs waived (admittedIds rules txs start.2) start) :=
    (RolledFrom.refl start).rollBackWaived
  have hcount := count_le_length (a := true)
    (l := (rollBackWaived rules txs waived (admittedIds rules txs start.2) start).2)
  rw [hphase.flags_length] at hcount
  omega

end Fixpoint

end BlvmNode
