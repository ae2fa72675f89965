import BlvmNode.RollBack

/-!
# Which package transactions the roll-back removes

An admitted transaction is removed if it descends from a waived one with a descendant that was not
admitted, or from a package transaction whose flag is not set. A package transaction that was pooled
before the call has no flag either, and the set of admitted transactions is not refreshed while
transactions are removed.
-/

namespace BlvmNode

open MempoolManager Worklist List

variable {rules : ConsensusRules} {txs : List PackageEntry} {flags : List Bool} {p c : Hash} {k : ℕ}

section Descendants

theorem mem_packageChildren_iff :
    c ∈ packageChildren rules txs p ↔ ∃ entry ∈ txs, rules.calculateTxId entry.1 = c ∧
      p ∈ entry.1.prevouts.map (fun o => o.hash) := by
  rw [packageChildren, packageIds, mem_map]
  constructor
  · rintro ⟨entry, hentry, hid⟩
    obtain ⟨hmem, hnames⟩ := mem_filter.mp hentry
    exact ⟨entry, hmem, hid, of_decide_eq_true hnames⟩
  · rintro ⟨entry, hmem, hid, hnames⟩
    exact ⟨entry, mem_filter.mpr ⟨hmem, decide_eq_true hnames⟩, hid⟩

theorem mem_packageIds_of_child (hc : c ∈ packageChildren rules txs p) :
    c ∈ packageIds rules txs := by
  obtain ⟨entry, hmem, hid, _⟩ := mem_packageChildren_iff.mp hc
  exact mem_map.mpr ⟨entry, hmem, hid⟩

theorem mem_packageDescendants_iff {h : Hash} :
    h ∈ packageDescendants rules txs p ↔ Worklist.Reaches (packageChildren rules txs) p h := by
  have hnext : ∀ x ∈ (p :: packageIds rules txs).toFinset, ∀ y ∈ packageChildren rules txs x,
      y ∈ (p :: packageIds rules txs).toFinset := by
    intro x _ y hy
    rw [mem_toFinset]
    exact mem_cons_of_mem p (mem_packageIds_of_child hy)
  have hcard : (p :: packageIds rules txs).toFinset.card ≤ txs.length + 1 := by
    refine (toFinset_card_le _).trans ?_
    rw [length_cons, packageIds, length_map]
  rw [packageDescendants, mem_explore_iff hnext (by simp) hcard (by simp)]
  simp

end Descendants

section Outcome

variable (rules txs)

def FirstAdmitted (flags : List Bool) (h : Hash) : Prop :=
  flags[(packageIds rules txs).idxOf h]? = some true

/-- A descendant of one of the roots, if that is waived, admitted and has a descendant that is
not. -/
def DoomedBy (waived : Finset Hash) (admitted roots : List Hash) (h : Hash) : Prop :=
  ∃ w ∈ roots, w ∈ waived ∧ w ∈ admitted ∧ h ∈ packageDescendants rules txs w ∧
    ∃ d ∈ packageDescendants rules txs w, d ∉ admitted

def Doomed (waived : Finset Hash) (flags : List Bool) (h : Hash) : Prop :=
  DoomedBy rules txs waived (admittedIds rules txs flags) (packageIds rules txs) h

def Orphaned (flags : List Bool) (h : Hash) : Prop :=
  ∃ p ∈ packageIds rules txs,
    Relation.TransGen (fun p c => c ∈ packageChildren rules txs p) p h ∧
      ¬ FirstAdmitted rules txs flags p

/-- What is pooled after the roll-back, in terms of the pool and the flags it starts from. -/
def Survives (waived : Finset Hash) (start : RollState) (h : Hash) : Prop :=
  start.1.Pooled h ∧ (h ∈ admittedIds rules txs start.2 →
    ¬ Doomed rules txs waived start.2 h ∧ ¬ Orphaned rules txs start.2 h)

end Outcome

section FirstPhase

theorem any_not_admitted_iff {closure admitted : List Hash} :
    closure.any (fun member => decide (member ∉ admitted)) ↔
      ∃ member ∈ closure, member ∉ admitted := by
  simp only [any_eq_true, decide_eq_true_eq]

variable {members : List Hash} {acc : RollState}

theorem foldl_dropMember_pooled {h : Hash} :
    (members.foldl (dropMember rules txs) acc).1.Pooled h ↔ acc.1.Pooled h ∧ h ∉ members := by
  induction members generalizing acc with
  | nil => simp
  | cons member members ih =>
    rw [foldl_cons, ih, dropMember, pooled_removeTransaction_iff, mem_cons]
    tauto

theorem foldl_dropMember_flag :
    (members.foldl (dropMember rules txs) acc).2[k]? = some true ↔
      acc.2[k]? = some true ∧ ∀ member ∈ members, (packageIds rules txs).idxOf member ≠ k := by
  induction members generalizing acc with
  | nil => simp
  | cons member members ih =>
    rw [foldl_cons, ih, dropMember, getElem?_set, forall_mem_cons]
    split_ifs with hk hlt <;> simp [hk]

theorem foldl_waived_spec {waived : Finset Hash} {admitted : List Hash} (roots : List Hash)
    (acc : RollState) :
    let res := roots.foldl (dropWaived rules txs waived admitted) acc
    (∀ h, res.1.Pooled h ↔ acc.1.Pooled h ∧
      ¬ (h ∈ admitted ∧ DoomedBy rules txs waived admitted roots h)) ∧
    ∀ k : ℕ, res.2[k]? = some true ↔ acc.2[k]? = some true ∧
      ∀ h, h ∈ admitted → DoomedBy rules txs waived admitted roots h →
        (packageIds rules txs).idxOf h ≠ k := by
  induction roots generalizing acc with
  | nil => simp [DoomedBy]
  | cons w roots ih =>
    rw [foldl_cons]
    by_cases hdrop : w ∈ waived ∧ w ∈ admitted ∧
        ∃ member ∈ packageDescendants rules txs w, member ∉ admitted
    · have hcons : ∀ h, DoomedBy rules txs waived admitted (w :: roots) h ↔
          h ∈ packageDescendants rules txs w ∨ DoomedBy rules txs waived admitted roots h := by
        intro h
        simp only [DoomedBy, mem_cons, exists_eq_or_imp, hdrop.1, hdrop.2.1, hdrop.2.2, true_and,
          and_true]
      rw [dropWaived, if_pos (by rwa [any_not_admitted_iff])]
      simp only [hcons]
      clear hdrop
      refine ⟨fun h => ?_, fun k => ?_⟩
      · rw [(ih _).1, foldl_dropMember_pooled, mem_filter, decide_eq_true_eq]
        tauto
      · rw [(ih _).2, foldl_dropMember_flag]
        simp only [mem_filter, decide_eq_true_eq]
        constructor
        · rintro ⟨⟨hflag, hmembers⟩, hroots⟩
          refine ⟨hflag, fun h hadmitted hdoomed => ?_⟩
          rcases hdoomed with hmem | hlater
          · exact hmembers h ⟨hmem, hadmitted⟩
          · exact hroots h hadmitted hlater
        · rintro ⟨hflag, hall⟩
          exact ⟨⟨hflag, fun h hmem => hall h hmem.2 (.inl hmem.1)⟩,
            fun h hadmitted hlater => hall h hadmitted (.inr hlater)⟩
    · have hcons : ∀ h, DoomedBy rules txs waived admitted (w :: roots) h ↔
          DoomedBy rules txs waived admitted roots h := by
        intro h
        simp only [DoomedBy, mem_cons, exists_eq_or_imp, or_iff_right_iff_imp]
        exact fun hroot => absurd ⟨hroot.1, hroot.2.1, hroot.2.2.2⟩ hdrop
      rw [dropWaived, if_neg (by rwa [any_not_admitted_iff])]
      simp only [hcons]
      exact ih acc

end FirstPhase

section SecondPhase

def DistinctIds (rules : ConsensusRules) (txs : List PackageEntry) : Prop :=
  ∀ entry ∈ txs, ∀ other ∈ txs, rules.calculateTxId entry.1 = rules.calculateTxId other.1 →
    entry.1 = other.1

variable {entry : PackageEntry}

theorem parentMissing_of_child
    (hdistinct : DistinctIds rules txs) (hk : txs[k]? = some entry) (hp : p ∈ packageIds rules txs)
    (hchild : rules.calculateTxId entry.1 ∈ packageChildren rules txs p)
    (hflag : ¬ FirstAdmitted rules txs flags p) : parentMissing rules txs flags entry.1 := by
  obtain ⟨other, hother, hid, hnames⟩ := mem_packageChildren_iff.mp hchild
  rw [hdistinct other hother entry (mem_of_getElem? hk) hid, mem_map] at hnames
  obtain ⟨o, ho, rfl⟩ := hnames
  exact parentMissing_iff.mpr ⟨o, ho, hp, hflag⟩

theorem child_of_parentMissing
    (hk : txs[k]? = some entry) (hmissing : parentMissing rules txs flags entry.1) :
    ∃ p ∈ packageIds rules txs, rules.calculateTxId entry.1 ∈ packageChildren rules txs p ∧
      ¬ FirstAdmitted rules txs flags p := by
  obtain ⟨o, ho, hp, hflag⟩ := parentMissing_iff.mp hmissing
  refine ⟨o.hash, hp, mem_packageChildren_iff.mpr ⟨entry, mem_of_getElem? hk, rfl, ?_⟩, hflag⟩
  exact mem_map.mpr ⟨o, ho, rfl⟩

/-- What the second phase has done to the flags and the pool it started from. -/
structure OrphansDropped (rules : ConsensusRules) (txs : List PackageEntry)
    (start acc : RollState) : Prop where
  flags_mono : ∀ k : ℕ, acc.2[k]? = some true → start.2[k]? = some true
  orphaned : ∀ (k : ℕ) h, (packageIds rules txs)[k]? = some h → start.2[k]? = some true →
    acc.2[k]? ≠ some true → Orphaned rules txs start.2 h
  pooled_iff : ∀ h, acc.1.Pooled h ↔ start.1.Pooled h ∧ ∀ k : ℕ,
    (packageIds rules txs)[k]? = some h → start.2[k]? = some true → acc.2[k]? = some true

namespace OrphansDropped

variable {start acc : RollState}

theorem refl (start : RollState) : OrphansDropped rules txs start start where
  flags_mono := fun _ hk => hk
  orphaned := fun _ _ _ hset hclear => absurd hset hclear
  pooled_iff := fun _ => ⟨fun hpooled => ⟨hpooled, fun _ _ hset => hset⟩, fun h => h.1⟩

theorem dropOrphan (hacc : OrphansDropped rules txs start acc) {entry : PackageEntry × ℕ}
    (hentry : entry ∈ txs.zipIdx) :
    OrphansDropped rules txs start (dropOrphan rules txs acc entry) := by
  rw [MempoolManager.dropOrphan]
  split_ifs with hdrop
  · have hk := mem_zipIdx_iff_getElem?.mp hentry
    have hid : (packageIds rules txs)[entry.2]? = some (rules.calculateTxId entry.1.1) := by
      rw [getElem?_packageIds, hk, Option.map_some]
    constructor
    · exact fun j hj => hacc.flags_mono j (getElem?_of_set_false hj)
    · intro j h hj hset hclear
      by_cases hjk : entry.2 = j
      · subst hjk
        rw [hid] at hj
        cases hj
        obtain ⟨p, hp, hchild, hflag⟩ := child_of_parentMissing hk hdrop.2
        by_cases hfirst : FirstAdmitted rules txs start.2 p
        · obtain ⟨a, ha, hpath, hmissing⟩ := hacc.orphaned _ p (getElem?_idxOf hp) hfirst hflag
          exact ⟨a, ha, hpath.tail hchild, hmissing⟩
        · exact ⟨p, hp, .single hchild, hfirst⟩
      · rw [getElem?_set_ne hjk] at hclear
        exact hacc.orphaned j h hj hset hclear
    · intro h
      rw [pooled_removeTransaction_iff, hacc.pooled_iff]
      constructor
      · rintro ⟨⟨hpooled, hflags⟩, hne⟩
        refine ⟨hpooled, fun j hj hset => ?_⟩
        have hjk : entry.2 ≠ j := by
          rintro rfl
          rw [hid] at hj
          exact hne (Option.some.inj hj).symm
        rw [getElem?_set_ne hjk]
        exact hflags j hj hset
      · rintro ⟨hpooled, hflags⟩
        refine ⟨⟨hpooled, fun j hj hset => getElem?_of_set_false (hflags j hj hset)⟩, ?_⟩
        rintro rfl
        have hflag := hflags entry.2 hid (hacc.flags_mono _ hdrop.1)
        rw [getElem?_set_self'] at hflag
        cases hget : acc.2[entry.2]? with
        | none | some flag => simp [hget] at hflag
  · exact hacc

theorem rollBackOrphans (hacc : OrphansDropped rules txs start acc) (fuel : ℕ) :
    OrphansDropped rules txs start (rollBackOrphans rules txs fuel acc) :=
  rollBackOrphans_induction fuel hacc (fun _ hacc _ hentry => hacc.dropOrphan hentry)

end OrphansDropped

theorem firstAdmitted_of_path (hdistinct : DistinctIds rules txs)
    (hstable : ∀ (k : ℕ) (entry : PackageEntry), txs[k]? = some entry → flags[k]? = some true →
      parentMissing rules txs flags entry.1 = false) {h : Hash} (hp : p ∈ packageIds rules txs)
    (hpath : Relation.TransGen (fun p c => c ∈ packageChildren rules txs p) p h)
    (hk : (packageIds rules txs)[k]? = some h) (hflag : flags[k]? = some true) :
    FirstAdmitted rules txs flags p := by
  have hparent : ∀ {a c : Hash} {j : ℕ}, a ∈ packageIds rules txs →
      c ∈ packageChildren rules txs a → (packageIds rules txs)[j]? = some c →
      flags[j]? = some true → FirstAdmitted rules txs flags a := by
    intro a c j ha hchild hj hset
    rw [getElem?_packageIds, Option.map_eq_some_iff] at hj
    obtain ⟨entry, hentry, rfl⟩ := hj
    by_contra hmissing
    have horphan := parentMissing_of_child hdistinct hentry ha hchild hmissing
    rw [hstable j entry hentry hset] at horphan
    cases horphan
  induction hpath generalizing k with
  | single hchild => exact hparent hp hchild hk hflag
  | @tail b c hpath hchild ih =>
    have hb : b ∈ packageIds rules txs := by
      obtain ⟨a, _, ha⟩ := Relation.TransGen.tail'_iff.mp hpath
      exact mem_packageIds_of_child ha
    exact ih (getElem?_idxOf hb) (hparent hb hchild hk hflag)

end SecondPhase

section ClosedForm

variable {waived : Finset Hash} {start : RollState} {h : Hash}

theorem Doomed.of_path (hp : Doomed rules txs waived flags p)
    (hpath : Relation.TransGen (fun p c => c ∈ packageChildren rules txs p) p h) :
    Doomed rules txs waived flags h := by
  obtain ⟨w, hw, hwaived, hadmitted, hmem, hlost⟩ := hp
  refine ⟨w, hw, hwaived, hadmitted, mem_packageDescendants_iff.mpr ?_, hlost⟩
  exact (mem_packageDescendants_iff.mp hmem).trans hpath.to_reflTransGen

theorem firstPhase_flag (hk : (packageIds rules txs)[k]? = some h)
    (hset : start.2[k]? = some true) (hdoomed : ¬ Doomed rules txs waived start.2 h) :
    (rollBackWaived rules txs waived (admittedIds rules txs start.2) start).2[k]? = some true := by
  refine ((foldl_waived_spec (packageIds rules txs) start).2 k).mpr ⟨hset, ?_⟩
  rintro other hother hdoom rfl
  rw [getElem?_idxOf (mem_packageIds_of_admitted hother)] at hk
  cases hk
  exact hdoomed hdoom

theorem pooled_rollBack_iff (hdistinct : DistinctIds rules txs)
    (hlen : start.2.length ≤ txs.length) :
    (rollBack rules txs waived start).1.Pooled h ↔ Survives rules txs waived start h := by
  have hstable := fun (k : ℕ) (entry : PackageEntry) (hk : txs[k]? = some entry) hflag =>
    @rollBack_stable rules txs entry k start waived hlen hk hflag
  have hfirst := @foldl_waived_spec rules txs waived (admittedIds rules txs start.2)
    (packageIds rules txs) start
  have hsecond := (@OrphansDropped.refl rules txs
    (rollBackWaived rules txs waived (admittedIds rules txs start.2) start)).rollBackOrphans
      (txs.length + 1)
  rw [rollBack] at hstable ⊢
  rw [hsecond.pooled_iff, rollBackWaived, hfirst.1]
  constructor
  · rintro ⟨⟨hpooled, hnot⟩, hflags⟩
    refine ⟨hpooled, fun hadmitted => ?_⟩
    have hdoomed : ¬ Doomed rules txs waived start.2 h := fun hdoomed => hnot ⟨hadmitted, hdoomed⟩
    refine ⟨hdoomed, ?_⟩
    rintro ⟨p, hp, hpath, hmissing⟩
    obtain ⟨k, hk, hset⟩ := mem_admittedIds_iff.mp hadmitted
    have hlast := hflags k hk (firstPhase_flag hk hset hdoomed)
    have hpflag := firstAdmitted_of_path hdistinct hstable hp hpath hk hlast
    exact hmissing ((hfirst.2 _).mp (hsecond.flags_mono _ hpflag)).1
  · rintro ⟨hpooled, hstays⟩
    refine ⟨⟨hpooled, fun hdoomed => (hstays hdoomed.1).1 hdoomed.2⟩, fun k hk hset => ?_⟩
    by_contra hcleared
    have hstart := ((hfirst.2 k).mp hset).1
    obtain ⟨hdoomed, horphaned⟩ := hstays (mem_admittedIds_iff.mpr ⟨k, hk, hstart⟩)
    obtain ⟨p, hp, hpath, hmissing⟩ := hsecond.orphaned k h hk hset hcleared
    -- an ancestor with a flag at first, and without one later, is doomed, and so is `h`
    by_cases hpflag : FirstAdmitted rules txs start.2 p
    · refine hmissing (firstPhase_flag (getElem?_idxOf hp) hpflag ?_)
      exact fun hpdoomed => hdoomed (hpdoomed.of_path hpath)
    · exact horphaned ⟨p, hp, hpath, hpflag⟩

end ClosedForm

section Ancestors

variable (rules txs)

/-- A parent inside the package stands before its child. -/
def ParentsFirst : Prop :=
  ∀ entry ∈ txs.zipIdx, ∀ o ∈ entry.1.1.prevouts, o.hash ∈ packageIds rules txs →
    o.hash ∈ packageIds rules (txs.take entry.2)

def PackageAncestor (p h : Hash) : Prop := p ≠ h ∧ h ∈ packageDescendants rules txs p

variable {rules txs}

section

variable (hdistinct : DistinctIds rules txs) (hfirst : ParentsFirst rules txs) {h : Hash}
include hdistinct hfirst

theorem idxOf_lt_of_child (hp : p ∈ packageIds rules txs)
    (hchild : c ∈ packageChildren rules txs p) :
    (packageIds rules txs).idxOf p < (packageIds rules txs).idxOf c := by
  have hplace := getElem?_idxOf (mem_packageIds_of_child hchild)
  rw [getElem?_packageIds, Option.map_eq_some_iff] at hplace
  obtain ⟨entry, hentry, hid⟩ := hplace
  obtain ⟨other, hother, hotherId, hnames⟩ := mem_packageChildren_iff.mp hchild
  rw [hdistinct other hother entry (mem_of_getElem? hentry) (hotherId.trans hid.symm),
    mem_map] at hnames
  obtain ⟨o, ho, rfl⟩ := hnames
  have hbefore := hfirst (entry, _) (mem_zipIdx_iff_getElem?.mpr hentry) o ho hp
  rw [packageIds, map_take] at hbefore
  exact (mem_take_iff_idxOf_lt hp).mp hbefore

theorem idxOf_lt_of_path (hp : p ∈ packageIds rules txs)
    (hpath : Relation.TransGen (fun p c => c ∈ packageChildren rules txs p) p h) :
    (packageIds rules txs).idxOf p < (packageIds rules txs).idxOf h := by
  induction hpath with
  | single hchild => exact idxOf_lt_of_child hdistinct hfirst hp hchild
  | tail hpath hchild ih =>
    obtain ⟨a, _, ha⟩ := Relation.TransGen.tail'_iff.mp hpath
    exact ih.trans (idxOf_lt_of_child hdistinct hfirst (mem_packageIds_of_child ha) hchild)

theorem packageAncestor_iff (hp : p ∈ packageIds rules txs) :
    PackageAncestor rules txs p h ↔
      Relation.TransGen (fun p c => c ∈ packageChildren rules txs p) p h := by
  rw [PackageAncestor, mem_packageDescendants_iff]
  constructor
  · rintro ⟨hne, hreach⟩
    exact (Relation.reflTransGen_iff_eq_or_transGen.mp hreach).resolve_left (Ne.symm hne)
  · intro hpath
    refine ⟨?_, hpath.to_reflTransGen⟩
    rintro rfl
    exact absurd (idxOf_lt_of_path hdistinct hfirst hp hpath) (lt_irrefl _)

end

end Ancestors

section Package

variable (rules : ConsensusRules) (env : MempoolEnv) (st : MempoolManager) (txs : List PackageEntry)

def packageWaivers : Finset Hash :=
  (armWaivers rules env st txs).relayFloorWaivers ∪
    (armWaivers rules env st txs).ephemeralDustWaivers

/-- The pool and the flags after the admissions; while the coin set is locked nothing is
offered. -/
def packageOffers : RollState :=
  if env.utxoSet.isSome && env.utxoLocked then (st, [])
  else
    let offered := admitAll rules env (armWaivers rules env st txs) txs
    (dropWaivers offered.1, offered.2.1)

def passedAdmission : List Hash := admittedIds rules txs (packageOffers rules env st txs).2

theorem pooled_addPackageWithWitnesses_iff {rules : ConsensusRules} {env : MempoolEnv}
    {st : MempoolManager} {txs : List PackageEntry} (hdistinct : DistinctIds rules txs) (h : Hash) :
    (addPackageWithWitnesses rules env st txs).1.Pooled h ↔
      Survives rules txs (packageWaivers rules env st txs) (packageOffers rules env st txs) h := by
  rw [addPackageWithWitnesses, packageOffers]
  split_ifs with hempty hlocked hlocked
  · simp [Survives, admittedIds]
  · rw [List.isEmpty_iff] at hempty
    subst hempty
    simp [Survives, admittedIds, packageIds, admitAll, (samePool_dropWaivers _).pooled_iff,
      (samePool_armWaivers rules env st []).pooled_iff]
  · simp [Survives, admittedIds]
  · exact pooled_rollBack_iff hdistinct (length_flags_admitAll_le _ _)

/-- Waived transactions stay only with all their descendants, and an admitted transaction is gone
only if an ancestor is, or with a waived family that has lost a descendant. -/
structure ExactRollBack (waived : Finset Hash) (admitted : List Hash) (after : MempoolManager) :
    Prop where
  whole : ∀ w ∈ admitted, w ∈ waived → after.Pooled w →
    ∀ d ∈ packageDescendants rules txs w, after.Pooled d
  blamed : ∀ h ∈ admitted, ¬ after.Pooled h →
    (∃ p ∈ packageIds rules txs, PackageAncestor rules txs p h ∧ ¬ after.Pooled p) ∨
    ∃ w ∈ packageIds rules txs, w ∈ waived ∧ h ∈ packageDescendants rules txs w ∧
      ∃ d, PackageAncestor rules txs w d ∧ ¬ after.Pooled d

/-- Still pooled after the admissions, and dropped by neither phase. -/
def Stays (waived : Finset Hash) (start : RollState) (h : Hash) : Prop :=
  start.1.Pooled h ∧ ¬ Doomed rules txs waived start.2 h ∧ ¬ Orphaned rules txs start.2 h

/-- What the admissions have to leave for the roll-back to be exact. -/
structure FamiliesStay (waived : Finset Hash) (start : RollState) : Prop where
  whole : ∀ w ∈ admittedIds rules txs start.2, w ∈ waived → Stays rules txs waived start w →
    ∀ d ∈ packageDescendants rules txs w, Stays rules txs waived start d
  admitted : ∀ h ∈ admittedIds rules txs start.2,
    (∀ p ∈ packageIds rules txs, PackageAncestor rules txs p h →
      p ∉ waived ∧ Survives rules txs waived start p) →
    (h ∈ waived → ∀ d, PackageAncestor rules txs h d → Survives rules txs waived start d) →
    start.1.Pooled h ∧
      (∀ p ∈ packageIds rules txs, PackageAncestor rules txs p h →
        FirstAdmitted rules txs start.2 p) ∧
      (h ∈ waived → ∀ d ∈ packageDescendants rules txs h, d ∈ admittedIds rules txs start.2)

variable {rules txs} {waived : Finset Hash} {start : RollState} {h : Hash}

theorem survives_iff_stays (hadmitted : h ∈ admittedIds rules txs start.2) :
    Survives rules txs waived start h ↔ Stays rules txs waived start h := by
  rw [Survives, Stays]
  exact and_congr_right fun _ => ⟨fun hstays => hstays hadmitted, fun hstays _ => hstays⟩

/-- A waived transaction that stays has all its descendants admitted. -/
theorem Stays.descendants_admitted {w d : Hash}
    (hw : w ∈ admittedIds rules txs start.2) (hwaived : w ∈ waived)
    (hstays : Stays rules txs waived start w) (hd : d ∈ packageDescendants rules txs w) :
    d ∈ admittedIds rules txs start.2 := by
  by_contra hlost
  refine hstays.2.1 ⟨w, mem_packageIds_of_admitted hw, hwaived, hw, ?_, d, hd, hlost⟩
  exact mem_packageDescendants_iff.mpr Relation.ReflTransGen.refl

/-- A transaction whose ancestors are all left and not waived is doomed by itself only. -/
theorem stays_iff_of_ancestors (hdistinct : DistinctIds rules txs)
    (hfirst : ParentsFirst rules txs) (hadmitted : h ∈ admittedIds rules txs start.2)
    (hwaived : ∀ p ∈ packageIds rules txs, PackageAncestor rules txs p h → p ∉ waived) :
    Stays rules txs waived start h ↔ start.1.Pooled h ∧
      (∀ p ∈ packageIds rules txs, PackageAncestor rules txs p h →
        FirstAdmitted rules txs start.2 p) ∧
      (h ∈ waived → ∀ d ∈ packageDescendants rules txs h, d ∈ admittedIds rules txs start.2) := by
  constructor
  · intro hstays
    refine ⟨hstays.1, fun p hp hancestor => ?_, fun hroot d hd => ?_⟩
    · by_contra hmissing
      exact hstays.2.2 ⟨p, hp, (packageAncestor_iff hdistinct hfirst hp).mp hancestor, hmissing⟩
    · exact hstays.descendants_admitted hadmitted hroot hd
  · rintro ⟨hpooled, hflags, hfamily⟩
    refine ⟨hpooled, ?_, ?_⟩
    · rintro ⟨w, hw, hwroot, _, hmem, d, hd, hlost⟩
      by_cases hself : w = h
      · subst hself
        exact hlost (hfamily hwroot d hd)
      · exact hwaived w hw ⟨hself, hmem⟩ hwroot
    · rintro ⟨p, hp, hpath, hmissing⟩
      exact hmissing (hflags p hp ((packageAncestor_iff hdistinct hfirst hp).mpr hpath))

/-- The roll-back of a package is exact if and only if the admissions leave no family that one
phase would tear apart and no transaction that has only pooled relatives to be blamed on. -/
theorem package_rollback_exact_iff (rules : ConsensusRules) (env : MempoolEnv)
    (st : MempoolManager) (txs : List PackageEntry) (hdistinct : DistinctIds rules txs)
    (hfirst : ParentsFirst rules txs) :
    ExactRollBack rules txs (packageWaivers rules env st txs) (passedAdmission rules env st txs)
        (addPackageWithWitnesses rules env st txs).1 ↔
      FamiliesStay rules txs (packageWaivers rules env st txs)
        (packageOffers rules env st txs) := by
  have hpooled := @pooled_addPackageWithWitnesses_iff rules env st txs hdistinct
  generalize (addPackageWithWitnesses rules env st txs).1 = after at hpooled ⊢
  rw [passedAdmission]
  generalize packageWaivers rules env st txs = waived at hpooled ⊢
  generalize packageOffers rules env st txs = start at hpooled ⊢
  constructor
  · intro hexact
    constructor
    · intro w hw hwaived hstays d hd
      rw [← survives_iff_stays (hstays.descendants_admitted hw hwaived hd), ← hpooled]
      exact hexact.whole w hw hwaived ((hpooled w).mpr ((survives_iff_stays hw).mpr hstays)) d hd
    · intro h hh hancestors hfamily
      rw [← stays_iff_of_ancestors hdistinct hfirst hh fun p hp hp' => (hancestors p hp hp').1,
        ← survives_iff_stays hh, ← hpooled]
      by_contra hgone
      rcases hexact.blamed h hh hgone with ⟨p, hp, hancestor, hlost⟩ | ⟨w, hw, hwaived, hmem, d, hd⟩
      · exact hlost ((hpooled p).mpr (hancestors p hp hancestor).2)
      · by_cases hself : w = h
        · subst hself
          exact hd.2 ((hpooled d).mpr (hfamily hwaived d hd.1))
        · exact (hancestors w hw ⟨hself, hmem⟩).1 hwaived
  · intro hstay
    constructor
    · intro w hw hwaived hleft d hd
      have hstays := (survives_iff_stays hw).mp ((hpooled w).mp hleft)
      rw [hpooled, survives_iff_stays (hstays.descendants_admitted hw hwaived hd)]
      exact hstay.whole w hw hwaived hstays d hd
    · intro h hh hgone
      by_contra hnone
      push Not at hnone
      obtain ⟨hancestors, hfamilies⟩ := hnone
      have hmem : ∀ p ∈ packageIds rules txs, PackageAncestor rules txs p h → p ∉ waived :=
        fun p hp hancestor hwaived => hgone (hfamilies p hp hwaived hancestor.2 h hancestor)
      refine hgone ((hpooled h).mpr ((survives_iff_stays hh).mpr ?_))
      rw [stays_iff_of_ancestors hdistinct hfirst hh hmem]
      apply hstay.admitted h hh
      · exact fun p hp hancestor =>
          ⟨hmem p hp hancestor, (hpooled p).mp (hancestors p hp hancestor)⟩
      · intro hwaived d hd
        have hself : h ∈ packageDescendants rules txs h :=
          mem_packageDescendants_iff.mpr Relation.ReflTransGen.refl
        exact (hpooled d).mp (hfamilies h (mem_packageIds_of_admitted hh) hwaived hself d hd)

end Package

section Concrete

theorem mem_packageIds_of_descendant {d : Hash} (hp : p ∈ packageIds rules txs)
    (hd : d ∈ packageDescendants rules txs p) : d ∈ packageIds rules txs := by
  rcases Relation.ReflTransGen.cases_tail (mem_packageDescendants_iff.mp hd) with rfl | ⟨a, _, ha⟩
  · exact hp
  · exact mem_packageIds_of_child ha

theorem familiesStay_of_all_admitted {waived : Finset Hash} {start : RollState}
    (hall : ∀ h ∈ packageIds rules txs, FirstAdmitted rules txs start.2 h ∧ start.1.Pooled h) :
    FamiliesStay rules txs waived start := by
  have hadmitted : ∀ h ∈ packageIds rules txs, h ∈ admittedIds rules txs start.2 :=
    fun h hh => mem_admittedIds_iff.mpr ⟨_, getElem?_idxOf hh, (hall h hh).1⟩
  constructor
  · intro w hw _ _ d hd
    have hmem := mem_packageIds_of_descendant (mem_packageIds_of_admitted hw) hd
    refine ⟨(hall d hmem).2, ?_, ?_⟩
    · rintro ⟨root, hroot, _, _, _, lost, hlost, hnot⟩
      exact hnot (hadmitted lost (mem_packageIds_of_descendant hroot hlost))
    · rintro ⟨p, hp, _, hmissing⟩
      exact hmissing (hall p hp).1
  · intro h hh _ _
    have hmem := mem_packageIds_of_admitted hh
    refine ⟨(hall h hmem).2, fun p hp _ => (hall p hp).1, fun _ d hd => ?_⟩
    exact hadmitted d (mem_packageIds_of_descendant hmem hd)

def feeCoins : MempoolEnv :=
  wiredEnv [(confirmedOutput, plainCoin 10000#64), (⟨0#256, 1#32⟩, plainCoin 10000#64)]

/-- A parent without a fee and a child that pays for both. -/
def sponsoredPackage : List PackageEntry :=
  [(plainTx 1 [confirmedOutput] [10000#64], none), (plainTx 2 [⟨1#256, 0#32⟩] [9000#64], none)]

theorem package_rollback_exact_sponsored :
    1#256 ∈ packageWaivers laxRules feeCoins MempoolManager.new sponsoredPackage ∧
    ExactRollBack laxRules sponsoredPackage
      (packageWaivers laxRules feeCoins MempoolManager.new sponsoredPackage)
      (passedAdmission laxRules feeCoins MempoolManager.new sponsoredPackage)
      (addPackageWithWitnesses laxRules feeCoins MempoolManager.new sponsoredPackage).1 := by
  have hdistinct : DistinctIds laxRules sponsoredPackage := by
    unfold DistinctIds
    decide
  have hfirst : ParentsFirst laxRules sponsoredPackage := by
    unfold ParentsFirst
    decide
  refine ⟨by decide +kernel, ?_⟩
  apply (package_rollback_exact_iff laxRules feeCoins new sponsoredPackage hdistinct hfirst).mpr
  apply familiesStay_of_all_admitted
  have hids : packageIds laxRules sponsoredPackage = [1#256, 2#256] := by decide
  rw [hids]
  intro h hh
  unfold FirstAdmitted
  rcases mem_pair.mp hh with rfl | rfl
  · decide +kernel
  · decide +kernel

/-- Two parents without a fee, a refused child of the second, and a child that pays for both. -/
def tornPackage : List PackageEntry :=
  [(plainTx 1 [confirmedOutput] [10000#64], none),
    (plainTx 2 [⟨0#256, 1#32⟩] [5000#64, 5000#64], none),
    (plainTx 3 [⟨2#256, 1#32⟩] [5000#64], none),
    (plainTx 4 [⟨1#256, 0#32⟩, ⟨2#256, 0#32⟩] [14000#64], none)]

/-- The refused child takes the second parent and the paying child along; the first parent stays
without its child. And a package whose parent is pooled already loses its child. -/
theorem rollback_tears_families :
    (DistinctIds laxRules tornPackage ∧ ParentsFirst laxRules tornPackage ∧
      ¬ ExactRollBack laxRules tornPackage
        (packageWaivers laxRules feeCoins MempoolManager.new tornPackage)
        (passedAdmission laxRules feeCoins MempoolManager.new tornPackage)
        (addPackageWithWitnesses laxRules feeCoins MempoolManager.new tornPackage).1) ∧
    (let env := wiredEnv [(confirmedOutput, plainCoin 11000#64)]
     let st := (addTransactionWithWitness laxRules env MempoolManager.new parentTx none).1
     let after := (addPackageWithWitnesses laxRules env st [(parentTx, none), (childTx, none)]).1
     2#256 ∈ passedAdmission laxRules env st [(parentTx, none), (childTx, none)] ∧
       after.Pooled 1#256 ∧ ¬ after.Pooled 2#256 ∧
       packageWaivers laxRules env st [(parentTx, none), (childTx, none)] = ∅) := by
  refine ⟨⟨?_, ?_, ?_⟩, by decide +kernel⟩
  · unfold DistinctIds
    decide
  · unfold ParentsFirst
    decide
  · intro hexact
    have hwaived : 1#256 ∈ packageWaivers laxRules feeCoins new tornPackage := by
      decide +kernel
    have hpassed : 1#256 ∈ passedAdmission laxRules feeCoins new tornPackage := by
      decide +kernel
    have hparent : (addPackageWithWitnesses laxRules feeCoins new
        tornPackage).1.Pooled 1#256 := by decide +kernel
    have hchild : ¬ (addPackageWithWitnesses laxRules feeCoins new
        tornPackage).1.Pooled 4#256 := by decide +kernel
    exact hchild (hexact.whole _ hpassed hwaived hparent _ (by decide +kernel))

end Concrete

end BlvmNode
