import BlvmNode.OutputKV
import BlvmNode.Lib.GuardedRun

/-!
# The height index

The height index names the active block of each height. A block beside the active chain is stored
and the entry of its height is put back; when it makes its fork the heavier one, the index is
rewritten from the new tip down to the first height that already agrees.
-/

namespace BlvmNode

open GuardedRun List Option Function

/-- The durable block index (the height of each indexed block), height index and tip. -/
structure ChainIndex where
  blockIndex : Hash → Option ℕ
  heightIndex : ℕ → Option Hash
  tip : Hash
  tipHeight : ℕ

/-- A block with the verdicts of the consensus crate on it and on the reorganization. -/
structure BlockArrival where
  hash : Hash
  valid : Bool
  reorganizes : Bool

variable (prevHash : Hash → Hash) (chainwork : Hash → ℕ) (heed3 : Bool) (pin : ℕ)

def storeBlockWithWitness (heightIndex : ℕ → Option Hash) (height : ℕ) (block : Hash) :
    ℕ → Option Hash :=
  if heed3 then Function.update heightIndex height (some block) else heightIndex

def storeBlockWithContext (heightIndex : ℕ → Option Hash) (height : ℕ) (block : Hash) :
    ℕ → Option Hash :=
  Function.update (storeBlockWithWitness heed3 heightIndex height block) height (some block)

def storeSideBlock (heightIndex : ℕ → Option Hash) (height : ℕ) (block : Hash) :
    ℕ → Option Hash :=
  let stored := storeBlockWithWitness heed3 heightIndex height block
  match heightIndex height with
  | none => stored
  | some prev => if prev ≠ block then Function.update stored height (some prev) else stored

/-- The loop of `refresh_active_height_index`; `fuel` bounds the blocks it visits. -/
def refreshLoop (blockIndex : Hash → Option ℕ) :
    ℕ → List Hash → (ℕ → Option Hash) → Hash → ℕ → Option Hash
  | 0, _, heightIndex, _ => heightIndex
  | fuel + 1, seen, heightIndex, current =>
    if current ∈ seen then heightIndex
    else match blockIndex current with
      | none => heightIndex
      | some height =>
        if heightIndex height = some current then heightIndex
        else
          let heightIndex := Function.update heightIndex height (some current)
          if height = 0 then heightIndex
          else refreshLoop blockIndex fuel (current :: seen) heightIndex (prevHash current)

/-- From a tip of height `n` the loop meets at most `n + 1` blocks. -/
def refreshActiveHeightIndex (blockIndex : Hash → Option ℕ) (heightIndex : ℕ → Option Hash)
    (tip : Hash) (tipHeight : ℕ) : ℕ → Option Hash :=
  refreshLoop prevHash blockIndex (tipHeight + 1) [] heightIndex tip

def connectTip (st : ChainIndex) (block : Hash) : ChainIndex where
  blockIndex := Function.update st.blockIndex block (some (st.tipHeight + 1))
  heightIndex := storeBlockWithContext heed3 st.heightIndex (st.tipHeight + 1) block
  tip := block
  tipHeight := st.tipHeight + 1

def storeSide (st : ChainIndex) (block : Hash) (height : ℕ) : ChainIndex :=
  { st with
    blockIndex := Function.update st.blockIndex block (some height)
    heightIndex := storeSideBlock heed3 st.heightIndex height block }

def activateFork (st : ChainIndex) (candidate : Hash) (newHeight : ℕ) : ChainIndex :=
  let refreshed := refreshActiveHeightIndex prevHash st.blockIndex st.heightIndex candidate
    newHeight
  { st with
    tip := candidate
    tipHeight := newHeight
    heightIndex := if newHeight < pin then Function.update refreshed pin none else refreshed }

def shouldActivate (st : ChainIndex) (s : BlockArrival) : Bool :=
  decide (s.hash ≠ st.tip ∧ chainwork st.tip < chainwork s.hash) && s.reorganizes

/-- `process_block_with_fork_choice` as far as the indexes go. -/
def processBlock (st : ChainIndex) (s : BlockArrival) : ChainIndex :=
  if prevHash s.hash = st.tip then
    if s.valid then connectTip heed3 st s.hash else st
  else match st.blockIndex (prevHash s.hash) with
    | none => st
    | some parentHeight =>
      if s.valid then
        let stored := storeSide heed3 st s.hash (parentHeight + 1)
        if shouldActivate chainwork stored s then
          activateFork prevHash pin stored s.hash (parentHeight + 1)
        else stored
      else st

variable {heightIndex : ℕ → Option Hash} {p : ℕ}

variable (genesis : Hash)

/-- The block index is a tree: every block but genesis lies one above its parent. -/
structure IndexTree (blockIndex : Hash → Option ℕ) : Prop where
  genesisHeight : blockIndex genesis = some 0
  root : ∀ b, blockIndex b = some 0 → b = genesis
  parent : ∀ b h, blockIndex b = some (h + 1) → blockIndex (prevHash b) = some h
  rootParent : blockIndex (prevHash genesis) = none

/-- Every height up to the tip names the tip's ancestor, and no height above it a block. -/
structure Follows (st : ChainIndex) : Prop where
  tipIndexed : st.blockIndex st.tip = some st.tipHeight
  ancestors : ∀ h ≤ st.tipHeight,
    st.heightIndex h = some (prevHash^[st.tipHeight - h] st.tip)
  above : ∀ h, st.tipHeight < h → st.heightIndex h = none

variable {prevHash chainwork heed3 pin genesis} {st : ChainIndex} {blockIndex : Hash → Option ℕ}
  {b : Hash} {k : ℕ} {seen : List Hash}

theorem IndexTree.height_eq (htree : IndexTree prevHash genesis blockIndex)
    (hparent : blockIndex (prevHash b) = some p) (hb : blockIndex b = some k) : k = p + 1 := by
  cases k with
  | zero =>
    rw [htree.root b hb, htree.rootParent] at hparent
    simp at hparent
  | succ k =>
    rw [htree.parent b k hb, some.injEq] at hparent
    rw [hparent]

theorem IndexTree.insert (htree : IndexTree prevHash genesis blockIndex)
    (hparent : blockIndex (prevHash b) = some p) (hroot : b ≠ prevHash genesis) :
    IndexTree prevHash genesis (update blockIndex b (some (p + 1))) := by
  have hgenesis : b ≠ genesis := by
    rintro rfl
    rw [htree.rootParent] at hparent
    simp at hparent
  have hself : prevHash b ≠ b := by
    intro heq
    rw [heq] at hparent
    have hheight := htree.height_eq (heq ▸ hparent) hparent
    omega
  constructor
  · rw [update_of_ne hgenesis.symm, htree.genesisHeight]
  · intro c hc
    by_cases heq : c = b
    · rw [heq, update_self, some.injEq] at hc
      omega
    · rw [update_of_ne heq] at hc
      exact htree.root c hc
  · intro c h hc
    by_cases heq : c = b
    · rw [heq, update_self, some.injEq] at hc
      rw [heq, update_of_ne hself, hparent]
      congr 1
      omega
    · rw [update_of_ne heq] at hc
      have hindexed := htree.parent c h hc
      by_cases hprev : prevHash c = b
      · rw [hprev] at hindexed
        rw [hprev, update_self, htree.height_eq hparent hindexed]
      · rw [update_of_ne hprev, hindexed]
  · rw [update_of_ne hroot.symm, htree.rootParent]

theorem Follows.linked (h : Follows prevHash st)
    (hb : st.heightIndex (k + 1) = some b) : st.heightIndex k = some (prevHash b) := by
  have hle : k + 1 ≤ st.tipHeight := by
    by_contra hlt
    rw [h.above (k + 1) (by omega)] at hb
    simp at hb
  have hsub : st.tipHeight - k = (st.tipHeight - (k + 1)) + 1 := by omega
  rw [h.ancestors (k + 1) hle, some.injEq] at hb
  rw [h.ancestors k (by omega), hsub, iterate_succ_apply', hb]

theorem iterate_of_linked
    (hlinked : ∀ j c, j + 1 ≤ k → heightIndex (j + 1) = some c → heightIndex j = some (prevHash c))
    (hb : heightIndex k = some b) : ∀ h ≤ k, heightIndex h = some (prevHash^[k - h] b) := by
  induction k generalizing b with
  | zero =>
    intro h hh
    rw [Nat.le_zero.mp hh]
    exact hb
  | succ k ih =>
    intro h hh
    rcases Nat.lt_or_eq_of_le hh with hlt | rfl
    · rw [Nat.sub_add_comm (by omega), iterate_succ_apply]
      exact ih (fun j c hj => hlinked j c (by omega)) (hlinked k b le_rfl hb) h (by omega)
    · rw [Nat.sub_self]
      exact hb

theorem notMem_seen (hb : blockIndex b = some k)
    (hseen : ∀ s ∈ seen, ∃ j, blockIndex s = some j ∧ k < j) : b ∉ seen := by
  intro hmem
  obtain ⟨j, hj, hlt⟩ := hseen b hmem
  rw [hb, some.injEq] at hj
  omega

theorem refreshLoop_spec (htree : IndexTree prevHash genesis blockIndex)
    (hb : blockIndex b = some k) (hseen : ∀ s ∈ seen, ∃ j, blockIndex s = some j ∧ k < j)
    (hlinked : ∀ j c, j + 1 ≤ k → heightIndex (j + 1) = some c →
      heightIndex j = some (prevHash c)) :
    (∀ h ≤ k, refreshLoop prevHash blockIndex (k + 1) seen heightIndex b h =
        some (prevHash^[k - h] b)) ∧
      ∀ h, k < h →
        refreshLoop prevHash blockIndex (k + 1) seen heightIndex b h = heightIndex h := by
  induction k generalizing b seen heightIndex with
  | zero =>
    simp only [refreshLoop, if_neg (notMem_seen hb hseen), hb]
    split_ifs with hagree
    · exact ⟨iterate_of_linked hlinked hagree, fun _ _ => rfl⟩
    · constructor
      · intro h hh
        rw [Nat.le_zero.mp hh, update_self]
        rfl
      · intro h hh
        exact update_of_ne (by omega) _ _
  | succ k ih =>
    rw [refreshLoop, if_neg (notMem_seen hb hseen)]
    simp only [hb, Nat.succ_ne_zero, if_false]
    split_ifs with hagree
    · exact ⟨iterate_of_linked hlinked hagree, fun _ _ => rfl⟩
    · have hparent := htree.parent b k hb
      have hseen' : ∀ s ∈ b :: seen, ∃ j, blockIndex s = some j ∧ k < j := by
        rw [forall_mem_cons]
        refine ⟨⟨k + 1, hb, by omega⟩, fun s hs => ?_⟩
        obtain ⟨j, hj, hlt⟩ := hseen s hs
        exact ⟨j, hj, by omega⟩
      have hlinked' : ∀ j c, j + 1 ≤ k →
          update heightIndex (k + 1) (some b) (j + 1) = some c →
          update heightIndex (k + 1) (some b) j = some (prevHash c) := by
        intro j c hj hc
        rw [update_of_ne (by omega)] at hc
        rw [update_of_ne (by omega)]
        exact hlinked j c (by omega) hc
      obtain ⟨hbelow, habove⟩ := ih hparent hseen' hlinked'
      constructor
      · intro h hh
        rcases Nat.lt_or_eq_of_le hh with hlt | rfl
        · rw [Nat.sub_add_comm (by omega), iterate_succ_apply]
          exact hbelow h (by omega)
        · rw [habove (k + 1) (by omega), update_self, Nat.sub_self]
          rfl
      · intro h hh
        rw [habove h (by omega), update_of_ne (by omega)]

variable {block : Hash} {height : ℕ}

theorem storeBlockWithContext_eq (heightIndex : ℕ → Option Hash) (height : ℕ) (block : Hash) :
    storeBlockWithContext heed3 heightIndex height block =
      update heightIndex height (some block) := by
  rw [storeBlockWithContext, storeBlockWithWitness]
  split_ifs
  · rw [update_idem]
  · rfl

theorem storeSideBlock_eq_self (h : heed3 → heightIndex height ≠ none) (block : Hash) :
    storeSideBlock heed3 heightIndex height block = heightIndex := by
  rw [storeSideBlock, storeBlockWithWitness]
  cases hprev : heightIndex height with
  | none =>
    have hheed : ¬heed3 := fun hheed => h hheed hprev
    simp only [if_neg hheed]
  | some prev =>
    have hself : update heightIndex height (some prev) = heightIndex := by
      rw [← hprev, update_eq_self]
    by_cases hne : prev = block
    · subst hne
      simp only [ne_eq, not_true_eq_false, hself, ite_self]
    · simp only [ne_eq, hne, not_false_eq_true, if_true]
      split_ifs
      · rw [update_idem, hself]
      · exact hself

theorem storeSideBlock_of_none (h : heightIndex height = none) (block : Hash) :
    storeSideBlock true heightIndex height block = update heightIndex height (some block) := by
  simp only [storeSideBlock, storeBlockWithWitness, h, if_true]

theorem follows_connectTip (h : Follows prevHash st)
    (hprev : prevHash block = st.tip) : Follows prevHash (connectTip heed3 st block) := by
  constructor
  · exact update_self ..
  · intro k hk
    simp only [connectTip, storeBlockWithContext_eq] at hk ⊢
    rcases Nat.lt_or_eq_of_le hk with hlt | rfl
    · rw [update_of_ne (by omega), Nat.sub_add_comm (by omega), iterate_succ_apply, hprev]
      exact h.ancestors k (by omega)
    · rw [update_self, Nat.sub_self]
      rfl
  · intro k hk
    simp only [connectTip, storeBlockWithContext_eq] at hk ⊢
    rw [update_of_ne (by omega)]
    exact h.above k (by omega)

section

variable (htree : IndexTree prevHash genesis st.blockIndex) (h : Follows prevHash st)
    {candidate : Hash} {newHeight : ℕ} (hindexed : st.blockIndex candidate = some newHeight)
include htree h hindexed

theorem refreshActiveHeightIndex_spec :
    (∀ k ≤ newHeight, refreshActiveHeightIndex prevHash st.blockIndex st.heightIndex candidate
        newHeight k = some (prevHash^[newHeight - k] candidate)) ∧
      ∀ k, newHeight < k → refreshActiveHeightIndex prevHash st.blockIndex st.heightIndex
        candidate newHeight k = st.heightIndex k :=
  refreshLoop_spec htree hindexed (fun _ hs => absurd hs not_mem_nil)
    (fun _ _ _ hc => h.linked hc)

/-- Moving to a heavier fork keeps the index exactly if the new tip is not lower than the old one,
or lower by one with the old tip at the cleared height. -/
theorem follows_activateFork_iff :
    Follows prevHash (activateFork prevHash pin st candidate newHeight) ↔
      st.tipHeight ≤ newHeight ∨ (st.tipHeight = newHeight + 1 ∧ pin = st.tipHeight) := by
  obtain ⟨hbelow, habove⟩ := refreshActiveHeightIndex_spec htree h hindexed
  set refreshed := refreshActiveHeightIndex prevHash st.blockIndex st.heightIndex candidate
    newHeight
  have hindex : ∀ k, (activateFork prevHash pin st candidate newHeight).heightIndex k =
      if newHeight < pin ∧ k = pin then none else refreshed k := by
    intro k
    simp only [activateFork]
    by_cases hpin : newHeight < pin
    · rw [if_pos hpin]
      by_cases hk : k = pin
      · rw [hk, update_self, if_pos ⟨hpin, rfl⟩]
      · rw [update_of_ne hk, if_neg (fun hand => hk hand.2)]
    · rw [if_neg hpin, if_neg (fun hand => hpin hand.1)]
  constructor
  · intro hfollows
    by_contra hcond
    rw [not_or, not_le, not_and_or] at hcond
    -- a height between the tips that is not the cleared one keeps its old entry
    have hstale : ∃ k, newHeight < k ∧ k ≤ st.tipHeight ∧ ¬(newHeight < pin ∧ k = pin) := by
      by_cases hpin : pin = st.tipHeight
      · exact ⟨newHeight + 1, by omega, by omega, by omega⟩
      · exact ⟨st.tipHeight, by omega, le_rfl, by omega⟩
    obtain ⟨k, hlow, hhigh, hkeep⟩ := hstale
    have hnone := hfollows.above k hlow
    rw [hindex, if_neg hkeep, habove k hlow, h.ancestors k hhigh] at hnone
    simp at hnone
  · intro hcond
    constructor
    · exact hindexed
    · intro k hk
      have hk' : k ≤ newHeight := hk
      rw [hindex, if_neg (by omega)]
      exact hbelow k hk'
    · intro k hk
      have hk' : newHeight < k := hk
      rw [hindex]
      split_ifs with hclear
      · rfl
      · rw [habove k hk']
        apply h.above
        omega

end

theorem follows_storeSide (htree : IndexTree prevHash genesis st.blockIndex)
    (h : Follows prevHash st) (hparent : st.blockIndex (prevHash block) = some p)
    (hheight : heed3 → p + 1 ≤ st.tipHeight) :
    Follows prevHash (storeSide heed3 st block (p + 1)) := by
  have hentry : heed3 → st.heightIndex (p + 1) ≠ none := by
    intro hheed
    rw [h.ancestors (p + 1) (hheight hheed)]
    simp
  constructor
  · simp only [storeSide]
    by_cases htip : st.tip = block
    · have hsame := htree.height_eq hparent (htip ▸ h.tipIndexed)
      rw [htip, update_self, hsame]
    · rw [update_of_ne htip, h.tipIndexed]
  · simp only [storeSide, storeSideBlock_eq_self hentry]
    exact h.ancestors
  · simp only [storeSide, storeSideBlock_eq_self hentry]
    exact h.above

theorem not_follows_of_above (h : Follows prevHash st)
    (hside : prevHash block ≠ st.tip) (habove : st.tipHeight < p + 1) :
    ¬Follows prevHash (storeSide true st block (p + 1)) ∧
      ¬Follows prevHash
        (activateFork prevHash pin (storeSide true st block (p + 1)) block (p + 1)) := by
  have hstored : (storeSide true st block (p + 1)).heightIndex =
      update st.heightIndex (p + 1) (some block) :=
    storeSideBlock_of_none (h.above (p + 1) habove) block
  constructor
  · intro hfollows
    have hnone := hfollows.above (p + 1) habove
    rw [hstored, update_self] at hnone
    simp at hnone
  · intro hfollows
    have hrefresh : refreshActiveHeightIndex prevHash (storeSide true st block (p + 1)).blockIndex
        (storeSide true st block (p + 1)).heightIndex block (p + 1) =
        update st.heightIndex (p + 1) (some block) := by
      rw [hstored, refreshActiveHeightIndex, refreshLoop, if_neg not_mem_nil]
      simp only [storeSide, update_self, if_true]
    have hparent := hfollows.ancestors p (Nat.le_succ p)
    have hsub : p + 1 - p = 1 := by omega
    simp only [activateFork, hrefresh, hsub, iterate_one] at hparent
    have hentry : st.heightIndex p = some (prevHash block) := by
      split_ifs at hparent with hpin
      · rw [update_of_ne (by omega), update_of_ne (by omega)] at hparent
        exact hparent
      · rw [update_of_ne (by omega)] at hparent
        exact hparent
    rcases Nat.lt_or_eq_of_le (Nat.lt_succ_iff.mp habove) with hlt | heq
    · rw [h.above p hlt] at hentry
      simp at hentry
    · rw [← heq, h.ancestors st.tipHeight le_rfl, Nat.sub_self, some.injEq] at hentry
      exact hside hentry.symm

variable (prevHash chainwork heed3 pin)

/-- On heed3 a side block is not above the tip, and a heavier fork is not lower than the tip, or
lower by one with the tip at the cleared height. -/
def KeepsIndex (st : ChainIndex) (s : BlockArrival) : Prop :=
  prevHash s.hash ≠ st.tip → s.valid = true →
    ∀ p, st.blockIndex (prevHash s.hash) = some p →
      (heed3 = true → p + 1 ≤ st.tipHeight) ∧
      (shouldActivate chainwork st s = true →
        st.tipHeight ≤ p + 1 ∨ (st.tipHeight = p + 2 ∧ pin = st.tipHeight))

variable {prevHash chainwork heed3 pin} {s : BlockArrival}

theorem indexTree_processBlock (htree : IndexTree prevHash genesis st.blockIndex)
    (htip : st.blockIndex st.tip = some st.tipHeight) (hroot : s.hash ≠ prevHash genesis) :
    IndexTree prevHash genesis (processBlock prevHash chainwork heed3 pin st s).blockIndex := by
  rw [processBlock]
  by_cases hprev : prevHash s.hash = st.tip
  · rw [if_pos hprev]
    split_ifs
    · rw [← hprev] at htip
      exact htree.insert htip hroot
    · exact htree
  rw [if_neg hprev]
  cases hparent : st.blockIndex (prevHash s.hash) with
  | none => exact htree
  | some p =>
    simp only
    split_ifs
    · exact htree.insert hparent hroot
    · exact htree.insert hparent hroot
    · exact htree

theorem follows_processBlock_iff (htree : IndexTree prevHash genesis st.blockIndex)
    (h : Follows prevHash st) (hroot : s.hash ≠ prevHash genesis) :
    Follows prevHash (processBlock prevHash chainwork heed3 pin st s) ↔
      KeepsIndex prevHash chainwork heed3 pin st s := by
  rw [processBlock, KeepsIndex]
  by_cases hprev : prevHash s.hash = st.tip
  · rw [if_pos hprev]
    refine iff_of_true ?_ (fun hne => absurd hprev hne)
    split_ifs
    · exact follows_connectTip h hprev
    · exact h
  rw [if_neg hprev]
  cases hparent : st.blockIndex (prevHash s.hash) with
  | none => exact iff_of_true h (fun _ _ p hp => absurd hp (nofun))
  | some p =>
    by_cases hvalid : s.valid
    swap
    · simp only [if_neg hvalid]
      exact iff_of_true h (fun _ hv => absurd hv hvalid)
    simp only [some.injEq, forall_eq', ne_eq, hprev, not_false_eq_true, forall_const,
      hvalid, if_true]
    have hactivate : shouldActivate chainwork (storeSide heed3 st s.hash (p + 1)) s =
        shouldActivate chainwork st s := rfl
    rw [hactivate]
    by_cases hheight : heed3 → p + 1 ≤ st.tipHeight
    · have hstored := follows_storeSide htree h hparent hheight
      have hfork : Follows prevHash
          (activateFork prevHash pin (storeSide heed3 st s.hash (p + 1)) s.hash (p + 1)) ↔
          st.tipHeight ≤ p + 1 ∨ (st.tipHeight = p + 2 ∧ pin = st.tipHeight) :=
        follows_activateFork_iff (htree.insert hparent hroot) hstored (update_self ..)
      split_ifs with hact
      · rw [hfork]
        exact ⟨fun hc => ⟨hheight, fun _ => hc⟩, fun hc => hc.2 hact⟩
      · exact iff_of_true hstored ⟨hheight, fun hc => absurd hc hact⟩
    · rw [Classical.not_imp, not_le] at hheight
      obtain ⟨hheed, habove⟩ := hheight
      subst hheed
      refine iff_of_false ?_ (fun hc => absurd (hc.1 rfl) (by omega))
      split_ifs
      · exact (not_follows_of_above h hprev habove).2
      · exact (@not_follows_of_above prevHash pin p st s.hash h hprev habove).1

section Runs

/-- In a run from a right index, the index is right in every state exactly if every block meets the
condition. -/
theorem height_index_follows_iff (prevHash : Hash → Hash) (genesis : Hash) (chainwork : Hash → ℕ)
    (heed3 : Bool) (pin : ℕ) (st : ChainIndex) (htree : IndexTree prevHash genesis st.blockIndex)
    (h : Follows prevHash st) (steps : List BlockArrival)
    (hroot : ∀ s ∈ steps, s.hash ≠ prevHash genesis) :
    (∀ pre post, steps = pre ++ post →
      Follows prevHash (pre.foldl (processBlock prevHash chainwork heed3 pin) st)) ↔
      Guarded (processBlock prevHash chainwork heed3 pin)
        (KeepsIndex prevHash chainwork heed3 pin) st steps := by
  rw [← @forall_take_iff_of_guarded _ _ _ _ (Follows prevHash)
    (fun st => IndexTree prevHash genesis st.blockIndex) (fun _ s => s.hash ≠ prevHash genesis)
    (fun st s hs htree h => indexTree_processBlock htree h.tipIndexed hs)
    (fun st s hs htree h => follows_processBlock_iff htree h hs) st htree h steps
    (guarded_of_forall (fun s hs _ => hroot s hs) st)]
  constructor
  · exact fun hall n => hall _ _ (take_append_drop n steps).symm
  · rintro hall pre post rfl
    have hpre := hall pre.length
    rwa [take_left] at hpre

def forkPrev (b : Hash) : Hash :=
  if b = 2 ∨ b = 12 then 1 else if b = 13 then 12 else 0

def genesisIndex : ChainIndex where
  blockIndex := Function.update (fun _ => none) 1 (some 0)
  heightIndex := Function.update (fun _ => none) 0 (some 1)
  tip := 1
  tipHeight := 0

def forkArrivals : List BlockArrival := [⟨2, true, true⟩, ⟨12, true, true⟩, ⟨13, true, true⟩]

def unitWork (b : Hash) : ℕ := if b = 13 then 3 else if b = 1 then 1 else 2

theorem indexTree_genesisIndex : IndexTree forkPrev 1 genesisIndex.blockIndex := by
  constructor
  · rfl
  · intro b hb
    by_contra hne
    simp only [genesisIndex, update_of_ne hne] at hb
    simp at hb
  · intro b h hb
    simp only [genesisIndex] at hb
    rw [update_apply] at hb
    split_ifs at hb
    simp at hb
  · rfl

theorem follows_genesisIndex : Follows forkPrev genesisIndex := by
  constructor
  · rfl
  · intro h hh
    rw [Nat.le_zero.mp hh]
    rfl
  · intro h hh
    have hne : h ≠ 0 := Nat.ne_of_gt hh
    simp only [genesisIndex, update_of_ne hne]

theorem height_index_follows_iff_fork : Follows forkPrev
      (forkArrivals.foldl (processBlock forkPrev unitWork false 0) genesisIndex) := by
  have hguarded : Guarded (processBlock forkPrev unitWork false 0)
      (KeepsIndex forkPrev unitWork false 0) genesisIndex forkArrivals := by
    refine ⟨fun hne => absurd (by decide) hne, ?_, ?_, trivial⟩
    · intro _ _ p _
      exact ⟨nofun, nofun⟩
    · intro _ _ p _
      exact ⟨nofun, fun _ => .inl (Nat.le_add_left 1 p)⟩
  exact (height_index_follows_iff forkPrev 1 unitWork false 0 genesisIndex
    indexTree_genesisIndex follows_genesisIndex forkArrivals (by decide)).mpr hguarded
      forkArrivals [] rfl

/-- On heed3 the new tip's body already names its height, so the refresh stops there. -/
theorem refresh_stops_at_stored_body :
    IndexTree forkPrev 1 genesisIndex.blockIndex ∧ Follows forkPrev genesisIndex ∧
      ¬Follows forkPrev
        (forkArrivals.foldl (processBlock forkPrev unitWork true 0) genesisIndex) := by
  refine ⟨indexTree_genesisIndex, follows_genesisIndex, fun hfollows => ?_⟩
  have hone := hfollows.ancestors 1 (by decide)
  exact absurd hone (by decide)

end Runs

end BlvmNode
