import BlvmNode.HeightIndex
import Mathlib.Data.List.Iterate

/-!
# Fork discovery

The chains of two tips from their common ancestor on: the higher tip is walked down to the height
of the lower one, then both walk down together until they meet.
-/

namespace BlvmNode

open List Function

section Source

variable (prevHash : Hash → Hash) (stored : Hash → Option ℕ)

/-- `fork_link`: a block without an index row gets one if its header and height are stored. -/
def forkLink (blockIndex : Hash → Option ℕ) (hash : Hash) :
    Option ((ℕ × Hash) × (Hash → Option ℕ)) :=
  match blockIndex hash with
  | some height => some ((height, prevHash hash), blockIndex)
  | none => (stored hash).map (fun height =>
      ((height, prevHash hash), Function.update blockIndex hash (some height)))

variable {α : Type} (visit : Hash → Option α)

/-- The blocks above the height of the other tip, and where the walk ends. -/
def walkDown : ℕ → (Hash → Option ℕ) → Hash → Option (List α × Hash × (Hash → Option ℕ))
  | 0, blockIndex, hash => some ([], hash, blockIndex)
  | steps + 1, blockIndex, hash => do
    let item ← visit hash
    let link ← forkLink prevHash stored blockIndex hash
    let rest ← walkDown steps link.2 link.1.2
    some (item :: rest.1, rest.2)

/-- Both walks at one height; two blocks of height 0 do not share an ancestor. -/
def walkTogether : ℕ → (Hash → Option ℕ) → Hash → Hash → Option (List α × List α)
  | 0, _, active, candidate =>
    if active = candidate then (visit active).map (fun item => ([item], [item])) else none
  | height + 1, blockIndex, active, candidate =>
    if active = candidate then (visit active).map (fun item => ([item], [item]))
    else do
      let item ← visit active
      let item' ← visit candidate
      let link ← forkLink prevHash stored blockIndex active
      let link' ← forkLink prevHash stored link.2 candidate
      let rest ← walkTogether height link'.2 link.1.2 link'.1.2
      some (item :: rest.1, item' :: rest.2)

def forkChains (blockIndex : Hash → Option ℕ) (activeTip candidateTip : Hash) :
    Option (List α × List α) := do
  let link ← forkLink prevHash stored blockIndex activeTip
  let link' ← forkLink prevHash stored link.2 candidateTip
  let active ← walkDown prevHash stored visit (link.1.1 - link'.1.1) link'.2 activeTip
  let candidate ← walkDown prevHash stored visit (link'.1.1 - link.1.1) active.2.2 candidateTip
  let fork ← walkTogether prevHash stored visit (min link.1.1 link'.1.1) candidate.2.2 active.2.1
    candidate.2.1
  some (fork.1.reverse ++ active.1.reverse, fork.2.reverse ++ candidate.1.reverse)

def forkHashChains (blockIndex : Hash → Option ℕ) (activeTip candidateTip : Hash) :
    Option (List Hash × List Hash) :=
  forkChains prevHash stored some blockIndex activeTip candidateTip

def collectForkChains (loadReorgBlock : Hash → Option α) (blockIndex : Hash → Option ℕ)
    (activeTip candidateTip : Hash) : Option (List α × List α) :=
  forkChains prevHash stored loadReorgBlock blockIndex activeTip candidateTip

end Source

section Walks

variable {prevHash : Hash → Hash} {stored : Hash → Option ℕ} {genesis : Hash}
  {blockIndex : Hash → Option ℕ} (htree : IndexTree prevHash genesis blockIndex)
  {α : Type} {visit : Hash → Option α} {item : Hash → α} {a c hash : Hash} {k d steps m n : ℕ}

theorem forkLink_of_indexed (h : blockIndex hash = some k) :
    forkLink prevHash stored blockIndex hash = some ((k, prevHash hash), blockIndex) := by
  rw [forkLink, h]

include htree

theorem height_iterate (h : blockIndex hash = some (k + d)) :
    blockIndex (prevHash^[d] hash) = some k := by
  induction d generalizing hash with
  | zero => exact h
  | succ d ih =>
    rw [iterate_succ_apply]
    exact ih (htree.parent hash (k + d) h)

theorem walkDown_eq (h : blockIndex hash = some (k + steps))
    (hvisit : ∀ b ∈ iterate prevHash hash steps, visit b = some (item b)) :
    walkDown prevHash stored visit steps blockIndex hash =
      some ((iterate prevHash hash steps).map item, prevHash^[steps] hash, blockIndex) := by
  induction steps generalizing hash with
  | zero => rfl
  | succ steps ih =>
    rw [iterate, forall_mem_cons] at hvisit
    rw [walkDown, hvisit.1, forkLink_of_indexed h]
    simp only [Option.bind_eq_bind, Option.bind_some, ih (htree.parent hash _ h) hvisit.2]
    rfl

theorem walkTogether_eq (ha : blockIndex a = some k) (hc : blockIndex c = some k)
    (hmeet : prevHash^[d] a = prevHash^[d] c)
    (hfirst : ∀ d' < d, prevHash^[d'] a ≠ prevHash^[d'] c) (hd : d ≤ k)
    (hvisit : ∀ b ∈ iterate prevHash a (d + 1) ++ iterate prevHash c (d + 1),
      visit b = some (item b)) :
    walkTogether prevHash stored visit k blockIndex a c =
      some ((iterate prevHash a (d + 1)).map item, (iterate prevHash c (d + 1)).map item) := by
  induction d generalizing a c k with
  | zero =>
    obtain rfl : a = c := hmeet
    have hitem := hvisit a (mem_append_left _ mem_cons_self)
    cases k <;> simp [walkTogether, hitem]
  | succ d ih =>
    obtain ⟨k, rfl⟩ := Nat.exists_eq_add_of_le' (Nat.one_le_of_lt hd)
    have hne : a ≠ c := hfirst 0 (Nat.succ_pos d)
    obtain ⟨hactive, hcandidate⟩ := forall_mem_append.mp hvisit
    rw [iterate, forall_mem_cons] at hactive hcandidate
    have hrest := ih (htree.parent a k ha) (htree.parent c k hc) hmeet
      (fun d' hd' => hfirst (d' + 1) (Nat.succ_lt_succ hd')) (Nat.le_of_succ_le_succ hd)
      (forall_mem_append.mpr ⟨hactive.2, hcandidate.2⟩)
    rw [walkTogether, if_neg hne, hactive.1, hcandidate.1, forkLink_of_indexed ha]
    simp only [Option.bind_eq_bind, Option.bind_some, forkLink_of_indexed hc, hrest]
    rfl

theorem exists_first_meeting (ha : blockIndex a = some k) (hc : blockIndex c = some k) :
    ∃ d ≤ k, prevHash^[d] a = prevHash^[d] c ∧ ∀ d' < d, prevHash^[d'] a ≠ prevHash^[d'] c := by
  have hroot : ∀ {b}, blockIndex b = some k → prevHash^[k] b = genesis := by
    intro b hb
    exact htree.root _ (height_iterate htree (by rwa [Nat.zero_add]))
  have hexists : ∃ d, prevHash^[d] a = prevHash^[d] c := ⟨k, (hroot ha).trans (hroot hc).symm⟩
  classical
  exact ⟨Nat.find hexists, Nat.find_min' hexists ((hroot ha).trans (hroot hc).symm),
    Nat.find_spec hexists, fun d' hd' => Nat.find_min hexists hd'⟩

theorem forkChains_eq (ha : blockIndex a = some m) (hc : blockIndex c = some n)
    (hmeet : prevHash^[d] (prevHash^[m - n] a) = prevHash^[d] (prevHash^[n - m] c))
    (hfirst : ∀ d' < d, prevHash^[d'] (prevHash^[m - n] a) ≠ prevHash^[d'] (prevHash^[n - m] c))
    (hd : d ≤ min m n)
    (hvisit : ∀ b ∈ iterate prevHash a (m - n + d + 1) ++ iterate prevHash c (n - m + d + 1),
      visit b = some (item b)) :
    forkChains prevHash stored visit blockIndex a c =
      some ((iterate prevHash a (m - n + d + 1)).reverse.map item,
        (iterate prevHash c (n - m + d + 1)).reverse.map item) := by
  have ha' : blockIndex a = some (min m n + (m - n)) := by rw [ha]; congr 1; omega
  have hc' : blockIndex c = some (min m n + (n - m)) := by rw [hc]; congr 1; omega
  have hsplit : ∀ tip steps, iterate prevHash tip (steps + d + 1) =
      iterate prevHash tip steps ++ iterate prevHash (prevHash^[steps] tip) (d + 1) :=
    fun tip steps => by rw [Nat.add_assoc, List.iterate_add]
  rw [hsplit, hsplit] at hvisit ⊢
  rw [forall_mem_append, forall_mem_append, forall_mem_append] at hvisit
  have htogether : walkTogether prevHash stored visit (min m n) blockIndex _ _ = _ :=
    walkTogether_eq htree (height_iterate htree ha') (height_iterate htree hc') hmeet hfirst hd
      (forall_mem_append.mpr ⟨hvisit.1.2, hvisit.2.2⟩)
  rw [forkChains, forkLink_of_indexed ha]
  simp only [Option.bind_eq_bind, Option.bind_some, forkLink_of_indexed hc,
    walkDown_eq htree ha' hvisit.1.1, walkDown_eq htree hc' hvisit.2.1, htogether]
  simp only [reverse_append, map_append, map_reverse]

end Walks

/-- Fork discovery ends with the two chains from the lowest common ancestor to each tip, as hashes
and, when their bodies are stored, as blocks. -/
theorem fork_discovery_exact (prevHash : Hash → Hash) (stored : Hash → Option ℕ) (genesis : Hash)
    (blockIndex : Hash → Option ℕ) (htree : IndexTree prevHash genesis blockIndex)
    {activeTip candidateTip : Hash} {m n : ℕ} (hactive : blockIndex activeTip = some m)
    (hcandidate : blockIndex candidateTip = some n) :
    ∃ i j, i ≤ m ∧ j ≤ n ∧ prevHash^[i] activeTip = prevHash^[j] candidateTip ∧
      (∀ i' j', i' ≤ m → j' ≤ n → prevHash^[i'] activeTip = prevHash^[j'] candidateTip →
        i ≤ i' ∧ j ≤ j') ∧
      forkHashChains prevHash stored blockIndex activeTip candidateTip =
        some ((iterate prevHash activeTip (i + 1)).reverse,
          (iterate prevHash candidateTip (j + 1)).reverse) ∧
      ∀ (Block : Type) (loadReorgBlock : Hash → Option Block) (block : Hash → Block),
        (∀ b, (blockIndex b).isSome = true → loadReorgBlock b = some (block b)) →
        collectForkChains prevHash stored loadReorgBlock blockIndex activeTip candidateTip =
          some ((iterate prevHash activeTip (i + 1)).reverse.map block,
            (iterate prevHash candidateTip (j + 1)).reverse.map block) := by
  have ha : blockIndex (prevHash^[m - n] activeTip) = some (min m n) :=
    height_iterate htree (hactive.trans (congrArg some (by omega)))
  have hc : blockIndex (prevHash^[n - m] candidateTip) = some (min m n) :=
    height_iterate htree (hcandidate.trans (congrArg some (by omega)))
  obtain ⟨d, hd, hmeet, hfirst⟩ := exists_first_meeting htree ha hc
  have hindexed : ∀ {tip : Hash} {k steps : ℕ}, blockIndex tip = some k → steps ≤ k + 1 →
      ∀ b ∈ iterate prevHash tip steps, (blockIndex b).isSome = true := by
    intro tip k steps htip hsteps b hb
    obtain ⟨e, he, rfl⟩ := mem_iterate.mp hb
    have hsum : blockIndex tip = some (k - e + e) := by rw [htip, Nat.sub_add_cancel (by omega)]
    rw [height_iterate htree hsum]
    rfl
  refine ⟨m - n + d, n - m + d, by omega, by omega, ?_, ?_, ?_, ?_⟩
  · rwa [Nat.add_comm, iterate_add_apply, Nat.add_comm, iterate_add_apply]
  · intro i' j' hi hj hsame
    -- the two blocks have one height, so both walks have gone as far below the lower tip
    have hheight : m - i' = n - j' := by
      have hi' := height_iterate htree (by rw [hactive, Nat.sub_add_cancel hi])
      have hj' := height_iterate htree (by rw [hcandidate, Nat.sub_add_cancel hj])
      rw [hsame, hj', Option.some.injEq] at hi'
      exact hi'.symm
    by_contra hless
    apply hfirst (i' - (m - n)) (by omega)
    rwa [← iterate_add_apply, ← iterate_add_apply, show i' - (m - n) + (m - n) = i' by omega,
      show i' - (m - n) + (n - m) = j' by omega]
  · have hchains : forkChains prevHash stored some blockIndex activeTip candidateTip = _ :=
      forkChains_eq htree hactive hcandidate hmeet hfirst hd (fun _ _ => rfl)
    rwa [map_id', map_id'] at hchains
  · intro Block loadReorgBlock block hload
    apply forkChains_eq htree hactive hcandidate hmeet hfirst hd
    rw [forall_mem_append]
    exact ⟨fun b hb => hload b (hindexed hactive (by omega) b hb),
      fun b hb => hload b (hindexed hcandidate (by omega) b hb)⟩

/-- A tip of height 2 and one of height 1 that share only genesis. -/
def sideIndex : Hash → Option ℕ :=
  Function.update (Function.update (Function.update genesisIndex.blockIndex 2 (some 1)) 12
    (some 1)) 13 (some 2)

theorem fork_discovery_exact_fork :
    ∃ i j, forkPrev^[i] 13 = forkPrev^[j] 2 ∧
      forkHashChains forkPrev (fun _ => none) sideIndex 13 2 =
        some ((iterate forkPrev 13 (i + 1)).reverse, (iterate forkPrev 2 (j + 1)).reverse) := by
  have htree : IndexTree forkPrev 1 sideIndex :=
    ((indexTree_genesisIndex.insert (b := 2) (p := 0) rfl (by decide)).insert (b := 12) (p := 0)
      rfl (by decide)).insert (b := 13) (p := 1) rfl (by decide)
  have hactive : sideIndex 13 = some 2 := rfl
  have hcandidate : sideIndex 2 = some 1 := rfl
  obtain ⟨i, j, -, -, hmeet, -, hchains, -⟩ :=
    fork_discovery_exact forkPrev (fun _ => none) 1 sideIndex htree hactive hcandidate
  exact ⟨i, j, hmeet, hchains⟩

end BlvmNode
