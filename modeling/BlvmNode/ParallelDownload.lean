import Mathlib.Tactic

/-!
# Planning the parallel download

A request for headers names the tip, the ten heights below it, and then heights whose distance
doubles. The blocks to download are cut into chunks of consecutive heights, each with a peer.
-/

namespace BlvmNode

open List

section Locator

/-- The distance of the next height after `len` heights are pushed. -/
def locatorStep (len step : ℕ) : ℕ := if 10 < len then min (step * 2) (2 ^ 64 - 1) else step

/-- The loop of `ibd_header_locator_heights` when it is about to push `h`. -/
def locatorLoop (out : List ℕ) (h step : ℕ) : List ℕ :=
  if h = 0 ∨ 32 ≤ out.length + 1 then out ++ [h]
  else
    let next := locatorStep (out.length + 1) step
    locatorLoop (out ++ [h]) (h - next) next
termination_by 32 - out.length
decreasing_by
  rw [length_append, length_singleton]
  omega

def ibdHeaderLocatorHeights (lastKnownHeight : ℕ) : List ℕ :=
  let out := locatorLoop [] lastKnownHeight 1
  if out.getLast? ≠ some 0 then out ++ [0] else out

def LocatorGap (i a b : ℕ) : Prop := b < a ∧ (i < 10 ∨ b ≠ 0 → a = b + 2 ^ (i - 9))

def LocatorGaps (heights : List ℕ) : Prop :=
  ∀ i a b, heights[i]? = some a → heights[i + 1]? = some b → LocatorGap i a b

theorem LocatorGaps.concat {out : List ℕ} {h h' : ℕ} (hout : LocatorGaps (out ++ [h]))
    (hgap : LocatorGap out.length h h') : LocatorGaps (out ++ [h] ++ [h']) := by
  intro i a b ha hb
  rcases lt_trichotomy i out.length with hlt | rfl | hgt
  · rw [getElem?_append_left (by simp; omega)] at ha hb
    exact hout i a b ha hb
  · simp at ha hb
    rwa [← ha, ← hb]
  · rw [getElem?_eq_none (by simp; omega)] at hb
    cases hb

theorem locatorStep_eq {n : ℕ} (h : n < 32) : locatorStep (n + 1) (2 ^ (n - 10)) = 2 ^ (n - 9) := by
  rw [locatorStep]
  split_ifs with hfar
  · have hdouble : 2 ^ (n - 10) * 2 = 2 ^ (n - 9) := by
      rw [← pow_succ]
      congr 1
      omega
    have hle : 2 ^ (n - 9) ≤ 2 ^ 22 := Nat.pow_le_pow_right (by decide) (by omega)
    omega
  · rw [Nat.sub_eq_zero_of_le (by omega), Nat.sub_eq_zero_of_le (by omega)]

theorem locatorLoop_spec (out : List ℕ) (h step : ℕ) (hlen : out.length < 32)
    (hstep : step = 2 ^ (out.length - 10)) (hgaps : LocatorGaps (out ++ [h])) :
    ∃ front last, locatorLoop out h step = front ++ [last] ∧ (out ++ [h]) <+: (front ++ [last]) ∧
      LocatorGaps (front ++ [last]) ∧ front.length < 32 ∧ (last = 0 ∨ front.length = 31) := by
  fun_induction locatorLoop out h step with
  | case1 out h step hstop =>
    exact ⟨out, h, rfl, prefix_refl _, hgaps, hlen, by omega⟩
  | case2 out h step hstop next ih =>
    have hnext : next = 2 ^ (out.length - 9) := by
      rw [← locatorStep_eq hlen, ← hstep]
    have hpos : 0 < next := hnext ▸ Nat.two_pow_pos _
    have hone : out.length < 10 → next = 1 := by
      intro hnear
      rw [hnext, Nat.sub_eq_zero_of_le (by omega), pow_zero]
    obtain ⟨front, last, hloop, hfront, hrest⟩ := ih (by simp; omega)
      (by rw [hnext, length_append, length_singleton]; congr 1)
      (hgaps.concat ⟨by omega, by rw [← hnext]; omega⟩)
    exact ⟨front, last, hloop, (prefix_append _ _).trans hfront, hrest⟩

/-- For every tip: the heights fall strictly from the tip to 0, at most 33 of them, with gaps 1 for
ten steps and then doubling, except that the last step goes to 0. -/
theorem locator_heights_well_formed (tip : ℕ) :
    let heights := ibdHeaderLocatorHeights tip
    heights.Pairwise (· > ·) ∧ heights.head? = some tip ∧ heights.getLast? = some 0 ∧
      heights.length ≤ 33 ∧ ∀ i a b, heights[i]? = some a → heights[i + 1]? = some b →
        i < 10 ∨ b ≠ 0 → a = b + 2 ^ (i - 9) := by
  intro heights
  obtain ⟨front, last, hloop, hfront, hgaps, hlen, hlast⟩ :=
    locatorLoop_spec [] tip 1 (by decide) rfl (fun i a b _ hb => by simp at hb)
  have hheights : ∃ front, heights = front ++ [0] ∧ [tip] <+: (front ++ [0]) ∧
      LocatorGaps (front ++ [0]) ∧ front.length < 33 := by
    simp only [heights, ibdHeaderLocatorHeights, hloop, getLast?_concat]
    by_cases hzero : last = 0
    · subst hzero
      exact ⟨front, if_neg (not_not.mpr rfl), hfront, hgaps, by omega⟩
    · refine ⟨front ++ [last], if_pos (by simpa using hzero), hfront.trans (prefix_append _ _),
        hgaps.concat ⟨Nat.pos_of_ne_zero hzero, by omega⟩, by simp; omega⟩
  obtain ⟨front, heq, hfront, hgaps, hlen⟩ := hheights
  rw [heq]
  refine ⟨?_, ?_, getLast?_concat, by simp; omega, fun i a b ha hb => (hgaps i a b ha hb).2⟩
  · rw [← isChain_iff_pairwise, isChain_iff_getElem]
    intro i hi
    exact (hgaps i _ _ (getElem?_eq_getElem _) (getElem?_eq_getElem hi)).1
  · obtain ⟨rest, hrest⟩ := hfront
    rw [← hrest]
    rfl

end Locator

section Chunks

structure ParallelIBDConfig where
  mode : String
  earliestFirst : Bool
  chunkSize : ℕ

structure BlockChunk where
  startHeight : ℕ
  endHeight : ℕ
  peerId : String
  deriving DecidableEq

variable {F : Type} (partialCmp : F → F → Option Ordering)

/-- `max_by` over the scores: of equal or incomparable ones the later peer. -/
def maxByScore : List (String × F) → Option (String × F)
  | [] => none
  | s :: scored => some (scored.foldl (fun best s =>
      if (partialCmp best.2 s.2).getD .eq = .gt then best else s) s)

variable (config : ParallelIBDConfig) (startHeight endHeight : ℕ) (peerIds : List String)
  (scoredPeers : Option (List (String × F)))

def fastestPeer : Option String :=
  if (config.mode.toLower = "earliest" ∨ config.earliestFirst) ∧ 1 < max peerIds.length 1 ∧
      (scoredPeers.map (fun scored => !scored.isEmpty)).getD false then
    (scoredPeers.bind (maxByScore partialCmp)).map Prod.fst
  else none

def chunkPeer (chunkIndex : ℕ) : String :=
  (fastestPeer partialCmp config peerIds scoredPeers).getD
    (peerIds[chunkIndex % max peerIds.length 1]?.getD "")

/-- The end of the chunk at a height, in 64-bit arithmetic; the first 128 blocks are one chunk. -/
def chunkEnd (currentHeight : ℕ) : ℕ :=
  let chunkSz := if currentHeight = 0 ∧ startHeight = 0 then min 128 (endHeight + 1)
    else config.chunkSize
  min ((currentHeight + chunkSz + (2 ^ 64 - 1)) % 2 ^ 64) endHeight

/-- The `while` loop; `none` when the fuel runs out. -/
def chunkLoop (peer : ℕ → String) : ℕ → ℕ → ℕ → Option (List BlockChunk)
  | 0, _, _ => none
  | fuel + 1, current, chunkIndex =>
    if current ≤ endHeight then
      (chunkLoop peer fuel ((chunkEnd config startHeight endHeight current + 1) % 2 ^ 64)
        (chunkIndex + 1)).map
          (⟨current, chunkEnd config startHeight endHeight current, peer chunkIndex⟩ :: ·)
    else some []

def createChunks (fuel : ℕ) : Option (List BlockChunk) :=
  chunkLoop config startHeight endHeight (chunkPeer partialCmp config peerIds scoredPeers) fuel
    startHeight 0

def BlockChunk.heights (c : BlockChunk) : List ℕ :=
  List.range' c.startHeight (c.endHeight + 1 - c.startHeight)

variable {partialCmp config startHeight endHeight peerIds scoredPeers}

theorem maxByScore_mem {scored : List (String × F)} {best : String × F}
    (h : maxByScore partialCmp scored = some best) : best ∈ scored := by
  cases scored with
  | nil => cases h
  | cons s scored =>
    rw [maxByScore, Option.some.injEq] at h
    rw [← h]
    refine foldlRecOn scored _ mem_cons_self fun best hbest s' hs' => ?_
    split_ifs
    · exact hbest
    · exact mem_cons_of_mem _ hs'

theorem chunkPeer_nil (chunkIndex : ℕ) :
    chunkPeer partialCmp config [] scoredPeers chunkIndex = "" := by
  simp [chunkPeer, fastestPeer]

theorem chunkPeer_mem (h : peerIds ≠ []) (chunkIndex : ℕ) :
    chunkPeer partialCmp config peerIds scoredPeers chunkIndex ∈ peerIds ∨
      ∃ scored ∈ scoredPeers, ∃ s ∈ scored,
        s.1 = chunkPeer partialCmp config peerIds scoredPeers chunkIndex := by
  rw [chunkPeer]
  cases hfastest : fastestPeer partialCmp config peerIds scoredPeers with
  | none =>
    have hpos := length_pos_iff.mpr h
    have hlt : chunkIndex % max peerIds.length 1 < peerIds.length := by
      rw [max_eq_left hpos]
      exact Nat.mod_lt _ hpos
    rw [Option.getD_none, getElem?_eq_getElem hlt]
    exact .inl (getElem_mem hlt)
  | some peer =>
    rw [fastestPeer] at hfastest
    split_ifs at hfastest
    obtain ⟨best, hbest, rfl⟩ := Option.map_eq_some_iff.mp hfastest
    obtain ⟨scored, hscored, hmax⟩ := Option.bind_eq_some_iff.mp hbest
    exact .inr ⟨scored, hscored, best, maxByScore_mem hmax, rfl⟩

section Cut

variable (hend : endHeight < 2 ^ 64 - 1) (hsize : 1 ≤ config.chunkSize)
  (hfit : ∀ h, startHeight ≤ h → h ≤ endHeight → h + config.chunkSize < 2 ^ 64)
  {peer : ℕ → String} {fuel current chunkIndex : ℕ} (hstart : startHeight ≤ current)
include hend hsize hfit hstart

theorem chunkEnd_spec (hcurrent : current ≤ endHeight) :
    current ≤ chunkEnd config startHeight endHeight current ∧
      chunkEnd config startHeight endHeight current ≤ endHeight ∧
      chunkEnd config startHeight endHeight current + 1 - current ≤ max config.chunkSize 128 := by
  have hno := hfit current hstart hcurrent
  simp only [chunkEnd]
  split_ifs <;> omega

theorem chunkLoop_spec (hfuel : endHeight + 1 - current < fuel)
    (hcurrent : current ≤ endHeight + 1) :
    ∃ chunks, chunkLoop config startHeight endHeight peer fuel current chunkIndex = some chunks ∧
      chunks.flatMap BlockChunk.heights = range' current (endHeight + 1 - current) ∧
      ∀ c ∈ chunks, c.startHeight ≤ c.endHeight ∧
        c.endHeight + 1 - c.startHeight ≤ max config.chunkSize 128 ∧ ∃ i, peer i = c.peerId := by
  induction fuel generalizing current chunkIndex with
  | zero => omega
  | succ fuel ih =>
    rw [chunkLoop]
    split_ifs with hmore
    · obtain ⟨hlow, hhigh, hlen⟩ := chunkEnd_spec hend hsize hfit hstart hmore
      generalize chunkEnd config startHeight endHeight current = last at *
      rw [Nat.mod_eq_of_lt (by omega)]
      obtain ⟨chunks, hchunks, hheights, hall⟩ :=
        @ih (last + 1) (chunkIndex + 1) (by omega) (by omega) (by omega)
      refine ⟨_ :: chunks, by rw [hchunks, Option.map_some], ?_,
        forall_mem_cons.mpr ⟨⟨hlow, hlen, chunkIndex, rfl⟩, hall⟩⟩
      have hsplit := @range'_append_1 current (last + 1 - current) (endHeight - last)
      have htotal : last + 1 - current + (endHeight - last) = endHeight + 1 - current := by omega
      rw [Nat.add_sub_cancel' (by omega), htotal] at hsplit
      rw [flatMap_cons, hheights, BlockChunk.heights, Nat.add_sub_add_right, hsplit]
    · refine ⟨[], rfl, ?_, nofun⟩
      rw [Nat.sub_eq_zero_of_le (by omega)]
      rfl

end Cut

/-- The heights of the chunks, in order, are those from `startHeight` to `endHeight`, so each is in
one chunk. With no peer in the list the chunks name no peer. -/
theorem create_chunks_partition (partialCmp : F → F → Option Ordering) (config : ParallelIBDConfig)
    (startHeight endHeight : ℕ) (hle : startHeight ≤ endHeight) (hend : endHeight < 2 ^ 64 - 1)
    (hsize : 1 ≤ config.chunkSize)
    (hfit : ∀ h, startHeight ≤ h → h ≤ endHeight → h + config.chunkSize < 2 ^ 64)
    (peerIds : List String) (scoredPeers : Option (List (String × F))) (fuel : ℕ)
    (hfuel : endHeight + 1 - startHeight < fuel) :
    ∃ chunks, createChunks partialCmp config startHeight endHeight peerIds scoredPeers fuel =
        some chunks ∧
      chunks.flatMap BlockChunk.heights = range' startHeight (endHeight + 1 - startHeight) ∧
      ∀ c ∈ chunks, c.startHeight ≤ c.endHeight ∧
        c.endHeight + 1 - c.startHeight ≤ max config.chunkSize 128 ∧
        if peerIds = [] then c.peerId = ""
        else c.peerId ∈ peerIds ∨ ∃ scored ∈ scoredPeers, ∃ s ∈ scored, s.1 = c.peerId := by
  obtain ⟨chunks, hchunks, hheights, hall⟩ := chunkLoop_spec hend hsize hfit le_rfl hfuel
    (Nat.le_succ_of_le hle)
  refine ⟨chunks, hchunks, hheights, fun c hc => ?_⟩
  obtain ⟨hnonempty, hlen, i, hpeer⟩ := hall c hc
  refine ⟨hnonempty, hlen, ?_⟩
  rw [← hpeer]
  split_ifs with hnone
  · rw [hnone, chunkPeer_nil]
  · exact chunkPeer_mem hnone i

theorem create_chunks_partition_small :
    ∃ chunks, createChunks (fun a b : ℕ => some (compare a b)) ⟨"", false, 100⟩ 0 300 ["a", "b"]
        none 400 = some chunks ∧
      chunks.flatMap BlockChunk.heights = range' 0 301 := by
  obtain ⟨chunks, hchunks, hheights, -⟩ := create_chunks_partition
    (fun a b : ℕ => some (compare a b)) ⟨"", false, 100⟩ 0 300 (by decide) (by decide) (by decide)
    (fun h _ hh => by dsimp only; omega) ["a", "b"] none 400 (by decide)
  exact ⟨chunks, hchunks, hheights⟩

/-- No peer is listed, and the chunk does not go to the one that has a score. -/
theorem unlisted_scored_peer_unused :
    createChunks (fun a b : ℕ => some (compare a b)) ⟨"earliest", true, 100⟩ 5 6 []
      (some [("a", 1)]) 4 = some [⟨5, 6, ""⟩] := by
  simp [createChunks, chunkLoop, chunkEnd, chunkPeer_nil]

end Chunks

end BlvmNode
