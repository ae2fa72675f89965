import BlvmNode.OutputKV

/-! # Replies to `getheaders`

The reply starts above the first locator hash on the height index and follows the index upwards for
as long as each header extends the one before. -/

namespace BlvmNode

open List

variable (stored : ℕ → Bool)

def bisectStored : ℕ → ℕ → ℕ → ℕ
  | 0, lo, _ => lo
  | fuel + 1, lo, hi =>
    if lo + 1 < hi then
      let mid := lo + (hi - lo) / 2
      if stored mid then bisectStored fuel mid hi else bisectStored fuel lo mid
    else lo

def searchBetween (lo hi : ℕ) : ℕ := if stored hi then hi else bisectStored stored (hi - lo) lo hi

def searchFrom : ℕ → ℕ → ℕ → ℕ
  | 0, lo, hi => searchBetween stored lo hi
  | fuel + 1, lo, hi =>
    if stored hi then
      if 2 * hi > 2000000000 then searchBetween stored hi (2 * hi)
      else searchFrom fuel hi (2 * hi)
    else searchBetween stored lo hi

-- 2 ^ 31 is past the bound, so no loop takes more than 32 rounds.
def highestStoredHeight : Option ℕ :=
  if stored 0 then some (searchFrom stored 32 0 1) else none

/-- The header and height tables; the three need not agree. -/
structure HeaderTables (Header : Type) where
  hashByHeight : ℕ → Option Hash
  heightByHash : Hash → Option ℕ
  header : Hash → Option Header
  prevBlockHash : Header → Hash

namespace HeaderTables

variable {Header : Type} (t : HeaderTables Header)

def onIndex (hash : Hash) : Bool :=
  (t.heightByHash hash).any (fun h => decide (t.hashByHeight h = some hash))

/-- The loop from `height`, with the hash the next header has to extend; `fuel` counts the heights
up to the tip and `cap` the headers the reply may still take. -/
def walk (hashStop : Hash) : ℕ → ℕ → ℕ → Hash → List Header
  | 0, _, _, _ => []
  | fuel + 1, cap, height, expect =>
    if cap = 0 then []
    else match t.hashByHeight height with
      | none => []
      | some hash => match t.header hash with
        | none => []
        | some hdr =>
          if t.prevBlockHash hdr ≠ expect then []
          else if hashStop ≠ 0 ∧ hash = hashStop then [hdr]
          else hdr :: walk hashStop fuel (cap - 1) (height + 1) hash

def buildHeadersResponse (locator : List Hash) (hashStop : Hash) (maxHeaders : ℕ) : List Header :=
  match highestStoredHeight (fun h => (t.hashByHeight h).isSome) with
  | none => []
  | some tip =>
    if locator.isEmpty then
      if hashStop ≠ 0 ∧ t.onIndex hashStop then (t.header hashStop).toList else []
    else
      match locator.find? t.onIndex with
      | none => []
      | some hash =>
        let fork := (t.heightByHash hash).getD 0
        t.walk hashStop (tip - fork) (max maxHeaders 1) (fork + 1) hash

/-- Headers of consecutive heights: the first extends `prev`, each next one the hash under which the
one before it is indexed, and none follows that of the stop hash. -/
def Follows (hashStop : Hash) : ℕ → Hash → List Header → Prop
  | _, _, [] => True
  | height, prev, hdr :: rest => ∃ hash, t.hashByHeight height = some hash ∧
      t.header hash = some hdr ∧ t.prevBlockHash hdr = prev ∧
      (hashStop ≠ 0 → hash = hashStop → rest = []) ∧ Follows hashStop (height + 1) hash rest

theorem walk_follows (hashStop : Hash) (fuel cap height : ℕ) (expect : Hash) :
    (t.walk hashStop fuel cap height expect).length ≤ cap ∧
      t.Follows hashStop height expect (t.walk hashStop fuel cap height expect) := by
  induction fuel generalizing cap height expect with
  | zero => exact ⟨Nat.zero_le _, trivial⟩
  | succ fuel ih =>
    have hnil : ([] : List Header).length ≤ cap ∧ t.Follows hashStop height expect [] :=
      ⟨Nat.zero_le _, trivial⟩
    rw [walk]
    split_ifs with hcap
    · exact hnil
    split
    next => exact hnil
    next hash hhash =>
      split
      next => exact hnil
      next hdr hhdr =>
        split_ifs with hprev hstop
        · exact hnil
        · exact ⟨Nat.one_le_iff_ne_zero.mpr hcap, hash, hhash, hhdr, not_not.mp hprev,
            fun _ _ => rfl, trivial⟩
        · obtain ⟨hlen, hrest⟩ := ih (cap - 1) (height + 1) hash
          refine ⟨?_, hash, hhash, hhdr, not_not.mp hprev,
            fun h0 heq => absurd ⟨h0, heq⟩ hstop, hrest⟩
          rw [length_cons]
          omega

/-- A reply to a locator has at most `max maxHeaders 1` headers, linked upwards from the first
locator hash on the index to the stop hash at most. -/
theorem headers_reply_linked (locator : List Hash) (hashStop : Hash) (maxHeaders : ℕ)
    (hlocator : locator ≠ []) :
    (t.buildHeadersResponse locator hashStop maxHeaders).length ≤ max maxHeaders 1 ∧
      (t.buildHeadersResponse locator hashStop maxHeaders = [] ∨
        ∃ hash height, locator.find? t.onIndex = some hash ∧ t.heightByHash hash = some height ∧
          t.Follows hashStop (height + 1) hash
            (t.buildHeadersResponse locator hashStop maxHeaders)) := by
  rw [buildHeadersResponse]
  split
  next => exact ⟨Nat.zero_le _, .inl rfl⟩
  next tip _ =>
    rw [if_neg (by simpa using hlocator)]
    split
    next => exact ⟨Nat.zero_le _, .inl rfl⟩
    next hash hfind =>
      have hindex := find?_some hfind
      cases hheight : t.heightByHash hash with
      | none => simp [onIndex, hheight] at hindex
      | some height =>
        obtain ⟨hlen, hreply⟩ := t.walk_follows hashStop (tip - height) (max maxHeaders 1)
          (height + 1) hash
        exact ⟨hlen, .inr ⟨hash, height, hfind, hheight, hreply⟩⟩

theorem headers_reply_linked_genesis :
    let t : HeaderTables Hash := ⟨fun h => if h < 3 then some (BitVec.ofNat 256 (h + 5)) else none,
      fun hash => if hash = 5 then some 0 else none, fun hash => some (hash - 1), id⟩
    (t.buildHeadersResponse [5] 0 10).length ≤ max 10 1 ∧
      (t.buildHeadersResponse [5] 0 10 = [] ∨
        ∃ hash height, [5].find? t.onIndex = some hash ∧ t.heightByHash hash = some height ∧
          t.Follows 0 (height + 1) hash (t.buildHeadersResponse [5] 0 10)) :=
  headers_reply_linked _ [5] 0 10 (by decide)

/-- With the zero stop hash the reply goes on after a header that is indexed under it. -/
theorem headers_reply_past_zero :
    let hashes : List Hash := [5, 0, 7]
    let t : HeaderTables Hash := ⟨fun h => hashes[h]?,
      fun hash => if hash = 5 then some 0 else none,
      fun hash => if hash = 0 then some 5 else some 0,
      id⟩
    t.hashByHeight 1 = some 0 ∧ t.buildHeadersResponse [5] 0 10 = [5, 0] := by decide

end HeaderTables

end BlvmNode
