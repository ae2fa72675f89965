import BlvmNode.Lib.PrefixDirectory

/-!
# Narrowing a sorted list page by page

A search over a long span that reads one page at a time and compares the first and the last key of
the page. It stops at the first page that encloses the key sought and returns the pages next to it
as well, so all entries of the key are found if they fit on one page.
-/

namespace PageSearch

open List PrefixDirectory

variable {α : Type*} (key : α → ℕ) (k page : ℕ) (l : List α)

def narrowLoop : ℕ → ℕ → ℕ → ℕ × ℕ
  | 0, a, b => (a, b)
  | fuel + 1, a, b =>
    if b - a ≤ 3 * page then (a, b)
    else
      let mid := a + (b - a) / 2 / page * page
      let midEnd := min (mid + page) b
      match l[mid]?, l[midEnd - 1]? with
      | some first, some last =>
        if key last < k then narrowLoop fuel midEnd b
        else if k < key first then narrowLoop fuel a mid
        else (mid, midEnd)
      | _, _ => (a, b)

/-- Each round drops a page, so the length of the span is fuel enough. -/
def narrow (lo hi : ℕ) : ℕ × ℕ :=
  let page := max page 1
  let found := narrowLoop key k page l (hi - lo) lo hi
  (max (found.1 - page) lo, min (found.2 + page) hi)

variable {key k page l}

section

variable (hs : l.Pairwise (fun x y => key x ≤ key y))
include hs

theorem lt_countP_iff {i : ℕ} {x : α} (hx : l[i]? = some x) :
    i < l.countP (fun x => decide (key x < k)) ↔ key x < k := by
  induction l generalizing i with
  | nil => cases hx
  | cons e es ih =>
    have hhead : ∀ x ∈ es, key e ≤ key x := fun x hx => rel_of_pairwise_cons hs hx
    by_cases he : key e < k
    · rw [countP_cons_of_pos (by simpa using he)]
      cases i with
      | zero =>
        obtain rfl := Option.some.inj hx
        simp [he]
      | succ i => rw [Nat.add_lt_add_iff_right, ih hs.tail hx]
    · rw [countP_eq_zero_of_le (not_lt.mp he) hhead]
      have hle : key e ≤ key x := by
        rcases mem_cons.mp (mem_of_getElem? hx) with rfl | hmem
        · exact le_rfl
        · exact hhead x hmem
      omega

theorem narrowLoop_encloses (fuel : ℕ) {a b : ℕ} (ha : a ≤ l.countP (fun x => decide (key x < k)))
    (hb : l.countP (fun x => decide (key x < k + 1)) ≤ b)
    (hfit : l.countP (fun x => decide (key x < k + 1)) ≤
      l.countP (fun x => decide (key x < k)) + page) :
    (narrowLoop key k page l fuel a b).1 ≤ l.countP (fun x => decide (key x < k)) + page ∧
      l.countP (fun x => decide (key x < k + 1)) ≤
        (narrowLoop key k page l fuel a b).2 + page := by
  have hspan : a ≤ l.countP (fun x => decide (key x < k)) + page ∧
      l.countP (fun x => decide (key x < k + 1)) ≤ b + page := ⟨by omega, by omega⟩
  induction fuel generalizing a b with
  | zero => exact hspan
  | succ fuel ih =>
    rw [narrowLoop]
    split_ifs
    · exact hspan
    · dsimp only
      split
      · next first last hfirst hlast =>
        have hbelow := lt_countP_iff (k := k) hs hlast
        have habove := lt_countP_iff (k := k + 1) hs hfirst
        -- the first page that encloses the key may cut its entries on both sides
        split_ifs with hlow hhigh
        · exact ih (by omega) hb ⟨by omega, by omega⟩
        · exact ih ha (by omega) ⟨by omega, by omega⟩
        · dsimp only
          omega
      · exact hspan

theorem filter_narrow {lo hi : ℕ} (hlo : lo ≤ l.countP (fun x => decide (key x < k)))
    (hhi : l.countP (fun x => decide (key x < k + 1)) ≤ hi)
    (hfit : (l.filter (fun x => decide (key x = k))).length ≤ page) :
    (slice (narrow key k page l lo hi).1 (narrow key k page l lo hi).2 l).filter
      (fun x => decide (key x = k)) = l.filter (fun x => decide (key x = k)) := by
  have hown := slice_countP l k hs
  have hlength : l.countP (fun x => decide (key x < k + 1)) ≤
      l.countP (fun x => decide (key x < k)) + max page 1 := by
    have hle : l.countP (fun x => decide (key x < k + 1)) ≤ l.length := countP_le_length
    rw [← hown, slice, length_drop, length_take, min_eq_left hle] at hfit
    omega
  obtain ⟨hfirst, hlast⟩ := narrowLoop_encloses hs (hi - lo) hlo hhi hlength
  refine (((take_sublist _ _).drop _).trans (drop_sublist _ _)).filter _ |>.antisymm ?_
  have hsub : (slice (l.countP (fun x => decide (key x < k)))
      (l.countP (fun x => decide (key x < k + 1))) l).Sublist
        (slice (narrow key k page l lo hi).1 (narrow key k page l lo hi).2 l) := by
    refine (drop_sublist_drop_left _ ?_).trans ((take_prefix_take_left ?_).sublist.drop _)
    · simp only [narrow]
      omega
    · simp only [narrow]
      omega
  have hfilter := hsub.filter (fun x => decide (key x = k))
  rwa [hown, filter_filter, filter_congr (fun x _ => Bool.and_self _)] at hfilter

end

end PageSearch
