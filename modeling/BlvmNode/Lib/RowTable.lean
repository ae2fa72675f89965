import Mathlib.Algebra.Group.TypeTags.Basic
import Mathlib.Algebra.BigOperators.Group.List.Basic
import Mathlib.Tactic

/-!
# Tables of rows and hashes of their contents

A table is a list of rows with distinct keys; storing a row replaces the row of its key. A
commutative hash of a stream is the product of its elements; over all commutative groups together it
determines the stream up to order.
-/

namespace RowTable

open List

section Rows

variable {K V : Type*} [DecidableEq K]

def put (table : List (K × V)) (row : K × V) : List (K × V) :=
  row :: table.filter (fun r => decide (r.1 ≠ row.1))

def putAll (table rows : List (K × V)) : List (K × V) := rows.foldl put table

/-- Neighbours with one key become one row, the last of them; the second part counts the rows
that went. -/
def collapse : List (K × V) → List (K × V) × ℕ
  | [] => ([], 0)
  | [row] => ([row], 0)
  | row :: next :: rows =>
    let res := collapse (next :: rows)
    if row.1 = next.1 then (res.1, res.2 + 1) else (row :: res.1, res.2)

variable {table : List (K × V)} {row : K × V} {k : K} {rows : List (K × V)}

theorem put_of_notMem (h : row.1 ∉ table.map Prod.fst) : put table row = row :: table := by
  rw [put, filter_eq_self.mpr]
  intro r hr
  simp only [decide_eq_true_eq]
  exact fun heq => h (heq ▸ mem_map_of_mem hr)

theorem putAll_perm (h : ((rows ++ table).map Prod.fst).Nodup) :
    (putAll table rows).Perm (rows ++ table) := by
  induction rows generalizing table with
  | nil => exact Perm.refl table
  | cons row rows ih =>
    have hmid : (row :: (rows ++ table)).Perm (rows ++ row :: table) :=
      perm_middle.symm
    rw [cons_append, map_cons, nodup_cons] at h
    have hnew : row.1 ∉ table.map Prod.fst := by
      intro hmem
      apply h.1
      rw [map_append]
      exact mem_append_right _ hmem
    rw [putAll, foldl_cons, put_of_notMem hnew]
    refine (ih ?_).trans hmid.symm
    rw [← (hmid.map Prod.fst).nodup_iff]
    exact nodup_cons.mpr h

theorem mem_keys_put : k ∈ (put table row).map Prod.fst ↔ k ∈ table.map Prod.fst ∨ k = row.1 := by
  simp only [put, map_cons, mem_cons, mem_map, mem_filter, decide_eq_true_eq]
  constructor
  · rintro (rfl | ⟨r, ⟨hr, -⟩, rfl⟩)
    · exact .inr rfl
    · exact .inl ⟨r, hr, rfl⟩
  · rintro (⟨r, hr, rfl⟩ | rfl)
    · by_cases hk : r.1 = row.1
      · exact .inl hk
      · exact .inr ⟨r, ⟨hr, hk⟩, rfl⟩
    · exact .inl rfl

theorem mem_keys_putAll :
    k ∈ (putAll table rows).map Prod.fst ↔ k ∈ table.map Prod.fst ∨ k ∈ rows.map Prod.fst := by
  induction rows generalizing table with
  | nil => simp [putAll]
  | cons row rows ih =>
    rw [putAll, foldl_cons, ← putAll, ih, mem_keys_put, map_cons, mem_cons, or_assoc]

theorem lookup_eq_some_iff (h : (table.map Prod.fst).Nodup) {v : V} :
    table.lookup k = some v ↔ (k, v) ∈ table := by
  rw [List.lookup_eq_some_iff]
  constructor
  · rintro ⟨front, back, rfl, -⟩
    exact mem_append_right front mem_cons_self
  · intro hmem
    obtain ⟨front, back, rfl⟩ := append_of_mem hmem
    rw [map_append, nodup_append] at h
    refine ⟨front, back, rfl, fun row hrow => ?_⟩
    simpa using (h.2.2 row.1 (mem_map_of_mem hrow) k mem_cons_self).symm

theorem lookup_map {K' V' : Type*} [DecidableEq K'] {f : K → K'} (hf : Function.Injective f)
    (g : V → V') (table : List (K × V)) (k : K) :
    (table.map (fun row => (f row.1, g row.2))).lookup (f k) = (table.lookup k).map g := by
  induction table with
  | nil => rfl
  | cons row table ih =>
    rw [map_cons, lookup_cons, lookup_cons]
    by_cases hk : k = row.1
    · simp only [hk, beq_self_eq_true, Option.map_some]
    · have hbeq : (k == row.1) = false := beq_eq_false_iff_ne.mpr hk
      have hbeq' : (f k == f row.1) = false := beq_eq_false_iff_ne.mpr (fun h => hk (hf h))
      rw [hbeq, hbeq']
      exact ih

theorem lookup_eq_of_perm {table' : List (K × V)} (hperm : table.Perm table')
    (h : (table.map Prod.fst).Nodup) (k : K) : table.lookup k = table'.lookup k := by
  apply Option.ext
  intro v
  have h' := (hperm.map Prod.fst).nodup_iff.mp h
  rw [lookup_eq_some_iff h, lookup_eq_some_iff h', hperm.mem_iff]

theorem putAll_nil_perm (h : (rows.map Prod.fst).Nodup) : (putAll [] rows).Perm rows := by
  have hperm := @putAll_perm K V _ [] rows (by rwa [append_nil])
  rwa [append_nil] at hperm

theorem collapse_subset (h : row ∈ (collapse rows).1) : row ∈ rows := by
  fun_induction collapse rows with
  | case1 | case2 => exact h
  | case3 first next rows res heq ih => exact mem_cons_of_mem first (ih h)
  | case4 first next rows res hne ih =>
    rcases mem_cons.mp h with rfl | h
    · exact mem_cons_self
    · exact mem_cons_of_mem first (ih h)

theorem mem_keys_collapse (rows : List (K × V)) :
    ∀ row ∈ rows, ∃ last ∈ (collapse rows).1, last.1 = row.1 := by
  fun_induction collapse rows with
  | case1 => simp
  | case2 row => exact fun other hother => ⟨other, hother, rfl⟩
  | case3 first next rows res heq ih =>
    rw [forall_mem_cons]
    refine ⟨?_, ih⟩
    obtain ⟨last, hlast, hkey⟩ := ih next mem_cons_self
    exact ⟨last, hlast, hkey.trans heq.symm⟩
  | case4 first next rows res hne ih =>
    rw [forall_mem_cons]
    refine ⟨⟨first, mem_cons_self, rfl⟩, fun row hrow => ?_⟩
    obtain ⟨last, hlast, hkey⟩ := ih row hrow
    exact ⟨last, mem_cons_of_mem first hlast, hkey⟩

section Together

variable {r : K × V → K × V → Prop} (htogether : ∀ a b c, r a b → r b c → a.1 = c.1 → a.1 = b.1)
include htogether

omit [DecidableEq K] in
/-- Rows of one key are neighbours, so a key that differs from the next one is gone for good. -/
theorem ne_of_first_ne {first next : K × V} (hsorted : (first :: next :: rows).Pairwise r)
    (hne : first.1 ≠ next.1) : ∀ other ∈ next :: rows, first.1 ≠ other.1 := by
  rw [pairwise_cons] at hsorted
  intro other hother hsame
  rcases mem_cons.mp hother with rfl | htail
  · exact hne hsame
  · exact hne (htogether first next other (hsorted.1 next mem_cons_self)
      ((pairwise_cons.mp hsorted.2).1 other htail) hsame)

theorem collapse_last (hsorted : rows.Pairwise r) {last : K × V} (hlast : last ∈ (collapse rows).1)
    (hrow : row ∈ rows) (hkey : row.1 = last.1) : row = last ∨ r row last := by
  fun_induction collapse rows with
  | case1 => cases hrow
  | case2 => exact .inl ((mem_singleton.mp hrow).trans (mem_singleton.mp hlast).symm)
  | case3 first next rows res heq ih =>
    rw [pairwise_cons] at hsorted
    rcases mem_cons.mp hrow with rfl | hrow
    · exact .inr (hsorted.1 last (collapse_subset hlast))
    · exact ih hsorted.2 hlast hrow
  | case4 first next rows res hne ih =>
    have hfirst := ne_of_first_ne htogether hsorted hne
    rcases mem_cons.mp hlast with rfl | hlater
    · rcases mem_cons.mp hrow with rfl | htail
      · exact .inl rfl
      · exact absurd hkey.symm (hfirst row htail)
    · rcases mem_cons.mp hrow with rfl | htail
      · exact absurd hkey (hfirst last (collapse_subset hlater))
      · exact ih (pairwise_cons.mp hsorted).2 hlater htail

theorem nodup_keys_collapse (hsorted : rows.Pairwise r) :
    ((collapse rows).1.map Prod.fst).Nodup := by
  fun_induction collapse rows with
  | case1 => exact nodup_nil
  | case2 row => exact nodup_singleton _
  | case3 first next rows res heq ih => exact ih (pairwise_cons.mp hsorted).2
  | case4 first next rows res hne ih =>
    rw [map_cons, nodup_cons]
    refine ⟨?_, ih (pairwise_cons.mp hsorted).2⟩
    intro hmem
    obtain ⟨other, hother, hsame⟩ := mem_map.mp hmem
    exact ne_of_first_ne htogether hsorted hne other (collapse_subset hother) hsame.symm

end Together

theorem length_collapse (rows : List (K × V)) :
    (collapse rows).1.length + (collapse rows).2 = rows.length := by
  fun_induction collapse rows with
  | case1 | case2 => rfl
  | case3 first next rows res heq ih =>
    rw [length_cons, ← ih]
    exact (Nat.add_assoc _ _ 1).symm
  | case4 first next rows res hne ih =>
    rw [length_cons, length_cons, ← ih]
    exact Nat.add_right_comm _ 1 _

theorem put_put {next : K × V} (h : row.1 = next.1) (table : List (K × V)) :
    put (put table row) next = put table next := by
  simp [put, h]

theorem putAll_collapse (table rows : List (K × V)) :
    putAll table (collapse rows).1 = putAll table rows := by
  fun_induction collapse rows generalizing table with
  | case1 | case2 => rfl
  | case3 first next rows res heq ih =>
    rw [ih, putAll, putAll, foldl_cons, foldl_cons, foldl_cons, put_put heq]
  | case4 first next rows res hne ih => exact ih (put table first)

theorem collapse_of_nodup (h : (rows.map Prod.fst).Nodup) : collapse rows = (rows, 0) := by
  induction rows with
  | nil => rfl
  | cons row rows ih =>
    cases rows with
    | nil => rfl
    | cons next rows =>
      rw [map_cons, nodup_cons] at h
      have hne : row.1 ≠ next.1 := fun heq => h.1 (heq ▸ mem_cons_self)
      simp only [collapse, if_neg hne, ih h.2]

end Rows

section Hash

/-- Streams that no commutative hash tells apart are permutations of each other. -/
theorem perm_of_prod_eq {α : Type*} {l m : List α}
    (h : ∀ (G : Type) [CommGroup G] (f : α → G), (l.map f).prod = (m.map f).prod) : l.Perm m := by
  classical
  rw [perm_iff_count]
  intro a
  have heq := h (Multiplicative ℤ) (fun x => if x = a then Multiplicative.ofAdd (1 : ℤ) else 1)
  rw [prod_map_ite_eq, prod_map_ite_eq] at heq
  simpa [← ofAdd_nsmul] using heq

end Hash

/-- The list in pieces of `size`; `fuel` bounds their number. -/
def cutList {α : Type*} (size : ℕ) : ℕ → List α → List (List α)
  | 0, _ => []
  | fuel + 1, l => if l.isEmpty then [] else l.take size :: cutList size fuel (l.drop size)

theorem cutList_flatten {α : Type*} {size fuel : ℕ} (hs : 0 < size) {l : List α}
    (hf : l.length ≤ fuel) : (cutList size fuel l).flatten = l := by
  induction fuel generalizing l with
  | zero => exact (length_eq_zero_iff.mp (Nat.le_zero.mp hf)).symm
  | succ fuel ih =>
    simp only [cutList]
    split_ifs with he
    · exact (isEmpty_iff.mp he).symm
    · have hlen : 0 < l.length := length_pos_iff.mpr (by simpa using he)
      rw [flatten_cons, ih (by rw [length_drop]; omega), take_append_drop]

end RowTable
