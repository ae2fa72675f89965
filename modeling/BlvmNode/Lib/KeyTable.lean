import BlvmNode.Lib.RowTable

/-!
# Maps with an order of enumeration

A map from keys to values that also fixes the order in which its rows are enumerated, as a hash
map does for one run of a program. Every key has at most one row.
-/

structure KeyTable (K V : Type*) where
  rows : List (K × V)
  nodup : (rows.map Prod.fst).Nodup

namespace KeyTable

variable {K V : Type*}

def empty : KeyTable K V := ⟨[], List.nodup_nil⟩

def keys (t : KeyTable K V) : List K := t.rows.map Prod.fst

variable [DecidableEq K]

def get (t : KeyTable K V) (k : K) : Option V := t.rows.lookup k

def erase (t : KeyTable K V) (k : K) : KeyTable K V where
  rows := t.rows.filter (fun row => decide (row.1 ≠ k))
  nodup := t.nodup.sublist (List.filter_sublist.map Prod.fst)

def insert (t : KeyTable K V) (k : K) (v : V) : KeyTable K V where
  rows := (k, v) :: (t.erase k).rows
  nodup := by
    refine List.nodup_cons.mpr ⟨fun hmem => ?_, (t.erase k).nodup⟩
    obtain ⟨row, hrow, hkey⟩ := List.mem_map.mp hmem
    exact of_decide_eq_true (List.mem_filter.mp hrow).2 hkey

def mapRows (t : KeyTable K V) (f : K → V → V) : KeyTable K V where
  rows := t.rows.map (fun row => (row.1, f row.1 row.2))
  nodup := by
    rw [List.map_map]
    exact t.nodup

def retain (t : KeyTable K V) (p : K → V → Bool) : KeyTable K V where
  rows := t.rows.filter (fun row => p row.1 row.2)
  nodup := t.nodup.sublist (List.filter_sublist.map Prod.fst)

variable {t : KeyTable K V} {k : K}

theorem get_eq_some_iff {v : V} : t.get k = some v ↔ (k, v) ∈ t.rows :=
  RowTable.lookup_eq_some_iff t.nodup

@[simp] theorem get_empty (k : K) : (empty : KeyTable K V).get k = none := rfl

theorem mem_keys_iff : k ∈ t.keys ↔ (t.get k).isSome := by
  rw [Option.isSome_iff_exists, keys, List.mem_map]
  constructor
  · rintro ⟨row, hrow, rfl⟩
    exact ⟨row.2, get_eq_some_iff.mpr hrow⟩
  · rintro ⟨v, hv⟩
    exact ⟨(k, v), get_eq_some_iff.mp hv, rfl⟩

theorem get_erase (t : KeyTable K V) (k k' : K) :
    (t.erase k).get k' = if k' = k then none else t.get k' := by
  apply Option.ext
  intro v
  rw [get_eq_some_iff, erase, List.mem_filter, decide_eq_true_eq]
  split_ifs with heq
  · simp [heq]
  · rw [get_eq_some_iff]
    exact and_iff_left heq

theorem length_erase_lt {v : V} (h : t.get k = some v) :
    (t.erase k).rows.length < t.rows.length := by
  rw [erase, List.length_filter_lt_length_iff_exists]
  exact ⟨(k, v), get_eq_some_iff.mp h, by simp⟩

theorem get_foldl_erase (t : KeyTable K V) (keys : List K) (k : K) :
    (keys.foldl (fun t key => t.erase key) t).get k = if k ∈ keys then none else t.get k := by
  induction keys generalizing t with
  | nil => simp
  | cons key keys ih =>
    rw [List.foldl_cons, ih, get_erase]
    by_cases hk : k = key <;> simp [hk]

theorem get_insert (t : KeyTable K V) (k : K) (v : V) (k' : K) :
    (t.insert k v).get k' = if k' = k then some v else t.get k' := by
  apply Option.ext
  intro w
  rw [get_eq_some_iff, insert, List.mem_cons, ← get_eq_some_iff, get_erase]
  split_ifs with heq
  · subst heq
    simp [eq_comm]
  · simp [heq]

theorem rows_perm_erase {v : V} (h : t.get k = some v) :
    t.rows.Perm ((k, v) :: (t.erase k).rows) := by
  refine (List.perm_ext_iff_of_nodup t.nodup.of_map (t.insert k v).nodup.of_map).mpr ?_
  intro row
  rw [← get_eq_some_iff, ← get_eq_some_iff, get_insert]
  split_ifs with hk
  · rw [hk, h]
  · rfl

theorem get_mapRows (t : KeyTable K V) (f : K → V → V) (k : K) :
    (t.mapRows f).get k = (t.get k).map (f k) := by
  apply Option.ext
  intro w
  rw [get_eq_some_iff, mapRows, List.mem_map, Option.map_eq_some_iff]
  constructor
  · rintro ⟨row, hrow, heq⟩
    cases heq
    exact ⟨row.2, get_eq_some_iff.mpr hrow, rfl⟩
  · rintro ⟨v, hv, rfl⟩
    exact ⟨(k, v), get_eq_some_iff.mp hv, rfl⟩

theorem get_retain (t : KeyTable K V) (p : K → V → Bool) (k : K) :
    (t.retain p).get k = (t.get k).filter (p k) := by
  apply Option.ext
  intro v
  rw [get_eq_some_iff, retain, List.mem_filter, Option.filter_eq_some_iff, get_eq_some_iff]

end KeyTable
