import BlvmNode.Lib.RowTable

/-!
# Collected writes and their undoing

Writes to a keyed store that are first collected in a table, last write wins, and then applied
together give the store that the single writes would have given. A sequence of fallible steps
that each fit the state they are taken from is undone by the inverse steps in reverse.
-/

namespace NetWrites

open List Function RowTable

section Store

variable {K V : Type*} [DecidableEq K]

/-- Writes the rows in order; `none` deletes. -/
def applyRows (store : K → Option V) : List (K × Option V) → K → Option V
  | [] => store
  | row :: rows => applyRows (Function.update store row.1 row.2) rows

variable {store : K → Option V} {k : K} {rows : List (K × Option V)}

theorem applyRows_cases (store : K → Option V) (rows : List (K × Option V)) (k : K) :
    k ∉ rows.map Prod.fst ∧ applyRows store rows k = store k ∨
      (k, applyRows store rows k) ∈ rows := by
  induction rows generalizing store with
  | nil => exact .inl ⟨not_mem_nil, rfl⟩
  | cons row rows ih =>
    rw [applyRows]
    rcases ih (update store row.1 row.2) with ⟨hnot, hsame⟩ | hmem
    · rw [hsame, map_cons, mem_cons]
      by_cases hk : k = row.1
      · rw [hk, update_self]
        exact .inr mem_cons_self
      · exact .inl ⟨not_or.mpr ⟨hk, hnot⟩, update_of_ne hk _ _⟩
    · exact .inr (mem_cons_of_mem _ hmem)

theorem applyRows_of_notMem (h : k ∉ rows.map Prod.fst) : applyRows store rows k = store k :=
  ((applyRows_cases store rows k).resolve_right fun hmem => h (mem_map_of_mem hmem)).2

/-- What stands at a key afterwards does not depend on the other keys of the store. -/
theorem applyRows_congr {store' : K → Option V} (h : store k = store' k)
    (rows : List (K × Option V)) : applyRows store rows k = applyRows store' rows k := by
  induction rows generalizing store store' with
  | nil => exact h
  | cons row rows ih =>
    apply ih
    rw [update_apply, update_apply, h]

theorem mem_of_applyRows {v : V}
    (h : applyRows store rows k = some v) : store k = some v ∨ (k, some v) ∈ rows := by
  rcases applyRows_cases store rows k with ⟨-, hsame⟩ | hmem
  · exact .inl (hsame.symm.trans h)
  · exact .inr (h ▸ hmem)

theorem applyRows_filter_ne {k' : K} (h : k' ≠ k) (rows : List (K × Option V)) :
    applyRows store (rows.filter (fun r => decide (r.1 ≠ k))) k' = applyRows store rows k' := by
  induction rows generalizing store with
  | nil => rfl
  | cons row rows ih =>
    by_cases hrow : row.1 = k
    · rw [filter_cons_of_neg (by simpa using hrow), ih]
      apply applyRows_congr
      rw [hrow, update_of_ne h]
    · rw [filter_cons_of_pos (by simpa using hrow)]
      exact ih

theorem applyRows_put (store : K → Option V) (rows : List (K × Option V)) (k : K) (v : Option V) :
    applyRows store (put rows (k, v)) = update (applyRows store rows) k v := by
  funext k'
  have hput : applyRows store (put rows (k, v)) =
      applyRows (update store k v) (rows.filter (fun r => decide (r.1 ≠ k))) := rfl
  rw [hput]
  by_cases hk : k' = k
  · have hnot : k' ∉ (rows.filter (fun r => decide (r.1 ≠ k))).map Prod.fst := by
      simp [hk]
    rw [applyRows_of_notMem hnot, hk, update_self, update_self]
  · rw [applyRows_filter_ne hk, update_of_ne hk]
    apply applyRows_congr
    rw [update_of_ne hk]

end Store

theorem nodup_put {K V : Type*} [DecidableEq K] {rows : List (K × V)}
    (h : (rows.map Prod.fst).Nodup) (row : K × V) : ((put rows row).map Prod.fst).Nodup := by
  rw [put, map_cons, nodup_cons]
  constructor
  · simp
  · exact h.sublist (filter_sublist.map Prod.fst)

section Undo

variable {σ τ ι : Type*}

theorem foldlM_map {step : σ → ι → Option σ} {step' : τ → ι → Option τ} {view : σ → τ}
    (h : ∀ st i, (step st i).map view = step' (view st) i) (st : σ) (is : List ι) :
    (is.foldlM step st).map view = is.foldlM step' (view st) := by
  induction is generalizing st with
  | nil => rfl
  | cons i is ih =>
    rw [foldlM_cons, foldlM_cons, ← h st i]
    cases step st i with
    | none => rfl
    | some mid => exact ih mid

def FitsAlong (step : σ → ι → Option σ) (fits : σ → ι → Prop) : σ → List ι → Prop
  | _, [] => True
  | st, i :: is => fits st i ∧ ∀ st', step st i = some st' → FitsAlong step fits st' is

variable {step : σ → ι → Option σ} {fits : σ → ι → Prop} {inv : ι → ι}

theorem fitsAlong_append {st : σ} {is js : List ι} :
    FitsAlong step fits st (is ++ js) ↔ FitsAlong step fits st is ∧
      ∀ st', is.foldlM step st = some st' → FitsAlong step fits st' js := by
  induction is generalizing st with
  | nil => simp [FitsAlong]
  | cons i is ih =>
    rw [cons_append, FitsAlong, FitsAlong, and_assoc]
    apply and_congr_right
    intro _
    simp only [ih, foldlM_cons, Option.bind_eq_bind, Option.bind_eq_some_iff]
    constructor
    · intro h
      exact ⟨fun st' hst' => (h st' hst').1, fun st'' ⟨mid, hmid, hrun⟩ => (h mid hmid).2 _ hrun⟩
    · intro h st' hst'
      exact ⟨h.1 st' hst', fun st'' hrun => h.2 st'' ⟨st', hst', hrun⟩⟩

/-- A run of fitting steps is undone by the inverse steps in reverse, which fit in turn. -/
theorem foldlM_undo
    (hundo : ∀ st i st', fits st i → step st i = some st' →
      step st' (inv i) = some st ∧ fits st' (inv i))
    {st st' : σ} {is : List ι} (h : FitsAlong step fits st is)
    (hrun : is.foldlM step st = some st') :
    (is.reverse.map inv).foldlM step st' = some st ∧
      FitsAlong step fits st' (is.reverse.map inv) := by
  induction is generalizing st with
  | nil =>
    cases hrun
    exact ⟨rfl, trivial⟩
  | cons i is ih =>
    rw [foldlM_cons, Option.bind_eq_bind, Option.bind_eq_some_iff] at hrun
    obtain ⟨mid, hstep, hrest⟩ := hrun
    obtain ⟨hback, hfits⟩ := ih (h.2 mid hstep) hrest
    obtain ⟨hlast, hlastFits⟩ := hundo st i mid h.1 hstep
    rw [reverse_cons, map_append, foldlM_append, hback, fitsAlong_append]
    constructor
    · simp [hlast]
    · refine ⟨hfits, fun st'' hst'' => ?_⟩
      rw [hback, Option.some.injEq] at hst''
      rw [← hst'']
      exact ⟨hlastFits, fun _ _ => trivial⟩

end Undo

end NetWrites
