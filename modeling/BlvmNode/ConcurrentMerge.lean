import BlvmNode.TieredQuery

/-!
# Appends while merges are under way

A merge takes the oldest runs of an age, merges them outside the locks, delivers the result and
removes its sources by address. The taken runs stay in their age meanwhile, and an append that finds
the tip among them rebuilds it under a new address, which the removal then misses.
-/

namespace BlvmNode

open KeyedRuns Timeline GuardedRun List Option Function MemoryRun UtxoIndex MemoryAge KWayMerge
  OutputKV

structure Flight where
  taken : List RunRef
  delivered : Bool

structure MergingIndex where
  idx : UtxoIndex
  flight : ℕ → Option Flight

inductive MergingStep where
  | append (contended contendedAgain : Bool) (entries : List OutputKV) (height : ℤ)
  | pin (ageIdx : ℕ) (height : ℤ)
  | unpin (ageIdx : ℕ) (height : ℤ)
  | setSpillTier (target take : ℕ)
  | takeForMerge (ageIdx : ℕ)
  | deliver (ageIdx : ℕ) (cfg : MergeConfig)
  | completeMerge (ageIdx : ℕ)

namespace MergingIndex

def empty : MergingIndex := ⟨UtxoIndex.empty, fun _ => none⟩

def sharedTip (st : MergingIndex) : Option RunRef :=
  (st.flight 0).bind (fun f =>
    (st.idx.ages.head?.bind (fun age => age.runs.getLast?)).filter
      (fun last => decide (last.ptr ∈ f.taken.map RunRef.ptr)))

/-- The in-place append needs the only reference to the tip. -/
def append (runMax : ℕ) (contended contendedAgain : Bool) (entries : List OutputKV)
    (height : ℤ) (st : MergingIndex) : MergingIndex :=
  { st with
    idx := st.idx.append runMax (contended || st.sharedTip.isSome)
      (contendedAgain || st.sharedTip.isSome) entries height }

def takeForMerge (ageIdx : ℕ) (st : MergingIndex) : MergingIndex :=
  match st.idx.ages[ageIdx]?.bind MemoryAge.takeForMerge with
  | none => st
  | some (taken, age') =>
    ⟨st.idx.modifyAge ageIdx (fun _ => age'),
      Function.update st.flight ageIdx (some ⟨taken, false⟩)⟩

def deliver (ageIdx : ℕ) (cfg : MergeConfig) (st : MergingIndex) : MergingIndex :=
  match st.flight ageIdx with
  | some ⟨taken, false⟩ =>
    ⟨st.idx.deliver cfg ageIdx (MemoryRun.merge cfg.fence (taken.map RunRef.run)),
      Function.update st.flight ageIdx (some ⟨taken, true⟩)⟩
  | _ => st

def completeMerge (ageIdx : ℕ) (st : MergingIndex) : MergingIndex :=
  match st.flight ageIdx with
  | some ⟨taken, true⟩ =>
    ⟨st.idx.modifyAge ageIdx
        (fun age => age.completeMerge (UtxoIndex.maxHeight taken) taken),
      Function.update st.flight ageIdx none⟩
  | _ => st

end MergingIndex

namespace MergingStep

def apply (runMax : ℕ) (st : MergingIndex) : MergingStep → MergingIndex
  | append c c' entries height => st.append runMax c c' entries height
  | pin i height => { st with idx := st.idx.modifyAge i (fun age => age.pinHeight height) }
  | unpin i height => { st with idx := st.idx.modifyAge i (fun age => age.unpinHeight height) }
  | setSpillTier target take => { st with idx := st.idx.setSpillTier target take }
  | takeForMerge i => st.takeForMerge i
  | deliver i cfg => st.deliver i cfg
  | completeMerge i => st.completeMerge i

def appended : MergingStep → List OutputKV
  | append _ _ entries _ => entries
  | _ => []

def EvictionInRange : MergingStep → Prop
  | deliver _ cfg => cfg.evictionAge ≤ kAges
  | _ => True

/-- No append on a mutable tip that a merge holds, and no merge of two Deletes of one key without an
Add between. -/
def Quiet (st : MergingIndex) : MergingStep → Prop
  | append _ _ _ _ => ∀ last ∈ st.sharedTip, last.run.isMutable = false
  | deliver i _ => ∀ taken, st.flight i = some ⟨taken, false⟩ →
      NoAdjacentDeletes (KWayMerge.kWayMerge OutputKV.le (taken.map (fun r => r.run.entries)))
  | _ => True

end MergingStep

open MergingIndex MergingStep

def runMerging (runMax : ℕ) (st : MergingIndex) (steps : List MergingStep) : MergingIndex :=
  steps.foldl (MergingStep.apply runMax) st

def mergingLog (steps : List MergingStep) : List OutputKV :=
  steps.reverse.flatMap MergingStep.appended

def QuietRun (runMax : ℕ) : MergingIndex → List MergingStep → Prop :=
  Guarded (MergingStep.apply runMax) MergingStep.Quiet

/-- The stored entries are the appended ones, up to Add/Delete pairs that merges cancelled. -/
def Conserved (log stored : List OutputKV) : Prop :=
  ∃ pairs, (∀ p ∈ pairs, ∃ fence, CancelledPair fence p.1 p.2) ∧
    log.Perm (stored ++ pairEntries pairs)

def runEntries (runs : List RunRef) : List OutputKV := runs.flatMap (fun r => r.run.entries)

theorem runEntries_append (runs runs' : List RunRef) :
    runEntries (runs ++ runs') = runEntries runs ++ runEntries runs' := flatMap_append

theorem runEntries_singleton (r : RunRef) : runEntries [r] = r.run.entries := by
  simp [runEntries]

/-- The runs that count: the sources of a delivered merge are copies that wait for removal. -/
def settledRuns (flight : Option Flight) (age : MemoryAge) : List RunRef :=
  match flight with
  | some ⟨taken, true⟩ => age.runs.filter (fun r => decide (r.ptr ∉ taken.map RunRef.ptr))
  | _ => age.runs

namespace MergingIndex

def contents (st : MergingIndex) : List OutputKV :=
  (st.idx.ages.mapIdx (fun i age => runEntries (settledRuns (st.flight i) age))).flatten ++
    st.idx.disk.chain.flatten

/-- The taken runs are the oldest of their age, under the addresses they were taken with. -/
structure Sound (st : MergingIndex) : Prop where
  agesLength : st.idx.ages.length = kAges
  fresh : ∀ age ∈ st.idx.ages, FreshRuns st.idx.nextPtr age.runs
  flights : ∀ i f, st.flight i = some f → ∃ age rest, st.idx.ages[i]? = some age ∧
    age.runs = f.taken ++ rest ∧ age.isMerging = true

end MergingIndex

theorem settledRuns_none (age : MemoryAge) : settledRuns none age = age.runs := rfl

variable {rest taken : List RunRef} {f : Flight} {p : ℕ}

theorem settledRuns_of_taken {age : MemoryAge}
    (hruns : age.runs = f.taken ++ rest) (hf : FreshRuns p age.runs) :
    settledRuns (some f) age = if f.delivered then rest else f.taken ++ rest := by
  obtain ⟨taken, delivered⟩ := f
  cases delivered with
  | true =>
    rw [hruns] at hf
    simp only [settledRuns, hruns]
    exact filter_not_taken taken rest hf.ptrNodup
  | false => simp [settledRuns, hruns]

namespace MergingIndex

section ReplaceAge

variable {st st' : MergingIndex} {front back : List MemoryAge} {age age' : MemoryAge}
  (hages : st.idx.ages = front ++ age :: back) (hages' : st'.idx.ages = front ++ age' :: back)
  (hother : ∀ i, i ≠ front.length → st'.flight i = st.flight i)

include hages hages' hother

theorem Sound.replaceAge (h : st.Sound) (hptr : st.idx.nextPtr ≤ st'.idx.nextPtr)
    (hfresh : FreshRuns st'.idx.nextPtr age'.runs)
    (hself : ∀ f, st'.flight front.length = some f →
      ∃ rest, age'.runs = f.taken ++ rest ∧ age'.isMerging) : st'.Sound := by
  obtain ⟨hlen, hold, hflights⟩ := h
  rw [hages, forall_mem_middle] at hold
  refine ⟨?_, ?_, ?_⟩
  · rw [← hlen, hages, hages', length_append, length_append, length_cons, length_cons]
  · rw [hages', forall_mem_middle]
    exact ⟨fun a ha => (hold.1 a ha).mono hptr, hfresh, fun a ha => (hold.2.2 a ha).mono hptr⟩
  · intro i f hf
    by_cases hi : i = front.length
    · obtain ⟨rest, hrest⟩ := hself f (hi ▸ hf)
      exact ⟨age', rest, by simp [hages', hi], hrest⟩
    · rw [hother i hi] at hf
      obtain ⟨a, rest, ha, hrest⟩ := hflights i f hf
      refine ⟨a, rest, ?_, hrest⟩
      rw [hages] at ha
      rw [hages', ← ha]
      rcases Nat.lt_or_gt_of_ne hi with hlt | hgt
      · rw [getElem?_append_left hlt, getElem?_append_left hlt]
      · obtain ⟨j, rfl⟩ := Nat.exists_eq_add_of_lt hgt
        simp [getElem?_append_right, Nat.add_assoc]

theorem contents_replaceAge (hdisk : st'.idx.disk = st.idx.disk) {new : List OutputKV}
    (hself : (runEntries (settledRuns (st'.flight front.length) age')).Perm
      (new ++ runEntries (settledRuns (st.flight front.length) age))) :
    st'.contents.Perm (new ++ st.contents) := by
  have hfront : front.mapIdx (fun i a => runEntries (settledRuns (st'.flight i) a)) =
      front.mapIdx (fun i a => runEntries (settledRuns (st.flight i) a)) := by
    rw [mapIdx_eq_mapIdx_iff]
    intro i hi
    rw [hother i hi.ne]
  have hback : back.mapIdx (fun i a =>
        runEntries (settledRuns (st'.flight (i + 1 + front.length)) a)) =
      back.mapIdx (fun i a =>
        runEntries (settledRuns (st.flight (i + 1 + front.length)) a)) := by
    rw [mapIdx_eq_mapIdx_iff]
    intro i hi
    rw [hother _ (by omega)]
  rw [contents, contents, hages, hages', hdisk, mapIdx_append, mapIdx_append, mapIdx_cons,
    mapIdx_cons, hfront, hback, perm_iff_count]
  intro x
  have hx := hself.count_eq x
  simp only [flatten_append, flatten_cons, count_append, Nat.zero_add] at hx ⊢
  omega

end ReplaceAge

end MergingIndex

theorem split_tip {front : List RunRef} {last : RunRef} (h : front ++ [last] = taken ++ rest)
    (hm : last.run.isMutable) (htip : rest = [] → ∀ r ∈ taken.getLast?, r.run.isMutable = false) :
    ∃ pre, rest = pre ++ [last] ∧ front = taken ++ pre := by
  rcases eq_nil_or_concat rest with hnil | ⟨pre, r, rfl⟩
  · have hfrozen := htip hnil last
    rw [hnil, append_nil] at h
    rw [← h, getLast?_concat] at hfrozen
    exact absurd (hfrozen rfl) (by simp [hm])
  · rw [concat_eq_append, ← append_assoc] at h
    obtain ⟨hfront, hlast⟩ := append_inj' h rfl
    rw [cons.injEq] at hlast
    rw [concat_eq_append, hlast.1]
    exact ⟨pre, rfl, hfront⟩

theorem append_taken (runMax fresh : ℕ) (c c' : Bool) (entries : List OutputKV) {age : MemoryAge}
    (hruns : age.runs = taken ++ rest)
    (htip : rest = [] → ∀ r ∈ taken.getLast?, r.run.isMutable = false) :
    ∃ rest', (age.append runMax fresh c c' entries).runs = taken ++ rest' ∧
      (runEntries rest').Perm (entries ++ runEntries rest) := by
  obtain ⟨runs', heq, hcases⟩ := append_cases runMax fresh c c' entries age
  have hnew : (newMutable.appendAndRebuild entries).entries.Perm entries := by
    have := rebuiltEntries_perm [] entries
    rwa [append_nil] at this
  rw [heq]
  rcases hcases with ⟨front, last, p, hr, hm, -, -, rfl⟩ | ⟨front, last, hr, hm, -, rfl⟩ | ⟨-, rfl⟩
  · obtain ⟨pre, rfl, rfl⟩ := split_tip (hr.symm.trans hruns) hm htip
    refine ⟨pre ++ [⟨p, last.run.appendAndRebuild entries⟩], append_assoc _ _ _, ?_⟩
    have hbuilt := perm_iff_count.mp
      (rebuiltEntries_perm last.run.entries entries)
    rw [perm_iff_count]
    intro x
    have hx := hbuilt x
    simp only [runEntries_append, runEntries_singleton, count_append, appendAndRebuild] at hx ⊢
    omega
  · obtain ⟨pre, rfl, rfl⟩ := split_tip (hr.symm.trans hruns) hm htip
    refine ⟨pre ++ [⟨fresh, last.run.freeze⟩,
      ⟨fresh + 1, newMutable.appendAndRebuild entries⟩], append_assoc _ _ _, ?_⟩
    rw [append_cons, runEntries_append, runEntries_append, runEntries_append,
      runEntries_singleton, runEntries_singleton, runEntries_singleton]
    exact perm_append_comm.trans (hnew.append_right _)
  · refine ⟨rest ++ [⟨fresh, newMutable.appendAndRebuild entries⟩], ?_, ?_⟩
    · rw [hruns, append_assoc]
    · rw [runEntries_append, runEntries_singleton]
      exact perm_append_comm.trans (hnew.append_right _)

variable (runMax : ℕ)

theorem settledRuns_append (c c' : Bool) (entries : List OutputKV)
    {age : MemoryAge} (hfresh : FreshRuns p age.runs) (flight : Option Flight)
    (hflight : ∀ f ∈ flight, ∃ rest, age.runs = f.taken ++ rest ∧
      (rest = [] → ∀ r ∈ f.taken.getLast?, r.run.isMutable = false)) :
    (∀ f ∈ flight, ∃ rest, (age.append runMax p c c' entries).runs = f.taken ++ rest) ∧
      (runEntries (settledRuns flight (age.append runMax p c c' entries))).Perm
        (entries ++ runEntries (settledRuns flight age)) := by
  cases flight with
  | none =>
    obtain ⟨rest', hruns', hperm⟩ := append_taken runMax p c c' entries
      (nil_append age.runs).symm (fun _ => nofun)
    refine ⟨nofun, ?_⟩
    rw [settledRuns_none, settledRuns_none, hruns', nil_append]
    exact hperm
  | some f =>
    obtain ⟨rest, hruns, htip⟩ := hflight f rfl
    obtain ⟨rest', hruns', hperm⟩ := append_taken runMax p c c' entries hruns htip
    have hfresh' := append_freshRuns hfresh runMax c c' entries
    refine ⟨fun g hg => ?_, ?_⟩
    · cases hg
      exact ⟨rest', hruns'⟩
    · rw [settledRuns_of_taken hruns hfresh, settledRuns_of_taken hruns' hfresh']
      split_ifs
      · exact hperm
      · rw [runEntries_append, runEntries_append]
        exact (hperm.append_left _).trans (perm_append_comm_assoc _ _ _)

namespace MergingIndex

variable {st : MergingIndex} {i : ℕ} {g : MemoryAge → MemoryAge} {cfg : MergeConfig}
  {age : MemoryAge}

theorem Sound.flight_at (h : st.Sound) (hage : st.idx.ages[i]? = some age)
    (hf : st.flight i = some f) : ∃ rest, age.runs = f.taken ++ rest ∧ age.isMerging := by
  obtain ⟨a, rest, ha, hrest⟩ := h.flights i f hf
  rw [hage, some.injEq] at ha
  rw [ha]
  exact ⟨rest, hrest⟩

theorem Sound.exists_cons (h : st.Sound) : ∃ tip deeper, st.idx.ages = tip :: deeper :=
  exists_of_length_succ st.idx.ages h.agesLength

theorem sharedTip_frozen {tip : MemoryAge} {deeper : List MemoryAge}
    (hages : st.idx.ages = tip :: deeper) (hq : ∀ last ∈ st.sharedTip, last.run.isMutable = false)
    (hf : st.flight 0 = some f) (hruns : tip.runs = f.taken ++ rest) :
    rest = [] → ∀ r ∈ f.taken.getLast?, r.run.isMutable = false := by
  intro hnil r hr
  apply hq
  rw [hnil, append_nil] at hruns
  have hmem : r.ptr ∈ f.taken.map RunRef.ptr :=
    mem_map_of_mem (mem_of_getLast? hr)
  rw [sharedTip, hf, hages, bind_some, head?_cons, bind_some, hruns,
    mem_def.mp hr, mem_def, filter_some, if_pos (decide_eq_true hmem)]

theorem append_spec (h : st.Sound) (runMax : ℕ) (c c' : Bool) (entries : List OutputKV) (height : ℤ)
    (hq : ∀ last ∈ st.sharedTip, last.run.isMutable = false) :
    (st.append runMax c c' entries height).Sound ∧
      (st.append runMax c c' entries height).contents.Perm (entries ++ st.contents) := by
  obtain ⟨tip, deeper, hages⟩ := h.exists_cons
  have hmem : tip ∈ st.idx.ages := by
    rw [hages]
    exact mem_cons_self
  have hfresh : FreshRuns st.idx.nextPtr (tip.pinHeight height).runs := h.fresh tip hmem
  set b := c || st.sharedTip.isSome with hb
  set b' := c' || st.sharedTip.isSome with hb'
  set tip' := (tip.pinHeight height).append runMax st.idx.nextPtr b b' entries with htip'
  have hages₀ : st.idx.ages = [] ++ tip :: deeper := hages
  have hages' : (st.append runMax c c' entries height).idx.ages = [] ++ tip' :: deeper := by
    simp only [append, UtxoIndex.append, UtxoIndex.modifyAge, hages, modify_zero_cons,
      nil_append, htip', hb, hb']
  have hmerging : tip'.isMerging = tip.isMerging := by
    obtain ⟨runs', heq, -⟩ := append_cases runMax st.idx.nextPtr b b' entries
      (tip.pinHeight height)
    rw [htip', heq]
    rfl
  have hflight : ∀ f, st.flight 0 = some f → _ := fun f => h.flight_at (congrArg (·[0]?) hages)
  obtain ⟨hkept, hperm⟩ := settledRuns_append runMax b b' entries hfresh (st.flight 0)
    (fun f hf => (hflight f hf).imp fun rest hrest =>
      ⟨hrest.1, sharedTip_frozen hages hq hf hrest.1⟩)
  constructor
  · apply h.replaceAge hages₀ hages' (fun _ _ => rfl) (Nat.le_add_right _ 2)
      (append_freshRuns hfresh runMax b b' entries)
    intro f hf
    obtain ⟨rest, hrest⟩ := hkept f hf
    obtain ⟨-, -, hm⟩ := hflight f hf
    exact ⟨rest, hrest, hmerging.trans hm⟩
  · exact contents_replaceAge hages₀ hages' (fun _ _ => rfl) rfl hperm

theorem modifyAge_spec
    {flight' : ℕ → Option Flight} (h : st.Sound) (hother : ∀ j, j ≠ i → flight' j = st.flight j)
    (hruns : ∀ age, st.idx.ages[i]? = some age → (g age).runs.Sublist age.runs ∧
      settledRuns (flight' i) (g age) = settledRuns (st.flight i) age)
    (hself : ∀ f, flight' i = some f → ∃ age rest, st.idx.ages[i]? = some age ∧
      (g age).runs = f.taken ++ rest ∧ (g age).isMerging) :
    let st' := mk (st.idx.modifyAge i g) flight'
    st'.Sound ∧ st'.contents.Perm st.contents := by
  cases hage : st.idx.ages[i]? with
  | none =>
    have hflight : flight' = st.flight := by
      funext j
      by_cases hj : j = i
      · subst hj
        cases hnew : flight' j with
        | some f =>
          obtain ⟨age, -, ha, -⟩ := hself f hnew
          simp [hage] at ha
        | none =>
          cases hold : st.flight j with
          | none => rfl
          | some f =>
            obtain ⟨age, -, ha, -⟩ := h.flights j f hold
            simp [hage] at ha
      · exact hother j hj
    have hsame : st.idx.modifyAge i g = st.idx := by
      rw [modifyAge, modify_eq_self (getElem?_eq_none_iff.mp hage)]
    rw [hflight, hsame]
    exact ⟨h, Perm.refl _⟩
  | some age =>
    obtain ⟨hsub, hsettled⟩ := hruns age hage
    obtain ⟨front, back, hold, rfl⟩ := exists_middle hage
    have hnew : (mk (st.idx.modifyAge front.length g) flight').idx.ages =
        front ++ g age :: back := by
      rw [modifyAge, hold, modify_middle]
    have hfresh := h.fresh age (by simp [hold])
    constructor
    · apply h.replaceAge hold hnew hother le_rfl (hfresh.sublist hsub)
      intro f hf
      obtain ⟨a, rest, ha, hrest⟩ := hself f hf
      rw [hage, some.injEq] at ha
      rw [ha]
      exact ⟨rest, hrest⟩
    · have hperm : (runEntries _).Perm ([] ++ runEntries _) := Perm.of_eq (congrArg _ hsettled)
      exact contents_replaceAge hold hnew hother rfl hperm

theorem modifyAge_keep (h : st.Sound) (i : ℕ)
    (hruns : ∀ age, (g age).runs = age.runs) (hm : ∀ age, (g age).isMerging = age.isMerging) :
    let st' : MergingIndex := { st with idx := st.idx.modifyAge i g }
    st'.Sound ∧ st'.contents.Perm st.contents := by
  apply modifyAge_spec h (fun _ _ => rfl)
  · intro age _
    refine ⟨by rw [hruns], ?_⟩
    unfold settledRuns
    rw [hruns]
  · intro f hf
    obtain ⟨age, rest, hage, hrest, hmerging⟩ := h.flights i f hf
    exact ⟨age, rest, hage, (hruns age).trans hrest, (hm age).trans hmerging⟩

theorem setSpillTier_spec (h : st.Sound) (target take : ℕ) :
    let st' : MergingIndex := { st with idx := st.idx.setSpillTier target take }
    st'.Sound ∧ st'.contents = st.contents := by
  refine ⟨⟨?_, ?_, ?_⟩, ?_⟩
  · rw [← h.agesLength]
    exact length_mapIdx
  · intro age ha
    simp only [UtxoIndex.setSpillTier, mem_mapIdx] at ha
    obtain ⟨i, hi, rfl⟩ := ha
    exact h.fresh st.idx.ages[i] (getElem_mem hi)
  · intro i f hf
    obtain ⟨age, rest, hage, hrest⟩ := h.flights i f hf
    refine ⟨{ age with spillEarlyTake := if target ≤ i + 1 then take else 0 }, rest, ?_, hrest⟩
    rw [UtxoIndex.setSpillTier, getElem?_mapIdx, hage, map_some]
  · rw [contents, UtxoIndex.setSpillTier, mapIdx_mapIdx]
    rfl

theorem takeForMerge_spec (h : st.Sound) (i : ℕ) :
    (st.takeForMerge i).Sound ∧ (st.takeForMerge i).contents.Perm st.contents := by
  unfold takeForMerge
  cases htake : st.idx.ages[i]?.bind MemoryAge.takeForMerge with
  | none => exact ⟨h, Perm.refl _⟩
  | some res =>
    obtain ⟨taken, age'⟩ := res
    obtain ⟨age, hage, hsome⟩ := bind_eq_some_iff.mp htake
    obtain ⟨hidle, rfl, n, -, rfl⟩ := MemoryAge.takeForMerge_eq_some hsome
    -- a merge under way would have set the flag
    have hnone : st.flight i = none := by
      rw [eq_none_iff_forall_ne_some]
      intro f hf
      obtain ⟨-, -, hm⟩ := h.flight_at hage hf
      rw [hm] at hidle
      exact Bool.false_ne_true hidle.symm
    apply modifyAge_spec h (fun j hj => update_of_ne hj _ _)
    · intro a ha
      rw [hage, some.injEq] at ha
      subst ha
      refine ⟨Sublist.refl _, ?_⟩
      rw [hnone, update_self]
      rfl
    · intro f hf
      rw [update_self, some.injEq] at hf
      subst hf
      exact ⟨age, age.runs.drop n, hage, (take_append_drop n _).symm, rfl⟩

theorem completeMerge_spec (h : st.Sound) (i : ℕ) :
    (st.completeMerge i).Sound ∧ (st.completeMerge i).contents.Perm st.contents := by
  unfold completeMerge
  split
  · rename_i taken hf
    apply modifyAge_spec h (fun j hj => update_of_ne hj _ _)
    · intro age _
      refine ⟨filter_sublist, ?_⟩
      rw [hf, update_self]
      rfl
    · intro f hf'
      rw [update_self] at hf'
      cases hf'
  · exact ⟨h, Perm.refl _⟩

theorem settledRuns_push {flight : Option Flight} (run : MemoryRun)
    (hfresh : FreshRuns p age.runs) (hflight : ∀ f ∈ flight, ∃ rest, age.runs = f.taken ++ rest) :
    settledRuns flight (age.pushFrozenRun ⟨p, run⟩) = settledRuns flight age ++ [⟨p, run⟩] := by
  cases flight with
  | none => rfl
  | some f =>
    obtain ⟨rest, hruns⟩ := hflight f rfl
    have hpushed : FreshRuns (p + 1) (age.pushFrozenRun ⟨p, run⟩).runs :=
      hfresh.concat le_rfl (Nat.lt_succ_self p)
    have hruns' : (age.pushFrozenRun ⟨p, run⟩).runs = f.taken ++ (rest ++ [⟨p, run⟩]) := by
      rw [pushFrozenRun, hruns, append_assoc]
    rw [settledRuns_of_taken hruns hfresh, settledRuns_of_taken hruns' hpushed]
    split_ifs
    · rfl
    · rw [append_assoc]

theorem push_spec (h : st.Sound) {dest : ℕ} (hd : dest < kAges) (run : MemoryRun) :
    let idx' := { st.idx.modifyAge dest (fun age => age.pushFrozenRun ⟨st.idx.nextPtr, run⟩) with
      nextPtr := st.idx.nextPtr + 1 }
    (mk idx' st.flight).Sound ∧
      (mk idx' st.flight).contents.Perm (run.entries ++ st.contents) := by
  intro idx'
  rw [← h.agesLength] at hd
  obtain ⟨front, back, hages, rfl⟩ := exists_middle (getElem?_eq_getElem hd)
  set age := st.idx.ages[front.length]
  have hages' : (mk idx' st.flight).idx.ages =
      front ++ age.pushFrozenRun ⟨st.idx.nextPtr, run⟩ :: back := by
    simp only [idx', modifyAge]
    rw [hages, modify_middle]
  have hfresh := h.fresh age (getElem_mem hd)
  have hflight : ∀ f, st.flight front.length = some f → _ :=
    fun f => h.flight_at (getElem?_eq_getElem hd)
  constructor
  · apply h.replaceAge hages hages' (fun _ _ => rfl) (Nat.le_succ _)
      (hfresh.concat le_rfl (Nat.lt_succ_self _))
    intro f hf
    obtain ⟨rest, hrest, hm⟩ := hflight f hf
    refine ⟨rest ++ [⟨st.idx.nextPtr, run⟩], ?_, hm⟩
    rw [pushFrozenRun, hrest, append_assoc]
  · have hsettled : settledRuns (st.flight front.length) _ = _ := settledRuns_push run hfresh
      (fun f hf => (hflight f hf).imp fun _ hrest => hrest.1)
    refine contents_replaceAge hages hages' (fun _ _ => rfl) rfl ?_
    rw [hsettled, runEntries_append, runEntries_singleton]
    exact perm_append_comm

theorem deliverIndex_spec (h : st.Sound)
    (hE : cfg.evictionAge ≤ kAges) (hi : i < kAges) (merged : MemoryRun) :
    let st' := mk (st.idx.deliver cfg i merged) st.flight
    st'.Sound ∧ st'.contents.Perm (merged.entries ++ st.contents) := by
  unfold UtxoIndex.deliver
  split_ifs with hempty
  · rw [isEmpty_iff.mp hempty]
    exact ⟨h, Perm.refl _⟩
  · rcases destination_cases i hE with hd | ⟨hd, hlt⟩ | ⟨dest, hd, hle⟩
    · rw [hd]
      refine ⟨⟨h.agesLength, h.fresh, h.flights⟩, ?_⟩
      have hdisk := DiskIndex.pushRunNoCompact_contents st.idx.disk cfg.spill merged
      exact (hdisk.append_left _).trans (perm_append_comm_assoc _ _ _)
    · rw [hd]
      exact push_spec h hlt merged
    · rw [hd]
      exact push_spec h (hle.trans_lt hi) merged

theorem markDelivered_spec (h : st.Sound) (hf : st.flight i = some ⟨taken, false⟩) :
    let st' := mk st.idx (update st.flight i (some ⟨taken, true⟩))
    st'.Sound ∧ st.contents.Perm (runEntries taken ++ st'.contents) := by
  intro st'
  obtain ⟨age, rest, hage, hruns, hm⟩ := h.flights i _ hf
  obtain ⟨front, back, hages, rfl⟩ := exists_middle hage
  have hfresh := h.fresh age (by simp [hages])
  have hages' : st'.idx.ages = front ++ age :: back := hages
  have hself : st'.flight front.length = some ⟨taken, true⟩ := update_self ..
  have hother : ∀ j, j ≠ front.length → st'.flight j = st.flight j :=
    fun j hj => update_of_ne hj _ _
  constructor
  · apply h.replaceAge hages hages' hother le_rfl hfresh
    intro f hf'
    rw [hself, some.injEq] at hf'
    subst hf'
    exact ⟨rest, hruns, hm⟩
  · have hdone : settledRuns (some ⟨taken, true⟩) age = rest :=
      settledRuns_of_taken hruns hfresh
    refine contents_replaceAge hages' hages (fun j hj => (hother j hj).symm) rfl ?_
    rw [hself, hdone, hf, settledRuns_of_taken hruns hfresh, if_neg Bool.false_ne_true,
      runEntries_append]

theorem deliver_spec (h : st.Sound) (hE : cfg.evictionAge ≤ kAges) (i : ℕ) :
    (st.deliver i cfg).Sound ∧
      (st.deliver i cfg = st ∨ ∃ taken rest, st.flight i = some ⟨taken, false⟩ ∧
        st.contents.Perm (runEntries taken ++ rest) ∧
        (st.deliver i cfg).contents.Perm
          (mergeEntries cfg.fence (taken.map (fun r => r.run.entries)) ++ rest)) := by
  unfold deliver
  split
  · rename_i taken hf
    obtain ⟨age, -, hage, -⟩ := h.flights i _ hf
    have hi : i < kAges := by
      rw [← h.agesLength]
      exact (List.getElem?_eq_some_iff.mp hage).1
    obtain ⟨hmarked, hbefore⟩ := markDelivered_spec h hf
    obtain ⟨hsound, hafter⟩ := deliverIndex_spec hmarked hE hi
      (merge cfg.fence (taken.map RunRef.run))
    refine ⟨hsound, .inr ⟨taken, _, hf, hbefore, ?_⟩⟩
    rwa [entries_merge_runs] at hafter
  · exact ⟨h, .inl rfl⟩

end MergingIndex

theorem Conserved.perm {log stored stored' : List OutputKV} (h : Conserved log stored)
    (hp : stored'.Perm stored) : Conserved log stored' := by
  obtain ⟨pairs, hpairs, hlog⟩ := h
  exact ⟨pairs, hpairs, hlog.trans (hp.symm.append_right _)⟩

variable {inputs : List (List OutputKV)} {st : MergingIndex} {fence : ℤ}

theorem Conserved.merge {log rest : List OutputKV}
    (h : Conserved log (inputs.flatten ++ rest)) (hn : NoAdjacentDeletes (kWayMerge le inputs)) :
    Conserved log (mergeEntries fence inputs ++ rest) := by
  obtain ⟨pairs, hpairs, hlog⟩ := h
  obtain ⟨dropped, lost, haccount, hdropped, -, hlost⟩ :=
    gcPass_account fence (kWayMerge le inputs)
  refine ⟨dropped ++ pairs, ?_, ?_⟩
  · exact forall_mem_append.mpr ⟨fun p hp => ⟨fence, hdropped p hp⟩, hpairs⟩
  · have hmerged := (kWayMerge_perm inputs).symm.trans haccount
    rw [hlost hn, append_nil] at hmerged
    refine hlog.trans ?_
    rw [perm_iff_count] at hmerged ⊢
    intro x
    have hx := hmerged x
    simp only [pairEntries, flatMap_append, count_append, mergeEntries]
      at hx ⊢
    omega

theorem MergingStep.conserved {runMax : ℕ} {log : List OutputKV} (s : MergingStep) (h : st.Sound)
    (hlog : Conserved log st.contents) (hE : s.EvictionInRange) (hq : s.Quiet st) :
    (s.apply runMax st).Sound ∧
      Conserved (s.appended ++ log) (s.apply runMax st).contents := by
  cases s with
  | append c c' entries height =>
    obtain ⟨hsound, hperm⟩ := st.append_spec h runMax c c' entries height hq
    obtain ⟨pairs, hpairs, hlog⟩ := hlog
    refine ⟨hsound, pairs, hpairs, ?_⟩
    refine (hlog.append_left entries).trans ?_
    rw [← append_assoc]
    exact hperm.symm.append_right _
  | pin i height =>
    obtain ⟨hsound, hperm⟩ := modifyAge_keep h i
      (fun age => (rfl : (age.pinHeight height).runs = age.runs)) (fun _ => rfl)
    exact ⟨hsound, hlog.perm hperm⟩
  | unpin i height =>
    obtain ⟨hsound, hperm⟩ := modifyAge_keep h i
      (fun age => (rfl : (age.unpinHeight height).runs = age.runs)) (fun _ => rfl)
    exact ⟨hsound, hlog.perm hperm⟩
  | setSpillTier target take =>
    obtain ⟨hsound, heq⟩ := setSpillTier_spec h target take
    exact ⟨hsound, hlog.perm (Perm.of_eq heq)⟩
  | takeForMerge i =>
    obtain ⟨hsound, hperm⟩ := takeForMerge_spec h i
    exact ⟨hsound, hlog.perm hperm⟩
  | deliver i cfg =>
    obtain ⟨hsound, heq | ⟨taken, rest, hf, hbefore, hafter⟩⟩ :=
      deliver_spec h hE i
    · refine ⟨hsound, ?_⟩
      simp only [apply, heq]
      exact hlog
    · refine ⟨hsound, Conserved.perm (Conserved.merge ?_ (hq taken hf)) hafter⟩
      refine hlog.perm ?_
      rw [← flatMap_def]
      exact hbefore.symm
  | completeMerge i =>
    obtain ⟨hsound, hperm⟩ := completeMerge_spec h i
    exact ⟨hsound, hlog.perm hperm⟩

theorem mergingLog_append (steps steps' : List MergingStep) :
    mergingLog (steps ++ steps') = mergingLog steps' ++ mergingLog steps := by
  rw [mergingLog, reverse_append, flatMap_append]
  rfl

theorem mergingLog_singleton (s : MergingStep) : mergingLog [s] = s.appended :=
  append_nil _

theorem sound_empty : MergingIndex.empty.Sound := by
  refine ⟨rfl, ?_, fun i f hf => by cases hf⟩
  intro age ha
  simp only [MergingIndex.empty, UtxoIndex.empty, List.mem_map] at ha
  obtain ⟨i, -, rfl⟩ := ha
  exact ⟨by simp [MemoryAge.new], by simp [MemoryAge.new]⟩

theorem conserved_runMerging {runMax : ℕ} {steps : List MergingStep}
    (hE : ∀ s ∈ steps, s.EvictionInRange) (hq : QuietRun runMax empty steps) :
    (runMerging runMax empty steps).Sound ∧
      Conserved (mergingLog steps) (runMerging runMax empty steps).contents := by
  refine invariant (fun pre st => (∀ s ∈ pre, s.EvictionInRange) →
    st.Sound ∧ Conserved (mergingLog pre) st.contents) ?_ ?_ hq hE
  · intro _
    refine ⟨sound_empty, [], nofun, ?_⟩
    have hnil : empty.contents = [] := by decide
    rw [hnil]
    rfl
  · intro pre s st ih hs hE
    rw [forall_mem_append, forall_mem_singleton] at hE
    rw [mergingLog_append, mergingLog_singleton]
    exact s.conserved (ih hE.1).1 (ih hE.1).2 hE.2 hs

theorem runEntries_ages_perm (ages : List MemoryAge) :
    (ages.map (fun age => runEntries age.runs)).flatten.Perm
      (ages.flatMap MemoryAge.chain).flatten := by
  rw [← flatMap_def, flatten_eq_flatMap, flatMap_assoc]
  refine Perm.flatMap_left _ fun age _ => ?_
  rw [← flatten_eq_flatMap, runEntries, flatMap_def, MemoryAge.chain, map_reverse]
  exact (reverse_perm _).symm.flatten

theorem MergingIndex.contents_perm_chain
    (h : ∀ i taken, st.flight i ≠ some ⟨taken, true⟩) : st.contents.Perm st.idx.chain.flatten := by
  have hsettled : ∀ i age, settledRuns (st.flight i) age = age.runs := by
    intro i age
    unfold settledRuns
    split
    · rename_i taken hf
      exact absurd hf (h i taken)
    · rfl
  have hmap : st.idx.ages.mapIdx (fun _ age => runEntries age.runs) =
      st.idx.ages.map (fun age => runEntries age.runs) := by
    apply ext_getElem?
    intro i
    rw [getElem?_mapIdx, getElem?_map]
  rw [contents, UtxoIndex.chain, flatten_append]
  simp only [hsettled]
  rw [hmap]
  exact (runEntries_ages_perm _).append_right _

def earlyMergeSteps : List MergingStep :=
  [.append false false [createSpent] 1, .unpin 0 1, .setSpillTier 1 1, .takeForMerge 0,
    .deliver 0 (plainMerge false 0), .completeMerge 0,
    .append false false [OutputKV.newAdd ⟨2, 0⟩ 2 2] 2]

/-- The tip is taken after a pressure tick, and one more block is appended before the merge
completes. -/
def overtakenSteps : List MergingStep :=
  [.append false false [createSpent] 1, .unpin 0 1, .setSpillTier 1 1, .takeForMerge 0,
    .append false false [OutputKV.newAdd ⟨2, 0⟩ 2 2] 2, .deliver 0 (plainMerge false 0),
    .completeMerge 0]

end BlvmNode
