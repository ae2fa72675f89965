import BlvmNode.RunMerge

/-!
# Streaming merge of disk segments

A segment is read in chunks, and a chunk that covers an unreadable position cannot be loaded. The
merge takes the least head over all readers until one of them fails or all are exhausted, and
collects garbage one key group at a time.
-/

namespace BlvmNode

open KeyedRuns Timeline KWayMerge List Cancels OutputKV

def readerChunk : ℕ := 8192

/-- The loaded entries, those still in the file, and how far ahead the first unreadable entry lies.
-/
structure SegmentReader where
  buf : List OutputKV
  rest : List OutputKV
  unreadable : Option ℕ

namespace SegmentReader

def remaining (r : SegmentReader) : List OutputKV := r.buf ++ r.rest

def fill (r : SegmentReader) : Option SegmentReader :=
  let toRead := min readerChunk r.rest.length
  if toRead = 0 then some { r with buf := [] }
  else
    match r.unreadable with
    | none => some ⟨r.rest.take toRead, r.rest.drop toRead, none⟩
    | some p =>
      if p < toRead then none
      else some ⟨r.rest.take toRead, r.rest.drop toRead, some (p - toRead)⟩

def ready (r : SegmentReader) : Option SegmentReader :=
  if r.buf.isEmpty then r.fill else some r

def Broken (r : SegmentReader) : Prop := ∃ p ∈ r.unreadable, p < r.rest.length

instance (r : SegmentReader) : Decidable r.Broken :=
  match h : r.unreadable with
  | none => isFalse (by simp [Broken, h])
  | some p => decidable_of_iff (p < r.rest.length) (by simp [Broken, h])

theorem ready_cases (r : SegmentReader) :
    (r.ready = none ∧ r.Broken) ∨
      ∃ r', r.ready = some r' ∧ r'.remaining = r.remaining ∧ (r'.buf = [] → r'.rest = []) ∧
        (r'.Broken ↔ r.Broken) := by
  unfold ready
  by_cases hb : r.buf = []
  · rw [hb, isEmpty_nil, if_pos rfl, fill]
    have hchunk : 0 < readerChunk := by decide
    by_cases h0 : min readerChunk r.rest.length = 0
    · have hrest : r.rest = [] := length_eq_zero_iff.mp (by omega)
      exact .inr ⟨⟨[], r.rest, r.unreadable⟩, by simp [h0], by simp [remaining, hb],
        fun _ => hrest, Iff.rfl⟩
    · have hne : r.rest ≠ [] := by
        rintro hnil
        simp [hnil] at h0
      have htake : r.rest.take (min readerChunk r.rest.length) ≠ [] := by
        simp [take_eq_nil_iff, hne]
        omega
      simp only [h0, if_false]
      cases hp : r.unreadable with
      | none =>
        refine .inr ⟨_, rfl, ?_, fun hnil => absurd hnil htake, ?_⟩
        · simp only [remaining, hb, take_append_drop, nil_append]
        · simp [Broken, hp]
      | some p =>
        by_cases hlt : p < min readerChunk r.rest.length
        · exact .inl ⟨by simp only [hlt, if_true], p, hp, by omega⟩
        · simp only [hlt, if_false]
          refine .inr ⟨_, rfl, ?_, fun hnil => absurd hnil htake, ?_⟩
          · simp only [remaining, hb, take_append_drop, nil_append]
          · simp only [Broken, hp, Option.mem_some_iff, exists_eq_left', length_drop]
            omega
  · have hne : r.buf.isEmpty = false := by simpa using hb
    rw [hne]
    exact .inr ⟨r, rfl, rfl, fun hnil => absurd hnil hb, Iff.rfl⟩

end SegmentReader

open SegmentReader

def readyAll : List SegmentReader → Option (List SegmentReader)
  | [] => some []
  | r :: readers =>
    match r.ready with
    | none => none
    | some r' => (readyAll readers).map (r' :: ·)

/-- `pop_raw`: the least head over all readers; an error looks like the end of the input. -/
def popRaw (readers : List SegmentReader) : Option (OutputKV × List SegmentReader) :=
  match readyAll readers with
  | none => none
  | some loaded =>
    (popMin OutputKV.le (loaded.map SegmentReader.buf)).map (fun res =>
      (res.1, List.zipWith (fun r buf => { r with buf := buf }) loaded res.2))

def mergeStream : ℕ → List SegmentReader → List OutputKV × List SegmentReader
  | 0, readers => ([], readers)
  | n + 1, readers =>
    match popRaw readers with
    | none => ([], readers)
    | some (e, readers') =>
      let res := mergeStream n readers'
      (e :: res.1, res.2)

variable (readers : List SegmentReader) (n : ℕ)

theorem readyAll_cases :
    (readyAll readers = none ∧ ∃ r ∈ readers, r.Broken) ∨
      ∃ loaded, readyAll readers = some loaded ∧
        loaded.map remaining = readers.map remaining ∧
        (∀ r ∈ loaded, r.buf = [] → r.rest = []) ∧
        ((∃ r ∈ loaded, r.Broken) ↔ ∃ r ∈ readers, r.Broken) := by
  induction readers with
  | nil => exact .inr ⟨[], rfl, rfl, nofun, Iff.rfl⟩
  | cons r readers ih =>
    rcases r.ready_cases with ⟨hr, hbroken⟩ | ⟨r', hr, hrem, hempty, hbroken⟩
    · exact .inl ⟨by simp [readyAll, hr], r, mem_cons_self, hbroken⟩
    · rcases ih with ⟨hall, x, hx, hxb⟩ | ⟨loaded, hall, hrems, hempties, hiff⟩
      · exact .inl ⟨by simp [readyAll, hr, hall], x, mem_cons_of_mem _ hx, hxb⟩
      · refine .inr ⟨r' :: loaded, by simp [readyAll, hr, hall], by simp [hrem, hrems], ?_, ?_⟩
        · exact forall_mem_cons.mpr ⟨hempty, hempties⟩
        · simp only [exists_mem_cons_iff, hbroken, hiff]

theorem remaining_zipWith (loaded : List SegmentReader) (bufs : List (List OutputKV)) :
    (zipWith (fun r buf => { r with buf := buf }) loaded bufs).map remaining =
      zipWith (· ++ ·) bufs (loaded.map rest) := by
  induction loaded generalizing bufs with
  | nil => cases bufs <;> rfl
  | cons r loaded ih =>
    cases bufs with
    | nil => rfl
    | cons buf bufs => simp [remaining, ih]

theorem broken_zipWith {loaded : List SegmentReader} {bufs : List (List OutputKV)}
    (hlen : loaded.length = bufs.length) :
    (∃ r ∈ zipWith (fun r buf => { r with buf := buf }) loaded bufs, r.Broken) ↔
      ∃ r ∈ loaded, r.Broken := by
  induction loaded generalizing bufs with
  | nil => cases bufs <;> simp
  | cons r loaded ih =>
    cases bufs with
    | nil => simp at hlen
    | cons buf bufs =>
      have hrest := ih (by simpa using hlen)
      simp only [zipWith_cons_cons, exists_mem_cons_iff, hrest]
      rfl

theorem popRaw_cases :
    (popRaw readers = none ∧
        ((∃ r ∈ readers, r.Broken) ∨ (readers.map remaining).flatten = [])) ∨
      ∃ e readers', popRaw readers = some (e, readers') ∧
        popMin le (readers.map remaining) =
          some (e, readers'.map remaining) ∧
        ((∃ r ∈ readers', r.Broken) ↔ ∃ r ∈ readers, r.Broken) := by
  rcases readyAll_cases readers with ⟨hall, hbroken⟩ | ⟨loaded, hall, hrems, hempty, hbroken⟩
  · exact .inl ⟨by simp [popRaw, hall], .inl hbroken⟩
  · have hpairs := popMin_append (r := le) (loaded.map (fun r => (r.buf, r.rest)))
      (by simpa using hempty)
    simp only [map_map, Function.comp_def] at hpairs
    have hmap : loaded.map (fun r => r.buf ++ r.rest) = readers.map remaining := hrems
    rw [hmap] at hpairs
    cases hpop : popMin le (loaded.map buf) with
    | none =>
      rw [hpop] at hpairs
      exact .inl ⟨by simp [popRaw, hall, hpop], .inr (popMin_eq_none hpairs)⟩
    | some res =>
      rw [hpop] at hpairs
      refine .inr ⟨res.1, zipWith (fun r buf => { r with buf := buf }) loaded res.2,
        by simp [popRaw, hall, hpop], ?_, ?_⟩
      · rw [hpairs, remaining_zipWith]
        rfl
      · rw [broken_zipWith, hbroken]
        have hlen := length_runs_of_popMin hpop
        simpa using hlen.symm

theorem mergeStream_isPrefix (readers : List SegmentReader) :
    (mergeStream n readers).1 <+: mergeSteps le n (readers.map remaining) := by
  induction n generalizing readers with
  | zero => exact prefix_rfl
  | succ n ih =>
    rcases popRaw_cases readers with ⟨hpop, -⟩ | ⟨e, readers', hpop, hmin, -⟩
    · simp only [mergeStream, hpop]
      exact nil_prefix
    · simp only [mergeStream, mergeSteps, hpop, hmin]
      exact cons_prefix_cons.mpr ⟨rfl, ih readers'⟩

theorem mergeStream_broken (readers : List SegmentReader) :
    (∃ r ∈ (mergeStream n readers).2, r.Broken) ↔ ∃ r ∈ readers, r.Broken := by
  induction n generalizing readers with
  | zero => exact Iff.rfl
  | succ n ih =>
    rcases popRaw_cases readers with ⟨hpop, -⟩ | ⟨e, readers', hpop, -, hbroken⟩
    · simp only [mergeStream, hpop]
    · simp only [mergeStream, hpop]
      exact (ih readers').trans hbroken

theorem mergeStream_intact {n : ℕ} {readers : List SegmentReader} (h : ¬ ∃ r ∈ readers, r.Broken)
    (hn : ((readers.map remaining).map length).sum ≤ n) :
    (mergeStream n readers).1 = mergeSteps le n (readers.map remaining) ∧
      ((mergeStream n readers).2.map remaining).flatten = [] := by
  induction n generalizing readers with
  | zero =>
    refine ⟨rfl, length_eq_zero_iff.mp ?_⟩
    rw [length_flatten]
    simp only [mergeStream]
    omega
  | succ n ih =>
    rcases popRaw_cases readers with ⟨hpop, hend⟩ | ⟨e, readers', hpop, hmin, hbroken⟩
    · have hflat := hend.resolve_left h
      have hnone : popMin le (readers.map remaining) = none := by
        cases hmin : popMin le (readers.map remaining) with
        | none => rfl
        | some res =>
          have hperm := popMin_perm hmin
          rw [hflat] at hperm
          exact absurd hperm.length_eq (nofun)
      simp only [mergeStream, mergeSteps, hpop, hnone, true_and]
      exact hflat
    · have hlen := length_of_popMin hmin
      obtain ⟨hstream, hleft⟩ := ih (fun hb => h (hbroken.mp hb)) (by omega)
      simp only [mergeStream, mergeSteps, hpop, hmin]
      exact ⟨by rw [hstream], hleft⟩

/-- The two shapes of a pair that `process_group` drops at or below the fence. -/
def isGroupPair (a b : OutputKV) : Bool :=
  (a.isAdd && b.isDelete && decide (a.height = b.height)) ||
    (a.isDelete && b.isAdd && decide (b.height < a.height))

def groupSurvivors (fence : ℤ) : List OutputKV → List OutputKV
  | [a, b] => if isGroupPair a b && !decide (fence < a.height) then [] else [a, b]
  | group => group

/-- The survivors so far and the group being collected, which never exceeds four entries. -/
structure GroupState where
  out : List OutputKV
  group : List OutputKV

namespace GroupState

def init : GroupState := ⟨[], []⟩

def step (fence : ℤ) (st : GroupState) (e : OutputKV) : GroupState :=
  if st.group.head?.all (fun first => decide (e.key = first.key)) && decide (st.group.length < 4)
  then ⟨st.out, st.group ++ [e]⟩
  else ⟨st.out ++ groupSurvivors fence st.group, [e]⟩

end GroupState

open GroupState

/-- `GcMergeIter` over the merged entries. -/
def gcGroups (fence : ℤ) (merged : List OutputKV) : List OutputKV :=
  let st := merged.foldl (GroupState.step fence) GroupState.init
  st.out ++ groupSurvivors fence st.group

variable {fence : ℤ} {k : OutputKey} {merged : List OutputKV}

theorem groupSurvivors_cases (fence : ℤ) (group : List OutputKV) :
    groupSurvivors fence group = group ∨
      ∃ a b, group = [a, b] ∧ isGroupPair a b ∧ a.height ≤ fence ∧
        groupSurvivors fence group = [] := by
  unfold groupSurvivors
  split
  · rename_i a b
    split_ifs with h
    · simp only [Bool.and_eq_true, Bool.not_eq_true', decide_eq_false_iff_not, not_lt] at h
      exact .inr ⟨a, b, rfl, h.1, h.2, rfl⟩
    · exact .inl rfl
  · exact .inl rfl

theorem groupSurvivors_sublist (fence : ℤ) (group : List OutputKV) :
    (groupSurvivors fence group).Sublist group := by
  rcases groupSurvivors_cases fence group with h | ⟨a, b, -, -, -, h⟩
  · rw [h]
  · rw [h]
    exact nil_sublist _

/-- What holds of the pushed entries and of each flushed group holds of what is collected. -/
theorem gcGroups_induction {R : List OutputKV → List OutputKV → Prop} (hnil : R [] [])
    (hpush : ∀ merged out e, R merged out → R (merged ++ [e]) (out ++ [e]))
    (hflush : ∀ merged out group, (∀ e ∈ group, ∀ e' ∈ group, e.key = e'.key) →
      R merged (out ++ group) → R merged (out ++ groupSurvivors fence group))
    (merged : List OutputKV) : R merged (gcGroups fence merged) := by
  have hopen : let st := merged.foldl (step fence) init
      (∀ e ∈ st.group, ∀ e' ∈ st.group, e.key = e'.key) ∧ R merged (st.out ++ st.group) := by
    induction merged using reverseRecOn with
    | nil => exact ⟨nofun, hnil⟩
    | append_singleton merged e ih =>
      simp only [foldl_append, foldl_cons, foldl_nil] at ih ⊢
      generalize merged.foldl (step fence) init = st at ih ⊢
      obtain ⟨hkeys, hR⟩ := ih
      unfold step
      split_ifs with h
      · have hkey : ∀ x ∈ st.group ++ [e], x.key = e.key := by
          rw [forall_mem_append, forall_mem_singleton]
          refine ⟨fun x hx => ?_, rfl⟩
          cases hg : st.group with
          | nil => simp [hg] at hx
          | cons first group =>
            simp only [hg, head?_cons, Option.all_some, Bool.and_eq_true, decide_eq_true_eq] at h
            rw [h.1]
            exact hkeys x hx first (by simp [hg])
        refine ⟨fun x hx y hy => (hkey x hx).trans (hkey y hy).symm, ?_⟩
        rw [← append_assoc]
        exact hpush _ _ _ hR
      · exact ⟨by simp, hpush _ _ _ (hflush _ _ _ hkeys hR)⟩
  exact hflush _ _ _ hopen.1 hopen.2

theorem gcGroups_sublist (fence : ℤ) (merged : List OutputKV) :
    (gcGroups fence merged).Sublist merged :=
  gcGroups_induction (R := fun merged out => out.Sublist merged) (Sublist.refl _)
    (fun _ _ e h => h.append_right [e])
    (fun _ _ _ _ h => ((groupSurvivors_sublist fence _).append_left _).trans h) merged

theorem groupSurvivors_cancels {out group : List OutputKV}
    (hkeys : ∀ e ∈ group, ∀ e' ∈ group, e.key = e'.key)
    (hd : Descending (entriesOf k (out ++ group))) :
    Cancels (fence + 1) (entriesOf k (out ++ group))
      (entriesOf k (out ++ groupSurvivors fence group)) := by
  rcases groupSurvivors_cases fence group with h | ⟨a, b, rfl, hpair, hfence, h⟩
  · rw [h]
    exact refl _
  · rw [h, append_nil, entriesOf_append]
    by_cases hk : a.key = k
    · have hkb : b.key = k := (hkeys b (by simp) a (by simp)).trans hk
      have hgroup : entriesOf k [a, b] = [a, b] := by simp [entriesOf_cons, hk, hkb]
      rw [entriesOf_append, hgroup] at hd
      rw [hgroup]
      have hlt : b.height < a.height := by
        have := descending_right hd
        simpa [Descending] using this
      have hda : a.isAdd = false ∧ b.isAdd := by
        simp only [isGroupPair, isDelete_eq, Bool.or_eq_true, Bool.and_eq_true,
          decide_eq_true_eq, Bool.not_eq_true'] at hpair
        rcases hpair with ⟨-, hh⟩ | ⟨hab, -⟩
        · omega
        · exact hab
      have hbelow : Versioned.height a < fence + 1 := Int.lt_add_one_of_le hfence
      have hstep : Cancels (fence + 1) [a, b] [] :=
        pair a b hda.1 hda.2 hbelow (refl [])
      simpa using hstep.context (entriesOf k out) []
    · have hkb : b.key ≠ k := fun hb => hk ((hkeys a (by simp) b (by simp)).trans hb)
      have hgroup : entriesOf k [a, b] = [] := by simp [entriesOf_cons, hk, hkb]
      rw [hgroup, append_nil]
      exact refl _

theorem gcGroups_cancels (hd : ∀ k, Descending (entriesOf k merged)) (k : OutputKey) :
    Cancels (fence + 1) (entriesOf k merged) (entriesOf k (gcGroups fence merged)) := by
  refine gcGroups_induction (R := fun merged out => (∀ k, Descending (entriesOf k merged)) →
    Cancels (fence + 1) (entriesOf k merged) (entriesOf k out)) (fun _ => refl _) ?_ ?_ merged hd
  · intro merged out e hprev hd
    rw [entriesOf_append, entriesOf_append]
    exact (hprev fun k => (hd k).sublist ((sublist_append_left ..).filter _)).append (refl _)
  · intro merged out group hkeys hopen hd
    exact (hopen hd).trans (groupSurvivors_cancels hkeys (descending (hopen hd) (hd k)))

/-- What is left of one key: the full groups, and the rest unless it is a pair at or below the
fence. -/
def keySurvivors (fence : ℤ) (l : List OutputKV) : List OutputKV :=
  l.take (l.length / 4 * 4) ++ groupSurvivors fence (l.drop (l.length / 4 * 4))

section Keys

variable {group rest l : List OutputKV}

@[simp] theorem keySurvivors_nil : keySurvivors fence [] = [] := rfl

theorem keySurvivors_sublist (fence : ℤ) (l : List OutputKV) :
    (keySurvivors fence l).Sublist l := by
  have hsub := (groupSurvivors_sublist fence (l.drop (l.length / 4 * 4))).append_left
    (l.take (l.length / 4 * 4))
  rwa [take_append_drop] at hsub

theorem keySurvivors_of_lt (h : l.length < 4) : keySurvivors fence l = groupSurvivors fence l := by
  simp [keySurvivors, Nat.div_eq_of_lt h]

theorem keySurvivors_full (h : group.length = 4) :
    keySurvivors fence (group ++ l) = group ++ keySurvivors fence l := by
  have hlen : (group.length + l.length) / 4 * 4 = group.length + l.length / 4 * 4 := by omega
  rw [keySurvivors, length_append, hlen, take_length_add_append, drop_length_add_append,
    append_assoc, keySurvivors]

theorem groupSurvivors_full (h : group.length = 4) : groupSurvivors fence group = group := by
  rcases groupSurvivors_cases fence group with heq | ⟨a, b, rfl, -⟩
  · exact heq
  · simp at h

theorem entriesOf_flush (hkeys : ∀ e ∈ group, ∀ e' ∈ group, e.key = e'.key)
    (hlen : group.length ≤ 4)
    (h : group.length = 4 ∨ ∀ e ∈ group, ∀ e' ∈ rest, e'.key ≠ e.key) (k : OutputKey) :
    entriesOf k (groupSurvivors fence group) ++ keySurvivors fence (entriesOf k rest) =
      keySurvivors fence (entriesOf k (group ++ rest)) := by
  have hsub := groupSurvivors_sublist fence group
  rw [entriesOf_append]
  by_cases hk : ∃ e ∈ group, e.key = k
  · obtain ⟨e, he, rfl⟩ := hk
    have hall : ∀ x ∈ group, x.key = e.key := fun x hx => hkeys x hx e he
    rw [entriesOf_eq_self hall, entriesOf_eq_self fun x hx => hall x (hsub.subset hx)]
    by_cases hfull : group.length = 4
    · rw [groupSurvivors_full hfull, keySurvivors_full hfull]
    · have hlt : group.length < 4 := by omega
      rw [entriesOf_eq_nil (h.resolve_left hfull e he), keySurvivors_nil, append_nil, append_nil,
        keySurvivors_of_lt hlt]
  · have hnone : ∀ x ∈ group, x.key ≠ k := fun x hx hxk => hk ⟨x, hx, hxk⟩
    rw [entriesOf_eq_nil hnone, entriesOf_eq_nil fun x hx => hnone x (hsub.subset hx), nil_append,
      nil_append]

theorem entriesOf_foldl_step (out : List OutputKV)
    (hkeys : ∀ e ∈ group, ∀ e' ∈ group, e.key = e'.key) (hlen : group.length ≤ 4)
    (hs : Sorted (group ++ merged)) (k : OutputKey) :
    entriesOf k ((merged.foldl (step fence) ⟨out, group⟩).out ++
        groupSurvivors fence (merged.foldl (step fence) ⟨out, group⟩).group) =
      entriesOf k out ++ keySurvivors fence (entriesOf k (group ++ merged)) := by
  induction merged generalizing out group with
  | nil =>
    rw [foldl_nil, entriesOf_append, ← entriesOf_flush hkeys hlen (.inr (by simp)) k]
    simp
  | cons e merged ih =>
    rw [foldl_cons, step]
    split_ifs with h
    · have hkey : ∀ x ∈ group, x.key = e.key := by
        intro x hx
        cases hg : group with
        | nil => simp [hg] at hx
        | cons first others =>
          simp only [hg, head?_cons, Option.all_some, Bool.and_eq_true, decide_eq_true_eq] at h
          rw [h.1]
          exact hkeys x hx first (by simp [hg])
      have hall : ∀ x ∈ group ++ [e], x.key = e.key := by
        rw [forall_mem_append, forall_mem_singleton]
        exact ⟨hkey, rfl⟩
      have hroom : (group ++ [e]).length ≤ 4 := by
        simp only [Bool.and_eq_true, decide_eq_true_eq] at h
        rw [length_append, length_singleton]
        exact h.2
      rw [append_cons] at hs
      rw [append_cons group e merged]
      exact ih out (fun x hx y hy => (hall x hx).trans (hall y hy).symm) hroom hs
    · rw [ih _ (by simp) (by simp) (pairwise_append.mp hs).2.1, entriesOf_append, append_assoc]
      congr 1
      apply entriesOf_flush hkeys hlen
      by_cases hfull : group.length = 4
      · exact .inl hfull
      · right
        intro x hx y hy hxy
        have hxe := le_key ((pairwise_append.mp hs).2.2 x hx e mem_cons_self)
        have hey : e.key.toNat ≤ y.key.toNat := by
          rcases mem_cons.mp hy with rfl | hy
          · exact le_rfl
          · exact le_key ((pairwise_cons.mp (pairwise_append.mp hs).2.1).1 y hy)
        have hsame : e.key = x.key := OutputKey.toNat_injective (by rw [hxy] at hey; omega)
        cases hg : group with
        | nil => simp [hg] at hx
        | cons first others =>
          apply h
          have hfirst : e.key = first.key := hsame.trans (hkeys x hx first (by simp [hg]))
          simp only [hg, head?_cons, Option.all_some, hfirst, decide_true, Bool.true_and,
            decide_eq_true_eq]
          rw [← hg]
          omega

/-- The one creation that is dropped: the oldest entry of its key, in a last group of two with a
removal at or below the fence. -/
def Dropped (fence : ℤ) (l : List OutputKV) (e : OutputKV) : Prop :=
  ∃ newer d, l = newer ++ [d, e] ∧ 4 ∣ newer.length ∧ d.height ≤ fence

theorem not_mem_keySurvivors {e : OutputKV} (hd : Descending l) (ha : Alternating l)
    (h : Dropped fence l e) (hadd : e.isAdd) : e ∉ keySurvivors fence l := by
  obtain ⟨newer, d, rfl, hfour, hfence⟩ := h
  have hlen : (newer ++ [d, e]).length / 4 * 4 = newer.length := by
    rw [length_append, length_cons, length_singleton]
    omega
  obtain ⟨-, hpair, hlt⟩ := pairwise_append.mp hd
  have hde : e.height < d.height := by simpa using hpair
  have hdel : d.isAdd = false := by
    have hlast := alternating_right ha
    simpa [hadd] using hlast.1
  have hgone : groupSurvivors fence [d, e] = [] := by
    simp [groupSurvivors, isGroupPair, hadd, hdel, hde, hfence]
  rw [keySurvivors, hlen, take_left, drop_left, hgone, append_nil]
  exact fun hmem => lt_irrefl _ (hlt e hmem e (by simp))

theorem mem_keySurvivors {e : OutputKV} (hd : Descending l) (he : e ∈ l) (hadd : e.isAdd)
    (h : ¬ Dropped fence l e) : e ∈ keySurvivors fence l := by
  have hsplit := take_append_drop (l.length / 4 * 4) l
  rcases groupSurvivors_cases fence (l.drop (l.length / 4 * 4)) with
    heq | ⟨a, b, hab, hpair, hfence, -⟩
  · rwa [keySurvivors, heq, hsplit]
  · rw [hab] at hsplit
    have hlt : b.height < a.height := by
      have hlast := descending_right (hsplit.symm ▸ hd)
      simpa [Descending] using hlast
    rw [← hsplit, mem_append] at he
    rcases he with he | he
    · exact mem_append_left _ he
    · rcases mem_pair.mp he with rfl | rfl
      · simp [isGroupPair, hadd, hlt.ne'] at hpair
      · refine absurd ⟨_, a, hsplit.symm, ?_, hfence⟩ h
        rw [length_take, min_eq_left (Nat.div_mul_le_self _ _)]
        exact Nat.dvd_mul_left 4 _

theorem entriesOf_gcGroups (hs : Sorted merged) (k : OutputKey) :
    entriesOf k (gcGroups fence merged) = keySurvivors fence (entriesOf k merged) :=
  @entriesOf_foldl_step fence merged [] [] (by simp) (Nat.zero_le _) hs k

end Keys

end BlvmNode
