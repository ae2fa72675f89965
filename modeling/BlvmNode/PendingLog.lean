import BlvmNode.Lib.RowTable

/-!
# The pending log of the legacy store

Each validated block leaves the outputs it creates and the tombstones of the outputs it spends in
a log of shards. Flushes drain entries of the log into packages, sort them by key and commit them
to the tree in chunks, creations and tombstones separately.
-/

namespace BlvmNode

open RowTable List

def pendingShards : ℕ := 32

def maxBatchOps : ℕ := 200000

/-- A created output with its value, or a tombstone, stamped with the height of its block. -/
structure PendingLogEntry (K V : Type) where
  key : K
  value : Option V
  height : ℕ

structure UtxoDelta (K V : Type) where
  additions : List (K × V)
  deletions : List K

/-- Operations for the tree; no value means a delete. -/
structure PendingFlushPackage (K V : Type) where
  ops : List (K × Option V)
  maxBlockHeight : ℕ

section Drains

variable {α : Type}

def swapRemove (s : List α) (i : ℕ) : List α :=
  match s.getLast? with
  | none => []
  | some last => (s.set i last).dropLast

/-- The loop over one shard from position `i`; `fuel` bounds the entries it looks at. -/
def drainShard (p : α → Bool) : ℕ → ℕ → ℕ → List α → List α × List α
  | 0, _, _, s => ([], s)
  | fuel + 1, i, budget, s =>
    match s[i]? with
    | none => ([], s)
    | some e =>
      if budget = 0 then ([], s)
      else if p e then
        let res := drainShard p fuel i (budget - 1) (swapRemove s i)
        (e :: res.1, res.2)
      else drainShard p fuel (i + 1) budget s

/-- Matching entries of all shards, at most `budget` of them, and the shards without them. -/
def drainMatching (p : α → Bool) : ℕ → List (List α) → List α × List (List α)
  | _, [] => ([], [])
  | budget, s :: shards =>
    let res := drainShard p s.length 0 budget s
    let more := drainMatching p (budget - res.1.length) shards
    (res.1 ++ more.1, res.2 :: more.2)

/-- Whole shards until the budget is used up, the last one in part. -/
def drainFront : ℕ → List (List α) → List α × List (List α)
  | _, [] => ([], [])
  | budget, s :: shards =>
    let more := drainFront (budget - s.length) shards
    (s.take budget ++ more.1, s.drop budget :: more.2)

variable {s : List α}

theorem swapRemove_perm {i : ℕ} {e : α} (h : s[i]? = some e) : s.Perm (e :: swapRemove s i) := by
  rcases eq_nil_or_concat s with rfl | ⟨front, last, rfl⟩
  · simp at h
  · rw [concat_eq_append] at h ⊢
    rw [swapRemove, getLast?_concat]
    simp only
    rw [set_append]
    split_ifs with hi
    · rw [getElem?_append_left hi, getElem?_eq_getElem hi, Option.some.injEq] at h
      subst h
      rw [dropLast_concat]
      have hset := set_perm_cons_eraseIdx hi last
      have hget := getElem_cons_eraseIdx_perm hi
      calc (front ++ [last]).Perm (last :: front) := perm_append_singleton last front
        _ |>.Perm (last :: front[i] :: front.eraseIdx i) := hget.symm.cons last
        _ |>.Perm (front[i] :: last :: front.eraseIdx i) := List.Perm.swap _ _ _
        _ |>.Perm (front[i] :: front.set i last) := hset.symm.cons _
    · have hlast : i = front.length := by
        have hlt := (List.getElem?_eq_some_iff.mp h).1
        rw [length_append, length_singleton] at hlt
        omega
      subst hlast
      rw [getElem?_concat_length, Option.some.injEq] at h
      subst h
      simp

theorem append_exchange_perm (a b c d : List α) :
    ((a ++ b) ++ (c ++ d)).Perm ((a ++ c) ++ (b ++ d)) := by
  rw [append_assoc, append_assoc, ← append_assoc b, ← append_assoc c]
  exact (perm_append_comm.append_right d).append_left a

variable (p : α → Bool)

theorem drainShard_perm (fuel i budget : ℕ) (s : List α) :
    ((drainShard p fuel i budget s).1 ++ (drainShard p fuel i budget s).2).Perm s := by
  induction fuel generalizing i budget s with
  | zero => exact Perm.refl s
  | succ fuel ih =>
    rw [drainShard]
    cases hi : s[i]? with
    | none => exact Perm.refl s
    | some e =>
      simp only
      split_ifs
      · exact Perm.refl s
      · exact ((ih i (budget - 1) (swapRemove s i)).cons e).trans (swapRemove_perm hi).symm
      · exact ih (i + 1) budget s

variable (budget : ℕ) (shards : List (List α))

theorem drainMatching_perm :
    ((drainMatching p budget shards).1 ++ (drainMatching p budget shards).2.flatten).Perm
      shards.flatten := by
  induction shards generalizing budget with
  | nil => exact Perm.refl _
  | cons s shards ih =>
    rw [drainMatching]
    simp only [flatten_cons]
    have hs := drainShard_perm p s.length 0 budget s
    have hmore := ih (budget - (drainShard p s.length 0 budget s).1.length)
    exact (append_exchange_perm _ _ _ _).trans (hs.append hmore)

theorem drainFront_perm :
    ((drainFront budget shards).1 ++ (drainFront budget shards).2.flatten).Perm shards.flatten := by
  induction shards generalizing budget with
  | nil => exact Perm.refl _
  | cons s shards ih =>
    rw [drainFront]
    simp only [flatten_cons]
    refine (append_exchange_perm _ _ _ _).trans ?_
    rw [take_append_drop]
    exact (ih _).append_left s

theorem length_swapRemove (s : List α) (i : ℕ) : (swapRemove s i).length = s.length - 1 := by
  rcases eq_nil_or_concat s with rfl | ⟨front, last, rfl⟩
  · rfl
  · simp [swapRemove]

theorem take_swapRemove {i : ℕ} (h : i < s.length) : (swapRemove s i).take i = s.take i := by
  rcases eq_nil_or_concat s with rfl | ⟨front, last, rfl⟩
  · simp at h
  · rw [swapRemove, concat_eq_append, getLast?_concat]
    dsimp only
    rw [concat_eq_append, length_append, length_singleton] at h
    have hlen : i ≤ ((front ++ [last]).set i last).length - 1 := by
      simp only [length_set, length_append, length_singleton]
      omega
    rw [dropLast_eq_take, take_take, min_eq_left hlen, take_set_of_le le_rfl]

theorem drainShard_left {fuel i budget : ℕ}
    (hfuel : s.length ≤ fuel + i) (hseen : ∀ e ∈ s.take i, p e = false)
    (h : (drainShard p fuel i budget s).1.length < budget) :
    ∀ e ∈ (drainShard p fuel i budget s).2, p e = false := by
  induction fuel generalizing i budget s with
  | zero =>
    rw [Nat.zero_add] at hfuel
    rw [take_of_length_le hfuel] at hseen
    exact hseen
  | succ fuel ih =>
    rw [drainShard] at h ⊢
    cases hi : s[i]? with
    | none =>
      rw [take_of_length_le (getElem?_eq_none_iff.mp hi)] at hseen
      exact hseen
    | some e =>
      have hlt := (List.getElem?_eq_some_iff.mp hi).1
      rw [hi] at h
      dsimp only at h ⊢
      split_ifs at h ⊢ with hbudget hmatch
      · simp [hbudget] at h
      · rw [length_cons] at h
        refine ih ?_ ?_ (by omega)
        · rw [length_swapRemove]
          omega
        · rwa [take_swapRemove hlt]
      · refine ih (by omega) (fun e' he' => ?_) h
        rw [take_add_one, hi, Option.toList_some, mem_append, mem_singleton] at he'
        rcases he' with he' | rfl
        · exact hseen e' he'
        · exact Bool.not_eq_true _ ▸ hmatch

theorem drainShard_taken (fuel i budget : ℕ) (s : List α) :
    (drainShard p fuel i budget s).1.length ≤ budget ∧
      ∀ e ∈ (drainShard p fuel i budget s).1, p e := by
  induction fuel generalizing i budget s with
  | zero => simp [drainShard]
  | succ fuel ih =>
    rw [drainShard]
    cases s[i]? with
    | none => simp
    | some e =>
      dsimp only
      split_ifs with hbudget hmatch
      · simp
      · obtain ⟨hlen, hall⟩ := ih i (budget - 1) (swapRemove s i)
        refine ⟨?_, forall_mem_cons.mpr ⟨hmatch, hall⟩⟩
        rw [length_cons]
        omega
      · exact ih (i + 1) budget s

theorem drainMatching_taken :
    (drainMatching p budget shards).1.length ≤ budget ∧
      ∀ e ∈ (drainMatching p budget shards).1, p e := by
  induction shards generalizing budget with
  | nil => simp [drainMatching]
  | cons s shards ih =>
    rw [drainMatching]
    obtain ⟨hlen, hall⟩ := drainShard_taken p s.length 0 budget s
    obtain ⟨hmore, hrest⟩ := ih (budget - (drainShard p s.length 0 budget s).1.length)
    refine ⟨?_, fun e he => (mem_append.mp he).elim (hall e) (hrest e)⟩
    rw [length_append]
    omega

theorem drainMatching_left {budget : ℕ} {shards : List (List α)}
    (h : (drainMatching p budget shards).1.length < budget) :
    ∀ e ∈ (drainMatching p budget shards).2.flatten, p e = false := by
  induction shards generalizing budget with
  | nil => simp [drainMatching]
  | cons s shards ih =>
    rw [drainMatching] at h ⊢
    simp only [length_append, flatten_cons, mem_append] at h ⊢
    rintro e (he | he)
    · exact drainShard_left p (Nat.le_add_right _ _) (by simp) (by omega) e he
    · exact ih (by omega) e he

theorem drainMatching_all :
    ∀ e ∈ (drainMatching p shards.flatten.length shards).2.flatten, p e = false := by
  have hperm := drainMatching_perm p shards.flatten.length shards
  rcases (drainMatching_taken p shards.flatten.length shards).1.lt_or_eq with hlt | heq
  · exact drainMatching_left p hlt
  · -- everything was taken
    have hlen := hperm.length_eq
    rw [length_append, heq, Nat.add_eq_left] at hlen
    rw [length_eq_zero_iff.mp hlen]
    simp

theorem length_drainMatching : (drainMatching p budget shards).2.length = shards.length := by
  induction shards generalizing budget with
  | nil => rfl
  | cons s shards ih => simp only [drainMatching, length_cons, ih]

theorem length_drainFront : (drainFront budget shards).2.length = shards.length := by
  induction shards generalizing budget with
  | nil => rfl
  | cons s shards ih => simp only [drainFront, length_cons, ih]

end Drains

section Packages

variable {K V : Type}

def addKeys (ops : List (K × Option V)) : List K :=
  (ops.filter (fun op => op.2.isSome)).map Prod.fst

def delKeys (ops : List (K × Option V)) : List K :=
  (ops.filter (fun op => op.2.isNone)).map Prod.fst

def maxHeightOf (raw : List (PendingLogEntry K V)) : ℕ :=
  (raw.map (fun e => e.height)).foldr max 0

def chunksOf (ops : List (K × Option V)) : List (List (K × Option V)) :=
  cutList maxBatchOps ops.length ops

theorem flatten_chunksOf (ops : List (K × Option V)) : (chunksOf ops).flatten = ops :=
  cutList_flatten (by decide) le_rfl

variable (chunks : List (List (K × Option V))) {op : K × Option V}

theorem addKeys_flatten : addKeys chunks.flatten = chunks.flatMap addKeys := by
  simp only [addKeys, filter_flatten, map_flatten, map_map, flatMap_def]
  rfl

theorem delKeys_flatten : delKeys chunks.flatten = chunks.flatMap delKeys := by
  simp only [delKeys, filter_flatten, map_flatten, map_map, flatMap_def]
  rfl

theorem mem_addKeys_of_isSome {ops : List (K × Option V)} (h : op ∈ ops)
    (hv : op.2.isSome) : op.1 ∈ addKeys ops :=
  mem_map_of_mem (mem_filter.mpr ⟨h, hv⟩)

variable [LinearOrder K]

def opLe (a b : K × Option V) : Prop := a.1 ≤ b.1

instance : DecidableRel (opLe (K := K) (V := V)) := fun _ _ => inferInstanceAs (Decidable (_ ≤ _))

/-- `pack_flush_package_adds_only` and `pack_flush_package_dels_only`: the operations by key. -/
def packFlushPackage (raw : List (PendingLogEntry K V)) : Option (PendingFlushPackage K V) :=
  if raw.isEmpty then none
  else some ⟨(raw.map (fun e => (e.key, e.value))).insertionSort opLe, maxHeightOf raw⟩

def entryLe (a b : K × PendingLogEntry K V) : Prop :=
  a.1 < b.1 ∨ a.1 = b.1 ∧ a.2.height ≤ b.2.height

instance : DecidableRel (entryLe (K := K) (V := V)) :=
  fun _ _ => inferInstanceAs (Decidable (_ ∨ _))

/-- `dedupe_pending_triples_in_place`: of each key the entry of the greatest height stays. -/
def dedupePending (raw : List (PendingLogEntry K V)) : List (PendingLogEntry K V) :=
  ((collapse ((raw.map (fun e => (e.key, e))).insertionSort entryLe)).1).map Prod.snd

def packRemaining (raw : List (PendingLogEntry K V)) : Option (PendingFlushPackage K V) :=
  if raw.isEmpty then none
  else some ⟨(dedupePending raw).map (fun e => (e.key, e.value)), maxHeightOf (dedupePending raw)⟩

def commitAdds (disk : List (K × V)) (chunk : List (K × Option V)) : List (K × V) :=
  putAll disk (chunk.filterMap (fun op => op.2.map (fun v => (op.1, v))))

def commitDels (disk : List (K × V)) (chunk : List (K × Option V)) : List (K × V) :=
  disk.filter (fun row => decide (row.1 ∉ delKeys chunk))

variable {raw : List (PendingLogEntry K V)} {chunk : List (K × Option V)} {disk : List (K × V)}

theorem mem_keys_commitAdds {k : K} :
    k ∈ (commitAdds disk chunk).map Prod.fst ↔ k ∈ disk.map Prod.fst ∨ k ∈ addKeys chunk := by
  rw [commitAdds, mem_keys_putAll]
  refine or_congr_right ?_
  simp only [addKeys, mem_map, mem_filterMap, mem_filter, Option.map_eq_some_iff,
    Option.isSome_iff_exists]
  constructor
  · rintro ⟨row, ⟨op, hop, v, hv, rfl⟩, rfl⟩
    exact ⟨op, ⟨hop, v, hv⟩, rfl⟩
  · rintro ⟨op, ⟨hop, v, hv⟩, rfl⟩
    exact ⟨(op.1, v), ⟨op, hop, v, hv, rfl⟩, rfl⟩

theorem mem_keys_commitDels {k : K} :
    k ∈ (commitDels disk chunk).map Prod.fst ↔ k ∈ disk.map Prod.fst ∧ k ∉ delKeys chunk := by
  simp only [commitDels, mem_map, mem_filter, decide_eq_true_eq]
  constructor
  · rintro ⟨row, ⟨hrow, hnot⟩, rfl⟩
    exact ⟨⟨row, hrow, rfl⟩, hnot⟩
  · rintro ⟨⟨row, hrow, rfl⟩, hnot⟩
    exact ⟨row, ⟨hrow, hnot⟩, rfl⟩

variable {pkg : PendingFlushPackage K V} {bound : ℕ}

theorem mem_of_packFlushPackage (h : packFlushPackage raw = some pkg) :
    op ∈ pkg.ops ↔ ∃ e ∈ raw, (e.key, e.value) = op := by
  rw [packFlushPackage, Option.ite_none_left_eq_some, Option.some.injEq] at h
  rw [← h.2, mem_insertionSort, mem_map]

omit [LinearOrder K] in
theorem maxHeightOf_le (h : ∀ e ∈ raw, e.height ≤ bound) : maxHeightOf raw ≤ bound := by
  refine max_le_of_forall_le _ bound fun t ht => ?_
  obtain ⟨e, he, rfl⟩ := mem_map.mp ht
  exact h e he

theorem mem_of_dedupePending {e : PendingLogEntry K V} (h : e ∈ dedupePending raw) : e ∈ raw := by
  obtain ⟨row, hrow, rfl⟩ := mem_map.mp h
  have hmem := collapse_subset hrow
  rw [mem_insertionSort] at hmem
  obtain ⟨e, he, rfl⟩ := mem_map.mp hmem
  exact he

theorem entryLe_iff {a b : K × PendingLogEntry K V} :
    entryLe a b ↔ toLex (a.1, a.2.height) ≤ toLex (b.1, b.2.height) := by
  rw [Prod.Lex.toLex_le_toLex, entryLe]

theorem entryLe_pairwise (raw : List (PendingLogEntry K V)) :
    ((raw.map (fun e => (e.key, e))).insertionSort entryLe).Pairwise entryLe := by
  have htotal : Std.Total (entryLe (K := K) (V := V)) := by
    refine ⟨fun a b => ?_⟩
    rw [entryLe_iff, entryLe_iff]
    exact le_total _ _
  have htrans : IsTrans _ (entryLe (K := K) (V := V)) := by
    refine ⟨fun a b c hab hbc => ?_⟩
    rw [entryLe_iff] at hab hbc ⊢
    exact hab.trans hbc
  exact pairwise_insertionSort ..

theorem exists_dedupePending {e : PendingLogEntry K V}
    (h : e ∈ raw) : ∃ last ∈ dedupePending raw, last.key = e.key := by
  have hmem : (e.key, e) ∈ (raw.map (fun e => (e.key, e))).insertionSort entryLe := by
    rw [mem_insertionSort]
    exact mem_map_of_mem h
  obtain ⟨row, hrow, hkey⟩ := mem_keys_collapse _ _ hmem
  have hentry := collapse_subset hrow
  rw [mem_insertionSort] at hentry
  obtain ⟨last, _, rfl⟩ := mem_map.mp hentry
  exact ⟨last, mem_map_of_mem hrow, hkey⟩

theorem height_le_dedupePending {e last : PendingLogEntry K V}
    (hlast : last ∈ dedupePending raw) (he : e ∈ raw) (hkey : e.key = last.key) :
    e.height ≤ last.height := by
  obtain ⟨row, hrow, rfl⟩ := mem_map.mp hlast
  have hentry := collapse_subset hrow
  rw [mem_insertionSort] at hentry
  obtain ⟨last, _, rfl⟩ := mem_map.mp hentry
  have hmem : (e.key, e) ∈ (raw.map (fun e => (e.key, e))).insertionSort entryLe := by
    rw [mem_insertionSort]
    exact mem_map_of_mem he
  have hkeys : ∀ a b : K × PendingLogEntry K V, entryLe a b → a.1 ≤ b.1 :=
    fun a b h => h.elim le_of_lt (fun h => h.1.le)
  have htogether : ∀ a b c : K × PendingLogEntry K V, entryLe a b → entryLe b c → a.1 = c.1 →
      a.1 = b.1 :=
    fun a b c hab hbc hac => le_antisymm (hkeys a b hab) (hac ▸ hkeys b c hbc)
  rcases collapse_last htogether (entryLe_pairwise raw) hrow hmem hkey with heq | hle
  · exact (congrArg (fun row => row.2.height) heq).le
  · rcases hle with hlt | ⟨_, hle⟩
    · exact absurd hkey hlt.ne
    · exact hle

theorem maxBlockHeight_packRemaining_le (h : packRemaining raw = some pkg)
    (hraw : ∀ e ∈ raw, e.height ≤ bound) : pkg.maxBlockHeight ≤ bound := by
  rw [packRemaining, Option.ite_none_left_eq_some, Option.some.injEq] at h
  rw [← h.2]
  exact maxHeightOf_le fun e he => hraw e (mem_of_dedupePending he)

end Packages

structure PendingLog (K V : Type) where
  addShards : List (List (PendingLogEntry K V))
  delShards : List (List (PendingLogEntry K V))

namespace PendingLog

variable {K V : Type}

def empty : PendingLog K V := ⟨List.replicate pendingShards [], List.replicate pendingShards []⟩

def adds (log : PendingLog K V) : List (PendingLogEntry K V) := log.addShards.flatten

def dels (log : PendingLog K V) : List (PendingLogEntry K V) := log.delShards.flatten

def len (log : PendingLog K V) : ℕ := log.adds.length + log.dels.length

def pushShards (shardOf : K → ℕ) (items : List (PendingLogEntry K V))
    (shards : List (List (PendingLogEntry K V))) : List (List (PendingLogEntry K V)) :=
  shards.mapIdx (fun i s => s ++ items.filter (fun e => shardOf e.key % pendingShards = i))

def applyUtxoDelta (shardOf : K → ℕ) (delta : UtxoDelta K V) (height : ℕ) (log : PendingLog K V) :
    PendingLog K V where
  addShards := pushShards shardOf (delta.additions.map (fun a => ⟨a.1, some a.2, height⟩))
    log.addShards
  delShards := pushShards shardOf (delta.deletions.map (fun k => ⟨k, none, height⟩)) log.delShards

def hasPendingAddsAtOrBelow (maxHeight : ℕ) (log : PendingLog K V) : Bool :=
  log.adds.any (fun e => decide (e.height ≤ maxHeight))

def discardDelBacklog (watermark : ℕ) (log : PendingLog K V) : PendingLog K V :=
  { log with delShards := (drainMatching (fun e => decide (e.height ≤ watermark)) log.dels.length
      log.delShards).2 }

/-- The log after `take_remaining_flush_package`. -/
def clear (log : PendingLog K V) : PendingLog K V :=
  ⟨log.addShards.map (fun _ => []), log.delShards.map (fun _ => [])⟩

variable (log : PendingLog K V)

theorem adds_clear : log.clear.adds = [] := by
  simp [clear, adds]

theorem dels_clear : log.clear.dels = [] := by
  simp [clear, dels]

theorem length_pushShards (shardOf : K → ℕ) (items : List (PendingLogEntry K V))
    (shards : List (List (PendingLogEntry K V))) :
    (pushShards shardOf items shards).length = shards.length :=
  length_mapIdx

variable {items : List (PendingLogEntry K V)}

theorem mem_of_mem_pushShards {shardOf : K → ℕ}
    {shards : List (List (PendingLogEntry K V))} {e : PendingLogEntry K V}
    (h : e ∈ (pushShards shardOf items shards).flatten) : e ∈ shards.flatten ∨ e ∈ items := by
  simp only [pushShards, mem_flatten, mem_mapIdx] at h ⊢
  obtain ⟨s, ⟨i, hi, rfl⟩, he⟩ := h
  rcases mem_append.mp he with hold | hnew
  · exact .inl ⟨shards[i], getElem_mem hi, hold⟩
  · exact .inr (mem_filter.mp hnew).1

theorem mem_pushShards_of_mem {shardOf : K → ℕ} {shards : List (List (PendingLogEntry K V))}
    (h : shards.length = pendingShards) {e : PendingLogEntry K V}
    (he : e ∈ shards.flatten ∨ e ∈ items) : e ∈ (pushShards shardOf items shards).flatten := by
  simp only [pushShards, mem_flatten, mem_mapIdx] at he ⊢
  rcases he with ⟨s, hs, he⟩ | he
  · obtain ⟨i, hi, rfl⟩ := getElem_of_mem hs
    exact ⟨_, ⟨i, hi, rfl⟩, mem_append_left _ he⟩
  · have hi : shardOf e.key % pendingShards < shards.length := by
      rw [h]
      exact Nat.mod_lt _ (by decide)
    exact ⟨_, ⟨_, hi, rfl⟩, mem_append_right _ (mem_filter.mpr ⟨he, by simp⟩)⟩

section Delta

variable {shardOf : K → ℕ} {delta : UtxoDelta K V} {height : ℕ} {log : PendingLog K V}

theorem mem_adds_applyUtxoDelta (h : log.addShards.length = pendingShards)
    {e : PendingLogEntry K V} : e ∈ (log.applyUtxoDelta shardOf delta height).adds ↔
      e ∈ log.adds ∨ ∃ row ∈ delta.additions, ⟨row.1, some row.2, height⟩ = e :=
  Iff.trans ⟨mem_of_mem_pushShards, mem_pushShards_of_mem h⟩ (or_congr_right mem_map)

theorem mem_dels_applyUtxoDelta (h : log.delShards.length = pendingShards)
    {e : PendingLogEntry K V} : e ∈ (log.applyUtxoDelta shardOf delta height).dels ↔
      e ∈ log.dels ∨ ∃ k ∈ delta.deletions, ⟨k, none, height⟩ = e :=
  Iff.trans ⟨mem_of_mem_pushShards, mem_pushShards_of_mem h⟩ (or_congr_right mem_map)

end Delta

theorem hasPendingAddsAtOrBelow_eq_false {maxHeight : ℕ} {log : PendingLog K V}
    (h : log.hasPendingAddsAtOrBelow maxHeight = false) : ∀ e ∈ log.adds, maxHeight < e.height := by
  intro e he
  rw [hasPendingAddsAtOrBelow, any_eq_false] at h
  simpa using h e he

/-- The creations that leave the log are operations of the package. -/
structure Withdraws (log log' : PendingLog K V) (ops : List (K × Option V)) : Prop where
  shards : log'.addShards.length = log.addShards.length
  dels : log'.delShards = log.delShards
  kept : ∀ e ∈ log'.adds, e ∈ log.adds
  left : ∀ e ∈ log.adds, e ∈ log'.adds ∨ (e.key, e.value) ∈ ops
  drained : ∀ op ∈ ops, ∃ e ∈ log.adds, (e.key, e.value) = op

theorem withdraws_refl : Withdraws log log [] :=
  ⟨rfl, rfl, fun _ he => he, fun _ he => .inl he, nofun⟩

theorem withdraws_of_perm [LinearOrder K] {log : PendingLog K V}
    {raw : List (PendingLogEntry K V)} {shards : List (List (PendingLogEntry K V))}
    (hlen : shards.length = log.addShards.length) (hperm : (raw ++ shards.flatten).Perm log.adds) :
    Withdraws log { log with addShards := shards }
      ((packFlushPackage raw).elim [] (fun pkg => pkg.ops)) := by
  have hops : ∀ op, op ∈ (packFlushPackage raw).elim [] (fun pkg => pkg.ops) ↔
      ∃ e ∈ raw, (e.key, e.value) = op := by
    intro op
    cases hpack : packFlushPackage raw with
    | none =>
      rw [packFlushPackage, ite_eq_left_iff] at hpack
      have hraw : raw = [] := by
        by_contra hne
        exact absurd (hpack (by simpa using hne)) (Option.some_ne_none _)
      simp [hraw]
    | some pkg => exact mem_of_packFlushPackage hpack
  refine ⟨hlen, rfl, fun e he => hperm.mem_iff.mp (mem_append_right raw he), fun e he => ?_,
    fun op hop => ?_⟩
  · rcases mem_append.mp (hperm.mem_iff.mpr he) with hraw | hrest
    · exact .inr ((hops _).mpr ⟨e, hraw, rfl⟩)
    · exact .inl hrest
  · obtain ⟨e, he, heq⟩ := (hops op).mp hop
    exact ⟨e, hperm.mem_iff.mp (mem_append_left _ he), heq⟩

end PendingLog

end BlvmNode
