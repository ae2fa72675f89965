import BlvmNode.DurabilityLoop
import BlvmNode.Lib.KeyTable
import BlvmNode.Lib.NetWrites
import Mathlib.Logic.Function.Basic

/-!
# The legacy coin store

A bounded cache in front of an on-disk tree. Workers put the outputs of a validated block into the
cache and protect its height from eviction; applying the block's delta removes what it spends and
logs its operations; drains turn log entries into packages, which flushes write to the tree. Every
store here has a finite cap.
-/

namespace BlvmNode

open List Function PendingLog NetWrites

variable {K V : Type} {k : K}

/-- A cached coin. Without a height it needs no protection. -/
structure CacheSlot (V : Type) where
  generation : ℕ
  utxo : V
  blockHeight : Option ℕ

structure IbdUtxoStore (K V : Type) where
  cache : KeyTable K (CacheSlot V)
  nextGeneration : ℕ
  inFlight : K → Option V
  log : PendingLog K V
  protectedHeights : List ℕ
  disk : K → Option V
  maxEntries : ℕ

/-- A package with the heights whose protection ends once it is written. -/
structure FlushPackage (K V : Type) extends PendingFlushPackage K V where
  heights : List ℕ

/-- The drains: up to a height, with or without a cap; created coins only; tombstones only;
everything. -/
inductive Drain
  | batch (maxHeight : ℕ)
  | batchCapped (maxHeight cap : ℕ)
  | addsOnly
  | addsThrough (maxHeight cap : ℕ)
  | delsThrough (maxHeight cap : ℕ)
  | remaining

inductive FlushFilter
  | all
  | addsOnly
  | delsOnly
  deriving DecidableEq

inductive EvictionStrategy
  | dynamic
  | fifo
  | lifo
  deriving DecidableEq

def FlushFilter.admits : FlushFilter → K × Option V → Bool
  | .all, _ => true
  | .addsOnly, op => op.2.isSome
  | .delsOnly, op => op.2.isNone

section Maps

def addRows (ops : List (K × Option V)) : List (K × V) :=
  ops.filterMap (fun op => op.2.map (fun v => (op.1, v)))

variable {ops : List (K × Option V)}

theorem mem_addRows {row : K × V} : row ∈ addRows ops ↔ (row.1, some row.2) ∈ ops := by
  simp only [addRows, mem_filterMap, Option.map_eq_some_iff]
  constructor
  · rintro ⟨⟨k, x⟩, hop, v, rfl, rfl⟩
    exact hop
  · exact fun hop => ⟨_, hop, row.2, rfl, rfl⟩

variable [DecidableEq K] {disk : K → Option V}

def eraseKeys (m : K → Option V) (keys : List K) : K → Option V :=
  fun k => if k ∈ keys then none else m k

def orInsert (m : K → Option V) (row : K × V) : K → Option V :=
  if (m row.1).isSome then m else Function.update m row.1 (some row.2)

def orInsertAll (m : K → Option V) (rows : List (K × V)) : K → Option V := rows.foldl orInsert m

def applyOps (disk : K → Option V) (ops : List (K × Option V)) : K → Option V :=
  ops.foldl (fun disk op => Function.update disk op.1 op.2) disk

theorem orInsertAll_isSome {m : K → Option V} {rows : List (K × V)} :
    (orInsertAll m rows k).isSome ↔ (m k).isSome ∨ k ∈ rows.map Prod.fst := by
  induction rows generalizing m with
  | nil => simp [orInsertAll]
  | cons row rows ih =>
    rw [orInsertAll, foldl_cons, ← orInsertAll, ih, map_cons, mem_cons, ← or_assoc]
    refine or_congr_left ?_
    unfold orInsert
    split_ifs with hrow
    · constructor
      · exact Or.inl
      · rintro (hk | rfl)
        · exact hk
        · exact hrow
    · by_cases hk : k = row.1
      · subst hk
        simp
      · simp [hk]

theorem applyOps_eq (disk : K → Option V) (ops : List (K × Option V)) :
    applyOps disk ops = applyRows disk ops := by
  induction ops generalizing disk with
  | nil => rfl
  | cons op ops ih => exact ih _

theorem applyOps_of_forall {x : Option V} (hmem : k ∈ ops.map Prod.fst)
    (hops : ∀ op ∈ ops, op.1 = k → op.2 = x) : applyOps disk ops k = x := by
  rw [applyOps_eq]
  rcases applyRows_cases disk ops k with ⟨hnot, -⟩ | hin
  · exact absurd hmem hnot
  · exact hops _ hin rfl

end Maps

namespace IbdUtxoStore

section Cache

variable [DecidableEq K]

def cachePutAll (st : IbdUtxoStore K V) (additions : List (K × V)) (height : ℕ) :
    IbdUtxoStore K V :=
  let put := fun (c : KeyTable K (CacheSlot V) × ℕ) (row : K × V) =>
    (c.1.insert row.1 ⟨c.2, row.2, some height⟩, c.2 + 1)
  let res := additions.foldl put (st.cache, st.nextGeneration)
  { st with cache := res.1, nextGeneration := res.2 }

def protectHeight (st : IbdUtxoStore K V) (height : ℕ) : IbdUtxoStore K V :=
  { st with protectedHeights := height :: st.protectedHeights }

def workerCachePutProtected (st : IbdUtxoStore K V) (additions : List (K × V)) (height : ℕ) :
    IbdUtxoStore K V :=
  if additions.isEmpty then st else (st.protectHeight height).cachePutAll additions height

def removeAll (st : IbdUtxoStore K V) (keys : List K) : IbdUtxoStore K V :=
  { st with
    cache := keys.foldl (fun cache key => cache.erase key) st.cache
    inFlight := eraseKeys st.inFlight keys }

def nearEviction (st : IbdUtxoStore K V) : Bool :=
  decide (st.maxEntries ≤ st.cache.rows.length + st.cache.rows.length / 4)

def applyUtxoDelta (shardOf : K → ℕ) (st : IbdUtxoStore K V) (delta : UtxoDelta K V) (height : ℕ)
    (additionsAlreadyInCache : Bool) : IbdUtxoStore K V :=
  let st := st.removeAll delta.deletions
  let st := if additionsAlreadyInCache then st
    else st.workerCachePutProtected delta.additions height
  { st with
    inFlight := if st.nearEviction then orInsertAll st.inFlight delta.additions else st.inFlight
    log := st.log.applyUtxoDelta shardOf delta height }

def releaseProtectedHeights (st : IbdUtxoStore K V) (heights : List ℕ) : IbdUtxoStore K V :=
  { st with protectedHeights := st.protectedHeights.filter (fun h => h ∉ heights) }

/-- What `supplement_utxo_map` finds for a key: in the cache, in flight, or on disk. -/
def supplementUtxoMap (st : IbdUtxoStore K V) (key : K) : Option V :=
  match st.cache.get key with
  | some slot => some slot.utxo
  | none =>
    match st.inFlight key with
    | some utxo => some utxo
    | none => st.disk key

end Cache

section Drains

variable [LinearOrder K] (cfg : DurabilityConfig)

/-- The created coins and tombstones a drain takes, and the log it leaves; tombstones get what is
left of the cap. -/
def drainPending (log : PendingLog K V) : Drain →
    List (PendingLogEntry K V) × List (PendingLogEntry K V) × PendingLog K V
  | .batch maxHeight =>
    let adds := drainMatching (fun e => decide (e.height ≤ maxHeight)) log.adds.length
      log.addShards
    let dels := drainMatching (fun e => decide (e.height ≤ maxHeight)) log.dels.length
      log.delShards
    (adds.1, dels.1, ⟨adds.2, dels.2⟩)
  | .batchCapped maxHeight cap =>
    let adds := drainMatching (fun e => decide (e.height ≤ maxHeight)) cap log.addShards
    let dels := drainMatching (fun e => decide (e.height ≤ maxHeight)) (cap - adds.1.length)
      log.delShards
    (adds.1, dels.1, ⟨adds.2, dels.2⟩)
  | .addsOnly =>
    let adds := drainFront (cfg.adaptiveDrainCap log.len) log.addShards
    (adds.1, [], { log with addShards := adds.2 })
  | .addsThrough maxHeight cap =>
    let adds := drainMatching (fun e => decide (e.height ≤ maxHeight)) cap log.addShards
    (adds.1, [], { log with addShards := adds.2 })
  | .delsThrough maxHeight cap =>
    let dels := drainMatching (fun e => decide (e.height ≤ maxHeight)) cap log.delShards
    ([], dels.1, { log with delShards := dels.2 })
  | .remaining => (log.adds, log.dels, log.clear)

/-- A drain of one kind is packed without looking for duplicates. -/
def packDrained (adds dels : List (PendingLogEntry K V)) : Drain → Option (PendingFlushPackage K V)
  | .addsOnly | .addsThrough _ _ | .delsThrough _ _ => packFlushPackage (adds ++ dels)
  | .batch _ | .batchCapped _ _ | .remaining => packRemaining (adds ++ dels)

/-- The heights of drained entries that have no created coin left in the log. -/
def releasableHeights (raw : List (PendingLogEntry K V)) (log : PendingLog K V) : List ℕ :=
  (raw.map (fun e => e.height)).filter fun h =>
    decide (h ≠ 0) && !(log.adds.any fun e => decide (e.height = h))

/-- A package and the store after it is taken: its created coins are in flight. -/
def takeFlushBatch (st : IbdUtxoStore K V) (drain : Drain) :
    Option (FlushPackage K V) × IbdUtxoStore K V :=
  let drained := drainPending cfg st.log drain
  let st := { st with log := drained.2.2 }
  match packDrained drained.1 drained.2.1 drain with
  | none => (none, st)
  | some pkg =>
    (some ⟨pkg, releasableHeights (drained.1 ++ drained.2.1) st.log⟩,
      { st with inFlight := orInsertAll st.inFlight (addRows pkg.ops) })

end Drains

section Flushes

variable [DecidableEq K]

/-- The cache over its cap gives up created coins that are now on disk. -/
def evictFlushed (cache : KeyTable K (CacheSlot V)) (excess : ℕ) :
    List (K × Option V) → KeyTable K (CacheSlot V)
  | [] => cache
  | op :: ops =>
    if excess = 0 then cache
    else if op.2.isSome && (cache.get op.1).isSome then
      evictFlushed (cache.erase op.1) (excess - 1) ops
    else evictFlushed cache excess ops

/-- `flush_prepared_package_filtered`: the tree is written in chunks, and the coins leave flight. -/
def flushPreparedPackageFiltered (st : IbdUtxoStore K V) (pkg : FlushPackage K V)
    (filter : FlushFilter) : IbdUtxoStore K V :=
  if (pkg.ops.filter filter.admits).isEmpty then st
  else
    { st with
      disk := (chunksOf pkg.ops).foldl
        (fun disk chunk => applyOps disk (chunk.filter filter.admits)) st.disk
      inFlight := eraseKeys st.inFlight (pkg.ops.map Prod.fst)
      cache := evictFlushed st.cache (st.cache.rows.length - st.maxEntries) pkg.ops }

end Flushes

section Evictions

variable [DecidableEq K]

def isProtected (st : IbdUtxoStore K V) (slot : CacheSlot V) : Bool :=
  match slot.blockHeight with
  | none => false
  | some height => decide (height ∈ st.protectedHeights)

def evictionScanCap (st : IbdUtxoStore K V) (toEvict : ℕ) : ℕ :=
  min (min (max (toEvict * 2) 512) 16384) (st.cache.rows.length + 1)

def scanned (st : IbdUtxoStore K V) (order : List K) : List (K × CacheSlot V) :=
  order.filterMap (fun key => (st.cache.get key).map (fun slot => (key, slot)))

def evict (st : IbdUtxoStore K V) (victims : List K) : IbdUtxoStore K V :=
  { st with cache := victims.foldl (fun cache key => cache.erase key) st.cache }

def generationLe (strategy : EvictionStrategy) (a b : K × CacheSlot V) : Prop :=
  strategy = .lifo ∧ b.2.generation ≤ a.2.generation ∨
    strategy ≠ .lifo ∧ a.2.generation ≤ b.2.generation

instance (strategy : EvictionStrategy) :
    DecidableRel (generationLe (K := K) (V := V) strategy) :=
  fun _ _ => inferInstanceAs (Decidable (_ ∨ _))

/-- `maybe_evict`: the oldest or the newest unprotected entries among those scanned. -/
def maybeEvict (st : IbdUtxoStore K V) (strategy : EvictionStrategy) (order : List K) :
    IbdUtxoStore K V :=
  if strategy = .dynamic ∨ st.cache.rows.length ≤ st.maxEntries then st
  else
    let toEvict := st.cache.rows.length - st.maxEntries
    let candidates := ((st.scanned order).filter (fun row => !st.isProtected row.2)).take
      (st.evictionScanCap toEvict)
    st.evict (((candidates.insertionSort (generationLe strategy)).take toEvict).map Prod.fst)

structure CoinAge (V : Type) where
  valueOf : V → ℤ
  heightOf : V → ℕ

/-- Very old coins first, then by value and height. -/
def dustLe (age : CoinAge V) (veryOld : ℕ) (a b : K × CacheSlot V) : Prop :=
  let key := fun (row : K × CacheSlot V) =>
    toLex (if age.heightOf row.2.utxo < veryOld then 0 else 1,
      toLex (age.valueOf row.2.utxo, age.heightOf row.2.utxo))
  key a ≤ key b

instance (age : CoinAge V) (veryOld : ℕ) : DecidableRel (dustLe (K := K) age veryOld) :=
  fun _ _ => inferInstanceAs (Decidable (_ ≤ _))

/-- `evict_if_needed`; the keys of `recent` are spared. -/
def evictIfNeeded (st : IbdUtxoStore K V) (age : CoinAge V) (strategy : EvictionStrategy)
    (currentHeight : ℕ) (recent order : List K) : IbdUtxoStore K V :=
  let toEvict := st.cache.rows.length - st.maxEntries * 9 / 10
  if strategy ≠ .dynamic ∨ st.cache.rows.length ≤ st.maxEntries + st.maxEntries / 10 ∨ toEvict = 0
  then st
  else
    let candidates := ((st.scanned order).filter (fun row =>
      decide (row.1 ∉ recent) && !st.isProtected row.2 &&
        decide (age.heightOf row.2.utxo ≤ currentHeight - 100))).take
      (st.evictionScanCap (toEvict * 4))
    st.evict (((candidates.insertionSort (dustLe age (currentHeight - 10000))).take toEvict).map
      Prod.fst)

/-- `evict_aggressive_for_rss`: the first unprotected entries, down to an eighth of the cap. -/
def evictAggressiveForRss (st : IbdUtxoStore K V) (order : List K) : IbdUtxoStore K V :=
  let toEvict := st.cache.rows.length - max (st.maxEntries / 8) 64000
  st.evict ((((st.scanned order).filter (fun row => !st.isProtected row.2)).take toEvict).map
    Prod.fst)

inductive Eviction (K : Type)
  | maybeEvict (strategy : EvictionStrategy) (order : List K)
  | evictIfNeeded (strategy : EvictionStrategy) (currentHeight : ℕ) (recent order : List K)
  | evictAggressiveForRss (order : List K)

def runEviction (age : CoinAge V) (st : IbdUtxoStore K V) : Eviction K → IbdUtxoStore K V
  | .maybeEvict strategy order => st.maybeEvict strategy order
  | .evictIfNeeded strategy currentHeight recent order =>
    st.evictIfNeeded age strategy currentHeight recent order
  | .evictAggressiveForRss order => st.evictAggressiveForRss order

/-- Every victim of an eviction is cached and unprotected. -/
theorem runEviction_cases (age : CoinAge V) (st : IbdUtxoStore K V) (eviction : Eviction K) :
    ∃ victims, st.runEviction age eviction = st.evict victims ∧
      ∀ key ∈ victims, ∃ slot, st.cache.get key = some slot ∧ st.isProtected slot = false := by
  have hscan {order : List K} {row : K × CacheSlot V} (hrow : row ∈ st.scanned order) :
      st.cache.get row.1 = some row.2 := by
    obtain ⟨key, _, hkey⟩ := mem_filterMap.mp hrow
    obtain ⟨slot, hslot, rfl⟩ := Option.map_eq_some_iff.mp hkey
    exact hslot
  have hvictims {p : K × CacheSlot V → Bool} {order : List K} {chosen : List (K × CacheSlot V)}
      (hp : ∀ row, p row → st.isProtected row.2 = false)
      (hchosen : ∀ row ∈ chosen, row ∈ (st.scanned order).filter p) : ∀ key ∈ chosen.map Prod.fst,
        ∃ slot, st.cache.get key = some slot ∧ st.isProtected slot = false := by
    intro key hkey
    obtain ⟨row, hrow, rfl⟩ := mem_map.mp hkey
    obtain ⟨hrow, hfree⟩ := mem_filter.mp (hchosen row hrow)
    exact ⟨row.2, hscan hrow, hp row hfree⟩
  cases eviction with
  | maybeEvict strategy order =>
    rw [runEviction, IbdUtxoStore.maybeEvict]
    split_ifs
    · exact ⟨[], rfl, forall_mem_nil _⟩
    · exact ⟨_, rfl, hvictims (by simp) fun row hrow =>
        mem_of_mem_take ((mem_insertionSort _).mp (mem_of_mem_take hrow))⟩
  | evictIfNeeded strategy currentHeight recent order =>
    rw [runEviction, IbdUtxoStore.evictIfNeeded]
    dsimp only
    split_ifs
    · exact ⟨[], rfl, forall_mem_nil _⟩
    · exact ⟨_, rfl, hvictims (by simp +contextual) fun row hrow =>
        mem_of_mem_take ((mem_insertionSort _).mp (mem_of_mem_take hrow))⟩
  | evictAggressiveForRss order =>
    exact ⟨_, rfl, hvictims (by simp) fun row hrow => mem_of_mem_take hrow⟩

end Evictions

section Effects

variable [DecidableEq K] {st : IbdUtxoStore K V}

theorem get_cachePutAll (st : IbdUtxoStore K V) (additions : List (K × V)) (height : ℕ) (k : K) :
    (k ∈ additions.map Prod.fst → ∃ slot,
      (st.cachePutAll additions height).cache.get k = some slot ∧ slot.blockHeight = some height) ∧
    (k ∉ additions.map Prod.fst →
      (st.cachePutAll additions height).cache.get k = st.cache.get k) := by
  simp only [cachePutAll]
  generalize st.cache = cache
  generalize st.nextGeneration = generation
  induction additions generalizing cache generation with
  | nil => simp
  | cons row rows ih =>
    simp only [foldl_cons, map_cons, mem_cons, not_or]
    obtain ⟨hmem, hnot⟩ := ih (cache.insert row.1 ⟨generation, row.2, some height⟩) (generation + 1)
    refine ⟨fun hk => ?_, fun hk => ?_⟩
    · by_cases hrest : k ∈ rows.map Prod.fst
      · exact hmem hrest
      · refine ⟨⟨generation, row.2, some height⟩, ?_, rfl⟩
        rw [hnot hrest, KeyTable.get_insert, if_pos (hk.resolve_right hrest)]
    · rw [hnot hk.2, KeyTable.get_insert, if_neg hk.1]

section Worker

variable (st) (additions : List (K × V)) (height : ℕ)

@[simp] theorem workerCachePutProtected_frame :
    (st.workerCachePutProtected additions height).inFlight = st.inFlight ∧
      (st.workerCachePutProtected additions height).log = st.log ∧
      (st.workerCachePutProtected additions height).disk = st.disk := by
  unfold workerCachePutProtected
  split_ifs <;> exact ⟨rfl, rfl, rfl⟩

theorem protectedHeights_workerCachePutProtected {h : ℕ} (hprotected : h ∈ st.protectedHeights) :
    h ∈ (st.workerCachePutProtected additions height).protectedHeights := by
  unfold workerCachePutProtected
  split_ifs
  · exact hprotected
  · exact mem_cons_of_mem height hprotected

theorem get_workerCachePutProtected_of_notMem (hk : k ∉ additions.map Prod.fst) :
    (st.workerCachePutProtected additions height).cache.get k = st.cache.get k := by
  unfold workerCachePutProtected
  split_ifs
  · rfl
  · exact (get_cachePutAll (st.protectHeight height) additions height k).2 hk

theorem get_workerCachePutProtected_of_mem (hk : k ∈ additions.map Prod.fst) :
    height ∈ (st.workerCachePutProtected additions height).protectedHeights ∧
      ∃ slot, (st.workerCachePutProtected additions height).cache.get k = some slot ∧
        slot.blockHeight = some height := by
  have hne : additions.isEmpty = false := by
    cases additions with
    | nil => cases hk
    | cons row rows => rfl
  simp only [workerCachePutProtected, hne, Bool.false_eq_true, if_false]
  exact ⟨mem_cons_self, (get_cachePutAll (st.protectHeight height) additions height k).1 hk⟩

end Worker

section Delta

variable (shardOf : K → ℕ) (st) (delta : UtxoDelta K V) (height : ℕ) (alreadyInCache : Bool)

@[simp] theorem log_applyUtxoDelta :
    (st.applyUtxoDelta shardOf delta height alreadyInCache).log =
      st.log.applyUtxoDelta shardOf delta height := by
  cases alreadyInCache <;> simp [applyUtxoDelta, removeAll]

@[simp] theorem disk_applyUtxoDelta :
    (st.applyUtxoDelta shardOf delta height alreadyInCache).disk = st.disk := by
  cases alreadyInCache <;> simp [applyUtxoDelta, removeAll]

end Delta

theorem get_evictFlushed (cache : KeyTable K (CacheSlot V)) (excess : ℕ)
    (ops : List (K × Option V)) (k : K) :
    (evictFlushed cache excess ops).get k = cache.get k ∨
      (evictFlushed cache excess ops).get k = none ∧ ∃ v, (k, some v) ∈ ops := by
  induction ops generalizing cache excess with
  | nil => exact .inl rfl
  | cons op ops ih =>
    rw [evictFlushed]
    split_ifs with hzero hcached
    · exact .inl rfl
    · rcases ih (cache.erase op.1) (excess - 1) with hsame | ⟨hnone, v, hv⟩
      · rw [hsame, KeyTable.get_erase]
        split_ifs with hk
        · obtain ⟨v, hv⟩ := Option.isSome_iff_exists.mp (Bool.and_eq_true_iff.mp hcached).1
          refine .inr ⟨rfl, v, ?_⟩
          rw [hk, ← hv]
          exact mem_cons_self
        · exact .inl rfl
      · exact .inr ⟨hnone, v, mem_cons_of_mem op hv⟩
    · refine (ih cache excess).imp_right fun h => ⟨h.1, ?_⟩
      exact h.2.imp fun v hv => mem_cons_of_mem op hv

theorem applyOps_chunks (disk : K → Option V) (p : K × Option V → Bool)
    (chunks : List (List (K × Option V))) :
    chunks.foldl (fun disk chunk => applyOps disk (chunk.filter p)) disk =
      applyOps disk (chunks.flatten.filter p) := by
  rw [applyOps, filter_flatten, foldl_flatten, foldl_map]
  rfl

theorem flushPreparedPackageFiltered_cases (st : IbdUtxoStore K V) (pkg : FlushPackage K V)
    (filter : FlushFilter) :
    (pkg.ops.filter filter.admits = [] ∧ st.flushPreparedPackageFiltered pkg filter = st) ∨
      st.flushPreparedPackageFiltered pkg filter = { st with
          disk := applyOps st.disk (pkg.ops.filter filter.admits)
          inFlight := eraseKeys st.inFlight (pkg.ops.map Prod.fst)
          cache := evictFlushed st.cache (st.cache.rows.length - st.maxEntries) pkg.ops } := by
  unfold flushPreparedPackageFiltered
  split_ifs with hempty
  · exact .inl ⟨isEmpty_iff.mp hempty, rfl⟩
  · rw [applyOps_chunks, flatten_chunksOf]
    exact .inr rfl

end Effects

section DrainEffects

section

variable (cfg : DurabilityConfig) (log : PendingLog K V) (drain : Drain)

theorem drainPending_perm :
    ((drainPending cfg log drain).1 ++ (drainPending cfg log drain).2.2.adds).Perm log.adds ∧
    ((drainPending cfg log drain).2.1 ++ (drainPending cfg log drain).2.2.dels).Perm log.dels := by
  cases drain with
  | batch maxHeight | batchCapped maxHeight cap =>
    exact ⟨drainMatching_perm _ _ _, drainMatching_perm _ _ _⟩
  | addsOnly => exact ⟨drainFront_perm _ _, Perm.refl _⟩
  | addsThrough maxHeight cap => exact ⟨drainMatching_perm _ _ _, Perm.refl _⟩
  | delsThrough maxHeight cap => exact ⟨Perm.refl _, drainMatching_perm _ _ _⟩
  | remaining =>
    simp only [drainPending, adds_clear, dels_clear, append_nil]
    exact ⟨Perm.refl _, Perm.refl _⟩

theorem drainPending_shards :
    (drainPending cfg log drain).2.2.addShards.length = log.addShards.length ∧
    (drainPending cfg log drain).2.2.delShards.length = log.delShards.length := by
  cases drain with
  | batch maxHeight | batchCapped maxHeight cap =>
    exact ⟨length_drainMatching _ _ _, length_drainMatching _ _ _⟩
  | addsOnly => exact ⟨length_drainFront _ _, rfl⟩
  | addsThrough maxHeight cap => exact ⟨length_drainMatching _ _ _, rfl⟩
  | delsThrough maxHeight cap => exact ⟨rfl, length_drainMatching _ _ _⟩
  | remaining => exact ⟨length_map _, length_map _⟩

/-- A drain that takes a tombstone leaves no created coin of its height or below. -/
theorem drainPending_order
    (halone : ∀ maxHeight cap, drain = .delsThrough maxHeight cap →
      log.hasPendingAddsAtOrBelow maxHeight = false) :
    ∀ d ∈ (drainPending cfg log drain).2.1, ∀ a ∈ (drainPending cfg log drain).2.2.adds,
      d.height < a.height := by
  intro d hd a ha
  have hbetween {maxHeight : ℕ} (hdel : decide (d.height ≤ maxHeight))
      (hadd : decide (a.height ≤ maxHeight) = false) : d.height < a.height := by
    rw [decide_eq_true_eq] at hdel
    rw [decide_eq_false_iff_not] at hadd
    omega
  cases drain with
  | batch maxHeight =>
    exact hbetween ((drainMatching_taken _ _ _).2 d hd) (drainMatching_all _ _ a ha)
  | batchCapped maxHeight cap =>
    obtain ⟨hlen, htaken⟩ := drainMatching_taken (fun e => decide (e.height ≤ maxHeight))
      (cap - (drainMatching (fun e => decide (e.height ≤ maxHeight)) cap log.addShards).1.length)
      log.delShards
    have hpos := length_pos_of_mem hd
    exact hbetween (htaken d hd) (drainMatching_left _ (by simp only [drainPending] at hpos; omega)
      a ha)
  | addsOnly | addsThrough maxHeight cap => cases hd
  | delsThrough maxHeight cap =>
    have hbelow := (drainMatching_taken _ _ _).2 d hd
    have habove := hasPendingAddsAtOrBelow_eq_false (halone maxHeight cap rfl) a ha
    rw [decide_eq_true_eq] at hbelow
    omega
  | remaining =>
    simp only [drainPending, adds_clear] at ha
    cases ha

end

variable {adds dels : List (PendingLogEntry K V)} {e : PendingLogEntry K V}

theorem mem_adds_of_some (hnones : ∀ d ∈ dels, d.value = none) {v : V} (he : e ∈ adds ++ dels)
    (hsome : e.value = some v) : e ∈ adds := by
  rcases mem_append.mp he with he | he
  · exact he
  · rw [hnones e he] at hsome
    cases hsome

theorem mem_dels_of_none (hvalues : ∀ a ∈ adds, a.value.isSome) (he : e ∈ adds ++ dels)
    (hnone : e.value = none) : e ∈ dels := by
  rcases mem_append.mp he with he | he
  · have hsome := hvalues e he
    rw [hnone] at hsome
    cases hsome
  · exact he

variable [LinearOrder K] {drain : Drain} {pkg : PendingFlushPackage K V}

theorem packDrained_forms (h : packDrained adds dels drain = some pkg) :
    packFlushPackage (adds ++ dels) = some pkg ∨ packRemaining (adds ++ dels) = some pkg := by
  cases drain with
  | batch maxHeight | batchCapped maxHeight cap => exact .inr h
  | addsOnly | addsThrough maxHeight cap | delsThrough maxHeight cap => exact .inl h
  | remaining => exact .inr h

theorem packDrained_cases (h : packDrained adds dels drain = some pkg) :
    (∀ op ∈ pkg.ops, ∃ e ∈ adds ++ dels, (e.key, e.value) = op) ∧
      ∀ e ∈ adds ++ dels, ∃ op ∈ pkg.ops, op.1 = e.key := by
  rcases packDrained_forms h with h | h
  · exact ⟨fun op hop => (mem_of_packFlushPackage h).mp hop,
      fun e he => ⟨(e.key, e.value), (mem_of_packFlushPackage h).mpr ⟨e, he, rfl⟩, rfl⟩⟩
  · rw [packRemaining, Option.ite_none_left_eq_some, Option.some.injEq] at h
    rw [← h.2]
    refine ⟨fun op hop => ?_, fun e he => ?_⟩
    · obtain ⟨e, he, rfl⟩ := mem_map.mp hop
      exact ⟨e, mem_of_dedupePending he, rfl⟩
    · obtain ⟨last, hlast, hkey⟩ := exists_dedupePending he
      exact ⟨_, mem_map_of_mem hlast, hkey⟩

theorem exists_drained (h : packDrained adds dels drain = some pkg)
    (hvalues : ∀ a ∈ adds, a.value.isSome) (hnones : ∀ d ∈ dels, d.value = none) :
    (∀ k v, (k, some v) ∈ pkg.ops → ∃ a ∈ adds, a.key = k ∧ a.value = some v) ∧
      ∀ k, (k, none) ∈ pkg.ops → ∃ d ∈ dels, d.key = k := by
  obtain ⟨hfrom, -⟩ := packDrained_cases h
  refine ⟨fun k v hop => ?_, fun k hop => ?_⟩
  · obtain ⟨e, he, heq⟩ := hfrom _ hop
    obtain ⟨hkey, hvalue⟩ := Prod.mk.inj heq
    exact ⟨e, mem_adds_of_some hnones he hvalue, hkey, hvalue⟩
  · obtain ⟨e, he, heq⟩ := hfrom _ hop
    obtain ⟨hkey, hvalue⟩ := Prod.mk.inj heq
    exact ⟨e, mem_dels_of_none hvalues he hvalue, hkey⟩

theorem packDrained_eq_none (h : packDrained adds dels drain = none) : adds ++ dels = [] := by
  have hempty : (adds ++ dels).isEmpty := by
    cases drain <;> simp only [packDrained, packFlushPackage, packRemaining, ite_eq_left_iff,
      reduceCtorEq, imp_false, Bool.not_eq_true, Bool.not_eq_false] at h <;> exact h
  exact isEmpty_iff.mp hempty

end DrainEffects

end IbdUtxoStore

end BlvmNode
