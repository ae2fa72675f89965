import BlvmNode.ConnectBranches
import BlvmNode.Lib.GuardedRun

/-! # The write-behind coin cache

`CachedUtxoStore` keeps recent coins in an LRU cache and collects writes in a list. A read looks in
the cache and then in the table, and a flush writes rows under the 36-byte key. -/

namespace BlvmNode

open Function List

variable {U : Type}

structure CachedUtxoStore (U : Type) where
  inner : ByteTree
  cache : List (OutPoint × U)
  pending : List (OutPoint × Option U)

inductive CacheCall (U : Type) where
  | get (outpoint : OutPoint)
  | add (outpoint : OutPoint) (utxo : U)
  | spend (outpoint : OutPoint)
  | flush

/-- The cache is kept newest first; `put` drops what is over its capacity. -/
def lruPut (cacheSize : ℕ) (cache : List (OutPoint × U)) (outpoint : OutPoint) (utxo : U) :
    List (OutPoint × U) :=
  ((outpoint, utxo) :: cache.filter (fun row => decide (row.1 ≠ outpoint))).take cacheSize

namespace CachedUtxoStore

variable (codec : ValueCodec U) (cacheSize : ℕ)

/-- The answer of `get`, an undecodable row being `some none`. -/
def get (st : CachedUtxoStore U) (outpoint : OutPoint) : Option (Option U) :=
  match st.cache.lookup outpoint with
  | some utxo => some (some utxo)
  | none => getUtxo codec st.inner outpoint

def writePending (table : ByteTree) (row : OutPoint × Option U) : Option ByteTree :=
  match row.2 with
  | none => some (update table (legacyOutpointKey row.1) none)
  | some utxo => (codec.encode utxo).map fun value =>
      update table (legacyOutpointKey row.1) (some value)

def flushed (st : CachedUtxoStore U) : Option ByteTree :=
  st.pending.foldlM (writePending codec) st.inner

-- A flush has taken the writes out of `pending` when an encoding fails.
def apply (st : CachedUtxoStore U) : CacheCall U → CachedUtxoStore U
  | .get outpoint =>
    match st.get codec outpoint with
    | some (some utxo) => { st with cache := lruPut cacheSize st.cache outpoint utxo }
    | _ => st
  | .add outpoint utxo => { st with
      cache := lruPut cacheSize st.cache outpoint utxo
      pending := st.pending ++ [(outpoint, some utxo)] }
  | .spend outpoint =>
    match st.get codec outpoint with
    | some none => st
    | _ => { st with
        cache := st.cache.filter (fun row => decide (row.1 ≠ outpoint))
        pending := st.pending ++ [(outpoint, none)] }
  | .flush => { st with inner := (st.flushed codec).getD st.inner, pending := [] }

def write (coins : OutPoint → Option (Option U)) (row : OutPoint × Option U) :
    OutPoint → Option (Option U) := update coins row.1 (row.2.map some)

/-- The map of coins the calls describe: only adds and spends change it. -/
def callCoins (coins : OutPoint → Option (Option U)) : CacheCall U → OutPoint → Option (Option U)
  | .add outpoint utxo => write coins (outpoint, some utxo)
  | .spend outpoint => write coins (outpoint, none)
  | _ => coins

/-- A `get` finds its coin in the cache or no write of it pending, a `spend` can read its coin, and
a `flush` can encode its coins and meets none that has a row under the 40-byte key. -/
def Covered (st : CachedUtxoStore U) : CacheCall U → Prop
  | .get outpoint => (st.cache.lookup outpoint).isSome ∨ outpoint ∉ st.pending.map Prod.fst
  | .add _ _ => True
  | .spend outpoint => st.get codec outpoint ≠ some none
  | .flush => (st.flushed codec).isSome ∧ ∀ row ∈ st.pending, st.inner (outpointToKey row.1) = none

structure Mirrors (coins : OutPoint → Option (Option U)) (st : CachedUtxoStore U) : Prop where
  cached : ∀ row ∈ st.cache, coins row.1 = some (some row.2)
  written : st.pending.foldl write (getUtxo codec st.inner) = coins

variable {codec} {cacheSize} {coins : OutPoint → Option (Option U)} {st : CachedUtxoStore U}

theorem foldl_write_of_notMem {pending : List (OutPoint × Option U)} {o : OutPoint}
    (h : o ∉ pending.map Prod.fst) : pending.foldl write coins o = coins o := by
  induction pending generalizing coins with
  | nil => rfl
  | cons row pending ih =>
    rw [map_cons, mem_cons, not_or] at h
    rw [foldl_cons, ih h.2, write, update_of_ne h.1]

theorem getUtxo_update_legacy {table : ByteTree} {o : OutPoint}
    (h : table (outpointToKey o) = none) (value : Option Bytes) :
    getUtxo codec (update table (legacyOutpointKey o) value) =
      update (getUtxo codec table) o (value.map codec.decode) := by
  funext other
  rw [getUtxo, update_of_ne (outpointToKey_ne_legacyOutpointKey other o)]
  by_cases heq : other = o
  · rw [heq, h, update_self, update_self]
  · rw [update_of_ne heq, update_of_ne (fun hkey => heq (legacyOutpointKey_injective hkey)),
        getUtxo]

theorem getUtxo_writePending {table table' : ByteTree} {row : OutPoint × Option U}
    (h : writePending codec table row = some table') (hrow : table (outpointToKey row.1) = none) :
    getUtxo codec table' = write (getUtxo codec table) row ∧
      ∀ o, table' (outpointToKey o) = table (outpointToKey o) := by
  obtain ⟨o, utxo⟩ := row
  have hother (value : Option Bytes) (o' : OutPoint) :
      update table (legacyOutpointKey o) value (outpointToKey o') = table (outpointToKey o') :=
    update_of_ne (outpointToKey_ne_legacyOutpointKey o' o) _ _
  cases utxo with
  | none =>
    obtain rfl := Option.some_inj.mp h
    exact ⟨getUtxo_update_legacy hrow none, hother none⟩
  | some utxo =>
    obtain ⟨value, hvalue, rfl⟩ := Option.map_eq_some_iff.mp h
    rw [getUtxo_update_legacy hrow, Option.map_some, codec.decode_encode hvalue]
    exact ⟨rfl, hother _⟩

theorem getUtxo_foldlM_writePending {pending : List (OutPoint × Option U)}
    {table table' : ByteTree} (h : pending.foldlM (writePending codec) table = some table')
    (hrows : ∀ row ∈ pending, table (outpointToKey row.1) = none) :
    getUtxo codec table' = pending.foldl write (getUtxo codec table) := by
  induction pending generalizing table with
  | nil => rw [← Option.some_inj.mp h, foldl_nil]
  | cons row pending ih =>
    obtain ⟨mid, hmid, hrest⟩ := Option.bind_eq_some_iff.mp h
    rw [forall_mem_cons] at hrows
    obtain ⟨hget, hkeys⟩ := getUtxo_writePending hmid hrows.1
    rw [ih hrest (fun row' hrow' => (hkeys _).trans (hrows.2 row' hrow')), hget, foldl_cons]

theorem Mirrors.get_eq (h : Mirrors codec coins st) {o : OutPoint}
    (ho : Covered codec st (.get o)) :
    st.get codec o = coins o := by
  rw [CachedUtxoStore.get]
  cases hlookup : st.cache.lookup o with
  | some utxo =>
    obtain ⟨pre, post, hcache, -⟩ := lookup_eq_some_iff.mp hlookup
    exact (h.cached (o, utxo) (by simp [hcache])).symm
  | none =>
    rw [Covered, hlookup] at ho
    rw [← h.written, foldl_write_of_notMem (ho.resolve_left (by simp))]

theorem cached_lruPut (h : ∀ row ∈ st.cache, coins row.1 = some (some row.2)) {o : OutPoint}
    {utxo : U} : ∀ row ∈ lruPut cacheSize st.cache o utxo,
      update coins o (some (some utxo)) row.1 = some (some row.2) := by
  intro row hrow
  rcases mem_cons.mp (mem_of_mem_take hrow) with rfl | hrow
  · exact update_self _ _ _
  · obtain ⟨hmem, hne⟩ := mem_filter.mp hrow
    rw [update_of_ne (of_decide_eq_true hne), h row hmem]

theorem Mirrors.apply (h : Mirrors codec coins st) {call : CacheCall U}
    (hcall : Covered codec st call) :
    Mirrors codec (callCoins coins call) (st.apply codec cacheSize call) := by
  cases call with
  | get o =>
    have hget := h.get_eq hcall
    rw [CachedUtxoStore.apply]
    split
    next utxo hutxo =>
      refine ⟨?_, h.written⟩
      have hsame : update coins o (some (some utxo)) = coins := by
        rw [← hutxo, hget, update_eq_self]
      exact hsame ▸ cached_lruPut h.cached
    next => exact h
  | add o utxo =>
    refine ⟨cached_lruPut h.cached, ?_⟩
    rw [CachedUtxoStore.apply, foldl_append, h.written]
    rfl
  | spend o =>
    rw [CachedUtxoStore.apply]
    split
    next hutxo => exact absurd hutxo hcall
    next =>
      refine ⟨fun row hrow => ?_, ?_⟩
      · obtain ⟨hmem, hne⟩ := mem_filter.mp hrow
        exact (update_of_ne (of_decide_eq_true hne) _ _).trans (h.cached row hmem)
      · rw [foldl_append, h.written]
        rfl
  | flush =>
    obtain ⟨hsome, hrows⟩ := hcall
    obtain ⟨table, htable⟩ := Option.isSome_iff_exists.mp hsome
    refine ⟨h.cached, ?_⟩
    rw [CachedUtxoStore.apply, htable, Option.getD_some, foldl_nil]
    exact (getUtxo_foldlM_writePending htable hrows).trans h.written

/-- In a run of covered calls `get` answers from the map the calls describe, and so does the table
once nothing is pending. -/
theorem cached_coins_transparent (codec : ValueCodec U) (cacheSize : ℕ) (table : ByteTree)
    (calls : List (CacheCall U))
    (hcalls : GuardedRun.Guarded (apply codec cacheSize) (Covered codec) ⟨table, [], []⟩ calls) :
    let st := calls.foldl (apply codec cacheSize) ⟨table, [], []⟩
    let coins := calls.foldl callCoins (getUtxo codec table)
    (∀ o, Covered codec st (.get o) → st.get codec o = coins o) ∧
      (st.pending = [] → getUtxo codec st.inner = coins) := by
  have h : Mirrors codec (calls.foldl callCoins (getUtxo codec table))
      (calls.foldl (apply codec cacheSize) ⟨table, [], []⟩) :=
    GuardedRun.invariant (fun pre => Mirrors codec (pre.foldl callCoins (getUtxo codec table)))
      ⟨fun _ hrow => absurd hrow not_mem_nil, rfl⟩
      (fun pre call st hst hcall => by
        rw [foldl_append]
        exact hst.apply hcall) hcalls
  refine ⟨fun o => h.get_eq, fun hempty => ?_⟩
  have hwritten := h.written
  rwa [hempty] at hwritten

/-- The second coin evicts the first, which is read again from the table and spent. -/
def evictingCalls : List (CacheCall (BitVec 8)) :=
  [.add ⟨1, 0⟩ 4, .flush, .add ⟨2, 0⟩ 5, .flush, .get ⟨1, 0⟩, .spend ⟨1, 0⟩, .flush]

theorem cached_coins_transparent_flush :
    let st := evictingCalls.foldl (apply byteCodec 1) ⟨fun _ => none, [], []⟩
    let coins := evictingCalls.foldl callCoins (getUtxo byteCodec (fun _ => none))
    (∀ o, Covered byteCodec st (.get o) → st.get byteCodec o = coins o) ∧
      (st.pending = [] → getUtxo byteCodec st.inner = coins) ∧
      [coins ⟨1, 0⟩, coins ⟨2, 0⟩] = [none, some (some 5)] := by
  intro st coins
  have hread := cached_coins_transparent byteCodec 1 (fun _ => none) evictingCalls
    ⟨trivial, ⟨rfl, by decide +kernel⟩, trivial, ⟨rfl, by decide +kernel⟩, .inr (by decide +kernel),
      by change CachedUtxoStore.get _ _ _ ≠ some none; decide +kernel, ⟨rfl, by decide +kernel⟩,
      trivial⟩
  exact ⟨hread.1, hread.2, by decide +kernel⟩

/-- An added coin that leaves the cache is not found, a spent one is read again, and a spend of a
coin under its 40-byte key never reaches the table. -/
theorem cached_coins_forgotten :
    ([.add ⟨1, 0⟩ 4, .add ⟨2, 0⟩ 5].foldl (apply byteCodec 1) ⟨fun _ => none, [], []⟩).get
      byteCodec ⟨1, 0⟩ = none ∧
    ([.add ⟨1, 0⟩ 4, .flush, .spend ⟨1, 0⟩].foldl (apply byteCodec 9) ⟨fun _ => none, [], []⟩).get
      byteCodec ⟨1, 0⟩ = some (some 4) ∧
    getUtxo byteCodec ([.spend ⟨1, 0⟩, .flush].foldl (apply byteCodec 9)
      ⟨oneCoinTree, [], []⟩).inner ⟨1, 0⟩ = some (some 4) := by decide +kernel

end CachedUtxoStore

end BlvmNode
