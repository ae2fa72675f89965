import BlvmNode.Lib.GuardedRun
import BlvmNode.LegacyStore

/-!
# Runs of the legacy store against the coin set

The ledger is what the store stands for: the coins ever created, the outpoints spent, the heights
applied, and the outputs announced for blocks that are not applied yet. A run interleaves workers,
deltas, drains, flushes, releases and evictions.
-/

namespace BlvmNode

open List Option IbdUtxoStore NetWrites

variable {K V : Type}

structure Ledger (K V : Type) where
  created : K → Option V
  spent : List K
  applied : List ℕ
  announced : List (ℕ × List (K × V))

open Ledger

def Ledger.utxo [DecidableEq K] (led : Ledger K V) (k : K) : Option V :=
  if k ∈ led.spent then none else led.created k

structure QueuedPackage (K V : Type) where
  pkg : FlushPackage K V
  addsWritten : Bool

structure LegacySystem (K V : Type) where
  store : IbdUtxoStore K V
  queue : List (QueuedPackage K V)
  releasable : List (List ℕ)
  ledger : Ledger K V

inductive LegacyStep (K V : Type)
  | preinsert (height : ℕ) (additions : List (K × V))
  | apply (height : ℕ) (delta : UtxoDelta K V) (alreadyInCache : Bool)
  | drain (drain : Drain)
  | flush (index : ℕ) (filter : FlushFilter)
  | release (index : ℕ)
  | evict (eviction : IbdUtxoStore.Eviction K)

open LegacySystem

section Ledgers

variable [DecidableEq K]

def Ledger.announce (led : Ledger K V) (height : ℕ) (additions : List (K × V)) : Ledger K V :=
  { led with announced := (height, additions) :: led.announced }

/-- A delta spends and creates, and its block is no longer only announced. -/
def Ledger.apply (led : Ledger K V) (height : ℕ) (delta : UtxoDelta K V) : Ledger K V where
  created := fun k => (delta.additions.lookup k).or (led.created k)
  spent := delta.deletions ++ led.spent
  applied := height :: led.applied
  announced := led.announced.filter (fun block => block.1 ≠ height)

def Ledger.Announced (led : Ledger K V) (k : K) : Prop :=
  ∃ block ∈ led.announced, k ∈ block.2.map Prod.fst

def Ledger.Fresh (led : Ledger K V) (k : K) : Prop := led.created k = none ∧ ¬ led.Announced k

/-- Outpoints are created once and spent once, later, by blocks in ascending height; a block is
announced at most once, before it is applied, with the outputs its delta creates. -/
def Ledger.Allows (led : Ledger K V) : LegacyStep K V → Prop
  | .preinsert height additions =>
    height ∉ led.applied ∧ (∀ block ∈ led.announced, block.1 ≠ height) ∧
      ∀ row ∈ additions, led.Fresh row.1
  | .apply height delta alreadyInCache =>
    (∀ h ∈ led.applied, h < height) ∧ (delta.additions.map Prod.fst).Nodup ∧
      (∀ k ∈ delta.deletions, (led.utxo k).isSome = true) ∧
      (if alreadyInCache then (height, delta.additions) ∈ led.announced
      else (∀ block ∈ led.announced, block.1 ≠ height) ∧ ∀ row ∈ delta.additions, led.Fresh row.1)
  | _ => True

instance (led : Ledger K V) (k : K) : Decidable (led.Announced k) :=
  inferInstanceAs (Decidable (∃ block ∈ led.announced, k ∈ block.2.map Prod.fst))

instance (led : Ledger K V) (k : K) : Decidable (led.Fresh k) :=
  inferInstanceAs (Decidable (led.created k = none ∧ ¬ led.Announced k))

instance [DecidableEq V] (led : Ledger K V) : ∀ step, Decidable (led.Allows step)
  | .preinsert _ _ => inferInstanceAs (Decidable (_ ∧ _ ∧ _))
  | .apply height delta alreadyInCache => inferInstanceAs (Decidable (_ ∧ _ ∧ _ ∧
      if alreadyInCache then (height, delta.additions) ∈ led.announced
      else (∀ block ∈ led.announced, block.1 ≠ height) ∧ ∀ row ∈ delta.additions, led.Fresh row.1))
  | .drain _ | .flush _ _ | .release _ | .evict _ => inferInstanceAs (Decidable True)

end Ledgers

section Steps

variable [LinearOrder K] (cfg : DurabilityConfig) (shardOf : K → ℕ) (age : IbdUtxoStore.CoinAge V)

/-- The committer after a flush: a package whose tombstones are not written yet stays. -/
def LegacySystem.flush (sys : LegacySystem K V) (index : ℕ) (filter : FlushFilter) :
    LegacySystem K V :=
  match sys.queue[index]? with
  | none => sys
  | some item =>
    { sys with
      store := sys.store.flushPreparedPackageFiltered item.pkg filter
      queue :=
        if filter = .addsOnly ∧ item.pkg.ops.any (fun op => op.2.isNone) then
          sys.queue.set index { item with addsWritten := true }
        else sys.queue.eraseIdx index
      releasable := item.pkg.heights :: sys.releasable }

def LegacySystem.step (sys : LegacySystem K V) : LegacyStep K V → LegacySystem K V
  | .preinsert height additions =>
    { sys with
      store := sys.store.workerCachePutProtected additions height
      ledger := sys.ledger.announce height additions }
  | .apply height delta alreadyInCache =>
    { sys with
      store := sys.store.applyUtxoDelta shardOf delta height alreadyInCache
      ledger := sys.ledger.apply height delta }
  | .drain drain =>
    let res := sys.store.takeFlushBatch cfg drain
    { sys with
      store := res.2
      queue := sys.queue ++ (res.1.map (fun pkg => ⟨pkg, false⟩)).toList }
  | .flush index filter => sys.flush index filter
  | .release index =>
    { sys with store := sys.store.releaseProtectedHeights (sys.releasable.getD index []) }
  | .evict eviction => { sys with store := sys.store.runEviction age eviction }

/-- The created coins of a package are written before its tombstones, and once. -/
def LegacySystem.Allows (sys : LegacySystem K V) (step : LegacyStep K V) : Prop :=
  sys.ledger.Allows step ∧
    match step with
    | .flush index filter => ∀ item, sys.queue[index]? = some item →
        if filter = .delsOnly then item.addsWritten = true ∨ addKeys item.pkg.ops = []
        else item.addsWritten = false
    | _ => True

instance [DecidableEq V] (sys : LegacySystem K V) : ∀ step, Decidable (sys.Allows step)
  | .flush index filter => inferInstanceAs (Decidable (_ ∧ ∀ item ∈ sys.queue[index]?,
      if filter = .delsOnly then item.addsWritten = true ∨ addKeys item.pkg.ops = []
      else item.addsWritten = false))
  | .preinsert _ _ | .apply _ _ _ | .drain _ | .release _ | .evict _ =>
    inferInstanceAs (Decidable (_ ∧ True))

def LegacySystem.opened (base : K → Option V) (maxEntries : ℕ) : LegacySystem K V where
  store := ⟨.empty, 0, fun _ => none, .empty, [], base, maxEntries⟩
  queue := []
  releasable := []
  ledger := ⟨base, [], [], []⟩

def LegacySystem.run (sys : LegacySystem K V) (steps : List (LegacyStep K V)) : LegacySystem K V :=
  steps.foldl (LegacySystem.step cfg shardOf age) sys

end Steps

section Invariant

variable [LinearOrder K]

def IbdUtxoStore.Pinned (st : IbdUtxoStore K V) (k : K) (height : ℕ) : Prop :=
  height ∈ st.protectedHeights ∧ ∃ slot, st.cache.get k = some slot ∧
    slot.blockHeight = some height

variable {sys : LegacySystem K V} {k : K} {v : V} {item : QueuedPackage K V} {index : ℕ}
  {st : IbdUtxoStore K V} {led : Ledger K V} {additions : List (K × V)}
  {height : ℕ} {delta : UtxoDelta K V} {alreadyInCache : Bool}

theorem Ledger.utxo_eq_some : led.utxo k = some v ↔ k ∉ led.spent ∧ led.created k = some v := by
  rw [utxo]
  split_ifs with hspent <;> simp [hspent]

theorem IbdUtxoStore.Pinned.runEviction (hpinned : st.Pinned k height)
    (age : CoinAge V) (eviction : Eviction K) : (st.runEviction age eviction).Pinned k height := by
  obtain ⟨victims, hrun, hvictims⟩ := st.runEviction_cases age eviction
  obtain ⟨hheight, slot, hslot, hblock⟩ := hpinned
  rw [hrun]
  refine ⟨hheight, slot, ?_, hblock⟩
  rw [evict, KeyTable.get_foldl_erase]
  have hspared : k ∉ victims := by
    intro hk
    obtain ⟨victim, hvictim, hfree⟩ := hvictims k hk
    rw [hslot, some.injEq] at hvictim
    rw [← hvictim, isProtected, hblock] at hfree
    exact absurd hheight (of_decide_eq_false hfree)
  rw [if_neg hspared, hslot]

theorem IbdUtxoStore.Pinned.workerCachePutProtected {h : ℕ}
    (hpinned : st.Pinned k h) (hk : k ∉ additions.map Prod.fst)
    (height : ℕ) : (st.workerCachePutProtected additions height).Pinned k h := by
  refine ⟨st.protectedHeights_workerCachePutProtected additions height hpinned.1, ?_⟩
  rw [st.get_workerCachePutProtected_of_notMem additions height hk]
  exact hpinned.2

theorem IbdUtxoStore.applyUtxoDelta_store (shardOf : K → ℕ) (st : IbdUtxoStore K V)
    (delta : UtxoDelta K V) (height : ℕ) (alreadyInCache : Bool) :
    let st' := st.applyUtxoDelta shardOf delta height alreadyInCache
    (∀ k, (st'.inFlight k).isSome →
      (st.inFlight k).isSome ∨ k ∈ delta.additions.map Prod.fst) ∧
    (∀ k ∉ delta.deletions, (st.inFlight k).isSome → (st'.inFlight k).isSome) ∧
    (∀ k ∉ delta.deletions, k ∉ delta.additions.map Prod.fst ∨ alreadyInCache →
      ∀ h, st.Pinned k h → st'.Pinned k h) ∧
    (alreadyInCache = false → ∀ k ∈ delta.additions.map Prod.fst, st'.Pinned k height) ∧
    ∀ k, (st'.cache.get k).isSome →
      k ∉ delta.deletions ∧ (st.cache.get k).isSome ∨ k ∈ delta.additions.map Prod.fst := by
  have hremoved (k : K) : (st.removeAll delta.deletions).cache.get k =
      if k ∈ delta.deletions then none else st.cache.get k :=
    KeyTable.get_foldl_erase st.cache delta.deletions k
  have herased {k : K} (h : (eraseKeys st.inFlight delta.deletions k).isSome) :
      (st.inFlight k).isSome := by
    unfold eraseKeys at h
    split_ifs at h
    · cases h
    · exact h
  have hpinned {k : K} (hk : k ∉ delta.deletions) {h : ℕ} (hp : st.Pinned k h) :
      (st.removeAll delta.deletions).Pinned k h := by
    refine ⟨hp.1, ?_⟩
    rw [hremoved, if_neg hk]
    exact hp.2
  have hcached {k : K} (h : ((st.removeAll delta.deletions).cache.get k).isSome) :
      k ∉ delta.deletions ∧ (st.cache.get k).isSome := by
    rw [hremoved] at h
    split_ifs at h with hk
    · cases h
    · exact ⟨hk, h⟩
  have hflight : ∃ near : Bool, (st.applyUtxoDelta shardOf delta height alreadyInCache).inFlight =
      if near then orInsertAll (eraseKeys st.inFlight delta.deletions) delta.additions
      else eraseKeys st.inFlight delta.deletions := by
    cases alreadyInCache with
    | true => exact ⟨_, rfl⟩
    | false =>
      simp only [applyUtxoDelta, Bool.false_eq_true, if_false, workerCachePutProtected_frame]
      exact ⟨_, rfl⟩
  obtain ⟨near, hflight⟩ := hflight
  intro st'
  refine ⟨fun k hk => ?_, fun k hk hin => ?_, ?_⟩
  · rw [hflight] at hk
    split_ifs at hk
    · exact (orInsertAll_isSome.mp hk).imp_left herased
    · exact .inl (herased hk)
  · have hkept : (eraseKeys st.inFlight delta.deletions k).isSome := by
      rw [eraseKeys, if_neg hk]
      exact hin
    rw [hflight]
    split_ifs
    · exact orInsertAll_isSome.mpr (.inl hkept)
    · exact hkept
  cases alreadyInCache with
  | true =>
    exact ⟨fun k hk _ h hp => hpinned hk hp, by simp, fun k hk => .inl (hcached hk)⟩
  | false =>
    refine ⟨fun k hk hother h hp => ?_, fun _ k hk => ?_, fun k hk => ?_⟩
    · exact (hpinned hk hp).workerCachePutProtected (hother.resolve_right (by simp)) height
    · exact get_workerCachePutProtected_of_mem (st.removeAll delta.deletions) delta.additions height
        hk
    · by_cases hin : k ∈ delta.additions.map Prod.fst
      · exact .inr hin
      · left
        apply hcached
        rw [← get_workerCachePutProtected_of_notMem (st.removeAll delta.deletions) delta.additions
          height hin]
        exact hk

theorem Ledger.created_apply (height : ℕ) (hk : k ∉ delta.additions.map Prod.fst) :
    (led.apply height delta).created k = led.created k := by
  have hlookup : delta.additions.lookup k = none :=
    lookup_eq_none_iff.mpr fun row hrow => by
      rw [bne_iff_ne]
      rintro rfl
      exact hk (mem_map_of_mem hrow)
  rw [apply]
  simp only [hlookup, none_or]

/-- Additions are coins, what was created stays created, and a coin is an addition or an unspent old
coin. -/
theorem Ledger.apply_cases (height : ℕ)
    (hnew : ∀ k ∈ delta.additions.map Prod.fst, led.created k = none)
    (hnodup : (delta.additions.map Prod.fst).Nodup) :
    (∀ row ∈ delta.additions, (led.apply height delta).created row.1 = some row.2) ∧
    (∀ k v, led.created k = some v → (led.apply height delta).created k = some v) ∧
    ∀ k v, (led.apply height delta).utxo k = some v → k ∉ delta.deletions ∧
      ((k, v) ∈ delta.additions ∨ k ∉ delta.additions.map Prod.fst ∧ led.utxo k = some v) := by
  refine ⟨fun row hrow => ?_, fun k v hk => ?_, fun k v hk => ?_⟩
  · have hlookup : delta.additions.lookup row.1 = some row.2 :=
      (RowTable.lookup_eq_some_iff hnodup).mpr hrow
    rw [apply]
    simp only [hlookup, some_or]
  · rw [created_apply height fun hin => ?_, hk]
    have hcreated := hnew k hin
    rw [hk] at hcreated
    cases hcreated
  · obtain ⟨hspent, hcreated⟩ := utxo_eq_some.mp hk
    simp only [apply, mem_append, not_or] at hspent hcreated
    refine ⟨hspent.1, ?_⟩
    cases hlookup : delta.additions.lookup k with
    | some w =>
      rw [hlookup, some_or, some.injEq] at hcreated
      subst hcreated
      exact .inl ((RowTable.lookup_eq_some_iff hnodup).mp hlookup)
    | none =>
      rw [hlookup, none_or] at hcreated
      refine .inr ⟨fun hin => ?_, utxo_eq_some.mpr ⟨hspent.2, hcreated⟩⟩
      rw [hnew k hin] at hcreated
      cases hcreated

namespace LegacySystem

def Queued (sys : LegacySystem K V) (k : K) (v : V) : Prop :=
  ∃ item ∈ sys.queue, item.addsWritten = false ∧ (k, some v) ∈ item.pkg.ops

/-- A coin of the coin set is pinned while its creation is in the log, in flight while its package
is queued, and on disk from then on; the cache holds only coins of the set and announced outputs. -/
structure Held (sys : LegacySystem K V) : Prop where
  addShards : sys.store.log.addShards.length = pendingShards
  delShards : sys.store.log.delShards.length = pendingShards
  adds : ∀ e ∈ sys.store.log.adds, e.height ∈ sys.ledger.applied ∧
    ∃ v, e.value = some v ∧ sys.ledger.created e.key = some v
  dels : ∀ e ∈ sys.store.log.dels, e.height ∈ sys.ledger.applied ∧ e.value = none ∧
    e.key ∈ sys.ledger.spent
  queuedAdds : ∀ item ∈ sys.queue, ∀ k v, (k, some v) ∈ item.pkg.ops →
    sys.ledger.created k = some v
  queuedDels : ∀ item ∈ sys.queue, ∀ k, (k, none) ∈ item.pkg.ops → k ∈ sys.ledger.spent
  written : ∀ item ∈ sys.queue, item.addsWritten = true → ∀ k v, (k, some v) ∈ item.pkg.ops →
    k ∉ sys.ledger.spent → sys.store.disk k = some v
  heights : ∀ heights, heights ∈ sys.releasable ∨ (∃ item ∈ sys.queue, item.pkg.heights = heights) →
    ∀ h ∈ heights, h ∈ sys.ledger.applied ∧ ∀ e ∈ sys.store.log.adds, e.height ≠ h
  spent : ∀ k ∈ sys.ledger.spent, (sys.ledger.created k).isSome = true
  disk : ∀ k v, sys.store.disk k = some v → sys.ledger.created k = some v
  inFlight : ∀ k, (sys.store.inFlight k).isSome = true → (sys.ledger.created k).isSome = true
  cached : ∀ k, (sys.store.cache.get k).isSome = true →
    (sys.ledger.utxo k).isSome = true ∨ sys.ledger.Announced k
  announced : ∀ block ∈ sys.ledger.announced, block.1 ∉ sys.ledger.applied ∧
    ∀ k ∈ block.2.map Prod.fst, sys.ledger.created k = none ∧ sys.store.Pinned k block.1
  disjoint : sys.ledger.announced.Pairwise fun a b => a.1 ≠ b.1 ∧
    ∀ k ∈ a.2.map Prod.fst, k ∉ b.2.map Prod.fst
  reachable : ∀ k v, sys.ledger.utxo k = some v →
    (∃ e ∈ sys.store.log.adds, e.key = k ∧ sys.store.Pinned k e.height) ∨
    (sys.Queued k v ∧ (sys.store.inFlight k).isSome = true) ∨ sys.store.disk k = some v

theorem Held.opened (base : K → Option V) (maxEntries : ℕ) :
    (opened base maxEntries).Held where
  addShards := length_replicate
  delShards := length_replicate
  adds := nofun
  dels := nofun
  queuedAdds := nofun
  queuedDels := nofun
  written := nofun
  heights := nofun
  spent := nofun
  disk := fun _ _ h => h
  inFlight := nofun
  cached := nofun
  announced := nofun
  disjoint := Pairwise.nil
  reachable := fun _ _ h => .inr (.inr (utxo_eq_some.mp h).2)

theorem Held.evict (hsys : sys.Held) (age : IbdUtxoStore.CoinAge V)
    (eviction : IbdUtxoStore.Eviction K) :
    Held { sys with store := sys.store.runEviction age eviction } := by
  obtain ⟨victims, hrun, _⟩ := sys.store.runEviction_cases age eviction
  have hpinned {k : K} {h : ℕ} (hp : sys.store.Pinned k h) :
      (sys.store.evict victims).Pinned k h := by
    rw [← hrun]
    exact hp.runEviction age eviction
  rw [hrun]
  exact { hsys with
    cached := fun k hk => by
      rw [IbdUtxoStore.evict, KeyTable.get_foldl_erase] at hk
      split_ifs at hk
      · cases hk
      · exact hsys.cached k hk
    announced := fun block hblock => (hsys.announced block hblock).imp_right fun hkeys k hk =>
      (hkeys k hk).imp_right hpinned
    reachable := fun k v hk => (hsys.reachable k v hk).imp_left fun ⟨e, he, hkey, hp⟩ =>
      ⟨e, he, hkey, hpinned hp⟩ }

theorem Held.release (hsys : sys.Held) (index : ℕ) : Held
      { sys with store := sys.store.releaseProtectedHeights (sys.releasable.getD index []) } := by
  have hfree : ∀ h ∈ sys.releasable.getD index [], h ∈ sys.ledger.applied ∧
      ∀ e ∈ sys.store.log.adds, e.height ≠ h := by
    intro h hmem
    rw [getD_eq_getElem?_getD] at hmem
    cases hget : sys.releasable[index]? with
    | none => simp [hget] at hmem
    | some heights =>
      rw [hget] at hmem
      exact hsys.heights heights (.inl (mem_of_getElem? hget)) h hmem
  have hpinned {k : K} {h : ℕ} (hp : sys.store.Pinned k h) (hh : h ∉ sys.releasable.getD index []) :
      (sys.store.releaseProtectedHeights (sys.releasable.getD index [])).Pinned k h :=
    ⟨mem_filter.mpr ⟨hp.1, decide_eq_true hh⟩, hp.2⟩
  exact { hsys with
    announced := fun block hblock => by
      obtain ⟨happlied, hkeys⟩ := hsys.announced block hblock
      exact ⟨happlied, fun k hk => (hkeys k hk).imp_right fun hp =>
        hpinned hp fun hh => happlied (hfree _ hh).1⟩
    reachable := fun k v hk => (hsys.reachable k v hk).imp_left fun ⟨e, he, hkey, hp⟩ =>
      ⟨e, he, hkey, hpinned hp fun hh => (hfree _ hh).2 e he rfl⟩ }

theorem Held.add_of_op (hsys : sys.Held)
    (hitem : item ∈ sys.queue) (hk : sys.ledger.utxo k = some v) {op : K × Option V}
    (hop : op ∈ item.pkg.ops) (hkey : op.1 = k) : op.2 = some v := by
  obtain ⟨hspent, hcreated⟩ := utxo_eq_some.mp hk
  obtain ⟨key, value⟩ := op
  dsimp only at hkey ⊢
  subst hkey
  cases value with
  | none => exact absurd (hsys.queuedDels item hitem key hop) hspent
  | some w =>
    have hw := hsys.queuedAdds item hitem key w hop
    rw [hcreated] at hw
    exact hw.symm

theorem Held.value_of_add (hsys : sys.Held) {a : PendingLogEntry K V}
    (ha : a ∈ sys.store.log.adds) : a.value.isSome := by
  obtain ⟨_, v, hv, _⟩ := hsys.adds a ha
  rw [hv, isSome_some]

theorem Held.packed (hsys : sys.Held) {adds dels : List (PendingLogEntry K V)}
    {drain : Drain} {pkg : PendingFlushPackage K V}
    (hadds : ∀ e ∈ adds, e ∈ sys.store.log.adds) (hdels : ∀ e ∈ dels, e ∈ sys.store.log.dels)
    (hpack : packDrained adds dels drain = some pkg) :
    (∀ k v, (k, some v) ∈ pkg.ops → sys.ledger.created k = some v) ∧
    (∀ k, (k, none) ∈ pkg.ops → k ∈ sys.ledger.spent) ∧
    ∀ e ∈ adds, ∀ v, sys.ledger.utxo e.key = some v → (e.key, some v) ∈ pkg.ops := by
  obtain ⟨-, hkeys⟩ := packDrained_cases hpack
  have hvalues : ∀ a ∈ adds, a.value.isSome := fun a ha => hsys.value_of_add (hadds a ha)
  obtain ⟨hcreation, htombstone⟩ := exists_drained hpack hvalues
    fun d hd => (hsys.dels d (hdels d hd)).2.1
  have hadd : ∀ k v, (k, some v) ∈ pkg.ops → sys.ledger.created k = some v := by
    intro k v hop
    obtain ⟨a, ha, rfl, hvalue⟩ := hcreation k v hop
    obtain ⟨_, w, hw, hcreated⟩ := hsys.adds a (hadds a ha)
    rw [hcreated, ← hw, hvalue]
  have hdel : ∀ k, (k, none) ∈ pkg.ops → k ∈ sys.ledger.spent := by
    intro k hop
    obtain ⟨d, hd, rfl⟩ := htombstone k hop
    exact (hsys.dels d (hdels d hd)).2.2
  refine ⟨hadd, hdel, fun e he v hv => ?_⟩
  obtain ⟨hspent, hcreated⟩ := utxo_eq_some.mp hv
  obtain ⟨⟨key, value⟩, hop, hkey⟩ := hkeys e (mem_append_left dels he)
  dsimp only at hkey
  subst hkey
  cases value with
  | none => exact absurd (hdel e.key hop) hspent
  | some w =>
    have hw := hadd e.key w hop
    rw [hcreated, some.injEq] at hw
    rwa [hw]

theorem Held.releasable_free (hsys : sys.Held) {adds dels : List (PendingLogEntry K V)}
    {log : PendingLog K V} (hadds : ∀ e ∈ adds, e ∈ sys.store.log.adds)
    (hdels : ∀ e ∈ dels, e ∈ sys.store.log.dels) :
    ∀ h ∈ releasableHeights (adds ++ dels) log,
      h ∈ sys.ledger.applied ∧ ∀ e ∈ log.adds, e.height ≠ h := by
  intro h hh
  obtain ⟨hmem, hnone⟩ := mem_filter.mp hh
  obtain ⟨e, he, rfl⟩ := mem_map.mp hmem
  refine ⟨?_, fun other hother heq => ?_⟩
  · rcases mem_append.mp he with he | he
    · exact (hsys.adds e (hadds e he)).1
    · exact (hsys.dels e (hdels e he)).1
  · rw [Bool.and_eq_true, Bool.not_eq_true', List.any_eq_false] at hnone
    exact hnone.2 other hother (decide_eq_true heq)

theorem Held.reachable_drain (hsys : sys.Held) {adds left : List (PendingLogEntry K V)}
    {pkg : FlushPackage K V} (hperm : (adds ++ left).Perm sys.store.log.adds)
    (hcoin : ∀ e ∈ adds, ∀ v, sys.ledger.utxo e.key = some v → (e.key, some v) ∈ pkg.ops)
    (hk : sys.ledger.utxo k = some v) :
    (∃ e ∈ left, e.key = k ∧ sys.store.Pinned k e.height) ∨
      ((∃ item ∈ sys.queue ++ [⟨pkg, false⟩], item.addsWritten = false ∧
          (k, some v) ∈ item.pkg.ops) ∧
        (orInsertAll sys.store.inFlight (addRows pkg.ops) k).isSome = true) ∨
      sys.store.disk k = some v := by
  rcases hsys.reachable k v hk with ⟨e, he, hkey, hpinned⟩ | ⟨⟨item, hitem, hop⟩, hflight⟩ | hdisk
  · rcases mem_append.mp (hperm.mem_iff.mpr he) with hdrained | hleft
    · subst hkey
      have hop := hcoin e hdrained v hk
      refine .inr (.inl ⟨⟨_, mem_concat_self, rfl, hop⟩, ?_⟩)
      exact orInsertAll_isSome.mpr (.inr (mem_map.mpr ⟨(e.key, v), mem_addRows.mpr hop, rfl⟩))
    · exact .inl ⟨e, hleft, hkey, hpinned⟩
  · exact .inr (.inl ⟨⟨item, mem_append_left _ hitem, hop⟩, orInsertAll_isSome.mpr (.inl hflight)⟩)
  · exact .inr (.inr hdisk)

theorem Held.drain (hsys : sys.Held) (cfg : DurabilityConfig) (drain : Drain) : Held
      { sys with
        store := (sys.store.takeFlushBatch cfg drain).2
        queue := sys.queue ++
          ((sys.store.takeFlushBatch cfg drain).1.map (fun pkg => ⟨pkg, false⟩)).toList } := by
  obtain ⟨haddsPerm, hdelsPerm⟩ := drainPending_perm cfg sys.store.log drain
  obtain ⟨haddLen, hdelLen⟩ := drainPending_shards cfg sys.store.log drain
  simp only [takeFlushBatch]
  generalize drainPending cfg sys.store.log drain = drained at *
  obtain ⟨adds, dels, log⟩ := drained
  dsimp only at haddsPerm hdelsPerm haddLen hdelLen ⊢
  obtain ⟨hdrainedAdds, hadds⟩ := forall_mem_append.mp fun _ he => haddsPerm.subset he
  obtain ⟨hdrainedDels, hdels⟩ := forall_mem_append.mp fun _ he => hdelsPerm.subset he
  have hheights {heights : List ℕ}
      (hmem : heights ∈ sys.releasable ∨ ∃ item ∈ sys.queue, item.pkg.heights = heights) (h : ℕ)
      (hh : h ∈ heights) : h ∈ sys.ledger.applied ∧ ∀ e ∈ log.adds, e.height ≠ h := by
    obtain ⟨happlied, hnone⟩ := hsys.heights heights hmem h hh
    exact ⟨happlied, fun e he => hnone e (hadds e he)⟩
  cases hpack : packDrained adds dels drain with
  | none =>
    -- nothing was drained
    have hempty := packDrained_eq_none hpack
    obtain ⟨rfl, rfl⟩ := append_eq_nil_iff.mp hempty
    simp only [map_none, toList_none, append_nil]
    exact { hsys with
      addShards := haddLen.trans hsys.addShards
      delShards := hdelLen.trans hsys.delShards
      adds := fun e he => hsys.adds e (hadds e he)
      dels := fun e he => hsys.dels e (hdels e he)
      heights := fun heights hmem => hheights hmem
      reachable := fun k v hk => (hsys.reachable k v hk).imp_left fun h => h.imp fun _ he =>
        he.imp_left haddsPerm.mem_iff.mpr }
  | some pkg =>
    obtain ⟨hadd, hdel, hcoin⟩ := hsys.packed hdrainedAdds hdrainedDels hpack
    simp only [map_some, toList_some]
    exact { hsys with
      addShards := haddLen.trans hsys.addShards
      delShards := hdelLen.trans hsys.delShards
      adds := fun e he => hsys.adds e (hadds e he)
      dels := fun e he => hsys.dels e (hdels e he)
      queuedAdds := forall_mem_append.mpr ⟨hsys.queuedAdds, forall_mem_singleton.mpr hadd⟩
      queuedDels := forall_mem_append.mpr ⟨hsys.queuedDels, forall_mem_singleton.mpr hdel⟩
      written := forall_mem_append.mpr ⟨hsys.written, forall_mem_singleton.mpr (by simp)⟩
      heights := by
        rintro heights (hmem | ⟨item, hitem, rfl⟩)
        · exact hheights (.inl hmem)
        · rcases mem_append.mp hitem with hold | hnew
          · exact hheights (.inr ⟨item, hold, rfl⟩)
          · rw [mem_singleton.mp hnew]
            exact hsys.releasable_free hdrainedAdds hdrainedDels
      inFlight := by
        intro k hk
        rcases orInsertAll_isSome.mp hk with hk | hk
        · exact hsys.inFlight k hk
        · obtain ⟨row, hrow, rfl⟩ := mem_map.mp hk
          exact isSome_iff_exists.mpr ⟨row.2, hadd _ _ (mem_addRows.mp hrow)⟩
      reachable := fun k v hk => hsys.reachable_drain haddsPerm hcoin hk }

variable (filter : FlushFilter)

theorem queue_flush (hitem : sys.queue[index]? = some item) :
    (∀ other ∈ sys.queue, other ≠ item → other ∈ (sys.flush index filter).queue) ∧
    ∀ other ∈ (sys.flush index filter).queue, other ∈ sys.queue ∨
      filter = .addsOnly ∧ other = { item with addsWritten := true } := by
  simp only [flush, hitem]
  split_ifs with hstays
  · refine ⟨fun other hother hne => ?_, fun other hother => ?_⟩
    · obtain ⟨i, hi, rfl⟩ := getElem_of_mem hother
      have hindex : index ≠ i := by
        rintro rfl
        rw [getElem?_eq_getElem hi, some.injEq] at hitem
        exact hne hitem
      rw [← getElem_set_ne hindex (by simpa using hi)]
      exact getElem_mem _
    · rcases mem_or_eq_of_mem_set hother with hold | hnew
      · exact .inl hold
      · exact .inr ⟨hstays.1, hnew⟩
  · refine ⟨fun other hother hne => ?_, fun other hother => .inl (List.mem_of_mem_eraseIdx hother)⟩
    obtain ⟨hi, rfl⟩ := List.getElem?_eq_some_iff.mp hitem
    have hperm := List.getElem_cons_eraseIdx_perm hi
    exact (List.mem_cons.mp (hperm.mem_iff.mpr hother)).resolve_left hne

theorem flush_fields (hitem : sys.queue[index]? = some item) :
    (sys.flush index filter).store = sys.store.flushPreparedPackageFiltered item.pkg filter ∧
      (sys.flush index filter).ledger = sys.ledger ∧
      (sys.flush index filter).releasable = item.pkg.heights :: sys.releasable := by
  simp only [flush, hitem, and_self]

theorem exists_of_mem_flush (hitem : sys.queue[index]? = some item) :
    ∀ other ∈ (sys.flush index filter).queue, ∃ old ∈ sys.queue, old.pkg = other.pkg := by
  intro other hother
  rcases (queue_flush filter hitem).2 other hother with hold | ⟨_, rfl⟩
  · exact ⟨other, hold, rfl⟩
  · exact ⟨item, mem_of_getElem? hitem, rfl⟩

theorem Held.flush_coin (hsys : sys.Held) {filter : FlushFilter}
    (hitem : sys.queue[index]? = some item)
    (hallowed : if filter = .delsOnly then item.addsWritten ∨ addKeys item.pkg.ops = []
      else item.addsWritten = false) (hk : sys.ledger.utxo k = some v) :
    if k ∈ item.pkg.ops.map Prod.fst then
      (sys.store.flushPreparedPackageFiltered item.pkg filter).disk k = some v else
      (sys.store.flushPreparedPackageFiltered item.pkg filter).disk k = sys.store.disk k ∧
      (sys.store.flushPreparedPackageFiltered item.pkg filter).inFlight k = sys.store.inFlight k ∧
      (sys.store.flushPreparedPackageFiltered item.pkg filter).cache.get k =
        sys.store.cache.get k := by
  have hmem := mem_of_getElem? hitem
  have hops : ∀ op ∈ item.pkg.ops, op.1 = k → op.2 = some v := fun op hop =>
    hsys.add_of_op hmem hk hop
  split_ifs with hkey
  · obtain ⟨⟨key, value⟩, hop, rfl⟩ := mem_map.mp hkey
    have hvalue : value = some v := hops _ hop rfl
    subst hvalue
    have hspent := (utxo_eq_some.mp hk).1
    by_cases hfilter : filter = .delsOnly
    · -- the coin was written before, and the tombstones leave it
      rw [if_pos hfilter] at hallowed
      have hwritten : sys.store.disk key = some v := by
        rcases hallowed with hwritten | hnone
        · exact hsys.written item hmem hwritten key v hop hspent
        · have hadd := mem_addKeys_of_isSome hop rfl
          rw [hnone] at hadd
          cases hadd
      have hskip : key ∉ (item.pkg.ops.filter filter.admits).map Prod.fst := by
        rintro hin
        obtain ⟨op, hop', heq⟩ := mem_map.mp hin
        obtain ⟨hop', hadmits⟩ := mem_filter.mp hop'
        rw [hfilter, FlushFilter.admits, hops op hop' heq] at hadmits
        cases hadmits
      rcases sys.store.flushPreparedPackageFiltered_cases item.pkg filter with ⟨_, hsame⟩ | hflush
      · rw [hsame, hwritten]
      · rw [hflush, applyOps_eq]
        exact (applyRows_of_notMem hskip).trans hwritten
    · have hin : (key, some v) ∈ item.pkg.ops.filter filter.admits := by
        refine mem_filter.mpr ⟨hop, ?_⟩
        cases filter with
        | all | addsOnly => rfl
        | delsOnly => exact absurd rfl hfilter
      rcases sys.store.flushPreparedPackageFiltered_cases item.pkg filter with ⟨hnone, _⟩ | hflush
      · rw [hnone] at hin
        cases hin
      · rw [hflush]
        exact applyOps_of_forall (mem_map_of_mem hin) fun op hop' =>
          hops op (mem_filter.mp hop').1
  · rcases sys.store.flushPreparedPackageFiltered_cases item.pkg filter with ⟨_, hsame⟩ | hflush
    · rw [hsame]
      exact ⟨rfl, rfl, rfl⟩
    · rw [hflush, applyOps_eq]
      refine ⟨applyRows_of_notMem fun hin => hkey ?_, if_neg hkey, ?_⟩
      · obtain ⟨op, hop, heq⟩ := mem_map.mp hin
        exact mem_map.mpr ⟨op, (mem_filter.mp hop).1, heq⟩
      · rcases get_evictFlushed sys.store.cache
          (sys.store.cache.rows.length - sys.store.maxEntries) item.pkg.ops k
            with hsame | ⟨_, w, hw⟩
        · exact hsame
        · exact absurd (mem_map_of_mem hw) hkey

/-- A flush keeps or deletes rows or takes them from the package; nothing new is in flight or
cached, and only the package's coins leave the cache. -/
theorem flush_store (st : IbdUtxoStore K V) (pkg : FlushPackage K V)
    (filter : FlushFilter) :
    let st' := st.flushPreparedPackageFiltered pkg filter
    st'.log = st.log ∧ st'.protectedHeights = st.protectedHeights ∧
    (∀ k v, st'.disk k = some v →
      st.disk k = some v ∨ (k, some v) ∈ pkg.ops ∧ filter ≠ .delsOnly) ∧
    (∀ k, (st'.inFlight k).isSome → (st.inFlight k).isSome) ∧
    ∀ k, st'.cache.get k = st.cache.get k ∨
      st'.cache.get k = none ∧ ∃ v, (k, some v) ∈ pkg.ops := by
  rcases st.flushPreparedPackageFiltered_cases pkg filter with ⟨_, hsame⟩ | hflush
  · rw [hsame]
    exact ⟨rfl, rfl, fun k v h => .inl h, fun k h => h, fun k => .inl rfl⟩
  · rw [hflush]
    refine ⟨rfl, rfl, fun k v h => ?_, fun k h => ?_, fun k => get_evictFlushed ..⟩
    · rw [applyOps_eq] at h
      refine (mem_of_applyRows h).imp_right fun hop => ?_
      obtain ⟨hop, hadmits⟩ := mem_filter.mp hop
      refine ⟨hop, ?_⟩
      rintro rfl
      cases hadmits
    · dsimp only [eraseKeys] at h
      split_ifs at h
      · cases h
      · exact h

section Flush

variable {filter} (hsys : sys.Held) (hitem : sys.queue[index]? = some item)
  (hallowed : if filter = .delsOnly then item.addsWritten ∨ addKeys item.pkg.ops = []
    else item.addsWritten = false)

include hsys hitem

theorem Held.announced_flush {block : ℕ × List (K × V)} (hblock : block ∈ sys.ledger.announced) :
    block.1 ∉ sys.ledger.applied ∧ ∀ k ∈ block.2.map Prod.fst, sys.ledger.created k = none ∧
      (sys.store.flushPreparedPackageFiltered item.pkg filter).Pinned k block.1 := by
  obtain ⟨-, hprotected, -, -, hcache⟩ := flush_store sys.store item.pkg filter
  refine ⟨(hsys.announced block hblock).1, fun k hk => ?_⟩
  obtain ⟨hcreated, hpinned⟩ := (hsys.announced block hblock).2 k hk
  refine ⟨hcreated, hprotected ▸ hpinned.1, ?_⟩
  rcases hcache k with hsame | ⟨_, v, hop⟩
  · rw [hsame]
    exact hpinned.2
  · rw [hsys.queuedAdds item (mem_of_getElem? hitem) k v hop] at hcreated
    cases hcreated

include hallowed

theorem Held.written_flush {other : QueuedPackage K V}
    (hother : other ∈ (sys.flush index filter).queue) (hwritten : other.addsWritten = true)
    (hop : (k, some v) ∈ other.pkg.ops) (hspent : k ∉ sys.ledger.spent) :
    (sys.store.flushPreparedPackageFiltered item.pkg filter).disk k = some v := by
  obtain ⟨old, hold, hpkg⟩ := exists_of_mem_flush filter hitem other hother
  have hk : sys.ledger.utxo k = some v :=
    utxo_eq_some.mpr ⟨hspent, hsys.queuedAdds old hold k v (hpkg ▸ hop)⟩
  have hafter := hsys.flush_coin hitem hallowed hk
  split_ifs at hafter with hkey
  · exact hafter
  · rw [hafter.1]
    rcases (queue_flush filter hitem).2 other hother with hother | ⟨_, rfl⟩
    · exact hsys.written other hother hwritten k v hop hspent
    · exact absurd (mem_map_of_mem hop) hkey

theorem Held.reachable_flush (hk : sys.ledger.utxo k = some v) :
    let st' := sys.store.flushPreparedPackageFiltered item.pkg filter
    (∃ e ∈ sys.store.log.adds, e.key = k ∧ st'.Pinned k e.height) ∨
      ((sys.flush index filter).Queued k v ∧ (st'.inFlight k).isSome = true) ∨
      st'.disk k = some v := by
  intro st'
  have hprotected := (flush_store sys.store item.pkg filter).2.1
  have hafter := hsys.flush_coin hitem hallowed hk
  split_ifs at hafter with hkey
  · exact .inr (.inr hafter)
  · obtain ⟨hdiskSame, hflightSame, hcacheSame⟩ := hafter
    rw [hdiskSame, hflightSame]
    rcases hsys.reachable k v hk with ⟨e, he, hek, hpinned⟩ | ⟨⟨other, hother, hop⟩, hin⟩ | hrow
    · refine .inl ⟨e, he, hek, hprotected ▸ hpinned.1, ?_⟩
      rw [hcacheSame]
      exact hpinned.2
    · refine .inr (.inl ⟨⟨other, (queue_flush filter hitem).1 other hother ?_, hop⟩, hin⟩)
      rintro rfl
      exact hkey (mem_map_of_mem hop.2)
    · exact .inr (.inr hrow)

end Flush

theorem Held.flush (hsys : sys.Held) {filter : FlushFilter}
    (hallowed : ∀ item, sys.queue[index]? = some item →
      if filter = .delsOnly then item.addsWritten ∨ addKeys item.pkg.ops = []
      else item.addsWritten = false) : (sys.flush index filter).Held := by
  cases hitem : sys.queue[index]? with
  | none =>
    simp only [LegacySystem.flush, hitem]
    exact hsys
  | some item =>
    have hmem := mem_of_getElem? hitem
    obtain ⟨hlog, -, hdisk, hflight, hcache⟩ := flush_store sys.store item.pkg filter
    obtain ⟨hstore, hledger, hreleasable⟩ := flush_fields filter hitem
    have hold := exists_of_mem_flush filter hitem
    constructor <;> simp only [hstore, hledger, hlog]
    · exact hsys.addShards
    · exact hsys.delShards
    · exact hsys.adds
    · exact hsys.dels
    · intro other hother k v hop
      obtain ⟨old, hold, hpkg⟩ := hold other hother
      exact hsys.queuedAdds old hold k v (hpkg ▸ hop)
    · intro other hother k hop
      obtain ⟨old, hold, hpkg⟩ := hold other hother
      exact hsys.queuedDels old hold k (hpkg ▸ hop)
    · exact fun other hother hwritten k v hop hspent =>
        hsys.written_flush hitem (hallowed item hitem) hother hwritten hop hspent
    · intro heights hheights
      rw [hreleasable, mem_cons] at hheights
      rcases hheights with (rfl | hreleased) | ⟨other, hother, rfl⟩
      · exact hsys.heights _ (.inr ⟨item, hmem, rfl⟩)
      · exact hsys.heights _ (.inl hreleased)
      · obtain ⟨old, hold, hpkg⟩ := hold other hother
        exact hsys.heights _ (.inr ⟨old, hold, by rw [hpkg]⟩)
    · exact hsys.spent
    · intro k v hk
      rcases hdisk k v hk with hk | ⟨hop, _⟩
      · exact hsys.disk k v hk
      · exact hsys.queuedAdds item hmem k v hop
    · exact fun k hk => hsys.inFlight k (hflight k hk)
    · intro k hk
      rcases hcache k with hsame | ⟨hnone, _⟩
      · rw [hsame] at hk
        exact hsys.cached k hk
      · rw [hnone] at hk
        cases hk
    · exact fun block hblock => hsys.announced_flush hitem hblock
    · exact hsys.disjoint
    · exact fun k v hk => hsys.reachable_flush hitem (hallowed item hitem) hk

theorem Held.preinsert (hsys : sys.Held)
    (hallowed : sys.ledger.Allows (.preinsert height additions)) : Held { sys with
        store := sys.store.workerCachePutProtected additions height
        ledger := sys.ledger.announce height additions } := by
  obtain ⟨happlied, hheights, hfresh⟩ := hallowed
  have hnew := forall_mem_map.mpr hfresh
  constructor <;> simp only [workerCachePutProtected_frame]
  · exact hsys.addShards
  · exact hsys.delShards
  · exact hsys.adds
  · exact hsys.dels
  · exact hsys.queuedAdds
  · exact hsys.queuedDels
  · exact hsys.written
  · exact hsys.heights
  · exact hsys.spent
  · exact hsys.disk
  · exact hsys.inFlight
  · intro k hk
    by_cases hin : k ∈ additions.map Prod.fst
    · exact .inr ⟨_, mem_cons_self, hin⟩
    · rw [sys.store.get_workerCachePutProtected_of_notMem additions height hin] at hk
      exact (hsys.cached k hk).imp_right fun h => h.imp fun _ hblock =>
        hblock.imp_left (mem_cons_of_mem _)
  · intro block hblock
    rcases mem_cons.mp hblock with rfl | hblock
    · exact ⟨happlied, fun k hk => ⟨(hnew k hk).1,
        sys.store.get_workerCachePutProtected_of_mem additions height hk⟩⟩
    · refine ⟨(hsys.announced block hblock).1, fun k hk => ?_⟩
      obtain ⟨hcreated, hpinned⟩ := (hsys.announced block hblock).2 k hk
      have hother : k ∉ additions.map Prod.fst := fun hin => (hnew k hin).2 ⟨block, hblock, hk⟩
      exact ⟨hcreated, hpinned.workerCachePutProtected hother height⟩
  · refine pairwise_cons.mpr ⟨fun block hblock => ⟨(hheights block hblock).symm, ?_⟩, hsys.disjoint⟩
    exact fun k hk hin => (hnew k hk).2 ⟨block, hblock, hin⟩
  · intro k v hk
    have hother : k ∉ additions.map Prod.fst := by
      intro hin
      have hcreated := (utxo_eq_some.mp hk).2
      change sys.ledger.created k = some v at hcreated
      rw [(hnew k hin).1] at hcreated
      cases hcreated
    exact (hsys.reachable k v hk).imp_left fun h => h.imp fun _ he =>
      ⟨he.1, he.2.1, he.2.2.workerCachePutProtected hother height⟩

theorem Held.fresh_of_apply (hsys : sys.Held)
    (hallowed : sys.ledger.Allows (.apply height delta alreadyInCache)) :
    (∀ k ∈ delta.additions.map Prod.fst, sys.ledger.created k = none) ∧
    ∀ block ∈ sys.ledger.announced,
      if block.1 = height then alreadyInCache ∧ block.2 = delta.additions
      else ∀ k ∈ block.2.map Prod.fst, k ∉ delta.additions.map Prod.fst := by
  obtain ⟨_, _, _, hblock⟩ := hallowed
  cases alreadyInCache with
  | false =>
    rw [if_neg Bool.false_ne_true] at hblock
    have hnew := forall_mem_map.mpr hblock.2
    refine ⟨fun k hk => (hnew k hk).1, fun block hmem => ?_⟩
    rw [if_neg (hblock.1 block hmem)]
    exact fun k hk hin => (hnew k hin).2 ⟨block, hmem, hk⟩
  | true =>
    rw [if_pos rfl] at hblock
    refine ⟨fun k hk => ((hsys.announced _ hblock).2 k hk).1, fun block hmem => ?_⟩
    have hsymm : Std.Symm fun a b : ℕ × List (K × V) => a.1 ≠ b.1 ∧
        ∀ k ∈ a.2.map Prod.fst, k ∉ b.2.map Prod.fst :=
      ⟨fun a b hab => ⟨hab.1.symm, fun k hk hin => hab.2 k hin hk⟩⟩
    by_cases hsame : block = (height, delta.additions)
    · subst hsame
      simp
    · obtain ⟨hheight, hkeys⟩ := hsys.disjoint.forall hmem hblock hsame
      rw [if_neg hheight]
      exact hkeys

section Apply

variable (hsys : sys.Held) (hallowed : sys.ledger.Allows (.apply height delta alreadyInCache))

include hallowed in
theorem created_of_spend : ∀ k ∈ delta.deletions, (sys.ledger.created k).isSome := by
  intro k hk
  obtain ⟨v, hv⟩ := isSome_iff_exists.mp (hallowed.2.2.1 k hk)
  rw [(utxo_eq_some.mp hv).2, isSome_some]

include hsys hallowed

theorem Held.created_of_created (hk : (sys.ledger.created k).isSome) :
    ((sys.ledger.apply height delta).created k).isSome := by
  obtain ⟨v, hv⟩ := isSome_iff_exists.mp hk
  have hcreatedOld := (apply_cases height (hsys.fresh_of_apply hallowed).1 hallowed.2.1).2.1
  rw [hcreatedOld k v hv, isSome_some]

theorem Held.coin_of_addition (hk : k ∈ delta.additions.map Prod.fst) :
    ((sys.ledger.apply height delta).utxo k).isSome := by
  have hnew := (hsys.fresh_of_apply hallowed).1
  have hcreatedNew := (apply_cases height hnew hallowed.2.1).1
  have hnone := hnew k hk
  obtain ⟨row, hrow, rfl⟩ := mem_map.mp hk
  have hspent : row.1 ∉ (sys.ledger.apply height delta).spent := by
    intro hin
    have hcreated : (sys.ledger.created row.1).isSome :=
      (mem_append.mp hin).elim (created_of_spend hallowed row.1) (hsys.spent row.1)
    rw [hnone] at hcreated
    cases hcreated
  rw [utxo_eq_some.mpr ⟨hspent, hcreatedNew row hrow⟩, isSome_some]

variable (shardOf : K → ℕ)

theorem Held.pinned_of_addition (hk : k ∈ delta.additions.map Prod.fst)
    (hdel : k ∉ delta.deletions) :
    (sys.store.applyUtxoDelta shardOf delta height alreadyInCache).Pinned k height := by
  obtain ⟨-, -, hpinnedKept, hpinnedNew, -⟩ :=
    sys.store.applyUtxoDelta_store shardOf delta height alreadyInCache
  obtain ⟨-, -, -, hblock⟩ := hallowed
  cases hflag : alreadyInCache with
  | false =>
    rw [← hflag]
    exact hpinnedNew hflag k hk
  | true =>
    rw [hflag, if_pos rfl] at hblock
    rw [← hflag]
    exact hpinnedKept k hdel (.inr hflag) height ((hsys.announced _ hblock).2 k hk).2

theorem Held.cached_apply
    (hk : ((sys.store.applyUtxoDelta shardOf delta height alreadyInCache).cache.get k).isSome) :
    ((sys.ledger.apply height delta).utxo k).isSome ∨
      (sys.ledger.apply height delta).Announced k := by
  obtain ⟨hnew, hannounced⟩ := hsys.fresh_of_apply hallowed
  have hcacheFrom :=
    (sys.store.applyUtxoDelta_store shardOf delta height alreadyInCache).2.2.2.2
  rcases hcacheFrom k hk with ⟨hdel, hk⟩ | hk
  · rcases hsys.cached k hk with hcoin | ⟨block, hblock, hmem⟩
    · obtain ⟨v, hv⟩ := isSome_iff_exists.mp hcoin
      obtain ⟨hspent, hcreated⟩ := utxo_eq_some.mp hv
      have hunspent : k ∉ (sys.ledger.apply height delta).spent := fun hin =>
        (mem_append.mp hin).elim hdel hspent
      left
      rw [utxo_eq_some.mpr ⟨hunspent, (apply_cases height hnew hallowed.2.1).2.1 k v hcreated⟩,
        isSome_some]
    · have hown := hannounced block hblock
      split_ifs at hown with hheight
      · exact .inl (hsys.coin_of_addition hallowed (hown.2 ▸ hmem))
      · exact .inr ⟨block, mem_filter.mpr ⟨hblock, decide_eq_true hheight⟩, hmem⟩
  · exact .inl (hsys.coin_of_addition hallowed hk)

theorem Held.announced_apply {block : ℕ × List (K × V)}
    (hblock : block ∈ (sys.ledger.apply height delta).announced) :
    block.1 ∉ (sys.ledger.apply height delta).applied ∧ ∀ k ∈ block.2.map Prod.fst,
      (sys.ledger.apply height delta).created k = none ∧
        (sys.store.applyUtxoDelta shardOf delta height alreadyInCache).Pinned k block.1 := by
  have hpinnedKept := (sys.store.applyUtxoDelta_store shardOf delta height alreadyInCache).2.2.1
  obtain ⟨hblock, hheight⟩ := mem_filter.mp hblock
  have hne : block.1 ≠ height := of_decide_eq_true hheight
  have hother := (hsys.fresh_of_apply hallowed).2 block hblock
  rw [if_neg hne] at hother
  obtain ⟨happlied, hkeys⟩ := hsys.announced block hblock
  refine ⟨fun hin => (mem_cons.mp hin).elim hne happlied, fun k hk => ?_⟩
  obtain ⟨hnone, hp⟩ := hkeys k hk
  have hdel : k ∉ delta.deletions := by
    intro hin
    have hcreated := created_of_spend hallowed k hin
    rw [hnone] at hcreated
    cases hcreated
  refine ⟨?_, hpinnedKept k hdel (.inl (hother k hk)) block.1 hp⟩
  rw [created_apply height (hother k hk), hnone]

theorem Held.apply : LegacySystem.Held
      { sys with
        store := sys.store.applyUtxoDelta shardOf delta height alreadyInCache
        ledger := sys.ledger.apply height delta } := by
  have hnew := (hsys.fresh_of_apply hallowed).1
  obtain ⟨hcreatedNew, hcreatedOld, hutxo⟩ := apply_cases height hnew hallowed.2.1
  obtain ⟨hflightFrom, hflightKept, hpinnedKept, -, -⟩ :=
    sys.store.applyUtxoDelta_store shardOf delta height alreadyInCache
  have hadds {e : PendingLogEntry K V} :=
    @PendingLog.mem_adds_applyUtxoDelta K V shardOf delta height
    sys.store.log hsys.addShards e
  have hdels {e : PendingLogEntry K V} :=
    @PendingLog.mem_dels_applyUtxoDelta K V shardOf delta height
    sys.store.log hsys.delShards e
  constructor <;> simp only [log_applyUtxoDelta, disk_applyUtxoDelta]
  · exact (PendingLog.length_pushShards ..).trans hsys.addShards
  · exact (PendingLog.length_pushShards ..).trans hsys.delShards
  · intro e he
    rcases hadds.mp he with hold | ⟨row, hrow, rfl⟩
    · obtain ⟨happlied, v, hv, hcreated⟩ := hsys.adds e hold
      exact ⟨mem_cons_of_mem _ happlied, v, hv, hcreatedOld _ _ hcreated⟩
    · exact ⟨mem_cons_self, row.2, rfl, hcreatedNew row hrow⟩
  · intro e he
    rcases hdels.mp he with hold | ⟨k, hk, rfl⟩
    · obtain ⟨happlied, hnone, hspent⟩ := hsys.dels e hold
      exact ⟨mem_cons_of_mem _ happlied, hnone, mem_append_right _ hspent⟩
    · exact ⟨mem_cons_self, rfl, mem_append_left _ hk⟩
  · exact fun item hitem k v hop => hcreatedOld k v (hsys.queuedAdds item hitem k v hop)
  · exact fun item hitem k hop => mem_append_right _ (hsys.queuedDels item hitem k hop)
  · intro item hitem hwritten k v hop hspent
    exact hsys.written item hitem hwritten k v hop fun hk => hspent (mem_append_right _ hk)
  · intro heights hheights h hh
    obtain ⟨happlied, hnone⟩ := hsys.heights heights hheights h hh
    refine ⟨mem_cons_of_mem _ happlied, fun e he => ?_⟩
    rcases hadds.mp he with hold | ⟨row, hrow, rfl⟩
    · exact hnone e hold
    · exact (hallowed.1 h happlied).ne'
  · exact forall_mem_append.mpr
      ⟨fun k hk => hsys.created_of_created hallowed (created_of_spend hallowed k hk),
        fun k hk => hsys.created_of_created hallowed (hsys.spent k hk)⟩
  · exact fun k v hk => hcreatedOld k v (hsys.disk k v hk)
  · intro k hk
    rcases hflightFrom k hk with hk | hk
    · exact hsys.created_of_created hallowed (hsys.inFlight k hk)
    · obtain ⟨row, hrow, rfl⟩ := mem_map.mp hk
      rw [hcreatedNew row hrow, isSome_some]
  · exact fun k hk => hsys.cached_apply hallowed shardOf hk
  · exact fun block hblock => hsys.announced_apply hallowed shardOf hblock
  · exact hsys.disjoint.filter _
  · intro k v hk
    obtain ⟨hdel, hin | ⟨hold, hcoin⟩⟩ := hutxo k v hk
    · refine .inl ⟨⟨k, some v, height⟩, hadds.mpr (.inr ⟨(k, v), hin, rfl⟩), rfl, ?_⟩
      exact hsys.pinned_of_addition hallowed shardOf (mem_map_of_mem hin) hdel
    · rcases hsys.reachable k v hcoin with ⟨e, he, hkey, hp⟩ | ⟨hqueued, hflight⟩ | hdisk
      · exact .inl ⟨e, hadds.mpr (.inl he), hkey, hpinnedKept k hdel (.inl hold) e.height hp⟩
      · exact .inr (.inl ⟨hqueued, hflightKept k hdel hflight⟩)
      · exact .inr (.inr hdisk)

end Apply

variable {cfg : DurabilityConfig} {shardOf : K → ℕ} {age : IbdUtxoStore.CoinAge V}

theorem Held.step (hsys : sys.Held) {step : LegacyStep K V}
    (hallowed : sys.Allows step) : (sys.step cfg shardOf age step).Held := by
  cases step with
  | preinsert height additions => exact hsys.preinsert hallowed.1
  | apply height delta alreadyInCache => exact hsys.apply hallowed.1 shardOf
  | drain drain => exact hsys.drain cfg drain
  | flush index filter => exact hsys.flush hallowed.2
  | release index => exact hsys.release index
  | evict eviction => exact hsys.evict age eviction

theorem Held.run (hsys : sys.Held) {steps : List (LegacyStep K V)}
    (hallowed : GuardedRun.Guarded (LegacySystem.step cfg shardOf age) LegacySystem.Allows
      sys steps) :
    (sys.run cfg shardOf age steps).Held :=
  GuardedRun.stable (fun _ _ hstep hheld => hheld.step hstep) hsys hallowed

end LegacySystem

end Invariant

def cappedDrain : DurabilityConfig := ⟨false, 0, 1, 1, some 4, false⟩

def anyAge : IbdUtxoStore.CoinAge ℕ := ⟨fun _ => 0, fun _ => 0⟩

end BlvmNode
