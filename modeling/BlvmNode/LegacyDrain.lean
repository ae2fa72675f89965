import BlvmNode.LegacyLedger

/-!
# Draining the legacy store

The creation and the tombstone of a coin may travel in different packages. A tombstone never leaves
the log while the creation is still in it: so long as packages are written in the order in which
they were drained, a spent coin that has a row or will get one also has a tombstone to come.
-/

namespace BlvmNode

open List Option QueuedPackage LegacySystem

variable {K V : Type}

namespace IbdUtxoStore

section Packing

variable [LinearOrder K] {adds dels : List (PendingLogEntry K V)} {drain : Drain}
  {pkg : PendingFlushPackage K V}

theorem packDrained_kinds (cfg : DurabilityConfig) (log : PendingLog K V)
    (h : packDrained (drainPending cfg log drain).1 (drainPending cfg log drain).2.1 drain =
      some pkg) :
    let res := drainPending cfg log drain
    packRemaining (res.1 ++ res.2.1) = some pkg ∨
      packFlushPackage (res.1 ++ res.2.1) = some pkg ∧ (res.1 = [] ∨ res.2.1 = []) := by
  cases drain with
  | batch maxHeight | batchCapped maxHeight cap | remaining => exact .inl h
  | addsOnly | addsThrough maxHeight cap => exact .inr ⟨h, .inr rfl⟩
  | delsThrough maxHeight cap => exact .inr ⟨h, .inl rfl⟩

/-- The tombstones of a package: every drained one, and no creation of the same coin. -/
theorem packed_tombstones
    (hpack : packRemaining (adds ++ dels) = some pkg ∨
      packFlushPackage (adds ++ dels) = some pkg ∧ (adds = [] ∨ dels = []))
    (hadds : ∀ a ∈ adds, a.value.isSome) (hdels : ∀ d ∈ dels, d.value = none)
    (horder : ∀ a ∈ adds, ∀ d ∈ dels, a.key = d.key → a.height < d.height) :
    (∀ d ∈ dels, (d.key, none) ∈ pkg.ops) ∧
      ∀ k, (k, none) ∈ pkg.ops → ∀ v, (k, some v) ∉ pkg.ops := by
  rcases hpack with hpack | ⟨hpack, hkind⟩
  · rw [packRemaining, ite_none_left_eq_some, some.injEq] at hpack
    rw [← hpack.2]
    refine ⟨fun d hd => ?_, fun k hnone v hsome => ?_⟩
    · obtain ⟨last, hlast, hkey⟩ := exists_dedupePending (mem_append_right adds hd)
      have hle := height_le_dedupePending hlast (mem_append_right adds hd) hkey.symm
      rcases mem_append.mp (mem_of_dedupePending hlast) with hin | hin
      · exact absurd (horder last hin d hd hkey) (by omega)
      · exact mem_map.mpr ⟨last, hlast, by rw [hkey, hdels last hin]⟩
    · -- of one key only entries of one height stay
      obtain ⟨d, hd, heq⟩ := mem_map.mp hnone
      obtain ⟨a, ha, heq'⟩ := mem_map.mp hsome
      obtain ⟨hdkey, hdvalue⟩ := Prod.mk.inj heq
      obtain ⟨hakey, havalue⟩ := Prod.mk.inj heq'
      have hkey : a.key = d.key := hakey.trans hdkey.symm
      have hlt := horder a (mem_adds_of_some hdels (mem_of_dedupePending ha) havalue) d
        (mem_dels_of_none hadds (mem_of_dedupePending hd) hdvalue) hkey
      exact absurd hlt (height_le_dedupePending ha (mem_of_dedupePending hd) hkey.symm).not_gt
  · refine ⟨fun d hd => ?_, fun k hnone v hsome => ?_⟩
    · exact (mem_of_packFlushPackage hpack).mpr
        ⟨d, mem_append_right adds hd, by rw [hdels d hd]⟩
    · obtain ⟨d, hd, heq⟩ := (mem_of_packFlushPackage hpack).mp hnone
      obtain ⟨a, ha, heq'⟩ := (mem_of_packFlushPackage hpack).mp hsome
      have hin := mem_adds_of_some hdels ha (Prod.mk.inj heq').2
      have hout := mem_dels_of_none hadds hd (Prod.mk.inj heq).2
      rcases hkind with rfl | rfl
      · cases hin
      · cases hout

end Packing

end IbdUtxoStore

open IbdUtxoStore

namespace LegacySystem

/-- Tombstones are drained alone only when no creation up to their height is left, and written after
the creations of all packages drained before. -/
def Scheduled [LinearOrder K] (sys : LegacySystem K V) (step : LegacyStep K V) : Prop :=
  sys.Allows step ∧
    match step with
    | .drain (.delsThrough maxHeight _) =>
      sys.store.log.hasPendingAddsAtOrBelow maxHeight = false
    | .flush index filter => filter ≠ .addsOnly →
        ∀ item ∈ sys.queue.take index, item.addsWritten = true ∨ addKeys item.pkg.ops = []
    | _ => True

instance [LinearOrder K] [DecidableEq V] (sys : LegacySystem K V) :
    ∀ step, Decidable (sys.Scheduled step)
  | .drain (.delsThrough maxHeight _) => inferInstanceAs (Decidable (_ ∧
      sys.store.log.hasPendingAddsAtOrBelow maxHeight = false))
  | .flush index filter => inferInstanceAs (Decidable (_ ∧ (filter ≠ .addsOnly →
      ∀ item ∈ sys.queue.take index, item.addsWritten = true ∨ addKeys item.pkg.ops = [])))
  | .preinsert _ _ | .apply _ _ _ | .release _ | .evict _ | .drain (.batch _)
  | .drain (.batchCapped _ _) | .drain .addsOnly | .drain (.addsThrough _ _) | .drain .remaining =>
    inferInstanceAs (Decidable (_ ∧ True))

def AddPending (sys : LegacySystem K V) (k : K) : Prop :=
  (∃ a ∈ sys.store.log.adds, a.key = k) ∨ ∃ v, sys.Queued k v

def DelPending (sys : LegacySystem K V) (k : K) : Prop :=
  (∃ d ∈ sys.store.log.dels, d.key = k) ∨ ∃ item ∈ sys.queue, (k, none) ∈ item.pkg.ops

/-- A tombstone stays behind its creation, and a spent coin keeps one as long as a row is left to
delete. -/
structure Ordered (sys : LegacySystem K V) : Prop where
  logged : ∀ a ∈ sys.store.log.adds, ∀ d ∈ sys.store.log.dels, a.key = d.key → a.height < d.height
  drained : ∀ item ∈ sys.queue, ∀ k, (k, none) ∈ item.pkg.ops → ∀ a ∈ sys.store.log.adds, a.key ≠ k
  apart : ∀ item ∈ sys.queue, ∀ k, (k, none) ∈ item.pkg.ops → ∀ v, (k, some v) ∉ item.pkg.ops
  queued : (sys.queue.map QueuedPackage.pkg).Pairwise fun first later =>
    ∀ k, (k, none) ∈ first.ops → ∀ v, (k, some v) ∉ later.ops
  tombstoned : ∀ k ∈ sys.ledger.spent, sys.AddPending k ∨ (sys.store.disk k).isSome = true →
    sys.DelPending k

variable {sys : LegacySystem K V}

theorem Ordered.opened (base : K → Option V) (maxEntries : ℕ) :
    (LegacySystem.opened base maxEntries).Ordered where
  logged := nofun
  drained := nofun
  apart := nofun
  queued := Pairwise.nil
  tombstoned := nofun

theorem Ordered.congr (hsys : sys.Ordered) {sys' : LegacySystem K V}
    (hlog : sys'.store.log = sys.store.log) (hdisk : sys'.store.disk = sys.store.disk)
    (hqueue : sys'.queue = sys.queue) (hspent : sys'.ledger.spent = sys.ledger.spent) :
    sys'.Ordered := by
  obtain ⟨hlogged, hdrained, hapart, hqueued, htombstoned⟩ := hsys
  constructor <;> simp only [hlog, hdisk, hqueue, hspent, AddPending,
    DelPending, Queued] <;> assumption

variable [LinearOrder K] {item : QueuedPackage K V} {filter : FlushFilter} {index : ℕ}

theorem Ordered.apply (hsys : sys.Ordered) (hheld : sys.Held) (shardOf : K → ℕ)
    {height : ℕ} {delta : UtxoDelta K V} {alreadyInCache : Bool}
    (hallowed : sys.ledger.Allows (.apply height delta alreadyInCache)) : Ordered { sys with
        store := sys.store.applyUtxoDelta shardOf delta height alreadyInCache
        ledger := sys.ledger.apply height delta } := by
  obtain ⟨hnew, -⟩ := hheld.fresh_of_apply hallowed
  have hadds {e : PendingLogEntry K V} := @PendingLog.mem_adds_applyUtxoDelta K V shardOf delta
    height sys.store.log hheld.addShards e
  have hdels {e : PendingLogEntry K V} := @PendingLog.mem_dels_applyUtxoDelta K V shardOf delta
    height sys.store.log hheld.delShards e
  -- what was spent, now or before, is not an output of this block
  have hold : ∀ k, k ∈ delta.deletions ∨ k ∈ sys.ledger.spent →
      ∀ row ∈ delta.additions, row.1 ≠ k := by
    rintro k hk row hrow rfl
    have hnone := hnew row.1 (mem_map_of_mem hrow)
    have hcreated : (sys.ledger.created row.1).isSome :=
      hk.elim (created_of_spend hallowed row.1) (hheld.spent row.1)
    rw [hnone] at hcreated
    cases hcreated
  constructor <;> simp only [AddPending, DelPending, log_applyUtxoDelta, disk_applyUtxoDelta]
  · intro a ha d hd hkey
    rcases hadds.mp ha with ha | ⟨row, hrow, rfl⟩
    · rcases hdels.mp hd with hd | ⟨k, hk, rfl⟩
      · exact hsys.logged a ha d hd hkey
      · exact hallowed.1 _ (hheld.adds a ha).1
    · have hspent : d.key ∈ delta.deletions ∨ d.key ∈ sys.ledger.spent := by
        rcases hdels.mp hd with hd | ⟨k, hk, rfl⟩
        · exact .inr (hheld.dels d hd).2.2
        · exact .inl hk
      exact absurd hkey (hold _ hspent row hrow)
  · intro item hitem k hop a ha
    rcases hadds.mp ha with ha | ⟨row, hrow, rfl⟩
    · exact hsys.drained item hitem k hop a ha
    · exact hold k (.inr (hheld.queuedDels item hitem k hop)) row hrow
  · exact hsys.apart
  · exact hsys.queued
  · intro k hk hrow
    rcases mem_append.mp hk with hin | hin
    · exact .inl ⟨⟨k, none, height⟩, hdels.mpr (.inr ⟨k, hin, rfl⟩), rfl⟩
    · have hbefore : sys.AddPending k ∨ (sys.store.disk k).isSome := by
        rcases hrow with (⟨a, ha, hkey⟩ | hqueued) | hdisk
        · rcases hadds.mp ha with ha | ⟨row, hrow, rfl⟩
          · exact .inl (.inl ⟨a, ha, hkey⟩)
          · exact absurd hkey (hold k (.inr hin) row hrow)
        · exact .inl (.inr hqueued)
        · exact .inr hdisk
      rcases hsys.tombstoned k hin hbefore with ⟨d, hd, hkey⟩ | hpackage
      · exact .inl ⟨d, hdels.mpr (.inl hd), hkey⟩
      · exact .inr hpackage

theorem Ordered.drain (hsys : sys.Ordered) (hheld : sys.Held) (cfg : DurabilityConfig)
    {drain : Drain} (halone : ∀ maxHeight cap, drain = .delsThrough maxHeight cap →
      sys.store.log.hasPendingAddsAtOrBelow maxHeight = false) : Ordered { sys with
        store := (sys.store.takeFlushBatch cfg drain).2
        queue := sys.queue ++
          ((sys.store.takeFlushBatch cfg drain).1.map (fun pkg => ⟨pkg, false⟩)).toList } := by
  obtain ⟨haddsPerm, hdelsPerm⟩ := drainPending_perm cfg sys.store.log drain
  have hbehind := drainPending_order cfg sys.store.log drain halone
  have hkinds {pkg : PendingFlushPackage K V} := @IbdUtxoStore.packDrained_kinds K V _ drain pkg
    cfg sys.store.log
  simp only [takeFlushBatch]
  generalize drainPending cfg sys.store.log drain = drained at *
  obtain ⟨adds, dels, log⟩ := drained
  dsimp only at haddsPerm hdelsPerm hbehind hkinds ⊢
  obtain ⟨hdrainedAdds, hadds⟩ := forall_mem_append.mp fun _ he => haddsPerm.subset he
  obtain ⟨hdrainedDels, hdels⟩ := forall_mem_append.mp fun _ he => hdelsPerm.subset he
  cases hpack : packDrained adds dels drain with
  | none =>
    obtain ⟨rfl, rfl⟩ := append_eq_nil_iff.mp (packDrained_eq_none hpack)
    simp only [map_none, toList_none, append_nil]
    refine ⟨fun a ha d hd => hsys.logged a (hadds a ha) d (hdels d hd),
      fun item hitem k hop a ha => hsys.drained item hitem k hop a (hadds a ha), hsys.apart,
      hsys.queued, fun k hk hrow => ?_⟩
    have hbefore : sys.AddPending k ∨ (sys.store.disk k).isSome :=
      hrow.imp_left fun hadd => hadd.imp_left fun h => h.imp fun a ha => ha.imp_left (hadds a)
    exact (hsys.tombstoned k hk hbefore).imp_left fun h => h.imp fun _ hd =>
      hd.imp_left hdelsPerm.mem_iff.mpr
  | some pkg =>
    have hvalues : ∀ a ∈ adds, a.value.isSome := fun a ha =>
      hheld.value_of_add (hdrainedAdds a ha)
    have hnones : ∀ d ∈ dels, d.value = none := fun d hd =>
      (hheld.dels d (hdrainedDels d hd)).2.1
    obtain ⟨htaken, hapart⟩ := packed_tombstones (hkinds hpack) hvalues hnones
      fun a ha d hd => hsys.logged a (hdrainedAdds a ha) d (hdrainedDels d hd)
    obtain ⟨hcreation, htombstone⟩ := exists_drained hpack hvalues hnones
    simp only [map_some, toList_some]
    constructor
    · exact fun a ha d hd => hsys.logged a (hadds a ha) d (hdels d hd)
    · rw [forall_mem_append, forall_mem_singleton]
      refine ⟨fun item hitem k hop a ha => hsys.drained item hitem k hop a (hadds a ha),
        fun k hop a ha hkey => ?_⟩
      obtain ⟨d, hd, rfl⟩ := htombstone k hop
      have hbefore := hsys.logged a (hadds a ha) d (hdrainedDels d hd) hkey
      have hafter := hbehind d hd a ha
      omega
    · exact forall_mem_append.mpr ⟨hsys.apart, forall_mem_singleton.mpr hapart⟩
    · rw [map_append, pairwise_append]
      refine ⟨hsys.queued, pairwise_singleton _ _, fun first hfirst later hlater k hop v hin => ?_⟩
      rw [map_singleton, mem_singleton] at hlater
      obtain ⟨item, hitem, rfl⟩ := mem_map.mp hfirst
      rw [hlater] at hin
      obtain ⟨a, ha, hkey, -⟩ := hcreation k v hin
      exact hsys.drained item hitem k hop a (hdrainedAdds a ha) hkey
    · intro k hk hrow
      have hbefore : sys.AddPending k ∨ (sys.store.disk k).isSome := by
        rcases hrow with (⟨a, ha, hkey⟩ | ⟨v, item, hitem, hwritten, hop⟩) | hdisk
        · exact .inl (.inl ⟨a, hadds a ha, hkey⟩)
        · rcases mem_append.mp hitem with hitem | hitem
          · exact .inl (.inr ⟨v, item, hitem, hwritten, hop⟩)
          · rw [mem_singleton.mp hitem] at hop
            obtain ⟨a, ha, hkey, -⟩ := hcreation k v hop
            exact .inl (.inl ⟨a, hdrainedAdds a ha, hkey⟩)
        · exact .inr hdisk
      rcases hsys.tombstoned k hk hbefore with ⟨d, hd, rfl⟩ | ⟨item, hitem, hop⟩
      · rcases mem_append.mp (hdelsPerm.mem_iff.mpr hd) with hd | hd
        · exact .inr ⟨_, mem_concat_self, htaken d hd⟩
        · exact .inl ⟨d, hd, rfl⟩
      · exact .inr ⟨item, mem_append_left _ hitem, hop⟩

theorem flush_packages (filter : FlushFilter)
    (hitem : sys.queue[index]? = some item) : ((sys.flush index filter).queue.map pkg).Sublist
      (sys.queue.map pkg) := by
  simp only [flush, hitem]
  split_ifs
  · obtain ⟨hlt, rfl⟩ := List.getElem?_eq_some_iff.mp hitem
    rw [List.map_set]
    dsimp only
    rw [← getElem_map pkg (h := by simpa using hlt), set_getElem_self]
  · exact (eraseIdx_sublist ..).map _

theorem Ordered.flush_tombstone (hsys : sys.Ordered)
    (hitem : sys.queue[index]? = some item) (hfilter : filter ≠ .addsOnly)
    (hahead : ∀ other ∈ sys.queue.take index, other.addsWritten ∨ addKeys other.pkg.ops = [])
    {k : K} (hop : (k, none) ∈ item.pkg.ops) :
    (sys.store.flushPreparedPackageFiltered item.pkg filter).disk k = none ∧
      ∀ v, ¬ sys.Queued k v := by
  have hmem := mem_of_getElem? hitem
  constructor
  · have hin : (k, none) ∈ item.pkg.ops.filter filter.admits := by
      refine mem_filter.mpr ⟨hop, ?_⟩
      cases filter with
      | all | delsOnly => rfl
      | addsOnly => exact absurd rfl hfilter
    rcases sys.store.flushPreparedPackageFiltered_cases item.pkg filter with ⟨hnone, _⟩ | hflush
    · rw [hnone] at hin
      cases hin
    · rw [hflush]
      refine applyOps_of_forall (mem_map_of_mem hin) fun op hop' hkey => ?_
      obtain ⟨key, value⟩ := op
      dsimp only at hkey
      subst hkey
      cases value with
      | none => rfl
      | some v => exact absurd (mem_filter.mp hop').1 (hsys.apart item hmem key hop v)
  · rintro v ⟨other, hother, hunwritten, hadd⟩
    obtain ⟨i, hi, rfl⟩ := List.getElem_of_mem hother
    obtain ⟨hlt, rfl⟩ := List.getElem?_eq_some_iff.mp hitem
    rcases lt_trichotomy i index with hbefore | rfl | hafter
    · -- the package was drained before this one, so it has written its creations
      have htake : sys.queue[i] ∈ sys.queue.take index := by
        rw [mem_take_iff_getElem]
        exact ⟨i, by omega, rfl⟩
      rcases hahead _ htake with hwritten | hnone
      · rw [hunwritten] at hwritten
        cases hwritten
      · have hkey := mem_addKeys_of_isSome hadd rfl
        rw [hnone] at hkey
        cases hkey
    · exact hsys.apart _ hmem k hop v hadd
    · have horder := pairwise_iff_getElem.mp hsys.queued index i (by simpa using hlt)
        (by simpa using hi) hafter
      rw [getElem_map, getElem_map] at horder
      exact horder k hop v hadd

theorem Ordered.flush (hsys : sys.Ordered)
    (hallowed : ∀ item, sys.queue[index]? = some item →
      if filter = .delsOnly then item.addsWritten ∨ addKeys item.pkg.ops = []
      else item.addsWritten = false) (hahead : filter ≠ .addsOnly → ∀ item ∈ sys.queue.take index,
      item.addsWritten ∨ addKeys item.pkg.ops = []) : (sys.flush index filter).Ordered := by
  cases hitem : sys.queue[index]? with
  | none =>
    simp only [LegacySystem.flush, hitem]
    exact hsys
  | some item =>
    have hmem := mem_of_getElem? hitem
    obtain ⟨hothers, hqueue⟩ := queue_flush filter hitem
    obtain ⟨hlog, -, hdisk, -⟩ := flush_store sys.store item.pkg filter
    have hpackages := flush_packages filter hitem
    obtain ⟨hstore, hledger, -⟩ := flush_fields filter hitem
    have hold := exists_of_mem_flush filter hitem
    -- a creation that waits afterwards waited before
    have hwaiting : ∀ k v, (sys.flush index filter).Queued k v → sys.Queued k v := by
      rintro k v ⟨other, hother, hunwritten, hop⟩
      rcases hqueue other hother with hin | ⟨_, rfl⟩
      · exact ⟨other, hin, hunwritten, hop⟩
      · cases hunwritten
    constructor
    · rw [hstore, hlog]
      exact hsys.logged
    · rw [hstore, hlog]
      intro other hother k hop
      obtain ⟨old, hin, hpkg⟩ := hold other hother
      exact hsys.drained old hin k (hpkg ▸ hop)
    · intro other hother k hop
      obtain ⟨old, hin, hpkg⟩ := hold other hother
      rw [← hpkg] at hop ⊢
      exact hsys.apart old hin k hop
    · exact hsys.queued.sublist hpackages
    · rw [hstore, hledger]
      intro k hk hrow
      have hlogged (h : (sys.flush index filter).AddPending k) : sys.AddPending k := by
        rcases h with ⟨a, ha, hkey⟩ | ⟨v, hv⟩
        · rw [hstore, hlog] at ha
          exact .inl ⟨a, ha, hkey⟩
        · exact .inr ⟨v, hwaiting k v hv⟩
      have hbefore : sys.AddPending k ∨ (sys.store.disk k).isSome := by
        rcases hrow with hadd | hrow
        · exact .inl (hlogged hadd)
        · obtain ⟨v, hv⟩ := isSome_iff_exists.mp hrow
          rcases hdisk k v hv with hv | ⟨hop, hfilter⟩
          · exact .inr (by rw [hv, isSome_some])
          · have hunwritten := hallowed item hitem
            rw [if_neg hfilter] at hunwritten
            exact .inl (.inr ⟨v, item, hmem, hunwritten, hop⟩)
      rcases hsys.tombstoned k hk hbefore with ⟨d, hd, hkey⟩ | ⟨other, hother, hop⟩
      · refine .inl ⟨d, ?_, hkey⟩
        rwa [hstore, hlog]
      · by_cases hsame : other = item
        · subst hsame
          by_cases hfilter : filter = .addsOnly
          · refine .inr ⟨{ other with addsWritten := true }, ?_, hop⟩
            have hany : other.pkg.ops.any (fun op => op.2.isNone) :=
              any_eq_true.mpr ⟨_, hop, rfl⟩
            simp only [LegacySystem.flush, hitem]
            rw [if_pos ⟨hfilter, hany⟩]
            exact List.mem_set (List.getElem?_eq_some_iff.mp hitem).1 _
          · -- its tombstone is written, and there is nothing left to delete
            obtain ⟨hnone, hnobody⟩ := hsys.flush_tombstone hitem hfilter (hahead hfilter) hop
            rcases hrow with hadd | hrow
            · rcases hlogged hadd with ⟨a, ha, hkey⟩ | ⟨v, hv⟩
              · exact absurd hkey (hsys.drained other hmem k hop a ha)
              · exact absurd hv (hnobody v)
            · rw [hnone] at hrow
              cases hrow
        · exact .inr ⟨other, hothers other hother hsame, hop⟩

variable {cfg : DurabilityConfig} {shardOf : K → ℕ} {age : IbdUtxoStore.CoinAge V}

theorem Ordered.step (hsys : sys.Ordered) (hheld : sys.Held) {step : LegacyStep K V}
    (hscheduled : sys.Scheduled step) : (sys.step cfg shardOf age step).Ordered := by
  obtain ⟨hallowed, hschedule⟩ := hscheduled
  cases step with
  | preinsert height additions =>
    obtain ⟨-, hlog, hdisk⟩ := sys.store.workerCachePutProtected_frame additions height
    exact hsys.congr hlog hdisk rfl rfl
  | apply height delta alreadyInCache => exact hsys.apply hheld shardOf hallowed.1
  | drain drain =>
    refine hsys.drain hheld cfg fun maxHeight cap hdrain => ?_
    subst hdrain
    exact hschedule
  | flush index filter => exact hsys.flush hallowed.2 hschedule
  | release index => exact hsys.congr rfl rfl rfl rfl
  | evict eviction =>
    obtain ⟨victims, hrun, _⟩ := sys.store.runEviction_cases age eviction
    simp only [LegacySystem.step, hrun]
    exact hsys.congr rfl rfl rfl rfl

theorem Ordered.disk_eq_utxo (hsys : sys.Ordered) (hheld : sys.Held)
    (hadds : sys.store.log.adds = []) (hdels : sys.store.log.dels = []) (hqueue : sys.queue = []) :
    sys.store.disk = sys.ledger.utxo := by
  have hnobody {k : K} : ¬ sys.DelPending k := by
    simp [DelPending, hdels, hqueue]
  funext k
  cases hcoin : sys.ledger.utxo k with
  | some v =>
    rcases hheld.reachable k v hcoin with ⟨e, he, _⟩ | ⟨⟨item, hitem, _⟩, _⟩ | hdisk
    · rw [hadds] at he
      cases he
    · rw [hqueue] at hitem
      cases hitem
    · exact hdisk
  | none =>
    cases hrow : sys.store.disk k with
    | none => rfl
    | some v =>
      have hcreated := hheld.disk k v hrow
      have hspent : k ∈ sys.ledger.spent := by
        by_contra hunspent
        rw [Ledger.utxo, if_neg hunspent, hcreated] at hcoin
        cases hcoin
      exact absurd (hsys.tombstoned k hspent (.inr (by rw [hrow, isSome_some]))) hnobody

end LegacySystem

section Convergence

variable [LinearOrder K]

theorem drained_tree_is_utxo_set (cfg : DurabilityConfig) (shardOf : K → ℕ)
    (age : IbdUtxoStore.CoinAge V) (base : K → Option V) (maxEntries : ℕ)
    (steps : List (LegacyStep K V))
    (hscheduled : GuardedRun.Guarded (LegacySystem.step cfg shardOf age) LegacySystem.Scheduled
      (LegacySystem.opened base maxEntries) steps)
    (hlog : ((LegacySystem.opened base maxEntries).run cfg shardOf age steps).store.log.len = 0)
    (hqueue : ((LegacySystem.opened base maxEntries).run cfg shardOf age steps).queue = []) :
    ((LegacySystem.opened base maxEntries).run cfg shardOf age steps).store.disk =
      ((LegacySystem.opened base maxEntries).run cfg shardOf age steps).ledger.utxo := by
  have hinv := GuardedRun.stable (P := fun sys => sys.Held ∧ sys.Ordered)
      (fun _ _ hstep hinv => ⟨hinv.1.step hstep.1, hinv.2.step hinv.1 hstep⟩)
      ⟨Held.opened base maxEntries, Ordered.opened base maxEntries⟩
      hscheduled
  rw [PendingLog.len, Nat.add_eq_zero_iff, length_eq_zero_iff, length_eq_zero_iff] at hlog
  exact hinv.2.disk_eq_utxo hinv.1 hlog.1 hlog.2 hqueue

/-- Coin 7 is written before it is spent; of coin 9 only the creation fits into the capped batch. -/
def cutDrains : List (LegacyStep ℕ ℕ) :=
  [.apply 1 ⟨[(7, 50), (8, 60)], []⟩ false, .drain .addsOnly, .apply 2 ⟨[(9, 70)], [7]⟩ false,
    .apply 3 ⟨[], [9]⟩ false, .drain (.batchCapped 3 1), .drain (.delsThrough 2 4),
    .flush 0 .addsOnly, .flush 0 .all, .flush 0 .delsOnly, .drain .remaining, .flush 0 .all]

theorem drained_tree_is_utxo_set_cut :
    ((LegacySystem.opened (fun _ => none) 8).run cappedDrain id anyAge cutDrains).store.disk =
      ((LegacySystem.opened (fun _ => none) 8).run cappedDrain id anyAge cutDrains).ledger.utxo :=
  drained_tree_is_utxo_set cappedDrain id anyAge (fun _ => none) 8 cutDrains (by decide) (by decide)
    rfl

end Convergence

end BlvmNode
