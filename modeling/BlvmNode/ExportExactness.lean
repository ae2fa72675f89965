import BlvmNode.LiveViews

/-!
# What a checkpoint export contains

Every entry handed to the writer goes into the hash, and nothing takes it out again: neither the
collapse of equal keys nor the deletes of the memory overlay do. So an export is exact only if the
entries handed over are the unspent coins at the checkpoint, each once.
-/

namespace BlvmNode

open KeyedRuns Timeline KWayMerge RowTable List UtxoIndex DiskSegment OutputKV

def liveAdds (ckpt : ℤ) (log : List OutputKV) : List OutputKV :=
  (log.map OutputKV.key).dedup.filterMap (fun k => live (ckpt + 1) (entriesOf k log))

variable {log : List OutputKV} {runs : List (List (OutputKey × V))} {cfg : MergeConfig}
  {a : OutputKV} {runMax : ℕ} {ckpt : ℤ}

theorem key_of_live {before : ℤ} {k : OutputKey}
    (h : live before (entriesOf k log) = some a) : a ∈ log ∧ a.key = k :=
  mem_entriesOf.mp (mem_of_live h).1

theorem mem_liveAdds : a ∈ liveAdds ckpt log ↔ live (ckpt + 1) (entriesOf a.key log) = some a := by
  simp only [liveAdds, mem_filterMap, mem_dedup]
  constructor
  · rintro ⟨k, -, hlive⟩
    obtain ⟨-, rfl⟩ := key_of_live hlive
    exact hlive
  · intro hlive
    exact ⟨a.key, mem_map_of_mem (key_of_live hlive).1, hlive⟩

theorem liveAdds_keys_nodup (ckpt : ℤ) (log : List OutputKV) :
    ((liveAdds ckpt log).map key).Nodup := by
  have hkey : ∀ {k k'}, k' ∈ (live (ckpt + 1) (entriesOf k log)).map key → k' = k := by
    intro k k' hk'
    obtain ⟨a, ha, rfl⟩ := Option.map_eq_some_iff.mp hk'
    exact (key_of_live ha).2
  rw [liveAdds, map_filterMap]
  exact (nodup_dedup _).filterMap fun _ _ _ h h' => (hkey h).symm.trans (hkey h')

/-- One row for each unspent outpoint and no other, counted right, with the hash of those coins. -/
structure ExportExact {U V G : Type} [CommGroup G] (utxo : OutputId → U) (row : U → V)
    (element : OutputKey → U → G) (ckpt : ℤ) (log : List OutputKV) (r : ExportResult V G) :
    Prop where
  rows : r.tree.Perm ((liveAdds ckpt log).map (exportRow utxo row))
  count : r.liveCount = r.tree.length
  hash : r.muhash = ((liveAdds ckpt log).map (coinElement utxo element)).prod

section Tee

theorem isExported_of_absorbs {e : OutputKV} (h : absorbs ckpt e) : isExported ckpt e := by
  simp only [absorbs, isExported, Bool.and_eq_true, decide_eq_true_eq] at h ⊢
  exact ⟨h.1, .inr h.2⟩

theorem exportTee_absorb (ckpt : ℤ) (absorbed entries : List OutputKV) :
    (exportTee ckpt (absorbLiveAdd ckpt) absorbed entries).2 =
      some (absorbed ++ entries.filter (absorbs ckpt)) := by
  induction entries generalizing absorbed with
  | nil => simp [exportTee]
  | cons e entries ih =>
    by_cases ha : absorbs ckpt e
    · rw [exportTee, if_pos (isExported_of_absorbs ha)]
      simp only [absorbLiveAdd, if_pos ha]
      rw [ih, filter_cons_of_pos ha, append_assoc, singleton_append]
    · rw [exportTee, filter_cons_of_neg ha]
      split_ifs
      · simp only [absorbLiveAdd, if_neg ha]
        exact ih absorbed
      · exact ih absorbed

theorem foldlM_absorb (ckpt : ℤ) (absorbed entries : List OutputKV) :
    entries.foldlM (absorbLiveAdd ckpt) absorbed =
      some (absorbed ++ entries.filter (absorbs ckpt)) := by
  induction entries generalizing absorbed with
  | nil => simp
  | cons e entries ih =>
    rw [foldlM_cons, absorbLiveAdd]
    by_cases ha : absorbs ckpt e
    · simp [ha, ih]
    · simp [ha, ih]

theorem doCompact_sink {σ : Type} (cfg : CompactConfig) (scope : CompactScope)
    (unreadable : ℕ → Option ℕ) (sink : σ → OutputKV → Option σ) (s : σ) (disk : DiskIndex) :
    (disk.doCompact cfg scope unreadable sink s).sink =
      (exportTee cfg.checkpointHeight sink s (gcGroups cfg.fence
        (mergeInputs unreadable (chosen (disk.marks cfg scope))).1)).2 := by
  unfold DiskIndex.doCompact
  dsimp only
  split_ifs with hempty
  · rw [isEmpty_iff.mp hempty]
    rfl
  · rfl
  · split <;> rename_i hs <;> exact hs.symm

def DiskIndex.teed (cfg : CompactConfig) (unreadable : ℕ → Option ℕ) (disk : DiskIndex) :
    List OutputKV :=
  let drained := disk.drained cfg unreadable
  (gcGroups cfg.fence (mergeInputs unreadable
    (chosen (drained.marks cfg (drained.checkpointScope cfg)))).1).filter
      (absorbs cfg.checkpointHeight)

theorem compactForCheckpoint_sink (cfg : CompactConfig) (unreadable : ℕ → Option ℕ)
    (disk : DiskIndex) : (disk.compactForCheckpointSyncWithSink cfg unreadable
      (absorbLiveAdd cfg.checkpointHeight) []).sink = some (disk.teed cfg unreadable) := by
  simp only [DiskIndex.compactForCheckpointSyncWithSink, DiskIndex.teed]
  generalize disk.drained cfg unreadable = drained
  by_cases hempty : drained.segments.isEmpty
  · have hmarks : ∀ scope, drained.marks cfg scope = [] := by
      intro scope
      rw [DiskIndex.marks, isEmpty_iff.mp hempty]
      rfl
    rw [if_pos hempty, hmarks]
    rfl
  · rw [if_neg hempty, doCompact_sink, exportTee_absorb, nil_append]

end Tee

open DiskIndex

def handedOver (cfg : CompactConfig) (unreadable : ℕ → Option ℕ) (idx : UtxoIndex)
    (disk : DiskIndex) : List OutputKV :=
  disk.teed cfg unreadable ++
    (partitionMemoryOverlay cfg.checkpointHeight
      (idx.collectMemoryEntriesAtOrBelow cfg.checkpointHeight)).1.filter
        (absorbs cfg.checkpointHeight)

def overlayDeletes (ckpt : ℤ) (idx : UtxoIndex) : List OutputKey :=
  (partitionMemoryOverlay ckpt (idx.collectMemoryEntriesAtOrBelow ckpt)).2

def ExportConfig.at (cfg : ExportConfig) (ckpt : ℤ) : CompactConfig :=
  { cfg.compact with checkpointHeight := ckpt }

section Export

variable {U V G : Type} [CommGroup G] (utxo : OutputId → U) (row : U → V)
  (element : OutputKey → U → G)

theorem runCheckpointExportPiggyback_eq (cfg : ExportConfig) (unreadable : ℕ → Option ℕ)
    (ckpt : ℤ) (idx : UtxoIndex) (disk : DiskIndex) :
    runCheckpointExportPiggyback cfg utxo row element unreadable ckpt idx disk =
      some (applyMemoryOverlayDeletes (overlayDeletes ckpt idx)
        (finishExport utxo row element cfg (handedOver (cfg.at ckpt) unreadable idx disk))) := by
  have hsink := compactForCheckpoint_sink (cfg.at ckpt) unreadable disk
  simp only [runCheckpointExportPiggyback]
  rw [show ({ cfg.compact with checkpointHeight := ckpt } : CompactConfig) = cfg.at ckpt from rfl]
  rw [show (cfg.at ckpt).checkpointHeight = ckpt from rfl] at hsink
  rw [hsink, Option.bind_some, foldlM_absorb]
  rfl

theorem map_exportRow (l : List OutputKV) :
    l.map (exportRow utxo row) = (l.map (coin utxo)).map (fun c => (c.1, row c.2)) := by
  rw [map_map]
  rfl

omit [CommGroup G] in
theorem map_coinElement (l : List OutputKV) :
    l.map (coinElement utxo element) = (l.map (coin utxo)).map (fun c => element c.1 c.2) := by
  rw [map_map]
  rfl

theorem offsetSorted_perm (absorbed : List OutputKV) : (offsetSorted absorbed).Perm absorbed := by
  unfold offsetSorted
  split_ifs
  · exact perm_insertionSort ..
  · have hcut : (cutList e3cSortRamEntries absorbed.length absorbed).flatten = absorbed :=
      cutList_flatten (by simp [e3cSortRamEntries]) le_rfl
    refine (kWayMerge_perm _).trans ?_
    conv_rhs => rw [← hcut]
    exact Perm.flatten_congr (forall₂_map_left_iff.mpr
      (forall₂_same.mpr fun run _ => perm_insertionSort ..))

section

variable (cfg : ExportConfig) (absorbed : List OutputKV)

theorem exportChunks_perm : (exportChunks cfg absorbed).flatten.Perm absorbed := by
  simp only [exportChunks]
  rw [cutList_flatten (by simp [exportChunkSize]) le_rfl]
  split_ifs
  · exact offsetSorted_perm absorbed
  · exact Perm.refl _

theorem encodedChunks_perm : ((exportChunks cfg absorbed).map (encodeChunk utxo row)).flatten.Perm
      (absorbed.map (exportRow utxo row)) := by
  refine Perm.trans ?_ ((exportChunks_perm cfg absorbed).map _)
  rw [map_flatten]
  exact Perm.flatten_congr (forall₂_map_left_iff.mpr (forall₂_map_right_iff.mpr
    (forall₂_same.mpr fun chunk _ => perm_insertionSort ..)))

theorem finishExport_hash : (finishExport utxo row element cfg absorbed).muhash =
      (absorbed.map (coinElement utxo element)).prod :=
  ((exportChunks_perm cfg absorbed).map _).prod_eq

end

theorem loadRows_of_nodup (cfg : ExportConfig) (h : (runs.flatten.map Prod.fst).Nodup) :
    (loadRows cfg runs).1.Perm runs.flatten ∧ (loadRows cfg runs).2 = runs.flatten.length := by
  have hput : ∀ {rows : List (OutputKey × V)}, rows.Perm runs.flatten →
      (putAll [] rows).Perm runs.flatten := by
    intro rows hrows
    have hall : (putAll [] rows).Perm (rows ++ []) := by
      apply putAll_perm
      rw [append_nil]
      exact (hrows.map _).nodup_iff.mpr h
    rw [append_nil] at hall
    exact hall.trans hrows
  have hmerged := kWayMerge_perm (r := rowKeyLe) runs
  simp only [loadRows]
  rw [collapse_of_nodup ((hmerged.map _).nodup_iff.mpr h), ← length_flatten]
  split_ifs
  · exact ⟨hput hmerged, Nat.sub_zero _⟩
  · exact ⟨hput hmerged, rfl⟩
  · exact ⟨hput (Perm.refl _), rfl⟩

end Export

section LoadPaths

variable {V : Type}

instance : Std.Total (rowKeyLe (V := V)) := ⟨fun a b => Nat.le_total a.1.toNat b.1.toNat⟩

instance : IsTrans (OutputKey × V) rowKeyLe := ⟨fun _ _ _ => Nat.le_trans⟩

theorem rowKeyLe_together (a b c : OutputKey × V) (hab : rowKeyLe a b) (hbc : rowKeyLe b c)
    (hac : a.1 = c.1) : a.1 = b.1 := by
  apply OutputKey.toNat_injective
  refine Nat.le_antisymm hab ?_
  rw [hac]
  exact hbc

theorem length_collapse_merged (hsorted : ∀ run ∈ runs, run.Pairwise rowKeyLe) :
    (collapse (kWayMerge rowKeyLe runs)).1.length = (runs.flatten.map Prod.fst).dedup.length := by
  have hnodup := nodup_keys_collapse rowKeyLe_together (kWayMerge_pairwise hsorted)
  have hperm := (kWayMerge_perm (r := rowKeyLe) runs).map Prod.fst
  rw [← length_map (f := Prod.fst), ← hperm.dedup.length_eq, ← hnodup.dedup]
  refine (perm_of_nodup_nodup_toFinset_eq (nodup_dedup _) (nodup_dedup _) ?_).length_eq
  ext k
  simp only [mem_toFinset, mem_dedup, mem_map]
  constructor
  · rintro ⟨row, hrow, rfl⟩
    exact ⟨row, collapse_subset hrow, rfl⟩
  · rintro ⟨row, hrow, rfl⟩
    exact mem_keys_collapse _ row hrow

/-- Both ways to load sorted chunks leave the same rows. The appending tree counts distinct keys,
the bulk load every row, so the counts agree only without repetitions. -/
theorem load_paths_agree_iff (cfg : ExportConfig) (runs : List (List (OutputKey × V)))
    (hsorted : ∀ run ∈ runs, run.Pairwise rowKeyLe) :
    (loadRows { cfg with appendLoad := true, heedTree := true } runs).1 =
        (loadRows { cfg with appendLoad := true, heedTree := false } runs).1 ∧
      (loadRows { cfg with appendLoad := true, heedTree := true } runs).2 =
        (runs.flatten.map Prod.fst).dedup.length ∧
      ((loadRows { cfg with appendLoad := true, heedTree := false } runs).2 =
          (loadRows { cfg with appendLoad := true, heedTree := true } runs).2 ↔
        (runs.flatten.map Prod.fst).Nodup) := by
  have hcount : (runs.map length).sum - (collapse (kWayMerge rowKeyLe runs)).2 =
      (runs.flatten.map Prod.fst).dedup.length := by
    rw [← length_collapse_merged hsorted, ← length_flatten,
      ← (kWayMerge_perm (r := rowKeyLe) runs).length_eq,
      ← length_collapse (kWayMerge rowKeyLe runs), Nat.add_sub_cancel]
  simp only [loadRows, if_true, Bool.false_eq_true, if_false]
  refine ⟨putAll_collapse _ _, hcount, ?_⟩
  rw [hcount, ← length_flatten, ← length_map (f := Prod.fst)]
  constructor
  · intro hlen
    rw [← (dedup_sublist _).eq_of_length hlen.symm]
    exact nodup_dedup _
  · intro hnodup
    rw [hnodup.dedup]

def fencedExport : ExportConfig := ⟨true, true, true, ⟨8, 20000000, 9, -1, fun _ => true⟩⟩

theorem load_paths_agree_iff_pair : (loadRows { fencedExport with heedTree := false }
      [[(⟨1, 0⟩, 5), (⟨3, 0⟩, 6)], [(⟨2, 0⟩, 7)]]).2 = 3 :=
  ((load_paths_agree_iff fencedExport [[(⟨1, 0⟩, 5), (⟨3, 0⟩, 6)], [(⟨2, 0⟩, 7)]]
    (by decide)).2.2.mpr (by decide)).trans (by decide)

theorem bulk_load_counts_twice :
    loadRows { fencedExport with heedTree := true } [[(⟨1, 0⟩, 5)], [(⟨1, 0⟩, 7)]] =
        ([(⟨1, 0⟩, 7)], 1) ∧
      loadRows { fencedExport with heedTree := false } [[(⟨1, 0⟩, 5)], [(⟨1, 0⟩, 7)]] =
        ([(⟨1, 0⟩, 7)], 2) := by
  decide

end LoadPaths

section Deletes

variable {V G : Type}

theorem deleteBatches_spec (batches : List (List OutputKey)) (r : ExportResult V G) :
    (batches.foldl deleteBatch r).muhash = r.muhash ∧
      (batches.foldl deleteBatch r).tree.Sublist r.tree ∧
      ∀ k ∈ batches.flatten, k ∉ (batches.foldl deleteBatch r).tree.map Prod.fst := by
  induction batches generalizing r with
  | nil => exact ⟨rfl, Sublist.refl _, nofun⟩
  | cons keys batches ih =>
    obtain ⟨hhash, hsub, habsent⟩ := ih (deleteBatch r keys)
    have hbatch : (deleteBatch r keys).tree.Sublist r.tree := filter_sublist
    refine ⟨hhash, hsub.trans hbatch, ?_⟩
    rw [flatten_cons, forall_mem_append]
    refine ⟨fun k hk hmem => ?_, habsent⟩
    obtain ⟨row, hrow, rfl⟩ := mem_map.mp ((hsub.map Prod.fst).subset hmem)
    have hkept := (mem_filter.mp hrow).2
    have hin : row.1 ∈ r.tree.map Prod.fst := mem_map_of_mem (hbatch.subset hrow)
    simp only [decide_eq_true_eq] at hkept
    exact hkept (mem_filter.mpr ⟨hk, by simpa using hin⟩)

theorem deleteBatches_of_absent {batches : List (List OutputKey)} {r : ExportResult V G}
    (h : ∀ k ∈ batches.flatten, k ∉ r.tree.map Prod.fst) : batches.foldl deleteBatch r = r := by
  induction batches with
  | nil => rfl
  | cons keys batches ih =>
    rw [flatten_cons, forall_mem_append] at h
    have hnone : keys.filter (fun k => decide (k ∈ r.tree.map Prod.fst)) = [] := by
      rw [filter_eq_nil_iff]
      intro k hk
      simpa using h.1 k hk
    have hsame : deleteBatch r keys = r := by
      simp only [deleteBatch, hnone]
      simp
    rw [foldl_cons, hsame]
    exact ih h.2

theorem overlayBatches_flatten (deletes : List OutputKey) :
    (cutList overlayBatch deletes.length deletes).flatten = deletes :=
  cutList_flatten (by simp [overlayBatch]) le_rfl

end Deletes

theorem handedOver_perm_of_hash {U V : Type} {cfg : ExportConfig} {utxo : OutputId → U}
    {row : U → V} {unreadable : ℕ → Option ℕ} {idx : UtxoIndex} {disk : DiskIndex}
    (h : ∀ (G : Type) [CommGroup G] (element : OutputKey → U → G),
      ∃ r, runCheckpointExportPiggyback cfg utxo row element unreadable ckpt idx disk = some r ∧
        ExportExact utxo row element ckpt log r) :
    ((handedOver (cfg.at ckpt) unreadable idx disk).map (coin utxo)).Perm
      ((liveAdds ckpt log).map (coin utxo)) := by
  apply perm_of_prod_eq
  intro G _ f
  obtain ⟨r, hr, hexact⟩ := h G (fun k u => f (k, u))
  rw [runCheckpointExportPiggyback_eq, Option.some.injEq] at hr
  have hhash := hexact.hash
  rwa [← hr, applyMemoryOverlayDeletes, (deleteBatches_spec _ _).1, finishExport_hash,
    map_coinElement, map_coinElement] at hhash

/-- An export is exact in every group exactly when the writer gets the unspent coins at the
checkpoint, each once, and the memory snapshot saw none of them spent. -/
theorem exact_iff_handedOver {U V : Type} (cfg : ExportConfig) (utxo : OutputId → U)
    (row : U → V) (unreadable : ℕ → Option ℕ) (ckpt : ℤ) (log : List OutputKV)
    (idx : UtxoIndex) (disk : DiskIndex) :
    (∀ (G : Type) [CommGroup G] (element : OutputKey → U → G),
        ∃ r, runCheckpointExportPiggyback cfg utxo row element unreadable ckpt idx disk = some r ∧
          ExportExact utxo row element ckpt log r) ↔
      ((handedOver (cfg.at ckpt) unreadable idx disk).map (coin utxo)).Perm
          ((liveAdds ckpt log).map (coin utxo)) ∧
        ∀ k ∈ overlayDeletes ckpt idx, live (ckpt + 1) (entriesOf k log) = none := by
  have hflat := overlayBatches_flatten (overlayDeletes ckpt idx)
  constructor
  · intro hexact
    refine ⟨handedOver_perm_of_hash hexact, fun k hk => ?_⟩
    by_contra hsome
    obtain ⟨a, ha⟩ := Option.ne_none_iff_exists'.mp hsome
    obtain ⟨-, rfl⟩ := key_of_live ha
    obtain ⟨r, hr, hrows⟩ := hexact (Multiplicative ℤ) (fun _ _ => 1)
    rw [runCheckpointExportPiggyback_eq, Option.some.injEq] at hr
    have hrow : exportRow utxo row a ∈ (liveAdds ckpt log).map (exportRow utxo row) :=
      mem_map_of_mem (mem_liveAdds.mpr ha)
    have hmem := mem_map_of_mem (f := Prod.fst) (hrows.rows.mem_iff.mpr hrow)
    rw [← hr] at hmem
    exact (deleteBatches_spec _ _).2.2 a.key (by rwa [hflat]) hmem
  · rintro ⟨hperm, hdeletes⟩ G _ element
    refine ⟨_, runCheckpointExportPiggyback_eq utxo row element cfg unreadable ckpt idx disk, ?_⟩
    generalize handedOver (cfg.at ckpt) unreadable idx disk = handed at hperm ⊢
    generalize overlayDeletes ckpt idx = deletes at hdeletes hflat ⊢
    have hrows : (handed.map (exportRow utxo row)).Perm
        ((liveAdds ckpt log).map (exportRow utxo row)) := by
      rw [map_exportRow, map_exportRow]
      exact hperm.map _
    have hloaded := encodedChunks_perm utxo row cfg handed
    have hnodup : ((((exportChunks cfg handed).map (encodeChunk utxo row)).flatten).map
        Prod.fst).Nodup := by
      rw [((hloaded.trans hrows).map _).nodup_iff, map_map]
      exact liveAdds_keys_nodup ckpt log
    obtain ⟨htree, hcount⟩ := loadRows_of_nodup cfg hnodup
    have hexported := htree.trans (hloaded.trans hrows)
    have hnone : applyMemoryOverlayDeletes deletes (finishExport utxo row element cfg handed) =
        finishExport utxo row element cfg handed := by
      apply deleteBatches_of_absent
      rw [hflat]
      intro k hk hmem
      have hkeys := (hexported.map Prod.fst).mem_iff.mp hmem
      rw [map_map] at hkeys
      obtain ⟨a, ha, rfl⟩ := mem_map.mp hkeys
      exact Option.some_ne_none a ((mem_liveAdds.mp ha).symm.trans (hdeletes a.key hk))
    rw [hnone]
    refine ⟨hexported, hcount.trans htree.length_eq.symm, ?_⟩
    rw [finishExport_hash, map_coinElement, map_coinElement]
    exact (hperm.map _).prod_eq

section Overlay

variable {mem : List OutputKV} {decided : Option OutputKey}

theorem overlayFrom_fst (h : ∀ e ∈ mem, e.isAdd → e.id ≠ 0) :
    (overlayFrom ckpt decided mem).1 = nextLives ckpt decided mem := by
  induction mem generalizing decided with
  | nil => rfl
  | cons e mem ih =>
    rw [forall_mem_cons] at h
    rw [overlayFrom, nextLives]
    by_cases habove : ckpt < e.height
    · rw [if_pos habove, if_pos habove, ih h.2]
    · rw [if_neg habove, if_neg habove]
      by_cases hsame : decided = some e.key
      · rw [if_pos hsame, if_pos hsame, ih h.2]
      · rw [if_neg hsame, if_neg hsame]
        by_cases hadd : e.isAdd
        · have hrow : e.isAdd ∧ e.id ≠ 0 := ⟨hadd, h.1 hadd⟩
          simp only [if_pos hrow, if_pos hadd, ih h.2]
        · simp only [isDelete_eq, hadd, ih h.2]
          rfl

theorem overlayFrom_snd {k : OutputKey} (hs : Sorted mem)
    (hd : ∀ k ∈ decided, ∀ e ∈ mem, k.toNat ≤ e.key.toNat)
    (h : k ∈ (overlayFrom ckpt decided mem).2) :
    decided ≠ some k ∧ ∃ d, newest (ckpt + 1) (entriesOf k mem) = some d ∧ d.isAdd = false := by
  induction mem generalizing decided with
  | nil => simp [overlayFrom] at h
  | cons e mem ih =>
    obtain ⟨he, htail⟩ := pairwise_cons.mp hs
    have hrest : ∀ k ∈ decided, ∀ x ∈ mem, k.toNat ≤ x.key.toNat :=
      fun k hk x hx => hd k hk x (mem_cons_of_mem e hx)
    rw [overlayFrom] at h
    rw [entriesOf_cons, keyed_key]
    by_cases habove : ckpt < e.height
    · rw [if_pos habove] at h
      obtain ⟨hne, d, hnewest, hdel⟩ := ih htail hrest h
      refine ⟨hne, d, ?_, hdel⟩
      split_ifs
      · rw [newest_cons, if_neg (by rw [versioned_height]; omega), hnewest]
      · exact hnewest
    · rw [if_neg habove] at h
      by_cases hsame : decided = some e.key
      · rw [if_pos hsame] at h
        obtain ⟨hne, hnewest⟩ := ih htail hrest h
        have hk : e.key ≠ k := fun hk => hne (hsame.trans (congrArg some hk))
        rw [if_neg hk]
        exact ⟨hne, hnewest⟩
      · rw [if_neg hsame] at h
        by_cases hk : e.key = k
        · -- the removal itself: behind it the key is decided
          subst hk
          refine ⟨hsame, e, ?_, ?_⟩
          · rw [if_pos rfl, newest_cons, if_pos (by rw [versioned_height]; omega)]
          · by_contra hadd
            have hlater : e.key ∈ (overlayFrom ckpt (some e.key) mem).2 := by
              simp only [isDelete_eq] at h
              split_ifs at h with hrow
              · exact h
              · simp_all
              · exact h
            exact (ih htail (le_of_le_head he) hlater).1 rfl
        · have hlater : k ∈ (overlayFrom ckpt (some e.key) mem).2 := by
            dsimp only at h
            split_ifs at h
            · exact h
            · exact (mem_cons.mp h).resolve_left (Ne.symm hk)
            · exact h
          obtain ⟨-, d, hnewest, hdel⟩ := ih htail (le_of_le_head he) hlater
          refine ⟨fun hdec => hk ?_, d, by rwa [if_neg hk], hdel⟩
          obtain ⟨hmem, rfl⟩ := mem_entriesOf.mp (mem_of_newest hnewest)
          exact OutputKey.toNat_injective (le_antisymm (le_key (he d hmem))
            (hd _ hdec e mem_cons_self))

end Overlay

section Reached

variable {idx : UtxoIndex}

theorem mem_teed_iff {cfg : CompactConfig} {disk : DiskIndex} (hset : Settled cfg disk)
    (hd : ∀ k, Descending (timeline k (runsOf disk.segments))) :
    a ∈ disk.teed cfg (fun _ => none) ↔
      a ∈ keySurvivors cfg.fence (timeline a.key (runsOf disk.segments)) ∧
        absorbs cfg.checkpointHeight a := by
  have hkey : ∀ l : List OutputKV, a ∈ l ↔ a ∈ entriesOf a.key l := by simp
  simp only [teed, hset.drained]
  rw [chosen_checkpointScope, (mergeInputs_intact (intact_openReaders _)).1, mem_filter, hkey,
    entriesOf_gcGroups (sorted_merge _), entriesOf_merge_inputs hd]

section Memory

variable (hd : ∀ k, Descending (entriesOf k idx.memory))

theorem sortedMemory_perm (ckpt : ℤ) (idx : UtxoIndex) :
    (sortEntries (idx.collectMemoryEntriesAtOrBelow ckpt)).Perm
      (idx.memory.filter (fun e => decide (e.height ≤ ckpt))) :=
  (sortEntries_perm _).trans ((sortEntries_perm _).trans (memory_filter_perm ckpt idx))

theorem overlayAdds_eq (hids : ∀ e ∈ idx.memory, e.isAdd → e.id ≠ 0) :
    (partitionMemoryOverlay ckpt (idx.collectMemoryEntriesAtOrBelow ckpt)).1 =
      liveHeads none (sortEntries (idx.collectMemoryEntriesAtOrBelow ckpt)) := by
  have hmem : ∀ e ∈ sortEntries (idx.collectMemoryEntriesAtOrBelow ckpt), e ∈ idx.memory ∧
      e.height ≤ ckpt := by
    intro e he
    simpa using (sortedMemory_perm ckpt idx).mem_iff.mp he
  rw [partitionMemoryOverlay, overlayFrom_fst fun e he => hids e (hmem e he).1,
    nextLives_eq_liveHeads, filter_eq_self.mpr fun e he => by simpa using (hmem e he).2]

include hd

theorem entriesOf_sortedMemory (k : OutputKey) :
    entriesOf k (sortEntries (idx.collectMemoryEntriesAtOrBelow ckpt)) =
      visible (ckpt + 1) (entriesOf k idx.memory) := by
  apply eq_of_perm_of_heights (hd k).visible ((sorted_sortEntries _).entriesOf_heights k)
  rw [← entriesOf_filter_le]
  exact (sortedMemory_perm ckpt idx).filter _

theorem mem_liveHeads_sortedMemory :
    a ∈ liveHeads none (sortEntries (idx.collectMemoryEntriesAtOrBelow ckpt)) ↔
      live (ckpt + 1) (entriesOf a.key idx.memory) = some a := by
  apply mem_liveHeads_iff_live (sorted_sortEntries _) (hd a.key)
  rw [entriesOf_sortedMemory hd]

theorem newest_of_mem_overlayDeletes {k : OutputKey} (h : k ∈ overlayDeletes ckpt idx) :
    ∃ d, newest (ckpt + 1) (entriesOf k idx.memory) = some d ∧ d.isAdd = false := by
  obtain ⟨-, d, hnewest, hdel⟩ := overlayFrom_snd (sorted_sortEntries _) (by simp) h
  rw [entriesOf_sortedMemory hd, newest_visible, min_self] at hnewest
  exact ⟨d, hnewest, hdel⟩

end Memory

/-- Memory and disk hold the history of the log up to pairs below the checkpoint, and every
creation has a record. -/
structure Reached (ckpt : ℤ) (log : List OutputKV) (idx : UtxoIndex) : Prop where
  written : idx.disk.pendingSpills = []
  descending : ∀ k, Descending (timeline k idx.chain)
  alternating : ∀ k, Alternating (timeline k idx.chain)
  live : ∀ k, live (ckpt + 1) (timeline k idx.chain) = live (ckpt + 1) (entriesOf k log)
  ids : ∀ k, ∀ e ∈ timeline k idx.chain, e.isAdd → e.id ≠ 0

theorem mem_stored_iff : a ∈ idx.disk.stored ↔ a ∈ timeline a.key (runsOf idx.disk.segments) := by
  rw [mem_timeline, (runsOf_flatten_perm _).mem_iff]
  exact (and_iff_left rfl).symm

namespace Reached

variable {cfg : ExportConfig} (h : Reached ckpt log idx)

include h

theorem timeline_eq (k : OutputKey) :
    timeline k idx.chain = entriesOf k idx.memory ++ timeline k (runsOf idx.disk.segments) :=
  timeline_chain_of_written h.written k

theorem descending_memory (k : OutputKey) : Descending (entriesOf k idx.memory) :=
  descending_left (h.timeline_eq k ▸ h.descending k)

theorem descending_disk (k : OutputKey) : Descending (timeline k (runsOf idx.disk.segments)) :=
  descending_right (h.timeline_eq k ▸ h.descending k)

theorem alternating_disk (k : OutputKey) : Alternating (timeline k (runsOf idx.disk.segments)) :=
  alternating_right (h.timeline_eq k ▸ h.alternating k)

theorem ids_memory : ∀ e ∈ idx.memory, e.isAdd → e.id ≠ 0 := by
  intro e he
  apply h.ids e.key
  rw [h.timeline_eq]
  exact mem_append_left _ (mem_entriesOf.mpr ⟨he, rfl⟩)

theorem absorbs_of_live {l : List OutputKV} (hsub : l ⊆ timeline a.key idx.chain)
    (hlive : Timeline.live (ckpt + 1) l = some a) : absorbs ckpt a := by
  obtain ⟨hmem, hadd, hlt⟩ := mem_of_live hlive
  have hid := h.ids a.key a (hsub hmem) hadd
  have hle : a.height ≤ ckpt := Int.lt_add_one_iff.mp hlt
  rw [versioned_isAdd] at hadd
  simpa [absorbs, hadd, hle] using hid

theorem mem_handedOver_iff (hset : Settled cfg.compact idx.disk) :
    a ∈ handedOver (cfg.at ckpt) (fun _ => none) idx idx.disk ↔
      a ∈ keySurvivors cfg.compact.fence (timeline a.key (runsOf idx.disk.segments)) ∧
          absorbs ckpt a ∨
        Timeline.live (ckpt + 1) (entriesOf a.key idx.memory) = some a := by
  have hset' : Settled (cfg.at ckpt) idx.disk := ⟨hset.written, hset.unpaired⟩
  rw [handedOver, mem_append, mem_teed_iff hset' h.descending_disk,
    show (cfg.at ckpt).checkpointHeight = ckpt from rfl, overlayAdds_eq h.ids_memory, mem_filter,
    mem_liveHeads_sortedMemory h.descending_memory]
  refine or_congr_right (and_iff_left_of_imp fun hlive => h.absorbs_of_live ?_ hlive)
  rw [h.timeline_eq]
  exact subset_append_left _ _

theorem nodup_handedOver (hset : Settled cfg.compact idx.disk) :
    (handedOver (cfg.at ckpt) (fun _ => none) idx idx.disk).Nodup := by
  have hset' : Settled (cfg.at ckpt) idx.disk := ⟨hset.written, hset.unpaired⟩
  rw [handedOver, nodup_append]
  refine ⟨?_, ?_, ?_⟩
  · simp only [teed, hset'.drained]
    rw [chosen_checkpointScope, (mergeInputs_intact (intact_openReaders _)).1]
    have hsub := (filter_sublist (p := absorbs ckpt)).trans
      (gcGroups_sublist cfg.compact.fence (kWayMerge le (idx.disk.segments.map entries)))
    refine Nodup.sublist hsub (nodup_of_descending fun k => ?_)
    rw [entriesOf_merge_inputs h.descending_disk]
    exact h.descending_disk k
  · rw [overlayAdds_eq h.ids_memory]
    exact ((nodup_liveHeads (sorted_sortEntries _) (by simp)).of_map _).filter _
  · -- a record is in memory or on disk, not in both
    rintro x hx y hy rfl
    rw [mem_teed_iff hset' h.descending_disk] at hx
    rw [overlayAdds_eq h.ids_memory, mem_filter,
      mem_liveHeads_sortedMemory h.descending_memory] at hy
    have hdisk := (keySurvivors_sublist _ _).subset hx.1
    have hapart := (pairwise_append.mp (h.timeline_eq x.key ▸ h.descending x.key)).2.2
    exact lt_irrefl _ (hapart x (mem_of_live hy.1).1 x hdisk)

theorem mem_handedOver_of_live (hset : Settled cfg.compact idx.disk)
    (hfence : cfg.compact.fence ≤ ckpt)
    (hlive : Timeline.live (ckpt + 1) (timeline a.key idx.chain) = some a) :
    a ∈ handedOver (cfg.at ckpt) (fun _ => none) idx idx.disk := by
  have habsorbs := h.absorbs_of_live (Subset.refl _) hlive
  rw [h.mem_handedOver_iff hset]
  rw [h.timeline_eq, Timeline.live, newest_append] at hlive
  cases hn : newest (ckpt + 1) (entriesOf a.key idx.memory) with
  | some e =>
    right
    rw [hn, Option.some_or] at hlive
    rwa [Timeline.live, hn]
  | none =>
    left
    refine ⟨?_, habsorbs⟩
    rw [hn, Option.none_or] at hlive
    have hcancels : Cancels (cfg.compact.fence + 1) _ _ :=
      survivors_cancels h.descending_disk a.key
    rw [survivors, entriesOf_gcGroups (sorted_merge _), entriesOf_merge_inputs h.descending_disk]
      at hcancels
    have hkept := hcancels.live (h.alternating_disk _) (h.descending_disk _)
      (Int.add_le_add_right hfence 1)
    exact (mem_of_live (hkept.trans hlive)).1

/-- The writer gets the unspent coins, each once, exactly when every creation on disk at or below
the checkpoint is unspent or dropped with its removal. -/
theorem handedOver_perm_iff {U : Type} (utxo : OutputId → U)
    (hset : Settled cfg.compact idx.disk) (hfence : cfg.compact.fence ≤ ckpt) :
    ((handedOver (cfg.at ckpt) (fun _ => none) idx idx.disk).map (coin utxo)).Perm
        ((liveAdds ckpt log).map (coin utxo)) ↔
      ∀ e ∈ idx.disk.stored, e.isAdd → e.height ≤ ckpt →
        Timeline.live (ckpt + 1) (entriesOf e.key log) = some e ∨
          Dropped cfg.compact.fence (timeline e.key (runsOf idx.disk.segments)) e := by
  have hunspent : (liveAdds ckpt log).Nodup := (liveAdds_keys_nodup ckpt log).of_map _
  have hsub : liveAdds ckpt log ⊆ handedOver (cfg.at ckpt) (fun _ => none) idx idx.disk := by
    intro e he
    rw [mem_liveAdds, ← h.live] at he
    exact h.mem_handedOver_of_live hset hfence he
  constructor
  · intro hperm e he hadd hle
    by_contra hnot
    rw [not_or] at hnot
    have hlen := hperm.length_eq
    rw [length_map, length_map] at hlen
    have hall := (hunspent.subperm hsub).perm_of_length_le hlen.le
    have hsurvives := mem_keySurvivors (h.descending_disk _) (mem_stored_iff.mp he) hadd hnot.2
    have hid : e.id ≠ 0 := by
      apply h.ids e.key e _ hadd
      rw [h.timeline_eq]
      exact mem_append_right _ (mem_stored_iff.mp he)
    have habsorbs : absorbs ckpt e := by simpa [absorbs, hadd, hle] using hid
    have hmem := (h.mem_handedOver_iff hset).mpr (.inl ⟨hsurvives, habsorbs⟩)
    exact hnot.1 (mem_liveAdds.mp (hall.mem_iff.mpr hmem))
  · intro hall
    apply Perm.map
    rw [perm_ext_iff_of_nodup (h.nodup_handedOver hset) hunspent]
    refine fun e => ⟨fun he => mem_liveAdds.mpr ?_, fun he => hsub he⟩
    rcases (h.mem_handedOver_iff hset).mp he with ⟨hsurvives, habsorbs⟩ | hlive
    · simp only [absorbs, Bool.and_eq_true, decide_eq_true_eq] at habsorbs
      have hdisk := (keySurvivors_sublist _ _).subset hsurvives
      refine (hall e (mem_stored_iff.mpr hdisk) habsorbs.1.1 habsorbs.2).resolve_right ?_
      intro hdropped
      exact not_mem_keySurvivors (h.descending_disk _) (h.alternating_disk _) hdropped
        habsorbs.1.1 hsurvives
    · rw [← h.live, h.timeline_eq, Timeline.live, newest_append, newest_of_live hlive,
        Option.some_or, Option.filter_some, if_pos (mem_of_live hlive).2.1]

theorem live_eq_none_of_overlayDeletes {k : OutputKey} (hk : k ∈ overlayDeletes ckpt idx) :
    Timeline.live (ckpt + 1) (entriesOf k log) = none := by
  obtain ⟨d, hnewest, hdel⟩ := newest_of_mem_overlayDeletes h.descending_memory hk
  rw [← h.live, h.timeline_eq, Timeline.live, newest_append, hnewest, Option.some_or,
    Option.filter_some, versioned_isAdd, hdel]
  rfl

end Reached

theorem reached_runSteps {steps : List IndexStep} (hlog : WellFormedLog (logOf steps))
    (hids : ∀ e ∈ logOf steps, e.isAdd → e.id ≠ 0) (hE : ∀ s ∈ steps, s.EvictionInRange)
    (hb : AboveFences (ckpt + 1) steps) (hclean : CleanRun runMax empty steps)
    (hwritten : (runSteps runMax empty steps).disk.pendingSpills = []) :
    Reached ckpt (logOf steps) (runSteps runMax empty steps) := by
  have hrefines := refines_runSteps hlog hE hclean hb
  refine ⟨hwritten, fun k => ?_, fun k => ?_, fun k => ?_, fun k e he => ?_⟩
  · exact (hrefines.cancels k).descending (hlog.readable k).descending
  · exact (hrefines.cancels k).alternating (hlog.alternating k)
  · exact (hrefines.cancels k).live (hlog.alternating k) (hlog.readable k).descending le_rfl
  · exact hids e (mem_entriesOf.mp ((hrefines.cancels k).sublist.subset he)).1

end Reached

/-- Two outputs and the spend of the first are on disk, a third output in memory. -/
def exportSteps : List IndexStep :=
  [.append false false [createSpent, OutputKV.newAdd ⟨2, 0⟩ 1 2] 1, .releasePin 1,
    .setSpillTier 1 1, .merge (plainMerge true 0) 0,
    .append false false [OutputKV.newDelete spentKey 9] 9, .releasePin 9,
    .merge (plainMerge true 0) 0, .append false false [OutputKV.newAdd ⟨3, 0⟩ 10 3] 10]

end BlvmNode
