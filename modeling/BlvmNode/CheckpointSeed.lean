import BlvmNode.TableHistory
import BlvmNode.CoinTree

/-!
# Seeding the engine from a checkpoint

A producer walks the rows of a checkpoint tree, puts their coins into the table and sends the index
entries to a writer of one disk segment. A fast scan is tried first; when it fails, the walk starts
again from the first row with what the scan has handled still in place.
-/

namespace BlvmNode

open BigEndian FileSlices List Option FlatTable

inductive RowCodec where
  | bincode
  | rkyv
  deriving DecidableEq

abbrev CheckpointRow := Bytes × Bytes

/-- What one seeding meets: codec and fast scan of the tree, the two ways to read a value, the
arguments, and where scan, iteration and writer fail. -/
structure SeedConfig where
  codec : RowCodec
  heed3Tree : Bool
  accessUtxo : Bytes → Option Utxo
  bincodeUtxo : Bytes → Option Utxo
  checkpointHeight : ℤ
  expectedCount : Option ℕ
  lastAccepted : ℕ
  scanFails : Option ℕ
  iterFails : Option ℕ
  writerStops : Option ℕ

namespace SeedConfig

/-- `decode_utxo_with_codec`: a store of the fast codec may hold rows of the other one. -/
def decodeUtxo (cfg : SeedConfig) (value : Bytes) : Option Utxo :=
  match cfg.codec with
  | .bincode => cfg.bincodeUtxo value
  | .rkyv => (cfg.accessUtxo value).or (cfg.bincodeUtxo value)

end SeedConfig

def seedBatch : ℕ := 50000

/-- The header of a coin; a height beyond `i32::MAX` is cut down to it. -/
def seedHeader (utxo : Utxo) : OutputHeader :=
  ⟨BitVec.ofNat 32 (min utxo.height.toNat i32Max.toNat), if utxo.isCoinbase then 1 else 0,
    utxo.value⟩

def rowKey (row : CheckpointRow) : OutputKey := outpointToOutputKey (keyToOutpoint row.1)

def seedRecord (row : CheckpointRow) (utxo : Utxo) : TableRecord :=
  ⟨rowKey row, seedHeader utxo, utxo.scriptPubkey⟩

structure SeedState where
  table : FlatTable
  batchItems : List TableRecord
  sent : List OutputKV
  total : ℕ
  channelClosed : Bool

namespace SeedState

def start : SeedState := ⟨FlatTable.open [], [], [], 0, false⟩

def pushSeedBatch (cfg : SeedConfig) (st : SeedState) : SeedState × Bool :=
  if st.batchItems.isEmpty then (st, false)
  else
    let (entries, table) := st.table.importOutputsBatch st.batchItems cfg.checkpointHeight
    let sent := st.sent ++ entries
    let pushed := { st with
      table := table
      batchItems := []
      total := st.total + st.batchItems.length }
    match cfg.writerStops with
    | none => ({ pushed with sent := sent }, false)
    | some n => ({ pushed with sent := sent.take n }, decide (n < sent.length))

def addRow (cfg : SeedConfig) (row : CheckpointRow) (utxo : Utxo) (st : SeedState) :
    SeedState × Bool :=
  let st := { st with batchItems := st.batchItems ++ [seedRecord row utxo] }
  if seedBatch ≤ st.batchItems.length then st.pushSeedBatch cfg else (st, false)

def fastRow (cfg : SeedConfig) (st : SeedState) (row : CheckpointRow) : Option SeedState :=
  if row.1.length ≠ 40 then some st
  else (cfg.accessUtxo row.2).map (fun utxo =>
    let (st, closed) := st.addRow cfg row utxo
    { st with channelClosed := st.channelClosed || closed })

def scanHeed3 (cfg : SeedConfig) : Option ℕ → List CheckpointRow → SeedState → SeedState × Bool
  | some 0, _, st => (st, false)
  | _, [], st => (st, true)
  | fails, row :: rows, st =>
    match st.fastRow cfg row with
    | none => (st, false)
    | some st => scanHeed3 cfg (fails.map Nat.pred) rows st

/-- The loop over `tree.iter()`: an error ends the seeding, and `true` means that the writer was
gone. -/
def iterTree (cfg : SeedConfig) :
    Option ℕ → List CheckpointRow → SeedState → Option (SeedState × Bool)
  | some 0, _, _ => none
  | _, [], st => some (st, false)
  | fails, row :: rows, st =>
    if row.1.length ≠ 40 then iterTree cfg (fails.map Nat.pred) rows st
    else
      match cfg.decodeUtxo row.2 with
      | none => none
      | some utxo =>
        match st.addRow cfg row utxo with
        | (st, true) => some (st, true)
        | (st, false) => iterTree cfg (fails.map Nat.pred) rows st

end SeedState

def maxExportMetaSlack : ℕ := 16

def checkpointUtxoCountMonotonic (height count lastAccepted : ℕ) : Bool :=
  if height = 0 then true
  else if count = 0 then false
  else if height < 10000 then decide (0 < count)
  else if 0 < lastAccepted ∧ count < lastAccepted / 2 then false
  else if lastAccepted = 0 ∧ 400000 ≤ height ∧ count < min (height * 18) (2 ^ 64 - 1) then false
  else if lastAccepted = 0 ∧ height < 100000 then decide (height / 7 ≤ count)
  else true

def seedCountHealthy (cfg : SeedConfig) (total : ℕ) : Bool :=
  if total = 0 ∧ 0 < cfg.checkpointHeight then false
  else if cfg.expectedCount.any (fun expected => decide (0 < expected ∧ total ≠ expected ∧
      maxExportMetaSlack < max total expected - min total expected)) then false
  else checkpointUtxoCountMonotonic (cfg.checkpointHeight % 2 ^ 64).toNat total cfg.lastAccepted

structure Seeded where
  count : ℕ
  segment : List OutputKV
  table : FlatTable

/-- The end of both paths: the writer joins, the count is checked, the table is flushed. -/
def finishSeed (cfg : SeedConfig) (st : SeedState) (sendErr : Bool) : Option Seeded :=
  if cfg.writerStops.isSome then none
  else if sendErr then none
  else if seedCountHealthy cfg st.total then
    some ⟨st.total, st.sent, st.table.flushBefore i32Max⟩
  else none

/-- The fast path returns a result or leaves a state and the send error to the loop. -/
def seedFast (cfg : SeedConfig) (rows : List CheckpointRow) (st : SeedState) :
    Option Seeded ⊕ SeedState × Bool :=
  match st.scanHeed3 cfg cfg.scanFails rows with
  | (st, false) => .inr (st, false)
  | (st, true) =>
    if st.channelClosed then .inr (st, true)
    else
      match st.pushSeedBatch cfg with
      | (st, true) => .inr (st, false)
      | (st, false) => .inl (finishSeed cfg st false)

def seedIter (cfg : SeedConfig) (rows : List CheckpointRow) (st : SeedState) (sendErr : Bool) :
    Option Seeded :=
  (st.iterTree cfg cfg.iterFails rows).bind (fun (st, gone) =>
    if sendErr || gone then finishSeed cfg st true
    else
      let (st, full) := st.pushSeedBatch cfg
      finishSeed cfg st full)

def seedFromIbdUtxos (cfg : SeedConfig) (rows : List CheckpointRow) : Option Seeded :=
  if cfg.codec = .rkyv ∧ cfg.heed3Tree = true then
    match seedFast cfg rows SeedState.start with
    | .inl result => result
    | .inr (st, sendErr) => seedIter cfg rows st sendErr
  else seedIter cfg rows SeedState.start false

open TableRecord (bytes detail key)

variable {row : CheckpointRow} {t : FlatTable} {utxo : Utxo} {height : ℤ}

section Handled

/-- Rows of other key lengths are skipped. -/
def utxoRows (rows : List CheckpointRow) : List CheckpointRow :=
  rows.filter (fun row => decide (row.1.length = 40))

def rowRecord (cfg : SeedConfig) (row : CheckpointRow) : Option TableRecord :=
  (cfg.decodeUtxo row.2).map (seedRecord row)

def handledRows (cfg : SeedConfig) : Option ℕ → List CheckpointRow → Option (List CheckpointRow)
  | some 0, _ => some []
  | _, [] => none
  | fails, row :: rows =>
    if row.1.length = 40 ∧ cfg.accessUtxo row.2 = none then some []
    else (handledRows cfg (fails.map Nat.pred) rows).map (row :: ·)

def abandonedRows (cfg : SeedConfig) (rows : List CheckpointRow) : List CheckpointRow :=
  if cfg.codec = .rkyv ∧ cfg.heed3Tree = true then
    utxoRows ((handledRows cfg cfg.scanFails rows).getD [])
  else []

def importBatches (height : ℤ) (batches : List (List TableRecord)) : FlatTable :=
  batches.foldl (fun t items => (t.importOutputsBatch items height).2) (FlatTable.open [])

theorem importBatches_append_singleton (height : ℤ) (batches : List (List TableRecord))
    (items : List TableRecord) : importBatches height (batches ++ [items]) =
      ((importBatches height batches).importOutputsBatch items height).2 := by
  rw [importBatches, foldl_append]
  rfl

theorem importOutputsBatch_eq (items : List TableRecord) (height : ℤ) (t : FlatTable) :
    (t.importOutputsBatch items height).1 = layout height t.nextOffset items ∧
      (t.importOutputsBatch items height).2.nextOffset =
        t.nextOffset + (items.flatMap bytes).length := by
  rw [importOutputsBatch]
  split_ifs with hempty
  · rw [isEmpty_iff.mp hempty]
    exact ⟨rfl, rfl⟩
  · exact ⟨rfl, rfl⟩

theorem nextOffset_importBatches (height : ℤ) (batches : List (List TableRecord)) :
    (importBatches height batches).nextOffset = (batches.flatten.flatMap bytes).length := by
  induction batches using reverseRecOn with
  | nil => rfl
  | append_singleton batches items ih =>
    rw [importBatches_append_singleton, (importOutputsBatch_eq items height _).2, ih,
      flatten_append, flatMap_append, length_append, flatten_singleton]

/-- The coins met so far: some batches are in the table and sent, the rest waits. -/
structure Handled (cfg : SeedConfig) (records : List TableRecord)
    (batches : List (List TableRecord)) (st : SeedState) : Prop where
  records : records = batches.flatten ++ st.batchItems
  table : st.table = importBatches cfg.checkpointHeight batches
  sent : st.sent = layout cfg.checkpointHeight 0 batches.flatten
  total : st.total = batches.flatten.length
  opened : st.channelClosed = false

variable {cfg : SeedConfig} {records : List TableRecord} {batches : List (List TableRecord)}
  {st : SeedState} {sendErr : Bool} {st' : SeedState}

theorem handled_start (cfg : SeedConfig) : Handled cfg [] [] SeedState.start :=
  ⟨rfl, rfl, rfl, rfl, rfl⟩

theorem Handled.push (hw : cfg.writerStops = none) (h : Handled cfg records batches st) :
    (st.pushSeedBatch cfg).2 = false ∧
      ∃ batches', Handled cfg records batches' (st.pushSeedBatch cfg).1 ∧
        batches'.flatten = records := by
  rw [SeedState.pushSeedBatch]
  split_ifs with hempty
  · refine ⟨rfl, batches, h, ?_⟩
    rw [h.records, isEmpty_iff.mp hempty, append_nil]
  · have hflatten : (batches ++ [st.batchItems]).flatten = records := by
      rw [flatten_append, flatten_singleton, h.records]
    obtain ⟨hentries, -⟩ := importOutputsBatch_eq st.batchItems cfg.checkpointHeight st.table
    simp only [hw]
    refine ⟨trivial, batches ++ [st.batchItems], ⟨?_, ?_, ?_, ?_, h.opened⟩, hflatten⟩
    · rw [hflatten, append_nil]
    · rw [importBatches_append_singleton, ← h.table]
    · simp only [hentries]
      rw [hflatten, h.records, layout_append, h.sent, h.table, nextOffset_importBatches,
        Nat.zero_add]
    · rw [hflatten, h.records, length_append]
      exact congrArg (· + st.batchItems.length) h.total

theorem Handled.addRow (hw : cfg.writerStops = none) (h : Handled cfg records batches st)
    (row : CheckpointRow) (utxo : Utxo) :
    (st.addRow cfg row utxo).2 = false ∧
      ∃ batches', Handled cfg (records ++ [seedRecord row utxo]) batches'
        (st.addRow cfg row utxo).1 := by
  have hjoined : Handled cfg (records ++ [seedRecord row utxo]) batches
      { st with batchItems := st.batchItems ++ [seedRecord row utxo] } :=
    ⟨by rw [h.records, append_assoc], h.table, h.sent, h.total, h.opened⟩
  rw [SeedState.addRow]
  simp only
  split_ifs with hfull
  · obtain ⟨hopen, batches', hpushed, -⟩ := hjoined.push hw
    exact ⟨hopen, batches', hpushed⟩
  · exact ⟨rfl, batches, hjoined⟩

theorem SeedConfig.decodeUtxo_of_access (hcodec : cfg.codec = .rkyv) {value : Bytes}
    (h : cfg.accessUtxo value = some utxo) : cfg.decodeUtxo value = some utxo := by
  rw [decodeUtxo, hcodec]
  simp only
  rw [h, some_or]

theorem utxoRows_cons (row : CheckpointRow) (rows : List CheckpointRow) :
    utxoRows (row :: rows) = if row.1.length = 40 then row :: utxoRows rows else utxoRows rows := by
  by_cases h : row.1.length = 40 <;> simp [utxoRows, h]

theorem Handled.no_row (h : Handled cfg records batches st) :
    Handled cfg (records ++ (utxoRows []).filterMap (rowRecord cfg)) batches st := by
  have hnil : (utxoRows []).filterMap (rowRecord cfg) = [] := rfl
  rw [hnil, append_nil]
  exact h

theorem Handled.fastRow (hw : cfg.writerStops = none) (hcodec : cfg.codec = .rkyv)
    (h : Handled cfg records batches st) (hrow : st.fastRow cfg row = some st') :
    (∀ r ∈ utxoRows [row], (cfg.decodeUtxo r.2).isSome) ∧
      ∃ batches', Handled cfg (records ++ (utxoRows [row]).filterMap (rowRecord cfg)) batches'
        st' := by
  have hnil : utxoRows [] = [] := rfl
  rw [SeedState.fastRow] at hrow
  rw [utxoRows_cons, hnil]
  by_cases hkey : row.1.length = 40
  · rw [if_neg (not_not_intro hkey)] at hrow
    rw [if_pos hkey]
    obtain ⟨utxo, haccess, hst⟩ := map_eq_some_iff.mp hrow
    have hdecode := SeedConfig.decodeUtxo_of_access hcodec haccess
    obtain ⟨hopen, batches', hadded⟩ := h.addRow hw row utxo
    have hrecord : [row].filterMap (rowRecord cfg) = [seedRecord row utxo] := by
      rw [filterMap_cons_some (by rw [rowRecord, hdecode, map_some])]
      rfl
    refine ⟨by simp [hdecode], batches', ?_⟩
    rw [hrecord, ← hst]
    simp only [hopen, Bool.or_false]
    exact hadded
  · rw [if_pos hkey] at hrow
    rw [if_neg hkey, ← some.inj hrow]
    exact ⟨nofun, batches, h.no_row⟩

theorem utxoRows_append (rows rows' : List CheckpointRow) :
    utxoRows (rows ++ rows') = utxoRows rows ++ utxoRows rows' :=
  filter_append ..

theorem Handled.scanHeed3 (hw : cfg.writerStops = none) (hcodec : cfg.codec = .rkyv)
    (fails : Option ℕ) (rows : List CheckpointRow) (h : Handled cfg records batches st) :
    ∃ front batches', Handled cfg (records ++ (utxoRows front).filterMap (rowRecord cfg)) batches'
        (st.scanHeed3 cfg fails rows).1 ∧
      if (st.scanHeed3 cfg fails rows).2 then
        handledRows cfg fails rows = none ∧ front = rows ∧
          ∀ row ∈ utxoRows rows, (cfg.decodeUtxo row.2).isSome
      else handledRows cfg fails rows = some front := by
  fun_induction SeedState.scanHeed3 cfg fails rows st generalizing records batches with
  | case1 rows st => exact ⟨[], batches, h.no_row, by simp [handledRows]⟩
  | case2 fails st hfails =>
    refine ⟨[], batches, h.no_row, ?_⟩
    simp [handledRows, utxoRows]
  | case3 fails row rows st hfails hrow =>
    refine ⟨[], batches, h.no_row, ?_⟩
    have hbad : row.1.length = 40 ∧ cfg.accessUtxo row.2 = none := by
      rw [SeedState.fastRow] at hrow
      by_cases hkey : row.1.length = 40
      · rw [if_neg (not_not_intro hkey)] at hrow
        exact ⟨hkey, map_eq_none_iff.mp hrow⟩
      · rw [if_pos hkey] at hrow
        cases hrow
    simp [handledRows, hbad]
  | case4 fails row rows st hfails st' hrow ih =>
    obtain ⟨hdecoded, batches₁, hrowdone⟩ := h.fastRow hw hcodec hrow
    obtain ⟨front, batches', hdone, hend⟩ := ih hrowdone
    have hgood : ¬ (row.1.length = 40 ∧ cfg.accessUtxo row.2 = none) := by
      rintro ⟨hkey, hnone⟩
      rw [SeedState.fastRow, if_neg (not_not_intro hkey), hnone] at hrow
      cases hrow
    have hhandled : handledRows cfg fails (row :: rows) =
        (handledRows cfg (fails.map Nat.pred) rows).map (row :: ·) := by
      rw [handledRows]
      · rw [if_neg hgood]
      · exact hfails
    refine ⟨row :: front, batches', ?_, ?_⟩
    · rw [← singleton_append, utxoRows_append, filterMap_append, ← append_assoc]
      exact hdone
    · rw [hhandled]
      split_ifs at hend ⊢ with hok
      · obtain ⟨hnone, rfl, hall⟩ := hend
        refine ⟨by rw [hnone, map_none], rfl, ?_⟩
        rw [← singleton_append, utxoRows_append, forall_mem_append]
        exact ⟨hdecoded, hall⟩
      · rw [hend, map_some]

theorem Handled.iterTree (hw : cfg.writerStops = none) (fails : Option ℕ)
    (rows : List CheckpointRow) (h : Handled cfg records batches st) {gone : Bool}
    (hiter : st.iterTree cfg fails rows = some (st', gone)) :
    gone = false ∧ (∀ row ∈ utxoRows rows, (cfg.decodeUtxo row.2).isSome) ∧
      ∃ batches', Handled cfg (records ++ (utxoRows rows).filterMap (rowRecord cfg)) batches'
        st' := by
  fun_induction SeedState.iterTree cfg fails rows st generalizing records batches with
  | case1 => cases hiter
  | case2 fails st hfails =>
    cases hiter
    exact ⟨rfl, nofun, batches, h.no_row⟩
  | case3 fails row rows st hfails hkey ih =>
    rw [utxoRows_cons, if_neg hkey]
    exact ih h hiter
  | case4 => cases hiter
  | case5 fails row rows st hfails hkey utxo hdecode st₁ hadd =>
    have hopen := (h.addRow hw row utxo).1
    rw [hadd] at hopen
    cases hopen
  | case6 fails row rows st hfails hkey utxo hdecode st₁ hadd ih =>
    obtain ⟨-, batches₁, hadded⟩ := h.addRow hw row utxo
    rw [hadd] at hadded
    obtain ⟨hgone, hall, batches', hdone⟩ := ih hadded hiter
    rw [utxoRows_cons, if_pos (not_not.mp hkey), forall_mem_cons,
      filterMap_cons_some (by rw [rowRecord, hdecode, map_some])]
    refine ⟨hgone, ⟨by rw [hdecode, isSome_some], hall⟩, batches', ?_⟩
    rw [← singleton_append, ← append_assoc]
    exact hdone

theorem finishSeed_eq_some {result : Seeded} (h : finishSeed cfg st sendErr = some result) :
    cfg.writerStops = none ∧ sendErr = false ∧
      result = ⟨st.total, st.sent, st.table.flushBefore i32Max⟩ := by
  rw [finishSeed] at h
  split_ifs at h with hw hsend hhealthy
  exact ⟨by simpa using hw, by simpa using hsend, (some.inj h).symm⟩

theorem seedIter_eq_some {rows : List CheckpointRow} {result : Seeded}
    (h : seedIter cfg rows st sendErr = some result) :
    cfg.writerStops = none ∧ sendErr = false ∧
      ∃ st', st.iterTree cfg cfg.iterFails rows = some (st', false) ∧
        finishSeed cfg (st'.pushSeedBatch cfg).1 (st'.pushSeedBatch cfg).2 = some result := by
  obtain ⟨⟨st', gone⟩, hiter, hfinish⟩ := bind_eq_some_iff.mp h
  simp only at hfinish
  split_ifs at hfinish with herr
  · exact absurd (finishSeed_eq_some hfinish).2.1 (by decide)
  · rw [Bool.or_eq_true, not_or, Bool.not_eq_true, Bool.not_eq_true] at herr
    rw [herr.2] at hiter
    exact ⟨(finishSeed_eq_some hfinish).1, herr.1, st', hiter, hfinish⟩

/-- A seeding that succeeds has put the records into the table in this order and sent their entries.
-/
structure SeedResult (cfg : SeedConfig) (records : List TableRecord) (result : Seeded) : Prop where
  segment : result.segment = layout cfg.checkpointHeight 0 records
  table : ∃ batches, batches.flatten = records ∧
    result.table = (importBatches cfg.checkpointHeight batches).flushBefore i32Max

variable {result : Seeded} {rows : List CheckpointRow}

theorem Handled.seedResult (hw : cfg.writerStops = none) (h : Handled cfg records batches st)
    (hfinish : finishSeed cfg (st.pushSeedBatch cfg).1 (st.pushSeedBatch cfg).2 = some result) :
    SeedResult cfg records result := by
  obtain ⟨-, batches', hpushed, hflatten⟩ := h.push hw
  obtain ⟨-, -, rfl⟩ := finishSeed_eq_some hfinish
  refine ⟨?_, batches', hflatten, ?_⟩
  · rw [← hflatten]
    exact hpushed.sent
  · rw [← hpushed.table]

theorem Handled.seedIter (h : Handled cfg records batches st)
    (hseed : seedIter cfg rows st sendErr = some result) :
    SeedResult cfg (records ++ (utxoRows rows).filterMap (rowRecord cfg)) result ∧
      ∀ row ∈ utxoRows rows, (cfg.decodeUtxo row.2).isSome := by
  obtain ⟨hw, -, st', hiter, hfinish⟩ := seedIter_eq_some hseed
  obtain ⟨-, hdecoded, batches', hdone⟩ := h.iterTree hw cfg.iterFails rows hiter
  exact ⟨hdone.seedResult hw hfinish, hdecoded⟩

theorem writer_of_seedFast
    (h : (match seedFast cfg rows st with
      | .inl result => result
      | .inr (st, sendErr) => seedIter cfg rows st sendErr) = some result) :
    cfg.writerStops = none := by
  rw [seedFast] at h
  split at h
  · rename_i result' hfast
    split at hfast
    · cases hfast
    · split_ifs at hfast
      split at hfast
      · cases hfast
      · rw [← Sum.inl.inj hfast] at h
        exact (finishSeed_eq_some h).1
  · exact (seedIter_eq_some h).1

theorem seedResult_of_seed (h : seedFromIbdUtxos cfg rows = some result) :
    SeedResult cfg ((abandonedRows cfg rows ++ utxoRows rows).filterMap (rowRecord cfg)) result ∧
      ∀ row ∈ utxoRows rows, (cfg.decodeUtxo row.2).isSome := by
  rw [seedFromIbdUtxos] at h
  rw [abandonedRows, filterMap_append]
  by_cases hfast : cfg.codec = .rkyv ∧ cfg.heed3Tree
  · rw [if_pos hfast] at h
    rw [if_pos hfast]
    have hw := writer_of_seedFast h
    obtain ⟨front, batches', hscanned, hend⟩ :=
      (handled_start cfg).scanHeed3 hw hfast.1 cfg.scanFails rows
    rw [nil_append] at hscanned
    rw [seedFast] at h
    generalize hscan : SeedState.start.scanHeed3 cfg cfg.scanFails rows = scan at h hscanned hend
    obtain ⟨st, ok⟩ := scan
    cases ok with
    | false =>
      have hhandled : handledRows cfg cfg.scanFails rows = some front := hend
      rw [hhandled, getD_some]
      exact hscanned.seedIter h
    | true =>
      obtain ⟨hnone, rfl, hdecoded⟩ := hend
      have hnil : (utxoRows []).filterMap (rowRecord cfg) = [] := rfl
      rw [hnone, getD_none, hnil, nil_append]
      refine ⟨?_, hdecoded⟩
      have hopen : st.channelClosed = false := hscanned.opened
      have hpush := (hscanned.push hw).1
      simp only [hopen, Bool.false_eq_true, if_false] at h
      apply hscanned.seedResult hw
      generalize hst : st.pushSeedBatch cfg = pushed at h hpush
      obtain ⟨st', full⟩ := pushed
      simp only at hpush
      rw [hpush] at h ⊢
      exact h
  · rw [if_neg hfast] at h
    rw [if_neg hfast]
    exact (handled_start cfg).seedIter h

end Handled

section Table

structure Imported (height : ℤ) (records : List TableRecord) (t : FlatTable)
    (issued : List Issued) : Prop where
  inv : TableInv ⟨t, issued⟩
  cursor : t.cursor = 0
  fence : t.committedFence = 0
  place : InPlace 0 t.tail
  next : t.nextOffset = (t.tail.flatMap BlockOutputs.data).length
  heights : ∀ b ∈ t.tail, b.height = height
  blocks : ∀ i ∈ issued, i.block ∈ t.tail
  records : issued.flatMap Issued.records =
    ((layout height 0 records).map OutputKV.id).zip records

variable {issued : List Issued}

theorem Imported.appendRecords {records items : List TableRecord}
    (h : Imported height records t issued) (hnext : t.nextOffset = (records.flatMap bytes).length)
    (hlength : ∀ r ∈ items, r.bytes.length < 2 ^ 20)
    (hsize : t.nextOffset + (items.flatMap bytes).length ≤ 2 ^ 44) :
    Imported height (records ++ items) (t.appendRecords height items).2
      (issued ++ [TableHistory.issueRecords height items t]) := by
  have htail : (t.appendRecords height items).2.tail =
      t.tail ++ [(TableHistory.issueRecords height items t).block] := rfl
  refine ⟨h.inv.appendRecords hlength hsize, h.cursor, h.fence, ?_, ?_, ?_, ?_, ?_⟩
  · rw [htail, inPlace_append, Nat.zero_add]
    exact ⟨h.place, h.next, trivial⟩
  · rw [htail, flatMap_append, length_append, ← h.next, flatMap_singleton]
    rfl
  · rw [htail, forall_mem_append, forall_mem_singleton]
    exact ⟨h.heights, rfl⟩
  · rw [htail, forall_mem_append, forall_mem_singleton]
    exact ⟨fun i hi => mem_append_left _ (h.blocks i hi), mem_concat_self⟩
  · rw [flatMap_append, h.records, flatMap_singleton, layout_append, map_append,
      zip_append (by rw [length_map, length_layout]), Nat.zero_add, ← hnext]
    rfl

theorem exists_imported (height : ℤ) {batches : List (List TableRecord)}
    (hlength : ∀ r ∈ batches.flatten, r.bytes.length < 2 ^ 20)
    (hsize : (batches.flatten.flatMap bytes).length ≤ 2 ^ 44) :
    ∃ issued, Imported height batches.flatten (importBatches height batches) issued := by
  induction batches using reverseRecOn with
  | nil =>
    exact ⟨[], tableInv_start [], rfl, rfl, trivial, rfl, nofun,
      nofun, rfl⟩
  | append_singleton batches items ih =>
    rw [flatten_append, flatten_singleton] at hlength hsize ⊢
    rw [forall_mem_append] at hlength
    rw [flatMap_append, length_append] at hsize
    obtain ⟨issued, himported⟩ := ih hlength.1 (by omega)
    rw [importBatches_append_singleton, FlatTable.importOutputsBatch]
    split_ifs with hempty
    · rw [isEmpty_iff.mp hempty, append_nil]
      exact ⟨issued, himported⟩
    · have hnext := nextOffset_importBatches height batches
      exact ⟨_, himported.appendRecords hnext hlength.2 (by omega)⟩

/-- After the flush every id finds its record, in the file or, at the one height not flushed, in the
tail. -/
theorem Imported.resolveSlot {records : List TableRecord}
    (h : Imported height records t issued) (uring : Bool) {p : OutputId × TableRecord}
    (hp : p ∈ ((layout height 0 records).map OutputKV.id).zip records) :
    (t.flushBefore i32Max).resolveSlot uring p.1 = some (some p.2.detail) := by
  rw [← h.records, mem_flatMap] at hp
  obtain ⟨i, hi, hp⟩ := hp
  by_cases hheight : height < i32Max
  · have hflush : t.toFlush i32Max = t.tail := by
      rw [toFlush, filter_eq_self]
      intro b hb
      exact decide_eq_true (by rw [h.heights b hb]; exact hheight)
    have hplace : InPlace t.cursor (t.toFlush i32Max) := by
      rw [hflush, h.cursor]
      exact h.place
    have hmarked : (TableHistory.markFlushed i32Max t i).flushed := by
      rw [TableHistory.markFlushed, hflush, Bool.or_eq_true, decide_eq_true_eq]
      exact .inr (h.blocks i hi)
    exact (h.inv.flush hplace).resolveSlot uring (mem_map_of_mem hi) hmarked hp
  · have hflush : t.toFlush i32Max = [] := by
      rw [toFlush, filter_eq_nil_iff]
      intro b hb
      rw [h.heights b hb, decide_eq_true_eq]
      exact hheight
    rw [flushBefore, hflush, if_pos isEmpty_nil]
    apply h.inv.resolveSlot_tail uring hi (h.blocks i hi) _ hp
    rw [h.fence]
    exact Nat.zero_le _

end Table

section Rows

/-- Rows come in the order of their key bytes; coins lie under the keys of their outpoints. -/
structure CheckpointTree (rows : List CheckpointRow) : Prop where
  sorted : rows.Pairwise (fun a b => a.1 < b.1)
  keys : ∀ row ∈ utxoRows rows, ∃ o, row.1 = outpointToKey o

theorem outpointToKey_lt_iff (a b : OutPoint) :
    outpointToKey a < outpointToKey b ↔
      (outpointToOutputKey a).toNat < (outpointToOutputKey b).toNat := by
  have hvalue : ∀ o : OutPoint, value (outpointToKey o) =
      o.hash.toNat * 256 ^ 8 + o.index.toNat := by
    intro o
    rw [outpointToKey, value_append, value_hashBytes, value_index 8 (by norm_num), length_bytes]
  rw [lt_iff_value_lt (by rw [length_outpointToKey, length_outpointToKey]), hvalue, hvalue]
  simp only [outpointToOutputKey, OutputKey.toNat]
  omega

theorem rowKey_outpointToKey {o : OutPoint} (h : row.1 = outpointToKey o) :
    rowKey row = outpointToOutputKey o := by
  rw [rowKey, h, keyToOutpoint_outpointToKey]

variable {rows : List CheckpointRow} {cfg : SeedConfig}

theorem CheckpointTree.rowKey_sorted (h : CheckpointTree rows) :
    (utxoRows rows).Pairwise (fun a b => (rowKey a).toNat < (rowKey b).toNat) := by
  apply (Pairwise.filter _ h.sorted).imp_of_mem
  intro a b ha hb hlt
  obtain ⟨o, ho⟩ := h.keys a ha
  obtain ⟨o', ho'⟩ := h.keys b hb
  rw [rowKey_outpointToKey ho, rowKey_outpointToKey ho', ← outpointToKey_lt_iff, ← ho, ← ho']
  exact hlt

theorem key_layout (height : ℤ) (offset : ℕ) (records : List TableRecord) :
    (layout height offset records).map OutputKV.key = records.map key := by
  induction records generalizing offset with
  | nil => rfl
  | cons r records ih =>
    rw [layout, map_cons, ih, map_cons]
    rfl

theorem key_records (h : ∀ row ∈ rows, (cfg.decodeUtxo row.2).isSome) :
    (rows.filterMap (rowRecord cfg)).map key = rows.map rowKey := by
  induction rows with
  | nil => rfl
  | cons row rows ih =>
    rw [forall_mem_cons] at h
    obtain ⟨utxo, hutxo⟩ := isSome_iff_exists.mp h.1
    rw [filterMap_cons_some (by rw [rowRecord, hutxo, map_some]), map_cons,
      map_cons, ih h.2]
    rfl

theorem handledRows_sublist {fails : Option ℕ} {front : List CheckpointRow}
    (h : handledRows cfg fails rows = some front) : front.Sublist rows := by
  fun_induction handledRows cfg fails rows generalizing front with
  | case1 rows =>
    cases h
    exact nil_sublist _
  | case2 => cases h
  | case3 fails row rows hfails hbad =>
    cases h
    exact nil_sublist _
  | case4 fails row rows hfails hgood ih =>
    obtain ⟨rest, hrest, rfl⟩ := map_eq_some_iff.mp h
    exact (ih hrest).cons_cons row

theorem abandonedRows_sublist (cfg : SeedConfig) (rows : List CheckpointRow) :
    (abandonedRows cfg rows).Sublist (utxoRows rows) := by
  rw [abandonedRows]
  split_ifs
  · cases hhandled : handledRows cfg cfg.scanFails rows with
    | none => exact nil_sublist _
    | some front => exact (handledRows_sublist hhandled).filter _
  · exact nil_sublist _

end Rows

section Exactness

/-- The segment is strictly sorted, has each coin of the tree once, and every id is fetched as its
coin. -/
structure SeededExactly (cfg : SeedConfig) (rows : List CheckpointRow) (result : Seeded) :
    Prop where
  sorted : result.segment.Pairwise (fun a b => a.key.toNat < b.key.toNat)
  once : (result.segment.map OutputKV.key).Perm ((utxoRows rows).map rowKey)
  coins : ∀ row ∈ utxoRows rows, ∀ e ∈ result.segment, e.key = rowKey row → ∀ uring,
    (result.table.fetch uring [e.id]).map (List.map OutputDetail.utxo) =
      (cfg.decodeUtxo row.2).map (fun utxo => [utxo])

def CoinFits (utxo : Utxo) : Prop :=
  outputHeaderSize + utxo.scriptPubkey.length < 2 ^ 20 ∧ utxo.height.toNat ≤ i32Max.toNat

theorem detail_seedRecord_iff (row : CheckpointRow) (utxo : Utxo) :
    (seedRecord row utxo).detail.utxo = utxo ↔ utxo.height.toNat ≤ i32Max.toNat := by
  have hmax : i32Max.toNat = 2147483647 := rfl
  have hheight : ((BitVec.ofNat 32 (min utxo.height.toNat i32Max.toNat)).signExtend 64).toNat =
      min utxo.height.toNat i32Max.toNat := by
    rw [BitVec.signExtend_eq_setWidth_of_msb_false, BitVec.toNat_setWidth, BitVec.toNat_ofNat]
    · omega
    · rw [BitVec.msb_eq_false_iff_two_mul_lt, BitVec.toNat_ofNat]
      omega
  have hcoinbase : (seedHeader utxo).isCoinbase = utxo.isCoinbase := by
    rw [seedHeader, OutputHeader.isCoinbase]
    cases utxo.isCoinbase <;> simp
  constructor
  · intro h
    have hsame := congrArg (fun u => u.height.toNat) h
    simp only [detail, seedRecord, outputDetailFromParts, seedHeader] at hsame
    rw [hheight] at hsame
    omega
  · intro hle
    have hsame : (BitVec.ofNat 32 (min utxo.height.toNat i32Max.toNat)).signExtend 64 =
        utxo.height := by
      apply BitVec.eq_of_toNat_eq
      rw [hheight, Nat.min_eq_left hle]
    simp only [detail, outputDetailFromParts, seedRecord, hcoinbase]
    simp only [seedHeader, hsame]

theorem decode_length_lt (id : OutputId) : (IdCodec.decode id).2 < 2 ^ 20 := by
  have hmask : IdCodec.lenMask.toNat = 2 ^ 20 - 1 := by decide
  rw [IdCodec.decode, BitVec.toNat_and, hmask, Nat.and_two_pow_sub_one_eq_mod]
  exact Nat.mod_lt _ (by norm_num)

variable {cfg : SeedConfig} {rows : List CheckpointRow} {result : Seeded}
  {p : OutputKV × TableRecord} {r : TableRecord}

namespace SeedResult

variable {records : List TableRecord}

section

variable (h : SeedResult cfg records result)
include h

theorem key_eq (hp : p ∈ result.segment.zip records) : p.1.key = p.2.key := by
  rw [h.segment] at hp
  exact (mem_zip_layout hp).1

theorem exists_entry (hr : r ∈ records) :
    ∃ e ∈ result.segment, (e, r) ∈ result.segment.zip records := by
  rw [h.segment]
  rw [← map_snd_zip (length_layout cfg.checkpointHeight 0 records).ge] at hr
  obtain ⟨p, hp, rfl⟩ := mem_map.mp hr
  exact ⟨p.1, (of_mem_zip hp).1, hp⟩

theorem exists_record {e : OutputKV} (he : e ∈ result.segment) :
    ∃ r ∈ records, (e, r) ∈ result.segment.zip records := by
  rw [h.segment] at he ⊢
  obtain ⟨r, hr⟩ := exists_mem_zip_layout he
  exact ⟨r, (of_mem_zip hr).2, hr⟩

theorem resolveSlot (hlength : ∀ r ∈ records, r.bytes.length < 2 ^ 20)
    (hsize : (records.flatMap bytes).length ≤ 2 ^ 44) (uring : Bool)
    (hp : p ∈ result.segment.zip records) :
    result.table.resolveSlot uring p.1.id = some (some p.2.detail) := by
  have hids : (p.1.id, p.2) ∈
      ((layout cfg.checkpointHeight 0 records).map OutputKV.id).zip records := by
    rw [h.segment] at hp
    rw [List.zip_map_left, List.mem_map]
    exact ⟨p, hp, rfl⟩
  obtain ⟨batches, hflatten, htable⟩ := h.table
  rw [← hflatten] at hlength hsize hids
  obtain ⟨issued, himported⟩ := exists_imported cfg.checkpointHeight hlength hsize
  rw [htable]
  have hslot := himported.resolveSlot uring hids
  exact hslot

theorem nextOffset : result.table.nextOffset = (records.flatMap bytes).length := by
  obtain ⟨batches, rfl, htable⟩ := h.table
  rw [htable, ← nextOffset_importBatches cfg.checkpointHeight, flushBefore]
  split_ifs <;> rfl

end

end SeedResult

theorem mem_records (hrow : row ∈ rows) (hutxo : cfg.decodeUtxo row.2 = some utxo) :
    seedRecord row utxo ∈ rows.filterMap (rowRecord cfg) :=
  mem_filterMap.mpr ⟨row, hrow, by rw [rowRecord, hutxo, map_some]⟩

theorem exists_row (hr : r ∈ rows.filterMap (rowRecord cfg)) :
    ∃ row ∈ rows, ∃ utxo, cfg.decodeUtxo row.2 = some utxo ∧ r = seedRecord row utxo := by
  obtain ⟨row, hrow, hrecord⟩ := mem_filterMap.mp hr
  obtain ⟨utxo, hutxo, rfl⟩ := map_eq_some_iff.mp hrecord
  exact ⟨row, hrow, utxo, hutxo, rfl⟩

theorem exists_detail {uring : Bool} {id : OutputId}
    (h : (t.fetch uring [id]).map (map OutputDetail.utxo) = some [utxo]) :
    ∃ detail, t.resolveSlot uring id = some (some detail) ∧ detail.utxo = utxo := by
  obtain ⟨details, hfetch, hutxos⟩ := map_eq_some_iff.mp h
  obtain ⟨detail, rfl, hutxo⟩ := map_eq_singleton_iff.mp hutxos
  exact ⟨detail, resolveSlot_of_fetch uring t hfetch, hutxo⟩

theorem length_records (h : ∀ row ∈ rows, ∀ utxo, cfg.decodeUtxo row.2 = some utxo →
      outputHeaderSize + utxo.scriptPubkey.length < 2 ^ 20) :
    ∀ r ∈ rows.filterMap (rowRecord cfg), r.bytes.length < 2 ^ 20 := by
  intro r hr
  obtain ⟨row, hrow, utxo, hutxo, rfl⟩ := exists_row hr
  rw [TableRecord.length_bytes]
  exact h row hrow utxo hutxo

theorem SeededExactly.coinFits (hexact : SeededExactly cfg rows result)
    (hresult : SeedResult cfg ((utxoRows rows).filterMap (rowRecord cfg)) result)
    (hsize : result.table.nextOffset ≤ 2 ^ 44) :
    ∀ row ∈ utxoRows rows, ∀ utxo, cfg.decodeUtxo row.2 = some utxo → CoinFits utxo := by
  rw [hresult.nextOffset] at hsize
  -- the entry of a row, and what a fetch of its id finds
  have hfound : ∀ row ∈ utxoRows rows, ∀ utxo, cfg.decodeUtxo row.2 = some utxo →
      ∃ e detail, (e, seedRecord row utxo) ∈
          result.segment.zip ((utxoRows rows).filterMap (rowRecord cfg)) ∧
        result.table.resolveSlot false e.id = some (some detail) ∧ detail.utxo = utxo := by
    intro row hrow utxo hutxo
    obtain ⟨e, he, hpair⟩ := hresult.exists_entry (mem_records hrow hutxo)
    have hcoin := hexact.coins row hrow e he (hresult.key_eq hpair) false
    rw [hutxo, map_some] at hcoin
    obtain ⟨detail, hslot, hdetail⟩ := exists_detail hcoin
    exact ⟨e, detail, hpair, hslot, hdetail⟩
  have hshort : ∀ row ∈ utxoRows rows, ∀ utxo, cfg.decodeUtxo row.2 = some utxo →
      outputHeaderSize + utxo.scriptPubkey.length < 2 ^ 20 := by
    intro row hrow utxo hutxo
    obtain ⟨e, detail, -, hslot, rfl⟩ := hfound row hrow utxo hutxo
    rw [length_of_resolveSlot false result.table hslot]
    exact decode_length_lt e.id
  intro row hrow utxo hutxo
  refine ⟨hshort row hrow utxo hutxo, ?_⟩
  obtain ⟨e, detail, hpair, hslot, hdetail⟩ := hfound row hrow utxo hutxo
  have hrecord := hresult.resolveSlot (length_records hshort) hsize false hpair
  rw [hslot] at hrecord
  rw [← detail_seedRecord_iff row utxo, ← some.inj (some.inj hrecord)]
  exact hdetail

theorem seededExactly_of_coinFits (htree : CheckpointTree rows)
    (hresult : SeedResult cfg ((utxoRows rows).filterMap (rowRecord cfg)) result)
    (hdecoded : ∀ row ∈ utxoRows rows, (cfg.decodeUtxo row.2).isSome)
    (hsize : result.table.nextOffset ≤ 2 ^ 44)
    (hfits : ∀ row ∈ utxoRows rows, ∀ utxo, cfg.decodeUtxo row.2 = some utxo → CoinFits utxo) :
    SeededExactly cfg rows result := by
  have hsorted := htree.rowKey_sorted
  have hkeys : result.segment.map OutputKV.key = (utxoRows rows).map rowKey := by
    rw [hresult.segment, key_layout, key_records hdecoded]
  rw [hresult.nextOffset] at hsize
  refine ⟨?_, hkeys ▸ Perm.refl _, ?_⟩
  · have hmapped : (result.segment.map OutputKV.key).Pairwise (fun a b => a.toNat < b.toNat) := by
      rw [hkeys, pairwise_map]
      exact hsorted
    rw [pairwise_map] at hmapped
    exact hmapped
  · intro row hrow e he hkey uring
    obtain ⟨r, hr, hpair⟩ := hresult.exists_record he
    obtain ⟨row', hrow', utxo, hutxo, rfl⟩ := exists_row hr
    -- keys are distinct, so the entry is that of the row
    have hsame : row' = row := by
      have hnodup : ((utxoRows rows).map rowKey).Nodup := by
        rw [Nodup, pairwise_map]
        exact hsorted.imp fun hlt heq => hlt.ne (congrArg _ heq)
      exact inj_on_of_nodup_map hnodup hrow' hrow ((hresult.key_eq hpair).symm.trans hkey)
    have hlength := length_records (fun row hrow utxo hutxo => (hfits row hrow utxo hutxo).1)
    have hslot := hresult.resolveSlot hlength hsize uring hpair
    have hfetch := @fetch_of_resolved uring result.table
      [(e.id, (seedRecord row' utxo).detail)] (forall_mem_singleton.mpr hslot)
    rw [map_singleton, map_singleton] at hfetch
    rw [hfetch, ← hsame, hutxo, map_some, map_some, map_singleton,
      (detail_seedRecord_iff row' utxo).mpr (hfits row' hrow' utxo hutxo).2]

theorem SeededExactly.abandonedRows_eq_nil (hexact : SeededExactly cfg rows result)
    (hseed : seedFromIbdUtxos cfg rows = some result) : abandonedRows cfg rows = [] := by
  obtain ⟨hresult, hdecoded⟩ := seedResult_of_seed hseed
  have hall : ∀ row ∈ abandonedRows cfg rows ++ utxoRows rows,
      (cfg.decodeUtxo row.2).isSome := by
    rw [forall_mem_append]
    exact ⟨fun row hrow => hdecoded row ((abandonedRows_sublist cfg rows).subset hrow), hdecoded⟩
  have hlength := hexact.once.length_eq
  rw [hresult.segment, key_layout, key_records hall, length_map, length_map,
    length_append] at hlength
  exact eq_nil_of_length_eq_zero (by omega)

/-- A seeding that succeeds is exact exactly when no fast scan was given up after it had handled a
coin and every coin survives the table's layout. -/
theorem seeded_exactly_iff (htree : CheckpointTree rows)
    (hseed : seedFromIbdUtxos cfg rows = some result) (hsize : result.table.nextOffset ≤ 2 ^ 44) :
    SeededExactly cfg rows result ↔ abandonedRows cfg rows = [] ∧
      ∀ row ∈ utxoRows rows, ∀ utxo, cfg.decodeUtxo row.2 = some utxo → CoinFits utxo := by
  obtain ⟨hresult, hdecoded⟩ := seedResult_of_seed hseed
  constructor
  · intro hexact
    have hnone := hexact.abandonedRows_eq_nil hseed
    rw [hnone, nil_append] at hresult
    exact ⟨hnone, hexact.coinFits hresult hsize⟩
  · rintro ⟨hnone, hfits⟩
    rw [hnone, nil_append] at hresult
    exact seededExactly_of_coinFits htree hresult hdecoded hsize hfits

def seedCoin (value : BitVec 64) : Utxo := ⟨value, [0x51], 7, false⟩

def mixedRows : List CheckpointRow := [(outpointToKey ⟨1, 0⟩, [1]), (outpointToKey ⟨2, 0⟩, [2])]

def mixedSeed (heed3Tree : Bool) : SeedConfig where
  codec := .rkyv
  heed3Tree := heed3Tree
  accessUtxo := fun value => if value = [1] then some (seedCoin 5) else none
  bincodeUtxo := fun value => if value = [2] then some (seedCoin 6) else none
  checkpointHeight := 7
  expectedCount := some 2
  lastAccepted := 0
  scanFails := none
  iterFails := none
  writerStops := none

theorem checkpointTree_mixedRows : CheckpointTree mixedRows := by
  refine ⟨by decide, ?_⟩
  intro row hrow
  rcases mem_pair.mp (mem_of_mem_filter hrow) with rfl | rfl
  · exact ⟨⟨1, 0⟩, rfl⟩
  · exact ⟨⟨2, 0⟩, rfl⟩

/-- Without the fast scan both coins are seeded exactly. -/
theorem seeded_exactly_iff_mixedRows : ∃ result,
    seedFromIbdUtxos (mixedSeed false) mixedRows = some result ∧
      SeededExactly (mixedSeed false) mixedRows result := by
  obtain ⟨result, hseed, hsize⟩ : ∃ result, seedFromIbdUtxos (mixedSeed false) mixedRows =
      some result ∧ result.table.nextOffset ≤ 2 ^ 44 := ⟨_, rfl, by decide⟩
  refine ⟨result, hseed, (seeded_exactly_iff checkpointTree_mixedRows hseed hsize).mpr ⟨rfl, ?_⟩⟩
  intro row hrow utxo hutxo
  rcases mem_pair.mp (mem_of_mem_filter hrow) with rfl | rfl
  · rw [← some.inj (show some (seedCoin 5) = some utxo from hutxo)]
    exact ⟨by decide, by decide⟩
  · rw [← some.inj (show some (seedCoin 6) = some utxo from hutxo)]
    exact ⟨by decide, by decide⟩

/-- The fast scan stops at the second coin, and the iteration seeds the first one once more. -/
theorem restarted_seed_duplicates : CheckpointTree mixedRows ∧ ∃ result,
    seedFromIbdUtxos (mixedSeed true) mixedRows = some result ∧
      ¬ SeededExactly (mixedSeed true) mixedRows result := by
  refine ⟨checkpointTree_mixedRows, _, rfl, fun hexact => ?_⟩
  exact absurd hexact.once.length_eq (by decide)

end Exactness

end BlvmNode
