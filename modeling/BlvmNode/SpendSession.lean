import BlvmNode.EraseSince
import BlvmNode.InputFilter
import BlvmNode.TableHistory
import BlvmNode.Lib.RowTable

/-!
# Resolving the inputs of a block

A session appends a block, asks the index for the ids of its inputs, sorts them by file offset,
fetches their records in one batch and maps each key to the rank of its id. A record that is left
out moves the coins of all keys behind it.
-/

namespace BlvmNode

open RowTable KeyedRuns Timeline GuardedRun List Option FlatTable

structure SpendEngine where
  table : FlatTable
  index : UtxoIndex

namespace SpendEngine

variable (isCoinbase : Transaction → Bool)

/-- `tx_ids[1..]` panics on a block without transactions. -/
def appendAndClassify (runMax : ℕ) (contended contendedAgain : Bool) (b : ChainBlock)
    (e : SpendEngine) : Option (SpendEngine × List OutputKey × List OutputKey) :=
  if b.txIds.isEmpty then none
  else
    let (adds, table) := e.table.appendOutputs b
    let (intra, external) := classifyInputs isCoinbase b
    let deletes := external.map (fun o => OutputKV.newDelete (outpointToOutputKey o) b.height)
    some (⟨table, e.index.append runMax contended contendedAgain (adds ++ deletes) b.height⟩,
      (sortExternalKeys (external.map outpointToOutputKey)).destutter (· ≠ ·),
      intra.map outpointToOutputKey)

def query (e : SpendEngine) (keys : List OutputKey) (before : ℤ) : List OutputId :=
  (e.index.batchQuery (keys.map (fun k => (k, outputIdMax))) before).map Prod.snd

end SpendEngine

open SpendEngine

/-- The ids that were found, each with the place of its key, sorted by file offset. -/
def fetchOrder (ids : List OutputId) : List (ℕ × OutputId) :=
  ((ids.zipIdx.filter (fun p => decide (IsTableId p.1))).map Prod.swap).insertionSort
    (fun a b => (IdCodec.decode a.2).1 ≤ (IdCodec.decode b.2).1)

structure PartialSpendSession where
  externalKeys : List OutputKey
  intraBlockKeys : List OutputKey
  height : ℤ

structure SpendSession where
  details : List OutputDetail
  keyToIdx : List (OutputKey × ℕ)
  localSpends : List (OutputKey × OutputDetail)

open PartialSpendSession SpendSession

/-- The map from the keys of a batch, by their places in the order of the fetch, to `values`. -/
def keyedRows {α : Type*} (keys : List OutputKey) (order : List (ℕ × OutputId))
    (values : List α) : List (OutputKey × α) :=
  putAll [] ((order.zip values).filterMap (fun p => (keys[p.1.1]?).map (fun k => (k, p.2))))

/-- A detail that the fetch left out ends the map. -/
def resolveIntraBlock (uring : Bool) (db : SpendEngine) (keys : List OutputKey) (height : ℤ) :
    Option (List (OutputKey × OutputDetail)) :=
  if keys.isEmpty then some []
  else
    let keys := (sortExternalKeys keys).destutter (· ≠ ·)
    let order := fetchOrder (db.query keys (height + 1))
    (db.table.fetch uring (order.map Prod.snd)).map (fun raw => keyedRows keys order raw)

/-- Query, fetch and map building, which both paths do on the keys of the block; `none` if a
read fails. -/
def resolveInputs (uring : Bool) (db : SpendEngine) (externalKeys intraBlockKeys : List OutputKey)
    (height : ℤ) : Option SpendSession :=
  let order := fetchOrder (db.query externalKeys height)
  (db.table.fetch uring (order.map Prod.snd)).bind (fun details =>
    (resolveIntraBlock uring db intraBlockKeys height).map (fun localSpends =>
      ⟨details, keyedRows externalKeys order (List.range order.length), localSpends⟩))

/-- The second phase runs on the engine as it is by then. -/
def PartialSpendSession.complete (uring : Bool) (db : SpendEngine) (p : PartialSpendSession) :
    Option SpendSession :=
  resolveInputs uring db p.externalKeys p.intraBlockKeys p.height

namespace SpendSession

variable (isCoinbase : Transaction → Bool)

def append (runMax : ℕ) (contended contendedAgain : Bool) (b : ChainBlock) (db : SpendEngine) :
    Option (SpendEngine × PartialSpendSession) :=
  (db.appendAndClassify isCoinbase runMax contended contendedAgain b).map
    (fun res => (res.1, ⟨res.2.1, res.2.2, b.height⟩))

/-- The combined path appends, and classifies the inputs a second time. -/
def resolve (runMax : ℕ) (contended contendedAgain uring : Bool) (b : ChainBlock)
    (db : SpendEngine) : Option (SpendEngine × Option SpendSession) :=
  (db.appendAndClassify isCoinbase runMax contended contendedAgain b).map (fun res =>
    let (intra, external) := classifyInputs isCoinbase b
    (res.1, resolveInputs uring res.1
      ((sortExternalKeys (external.map outpointToOutputKey)).destutter (· ≠ ·))
      (intra.map outpointToOutputKey) b.height))

/-- The record a key maps to; the outer `none` is `details[idx]` out of range. -/
def detailOf (s : SpendSession) (key : OutputKey) : Option (Option OutputDetail) :=
  match s.keyToIdx.lookup key with
  | some idx => (s.details[idx]?).map some
  | none => some (s.localSpends.lookup key)

end SpendSession

def outputKeyToOutpoint (k : OutputKey) : OutPoint := ⟨k.txid, k.vout⟩

namespace SpendSessionLookup

def get (s : SpendSession) (o : OutPoint) : Option (Option Utxo) :=
  (s.detailOf (outpointToOutputKey o)).map (Option.map OutputDetail.utxo)

def len (s : SpendSession) : ℕ := s.keyToIdx.length + s.localSpends.length

end SpendSessionLookup

/-- `none` if a rank is out of range. -/
def sessionFillUtxoSet (s : SpendSession) : Option (List (OutPoint × Utxo)) :=
  (s.keyToIdx.mapM (fun p => (s.details[p.2]?).map
      (fun d => (outputKeyToOutpoint p.1, d.utxo)))).map
    (fun rows => putAll (putAll [] rows)
      (s.localSpends.map (fun p => (outputKeyToOutpoint p.1, p.2.utxo))))

variable {details : List OutputDetail} {id : OutputId} {rank : ℕ}

section Batch

theorem mem_fetchOrder {ids : List OutputId} {p : ℕ × OutputId} :
    p ∈ fetchOrder ids ↔ ids[p.1]? = some p.2 ∧ IsTableId p.2 := by
  rw [fetchOrder, List.mem_insertionSort, List.mem_map]
  constructor
  · rintro ⟨q, hq, rfl⟩
    rw [List.mem_filter, decide_eq_true_eq, List.mem_zipIdx_iff_getElem?] at hq
    exact hq
  · rintro ⟨hget, hid⟩
    refine ⟨p.swap, ?_, Prod.swap_swap p⟩
    rw [List.mem_filter, decide_eq_true_eq, List.mem_zipIdx_iff_getElem?]
    exact ⟨hget, hid⟩

theorem nodup_fetchOrder (ids : List OutputId) : ((fetchOrder ids).map Prod.fst).Nodup := by
  have hplaces : ((ids.zipIdx.filter (fun p => decide (IsTableId p.1))).map Prod.snd).Nodup := by
    apply (List.filter_sublist.map Prod.snd).nodup
    rw [zipIdx_map_snd]
    exact nodup_range'
  rw [fetchOrder, ((List.perm_insertionSort _ _).map Prod.fst).nodup_iff, List.map_map]
  exact hplaces

def fetchedKeys (keys : List OutputKey) (order : List (ℕ × OutputId)) : List OutputKey :=
  order.filterMap (fun p => keys[p.1]?)

/-- The places of the keys the index resolves, as they are fetched. -/
abbrev SpendEngine.order (e : SpendEngine) (keys : List OutputKey) (before : ℤ) :
    List (ℕ × OutputId) :=
  fetchOrder (e.query keys before)

abbrev SpendEngine.found (e : SpendEngine) (keys : List OutputKey) (before : ℤ) : List OutputKey :=
  fetchedKeys keys (e.order keys before)

theorem filterMap_zip {α β γ : Type*} {g : α → Option γ} {l : List α}
    (h : ∀ a ∈ l, (g a).isSome) (values : List β) :
    (l.zip values).filterMap (fun p => (g p.1).map (fun c => (c, p.2))) =
      (l.filterMap g).zip values := by
  induction l generalizing values with
  | nil => rfl
  | cons a l ih =>
    rw [forall_mem_cons] at h
    obtain ⟨c, hc⟩ := isSome_iff_exists.mp h.1
    rw [filterMap_cons_some hc]
    cases values with
    | nil => rfl
    | cons v values =>
      rw [zip_cons_cons, zip_cons_cons, ← ih h.2]
      exact filterMap_cons_some (by rw [hc, map_some])

variable {e : SpendEngine} {keys : List OutputKey} {before : ℤ} {k : OutputKey} {α : Type*}

theorem exists_of_mem_fetchOrder {p : ℕ × OutputId} (hp : p ∈ e.order keys before) :
    ∃ k, keys[p.1]? = some k ∧ e.index.resolves before k = some p.2 := by
  obtain ⟨found, heq, hfound⟩ := e.index.exists_batchQuery_eq_map keys before
  rw [mem_fetchOrder, query, heq, List.map_map, List.getElem?_map] at hp
  obtain ⟨k, hk, hid⟩ := Option.map_eq_some_iff.mp hp.1
  exact ⟨k, hk, resolves_eq_some_iff.mpr ((isTableId_found_iff (hfound k)).mp ⟨hid, hp.2⟩)⟩

theorem mem_fetchedKeys :
    k ∈ e.found keys before ↔
      k ∈ keys ∧ ∃ id, e.index.resolves before k = some id := by
  rw [found, fetchedKeys, mem_filterMap]
  constructor
  · rintro ⟨p, hp, hget⟩
    obtain ⟨k', hk', hid⟩ := exists_of_mem_fetchOrder hp
    rw [hget, some.injEq] at hk'
    subst hk'
    exact ⟨mem_of_getElem? hget, p.2, hid⟩
  · rintro ⟨hk, id, hid⟩
    obtain ⟨i, hi⟩ := mem_iff_getElem?.mp hk
    obtain ⟨found, heq, hfound⟩ := e.index.exists_batchQuery_eq_map keys before
    have hanswer := (isTableId_found_iff (hfound k)).mpr (resolves_eq_some_iff.mp hid)
    refine ⟨(i, id), mem_fetchOrder.mpr ⟨?_, hanswer.2⟩, hi⟩
    rw [query, heq, List.map_map, List.getElem?_map, hi, Option.map_some, ← hanswer.1]
    rfl

theorem resolves_fetchedKeys :
    (e.found keys before).map (e.index.resolves before) =
      (e.order keys before).map (fun p => some p.2) := by
  rw [found, fetchedKeys, map_filterMap, ← filterMap_eq_map]
  apply filterMap_congr
  intro p hp
  obtain ⟨k, hk, hid⟩ := exists_of_mem_fetchOrder hp
  rw [hk, map_some, hid]
  rfl

theorem nodup_fetchedKeys (hkeys : keys.Nodup) : (e.found keys before).Nodup := by
  have hplaces : e.found keys before =
      ((e.order keys before).map Prod.fst).filterMap (fun i => keys[i]?) := by
    rw [filterMap_map]
    rfl
  rw [hplaces]
  apply (nodup_fetchOrder _).filterMap
  intro i j k hi hj
  obtain ⟨hlt, -⟩ := List.getElem?_eq_some_iff.mp hi
  exact (List.getElem?_inj hlt hkeys).mp (hi.trans hj.symm)

theorem nodup_zip_keys {α β : Type*} {l : List α} (h : l.Nodup) (values : List β) :
    ((l.zip values).map Prod.fst).Nodup := by
  rw [zip_eq_zip_take_min, map_fst_zip (by simp)]
  exact (take_sublist _ _).nodup h

theorem keyedRows_perm (hkeys : keys.Nodup) (values : List α) :
    (keyedRows keys (e.order keys before) values).Perm ((e.found keys before).zip values) := by
  have hsome : ∀ p ∈ e.order keys before, (keys[p.1]?).isSome := by
    intro p hp
    obtain ⟨k, hk, -⟩ := exists_of_mem_fetchOrder hp
    exact isSome_iff_exists.mpr ⟨k, hk⟩
  rw [keyedRows, filterMap_zip hsome]
  exact putAll_nil_perm (nodup_zip_keys (nodup_fetchedKeys hkeys) values)

theorem nodup_keyedRows (hkeys : keys.Nodup) (values : List α) :
    ((keyedRows keys (e.order keys before) values).map Prod.fst).Nodup := by
  rw [((keyedRows_perm hkeys values).map Prod.fst).nodup_iff]
  exact nodup_zip_keys (nodup_fetchedKeys hkeys) values

theorem lookup_keyedRows (hkeys : keys.Nodup) (values : List α) {v : α} :
    (keyedRows keys (e.order keys before) values).lookup k = some v ↔
      ∃ rank : ℕ, (e.found keys before)[rank]? = some k ∧
        values[rank]? = some v := by
  rw [lookup_eq_some_iff (nodup_keyedRows hkeys values), (keyedRows_perm hkeys values).mem_iff,
    mem_iff_getElem?]
  simp only [getElem?_zip_eq_some]

theorem getElem?_fetchOrder (hk : (e.found keys before)[rank]? = some k)
    (hid : e.index.resolves before k = some id) :
    ((e.order keys before).map Prod.snd)[rank]? = some id := by
  have hget := congrArg (fun l => l[rank]?) (@resolves_fetchedKeys e keys before)
  simp only [getElem?_map, hk, map_some, hid] at hget
  obtain ⟨p, hp, heq⟩ := map_eq_some_iff.mp hget.symm
  rw [getElem?_map, hp, map_some, some.inj heq]

theorem length_fetchedKeys : (e.found keys before).length =
    ((e.order keys before).map Prod.snd).length := by
  have hlengths := congrArg length (@resolves_fetchedKeys e keys before)
  rwa [length_map, length_map, ← length_map Prod.snd] at hlengths

/-- Each key of the batch has a record with the property at its rank exactly if the table finds one
for each id: a record not found is left out. -/
theorem ranked_details_iff {uring : Bool} (hkeys : keys.Nodup)
    (hfetch : e.table.fetch uring ((e.order keys before).map Prod.snd) = some details)
    (P : OutputKey → OutputId → OutputDetail → Prop) :
    (∀ k ∈ keys, ∀ id, e.index.resolves before k = some id → ∃ d, P k id d ∧
        ∃ rank : ℕ, (e.found keys before)[rank]? = some k ∧
          details[rank]? = some d) ↔
      ∀ k ∈ keys, ∀ id, e.index.resolves before k = some id →
        ∃ d, P k id d ∧ e.table.resolveSlot uring id = some (some d) := by
  constructor
  · intro hexact k hk id hid
    have hfull : details.length = ((e.order keys before).map Prod.snd).length := by
      apply le_antisymm (length_fetch_le uring e.table hfetch)
      rw [← length_fetchedKeys]
      by_contra hlt
      rw [not_le] at hlt
      obtain ⟨hlast, id', hid'⟩ := mem_fetchedKeys.mp (getElem_mem hlt)
      obtain ⟨d, -, rank, hrank, hd⟩ := hexact _ hlast id' hid'
      rw [← getElem?_eq_getElem hlt, eq_comm, getElem?_inj hlt (nodup_fetchedKeys hkeys)] at hrank
      rw [← hrank, getElem?_eq_none le_rfl] at hd
      cases hd
    rw [fetch_eq_some_iff uring e.table hfull] at hfetch
    obtain ⟨d, hP, rank, hrank, hd⟩ := hexact k hk id hid
    have hget := congrArg (fun l => l[rank]?) hfetch
    rw [getElem?_map, getElem?_fetchOrder hrank hid, getElem?_map, hd, map_some, map_some] at hget
    exact ⟨d, hP, some.inj hget⟩
  · intro hfound k hk id hid
    have hfull : details.length = ((e.order keys before).map Prod.snd).length := by
      apply length_fetch_eq uring e.table hfetch
      intro id hid
      obtain ⟨p, hp, rfl⟩ := mem_map.mp hid
      obtain ⟨k, hk, hres⟩ := exists_of_mem_fetchOrder hp
      obtain ⟨d, -, hd⟩ := hfound k (mem_of_getElem? hk) p.2 hres
      exact ⟨d, hd.symm⟩
    rw [fetch_eq_some_iff uring e.table hfull] at hfetch
    obtain ⟨d, hP, hd⟩ := hfound k hk id hid
    obtain ⟨rank, hrank⟩ := mem_iff_getElem?.mp (mem_fetchedKeys.mpr ⟨hk, id, hid⟩)
    have hget := congrArg (fun l => l[rank]?) hfetch
    rw [getElem?_map, getElem?_fetchOrder hrank hid, getElem?_map, map_some, hd]
      at hget
    obtain ⟨d', hd', heq⟩ := map_eq_some_iff.mp hget.symm
    rw [some.injEq, some.injEq] at heq
    exact ⟨d, hP, rank, hrank, by rw [hd', heq]⟩

end Batch

section Views

/-- The maps have distinct keys, and every rank is one of a fetched record. -/
structure SpendSession.WellFormed (s : SpendSession) : Prop where
  distinct : ((s.keyToIdx.map Prod.fst) ++ (s.localSpends.map Prod.fst)).Nodup
  ranks : ∀ p ∈ s.keyToIdx, p.2 < s.details.length

theorem outpointToOutputKey_eq_iff {o : OutPoint} {k : OutputKey} :
    outpointToOutputKey o = k ↔ o = outputKeyToOutpoint k := by
  constructor
  · rintro rfl
    rfl
  · rintro rfl
    rfl

theorem outputKeyToOutpoint_injective : Function.Injective outputKeyToOutpoint := by
  intro k k' h
  exact (outpointToOutputKey_eq_iff.mpr rfl).symm.trans (outpointToOutputKey_eq_iff.mpr h)

theorem exists_fillRows {table : List (OutputKey × ℕ)}
    (h : ∀ p ∈ table, p.2 < details.length) : ∃ rows, table.mapM
        (fun p => (details[p.2]?).map (fun d => (outputKeyToOutpoint p.1, d.utxo))) = some rows ∧
      rows.map Prod.fst = (table.map Prod.fst).map outputKeyToOutpoint ∧
      ∀ p ∈ table, ∃ d, details[p.2]? = some d ∧ (outputKeyToOutpoint p.1, d.utxo) ∈ rows := by
  induction table with
  | nil => exact ⟨[], rfl, rfl, nofun⟩
  | cons p table ih =>
    rw [forall_mem_cons] at h
    obtain ⟨rows, hrows, hkeys, hmem⟩ := ih h.2
    have hd := getElem?_eq_getElem h.1
    refine ⟨(outputKeyToOutpoint p.1, details[p.2].utxo) :: rows, ?_, ?_, ?_⟩
    · rw [mapM_cons, hd, hrows]
      rfl
    · rw [map_cons, hkeys, map_cons, map_cons]
    · rw [forall_mem_cons]
      refine ⟨⟨_, hd, mem_cons_self⟩, ?_⟩
      intro q hq
      obtain ⟨d', hd', hin⟩ := hmem q hq
      exact ⟨d', hd', mem_cons_of_mem _ hin⟩

theorem SpendSession.WellFormed.lookup_agrees {s : SpendSession} (h : s.WellFormed) :
    ∃ set, sessionFillUtxoSet s = some set ∧
      (∀ o, SpendSessionLookup.get s o = some (set.lookup o)) ∧
      SpendSessionLookup.len s = set.length := by
  obtain ⟨rows, hrows, hkeys, hmem⟩ := exists_fillRows h.ranks
  set locals := s.localSpends.map (fun p => (outputKeyToOutpoint p.1, p.2.utxo)) with hlocals
  have hdistinct : ((locals ++ rows).map Prod.fst).Nodup := by
    have hmap := h.distinct.map outputKeyToOutpoint_injective
    rw [List.map_append, List.nodup_append_comm, ← hkeys, List.map_map] at hmap
    rw [List.map_append, hlocals, List.map_map]
    exact hmap
  have hexternal : (rows.map Prod.fst).Nodup := by
    rw [map_append] at hdistinct
    exact hdistinct.of_append_right
  have hset : (putAll (putAll [] rows) locals).Perm (locals ++ rows) := by
    have hall := (putAll_nil_perm hexternal).append_left locals
    exact (putAll_perm ((hall.map Prod.fst).nodup_iff.mpr hdistinct)).trans hall
  refine ⟨_, by rw [sessionFillUtxoSet, hrows, map_some], ?_, ?_⟩
  · intro o
    rw [lookup_eq_of_perm hset ((hset.map Prod.fst).nodup_iff.mpr hdistinct) o,
      SpendSessionLookup.get, detailOf]
    cases hrank : s.keyToIdx.lookup (outpointToOutputKey o) with
    | some rank =>
      rw [lookup_eq_some_iff h.distinct.of_append_left] at hrank
      obtain ⟨d, hd, hin⟩ := hmem _ hrank
      have hlookup : (locals ++ rows).lookup o = some d.utxo :=
        (lookup_eq_some_iff hdistinct).mpr (mem_append_right _ hin)
      simp only [hd, hlookup, map_some]
    | none =>
      have hnone : rows.lookup o = none := by
        rw [lookup_eq_none_iff] at hrank ⊢
        intro p hp
        have hkey := hkeys ▸ mem_map_of_mem hp
        obtain ⟨k, hk, hp1⟩ := mem_map.mp hkey
        obtain ⟨q, hq, rfl⟩ := mem_map.mp hk
        have hne := bne_iff_ne.mp (hrank q hq)
        rw [← hp1, bne_iff_ne]
        exact fun heq => hne (outpointToOutputKey_eq_iff.mpr heq)
      have hlocal := lookup_map outputKeyToOutpoint_injective OutputDetail.utxo s.localSpends
        (outpointToOutputKey o)
      rw [lookup_append, hnone, or_none, map_some]
      exact congrArg some hlocal.symm
  · have hlength := congrArg List.length hkeys
    rw [length_map, length_map, length_map] at hlength
    rw [hset.length_eq, length_append, hlocals, length_map, SpendSessionLookup.len,
      hlength, Nat.add_comm]

end Views

section Exactness

/-- The record was appended for the key under the id, and not rolled back. -/
def TableHistory.AppendedAs (h : TableHistory) (k : OutputKey) (id : OutputId)
    (d : OutputDetail) : Prop :=
  ∃ i ∈ h.issued, ∃ r ∈ i.records, r.1 = id ∧ r.2.key = k ∧ r.2.detail = d

/-- The index's id for an input: of the blocks before for an external one, else with the block
itself. -/
def PartialSpendSession.resolvedId (p : PartialSpendSession) (idx : UtxoIndex) (k : OutputKey) :
    Option OutputId :=
  if k ∈ p.externalKeys then idx.resolves p.height k
  else if k ∈ p.intraBlockKeys then idx.resolves (p.height + 1) k
  else none

/-- The keys that the index resolves are present with the record appended for them, and the lookup
shows what is put into the set. -/
structure SessionExact (h : TableHistory) (idx : UtxoIndex) (p : PartialSpendSession)
    (s : SpendSession) : Prop where
  absent : ∀ k, p.resolvedId idx k = none → s.detailOf k = some none
  own : ∀ k id, p.resolvedId idx k = some id →
    ∃ d, h.AppendedAs k id d ∧ s.detailOf k = some (some d)
  agree : ∃ set, sessionFillUtxoSet s = some set ∧
    (∀ o, SpendSessionLookup.get s o = some (set.lookup o)) ∧
    SpendSessionLookup.len s = set.length

variable {uring : Bool} {db : SpendEngine} {p : PartialSpendSession} {s : SpendSession}
  {d : OutputDetail} (keys : List OutputKey)

theorem complete_eq_some_iff : p.complete uring db = some s ↔
    db.table.fetch uring ((db.order p.externalKeys p.height).map Prod.snd) =
        some s.details ∧
      s.keyToIdx = keyedRows p.externalKeys (db.order p.externalKeys p.height)
        (range (db.order p.externalKeys p.height).length) ∧
      resolveIntraBlock uring db p.intraBlockKeys p.height = some s.localSpends := by
  rw [complete, resolveInputs, bind_eq_some_iff]
  constructor
  · rintro ⟨details, hdetails, hlocal⟩
    obtain ⟨localSpends, hspends, rfl⟩ := map_eq_some_iff.mp hlocal
    exact ⟨hdetails, rfl, hspends⟩
  · rintro ⟨hdetails, hkeys, hlocal⟩
    refine ⟨s.details, hdetails, ?_⟩
    rw [hlocal, map_some, ← hkeys]

section

variable (hcomplete : p.complete uring db = some s) (hkeys : p.externalKeys.Nodup)
include hcomplete hkeys

theorem lookup_keyToIdx {k : OutputKey} : s.keyToIdx.lookup k = some rank ↔
      (db.found p.externalKeys p.height)[rank]? = some k := by
  obtain ⟨-, htable, -⟩ := complete_eq_some_iff.mp hcomplete
  rw [htable, lookup_keyedRows hkeys]
  constructor
  · rintro ⟨rank', hk, hrange⟩
    obtain ⟨hlt, heq⟩ := List.getElem?_eq_some_iff.mp hrange
    rw [List.getElem_range] at heq
    rwa [← heq]
  · intro hk
    obtain ⟨hlt, -⟩ := List.getElem?_eq_some_iff.mp hk
    rw [length_fetchedKeys, List.length_map] at hlt
    exact ⟨rank, hk, List.getElem?_range hlt⟩

theorem mem_of_lookup_keyToIdx {k : OutputKey} (h : s.keyToIdx.lookup k = some rank) :
    k ∈ p.externalKeys ∧ ∃ id, db.index.resolves p.height k = some id :=
  mem_fetchedKeys.mp (mem_of_getElem? ((lookup_keyToIdx hcomplete hkeys).mp h))

theorem detailOf_external {k : OutputKey}
    (hk : k ∈ p.externalKeys) (hid : db.index.resolves p.height k = some id) :
    s.detailOf k = some (some d) ↔ ∃ rank : ℕ,
      (db.found p.externalKeys p.height)[rank]? = some k ∧ s.details[rank]? = some d := by
  obtain ⟨rank, hrank⟩ := mem_iff_getElem?.mp (mem_fetchedKeys.mpr ⟨hk, id, hid⟩)
  have hlookup := (lookup_keyToIdx hcomplete hkeys).mpr hrank
  simp only [detailOf, hlookup, map_eq_some_iff, some.injEq, exists_eq_right]
  constructor
  · exact fun hd => ⟨rank, hrank, hd⟩
  · rintro ⟨rank', hrank', hd⟩
    rw [← lookup_keyToIdx hcomplete hkeys, hlookup, some.injEq] at hrank'
    rwa [hrank']

theorem detailOf_local {k : OutputKey}
    (h : k ∈ p.externalKeys → db.index.resolves p.height k = none) :
    s.detailOf k = some (s.localSpends.lookup k) := by
  cases hlookup : s.keyToIdx.lookup k with
  | none => rw [detailOf, hlookup]
  | some rank =>
    obtain ⟨hk, id, hid⟩ := mem_of_lookup_keyToIdx hcomplete hkeys hlookup
    rw [h hk] at hid
    cases hid

end

theorem resolveIntraBlock_eq (height : ℤ) :
    resolveIntraBlock uring db keys height =
      (db.table.fetch uring ((fetchOrder (db.query ((sortExternalKeys keys).destutter (· ≠ ·))
        (height + 1))).map Prod.snd)).map (fun raw =>
          keyedRows ((sortExternalKeys keys).destutter (· ≠ ·))
            (fetchOrder (db.query ((sortExternalKeys keys).destutter (· ≠ ·)) (height + 1)))
              raw) := by
  rw [resolveIntraBlock]
  split_ifs with hempty
  · have hquery : db.query [] (height + 1) = [] := by
      obtain ⟨found, heq, -⟩ := db.index.exists_batchQuery_eq_map [] (height + 1)
      rw [query, heq]
      rfl
    have hfetch : db.table.fetch uring [] = some [] := by
      rw [fetch_eq]
      rfl
    have hsorted : (sortExternalKeys []).destutter (· ≠ ·) = [] := rfl
    have horder : fetchOrder [] = [] := rfl
    rw [isEmpty_iff.mp hempty, hsorted, hquery, horder, map_nil, hfetch]
    rfl
  · rfl

theorem nodup_sortedDistinct : ((sortExternalKeys keys).destutter (· ≠ ·)).Nodup := by
  rw [sortedDistinct_eq_dedup]
  exact nodup_dedup _

section Local

variable (hcomplete : p.complete uring db = some s)

include hcomplete

theorem exists_localSpends : ∃ raw,
    db.table.fetch uring ((fetchOrder (db.query ((sortExternalKeys p.intraBlockKeys).destutter
      (· ≠ ·)) (p.height + 1))).map Prod.snd) = some raw ∧
    s.localSpends = keyedRows ((sortExternalKeys p.intraBlockKeys).destutter (· ≠ ·))
      (fetchOrder (db.query ((sortExternalKeys p.intraBlockKeys).destutter (· ≠ ·))
        (p.height + 1))) raw := by
  obtain ⟨-, -, hlocal⟩ := complete_eq_some_iff.mp hcomplete
  rw [resolveIntraBlock_eq] at hlocal
  obtain ⟨raw, hraw, heq⟩ := map_eq_some_iff.mp hlocal
  exact ⟨raw, hraw, heq.symm⟩

theorem nodup_localSpends : (s.localSpends.map Prod.fst).Nodup := by
  obtain ⟨raw, -, heq⟩ := exists_localSpends hcomplete
  rw [heq]
  exact nodup_keyedRows (nodup_sortedDistinct _) raw

theorem mem_of_lookup_localSpends {k : OutputKey} (h : s.localSpends.lookup k = some d) :
    k ∈ p.intraBlockKeys ∧ ∃ id, db.index.resolves (p.height + 1) k = some id := by
  obtain ⟨raw, -, heq⟩ := exists_localSpends hcomplete
  rw [heq, lookup_keyedRows (nodup_sortedDistinct _)] at h
  obtain ⟨rank, hrank, -⟩ := h
  obtain ⟨hk, hid⟩ := mem_fetchedKeys.mp (mem_of_getElem? hrank)
  exact ⟨(mem_sortedDistinct _ k).mp hk, hid⟩

theorem local_own_iff (P : OutputKey → OutputId → OutputDetail → Prop) :
    (∀ k ∈ p.intraBlockKeys, ∀ id, db.index.resolves (p.height + 1) k = some id →
        ∃ d, P k id d ∧ s.localSpends.lookup k = some d) ↔
      ∀ k ∈ p.intraBlockKeys, ∀ id, db.index.resolves (p.height + 1) k = some id →
        ∃ d, P k id d ∧ db.table.resolveSlot uring id = some (some d) := by
  obtain ⟨raw, hraw, heq⟩ := exists_localSpends hcomplete
  have hranked := ranked_details_iff (nodup_sortedDistinct p.intraBlockKeys) hraw P
  simp only [← lookup_keyedRows (nodup_sortedDistinct _), ← heq, mem_sortedDistinct] at hranked
  exact hranked

end Local

theorem external_own_iff (hcomplete : p.complete uring db = some s)
    (hkeys : p.externalKeys.Nodup) (P : OutputKey → OutputId → OutputDetail → Prop) :
    (∀ k ∈ p.externalKeys, ∀ id, db.index.resolves p.height k = some id →
        ∃ d, P k id d ∧ s.detailOf k = some (some d)) ↔
      ∀ k ∈ p.externalKeys, ∀ id, db.index.resolves p.height k = some id →
        ∃ d, P k id d ∧ db.table.resolveSlot uring id = some (some d) := by
  rw [← ranked_details_iff hkeys (complete_eq_some_iff.mp hcomplete).1 P]
  apply forall₄_congr
  intro k hk id hid
  simp only [detailOf_external hcomplete hkeys hk hid]

section Append

variable {isCoinbase : Transaction → Bool} {runMax : ℕ} {c c' : Bool} {b : ChainBlock}
  {e e' : SpendEngine} (happend : SpendSession.append isCoinbase runMax c c' b e = some (e', p))

include happend

theorem append_eq_some :
    e.appendAndClassify isCoinbase runMax c c' b = some (e', p.externalKeys, p.intraBlockKeys) ∧
      p = ⟨(sortExternalKeys ((classifyInputs isCoinbase b).2.map outpointToOutputKey)).destutter
        (· ≠ ·), (classifyInputs isCoinbase b).1.map outpointToOutputKey, b.height⟩ := by
  obtain ⟨⟨e'', external, intra⟩, hclassify, heq⟩ := map_eq_some_iff.mp happend
  rw [Prod.mk.injEq] at heq
  obtain ⟨rfl, rfl⟩ := heq
  refine ⟨hclassify, ?_⟩
  rw [appendAndClassify] at hclassify
  split_ifs at hclassify
  rw [some.injEq, Prod.mk.injEq, Prod.mk.injEq] at hclassify
  rw [← hclassify.2.1, ← hclassify.2.2]

theorem resolve_eq_complete (uring : Bool) :
    resolve isCoinbase runMax c c' uring b e = some (e', p.complete uring e') := by
  obtain ⟨hclassify, hp⟩ := append_eq_some happend
  rw [resolve, hclassify, map_some, hp]
  rfl

theorem nodup_externalKeys : p.externalKeys.Nodup := by
  rw [(append_eq_some happend).2]
  exact nodup_sortedDistinct _

theorem notMem_intraBlockKeys {k : OutputKey} (hk : k ∈ p.externalKeys) : k ∉ p.intraBlockKeys := by
  rw [(append_eq_some happend).2] at hk ⊢
  rw [mem_sortedDistinct, List.mem_map] at hk
  obtain ⟨o, ho, rfl⟩ := hk
  rw [List.mem_map]
  rintro ⟨o', ho', heq⟩
  rw [outpointToOutputKey_injective heq, classifyInputs, List.partition_eq_filter_filter,
    List.mem_filter] at ho'
  exact (mem_classifyInputs.mp ho).2 (of_decide_eq_true ho'.2)

theorem forall_resolvedId_iff (idx : UtxoIndex) (Q : OutputKey → OutputId → Prop) :
    (∀ k id, p.resolvedId idx k = some id → Q k id) ↔
      (∀ k ∈ p.externalKeys, ∀ id, idx.resolves p.height k = some id → Q k id) ∧
        ∀ k ∈ p.intraBlockKeys, ∀ id, idx.resolves (p.height + 1) k = some id → Q k id := by
  constructor
  · intro hall
    constructor
    · intro k hk id hid
      apply hall
      rwa [resolvedId, if_pos hk]
    · intro k hk id hid
      apply hall
      rwa [resolvedId, if_neg (fun hext => notMem_intraBlockKeys happend hext hk), if_pos hk]
  · rintro ⟨hexternal, hintra⟩ k id hid
    rw [resolvedId] at hid
    split_ifs at hid with hk hk'
    · exact hexternal k hk id hid
    · exact hintra k hk' id hid

variable {s : SpendSession} (hcomplete : p.complete uring db = some s)

include hcomplete

theorem detailOf_of_unresolved {k : OutputKey} (h : p.resolvedId db.index k = none) :
    s.detailOf k = some none := by
  have hunresolved : k ∈ p.externalKeys → db.index.resolves p.height k = none := by
    intro hk
    rwa [resolvedId, if_pos hk] at h
  rw [detailOf_local hcomplete (nodup_externalKeys happend) hunresolved, some.injEq,
    eq_none_iff_forall_ne_some]
  intro d hd
  obtain ⟨hk, id, hid⟩ := mem_of_lookup_localSpends hcomplete hd
  rw [resolvedId, if_neg (fun hext => notMem_intraBlockKeys happend hext hk), if_pos hk, hid] at h
  exact some_ne_none id h

theorem wellFormed_of_own
    (hown : ∀ k ∈ p.externalKeys, ∀ id, db.index.resolves p.height k = some id →
      ∃ d, s.detailOf k = some (some d)) : s.WellFormed := by
  have hkeys := nodup_externalKeys happend
  have hnodup : (s.keyToIdx.map Prod.fst).Nodup := by
    rw [(complete_eq_some_iff.mp hcomplete).2.1]
    exact nodup_keyedRows hkeys _
  constructor
  · apply hnodup.append (nodup_localSpends hcomplete)
    intro k hk hk'
    obtain ⟨⟨k₁, rank⟩, hrank, rfl : k₁ = k⟩ := mem_map.mp hk
    obtain ⟨⟨k₂, d⟩, hd, rfl : k₂ = k₁⟩ := mem_map.mp hk'
    have hexternal := mem_of_lookup_keyToIdx hcomplete hkeys ((lookup_eq_some_iff hnodup).mpr hrank)
    have hlocal := mem_of_lookup_localSpends hcomplete
      ((lookup_eq_some_iff (nodup_localSpends hcomplete)).mpr hd)
    exact notMem_intraBlockKeys happend hexternal.1 hlocal.1
  · rintro ⟨k, rank⟩ hrow
    have hlookup := (lookup_eq_some_iff hnodup).mpr hrow
    obtain ⟨hk, id, hid⟩ := mem_of_lookup_keyToIdx hcomplete hkeys hlookup
    obtain ⟨d, hd⟩ := hown k hk id hid
    rw [detailOf, hlookup] at hd
    obtain ⟨d', hd', -⟩ := map_eq_some_iff.mp hd
    exact (List.getElem?_eq_some_iff.mp hd').1

end Append

/-- The session is exact if and only if the table still has, for each id of an input, the record
appended for it. -/
theorem sessionExact_iff_recorded {isCoinbase : Transaction → Bool} {runMax : ℕ}
    {c c' : Bool} {b : ChainBlock} {e e' : SpendEngine}
    (happend : append isCoinbase runMax c c' b e = some (e', p))
    {h : TableHistory} {idx : UtxoIndex} (hcomplete : p.complete uring ⟨h.table, idx⟩ = some s) :
    SessionExact h idx p s ↔ ∀ k id, p.resolvedId idx k = some id →
      ∃ d, h.AppendedAs k id d ∧ h.table.resolveSlot uring id = some (some d) := by
  have hkeys := nodup_externalKeys happend
  have hown : (∀ k id, p.resolvedId idx k = some id →
      ∃ d, h.AppendedAs k id d ∧ s.detailOf k = some (some d)) ↔
      ∀ k id, p.resolvedId idx k = some id →
        ∃ d, h.AppendedAs k id d ∧ h.table.resolveSlot uring id = some (some d) := by
    rw [forall_resolvedId_iff happend, forall_resolvedId_iff happend]
    apply and_congr (external_own_iff hcomplete hkeys h.AppendedAs)
    rw [← local_own_iff hcomplete h.AppendedAs]
    apply forall₄_congr
    intro k hk id _
    have hlocal := detailOf_local hcomplete hkeys
      (fun hext => absurd hk (notMem_intraBlockKeys happend hext))
    simp only [hlocal, some.injEq]
  rw [← hown]
  constructor
  · exact SessionExact.own
  · intro hsession
    refine ⟨fun k hk => detailOf_of_unresolved happend hcomplete hk, hsession, ?_⟩
    apply WellFormed.lookup_agrees
    apply wellFormed_of_own happend hcomplete
    intro k hk id hid
    obtain ⟨d, -, hd⟩ := ((forall_resolvedId_iff happend idx _).mp hsession).1 k hk id hid
    exact ⟨d, hd⟩

end Exactness

end BlvmNode
