import BlvmNode.PendingLog

/-!
# The durability loop of the legacy store

Retire threads drain created outputs from the pending log. The durability thread writes them to the
tree, at a checkpoint also the tombstones, and then moves the watermark from which a restart replays
blocks. Every state of a run is a point where the process may stop.
-/

namespace BlvmNode

open RowTable List Option

structure DurabilityRequest (K V : Type) where
  pkg : PendingFlushPackage K V
  triggerHeight : ℕ
  isCheckpoint : Bool

/-- The settings the loop reads; `secondary` is a fifth of the cache size. -/
structure DurabilityConfig where
  deferFlush : Bool
  deferCheckpoint : ℕ
  flushThreshold : ℕ
  secondary : ℕ
  drainCap : Option ℕ
  skipDelLmdb : Bool

/-- `adaptive_drain_cap_for_pending`; the environment can only lower the cap. -/
def DurabilityConfig.adaptiveDrainCap (cfg : DurabilityConfig) (pending : ℕ) : ℕ :=
  let adaptive :=
    if 2000000 < pending then 400000
    else if 1000000 < pending then 300000
    else if 500000 < pending then 200000
    else 100000
  match cfg.drainCap with
  | none => adaptive
  | some cap => min adaptive cap

/-- What is left of a batch: chunk commits, loops over the log, the last check and the watermark. A
loop fixes its cap when it starts. -/
inductive DurabilityTask (K V : Type) where
  | writeAdds (chunk : List (K × Option V))
  | writeDels (chunk : List (K × Option V))
  | leftoverAdds (watermark : ℕ) (cap : Option ℕ)
  | delBacklog (watermark : ℕ) (cap : Option ℕ)
  | discardDels (watermark : ℕ)
  | checkAdds (watermark : ℕ)
  | persist (watermark : ℕ)

open DurabilityTask

def DurabilityTask.adds {K V : Type} : DurabilityTask K V → List K
  | writeAdds chunk => addKeys chunk
  | _ => []

def DurabilityTask.dels {K V : Type} : DurabilityTask K V → List K
  | writeDels chunk => delKeys chunk
  | _ => []

/-- The store and the threads around it. `held` are requests a retire thread has not yet sent,
`finalTasks` those of the shutdown. The last three fields are ghost: the applied blocks, the keys
whose creation left the log unwritten, and the keys whose tombstone left it. -/
structure DurabilityState (K V : Type) where
  tip : ℕ
  log : PendingLog K V
  held : List (DurabilityRequest K V)
  queue : List (DurabilityRequest K V)
  running : Bool
  tasks : List (DurabilityTask K V)
  finalTasks : List (DurabilityTask K V)
  disk : List (K × V)
  watermark : ℕ
  history : List (ℕ × UtxoDelta K V)
  lost : List K
  taken : List K

def DurabilityState.resumed {K V : Type} (watermark : ℕ) (base disk : List (K × V)) :
    DurabilityState K V where
  tip := watermark
  log := PendingLog.empty
  held := []
  queue := []
  running := true
  tasks := []
  finalTasks := []
  disk := disk
  watermark := watermark
  history := [(watermark, ⟨base, []⟩)]
  lost := []
  taken := []

inductive DurabilityStep (K V : Type) where
  | applyDelta (delta : UtxoDelta K V)
  | retire (height : ℕ)
  | idleFlush (overCap : Bool) (floor : ℕ)
  | send (i : ℕ)
  | receive (visible : ℕ)
  | work (blockTip : ℕ)
  | finalDrain
  | finalWork (blockTip : ℕ)

section Watermark

variable {K V : Type}

def formalCheckpointBoundary (triggerHeight interval : ℕ) : Option ℕ :=
  if 0 < triggerHeight ∧ 0 < interval ∧ triggerHeight % interval = 0 then some triggerHeight
  else none

def checkpointWatermarkForBatch (batch : List (DurabilityRequest K V))
    (batchMaxPrepared interval : ℕ) : ℕ :=
  let triggers := (batch.filter (fun r => r.isCheckpoint)).map (fun r => r.triggerHeight)
  match triggers with
  | [] => batchMaxPrepared
  | _ :: _ =>
    match (triggers.filterMap (fun h => formalCheckpointBoundary h interval)).min? with
    | some formal => formal
    | none => min (triggers.foldr max 0) batchMaxPrepared

theorem checkpointWatermarkForBatch_le {batch : List (DurabilityRequest K V)} {tip : ℕ}
    (batchMaxPrepared interval : ℕ) (hsome : batch.any (fun r => r.isCheckpoint))
    (h : ∀ r ∈ batch, r.isCheckpoint → r.triggerHeight ≤ tip) :
    checkpointWatermarkForBatch batch batchMaxPrepared interval ≤ tip := by
  have htriggers : ∀ t ∈ (batch.filter (fun r => r.isCheckpoint)).map (fun r => r.triggerHeight),
      t ≤ tip := by
    intro t ht
    obtain ⟨r, hr, rfl⟩ := mem_map.mp ht
    exact h r (mem_filter.mp hr).1 (mem_filter.mp hr).2
  have hne : (batch.filter (fun r => r.isCheckpoint)).map (fun r => r.triggerHeight) ≠ [] := by
    obtain ⟨r, hr, hc⟩ := any_eq_true.mp hsome
    exact ne_nil_of_mem (mem_map_of_mem (mem_filter.mpr ⟨hr, hc⟩))
  rw [checkpointWatermarkForBatch]
  generalize (batch.filter (fun r => r.isCheckpoint)).map (fun r => r.triggerHeight) = triggers
    at htriggers hne
  split
  · exact absurd rfl hne
  · split
    next formal hmin =>
      obtain ⟨t, ht, hformal⟩ := mem_filterMap.mp (min?_mem hmin)
      rw [formalCheckpointBoundary, ite_none_right_eq_some] at hformal
      exact (some.inj hformal.2) ▸ htriggers t ht
    next =>
      refine (min_le_left _ _).trans ?_
      exact max_le_of_forall_le _ tip htriggers

/-- The requests of one round, of the kind of the first; a request of the other kind is taken and
lost. -/
def gatherBatch : ℕ → List (DurabilityRequest K V) → ℕ → List (DurabilityRequest K V) →
    List (DurabilityRequest K V) × List (DurabilityRequest K V) × List (DurabilityRequest K V)
  | 0, batch, _, queue => (batch, [], queue)
  | visible + 1, batch, totalOps, queue =>
    if batch.length < 8 ∧ totalOps < 200000 then
      match queue with
      | [] => (batch, [], [])
      | r :: queue =>
        if r.isCheckpoint = batch.any (fun b => b.isCheckpoint) then
          gatherBatch visible (batch ++ [r]) (totalOps + r.pkg.ops.length) queue
        else (batch, [r], queue)
    else (batch, [], queue)

theorem gatherBatch_parts (visible : ℕ) (batch : List (DurabilityRequest K V)) (totalOps : ℕ)
    (queue : List (DurabilityRequest K V)) : (gatherBatch visible batch totalOps queue).1 ++
      ((gatherBatch visible batch totalOps queue).2.1 ++
        (gatherBatch visible batch totalOps queue).2.2) = batch ++ queue := by
  fun_induction gatherBatch visible batch totalOps queue <;> simp_all

end Watermark

section Batches

variable {K V : Type} (cfg : DurabilityConfig)

def batchTasks (batch : List (DurabilityRequest K V)) : List (DurabilityTask K V) :=
  let adds := batch.flatMap (fun r => (chunksOf r.pkg.ops).map .writeAdds)
  if batch.any (fun r => r.isCheckpoint) then
    let maxPrepared := (batch.map (fun r => r.pkg.maxBlockHeight)).foldr max 0
    let wm := checkpointWatermarkForBatch batch maxPrepared cfg.deferCheckpoint
    let dels := if cfg.skipDelLmdb then [.leftoverAdds wm none, .discardDels wm]
      else batch.flatMap (fun r => (chunksOf r.pkg.ops).map .writeDels) ++
        [.leftoverAdds wm none, .delBacklog wm none]
    adds ++ dels ++ [.checkAdds wm, .persist wm]
  else adds

theorem flatMap_adds_chunks (ops : List (K × Option V)) :
    ((chunksOf ops).map writeAdds).flatMap adds = addKeys ops := by
  rw [flatMap_map]
  conv_rhs => rw [← flatten_chunksOf ops, addKeys_flatten]
  rfl

theorem mem_delKeys_of_chunks {ops : List (K × Option V)} {t : DurabilityTask K V}
    (ht : t ∈ (chunksOf ops).map writeDels) {k : K} (hk : k ∈ t.dels) : k ∈ delKeys ops := by
  obtain ⟨chunk, hchunk, rfl⟩ := mem_map.mp ht
  rw [← flatten_chunksOf ops, delKeys_flatten]
  exact mem_flatMap.mpr ⟨chunk, hchunk, hk⟩

theorem mem_adds_batchTasks {batch : List (DurabilityRequest K V)} {r : DurabilityRequest K V}
    (hr : r ∈ batch) {k : K} (hk : k ∈ addKeys r.pkg.ops) :
    k ∈ (batchTasks cfg batch).flatMap adds := by
  have hadds : k ∈ (batch.flatMap (fun r => (chunksOf r.pkg.ops).map
      writeAdds)).flatMap adds := by
    rw [flatMap_assoc]
    exact mem_flatMap.mpr ⟨r, hr, by rwa [flatMap_adds_chunks]⟩
  rw [batchTasks]
  split_ifs
  · rw [append_assoc, flatMap_append]
    exact mem_append_left _ hadds
  · rw [append_assoc, flatMap_append]
    exact mem_append_left _ hadds
  · exact hadds

end Batches

section Steps

variable {K V : Type} [LinearOrder K] (cfg : DurabilityConfig) (log : PendingLog K V)

def drainAddsOnly (log : PendingLog K V) : Option (PendingFlushPackage K V) × PendingLog K V :=
  let res := drainFront (cfg.adaptiveDrainCap log.len) log.addShards
  (packFlushPackage res.1, { log with addShards := res.2 })

def takeFlushBatchAddsOnly (log : PendingLog K V) :
    Option (PendingFlushPackage K V) × PendingLog K V :=
  if log.len = 0 then (none, log) else drainAddsOnly cfg log

def requestOr (drained : Option (PendingFlushPackage K V)) (triggerHeight : ℕ)
    (isCheckpoint : Bool) (sentinel : Option ℕ) : Option (DurabilityRequest K V) :=
  match drained, sentinel with
  | some pkg, _ => some ⟨pkg, triggerHeight, isCheckpoint⟩
  | none, some height => some ⟨⟨[], height⟩, height, true⟩
  | none, none => none

/-- The flush of `ibd_v2_retire_apply_utxo_delta` and `push_utxo_flush_from_retire`. -/
def retireRequest (height : ℕ) (log : PendingLog K V) :
    Option (DurabilityRequest K V) × PendingLog K V :=
  if cfg.deferFlush ∧ 0 < height ∧ height % cfg.deferCheckpoint = 0 then
    let res := takeFlushBatchAddsOnly cfg log
    (requestOr res.1 height true (if 0 < res.2.len then some height else none), res.2)
  else if log.len < cfg.flushThreshold ∧ log.len < cfg.secondary then (none, log)
  else
    let res := drainAddsOnly cfg log
    (requestOr res.1 height false none, res.2)

def idleRequest (overCap : Bool) (floor : ℕ) (log : PendingLog K V) :
    Option (DurabilityRequest K V) × PendingLog K V :=
  let res := takeFlushBatchAddsOnly cfg log
  (requestOr res.1 0 false (if overCap = true ∧ 0 < log.len then some floor else none), res.2)

theorem drainAddsOnly_withdraws : log.Withdraws (drainAddsOnly cfg log).2
      ((drainAddsOnly cfg log).1.elim [] (fun pkg => pkg.ops)) :=
  PendingLog.withdraws_of_perm (length_drainFront _ _) (drainFront_perm _ _)

theorem takeFlushBatchAddsOnly_withdraws :
    log.Withdraws (takeFlushBatchAddsOnly cfg log).2
      ((takeFlushBatchAddsOnly cfg log).1.elim [] (fun pkg => pkg.ops)) := by
  rw [takeFlushBatchAddsOnly]
  split_ifs
  · exact log.withdraws_refl
  · exact drainAddsOnly_withdraws cfg log

/-- What a flush takes from the log and the height it asks a checkpoint for. -/
structure Requests (tip : ℕ) (log : PendingLog K V)
    (res : Option (DurabilityRequest K V) × PendingLog K V) : Prop where
  withdraws : log.Withdraws res.2 (res.1.elim [] (fun r => r.pkg.ops))
  triggerHeight_le : ∀ r ∈ res.1, r.isCheckpoint = true → r.triggerHeight ≤ tip

omit [LinearOrder K] in
theorem requestOr_requests {drained : Option (PendingFlushPackage K V)} {log log' : PendingLog K V}
    {triggerHeight tip : ℕ} {isCheckpoint : Bool} {sentinel : Option ℕ}
    (hlog : log.Withdraws log' (drained.elim [] (fun pkg => pkg.ops)))
    (htrigger : isCheckpoint → triggerHeight ≤ tip)
    (hsentinel : ∀ height ∈ sentinel, height ≤ tip) :
    Requests tip log (requestOr drained triggerHeight isCheckpoint sentinel, log') := by
  cases drained with
  | some pkg =>
    refine ⟨hlog, fun r hr hcheck => ?_⟩
    obtain rfl := mem_some_iff.mp hr
    exact htrigger hcheck
  | none =>
    cases sentinel with
    | none => exact ⟨hlog, fun r hr => absurd hr (not_mem_none r)⟩
    | some height =>
      refine ⟨hlog, fun r hr _ => ?_⟩
      obtain rfl := mem_some_iff.mp hr
      exact hsentinel height rfl

theorem forall_mem_sentinel {p : Prop} [Decidable p] {height tip : ℕ} (h : height ≤ tip) :
    ∀ s ∈ if p then some height else none, s ≤ tip := by
  intro s hs
  rw [mem_some_iff.mp (mem_ite_none_right.mp hs).2] at h
  exact h

theorem retireRequest_requests {height tip : ℕ} (hheight : height ≤ tip) (log : PendingLog K V) :
    Requests tip log (retireRequest cfg height log) := by
  rw [retireRequest]
  split_ifs
  · exact requestOr_requests (takeFlushBatchAddsOnly_withdraws cfg log) (fun _ => hheight)
      (forall_mem_sentinel hheight)
  · exact ⟨log.withdraws_refl, fun r hr => absurd hr (not_mem_none r)⟩
  · exact requestOr_requests (drainAddsOnly_withdraws cfg log) (nofun) (nofun)

theorem idleRequest_requests (overCap : Bool) {floor tip : ℕ} (hfloor : floor ≤ tip)
    (log : PendingLog K V) : Requests tip log (idleRequest cfg overCap floor log) := by
  rw [idleRequest]
  exact requestOr_requests (takeFlushBatchAddsOnly_withdraws cfg log) (nofun)
    (forall_mem_sentinel hfloor)

/-- One task and the tasks put before the rest, or `none` if the thread gives up. `blockTip` is the
block store's height when the watermark is written. -/
def DurabilityTask.run (blockTip : ℕ) (st : DurabilityState K V) :
    DurabilityTask K V → DurabilityState K V × Option (List (DurabilityTask K V))
  | writeAdds chunk => ({ st with disk := commitAdds st.disk chunk }, some [])
  | writeDels chunk => ({ st with disk := commitDels st.disk chunk }, some [])
  | leftoverAdds wm cap =>
    if st.log.hasPendingAddsAtOrBelow wm then
      let cap := cap.getD (cfg.adaptiveDrainCap st.log.len)
      let res := drainMatching (fun e => decide (e.height ≤ wm)) cap st.log.addShards
      match packFlushPackage res.1 with
      | none => (st, some [])
      | some pkg =>
        ({ st with log := { st.log with addShards := res.2 } },
          some ((chunksOf pkg.ops).map writeAdds ++ [leftoverAdds wm (some cap)]))
    else (st, some [])
  | delBacklog wm cap =>
    if st.log.len = 0 then (st, some [])
    else
      let cap := cap.getD (cfg.adaptiveDrainCap st.log.len)
      let res := drainMatching (fun e => decide (e.height ≤ wm)) cap st.log.delShards
      match packFlushPackage res.1 with
      | none => (st, some [])
      | some pkg =>
        ({ st with
            log := { st.log with delShards := res.2 }
            taken := st.taken ++ res.1.map (fun e => e.key) },
          some ((chunksOf pkg.ops).map writeDels ++ [delBacklog wm (some cap)]))
  | discardDels wm => ({ st with log := st.log.discardDelBacklog wm }, some [])
  | checkAdds wm => (st, if st.log.hasPendingAddsAtOrBelow wm then none else some [])
  | persist wm =>
    ({ st with watermark := if wm ≤ blockTip ∧ st.watermark < wm then wm else st.watermark },
      some [])

local instance lawfulKeys : LawfulBEq K := inferInstance

/-- `take_remaining_flush_package` at shutdown: the creations, then the tombstones, then the
watermark. -/
def DurabilityState.drainRemaining (st : DurabilityState K V) : DurabilityState K V :=
  match packRemaining (st.log.adds ++ st.log.dels) with
  | none => st
  | some pkg =>
    { st with
      log := st.log.clear
      finalTasks := st.finalTasks ++ ((chunksOf pkg.ops).map .writeAdds ++
        (chunksOf pkg.ops).map .writeDels ++ [.persist pkg.maxBlockHeight])
      lost := st.lost ++ (st.log.adds.map (fun e => e.key)).filter
        (fun k => decide (k ∉ addKeys pkg.ops))
      taken := st.taken ++ delKeys pkg.ops }

namespace DurabilityStep

variable (shardOf : K → ℕ)

def apply (st : DurabilityState K V) : DurabilityStep K V → DurabilityState K V
  | applyDelta delta =>
    { st with
      tip := st.tip + 1
      log := st.log.applyUtxoDelta shardOf delta (st.tip + 1)
      history := st.history ++ [(st.tip + 1, delta)] }
  | retire height =>
    if height ≤ st.tip then
      let res := retireRequest cfg height st.log
      { st with log := res.2, held := st.held ++ res.1.toList }
    else st
  | idleFlush overCap floor =>
    if floor ≤ st.tip then
      let res := idleRequest cfg overCap floor st.log
      { st with log := res.2, held := st.held ++ res.1.toList }
    else st
  | send i =>
    match st.held[i]? with
    | none => st
    | some r => { st with held := st.held.eraseIdx i, queue := st.queue ++ [r] }
  | receive visible =>
    match st.running, st.tasks, st.queue with
    | true, [], first :: queue =>
      let res := gatherBatch visible [first] first.pkg.ops.length queue
      { st with
        queue := res.2.2
        tasks := batchTasks cfg res.1
        lost := st.lost ++ res.2.1.flatMap (fun r => addKeys r.pkg.ops) }
    | _, _, _ => st
  | work blockTip =>
    match st.tasks with
    | [] => st
    | task :: rest =>
      match task.run cfg blockTip st with
      | (st', some new) => { st' with tasks := new ++ rest }
      | (st', none) =>
        { st' with
          tasks := []
          running := false
          lost := st'.lost ++ rest.flatMap DurabilityTask.adds }
  | finalDrain => st.drainRemaining
  | finalWork blockTip =>
    match st.finalTasks with
    | [] => st
    | task :: rest =>
      match task.run cfg blockTip st with
      | (st', some new) => { st' with finalTasks := new ++ rest }
      | (st', none) =>
        { st' with
          finalTasks := []
          lost := st'.lost ++ rest.flatMap DurabilityTask.adds }

end DurabilityStep

end Steps

end BlvmNode
