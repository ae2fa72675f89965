import BlvmNode.DurabilityLoop
import BlvmNode.Lib.GuardedRun

/-!
# The crash points of the durability loop

A restart replays blocks from the persisted watermark, so the tree has to hold the UTXO set at the
watermark after every step. An output that a block created is in the pending log, in the tree, on
its way between them, or its tombstone has left the log.
-/

namespace BlvmNode

open PendingLog GuardedRun List DurabilityState

section Safety

variable {K V : Type} {ops : List (K × Option V)} {t : DurabilityTask K V} {wm : ℕ}

def utxoAt (history : List (ℕ × UtxoDelta K V)) (height : ℕ) (k : K) : Prop :=
  (∃ p ∈ history, p.1 ≤ height ∧ k ∈ p.2.additions.map Prod.fst) ∧
    ∀ p ∈ history, p.1 ≤ height → k ∉ p.2.deletions

namespace DurabilityState

variable (st : DurabilityState K V)

def outstanding : List K :=
  st.lost ++ (st.held ++ st.queue).flatMap (fun r => addKeys r.pkg.ops) ++
    (st.tasks ++ st.finalTasks).flatMap DurabilityTask.adds

/-- Replaying the blocks above the watermark finds every input in the tree. -/
def ResumeSafe : Prop :=
  ∀ k, utxoAt st.history st.watermark k → k ∈ st.disk.map Prod.fst

end DurabilityState

/-- Every output is created once and spent after its creation, by a later block. -/
def DurabilityStep.Valid (st : DurabilityState K V) : DurabilityStep K V → Prop
  | applyDelta delta =>
    ((delta.additions.map Prod.fst).Nodup ∧
      ∀ k ∈ delta.additions.map Prod.fst, ∀ p ∈ st.history, k ∉ p.2.additions.map Prod.fst) ∧
    delta.deletions.Nodup ∧ ∀ k ∈ delta.deletions, utxoAt st.history st.tip k
  | _ => True

/-- Tombstones are only written for outputs spent at the watermark, and when the watermark moves,
the outputs of the set there that left the log, or whose tombstone did, are in the tree. -/
def DurabilityTask.CrashSafe (blockTip : ℕ) (st : DurabilityState K V) :
    DurabilityTask K V → Prop
  | writeDels chunk => ∀ k ∈ delKeys chunk, ¬ utxoAt st.history st.watermark k
  | persist wm => wm ≤ blockTip ∧ st.watermark < wm →
      ∀ k ∈ st.outstanding ++ st.taken, utxoAt st.history wm k → k ∈ st.disk.map Prod.fst
  | _ => True

def DurabilityStep.CrashSafe (st : DurabilityState K V) : DurabilityStep K V → Prop
  | work blockTip => ∀ task ∈ st.tasks.head?, task.CrashSafe blockTip st
  | finalWork blockTip => ∀ task ∈ st.finalTasks.head?, task.CrashSafe blockTip st
  | _ => True

/-- Tombstones to be written have left the log; a watermark is written after the check of the log
below it. -/
structure Sound (st : DurabilityState K V) (ts : List (DurabilityTask K V)) : Prop where
  dels : ∀ t ∈ ts, ∀ k ∈ t.dels, k ∈ st.taken
  heights : ∀ wm, .persist wm ∈ ts → wm ≤ st.tip
  checked : ∀ wm, .persist wm ∈ ts → .checkAdds wm ∈ ts ∨ ∀ e ∈ st.log.adds, wm < e.height
  ordered : ts.Pairwise (fun a b => ∀ wm wm', a = .persist wm → b ≠ .checkAdds wm')

/-- Every created output is in the log, in the tree, on its way, or its tombstone has left the
log. -/
structure Accounted (st : DurabilityState K V) : Prop where
  shards : st.log.addShards.length = pendingShards
  bounded : ∀ p ∈ st.history, p.1 ≤ st.tip
  resumeHeight : st.watermark ≤ st.tip
  created : ∀ p ∈ st.history, ∀ k ∈ p.2.additions.map Prod.fst,
    k ∈ st.disk.map Prod.fst ∨ k ∈ st.outstanding ∨ k ∈ st.taken ∨
      ∃ e ∈ st.log.adds, e.key = k ∧ e.height = p.1
  pendingAdds : ∀ e ∈ st.log.adds, e.value.isSome = true ∧ e.height ≤ st.tip
  pendingDels : ∀ e ∈ st.log.dels, e.value = none ∧ e.height ≤ st.tip
  requests : ∀ r ∈ st.held ++ st.queue, delKeys r.pkg.ops = [] ∧
    (r.isCheckpoint = true → r.triggerHeight ≤ st.tip)
  tasks : Sound st st.tasks
  finalTasks : Sound st st.finalTasks

def Plain (st : DurabilityState K V) (t : DurabilityTask K V) : Prop :=
  (∀ k ∈ t.dels, k ∈ st.taken) ∧ ∀ wm, t ≠ .persist wm

theorem plain_writeAdds (st : DurabilityState K V)
    (ht : t ∈ (chunksOf ops).map DurabilityTask.writeAdds) : Plain st t := by
  obtain ⟨chunk, -, rfl⟩ := mem_map.mp ht
  exact ⟨nofun, nofun⟩

theorem plain_writeDels {st : DurabilityState K V}
    (ht : t ∈ (chunksOf ops).map DurabilityTask.writeDels)
    (hops : ∀ k ∈ delKeys ops, k ∈ st.taken) : Plain st t := by
  refine ⟨fun k hk => hops k (mem_delKeys_of_chunks ht hk), ?_⟩
  obtain ⟨chunk, -, rfl⟩ := mem_map.mp ht
  simp

namespace Sound

variable {st st' : DurabilityState K V} {ts : List (DurabilityTask K V)}
  {new : List (DurabilityTask K V)}

theorem nil (st : DurabilityState K V) : Sound st [] :=
  ⟨nofun, nofun, nofun, Pairwise.nil⟩

theorem mono (h : Sound st ts) (htaken : ∀ k ∈ st.taken, k ∈ st'.taken) (htip : st.tip ≤ st'.tip)
    (hadds : ∀ e ∈ st'.log.adds, e ∈ st.log.adds ∨ st.tip < e.height) : Sound st' ts := by
  refine ⟨fun t ht k hk => htaken k (h.dels t ht k hk),
    fun wm hwm => (h.heights wm hwm).trans htip, fun wm hwm => ?_, h.ordered⟩
  rcases h.checked wm hwm with hcheck | hclear
  · exact .inl hcheck
  · refine .inr fun e he => ?_
    rcases hadds e he with hold | hnew
    · exact hclear e hold
    · exact (h.heights wm hwm).trans_lt hnew

theorem tail (h : Sound st (t :: ts))
    (hcheck : ∀ wm, t = .checkAdds wm → ∀ e ∈ st.log.adds, wm < e.height) : Sound st ts := by
  refine ⟨fun s hs => h.dels s (mem_cons_of_mem t hs),
    fun wm hwm => h.heights wm (mem_cons_of_mem t hwm), fun wm hwm => ?_, h.ordered.tail⟩
  rcases h.checked wm (mem_cons_of_mem t hwm) with hmem | hclear
  · rcases mem_cons.mp hmem with heq | hmem
    · exact .inr (hcheck wm heq.symm)
    · exact .inl hmem
  · exact .inr hclear

theorem append (h : Sound st ts) (hnew : ∀ t ∈ new, Plain st t) : Sound st (new ++ ts) := by
  have hmem : ∀ wm, .persist wm ∈ new ++ ts → .persist wm ∈ ts := by
    intro wm hwm
    exact (mem_append.mp hwm).resolve_left (fun hin => (hnew _ hin).2 wm rfl)
  refine ⟨?_, fun wm hwm => h.heights wm (hmem wm hwm), fun wm hwm => ?_, ?_⟩
  · exact forall_mem_append.mpr ⟨fun t ht => (hnew t ht).1, h.dels⟩
  · exact (h.checked wm (hmem wm hwm)).imp_left (mem_append_right new)
  · rw [pairwise_append]
    refine ⟨?_, h.ordered, fun a ha b _ wm _ heq => absurd heq ((hnew a ha).2 wm)⟩
    exact pairwise_of_forall_mem_list fun a ha b _ wm _ heq => absurd heq ((hnew a ha).2 wm)

theorem append_drained (h : Sound st ts)
    (hempty : st.log.adds = []) (hdels : ∀ t ∈ new, ∀ k ∈ t.dels, k ∈ st.taken)
    (hheights : ∀ wm, .persist wm ∈ new → wm ≤ st.tip)
    (hcheck : ∀ t ∈ new, ∀ wm, t ≠ .checkAdds wm) : Sound st (ts ++ new) := by
  refine ⟨?_, ?_, fun wm _ => .inr (by simp [hempty]), ?_⟩
  · exact forall_mem_append.mpr ⟨h.dels, hdels⟩
  · exact fun wm hwm => (mem_append.mp hwm).elim (h.heights wm) (hheights wm)
  · rw [pairwise_append]
    refine ⟨h.ordered, ?_, fun a _ b hb _ wm _ => hcheck b hb wm⟩
    exact pairwise_of_forall_mem_list fun a _ b hb _ wm _ => hcheck b hb wm

theorem cleared (h : Sound st (.persist wm :: ts)) : ∀ e ∈ st.log.adds, wm < e.height := by
  rcases h.checked wm mem_cons_self with hmem | hclear
  · exfalso
    rcases mem_cons.mp hmem with heq | hmem
    · cases heq
    · exact rel_of_pairwise_cons h.ordered hmem wm wm rfl rfl
  · exact hclear

end Sound

theorem DurabilityState.mem_outstanding {st : DurabilityState K V} {k : K} :
    k ∈ st.outstanding ↔ k ∈ st.lost ∨ (∃ r ∈ st.held, k ∈ addKeys r.pkg.ops) ∨
      (∃ r ∈ st.queue, k ∈ addKeys r.pkg.ops) ∨ k ∈ st.tasks.flatMap DurabilityTask.adds ∨
        k ∈ st.finalTasks.flatMap DurabilityTask.adds := by
  simp only [outstanding, flatMap_append, mem_append, mem_flatMap, or_assoc]

namespace Accounted

variable {st st' : DurabilityState K V}

theorem created_of (h : Accounted st) (hhistory : st'.history = st.history)
    (hdisk : ∀ k ∈ st.disk.map Prod.fst, k ∈ st'.disk.map Prod.fst ∨ k ∈ st'.taken)
    (hout : ∀ k ∈ st.outstanding, k ∈ st'.outstanding ∨ k ∈ st'.disk.map Prod.fst)
    (htaken : ∀ k ∈ st.taken, k ∈ st'.taken)
    (hadds : ∀ e ∈ st.log.adds, e ∈ st'.log.adds ∨ e.key ∈ st'.outstanding) :
    ∀ p ∈ st'.history, ∀ k ∈ p.2.additions.map Prod.fst,
      k ∈ st'.disk.map Prod.fst ∨ k ∈ st'.outstanding ∨ k ∈ st'.taken ∨
        ∃ e ∈ st'.log.adds, e.key = k ∧ e.height = p.1 := by
  intro p hp k hk
  rw [hhistory] at hp
  rcases h.created p hp k hk with hin | hin | hin | ⟨e, he, hkey, hheight⟩
  · exact (hdisk k hin).imp_right fun ht => .inr (.inl ht)
  · exact (hout k hin).elim (fun ho => .inr (.inl ho)) .inl
  · exact .inr (.inr (.inl (htaken k hin)))
  · rcases hadds e he with hstay | hleft
    · exact .inr (.inr (.inr ⟨e, hstay, hkey, hheight⟩))
    · exact .inr (.inl (hkey ▸ hleft))

theorem mem_disk (h : Accounted st) (hclear : ∀ e ∈ st.log.adds, wm < e.height) {k : K}
    (hk : utxoAt st.history wm k) : k ∈ st.disk.map Prod.fst ∨ k ∈ st.outstanding ++ st.taken := by
  obtain ⟨⟨p, hp, hle, hadd⟩, -⟩ := hk
  rcases h.created p hp k hadd with hin | hin | hin | ⟨e, he, -, hheight⟩
  · exact .inl hin
  · exact .inr (mem_append_left _ hin)
  · exact .inr (mem_append_right _ hin)
  · have := hclear e he
    omega

end Accounted

section StepLemmas

variable {st : DurabilityState K V}

theorem Accounted.applyDelta (h : Accounted st) (shardOf : K → ℕ) (delta : UtxoDelta K V) :
    Accounted { st with
      tip := st.tip + 1
      log := st.log.applyUtxoDelta shardOf delta (st.tip + 1)
      history := st.history ++ [(st.tip + 1, delta)] } := by
  have hadds : ∀ {e}, e ∈ (st.log.applyUtxoDelta shardOf delta (st.tip + 1)).adds ↔ _ :=
    mem_adds_applyUtxoDelta h.shards
  have hnew : ∀ e ∈ (st.log.applyUtxoDelta shardOf delta (st.tip + 1)).adds,
      e ∈ st.log.adds ∨ st.tip < e.height := by
    intro e he
    rcases hadds.mp he with hold | ⟨a, -, rfl⟩
    · exact .inl hold
    · exact .inr (Nat.lt_succ_self st.tip)
  have htip := Nat.le_succ st.tip
  refine ⟨(length_pushShards _ _ _).trans h.shards, ?_, h.resumeHeight.trans htip, ?_, ?_, ?_, ?_,
    h.tasks.mono (fun k hk => hk) htip hnew, h.finalTasks.mono (fun k hk => hk) htip hnew⟩
  · rw [forall_mem_append, forall_mem_singleton]
    exact ⟨fun p hp => (h.bounded p hp).trans htip, le_rfl⟩
  · rw [forall_mem_append, forall_mem_singleton]
    refine ⟨fun p hp k hk => ?_, fun k hk => ?_⟩
    · exact (h.created p hp k hk).imp_right <| Or.imp_right <| Or.imp_right
        fun ⟨e, he, hke⟩ => ⟨e, hadds.mpr (.inl he), hke⟩
    · obtain ⟨a, ha, rfl⟩ := mem_map.mp hk
      exact .inr (.inr (.inr ⟨_, hadds.mpr (.inr ⟨a, ha, rfl⟩), rfl, rfl⟩))
  · intro e he
    rcases hadds.mp he with hold | ⟨a, -, rfl⟩
    · exact (h.pendingAdds e hold).imp_right Nat.le_succ_of_le
    · exact ⟨rfl, le_rfl⟩
  · intro e he
    rcases mem_of_mem_pushShards he with hold | hnew
    · exact (h.pendingDels e hold).imp_right Nat.le_succ_of_le
    · obtain ⟨k, -, rfl⟩ := mem_map.mp hnew
      exact ⟨rfl, le_rfl⟩
  · exact fun r hr => (h.requests r hr).imp_right fun hle hc => (hle hc).trans htip

theorem Accounted.delKeys_drained (h : Accounted st)
    (hops : ∀ op ∈ ops, ∃ e ∈ st.log.adds, (e.key, e.value) = op) : delKeys ops = [] := by
  rw [delKeys, map_eq_nil_iff, filter_eq_nil_iff]
  intro op hop
  obtain ⟨e, he, rfl⟩ := hops op hop
  obtain ⟨v, hv⟩ := Option.isSome_iff_exists.mp (h.pendingAdds e he).1
  simp [hv]

theorem Accounted.left_mem (h : Accounted st) {log' : PendingLog K V}
    (hw : st.log.Withdraws log' ops) {e : PendingLogEntry K V} (he : e ∈ st.log.adds) :
    e ∈ log'.adds ∨ e.key ∈ addKeys ops :=
  (hw.left e he).imp_right fun hop => mem_addKeys_of_isSome hop (h.pendingAdds e he).1

theorem Accounted.hold (h : Accounted st)
    {res : Option (DurabilityRequest K V) × PendingLog K V} (hres : Requests st.tip st.log res) :
    Accounted { st with log := res.2, held := st.held ++ res.1.toList } := by
  have hkept : ∀ e ∈ res.2.adds, e ∈ st.log.adds ∨ st.tip < e.height :=
    fun e he => .inl (hres.withdraws.kept e he)
  refine ⟨hres.withdraws.shards.trans h.shards, h.bounded, h.resumeHeight, ?_, ?_, ?_, ?_,
    h.tasks.mono (fun k hk => hk) le_rfl hkept, h.finalTasks.mono (fun k hk => hk) le_rfl hkept⟩
  · refine h.created_of rfl (fun k hk => .inl hk) (fun k hk => .inl ?_) (fun k hk => hk)
      fun e he => (h.left_mem hres.withdraws he).imp_right fun hk => ?_
    · rw [mem_outstanding] at hk ⊢
      refine hk.imp_right (Or.imp_left ?_)
      rintro ⟨r, hr, hk⟩
      exact ⟨r, mem_append_left _ hr, hk⟩
    · rw [mem_outstanding]
      obtain ⟨request, log'⟩ := res
      cases request with
      | none => cases hk
      | some r => exact .inr (.inl ⟨r, mem_concat_self, hk⟩)
  · exact fun e he => h.pendingAdds e (hres.withdraws.kept e he)
  · intro e he
    rw [dels, hres.withdraws.dels] at he
    exact h.pendingDels e he
  · intro r hr
    simp only [mem_append, Option.mem_toList] at hr
    rcases hr with (hr | hr) | hr
    · exact h.requests r (mem_append_left _ hr)
    · refine ⟨h.delKeys_drained ?_, hres.triggerHeight_le r hr⟩
      have hdrained := hres.withdraws.drained
      rw [Option.mem_def.mp hr] at hdrained
      exact hdrained
    · exact h.requests r (mem_append_right _ hr)

theorem Accounted.send (h : Accounted st) {i : ℕ} {r : DurabilityRequest K V}
    (hi : st.held[i]? = some r) :
    Accounted { st with held := st.held.eraseIdx i, queue := st.queue ++ [r] } := by
  obtain ⟨hlt, rfl⟩ := List.getElem?_eq_some_iff.mp hi
  have hmem : ∀ r, r ∈ st.held ↔ r ∈ st.held.eraseIdx i ∨ r = st.held[i] := by
    intro r
    rw [← (List.getElem_cons_eraseIdx_perm hlt).mem_iff, List.mem_cons, or_comm]
  refine { h with
    created := ?_, requests := ?_, tasks := { h.tasks with }, finalTasks := { h.finalTasks with } }
  · refine h.created_of rfl (fun k hk => .inl hk) (fun k hk => .inl ?_) (fun k hk => hk)
      fun e he => .inl he
    rw [mem_outstanding] at hk ⊢
    rcases hk with hk | ⟨r, hr, hk⟩ | ⟨r, hr, hk⟩ | hk
    · exact .inl hk
    · rcases (hmem r).mp hr with hr | rfl
      · exact .inr (.inl ⟨r, hr, hk⟩)
      · exact .inr (.inr (.inl ⟨_, List.mem_concat_self, hk⟩))
    · exact .inr (.inr (.inl ⟨r, List.mem_append_left _ hr, hk⟩))
    · exact .inr (.inr (.inr hk))
  · intro r hr
    simp only [List.mem_append, List.mem_singleton] at hr
    apply h.requests r
    rw [List.mem_append, hmem r]
    tauto

theorem Sound.checkpoint (hwm : wm ≤ st.tip) : Sound st [.checkAdds wm, .persist wm] := by
  have hwm' : ∀ wm', .persist wm' ∈ [.checkAdds wm, (.persist wm : DurabilityTask K V)] →
      wm' = wm := by simp
  refine ⟨nofun, fun wm' hmem => hwm' wm' hmem ▸ hwm, fun wm' hmem => ?_,
    by simp⟩
  exact .inl (hwm' wm' hmem ▸ mem_cons_self)

theorem sound_batchTasks (cfg : DurabilityConfig) {batch : List (DurabilityRequest K V)}
    (h : ∀ r ∈ batch, delKeys r.pkg.ops = [] ∧ (r.isCheckpoint → r.triggerHeight ≤ st.tip)) :
    Sound st (batchTasks cfg batch) := by
  have hadds : ∀ t ∈ batch.flatMap (fun r => (chunksOf r.pkg.ops).map DurabilityTask.writeAdds),
      Plain st t := by
    intro t ht
    obtain ⟨r, -, ht⟩ := mem_flatMap.mp ht
    exact plain_writeAdds st ht
  have hdels : ∀ t ∈ batch.flatMap (fun r => (chunksOf r.pkg.ops).map DurabilityTask.writeDels),
      Plain st t := by
    intro t ht
    obtain ⟨r, hr, ht⟩ := mem_flatMap.mp ht
    refine plain_writeDels ht fun k hk => ?_
    rw [(h r hr).1] at hk
    cases hk
  have hwm (hsome : batch.any (fun r => r.isCheckpoint)) := checkpointWatermarkForBatch_le
    ((batch.map (fun r => r.pkg.maxBlockHeight)).foldr max 0) cfg.deferCheckpoint hsome
    (fun r hr => (h r hr).2)
  rw [batchTasks]
  split_ifs with hsome
  · refine (Sound.checkpoint (hwm hsome)).append fun t ht => ?_
    simp only [mem_append, mem_cons, not_mem_nil, or_false] at ht
    rcases ht with ht | rfl | rfl
    · exact hadds t ht
    all_goals exact ⟨forall_mem_nil _, by simp⟩
  · refine (Sound.checkpoint (hwm hsome)).append fun t ht => ?_
    simp only [mem_append, mem_cons, not_mem_nil, or_false] at ht
    rcases ht with ht | ht | rfl | rfl
    · exact hadds t ht
    · exact hdels t ht
    all_goals exact ⟨forall_mem_nil _, by simp⟩
  · have hsound := (Sound.nil st).append hadds
    rwa [append_nil] at hsound

theorem Accounted.receive (h : Accounted st) (cfg : DurabilityConfig) (visible : ℕ)
    (htasks : st.tasks = []) {first : DurabilityRequest K V}
    {queue : List (DurabilityRequest K V)} (hqueue : st.queue = first :: queue) :
    Accounted { st with
      queue := (gatherBatch visible [first] first.pkg.ops.length queue).2.2
      tasks := batchTasks cfg (gatherBatch visible [first] first.pkg.ops.length queue).1
      lost := st.lost ++ (gatherBatch visible [first] first.pkg.ops.length queue).2.1.flatMap
        (fun r => addKeys r.pkg.ops) } := by
  have hparts := gatherBatch_parts visible [first] first.pkg.ops.length queue
  rw [singleton_append, ← hqueue] at hparts
  generalize gatherBatch visible [first] first.pkg.ops.length queue = res at hparts
  have hreq : ∀ r ∈ res.1 ++ (res.2.1 ++ res.2.2), delKeys r.pkg.ops = [] ∧
      (r.isCheckpoint → r.triggerHeight ≤ st.tip) := by
    intro r hr
    exact h.requests r (mem_append_right _ (hparts ▸ hr))
  refine { h with
    created := ?_, requests := ?_, tasks := ?_, finalTasks := { h.finalTasks with } }
  · refine h.created_of rfl (fun k hk => .inl hk) (fun k hk => .inl ?_) (fun k hk => hk)
      fun e he => .inl he
    rw [mem_outstanding] at hk ⊢
    rw [htasks, ← hparts] at hk
    rcases hk with hk | hk | ⟨r, hr, hk⟩ | hk | hk
    · exact .inl (mem_append_left _ hk)
    · exact .inr (.inl hk)
    · simp only [mem_append] at hr
      rcases hr with hr | hr | hr
      · exact .inr (.inr (.inr (.inl (mem_adds_batchTasks cfg hr hk))))
      · exact .inl (mem_append_right _ (mem_flatMap.mpr ⟨r, hr, hk⟩))
      · exact .inr (.inr (.inl ⟨r, hr, hk⟩))
    · cases hk
    · exact .inr (.inr (.inr (.inr hk)))
  · exact forall_mem_append.mpr ⟨fun r hr => h.requests r (mem_append_left _ hr),
      fun r hr => hreq r (mem_append_right _ (mem_append_right _ hr))⟩
  · exact { sound_batchTasks cfg fun r hr => hreq r (mem_append_left _ hr) with }

end StepLemmas

section Runs

variable [LinearOrder K] {st st' : DurabilityState K V} {task : DurabilityTask K V}
  {new : List (DurabilityTask K V)} (cfg : DurabilityConfig) {pkg : PendingFlushPackage K V}

/-- What one task may do to the store and which tasks it leaves behind. -/
structure Progress (st : DurabilityState K V) (task : DurabilityTask K V)
    (st' : DurabilityState K V) (new : List (DurabilityTask K V)) : Prop where
  frame : ∃ log disk watermark taken, st' =
    { st with log := log, disk := disk, watermark := watermark, taken := taken }
  resumeHeight : st'.watermark ≤ st.tip
  shards : st'.log.addShards.length = st.log.addShards.length
  keptAdds : ∀ e ∈ st'.log.adds, e ∈ st.log.adds
  keptDels : ∀ e ∈ st'.log.dels, e ∈ st.log.dels
  taken : ∀ k ∈ st.taken, k ∈ st'.taken
  disk : ∀ k ∈ st.disk.map Prod.fst, k ∈ st'.disk.map Prod.fst ∨ k ∈ st'.taken
  written : ∀ k ∈ task.adds, k ∈ st'.disk.map Prod.fst
  left : ∀ e ∈ st.log.adds, e ∈ st'.log.adds ∨ e.key ∈ new.flatMap DurabilityTask.adds
  plain : ∀ t ∈ new, Plain st' t

omit [LinearOrder K] in
theorem progress_of_watermark (htask : task.adds = []) {watermark : ℕ}
    (hwm : watermark ≤ st.tip) : Progress st task { st with watermark := watermark } [] :=
  ⟨⟨_, _, _, _, rfl⟩, hwm, rfl, fun _ he => he, fun _ he => he, fun _ hk => hk,
    fun _ hk => .inl hk, by simp [htask], fun _ he => .inl he, by simp⟩

theorem Accounted.progress_leftoverAdds (h : Accounted st) (htask : task.adds = []) {cap : ℕ}
    (hpack : packFlushPackage
      (drainMatching (fun e => decide (e.height ≤ wm)) cap st.log.addShards).1 = some pkg) :
    Progress st task { st with log := { st.log with
          addShards := (drainMatching (fun e => decide (e.height ≤ wm)) cap st.log.addShards).2 } }
      ((chunksOf pkg.ops).map .writeAdds ++ [.leftoverAdds wm (some cap)]) := by
  have hw := @withdraws_of_perm K V _ st.log _ _ (length_drainMatching
    (fun e => decide (e.height ≤ wm)) cap st.log.addShards) (drainMatching_perm _ _ _)
  rw [hpack] at hw
  refine ⟨⟨_, _, _, _, rfl⟩, h.resumeHeight, hw.shards, hw.kept, fun _ he => he, fun _ hk => hk,
    fun _ hk => .inl hk, by simp [htask], fun e he => ?_, fun t ht => ?_⟩
  · rw [flatMap_append, flatMap_adds_chunks]
    exact (h.left_mem hw he).imp_right (mem_append_left _)
  · rcases mem_append.mp ht with ht | ht
    · exact plain_writeAdds _ ht
    · rw [mem_singleton.mp ht]
      exact ⟨nofun, nofun⟩

theorem progress_delBacklog (hresume : st.watermark ≤ st.tip) (htask : task.adds = []) {cap : ℕ} :
    let drained := drainMatching (fun e => decide (e.height ≤ wm)) cap st.log.delShards
    packFlushPackage drained.1 = some pkg → Progress st task
      { st with
        log := { st.log with delShards := drained.2 }
        taken := st.taken ++ drained.1.map (fun e => e.key) }
      ((chunksOf pkg.ops).map .writeDels ++ [.delBacklog wm (some cap)]) := by
  intro drained hpack
  have hperm := drainMatching_perm (fun e => decide (e.height ≤ wm)) cap st.log.delShards
  refine ⟨⟨_, _, _, _, rfl⟩, hresume, rfl, fun _ he => he,
    fun e he => hperm.mem_iff.mp (mem_append_right _ he),
    fun _ hk => mem_append_left _ hk, fun _ hk => .inl hk, by simp [htask],
    fun _ he => .inl he, fun t ht => ?_⟩
  rcases mem_append.mp ht with ht | ht
  · refine plain_writeDels ht fun k hk => ?_
    obtain ⟨op, hop, rfl⟩ := mem_map.mp hk
    obtain ⟨e, he, rfl⟩ := (mem_of_packFlushPackage hpack).mp (mem_filter.mp hop).1
    exact mem_append_right _ (mem_map_of_mem he)
  · rw [mem_singleton.mp ht]
    exact ⟨nofun, nofun⟩

theorem Accounted.run (h : Accounted st) (blockTip : ℕ) (hdels : ∀ k ∈ task.dels, k ∈ st.taken)
    (hwm : ∀ wm, task = .persist wm → wm ≤ st.tip) :
    Progress st task (task.run cfg blockTip st).1 ((task.run cfg blockTip st).2.getD []) := by
  cases task with
  | writeAdds chunk =>
    refine ⟨⟨_, _, _, _, rfl⟩, h.resumeHeight, rfl, fun _ he => he, fun _ he => he,
      fun _ hk => hk, fun k hk => .inl (mem_keys_commitAdds.mpr (.inl hk)),
      fun k hk => mem_keys_commitAdds.mpr (.inr hk), fun _ he => .inl he, ?_⟩
    exact nofun
  | writeDels chunk =>
    refine ⟨⟨_, _, _, _, rfl⟩, h.resumeHeight, rfl, fun _ he => he, fun _ he => he,
      fun _ hk => hk, fun k hk => ?_, nofun, fun _ he => .inl he, nofun⟩
    by_cases hdel : k ∈ delKeys chunk
    · exact .inr (hdels k hdel)
    · exact .inl (mem_keys_commitDels.mpr ⟨hk, hdel⟩)
  | leftoverAdds wm cap =>
    simp only [DurabilityTask.run]
    split_ifs
    · split
      · exact progress_of_watermark rfl h.resumeHeight
      next pkg hpack => exact h.progress_leftoverAdds rfl hpack
    · exact progress_of_watermark rfl h.resumeHeight
  | delBacklog wm cap =>
    simp only [DurabilityTask.run]
    split_ifs
    · exact progress_of_watermark rfl h.resumeHeight
    · split
      · exact progress_of_watermark rfl h.resumeHeight
      next pkg hpack => exact progress_delBacklog h.resumeHeight rfl hpack
  | discardDels wm =>
    refine ⟨⟨_, _, _, _, rfl⟩, h.resumeHeight, rfl, fun _ he => he, fun e he => ?_,
      fun _ hk => hk, fun _ hk => .inl hk, nofun, fun _ he => .inl he, nofun⟩
    exact (drainMatching_perm _ _ _).mem_iff.mp (mem_append_right _ he)
  | checkAdds wm =>
    simp only [DurabilityTask.run]
    split_ifs <;> exact progress_of_watermark rfl h.resumeHeight
  | persist wm =>
    refine progress_of_watermark rfl ?_
    split_ifs
    · exact hwm wm rfl
    · exact h.resumeHeight

theorem cleared_of_run {blockTip : ℕ} (hrun : (task.run cfg blockTip st).2 = some new) :
    ∀ wm, task = .checkAdds wm → ∀ e ∈ st.log.adds, wm < e.height := by
  rintro wm rfl
  simp only [DurabilityTask.run, Option.ite_none_left_eq_some] at hrun
  exact hasPendingAddsAtOrBelow_eq_false (by simpa using hrun.1)

omit [LinearOrder K] in
theorem Progress.accounted (h : Accounted st) (hp : Progress st task st' new)
    {tasks finalTasks : List (DurabilityTask K V)} {lost : List K} (running : Bool)
    (htasks : Sound st' tasks) (hfinal : Sound st' finalTasks)
    (hout : ∀ k, k ∈ st.lost ∨ k ∈ st.tasks.flatMap DurabilityTask.adds ∨
        k ∈ st.finalTasks.flatMap DurabilityTask.adds → k ∈ task.adds ∨ k ∈ lost ∨
      k ∈ tasks.flatMap DurabilityTask.adds ∨ k ∈ finalTasks.flatMap DurabilityTask.adds)
    (hnew : ∀ k ∈ new.flatMap DurabilityTask.adds, k ∈ tasks.flatMap DurabilityTask.adds ∨
      k ∈ finalTasks.flatMap DurabilityTask.adds) : Accounted { st' with
      tasks := tasks, finalTasks := finalTasks, lost := lost, running := running } := by
  obtain ⟨log, disk, watermark, taken, rfl⟩ := hp.frame
  refine ⟨hp.shards.trans h.shards, h.bounded, hp.resumeHeight, ?_,
    fun e he => h.pendingAdds e (hp.keptAdds e he), fun e he => h.pendingDels e (hp.keptDels e he),
    h.requests, { htasks with }, { hfinal with }⟩
  refine h.created_of rfl hp.disk (fun k hk => ?_) hp.taken fun e he =>
    (hp.left e he).imp_right fun hk => ?_
  · rw [mem_outstanding] at hk ⊢
    have hmoved : ∀ k, (k ∈ task.adds ∨ k ∈ lost ∨ k ∈ tasks.flatMap DurabilityTask.adds ∨
        k ∈ finalTasks.flatMap DurabilityTask.adds) → (k ∈ lost ∨
          (∃ r ∈ st.held, k ∈ addKeys r.pkg.ops) ∨ (∃ r ∈ st.queue, k ∈ addKeys r.pkg.ops) ∨
          k ∈ tasks.flatMap DurabilityTask.adds ∨ k ∈ finalTasks.flatMap DurabilityTask.adds) ∨
          k ∈ disk.map Prod.fst := by
      rintro k (hk | hk | hk)
      · exact .inr (hp.written k hk)
      · exact .inl (.inl hk)
      · exact .inl (.inr (.inr (.inr hk)))
    rcases hk with hk | hk | hk | hk
    · exact hmoved k (hout k (.inl hk))
    · exact .inl (.inr (.inl hk))
    · exact .inl (.inr (.inr (.inl hk)))
    · exact hmoved k (hout k (.inr hk))
  · rw [mem_outstanding]
    exact .inr (.inr (.inr (hnew _ hk)))

theorem Accounted.drainRemaining (h : Accounted st) : Accounted st.drainRemaining := by
  rw [DurabilityState.drainRemaining]
  split
  · exact h
  next pkg hpack =>
    have hempty : ∀ e, e ∉ st.log.clear.adds := by simp [adds_clear]
    refine ⟨(length_map _).trans h.shards, h.bounded, h.resumeHeight, ?_,
      fun e he => absurd he (hempty e), by simp [dels_clear], h.requests,
      h.tasks.mono (fun k hk => mem_append_left _ hk) le_rfl
        fun e he => absurd he (hempty e), ?_⟩
    · refine h.created_of rfl (fun k hk => .inl hk) (fun k hk => .inl ?_)
        (fun k hk => mem_append_left _ hk) fun e he => .inr ?_
      · rw [DurabilityState.mem_outstanding] at hk ⊢
        simp only [flatMap_append, mem_append]
        rcases hk with hk | hk | hk | hk | hk
        · exact .inl (.inl hk)
        · exact .inr (.inl hk)
        · exact .inr (.inr (.inl hk))
        · exact .inr (.inr (.inr (.inl hk)))
        · exact .inr (.inr (.inr (.inr (.inl hk))))
      · rw [DurabilityState.mem_outstanding]
        by_cases hk : e.key ∈ addKeys pkg.ops
        · refine .inr (.inr (.inr (.inr ?_)))
          rw [flatMap_append, flatMap_append, flatMap_append, flatMap_adds_chunks]
          exact mem_append_right _ (mem_append_left _ (mem_append_left _ hk))
        · refine .inl (mem_append_right _ (mem_filter.mpr ?_))
          exact ⟨mem_map_of_mem he, decide_eq_true hk⟩
    · refine Sound.append_drained ?_ (adds_clear st.log) ?_ ?_ ?_
      · exact h.finalTasks.mono (fun k hk => mem_append_left _ hk) le_rfl
          fun e he => absurd he (hempty e)
      · intro t ht k hk
        simp only [mem_append, mem_singleton] at ht
        rcases ht with (ht | ht) | rfl
        · exact (plain_writeAdds _ ht).1 k hk
        · exact mem_append_right _ (mem_delKeys_of_chunks ht hk)
        · cases hk
      · intro wm hwm
        have heq : wm = pkg.maxBlockHeight := by simpa using hwm
        rw [heq]
        refine maxBlockHeight_packRemaining_le hpack fun e he => ?_
        rcases mem_append.mp he with he | he
        · exact (h.pendingAdds e he).2
        · exact (h.pendingDels e he).2
      · intro t ht wm
        simp only [mem_append, mem_map, mem_singleton] at ht
        rcases ht with (⟨_, -, rfl⟩ | ⟨_, -, rfl⟩) | rfl <;> simp

omit [LinearOrder K] in
theorem Progress.sound {ts : List (DurabilityTask K V)} (hp : Progress st task st' new)
    (h : Sound st ts) : Sound st' ts := by
  refine h.mono hp.taken ?_ fun e he => .inl (hp.keptAdds e he)
  obtain ⟨log, disk, watermark, taken, heq⟩ := hp.frame
  rw [heq]

/-- The tasks that stay after the first one has run, and the coins lost with those that do not. -/
def tasksAfter (rest : List (DurabilityTask K V)) :
    DurabilityState K V × Option (List (DurabilityTask K V)) → List (DurabilityTask K V) × List K
  | (st', some new) => (new ++ rest, st'.lost)
  | (st', none) => ([], st'.lost ++ rest.flatMap DurabilityTask.adds)

theorem Accounted.run_first (h : Accounted st) {rest left : List (DurabilityTask K V)}
    {lost : List K}
    (hsound : Sound st (task :: rest)) (blockTip : ℕ)
    {res : DurabilityState K V × Option (List (DurabilityTask K V))}
    (hrun : task.run cfg blockTip st = res) (hleft : tasksAfter rest res = (left, lost)) :
    Progress st task res.1 (res.2.getD []) ∧ Sound res.1 left ∧
      (∀ k, k ∈ st.lost ∨ k ∈ (task :: rest).flatMap DurabilityTask.adds →
        k ∈ task.adds ∨ k ∈ lost ∨ k ∈ left.flatMap DurabilityTask.adds) ∧
      ∀ k ∈ (res.2.getD []).flatMap DurabilityTask.adds, k ∈ left.flatMap DurabilityTask.adds := by
  have hp := h.run cfg blockTip (hsound.dels task mem_cons_self)
    fun wm heq => hsound.heights wm (heq ▸ mem_cons_self)
  obtain ⟨st', _ | new⟩ := res <;> rw [hrun] at hp <;>
    obtain ⟨log, disk, watermark, taken, rfl⟩ := hp.frame <;> cases hleft <;>
    simp only [flatMap_cons, flatMap_append, mem_append]
  · exact ⟨hp, Sound.nil _, by tauto, nofun⟩
  · have hrest := hsound.tail (cleared_of_run cfg (congrArg Prod.snd hrun))
    exact ⟨hp, (hp.sound hrest).append hp.plain, by tauto, fun k hk => .inl hk⟩

theorem Accounted.apply (h : Accounted st) (shardOf : K → ℕ) (step : DurabilityStep K V) :
    Accounted (step.apply cfg shardOf st) := by
  cases step with
  | applyDelta delta => exact h.applyDelta shardOf delta
  | retire height =>
    simp only [DurabilityStep.apply]
    split_ifs with hle
    · exact h.hold (retireRequest_requests cfg hle st.log)
    · exact h
  | idleFlush overCap floor =>
    simp only [DurabilityStep.apply]
    split_ifs with hle
    · exact h.hold (idleRequest_requests cfg overCap hle st.log)
    · exact h
  | send i =>
    simp only [DurabilityStep.apply]
    split
    · exact h
    next r hi => exact h.send hi
  | receive visible =>
    simp only [DurabilityStep.apply]
    split
    next first queue _ htasks hqueue => exact h.receive cfg visible htasks hqueue
    · exact h
  | work blockTip =>
    simp only [DurabilityStep.apply]
    split
    · exact h
    next task rest htasks =>
      rcases hrun : task.run cfg blockTip st with ⟨st', _ | new⟩ <;>
      · obtain ⟨hp, htasks', hout, hnew⟩ := h.run_first cfg (htasks ▸ h.tasks) blockTip hrun
          rfl
        obtain ⟨log, disk, watermark, taken, rfl⟩ := hp.frame
        refine hp.accounted h _ htasks' (hp.sound h.finalTasks) (fun k hk => ?_)
          fun k hk => .inl (hnew k hk)
        have hmoved := hout k
        rw [← htasks] at hmoved
        tauto
  | finalDrain => exact h.drainRemaining
  | finalWork blockTip =>
    simp only [DurabilityStep.apply]
    split
    · exact h
    next task rest htasks =>
      rcases hrun : task.run cfg blockTip st with ⟨st', _ | new⟩ <;>
      · obtain ⟨hp, htasks', hout, hnew⟩ := h.run_first cfg (htasks ▸ h.finalTasks) blockTip
          hrun rfl
        obtain ⟨log, disk, watermark, taken, rfl⟩ := hp.frame
        refine hp.accounted h _ (hp.sound h.tasks) htasks' (fun k hk => ?_)
          fun k hk => .inr (hnew k hk)
        have hmoved := hout k
        rw [← htasks] at hmoved
        tauto

omit [LinearOrder K] in
theorem utxoAt_append {history : List (ℕ × UtxoDelta K V)} {height watermark : ℕ}
    (h : watermark < height) (delta : UtxoDelta K V) {k : K} :
    utxoAt (history ++ [(height, delta)]) watermark k ↔ utxoAt history watermark k := by
  have hnot : ∀ p ∈ [(height, delta)], ¬ p.1 ≤ watermark :=
    forall_mem_singleton.mpr (not_le.mpr h)
  constructor
  · rintro ⟨⟨p, hp, hle, hk⟩, hdel⟩
    refine ⟨⟨p, ?_, hle, hk⟩, fun q hq => hdel q (mem_append_left _ hq)⟩
    exact (mem_append.mp hp).resolve_right fun hin => hnot p hin hle
  · rintro ⟨⟨p, hp, hle, hk⟩, hdel⟩
    refine ⟨⟨p, mem_append_left _ hp, hle, hk⟩, fun q hq hq' => ?_⟩
    rcases mem_append.mp hq with hq | hq
    · exact hdel q hq hq'
    · exact absurd hq' (hnot q hq)

theorem Accounted.resumeSafe_run (h : Accounted st) (hsafe : st.ResumeSafe)
    {rest : List (DurabilityTask K V)} (hsound : Sound st (task :: rest)) (blockTip : ℕ) :
    (task.run cfg blockTip st).1.ResumeSafe ↔ task.CrashSafe blockTip st := by
  cases task with
  | writeAdds chunk =>
    exact iff_of_true (fun k hk => mem_keys_commitAdds.mpr (.inl (hsafe k hk))) trivial
  | writeDels chunk =>
    constructor
    · intro hafter k hk hin
      exact (mem_keys_commitDels.mp (hafter k hin)).2 hk
    · intro hdels k hk
      exact mem_keys_commitDels.mpr ⟨hsafe k hk, fun hin => hdels k hin hk⟩
  | leftoverAdds wm cap =>
    refine iff_of_true ?_ trivial
    simp only [DurabilityTask.run]
    split_ifs
    · split <;> exact hsafe
    · exact hsafe
  | delBacklog wm cap =>
    refine iff_of_true ?_ trivial
    simp only [DurabilityTask.run]
    split_ifs
    · exact hsafe
    · split <;> exact hsafe
  | discardDels wm | checkAdds wm => exact iff_of_true hsafe trivial
  | persist wm =>
    simp only [DurabilityTask.run, DurabilityTask.CrashSafe]
    split_ifs with hmoves
    · constructor
      · exact fun hafter _ k _ hk => hafter k hk
      · intro hleft k hk
        rcases h.mem_disk hsound.cleared hk with hin | hin
        · exact hin
        · exact hleft hmoves k hin hk
    · exact iff_of_true hsafe fun hm => absurd hm hmoves

theorem Accounted.resumeSafe_apply (h : Accounted st) (hsafe : st.ResumeSafe) (shardOf : K → ℕ)
    (step : DurabilityStep K V) : (step.apply cfg shardOf st).ResumeSafe ↔ step.CrashSafe st := by
  cases step with
  | applyDelta delta =>
    refine iff_of_true (fun k hk => hsafe k ?_) trivial
    exact (utxoAt_append (Nat.lt_succ_of_le h.resumeHeight) delta).mp hk
  | retire height | idleFlush overCap floor | send i | receive visible | finalDrain =>
    refine iff_of_true ?_ trivial
    simp only [DurabilityStep.apply, DurabilityState.drainRemaining]
    split <;> exact hsafe
  | work blockTip | finalWork blockTip =>
    simp only [DurabilityStep.apply, DurabilityStep.CrashSafe]
    split
    next htasks => exact iff_of_true hsafe (by simp [htasks])
    next task rest htasks =>
      have hsound : Sound st (task :: rest) := by
        first
        | exact htasks ▸ h.tasks
        | exact htasks ▸ h.finalTasks
      have hrun := h.resumeSafe_run cfg hsafe hsound blockTip
      simp only [htasks, head?_cons, Option.mem_some_iff, forall_eq']
      rcases hres : task.run cfg blockTip st with ⟨st', _ | new⟩ <;>
      · rw [hres] at hrun
        exact hrun

omit [LinearOrder K] in
theorem accounted_resumed {base disk : List (K × V)} (watermark : ℕ)
    (hbase : ∀ k ∈ base.map Prod.fst, k ∈ disk.map Prod.fst) :
    Accounted (resumed watermark base disk) := by
  exact ⟨length_replicate, forall_mem_singleton.mpr le_rfl, le_rfl,
    forall_mem_singleton.mpr fun k hk => .inl (hbase k hk), nofun,
    nofun, nofun, Sound.nil _, Sound.nil _⟩

omit [LinearOrder K] in
theorem resumeSafe_resumed {base disk : List (K × V)} (watermark : ℕ)
    (hbase : ∀ k ∈ base.map Prod.fst, k ∈ disk.map Prod.fst) :
    (resumed watermark base disk).ResumeSafe := by
  rintro k ⟨⟨p, hp, -, hk⟩, -⟩
  rw [mem_singleton.mp hp] at hk
  exact hbase k hk

/-- From a store whose tree holds the UTXO set at the watermark, every point where the process may
stop is safe exactly when every step is. -/
theorem crash_points_safe_iff (shardOf : K → ℕ) (watermark : ℕ) {base disk : List (K × V)}
    (hbase : ∀ k ∈ base.map Prod.fst, k ∈ disk.map Prod.fst) (steps : List (DurabilityStep K V)) :
    (∀ n, ((steps.take n).foldl (DurabilityStep.apply cfg shardOf)
        (DurabilityState.resumed watermark base disk)).ResumeSafe) ↔
      Guarded (DurabilityStep.apply cfg shardOf) DurabilityStep.CrashSafe
        (DurabilityState.resumed watermark base disk) steps :=
  forall_take_iff (fun _ step h => h.apply cfg shardOf step)
    (fun _ step h hsafe => h.resumeSafe_apply cfg hsafe shardOf step)
    (accounted_resumed watermark hbase) (resumeSafe_resumed watermark hbase) steps

end Runs

end Safety

section SpentAboveWatermark

instance (history : List (ℕ × UtxoDelta ℕ Unit)) (height k : ℕ) :
    Decidable (utxoAt history height k) :=
  inferInstanceAs (Decidable (_ ∧ _))

instance (st : DurabilityState ℕ Unit) : DecidablePred (DurabilityStep.Valid st)
  | .applyDelta _ => inferInstanceAs (Decidable (_ ∧ _))
  | .retire _ | .idleFlush _ _ | .send _ | .receive _ | .work _ | .finalDrain | .finalWork _ =>
    isTrue trivial

instance (blockTip : ℕ) (st : DurabilityState ℕ Unit) :
    DecidablePred (DurabilityTask.CrashSafe blockTip st)
  | .writeDels _ => inferInstanceAs (Decidable (∀ k ∈ _, ¬ utxoAt _ _ k))
  | .persist _ => inferInstanceAs (Decidable (_ → ∀ k ∈ _, utxoAt _ _ k → k ∈ _))
  | .writeAdds _ | .leftoverAdds _ _ | .delBacklog _ _ | .discardDels _ | .checkAdds _ =>
    isTrue trivial

instance (st : DurabilityState ℕ Unit) : DecidablePred (DurabilityStep.CrashSafe st)
  | .work _ => inferInstanceAs (Decidable (∀ task ∈ st.tasks.head?, _))
  | .finalWork _ => inferInstanceAs (Decidable (∀ task ∈ st.finalTasks.head?, _))
  | .applyDelta _ | .retire _ | .idleFlush _ _ | .send _ | .receive _ | .finalDrain =>
    isTrue trivial

def everyBlock : DurabilityConfig where
  deferFlush := true
  deferCheckpoint := 1
  flushThreshold := 500
  secondary := 400
  drainCap := none
  skipDelLmdb := false

def firstCheckpoint : List (DurabilityStep ℕ Unit) :=
  [.applyDelta ⟨[(7, ())], []⟩, .retire 1, .send 0, .receive 0] ++ List.replicate 6 (.work 2)

def stoppedCheckpoint : List (DurabilityStep ℕ Unit) :=
  firstCheckpoint ++ [.applyDelta ⟨[], [7]⟩, .retire 2, .send 0, .receive 0] ++
    List.replicate 3 (.work 2)

/-- Output 7 is created and spent above the watermark, so its tombstone may go first. -/
def spentCheckpoint : List (DurabilityStep ℕ Unit) :=
  [.applyDelta ⟨[(7, ()), (8, ())], []⟩, .applyDelta ⟨[(9, ())], [7]⟩, .retire 2, .send 0,
    .receive 0] ++ List.replicate 8 (.work 2)

theorem crash_points_safe_spentCheckpoint :
    (∀ n, ((spentCheckpoint.take n).foldl (DurabilityStep.apply everyBlock (fun _ => 0))
      (DurabilityState.resumed 0 [] [])).ResumeSafe) ∧
    (let st := spentCheckpoint.foldl (DurabilityStep.apply everyBlock (fun _ => 0))
      (DurabilityState.resumed 0 [] [])
     st.watermark = 2 ∧ st.disk = [(9, ()), (8, ())]) :=
  ⟨(crash_points_safe_iff everyBlock (fun _ => 0) 0 (by decide) spentCheckpoint).mpr (by decide),
    by decide⟩

/-- The tree has lost an output of the set at the watermark. -/
theorem tombstone_precedes_watermark :
    Guarded (DurabilityStep.apply everyBlock (fun _ => 0)) DurabilityStep.Valid
        (DurabilityState.resumed 0 [] []) stoppedCheckpoint ∧
      ¬ (stoppedCheckpoint.foldl (DurabilityStep.apply everyBlock (fun _ => 0))
        (DurabilityState.resumed 0 [] [])).ResumeSafe := by
  refine ⟨by decide, fun hsafe => ?_⟩
  have hlost := hsafe 7 (by decide)
  exact absurd hlost (by decide)

end SpentAboveWatermark

end BlvmNode
