import Mathlib.Algebra.Order.Ring.Nat
import Mathlib.Data.List.Range
import Mathlib.Logic.Function.Basic

/-! # The retire dispatcher

A height goes to the shard `height % n`. The shard retires its heights in the order of its channel
and publishes each in two steps: it stores its own cursor, and then takes the lock under which the
floor becomes the least cursor. -/

namespace BlvmNode

open Function List

structure DispatcherShard where
  work : List ℕ
  localLastRetired : ℕ

structure RetireDispatcher where
  shards : ℕ → DispatcherShard
  globalLastRetired : ℕ
  retired : List ℕ

-- A recompute may come at any time, so the steps of concurrent publish calls interleave freely.
inductive RetireStep where
  | send (height : ℕ)
  | store (shard : ℕ)
  | recompute

def RetireStep.sent : RetireStep → List ℕ
  | .send height => [height]
  | _ => []

namespace RetireDispatcher

def spawn (startHeightMinusOne : ℕ) : RetireDispatcher :=
  ⟨fun _ => ⟨[], startHeightMinusOne⟩, startHeightMinusOne, []⟩

def minLocal (shards : ℕ → DispatcherShard) : ℕ → ℕ
  | 0 => 2 ^ 64 - 1
  | n + 1 => min (minLocal shards n) (shards n).localLastRetired

def apply (n : ℕ) (st : RetireDispatcher) : RetireStep → RetireDispatcher
  | .send height =>
    let shard := st.shards (height % n)
    { st with
      shards := update st.shards (height % n) { shard with work := shard.work ++ [height] } }
  | .store shard =>
    match (st.shards shard).work with
    | [] => st
    | height :: rest => { st with
        shards := update st.shards shard ⟨rest, height⟩, retired := height :: st.retired }
  | .recompute =>
    let m := minLocal st.shards n
    if m ≠ 2 ^ 64 - 1 then { st with globalLastRetired := m } else st

def run (numShards : ℕ) : RetireDispatcher → List RetireStep → RetireDispatcher :=
  foldl (apply (max numShards 1))

variable {n start : ℕ} {sent : List ℕ} {st : RetireDispatcher}

theorem minLocal_le (shards : ℕ → DispatcherShard) {i : ℕ} (hi : i < n) :
    minLocal shards n ≤ (shards i).localLastRetired := by
  induction n with
  | zero => omega
  | succ n ih =>
    rcases Nat.lt_succ_iff_lt_or_eq.mp hi with hlt | rfl
    · exact (Nat.min_le_left _ _).trans (ih hlt)
    · exact Nat.min_le_right _ _

theorem le_minLocal {shards : ℕ → DispatcherShard} {g : ℕ}
    (hg : ∀ i < n, g ≤ (shards i).localLastRetired) (hset : minLocal shards n ≠ 2 ^ 64 - 1) :
    g ≤ minLocal shards n := by
  induction n with
  | zero => exact absurd rfl hset
  | succ n ih =>
    have hlast := hg n n.lt_succ_self
    have hprev := ih (fun i hi => hg i (hi.trans n.lt_succ_self))
    rw [minLocal] at hset ⊢
    omega

structure Floored (n start : ℕ) (sent : List ℕ) (st : RetireDispatcher) : Prop where
  inOrder : ∀ i, (st.shards i).localLastRetired :: (st.shards i).work <+ start :: sent
  routed : ∀ h ∈ sent, h ∈ st.retired ∨ h ∈ (st.shards (h % n)).work
  floor : ∀ i < n, st.globalLastRetired ≤ (st.shards i).localLastRetired

theorem Floored.send (h : Floored n start sent st) (height : ℕ) :
    Floored n start (sent ++ [height]) (st.apply n (.send height)) := by
  have hmore : start :: sent <+ start :: (sent ++ [height]) := sublist_append_left _ [height]
  refine ⟨?_, fun x hx => ?_, ?_⟩
  · exact (forall_update_iff st.shards fun _ s => s.localLastRetired :: s.work <+ _).mpr
      ⟨(h.inOrder _).append (Sublist.refl [height]), fun i _ => (h.inOrder i).trans hmore⟩
  · simp only [RetireDispatcher.apply, update_apply]
    rcases mem_append.mp hx with hx | hx
    · refine (h.routed x hx).imp_right (fun hq => ?_)
      split_ifs with hi
      · exact mem_append_left _ (hi ▸ hq)
      · exact hq
    · rw [mem_singleton.mp hx, if_pos rfl]
      exact .inr mem_concat_self
  · exact (forall_update_iff st.shards fun i s => i < n → _ ≤ s.localLastRetired).mpr
      ⟨h.floor _, fun i _ => h.floor i⟩

theorem Floored.store (h : Floored n start sent st) (hsent : (start :: sent).Pairwise (· < ·))
    (shard : ℕ) : Floored n start sent (st.apply n (.store shard)) := by
  have horder := h.inOrder shard
  have hfloor := h.floor shard
  rw [RetireDispatcher.apply]
  rcases hwork : (st.shards shard).work with _ | ⟨height, rest⟩
  · exact h
  rw [hwork] at horder
  refine ⟨?_, fun x hx => ?_, ?_⟩
  · exact (forall_update_iff st.shards fun _ s => s.localLastRetired :: s.work <+ _).mpr
      ⟨(sublist_cons_self _ _).trans horder, fun i _ => h.inOrder i⟩
  · simp only [update_apply]
    rcases h.routed x hx with hr | hq
    · exact .inl (mem_cons_of_mem _ hr)
    split_ifs with hi
    · rw [hi, hwork] at hq
      exact (mem_cons.mp hq).imp_left (fun heq => mem_cons.mpr (.inl heq))
    · exact .inr hq
  · have hlt := rel_of_pairwise_cons (hsent.sublist horder) mem_cons_self
    exact (forall_update_iff st.shards fun i s => i < n → _ ≤ s.localLastRetired).mpr
      ⟨fun hi => (hfloor hi).trans hlt.le, fun i _ => h.floor i⟩

theorem Floored.apply (h : Floored n start sent st) (step : RetireStep)
    (hsent : (start :: sent).Pairwise (· < ·)) :
    Floored n start (sent ++ step.sent) (st.apply n step) ∧
      st.globalLastRetired ≤ (st.apply n step).globalLastRetired := by
  cases step with
  | send height => exact ⟨h.send height, le_rfl⟩
  | store shard =>
    refine ⟨by simpa [RetireStep.sent] using h.store hsent shard, ?_⟩
    rw [RetireDispatcher.apply]
    split <;> exact le_rfl
  | recompute =>
    simp only [RetireStep.sent, append_nil, RetireDispatcher.apply]
    split_ifs with hset
    · exact ⟨{ h with floor := fun i hi => minLocal_le _ hi }, le_minLocal h.floor hset⟩
    · exact ⟨h, le_rfl⟩

theorem Floored.run {steps : List RetireStep} (h : Floored (max n 1) start sent st)
    (hsent : (start :: (sent ++ steps.flatMap RetireStep.sent)).Pairwise (· < ·)) :
    Floored (max n 1) start (sent ++ steps.flatMap RetireStep.sent) (run n st steps) ∧
      st.globalLastRetired ≤ (run n st steps).globalLastRetired := by
  induction steps generalizing sent st with
  | nil => exact ⟨by rwa [flatMap_nil, append_nil], le_rfl⟩
  | cons step steps ih =>
    rw [flatMap_cons, ← append_assoc] at hsent ⊢
    have hprefix : start :: sent <+ start :: (sent ++ step.sent ++ steps.flatMap RetireStep.sent) :=
      ((sublist_append_left _ _).trans (sublist_append_left _ _)).cons_cons _
    obtain ⟨hstep, hle⟩ := h.apply step (hsent.sublist hprefix)
    exact (ih hstep hsent).imp_right hle.trans

theorem floored_spawn (n start : ℕ) : Floored n start [] (spawn start) :=
  ⟨fun _ => .refl _, nofun, fun _ _ => le_rfl⟩

/-- For heights sent in ascending order above `start` the floor never decreases and every sent
height up to it is retired; when they are consecutive, every height up to it is. -/
theorem retire_floor_contiguous (numShards start : ℕ) (steps later : List RetireStep)
    (hsent : (start :: (steps ++ later).flatMap RetireStep.sent).Pairwise (· < ·)) :
    let st := run numShards (spawn start) steps
    st.globalLastRetired ≤ (run numShards st later).globalLastRetired ∧
    (∀ h ∈ steps.flatMap RetireStep.sent, h ≤ st.globalLastRetired → h ∈ st.retired) ∧
    ∀ k, steps.flatMap RetireStep.sent = range' (start + 1) k →
      ∀ h, start < h → h ≤ st.globalLastRetired → h ∈ st.retired := by
  rw [flatMap_append] at hsent
  have hsteps := hsent.sublist ((sublist_append_left _ (later.flatMap RetireStep.sent)).cons_cons _)
  obtain ⟨hst, -⟩ := (floored_spawn _ start).run hsteps
  have hretired : ∀ h ∈ steps.flatMap RetireStep.sent,
      h ≤ (run numShards (spawn start) steps).globalLastRetired →
        h ∈ (run numShards (spawn start) steps).retired := by
    intro h hmem hle
    refine (hst.routed h hmem).resolve_right (fun hwork => ?_)
    have hlt := rel_of_pairwise_cons (hsteps.sublist (hst.inOrder _)) hwork
    have hfloor := hst.floor (h % max numShards 1) (Nat.mod_lt _ (by omega))
    omega
  refine ⟨(hst.run hsent).2, hretired, fun k hk h hlo hhi => hretired h ?_ hhi⟩
  have hfloor := hst.floor 0 (by omega)
  have hmem := (hst.inOrder 0).subset mem_cons_self
  rw [nil_append, hk, mem_cons, mem_range'_1] at hmem
  rw [hk, mem_range'_1]
  omega

theorem retire_floor_contiguous_two :
    let st := run 2 (spawn 0) [.send 1, .send 2, .store 0, .store 1, .recompute]
    st.globalLastRetired ≤ (run 2 st [.recompute]).globalLastRetired ∧
    (∀ h ∈ [1, 2], h ≤ st.globalLastRetired → h ∈ st.retired) ∧
    ∀ k, [1, 2] = range' 1 k → ∀ h, 0 < h → h ≤ st.globalLastRetired → h ∈ st.retired :=
  retire_floor_contiguous 2 0 [.send 1, .send 2, .store 0, .store 1, .recompute] [.recompute]
    (by decide)

/-- A floor above a height that was never sent, and a floor lowered by a height below the start. -/
theorem retire_floor_skips :
    (run 1 (spawn 0) [.send 2, .store 0, .recompute]).globalLastRetired = 2 ∧
    1 ∉ (run 1 (spawn 0) [.send 2, .store 0, .recompute]).retired ∧
    (run 1 (spawn 5) [.send 3, .store 0, .recompute]).globalLastRetired = 3 := by decide

end RetireDispatcher

end BlvmNode
