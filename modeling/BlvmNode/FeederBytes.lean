import BlvmNode.Lib.GuardedRun
import BlvmNode.Lib.KeyTable

/-! # The feeder's byte counter

The feeder buffers blocks by height, each with the size estimate it was inserted with, and one
counter for all of them. -/

namespace BlvmNode

open List

structure FeederState where
  buffer : KeyTable ℕ ℕ
  bytes : ℕ

/-- An insert comes from the ready channel, directly from the bridge or from one of its bursts.
Validation removes its next height, and mostly prunes below it under the same lock. -/
inductive FeederStep where
  | insert (height estBytes : ℕ)
  | remove (height : ℕ)
  | prune (floor : ℕ)

namespace FeederState

def new : FeederState := ⟨.empty, 0⟩

def stored (buffer : KeyTable ℕ ℕ) : ℕ := (buffer.rows.map Prod.snd).sum

-- An insert at a buffered height replaces the block, but only adds to the counter.
def insertReady (st : FeederState) (height estBytes : ℕ) : FeederState :=
  ⟨st.buffer.insert height estBytes, st.bytes + estBytes⟩

def pruneBelow (st : FeederState) (floor : ℕ) : FeederState :=
  ⟨st.buffer.retain (fun h _ => !decide (h < floor)),
    st.bytes - stored (st.buffer.retain (fun h _ => decide (h < floor)))⟩

def apply (st : FeederState) : FeederStep → FeederState
  | .insert height estBytes => st.insertReady height estBytes
  | .remove height => ⟨st.buffer.erase height, st.bytes - (st.buffer.get height).getD 0⟩
  | .prune floor => st.pruneBelow floor

def minBufferedHeight (st : FeederState) : Option ℕ := (st.buffer.rows.map Prod.fst).min?

/-- The back-pressure of the feeder thread: it waits before it inserts a block of the channel. -/
def waits (st : FeederState) (bufferLimit bytesLimit height estBytes : ℕ) : Bool :=
  (decide (bufferLimit ≤ st.buffer.rows.length) || decide (bytesLimit < st.bytes + estBytes)) &&
    st.minBufferedHeight.any (fun min => decide (min ≤ height))

def Exact (st : FeederState) : Prop := st.bytes = stored st.buffer

/-- An insert finds no block at its height, or one that was counted with zero bytes. -/
def Fresh (st : FeederState) : FeederStep → Prop
  | .insert height _ => (st.buffer.get height).getD 0 = 0
  | _ => True

variable (buffer : KeyTable ℕ ℕ)

theorem stored_retain (p : ℕ → Bool) :
    stored (buffer.retain (fun h _ => p h)) + stored (buffer.retain (fun h _ => !p h)) =
      stored buffer := by
  rw [stored, stored, ← sum_append, ← map_append]
  exact ((filter_append_perm (fun row => p row.1) buffer.rows).map Prod.snd).sum_eq

theorem stored_erase (height : ℕ) :
    stored (buffer.erase height) + (buffer.get height).getD 0 = stored buffer := by
  cases hget : buffer.get height with
  | none =>
    have hself : (buffer.erase height).rows = buffer.rows := by
      refine filter_eq_self.mpr fun row hrow => decide_eq_true ?_
      rintro rfl
      simp [KeyTable.get_eq_some_iff.mpr hrow] at hget
    rw [stored, hself]
    rfl
  | some est =>
    have hsum := ((KeyTable.rows_perm_erase hget).map Prod.snd).sum_eq
    rw [stored, stored, hsum, map_cons, sum_cons, Nat.add_comm]
    rfl

theorem exact_apply_iff {st : FeederState} (h : st.Exact) (step : FeederStep) :
    (st.apply step).Exact ↔ st.Fresh step := by
  cases step with
  | insert height estBytes =>
    have herase := stored_erase st.buffer height
    have hcons : stored (st.buffer.insert height estBytes) =
        estBytes + stored (st.buffer.erase height) := sum_cons
    simp only [Exact, apply, insertReady, hcons, Fresh] at h ⊢
    omega
  | remove height =>
    have herase := stored_erase st.buffer height
    simp only [Exact, apply, Fresh, iff_true] at h ⊢
    omega
  | prune floor =>
    have hsplit := stored_retain st.buffer (fun h => decide (h < floor))
    simp only [Exact, apply, pruneBelow, Fresh, iff_true] at h ⊢
    omega

theorem waits_drained {st : FeederState} (h : st.buffer.rows = [])
    (bufferLimit bytesLimit height estBytes : ℕ) :
    st.waits bufferLimit bytesLimit height estBytes = false := by
  rw [waits, minBufferedHeight, h]
  exact Bool.and_false _

/-- The counter is the sum of the buffered estimates all along a run exactly when no insert
replaces a block that counts; the back-pressure ends with the drained buffer in any case. -/
theorem feeder_bytes_exact_iff (steps : List FeederStep) :
    ((∀ n, ((steps.take n).foldl apply new).Exact) ↔ GuardedRun.Guarded apply Fresh new steps) ∧
      ((steps.foldl apply new).buffer.rows = [] →
        ∀ bufferLimit bytesLimit height estBytes,
          (steps.foldl apply new).waits bufferLimit bytesLimit height estBytes = false) := by
  refine ⟨?_, waits_drained⟩
  exact @GuardedRun.forall_take_iff _ _ _ _ Exact (fun _ => True) (fun _ _ _ => trivial)
    (fun _ step _ h => exact_apply_iff h step) new trivial rfl steps

/-- A block delivered again while buffered: the buffer is drained and ten bytes stay counted. With
the next block buffered the feeder then waits for bytes that no block has. -/
theorem feeder_bytes_drift :
    let st := [.insert 1 10, .insert 1 10, .remove 1, .prune 1].foldl apply new
    st.buffer.rows = [] ∧ st.bytes = 10 ∧
      (st.insertReady 2 10).waits 8 25 3 10 = true ∧
      stored (st.insertReady 2 10).buffer + 10 ≤ 25 := by decide

end FeederState

end BlvmNode
