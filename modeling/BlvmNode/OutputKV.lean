import BlvmNode.Lib.KeyedRuns
import BlvmNode.Lib.KWayMerge

/-!
# Core types of the IBD engine

Outpoint keys, packed table ids and the Add/Delete entries of the index, with the sort order
that every run and every disk segment keeps: key ascending, height descending, and an Add
before a Delete of the same height.
-/

namespace BlvmNode

abbrev Hash := BitVec 256

instance : LawfulBEq Hash := inferInstance

structure OutPoint where
  hash : Hash
  index : BitVec 32
  deriving DecidableEq

/-- The 36 key bytes: the txid followed by the big-endian output number. -/
structure OutputKey where
  txid : Hash
  vout : BitVec 32
  deriving DecidableEq

namespace OutputKey

def toNat (k : OutputKey) : ℕ := k.txid.toNat * 2 ^ 32 + k.vout.toNat

theorem toNat_injective {a b : OutputKey} (h : a.toNat = b.toNat) : a = b := by
  obtain ⟨ta, va⟩ := a
  obtain ⟨tb, vb⟩ := b
  simp only [toNat] at h
  have ht : ta.toNat = tb.toNat := by omega
  have hv : va.toNat = vb.toNat := by omega
  rw [BitVec.eq_of_toNat_eq ht, BitVec.eq_of_toNat_eq hv]

end OutputKey

def outpointToOutputKey (op : OutPoint) : OutputKey := ⟨op.hash, op.index⟩

theorem outpointToOutputKey_injective {a b : OutPoint}
    (h : outpointToOutputKey a = outpointToOutputKey b) : a = b := by
  cases a
  cases b
  simpa [outpointToOutputKey] using h

abbrev OutputId := BitVec 64

def i32Max : ℤ := 2147483647

def i32Min : ℤ := -2147483648

/-- `OutputId::MAX`: not found anywhere yet. -/
def outputIdMax : OutputId := BitVec.allOnes 64

/-- `OUTPUT_ID_DELETED`: found, but already spent. -/
def outputIdDeleted : OutputId := outputIdMax - 1

/-- The ids that resolve a key to a table record. -/
def IsTableId (id : OutputId) : Prop := id ≠ outputIdMax ∧ id ≠ outputIdDeleted

instance (id : OutputId) : Decidable (IsTableId id) := inferInstanceAs (Decidable (_ ∧ _))

namespace IdCodec

def lenBits : ℕ := 20

def lenMask : BitVec 64 := (1 <<< lenBits) - 1

def encode (offset : BitVec 64) (length : ℕ) : OutputId :=
  (offset <<< lenBits) ||| (BitVec.ofNat 64 length &&& lenMask)

end IdCodec

inductive Op where
  | add
  | delete
  deriving DecidableEq

def Op.code : Op → ℤ
  | .add => 0
  | .delete => -1

structure OutputKV where
  key : OutputKey
  height : ℤ
  op : Op
  id : OutputId
  deriving DecidableEq

namespace OutputKV

def newAdd (key : OutputKey) (height : ℤ) (id : OutputId) : OutputKV := ⟨key, height, .add, id⟩

def newDelete (key : OutputKey) (height : ℤ) : OutputKV := ⟨key, height, .delete, 0⟩

def isAdd (e : OutputKV) : Bool := e.op == .add

def isDelete (e : OutputKV) : Bool := e.op == .delete

variable (e : OutputKV) {a b : OutputKV}

@[simp] theorem isDelete_eq : e.isDelete = !e.isAdd := by
  cases h : e.op <;> simp [isAdd, isDelete, h]

@[simp] theorem isAdd_newAdd (k : OutputKey) (h : ℤ) (id : OutputId) : (newAdd k h id).isAdd := rfl

@[simp] theorem isAdd_newDelete (k : OutputKey) (h : ℤ) : (newDelete k h).isAdd = false := rfl

/-- The order of `OutputKV::cmp`; the id takes no part in it. -/
def le (a b : OutputKV) : Prop :=
  a.key.toNat < b.key.toNat ∨
    a.key = b.key ∧ (b.height < a.height ∨ b.height = a.height ∧ b.op.code ≤ a.op.code)

instance : DecidableRel le := fun _ _ => inferInstanceAs (Decidable (_ ∨ _))

instance : Std.Total le where
  total a b := by
    rcases Nat.lt_trichotomy a.key.toNat b.key.toNat with hk | hk | hk
    · exact .inl (.inl hk)
    · have hkey := OutputKey.toNat_injective hk
      simp only [le, hkey, true_and]
      omega
    · exact .inr (.inl hk)

instance : IsTrans OutputKV le where
  trans a b c := by
    rintro (hab | ⟨hk, hab⟩) (hbc | ⟨hk', hbc⟩)
    · exact .inl (hab.trans hbc)
    · exact .inl (hk' ▸ hab)
    · exact .inl (hk ▸ hbc)
    · exact .inr ⟨hk.trans hk', by omega⟩

instance : Timeline.Versioned OutputKV where
  height := OutputKV.height
  isAdd := OutputKV.isAdd

instance : KeyedRuns.Keyed OutputKV OutputKey where
  key := OutputKV.key

@[simp] theorem versioned_height : Timeline.Versioned.height e = e.height := rfl

@[simp] theorem versioned_isAdd : Timeline.Versioned.isAdd e = e.isAdd := rfl

@[simp] theorem keyed_key : KeyedRuns.Keyed.key e = e.key := rfl

theorem le_key (h : le a b) : a.key.toNat ≤ b.key.toNat := by
  rcases h with h | ⟨h, -⟩
  · exact h.le
  · rw [h]

theorem le_height (h : le a b) (hk : a.key = b.key) : b.height ≤ a.height := by
  rcases h with h | ⟨-, h⟩
  · exact absurd h (by rw [hk]; exact lt_irrefl _)
  · omega

end OutputKV

abbrev Sorted (entries : List OutputKV) : Prop := entries.Pairwise OutputKV.le

def sortEntries (entries : List OutputKV) : List OutputKV := entries.insertionSort OutputKV.le

theorem sortEntries_perm (entries : List OutputKV) : (sortEntries entries).Perm entries :=
  List.perm_insertionSort ..

theorem sorted_sortEntries (entries : List OutputKV) : Sorted (sortEntries entries) :=
  List.pairwise_insertionSort ..

open KeyedRuns in
theorem Sorted.entriesOf_heights {entries : List OutputKV} (h : Sorted entries) (k : OutputKey) :
    (entriesOf k entries).Pairwise (fun a b => b.height ≤ a.height) := by
  have hf : (entriesOf k entries).Pairwise OutputKV.le := List.Pairwise.filter _ h
  refine hf.imp_of_mem ?_
  intro a b ha hb hab
  have hka := (mem_entriesOf.mp ha).2
  have hkb := (mem_entriesOf.mp hb).2
  exact OutputKV.le_height hab (hka.trans hkb.symm)

end BlvmNode
