import BlvmNode.OutputKV
import Mathlib.Data.Set.Function

/-!
# Headers and the work behind them

A header names its parent by hash and carries the compact target that fixes its proof. The work
behind a block is the sum of the proofs of its ancestors back to genesis.
-/

namespace BlvmNode

structure BlockHeader where
  version : ℤ
  prevBlockHash : Hash
  merkleRoot : Hash
  timestamp : ℕ
  bits : ℕ
  nonce : ℕ
  deriving DecidableEq

structure PowRules where
  headerHash : BlockHeader → Hash
  getBlockProof : ℕ → Option ℕ

def calculateWorkFromBits (rules : PowRules) (bits : ℕ) : ℕ := (rules.getBlockProof bits).getD 0

def saturatingAdd (a b : ℕ) : ℕ := min (a + b) (2 ^ 256 - 1)

theorem saturatingAdd_eq {a b : ℕ} (h : a + b < 2 ^ 256) : saturatingAdd a b = a + b := by
  rw [saturatingAdd]
  omega

/-- The sum of the proofs from genesis to a block, along headers of a set. -/
inductive AncestorWork (rules : PowRules) (genesis : BlockHeader) (headers : Set BlockHeader) :
    Hash → ℕ → Prop
  | genesis : AncestorWork rules genesis headers (rules.headerHash genesis)
      (calculateWorkFromBits rules genesis.bits)
  | child {header : BlockHeader} {work : ℕ} (hmem : header ∈ headers)
      (hparent : AncestorWork rules genesis headers header.prevBlockHash work) :
      AncestorWork rules genesis headers (rules.headerHash header)
        (work + calculateWorkFromBits rules header.bits)

/-- Hashes of `known` headers name one header, and genesis has no parent among them. -/
structure RootedHeaders (rules : PowRules) (genesis : BlockHeader) (known : Set BlockHeader) :
    Prop where
  genesisKnown : genesis ∈ known
  inj : Set.InjOn rules.headerHash known
  root : ∀ header ∈ known, rules.headerHash header ≠ genesis.prevBlockHash

/-- No header is among its own ancestors: the parents of `known` headers have a lower rank. -/
def Acyclic (rules : PowRules) (known : Set BlockHeader) : Prop :=
  ∃ rank : Hash → ℕ, ∀ header ∈ known, rank header.prevBlockHash < rank (rules.headerHash header)

namespace AncestorWork

variable {rules : PowRules} {genesis : BlockHeader} {headers headers' known : Set BlockHeader}
  {h : Hash} {w : ℕ}

theorem mono (hsub : headers ⊆ headers')
    (hw : AncestorWork rules genesis headers h w) : AncestorWork rules genesis headers' h w := by
  induction hw with
  | genesis => exact .genesis
  | child hmem _ ih => exact .child (hsub hmem) ih

theorem hash_cases (hw : AncestorWork rules genesis headers h w) :
    h = rules.headerHash genesis ∨ ∃ header ∈ headers, h = rules.headerHash header := by
  cases hw with
  | genesis => exact .inl rfl
  | child hmem _ => exact .inr ⟨_, hmem, rfl⟩

section

variable (hrooted : RootedHeaders rules genesis known) (hsub : headers ⊆ known)
  {header : BlockHeader}
include hrooted hsub

theorem not_root : ¬ AncestorWork rules genesis headers genesis.prevBlockHash w := by
  intro hw
  rcases hw.hash_cases with hroot | ⟨header, hmem, hroot⟩
  · exact hrooted.root genesis hrooted.genesisKnown hroot.symm
  · exact hrooted.root header (hsub hmem) hroot.symm

theorem parent_of_hash (hknown : header ∈ known) (hne : header ≠ genesis)
    (hw : AncestorWork rules genesis headers (rules.headerHash header) w) :
    header ∈ headers ∧ ∃ work, AncestorWork rules genesis headers header.prevBlockHash work ∧
      w = work + calculateWorkFromBits rules header.bits := by
  generalize hh : rules.headerHash header = h at hw
  cases hw with
  | genesis => exact absurd (hrooted.inj hknown hrooted.genesisKnown hh) hne
  | @child other work hmem hparent =>
    have hsame : header = other := hrooted.inj hknown (hsub hmem) hh
    subst hsame
    exact ⟨hmem, work, hparent, rfl⟩

theorem not_self (hknown : header ∈ known) (hne : header ≠ genesis)
    (hself : header.prevBlockHash = rules.headerHash header)
    (hw : AncestorWork rules genesis headers h w) : h ≠ rules.headerHash header := by
  induction hw with
  | genesis => exact fun heq => hne (hrooted.inj hknown hrooted.genesisKnown heq.symm)
  | @child other work hmem hparent ih =>
    intro heq
    have hsame : other = header := hrooted.inj (hsub hmem) hknown heq
    rw [hsame] at ih
    exact ih hself

end

end AncestorWork

section Concrete

def nonceRules : PowRules where
  headerHash header := BitVec.ofNat 256 header.nonce
  getBlockProof bits := some bits

def nonceHeader (name parent bits : ℕ) : BlockHeader :=
  ⟨1, BitVec.ofNat 256 parent, 0, 0, bits, name⟩

end Concrete

end BlvmNode
