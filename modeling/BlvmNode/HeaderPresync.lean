import BlvmNode.HeaderChain

/-!
# The header pre-sync gate

Header download adds up the proofs of the headers it sees. While the sum is below the network's
chain-work floor the phase is `presync` and the block assigner stays idle; from then on the headers
that are held are handed over.
-/

namespace BlvmNode

inductive Network
  | mainnet
  | testnet
  | testnet4
  | signet
  | regtest
  deriving DecidableEq

structure HeadersSyncParams where
  commitmentPeriod : ℕ
  redownloadBuffer : ℕ

def headersSyncParams : Network → HeadersSyncParams
  | .mainnet => ⟨649, 15400⟩
  | .testnet => ⟨682, 14613⟩
  | .testnet4 => ⟨616, 16199⟩
  | .signet => ⟨629, 15885⟩
  | .regtest => ⟨275, 7017⟩

def minimumChainWorkForNetwork : Network → ℕ
  | .mainnet => 0x1128750f82f4c366153a3a030
  | .testnet => 0x17dde1c649f3708d14b6
  | .testnet4 => 0x9a0fe15d0177d086304
  | .signet => 0xb463ea0a4b8
  | .regtest => 0

inductive HeadersSyncPhase
  | presync
  | redownload
  | final
  deriving DecidableEq

structure HeadersPresync where
  phase : HeadersSyncPhase
  params : HeadersSyncParams
  minimum : ℕ
  work : ℕ
  held : List BlockHeader
  seen : ℕ
  commitments : List Hash

namespace HeadersPresync

def new (network : Network) : HeadersPresync where
  phase := if minimumChainWorkForNetwork network = 0 then .final else .presync
  params := headersSyncParams network
  minimum := minimumChainWorkForNetwork network
  work := 0
  held := []
  seen := 0
  commitments := []

/-- The assigner runs only in `redownload` or `final`. -/
def releasesAssigner (p : HeadersPresync) : Bool := decide (p.phase ≠ .presync)

variable (rules : PowRules)

/-- One header is counted and held. In `presync` a period leaves a commitment, and the phase ends
when the work reaches the floor. -/
def acceptOne (p : HeadersPresync) (header : BlockHeader) : HeadersPresync :=
  let work := saturatingAdd p.work (calculateWorkFromBits rules header.bits)
  let seen := min (p.seen + 1) (2 ^ 64 - 1)
  let held := p.held ++ [header]
  if p.phase = .presync then
    let commits : Bool := 0 < p.params.commitmentPeriod ∧ seen % p.params.commitmentPeriod = 0
    { p with
      work := work
      seen := seen
      held := if commits then [] else held
      commitments :=
        if commits then p.commitments ++ [rules.headerHash header] else p.commitments
      phase := if p.minimum ≤ work then .redownload else .presync }
  else { p with work := work, seen := seen, held := held }

def release (p : HeadersPresync) : HeadersPresync × Option (List BlockHeader) :=
  match p.phase with
  | .presync => (p, none)
  | .redownload =>
    let n := min p.params.redownloadBuffer p.held.length
    if n = 0 then (if p.held = [] then { p with phase := .final } else p, none)
    else
      let rest := p.held.drop n
      ({ p with held := rest, phase := if rest = [] then .final else .redownload },
        some (p.held.take n))
  | .final => if p.held = [] then (p, none) else ({ p with held := [] }, some p.held)

def accept (p : HeadersPresync) (headers : List BlockHeader) :
    HeadersPresync × Option (List BlockHeader) :=
  (headers.foldl (acceptOne rules) p).release

def note (p : HeadersPresync) (header : BlockHeader) : HeadersPresync :=
  (p.accept rules [header]).1

section Gate

variable {p : HeadersPresync}

theorem release_frame : p.release.1.work = p.work ∧ p.release.1.minimum = p.minimum := by
  rw [release]
  split
  · exact ⟨rfl, rfl⟩
  · dsimp only
    split_ifs <;> exact ⟨rfl, rfl⟩
  · split_ifs <;> exact ⟨rfl, rfl⟩

theorem release_presync : p.release.1.phase = .presync ↔ p.phase = .presync := by
  rw [release]
  cases hphase : p.phase with
  | presync => simp [hphase]
  | redownload | final =>
    dsimp only
    split_ifs <;> simp [hphase]

variable {rules} {header : BlockHeader}

theorem note_work :
    (p.note rules header).work =
      saturatingAdd p.work (calculateWorkFromBits rules header.bits) := by
  rw [note, accept, release_frame.1]
  simp only [List.foldl_cons, List.foldl_nil, acceptOne]
  split_ifs <;> rfl

theorem note_minimum : (p.note rules header).minimum = p.minimum := by
  rw [note, accept, release_frame.2]
  simp only [List.foldl_cons, List.foldl_nil, acceptOne]
  split_ifs <;> rfl

theorem note_presync :
    (p.note rules header).phase = .presync ↔
      p.phase = .presync ∧ (p.note rules header).work < p.minimum := by
  rw [note_work, note, accept, release_presync]
  by_cases hphase : p.phase = .presync
  · simp only [List.foldl_cons, List.foldl_nil, acceptOne, hphase, if_true, true_and]
    by_cases hwork : p.minimum ≤ saturatingAdd p.work (calculateWorkFromBits rules header.bits)
    · simp [hwork, Nat.not_lt.mpr hwork]
    · simp [hwork, Nat.lt_of_not_le hwork]
  · simp [acceptOne, hphase]

def Gated (p : HeadersPresync) : Prop := p.phase ≠ .presync → p.minimum ≤ p.work

theorem gated_new (network : Network) : Gated (new network) := by
  intro hopen
  by_cases hmin : minimumChainWorkForNetwork network = 0
  · exact hmin.le
  · exact absurd (if_neg hmin) hopen

theorem Gated.note (hp : Gated p) (hfloor : p.minimum < 2 ^ 256) : Gated (p.note rules header) := by
  intro hopen
  rw [Ne, note_presync, not_and_or, Nat.not_lt] at hopen
  rw [note_minimum]
  rcases hopen with hopen | hopen
  · have hcounted := hp hopen
    rw [note_work, saturatingAdd]
    omega
  · exact hopen

end Gate

end HeadersPresync

end BlvmNode
