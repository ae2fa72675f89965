import BlvmNode.ReplacementFees

/-!
# Chains of replacements

An admission removes what it displaces before it reads the replacement counts of its conflicts, and
a removal deletes the count. So a replacement of a replacement is counted as the first one.
-/

namespace BlvmNode

open MempoolManager List

section Chains

variable (rules : ConsensusRules) (calls : List (MempoolEnv × MempoolOp))

def poolBefore (j : ℕ) : MempoolManager := MempoolOp.run rules MempoolManager.new (calls.take j)

def AdmittedAt (j : ℕ) (env : MempoolEnv) (tx : RawTransaction) : Prop :=
  ∃ witnesses, calls[j]? = some (env, .add tx witnesses) ∧
    (addTransactionWithWitness rules env (poolBefore rules calls j) tx witnesses).2 = .ok true

/-- The call admits the transaction that stands after `k` replacements, each of which conflicted
directly with the one before. -/
inductive ReplacementChain : ℕ → MempoolEnv → RawTransaction → ℕ → Prop
  | first {j env tx} (hadmitted : AdmittedAt rules calls j env tx) : ReplacementChain j env tx 0
  | next {i j k env env' tx tx'} (hchain : ReplacementChain i env tx k) (hlater : i < j)
      (hadmitted : AdmittedAt rules calls j env' tx')
      (hconflict : rules.calculateTxId tx ∈ (poolBefore rules calls j).directConflicts tx') :
      ReplacementChain j env' tx' (k + 1)

/-- The replacement count tracked right after a call; nothing tracked counts as zero. -/
def trackedCount (j : ℕ) (tx : RawTransaction) : ℕ :=
  (((poolBefore rules calls (j + 1)).rbfTracking (rules.calculateTxId tx)).map
    (fun t => t.replacementCount)).getD 0

end Chains

section Tracking

variable {rules : ConsensusRules} {env : MempoolEnv} {st : MempoolManager} {tx : RawTransaction}
  {witnesses : Option (List Witness)} {displaced : List Hash}

theorem nextReplacementCount_of_zeros {counts : List ℕ} (hzero : ∀ c ∈ counts, c = 0) :
    nextReplacementCount counts = 1 := by
  have hmax : counts.foldl max 0 = 0 :=
    foldlRecOn (motive := (· = 0)) counts max rfl fun acc hacc c hc => by rw [hacc, hzero c hc]; rfl
  rw [nextReplacementCount, hmax]
  rfl

/-- The direct conflicts have left, with their tracking, when their counts are read. -/
theorem rbfTracking_displace (hst : SpendsTracked rules st)
    (hset : displacementSet env st tx = some displaced) (hne : st.directConflicts tx ≠ [])
    (hnew : rules.calculateTxId tx ∉ displaced) :
    ((displace rules env st tx displaced).rbfTracking (rules.calculateTxId tx)).map
      (fun t => t.replacementCount) = some 1 := by
  have hcleared : ∀ d ∈ st.directConflicts tx,
      (st.removeTransactions displaced).rbfTracking d = none := by
    intro d hd
    obtain ⟨existing, hex⟩ := hst.exists_of_mem_directConflicts hd
    have hrecords := @records_removeTransactions st displaced d
    rw [if_pos ⟨directConflicts_subset_displaced hset hd, by simp [Pooled, hex]⟩] at hrecords
    simp only [records, Prod.mk.injEq] at hrecords
    exact hrecords.2.2.2.2
  rw [displace]
  split
  · next hnil => exact absurd hnil hne
  · next primary rest hdirect =>
    rw [hdirect] at hcleared
    dsimp only
    rw [if_neg hnew, Function.update_self, Option.map_some]
    refine congrArg some (nextReplacementCount_of_zeros ?_)
    intro c hc
    obtain ⟨d, hd, rfl⟩ := mem_map.mp hc
    rw [hcleared d hd]
    rfl

theorem trackedCount_of_conflict {calls : List (MempoolEnv × MempoolOp)} {j : ℕ}
    (hadmitted : AdmittedAt rules calls j env tx)
    (hne : (poolBefore rules calls j).directConflicts tx ≠ []) :
    trackedCount rules calls j tx = 1 := by
  obtain ⟨witnesses, hcall, hok⟩ := hadmitted
  have hst : SpendsTracked rules (poolBefore rules calls j) := spendsTracked_run rules _
  obtain ⟨displaced, hc, hres⟩ := clears_of_ok hok
  have hafter : poolBefore rules calls (j + 1) =
      (addTransactionWithWitness rules env (poolBefore rules calls j) tx witnesses).1 := by
    rw [poolBefore, take_add_one, hcall, MempoolOp.run, foldl_append]
    rfl
  have hone := rbfTracking_displace hst hc.displacement hne fun hmem =>
    not_pooled_of_checks hc.checks (pooled_of_mem_displaced hst hc.displacement hmem)
  rw [trackedCount, hafter, hres]
  exact congrArg (fun c => c.getD 0) hone

/-- Every replacement is tracked with the count one, so the count covers a chain, and the cap bounds
it, exactly if the chain has at most one replacement. -/
theorem replacement_count_covers_iff (rules : ConsensusRules)
    (calls : List (MempoolEnv × MempoolOp)) {j k : ℕ} {env : MempoolEnv} {tx : RawTransaction}
    (hchain : ReplacementChain rules calls j env tx k)
    (hcap : 1 ≤ env.effectiveRbf.maxReplacementsPerTx) :
    (k ≤ trackedCount rules calls j tx ∧ k ≤ env.effectiveRbf.maxReplacementsPerTx) ↔ k ≤ 1 := by
  cases hchain with
  | first => simp
  | next _ _ hadmitted hconflict =>
    rw [trackedCount_of_conflict hadmitted (ne_nil_of_mem hconflict)]
    omega

def capOfTwo : MempoolEnv :=
  { wiredEnv [(confirmedOutput, plainCoin 11000#64)] with
    rbfConfig := some { RbfConfig.default with maxReplacementsPerTx := 2 } }

/-- Four transactions that spend one coin, each at a higher fee. -/
def bumpTx (id : ℕ) : RawTransaction :=
  plainTx id [confirmedOutput] [BitVec.ofNat 64 (10600 - 1600 * id)]

def bumpCalls : List (MempoolEnv × MempoolOp) :=
  [1, 2, 3, 4].map fun id => (capOfTwo, .add (bumpTx id) none)

theorem replacementChain_bump : ReplacementChain laxRules bumpCalls 1 capOfTwo (bumpTx 2) 1 :=
  .next (.first (j := 0) ⟨none, rfl, by decide +kernel⟩) (by decide)
    ⟨none, rfl, by decide +kernel⟩ (by decide +kernel)

theorem replacement_count_covers_bump :
    (1 ≤ trackedCount laxRules bumpCalls 1 (bumpTx 2) ∧
      1 ≤ capOfTwo.effectiveRbf.maxReplacementsPerTx) ↔ 1 ≤ 1 :=
  replacement_count_covers_iff laxRules bumpCalls replacementChain_bump (by decide)

/-- A third replacement passes a cap of two. -/
theorem third_replacement_admitted :
    ReplacementChain laxRules bumpCalls 3 capOfTwo (bumpTx 4) 3 ∧
      trackedCount laxRules bumpCalls 3 (bumpTx 4) = 1 ∧
      capOfTwo.effectiveRbf.maxReplacementsPerTx = 2 := by
  refine ⟨?_, by decide +kernel, rfl⟩
  refine .next (i := 2) (.next replacementChain_bump (by decide) ⟨none, rfl, ?_⟩ ?_) (by decide)
    ⟨none, rfl, ?_⟩ ?_ <;> decide +kernel

end Tracking

end BlvmNode
