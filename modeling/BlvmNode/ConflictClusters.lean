import BlvmNode.DependencyGraph
import Mathlib.Data.Set.Card

/-!
# Counting the clusters of conflicts

One search for each conflict that no search has seen yet, over the links to children and parents.
The visited set is shared, so every component is counted once.
-/

namespace BlvmNode

open MempoolManager List Worklist Relation

/-- The component of a transaction over the links to parents and children. -/
def MempoolManager.cluster (st : MempoolManager) (h : Hash) : Set Hash :=
  {k | ReflTransGen (SymmGen st.Spends) h k}

def MempoolManager.clusters (st : MempoolManager) (direct : List Hash) : Set (Set Hash) :=
  Set.image st.cluster {h | h ∈ direct ∧ st.Pooled h}

variable {st : MempoolManager} {start : Hash} {direct : List Hash}

theorem cluster_eq {h k : Hash} (hk : k ∈ st.cluster h) : st.cluster k = st.cluster h := by
  ext j
  exact ⟨ReflTransGen.trans hk, ReflTransGen.trans (symm hk)⟩

theorem clusters_concat (hstart : st.Pooled start) :
    st.clusters (direct ++ [start]) = insert (st.cluster start) (st.clusters direct) := by
  rw [clusters, clusters, ← Set.image_insert_eq]
  congr 1
  ext h
  simp only [mem_append, mem_singleton, Set.mem_ofPred_eq, Set.mem_insert_iff]
  constructor
  · tauto
  · rintro (rfl | h)
    · exact ⟨.inr rfl, hstart⟩
    · tauto

theorem clusters_concat_of_not_pooled (hstart : ¬ st.Pooled start) :
    st.clusters (direct ++ [start]) = st.clusters direct := by
  rw [clusters, clusters]
  congr 1
  ext h
  simp only [mem_append, mem_singleton, Set.mem_ofPred_eq]
  constructor
  · rintro ⟨hh | rfl, hpooled⟩
    · exact ⟨hh, hpooled⟩
    · exact absurd hpooled hstart
  · tauto

section Search

variable (hgraph : ∀ {c p}, c ∈ st.txDescendants.of p ↔ st.Spends c p)
include hgraph

theorem mem_clusterNeighbours {a b : Hash} :
    b ∈ st.clusterNeighbours a ↔ SymmGen st.Spends a b := by
  rw [clusterNeighbours, mem_append, mem_children hgraph, or_comm]
  refine or_congr_left ?_
  cases htx : st.tx a <;> simp [Spends, htx]

theorem mem_explore_cluster (hstart : st.Pooled start) {seen : List Hash}
    (hseen : ∀ a ∈ seen, ∀ b ∈ st.clusterNeighbours a, b ∈ seen) {k : Hash} :
    k ∈ explore st.clusterNeighbours (st.transactions.keys.length + 1) [start] seen ↔
      k ∈ seen ∨ k ∈ st.cluster start := by
  have hnext : ∀ a ∈ st.transactions.keys.toFinset, ∀ b ∈ st.clusterNeighbours a,
      b ∈ st.transactions.keys.toFinset := by
    intro a _ b hb
    rw [mem_toFinset, KeyTable.mem_keys_iff]
    rcases (mem_clusterNeighbours hgraph).mp hb with ⟨_, _, _, hpooled⟩ | ⟨tx, htx, _⟩
    · exact hpooled
    · exact Option.isSome_of_eq_some htx
  have hcluster : Worklist.Reaches st.clusterNeighbours start k ↔ k ∈ st.cluster start := by
    simp only [Worklist.Reaches, mem_clusterNeighbours hgraph]
    rfl
  rw [mem_explore_iff hnext _ ((toFinset_card_le _).trans (Nat.le_succ _)) hseen, ← hcluster]
  · simp
  · rw [forall_mem_singleton, mem_toFinset, KeyTable.mem_keys_iff]
    exact hstart

def MempoolManager.clusterStep (st : MempoolManager) (acc : List Hash × ℕ) (start : Hash) :
    List Hash × ℕ :=
  if ¬ st.Pooled start ∨ start ∈ acc.1 then acc
  else (explore st.clusterNeighbours (st.transactions.keys.length + 1) [start] acc.1, acc.2 + 1)

theorem clusterStep_spec {acc : List Hash × ℕ}
    (hseen : ∀ k, k ∈ acc.1 ↔ ∃ cluster ∈ st.clusters direct, k ∈ cluster)
    (hcount : acc.2 = (st.clusters direct).ncard) (start : Hash) :
    (∀ k, k ∈ (st.clusterStep acc start).1 ↔
        ∃ cluster ∈ st.clusters (direct ++ [start]), k ∈ cluster) ∧
      (st.clusterStep acc start).2 = (st.clusters (direct ++ [start])).ncard := by
  rw [clusterStep]
  by_cases hpooled : st.Pooled start
  swap
  · rw [if_pos (.inl hpooled), clusters_concat_of_not_pooled hpooled]
    exact ⟨hseen, hcount⟩
  rw [clusters_concat hpooled]
  by_cases hold : start ∈ acc.1
  · obtain ⟨_, ⟨h, hh, rfl⟩, hmem⟩ := (hseen start).mp hold
    have hin : st.cluster start ∈ st.clusters direct := by
      rw [cluster_eq hmem]
      exact ⟨h, hh, rfl⟩
    rw [if_pos (.inr hold), Set.insert_eq_of_mem hin]
    exact ⟨hseen, hcount⟩
  · have hnew : st.cluster start ∉ st.clusters direct := fun hin =>
      hold ((hseen start).mpr ⟨_, hin, ReflTransGen.refl⟩)
    have hclosed : ∀ a ∈ acc.1, ∀ b ∈ st.clusterNeighbours a, b ∈ acc.1 := by
      intro a ha b hb
      obtain ⟨_, ⟨h, hh, rfl⟩, hmem⟩ := (hseen a).mp ha
      exact (hseen b).mpr ⟨_, ⟨h, hh, rfl⟩, hmem.tail ((mem_clusterNeighbours hgraph).mp hb)⟩
    rw [if_neg (not_or.mpr ⟨not_not.mpr hpooled, hold⟩), Set.ncard_insert_of_notMem hnew
      ((direct.finite_toSet.subset fun _ h => h.1).image _), ← hcount]
    refine ⟨fun k => ?_, rfl⟩
    rw [mem_explore_cluster hgraph hpooled hclosed, hseen]
    simp [or_comm]

end Search

/-- The search counts the components that contain a pooled transaction of the list. -/
theorem conflict_clusters_counted (st : MempoolManager)
    (hgraph : ∀ {c p}, c ∈ st.txDescendants.of p ↔ st.Spends c p) (direct : List Hash) :
    st.conflictingClusterCount direct = (st.clusters direct).ncard := by
  have hrun : (∀ k, k ∈ (direct.foldl st.clusterStep ([], 0)).1 ↔
        ∃ cluster ∈ st.clusters direct, k ∈ cluster) ∧
      (direct.foldl st.clusterStep ([], 0)).2 = (st.clusters direct).ncard := by
    induction direct using reverseRecOn with
    | nil => simp [clusters]
    | append_singleton direct start ih =>
      rw [foldl_append, foldl_cons, foldl_nil]
      exact clusterStep_spec hgraph ih.1 ih.2 start
  exact hrun.2

theorem conflict_clusters_counted_chain :
    let st := MempoolOp.run laxRules MempoolManager.new chainCalls
    st.conflictingClusterCount [2#256, 1#256] = (st.clusters [2#256, 1#256]).ncard :=
  conflict_clusters_counted _ (linked_run keepsGraph_chain).descendants_iff _

end BlvmNode
