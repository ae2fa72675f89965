import BlvmNode.LegacyLedger

/-!
# What the legacy store answers

A query looks into the cache, at the coins in flight and into the tree, and never at the tombstones
in the log. It also finds an output that no block has created yet, and a spent coin for as long as a
row of it is in flight or on disk.
-/

namespace BlvmNode

open Option

variable {K V : Type} [LinearOrder K] {st : IbdUtxoStore K V}

theorem IbdUtxoStore.supplementUtxoMap_isSome {k : K} :
    (st.supplementUtxoMap k).isSome ↔
      (st.cache.get k).isSome ∨ (st.inFlight k).isSome ∨
        (st.disk k).isSome := by
  unfold supplementUtxoMap
  cases hcache : st.cache.get k with
  | some slot => simp
  | none => cases hflight : st.inFlight k <;> simp

open IbdUtxoStore

theorem IbdUtxoStore.Pinned.found {k : K} {height : ℕ}
    (hpinned : st.Pinned k height) : (st.supplementUtxoMap k).isSome := by
  obtain ⟨_, slot, hslot, _⟩ := hpinned
  exact supplementUtxoMap_isSome.mpr (.inl (by rw [hslot, isSome_some]))

variable {sys : LegacySystem K V} {k : K}

theorem LegacySystem.Held.found_of_utxo (hsys : sys.Held)
    (hk : (sys.ledger.utxo k).isSome) : (sys.store.supplementUtxoMap k).isSome := by
  obtain ⟨v, hv⟩ := isSome_iff_exists.mp hk
  rcases hsys.reachable k v hv with ⟨e, _, _, hpinned⟩ | ⟨_, hflight⟩ | hdisk
  · exact hpinned.found
  · exact supplementUtxoMap_isSome.mpr (.inr (.inl hflight))
  · refine supplementUtxoMap_isSome.mpr (.inr (.inr ?_))
    rw [hdisk, isSome_some]

/-- What is found beside the coin set: announced outputs, and spent coins that left a row. -/
theorem LegacySystem.Held.found_cases (hsys : sys.Held)
    (hk : (sys.store.supplementUtxoMap k).isSome) :
    (sys.ledger.utxo k).isSome ∨ sys.ledger.Announced k ∨
      k ∈ sys.ledger.spent ∧
        ((sys.store.inFlight k).isSome ∨ (sys.store.disk k).isSome) := by
  rcases supplementUtxoMap_isSome.mp hk with hcache | hrow
  · exact (hsys.cached k hcache).imp_right .inl
  · -- a row outside the cache was created, so it is a coin or it is spent
    have hcreated : (sys.ledger.created k).isSome := by
      rcases hrow with hflight | hdisk
      · exact hsys.inFlight k hflight
      · obtain ⟨v, hv⟩ := isSome_iff_exists.mp hdisk
        rw [hsys.disk k v hv, isSome_some]
    by_cases hspent : k ∈ sys.ledger.spent
    · exact .inr (.inr ⟨hspent, hrow⟩)
    · left
      rw [Ledger.utxo, if_neg hspent]
      exact hcreated

theorem LegacySystem.Held.found_of_announced (hsys : sys.Held) (hk : sys.ledger.Announced k) :
    (sys.store.supplementUtxoMap k).isSome ∧ sys.ledger.utxo k = none := by
  obtain ⟨block, hblock, hmem⟩ := hk
  obtain ⟨hnone, hpinned⟩ := (hsys.announced block hblock).2 k hmem
  refine ⟨hpinned.found, ?_⟩
  rw [Ledger.utxo, hnone, ite_self]

/-- A query answers the coin set exactly when the outpoint is not waiting for its block and, once
spent, has no row left. -/
theorem LegacySystem.Held.answers_iff (hsys : sys.Held) :
    ((sys.store.supplementUtxoMap k).isSome ↔ (sys.ledger.utxo k).isSome) ↔
      ¬ sys.ledger.Announced k ∧ (k ∈ sys.ledger.spent →
        sys.store.inFlight k = none ∧ sys.store.disk k = none) := by
  constructor
  · intro hanswer
    refine ⟨fun hannounced => ?_, fun hspent => ?_⟩
    · obtain ⟨hfound, hnone⟩ := hsys.found_of_announced hannounced
      have hcoin := hanswer.mp hfound
      rw [hnone] at hcoin
      cases hcoin
    · have hlost : (sys.store.supplementUtxoMap k).isSome ≠ true := by
        rw [Ne, hanswer, Ledger.utxo, if_pos hspent]
        exact Bool.false_ne_true
      rw [Ne, supplementUtxoMap_isSome, not_or, not_or] at hlost
      exact ⟨not_isSome_iff_eq_none.mp hlost.2.1, not_isSome_iff_eq_none.mp hlost.2.2⟩
  · rintro ⟨hannounced, hclean⟩
    refine ⟨fun hfound => ?_, hsys.found_of_utxo⟩
    rcases hsys.found_cases hfound with hcoin | hwaiting | ⟨hspent, hrow⟩
    · exact hcoin
    · exact absurd hwaiting hannounced
    · obtain ⟨hflight, hdisk⟩ := hclean hspent
      rw [hflight, hdisk] at hrow
      simp at hrow

section Concrete

/-- Coin 7 is created and its row is written; a later block spends it. -/
def spendAfterFlush : List (LegacyStep ℕ ℕ) :=
  [.apply 1 ⟨[(7, 50)], []⟩ false, .drain .addsOnly, .flush 0 .addsOnly, .apply 2 ⟨[], [7]⟩ false]

def tombstoneFlushed : List (LegacyStep ℕ ℕ) :=
  spendAfterFlush ++ [.drain (.delsThrough 2 4), .flush 0 .delsOnly]

end Concrete

end BlvmNode
