import BlvmNode.CompactBlocks

/-!
# Compact blocks are reconstructed without loss

Every stage of the reconstruction writes slots. Each slot is written with the transaction of the
block at its position, and the stages together write every slot.
-/

namespace BlvmNode

open List Option

variable {Header : Type} {shortTxId : Header → Hash → BitVec 64 → ShortTxId}

section Slots

def writeSlots (value : ℕ → Option SlotEntry) (slots : List (Option SlotEntry))
    (positions : List ℕ) : List (Option SlotEntry) :=
  positions.foldl (fun slots i => slots.set i (value i)) slots

variable {value : ℕ → Option SlotEntry} (slots : List (Option SlotEntry))

theorem length_writeSlots (positions : List ℕ) :
    (writeSlots value slots positions).length = slots.length := by
  induction positions generalizing slots with
  | nil => rfl
  | cons i positions ih => exact (ih _).trans length_set

theorem getElem?_writeSlots (positions : List ℕ) (i : ℕ) :
    (writeSlots value slots positions)[i]? =
      if i ∈ positions ∧ i < slots.length then some (value i) else slots[i]? := by
  induction positions generalizing slots with
  | nil => simp [writeSlots]
  | cons j positions ih =>
    have hstep : writeSlots value slots (j :: positions) =
        writeSlots value (slots.set j (value j)) positions := rfl
    rw [hstep, ih, length_set, getElem?_set]
    simp only [mem_cons]
    by_cases hij : j = i
    · subst hij
      by_cases hlen : j < slots.length <;> simp [hlen]
    · simp [hij, Ne.symm hij]

theorem placePrefilled_eq {n : ℕ} {prefilled : List (ℕ × SlotEntry)}
    (hvalue : ∀ p ∈ prefilled, p.1 < n ∧ value p.1 = some p.2) (slots : List (Option SlotEntry)) :
    placePrefilled n prefilled slots = .ok (writeSlots value slots (prefilled.map Prod.fst)) := by
  induction prefilled generalizing slots with
  | nil => rfl
  | cons p prefilled ih =>
    obtain ⟨⟨hlt, hp⟩, hrest⟩ := forall_mem_cons.mp hvalue
    obtain ⟨index, entry⟩ := p
    rw [placePrefilled, if_neg (not_le.mpr hlt), ih hrest, ← hp]
    rfl

theorem foldl_placeMatch_eq {compact : CompactBlock Header} {pool : List (Hash × SlotEntry)}
    {missing : List ℕ} {placed : List (ShortTxId × ℕ)}
    (hvalue : ∀ p ∈ placed, p.2 ∉ missing → ∃ entry, value p.2 = some entry ∧
      shortIdMatches shortTxId compact pool p.1 = [entry]) (slots : List (Option SlotEntry)) :
    placed.foldl (placeMatch shortTxId compact pool missing) slots = writeSlots value slots
        ((placed.map Prod.snd).filter (fun i => decide (i ∉ missing))) := by
  rw [writeSlots, foldl_filter, foldl_map]
  apply foldl_ext
  intro slots p hp
  rw [placeMatch]
  by_cases hmem : p.2 ∈ missing
  · rw [if_pos hmem, if_neg (by simpa using hmem)]
  · obtain ⟨entry, hentry, hmatches⟩ := hvalue p hp hmem
    rw [if_neg hmem, if_pos (by simpa using hmem), hmatches, hentry]
    rfl

theorem fillMissing_eq {witnesses : Option (List (List Witness))}
    {given : List (ℕ × RawTransaction × ℕ)} {slots : List (Option SlotEntry)}
    (hvalue : ∀ p ∈ given, p.1 < slots.length ∧
      value p.1 = some (p.2.1, witnesses.bind (fun all => all[p.2.2]?))) :
    fillMissing witnesses given slots = .ok (writeSlots value slots (given.map Prod.fst)) := by
  induction given generalizing slots with
  | nil => rfl
  | cons p given ih =>
    obtain ⟨⟨hlt, hp⟩, hrest⟩ := forall_mem_cons.mp hvalue
    obtain ⟨index, tx, i⟩ := p
    rw [fillMissing, if_neg (not_le.mpr hlt), ← hp, ih]
    · rfl
    · rwa [length_set]

theorem collectSlots_eq (entries : List SlotEntry) (start : ℕ) :
    collectSlots ((entries.map some).zipIdx start) =
      .ok (entries.map Prod.fst, entries.map slotStacks) := by
  induction entries generalizing start with
  | nil => rfl
  | cons entry entries ih =>
    rw [map_cons, zipIdx_cons, collectSlots, ih]
    rfl

end Slots

section Missing

variable {compact : CompactBlock Header} {pool : List (Hash × SlotEntry)}

theorem reconstructStep_cases (acc : List RawTransaction × List ℕ) (placed : ShortTxId × ℕ) :
    (reconstructStep shortTxId compact pool acc placed).2 = acc.2 ++ [placed.2] ∨
    ((reconstructStep shortTxId compact pool acc placed).2 = acc.2 ∧
      ∃ entry, shortIdMatches shortTxId compact pool placed.1 = [entry]) := by
  rw [reconstructStep]
  split
  next entry hmatches =>
    split_ifs
    · exact .inl rfl
    · exact .inr ⟨rfl, entry, hmatches⟩
  · exact .inl rfl

theorem foldl_reconstructStep (placed : List (ShortTxId × ℕ)) (acc : List RawTransaction × List ℕ) :
    ∃ missing, (placed.foldl (reconstructStep shortTxId compact pool) acc).2 = acc.2 ++ missing ∧
      missing.Sublist (placed.map Prod.snd) ∧
      ∀ p ∈ placed, p.2 ∉ missing →
        ∃ entry, shortIdMatches shortTxId compact pool p.1 = [entry] := by
  induction placed generalizing acc with
  | nil => exact ⟨[], by simp, Sublist.refl _, by simp⟩
  | cons p placed ih =>
    obtain ⟨missing, hfold, hsub, hmatch⟩ := ih (reconstructStep shortTxId compact pool acc p)
    rw [foldl_cons, map_cons]
    rcases reconstructStep_cases acc p with hadd | ⟨hkeep, entry, hentry⟩
    · refine ⟨p.2 :: missing, by rw [hfold, hadd, append_assoc, singleton_append],
        hsub.cons_cons _, forall_mem_cons.mpr ⟨fun hnot => absurd mem_cons_self hnot, ?_⟩⟩
      exact fun q hq hnot => hmatch q hq (fun hmem => hnot (mem_cons_of_mem _ hmem))
    · exact ⟨missing, by rw [hfold, hkeep], hsub.cons _,
        forall_mem_cons.mpr ⟨fun _ => ⟨entry, hentry⟩, hmatch⟩⟩

end Missing

section Created

variable {hashes : TxHashes} {block : FullBlock Header} {stackLists : List (List Witness)}
  {nonce : BitVec 64} {prefilled : Finset ℕ}

variable (shortTxId hashes block stackLists nonce prefilled) in
def compactOf : CompactBlock Header :=
  createCompactBlock shortTxId hashes block nonce prefilled (stackLists.map some)

variable (block prefilled) in
def sentShort : List (RawTransaction × ℕ) :=
  block.transactions.zipIdx.filter (fun entry => decide (entry.2 ∉ prefilled))

variable (shortTxId hashes block stackLists nonce) in
def shortIdOf (entry : RawTransaction × ℕ) : ShortTxId :=
  shortTxId block.header (calculateWtxid hashes entry.1 stackLists[entry.2]?) nonce

theorem join_getElem?_map_some (i : ℕ) : ((stackLists.map some)[i]?).join = stackLists[i]? := by
  rw [getElem?_map]
  cases stackLists[i]? <;> rfl

theorem map_snd_filter (txs : List RawTransaction) (keep : ℕ → Bool) :
    (txs.zipIdx.filter (fun entry => keep entry.2)).map Prod.snd =
      (List.range txs.length).filter keep := by
  have hrange : (range txs.length) = txs.zipIdx.map Prod.snd := by
    rw [zipIdx_map_snd, range_eq_range']
  rw [hrange, List.filter_map]
  rfl

theorem prefilledIndices_compactOf :
    prefilledIndices (compactOf shortTxId hashes block stackLists nonce prefilled) =
      (range block.transactions.length).filter (fun i => decide (i ∈ prefilled)) := by
  rw [← map_snd_filter]
  simp [prefilledIndices, compactOf, createCompactBlock]

theorem map_snd_sentShort : (sentShort block prefilled).map Prod.snd =
    (range block.transactions.length).filter (fun i => decide (i ∉ prefilled)) :=
  map_snd_filter _ (fun i => decide (i ∉ prefilled))

theorem placedShortIds_compactOf :
    placedShortIds (compactOf shortTxId hashes block stackLists nonce prefilled) =
      (sentShort block prefilled).map
        (fun entry => (shortIdOf shortTxId hashes block stackLists nonce entry, entry.2)) := by
  have hids : (compactOf shortTxId hashes block stackLists nonce prefilled).shortIds =
      (sentShort block prefilled).map (shortIdOf shortTxId hashes block stackLists nonce) := by
    simp only [compactOf, createCompactBlock, join_getElem?_map_some]
    rfl
  have hkeep : (range block.transactions.length).filter (fun i => decide (i ∉
      prefilledIndices (compactOf shortTxId hashes block stackLists nonce prefilled))) =
      (sentShort block prefilled).map Prod.snd := by
    rw [map_snd_sentShort, prefilledIndices_compactOf]
    apply filter_congr
    intro i hi
    simp [mem_range.mp hi]
  have hpositions := shortIdPositions_eq
    (prefilledIndices (compactOf shortTxId hashes block stackLists nonce prefilled))
    block.transactions.length 0
  rw [← range_eq_range', hkeep, length_map] at hpositions
  rw [placedShortIds, hids, length_map, hpositions, zip_map']

theorem length_compactOf :
    (compactOf shortTxId hashes block stackLists nonce prefilled).shortIds.length +
      (compactOf shortTxId hashes block stackLists nonce prefilled).prefilledTxs.length =
      block.transactions.length := by
  have hsplit := length_eq_length_filter_add (l := block.transactions.zipIdx)
    (fun entry => decide (entry.2 ∈ prefilled))
  simp only [compactOf, createCompactBlock, length_map]
  rw [length_zipIdx] at hsplit
  simp only [← decide_not] at hsplit
  omega

end Created

section Lists

section

variable {α β : Type*} {f : α → Option β} {l : List α} (hsome : ∀ a ∈ l, (f a).isSome = true)
include hsome

theorem map_some_filterMap : (l.filterMap f).map some = l.map f := by
  rw [map_filterMap_some_eq_filter_map_isSome, List.filter_eq_self]
  exact forall_mem_map.mpr hsome

theorem getElem?_filterMap_of_isSome (k : ℕ) : (l.filterMap f)[k]? = (l[k]?).bind f := by
  have hget := congrArg (fun values => (values[k]?).bind id) (map_some_filterMap hsome)
  simpa [bind_map] using hget

end

end Lists

section Lossless

variable (shortTxId) (hashes : TxHashes) (block : FullBlock Header)
  (stackLists : List (List Witness)) (nonce : BitVec 64) (prefilled : Finset ℕ)
  (pool : List (Hash × SlotEntry))

structure StackPerInput : Prop where
  length : stackLists.length = block.transactions.length
  inputs : ∀ (i : ℕ) tx wits, block.transactions[i]? = some tx → stackLists[i]? = some wits →
    wits.length = tx.inputs.length

def blockWtxids : Set Hash :=
  {h | ∃ (i : ℕ) (tx : RawTransaction), block.transactions[i]? = some tx ∧
    h = calculateWtxid hashes tx stackLists[i]?}

/-- The pool is keyed by witness id, and a witness id of the block names the block's own
transaction. -/
structure PoolKeyed : Prop where
  keyed : ∀ row ∈ pool, row.1 = calculateWtxid hashes row.2.1 row.2.2
  names : ∀ (i : ℕ) tx, block.transactions[i]? = some tx → ∀ row ∈ pool,
    calculateWtxid hashes tx stackLists[i]? = calculateWtxid hashes row.2.1 row.2.2 →
      row.2.1 = tx ∧ slotStacks row.2 = slotStacks (tx, stackLists[i]?)

variable {shortTxId hashes block stackLists nonce prefilled pool}

variable {i : ℕ} {tx : RawTransaction} {assembly : CompactAssembly Header} {wits : List Witness}
  {entry : SlotEntry}

theorem slotStacks_some
    (hwits : stackLists[i]? = some wits) : slotStacks (tx, stackLists[i]?) = wits := by
  rw [slotStacks, hwits]
  rfl

theorem slotStacks_filter (hstacks : StackPerInput block stackLists)
    (htx : block.transactions[i]? = some tx) (hwits : stackLists[i]? = some wits) :
    slotStacks (tx, (stackLists[i]?).filter hasWitness) = wits := by
  rw [slotStacks, hwits, filter_some]
  split_ifs with hhas
  · rfl
  · have hempty : ∀ stack ∈ wits, stack = [] := by
      intro stack hstack
      rw [hasWitness, List.any_eq_true] at hhas
      by_contra hne
      refine hhas ⟨stack, hstack, ?_⟩
      simpa using hne
    rw [getD_none, map_const', ← hstacks.inputs i tx wits htx hwits]
    exact (eq_replicate_of_mem hempty).symm

theorem match_names (hpool : PoolKeyed hashes block stackLists pool)
    (hinj : Set.InjOn (fun h => shortTxId block.header h nonce)
      (blockWtxids hashes block stackLists ∪ {h | h ∈ pool.map Prod.fst}))
    (htx : block.transactions[i]? = some tx)
    (hmatch : shortIdMatches shortTxId (compactOf shortTxId hashes block stackLists nonce prefilled)
      pool (shortIdOf shortTxId hashes block stackLists nonce (tx, i)) = [entry]) :
    entry.1 = tx ∧ slotStacks entry = slotStacks (tx, stackLists[i]?) := by
  have hmem := mem_singleton_self entry
  rw [← hmatch] at hmem
  obtain ⟨row, hrow, rfl⟩ := mem_map.mp hmem
  obtain ⟨hin, hshort⟩ := mem_filter.mp hrow
  have hkey : row.1 = calculateWtxid hashes tx stackLists[i]? := by
    apply hinj
    · exact .inr (mem_map.mpr ⟨row, hin, rfl⟩)
    · exact .inl ⟨i, tx, htx, rfl⟩
    · exact of_decide_eq_true hshort
  apply hpool.names i tx htx row hin
  rw [← hkey]
  exact hpool.keyed row hin

/-- What a short id or a prefilled entry puts into a slot is the transaction of the block. -/
structure SlotsAgree (block : FullBlock Header) (stackLists : List (List Witness))
    (slots : List (Option SlotEntry)) : Prop where
  length : slots.length = block.transactions.length
  entries : ∀ (i : ℕ) entry tx wits, slots[i]? = some (some entry) →
    block.transactions[i]? = some tx → stackLists[i]? = some wits →
      entry.1 = tx ∧ slotStacks entry = wits

theorem SlotsAgree.write {slots : List (Option SlotEntry)} {value : ℕ → Option SlotEntry}
    {positions : List ℕ} (hslots : SlotsAgree block stackLists slots)
    (hvalue : ∀ i ∈ positions, ∀ entry tx wits, value i = some entry →
      block.transactions[i]? = some tx → stackLists[i]? = some wits →
        entry.1 = tx ∧ slotStacks entry = wits) :
    SlotsAgree block stackLists (writeSlots value slots positions) where
  length := (length_writeSlots slots positions).trans hslots.length
  entries := by
    intro i entry tx wits hget htx hwits
    rw [getElem?_writeSlots] at hget
    split_ifs at hget with hwritten
    · exact hvalue i hwritten.1 entry tx wits (some.inj hget) htx hwits
    · exact hslots.entries i entry tx wits hget htx hwits

theorem completed_of_agree (hstacks : StackPerInput block stackLists)
    (hheader : assembly.header = block.header) (hslots : SlotsAgree block stackLists assembly.slots)
    (hfull : ∀ i < block.transactions.length, assembly.slots[i]? ≠ some none) :
    completedCompactBlock assembly = .ok (block, stackLists) := by
  have hsome : ∀ slot ∈ assembly.slots, slot.isSome := by
    intro slot hslot
    obtain ⟨i, hi⟩ := List.mem_iff_getElem?.mp hslot
    obtain ⟨hlt, _⟩ := List.getElem?_eq_some_iff.mp hi
    cases slot with
    | some entry => rfl
    | none => exact absurd hi (hfull i (hslots.length ▸ hlt))
  obtain ⟨entries, hentries⟩ : ∃ entries : List SlotEntry, assembly.slots = entries.map some :=
    ⟨_, ((map_some_filterMap hsome).trans (List.map_id _)).symm⟩
  have hlen : entries.length = block.transactions.length := by
    rw [← hslots.length, hentries, length_map]
  have hagree : ∀ i (hi : i < entries.length) (htx : i < block.transactions.length)
      (hwits : i < stackLists.length),
      entries[i].1 = block.transactions[i] ∧ slotStacks entries[i] = stackLists[i] := by
    intro i hi htx hwits
    apply hslots.entries i _ _ _ _ (getElem?_eq_getElem htx) (getElem?_eq_getElem hwits)
    rw [hentries, getElem?_map, getElem?_eq_getElem hi, map_some]
  have htxs : entries.map Prod.fst = block.transactions := by
    apply ext_getElem
    · rw [length_map, hlen]
    · intro i _ htx
      rw [getElem_map]
      exact (hagree i (hlen ▸ htx) htx (hstacks.length ▸ htx)).1
  have hwitnesses : entries.map slotStacks = stackLists := by
    apply ext_getElem
    · rw [length_map, hlen, hstacks.length]
    · intro i _ hwits
      have htx : i < block.transactions.length := hstacks.length ▸ hwits
      rw [getElem_map]
      exact (hagree i (hlen ▸ htx) htx hwits).2
  rw [completedCompactBlock, hentries, collectSlots_eq, htxs, hwitnesses]
  dsimp only
  rw [hheader]

variable (block stackLists) in
def prefilledValue (i : ℕ) : Option SlotEntry :=
  (block.transactions[i]?).map (fun tx => (tx, (stackLists[i]?).filter hasWitness))

variable (shortTxId hashes block stackLists nonce prefilled pool) in
def poolValue (i : ℕ) : Option SlotEntry :=
  (block.transactions[i]?).bind fun tx =>
    (shortIdMatches shortTxId (compactOf shortTxId hashes block stackLists nonce prefilled) pool
      (shortIdOf shortTxId hashes block stackLists nonce (tx, i))).head?

theorem prefilledTxs_value : ∀ p ∈ (compactOf shortTxId hashes block stackLists nonce
    prefilled).prefilledTxs, p.1 < block.transactions.length ∧
      prefilledValue block stackLists p.1 = some p.2 := by
  intro p hp
  simp only [compactOf, createCompactBlock, join_getElem?_map_some] at hp
  obtain ⟨entry, hentry, rfl⟩ := mem_map.mp hp
  have htx := mem_zipIdx_iff_getElem?.mp (mem_filter.mp hentry).1
  refine ⟨(List.getElem?_eq_some_iff.mp htx).1, ?_⟩
  rw [prefilledValue, htx, map_some]

theorem placed_value {p : ShortTxId × ℕ}
    (hp : p ∈ placedShortIds (compactOf shortTxId hashes block stackLists nonce prefilled))
    (hentry : shortIdMatches shortTxId
      (compactOf shortTxId hashes block stackLists nonce prefilled) pool p.1 = [entry]) :
    poolValue shortTxId hashes block stackLists nonce prefilled pool p.2 = some entry := by
  rw [placedShortIds_compactOf] at hp
  obtain ⟨sent, hsent, rfl⟩ := mem_map.mp hp
  have htx := mem_zipIdx_iff_getElem?.mp (mem_filter.mp hsent).1
  rw [poolValue, htx, bind_some, hentry, head?_cons]

theorem placed_of_free (htx : block.transactions[i]? = some tx)
    (hfree : i ∉ prefilled) : (shortIdOf shortTxId hashes block stackLists nonce (tx, i), i) ∈
      placedShortIds (compactOf shortTxId hashes block stackLists nonce prefilled) := by
  rw [placedShortIds_compactOf]
  refine mem_map.mpr ⟨(tx, i), mem_filter.mpr ⟨?_, decide_eq_true hfree⟩, rfl⟩
  exact mem_zipIdx_iff_getElem?.mpr htx

theorem map_snd_placedShortIds :
    (placedShortIds (compactOf shortTxId hashes block stackLists nonce prefilled)).map Prod.snd =
      (List.range block.transactions.length).filter (fun i => decide (i ∉ prefilled)) := by
  rw [placedShortIds_compactOf, List.map_map, ← map_snd_sentShort]
  rfl

theorem beginCompactAssembly_spec (hstacks : StackPerInput block stackLists)
    (hpool : PoolKeyed hashes block stackLists pool)
    (hinj : Set.InjOn (fun h => shortTxId block.header h nonce)
      (blockWtxids hashes block stackLists ∪ {h | h ∈ pool.map Prod.fst})) :
    ∃ assembly, beginCompactAssembly shortTxId
        (compactOf shortTxId hashes block stackLists nonce prefilled) pool = .ok assembly ∧
      assembly.header = block.header ∧ SlotsAgree block stackLists assembly.slots ∧
      assembly.missing.Pairwise (· < ·) ∧
      ∀ i, i ∈ assembly.missing ↔ assembly.slots[i]? = some none := by
  obtain ⟨missing, hfold, hsub, hmatch⟩ := @foldl_reconstructStep Header shortTxId
    (compactOf shortTxId hashes block stackLists nonce prefilled) pool
    (placedShortIds (compactOf shortTxId hashes block stackLists nonce prefilled)) ([], [])
  have hmissing : reconstructBlock shortTxId
      (compactOf shortTxId hashes block stackLists nonce prefilled) pool = missing := hfold
  rw [map_snd_placedShortIds] at hsub
  have hmatched : ∀ i tx, block.transactions[i]? = some tx → i ∉ prefilled → i ∉ missing →
      ∃ entry, poolValue shortTxId hashes block stackLists nonce prefilled pool i = some entry ∧
        entry.1 = tx ∧ slotStacks entry = slotStacks (tx, stackLists[i]?) := by
    intro i tx htx hfree hnot
    obtain ⟨entry, hentry⟩ := hmatch _ (placed_of_free htx hfree) hnot
    exact ⟨entry, placed_value (placed_of_free htx hfree) hentry, match_names hpool hinj htx hentry⟩
  set n := block.transactions.length with hn
  set first := writeSlots (prefilledValue block stackLists) (replicate n none)
    ((range n).filter (fun i => decide (i ∈ prefilled))) with hfirst
  set second := writeSlots (poolValue shortTxId hashes block stackLists nonce prefilled pool) first
    (((range n).filter (fun i => decide (i ∉ prefilled))).filter
      (fun i => decide (i ∉ missing))) with hsecond
  refine ⟨⟨block.header, nonce, second, missing⟩, ?_, rfl, ?_,
    pairwise_lt_range.sublist (hsub.trans filter_sublist), ?_⟩
  · rw [beginCompactAssembly, length_compactOf, placePrefilled_eq prefilledTxs_value, hmissing]
    dsimp only
    rw [foldl_placeMatch_eq fun p hp hnot => (hmatch p hp hnot).imp
      fun entry hentry => ⟨placed_value hp hentry, hentry⟩, map_snd_placedShortIds]
    have hindices := @prefilledIndices_compactOf _ shortTxId hashes block stackLists nonce prefilled
    rw [prefilledIndices] at hindices
    rw [hindices]
    rfl
  · have hempty : SlotsAgree block stackLists (replicate n none) := by
      refine ⟨length_replicate, fun i entry tx wits hget => ?_⟩
      rw [getElem?_replicate] at hget
      split_ifs at hget
      cases hget
    apply SlotsAgree.write
    · apply hempty.write
      intro i _ entry tx wits hentry htx hwits
      rw [prefilledValue, htx, map_some, some.injEq] at hentry
      subst hentry
      exact ⟨rfl, slotStacks_filter hstacks htx hwits⟩
    · intro i hi entry tx wits hentry htx hwits
      simp only [mem_filter, decide_eq_true_eq] at hi
      obtain ⟨entry', hentry', htx', hwits'⟩ := hmatched i tx htx hi.1.2 hi.2
      rw [hentry', some.injEq] at hentry
      subst hentry
      exact ⟨htx', hwits'.trans (slotStacks_some hwits)⟩
  · intro i
    have hlen : first.length = n := (length_writeSlots _ _).trans length_replicate
    have hfree : i ∈ missing → i < n ∧ i ∉ prefilled := by
      intro hi
      obtain ⟨hrange, hnot⟩ := mem_filter.mp (hsub.subset hi)
      exact ⟨mem_range.mp hrange, of_decide_eq_true hnot⟩
    dsimp only
    rw [hsecond, getElem?_writeSlots, hlen, hfirst, getElem?_writeSlots, length_replicate]
    simp only [mem_filter, mem_range, decide_eq_true_eq, getElem?_replicate]
    by_cases hlt : i < n
    · have htx := getElem?_eq_getElem hlt
      by_cases hpre : i ∈ prefilled
      · simp only [hlt, hpre, not_true, and_false, false_and, if_false, and_self, if_true,
          prefilledValue, htx, map_some]
        exact ⟨fun hi => absurd hpre (hfree hi).2, fun hnone => by cases hnone⟩
      · by_cases hmiss : i ∈ missing
        · simp [hlt, hpre, hmiss]
        · obtain ⟨entry, hentry, _⟩ := hmatched i _ htx hpre hmiss
          simp [hlt, hpre, hmiss, hentry]
    · have hmiss : i ∉ missing := fun hi => hlt (hfree hi).1
      simp [hlt, hmiss]

theorem applyBlocktxn_spec (hstacks : StackPerInput block stackLists)
    (hslots : SlotsAgree block stackLists assembly.slots)
    (hmissing : ∀ i, i ∈ assembly.missing ↔ assembly.slots[i]? = some none) :
    ∃ filled, applyBlocktxn assembly (assembly.missing.filterMap (fun i => block.transactions[i]?))
        (some (assembly.missing.filterMap (fun i => stackLists[i]?))) = .ok filled ∧
      filled.header = assembly.header ∧ SlotsAgree block stackLists filled.slots ∧
      ∀ i < block.transactions.length, filled.slots[i]? ≠ some none := by
  have hlt : ∀ i ∈ assembly.missing, i < block.transactions.length := by
    intro i hi
    rw [← hslots.length]
    exact (List.getElem?_eq_some_iff.mp ((hmissing i).mp hi)).1
  have htxs : ∀ i ∈ assembly.missing, (block.transactions[i]?).isSome := by
    intro i hi
    rw [getElem?_eq_getElem (hlt i hi)]
    rfl
  have hwits : ∀ i ∈ assembly.missing, (stackLists[i]?).isSome := by
    intro i hi
    rw [getElem?_eq_getElem (hstacks.length.symm ▸ hlt i hi)]
    rfl
  set given := assembly.missing.zip
    (assembly.missing.filterMap (fun i => block.transactions[i]?)).zipIdx with hgiven
  have hfirst : given.map Prod.fst = assembly.missing := by
    apply map_fst_zip
    rw [length_zipIdx, filterMap_length_eq_length.mpr htxs]
  have hvalue : ∀ p ∈ given, p.1 < assembly.slots.length ∧
      (block.transactions[p.1]?).map (fun tx => (tx, stackLists[p.1]?)) = some (p.2.1,
        (some (assembly.missing.filterMap (fun i => stackLists[i]?))).bind
          (fun all => all[p.2.2]?)) := by
    intro p hp
    obtain ⟨k, hk⟩ := mem_iff_getElem?.mp hp
    obtain ⟨hindex, hentry⟩ := getElem?_zip_eq_some.mp hk
    rw [getElem?_zipIdx, map_eq_some_iff, Nat.zero_add] at hentry
    obtain ⟨tx, htx, hpair⟩ := hentry
    rw [getElem?_filterMap_of_isSome htxs, hindex, bind_some] at htx
    have hmem : p.1 ∈ assembly.missing := mem_of_getElem? hindex
    refine ⟨hslots.length ▸ hlt p.1 hmem, ?_⟩
    rw [htx, map_some, ← hpair, bind_some, getElem?_filterMap_of_isSome hwits, hindex, bind_some]
  have hfill := @fillMissing_eq
    (fun i => (block.transactions[i]?).map (fun tx => (tx, stackLists[i]?))) _ _ _ hvalue
  rw [applyBlocktxn, if_neg (by rw [filterMap_length_eq_length.mpr htxs]; exact not_not.mpr rfl),
    ← hgiven, hfill, hfirst]
  refine ⟨_, rfl, rfl, hslots.write ?_, ?_⟩
  · intro i _ entry tx wits hentry htx hwits
    rw [htx, map_some, some.injEq] at hentry
    subst hentry
    exact ⟨rfl, slotStacks_some hwits⟩
  · intro i hi
    dsimp only
    rw [getElem?_writeSlots, hslots.length]
    split_ifs with hwritten
    · rw [getElem?_eq_getElem hi, map_some]
      exact fun hnone => by cases hnone
    · intro hnone
      exact hwritten ⟨(hmissing i).mpr hnone, hi⟩

end Lossless

/-- Assembling a compact block with the pool and filling it from the answer gives back the block and
its witnesses; the request names exactly the positions left open. -/
theorem compact_block_lossless (shortTxId : Header → Hash → BitVec 64 → ShortTxId)
    (hashes : TxHashes) (block : FullBlock Header) (stackLists : List (List Witness))
    (nonce : BitVec 64) (prefilled : Finset ℕ) (pool : List (Hash × SlotEntry))
    (hstacks : StackPerInput block stackLists) (hpool : PoolKeyed hashes block stackLists pool)
    (hinj : Set.InjOn (fun h => shortTxId block.header h nonce)
      (blockWtxids hashes block stackLists ∪ {h | h ∈ pool.map Prod.fst})) :
    ∃ assembly filled,
      beginCompactAssembly shortTxId (createCompactBlock shortTxId hashes block nonce prefilled
        (stackLists.map some)) pool = .ok assembly ∧
      assembly.missing.Pairwise (· < ·) ∧
      (∀ i, i ∈ assembly.missing ↔ assembly.slots[i]? = some none) ∧
      applyBlocktxn assembly (assembly.missing.filterMap (fun i => block.transactions[i]?))
        (some (assembly.missing.filterMap (fun i => stackLists[i]?))) = .ok filled ∧
      completedCompactBlock filled = .ok (block, stackLists) := by
  obtain ⟨assembly, hbegin, hheader, hslots, hsorted, hmissing⟩ :=
    @beginCompactAssembly_spec _ shortTxId hashes block stackLists nonce prefilled pool hstacks
      hpool hinj
  obtain ⟨filled, hfilled, hsame, hagree, hfull⟩ := applyBlocktxn_spec hstacks hslots hmissing
  exact ⟨assembly, filled, hbegin, hsorted, hmissing, hfilled,
    completed_of_agree hstacks (hsame.trans hheader) hagree hfull⟩

section Concrete

def lockHashes : TxHashes where
  calculateTxId tx := BitVec.ofNat 256 tx.lockTime
  witnessHash tx _ := some (BitVec.ofNat 256 (tx.lockTime + 1000))

def lowShortId (_ : Unit) (h : Hash) (_ : BitVec 64) : ShortTxId := h.setWidth 48

def oneInput (id : ℕ) : RawTransaction := ⟨2, [⟨⟨BitVec.ofNat 256 id, 7#32⟩, [], 0⟩], [], id⟩

/-- The first transaction has a witness, is prefilled; the second is pooled; the third is asked
for. -/
theorem compact_block_lossless_three :
    ∃ assembly filled, beginCompactAssembly lowShortId (createCompactBlock lowShortId lockHashes
        ⟨(), [oneInput 1, oneInput 2, oneInput 3]⟩ 5#64 {0}
        ([[[[1#8]]], [[]], [[]]].map some)) [(2#256, oneInput 2, none)] = .ok assembly ∧
      assembly.missing.Pairwise (· < ·) ∧
      (∀ i, i ∈ assembly.missing ↔ assembly.slots[i]? = some none) ∧
      applyBlocktxn assembly (assembly.missing.filterMap
          (fun i => [oneInput 1, oneInput 2, oneInput 3][i]?)) (some (assembly.missing.filterMap
          (fun i => ([[[[1#8]]], [[]], [[]]] : List (List Witness))[i]?))) = .ok filled ∧
      completedCompactBlock filled = .ok (⟨(), [oneInput 1, oneInput 2, oneInput 3]⟩,
        [[[[1#8]]], [[]], [[]]]) := by
  apply compact_block_lossless lowShortId lockHashes ⟨(), [oneInput 1, oneInput 2, oneInput 3]⟩
    [[[[1#8]]], [[]], [[]]] 5#64 {0} [(2#256, oneInput 2, none)]
  · refine ⟨rfl, fun i tx wits htx hwits => ?_⟩
    match i with
    | 0 | 1 | 2 =>
      cases htx
      cases hwits
      rfl
    | i + 3 => cases htx
  · refine ⟨by decide, fun i tx htx row hrow hid => ?_⟩
    rw [mem_singleton] at hrow
    rw [hrow] at hid ⊢
    rcases i with _ | _ | _ | i
    · cases htx
      exact absurd hid (by decide)
    · cases htx
      exact ⟨rfl, rfl⟩
    · cases htx
      exact absurd hid (by decide)
    · cases htx
  · have hids : ∀ h ∈ blockWtxids lockHashes (⟨(), [oneInput 1, oneInput 2, oneInput 3]⟩ :
        FullBlock Unit) [[[[1#8]]], [[]], [[]]] ∪
        {h | h ∈ [((2#256 : Hash), ((oneInput 2, none) : SlotEntry))].map Prod.fst},
        h = 1001#256 ∨ h = 2#256 ∨ h = 3#256 := by
      rintro h (⟨i, tx, htx, rfl⟩ | hpool)
      · match i with
        | 0 | 1 | 2 =>
          cases htx
          decide
        | i + 3 => cases htx
      · have hkey : h ∈ [2#256] := hpool
        exact .inr (.inl (mem_singleton.mp hkey))
    intro a ha b hb hab
    rcases hids a ha with rfl | rfl | rfl <;> rcases hids b hb with rfl | rfl | rfl <;>
      first | rfl | exact absurd hab (by decide)

end Concrete

end BlvmNode
