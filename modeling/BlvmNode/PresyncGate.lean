import BlvmNode.LinkedHeaders
import Mathlib.Algebra.BigOperators.Group.Finset.Basic
import Mathlib.Algebra.Order.BigOperators.Group.Finset
import Mathlib.Data.Finset.Option

/-!
# When the pre-sync gate opens on stored work

The gate counts a header when the walk takes it and never takes a count back. While no reply drops
what it counted and none moves the cursor back, the counted headers are distinct rows of the height
index, so the count is at most their work.
-/

namespace BlvmNode

open List Option HeadersPresync

variable {rules : HeaderRules} {Addr : Type} {headers' headers : Finset BlockHeader}

def HeaderSync.mayAssign (st : HeaderSync rules Addr) : Bool := st.presync.releasesAssigner

/-- The distinct headers on the height index in a range of heights. -/
def HeaderStore.rows (store : HeaderStore rules) (lo height : ℕ) : Finset BlockHeader :=
  (Finset.Ico lo height).biUnion fun h => (store.headerAtHeight h).toFinset

open HeaderStore

def workOf (rules : PowRules) (headers : Finset BlockHeader) : ℕ :=
  ∑ header ∈ headers, calculateWorkFromBits rules header.bits

section Rows

variable {store : HeaderStore rules} {known : Set BlockHeader} {lo height : ℕ} {lastHash : Hash}
  {header : BlockHeader}

theorem HeaderStore.mem_rows :
    header ∈ store.rows lo height ↔
      ∃ h, lo ≤ h ∧ h < height ∧ store.headerAtHeight h = some header := by
  simp only [rows, Finset.mem_biUnion, Finset.mem_Ico, mem_toFinset, mem_def, and_assoc]

theorem workOf_mono (rules : PowRules)
    (hsub : headers ⊆ headers') : workOf rules headers ≤ workOf rules headers' :=
  Finset.sum_le_sum_of_subset hsub

/-- Along a linked chain the rank grows, so every row is at or below the last hash. -/
theorem Anchored.rank_le {rank : Hash → ℕ}
    (hrank : ∀ header ∈ known, rank header.prevBlockHash < rank (rules.headerHash header))
    (hstore : store.Within known) (hst : Anchored store lo height lastHash)
    (hrow : header ∈ store.rows lo height) : rank (rules.headerHash header) ≤ rank lastHash := by
  obtain ⟨h, hlo, hlt, hheader⟩ := mem_rows.mp hrow
  -- from the row to the cursor, one height at a time
  obtain ⟨gap, rfl⟩ : ∃ gap, height = h + 1 + gap := ⟨height - (h + 1), by omega⟩
  have hbelow := hst.below
  have hlinked := hst.linked
  clear hst hrow
  induction gap generalizing lastHash with
  | zero =>
    obtain ⟨hash, hindex, hrow⟩ := bind_eq_some_iff.mp hheader
    have hlast : hash = lastHash := by
      rw [Nat.add_zero, Nat.add_sub_cancel, hindex] at hbelow
      exact some.inj hbelow
    rw [store.keyed hash header hrow, hlast]
  | succ gap ih =>
    obtain ⟨next, hnext, hprev⟩ := hlinked (h + 1 + gap) (by omega) (by omega)
    have hbelow' := hprev (by omega)
    have hle := ih (by omega) hbelow' fun h' hlo' hlt' => hlinked h' hlo' (by omega)
    obtain ⟨hash, hindex, hrow⟩ := bind_eq_some_iff.mp hnext
    have hlast : hash = lastHash := by
      have htop : h + 1 + (gap + 1) - 1 = h + 1 + gap := by omega
      rw [htop, hindex] at hbelow
      exact some.inj hbelow
    have hstep := hrank next (hstore hash next hrow)
    rw [store.keyed hash next hrow, hlast] at hstep
    omega

theorem Anchored.notMem_rows (hacyclic : Acyclic rules.toPowRules known)
    (hstore : store.Within known) (hst : Anchored store lo height lastHash)
    (hheader : header ∈ known)
    (hlink : header.prevBlockHash = lastHash) : header ∉ store.rows lo height := by
  intro hrow
  obtain ⟨rank, hrank⟩ := hacyclic
  have hle := hst.rank_le hrank hstore hrow
  have hlt := hrank header hheader
  rw [hlink] at hlt
  omega

end Rows

section Counting

variable {req : SyncRequest} {known : Set BlockHeader} {lo minimum : ℕ} {pos : SyncPosition rules}
  {header : BlockHeader} {store : HeaderStore rules}

/-- The counted work is at most that of the rows below the cursor. -/
structure SyncPosition.Counted (known : Set BlockHeader) (lo minimum : ℕ)
    (pos : SyncPosition rules) : Prop where
  onIndex : pos.OnIndex known lo
  above : lo ≤ pos.height
  floor : pos.presync.minimum = minimum
  gated : pos.presync.Gated
  counted : pos.presync.work ≤ workOf rules.toPowRules (pos.store.rows lo pos.height)

theorem work_note_le {presync : HeadersPresync}
    (hcounted : presync.work ≤ workOf rules.toPowRules headers) (hnew : header ∉ headers)
    (hsub : insert header headers ⊆ headers') :
    (presync.note rules.toPowRules header).work ≤ workOf rules.toPowRules headers' := by
  have hinsert : workOf rules.toPowRules (insert header headers) =
      calculateWorkFromBits rules.toPowRules header.bits + workOf rules.toPowRules headers :=
    Finset.sum_insert hnew
  have hle := workOf_mono rules.toPowRules hsub
  rw [note_work, saturatingAdd]
  omega

section

variable (hacyclic : Acyclic rules.toPowRules known) (hfloor : minimum < 2 ^ 256)
include hacyclic hfloor

theorem SyncPosition.Counted.next (hpos : pos.Counted known lo minimum) (hheader : header ∈ known)
    (hlink : header.prevBlockHash = pos.lastHash) {hash : Hash}
    (hindex : SyncPosition.OnIndex known lo
      ⟨store, pos.presync.note rules.toPowRules header, pos.height + 1, hash⟩)
    (hself : store.headerAtHeight pos.height = some header)
    (hkept : ∀ h other, h < pos.height → pos.store.headerAtHeight h = some other →
      store.headerAtHeight h = some other) : SyncPosition.Counted known lo minimum
        ⟨store, pos.presync.note rules.toPowRules header, pos.height + 1, hash⟩ := by
  refine ⟨hindex, hpos.above.trans (Nat.le_succ _), note_minimum.trans hpos.floor,
    hpos.gated.note (hpos.floor ▸ hfloor), ?_⟩
  apply work_note_le hpos.counted
    (hpos.onIndex.anchored.notMem_rows hacyclic hpos.onIndex.within hheader hlink)
  intro other hother
  rw [mem_rows]
  rcases Finset.mem_insert.mp hother with rfl | hother
  · exact ⟨pos.height, hpos.above, Nat.lt_succ_self _, hself⟩
  · obtain ⟨h, hlo, hlt, hold⟩ := mem_rows.mp hother
    exact ⟨h, hlo, hlt.trans (Nat.lt_succ_self _), hkept h other hlt hold⟩

theorem SyncPosition.Counted.pass (hpos : pos.Counted known lo minimum)
    (hrow : pos.store.headerAtHeight pos.height = some header)
    (hlink : pos.store.heightIndex (pos.height - 1) = some header.prevBlockHash) :
    (pos.pass header).Counted known lo minimum := by
  have hanchored := hpos.onIndex.anchored
  have hheader : header ∈ known := by
    obtain ⟨hash, _, hheader⟩ := bind_eq_some_iff.mp hrow
    exact hpos.onIndex.within hash header hheader
  have hprev : header.prevBlockHash = pos.lastHash := by
    rw [hanchored.below] at hlink
    exact (some.inj hlink).symm
  exact hpos.next hacyclic hfloor hheader hprev
    ⟨hpos.onIndex.within, hanchored.pass hrow hlink⟩ hrow fun _ _ _ hold => hold

theorem SyncPosition.Counted.take (hinj : Set.InjOn rules.headerHash known)
    (hpos : pos.Counted known lo minimum) (hheader : header ∈ known)
    (hlink : header.prevBlockHash = pos.lastHash) (hfree : pos.store.Admits (header, pos.height)) :
    SyncPosition.Counted known lo minimum
      ⟨pos.store.storeEntry (header, pos.height), pos.presync.note rules.toPowRules header,
        pos.height + 1, rules.headerHash header⟩ :=
  hpos.next hacyclic hfloor hheader hlink (hpos.onIndex.take hinj hheader hlink hfree _)
    (headerAtHeight_storeEntry_self hfree) fun _ _ hlt hold =>
      headerAtHeight_storeEntry hinj hpos.onIndex.within hheader hfree hold hlt.ne

end

/-- The reply is orderly and does not move the cursor back. -/
def SyncPosition.Steady (req : SyncRequest) (pos : SyncPosition rules)
    (headers : List BlockHeader) : Prop :=
  pos.Orderly req headers ∧ (pos.read req headers).2 ≠ .rewound

theorem SyncPosition.Counted.after (hinj : Set.InjOn rules.headerHash known)
    (hacyclic : Acyclic rules.toPowRules known) (hfloor : minimum < 2 ^ 256)
    {headers : List BlockHeader} (hpos : pos.Counted known lo minimum)
    (hheaders : ∀ header ∈ headers, header ∈ known) (hsteady : pos.Steady req headers) :
    (pos.after req headers).Counted known lo minimum :=
  after_stable (fun _ _ hpos hknown hlink hfree =>
    hpos.take hacyclic hfloor hinj hknown hlink hfree) hpos hheaders hsteady.1
      fun _ _ _ hback => absurd hback hsteady.2

theorem minimumChainWork_lt (network : Network) : minimumChainWorkForNetwork network < 2 ^ 256 := by
  cases network <;> decide

theorem presync_startSync {peers : List Addr}
    {st : HeaderSync rules Addr} (h : startSync req store peers = some st) :
    st.presync = .new req.network ∧ req.startHeight ≤ st.currentHeight := by
  simp only [startSync] at h
  split_ifs at h with hzero
  · cases h
    rw [hzero]
    exact ⟨rfl, Nat.zero_le _⟩
  · obtain ⟨hash, _, rfl⟩ := map_eq_some_iff.mp h
    exact ⟨rfl, le_rfl⟩

theorem SyncPosition.Counted.enterLoop (hacyclic : Acyclic rules.toPowRules known)
    (hgenesis : rules.genesisHeader req.network ∈ known)
    (hstore : store.Within known) (peers : List Addr) :
    ∀ pos, (enterLoop req store peers).position? = some pos →
      pos.Counted known req.startHeight (minimumChainWorkForNetwork req.network) := by
  apply enterLoop_stable
  · intro st hst
    obtain ⟨hpresync, habove⟩ := presync_startSync hst
    refine ⟨⟨within_startSync hgenesis hstore hst, anchored_startSync hst⟩, habove, ?_, ?_, ?_⟩
    · change st.presync.minimum = _
      rw [hpresync]
      rfl
    · change st.presync.Gated
      rw [hpresync]
      exact gated_new req.network
    · change st.presync.work ≤ _
      rw [hpresync]
      exact Nat.zero_le _
  · exact fun pos hpos => hpos.onIndex.anchored.pos
  · exact fun pos header hpos hrow hlink =>
      hpos.pass hacyclic (minimumChainWork_lt req.network) hrow hlink

end Counting

open SyncPosition

/-- If every reply read is orderly and none moves the cursor back, a download that lets the assigner
run leaves a height index whose distinct headers up to the tip carry the chain-work floor. -/
theorem presync_gate_opens_on_stored_work [DecidableEq Addr] (req : SyncRequest)
    (store : HeaderStore rules) (peers : List Addr) (turns : List (PeerTurn Addr))
    (known : Set BlockHeader) (hinj : Set.InjOn rules.headerHash known)
    (hacyclic : Acyclic rules.toPowRules known)
    (hgenesis : rules.genesisHeader req.network ∈ known) (hstore : store.Within known)
    (hturns : ∀ turn ∈ turns, ∀ header ∈ turn.outcome.headers, header ∈ known)
    (hsteady : GuardedRun.Guarded (syncTurn req)
      (replyGuard (SyncPosition.Steady req)) (enterLoop req store peers) turns)
    (st : HeaderSync rules Addr) (hdone : downloadHeaders req store peers turns = .complete st)
    (hassign : st.mayAssign = true) : minimumChainWorkForNetwork req.network ≤
      workOf rules.toPowRules (st.store.rows 0 (st.tipHeight + 1)) := by
  have hfloor := minimumChainWork_lt req.network
  have hpos : st.position.Counted known req.startHeight
      (minimumChainWorkForNetwork req.network) := by
    apply stable
      (fun pos headers hpos hknown hcond => hpos.after hinj hacyclic hfloor hknown hcond)
      (Counted.enterLoop hacyclic hgenesis hstore peers) hturns hsteady
    change (downloadHeaders req store peers turns).position? = _
    rw [hdone]
    rfl
  have hopen : minimumChainWorkForNetwork req.network ≤ st.presync.work := by
    rw [← hpos.floor]
    exact hpos.gated (of_decide_eq_true hassign)
  have htip : st.tipHeight + 1 = st.currentHeight :=
    Nat.sub_add_cancel hpos.onIndex.anchored.pos
  rw [htip]
  refine hopen.trans (hpos.counted.trans (workOf_mono rules.toPowRules fun header hheader => ?_))
  obtain ⟨h, _, hlt, hrow⟩ := mem_rows.mp hheader
  exact mem_rows.mpr ⟨h, Nat.zero_le h, hlt, hrow⟩

section Concrete

/-- A compact target is a mantissa and an exponent of three or more; its proof is the expected
number of hashes. -/
def compactProof (bits : ℕ) : ℕ := 2 ^ 256 / (bits % 2 ^ 24 * 256 ^ (bits / 2 ^ 24 - 3) + 1)

def compactRules : HeaderRules where
  headerHash := nonceRules.headerHash
  getBlockProof := fun bits => some (compactProof bits)
  genesisHeader := fun _ => nonceHeader 1 0 0x1d00ffff
  nextRequiredBits := steadyRules.nextRequiredBits
  checkProofOfWork := steadyRules.checkProofOfWork

def mainnetRequest : SyncRequest := ⟨.mainnet, 0, 5, 3, 2000⟩

/-- A block of the lowest difficulty above genesis, and one of the highest above that. -/
def hardBlocks : HeaderStore compactRules :=
  HeaderStore.empty.storeHeadersBatch
    [(nonceHeader 2 1 0x1d00ffff, 1), (nonceHeader 3 2 0x03000001, 2)]

/-- The stored block of high difficulty opens the gate in the fast-forward; then the cursor is moved
back below it and an empty reply ends the download. -/
theorem rewound_work_opens_gate : ∃ st, downloadHeaders mainnetRequest hardBlocks [0]
        [quickReply [nonceHeader 4 2 0x1d00ffff], quickReply []] = .complete st ∧
      st.mayAssign = true ∧ st.tipHeight = 1 ∧
      workOf compactRules.toPowRules (st.store.rows 0 (st.tipHeight + 1)) <
        minimumChainWorkForNetwork .mainnet :=
  ⟨_, rfl, by decide +kernel, rfl, by decide +kernel⟩

def hardHeaders : List BlockHeader :=
  [nonceHeader 1 0 0x1d00ffff, nonceHeader 2 1 0x1d00ffff, nonceHeader 3 2 0x03000001,
    nonceHeader 4 3 0x03000001]

theorem within_hardBlocks : hardBlocks.Within {header | header ∈ hardHeaders} := by
  apply within_storeHeadersBatch
  change ∀ entry : _ × ℕ, entry ∈ _ → entry.1 ∈ hardHeaders
  decide

theorem acyclic_hardHeaders : Acyclic compactRules.toPowRules {header | header ∈ hardHeaders} := by
  refine ⟨BitVec.toNat, ?_⟩
  have hrank : ∀ header ∈ hardHeaders,
      header.prevBlockHash.toNat < (compactRules.headerHash header).toNat := by
    decide
  exact hrank

theorem steady_short : replyGuard (Steady mainnetRequest) (enterLoop mainnetRequest hardBlocks [0])
      (quickReply [nonceHeader 4 3 0x03000001]) := by
  have hstart : ∃ st, enterLoop mainnetRequest hardBlocks [0] = .running st ∧
      st.store = (hardBlocks.storeHeader (nonceHeader 1 0 0x1d00ffff)).storeHeight 0 1 ∧
      (st.position.read mainnetRequest [nonceHeader 4 3 0x03000001]).2 = .finished ∧
      (st.position.read mainnetRequest [nonceHeader 4 3 0x03000001]).1.batch =
        [(nonceHeader 4 3 0x03000001, 3)] :=
    ⟨_, rfl, rfl, rfl, rfl⟩
  obtain ⟨st, hst, hstore, hend, hbatch⟩ := hstart
  rw [hst]
  refine ⟨?_, ?_⟩
  · unfold Orderly
    rw [hend, hbatch]
    change ∀ entry ∈ _, st.store.Admits entry
    rw [hstore]
    decide
  · rw [hend]
    decide

/-- One more block of high difficulty. -/
theorem presync_gate_opens_on_stored_work_short :
    ∃ st, downloadHeaders mainnetRequest hardBlocks [0]
        [quickReply [nonceHeader 4 3 0x03000001]] = .complete st ∧ st.mayAssign = true ∧
      0 < minimumChainWorkForNetwork .mainnet ∧
      minimumChainWorkForNetwork .mainnet ≤
        workOf compactRules.toPowRules (st.store.rows 0 (st.tipHeight + 1)) := by
  have hinj : Set.InjOn compactRules.headerHash {header | header ∈ hardHeaders} :=
    fun header hmem header' hmem' heq =>
      inj_on_of_nodup_map (l := hardHeaders) (by decide) hmem hmem' heq
  have hturns : ∀ header ∈ [nonceHeader 4 3 0x03000001], header ∈ hardHeaders := by
    decide
  have hassign : ∃ st, downloadHeaders mainnetRequest hardBlocks [0]
      [quickReply [nonceHeader 4 3 0x03000001]] = .complete st ∧ st.mayAssign = true :=
    ⟨_, rfl, by decide +kernel⟩
  obtain ⟨st, hdone, hassign⟩ := hassign
  refine ⟨st, hdone, hassign, by decide, ?_⟩
  exact presync_gate_opens_on_stored_work mainnetRequest hardBlocks [0]
    [quickReply [nonceHeader 4 3 0x03000001]] {header | header ∈ hardHeaders} hinj
    acyclic_hardHeaders mem_cons_self within_hardBlocks
    (forall_mem_singleton.mpr hturns) ⟨steady_short, trivial⟩ st hdone hassign

end Concrete

end BlvmNode
