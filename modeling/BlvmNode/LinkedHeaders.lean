import BlvmNode.HeaderSync

/-!
# When header download leaves a linked chain

The cursor moves while the headers of a reply are in the batch. A reply that breaks the chain after
its first header leaves the cursor above heights that have no row, and one stored over claimed
heights leaves it above rows it does not extend.
-/

namespace BlvmNode

open List SyncPosition

variable {rules : HeaderRules} {Addr : Type}

def HeaderSync.tipHeight (st : HeaderSync rules Addr) : ℕ := st.currentHeight - 1

section Orderly

variable {req : SyncRequest} {known : Set BlockHeader} {lo : ℕ} {headers : List BlockHeader}
  {pos : SyncPosition rules}

/-- The batch goes to heights that are free or hold its hashes, a cursor moved back lands on the
index at or below, and a chain break comes before anything is taken. -/
def SyncPosition.Orderly (req : SyncRequest) (pos : SyncPosition rules)
    (headers : List BlockHeader) : Prop :=
  match (pos.read req headers).2 with
  | .finished | .faulty => ∀ entry ∈ (pos.read req headers).1.batch, pos.store.Admits entry
  | .rewound =>
    (pos.read req headers).1.height ≤ pos.height ∧
      pos.store.heightIndex ((pos.read req headers).1.height - 1) =
        some (pos.read req headers).1.lastHash
  | .broken => (pos.read req headers).1.height = pos.height

section

variable {P : SyncPosition rules → Prop} {pos : SyncPosition rules}
  (htake : ∀ pos header, P pos → header ∈ known → header.prevBlockHash = pos.lastHash →
    pos.store.Admits (header, pos.height) →
    P ⟨pos.store.storeEntry (header, pos.height), pos.presync.note rules.toPowRules header,
      pos.height + 1, rules.headerHash header⟩)
include htake

theorem SyncPosition.batch_stable {entries : List (BlockHeader × ℕ)} (hpos : P pos)
    (hext : Extends rules pos.height pos.lastHash entries)
    (hknown : ∀ entry ∈ entries, entry.1 ∈ known)
    (hfree : ∀ entry ∈ entries, pos.store.Admits entry) :
    P ⟨pos.store.storeHeadersBatch entries, presyncAfter rules pos.presync entries,
      pos.height + entries.length, lastHashAfter rules pos.lastHash entries⟩ := by
  induction entries generalizing pos with
  | nil => exact hpos
  | cons entry rest ih =>
    obtain ⟨header, entryHeight⟩ := entry
    obtain ⟨hheight, hlink, hext⟩ := hext
    dsimp only at hheight
    subst hheight
    rw [forall_mem_cons] at hknown hfree
    have hrest := ih (htake pos header hpos hknown.1 hlink hfree.1) hext hknown.2
      fun other hother => (hfree.2 other hother).storeEntry hfree.1 (hext.heights other hother).ne'
    rw [length_cons, Nat.add_comm rest.length, ← Nat.add_assoc]
    exact hrest

theorem SyncPosition.after_stable (hpos : P pos)
    (hheaders : ∀ header ∈ headers, header ∈ known) (horderly : pos.Orderly req headers)
    (hback : ∀ presync height lastHash, (pos.read req headers).2 = .rewound → 0 < height →
      height ≤ pos.height → pos.store.heightIndex (height - 1) = some lastHash →
      P ⟨pos.store, presync, height, lastHash⟩) : P (pos.after req headers) := by
  obtain ⟨taken, hext, hmem, hcount, hcases⟩ :
      ReplyWalk.Takes rules ⟨pos.height, pos.lastHash, [], [], pos.presync⟩ headers
        (pos.read req headers) := walkHeaders_takes headers _
  unfold Orderly at horderly
  unfold after
  generalize pos.read req headers = result at hcount hcases horderly hback ⊢
  obtain ⟨walk, exit⟩ := result
  have hstored := batch_stable htake hpos hext fun entry hentry => hheaders _ (hmem entry hentry)
  cases exit with
  | finished | faulty =>
    obtain ⟨hbatch, hheight, hlast⟩ := hcases
    dsimp only at hbatch hheight hlast hcount horderly ⊢
    rw [hbatch] at horderly ⊢
    rw [hheight, hlast, hcount]
    exact hstored horderly
  | rewound => exact hback _ _ _ rfl hcases horderly.1 horderly.2
  | broken =>
    -- nothing was taken, so the cursor is where it was
    obtain ⟨hheight, hlast⟩ := hcases
    dsimp only at horderly hheight hlast hcount ⊢
    obtain rfl : taken = [] := eq_nil_of_length_eq_zero (by omega)
    rw [hheight, hlast, hcount]
    exact hpos

end

structure SyncPosition.OnIndex (known : Set BlockHeader) (lo : ℕ) (pos : SyncPosition rules) :
    Prop where
  within : pos.store.Within known
  anchored : Anchored pos.store lo pos.height pos.lastHash

theorem SyncPosition.OnIndex.take (hinj : Set.InjOn rules.headerHash known)
    {header : BlockHeader} (hpos : pos.OnIndex known lo)
    (hheader : header ∈ known) (hlink : header.prevBlockHash = pos.lastHash)
    (hfree : pos.store.Admits (header, pos.height)) (presync : HeadersPresync) :
    OnIndex known lo ⟨pos.store.storeEntry (header, pos.height), presync,
      pos.height + 1, rules.headerHash header⟩ :=
  ⟨hpos.within.storeEntry hheader, hpos.anchored.storeEntry hinj hpos.within hheader hlink hfree⟩

theorem SyncPosition.OnIndex.after (hinj : Set.InjOn rules.headerHash known)
    (hpos : pos.OnIndex known lo) (hheaders : ∀ header ∈ headers, header ∈ known)
    (horderly : pos.Orderly req headers) : (pos.after req headers).OnIndex known lo := by
  apply after_stable (fun pos header hpos hknown hlink hfree =>
    hpos.take hinj hknown hlink hfree _) hpos hheaders horderly
  intro presync height lastHash _ hzero hle hindex
  refine ⟨hpos.within, hzero, hindex, fun h hlo hlt => ?_⟩
  exact hpos.anchored.linked h hlo (hlt.trans_le hle)

theorem SyncPosition.OnIndex.enterLoop (hgenesis : rules.genesisHeader req.network ∈ known)
    {store : HeaderStore rules} (hstore : store.Within known) (peers : List Addr) :
    ∀ pos, (enterLoop req store peers).position? = some pos →
      pos.OnIndex known req.startHeight := by
  apply enterLoop_stable
  · exact fun st hst => ⟨within_startSync hgenesis hstore hst, anchored_startSync hst⟩
  · exact fun pos hpos => hpos.anchored.pos
  · exact fun pos header hpos hrow hlink => ⟨hpos.within, hpos.anchored.pass hrow hlink⟩

end Orderly

open SyncPosition

/-- If every reply read is orderly and the download returns `Ok`, every height up to the returned
tip has a stored header whose hash is in the height index and that names the hash below. -/
theorem header_sync_leaves_linked_chain [DecidableEq Addr] (req : SyncRequest)
    (store : HeaderStore rules) (peers : List Addr) (turns : List (PeerTurn Addr))
    (known : Set BlockHeader) (hinj : Set.InjOn rules.headerHash known)
    (hgenesis : rules.genesisHeader req.network ∈ known) (hstore : store.Within known)
    (hturns : ∀ turn ∈ turns, ∀ header ∈ turn.outcome.headers, header ∈ known)
    (horderly : GuardedRun.Guarded (syncTurn req)
      (replyGuard (SyncPosition.Orderly req)) (enterLoop req store peers) turns)
    (st : HeaderSync rules Addr) (hdone : downloadHeaders req store peers turns = .complete st)
    (h : ℕ) (hlo : req.startHeight ≤ h) (hhi : h ≤ st.tipHeight) :
    ∃ header, st.store.heightIndex h = some (rules.headerHash header) ∧
      st.store.headers (rules.headerHash header) = some header ∧
      (1 ≤ h → st.store.heightIndex (h - 1) = some header.prevBlockHash) := by
  have hpos : st.position.OnIndex known req.startHeight := by
    apply stable (fun pos headers hpos hknown hcond => hpos.after hinj hknown hcond)
      (OnIndex.enterLoop hgenesis hstore peers) hturns horderly
    change (downloadHeaders req store peers turns).position? = _
    rw [hdone]
    rfl
  have hheight : 0 < st.currentHeight := hpos.anchored.pos
  obtain ⟨header, hrow, hlink⟩ := hpos.anchored.linked h hlo (by
    change h < st.currentHeight
    rw [HeaderSync.tipHeight] at hhi
    omega)
  obtain ⟨hash, hindex, hheader⟩ := Option.bind_eq_some_iff.mp hrow
  have hkey := st.store.keyed hash header hheader
  subst hkey
  exact ⟨header, hindex, hheader, hlink⟩

section Concrete

def steadyRules : HeaderRules where
  toPowRules := nonceRules
  genesisHeader := fun _ => nonceHeader 1 0 1
  nextRequiredBits := fun _ height _ ancestor => (ancestor (height - 1)).map Prod.fst
  checkProofOfWork := fun _ => true

def regtestRequest : SyncRequest := ⟨.regtest, 0, 5, 3, 2000⟩

def quickReply (headers : List BlockHeader) : PeerTurn ℕ := ⟨[], .reply headers false, []⟩

def twoBlocks : HeaderStore steadyRules :=
  HeaderStore.empty.storeHeadersBatch [(nonceHeader 2 1 1, 1), (nonceHeader 3 2 1, 2)]

def fiveHeaders : List BlockHeader :=
  [nonceHeader 1 0 1, nonceHeader 2 1 1, nonceHeader 3 2 1, nonceHeader 4 3 1, nonceHeader 5 4 1]

theorem within_twoBlocks : twoBlocks.Within {header | header ∈ fiveHeaders} := by
  apply HeaderStore.within_storeHeadersBatch
  change ∀ entry : _ × ℕ, entry ∈ _ → entry.1 ∈ fiveHeaders
  decide

/-- A reply whose second header belongs nowhere moves the cursor above a dropped header, where an
empty reply ends the download. A reply that forks below the tip is stored above an old row it does
not extend. -/
theorem reply_leaves_cursor_off_index :
    (∃ st, downloadHeaders regtestRequest (HeaderStore.empty : HeaderStore steadyRules) [0]
        [quickReply [nonceHeader 2 1 1, nonceHeader 9 7 1], quickReply []] = .complete st ∧
      st.tipHeight = 1 ∧ st.store.heightIndex 1 = none) ∧
    ∃ st, downloadHeaders regtestRequest twoBlocks [0]
        [quickReply [nonceHeader 4 2 1], quickReply [nonceHeader 4 2 1, nonceHeader 5 4 1]] =
          .complete st ∧
      st.tipHeight = 3 ∧ st.store.heightIndex 2 = some 3 ∧
      st.store.headerAtHeight 3 = some (nonceHeader 5 4 1) :=
  ⟨⟨_, rfl, rfl, rfl⟩, ⟨_, rfl, rfl, rfl, rfl⟩⟩

theorem orderly_short : replyGuard (Orderly regtestRequest) (enterLoop regtestRequest twoBlocks [0])
      (quickReply [nonceHeader 4 3 1, nonceHeader 5 4 1]) := by
  have hstart : ∃ st, enterLoop regtestRequest twoBlocks [0] = .running st ∧
      st.store = (twoBlocks.storeHeader (nonceHeader 1 0 1)).storeHeight 0 1 ∧
      (st.position.read regtestRequest [nonceHeader 4 3 1, nonceHeader 5 4 1]).2 = .finished ∧
      (st.position.read regtestRequest [nonceHeader 4 3 1, nonceHeader 5 4 1]).1.batch =
        [(nonceHeader 4 3 1, 3), (nonceHeader 5 4 1, 4)] :=
    ⟨_, rfl, rfl, rfl, rfl⟩
  obtain ⟨st, hst, hstore, hend, hbatch⟩ := hstart
  rw [hst]
  change st.position.Orderly regtestRequest _
  unfold Orderly
  rw [hend, hbatch]
  change ∀ entry ∈ _, st.store.Admits entry
  rw [hstore]
  decide

/-- A short reply that extends the two stored blocks. -/
theorem header_sync_leaves_linked_chain_short : ∃ st, downloadHeaders regtestRequest twoBlocks [0]
        [quickReply [nonceHeader 4 3 1, nonceHeader 5 4 1]] = .complete st ∧ st.tipHeight = 4 ∧
      ∀ h, h ≤ 4 → ∃ header, st.store.heightIndex h = some (steadyRules.headerHash header) ∧
        st.store.headers (steadyRules.headerHash header) = some header ∧
        (1 ≤ h → st.store.heightIndex (h - 1) = some header.prevBlockHash) := by
  have hinj : Set.InjOn steadyRules.headerHash {header | header ∈ fiveHeaders} :=
    fun header hmem header' hmem' heq =>
      inj_on_of_nodup_map (l := fiveHeaders) (by decide) hmem hmem' heq
  have hturns : ∀ header ∈ [nonceHeader 4 3 1, nonceHeader 5 4 1], header ∈ fiveHeaders := by
    decide
  refine ⟨_, rfl, rfl, fun h hhi => header_sync_leaves_linked_chain regtestRequest twoBlocks [0]
    [quickReply [nonceHeader 4 3 1, nonceHeader 5 4 1]] {header | header ∈ fiveHeaders} hinj
    mem_cons_self within_twoBlocks (forall_mem_singleton.mpr hturns) ⟨orderly_short, trivial⟩
    _ rfl h (Nat.zero_le h) hhi⟩

end Concrete

end BlvmNode
