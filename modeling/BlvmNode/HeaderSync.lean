import BlvmNode.HeaderPresync
import BlvmNode.Lib.GuardedRun
import Mathlib.Logic.Function.Basic

/-!
# Sequential header download

`download_headers` walks a cursor over the headers that peers send. The headers of a reply wait in a
batch until it has been read; a reply that breaks the chain clears the batch, one whose first header
names an older block moves the cursor back. `store_headers_batch` leaves a height that has a hash as
it is.
-/

namespace BlvmNode

open Function

/-- What the consensus and protocol crates say about headers. -/
structure HeaderRules extends PowRules where
  genesisHeader : Network → BlockHeader
  nextRequiredBits : Network → ℕ → ℕ → (ℕ → Option (ℕ × ℕ)) → Option ℕ
  checkProofOfWork : BlockHeader → Bool

/-- The three header trees of the block store. A header row is stored under the header's hash. -/
structure HeaderStore (rules : HeaderRules) where
  headers : Hash → Option BlockHeader
  heightIndex : ℕ → Option Hash
  hashToHeight : Hash → Option ℕ
  keyed : ∀ hash header, headers hash = some header → rules.headerHash header = hash

open HeaderStore

variable {rules : HeaderRules} {Addr : Type}

namespace HeaderStore

def empty : HeaderStore rules where
  headers := fun _ => none
  heightIndex := fun _ => none
  hashToHeight := fun _ => none
  keyed := fun _ _ h => nomatch h

def headerAtHeight (store : HeaderStore rules) (height : ℕ) : Option BlockHeader :=
  (store.heightIndex height).bind store.headers

def storeHeader (store : HeaderStore rules) (header : BlockHeader) : HeaderStore rules where
  headers := Function.update store.headers (rules.headerHash header) (some header)
  heightIndex := store.heightIndex
  hashToHeight := store.hashToHeight
  keyed := by
    intro hash other h
    rw [Function.update_apply] at h
    split_ifs at h with heq
    · rw [heq, ← Option.some.inj h]
    · exact store.keyed hash other h

def storeHeight (store : HeaderStore rules) (height : ℕ) (hash : Hash) : HeaderStore rules :=
  { store with
    heightIndex := Function.update store.heightIndex height (some hash)
    hashToHeight := Function.update store.hashToHeight hash (some height) }

/-- The hash keeps its height either way; a height that is claimed by another hash stays. -/
def storeEntry (store : HeaderStore rules) (entry : BlockHeader × ℕ) : HeaderStore rules :=
  let hash := rules.headerHash entry.1
  if store.heightIndex entry.2 = none ∨ store.heightIndex entry.2 = some hash then
    (store.storeHeader entry.1).storeHeight entry.2 hash
  else
    { store.storeHeader entry.1 with
      hashToHeight := Function.update store.hashToHeight hash (some entry.2) }

def storeHeadersBatch (store : HeaderStore rules) (entries : List (BlockHeader × ℕ)) :
    HeaderStore rules :=
  entries.foldl storeEntry store

/-- The hash at a height extends the chain below only if its header names the hash below. -/
def storedHeightExtendsActiveParent (store : HeaderStore rules) (height : ℕ) (hash : Hash) :
    Bool :=
  if height = 0 then true
  else match store.headers hash, store.heightIndex (height - 1) with
    | some header, some parent => header.prevBlockHash = parent
    | _, _ => false

end HeaderStore

/-- `header_prev_links`: a stored parent counts only if it is the parent of this walk. -/
def headerPrevLinks (storedParent : Option Hash) (lastHash prev : Hash) : Bool :=
  match storedParent with
  | some parent => if parent = lastHash then prev = parent else prev = lastHash
  | none => prev = lastHash

def headerLinksToParent (store : HeaderStore rules) (header : BlockHeader) (height : ℕ)
    (lastHash : Hash) : Bool :=
  headerPrevLinks
    (if 0 < height then (store.headerAtHeight (height - 1)).map rules.headerHash else none)
    lastHash header.prevBlockHash

/-- Bits and time at a height, from the reply's earlier headers and the stored rows; `pending` holds
height, bits and time. -/
def ancestorSeeingPending (pending : List (ℕ × ℕ × ℕ)) (stored : ℕ → Option (ℕ × ℕ))
    (height : ℕ) : Option (ℕ × ℕ) :=
  match pending.reverse.find? (fun entry => entry.1 = height) with
  | some entry => some entry.2
  | none => stored height

def headerMeetsRequiredWork (rules : HeaderRules) (header : BlockHeader) (height : ℕ)
    (network : Network) (ancestor : ℕ → Option (ℕ × ℕ)) : Bool :=
  if height = 0 then rules.checkProofOfWork header
  else match rules.nextRequiredBits network height header.timestamp ancestor with
    | some required => decide (header.bits = required) && rules.checkProofOfWork header
    | none => false

structure SyncRequest where
  network : Network
  startHeight : ℕ
  endHeight : ℕ
  headersMaxFailures : ℕ
  maxHeadersResults : ℕ

section Walk

variable (req : SyncRequest) (store : HeaderStore rules)

structure ReplyWalk where
  height : ℕ
  lastHash : Hash
  batch : List (BlockHeader × ℕ)
  pendingWork : List (ℕ × ℕ × ℕ)
  presync : HeadersPresync

/-- At the end of the reply or of the range, at a header that moves the cursor back, at a chain
break, or at missing work. -/
inductive WalkEnd
  | finished
  | rewound
  | broken
  | faulty
  deriving DecidableEq

/-- Where a header that does not link moves the cursor: above the lower block it names, or 2048
heights back from genesis. -/
def rewindTarget (prev : Hash) (height : ℕ) : Option (ℕ × Hash) :=
  let stepBack : Option (ℕ × Hash) :=
    if prev = rules.headerHash (rules.genesisHeader req.network) ∧ 1 < height then
      let newHeight := height - min 2048 (height - 1)
      (store.heightIndex (newHeight - 1)).map (fun hash => (newHeight, hash))
    else none
  match store.hashToHeight prev with
  | some attach => if 0 < attach ∧ attach + 1 < height then some (attach + 1, prev) else stepBack
  | none => stepBack

def ReplyWalk.push (walk : ReplyWalk) (rules : HeaderRules) (header : BlockHeader) : ReplyWalk where
  height := walk.height + 1
  lastHash := rules.headerHash header
  batch := walk.batch ++ [(header, walk.height)]
  pendingWork := walk.pendingWork ++ [(walk.height, header.bits, header.timestamp)]
  presync := walk.presync.note rules.toPowRules header

def walkHeaders : List BlockHeader → ReplyWalk → ReplyWalk × WalkEnd
  | [], walk => (walk, .finished)
  | header :: rest, walk =>
    if headerLinksToParent store header walk.height walk.lastHash then
      let storedAt := fun h =>
        (store.headerAtHeight h).map (fun found => (found.bits, found.timestamp))
      if headerMeetsRequiredWork rules header walk.height req.network
          (ancestorSeeingPending walk.pendingWork storedAt) then
        let walk := walk.push rules header
        if req.endHeight < walk.height then (walk, .finished) else walkHeaders rest walk
      else (walk, .faulty)
    else match rewindTarget req store header.prevBlockHash walk.height with
      | some (height, hash) =>
        ({ walk with height := height, lastHash := hash, batch := [], pendingWork := [] },
          .rewound)
      | none => ({ walk with batch := [], pendingWork := [] }, .broken)

end Walk

section Peers

variable [DecidableEq Addr]

def moveHeaderPeerToEnd (peers : List Addr) (peer : Addr) (idx : ℕ) : List Addr × ℕ :=
  if peers = [] then (peers, idx)
  else
    let pos := idx % peers.length
    let selectedIsLast : Bool := pos + 1 = peers.length ∧ peers[pos]? = some peer
    match peers.idxOf? peer with
    | some found =>
      (peers.eraseIdx found ++ [peer],
        if selectedIsLast ∧ found + 1 = peers.length then idx - pos else idx)
    | none => (peers, idx)

def removeHeaderPeer (peers : List Addr) (peer : Addr) : List Addr :=
  peers.filter (fun other => other ≠ peer)

/-- An empty reply is the tip only if something was fetched. -/
def emptyHeadersIsIbdTip (fetchedTip startHeight endHeight : ℕ) : Bool :=
  if endHeight ≤ fetchedTip then true else startHeight < fetchedTip + 1

def shortHeaderBatchCompletes (fetchedTip endHeight shortReplies peerCount : ℕ) : Bool :=
  endHeight ≤ fetchedTip ∨ (0 < peerCount ∧ peerCount ≤ shortReplies)

end Peers

/-- What a request to a peer comes to. `slow` says that a reply took over 400 ms. -/
inductive PeerOutcome
  | sendFailure
  | reply (headers : List BlockHeader) (slow : Bool)
  | channelClosed
  | timeout

def PeerOutcome.headers : PeerOutcome → List BlockHeader
  | .reply headers _ => headers
  | _ => []

/-- A turn: the connected peers if none is left, the outcome, and the peers if the failures ask for
new ones. -/
structure PeerTurn (Addr : Type) where
  connected : List Addr
  outcome : PeerOutcome
  refreshed : List Addr

structure HeaderSync (rules : HeaderRules) (Addr : Type) where
  store : HeaderStore rules
  presync : HeadersPresync
  currentHeight : ℕ
  lastHash : Hash
  consecutiveFailures : ℕ
  currentPeerIdx : ℕ
  shortReplies : ℕ
  peerAddrs : List Addr

inductive SyncState (rules : HeaderRules) (Addr : Type)
  | running (st : HeaderSync rules Addr)
  | complete (st : HeaderSync rules Addr)
  | failed

section Loop

variable (req : SyncRequest)

/-- Genesis is stored by the call itself, so the first height asked for is 1. -/
def requestFloor : ℕ := if req.startHeight = 0 then 1 else req.startHeight

def refreshPeers (st : HeaderSync rules Addr) (refreshed : List Addr) : SyncState rules Addr :=
  if req.headersMaxFailures ≤ st.consecutiveFailures then
    if refreshed = [] then .failed
    else .running { st with consecutiveFailures := 0, peerAddrs := refreshed }
  else .running st

def loopHead : SyncState rules Addr → SyncState rules Addr
  | .running st => if st.currentHeight ≤ req.endHeight then .running st else .complete st
  | st => st

/-- Headers on disk that extend the chain are passed without a request, over the heights left. -/
def fastForward : ℕ → HeaderSync rules Addr → HeaderSync rules Addr
  | 0, st => st
  | n + 1, st =>
    match st.store.heightIndex st.currentHeight with
    | some hash =>
      if st.store.storedHeightExtendsActiveParent st.currentHeight hash then
        fastForward n
          { st with
            lastHash := hash
            presync := match st.store.headers hash with
              | some header => st.presync.note rules.toPowRules header
              | none => st.presync
            currentHeight := st.currentHeight + 1 }
      else st
    | none => st

/-- The cursor at the start: genesis is stored at height 0; later the hash below is needed. -/
def startSync (store : HeaderStore rules) (peers : List Addr) : Option (HeaderSync rules Addr) :=
  let cursor := fun store height hash =>
    (⟨store, .new req.network, height, hash, 0, 0, 0, peers⟩ : HeaderSync rules Addr)
  let genesis := rules.genesisHeader req.network
  if req.startHeight = 0 then
    some (cursor ((store.storeHeader genesis).storeHeight 0 (rules.headerHash genesis)) 1
      (rules.headerHash genesis))
  else (store.heightIndex (req.startHeight - 1)).map (cursor store req.startHeight)

def enterLoop (store : HeaderStore rules) (peers : List Addr) : SyncState rules Addr :=
  if peers = [] then .failed
  else match startSync req store peers with
    | none => .failed
    | some st => loopHead req (.running (fastForward (req.endHeight + 1 - st.currentHeight) st))

variable [DecidableEq Addr]

def storeReply (st : HeaderSync rules Addr) (peer : Addr) (walk : ReplyWalk) (fault : Bool)
    (count : ℕ) (slow : Bool) (refreshed : List Addr) : SyncState rules Addr :=
  let short : Bool := count < req.maxHeadersResults
  let st : HeaderSync rules Addr :=
    { st with
      store := st.store.storeHeadersBatch walk.batch
      consecutiveFailures := 0
      currentPeerIdx := if slow && !short then st.currentPeerIdx + 1 else st.currentPeerIdx }
  if !fault && short then
    let st := { st with shortReplies := st.shortReplies + 1 }
    if shortHeaderBatchCompletes (st.currentHeight - 1) req.endHeight st.shortReplies
        st.peerAddrs.length then .complete st
    else
      let moved := moveHeaderPeerToEnd st.peerAddrs peer st.currentPeerIdx
      .running { st with peerAddrs := moved.1, currentPeerIdx := moved.2 }
  else refreshPeers req { st with shortReplies := 0 } refreshed

/-- The headers of a reply; the loop keeps the walk's cursor, whatever becomes of the batch. -/
def readReply (st : HeaderSync rules Addr) (peer : Addr) (headers : List BlockHeader) (slow : Bool)
    (refreshed : List Addr) : SyncState rules Addr :=
  let result := walkHeaders req st.store headers ⟨st.currentHeight, st.lastHash, [], [], st.presync⟩
  let walk := result.1
  let st := { st with
    currentHeight := walk.height, lastHash := walk.lastHash, presync := walk.presync }
  match result.2 with
  | .finished => storeReply req st peer walk false headers.length slow refreshed
  | .rewound => .running { st with consecutiveFailures := 0 }
  | .broken =>
    if req.headersMaxFailures ≤ st.consecutiveFailures + 1 then .failed
    else .running { st with
      currentPeerIdx := st.currentPeerIdx + 1
      consecutiveFailures := st.consecutiveFailures + 1 }
  | .faulty =>
    if req.headersMaxFailures ≤ st.consecutiveFailures + 1 then .failed
    else
      let st := { st with
        currentPeerIdx := st.currentPeerIdx + 1
        consecutiveFailures := st.consecutiveFailures + 1 }
      if walk.batch = [] then .running st
      else storeReply req st peer walk true headers.length slow refreshed

def requestHeaders (st : HeaderSync rules Addr) (peer : Addr) (turn : PeerTurn Addr) :
    SyncState rules Addr :=
  match turn.outcome with
  | .sendFailure =>
    if req.headersMaxFailures ≤ st.consecutiveFailures + 1 then .failed
    else .running { st with
      peerAddrs := removeHeaderPeer st.peerAddrs peer
      consecutiveFailures := st.consecutiveFailures + 1 }
  | .reply [] _ =>
    if emptyHeadersIsIbdTip (st.currentHeight - 1) (requestFloor req) req.endHeight then
      .complete st
    else
      let moved := moveHeaderPeerToEnd st.peerAddrs peer st.currentPeerIdx
      .running { st with
        consecutiveFailures := st.consecutiveFailures + 1
        peerAddrs := moved.1
        currentPeerIdx := moved.2 }
  | .reply (header :: headers) slow =>
    readReply req st peer (header :: headers) slow turn.refreshed
  | .channelClosed =>
    refreshPeers req { st with
      consecutiveFailures := st.consecutiveFailures + 1
      currentPeerIdx := st.currentPeerIdx + 1 } turn.refreshed
  | .timeout =>
    let moved := moveHeaderPeerToEnd st.peerAddrs peer st.currentPeerIdx
    refreshPeers req { st with
      consecutiveFailures := st.consecutiveFailures + 1
      peerAddrs := moved.1
      currentPeerIdx := moved.2 } turn.refreshed

def syncTurn (state : SyncState rules Addr) (turn : PeerTurn Addr) : SyncState rules Addr :=
  match state with
  | .running st =>
    let st := if st.peerAddrs = [] then { st with peerAddrs := turn.connected } else st
    match st.peerAddrs[st.currentPeerIdx % st.peerAddrs.length]? with
    | none => .failed
    | some peer => loopHead req (requestHeaders req st peer turn)
  | state => state

/-- `download_headers` over the turns it meets. Where they end before it returns, it is still
`running`. -/
def downloadHeaders (store : HeaderStore rules) (peers : List Addr)
    (turns : List (PeerTurn Addr)) : SyncState rules Addr :=
  turns.foldl (syncTurn req) (enterLoop req store peers)

end Loop

variable {req : SyncRequest} {store : HeaderStore rules} {lastHash hash : Hash} {height : ℕ}
  {known : Set BlockHeader} {st : HeaderSync rules Addr}

section Walks

theorem headerLinksToParent_iff {header : BlockHeader} :
    headerLinksToParent store header height lastHash ↔ header.prevBlockHash = lastHash := by
  unfold headerLinksToParent headerPrevLinks
  split
  · split_ifs with heq
    · rw [heq, decide_eq_true_iff]
    · rw [decide_eq_true_iff]
  · rw [decide_eq_true_iff]

def Extends (rules : HeaderRules) : ℕ → Hash → List (BlockHeader × ℕ) → Prop
  | _, _, [] => True
  | height, lastHash, entry :: rest =>
    entry.2 = height ∧ entry.1.prevBlockHash = lastHash ∧
      Extends rules (height + 1) (rules.headerHash entry.1) rest

theorem Extends.heights {entries : List (BlockHeader × ℕ)}
    (hext : Extends rules (height + 1) lastHash entries) : ∀ entry ∈ entries, height < entry.2 := by
  induction entries generalizing height lastHash with
  | nil => simp
  | cons entry rest ih =>
    obtain ⟨hheight, _, hrest⟩ := hext
    rw [List.forall_mem_cons]
    refine ⟨by omega, fun other hother => ?_⟩
    have := ih hrest other hother
    omega

def lastHashAfter (rules : HeaderRules) (lastHash : Hash) (entries : List (BlockHeader × ℕ)) :
    Hash :=
  entries.foldl (fun _ entry => rules.headerHash entry.1) lastHash

def presyncAfter (rules : HeaderRules) (presync : HeadersPresync)
    (entries : List (BlockHeader × ℕ)) : HeadersPresync :=
  entries.foldl (fun presync entry => presync.note rules.toPowRules entry.1) presync

theorem rewindTarget_pos {prev : Hash} {newHeight : ℕ}
    (h : rewindTarget req store prev height = some (newHeight, hash)) : 0 < newHeight := by
  simp only [rewindTarget] at h
  split at h
  · split_ifs at h with hlower hgenesis
    · cases h
      exact Nat.succ_pos _
    · obtain ⟨_, _, htarget⟩ := Option.map_eq_some_iff.mp h
      cases htarget
      omega
  · split_ifs at h with hgenesis
    obtain ⟨_, _, htarget⟩ := Option.map_eq_some_iff.mp h
    cases htarget
    omega

/-- The headers taken extend the cursor one by one. They stay in the batch unless the chain breaks;
the cursor stays behind them unless it is moved back. -/
def ReplyWalk.Takes (rules : HeaderRules) (walk : ReplyWalk) (headers : List BlockHeader)
    (res : ReplyWalk × WalkEnd) : Prop :=
  ∃ taken, Extends rules walk.height walk.lastHash taken ∧ (∀ entry ∈ taken, entry.1 ∈ headers) ∧
    res.1.presync = presyncAfter rules walk.presync taken ∧
    match res.2 with
    | .finished | .faulty => res.1.batch = walk.batch ++ taken ∧
      res.1.height = walk.height + taken.length ∧
      res.1.lastHash = lastHashAfter rules walk.lastHash taken
    | .rewound => 0 < res.1.height
    | .broken => res.1.height = walk.height + taken.length ∧
      res.1.lastHash = lastHashAfter rules walk.lastHash taken

theorem walkHeaders_takes (headers : List BlockHeader) (walk : ReplyWalk) :
    walk.Takes rules headers (walkHeaders req store headers walk) := by
  induction headers generalizing walk with
  | nil => exact ⟨[], trivial, nofun, rfl, (List.append_nil _).symm, rfl, rfl⟩
  | cons header rest ih =>
    by_cases hlink : headerLinksToParent store header walk.height walk.lastHash
    · simp only [walkHeaders, if_pos hlink]
      rw [headerLinksToParent_iff] at hlink
      split_ifs with hwork hend
      · refine ⟨[(header, walk.height)], ⟨rfl, hlink, trivial⟩, by simp, rfl, rfl, rfl, rfl⟩
      · obtain ⟨taken, hext, hmem, hcount, hcases⟩ := ih (walk.push rules header)
        refine ⟨(header, walk.height) :: taken, ⟨rfl, hlink, hext⟩, ?_, hcount, ?_⟩
        · exact List.forall_mem_cons.mpr ⟨List.mem_cons_self,
            fun entry hentry => List.mem_cons_of_mem _ (hmem entry hentry)⟩
        · revert hcases
          rw [List.length_cons, Nat.add_comm taken.length, ← Nat.add_assoc]
          cases (walkHeaders req store rest (walk.push rules header)).2 with
          | finished | faulty =>
            rintro ⟨hbatch, hcursor⟩
            refine ⟨?_, hcursor⟩
            rw [hbatch, ReplyWalk.push, List.append_assoc]
            rfl
          | rewound | broken => exact id
      · exact ⟨[], trivial, nofun, rfl, (List.append_nil _).symm, rfl, rfl⟩
    · simp only [walkHeaders, if_neg hlink]
      cases htarget : rewindTarget req store header.prevBlockHash walk.height with
      | none => exact ⟨[], trivial, nofun, rfl, rfl, rfl⟩
      | some target => exact ⟨[], trivial, nofun, rfl, rewindTarget_pos htarget⟩

end Walks

section Anchors

variable {lo : ℕ}

def LinkedFrom (store : HeaderStore rules) (lo height : ℕ) : Prop :=
  ∀ h, lo ≤ h → h < height → ∃ header, store.headerAtHeight h = some header ∧
    (0 < h → store.heightIndex (h - 1) = some header.prevBlockHash)

/-- The cursor stands on the height index, above a linked chain. -/
structure Anchored (store : HeaderStore rules) (lo height : ℕ) (lastHash : Hash) : Prop where
  pos : 0 < height
  below : store.heightIndex (height - 1) = some lastHash
  linked : LinkedFrom store lo height

def HeaderStore.Within (store : HeaderStore rules) (known : Set BlockHeader) : Prop :=
  ∀ hash header, store.headers hash = some header → header ∈ known

def HeaderStore.Admits (store : HeaderStore rules) (entry : BlockHeader × ℕ) : Prop :=
  store.heightIndex entry.2 = none ∨ store.heightIndex entry.2 = some (rules.headerHash entry.1)

instance (entry : BlockHeader × ℕ) : Decidable (store.Admits entry) :=
  inferInstanceAs (Decidable (_ ∨ _))

variable {entry : BlockHeader × ℕ} {header : BlockHeader}

theorem HeaderStore.headers_storeEntry (entry : BlockHeader × ℕ) :
    (store.storeEntry entry).headers =
      update store.headers (rules.headerHash entry.1) (some entry.1) := by
  simp only [storeEntry]
  split_ifs <;> rfl

theorem HeaderStore.heightIndex_storeEntry (hfree : store.Admits entry) :
    (store.storeEntry entry).heightIndex =
      update store.heightIndex entry.2 (some (rules.headerHash entry.1)) := by
  unfold Admits at hfree
  simp only [storeEntry, if_pos hfree]
  rfl

theorem HeaderStore.Admits.storeEntry {other : BlockHeader × ℕ} (hother : store.Admits other)
    (hfree : store.Admits entry) (hne : other.2 ≠ entry.2) :
    (store.storeEntry entry).Admits other := by
  rw [Admits, heightIndex_storeEntry hfree, update_of_ne hne]
  exact hother

theorem HeaderStore.Within.of_update {store' : HeaderStore rules} (hstore : store.Within known)
    (hheader : header ∈ known) (hrows : store'.headers = update store.headers hash (some header)) :
    store'.Within known := by
  intro hash header h
  rw [hrows, update_apply] at h
  split_ifs at h
  · exact Option.some.inj h ▸ hheader
  · exact hstore hash header h

theorem HeaderStore.Within.storeEntry (hstore : store.Within known) (hentry : entry.1 ∈ known) :
    (store.storeEntry entry).Within known :=
  hstore.of_update hentry (headers_storeEntry entry)

theorem HeaderStore.within_storeHeadersBatch {entries : List (BlockHeader × ℕ)}
    (hentries : ∀ entry ∈ entries, entry.1 ∈ known) :
    ((empty : HeaderStore rules).storeHeadersBatch entries).Within known :=
  List.foldlRecOn (motive := (HeaderStore.Within · known)) entries _ (fun _ _ h => nomatch h)
    fun _ hstore entry hentry => hstore.storeEntry (hentries entry hentry)

section

variable (hinj : Set.InjOn rules.headerHash known) (hstore : store.Within known)
    (hentry : entry.1 ∈ known)
include hinj hstore hentry

theorem HeaderStore.headers_storeEntry_of_some (h : store.headers hash = some header) :
    (store.storeEntry entry).headers hash = some header := by
  rw [headers_storeEntry, update_apply]
  split_ifs with heq
  · have hhash : rules.headerHash entry.1 = rules.headerHash header := by
      rw [store.keyed hash header h, heq]
    rw [hinj hentry (hstore hash header h) hhash]
  · exact h

theorem headerAtHeight_storeEntry (hfree : store.Admits entry) {h : ℕ}
    (hrow : store.headerAtHeight h = some header) (hne : h ≠ entry.2) :
    (store.storeEntry entry).headerAtHeight h = some header := by
  obtain ⟨hash, hindex, hheader⟩ := Option.bind_eq_some_iff.mp hrow
  rw [headerAtHeight, heightIndex_storeEntry hfree, update_of_ne hne, hindex]
  exact headers_storeEntry_of_some hinj hstore hentry hheader

end

theorem headerAtHeight_storeEntry_self (hfree : store.Admits entry) :
    (store.storeEntry entry).headerAtHeight entry.2 = some entry.1 := by
  rw [headerAtHeight, heightIndex_storeEntry hfree, update_self,
    Option.bind_some, headers_storeEntry, update_self]

section

variable (hinj : Set.InjOn rules.headerHash known) (hstore : store.Within known)
    (hst : Anchored store lo height lastHash)
include hinj hstore hst

theorem Anchored.storeEntry (hheader : header ∈ known) (hlink : header.prevBlockHash = lastHash)
    (hfree : store.Admits (header, height)) :
    Anchored (store.storeEntry (header, height)) lo (height + 1) (rules.headerHash header) := by
  have hindex := heightIndex_storeEntry hfree
  refine ⟨Nat.succ_pos height, ?_, fun h hlo hlt => ?_⟩
  · rw [hindex, Nat.add_sub_cancel, update_self]
  · rcases Nat.lt_succ_iff_lt_or_eq.mp hlt with hlt | rfl
    · obtain ⟨other, hrow, hprev⟩ := hst.linked h hlo hlt
      refine ⟨other, headerAtHeight_storeEntry hinj hstore hheader hfree hrow hlt.ne,
        fun hzero => ?_⟩
      rw [hindex, update_of_ne (by dsimp only; omega)]
      exact hprev hzero
    · refine ⟨header, headerAtHeight_storeEntry_self hfree, fun _ => ?_⟩
      rw [hindex, update_of_ne (by dsimp only; omega), hst.below, hlink]

end

end Anchors

section Turns

structure SyncPosition (rules : HeaderRules) where
  store : HeaderStore rules
  presync : HeadersPresync
  height : ℕ
  lastHash : Hash

def HeaderSync.position (st : HeaderSync rules Addr) : SyncPosition rules :=
  ⟨st.store, st.presync, st.currentHeight, st.lastHash⟩

def SyncState.position? : SyncState rules Addr → Option (SyncPosition rules)
  | .running st => some st.position
  | .complete st => some st.position
  | .failed => none

namespace SyncPosition

def read (req : SyncRequest) (pos : SyncPosition rules) (headers : List BlockHeader) :
    ReplyWalk × WalkEnd :=
  walkHeaders req pos.store headers ⟨pos.height, pos.lastHash, [], [], pos.presync⟩

def after (req : SyncRequest) (pos : SyncPosition rules) (headers : List BlockHeader) :
    SyncPosition rules where
  store := match (pos.read req headers).2 with
    | .finished | .faulty => pos.store.storeHeadersBatch (pos.read req headers).1.batch
    | .rewound | .broken => pos.store
  presync := (pos.read req headers).1.presync
  height := (pos.read req headers).1.height
  lastHash := (pos.read req headers).1.lastHash

end SyncPosition

variable {pos : SyncPosition rules} {refreshed : List Addr}

theorem position_refreshPeers
    (h : (refreshPeers req st refreshed).position? = some pos) : pos = st.position := by
  rw [refreshPeers] at h
  split_ifs at h <;> cases h <;> rfl

theorem position_loopHead (state : SyncState rules Addr) :
    (loopHead req state).position? = state.position? := by
  cases state with
  | running st =>
    rw [loopHead]
    split_ifs <;> rfl
  | complete st | failed => rfl

variable [DecidableEq Addr] {peer : Addr}

theorem position_storeReply {walk : ReplyWalk} {fault slow : Bool} {count : ℕ}
    (h : (storeReply req st peer walk fault count slow refreshed).position? = some pos) :
    pos = { st.position with store := st.store.storeHeadersBatch walk.batch } := by
  simp only [storeReply] at h
  generalize (if (slow && !decide (count < req.maxHeadersResults)) then
    st.currentPeerIdx + 1 else st.currentPeerIdx) = idx at h
  split_ifs at h
  · cases h
    rfl
  · cases h
    rfl
  · rw [position_refreshPeers h]
    rfl

theorem position_readReply {headers : List BlockHeader} {slow : Bool}
    (h : (readReply req st peer headers slow refreshed).position? = some pos) :
    pos = st.position.after req headers := by
  rw [SyncPosition.after, SyncPosition.read]
  simp only [HeaderSync.position]
  simp only [readReply] at h
  generalize walkHeaders req st.store headers
    ⟨st.currentHeight, st.lastHash, [], [], st.presync⟩ = result at h ⊢
  obtain ⟨walk, exit⟩ := result
  cases exit with
  | finished =>
    rw [position_storeReply h]
    rfl
  | rewound =>
    cases h
    rfl
  | broken =>
    dsimp only at h
    split_ifs at h
    · cases h
    · cases h
      rfl
  | faulty =>
    dsimp only at h
    split_ifs at h with hfail hempty
    · cases h
    · cases h
      rw [hempty]
      rfl
    · rw [position_storeReply h]
      rfl

theorem syncTurn_cases {turn : PeerTurn Addr}
    (h : (syncTurn req (.running st) turn).position? = some pos) :
    pos = st.position ∨ ∃ headers slow, turn.outcome = .reply headers slow ∧
      pos = st.position.after req headers := by
  simp only [syncTurn] at h
  have hpeers : (if st.peerAddrs = [] then { st with peerAddrs := turn.connected }
      else st).position = st.position := by
    split_ifs <;> rfl
  generalize (if st.peerAddrs = [] then { st with peerAddrs := turn.connected } else st) = st'
    at h hpeers
  rw [← hpeers]
  split at h
  next => cases h
  next peer _ =>
    rw [position_loopHead] at h
    unfold requestHeaders at h
    split at h
    · split_ifs at h
      · cases h
      · cases h
        exact .inl rfl
    · split_ifs at h <;> cases h <;> exact .inl rfl
    · next header headers slow houtcome =>
        exact .inr ⟨_, slow, houtcome, position_readReply h⟩
    all_goals
      left
      rw [position_refreshPeers h]
      rfl

def replyGuard (cond : SyncPosition rules → List BlockHeader → Prop) :
    SyncState rules Addr → PeerTurn Addr → Prop
  | .running st, ⟨_, .reply headers _, _⟩ => cond st.position headers
  | _, _ => True

theorem SyncPosition.stable {P : SyncPosition rules → Prop}
    {cond : SyncPosition rules → List BlockHeader → Prop}
    (hstep : ∀ pos headers, P pos → (∀ header ∈ headers, header ∈ known) → cond pos headers →
      P (pos.after req headers))
    {state : SyncState rules Addr} (hinit : ∀ pos, state.position? = some pos → P pos)
    {turns : List (PeerTurn Addr)}
    (hturns : ∀ turn ∈ turns, ∀ header ∈ turn.outcome.headers, header ∈ known)
    (hguard : GuardedRun.Guarded (syncTurn req) (replyGuard cond) state turns) :
    ∀ pos, (turns.foldl (syncTurn req) state).position? = some pos → P pos := by
  refine GuardedRun.stable (P := fun state => ∀ pos, state.position? = some pos → P pos)
    (fun state turn hcond hstate pos hpos => ?_) hinit (hguard.and_forall hturns)
  obtain ⟨hcond, hknown⟩ := hcond
  cases state with
  | running st =>
    rcases syncTurn_cases hpos with rfl | ⟨headers, slow, houtcome, rfl⟩
    · exact hstate _ rfl
    · obtain ⟨connected, outcome, refreshed⟩ := turn
      dsimp only at houtcome
      subst houtcome
      exact hstep _ _ (hstate _ rfl) hknown hcond
  | complete st | failed => exact hstate pos hpos

end Turns

section Start

/-- A stored row that extends the hash below the cursor moves the cursor above it. -/
def SyncPosition.pass (pos : SyncPosition rules) (header : BlockHeader) : SyncPosition rules :=
  { pos with
    presync := pos.presync.note rules.toPowRules header
    height := pos.height + 1
    lastHash := rules.headerHash header }

theorem storedHeightExtendsActiveParent_cases
    (hpos : 0 < height) (h : store.storedHeightExtendsActiveParent height hash) :
    ∃ header, store.headers hash = some header ∧
      store.heightIndex (height - 1) = some header.prevBlockHash := by
  rw [storedHeightExtendsActiveParent, if_neg hpos.ne'] at h
  split at h
  next header parent hheader hparent =>
    exact ⟨header, hheader, by rw [hparent, of_decide_eq_true h]⟩
  next => cases h

theorem fastForward_stable {P : SyncPosition rules → Prop} (hpos : ∀ pos, P pos → 0 < pos.height)
    (hstep : ∀ pos header, P pos → pos.store.headerAtHeight pos.height = some header →
      pos.store.heightIndex (pos.height - 1) = some header.prevBlockHash → P (pos.pass header))
    (n : ℕ) (hst : P st.position) : P (fastForward n st).position := by
  induction n generalizing st with
  | zero => exact hst
  | succ n ih =>
    rw [fastForward]
    cases hindex : st.store.heightIndex st.currentHeight with
    | none => exact hst
    | some hash =>
      dsimp only
      split_ifs with hextends
      · obtain ⟨header, hheader, hparent⟩ :=
          storedHeightExtendsActiveParent_cases (hpos _ hst) hextends
        have hrow : st.store.headerAtHeight st.currentHeight = some header := by
          rw [headerAtHeight, hindex, Option.bind_some, hheader]
        have hnext := hstep _ header hst hrow hparent
        rw [SyncPosition.pass, st.position.store.keyed hash header hheader] at hnext
        apply ih
        simp only [hheader]
        exact hnext
      · exact hst

theorem enterLoop_stable {P : SyncPosition rules → Prop}
    {peers : List Addr} (hstart : ∀ st, startSync req store peers = some st → P st.position)
    (hpos : ∀ pos, P pos → 0 < pos.height)
    (hstep : ∀ pos header, P pos → pos.store.headerAtHeight pos.height = some header →
      pos.store.heightIndex (pos.height - 1) = some header.prevBlockHash → P (pos.pass header)) :
    ∀ pos, (enterLoop req store peers).position? = some pos → P pos := by
  intro pos h
  rw [enterLoop] at h
  split_ifs at h with hpeers
  · cases h
  · split at h
    next => cases h
    next st hst =>
      rw [position_loopHead] at h
      cases h
      exact fastForward_stable hpos hstep _ (hstart st hst)

variable {peers : List Addr}

theorem anchored_startSync (h : startSync req store peers = some st) :
    Anchored st.store req.startHeight st.currentHeight st.lastHash := by
  simp only [startSync] at h
  split_ifs at h with hzero
  · cases h
    refine ⟨Nat.one_pos, rfl, fun h _ hlt => ?_⟩
    obtain rfl : h = 0 := by
      dsimp only at hlt
      omega
    refine ⟨rules.genesisHeader req.network, ?_, fun hpos => absurd hpos (lt_irrefl 0)⟩
    simp [headerAtHeight, storeHeight, storeHeader]
  · obtain ⟨hash, hhash, rfl⟩ := Option.map_eq_some_iff.mp h
    exact ⟨Nat.pos_of_ne_zero hzero, hhash, fun h hlo hlt => absurd hlt (Nat.not_lt.mpr hlo)⟩

theorem within_startSync (hgenesis : rules.genesisHeader req.network ∈ known)
    (hstore : store.Within known)
    (h : startSync req store peers = some st) : st.store.Within known := by
  simp only [startSync] at h
  split_ifs at h with hzero
  · cases h
    exact hstore.of_update hgenesis rfl
  · obtain ⟨hash, _, rfl⟩ := Option.map_eq_some_iff.mp h
    exact hstore

theorem Anchored.pass {pos : SyncPosition rules} {lo : ℕ} {header : BlockHeader}
    (hst : Anchored pos.store lo pos.height pos.lastHash)
    (hrow : pos.store.headerAtHeight pos.height = some header)
    (hlink : pos.store.heightIndex (pos.height - 1) = some header.prevBlockHash) :
    Anchored (pos.pass header).store lo (pos.pass header).height (pos.pass header).lastHash := by
  refine ⟨Nat.succ_pos _, ?_, fun h hlo hlt => ?_⟩
  · obtain ⟨hash, hindex, hheader⟩ := Option.bind_eq_some_iff.mp hrow
    have hkey := pos.store.keyed hash header hheader
    rw [SyncPosition.pass, Nat.add_sub_cancel, hindex, hkey]
  · rcases Nat.lt_succ_iff_lt_or_eq.mp hlt with hlt | rfl
    · exact hst.linked h hlo hlt
    · exact ⟨header, hrow, fun _ => hlink⟩

end Start

end BlvmNode
