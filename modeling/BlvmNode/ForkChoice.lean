import BlvmNode.HeaderChain

/-!
# Fork choice over whole runs

`process_block_with_fork_choice` connects a block to the tip, stores it beside the active chain or
parks it until its parent is known, and goes on with the parked children of every block it stores.
Verdicts of the consensus crate and storage failures enter as an arbitrary stream, one record for
each turn of the loop.
-/

namespace BlvmNode

open List Option Function AncestorWork

variable {Body : Type}

structure ForkBlock (Body : Type) where
  header : BlockHeader
  body : Body

/-- The stored chain state and the fork hold. `blockIndex`, `hashToHeight` and `headers` decide
where a block belongs; `bodies` are the stored blocks. -/
structure ForkState (Body : Type) where
  tip : Hash
  tipHeight : ℕ
  blockIndex : Hash → Option ℕ
  chainwork : Hash → Option ℕ
  bodies : Hash → Option (ForkBlock Body)
  headers : Hash → Option BlockHeader
  hashToHeight : Hash → Option ℕ
  hold : List (ForkBlock Body)

/-- What a turn meets: a storage error, the verdict on the block, whether its index row is written
(a failure is only logged), the blocks whose index row the walk to the fork point writes, and the
height reported for the reorganized chain (none if rejected). -/
structure TurnVerdict where
  fails : Bool
  valid : Bool
  recorded : Bool
  linked : List Hash
  reorganized : Option ℕ+

variable (rules : PowRules)

def forkBodyHoldLimit : ℕ := 16

/-- The held blocks in park order, each once; a full hold drops its oldest block. -/
def park (hold : List (ForkBlock Body)) (block : ForkBlock Body) : List (ForkBlock Body) :=
  if hold.any (fun item =>
      decide (rules.headerHash item.header = rules.headerHash block.header)) then hold
  else (if forkBodyHoldLimit ≤ hold.length then hold.tail else hold) ++ [block]

def takeChildren (hold : List (ForkBlock Body)) (parent : Hash) :
    List (ForkBlock Body) × List (ForkBlock Body) :=
  hold.partition (fun item => decide (item.header.prevBlockHash = parent))

def chainworkForHeader (st : ForkState Body) (header : BlockHeader) (height : ℕ) : Option ℕ :=
  if 0 < height then
    (st.chainwork header.prevBlockHash).map
      (fun prev => saturatingAdd prev (calculateWorkFromBits rules header.bits))
  else some (saturatingAdd 0 (calculateWorkFromBits rules header.bits))

/-- Fails if the work behind the parent is absent. -/
def cacheBlockChainwork (st : ForkState Body) (header : BlockHeader) (height : ℕ) :
    Option (ForkState Body) :=
  (chainworkForHeader rules st header height).map fun work =>
    { st with chainwork := Function.update st.chainwork (rules.headerHash header) (some work) }

def updateTip (st : ForkState Body) (header : BlockHeader) (height : ℕ) :
    Option (ForkState Body) :=
  (chainworkForHeader rules st header height).map fun work =>
    { st with
      tip := rules.headerHash header
      tipHeight := height
      blockIndex := Function.update st.blockIndex (rules.headerHash header) (some height)
      chainwork := Function.update st.chainwork (rules.headerHash header) (some work) }

/-- `initialize_with_params` on a store that may already know headers. -/
def initializeWithParams (genesis : BlockHeader) (headers : Hash → Option BlockHeader)
    (hashToHeight : Hash → Option ℕ) : ForkState Body where
  tip := rules.headerHash genesis
  tipHeight := 0
  blockIndex := Function.update (fun _ => none) (rules.headerHash genesis) (some 0)
  chainwork := Function.update (fun _ => none) (rules.headerHash genesis)
    (some (saturatingAdd 0 (calculateWorkFromBits rules genesis.bits)))
  bodies := fun _ => none
  headers := headers
  hashToHeight := hashToHeight
  hold := []

def storeBody (st : ForkState Body) (block : ForkBlock Body) (height : ℕ) (recorded : Bool) :
    ForkState Body :=
  let hash := rules.headerHash block.header
  { st with
    bodies := Function.update st.bodies hash (some block)
    headers := Function.update st.headers hash (some block.header)
    hashToHeight := Function.update st.hashToHeight hash (some height)
    blockIndex := if recorded then Function.update st.blockIndex hash (some height)
      else st.blockIndex }

/-- The height above the parent, if the parent is the tip, is indexed, or is a stored body. -/
def connectHeight (st : ForkState Body) (parent : Hash) : Option ℕ :=
  if parent = st.tip then some (st.tipHeight + 1)
  else match st.blockIndex parent with
    | some height => some (height + 1)
    | none =>
      if (st.bodies parent).isSome then
        (st.hashToHeight parent).map (fun height => min (height + 1) (2 ^ 64 - 1))
      else none

def chainworkAt (st : ForkState Body) (hash : Hash) : ℕ := (st.chainwork hash).getD 0

def shouldActivateOverActiveTip (st : ForkState Body) (candidate : Hash) : Bool :=
  decide (candidate ≠ st.tip) && decide (chainworkAt st st.tip < chainworkAt st candidate)

/-- `fork_link` writes the index row of a block that has only a stored height. -/
def linkIndex (st : ForkState Body) (linked : List Hash) : ForkState Body :=
  { st with
    blockIndex := fun hash =>
      if hash ∈ linked ∧ st.blockIndex hash = none then st.hashToHeight hash
      else st.blockIndex hash }

/-- `try_activate_heavier_fork` as far as the chain state goes. -/
def tryActivateFork (st : ForkState Body) (header : BlockHeader) (verdict : TurnVerdict) :
    Option (ForkState Body) :=
  if shouldActivateOverActiveTip st (rules.headerHash header) then
    verdict.reorganized.bind fun newHeight =>
      updateTip rules (linkIndex st verdict.linked) header newHeight
  else some st

inductive TurnExit (Body : Type)
  | failed
  | dropped
  | held (hold : List (ForkBlock Body))
  | invalid
  | stored (st : ForkState Body)

def storeTurn (st : ForkState Body) (block : ForkBlock Body) (height : ℕ)
    (verdict : TurnVerdict) : Option (ForkState Body) := do
  let cached ← cacheBlockChainwork rules (storeBody rules st block height verdict.recorded)
    block.header height
  if block.header.prevBlockHash = st.tip then updateTip rules cached block.header height
  else tryActivateFork rules cached block.header verdict

def forkTurn (st : ForkState Body) (block : ForkBlock Body) (verdict : TurnVerdict) :
    TurnExit Body :=
  if verdict.fails then .failed
  else match connectHeight st block.header.prevBlockHash with
    | none =>
      if (st.headers block.header.prevBlockHash).isSome then .held (park rules st.hold block)
      else .dropped
    | some height =>
      if verdict.valid then
        match storeTurn rules st block height verdict with
        | none => .failed
        | some st => .stored st
      else .invalid

structure ForkLoop (Body : Type) where
  chain : ForkState Body
  pending : List (ForkBlock Body)
  storedAny : Bool
  heldAny : Bool

inductive ForkChoiceError
  | failed
  | outOfFuel

/-- The turns of one call. `turn` counts them, so that each has its own verdict. -/
def forkLoop (verdicts : ℕ → TurnVerdict) :
    ℕ → ℕ → ForkLoop Body → Except ForkChoiceError (Bool × ForkState Body)
  | 0, _, _ => .error .outOfFuel
  | fuel + 1, turn, loop =>
    match loop.pending with
    | [] => .ok (loop.storedAny || loop.heldAny, loop.chain)
    | block :: rest =>
      match forkTurn rules loop.chain block (verdicts turn) with
      | .failed => .error .failed
      | .dropped => forkLoop verdicts fuel (turn + 1) { loop with pending := rest }
      | .held hold =>
        forkLoop verdicts fuel (turn + 1)
          { loop with
            chain := { loop.chain with hold := hold }
            pending := rest
            heldAny := true }
      | .invalid =>
        if loop.storedAny then
          forkLoop verdicts fuel (turn + 1) { loop with pending := rest }
        else .ok (false, loop.chain)
      | .stored st =>
        let held := takeChildren st.hold (rules.headerHash block.header)
        forkLoop verdicts fuel (turn + 1)
          { loop with
            chain := { st with hold := held.2 }
            pending := rest ++ held.1
            storedAny := true }

/-- Enough turns: a call parks each waiting block at most once between two stored or dropped
ones. -/
def loopFuel (loop : ForkLoop Body) : ℕ :=
  let blocks := loop.pending.length + loop.chain.hold.length
  blocks * (blocks + 1) + loop.pending.length + 1

structure ForkCall (Body : Type) where
  block : ForkBlock Body
  verdicts : ℕ → TurnVerdict

def ForkState.processBlockWithForkChoice (st : ForkState Body) (call : ForkCall Body) :
    Except ForkChoiceError (Bool × ForkState Body) :=
  let loop : ForkLoop Body := ⟨st, [call.block], false, false⟩
  forkLoop rules call.verdicts (loopFuel loop) 0 loop

def runCalls (st : ForkState Body) (calls : List (ForkCall Body)) :
    Except ForkChoiceError (ForkState Body) :=
  calls.foldlM (fun st call => (ForkState.processBlockWithForkChoice rules st call).map Prod.snd) st

variable {rules} {genesis header : BlockHeader} {known : Set BlockHeader} {st st' : ForkState Body}
  {block : ForkBlock Body} {verdict : TurnVerdict} {height : ℕ}

section Fuel

theorem length_park_le (hold : List (ForkBlock Body)) (block : ForkBlock Body) :
    (park rules hold block).length ≤ hold.length + 1 := by
  rw [park]
  split_ifs
  · omega
  · rw [length_append, length_tail, length_singleton]
    omega
  · rw [length_append, length_singleton]

theorem length_takeChildren (hold : List (ForkBlock Body)) (parent : Hash) :
    (takeChildren hold parent).1.length + (takeChildren hold parent).2.length = hold.length := by
  rw [takeChildren, partition_eq_filter_filter]
  simp only
  rw [← length_append]
  exact (filter_append_perm _ hold).length_eq

theorem hold_updateTip (h : updateTip rules st header height = some st') : st'.hold = st.hold := by
  rw [updateTip, map_eq_some_iff] at h
  obtain ⟨work, _, rfl⟩ := h
  rfl

theorem hold_storeTurn
    (h : storeTurn rules st block height verdict = some st') : st'.hold = st.hold := by
  rw [storeTurn, bind_eq_bind, bind_eq_some_iff] at h
  obtain ⟨cached, hcached, hmoved⟩ := h
  rw [cacheBlockChainwork, map_eq_some_iff] at hcached
  obtain ⟨work, _, rfl⟩ := hcached
  split_ifs at hmoved
  · have hkept := hold_updateTip hmoved
    exact hkept
  · rw [tryActivateFork] at hmoved
    split_ifs at hmoved
    · obtain ⟨newHeight, _, hmoved⟩ := bind_eq_some_iff.mp hmoved
      have hkept := hold_updateTip hmoved
      exact hkept
    · cases hmoved
      rfl

theorem connectHeight_pos {parent : Hash} (h : connectHeight st parent = some height) :
    0 < height := by
  unfold connectHeight at h
  split at h
  · cases h
    omega
  split at h
  · cases h
    omega
  · split_ifs at h
    obtain ⟨stored, _, rfl⟩ := map_eq_some_iff.mp h
    omega

theorem forkTurn_stored (h : forkTurn rules st block verdict = .stored st') :
    ∃ height, 0 < height ∧ storeTurn rules st block height verdict = some st' := by
  unfold forkTurn at h
  split at h
  · cases h
  split at h
  next => split_ifs at h
  next height hheight =>
    split_ifs at h
    split at h
    next => cases h
    next hstore =>
      cases h
      exact ⟨height, connectHeight_pos hheight, hstore⟩

theorem forkTurn_held {hold : List (ForkBlock Body)}
    (h : forkTurn rules st block verdict = .held hold) : hold = park rules st.hold block := by
  unfold forkTurn at h
  split at h
  · cases h
  split at h
  next =>
    split_ifs at h
    cases h
    rfl
  next =>
    split_ifs at h
    split at h <;> cases h

theorem forkLoop_ne_outOfFuel (verdicts : ℕ → TurnVerdict) {fuel turn : ℕ} {loop : ForkLoop Body}
    (hfuel : loopFuel loop ≤ fuel) :
    forkLoop rules verdicts fuel turn loop ≠ .error .outOfFuel := by
  induction fuel generalizing turn loop with
  | zero => simp [loopFuel] at hfuel
  | succ fuel ih =>
    obtain ⟨chain, pending, storedAny, heldAny⟩ := loop
    cases pending with
    | nil => simp [forkLoop]
    | cons block rest =>
      simp only [loopFuel, length_cons] at hfuel
      -- a block leaves the loop for good, or moves from the queue into the hold
      have hless : ∀ n m : ℕ, n + m + 1 ≤ rest.length + 1 + chain.hold.length →
          (n + m) * (n + m + 1) + n + 1 ≤ fuel := by
        intro n m hle
        nlinarith
      have hrest : loopFuel (⟨chain, rest, storedAny, heldAny⟩ : ForkLoop Body) ≤ fuel := by
        simp only [loopFuel]
        exact hless _ _ (by omega)
      simp only [forkLoop]
      cases hturn : forkTurn rules chain block (verdicts turn) with
      | failed => simp
      | dropped => exact ih hrest
      | held hold =>
        apply ih
        have hlength := @length_park_le Body rules chain.hold block
        rw [← forkTurn_held hturn] at hlength
        simp only [loopFuel]
        nlinarith
      | invalid =>
        simp only
        split_ifs
        · exact ih hrest
        · simp
      | stored st =>
        apply ih
        obtain ⟨height, _, hstore⟩ := forkTurn_stored hturn
        have hlength := length_takeChildren st.hold (rules.headerHash block.header)
        rw [hold_storeTurn hstore] at hlength
        simp only [loopFuel, length_append]
        rw [hold_storeTurn hstore]
        have hcount := hless (rest.length + (takeChildren chain.hold
          (rules.headerHash block.header)).1.length) (takeChildren chain.hold
          (rules.headerHash block.header)).2.length (by omega)
        exact hcount

/-- The loop that parks blocks and takes them back ends, whatever its turns verify. -/
theorem fork_choice_ends (rules : PowRules) (st : ForkState Body) (call : ForkCall Body) :
    st.processBlockWithForkChoice rules call ≠ .error .outOfFuel := by
  rw [ForkState.processBlockWithForkChoice]
  exact forkLoop_ne_outOfFuel _ le_rfl

end Fuel

section Work

def ForkState.accepted (rules : PowRules) (st : ForkState Body) : Set BlockHeader :=
  {header | ∃ block, st.bodies (rules.headerHash header) = some block ∧ block.header = header}

/-- The cached chainwork is the work behind the stored blocks, and none has more than the tip. -/
structure WorkCached (rules : PowRules) (genesis : BlockHeader) (known : Set BlockHeader)
    (st : ForkState Body) : Prop where
  exact : ∀ h w, st.chainwork h = some w ↔ AncestorWork rules genesis (st.accepted rules) h w
  cached : ∀ h block, st.bodies h = some block → ∃ w, st.chainwork h = some w
  keyed : ∀ h block, st.bodies h = some block → h = rules.headerHash block.header
  mem : ∀ h block, st.bodies h = some block → block.header ∈ known
  tip : ∃ w, st.chainwork st.tip = some w ∧ ∀ h w', st.chainwork h = some w' → w' ≤ w
  held : ∀ block ∈ st.hold, block.header ∈ known

/-- No sum of proofs along known headers reaches 256 bits. -/
def NoSaturation (rules : PowRules) (genesis : BlockHeader) (known : Set BlockHeader) : Prop :=
  ∀ h w, AncestorWork rules genesis known h w → w < 2 ^ 256

variable {prev : ℕ}

theorem chainworkForHeader_of_pos (hpos : 0 < height) :
    chainworkForHeader rules st header height = (st.chainwork header.prevBlockHash).map
      (fun prev => saturatingAdd prev (calculateWorkFromBits rules header.bits)) := by
  rw [chainworkForHeader, if_pos hpos]

theorem updateTip_of_parent (hpos : 0 < height)
    (hprev : st.chainwork header.prevBlockHash = some prev) :
    updateTip rules st header height = some { st with
        tip := rules.headerHash header
        tipHeight := height
        blockIndex := update st.blockIndex (rules.headerHash header) (some height)
        chainwork := update st.chainwork (rules.headerHash header)
          (some (saturatingAdd prev (calculateWorkFromBits rules header.bits))) } := by
  rw [updateTip, chainworkForHeader_of_pos hpos, hprev]
  rfl

theorem storeTurn_spec (hpos : 0 < height)
    (h : storeTurn rules st block height verdict = some st') :
    let id := rules.headerHash block.header
    ∃ prev, st.chainwork block.header.prevBlockHash = some prev ∧
      (block.header.prevBlockHash ≠ id → st'.bodies = update st.bodies id (some block) ∧
        st'.chainwork = update st.chainwork id
          (some (saturatingAdd prev (calculateWorkFromBits rules block.header.bits))) ∧
        (st'.tip = id ∧ (block.header.prevBlockHash = st.tip ∨
            chainworkAt st' st.tip < chainworkAt st' id) ∨
          st'.tip = st.tip ∧ (id = st.tip ∨ chainworkAt st' id ≤ chainworkAt st' st.tip))) := by
  intro id
  rw [storeTurn, Option.bind_eq_bind, Option.bind_eq_some_iff] at h
  obtain ⟨cached, hcached, hmoved⟩ := h
  rw [cacheBlockChainwork, chainworkForHeader_of_pos hpos, Option.map_map,
    map_eq_some_iff] at hcached
  obtain ⟨prev, hprev, hcached⟩ := hcached
  refine ⟨prev, hprev, fun hself => ?_⟩
  set work := saturatingAdd prev (calculateWorkFromBits rules block.header.bits)
  have hbodies : cached.bodies = update st.bodies id (some block) := by
    rw [← hcached]
    rfl
  have htip : cached.tip = st.tip := by
    rw [← hcached]
    rfl
  have hwork : cached.chainwork = update st.chainwork id (some work) := by
    rw [← hcached]
    rfl
  have hparent : cached.chainwork block.header.prevBlockHash = some prev := by
    rw [hwork, update_of_ne hself]
    exact hprev
  -- the tip is written with the chainwork that is cached already
  have hagain : update cached.chainwork id (some work) = cached.chainwork := by
    rw [hwork, update_idem]
  rw [← hbodies, ← hwork]
  split_ifs at hmoved with hextends
  · rw [updateTip_of_parent hpos hparent, hagain, some.injEq] at hmoved
    subst hmoved
    exact ⟨rfl, rfl, .inl ⟨rfl, .inl hextends⟩⟩
  · rw [tryActivateFork] at hmoved
    split_ifs at hmoved with hactivates
    · obtain ⟨newHeight, _, hmoved⟩ := bind_eq_some_iff.mp hmoved
      have hlinked : (linkIndex cached verdict.linked).chainwork block.header.prevBlockHash =
          some prev := hparent
      rw [updateTip_of_parent newHeight.pos hlinked, some.injEq] at hmoved
      subst hmoved
      rw [shouldActivateOverActiveTip, htip, Bool.and_eq_true, decide_eq_true_eq,
        decide_eq_true_eq] at hactivates
      have hsame : update (linkIndex cached verdict.linked).chainwork id (some work) =
          cached.chainwork := hagain
      have hwins := hactivates.2
      rw [chainworkAt, chainworkAt, ← hsame] at hwins
      exact ⟨rfl, hsame, .inl ⟨rfl, .inr hwins⟩⟩
    · rw [some.injEq] at hmoved
      subst hmoved
      refine ⟨rfl, rfl, .inr ⟨htip, ?_⟩⟩
      rw [shouldActivateOverActiveTip, htip, Bool.and_eq_true, decide_eq_true_eq,
        decide_eq_true_eq, not_and_or, not_not, not_lt] at hactivates
      exact hactivates

theorem WorkCached.accepted_subset (hst : WorkCached rules genesis known st) :
    st.accepted rules ⊆ known := by
  rintro header ⟨block, hbody, rfl⟩
  exact hst.mem _ block hbody

section

variable (hrooted : RootedHeaders rules genesis known) (hst : WorkCached rules genesis known st)
    (hblock : block.header ∈ known)
include hrooted hst hblock

theorem WorkCached.proper_child
    (hprev : st.chainwork block.header.prevBlockHash = some prev) : block.header ≠ genesis ∧
      block.header.prevBlockHash ≠ rules.headerHash block.header := by
  have hparent := (hst.exact _ _).mp hprev
  have hne : block.header ≠ genesis := by
    intro heq
    rw [heq] at hparent
    exact not_root hrooted hst.accepted_subset hparent
  refine ⟨hne, fun hself => ?_⟩
  exact not_self hrooted hst.accepted_subset hblock hne hself hparent hself

theorem WorkCached.stored_again {w : ℕ}
    (hprev : st.chainwork block.header.prevBlockHash = some prev)
    (hw : st.chainwork (rules.headerHash block.header) = some w) :
    block.header ∈ st.accepted rules ∧
      w = prev + calculateWorkFromBits rules block.header.bits := by
  have hne := (hst.proper_child hrooted hblock hprev).1
  obtain ⟨hmem, work, hparent, rfl⟩ := parent_of_hash hrooted hst.accepted_subset
    hblock hne ((hst.exact _ _).mp hw)
  have hsame := (hst.exact _ _).mpr hparent
  rw [hprev, some.injEq] at hsame
  exact ⟨hmem, by rw [hsame]⟩

theorem accepted_update
    (hbodies : st'.bodies = update st.bodies (rules.headerHash block.header) (some block)) :
    st'.accepted rules = insert block.header (st.accepted rules) := by
  ext header
  rw [Set.mem_insert_iff]
  constructor
  · rintro ⟨body, hbody, hheader⟩
    rw [hbodies] at hbody
    by_cases heq : rules.headerHash header = rules.headerHash block.header
    · rw [heq, update_self, some.injEq] at hbody
      rw [← hheader, hbody]
      exact .inl rfl
    · rw [update_of_ne heq] at hbody
      exact .inr ⟨body, hbody, hheader⟩
  · rintro (rfl | ⟨body, hbody, rfl⟩)
    · exact ⟨block, by rw [hbodies, update_self], rfl⟩
    · by_cases heq : rules.headerHash body.header = rules.headerHash block.header
      · have hsame := hrooted.inj (hst.mem _ body hbody) hblock heq
        exact ⟨block, by rw [hbodies, heq, update_self], hsame.symm⟩
      · exact ⟨body, by rw [hbodies, update_of_ne heq]; exact hbody, rfl⟩

theorem WorkCached.exact_update
    (hprev : st.chainwork block.header.prevBlockHash = some prev) (h : Hash) (w : ℕ) :
    update st.chainwork (rules.headerHash block.header)
        (some (prev + calculateWorkFromBits rules block.header.bits)) h = some w ↔
      AncestorWork rules genesis (insert block.header (st.accepted rules)) h w := by
  obtain ⟨hne, hself⟩ := hst.proper_child hrooted hblock hprev
  have hparent := (hst.exact _ _).mp hprev
  have hsub : insert block.header (st.accepted rules) ⊆ known :=
    Set.insert_subset hblock hst.accepted_subset
  cases hagain : st.chainwork (rules.headerHash block.header) with
  | some again =>
    obtain ⟨hmem, rfl⟩ := hst.stored_again hrooted hblock hprev hagain
    rw [← hagain, update_eq_self, Set.insert_eq_of_mem hmem]
    exact hst.exact h w
  | none =>
    constructor
    · intro hw
      by_cases heq : h = rules.headerHash block.header
      · subst heq
        rw [update_self, some.injEq] at hw
        rw [← hw]
        exact .child (Set.mem_insert _ _) (hparent.mono (Set.subset_insert _ _))
      · rw [update_of_ne heq] at hw
        exact ((hst.exact h w).mp hw).mono (Set.subset_insert _ _)
    · intro hw
      induction hw with
      | genesis =>
        have hother : rules.headerHash genesis ≠ rules.headerHash block.header :=
          fun heq => hne (hrooted.inj hblock hrooted.genesisKnown heq.symm)
        rw [update_of_ne hother]
        exact (hst.exact _ _).mpr .genesis
      | @child header work hmem hold ih =>
        rcases Set.mem_insert_iff.mp hmem with rfl | hmem
        · rw [update_of_ne hself, hprev, some.injEq] at ih
          rw [update_self, ih]
        · -- an older block does not rest on the new one
          have hold' : header ≠ genesis := by
            rintro rfl
            exact not_root hrooted hsub hold
          obtain ⟨body, hbody, hheader⟩ := hmem
          obtain ⟨cached, hcached⟩ := hst.cached _ body hbody
          obtain ⟨_, work', hwork', _⟩ := parent_of_hash hrooted
            hst.accepted_subset (hheader ▸ hst.mem _ body hbody) hold'
            ((hst.exact _ _).mp hcached)
          have hbelow : header.prevBlockHash ≠ rules.headerHash block.header := by
            intro heq
            have hsome := (hst.exact _ _).mpr hwork'
            rw [heq, hagain] at hsome
            cases hsome
          rw [update_of_ne hbelow] at ih
          have hchild := (hst.exact _ _).mpr
            (.child ⟨body, hbody, hheader⟩ ((hst.exact _ _).mp ih))
          rwa [update_of_ne]
          intro heq
          rw [heq, hagain] at hchild
          cases hchild

end

theorem WorkCached.store (hrooted : RootedHeaders rules genesis known)
    (hsat : NoSaturation rules genesis known) (hst : WorkCached rules genesis known st)
    (hblock : block.header ∈ known) (hpos : 0 < height)
    (h : storeTurn rules st block height verdict = some st') :
    WorkCached rules genesis known st' ∧ chainworkAt st st.tip ≤ chainworkAt st' st'.tip := by
  obtain ⟨prev, hprev, hspec⟩ := storeTurn_spec hpos h
  obtain ⟨hbodies, hwork, htip⟩ := hspec (hst.proper_child hrooted hblock hprev).2
  have hwork' : st'.chainwork = update st.chainwork (rules.headerHash block.header)
      (some (prev + calculateWorkFromBits rules block.header.bits)) := by
    rw [hwork, saturatingAdd_eq]
    apply hsat (rules.headerHash block.header)
    exact .child hblock (((hst.exact _ _).mp hprev).mono hst.accepted_subset)
  have hself' : st'.chainwork (rules.headerHash block.header) =
      some (prev + calculateWorkFromBits rules block.header.bits) := by
    rw [hwork', update_self]
  obtain ⟨top, htop, hmax⟩ := hst.tip
  -- the tip keeps its chainwork, also if it is the stored block itself
  have htop' : st'.chainwork st.tip = some top := by
    by_cases heq : st.tip = rules.headerHash block.header
    · rw [heq] at htop ⊢
      rw [hself', (hst.stored_again hrooted hblock hprev htop).2]
    · rw [hwork', update_of_ne heq, htop]
  -- the new tip has at least the old work and that of the stored block
  have hnew : ∃ w, st'.chainwork st'.tip = some w ∧ top ≤ w ∧
      prev + calculateWorkFromBits rules block.header.bits ≤ w := by
    simp only [chainworkAt, htop', hself', getD_some] at htip
    rcases htip with ⟨hmoved, hextends | hheavier⟩ | ⟨hkept, hsame | hlighter⟩
    · rw [hmoved, hself']
      rw [hextends, htop, some.injEq] at hprev
      exact ⟨_, rfl, by omega, le_rfl⟩
    · rw [hmoved, hself']
      exact ⟨_, rfl, hheavier.le, le_rfl⟩
    · rw [hkept, htop']
      rw [hsame, htop', some.injEq] at hself'
      exact ⟨_, rfl, le_rfl, hself'.ge⟩
    · rw [hkept, htop']
      exact ⟨_, rfl, le_rfl, hlighter⟩
  obtain ⟨new, hnewWork, htopLe, hblockLe⟩ := hnew
  refine ⟨⟨?_, ?_, ?_, ?_, ⟨new, hnewWork, ?_⟩, ?_⟩, ?_⟩
  · intro h w
    rw [hwork', accepted_update hrooted hst hblock hbodies]
    exact hst.exact_update hrooted hblock hprev h w
  · intro h body hbody
    rw [hbodies, update_apply] at hbody
    split_ifs at hbody with heq
    · exact ⟨_, heq ▸ hself'⟩
    · obtain ⟨w, hw⟩ := hst.cached h body hbody
      exact ⟨w, by rw [hwork', update_of_ne heq, hw]⟩
  · intro h body hbody
    rw [hbodies, update_apply] at hbody
    split_ifs at hbody with heq
    · rw [← some.inj hbody, heq]
    · exact hst.keyed h body hbody
  · intro h body hbody
    rw [hbodies, update_apply] at hbody
    split_ifs at hbody
    · cases hbody
      exact hblock
    · exact hst.mem h body hbody
  · intro h w hw
    rw [hwork', update_apply] at hw
    split_ifs at hw
    · exact some.inj hw ▸ hblockLe
    · exact (hmax h w hw).trans htopLe
  · rw [hold_storeTurn h]
    exact hst.held
  · rw [chainworkAt, chainworkAt, htop, hnewWork]
    exact htopLe

theorem WorkCached.withHold (hst : WorkCached rules genesis known st)
    {hold : List (ForkBlock Body)} (hheld : ∀ block ∈ hold, block.header ∈ known) :
    WorkCached rules genesis known { st with hold := hold } :=
  { hst with held := hheld }

theorem mem_park {hold : List (ForkBlock Body)} {item : ForkBlock Body}
    (hitem : item ∈ park rules hold block) : item ∈ hold ∨ item = block := by
  rw [park] at hitem
  split_ifs at hitem
  · exact .inl hitem
  · exact (mem_append.mp hitem).imp mem_of_mem_tail mem_singleton.mp
  · exact (mem_append.mp hitem).imp_right mem_singleton.mp

theorem WorkCached.forkLoop (hrooted : RootedHeaders rules genesis known)
    (hsat : NoSaturation rules genesis known) {verdicts : ℕ → TurnVerdict} {fuel turn : ℕ}
    {loop : ForkLoop Body} {b : Bool} (hst : WorkCached rules genesis known loop.chain)
    (hpending : ∀ block ∈ loop.pending, block.header ∈ known)
    (h : BlvmNode.forkLoop rules verdicts fuel turn loop = .ok (b, st')) :
    WorkCached rules genesis known st' ∧
      chainworkAt loop.chain loop.chain.tip ≤ chainworkAt st' st'.tip := by
  induction fuel generalizing turn loop with
  | zero => simp [BlvmNode.forkLoop] at h
  | succ fuel ih =>
    obtain ⟨chain, pending, storedAny, heldAny⟩ := loop
    cases pending with
    | nil =>
      simp only [BlvmNode.forkLoop, Except.ok.injEq, Prod.mk.injEq] at h
      rw [← h.2]
      exact ⟨hst, le_rfl⟩
    | cons block rest =>
      rw [forall_mem_cons] at hpending
      simp only [BlvmNode.forkLoop] at h
      split at h
      next => cases h
      next => exact @ih _ ⟨chain, rest, storedAny, heldAny⟩ hst hpending.2 h
      next hold hturn =>
        refine @ih _ ⟨{ chain with hold := hold }, rest, storedAny, true⟩
          (hst.withHold ?_) hpending.2 h
        intro item hitem
        rw [forkTurn_held hturn] at hitem
        rcases mem_park hitem with hold | rfl
        · exact hst.held item hold
        · exact hpending.1
      next =>
        split_ifs at h
        · exact @ih _ ⟨chain, rest, storedAny, heldAny⟩ hst hpending.2 h
        · simp only [Except.ok.injEq, Prod.mk.injEq] at h
          rw [← h.2]
          exact ⟨hst, le_rfl⟩
      next stored hturn =>
        obtain ⟨height, hpos, hstore⟩ := forkTurn_stored hturn
        obtain ⟨hstored, hmono⟩ := hst.store hrooted hsat hpending.1 hpos hstore
        have hsplit : ∀ item, item ∈ (takeChildren stored.hold
            (rules.headerHash block.header)).1 ∨ item ∈ (takeChildren stored.hold
              (rules.headerHash block.header)).2 → item ∈ stored.hold := by
          intro item hitem
          rw [takeChildren, partition_eq_filter_filter] at hitem
          exact hitem.elim mem_of_mem_filter mem_of_mem_filter
        obtain ⟨hfinal, hrise⟩ := ih
          (hstored.withHold fun item hitem => hstored.held item (hsplit item (.inr hitem)))
          (fun item hitem => (mem_append.mp hitem).elim (hpending.2 item)
            fun hchild => hstored.held item (hsplit item (.inl hchild))) h
        exact ⟨hfinal, hmono.trans hrise⟩

end Work

theorem WorkCached.init (hsat : NoSaturation rules genesis known)
    (headers : Hash → Option BlockHeader) (hashToHeight : Hash → Option ℕ) :
    WorkCached rules genesis known
      (initializeWithParams rules genesis headers hashToHeight : ForkState Body) := by
  have hwork : saturatingAdd 0 (calculateWorkFromBits rules genesis.bits) =
      calculateWorkFromBits rules genesis.bits := by
    rw [saturatingAdd_eq, Nat.zero_add]
    rw [Nat.zero_add]
    exact hsat _ _ .genesis
  have hnone : ((initializeWithParams rules genesis headers hashToHeight :
      ForkState Body).accepted rules) = ∅ := by
    apply Set.eq_empty_of_forall_notMem
    rintro header ⟨block, hbody, _⟩
    cases hbody
  refine ⟨fun h w => ?_, nofun, nofun, nofun, ?_, nofun⟩
  · rw [hnone, initializeWithParams, hwork]
    simp only [update_apply]
    constructor
    · intro hw
      split_ifs at hw with heq
      rw [heq, ← some.inj hw]
      exact .genesis
    · intro hw
      cases hw with
      | genesis => exact if_pos rfl
      | child hmem _ => exact absurd hmem (Set.notMem_empty _)
  · refine ⟨calculateWorkFromBits rules genesis.bits, ?_, fun h w hw => ?_⟩
    · simp only [initializeWithParams, hwork, update_self]
    · simp only [initializeWithParams, hwork, update_apply] at hw
      split_ifs at hw
      exact (some.inj hw).ge

theorem WorkCached.call (hrooted : RootedHeaders rules genesis known)
    (hsat : NoSaturation rules genesis known) (hst : WorkCached rules genesis known st)
    {call : ForkCall Body} (hcall : call.block.header ∈ known)
    (h : (st.processBlockWithForkChoice rules call).map Prod.snd = .ok st') :
    WorkCached rules genesis known st' ∧ chainworkAt st st.tip ≤ chainworkAt st' st'.tip := by
  cases hres : st.processBlockWithForkChoice rules call with
  | error e =>
    rw [hres] at h
    cases h
  | ok res =>
    obtain ⟨b, final⟩ := res
    rw [hres] at h
    cases h
    apply hst.forkLoop hrooted hsat _ hres
    exact fun _ hblock => mem_singleton.mp hblock ▸ hcall

theorem runCalls_append (first second : List (ForkCall Body)) :
    runCalls rules st (first ++ second) =
      (runCalls rules st first).bind (fun st => runCalls rules st second) := by
  rw [runCalls, foldlM_append]
  rfl

theorem runCalls_singleton (call : ForkCall Body) :
    runCalls rules st [call] = (st.processBlockWithForkChoice rules call).map Prod.snd := by
  rw [runCalls, foldlM_cons]
  exact bind_pure _

theorem WorkCached.run (hrooted : RootedHeaders rules genesis known)
    (hsat : NoSaturation rules genesis known) (hst : WorkCached rules genesis known st)
    {calls : List (ForkCall Body)} (hcalls : ∀ call ∈ calls, call.block.header ∈ known)
    (h : runCalls rules st calls = .ok st') : WorkCached rules genesis known st' := by
  induction calls generalizing st with
  | nil =>
    cases h
    exact hst
  | cons call rest ih =>
    rw [forall_mem_cons] at hcalls
    rw [← singleton_append, runCalls_append, runCalls_singleton] at h
    cases hfirst : (st.processBlockWithForkChoice rules call).map Prod.snd with
    | error e =>
      rw [hfirst] at h
      cases h
    | ok mid =>
      rw [hfirst] at h
      exact ih (hst.call hrooted hsat hcalls.1 hfirst).1 hcalls.2 h

/-- In every sequence of calls that return `Ok`, cached chainwork is the sum of the proofs from
genesis, no stored block has more than the tip, and the work behind the tip does not go down. -/
theorem active_tip_carries_most_work (rules : PowRules) (genesis : BlockHeader)
    (headers : Hash → Option BlockHeader) (hashToHeight : Hash → Option ℕ)
    (calls : List (ForkCall Body)) (known : Set BlockHeader)
    (hknown : ∀ call ∈ calls, call.block.header ∈ known)
    (hrooted : RootedHeaders rules genesis known) (hsat : NoSaturation rules genesis known)
    (n : ℕ) (st : ForkState Body)
    (hrun : runCalls rules (initializeWithParams rules genesis headers hashToHeight)
      (calls.take n) = .ok st) :
    (∀ h block, st.bodies h = some block → ∃ w, st.chainwork h = some w ∧
      ∀ w', AncestorWork rules genesis (st.accepted rules) h w' ↔ w' = w) ∧
    (∀ h block, st.bodies h = some block → chainworkAt st h ≤ chainworkAt st st.tip) ∧
    ∀ st', runCalls rules (initializeWithParams rules genesis headers hashToHeight)
      (calls.take (n + 1)) = .ok st' → chainworkAt st st.tip ≤ chainworkAt st' st'.tip := by
  have hst : WorkCached rules genesis known st := by
    apply (WorkCached.init hsat headers hashToHeight).run hrooted hsat _ hrun
    exact fun call hcall => hknown call (mem_of_mem_take hcall)
  refine ⟨fun h block hbody => ?_, fun h block hbody => ?_, fun st' hnext => ?_⟩
  · obtain ⟨w, hw⟩ := hst.cached h block hbody
    refine ⟨w, hw, fun w' => ?_⟩
    rw [← hst.exact, hw, some.injEq, eq_comm]
  · obtain ⟨w, hw⟩ := hst.cached h block hbody
    obtain ⟨top, htop, hmax⟩ := hst.tip
    rw [chainworkAt, chainworkAt, hw, htop]
    exact hmax h w hw
  · rw [take_add_one, runCalls_append, hrun] at hnext
    cases hcall : calls[n]? with
    | none =>
      rw [hcall] at hnext
      cases hnext
      exact le_rfl
    | some call =>
      rw [hcall] at hnext
      have hlast : (st.processBlockWithForkChoice rules call).map Prod.snd = .ok st' := by
        rw [← runCalls_singleton]
        exact hnext
      exact (hst.call hrooted hsat (hknown call (mem_of_getElem? hcall)) hlast).2

section Concrete

def forkHeaders : List BlockHeader :=
  [nonceHeader 1 0 1, nonceHeader 2 1 1, nonceHeader 3 1 1, nonceHeader 4 3 5]

def takeEveryFork : ℕ → TurnVerdict := fun _ => ⟨false, true, true, [], some 2⟩

def forkCalls : List (ForkCall Unit) :=
  [nonceHeader 2 1 1, nonceHeader 4 3 5, nonceHeader 3 1 1].map fun header =>
    ⟨⟨header, ()⟩, takeEveryFork⟩

def forkStart : ForkState Unit :=
  initializeWithParams nonceRules (nonceHeader 1 0 1)
    (fun hash => if hash = 3#256 then some (nonceHeader 3 1 1) else none) (fun _ => none)

theorem rootedHeaders_fork :
    RootedHeaders nonceRules (nonceHeader 1 0 1) {header | header ∈ forkHeaders} where
  genesisKnown := mem_cons_self
  inj := fun header hmem header' hmem' heq =>
    inj_on_of_nodup_map (l := forkHeaders) (by decide) hmem hmem' heq
  root := by
    have hroot : ∀ header ∈ forkHeaders,
        nonceRules.headerHash header ≠ (nonceHeader 1 0 1).prevBlockHash := by decide
    exact hroot

theorem noSaturation_fork :
    NoSaturation nonceRules (nonceHeader 1 0 1) {header | header ∈ forkHeaders} := by
  intro h w hw
  have htable : (h, w) ∈ [(1#256, 1), (2#256, 2), (3#256, 2), (4#256, 7)] := by
    induction hw with
    | genesis => decide
    | @child header work hmem _ ih =>
      change header ∈ forkHeaders at hmem
      simp only [forkHeaders, mem_cons, not_mem_nil, or_false] at hmem
      rcases hmem with rfl | rfl | rfl | rfl
      · simp [nonceHeader] at ih
      all_goals
        simp [nonceHeader] at ih
        rw [ih]
        decide
  have hbound : ∀ row ∈ [(1#256, 1), (2#256, 2), (3#256, 2), (4#256, 7)], row.2 < 2 ^ 256 := by
    decide
  exact hbound _ htable

theorem runCalls_fork :
    ∃ st, runCalls nonceRules forkStart forkCalls = .ok st ∧ st.tip = 4#256 := by
  have htip : (runCalls nonceRules forkStart forkCalls).map ForkState.tip = .ok 4#256 := by
    rfl
  cases hrun : runCalls nonceRules forkStart forkCalls with
  | error e =>
    rw [hrun] at htip
    cases htip
  | ok st =>
    rw [hrun] at htip
    exact ⟨st, rfl, Except.ok.inj htip⟩

/-- The parked block is released by its parent and becomes the tip. -/
theorem active_tip_carries_most_work_fork :
    ∃ st, runCalls nonceRules forkStart (forkCalls.take 3) = .ok st ∧ st.tip = 4#256 ∧
      ∀ h block, st.bodies h = some block → chainworkAt st h ≤ chainworkAt st st.tip := by
  obtain ⟨st, hrun, htip⟩ := runCalls_fork
  have hknown : ∀ call ∈ forkCalls, call.block.header ∈ {header | header ∈ forkHeaders} := by
    have hlist : ∀ call ∈ forkCalls, call.block.header ∈ forkHeaders := by
      decide
    exact hlist
  exact ⟨st, hrun, htip, (active_tip_carries_most_work nonceRules (nonceHeader 1 0 1) _ _ forkCalls
    _ hknown rootedHeaders_fork noSaturation_fork 3 st hrun).2.1⟩

end Concrete

end BlvmNode
