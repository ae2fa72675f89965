import BlvmNode.Lib.KeyTable

/-!
# The ordered bridge between prefetch workers and validation

Workers complete heights in any order; the bridge parks what is ahead of its cursor and sends the
heights at the cursor on a bounded channel. A full channel leaves the cursor and parks the block.
-/

namespace BlvmNode

open List KeyTable

variable {β : Type} (room : ℕ → Bool)

structure ReadyItem (β : Type) where
  height : ℕ
  body : β

/-- `OrderedReadyInner` without the parts that only the feeder reads. -/
structure OrderedReadyBridge (β : Type) where
  nextExpected : Option ℕ
  pending : KeyTable ℕ (ReadyItem β)

namespace OrderedReadyBridge

/-- The loop of `flush_unlocked`: cursor, pending, sent. The channel takes attempt `i` when `room
i`; `fuel` bounds the removals. -/
def flushLoop (room : ℕ → Bool) :
    ℕ → ℕ → ℕ → KeyTable ℕ (ReadyItem β) → ℕ × KeyTable ℕ (ReadyItem β) × List (ReadyItem β)
  | 0, _, n, pending => (n, pending, [])
  | fuel + 1, i, n, pending =>
    match pending.get n with
    | none => (n, pending, [])
    | some item =>
      if room i then
        let rest := flushLoop room fuel (i + 1) (n + 1) (pending.erase n)
        (rest.1, rest.2.1, item :: rest.2.2)
      else (n, (pending.erase n).insert n item, [])

def new : OrderedReadyBridge β := ⟨none, .empty⟩

def coordinatorWillSendHeight (g : OrderedReadyBridge β) (h : ℕ) : OrderedReadyBridge β :=
  { g with nextExpected := g.nextExpected.or (some h) }

def flushUnlocked (g : OrderedReadyBridge β) (room : ℕ → Bool) :
    OrderedReadyBridge β × List (ReadyItem β) :=
  match g.nextExpected with
  | none => (g, [])
  | some n =>
    let res := flushLoop room g.pending.rows.length 0 n g.pending
    (⟨some res.1, res.2.1⟩, res.2.2)

/-- The end of `worker_complete`: at the cursor with no backlog the item is sent at once. -/
def emitOrPark (g : OrderedReadyBridge β) (h : ℕ) (item : ReadyItem β) (room : ℕ → Bool) :
    OrderedReadyBridge β × List (ReadyItem β) :=
  if g.pending.rows.isEmpty ∧ g.nextExpected = some h then
    if room 0 then ({ g with nextExpected := some (h + 1) }, [item])
    else ({ g with pending := g.pending.insert h item }, [])
  else flushUnlocked { g with pending := g.pending.insert h item } room

/-- `worker_complete` without a feeder; `tipTaken` is `tip_taken_by_validation` for the height. -/
def workerComplete (g : OrderedReadyBridge β) (h : ℕ) (item : ReadyItem β) (validationHeight : ℕ)
    (tipTaken : Bool) (room : ℕ → Bool) : OrderedReadyBridge β × List (ReadyItem β) :=
  let nextNeeded := if 0 < validationHeight then validationHeight + 1 else 0
  let cursor := g.nextExpected.getD (if 0 < nextNeeded then nextNeeded else h)
  let g := { g with nextExpected := some cursor }
  if h < cursor then
    if 0 < nextNeeded ∧ h = nextNeeded ∧ tipTaken = false then
      emitOrPark { g with nextExpected := some h } h item room
    else if nextNeeded = 0 ∨ h ≤ nextNeeded then (g, [])
    else ({ g with pending := g.pending.insert h item }, [])
  else emitOrPark g h item room

theorem flushLoop_spec (fuel i n : ℕ) (pending : KeyTable ℕ (ReadyItem β)) :
    let res := flushLoop room fuel i n pending
    res.1 = n + res.2.2.length ∧
    (∀ j (hj : j < res.2.2.length), pending.get (n + j) = some res.2.2[j]) ∧
    ∀ h, res.2.1.get h = if n ≤ h ∧ h < res.1 then none else pending.get h := by
  induction fuel generalizing i n pending with
  | zero =>
    refine ⟨rfl, fun j hj => absurd hj (Nat.not_lt_zero j), fun h => ?_⟩
    rw [flushLoop, if_neg (by dsimp only; omega)]
  | succ fuel ih =>
    rw [flushLoop]
    cases hget : pending.get n with
    | none =>
      refine ⟨rfl, fun j hj => absurd hj (Nat.not_lt_zero j), fun h => ?_⟩
      rw [if_neg (by dsimp only; omega)]
    | some item =>
      dsimp only
      split_ifs with hroom
      · obtain ⟨hcursor, hsent, hleft⟩ := ih (i + 1) (n + 1) (pending.erase n)
        generalize flushLoop room fuel (i + 1) (n + 1) (pending.erase n) = rest at *
        refine ⟨?_, fun j hj => ?_, fun h => ?_⟩
        · rw [length_cons]
          omega
        · cases j with
          | zero => exact hget
          | succ j =>
            rw [length_cons] at hj
            have hnext := hsent j (by omega)
            rw [get_erase, if_neg (by omega)] at hnext
            rw [getElem_cons_succ, ← hnext]
            congr 1
            omega
        · rw [hleft h, get_erase]
          dsimp only
          split_ifs <;> first | rfl | omega
      · refine ⟨rfl, fun j hj => absurd hj (Nat.not_lt_zero j), fun h => ?_⟩
        rw [if_neg (by dsimp only; omega), get_insert, get_erase]
        split_ifs with heq
        · rw [heq, hget]
        · rfl

theorem flushLoop_stops {fuel : ℕ} (i n : ℕ) {pending : KeyTable ℕ (ReadyItem β)}
    (hfuel : pending.rows.length ≤ fuel) :
    (flushLoop room fuel i n pending).2.1.get (flushLoop room fuel i n pending).1 = none ∨
      ∃ attempt, room attempt = false := by
  induction fuel generalizing i n pending with
  | zero =>
    left
    have hempty : pending.rows = [] := length_eq_zero_iff.mp (Nat.le_zero.mp hfuel)
    rw [flushLoop, KeyTable.get, hempty]
    rfl
  | succ fuel ih =>
    rw [flushLoop]
    cases hget : pending.get n with
    | none => exact .inl hget
    | some item =>
      dsimp only
      split_ifs with hroom
      · have hlt := length_erase_lt hget
        exact ih (i + 1) (n + 1) (by omega)
      · exact .inr ⟨i, Bool.eq_false_of_not_eq_true hroom⟩

end OrderedReadyBridge

open OrderedReadyBridge

/-- The bridge, what it has sent so far, and what workers have completed. -/
structure BridgeSystem (β : Type) where
  bridge : OrderedReadyBridge β
  sent : List (ReadyItem β)
  completed : List (ReadyItem β)

/-- The calls on the bridge; `room` says which attempts to send the channel takes. -/
inductive BridgeStep (β : Type)
  | coordinator (h : ℕ)
  | complete (item : ReadyItem β) (tipTaken : Bool) (room : ℕ → Bool)
  | tryFlush (room : ℕ → Bool)

namespace BridgeSystem

/-- The cursor is primed by the first height of the coordinator. -/
def primed (first : ℕ) : BridgeSystem β :=
  ⟨OrderedReadyBridge.new.coordinatorWillSendHeight first, [], []⟩

def step (sys : BridgeSystem β) : BridgeStep β → BridgeSystem β
  | .coordinator h => { sys with bridge := sys.bridge.coordinatorWillSendHeight h }
  | .complete item tipTaken room =>
    let res := sys.bridge.workerComplete item.height item 0 tipTaken room
    ⟨res.1, sys.sent ++ res.2, item :: sys.completed⟩
  | .tryFlush room =>
    let res := sys.bridge.flushUnlocked room
    { sys with bridge := res.1, sent := sys.sent ++ res.2 }

def run (sys : BridgeSystem β) (steps : List (BridgeStep β)) : BridgeSystem β :=
  steps.foldl step sys

/-- Sent are the heights from the first to the cursor; pending is ahead of it; a completed height is
one or the other. -/
structure InOrder (first : ℕ) (sys : BridgeSystem β) : Prop where
  cursor : sys.bridge.nextExpected = some (first + sys.sent.length)
  heights : sys.sent.map ReadyItem.height = List.range' first sys.sent.length
  ahead : ∀ h item, sys.bridge.pending.get h = some item →
    first + sys.sent.length ≤ h ∧ item.height = h ∧ item ∈ sys.completed
  delivered : ∀ item ∈ sys.sent, item ∈ sys.completed
  kept : ∀ item ∈ sys.completed, first ≤ item.height →
    item.height < first + sys.sent.length ∨ (sys.bridge.pending.get item.height).isSome = true

variable {first : ℕ} {sys : BridgeSystem β}

theorem InOrder.primed (first : ℕ) : (BridgeSystem.primed (β := β) first).InOrder first where
  cursor := rfl
  heights := rfl
  ahead := fun h item hitem => by cases hitem
  delivered := fun item hitem => by cases hitem
  kept := fun item hitem => by cases hitem

section

variable (hsys : sys.InOrder first)
include hsys

theorem InOrder.flush : InOrder first { sys with
      bridge := (sys.bridge.flushUnlocked room).1
      sent := sys.sent ++ (sys.bridge.flushUnlocked room).2 } := by
  simp only [flushUnlocked, hsys.cursor]
  obtain ⟨hcursor, hsent, hleft⟩ := flushLoop_spec room
    sys.bridge.pending.rows.length 0 (first + sys.sent.length) sys.bridge.pending
  generalize flushLoop room sys.bridge.pending.rows.length 0
    (first + sys.sent.length) sys.bridge.pending = res at *
  have hitems : ∀ j (hj : j < res.2.2.length),
      res.2.2[j].height = first + sys.sent.length + j ∧ res.2.2[j] ∈ sys.completed := fun j hj =>
    (hsys.ahead _ _ (hsent j hj)).2
  constructor
  · rw [hcursor, length_append, Nat.add_assoc]
  · rw [map_append, hsys.heights, length_append, ← range'_append_1]
    congr 1
    apply ext_getElem
    · rw [length_map, length_range']
    · intro j hj _
      rw [length_map] at hj
      rw [getElem_map, getElem_range', (hitems j hj).1, Nat.one_mul]
  · intro h item hitem
    rw [hleft h] at hitem
    split_ifs at hitem with hbetween
    · obtain ⟨hahead, hrest⟩ := hsys.ahead h item hitem
      refine ⟨?_, hrest⟩
      rw [length_append]
      omega
  · intro item hitem
    rcases mem_append.mp hitem with hitem | hitem
    · exact hsys.delivered item hitem
    · obtain ⟨j, hj, rfl⟩ := getElem_of_mem hitem
      exact (hitems j hj).2
  · intro item hitem hfirst
    rw [hleft, length_append]
    rcases hsys.kept item hitem hfirst with hlt | hpending
    · left
      omega
    · by_cases hbetween : item.height < res.1
      · left
        omega
      · rw [if_neg (by omega)]
        exact .inr hpending

variable {item : ReadyItem β}

theorem InOrder.drop (hitem : item.height < first + sys.sent.length) :
    InOrder first { sys with completed := item :: sys.completed } where
  cursor := hsys.cursor
  heights := hsys.heights
  ahead := fun h other hother => by
    obtain ⟨hahead, hheight, hmem⟩ := hsys.ahead h other hother
    exact ⟨hahead, hheight, mem_cons_of_mem _ hmem⟩
  delivered := fun other hother => mem_cons_of_mem _ (hsys.delivered other hother)
  kept := fun other hother hfirst => by
    rcases mem_cons.mp hother with rfl | hother
    · exact .inl hitem
    · exact hsys.kept other hother hfirst

theorem InOrder.park (hitem : first + sys.sent.length ≤ item.height) :
    InOrder first
      { sys with
        bridge := { sys.bridge with pending := sys.bridge.pending.insert item.height item }
        completed := item :: sys.completed } where
  cursor := hsys.cursor
  heights := hsys.heights
  ahead := fun h other hother => by
    rw [get_insert] at hother
    split_ifs at hother with heq
    · cases hother
      exact ⟨heq ▸ hitem, heq.symm, mem_cons_self⟩
    · obtain ⟨hahead, hheight, hmem⟩ := hsys.ahead h other hother
      exact ⟨hahead, hheight, mem_cons_of_mem _ hmem⟩
  delivered := fun other hother => mem_cons_of_mem _ (hsys.delivered other hother)
  kept := fun other hother hfirst => by
    rw [get_insert]
    rcases mem_cons.mp hother with rfl | hother
    · rw [if_pos rfl]
      exact .inr rfl
    · split_ifs
      · exact .inr rfl
      · exact hsys.kept other hother hfirst

theorem InOrder.send (hitem : item.height = first + sys.sent.length)
    (hempty : sys.bridge.pending.rows = []) : InOrder first
      { bridge := { sys.bridge with nextExpected := some (item.height + 1) }
        sent := sys.sent ++ [item]
        completed := item :: sys.completed } where
  cursor := by
    rw [length_append, length_singleton, hitem, Nat.add_assoc]
  heights := by
    rw [map_append, hsys.heights, length_append, ← range'_append_1, hitem.symm]
    rfl
  ahead := fun h other hother => by
    rw [KeyTable.get, hempty] at hother
    cases hother
  delivered := fun other hother => by
    rcases mem_append.mp hother with hother | hother
    · exact mem_cons_of_mem _ (hsys.delivered other hother)
    · rw [mem_singleton.mp hother]
      exact mem_cons_self
  kept := fun other hother hfirst => by
    rw [length_append, length_singleton]
    rcases mem_cons.mp hother with rfl | hother
    · left
      omega
    · rcases hsys.kept other hother hfirst with hlt | hpending
      · left
        omega
      · exact .inr hpending

theorem InOrder.complete (item : ReadyItem β) (tipTaken : Bool) (room : ℕ → Bool) :
    (sys.step (.complete item tipTaken room)).InOrder first := by
  have hbridge : { sys.bridge with nextExpected := some (first + sys.sent.length) } =
      sys.bridge := by
    rw [← hsys.cursor]
  simp only [step, workerComplete, hsys.cursor, Option.getD_some, lt_irrefl,
    if_false, false_and, true_or, if_true, hbridge]
  split_ifs with hbelow
  · rw [append_nil]
    exact hsys.drop hbelow
  · unfold emitOrPark
    split_ifs with hfront hroom
    · obtain ⟨hempty, hnext⟩ := hfront
      have hheight : item.height = first + sys.sent.length := by
        rw [hsys.cursor, Option.some.injEq] at hnext
        exact hnext.symm
      exact hsys.send hheight (isEmpty_iff.mp hempty)
    · rw [append_nil]
      exact hsys.park (by omega)
    · exact (hsys.park (by omega)).flush room

theorem InOrder.step (s : BridgeStep β) : (sys.step s).InOrder first := by
  cases s with
  | coordinator h =>
    have hbridge : sys.bridge.coordinatorWillSendHeight h = sys.bridge := by
      rw [coordinatorWillSendHeight, hsys.cursor, Option.some_or, ← hsys.cursor]
    rw [BridgeSystem.step, hbridge]
    exact hsys
  | complete item tipTaken room => exact hsys.complete item tipTaken room
  | tryFlush room => exact hsys.flush room

end

theorem InOrder.run (hsys : sys.InOrder first) (steps : List (BridgeStep β)) :
    (sys.run steps).InOrder first := by
  induction steps generalizing sys with
  | nil => exact hsys
  | cons s steps ih => exact ih (hsys.step s)

/-- Once a flush meets no full channel, the heights sent are those up to which every height from
the first one on is completed. -/
theorem sends_what_is_complete (first : ℕ) (steps : List (BridgeStep β)) (h : ℕ) :
    let sys := (primed first).run (steps ++ [.tryFlush fun _ => true])
    h ∈ sys.sent.map ReadyItem.height ↔
      first ≤ h ∧ ∀ k, first ≤ k → k ≤ h → ∃ item ∈ sys.completed, item.height = k := by
  intro sys
  have hbefore := (InOrder.primed (β := β) first).run steps
  have hsys : sys.InOrder first := (InOrder.primed first).run _
  have hlast : sys.bridge = (((primed first).run steps).bridge.flushUnlocked fun _ => true).1 :=
    congrArg _ (foldl_append ..)
  have hcursor := hsys.cursor
  have hstop : sys.bridge.pending.get (first + sys.sent.length) = none := by
    rw [hlast, flushUnlocked, hbefore.cursor] at hcursor ⊢
    rw [← Option.some.inj hcursor]
    exact (flushLoop_stops _ 0 _ le_rfl).resolve_right (by simp)
  rw [hsys.heights, mem_range'_1]
  constructor
  · rintro ⟨hfirst, hlt⟩
    refine ⟨hfirst, fun k hk hkh => ?_⟩
    have hsent : k ∈ sys.sent.map ReadyItem.height := by
      rw [hsys.heights, mem_range'_1]
      omega
    obtain ⟨item, hitem, rfl⟩ := mem_map.mp hsent
    exact ⟨item, hsys.delivered item hitem, rfl⟩
  · rintro ⟨hfirst, hall⟩
    refine ⟨hfirst, ?_⟩
    by_contra hge
    obtain ⟨item, hitem, hheight⟩ := hall (first + sys.sent.length) (by omega) (by omega)
    simpa [hheight, hstop] using hsys.kept item hitem (by omega)

end BridgeSystem

/-- The bridge sends the heights from the first one on, each once and in order, only completed
items; a completed height is sent or pending at the cursor or above. -/
theorem bridge_delivers_in_order (first : ℕ) (steps : List (BridgeStep β)) :
    let sys := (BridgeSystem.primed first).run steps
    sys.sent.map ReadyItem.height = List.range' first sys.sent.length ∧
      sys.bridge.nextExpected = some (first + sys.sent.length) ∧
      (∀ item ∈ sys.sent, item ∈ sys.completed) ∧
      (∀ item ∈ sys.completed, first ≤ item.height → item.height ∈ sys.sent.map ReadyItem.height ∨
        (sys.bridge.pending.get item.height).isSome = true) ∧
      ∀ h item, sys.bridge.pending.get h = some item →
        first + sys.sent.length ≤ h ∧ item.height = h ∧ item ∈ sys.completed := by
  have hsys := (BridgeSystem.InOrder.primed (β := β) first).run steps
  refine ⟨hsys.heights, hsys.cursor, hsys.delivered, fun item hitem hfirst => ?_, hsys.ahead⟩
  rw [hsys.heights, mem_range'_1]
  exact (hsys.kept item hitem hfirst).imp_left fun hlt => ⟨hfirst, hlt⟩

end BlvmNode
