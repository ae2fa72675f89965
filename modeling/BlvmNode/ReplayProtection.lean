import BlvmNode.Lib.GuardedRun
import BlvmNode.Lib.KeyTable

/-!
# Replay protection of custom messages

A message is fresh when the timestamp of its sender lies in a window around the local clock; its id
is remembered when it is accepted and forgotten after the expiration. It can be accepted again as
soon as its id is forgotten while its timestamp is still in the window.
-/

namespace BlvmNode

open KeyTable

inductive ReplayError
  | duplicateMessageId (id : String)
  | timestampTooOld (age : ℤ) (max : ℕ)
  | timestampTooFuture (ahead : ℤ) (max : ℕ)
  | duplicateRequestId (id : ℕ)
  | requestIdTableFull
  deriving DecidableEq

/-- The tables and the configuration, times in seconds. -/
structure ReplayProtection where
  messageIds : KeyTable String ℕ
  requestIds : KeyTable ℕ ℕ
  messageIdExpiration : ℕ
  requestIdExpiration : ℕ
  futureTolerance : ℕ

open ReplayProtection

def maxTrackedRequestIds : ℕ := 100000

/-- The `i64` a result wraps to. -/
def wrapI64 (n : ℤ) : ℤ := n.bmod (2 ^ 64)

theorem wrapI64_of_range {n : ℤ} (hlo : -2 ^ 63 ≤ n) (hhi : n < 2 ^ 63) : wrapI64 n = n := by
  unfold wrapI64
  apply Int.bmod_eq_of_le <;> omega

def validateTimestampWithTolerance (now : ℕ) (timestamp : ℤ) (maxAge futureTolerance : ℕ) :
    Except ReplayError Unit :=
  let now := wrapI64 now
  if wrapI64 (now + wrapI64 futureTolerance) < timestamp then
    .error (.timestampTooFuture (wrapI64 (timestamp - now)) futureTolerance)
  else if timestamp < wrapI64 (now - wrapI64 maxAge) then
    .error (.timestampTooOld (wrapI64 (now - timestamp)) maxAge)
  else .ok ()

namespace ReplayProtection

def withConfig (messageIdExpiration requestIdExpiration futureTolerance : ℕ) : ReplayProtection :=
  ⟨.empty, .empty, messageIdExpiration, requestIdExpiration, futureTolerance⟩

/-- `check_message_id`, which reads the clock for the window and again for the table. -/
def checkMessageId (rp : ReplayProtection) (id : String) (timestamp : ℤ) (validated stored : ℕ) :
    Except ReplayError Unit × ReplayProtection :=
  match validateTimestampWithTolerance validated timestamp rp.messageIdExpiration
    rp.futureTolerance with
  | .error e => (.error e, rp)
  | .ok _ =>
    if (rp.messageIds.get id).isSome then (.error (.duplicateMessageId id), rp)
    else (.ok (), { rp with messageIds := rp.messageIds.insert id stored })

def checkRequestId (rp : ReplayProtection) (id now : ℕ) :
    Except ReplayError Unit × ReplayProtection :=
  if (rp.requestIds.get id).isSome then (.error (.duplicateRequestId id), rp)
  else
    let rp :=
      if maxTrackedRequestIds ≤ rp.requestIds.rows.length then
        { rp with
          requestIds :=
            rp.requestIds.retain (fun _ t => decide (now - rp.requestIdExpiration < t)) }
      else rp
    if maxTrackedRequestIds ≤ rp.requestIds.rows.length then (.error .requestIdTableFull, rp)
    else (.ok (), { rp with requestIds := rp.requestIds.insert id now })

def cleanup (rp : ReplayProtection) (now : ℕ) : ReplayProtection :=
  { rp with
    messageIds := rp.messageIds.retain (fun _ t => decide (now - rp.messageIdExpiration < t))
    requestIds := rp.requestIds.retain (fun _ t => decide (now - rp.requestIdExpiration < t)) }

variable (rp : ReplayProtection)

theorem checkMessageId_cases (id : String) (timestamp : ℤ)
    {validated : ℕ} (stored : ℕ) (hexpiration : rp.messageIdExpiration < 2 ^ 63)
    (hrange : validated + rp.futureTolerance < 2 ^ 63) :
    if timestamp ≤ validated + rp.futureTolerance ∧ validated ≤ timestamp + rp.messageIdExpiration ∧
        rp.messageIds.get id = none then
      rp.checkMessageId id timestamp validated stored =
        (.ok (), { rp with messageIds := rp.messageIds.insert id stored })
    else ∃ e, rp.checkMessageId id timestamp validated stored = (.error e, rp) := by
  have hnow : wrapI64 validated = validated := wrapI64_of_range (by omega) (by omega)
  have htolerance : wrapI64 rp.futureTolerance = rp.futureTolerance :=
    wrapI64_of_range (by omega) (by omega)
  have hage : wrapI64 rp.messageIdExpiration = rp.messageIdExpiration :=
    wrapI64_of_range (by omega) (by omega)
  have hlatest : wrapI64 (validated + rp.futureTolerance) = validated + rp.futureTolerance :=
    wrapI64_of_range (by omega) (by omega)
  have holdest : wrapI64 (validated - rp.messageIdExpiration) =
      validated - rp.messageIdExpiration := wrapI64_of_range (by omega) (by omega)
  simp only [checkMessageId, validateTimestampWithTolerance, hnow, htolerance, hage, hlatest,
    holdest]
  by_cases hfuture : (validated : ℤ) + rp.futureTolerance < timestamp
  · rw [if_pos hfuture, if_neg (by omega)]
    exact ⟨_, rfl⟩
  · by_cases hold : timestamp < (validated : ℤ) - rp.messageIdExpiration
    · rw [if_neg hfuture, if_pos hold, if_neg (by omega)]
      exact ⟨_, rfl⟩
    · rw [if_neg hfuture, if_neg hold]
      cases hget : rp.messageIds.get id with
      | none =>
        rw [if_pos (by exact ⟨by omega, by omega, rfl⟩)]
        simp
      | some t =>
        rw [if_neg (by simp)]
        exact ⟨_, rfl⟩

theorem checkRequestId_messages (id now : ℕ) :
    (rp.checkRequestId id now).2.messageIds = rp.messageIds ∧
      (rp.checkRequestId id now).2.messageIdExpiration = rp.messageIdExpiration := by
  simp only [checkRequestId]
  split_ifs <;> exact ⟨rfl, rfl⟩

end ReplayProtection

/-- A manager, the local clock, and the messages it has accepted. -/
structure ReplaySystem where
  protection : ReplayProtection
  clock : ℕ
  accepted : List (String × ℤ)

inductive ReplayStep
  | message (id : String) (timestamp : ℤ) (validated stored : ℕ)
  | request (id now : ℕ)
  | cleanup (now locked : ℕ)

namespace ReplaySystem

def opened (rp : ReplayProtection) (clock : ℕ) : ReplaySystem := ⟨rp, clock, []⟩

def step (sys : ReplaySystem) : ReplayStep → ReplaySystem
  | .message id timestamp validated stored =>
    let res := sys.protection.checkMessageId id timestamp validated stored
    { protection := res.2
      clock := stored
      accepted :=
        match res.1 with
        | .ok _ => (id, timestamp) :: sys.accepted
        | .error _ => sys.accepted }
  | .request id now =>
    { sys with protection := (sys.protection.checkRequestId id now).2, clock := now }
  | .cleanup now locked => { sys with protection := sys.protection.cleanup now, clock := locked }

/-- The clock does not go back, and sums of the window do not wrap. A cleanup may use an older
reading, and other calls may overtake a check for `lag` seconds after it has validated. -/
def Ticks (lag : ℕ) (sys : ReplaySystem) : ReplayStep → Prop
  | .message _ _ validated stored => sys.clock ≤ validated + lag ∧ sys.clock ≤ stored ∧
      validated ≤ stored ∧ validated + sys.protection.futureTolerance < 2 ^ 63
  | .request _ now => sys.clock ≤ now
  | .cleanup now locked => now ≤ locked ∧ sys.clock ≤ locked

instance (lag : ℕ) (sys : ReplaySystem) : ∀ s, Decidable (sys.Ticks lag s)
  | .message _ _ _ _ => inferInstanceAs (Decidable (_ ∧ _ ∧ _ ∧ _))
  | .request _ _ => inferInstanceAs (Decidable (_ ≤ _))
  | .cleanup _ _ => inferInstanceAs (Decidable (_ ∧ _))

/-- The message is remembered with a time after its timestamp, or its timestamp has left the
window, both by more than the lag. -/
def Settled (lag : ℕ) (sys : ReplaySystem) (id : String) (timestamp : ℤ) : Prop :=
  (∃ t, sys.protection.messageIds.get id = some t ∧ 0 < t ∧ timestamp + lag < t) ∨
    timestamp + sys.protection.messageIdExpiration + lag < sys.clock

variable {lag : ℕ} {sys : ReplaySystem} {id : String} {timestamp : ℤ}

theorem config_step (sys : ReplaySystem) (s : ReplayStep) :
    (sys.step s).protection.messageIdExpiration = sys.protection.messageIdExpiration := by
  cases s with
  | message id timestamp validated stored =>
    simp only [step, checkMessageId]
    split
    · rfl
    · split_ifs <;> rfl
  | request id now => exact (sys.protection.checkRequestId_messages id now).2
  | cleanup now locked => rfl

/-- A message that is settled stays so, and is not accepted. -/
theorem Settled.step (hsettled : sys.Settled lag id timestamp)
    (hexpiration : sys.protection.messageIdExpiration < 2 ^ 63) {s : ReplayStep}
    (hs : sys.Ticks lag s) :
    (sys.step s).Settled lag id timestamp ∧
      (sys.step s).accepted.count (id, timestamp) = sys.accepted.count (id, timestamp) := by
  cases s with
  | message other sent validated stored =>
    obtain ⟨hlag, hclock, hstored, hrange⟩ := hs
    have hcheck := sys.protection.checkMessageId_cases other sent stored hexpiration hrange
    split_ifs at hcheck with hfresh
    · obtain ⟨_, hwindow, hunknown⟩ := hfresh
      simp only [ReplaySystem.step, hcheck]
      rcases hsettled with ⟨t, ht, hrest⟩ | hold
      · have hid : id ≠ other := by
          rintro rfl
          rw [hunknown] at ht
          cases ht
        refine ⟨.inl ⟨t, ?_, hrest⟩, List.count_cons_of_ne fun heq => hid (Prod.mk.inj heq).1.symm⟩
        rw [get_insert, if_neg hid, ht]
      · have hne : sent ≠ timestamp := by omega
        refine ⟨.inr ?_, List.count_cons_of_ne fun heq => hne (Prod.mk.inj heq).2⟩
        dsimp only
        omega
    · obtain ⟨e, he⟩ := hcheck
      simp only [ReplaySystem.step, he]
      refine ⟨hsettled.imp_right fun hold => ?_, trivial⟩
      dsimp only
      omega
  | request other now =>
    have hclock : sys.clock ≤ now := hs
    obtain ⟨hids, hconfig⟩ := sys.protection.checkRequestId_messages other now
    refine ⟨?_, rfl⟩
    simp only [ReplaySystem.step, Settled, hids, hconfig]
    exact hsettled.imp_right fun hold => by omega
  | cleanup now locked =>
    obtain ⟨hnow, hclock⟩ := hs
    refine ⟨?_, rfl⟩
    simp only [ReplaySystem.step, Settled, cleanup, get_retain]
    rcases hsettled with ⟨t, ht, hpos, hlater⟩ | hold
    · by_cases hkept : now - sys.protection.messageIdExpiration < t
      · exact .inl ⟨t, by simp [ht, hkept], hpos, hlater⟩
      · right
        omega
    · right
      omega

def run (sys : ReplaySystem) (steps : List ReplayStep) : ReplaySystem := steps.foldl step sys

theorem Settled.run (hsettled : sys.Settled lag id timestamp)
    (hexpiration : sys.protection.messageIdExpiration < 2 ^ 63) {steps : List ReplayStep}
    (hsteps : GuardedRun.Guarded ReplaySystem.step (Ticks lag) sys steps) :
    (sys.run steps).accepted.count (id, timestamp) = sys.accepted.count (id, timestamp) := by
  induction steps generalizing sys with
  | nil => rfl
  | cons s steps ih =>
    obtain ⟨hs, hrest⟩ := hsteps
    obtain ⟨hnext, hcount⟩ := hsettled.step hexpiration hs
    rw [← sys.config_step s] at hexpiration
    exact (ih hnext hexpiration hrest).trans hcount

theorem accepted_after_cleanup (sys : ReplaySystem) (timestamp : ℤ) {now validated t : ℕ}
    (hid : sys.protection.messageIds.get id = some t) (hclock : sys.clock ≤ now)
    (hforgotten : t ≤ now - sys.protection.messageIdExpiration)
    (hexpiration : sys.protection.messageIdExpiration < 2 ^ 63)
    (hlag : now ≤ validated + lag) (hvalidated : validated ≤ now)
    (hrange : validated + sys.protection.futureTolerance < 2 ^ 63)
    (hearly : timestamp ≤ validated + sys.protection.futureTolerance)
    (hlate : validated ≤ timestamp + sys.protection.messageIdExpiration) :
    GuardedRun.Guarded step (Ticks lag) sys
        [.cleanup now now, .message id timestamp validated now] ∧
      (sys.run [.cleanup now now, .message id timestamp validated now]).accepted =
        (id, timestamp) :: sys.accepted := by
  have hgone : (sys.protection.cleanup now).messageIds.get id = none := by
    rw [cleanup, get_retain, hid, Option.filter_some, decide_eq_false (by omega)]
    rfl
  have hcheck := (sys.protection.cleanup now).checkMessageId_cases id timestamp now hexpiration
    hrange
  rw [if_pos ⟨hearly, hlate, hgone⟩] at hcheck
  refine ⟨⟨⟨le_rfl, hclock⟩, ⟨hlag, le_rfl, hvalidated, hrange⟩, trivial⟩, ?_⟩
  simp only [run, List.foldl_cons, List.foldl_nil, step, hcheck]

end ReplaySystem

/-- An accepted message is never accepted again exactly when its timestamp is before the time at
which its id was stored by more than the lag of a check, and that time is not zero. -/
theorem accepted_message_never_again_iff (lag : ℕ) (sys : ReplaySystem) (id : String)
    (timestamp : ℤ) (validated stored : ℕ)
    (hticks : sys.Ticks lag (.message id timestamp validated stored))
    (haccepted : (sys.protection.checkMessageId id timestamp validated stored).1 = .ok ())
    (hrange : stored + sys.protection.messageIdExpiration + sys.protection.futureTolerance <
      2 ^ 63) :
    let next := sys.step (.message id timestamp validated stored)
    (∀ later, GuardedRun.Guarded ReplaySystem.step (ReplaySystem.Ticks lag) next later →
        (next.run later).accepted.count (id, timestamp) = next.accepted.count (id, timestamp)) ↔
      0 < stored ∧ timestamp + lag < stored := by
  obtain ⟨-, -, hstored, hwindow⟩ := hticks
  have hcheck := sys.protection.checkMessageId_cases id timestamp stored (by omega) hwindow
  split_ifs at hcheck with hfresh
  · obtain ⟨hearly, hlate, -⟩ := hfresh
    have hnext : sys.step (.message id timestamp validated stored) =
        ⟨{ sys.protection with messageIds := sys.protection.messageIds.insert id stored }, stored,
          (id, timestamp) :: sys.accepted⟩ := by
      simp only [ReplaySystem.step, hcheck]
    dsimp only
    generalize sys.step (.message id timestamp validated stored) = next at hnext ⊢
    have hid : next.protection.messageIds.get id = some stored := by
      rw [hnext, get_insert, if_pos rfl]
    have hclock : next.clock = stored := by rw [hnext]
    have hexpiration : next.protection.messageIdExpiration =
        sys.protection.messageIdExpiration := by
      rw [hnext]
    have htolerance : next.protection.futureTolerance = sys.protection.futureTolerance := by
      rw [hnext]
    constructor
    · intro hnever
      by_contra hlost
      -- forget the id as early as possible, at zero at once and otherwise when it expires, and let
      -- the cleanup overtake the check by as much as the lag and the window allow
      have hsoon : ∃ now again : ℕ, stored ≤ now ∧
          stored ≤ now - sys.protection.messageIdExpiration ∧ now ≤ again + lag ∧ again ≤ now ∧
          again + sys.protection.futureTolerance < 2 ^ 63 ∧
          timestamp ≤ again + sys.protection.futureTolerance ∧
          again ≤ timestamp + sys.protection.messageIdExpiration := by
        by_cases hzero : stored = 0
        · exact ⟨0, 0, by omega⟩
        · exact ⟨stored + sys.protection.messageIdExpiration,
            max (stored + sys.protection.messageIdExpiration - lag)
              (timestamp - sys.protection.futureTolerance).toNat, by omega⟩
      obtain ⟨now, again, hlater, hforgotten, hlag, hread, hbound, hbefore, hafter⟩ := hsoon
      rw [← hclock] at hlater
      rw [← hexpiration] at hforgotten hafter
      rw [← htolerance] at hbound hbefore
      obtain ⟨hguarded, hagain⟩ := next.accepted_after_cleanup timestamp hid hlater hforgotten
        (by omega) hlag hread hbound hbefore hafter
      have hcount := hnever _ hguarded
      rw [hagain, List.count_cons_self] at hcount
      omega
    · rintro ⟨hpos, hlater⟩ later hsteps
      have hsettled : next.Settled lag id timestamp := .inl ⟨stored, hid, hpos, hlater⟩
      exact hsettled.run (by omega) hsteps
  · obtain ⟨e, he⟩ := hcheck
    rw [he] at haccepted
    cases haccepted

def defaultReplay : ReplaySystem := .opened (.withConfig 3600 300 300) 1000

/-- A message with the timestamp of its receipt is accepted again when its id expires, and an older
one when the cleanup overtakes its second check. -/
theorem replayed_message_accepted :
    (GuardedRun.Guarded ReplaySystem.step (ReplaySystem.Ticks 0) defaultReplay
      [.message "share" 1000 1000 1000, .cleanup 4600 4600, .message "share" 1000 4600 4600] ∧
    (defaultReplay.run [.message "share" 1000 1000 1000, .cleanup 4600 4600,
      .message "share" 1000 4600 4600]).accepted = [("share", 1000), ("share", 1000)]) ∧
    GuardedRun.Guarded ReplaySystem.step (ReplaySystem.Ticks 1) defaultReplay
      [.message "share" 1000 1001 1001, .cleanup 4601 4601, .message "share" 1000 4600 4601] ∧
    (defaultReplay.run [.message "share" 1000 1001 1001, .cleanup 4601 4601,
      .message "share" 1000 4600 4601]).accepted = [("share", 1000), ("share", 1000)] := by
  decide

/-- A message whose timestamp is a second old stays refused when no check is overtaken. -/
theorem accepted_message_never_again_iff_past :
    let next := defaultReplay.step (.message "share" 999 1000 1000)
    ∀ later, GuardedRun.Guarded ReplaySystem.step (ReplaySystem.Ticks 0) next later →
      (next.run later).accepted.count ("share", 999) = next.accepted.count ("share", 999) :=
  (accepted_message_never_again_iff 0 defaultReplay "share" 999 1000 1000 (by decide) (by decide)
    (by decide)).mpr (by decide)

end BlvmNode
