import Cme.Stake.Line

/-!
# Stake — the claim procedure

`stake::Claim` (`core/algo/stake_claim.hpp`) over the two words it is used with,
`RecoveryClaimWord` (`core/policy/recovery_authority.cpp`) and `LeaseWord`
(`admission/claim.cpp`), and the callers that write under a claim: a recovery
authority between its ticks, and `claimPeerSlot`.
-/

namespace Cme.Stake

open Interleave

/-- The code of a candidate. -/
abbrev Proc := Prog Op Op.Ret

def act (o : Op) : Proc o.Ret := Prog.perform o

inductive Outcome where
  | pending
  | won
  deriving DecidableEq

inductive Phase where
  | idle
  | watching
  | settling
  | holding
  deriving DecidableEq

/-- One candidate's attempt at one word. A `timing::Deadline` is the instant it
ends at, a `timing::Stopwatch` the one it began at. -/
structure Claim where
  phase : Phase
  mine : Value
  watched : Value
  watchedSince : Nat
  stalled : Option Value
  window : Nat

def Claim.fresh : Claim := ⟨.idle, none, none, 0, none, 0⟩

section

variable (lim : Limits) (w : Word) (self : Tid)

/-! ### The words -/

def isClaimantGone : Value → Proc Bool
  | none => pure true
  | some recordedRA =>
    if recordedRA < lim.maxPeers then act (.hasFailed recordedRA) else pure true

def isFree (seen : Value) : Proc Bool :=
  match w with
  | .recovery => if seen = some self then pure true else isClaimantGone lim seen
  | .lease => pure (seen = none)

def makeOwn : Proc Nat :=
  match w with
  | .recovery => pure self
  | .lease => act .getRandomNonce

/-- `publish`; the end of the stake window goes along for the record. -/
def publish (mine window : Nat) : Proc Bool :=
  match w with
  | .recovery => do
    -- judged again on the copy the write is made from
    if ← isFree lim .recovery self (← act .read) then
      act (.stake mine window)
      act (.flush true)
      pure true
    else pure false
  | .lease => do
    act (.stake mine window)
    act (.flush true)
    pure true

/-- `FieldWord::retract`. -/
def retract (mine : Value) : Proc Unit := do
  let copy ← act .read
  match mine with
  | some val =>
    if copy = some val then
      act (.clear val)
      act (.flush false)
    else pure ()
  | none => pure ()

/-! ### The claim -/

def hasStoodTimeout (seen : Value) (claim : Claim) : Proc (Bool × Claim) :=
  match lim.stallTimeout with
  | none => pure (false, claim)
  | some timeout =>
    if claim.phase ≠ .watching ∨ seen ≠ claim.watched then do
      let began ← act .clock
      pure (false, { claim with
        phase := .watching, watched := seen, watchedSince := began, stalled := none })
    else do
      let now ← act .clock
      if now - claim.watchedSince < timeout then pure (false, claim)
      else pure (true, { claim with stalled := some seen, phase := .idle })

/-- One attempt of `tryStake`; no outcome where a watch has ended and a new
attempt re-reads the word. -/
def attemptStake (claim : Claim) : Proc (Option Outcome × Claim) := do
  -- opened before the read
  let stakeWindow := (← act .clock) + lim.window
  let seen ← act .read
  let free ← isFree lim w self seen
  if free = false ∧ claim.stalled ≠ some seen then
    let (stood, claim) ← hasStoodTimeout lim seen claim
    pure (if stood then none else some .pending, claim)
  else
    let claim := { claim with stalled := none }
    let mine ← makeOwn w self
    if ← publish lim w self mine stakeWindow then
      let late := stakeWindow ≤ (← act .clock)
      let opened ← act .clock
      pure (some .pending, { claim with
        mine := some mine
        phase := if late then .holding else .settling
        window := opened + if late then lim.lateHold else lim.settle })
    else pure (some .pending, { claim with phase := .idle })

/-- The watch that ended left `Phase::Idle`, so the second attempt starts no
third. -/
def tryStake (claim : Claim) : Proc (Outcome × Claim) := do
  match ← attemptStake lim w self claim with
  | (some outcome, claim) => pure (outcome, claim)
  | (none, claim) =>
    let (outcome, claim) ← attemptStake lim w self claim
    pure (outcome.getD .pending, claim)

def endSettle (claim : Claim) : Proc (Outcome × Claim) := do
  if (← act .clock) < claim.window then pure (.pending, claim)
  else if (← act .read) = claim.mine then pure (.won, claim)
  else tryStake lim w self { claim with phase := .idle }

def endHold (claim : Claim) : Proc (Outcome × Claim) := do
  if (← act .clock) < claim.window then pure (.pending, claim)
  else
    retract claim.mine
    tryStake lim w self { claim with phase := .idle }

def tick (claim : Claim) : Proc (Outcome × Claim) :=
  match claim.phase with
  | .idle | .watching => tryStake lim w self claim
  | .settling => endSettle lim w self claim
  | .holding => endHold lim w self claim

/-! ### The callers -/

def guardedWrites : Nat → Proc Unit
  | 0 => pure ()
  | n + 1 => do
    act .guardedWrite
    guardedWrites n

/-- `isClaimHeld`. -/
def isMine (mine : Nat) : Proc Bool := do
  pure ((← act .read) = some mine)

/-- The writes a Won answer guards. The caller may look again before some of them
(`isClaimHeld`), and stops where its value no longer stands. -/
def writeUnderClaim (mine : Nat) : Nat → Proc Unit
  | 0 => pure ()
  | n + 1 => do
    act (.enter mine)
    guardedWrites (← act .ask)
    if ← isMine mine then writeUnderClaim mine n else pure ()

/-- A candidate that ticks `n` times. -/
def serve : Nat → Claim → Proc Unit
  | 0, _ => pure ()
  | n + 1, claim => do
    let (outcome, claim) ← tick lim w self claim
    match outcome, claim.mine with
    | .won, some mine => writeUnderClaim mine (← act .ask)
    | _, _ => pure ()
    serve n claim

/-! ### Admission -/

/-- The loop of `acquireLease`, at most `n` turns of it: the nonce that holds the
lease, or none where the deadline has passed. -/
def acquireLeaseLoop (deadline : Nat) : Nat → Claim → Proc (Option Nat)
  | 0, _ => pure none
  | n + 1, claim => do
    if deadline ≤ (← act .clock) then pure none
    else
      match ← tick lim .lease self claim with
      | (.won, claim) => pure claim.mine
      | (.pending, claim) => acquireLeaseLoop deadline n claim

def acquireLease : Proc (Option Nat) := do
  let deadline := (← act .clock) + lim.acquireDeadline
  acquireLeaseLoop lim self deadline (← act .ask) .fresh

/-- The lowest free slot from `peerId` on, of `n` left to look at. -/
def reserveMemberSlot (peerId : Nat) : Nat → Proc (Option Nat)
  | 0 => pure none
  | n + 1 => do
    match ← act (.readSlot peerId) with
    | some none =>
      act (.takeSlot peerId)
      act (.flush false)
      pure (some peerId)
    | _ => reserveMemberSlot (peerId + 1) n

/-- The bound over the slots above `bound`, from `slotsAbove` down. -/
def findScanBound (bound : Nat) : Nat → Proc Nat
  | 0 => pure bound
  | slotsAbove + 1 => do
    if slotsAbove + 1 ≤ bound then pure bound
    else
      match ← act (.readSlot slotsAbove) with
      | some (some _) => pure (slotsAbove + 1)
      | _ => findScanBound bound slotsAbove

def adjustPeerScanBound (peerId : Nat) : Proc Unit := do
  let bound ← findScanBound (peerId + 1) lim.maxPeers
  if (← act .readBound) = bound then pure ()
  else
    act (.storeBound bound)
    act (.flush false)

/-- `claimPeerSlot`; it throws where it answers nothing, and releases the lease on
either way out. -/
def claimPeerSlot : Proc Unit := do
  match ← acquireLease lim self with
  | none => pure ()
  | some nonce =>
    act (.enter nonce)
    match ← reserveMemberSlot 0 lim.maxPeers with
    | some peerId =>
      adjustPeerScanBound lim peerId
      retract (some nonce)
      act (.answer peerId)
    | none => retract (some nonce)

end

/-- What a candidate that has not started yet may start. -/
inductive Call where
  | serve (ticks : Nat)
  | claimPeerSlot

def start (lim : Limits) (w : Word) (i : Tid) (call : Call) (_ : State) :
    Option (Proc Unit) :=
  match w, call with
  | .recovery, .serve n =>
    if i < lim.maxPeers then some (do act .begin; serve lim .recovery i n .fresh) else none
  | .recovery, .claimPeerSlot => none
  | .lease, .serve n => some (do act .begin; serve lim .lease i n .fresh)
  | .lease, .claimPeerSlot => some (do act .begin; claimPeerSlot lim i)

def system (lim : Limits) (w : Word) : System Tid Op Op.Ret State Choice Call Env where
  exec := exec lim
  start := start lim w
  env := env lim
  kills := kills

/-- The region after `format`. -/
def State.fresh (w : Word) : State where
  now := 0
  readAt := 0
  magic := true
  word _ := none
  flying := []
  bids := []
  withdrawals := []
  writes := []
  owner v := match w with
    | .recovery => some v
    | .lease => none
  lastRead _ := 0
  stakedAt _ := 0
  window _ := 0
  published _ := 0
  entered _ := none
  started _ := false
  crashed _ := none
  slots _ _ := none
  takes := []
  slotMagic _ := true
  peerScanBound := 0
  returned _ := none
  left _ := false

def fresh (w : Word) : Config Tid Op Op.Ret State := ⟨.fresh w, fun _ => .done ()⟩

end Cme.Stake
