import Cme.Daemon.Area
import Cme.Interleave.Stage

/-!
# Daemon — a requester at a slot

`Domain_t` of `shared/protocol/shared_area.hpp`, and the part of
`daemon/client/session.cpp` and `daemon/client/guard.cpp` that works on it: the
attempt of `tryLockOnce` from the name to the guard, and the release. What keeps
the mapping in place around an attempt is the subject of `Cme.Client`.
-/

namespace Cme.Daemon

open Interleave

/-! ### `Domain_t` -/

def publish (d : DomainId) (next : RequestState) : Proc Unit := do
  act (.storeState d next)
  act (.addSeq d)

/-- The loop of `awaitState`: `seq` before the state. -/
def awaitStateLoop (d : DomainId) : Nat → Proc (Option RequestState)
  | 0 => do
    act .spin
    pure none
  | turns + 1 => do
    let seen ← act (.loadSeq d)
    let seenState ← act (.awaitLoad d)
    if isAcquireAnswered seenState then pure (some seenState)
    else if ← act .askRemaining then
      act (.waitOnWord d seen)
      awaitStateLoop d turns
    else pure none

def awaitState (d : DomainId) : Proc (Option RequestState) := do
  let turns ← act .askTurns
  awaitStateLoop d turns

def publishGrant (d : DomainId) : Proc Unit := do
  act (.storeResult d 0)
  publish d .lockHeld

def publishFailure (d : DomainId) (failure : Int) : Proc Unit := do
  act (.storeResult d failure)
  publish d .error

def recordAbandonment (d : DomainId) (wasAbandoned : Bool) : Proc Unit :=
  if wasAbandoned then act (.addAbandonCount d) else pure ()

/-- The token falls when the acquire returns. -/
def lockForRequest (d : DomainId) : Proc Unit := do
  act (.addWaiter d)
  let wasAbandoned ← act (.lockMutex d)
  recordAbandonment d wasAbandoned
  act (.subtractWaiter d)

/-- True with the mutex held, false without. -/
def tryLockIfIdle (d : DomainId) : Proc Bool := do
  match ← act (.tryLock d .tryLockIfIdle) with
  | none => pure false
  | some wasAbandoned =>
    recordAbandonment d wasAbandoned
    if (← act (.loadState d)) = .idle then
      if ← act (.hasWaiters d) then
        act (.unlockMutex d)
        pure false
      else pure true
    else
      act (.unlockMutex d)
      pure false

def reclaimAbandoned (d : DomainId) : Proc Bool := do
  match ← act (.tryLock d .reclaimAbandoned) with
  | none => pure false
  | some wasAbandoned =>
    recordAbandonment d wasAbandoned
    if wasAbandoned then
      publish d .idle
      act (.unlockMutex d)
      pure true
    else
      act (.unlockMutex d)
      pure false

/-- The state word first: a slot that is not Live matches nothing. -/
def isNamed (d : DomainId) (wanted : Text) : Proc Bool := do
  if ← act (.isExpectedState d .live) then
    let name ← act (.getName d)
    pure (name == wanted)
  else pure false

/-- `SharedArea_t::resolve`: the lowest slot of that name. -/
def resolve (name : Text) : List DomainId → Proc (Option DomainId)
  | [] => pure none
  | d :: rest => do
    if ← isNamed d name then pure (some d) else resolve name rest

/-! ### The client -/

/-- `resolveId`: out of the cache while that slot still carries the name. -/
def resolveId (lim : Limits) (name : DomainName) : Proc (Option DomainId) := do
  match ← act (.findCached name) with
  | none => resolve name.getText (List.range lim.maxDomains)
  | some cached =>
    if ← isNamed cached name.getText then pure (some cached)
    else resolve name.getText (List.range lim.maxDomains)

/-- `CmedGuard::release`. -/
def release (d : DomainId) : Proc Unit := do
  publish d .idle
  let waiters ← act (.hasWaiters d)
  act (.unlockMutex d)
  if waiters then pure () else act (.ring d)

def noLiveDomain (name : DomainName) : Client.Error :=
  Client.noLiveDomain (String.ofList name.getText)

def lockRefused (name : DomainName) (failure : Int) : Client.Error :=
  .lockRefused ("cmed: daemon refused " ++ String.ofList name.getText) (-failure)

/-- How an attempt ends: with a guard on a slot, without one, or with an error. -/
abbrev Outcome := Except Client.Error (Option DomainId)

/-- The slow path: the guard exists before the answer is judged, so every exit
without it goes through its release. -/
def awaitTurn (name : DomainName) (d : DomainId) : Proc Outcome := do
  publish d .lockRequested
  act (.ring d)
  match ← awaitState d with
  | none =>
    release d
    pure (.ok none)
  | some .error =>
    let failure ← act (.loadResult d)
    release d
    pure (.error (lockRefused name failure))
  | some _ => pure (.ok (some d))

/-- `tryLockOnce` under the slot's mutex. -/
def lockUnderMutex (name : DomainName) (d : DomainId) : Proc Outcome := do
  if ← isNamed d name.getText then
    publish d .lockHeld
    if ← act (.hasValidTurn d) then pure (.ok (some d))
    else
      publish d .idle
      if ← act .isServing then awaitTurn name d
      else
        act (.unlockMutex d)
        pure (.ok none)
  else
    act (.unlockMutex d)
    pure (.error (noLiveDomain name))

/-- `tryLockOnce`, from the area on. -/
def tryLockOnce (lim : Limits) (name : DomainName) : Proc Outcome := do
  match ← resolveId lim name with
  | none => pure (.error (noLiveDomain name))
  | some d => do
    lockForRequest d
    lockUnderMutex name d

/-! ### The session's attempt, at its slot -/

section

variable {W : Type} (session : (o : Client.Op W) → Client.Ret o) (lim : Limits) (name : DomainName)

/-- The operations of `Cme.Client` at the words of the area they are made on. The
session's own count, mapping and guards are no words of an area: `session` answers
for them. -/
def inArea : (o : Client.Op W) → Proc (Client.Ret o)
  | .resolveId _ _ => resolveId lim name
  | .lockForRequest _ d => do
    lockForRequest d
    pure none
  | .isNamed _ d _ => isNamed d name.getText
  | .publish _ d next => publish d next
  | .hasValidTurn _ d => act (.hasValidTurn d)
  | .ring _ d => act (.ring d)
  | .awaitState _ d => awaitState d
  | .getFailureCode _ d => act (.loadResult d)
  | .hasWaiters _ d => act (.hasWaiters d)
  | .unlockMutex _ d => act (.unlockMutex d)
  | .isServing => act .isServing
  | o => pure (session o)

def answerOf : Outcome → Client.Answer
  | .ok none => .empty
  | .ok (some _) => .guard
  | .error e => .threw e

theorem release_in_area (g : Client.Guard) :
    (Client.release g).refine (inArea session lim name) = release g.domain := by
  refine congrArg (publish g.domain .idle >>= ·) (funext fun _ => ?_)
  refine congrArg (act (.hasWaiters g.domain) >>= ·) (funext fun waiters => ?_)
  cases waiters <;> rfl

theorem unlock_in_area (g : Client.Guard) {α : Type} (f : Unit → Client.Proc W α) :
    (Client.unlock g >>= f).refine (inArea session lim name) =
      release g.domain >>= fun _ => (f ()).refine (inArea session lim name) := by
  rw [Client.unlock, Prog.bind_assoc, Prog.refine_bind, release_in_area]
  rfl

theorem awaitTurn_in_area (area : Nat) (d : DomainId) :
    (Client.awaitTurn (String.ofList name.getText) area d).refine (inArea session lim name) =
      awaitTurn name d >>= fun outcome => pure (answerOf outcome) := by
  rw [awaitTurn, Prog.bind_assoc]
  refine bind_congr fun _ => ?_
  rw [Prog.bind_assoc, Prog.bind_assoc]
  refine bind_congr fun _ => bind_congr (x := awaitState d) fun state => ?_
  cases state with
  | none =>
    rw [Prog.bind_assoc]
    exact unlock_in_area ..
  | some state =>
    cases state with
    | error =>
      rw [Prog.bind_assoc]
      refine bind_congr fun failure => ?_
      rw [Prog.bind_assoc]
      exact unlock_in_area ..
    | _ => rfl

theorem lockUnderMutex_in_area (area : Nat) (d : DomainId) :
    (Client.lockUnderMutex (String.ofList name.getText) area d).refine (inArea session lim name) =
      lockUnderMutex name d >>= fun outcome => pure (answerOf outcome) := by
  rw [lockUnderMutex, Prog.bind_assoc]
  refine bind_congr (x := isNamed d name.getText) fun named => ?_
  cases named with
  | false => rfl
  | true =>
    refine bind_congr (x := publish d .lockHeld) fun _ => ?_
    refine bind_congr (x := act (.hasValidTurn d)) fun valid => ?_
    cases valid with
    | true => rfl
    | false =>
      refine bind_congr (x := publish d .idle) fun _ => ?_
      refine bind_congr (x := act .isServing) fun serving => ?_
      cases serving with
      | false => rfl
      | true => exact awaitTurn_in_area ..

/-- **An attempt at its slot is the session's attempt**, made on the words of the
area while the session is open. -/
theorem tryLockOnce_in_area (hopen : session (.loadClosing true) = false) :
    (Client.tryLockOnce (String.ofList name.getText)).refine (inArea session lim name) =
      tryLockOnce lim name >>= fun outcome => pure (answerOf outcome) := by
  have hattempt : (Client.attempt (String.ofList name.getText)).refine (inArea session lim name) =
      tryLockOnce lim name >>= fun outcome => pure (answerOf outcome) := by
    show Prog.refine _ (if session (.loadClosing true) = true then _ else _) = _
    rw [hopen, tryLockOnce, Prog.bind_assoc]
    refine bind_congr (x := resolveId lim name) fun found => ?_
    cases found with
    | none => rfl
    | some d =>
      show (lockForRequest d >>= fun _ => pure none) >>= _ = (lockForRequest d >>= _) >>= _
      rw [Prog.bind_assoc, Prog.bind_assoc]
      exact bind_congr fun _ => lockUnderMutex_in_area ..
  show ((Client.attempt (String.ofList name.getText)) >>= _).refine (inArea session lim name) = _
  rw [Prog.refine_bind, hattempt, Prog.bind_assoc]
  rfl

end

end Cme.Daemon
