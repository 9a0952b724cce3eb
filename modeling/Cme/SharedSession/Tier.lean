import Cme.Interleave.System

/-!
# SharedSession — one domain's local tier

`SharedSession::lock`, `SharedSession::tryLock` and `~Guard`
(`serializers/shared_session.cpp`) on one joined domain. A thread announces itself
in `waiters`, takes the tier's mutex, and keeps the peer's ownership (`held`) for the
next thread of the cohort; a guard's destructor hands the ownership back when it
reads no waiter. What the session's own lock answers, and when a deadline passes,
comes from the `Choice` of a step.

A guard holds the tier's mutex until its destructor ends, so a thread has one guard
at most. `stage` is history, written by the model: where each thread stands.
-/

namespace Cme.SharedSession

open Interleave

/-- Where a thread stands with the tier. -/
inductive Stage where
  /-- Without a guard, and not counted. -/
  | out
  /-- Counted, and at the mutex. -/
  | waiting
  /-- Counted, and its timed attempt at the mutex has failed. -/
  | failed
  /-- Counted, with the mutex. -/
  | entered
  /-- In its call with the mutex, no longer counted. -/
  | inside
  /-- It has a guard. -/
  | guarding
  /-- Its guard's destructor has read the waiters. -/
  | releasing
  deriving DecidableEq, Repr

/-- A waiter that `waiters` counts. -/
def Stage.counted : Stage → Nat
  | .waiting | .failed | .entered => 1
  | _ => 0

/-- `DomainTier_t`. -/
structure State (n : Nat) where
  mutex : Option (Fin n)
  held : Bool
  batch : Nat
  waiters : Nat
  cohortCap : Nat
  stage : Fin n → Stage

inductive Op where
  | addWaiter
  | lockMutex
  | tryLockMutex
  | subtractWaiter
  | loadHeld
  | loadBatch
  | loadCap
  | storeBatch (batch : Nat)
  | resetHeld
  | storeHeld
  /-- `Session::lock` and `Session::tryLock`: whether the domain was obtained. -/
  | sessionLock
  /-- Whether the budget is spent. -/
  | expired
  | returnGuard
  | loadWaiters
  | unlockMutex

abbrev Op.Ret : Op → Type
  | .tryLockMutex | .loadHeld | .sessionLock | .expired => Bool
  | .loadBatch | .loadCap | .loadWaiters => Nat
  | _ => Unit

inductive Choice where
  | any
  | flag (b : Bool)
  deriving Inhabited

variable {n : Nat}

def State.setStage (s : State n) (i : Fin n) (stage : Stage) : State n :=
  { s with stage := Function.update s.stage i stage }

def exec (i : Fin n) : (o : Op) → Choice → State n → Option (o.Ret × State n)
  | .addWaiter, _, s => some ((), { s with waiters := s.waiters + 1 }.setStage i .waiting)
  | .lockMutex, _, s =>
    if s.mutex = none then some ((), { s with mutex := some i }.setStage i .entered) else none
  | .tryLockMutex, .flag b, s =>
    if b = false then some (false, s.setStage i .failed)
    else if s.mutex = none then some (true, { s with mutex := some i }.setStage i .entered)
    else none
  | .subtractWaiter, _, s => some ((), { s with waiters := s.waiters - 1 }.setStage i
      (if s.stage i = Stage.entered then .inside else .out))
  | .loadHeld, _, s => some (s.held, s)
  | .loadBatch, _, s => some (s.batch, s)
  | .loadCap, _, s => some (s.cohortCap, s)
  | .storeBatch batch, _, s => some ((), { s with batch })
  | .resetHeld, _, s => some ((), { s with held := false })
  | .storeHeld, _, s => some ((), { s with held := true })
  | .sessionLock, .flag b, s => some (b, s)
  | .expired, .flag b, s => some (b, s)
  | .returnGuard, _, s => some ((), s.setStage i .guarding)
  | .loadWaiters, _, s => some (s.waiters, s.setStage i .releasing)
  | .unlockMutex, _, s =>
    if s.mutex = some i then some ((), { s with mutex := none }.setStage i .out) else none
  | _, _, _ => none

/-! ### The code -/

abbrev Proc := Prog Op Op.Ret

def act (o : Op) : Proc o.Ret := Prog.perform o

/-- The cohort has no ownership, or has used it up. -/
def mustAcquire : Proc Bool := do
  if ← act .loadHeld then
    let batch : Nat ← act .loadBatch
    pure (decide ((← act .loadCap) ≤ batch))
  else pure true

/-- The end of a call that has its turn. -/
def enterCohort : Proc Unit := do
  act (.storeBatch ((← act .loadBatch) + 1))
  act .returnGuard

/-- `SharedSession::lock`; it throws where `Session::lock` does. -/
def lock : Proc Unit := do
  act .addWaiter
  act .lockMutex
  act .subtractWaiter
  if ← mustAcquire then
    act (.storeBatch 0)
    act .resetHeld
    if ← act .sessionLock then
      act .storeHeld
      enterCohort
    else act .unlockMutex
  else enterCohort

/-- `SharedSession::tryLock`. -/
def tryLock : Proc Unit := do
  act .addWaiter
  let entered ← act .tryLockMutex
  act .subtractWaiter
  if entered = false then pure ()
  else if ← mustAcquire then
    act (.storeBatch 0)
    act .resetHeld
    if ← act .expired then act .unlockMutex
    else if ← act .sessionLock then
      act .storeHeld
      enterCohort
    else act .unlockMutex
  else enterCohort

def releaseCohort : Proc Unit := do
  if (← act .loadWaiters) = 0 then
    act .resetHeld
    act (.storeBatch 0)
  else pure ()

/-- `~Guard`, of a guard that owns its lock. -/
def destroyGuard : Proc Unit := do
  releaseCohort
  act .unlockMutex

inductive Call where
  | lock
  | tryLock
  | destroyGuard

/-- A thread with a guard would wait for itself; one without has none to destroy. -/
def start (i : Fin n) (call : Call) (s : State n) : Option (Proc Unit) :=
  match call with
  | .lock => if s.stage i = .out then some lock else none
  | .tryLock => if s.stage i = .out then some tryLock else none
  | .destroyGuard => if s.stage i = .guarding then some destroyGuard else none

inductive Env where
  | setCohortCap (cap : Nat)

def env : Env → State n → Option (State n)
  | .setCohortCap cap, s => some { s with cohortCap := cap }

def system (n : Nat) : System (Fin n) Op Op.Ret (State n) Choice Call Env where
  exec := exec
  start := start
  env := env
  kills _ _ := false

/-- A tier nobody has used. -/
def fresh (n : Nat) (cohortCap : Nat) : State n where
  mutex := none
  held := false
  batch := 0
  waiters := 0
  cohortCap
  stage _ := .out

def idle (n : Nat) (cohortCap : Nat) : Config (Fin n) Op Op.Ret (State n) :=
  ⟨fresh n cohortCap, fun _ => .done ()⟩

end Cme.SharedSession
