import Mathlib.Algebra.BigOperators.Group.Finset.Basic
import Cme.Core.Types
import Cme.Interleave.System

/-!
# Client — a session, its guards and a replaced daemon

`daemon/client/session.cpp` and `daemon/client/guard.cpp`, as far as they touch
the area a session has mapped: the attempts of `tryLock`, the guards they build,
moving and unlocking a guard, and the migration that replaces the area once its
daemon is gone. `holders_` is meant to count the attempts in flight and the
guards out; a migration closes the door, waits for the count to read 0 and then
replaces the mapping.

What another process decides (the words of a domain in the area, the daemon's
answers, the time left) comes from the `Choice` of a step. An area is its number
in the order of mapping, and every access to a word of the area carries the
number of the mapping it goes through.

Guards are objects of one thread at a time. A thread keeps the guards it was
given that still hold an area; the one it is building or giving back is in its
hand. A moved-from guard and one already unlocked hold nothing and are not kept.

History, written by the model and read by nobody: each thread's `Local`, which
thread is inside `migrateLocked`, the guards ever built, whether a drain answered
true with a holder about, whether the area was replaced with a holder in it,
whether a word of a replaced area was touched.
-/

namespace Cme.Client

open Function Interleave

/-- The errors of the client, with their texts. -/
inductive Error where
  | unknownDomain (text : String)
  | lockRefused (text : String) (code : Int)
  | areaNotReady (text : String)
  | areaInvalid (text : String)
  | controlRefused (text : String)
  | backend (text : String)
  deriving DecidableEq, Repr

/-- What `rejoinLocked` catches. -/
def Error.refused : Error → Bool
  | .controlRefused _ => true
  | _ => false

/-- A guard that holds an area. -/
structure Guard where
  area : Nat
  domain : DomainId
  deriving DecidableEq, Repr

/-- What a thread is in the middle of. -/
structure Local where
  /-- Its attempt has counted itself in. -/
  attempt : Bool := false
  /-- That attempt found the door open. -/
  inside : Bool := false
  /-- The mapping that attempt goes through. -/
  area : Option Nat := none
  /-- The guard it is building or giving back. -/
  hand : Option Guard := none
  /-- It holds the control mutex. -/
  control : Bool := false
  /-- It has closed the door. -/
  closed : Bool := false
  /-- Its drain has read 0. -/
  drained : Bool := false
  deriving DecidableEq, Repr

structure State (W : Type) where
  holders : Nat
  closing : Bool
  serving : Bool
  area : Nat
  control : Option W
  guards : W → List Guard
  locals : W → Local
  built : Nat
  drainedInUse : Bool
  replacedInUse : Bool
  stale : Bool
  /-- The thread inside `migrateLocked`, from its closing of the door. -/
  migrating : Option W

/-- The guards of a thread that hold an area. -/
def State.guardsOf {W : Type} (s : State W) (t : W) : Nat :=
  (s.locals t).hand.toList.length + (s.guards t).length

section Counts

variable {W : Type} [Fintype W]

/-- The attempts in flight. -/
def State.attempts (s : State W) : Nat := ∑ t, (s.locals t).attempt.toNat

/-- The guards that still hold an area. -/
def State.guardsOut (s : State W) : Nat := ∑ t, s.guardsOf t

end Counts

/-- The atomic accesses. -/
inductive Op (W : Type) where
  | countIn
  | countOut
  | loadClosing (counted : Bool)
  | storeClosing (b : Bool)
  | loadHolders
  | shared
  | resolveId (area : Nat) (name : String)
  | lockForRequest (area : Nat) (d : DomainId)
  | isNamed (area : Nat) (d : DomainId) (name : String)
  | publish (area : Nat) (d : DomainId) (state : RequestState)
  | hasValidTurn (area : Nat) (d : DomainId)
  | ring (area : Nat) (d : DomainId)
  | awaitState (area : Nat) (d : DomainId)
  | getFailureCode (area : Nat) (d : DomainId)
  | hasWaiters (area : Nat) (d : DomainId)
  | unlockMutex (area : Nat) (d : DomainId)
  | isServing
  | buildGuard (area : Nat) (d : DomainId)
  | returnGuard
  | pickGuard (index : Nat)
  | subtractHolder
  | moveGuard (index : Nat) (target : W)
  | lockControl
  | unlockControl
  | connect
  | attach
  | exchange
  | askRemaining
  | askTurns
  | spin

abbrev Ret {W : Type} : Op W → Type
  | .loadClosing _ => Bool
  | .loadHolders => Nat
  | .shared => Nat
  | .resolveId _ _ => Option DomainId
  | .lockForRequest _ _ => Option Error
  | .isNamed _ _ _ => Bool
  | .hasValidTurn _ _ => Bool
  | .awaitState _ _ => Option RequestState
  | .getFailureCode _ _ => Int
  | .hasWaiters _ _ => Bool
  | .isServing => Bool
  | .pickGuard _ => Option Guard
  | .connect => Option Error
  | .attach => Option Error
  | .exchange => Option Error
  | .askRemaining => Bool
  | .askTurns => Nat
  | _ => Unit

/-- What others answer at a step. -/
inductive Choice where
  | any
  | flag (b : Bool)
  | nat (n : Nat)
  | code (n : Int)
  | domain (d : Option DomainId)
  | outcome (state : Option RequestState)
  | failure (e : Option Error)
  deriving Inhabited

abbrev Proc (W α : Type) := Prog (Op W) Ret α

/-- One access, as code. -/
abbrev act {W : Type} (o : Op W) : Proc W (Ret o) := Prog.perform o

section Steps

variable {W : Type} [Fintype W] [DecidableEq W]

/-- A thread's own record changes. -/
def State.setLocal (s : State W) (t : W) (l : Local) : State W :=
  { s with locals := update s.locals t l }

/-- A word of a mapping is touched. -/
def State.touch (s : State W) (area : Nat) : State W :=
  { s with stale := s.stale || decide (area ≠ s.area) }

/-- Subtracting one from a 32-bit word. -/
def decrement (word : Nat) : Nat := (word + (2 ^ 32 - 1)) % 2 ^ 32

def exec (t : W) : (o : Op W) → Choice → State W → Option (Ret o × State W)
  | .countIn, _, s => some ((),
      { s.setLocal t { s.locals t with attempt := true } with
        holders := (s.holders + 1) % 2 ^ 32 })
  | .countOut, _, s => some ((),
      { s.setLocal t { s.locals t with attempt := false, inside := false, area := none } with
        holders := decrement s.holders })
  | .loadClosing counted, _, s => some (s.closing,
      if counted && !s.closing then s.setLocal t { s.locals t with inside := true } else s)
  | .storeClosing b, _, s => some ((),
      { s.setLocal t { s.locals t with closed := b, drained := false } with
        closing := b, migrating := if b then some t else none })
  | .loadHolders, _, s => some (s.holders,
      if s.holders = 0 then
        { s.setLocal t { s.locals t with drained := true } with
          drainedInUse := s.drainedInUse || decide (s.attempts + s.guardsOut ≠ 0) }
      else s)
  | .shared, _, s => some (s.area, s.setLocal t { s.locals t with area := some s.area })
  | .resolveId area _, .domain d, s => some (d, s.touch area)
  | .lockForRequest area _, .failure e, s => some (e, s.touch area)
  | .isNamed area _ _, .flag b, s => some (b, s.touch area)
  | .publish area _ _, _, s => some ((), s.touch area)
  | .hasValidTurn area _, .flag b, s => some (b, s.touch area)
  | .ring area _, _, s => some ((), s.touch area)
  | .awaitState area _, .outcome state, s => some (state, s.touch area)
  | .getFailureCode area _, .code n, s => some (n, s.touch area)
  | .hasWaiters area _, .flag b, s => some (b, s.touch area)
  | .unlockMutex area _, _, s => some ((), s.touch area)
  | .isServing, _, s => some (s.serving, s)
  | .buildGuard area d, _, s => some ((),
      -- the constructor takes a reference to the count and leaves it alone
      { s.setLocal t { s.locals t with hand := some ⟨area, d⟩ } with built := s.built + 1 })
  | .returnGuard, _, s => some ((),
      { s.setLocal t { s.locals t with hand := none } with
        guards := update s.guards t ((s.locals t).hand.toList ++ s.guards t) })
  | .pickGuard index, _, s =>
    match (s.guards t)[index]? with
    | none => some (none, s)
    | some g => some (some g,
        { s.setLocal t { s.locals t with hand := some g } with
          guards := update s.guards t ((s.guards t).eraseIdx index) })
  | .subtractHolder, _, s => some ((),
      { s.setLocal t { s.locals t with hand := none } with holders := decrement s.holders })
  | .moveGuard index target, _, s =>
    match (s.guards t)[index]? with
    | none => some ((), s)
    | some g =>
      let rest := update s.guards t ((s.guards t).eraseIdx index)
      some ((), { s with guards := update rest target (g :: rest target) })
  | .lockControl, _, s =>
    if s.control.isSome then none
    else some ((), { s.setLocal t { s.locals t with control := true } with control := some t })
  | .unlockControl, _, s => some ((),
      { s.setLocal t { s.locals t with control := false, closed := false, drained := false } with
        control := none })
  -- what throws out of a migration ends it
  | .connect, .failure e, s => some (e,
      if e.isNone then { s with serving := true } else { s with migrating := none })
  | .attach, .failure e, s => some (e,
      if e.isNone then
        { s with
          area := s.area + 1
          replacedInUse := s.replacedInUse ||
            decide (s.guardsOut ≠ 0 ∨ ∃ u, (s.locals u).inside = true) }
      else { s with migrating := none })
  | .exchange, .failure e, s => some (e,
      if e.all Error.refused then s else { s with migrating := none })
  | .askRemaining, .flag b, s => some (b, s)
  | .askTurns, .nat n, s => some (n, s)
  | _, _, _ => none

/-! ### Guards -/

/-- `CmedGuard::release`. -/
def release (g : Guard) : Proc W Unit := do
  act (.publish g.area g.domain .idle)
  let waiters ← act (.hasWaiters g.area g.domain)
  act (.unlockMutex g.area g.domain)
  if !waiters then act (.ring g.area g.domain)

/-- `CmedGuard::unlock` of a guard that holds an area, the one in hand. -/
def unlock (g : Guard) : Proc W Unit := do
  release g
  act .subtractHolder

/-! ### One attempt -/

/-- How an attempt ends. -/
inductive Answer where
  | empty
  | guard
  | threw (e : Error)
  deriving DecidableEq, Repr

def noLiveDomain (name : String) : Error := .unknownDomain ("cmed: no live domain named " ++ name)

/-- The slow path of `tryLockOnce`: the daemon is asked, and the guard is built
before its answer is judged. -/
def awaitTurn (name : String) (area : Nat) (domainId : DomainId) : Proc W Answer := do
  act (.publish area domainId .lockRequested)
  act (.ring area domainId)
  act (.buildGuard area domainId)
  match ← act (.awaitState area domainId) with
  | none =>
    unlock ⟨area, domainId⟩
    pure .empty
  | some .error =>
    let failure ← act (.getFailureCode area domainId)
    unlock ⟨area, domainId⟩
    pure (.threw (.lockRefused ("cmed: daemon refused " ++ name) (-failure)))
  | some _ => pure .guard

/-- `tryLockOnce` under the domain's mutex. -/
def lockUnderMutex (name : String) (area : Nat) (domainId : DomainId) : Proc W Answer := do
  if ← act (.isNamed area domainId name) then
    act (.publish area domainId .lockHeld)
    if ← act (.hasValidTurn area domainId) then
      act (.buildGuard area domainId)
      pure .guard
    else
      act (.publish area domainId .idle)
      if ← act .isServing then awaitTurn name area domainId
      else
        act (.unlockMutex area domainId)
        pure .empty
  else
    act (.unlockMutex area domainId)
    pure (.threw (noLiveDomain name))

/-- The body of `tryLockOnce`, between the two ends of its token. -/
def attempt (name : String) : Proc W Answer := do
  if ← act (.loadClosing true) then pure .empty
  else
    let area ← act .shared
    match ← act (.resolveId area name) with
    | none => pure (.threw (noLiveDomain name))
    | some domainId =>
      match ← act (.lockForRequest area domainId) with
      | some e => pure (.threw e)
      | none => lockUnderMutex name area domainId

/-- `tryLockOnce`: the token counts in first and out last, on every exit. -/
def tryLockOnce (name : String) : Proc W Answer := do
  act .countIn
  let answer ← attempt name
  act .countOut
  pure answer

/-! ### Migrating -/

/-- The poll of `closeAndDrain`. -/
def drain : Nat → Proc W Bool
  | 0 => pure false
  | turns + 1 => do
    if (← act .loadHolders) = 0 then pure true else drain turns

def closeAndDrain : Proc W Bool := do
  act (.storeClosing true)
  let turns ← act .askTurns
  if ← drain turns then pure true
  else
    act (.storeClosing false)
    pure false

/-- `rejoinLocked`: a name that is refused leaves the set, nothing else. An answer
that does not fit the protocol is not caught. -/
def rejoin : Nat → Proc W (Option Error)
  | 0 => pure none
  | names + 1 => do
    match ← act .exchange with
    | none => rejoin names
    | some e => if e.refused then rejoin names else pure (some e)

/-- `migrateLocked`. What fails after the drain leaves the door closed. -/
def migrateLocked : Proc W (Except Error Bool) := do
  if ← closeAndDrain then
    match ← act .connect with
    | some e => pure (.error e)
    | none =>
      match ← act .attach with
      | some e => pure (.error e)
      | none =>
        let joined ← act .askTurns
        match ← rejoin joined with
        | some e => pure (.error e)
        | none =>
          act (.storeClosing false)
          pure (.ok true)
  else pure (.ok false)

/-- `migrate`: an area that is not ready is a reason to come back. -/
def migrate : Proc W (Except Error Bool) := do
  act .lockControl
  if ← act .isServing then
    act .unlockControl
    pure (.ok true)
  else
    let result ← migrateLocked
    act .unlockControl
    match result with
    | .error (.areaNotReady _) => pure (.ok false)
    | result => pure result

/-! ### The calls -/

/-- `tryLock`, until the deadline. -/
def tryLock (name : String) : Nat → Proc W Answer
  | 0 => do
    act .spin
    pure .empty
  | turns + 1 => do
    if ← act .askRemaining then
      match ← tryLockOnce name with
      | .guard => pure .guard
      | .threw e => pure (.threw e)
      | .empty => do
        if ← act .isServing then
          if ← act (.loadClosing false) then
            match ← migrate with
            | .error e => pure (.threw e)
            | .ok _ => tryLock name turns
          else pure .empty
        else
          match ← migrate with
          | .error e => pure (.threw e)
          | .ok _ => tryLock name turns
    else pure .empty

/-- `create`, `remove`, `join` and `leave`: one exchange, asked again of the
replacement of a daemon that has gone. -/
def exchangeAcrossMigration : Proc W (Except Error Unit) := do
  match ← act .exchange with
  | none => pure (.ok ())
  | some (.controlRefused text) =>
    if ← act .isServing then pure (.error (.controlRefused text))
    else
      match ← migrateLocked with
      | .error e => pure (.error e)
      | .ok false =>
        pure (.error (.controlRefused "cmed: a caller still holds a turn on the area the daemon left"))
      | .ok true =>
        match ← act .exchange with
        | none => pure (.ok ())
        | some e => pure (.error e)
  | some e => pure (.error e)

/-- What a thread of the application does with the session and its guards. -/
inductive Call (W : Type) where
  | tryLock (name : String)
  /-- `unlock()`, the destructor, or being moved over. -/
  | unlock (index : Nat)
  /-- A guard is moved into one of thread `target`. -/
  | move (index : Nat) (target : W)
  | control

def tryLockCall (name : String) : Proc W Unit := do
  let turns ← act .askTurns
  match ← tryLock name turns with
  | .guard => act .returnGuard
  | _ => pure ()

def unlockCall (index : Nat) : Proc W Unit := do
  match ← act (.pickGuard index) with
  | none => pure ()
  | some g => unlock g

def controlCall : Proc W Unit := do
  act .lockControl
  let _ ← exchangeAcrossMigration
  act .unlockControl

def start (_ : W) : Call W → State W → Option (Proc W Unit)
  | .tryLock name, _ => some (tryLockCall name)
  | .unlock index, _ => some (unlockCall index)
  | .move index target, _ => some (act (.moveGuard index target))
  | .control, _ => some controlCall

/-- The daemon goes, and its socket hangs up. -/
inductive Env where
  | daemonGone

def env : Env → State W → Option (State W)
  | .daemonGone, s => some { s with serving := false }

/-- The threads of one session. -/
def system (W : Type) [Fintype W] [DecidableEq W] :
    System W (Op W) Ret (State W) Choice (Call W) Env where
  exec := exec
  start := start
  env := env
  kills := fun _ _ => false

/-- A session that has just connected. -/
def connected (W : Type) : Config W (Op W) Ret (State W) where
  shared :=
    { holders := 0
      closing := false
      serving := true
      area := 0
      control := none
      guards := fun _ => []
      locals := fun _ => {}
      built := 0
      drainedInUse := false
      replacedInUse := false
      stale := false
      migrating := none }
  threads := fun _ => .done ()

end Steps

end Cme.Client
