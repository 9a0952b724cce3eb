import Cme.Core.Types
import Cme.Interleave.System

/-!
# Dispatch — requests, the doorbell and the dispatcher's pass

A requester publishes LockRequested in its domain's slot, raises the domain's bit
of `pending` and knocks (`SharedArea_t::request`, `ring`, `knock` of
`shared/protocol/shared_area.hpp`). The dispatcher reads the doorbell, takes the
bits no worker holds, hands each to a worker or puts it back, and waits on the
doorbell it read (`ServeHandler::runDispatcher` of `serve/handler.cpp`). A worker
takes what it was handed, reads the slot's state once and answers a request
(`DomainManager::serveLock` and `grant`).

`pending` and the in-flight bits are words of 64 bits, and a snapshot of them is one
load for each word, so it is not one instant of the whole. `assign` is one step:
it hands the domain to a worker whose slot is empty, or refuses. The doorbell is
a number that does not wrap. One pass of the dispatcher and one turn of a worker
are a call each, which begins by reading the running flag.

History, written by the model and read by nobody: what a worker has taken, whether a
ring has raised a domain's bit since its request was published, what the pass has
taken down and not yet handed over or put back, who has raised a bit and not yet
knocked, and the wait the dispatcher is in.
-/

namespace Cme.Dispatch

open Function Interleave

inductive Tid (count : Nat) (R : Type) where
  | dispatcher
  | worker (w : Fin count)
  | requester (r : R)
  deriving DecidableEq

/-- What a worker has taken from its slot. -/
inductive Work where
  | none
  /-- It has yet to read the state. -/
  | unread (d : DomainId)
  /-- It read LockRequested and has yet to publish its answer. -/
  | requested (d : DomainId)
  /-- It has answered, or had nothing to answer. -/
  | settled (d : DomainId)
  deriving DecidableEq, Repr

structure State (n count : Nat) (R : Type) where
  running : Bool
  doorbell : Nat
  pending : Bits n
  inFlight : Bits n
  state : DomainId → RequestState
  slot : Fin count → Option DomainId
  work : Fin count → Work
  rung : DomainId → Bool
  taken : Bits n
  knocking : Tid count R → Bool
  /-- The word the dispatcher waits on, as it read it, and whether the wait is the
  short one of a pass that left something. -/
  waiting : Option (Nat × Bool)

/-- The atomic accesses. -/
inductive Op (n count : Nat) where
  | loadRunning
  | storeRunning (b : Bool)
  | publish (d : DomainId) (state : RequestState)
  | claimPending (d : DomainId)
  | knock
  | readDoorbell
  | loadInFlight (word : Nat)
  | loadPending (word : Nat)
  | clearPending (word : Nat) (taking : Bits n)
  | assign (d : DomainId)
  | putBack (d : DomainId)
  | enterWait (seen : Nat) (deferred : Bool)
  | futexWait
  | leaveWait
  | exchangeSlot (w : Fin count)
  | getState (w : Fin count) (d : DomainId)
  /-- `joinDomain` and `lock` of the region, or the turn that is held. -/
  | acquire
  | answer (w : Fin count) (d : DomainId) (state : RequestState)
  | release (w : Fin count) (d : DomainId)
  | askTurns

variable {n count : Nat} {R : Type}

abbrev Ret : Op n count → Type
  | .loadRunning | .assign _ | .acquire => Bool
  | .readDoorbell | .askTurns => Nat
  | .loadInFlight _ | .loadPending _ => Bits n
  | .exchangeSlot _ => Option DomainId
  | .getState _ _ => RequestState
  | _ => Unit

/-- What is decided elsewhere. -/
inductive Choice (count : Nat) where
  | any
  | flag (b : Bool)
  | nat (turns : Nat)
  | seat (w : Option (Fin count))

section Steps

variable [DecidableEq R]

def exec (i : Tid count R) :
    (o : Op n count) → Choice count → State n count R → Option (Ret o × State n count R)
  | .loadRunning, _, s => some (s.running, s)
  | .storeRunning b, _, s => some ((), { s with running := b })
  | .publish d state, _, s => some ((), { s with
      state := update s.state d state
      rung := if state = .lockRequested then update s.rung d false else s.rung })
  | .claimPending d, _, s => some ((), { s with
      pending := s.pending.set d
      rung := update s.rung d true
      knocking := update s.knocking i true })
  | .knock, _, s => some ((), { s with
      doorbell := s.doorbell + 1
      knocking := update s.knocking i false })
  | .readDoorbell, _, s => some (s.doorbell, s)
  | .loadInFlight word, _, s => some (s.inFlight.getWord word, s)
  | .loadPending word, _, s => some (s.pending.getWord word, s)
  | .clearPending word taking, _, s => some ((), { s with
      pending := s.pending.dropAll (taking.getWord word)
      taken := s.taken ||| taking.getWord word })
  | .assign _, .seat none, s => some (false, s)
  | .assign d, .seat (some w), s =>
    if s.inFlight.has d = false ∧ s.slot w = none then
      some (true, { s with
        inFlight := s.inFlight.set d
        slot := update s.slot w (some d)
        taken := s.taken.clear d })
    else none
  | .putBack d, _, s => some ((), { s with
      pending := s.pending.set d
      taken := s.taken.clear d })
  | .enterWait seen deferred, _, s => some ((), { s with waiting := some (seen, deferred) })
  | .futexWait, _, s => some ((), s)
  | .leaveWait, _, s => some ((), { s with waiting := none })
  | .exchangeSlot w, _, s => some (s.slot w, { s with
      slot := update s.slot w none
      work := update s.work w ((s.slot w).elim .none .unread) })
  | .getState w d, _, s => some (s.state d, { s with
      work := update s.work w
        (if s.state d = .lockRequested then .requested d else .settled d) })
  | .acquire, .flag b, s => some (b, s)
  | .answer w d state, _, s => some ((), { s with
      state := update s.state d state
      work := update s.work w (.settled d) })
  | .release w d, _, s => some ((), { s with
      inFlight := s.inFlight.clear d
      work := update s.work w .none })
  | .askTurns, .nat turns, s => some (turns, s)
  | _, _, _ => none

end Steps

abbrev Proc (n count : Nat) (α : Type) := Prog (Op n count) Ret α

/-- One access, as code. -/
abbrev act (o : Op n count) : Proc n count (Ret o) := Prog.perform o

/-! ### A requester -/

/-- `SharedArea_t::ring`. -/
def ring (domainId : DomainId) : Proc n count Unit := do
  if domainId ≥ n then pure ()
  else
    act (.claimPending domainId)
    act .knock

/-- `SharedArea_t::request`, of the one state that belongs there. -/
def request (domainId : DomainId) : Proc n count Unit := do
  act (.publish domainId .lockRequested)
  ring domainId

/-! ### The dispatcher -/

/-- `AtomicBits::takeSnapshot`: one load for each word. -/
def takeSnapshot (load : Nat → Proc n count (Bits n)) : List Nat → Bits n → Proc n count (Bits n)
  | [], taken => pure taken
  | word :: rest, taken => do
    let standing ← load word
    takeSnapshot load rest (taken.setWord word standing)

/-- `AtomicBits::dropAll`: one clear for each word. -/
def dropAll (taking : Bits n) : List Nat → Proc n count Unit
  | [] => pure ()
  | word :: rest => do
    act (.clearPending word taking)
    dropAll taking rest

/-- The loop that pops what the pass took: whether something was handed over, and
whether something is left for the next pass. -/
def handOver : List DomainId → Bool → Bool → Proc n count (Bool × Bool)
  | [], handed, deferred => pure (handed, deferred)
  | domainId :: rest, handed, deferred => do
    if ← act (.assign domainId) then handOver rest true deferred
    else
      act (.putBack domainId)
      handOver rest handed true

/-- `spinOnWord`: true once the word has moved. -/
def spinOnWord (expected : Nat) : Nat → Proc n count Bool
  | 0 => pure false
  | turns + 1 => do
    if (← act .readDoorbell) ≠ expected then pure true
    else spinOnWord expected turns

/-- `waitOnWord` on the doorbell. -/
def waitOnWord (expected : Nat) (deferred : Bool) : Proc n count Unit := do
  act (.enterWait expected deferred)
  let turns ← act .askTurns
  (if ← spinOnWord expected turns then pure () else act .futexWait)
  act .leaveWait

/-- The end of a pass that handed nothing over. -/
def restBeforeNext (seen : Nat) (deferred : Bool) : Proc n count Unit := do
  if ← act .loadRunning then waitOnWord seen deferred else pure ()

/-- One pass of `ServeHandler::runDispatcher`. -/
def runDispatcher : Proc n count Unit := do
  if ← act .loadRunning then
    let seen ← act .readDoorbell
    let words := List.range (Bits.countWords n)
    let held ← takeSnapshot (fun word => act (.loadInFlight word)) words 0
    let standing ← takeSnapshot (fun word => act (.loadPending word)) words 0
    let deferred := !Bits.isEmpty (standing &&& held)
    let taking := standing.dropAll held
    if taking.isEmpty then restBeforeNext seen deferred
    else
      dropAll taking words
      let (handed, deferred) ← handOver taking.toList false deferred
      if handed then pure () else restBeforeNext seen deferred
  else pure ()

/-! ### A worker -/

/-- `DomainManager::grant`. -/
def grant (w : Fin count) (domainId : DomainId) : Proc n count Unit := do
  act (.publish domainId .granting)
  if ← act .acquire then act (.answer w domainId .lockHeld)
  else act (.answer w domainId .error)

/-- `DomainManager::serveLock`. An idle slot's turn is reconsidered, which touches
nothing here. -/
def serveLock (w : Fin count) (domainId : DomainId) : Proc n count Unit := do
  match ← act (.getState w domainId) with
  | .lockRequested => grant w domainId
  | _ => pure ()

/-- One turn of the loop of `runWorker`. -/
def runWorker (w : Fin count) : Proc n count Unit := do
  if ← act .loadRunning then
    match ← act (.exchangeSlot w) with
    | none => pure ()
    | some domainId =>
      serveLock w domainId
      act (.release w domainId)
  else pure ()

/-! ### The system -/

inductive Call where
  | pass
  | turn
  | request (d : DomainId)
  | ring (d : DomainId)
  /-- A state that asks the daemon for nothing. -/
  | publish (d : DomainId) (state : RequestState)
  | knock
  | stop

def start (i : Tid count R) (call : Call) : Option (Proc n count Unit) :=
  match i, call with
  | .dispatcher, .pass => some runDispatcher
  | .worker w, .turn => some (runWorker w)
  | .requester _, .request d => if d < n then some (request d) else none
  | .requester _, .ring d => some (ring d)
  | .requester _, .publish d state =>
    if state = .lockRequested then none else some (act (.publish d state))
  | .requester _, .knock => some (act .knock)
  | .requester _, .stop => some do
      act (.storeRunning false)
      act .knock
  | _, _ => none

/-- One dispatcher, its workers, and any threads of requesters. -/
def system (n count : Nat) (R : Type) [DecidableEq R] :
    System (Tid count R) (Op n count) Ret (State n count R) (Choice count) Call Empty where
  exec := exec
  start i call _ := start i call
  env := fun e => nomatch e
  kills := fun e => nomatch e

/-- A daemon that has just come up on a fresh area. -/
def fresh (n count : Nat) (R : Type) : Config (Tid count R) (Op n count) Ret (State n count R) where
  shared :=
    { running := true
      doorbell := 0
      pending := 0
      inFlight := 0
      state := fun _ => .idle
      slot := fun _ => none
      work := fun _ => .none
      rung := fun _ => false
      taken := 0
      knocking := fun _ => false
      waiting := none }
  threads := fun _ => .done ()

end Cme.Dispatch
