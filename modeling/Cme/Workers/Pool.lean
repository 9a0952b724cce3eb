import Cme.Core.Types
import Cme.Interleave.System

/-!
# Workers — handing a domain to a thread

`daemon/serve/workers.cpp`: the dispatcher's `assign` and the loop of a worker.
A hand-over goes through four words: the in-flight bit of the domain, the idle
bit of the worker, the worker's slot and the word its sleep keys on. Each access
to one of them is one step. `AtomicBits` is one word for up to 64 bits, so its
`claim`, `release`, load and clear are one step each and `takeLowest` is a loop
over the last two.

A sleep may end at any time, for any reason: that covers wakes, timeouts,
spurious returns and a word that has already moved. A turn of a worker's loop is
a call of its own, which begins by reading the running flag.

History, written by the model and read by nobody: what each worker and the
dispatcher have in hand, which hand-overs have returned true, how often a domain
was served since its bit was raised, whether a store met an occupied slot, and
whether a bit fell other than after one service.
-/

namespace Cme.Workers

open Function Interleave

/-- The ceiling on the pool: one idle bit per worker in one word. -/
def mostWorkers : Nat := 64

/-- An empty slot. -/
def noDomain : DomainId := 2 ^ 32 - 1

/-- The refusals of the pool's constructor. -/
def requireWorkerCount (count : Nat) : Except String Nat :=
  if count = 0 then
    .error "cmed::daemon: the worker count is 0, so no domain would be served"
  else if count > mostWorkers then
    .error "cmed::daemon: the worker count is past what one idle word holds"
  else .ok count

inductive Tid (count : Nat) where
  | dispatcher
  | worker (w : Fin count)
  deriving DecidableEq

/-- What a worker has taken from its slot: nothing, a domain to serve, or one
that it has served and whose bit it has still to drop. -/
inductive Work where
  | none
  | took (d : DomainId)
  | served (d : DomainId)
  deriving DecidableEq, Repr

/-- The domain a worker is with. -/
def Work.domain? : Work → Option DomainId
  | .none => .none
  | .took d => d
  | .served d => d

/-- What the dispatcher has raised and not yet handed over: nothing, a domain,
or a domain and the worker it took for it. -/
inductive Hand (count : Nat) where
  | none
  | claimed (d : DomainId)
  | seated (d : DomainId) (w : Fin count)
  deriving DecidableEq, Repr

def Hand.domain? {count : Nat} : Hand count → Option DomainId
  | .none => .none
  | .claimed d => d
  | .seated d _ => d

variable {count : Nat}

structure State (count : Nat) where
  running : Bool
  inFlight : Bits maxDomains
  idle : Bits mostWorkers
  slot : Fin count → DomainId
  handed : Fin count → Nat
  parked : Fin count → Nat
  work : Fin count → Work
  hand : Hand count
  accepted : DomainId → Bool
  serves : DomainId → Nat
  overwrote : Bool
  fellEarly : Bool

/-- The atomic accesses. -/
inductive Op (count : Nat) where
  | loadRunning
  | storeRunning (b : Bool)
  | loadHanded (w : Fin count)
  | addHanded (w : Fin count)
  | loadParked (w : Fin count)
  | storeParked (w : Fin count) (v : Nat)
  | exchangeSlot (w : Fin count)
  | storeSlot (w : Fin count) (d : DomainId)
  | claimIdle (w : Fin count)
  | loadIdle
  | clearIdle (w : Fin count) (d : DomainId)
  | claimInFlight (d : DomainId)
  | withdraw (d : DomainId)
  | serveLock (w : Fin count) (d : DomainId)
  | release (w : Fin count) (d : DomainId)
  | futexWait (w : Fin count)
  | futexWake (w : Fin count)
  | askTurns
  | spin
  | accept (d : DomainId)

abbrev Ret : Op count → Type
  | .loadRunning => Bool
  | .loadHanded _ => Nat
  | .loadParked _ => Nat
  | .exchangeSlot _ => DomainId
  | .claimIdle _ => Bool
  | .loadIdle => Bits mostWorkers
  | .clearIdle _ _ => Bool
  | .claimInFlight _ => Bool
  | .withdraw _ => Bool
  | .release _ _ => Bool
  | .askTurns => Nat
  | _ => Unit

/-- How many turns a spin takes. -/
inductive Choice where
  | any
  | nat (turns : Nat)
  deriving Inhabited

abbrev Proc (count : Nat) (α : Type) := Prog (Op count) Ret α

/-- One access, as code. -/
abbrev act (o : Op count) : Proc count (Ret o) := Prog.perform o

def access : (o : Op count) → Choice → State count → Option (Ret o × State count)
  | .loadRunning, _, s => some (s.running, s)
  | .storeRunning b, _, s => some ((), { s with running := b })
  | .loadHanded w, _, s => some (s.handed w, s)
  | .addHanded w, _, s =>
    some ((), { s with handed := update s.handed w ((s.handed w + 1) % 2 ^ 32) })
  | .loadParked w, _, s => some (s.parked w, s)
  | .storeParked w v, _, s => some ((), { s with parked := update s.parked w v })
  | .exchangeSlot w, _, s => some (s.slot w, { s with
      slot := update s.slot w noDomain
      work := if s.slot w = noDomain then s.work
        else update s.work w (.took (s.slot w)) })
  | .storeSlot w d, _, s => some ((), { s with
      slot := update s.slot w d
      hand := .none
      overwrote := s.overwrote || decide (s.slot w ≠ noDomain) })
  | .claimIdle w, _, s => some (!s.idle.has w, { s with idle := s.idle.set w })
  | .loadIdle, _, s => some (s.idle, s)
  | .clearIdle w d, _, s => some (s.idle.has w, { s with
      idle := s.idle.clear w
      hand := if s.idle.has w then .seated d w else s.hand })
  | .claimInFlight d, _, s =>
    if s.inFlight.has d then some (false, s)
    else some (true, { s with
      inFlight := s.inFlight.set d
      hand := .claimed d
      accepted := update s.accepted d false
      serves := update s.serves d 0 })
  | .withdraw d, _, s => some (s.inFlight.has d, { s with
      inFlight := s.inFlight.clear d
      hand := .none
      fellEarly := s.fellEarly || s.accepted d })
  | .serveLock w d, _, s => some ((), { s with
      serves := update s.serves d (s.serves d + 1)
      work := update s.work w (.served d) })
  | .release w d, _, s => some (s.inFlight.has d, { s with
      inFlight := s.inFlight.clear d
      work := update s.work w .none
      fellEarly := s.fellEarly || (s.inFlight.has d && decide (s.serves d ≠ 1)) })
  | .futexWait _, _, s => some ((), s)
  | .futexWake _, _, s => some ((), s)
  | .askTurns, .nat turns, s => some (turns, s)
  | .accept d, _, s => some ((), { s with accepted := update s.accepted d true })
  | _, _, _ => none

/-! ### The worker -/

/-- `spinOnWord`: true once the word has moved. -/
def spinOnWord (w : Fin count) (expected : Nat) : Nat → Proc count Bool
  | 0 => pure false
  | turns + 1 => do
    if (← act (.loadHanded w)) ≠ expected then pure true
    else spinOnWord w expected turns

/-- `waitOnWord`, with the flag raised around the sleep. -/
def waitOnWord (w : Fin count) (expected : Nat) : Proc count Unit := do
  let turns ← act .askTurns
  if ← spinOnWord w expected turns then pure ()
  else
    act (.storeParked w 1)
    act (.futexWait w)
    act (.storeParked w 0)

/-- One turn of the loop of `runWorker`. -/
def workerTurn (w : Fin count) : Proc count Unit := do
  if ← act .loadRunning then
    let seen ← act (.loadHanded w)
    let domainId ← act (.exchangeSlot w)
    if domainId = noDomain then
      let _ ← act (.claimIdle w)
      waitOnWord w seen
    else
      act (.serveLock w domainId)
      let _ ← act (.release w domainId)
      pure ()
  else pure ()

/-! ### The dispatcher -/

/-- The lowest idle worker of a word, as `__builtin_ctzll` finds it. -/
def lowest (standing : Bits mostWorkers) : Option (Fin count) :=
  (List.finRange count).find? fun w => standing.has w

/-- `AtomicBits::takeLowest` on the idle word, for domain `d`: look, then take
the lowest bit down; look again where somebody else took it. -/
def takeLowest (d : DomainId) : Nat → Proc count (Option (Fin count))
  | 0 => do
    act .spin
    pure none
  | turns + 1 => do
    let standing ← act .loadIdle
    match lowest standing with
    | none => pure none
    | some w =>
      if ← act (.clearIdle w d) then pure (some w)
      else takeLowest d turns

/-- `DomainWorkers::assign`. -/
def assign (domainId : DomainId) : Proc count Bool := do
  if domainId ≥ maxDomains then pure true
  else if ← act (.claimInFlight domainId) then
    let turns ← act .askTurns
    match ← takeLowest domainId turns with
    | none =>
      let _ ← act (.withdraw domainId)
      pure false
    | some w =>
      act (.storeSlot w domainId)
      act (.addHanded w)
      if (← act (.loadParked w)) ≠ 0 then act (.futexWake w)
      pure true
  else pure false

/-- The stop of the destructor: the flag, then every worker's word. -/
def stop : List (Fin count) → Proc count Unit
  | [] => pure ()
  | w :: ws => do
    act (.addHanded w)
    act (.futexWake w)
    stop ws

/-! ### The system -/

inductive Call where
  | assign (d : DomainId)
  | stop
  | turn

/-- `assign` returns true for a domain of the table. -/
def assignCall (d : DomainId) : Proc count Unit := do
  if ← assign d then
    if d < maxDomains then act (.accept d)

def stopCall : Proc count Unit := do
  act (.storeRunning false)
  stop (List.finRange count)

def start : Tid count → Call → State count → Option (Proc count Unit)
  | .dispatcher, .assign d, _ => some (assignCall d)
  | .dispatcher, .stop, _ => some stopCall
  | .worker w, .turn, _ => some (workerTurn w)
  | _, _, _ => none

/-- One dispatcher and the workers of a pool. -/
def system (count : Nat) :
    System (Tid count) (Op count) Ret (State count) Choice Call Empty where
  exec := fun _ => access
  start := start
  env := fun e => nomatch e
  kills := fun e => nomatch e

def State.initial (count : Nat) : State count where
  running := true
  inFlight := 0
  idle := 0
  slot := fun _ => noDomain
  handed := fun _ => 0
  parked := fun _ => 0
  work := fun _ => .none
  hand := .none
  accepted := fun _ => false
  serves := fun _ => 0
  overwrote := false
  fellEarly := false

/-- The constructor: a pool of `count` workers, none of which has run yet. -/
def domainWorkers (count : Nat) :
    Except String (Config (Tid count) (Op count) Ret (State count)) := do
  let _ ← requireWorkerCount count
  return { shared := State.initial count, threads := fun _ => .done () }

end Cme.Workers
