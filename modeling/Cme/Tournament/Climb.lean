import Cme.Core.Types
import Cme.Interleave.System
import Cme.Tournament.Path

/-!
# Tournament — the climb and the scrub

`core/policy/successor_peterson.cpp`: the two-sided lock of a node, the climb
to the root with its back-out, the release, and the scrub of a crashed peer's
lines. The trees of all domains lie one after the other, so a node is an index
into the whole area. Every get or set of a line is one step.

A peer runs at most one climb per domain (its local mutex queues its threads),
so a climb is a thread of a peer and a domain. `cleanupDeadPeer` is a thread of
the peer that won the recovery of the crashed one. A crashed peer takes no step
any more; once a scrub of its lines has finished, its id may be given to a new
occupant.

History, written by the model and read by nobody else: `standing` is how far a
peer's lines reach up a tree, `inside` that its `acquire` has returned true and
its release has not begun, `scrubber` who scrubs a crashed peer, `clean` that a
scrub of it has finished and nobody climbed with its id since, `erased` that a
scrub cleared the announce of a live peer.
-/

namespace Cme.Tournament

open Function Interleave

variable {n : Nat}

/-- A climb of a peer in a domain's tree, or the recovery work of a peer. -/
inductive Tid (n : Nat) where
  | climber (p : Fin n) (d : DomainId)
  | scrubber (p : Fin n)
  deriving DecidableEq

def Tid.peer : Tid n → Fin n
  | .climber p _ => p
  | .scrubber p => p

/-- One contender slot: the node in the area, and where it is on a climb. -/
structure Rung where
  domain : DomainId
  level : Nat
  node : Nat
  role : Role
  deriving DecidableEq, Repr

/-- The slot of a step of a climb. -/
def rung (nodesPerDomain : Nat) (d : DomainId) (level : Nat) (step : ClimbStep) : Rung :=
  ⟨d, level, d * nodesPerDomain + step.node, step.role⟩

/-- The node area, and what happened to the peers. -/
structure State (n : Nat) where
  lines : Nat → Role → PeerId
  turns : Nat → Role
  crashed : Fin n → Bool
  standing : Fin n → DomainId → Standing
  inside : Fin n → DomainId → Bool
  scrubber : Fin n → Option (Fin n)
  clean : Fin n → Bool
  erased : Bool

/-- The atomic accesses of a climb and of a scrub. -/
inductive Op (n : Nat) where
  | announce (r : Rung)
  | yieldTurn (r : Rung)
  | getOther (r : Rung)
  | getTurn (r : Rung)
  | clearMine (r : Rung)
  | askTurns
  | askExpired
  | spin
  | enter (d : DomainId)
  | exit (d : DomainId)
  | beginScrub (dead : Fin n)
  | getOwner (r : Rung)
  | clearDead (r : Rung) (dead : Fin n)
  | endScrub (dead : Fin n)

abbrev Ret : Op n → Type
  | .getOther _ => PeerId
  | .getTurn _ => Role
  | .askTurns => Nat
  | .askExpired => Bool
  | .getOwner _ => PeerId
  | _ => Unit

/-- What the clock answers at a step. -/
inductive Choice where
  | any
  | nat (turns : Nat)
  | flag (b : Bool)
  deriving Inhabited

abbrev Proc (n : Nat) (α : Type) := Prog (Op n) Ret α

/-- One access, as code. -/
abbrev act (o : Op n) : Proc n (Ret o) := Prog.perform o

/-- A word names a peer that has not crashed. -/
def State.namesLive (s : State n) (owner : PeerId) : Bool :=
  if h : owner < n then !s.crashed ⟨owner, h⟩ else false

/-- One access of a live peer's thread. -/
def access (p : Fin n) : (o : Op n) → Choice → State n → Option (Ret o × State n)
  | .announce r, _, s => some ((), { s with
      lines := setCell s.lines r.node r.role p
      standing := setCell s.standing p r.domain ⟨r.level, .announced⟩
      clean := update s.clean p false })
  | .yieldTurn r, _, s => some ((), { s with
      turns := update s.turns r.node r.role.other
      standing := setCell s.standing p r.domain ⟨r.level, .waiting⟩ })
  | .getOther r, _, s =>
    let owner := s.lines r.node r.role.other
    -- whoever finds the other slot idle is past the node, whatever it reads next
    some (owner, if owner = noPeer then
      { s with standing := setCell s.standing p r.domain ⟨r.level + 1, .out⟩ } else s)
  | .getTurn r, _, s =>
    let turn := s.turns r.node
    some (turn, if turn ≠ r.role.other then
      { s with standing := setCell s.standing p r.domain ⟨r.level + 1, .out⟩ } else s)
  | .clearMine r, _, s => some ((), { s with
      lines := setCell s.lines r.node r.role noPeer
      standing := setCell s.standing p r.domain ⟨r.level, .out⟩ })
  | .askTurns, .nat turns, s => some (turns, s)
  | .askExpired, .flag b, s => some (b, s)
  | .enter d, _, s => some ((), { s with inside := setCell s.inside p d true })
  | .exit d, _, s => some ((), { s with inside := setCell s.inside p d false })
  | .beginScrub dead, _, s =>
    -- one live peer at a time wins the recovery of a crashed one
    if s.crashed dead && (s.scrubber dead).all s.crashed then
      some ((), { s with scrubber := update s.scrubber dead (some p) })
    else none
  | .getOwner r, _, s => some (s.lines r.node r.role, s)
  | .clearDead r dead, _, s => some ((), { s with
      lines := setCell s.lines r.node r.role noPeer
      standing := setCell s.standing dead r.domain ⟨r.level, .out⟩
      erased := s.erased || s.namesLive (s.lines r.node r.role) })
  | .endScrub dead, _, s => some ((), { s with
      clean := update s.clean dead true
      scrubber := update s.scrubber dead none })
  | _, _, _ => none

/-- A crashed peer's threads have stopped. -/
def exec (i : Tid n) (o : Op n) (ch : Choice) (s : State n) : Option (Ret o × State n) :=
  if s.crashed i.peer then none else access i.peer o ch s

/-! ### The code -/

/-- The spin of `lockNode`: the other slot, then the turn, then the deadline. -/
def spinNode (r : Rung) : Nat → Proc n Bool
  | 0 => do
    act .spin
    pure false
  | turns + 1 => do
    let otherOwner ← act (.getOther r)
    let turn ← act (.getTurn r)
    if otherOwner = noPeer ∨ turn ≠ r.role.other then pure true
    else if ← act .askExpired then
      -- retract the announce
      act (.clearMine r)
      pure false
    else spinNode r turns

/-- One tournament level. -/
def lockNode (r : Rung) : Proc n Bool := do
  act (.announce r)
  act (.yieldTurn r)
  let turns ← act .askTurns
  spinNode r turns

/-- `unlockNode` on the levels of a climb, the topmost first. -/
def unlockNodes (nodesPerDomain : Nat) (d : DomainId) : List ClimbStep → Proc n Unit
  | [] => pure ()
  | step :: below => do
    act (.clearMine (rung nodesPerDomain d below.length step))
    unlockNodes nodesPerDomain d below

/-- Climb the rest of the path; `won` are the levels below, the topmost first. -/
def climb (nodesPerDomain : Nat) (d : DomainId) :
    List ClimbStep → List ClimbStep → Proc n Bool
  | [], _ => pure true
  | step :: path, won => do
    if ← lockNode (rung nodesPerDomain d won.length step) then
      climb nodesPerDomain d path (step :: won)
    else
      unlockNodes nodesPerDomain d won
      pure false

/-- `PetersonState_t::acquire`: leaf to root. -/
def acquire (nodesPerDomain : Nat) (d : DomainId) (path : List ClimbStep) : Proc n Bool :=
  climb nodesPerDomain d path []

/-- `PetersonState_t::release`: root to leaf. -/
def release (nodesPerDomain : Nat) (d : DomainId) (path : List ClimbStep) : Proc n Unit :=
  unlockNodes nodesPerDomain d path.reverse

/-- One level of a scrub, domain by domain: clear only what still names the
crashed peer. -/
def scrubDomains (nodesPerDomain : Nat) (dead : Fin n) (level : Nat) (step : ClimbStep) :
    List DomainId → Proc n Unit
  | [] => pure ()
  | d :: domains => do
    let owner ← act (.getOwner (rung nodesPerDomain d level step))
    if owner = dead then act (.clearDead (rung nodesPerDomain d level step) dead)
    scrubDomains nodesPerDomain dead level step domains

def scrubLevels (nodesPerDomain numDomains : Nat) (dead : Fin n) : List ClimbStep → Proc n Unit
  | [] => pure ()
  | step :: below => do
    scrubDomains nodesPerDomain dead below.length step (List.range numDomains)
    scrubLevels nodesPerDomain numDomains dead below

/-- `PetersonState_t::cleanupDeadPeer`: root to leaf of the crashed peer's path. -/
def cleanupDeadPeer (nodesPerDomain numDomains : Nat) (dead : Fin n) (deadPath : List ClimbStep) :
    Proc n Unit :=
  scrubLevels nodesPerDomain numDomains dead deadPath.reverse

/-! ### The system -/

/-- What a thread may be asked to do. -/
inductive Call (n : Nat) where
  | acquire
  | release
  | cleanupDeadPeer (dead : Fin n)

def acquireCall (nodesPerDomain : Nat) (d : DomainId) (path : List ClimbStep) : Proc n Unit := do
  if ← acquire nodesPerDomain d path then act (.enter d)

def releaseCall (nodesPerDomain : Nat) (d : DomainId) (path : List ClimbStep) : Proc n Unit := do
  act (.exit d)
  release nodesPerDomain d path

def cleanupCall (nodesPerDomain numDomains : Nat) (dead : Fin n) (deadPath : List ClimbStep) :
    Proc n Unit := do
  act (.beginScrub dead)
  cleanupDeadPeer nodesPerDomain numDomains dead deadPath
  act (.endScrub dead)

/-- The code of a call of a live peer. A climb starts outside the section and a
release inside; the path of a peer that has no leaf is never built. -/
def start (numDomains : Nat) (i : Tid n) (call : Call n) (s : State n) : Option (Proc n Unit) :=
  if s.crashed i.peer then none else
  match i, call with
  | .climber p d, .acquire =>
    if d < numDomains ∧ s.inside p d = false then do
      let nodesPerDomain ← getNodesPerDomain n
      let path ← buildClimbPath n p
      some (acquireCall nodesPerDomain d path)
    else none
  | .climber p d, .release =>
    if d < numDomains ∧ s.inside p d = true then do
      let nodesPerDomain ← getNodesPerDomain n
      let path ← buildClimbPath n p
      some (releaseCall nodesPerDomain d path)
    else none
  | .scrubber _, .cleanupDeadPeer dead => do
    let nodesPerDomain ← getNodesPerDomain n
    let deadPath ← buildClimbPath n dead
    some (cleanupCall nodesPerDomain numDomains dead deadPath)
  | _, _ => none

/-- What happens to the peers. -/
inductive Env (n : Nat) where
  | crash (p : Fin n)
  | occupy (p : Fin n)

/-- A peer stops for good; a recovered id gets a new occupant. -/
def env : Env n → State n → Option (State n)
  | .crash p, s => some { s with crashed := update s.crashed p true }
  | .occupy p, s =>
    if s.crashed p && s.clean p && (s.scrubber p).all s.crashed then
      some { s with
        crashed := update s.crashed p false
        inside := update s.inside p fun _ => false
        -- what the old occupant was scrubbing is for another peer to scrub
        scrubber := fun dead => if s.scrubber dead = some p then none else s.scrubber dead }
    else none

/-- The threads of the old occupant are gone. -/
def kills : Env n → Tid n → Bool
  | .crash _, _ => false
  | .occupy p, i => i.peer = p

/-- All climbs and scrubs over one node area. -/
def system (n numDomains : Nat) : System (Tid n) (Op n) Ret (State n) Choice (Call n) (Env n) where
  exec := exec
  start := start numDomains
  env := env
  kills := kills

/-- The area as `initTournamentTree` leaves it. -/
def State.initial (n : Nat) : State n where
  lines := fun _ _ => noPeer
  turns := fun _ => .peer0
  crashed := fun _ => false
  standing := fun _ _ => ⟨0, .out⟩
  inside := fun _ _ => false
  scrubber := fun _ => none
  clean := fun _ => false
  erased := false

/-- The configuration in which no thread has started. -/
def initial (n : Nat) : Config (Tid n) (Op n) Ret (State n) where
  shared := State.initial n
  threads := fun _ => .done ()

end Cme.Tournament
