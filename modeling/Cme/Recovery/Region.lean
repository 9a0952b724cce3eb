import Cme.Ownership.Policy
import Cme.Recovery.Target
import Cme.Tournament.Path

/-!
# Recovery — the lines a recovery reads and writes

The shared state of `core/algo/recovery.cpp`: the member slots, the claim words,
the domain records, and the lines of the successor area that a scrub clears. Every
get or set of a line is one step, so the two halves of an rmw are two steps.

`up` says that an id has a live occupant. The failure detector is exact: a stamp is
past the dead window where nobody is up to renew it. A peer's thread here is its poll
thread, and the thread of its destructor once that one is joined. What the others
write (its own slot, its demand, its announces, the records it hands on) comes from
outside, in `Env`.

History, written by the model and read by no code: `occupancy` counts the peers an
id has had, `stamped` is the occupancy whose crash the last seize of a slot came
after, `author` who wrote the claim that stands, `confirmed` the target whose claim
a peer has found settled and not given up, `atWork` the target it runs a takeover
pass or a finish for.
-/

namespace Cme.Recovery

open Function Interleave
open Ownership (Dims)
open Registry (Status)

inductive Strategy where
  | order
  | request
  | requestAgg
  | peterson
  deriving DecidableEq, Repr

/-- The strategies that have demand lines. -/
def Strategy.hasDemand : Strategy → Bool
  | .request | .requestAgg => true
  | _ => false

/-- What a recovery reads and writes of a member slot; the stamp is in `State.up`. -/
structure Slot where
  isValidMagic : Bool
  status : Status
  participating : DomainBitmap
  deriving DecidableEq, Repr

/-- `FieldWord::read`: a line never written reads as NoPeer. -/
def RecoveryClaim.read (c : RecoveryClaim) : PeerId :=
  if c.isValidMagic then c.recoveryAuthority else noPeer

/-- `stake::Claim`'s phase at a word without a stall timeout, which is never
watched. -/
inductive Phase where
  | idle
  | settling
  | holding
  deriving DecidableEq, Repr

/-- The poll thread's own words: the takeover span of `LocalPeerState`, and the
latch and the stake of `ChainRecoveryAuthorityPolicy`. -/
structure PollState where
  recoveryCycles : Nat
  recoveryTarget : PeerId
  claimTarget : PeerId
  phase : Phase
  deriving DecidableEq, Repr

def PollState.fresh : PollState := ⟨0, noPeer, noPeer, .idle⟩

structure State where
  member : PeerId → Slot
  up : PeerId → Bool
  claim : PeerId → RecoveryClaim
  truth : DomainId → DomainRecord
  shadow : DomainId → Nat → DomainRecord
  demand : PeerId → DomainBitmap
  aggregator : Nat → PeerId
  lines : Nat → Tournament.Role → PeerId
  poll : PeerId → PollState
  occupancy : PeerId → Nat
  stamped : PeerId → Option Nat
  author : PeerId → Option (PeerId × Nat)
  confirmed : PeerId → Option PeerId
  atWork : PeerId → Option PeerId

/-- The accesses of a poll thread. `settleClaim` is the read that ends a settle;
`enter` and `leave` bracket the takeover pass and the finish. The last two are a
departing peer's. -/
inductive Op where
  | getPoll
  | setPoll (l : PollState)
  | getMember (p : PeerId)
  | setMember (p : PeerId) (slot : Slot)
  | hasFailed (p : PeerId)
  | getClaim (dead : PeerId)
  | settleClaim (dead : PeerId)
  | setClaim (dead : PeerId) (c : RecoveryClaim)
  | getRecord (d : DomainId)
  | setShadow (d : DomainId) (g : Nat) (r : DomainRecord)
  | setRecord (d : DomainId) (r : DomainRecord)
  | setDemand (p : PeerId) (bits : DomainBitmap)
  | getAggregator (g : Nat)
  | setAggregator (g : Nat) (p : PeerId)
  | getLine (node : Nat) (role : Tournament.Role)
  | setLine (node : Nat) (role : Tournament.Role) (p : PeerId)
  | askScanBound
  | askExpired
  | enter (dead : PeerId)
  | leave
  | spin
  | joinPollThread
  /-- Participation goes with None, in one write. -/
  | publishNone
  deriving DecidableEq

/-- A slot is read together with what the failure detector makes of its stamp. -/
abbrev Ret : Op → Type
  | .getPoll => PollState
  | .getMember _ => Slot × Bool
  | .hasFailed _ => Bool
  | .getClaim _ => RecoveryClaim
  | .settleClaim _ => RecoveryClaim
  | .getRecord _ => DomainRecord
  | .getAggregator _ => PeerId
  | .getLine _ _ => PeerId
  | .askScanBound => Nat
  | .askExpired => Bool
  | _ => Unit

/-- What the clock and the cached scan bound answer. -/
inductive Choice where
  | any
  | nat (n : Nat)
  | flag (b : Bool)
  deriving Inhabited

abbrev Proc (α : Type) := Prog Op Ret α

abbrev act (o : Op) : Proc (Ret o) := Prog.perform o

/-- A claim is given up when a tick ends with neither the latch nor the span on its
target. -/
def PollState.keeps (l : PollState) (target : PeerId) : Bool :=
  l.claimTarget == target || (0 < l.recoveryCycles && l.recoveryTarget == target)

/-- The region after a peer's membership has ended. -/
def State.departed (s : State) (p : PeerId) : State := { s with
  member := update s.member p { s.member p with participating := 0, status := .none }
  up := update s.up p false
  poll := update s.poll p .fresh
  confirmed := update s.confirmed p none
  atWork := update s.atWork p none }

/-- Peer `p` writes a member slot. -/
def State.storeMember (s : State) (p q : PeerId) (slot : Slot) : State := { s with
  member := update s.member q slot
  stamped := if slot.status = .recovering then
      update s.stamped q (if s.up q then none else some (s.occupancy q))
    else s.stamped
  atWork := if slot.status = .none then update s.atWork p none else s.atWork }

/-- One access of a live peer's poll thread. -/
def access (p : PeerId) : (o : Op) → Choice → State → Option (Ret o × State)
  | .getPoll, _, s => some (s.poll p, s)
  | .setPoll l, _, s => some ((), { s with
      poll := update s.poll p l
      confirmed := update s.confirmed p ((s.confirmed p).filter l.keeps) })
  | .getMember q, _, s => some ((s.member q, !s.up q), s)
  | .setMember q slot, _, s => some ((), s.storeMember p q slot)
  | .hasFailed q, _, s => some (!s.up q, s)
  | .getClaim dead, _, s => some (s.claim dead, s)
  | .settleClaim dead, _, s => some (s.claim dead,
      if (s.claim dead).read = p then
        { s with confirmed := update s.confirmed p (some dead) }
      else s)
  | .setClaim dead c, _, s => some ((), { s with
      claim := update s.claim dead c
      author := update s.author dead
        (if c.read = noPeer then none else some (p, s.occupancy p)) })
  | .getRecord d, _, s => some (s.truth d, s)
  | .setShadow d g r, _, s => some ((), { s with shadow := setCell s.shadow d g r })
  | .setRecord d r, _, s => some ((), { s with truth := update s.truth d r })
  | .setDemand q bits, _, s => some ((), { s with demand := update s.demand q bits })
  | .getAggregator g, _, s => some (s.aggregator g, s)
  | .setAggregator g q, _, s =>
    some ((), { s with aggregator := update s.aggregator g q })
  | .getLine node role, _, s => some (s.lines node role, s)
  | .setLine node role q, _, s => some ((), { s with lines := setCell s.lines node role q })
  | .askScanBound, .nat n, s => some (n, s)
  | .askExpired, .flag b, s => some (b, s)
  | .enter dead, _, s => some ((), { s with atWork := update s.atWork p (some dead) })
  | .leave, _, s => some ((), { s with atWork := update s.atWork p none })
  | .joinPollThread, _, s => some ((), s)
  | .publishNone, _, s => some ((), s.departed p)
  | _, _, _ => none

/-- A peer that is not up makes no access. -/
def exec (p : PeerId) (o : Op) (ch : Choice) (s : State) : Option (Ret o × State) :=
  if s.up p then access p o ch s else none

/-- What happens outside the poll threads. -/
inductive Env where
  | crash (p : PeerId)
  | reserve (p : PeerId)
  | participate (p : PeerId) (bits : DomainBitmap)
  | beginLeave (p : PeerId)
  | request (p : PeerId) (bits : DomainBitmap)
  | volunteer (p : PeerId)
  | announce (p : PeerId) (d : DomainId) (step : Tournament.ClimbStep)
  | withdraw (p : PeerId) (d : DomainId) (step : Tournament.ClimbStep)
  | publishShadow (d : DomainId) (g : Nat) (r : DomainRecord)
  | publish (d : DomainId) (r : DomainRecord)

/-- The contender slot of a step of a peer's climb in a domain's tree. -/
def climbSlot (dims : Dims) (p : PeerId) (d : DomainId) (step : Tournament.ClimbStep) :
    Option (Nat × Tournament.Role) := do
  let nodesPerDomain ← Tournament.getNodesPerDomain dims.maxPeers
  let path ← Tournament.buildClimbPath dims.maxPeers p
  if step ∈ path ∧ d < dims.numDomains then some (d * nodesPerDomain + step.node, step.role)
  else none

def env (dims : Dims) (strategy : Strategy) : Env → State → Option State
  | .crash p, s =>
    -- the peer's DRAM is gone with it
    if s.up p then some { s with
      up := update s.up p false
      poll := update s.poll p .fresh
      confirmed := update s.confirmed p none
      atWork := update s.atWork p none }
    else none
  | .reserve p, s =>
    -- the reservation leaves the participation bits as it finds them
    if p < dims.maxPeers ∧ (s.member p).isValidMagic ∧ (s.member p).status = .none then some { s with
      member := update s.member p { s.member p with status := .active }
      up := update s.up p true
      poll := update s.poll p .fresh
      occupancy := update s.occupancy p (s.occupancy p + 1) }
    else none
  | .participate p bits, s =>
    if s.up p then some { s with
      member := update s.member p { s.member p with participating := bits } }
    else none
  | .beginLeave p, s =>
    if s.up p then some { s with
      member := update s.member p { s.member p with status := .leaving } }
    else none
  | .request p bits, s =>
    if s.up p ∧ strategy.hasDemand then some { s with demand := update s.demand p bits }
    else none
  | .volunteer p, s =>
    if s.up p ∧ strategy = .requestAgg then some { s with
      aggregator := update s.aggregator (p % Ownership.RequestAgg.getGroups dims) p }
    else none
  | .announce p d step, s =>
    if s.up p ∧ strategy = .peterson then
      (climbSlot dims p d step).map fun slot =>
        { s with lines := setCell s.lines slot.1 slot.2 p }
    else none
  | .withdraw p d step, s =>
    if s.up p ∧ strategy = .peterson then
      (climbSlot dims p d step).map fun slot =>
        { s with lines := setCell s.lines slot.1 slot.2 noPeer }
    else none
  | .publishShadow d g r, s => some { s with shadow := setCell s.shadow d g r }
  | .publish d r, s => some { s with truth := update s.truth d r }

/-- The threads of a crashed peer are gone. -/
def kills : Env → PeerId → Bool
  | .crash p, q => q = p
  | _, _ => false

end Cme.Recovery
