import Cme.Ownership.Transfer

/-!
# Ownership — the Order, Request and RequestAgg strategies

The three token policies, the recovery pass that seizes a crashed peer's
domains, and `Peer::leaveDomain`, and the system in which every thread of every
peer runs them.
-/

namespace Cme.Ownership

open Interleave Interleave.Prog

inductive Strategy where
  | order
  | request
  | requestAgg
  deriving DecidableEq, Repr

/-! ### local_peer_state.hpp, request_demand_region.hpp -/

/-- A bound of 0 falls back to every slot. -/
def getPeerScanBound (dims : Dims) : Proc Nat := do
  let bound ← act .askScanBound
  pure (if bound ≠ 0 then bound else dims.maxPeers)

def getPeerRing (dims : Dims) (self : PeerId) : Proc (List PeerId) := do
  let bound ← getPeerScanBound dims
  pure (idRing self bound)

def getMemberView (dims : Dims) (q : PeerId) : Proc MemberView := do
  if q < dims.maxPeers then act (.askMember q) else pure {}

/-- Count a waiter in or out and publish, under the peer's pending mutex. -/
def updateSelfPending (d : DomainId) (requesting : Bool) (publish : DomainBitmap → Proc Unit) :
    Proc Unit := do
  act .lockPending
  let bits ← act (.countPending d requesting)
  publish bits
  act .unlockPending

def raise (self : PeerId) (d : DomainId) : Proc Unit :=
  updateSelfPending d true fun bits => act (.setDemand self bits)

def drop (self : PeerId) (d : DomainId) : Proc Unit :=
  updateSelfPending d false fun bits => act (.setDemand self bits)

/-! ### What the grant scans share -/

/-- Grant each of `candidates` to `q`, and drop it from the held set either way. -/
def grantEach (dims : Dims) (self q : PeerId) :
    List DomainId → DomainBitmap → Bool → Proc (DomainBitmap × Bool)
  | [], held, granted => pure (held, granted)
  | d :: rest, held, granted => do
    let ok ← transferOwnershipGuarded dims self d q
    grantEach dims self q rest (held.clear d) (granted || ok)

/-- Walk the ring and grant each held domain to the first peer that `wanted`
names for it. -/
def transferHeldDomains (dims : Dims) (self : PeerId) (wanted : PeerId → Proc DomainBitmap) :
    List PeerId → DomainBitmap → Proc Unit
  | [], _ => pure ()
  | q :: ring, held => do
    if held.isEmpty then pure ()
    else
      let bits ← wanted q
      let (held, _) ← grantEach dims self q (held &&& bits).toList held false
      transferHeldDomains dims self wanted ring held

namespace Order

/-- What the order strategy offers a peer: all it participates in, while active. -/
def wantedBy (dims : Dims) (q : PeerId) : Proc DomainBitmap := do
  let member ← getMemberView dims q
  pure (if member.active then member.participating else 0)

def findSuccessor (dims : Dims) (self : PeerId) (d : DomainId) : List PeerId → Proc PeerId
  | [] => pure self
  | candidate :: ring => do
    let member ← getMemberView dims candidate
    if member.active && member.participating.has d then pure candidate
    else findSuccessor dims self d ring

def lock (self : PeerId) (d : DomainId) : Proc OwnershipResult := do
  holdDomain d
  match ← waitForOwnership self d with
  | .arrived => pure .arrived
  | .notArrived =>
    unholdDomain d
    pure .notArrived

def unlock (dims : Dims) (self : PeerId) (d : DomainId) : Proc Unit := do
  unpinOwnership d true
  if ← canTransferDomain d then
    let ring ← getPeerRing dims self
    let successor ← findSuccessor dims self d ring
    if successor ≠ self then
      let _ ← transferOwnershipGuarded dims self d successor
      pure ()
    else pure ()
  else pure ()

def pollCycle (dims : Dims) (self : PeerId) : Proc Unit := do
  let held ← reconcileAndCollectTransferable self
  if held.isEmpty then pure ()
  else
    let ring ← getPeerRing dims self
    transferHeldDomains dims self (wantedBy dims) ring held

end Order

/-- The lock of both request strategies; `announce` is how demand is raised. -/
def lockOnDemand (self : PeerId) (d : DomainId) (announce : Proc Unit) : Proc OwnershipResult := do
  if ← holdAndCheckResident self d then pure .arrived
  else
    announce
    let result ← waitForOwnership self d
    drop self d
    match result with
    | .arrived => pure .arrived
    | .notArrived =>
      -- the settle-wait catches a grant that was in flight when demand was dropped
      match ← waitForOwnership self d with
      | .arrived => pure .arrived
      | .notArrived =>
        unholdDomain d
        pure .notArrived

/-- The collect of both request strategies. -/
def collectOnDemand (self : PeerId) : Proc DomainBitmap := do
  if ← act .askDue then reconcileAndCollectTransferable self else collectTransferableLocal

namespace Request

def wantedBy (q : PeerId) : Proc DomainBitmap := act (.getDemand q)

def transferOwnershipToRequester (dims : Dims) (self : PeerId) (d : DomainId) :
    List PeerId → Proc Bool
  | [] => pure false
  | q :: ring => do
    let bits ← act (.getDemand q)
    if bits.has d then transferOwnershipGuarded dims self d q
    else transferOwnershipToRequester dims self d ring

def lock (self : PeerId) (d : DomainId) : Proc OwnershipResult :=
  lockOnDemand self d (raise self d)

def unlock (dims : Dims) (self : PeerId) (d : DomainId) : Proc Unit := do
  unpinOwnership d true
  if ← canTransferDomain d then
    let ring ← getPeerRing dims self
    let _ ← transferOwnershipToRequester dims self d ring
    pure ()
  else pure ()

def pollCycle (dims : Dims) (self : PeerId) : Proc Unit := do
  let held ← collectOnDemand self
  if held.isEmpty then pure ()
  else
    let ring ← getPeerRing dims self
    transferHeldDomains dims self wantedBy ring held

end Request

def ceilDiv (a b : Nat) : Nat := (a + b - 1) / b

namespace RequestAgg

def getBitmapBytes (dims : Dims) : Nat := ceilDiv dims.numDomains 8

def getMembersPerSlot (dims : Dims) : Nat :=
  let perSlot := if getBitmapBytes dims = 0 then 0 else 64 / getBitmapBytes dims
  if perSlot = 0 then 1 else perSlot

/-- The group count asked for, raised to one slot per group. -/
def getGroups (dims : Dims) : Nat :=
  max dims.aggregatorGroups (ceilDiv dims.maxPeers (getMembersPerSlot dims))

/-- Copy a bitmap's bytes into a member's slice of the slot. -/
def packSlice (slot : AggregatedRequest) (slotLocalIndex bitmapBytes : Nat)
    (bits : DomainBitmap) : AggregatedRequest := fun j =>
  let offset := slotLocalIndex * bitmapBytes
  if offset ≤ j ∧ j < offset + bitmapBytes then (bits >>> (8 * (j - offset))).setWidth 8
  else slot j

def unpackAggregatedRequest (slot : AggregatedRequest) (slotLocalIndex bitmapBytes : Nat) :
    DomainBitmap :=
  (List.range bitmapBytes).foldl
    (fun acc k => acc ||| ((slot (slotLocalIndex * bitmapBytes + k)).setWidth maxDomains <<< (8 * k)))
    0

/-- The members of a group: every `groups`-th peer from the group's own id. -/
def groupMembers (dims : Dims) (groupId : Nat) : List PeerId :=
  (List.range dims.maxPeers).filter fun q => q % getGroups dims == groupId

def packMembers (dims : Dims) : List PeerId → AggregatedRequest → Proc AggregatedRequest
  | [], slot => pure slot
  | q :: rest, slot => do
    let wanted ← act (.getDemand q)
    packMembers dims rest (packSlice slot (q / getGroups dims) (getBitmapBytes dims) wanted)

def packAggregatedRequest (dims : Dims) (groupId : Nat) : Proc AggregatedRequest :=
  packMembers dims (groupMembers dims groupId) fun _ => 0

def grantHeldToPeer (dims : Dims) (self q : PeerId) (held : DomainBitmap) :
    Proc (DomainBitmap × Bool) := do
  let bits ← act (.getDemand q)
  grantEach dims self q (held &&& bits).toList held false

/-- The members of one group, from the slot as it was read. -/
def offerMembers (dims : Dims) (self : PeerId) (slot : AggregatedRequest)
    (groupId memberCount startLocalIndex : Nat) :
    List Nat → DomainBitmap → Bool → Proc (DomainBitmap × Bool)
  | [], held, granted => pure (held, granted)
  | memberStep :: rest, held, granted => do
    let slotLocalIndex := (startLocalIndex + memberStep) % memberCount
    let q := groupId + slotLocalIndex * getGroups dims
    let wanted := unpackAggregatedRequest slot slotLocalIndex (getBitmapBytes dims)
    if q = self ∨ (held &&& wanted).isEmpty then
      offerMembers dims self slot groupId memberCount startLocalIndex rest held granted
    else
      let (held, ok) ← grantHeldToPeer dims self q held
      offerMembers dims self slot groupId memberCount startLocalIndex rest held (ok || granted)

/-- The groups, the peer's own one first. -/
def offerGroups (dims : Dims) (self : PeerId) :
    List Nat → DomainBitmap → Bool → Proc Bool
  | [], _, granted => pure granted
  | groupStep :: rest, held, granted => do
    if held.isEmpty then pure granted
    else
      let groups := getGroups dims
      let groupId := (self % groups + groupStep) % groups
      if dims.maxPeers ≤ groupId then offerGroups dims self rest held granted
      else
        let memberCount := ceilDiv (dims.maxPeers - groupId) groups
        let slot ← act (.getPacked groupId)
        let start := if groupId = self % groups then self / groups + 1 else 0
        let (held, granted) ←
          offerMembers dims self slot groupId memberCount start (List.range memberCount) held granted
        offerGroups dims self rest held granted

def transferHeldDomainsAgg (dims : Dims) (self : PeerId) (held : DomainBitmap) : Proc Bool :=
  offerGroups dims self (List.range (getGroups dims)) held false

def refreshAggregatedRequest (dims : Dims) (self : PeerId) : Proc Unit := do
  let groupId := self % getGroups dims
  let publish : Proc Unit := do
    let aggregated ← packAggregatedRequest dims groupId
    act (.setPacked groupId aggregated)
  let named ← act (.getAggregator groupId)
  if named = self then publish
  else
    -- a vacant duty: nobody is named, or a peer that is not there
    let member ← getMemberView dims named
    if member.active then pure ()
    else
      act (.setAggregator groupId self)
      publish

def updateDemandAndSlice (dims : Dims) (self : PeerId) (d : DomainId) (requesting : Bool) :
    Proc Unit :=
  updateSelfPending d requesting fun bits => do
    act (.setDemand self bits)
    let groupId := self % getGroups dims
    let slot ← act (.getPacked groupId)
    act (.setPacked groupId (packSlice slot (self / getGroups dims) (getBitmapBytes dims) bits))

def lock (dims : Dims) (self : PeerId) (d : DomainId) : Proc OwnershipResult :=
  lockOnDemand self d (updateDemandAndSlice dims self d true)

def unlock (dims : Dims) (self : PeerId) (d : DomainId) : Proc Unit := do
  unpinOwnership d true
  if ← canTransferDomain d then
    let _ ← transferHeldDomainsAgg dims self (Bits.set 0 d)
    pure ()
  else pure ()

def pollCycle (dims : Dims) (self : PeerId) : Proc Unit := do
  refreshAggregatedRequest dims self
  let held ← collectOnDemand self
  if held.isEmpty then pure ()
  else
    let _ ← transferHeldDomainsAgg dims self held
    pure ()

end RequestAgg

/-! ### The policy of a region -/

def lock (dims : Dims) (self : PeerId) (d : DomainId) : Strategy → Proc OwnershipResult
  | .order => Order.lock self d
  | .request => Request.lock self d
  | .requestAgg => RequestAgg.lock dims self d

def unlock (dims : Dims) (self : PeerId) (d : DomainId) : Strategy → Proc Unit
  | .order => Order.unlock dims self d
  | .request => Request.unlock dims self d
  | .requestAgg => RequestAgg.unlock dims self d

def pollCycle (dims : Dims) (self : PeerId) : Strategy → Proc Unit
  | .order => Order.pollCycle dims self
  | .request => Request.pollCycle dims self
  | .requestAgg => RequestAgg.pollCycle dims self

/-! ### recovery.cpp -/

inductive TakeoverPass where
  | quiet
  | touched
  | deposed
  deriving DecidableEq, Repr

/-- What a seize adds to the epoch, to jump clear of a shadow in flight. -/
def seizeEpochGap : Nat := 8

def takeoverDomains (self dead : PeerId) : List DomainId → TakeoverPass → Proc TakeoverPass
  | [], pass => pure pass
  | d :: rest, pass => do
    let record ← act (.getRecord d)
    if record.holder = dead then
      if ← act (.askClaimHeld dead) then
        takeoverOwnership self d { record with epoch := record.epoch + seizeEpochGap }
        takeoverDomains self dead rest .touched
      else pure .deposed
    else takeoverDomains self dead rest pass

def takeoverDomainsHeldByDeadPeer (dims : Dims) (self dead : PeerId) : Proc TakeoverPass :=
  takeoverDomains self dead (List.range dims.numDomains) .quiet

/-! ### lifecycle.cpp, peer.cpp: leaving one domain -/

inductive LeaveResult where
  | ok
  | notParticipating
  | soleParticipant
  deriving DecidableEq, Repr

/-- An exception of `Peer`, with its text. -/
inductive PeerError where
  | join (text : String)
  | notParticipating (text : String)
  | lockTimeout
  | unknownDomain (text : String)
  | domainBusy (text : String)
  deriving DecidableEq, Repr

def getSuccessorOnLeave (d : DomainId) : List PeerId → Proc PeerId
  | [] => pure noPeer
  | q :: ring => do
    let member ← act (.askMember q)
    if member.active && member.participating.has d then pure q else getSuccessorOnLeave d ring

/-- `lifecycle::leaveDomain`. The `quitLeave` of the two refusals is history only. -/
def leaveDomain (dims : Dims) (self : PeerId) (d : DomainId) : Proc LeaveResult := do
  if ← act (.loadParticipating d) then
    let ring ← getPeerRing dims self
    let successor ← getSuccessorOnLeave d ring
    if successor = noPeer then
      act (.quitLeave d)
      pure .soleParticipant
    else
      let record ← act (.getRecord d)
      if record.holder = self then transferOwnership dims self d successor else pure ()
      act (.resetPins d)
      act (.clearParticipation d)
      pure .ok
  else
    act (.quitLeave d)
    pure .notParticipating

/-- The section of `Peer::leaveDomain` under the control lock. -/
def leaveDomainLocked (dims : Dims) (self : PeerId) (d : DomainId)
    (expectedIncarnation : Option Nat) : Proc (Except PeerError LeaveResult) := do
  if ← refuseReplacedDomain d expectedIncarnation then
    pure (.error (.unknownDomain "cme::Peer::leaveDomain: the domain this named is gone"))
  else if ← act (.hasPins d) then
    pure (.error (.domainBusy "cme::Peer::leaveDomain: this peer still holds the domain"))
  else
    let result ← leaveDomain dims self d
    pure (.ok result)

/-- `Peer::leaveDomain`. The guards release the control lock on every way out. -/
def peerLeaveDomain (dims : Dims) (self : PeerId) (d : DomainId)
    (expectedIncarnation : Option Nat) : Proc (Except PeerError Unit) := do
  if dims.numDomains ≤ d then
    pure (.error (.join "cme::Peer::leaveDomain: domainId out of range"))
  else if d = controlDomainId then
    pure (.error (.notParticipating "cme::Peer::leaveDomain: control domain is mandatory"))
  else if ← act .lockControl then
    let result ← leaveDomainLocked dims self d expectedIncarnation
    act .unlockControl
    match result with
    | .error e => pure (.error e)
    | .ok .soleParticipant => pure (.error
        (.notParticipating "cme::Peer::leaveDomain: sole participant; deleteDomain instead"))
    | .ok _ => pure (.ok ())
  else pure (.error .lockTimeout)

/-! ### The system -/

/-- What an idle thread may start. -/
inductive Call where
  | lock (d : DomainId)
  | tryLock (d : DomainId)
  | unlock (d : DomainId)
  | pollCycle
  | takeover (dead : PeerId)
  | leaveDomain (d : DomainId) (expectedIncarnation : Option Nat)

/-- What happens outside the threads. -/
inductive Env where
  | crash (p : PeerId)

/-- Which of the two runs of events a system allows. -/
structure Variant where
  crashes : Bool
  leaves : Bool

/-- A lock call; returning Arrived puts the thread in the section. -/
def lockCall (dims : Dims) (self : PeerId) (d : DomainId) (strategy : Strategy) : Proc Unit := do
  match ← lock dims self d strategy with
  | .arrived => act (.arrive d)
  | .notArrived => pure ()

/-- `Peer::tryLock`: a peer that does not participate is turned away. -/
def tryLockCall (dims : Dims) (self : PeerId) (d : DomainId) (strategy : Strategy) : Proc Unit := do
  if ← act (.loadParticipating d) then lockCall dims self d strategy else pure ()

/-- A recovery pass, by the one authority for the dead peer. -/
def takeoverCall (dims : Dims) (self dead : PeerId) : Proc Unit := do
  act (.beginPass dead)
  let _ ← takeoverDomainsHeldByDeadPeer dims self dead
  act (.endPass dead)

def leaveCall (dims : Dims) (self : PeerId) (d : DomainId) (expectedIncarnation : Option Nat) :
    Proc Unit := do
  let _ ← peerLeaveDomain dims self d expectedIncarnation
  pure ()

variable {W : Type} [DecidableEq W]

/-- The code of a call on a live peer. A thread unlocks only what it locked. -/
def callCode (dims : Dims) (strategy : Strategy) (v : Variant) (p : PeerId) (s : State W) :
    Thread W → Call → Option (Proc Unit)
  | .worker _, .lock d => some (lockCall dims p d strategy)
  | .worker _, .tryLock d => some (tryLockCall dims p d strategy)
  | .worker w, .unlock d =>
    if 0 < s.sections p (.worker w) d then some (unlock dims p d strategy) else none
  | .worker _, .leaveDomain d expected =>
    if v.leaves then some (leaveCall dims p d expected) else none
  | .poll, .pollCycle => some (pollCycle dims p strategy)
  | .poll, .takeover dead => some (takeoverCall dims p dead)
  | _, _ => none

def start (dims : Dims) (strategy : Strategy) (v : Variant) (i : Tid W) (call : Call)
    (s : State W) : Option (Proc Unit) :=
  if s.crashed i.1 || dims.maxPeers ≤ i.1 then none else callCode dims strategy v i.1 s i.2 call

/-- A peer stops for good. -/
def env (v : Variant) : Env → State W → Option (State W)
  | .crash p, s =>
    if v.crashes then some { s with crashed := Function.update s.crashed p true } else none

/-- All threads of all peers over one region. -/
def system (dims : Dims) (strategy : Strategy) (v : Variant) :
    System (Tid W) Op Ret (State W) Choice Call Env where
  exec := exec
  start := start dims strategy v
  env := env v
  kills := fun _ _ => false

/-- A formatted region nobody has used: every pin word is 0, nobody is inside,
and every record names whatever peer it names. -/
structure State.Initial (s : State W) : Prop where
  pin : ∀ p d, s.pin p d = 0
  crashed : ∀ p, s.crashed p = false
  sections : ∀ p t d, s.sections p t d = 0
  authority : ∀ p, s.authority p = none
  leaving : ∀ p d, s.leaving p d = false
  control : s.control = false

/-- A region of Active records that peer 0 holds, before anybody asked for one. -/
def State.held : State W where
  truth _ := ⟨DomainRecord.magicValue, .active, 1, 0, 0, []⟩
  pin _ _ := 0
  crashed _ := false
  sections _ _ _ := 0
  authority _ := none
  leaving _ _ := false
  control := false
  shadow _ _ := ⟨DomainRecord.magicValue, .active, 1, 0, 0, []⟩
  demand _ := 0
  aggregator g := g
  packed _ _ := 0
  isHolder p _ := p == 0
  lastOwnershipEpoch _ _ := 0
  selfPending _ := 0
  pendingWaiters _ _ := 0
  pendingDomainsMutex _ := false
  participating _ := 0
  isActive _ := true

/-- The configuration in which no thread has started. -/
def idle (s : State W) : Config (Tid W) Op Ret (State W) where
  shared := s
  threads := fun _ => .done ()

end Cme.Ownership
