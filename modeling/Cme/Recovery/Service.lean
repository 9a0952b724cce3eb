import Cme.Recovery.Region

/-!
# Recovery — the recovery of a crashed peer

`core/algo/recovery.cpp` with what it calls: the claim of
`ChainRecoveryAuthorityPolicy` (`core/policy/recovery_authority.cpp`) over
`stake::Claim`, the takeover pass, and the scrub of each strategy. A poll thread's
own words are passed along and stored back when its tick ends. Events and fail
points are left out, and so is the orphan sweep that a finish requests.
-/

namespace Cme.Recovery

open Interleave
open Ownership (Dims TakeoverPass seizeEpochGap shadowGroup)
open Registry (Status)

/-! ### local_peer_state.cpp: the takeover span -/

/-- `config::recovery::QuietCycles` -/
def quietCycles : Nat := 100

namespace PollState

def isRecoveryArmed (l : PollState) (target : PeerId) : Bool :=
  0 < l.recoveryCycles && l.recoveryTarget == target

def setRecoveryCycles (l : PollState) (target : PeerId) : PollState :=
  { l with recoveryCycles := quietCycles, recoveryTarget := target }

def resetRecoveryCycles (l : PollState) : PollState :=
  { l with recoveryCycles := 0, recoveryTarget := noPeer }

def isRecoveryOngoing (l : PollState) : Bool × PollState :=
  if l.recoveryCycles = 0 then (false, l)
  else if l.recoveryCycles - 1 = 0 then (false, l.resetRecoveryCycles)
  else (true, { l with recoveryCycles := l.recoveryCycles - 1 })

/-- `stake::Claim::isStaked` -/
def isStaked (l : PollState) : Bool := l.phase == .settling || l.phase == .holding

end PollState

section

variable (dims : Dims) (self : PeerId)

/-! ### recovery_authority.cpp, stake_claim.hpp -/

def hasFailed (p : PeerId) : Proc Bool :=
  if p < dims.maxPeers then act (.hasFailed p) else pure false

def readClaim (dead : PeerId) : Proc PeerId := do
  let copy ← act (.getClaim dead)
  pure copy.read

def isClaimantGone (recordedRA : PeerId) : Proc Bool :=
  if recordedRA < dims.maxPeers then hasFailed dims recordedRA else pure true

def isRecoveryStranded (dead : PeerId) : Proc Bool := do
  let recordedRA ← readClaim dead
  isClaimantGone dims recordedRA

def isFree (recordedRA : PeerId) : Proc Bool :=
  if recordedRA = self then pure true else isClaimantGone dims recordedRA

/-- `publish`: judged again on the copy the write is made from. -/
def publish (dead : PeerId) : Proc Bool := do
  let copy ← act (.getClaim dead)
  if copy.isValidMagic then
    if ← isFree dims self copy.recoveryAuthority then
      act (.setClaim dead { copy with recoveryAuthority := self })
      pure true
    else pure false
  else pure false

/-- `FieldWord::retract` -/
def retract (mine dead : PeerId) : Proc Unit := do
  let copy ← act (.getClaim dead)
  if copy.isValidMagic ∧ copy.recoveryAuthority = mine then
    act (.setClaim dead { copy with recoveryAuthority := noPeer })
  else pure ()

/-- `tryStake`, which never answers Won. -/
def tryStake (dead : PeerId) (l : PollState) : Proc PollState := do
  let seen ← readClaim dead
  if ← isFree dims self seen then
    if ← publish dims self dead then
      let late ← act .askExpired
      pure { l with phase := if late then .holding else .settling }
    else pure { l with phase := .idle }
  else pure l

def endSettle (dead : PeerId) (l : PollState) : Proc (Bool × PollState) := do
  if ← act .askExpired then
    let copy ← act (.settleClaim dead)
    if copy.read = self then pure (true, l)
    else
      let l ← tryStake dims self dead { l with phase := .idle }
      pure (false, l)
  else pure (false, l)

def endHold (dead : PeerId) (l : PollState) : Proc (Bool × PollState) := do
  if ← act .askExpired then
    retract self dead
    let l ← tryStake dims self dead { l with phase := .idle }
    pure (false, l)
  else pure (false, l)

/-- `stake::Claim::tick`; the answer is whether the outcome is Won. -/
def tick (dead : PeerId) (l : PollState) : Proc (Bool × PollState) :=
  match l.phase with
  | .idle => do
    let l ← tryStake dims self dead l
    pure (false, l)
  | .settling => endSettle dims self dead l
  | .holding => endHold dims self dead l

def claim (dead : PeerId) (l : PollState) : Proc (Bool × PollState) := do
  let (won, l) ← tick dims self dead l
  pure (won, { l with claimTarget := if l.isStaked then dead else noPeer })

def isClaimHeld (dead : PeerId) : Proc Bool := do
  let recordedRA ← readClaim dead
  pure (recordedRA == self)

def resetClaim (l : PollState) : Proc PollState := do
  if l.claimTarget ≠ noPeer then
    if l.isStaked then retract self l.claimTarget
    pure { l with phase := .idle, claimTarget := noPeer }
  else pure { l with claimTarget := noPeer }

/-- `resetClaim` of a target, where the claim is latched on it. -/
def resetClaimOn (target : PeerId) (l : PollState) : Proc PollState :=
  if l.claimTarget = target then resetClaim self l else pure l

def retractEach (recovered : PeerId) : List PeerId → Proc Unit
  | [] => pure ()
  | dead :: rest => do
    retract recovered dead
    retractEach recovered rest

def retractClaimsBy (recovered : PeerId) : Proc Unit :=
  retractEach recovered (List.range dims.maxPeers)

/-- The ring walk of `getRecoveryTarget`. -/
def findTarget : List PeerId → Proc PeerId
  | [] => pure noPeer
  | candidate :: rest => do
    let (member, _) ← act (.getMember candidate)
    if member.status = .active ∨ member.status = .leaving then pure candidate
    else if member.status = .recovering then
      if ← isRecoveryStranded dims candidate then pure candidate else findTarget rest
    else findTarget rest

def getRecoveryTarget (l : PollState) : Proc PeerId := do
  if l.claimTarget ≠ noPeer then pure l.claimTarget
  else
    let bound ← act .askScanBound
    findTarget dims (idRing self (if bound ≠ 0 then bound else dims.maxPeers))

/-! ### The scrubs: request_demand_region.hpp, successor_request_agg.cpp,
successor_peterson.cpp -/

def findLiveGroupAggregator (excludePeer : PeerId) : List PeerId → Proc PeerId
  | [] => pure noPeer
  | peerId :: rest => do
    if peerId = excludePeer then findLiveGroupAggregator excludePeer rest
    else
      let (member, _) ← act (.getMember peerId)
      if member.status = .active then pure peerId else findLiveGroupAggregator excludePeer rest

/-- Hand on the duty of a peer's group, where the record names it. -/
def reelect (peerId : PeerId) : Proc Unit := do
  let groupId := peerId % Ownership.RequestAgg.getGroups dims
  let named ← act (.getAggregator groupId)
  if named = peerId then
    let elected ←
      findLiveGroupAggregator peerId (Ownership.RequestAgg.groupMembers dims groupId)
    act (.setAggregator groupId elected)
  else pure ()

/-- One level of the crashed peer's climb, domain by domain. -/
def scrubDomains (nodesPerDomain : Nat) (dead : PeerId) (step : Tournament.ClimbStep) :
    List DomainId → Proc Unit
  | [] => pure ()
  | d :: rest => do
    let node := d * nodesPerDomain + step.node
    let owner ← act (.getLine node step.role)
    if owner = dead then act (.setLine node step.role noPeer)
    scrubDomains nodesPerDomain dead step rest

def scrubLevels (nodesPerDomain : Nat) (dead : PeerId) :
    List Tournament.ClimbStep → Proc Unit
  | [] => pure ()
  | step :: below => do
    scrubDomains nodesPerDomain dead step (List.range dims.numDomains)
    scrubLevels nodesPerDomain dead below

/-- `cleanupDeadPeer`: root to leaf. A path that is never built holds the tick. -/
def cleanupDeadPeer (dead : PeerId) : Proc Unit :=
  match Tournament.getNodesPerDomain dims.maxPeers,
      Tournament.buildClimbPath dims.maxPeers dead with
  | some nodesPerDomain, some deadPath => scrubLevels dims nodesPerDomain dead deadPath.reverse
  | _, _ => act .spin

def scrubRecoveredPeer (dead : PeerId) : Strategy → Proc Unit
  | .order => pure ()
  | .request => act (.setDemand dead 0)
  | .requestAgg => do
    act (.setDemand dead 0)
    reelect dims dead
  | .peterson => cleanupDeadPeer dims dead

/-! ### recovery.cpp -/

/-- One rmw clears participation and stamps Recovering. It refuses a None slot and
a fresh stamp. -/
def seizeDeadPeerSlot (dead : PeerId) : Proc Bool := do
  let (member, failed) ← act (.getMember dead)
  if member.isValidMagic = true ∧ member.status ≠ .none ∧ failed = true then
    act (.setMember dead { member with participating := 0, status := .recovering })
    pure true
  else pure false

/-- Scrub, and None last. -/
def finishRecoveryCleanup (strategy : Strategy) (dead : PeerId) : Proc Unit := do
  scrubRecoveredPeer dims dead strategy
  let (member, _) ← act (.getMember dead)
  if member.isValidMagic then act (.setMember dead { member with status := .none })
  else pure ()

/-- `takeoverOwnership` on the region: the shadow first, then the truth. -/
def takeoverOwnership (d : DomainId) (base : DomainRecord) : Proc Unit := do
  let record := { base with holder := self, epoch := base.epoch + 1 }
  act (.setShadow d (shadowGroup self) record)
  act (.setRecord d record)

def takeoverDomains (dead : PeerId) : List DomainId → TakeoverPass → Proc TakeoverPass
  | [], pass => pure pass
  | d :: rest, pass => do
    let record ← act (.getRecord d)
    if record.holder = dead then
      if ← isClaimHeld self dead then
        takeoverOwnership self d { record with epoch := record.epoch + seizeEpochGap }
        takeoverDomains dead rest .touched
      else pure .deposed
    else takeoverDomains dead rest pass

def takeoverDomainsHeldByDeadPeer (dead : PeerId) : Proc TakeoverPass :=
  takeoverDomains self dead (List.range dims.numDomains) .quiet

/-- The end of a span that ran out quiet. -/
def finishRecovery (strategy : Strategy) (target : PeerId) (l : PollState) : Proc PollState := do
  retractClaimsBy dims target
  finishRecoveryCleanup dims strategy target
  act .leave
  resetClaim self l

/-- The pass of a tick under a seized slot, and the finish where the span is over. -/
def serviceSeized (strategy : Strategy) (target : PeerId) (l : PollState) : Proc PollState := do
  act (.enter target)
  match ← takeoverDomainsHeldByDeadPeer dims self target with
  | .touched =>
    act .leave
    pure (l.setRecoveryCycles target)
  | .deposed =>
    act .leave
    pure l
  | .quiet =>
    let (ongoing, l) := l.isRecoveryOngoing
    if ongoing then
      act .leave
      pure l
    else if ← isClaimHeld self target then finishRecovery dims self strategy target l
    else
      act .leave
      pure l

/-- A tick whose claim is confirmed. -/
def serviceConfirmed (strategy : Strategy) (target : PeerId) (l : PollState) :
    Proc PollState := do
  if l.isRecoveryArmed target then serviceSeized dims self strategy target l
  else if ← seizeDeadPeerSlot target then
    serviceSeized dims self strategy target (l.setRecoveryCycles target)
  else
    -- the id was freed or has a new occupant
    let l ← resetClaimOn self target l
    pure l.resetRecoveryCycles

def serviceRecovery (strategy : Strategy) (l : PollState) : Proc PollState := do
  let target ← getRecoveryTarget dims self l
  if ¬ target < dims.maxPeers ∨ target = self then pure l.resetRecoveryCycles
  else if ← hasFailed dims target then
    let (won, l) ← claim dims self target l
    -- yielding, settling or lost
    if won then serviceConfirmed dims self strategy target l else pure l
  else
    let l ← resetClaimOn self target l
    pure l.resetRecoveryCycles

/-- One tick of the poll thread. -/
def serviceTick (strategy : Strategy) : Proc Unit := do
  let l ← act .getPoll
  let l ← serviceRecovery dims self strategy l
  act (.setPoll l)

/-! ### A departure: the strategies' `leave`, lifecycle.cpp, peer.cpp -/

/-- The peer's own demand and, in its own group, the duty. -/
def policyLeave : Strategy → Proc Unit
  | .request => act (.setDemand self 0)
  | .requestAgg => do
    act (.setDemand self 0)
    reelect dims self
  | _ => pure ()

/-- The records it hands on are `Env.publish` steps. -/
def leaveMembership : Proc Unit := do
  retractClaimsBy dims self
  act .publishNone

/-- `~Peer` after its drain. -/
def depart (strategy : Strategy) : Proc Unit := do
  act .joinPollThread
  policyLeave dims self strategy
  leaveMembership dims self

end

inductive Call where
  | tick
  | depart
  deriving DecidableEq, Repr

/-- A live peer's poll thread may start a tick at any time; a draining peer's thread may be
joined. -/
def start (dims : Dims) (strategy : Strategy) (p : PeerId) : Call → State → Option (Proc Unit)
  | .tick, s => if s.up p then some (serviceTick dims p strategy) else none
  | .depart, s =>
    if s.up p ∧ p < dims.maxPeers ∧ (s.member p).status = .leaving then
      some (depart dims p strategy)
    else none

/-- The poll threads of all peers, and their departures. -/
def system (dims : Dims) (strategy : Strategy) :
    System PeerId Op Ret State Choice Call Env where
  exec := exec
  start := start dims strategy
  env := env dims strategy
  kills := kills

def idle (s : State) : Config PeerId Op Ret State := ⟨s, fun _ => .done ()⟩

/-- A region with its members in it and no claim, no announce and no demand yet. -/
structure State.Formatted (dims : Dims) (s : State) : Prop where
  up_lt : ∀ p, s.up p = true → p < dims.maxPeers
  up_member : ∀ p, s.up p = true → (s.member p).status = .active ∨ (s.member p).status = .leaving
  claim : ∀ d, (s.claim d).read = noPeer
  demand : ∀ p, s.demand p = 0
  lines : ∀ node role, s.lines node role = noPeer
  poll : ∀ p, s.poll p = .fresh
  confirmed : ∀ p, s.confirmed p = none
  atWork : ∀ p, s.atWork p = none

end Cme.Recovery
