import Cme.Registry.State

/-!
# Registry — creating, joining, leaving, deleting and locking domains

The domain half of `core/algo/lifecycle.cpp`, the calls of `core/algo/peer.cpp`
around it, and the locks by name and by handle of `shared.cpp`, in the order of
their accesses. `self` is the peer the code runs on.
-/

namespace Cme

/-- The new incarnation of a free slot: the epoch goes on where it was. -/
def DomainRecord.reborn (e : DomainRecord) (self : PeerId) (name : Registry.Text) : DomainRecord :=
  { e with
    generation := e.generation + 1
    name := Registry.nameField name
    holder := self
    state := .active }

/-- The record of a slot given back. -/
def DomainRecord.freed (e : DomainRecord) : DomainRecord :=
  { e with holder := noPeer, state := .free, name := Registry.clearedName }

end Cme

namespace Cme.Registry

open Function Interleave Interleave.Prog

/-! ### lifecycle.cpp -/

/-- Whether the record's line is initialised. -/
def syncDomainView (d : DomainId) : Proc Bool := do
  let record ← loadRecord d
  pure record.isValidMagic

/-- A bound of 0 falls back to every slot. -/
def loadPeerScanBound (dims : Dims) : Proc Nat := do
  let bound ← act .loadPeerScanBound
  pure (if bound ≠ 0 then bound else dims.maxPeers)

/-- The ids after the control domain's. -/
def getDataDomainIdRange (dims : Dims) : List DomainId := List.range' 1 (dims.numDomains - 1)

/-- An Active member with the domain's bit. -/
def Member.isActiveIn (m : Member) (d : DomainId) : Bool :=
  m.status == .active && m.participating.has d

/-- The first Active participant of a ring. -/
def firstActiveIn (d : DomainId) : List PeerId → Proc PeerId
  | [] => pure noPeer
  | q :: ring => do
    let member ← act (.loadMember q)
    if member.isActiveIn d then pure q else firstActiveIn d ring

def getSuccessorOnLeave (dims : Dims) (self : PeerId) (d : DomainId) : Proc PeerId := do
  let bound ← loadPeerScanBound dims
  firstActiveIn d (idRing self bound)

def findEmptyAmong : List DomainId → Proc (Option DomainId)
  | [] => pure none
  | d :: rest => do
    let record ← loadRecord d
    if record.isValidMagic && !record.isActive then pure (some d) else findEmptyAmong rest

def findEmptyDataDomain (dims : Dims) : Proc (Option DomainId) :=
  findEmptyAmong (getDataDomainIdRange dims)

def anyOtherActiveIn (self : PeerId) (d : DomainId) : List PeerId → Proc Bool
  | [] => pure false
  | q :: rest => do
    if q = self then anyOtherActiveIn self d rest
    else
      let member ← act (.loadMember q)
      if member.isActiveIn d then pure true else anyOtherActiveIn self d rest

def hasOtherParticipant (dims : Dims) (self : PeerId) (d : DomainId) : Proc Bool := do
  let bound ← loadPeerScanBound dims
  anyOtherActiveIn self d (List.range bound)

/-- The first record of that name, with the generation of the same read. -/
def findNamedAmong (name : Text) : List DomainId → Proc (Option DomainHandle)
  | [] => pure none
  | d :: rest => do
    let record ← loadRecord d
    if record.isValidMagic && record.isActive && record.getName == name then
      pure (some ⟨d, record.generation⟩)
    else findNamedAmong name rest

def findDataDomainByName (dims : Dims) (name : Text) : Proc (Option DomainHandle) :=
  findNamedAmong name (getDataDomainIdRange dims)

/-- 0 for a slot that is not a live domain. -/
def readDomainIncarnation (d : DomainId) : Proc Nat := words (Ownership.readDomainIncarnation d)

/-- The dimensions as the shared procedures take them. -/
def Dims.words (dims : Dims) : Ownership.Dims := ⟨dims.maxPeers, dims.numDomains, 0⟩

inductive JoinResult where
  | ok
  | unknownDomain
  | corruptRegion
  deriving DecidableEq, Repr

def joinDomain (d : DomainId) : Proc JoinResult := do
  if ← act (.isParticipating d) then pure .ok
  else
    let record ← loadRecord d
    if record.isActive then
      if ← syncDomainView d then
        act (.setParticipation d)
        pure .ok
      else pure .corruptRegion
    else pure .unknownDomain

inductive LeaveResult where
  | ok
  | notParticipating
  | soleParticipant
  deriving DecidableEq, Repr

def leaveDomain (dims : Dims) (self : PeerId) (d : DomainId) : Proc LeaveResult := do
  if ← act (.isParticipating d) then
    let successor ← getSuccessorOnLeave dims self d
    if successor = noPeer then pure .soleParticipant
    else
      let record ← loadRecord d
      (if record.holder = self then words (Ownership.transferOwnership dims.words self d successor)
        else pure ())
      act (.resetOwnershipPins d)
      act (.clearParticipation d)
      pure .ok
  else pure .notParticipating

inductive CreateResult where
  | ok (h : DomainHandle)
  | duplicateName
  | noFreeSlot
  | corruptRegion
  deriving DecidableEq, Repr

/-- The record, then the bitmap, then the creator's participation. -/
def activate (self : PeerId) (name : Text) (d : DomainId) : Proc CreateResult := do
  let record ← loadRecord d
  if record.isValidMagic then
    let reborn := record.reborn self name
    words (Ownership.publishDomainRecord d reborn)
    act (.setActiveDomain d)
    let _ ← syncDomainView d
    act (.setParticipation d)
    pure (.ok ⟨d, reborn.generation⟩)
  else pure .corruptRegion

def isUsableName (name : Text) : Bool := !name.isEmpty && decide (name.length < maxNameLen)

def createDomainLocked (dims : Dims) (self : PeerId) (name : Text) : Proc CreateResult := do
  if isUsableName name then
    match ← findDataDomainByName dims name with
    | some _ => pure .duplicateName
    | none =>
      match ← findEmptyDataDomain dims with
      | none => pure .noFreeSlot
      | some d => activate self name d
  else pure .corruptRegion

inductive DeleteResult where
  | ok
  | notHolder
  | notSoleParticipant
  | corruptRegion
  deriving DecidableEq, Repr

/-- The participation goes before the record, the record before the bitmap. -/
def freeSlot (d : DomainId) (snapshot : DomainRecord) : Proc DeleteResult := do
  act (.clearParticipation d)
  act (.word (.setRecord d snapshot.freed))
  act (.clearActiveDomain d)
  act (.resetOwnershipPins d)
  pure .ok

def deleteDomainLocked (dims : Dims) (self : PeerId) (d : DomainId) : Proc DeleteResult := do
  let snapshot ← loadRecord d
  if snapshot.isValidMagic then
    if snapshot.isActive then
      if snapshot.holder ≠ self ∧ snapshot.holder ≠ noPeer then pure .notHolder
      else if ← hasOtherParticipant dims self d then pure .notSoleParticipant
      else freeSlot d snapshot
    else pure .ok
  else pure .corruptRegion

def reclaimAmong (dims : Dims) (self : PeerId) : List DomainId → Nat → Proc Nat
  | [], freed => pure freed
  | d :: rest, freed => do
    if ← act (.isParticipating d) then reclaimAmong dims self rest freed
    else
      let record ← loadRecord d
      if record.isValidMagic && record.isActive then
        let result ← deleteDomainLocked dims self d
        reclaimAmong dims self rest (if result = .ok then freed + 1 else freed)
      else reclaimAmong dims self rest freed

def reclaimOrphansLocked (dims : Dims) (self : PeerId) : Proc Nat :=
  reclaimAmong dims self (getDataDomainIdRange dims) 0

/-! ### peer.cpp -/

/-- An exception of `Peer` or `Session`, with its text. -/
inductive Error where
  | join (text : String)
  | format (text : String)
  | notParticipating (text : String)
  | lockTimeout
  | unknownDomain (text : String)
  | domainBusy (text : String)
  | domainExists (text : String)
  | domainLimit (text : String)
  deriving DecidableEq, Repr

def refuseReplacedDomain (d : DomainId) (expectedIncarnation : Option Nat) : Proc Bool :=
  words (Ownership.refuseReplacedDomain d expectedIncarnation)

def domainGone (opName : String) : Error :=
  .unknownDomain ("cme::Peer::" ++ opName ++ ": the domain this named is gone")

def outOfRange (opName : String) : Error :=
  .join ("cme::Peer::" ++ opName ++ ": domainId out of range")

/-- The policy's `lock`: a pin, then the wait; a timeout takes the pin back. -/
def policyLock (d : DomainId) : Proc Bool := do
  words (Ownership.holdDomain d)
  if ← act (.awaitTurn d) then pure true
  else
    words (Ownership.unholdDomain d)
    pure false

/-- `Peer::lock`; the guard it returns is the turn. -/
def lock (dims : Dims) (d : DomainId) : Proc (Except Error Unit) := do
  if dims.numDomains ≤ d then pure (.error (outOfRange "lock"))
  else if ← act (.isParticipating d) then
    if ← policyLock d then pure (.ok ()) else pure (.error .lockTimeout)
  else pure (.error (.notParticipating "cme::Peer::lock: domain not joined"))

/-- `Peer::tryLock`: nothing for a timeout, and for a domain not joined. -/
def tryLock (dims : Dims) (d : DomainId) : Proc (Except Error (Option Unit)) := do
  if dims.numDomains ≤ d then pure (.error (outOfRange "tryLock"))
  else if ← act (.isParticipating d) then
    if ← policyLock d then pure (.ok (some ())) else pure (.ok none)
  else pure (.ok none)

/-- A strategy's grant: the record is loaded, and the line set whole later. -/
def grant (dims : Dims) (self : PeerId) (d : DomainId) (q : PeerId) : Proc Unit := do
  let _ ← words (Ownership.transferOwnershipGuarded dims.words self d q)

/-- The release of a `PeerGuard`, that is, the policy's `unlock`: the last one out hands
the domain to whom the strategy finds. -/
def releaseInternal (dims : Dims) (self : PeerId) (d : DomainId) : Proc Unit := do
  act (.giveTurn d)
  words (Ownership.unpinOwnership d false)
  if ← words (Ownership.canTransferDomain d) then
    match ← act .askSuccessor with
    | some q => grant dims self d q
    | none => pure ()
  else pure ()

/-- `lock(ControlDomainId)` and the section mutex around `body`. Both fall on
every way out. -/
def inControlSection {α : Type} (body : Proc (Except Error α)) : Proc (Except Error α) := do
  if ← act (.isParticipating controlDomainId) then
    if ← act .lockControl then
      let result ← body
      act .unlockControl
      pure result
    else pure (.error .lockTimeout)
  else pure (.error (.notParticipating "cme::Peer::lock: domain not joined"))

def peerJoinLocked (d : DomainId) (expectedIncarnation : Option Nat) :
    Proc (Except Error Unit) := do
  if ← refuseReplacedDomain d expectedIncarnation then pure (.error (domainGone "joinDomain"))
  else
    match ← joinDomain d with
    | .ok => pure (.ok ())
    | .unknownDomain =>
      pure (.error (.unknownDomain "cme::Peer::joinDomain: domain deleted"))
    | .corruptRegion => pure (.error (.join "cme::Peer::joinDomain: corrupt region"))

def peerJoinDomain (dims : Dims) (d : DomainId) (expectedIncarnation : Option Nat) :
    Proc (Except Error Unit) := do
  if dims.numDomains ≤ d then pure (.error (outOfRange "joinDomain"))
  else if ← act (.isParticipating d) then
    -- idempotent, without the control lock
    if ← refuseReplacedDomain d expectedIncarnation then
      pure (.error (domainGone "joinDomain"))
    else pure (.ok ())
  else inControlSection (peerJoinLocked d expectedIncarnation)

def peerLeaveLocked (dims : Dims) (self : PeerId) (d : DomainId)
    (expectedIncarnation : Option Nat) : Proc (Except Error Unit) := do
  if ← refuseReplacedDomain d expectedIncarnation then pure (.error (domainGone "leaveDomain"))
  else if ← act (.hasOwnershipPins d) then
    pure (.error (.domainBusy "cme::Peer::leaveDomain: this peer still holds the domain"))
  else
    match ← leaveDomain dims self d with
    | .ok | .notParticipating => pure (.ok ())
    | .soleParticipant => pure (.error
        (.notParticipating "cme::Peer::leaveDomain: sole participant; deleteDomain instead"))

def peerLeaveDomain (dims : Dims) (self : PeerId) (d : DomainId)
    (expectedIncarnation : Option Nat) : Proc (Except Error Unit) := do
  if dims.numDomains ≤ d then pure (.error (outOfRange "leaveDomain"))
  else if d = controlDomainId then
    pure (.error (.notParticipating "cme::Peer::leaveDomain: control domain is mandatory"))
  else
    act (.beginRetire d)
    let result ← inControlSection (peerLeaveLocked dims self d expectedIncarnation)
    act (.endRetire d)
    pure result

def peerCreateLocked (dims : Dims) (self : PeerId) (name : Text) :
    Proc (Except Error DomainHandle) := do
  match ← createDomainLocked dims self name with
  | .ok h => pure (.ok h)
  | .duplicateName =>
    pure (.error (.domainExists ("cme: domain exists: " ++ String.ofList name)))
  | .noFreeSlot => pure (.error (.domainLimit "cme: domain slot ceiling reached"))
  | .corruptRegion => pure (.error (.join "cme::Peer::createDomain: corrupt region"))

/-- `Peer::createDomain`. The `returnHandle` is history only. -/
def peerCreateDomain (dims : Dims) (self : PeerId) (name : Text) :
    Proc (Except Error DomainHandle) := do
  if isUsableName name then
    match ← inControlSection (peerCreateLocked dims self name) with
    | .ok h =>
      act (.returnHandle h)
      pure (.ok h)
    | .error e => pure (.error e)
  else pure (.error (.format "cme::Peer::createDomain: name length out of range"))

def peerDeleteLocked (dims : Dims) (self : PeerId) (d : DomainId)
    (expectedIncarnation : Option Nat) : Proc (Except Error Unit) := do
  if ← refuseReplacedDomain d expectedIncarnation then pure (.error (domainGone "deleteDomain"))
  else
    match ← deleteDomainLocked dims self d with
    | .ok => pure (.ok ())
    | .notSoleParticipant => pure (.error (.notParticipating
        "cme::Peer::deleteDomain: other participants remain; they must leaveDomain first"))
    | .notHolder => pure (.error (.join "cme::Peer::deleteDomain: not holder"))
    | .corruptRegion => pure (.error (.join "cme::Peer::deleteDomain: corrupt region"))

/-- The part of a delete under the domain's own lock. -/
def peerDeleteHeld (dims : Dims) (self : PeerId) (d : DomainId)
    (expectedIncarnation : Option Nat) : Proc (Except Error Unit) := do
  if 1 < (← act (.word (.loadPin d false))) then
    pure (.error (.domainBusy "cme::Peer::deleteDomain: this peer still holds the domain"))
  else inControlSection (peerDeleteLocked dims self d expectedIncarnation)

/-- The domain's lock first, then control. -/
def peerDeleteLocking (dims : Dims) (self : PeerId) (d : DomainId)
    (expectedIncarnation : Option Nat) : Proc (Except Error Unit) := do
  match ← lock dims d with
  | .error e => pure (.error e)
  | .ok _ =>
    let result ← peerDeleteHeld dims self d expectedIncarnation
    releaseInternal dims self d
    pure result

def peerDeleteDomain (dims : Dims) (self : PeerId) (d : DomainId)
    (expectedIncarnation : Option Nat) : Proc (Except Error Unit) := do
  if dims.numDomains ≤ d then pure (.error (outOfRange "deleteDomain"))
  else if d = controlDomainId then
    pure (.error (.join "cme::Peer::deleteDomain: control domain is not deletable"))
  else
    act (.beginRetire d)
    let result ← peerDeleteLocking dims self d expectedIncarnation
    act (.endRetire d)
    pure result

def sweepLocked (dims : Dims) (self : PeerId) : Proc (Except Error Nat) := do
  let freed ← reclaimOrphansLocked dims self
  pure (.ok freed)

/-- The sweep of the poll loop: a control lock that does not come is retried on
the next tick. -/
def sweepOrphans (dims : Dims) (self : PeerId) : Proc Unit := do
  let _ ← inControlSection (sweepLocked dims self)

/-! ### shared.cpp -/

def resolveHandle (dims : Dims) (name : Text) : Proc (Except Error DomainHandle) := do
  match ← findDataDomainByName dims name with
  | some h => pure (.ok h)
  | none => pure (.error (.unknownDomain ("cme: unknown domain: " ++ String.ofList name)))

/-- `Peer::readDomainIncarnation`: 0 for an id that is no slot. -/
def peerReadIncarnation (dims : Dims) (d : DomainId) : Proc Nat :=
  if dims.numDomains ≤ d then pure 0 else readDomainIncarnation d

/-- Whether the handle's domain is gone. Zero is refused without asking. -/
def refuseStaleHandle (dims : Dims) (h : DomainHandle) : Proc Bool := do
  if h.incarnation = 0 then pure true
  else
    let incarnation ← peerReadIncarnation dims h.id
    pure (incarnation != h.incarnation)

def handleGone : Error := .unknownDomain "cme: the domain this handle named is gone"

/-- The second check, with the turn held; a refusal gives the turn back. -/
def confirmHandle (dims : Dims) (self : PeerId) (h : DomainHandle) : Proc (Except Error (Option DomainHandle)) := do
  if ← refuseStaleHandle dims h then
    releaseInternal dims self h.id
    pure (.error handleGone)
  else pure (.ok (some h))

def lockByHandle (dims : Dims) (self : PeerId) (h : DomainHandle) :
    Proc (Except Error (Option DomainHandle)) := do
  if ← refuseStaleHandle dims h then pure (.error handleGone)
  else
    match ← lock dims h.id with
    | .error e => pure (.error e)
    | .ok _ => confirmHandle dims self h

def tryLockByHandle (dims : Dims) (self : PeerId) (h : DomainHandle) :
    Proc (Except Error (Option DomainHandle)) := do
  if ← refuseStaleHandle dims h then pure (.error handleGone)
  else
    match ← tryLock dims h.id with
    | .error e => pure (.error e)
    | .ok none => pure (.ok none)
    | .ok (some _) => confirmHandle dims self h

/-- The two ways to ask for a turn. -/
inductive Wait where
  | lock
  | tryLock
  deriving DecidableEq, Repr

def askByHandle (dims : Dims) (self : PeerId) (h : DomainHandle) :
    Wait → Proc (Except Error (Option DomainHandle))
  | .lock => lockByHandle dims self h
  | .tryLock => tryLockByHandle dims self h

/-- `Session::lock` and `Session::tryLock` of a handle. The use and the Guard
are history. -/
def sessionLock (dims : Dims) (self : PeerId) (h : DomainHandle) (wait : Wait) :
    Proc (Except Error (Option DomainHandle)) := do
  act (.beginUse h.id)
  let answer ← askByHandle dims self h wait
  (if answer = .ok (some h) then act (.returnGuard h) else pure ())
  act (.endUse h.id)
  pure answer

/-- The same two of a name, through the handle the walk finds. -/
def sessionLockByName (dims : Dims) (self : PeerId) (name : Text) (wait : Wait) :
    Proc (Except Error (Option DomainHandle)) := do
  match ← resolveHandle dims name with
  | .error e => pure (.error e)
  | .ok h => sessionLock dims self h wait

/-- `Guard::unlock`. -/
def releaseGuard (dims : Dims) (self : PeerId) (h : DomainHandle) : Proc Unit := do
  act (.dropGuard h)
  releaseInternal dims self h.id

/-! ### The strategy -/

/-- What a strategy does to a record outside a release. -/
inductive Move where
  /-- A grant of the poll cycle. -/
  | grant (q : PeerId)
  /-- A recovery's takeover, or the stamp of a tournament's winner. -/
  | takeover
  /-- The outermost unlock of a tournament. -/
  | vacate

def moveRecord (dims : Dims) (self : PeerId) (d : DomainId) : Move → Proc Unit
  | .grant q => grant dims self d q
  | .takeover => do
    let base ← loadRecord d
    words (Ownership.takeoverOwnership self d base)
  | .vacate => words (Ownership.vacateOwnership d)

/-! ### The system -/

/-- What an idle thread may start. -/
inductive Call where
  | createDomain (name : Text)
  | joinDomain (d : DomainId) (expectedIncarnation : Option Nat)
  | leaveDomain (d : DomainId) (expectedIncarnation : Option Nat)
  | deleteDomain (d : DomainId) (expectedIncarnation : Option Nat)
  | sweepOrphans
  | lock (h : DomainHandle) (wait : Wait)
  | lockByName (name : Text) (wait : Wait)
  | releaseGuard (h : DomainHandle)
  | moveRecord (d : DomainId) (move : Move)

/-- What happens to members and records outside these calls, one region write at
a time. -/
inductive Env where
  /-- A peer stops for good. -/
  | crash (p : PeerId)
  /-- Recovery stamps a crashed peer's slot. -/
  | seize (p : PeerId)
  /-- The turns of crashed peers at a domain end. -/
  | lapse (d : DomainId)
  /-- Recovery takes a crashed peer's control lock. -/
  | handControl
  /-- Recovery frees a crashed peer's slot. -/
  | finish (p : PeerId)
  /-- A departing peer drains, and then leaves. -/
  | drain (p : PeerId)
  | depart (p : PeerId)

variable {T : Type} [DecidableEq T]

def isNulFree (name : Text) : Bool := name.all (· ≠ nul)

/-- The code of a call of thread `i`. Any thread of a peer may release a Guard
of it. -/
def callCode (dims : Dims) (i : Tid T) (s : State T) : Call → Option (Proc Unit)
  | .createDomain name =>
    if isNulFree name then some (do let _ ← peerCreateDomain dims i.1 name) else none
  | .joinDomain d expected => some (do let _ ← peerJoinDomain dims d expected)
  | .leaveDomain d expected => some (do let _ ← peerLeaveDomain dims i.1 d expected)
  | .deleteDomain d expected => some (do let _ ← peerDeleteDomain dims i.1 d expected)
  | .sweepOrphans => some (sweepOrphans dims i.1)
  | .lock h wait => some (do let _ ← sessionLock dims i.1 h wait)
  | .lockByName name wait => some (do let _ ← sessionLockByName dims i.1 name wait)
  | .releaseGuard h => if s.guards.contains (i.1, h) then some (releaseGuard dims i.1 h) else none
  | .moveRecord d move => some (moveRecord dims i.1 d move)

/-- Calls are made by live peers that have joined. -/
def start (dims : Dims) (i : Tid T) (call : Call) (s : State T) : Option (Proc Unit) :=
  if s.crashed i.1 || (s.member i.1).status == .none then none else callCode dims i s call

/-- A slot with another status, and what is left of its bits. -/
def State.setStatus (s : State T) (p : PeerId) (status : Status) (bits : DomainBitmap) : State T :=
  { s with member := update s.member p ⟨status, bits⟩ }

/-- In `rough` runs peers leave the membership. -/
def env (rough : Bool) : Env → State T → Option (State T)
  | .crash p, s => some { s with crashed := update s.crashed p true }
  | .seize p, s =>
    if s.crashed p ∧ (s.member p).status ≠ .none then some (s.setStatus p .recovering 0) else none
  | .lapse d, s => some { s with
      holding := update s.holding d ((s.holding d).filter fun q => !s.crashed q) }
  | .handControl, s =>
    match s.control with
    | some i => if s.crashed i.1 then some { s with control := none } else none
    | none => none
  | .finish p, s =>
    if s.crashed p ∧ (s.member p).status = .recovering then
      some (s.setStatus p .none (s.member p).participating)
    else none
  | .drain p, s =>
    if rough ∧ ¬ s.crashed p ∧ (s.member p).status = .active then
      some (s.setStatus p .leaving (s.member p).participating)
    else none
  | .depart p, s =>
    if rough ∧ ¬ s.crashed p ∧ (s.member p).status = .leaving then some (s.setStatus p .none 0)
    else none

/-- The threads a crash ends. -/
def kills : Env → Tid T → Bool
  | .crash p, i => i.1 = p
  | _, _ => false

/-- All threads of all peers over one region. -/
def system (dims : Dims) (rough : Bool) : System (Tid T) Op Ret (State T) Choice Call Env where
  exec := exec rough
  start := start dims
  env := env rough
  kills := kills

/-- No thread has started. -/
def idle (s : State T) : Config (Tid T) Op Ret (State T) where
  shared := s
  threads := fun _ => .done ()

/-- A formatted region with the members that have joined: every data record is
Free, the control record Active, a member participates in control alone, and the
scan bound covers them. -/
structure State.Initial (dims : Dims) (s : State T) : Prop where
  free : ∀ d, d ≠ controlDomainId → (s.record d).isActive = false
  controlActive : (s.record controlDomainId).isActive = true
  bits : ∀ p d, (s.member p).participating.has d = true → d = controlDomainId
  bound : ∀ p, (s.member p).status = .active →
    p < if s.peerScanBound ≠ 0 then s.peerScanBound else dims.maxPeers
  control : s.control = none
  joined : ∀ p, (s.member p).status = .none ∨ (s.member p).status = .active
  returned : s.returned = []
  guards : s.guards = []
  users : ∀ d, s.users d = []
  retiring : ∀ d, s.retiring d = []
  unlisted : ∀ d, s.unlisted d = false

end Cme.Registry
