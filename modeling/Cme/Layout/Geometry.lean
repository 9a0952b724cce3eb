import Cme.Core.Types
import Cme.Memory.Span
import Cme.Tournament.Path

/-!
# Layout — where the region's lines are

`Geometry::buildLayout`, `Geometry::computeAreaSize` and the accessors
(`core/layout/geometry.hpp`, `core/layout/geometry.cpp`), with the sub-layouts of
the policies: the demand lines, the aggregator area, the tournament trees and the
claim slots. Addresses are offsets from the region's base. Arithmetic wraps as in
the source, in 32 bits where the counts are `uint32_t` and in 64 bits where sizes
and offsets are.
-/

namespace Cme.Layout

open Memory Tournament

inductive Strategy where
  | order
  | request
  | requestAgg
  | peterson
  deriving DecidableEq, Repr

/-- What a region is formatted with. -/
structure Dims where
  domainCount : Nat
  peerCount : Nat
  strategy : Strategy
  /-- The RequestAgg group count asked for; 0 is the minimum. -/
  aggregatorGroups : Nat
  /-- CME_PROFILE. -/
  profileEnabled : Bool
  deriving DecidableEq, Repr

def word32 (n : Nat) : Nat := n % 2 ^ 32

def word64 (n : Nat) : Nat := n % 2 ^ 64

/-- `sizeof` of every record. -/
def cacheLineBytes : Nat := 64

/-- Lines of a tournament node: two peer lines and the fairness line. -/
def petersonNodeBytes : Nat := 3 * cacheLineBytes

def shadowGroupSize : Nat := 1

/-! ### Counts -/

/-- `ceilDiv` on 32-bit words. -/
def ceilDiv (numerator denominator : Nat) : Nat :=
  word32 (word32 (numerator + denominator) + (2 ^ 32 - 1)) / denominator

/-- `Geometry::getGroupCount`. -/
def getShadowGroupCount (peerCount : Nat) : Nat := ceilDiv peerCount shadowGroupSize

def getGroupIndex (peerIndex : Nat) : Nat := peerIndex / shadowGroupSize

/-- One truth, and a shadow for each group. -/
def getRecordsPerDomain (peerCount : Nat) : Nat := word32 (getShadowGroupCount peerCount + 1)

def getBitmapBytes (domainCount : Nat) : Nat := ceilDiv domainCount 8

def getMembersPerSlot (domainCount : Nat) : Nat :=
  let bitmapBytes := getBitmapBytes domainCount
  let perSlot := if bitmapBytes = 0 then 0 else 64 / bitmapBytes
  if perSlot = 0 then 1 else perSlot

/-- `RequestAggLayout::getGroupCount`. -/
def getGroupCount (aggregatorGroups domainCount peerCount : Nat) : Nat :=
  let minGroups := ceilDiv peerCount (getMembersPerSlot domainCount)
  if aggregatorGroups < minGroups then minGroups else aggregatorGroups

/-! ### Sizes -/

/-- `request_demand::getRegionBytes`, `RecoveryAuthorityLayout::getAreaBytes` and the
profile lines: a line for each peer. -/
def getPeerLineBytes (peerCount : Nat) : Nat := word64 (peerCount * cacheLineBytes)

/-- `RequestAggLayout::getAreaBytes`. -/
def getAggregatorAreaBytes (domainCount peerCount aggregatorGroups : Nat) : Nat :=
  let groups := getGroupCount aggregatorGroups domainCount peerCount
  word64 (getPeerLineBytes peerCount + word64 (groups * (cacheLineBytes + cacheLineBytes)))

/-- No size where the leaf count of the tree is not found. -/
def getTournamentTreeBytes (maxNumPeers domains : Nat) : Option Nat :=
  (getNodesPerDomain maxNumPeers).map fun nodes =>
    word64 (word64 (petersonNodeBytes * nodes) * domains)

def getSuccessorAreaSize (dims : Dims) : Option Nat :=
  match dims.strategy with
  | .order => some 0
  | .request => some (getPeerLineBytes dims.peerCount)
  | .requestAgg =>
    some (getAggregatorAreaBytes dims.domainCount dims.peerCount dims.aggregatorGroups)
  | .peterson => getTournamentTreeBytes dims.peerCount dims.domainCount

def getRecoveryAuthorityAreaSize (peerCount : Nat) : Nat := getPeerLineBytes peerCount

def getProfileAreaSize (dims : Dims) : Nat :=
  if dims.profileEnabled then getPeerLineBytes dims.peerCount else 0

def getDomainRecordBytes (domainCount peerCount : Nat) : Nat :=
  word64 (word64 (domainCount * getRecordsPerDomain peerCount) * cacheLineBytes)

/-- The sum, in the order of the source. -/
def computeAreaSize (dims : Dims) : Option Nat :=
  (getSuccessorAreaSize dims).map fun succBytes =>
    let sum := word64 (cacheLineBytes + cacheLineBytes)
    let sum := word64 (sum + cacheLineBytes)
    let sum := word64 (sum + getDomainRecordBytes dims.domainCount dims.peerCount)
    let sum := word64 (sum + getPeerLineBytes dims.peerCount)
    let sum := word64 (sum + getRecoveryAuthorityAreaSize dims.peerCount)
    let sum := word64 (sum + getProfileAreaSize dims)
    word64 (sum + succBytes)

/-! ### The layout -/

/-- What `buildLayout` sets in a `Geometry`: the sections' bases and what they are for. -/
structure Bases where
  domainCount : Nat
  peerCount : Nat
  strategy : Strategy
  admissionControlBase : Nat
  peerBoundBase : Nat
  domainRecordBase : Nat
  membershipBase : Nat
  recoveryAuthorityAreaBase : Nat
  successorAreaBase : Option Nat
  profileBase : Option Nat
  areaSize : Nat
  deriving DecidableEq, Repr

def buildLayout (dims : Dims) : Option Bases :=
  (getSuccessorAreaSize dims).map fun succBytes =>
    let admissionControlBase := cacheLineBytes
    let cursor := word64 (cacheLineBytes + cacheLineBytes)
    let peerBoundBase := cursor
    let cursor := word64 (cursor + cacheLineBytes)
    let domainRecordBase := cursor
    let cursor := word64 (cursor + getDomainRecordBytes dims.domainCount dims.peerCount)
    let membershipBase := cursor
    let cursor := word64 (cursor + getPeerLineBytes dims.peerCount)
    let recoveryAuthorityAreaBase := cursor
    let cursor := word64 (cursor + getRecoveryAuthorityAreaSize dims.peerCount)
    -- no tail where the strategy needs none
    let successorAreaBase := if succBytes ≠ 0 then some cursor else none
    let cursor := word64 (cursor + succBytes)
    let profileBase := if dims.profileEnabled then some cursor else none
    let cursor := word64 (cursor + getProfileAreaSize dims)
    { domainCount := dims.domainCount
      peerCount := dims.peerCount
      strategy := dims.strategy
      admissionControlBase := admissionControlBase
      peerBoundBase := peerBoundBase
      domainRecordBase := domainRecordBase
      membershipBase := membershipBase
      recoveryAuthorityAreaBase := recoveryAuthorityAreaBase
      successorAreaBase := successorAreaBase
      profileBase := profileBase
      areaSize := cursor }

namespace Bases

/-- `getSlot`, and the pointer arithmetic on records of one line. -/
def getSlot (sectionBase index : Nat) : Nat := word64 (sectionBase + word64 (index * cacheLineBytes))

def getDomainRecord (l : Bases) (domainIndex : DomainId) : Nat :=
  getSlot l.domainRecordBase (word64 (domainIndex * getRecordsPerDomain l.peerCount))

def getDomainRecordShadow (l : Bases) (domainIndex : DomainId) (peerIndex : PeerId) : Nat :=
  getSlot l.domainRecordBase (word64 (word64 (word64 (domainIndex *
    getRecordsPerDomain l.peerCount) + 1) + getGroupIndex peerIndex))

def getMemberSlot (l : Bases) (peerIndex : PeerId) : Nat := getSlot l.membershipBase peerIndex

/-- `RecoveryAuthorityLayout::getClaim`. -/
def getClaim (l : Bases) (deadPeerId : PeerId) : Nat :=
  getSlot l.recoveryAuthorityAreaBase deadPeerId

def getProfileSlot (l : Bases) (peerIndex : PeerId) : Option Nat :=
  l.profileBase.map (getSlot · peerIndex)

/-- `request_demand::getLine`. -/
def getLine (l : Bases) (peerId : PeerId) : Option Nat := l.successorAreaBase.map (getSlot · peerId)

/-- `RequestAggLayout::getRecord`: the records follow the demand lines. -/
def getRecord (l : Bases) (groupId : Nat) : Option Nat :=
  l.successorAreaBase.map fun base =>
    getSlot (word64 (base + getPeerLineBytes l.peerCount)) groupId

/-- `RequestAggLayout::getSlot`: the packed slots follow the records. -/
def getPackedSlot (l : Bases) (aggregatorGroups groupId : Nat) : Option Nat :=
  l.successorAreaBase.map fun base =>
    let groups := getGroupCount aggregatorGroups l.domainCount l.peerCount
    getSlot (getSlot (word64 (base + getPeerLineBytes l.peerCount)) groups) groupId

/-- `peterson_tree::getTreeBase`. -/
def getTreeBase (l : Bases) (domainId : DomainId) : Option Nat :=
  l.successorAreaBase.bind fun base => (getNodesPerDomain l.peerCount).map fun nodes =>
    word64 (base + word64 (word64 (domainId * nodes) * petersonNodeBytes))

/-- Line `part` of a node of a domain's tree. -/
def getNodeLine (l : Bases) (domainId : DomainId) (node part : Nat) : Option Nat :=
  (l.getTreeBase domainId).map fun tree =>
    word64 (word64 (tree + word64 (node * petersonNodeBytes)) + part * cacheLineBytes)

end Bases

/-! ### Sections and lines -/

inductive Section where
  | header
  | admissionControl
  | peerBound
  | domainRecords
  | membership
  | recoveryAuthority
  | successor
  | profile
  deriving DecidableEq, Repr

/-- A section's bytes, from its base and the size it was given. -/
def Bases.section (l : Bases) (dims : Dims) : Section → Option Span
  | .header => some ⟨0, cacheLineBytes⟩
  | .admissionControl => some ⟨l.admissionControlBase, cacheLineBytes⟩
  | .peerBound => some ⟨l.peerBoundBase, cacheLineBytes⟩
  | .domainRecords =>
    some ⟨l.domainRecordBase, getDomainRecordBytes dims.domainCount dims.peerCount⟩
  | .membership => some ⟨l.membershipBase, getPeerLineBytes dims.peerCount⟩
  | .recoveryAuthority =>
    some ⟨l.recoveryAuthorityAreaBase, getRecoveryAuthorityAreaSize dims.peerCount⟩
  | .successor => l.successorAreaBase.bind fun base =>
    (getSuccessorAreaSize dims).map fun succBytes => ⟨base, succBytes⟩
  | .profile => l.profileBase.map fun base => ⟨base, getProfileAreaSize dims⟩

/-- The lines the accessors lead to. -/
inductive Line where
  | header
  | admissionControl
  | peerBound
  | domainRecord (d : DomainId)
  | domainRecordShadow (d : DomainId) (p : PeerId)
  | memberSlot (p : PeerId)
  | recoveryClaim (p : PeerId)
  | demand (p : PeerId)
  | aggregatorRecord (g : Nat)
  | packedSlot (g : Nat)
  | nodeLine (d : DomainId) (node part : Nat)
  | profileSlot (p : PeerId)
  deriving DecidableEq, Repr

namespace Line

/-- The ids a region of these dimensions has. -/
def Valid (dims : Dims) : Line → Prop
  | header | admissionControl | peerBound => True
  | domainRecord d => d < dims.domainCount
  | domainRecordShadow d p => d < dims.domainCount ∧ p < dims.peerCount
  | memberSlot p | recoveryClaim p => p < dims.peerCount
  | demand p => (dims.strategy = .request ∨ dims.strategy = .requestAgg) ∧ p < dims.peerCount
  | aggregatorRecord g | packedSlot g => dims.strategy = .requestAgg ∧
      g < getGroupCount dims.aggregatorGroups dims.domainCount dims.peerCount
  | nodeLine d node part => dims.strategy = .peterson ∧ d < dims.domainCount ∧
      (∃ nodes, getNodesPerDomain dims.peerCount = some nodes ∧ node < nodes) ∧ part < 3
  | profileSlot p => dims.profileEnabled = true ∧ p < dims.peerCount

def toSection : Line → Section
  | header => .header
  | admissionControl => .admissionControl
  | peerBound => .peerBound
  | domainRecord _ | domainRecordShadow _ _ => .domainRecords
  | memberSlot _ => .membership
  | recoveryClaim _ => .recoveryAuthority
  | demand _ | aggregatorRecord _ | packedSlot _ | nodeLine _ _ _ => .successor
  | profileSlot _ => .profile

/-- Where the accessor finds the line. -/
def address (l : Bases) (dims : Dims) : Line → Option Nat
  | header => some 0
  | admissionControl => some l.admissionControlBase
  | peerBound => some l.peerBoundBase
  | domainRecord d => some (l.getDomainRecord d)
  | domainRecordShadow d p => some (l.getDomainRecordShadow d p)
  | memberSlot p => some (l.getMemberSlot p)
  | recoveryClaim p => some (l.getClaim p)
  | demand p => l.getLine p
  | aggregatorRecord g => l.getRecord g
  | packedSlot g => l.getPackedSlot dims.aggregatorGroups g
  | nodeLine d node part => l.getNodeLine d node part
  | profileSlot p => l.getProfileSlot p

end Line

end Cme.Layout
