import Cme.Ownership.State

/-!
# Ownership — the primitives every token strategy shares

`LocalDomainView`'s pin word and `ownership_transfer.cpp`, in the order of
their accesses. `self` is the peer the code runs on. Backoff, sleeping, events
and latency spans touch no shared word and are left out, and so is the pin's
start timestamp, which only events read.
-/

namespace Cme.Ownership

open Interleave Interleave.Prog

/-- The dimensions of a formatted region. -/
structure Dims where
  maxPeers : Nat
  numDomains : Nat
  aggregatorGroups : Nat

/-! ### local_domain_view.cpp -/

/-- The compare-and-swap loop of `pinOwnership`, from the value last seen. -/
def pinLoop (d : DomainId) : Nat → Nat → Proc Unit
  | 0, _ => act .spin
  | turns + 1, cur => do
    if cur = transferringPins then
      -- a transfer's publish holds the word: spin it out
      let cur ← act (.loadPin d false)
      pinLoop d turns cur
    else
      match ← act (.casPin d cur (cur + 1) false) with
      | none => pure ()
      | some found => pinLoop d turns found

def pinOwnership (d : DomainId) : Proc Unit := do
  let cur ← act (.loadPin d false)
  let turns ← act .askTurns
  pinLoop d turns cur

/-- The compare-and-swap loop of `unpinOwnership`. -/
def unpinLoop (d : DomainId) (closing : Bool) : Nat → Nat → Proc Unit
  | 0, _ => act .spin
  | turns + 1, cur => do
    if 0 < cur ∧ cur ≠ transferringPins then
      match ← act (.casPin d cur (cur - 1) closing) with
      | none => pure ()
      | some found => unpinLoop d closing turns found
    else pure ()

/-- `closing` says that this unpin is the one of an unlock. -/
def unpinOwnership (d : DomainId) (closing : Bool) : Proc Unit := do
  let turns ← act .askTurns
  let cur ← act (.loadPin d closing)
  unpinLoop d closing (turns + 1) cur

def tryBeginOwnershipTransfer (d : DomainId) : Proc Bool := do
  match ← act (.casPin d 0 transferringPins false) with
  | none => pure true
  | some _ => pure false

def endOwnershipTransfer (d : DomainId) : Proc Unit := act (.storePin d 0)

def canTransferOwnership (d : DomainId) : Proc Bool := do
  let pins ← act (.loadPin d false)
  pure (pins == 0)

def becomeHolder (d : DomainId) : Proc Unit := act (.storeHolder d true)

def loseHolder (d : DomainId) : Proc Unit := act (.storeHolder d false)

/-! ### ownership_transfer.cpp -/

/-- The baseline epoch only rises. -/
def adoptOwnership (d : DomainId) (newEpoch : Nat) : Proc Unit := do
  let last ← act (.loadEpoch d)
  act (.storeEpoch d (max newEpoch last))
  becomeHolder d

def reconcileHolderBelief (self : PeerId) (d : DomainId) : Proc Unit := do
  let record ← act (.getRecord d)
  if record.holder = self then becomeHolder d
  else
    loseHolder d
    let again ← act (.getRecord d)
    if again.holder = self then becomeHolder d else pure ()

/-- The shadow of the new holder first, then the truth. -/
def publishDomainRecord (d : DomainId) (r : DomainRecord) : Proc Unit := do
  act (.setShadow d (shadowGroup r.holder) r)
  act (.setRecord d r)

def takeoverOwnership (self : PeerId) (d : DomainId) (base : DomainRecord) : Proc Unit := do
  let record := { base with holder := self, epoch := base.epoch + 1 }
  publishDomainRecord d record
  adoptOwnership d record.epoch

def transferOwnership (dims : Dims) (self : PeerId) (d : DomainId) (newHolder : PeerId) :
    Proc Unit := do
  if newHolder < dims.maxPeers then
    let record ← act (.getRecord d)
    if record.isValidMagic then
      if newHolder ≠ self ∧ record.holder ≠ self then pure ()
      else if newHolder = self then
        publishDomainRecord d { record with holder := newHolder, epoch := record.epoch + 1 }
        adoptOwnership d (record.epoch + 1)
      else
        -- drop the belief before publishing
        loseHolder d
        publishDomainRecord d { record with holder := newHolder, epoch := record.epoch + 1 }
    else act .deactivate
  else pure ()

def transferOwnershipGuarded (dims : Dims) (self : PeerId) (d : DomainId) (newHolder : PeerId) :
    Proc Bool := do
  if ← tryBeginOwnershipTransfer d then
    transferOwnership dims self d newHolder
    endOwnershipTransfer d
    pure true
  else pure false

/-- The record is vacated before the root of a tournament is released. -/
def vacateOwnership (d : DomainId) : Proc Unit := do
  let rec_ ← act (.getRecord d)
  act (.setRecord d { rec_ with holder := noPeer, epoch := rec_.epoch + 1 })
  loseHolder d

/-- One turn of the wait: the own shadow filters, the truth decides. -/
def pollTurn (self : PeerId) (d : DomainId) : Proc (Option Unit) := do
  let shadow ← act (.getShadow d (shadowGroup self))
  if shadow.isValidMagic && shadow.holder == self then
    let last ← act (.loadEpoch d)
    if last < shadow.epoch then
      let truth ← act (.getRecord d)
      if truth.isValidMagic && truth.holder == self then
        adoptOwnership d truth.epoch
        pure (some ())
      else pure none
    else pure none
  else pure none

/-- The wait proper, for the turns its deadline leaves. -/
def pollUntilDeadline (self : PeerId) (d : DomainId) : Proc OwnershipResult := do
  let turns ← act .askTurns
  match ← attempt (pollTurn self d) turns with
  | some _ => pure .arrived
  | none => pure .notArrived

def waitForOwnership (self : PeerId) (d : DomainId) : Proc OwnershipResult := do
  if ← act (.loadHolder d) then
    let record ← act (.getRecord d)
    if record.isValidMagic && record.holder == self then pure .arrived
    else
      loseHolder d
      pollUntilDeadline self d
  else pollUntilDeadline self d

def canTransferDomain (d : DomainId) : Proc Bool := canTransferOwnership d

/-- One domain of the reconciling collect. -/
def reconcileDomain (self : PeerId) (d : DomainId) (found : DomainBitmap) : Proc DomainBitmap := do
  if ← act (.loadPending d) then pure found
  else
    if ← act .askDue then reconcileHolderBelief self d
    else
      let shadow ← act (.getShadow d (shadowGroup self))
      if shadow.holder = self then reconcileHolderBelief self d else pure ()
    if ← act (.loadHolder d) then
      if ← canTransferDomain d then pure (found.set d) else pure found
    else pure found

/-- One domain of the collect that trusts the local belief. -/
def collectDomain (d : DomainId) (found : DomainBitmap) : Proc DomainBitmap := do
  if ← act (.loadPending d) then pure found
  else if ← act (.loadHolder d) then
    if ← canTransferDomain d then pure (found.set d) else pure found
  else pure found

/-- Fold a step over the ids of a scan. -/
def scan (step : DomainId → DomainBitmap → Proc DomainBitmap) :
    List DomainId → DomainBitmap → Proc DomainBitmap
  | [], found => pure found
  | d :: rest, found => do
    let found ← step d found
    scan step rest found

def reconcileAndCollectTransferable (self : PeerId) : Proc DomainBitmap := do
  let active ← act .askActiveDomains
  scan (reconcileDomain self) active.toList 0

def collectTransferableLocal : Proc DomainBitmap := do
  let active ← act .askActiveDomains
  scan collectDomain active.toList 0

def holdDomain (d : DomainId) : Proc Unit := pinOwnership d

def holdAndCheckResident (self : PeerId) (d : DomainId) : Proc Bool := do
  holdDomain d
  if ← act (.loadHolder d) then
    let record ← act (.getRecord d)
    if record.isValidMagic && record.holder == self then pure true
    else
      loseHolder d
      pure false
  else pure false

def unholdDomain (d : DomainId) : Proc Unit := unpinOwnership d false

/-! ### lifecycle.cpp, peer.cpp -/

def readDomainIncarnation (d : DomainId) : Proc Nat := do
  let record ← act (.getRecord d)
  pure (if record.isValidMagic && record.state == .active then record.generation else 0)

/-- Whether the slot now holds another domain than the one the caller resolved. -/
def refuseReplacedDomain (d : DomainId) : Option Nat → Proc Bool
  | none => pure false
  | some expected => do
    let incarnation ← readDomainIncarnation d
    pure (incarnation != expected)

end Cme.Ownership
