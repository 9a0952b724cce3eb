import Mathlib.Data.Fintype.Sum
import Mathlib.Tactic.DeriveFintype
import Cme.Core.Types
import Cme.Interleave.System

/-!
# Ownership — the words a token policy reads and writes

The state of the Order, Request and RequestAgg strategies: the lines of the
region that they share (truth and shadow records, demand lines, aggregator
records, packed slots) and each peer's own words in DRAM (the pin word, the
holder belief, the ownership epoch, the pending set).

`Op` lists the atomic accesses. A whole-line get or set is one, and so is each
access to a word in DRAM. Answers that another part of the library decides
(the cached member view, the scan bound, the active domains, a periodic gate,
the turns a deadline leaves, whether a claim is still held) come from the
`Choice` of the step and can be anything.

`Core` collects the words that the exclusion argument is about. Four of its
fields are history, written by the model and read by nobody: `sections` counts
what a thread is inside of, `authority` the recovery pass that runs for a
crashed peer, `leaving` the window of a `leaveDomain` between its check of the
pin word and its end, `crashed` the peers that take no step any more.
-/

namespace Cme.Ownership

open Function Interleave

/-- The threads of one peer: its poll thread and its workers. -/
inductive Thread (W : Type) where
  | poll
  | worker (w : W)
  deriving DecidableEq, Fintype

/-- A thread of a peer. -/
abbrev Tid (W : Type) := PeerId × Thread W

/-- The value of the pin word while a transfer holds it. -/
def transferringPins : Nat := 2 ^ 32 - 1

/-- Peers whose records share a shadow line. -/
def shadowGroupSize : Nat := 1

/-- The shadow that serves a peer. -/
def shadowGroup (p : PeerId) : Nat := p / shadowGroupSize

/-- The 64 bytes of a packed slot. -/
abbrev AggregatedRequest := Nat → BitVec 8

/-- The words the exclusion argument is about. -/
structure Core (W : Type) where
  truth : DomainId → DomainRecord
  pin : PeerId → DomainId → Nat
  crashed : PeerId → Bool
  sections : PeerId → Thread W → DomainId → Nat
  authority : PeerId → Option PeerId
  leaving : PeerId → DomainId → Bool
  control : Bool

/-- The region and the DRAM of every peer. -/
structure State (W : Type) extends Core W where
  shadow : DomainId → Nat → DomainRecord
  demand : PeerId → DomainBitmap
  aggregator : Nat → PeerId
  packed : Nat → AggregatedRequest
  isHolder : PeerId → DomainId → Bool
  lastOwnershipEpoch : PeerId → DomainId → Nat
  selfPending : PeerId → DomainBitmap
  pendingWaiters : PeerId → DomainId → Nat
  pendingDomainsMutex : PeerId → Bool
  participating : PeerId → DomainBitmap
  isActive : PeerId → Bool

/-- The atomic accesses of a thread. `closing` marks an access of the unpin
that ends a section. -/
inductive Op where
  | getRecord (d : DomainId)
  | setRecord (d : DomainId) (r : DomainRecord)
  | getShadow (d : DomainId) (g : Nat)
  | setShadow (d : DomainId) (g : Nat) (r : DomainRecord)
  | loadPin (d : DomainId) (closing : Bool)
  | casPin (d : DomainId) (expected desired : Nat) (closing : Bool)
  | storePin (d : DomainId) (v : Nat)
  | loadHolder (d : DomainId)
  | storeHolder (d : DomainId) (b : Bool)
  | loadEpoch (d : DomainId)
  | storeEpoch (d : DomainId) (e : Nat)
  | lockPending
  | unlockPending
  | countPending (d : DomainId) (requesting : Bool)
  | loadPending (d : DomainId)
  | getDemand (q : PeerId)
  | setDemand (q : PeerId) (bits : DomainBitmap)
  | getAggregator (g : Nat)
  | setAggregator (g : Nat) (q : PeerId)
  | getPacked (g : Nat)
  | setPacked (g : Nat) (a : AggregatedRequest)
  | deactivate
  | askTurns
  | askScanBound
  | askActiveDomains
  | askMember (q : PeerId)
  | askDue
  | askClaimHeld (dead : PeerId)
  | arrive (d : DomainId)
  | beginPass (dead : PeerId)
  | endPass (dead : PeerId)
  | lockControl
  | unlockControl
  | loadParticipating (d : DomainId)
  | clearParticipation (d : DomainId)
  | hasPins (d : DomainId)
  | resetPins (d : DomainId)
  | quitLeave (d : DomainId)
  | spin

/-- The answer of an access. A compare-and-swap answers `none` when it took
effect and otherwise the value it found. -/
abbrev Ret : Op → Type
  | .getRecord _ => DomainRecord
  | .getShadow _ _ => DomainRecord
  | .loadPin _ _ => Nat
  | .casPin _ _ _ _ => Option Nat
  | .loadHolder _ => Bool
  | .loadEpoch _ => Nat
  | .countPending _ _ => DomainBitmap
  | .loadPending _ => Bool
  | .getDemand _ => DomainBitmap
  | .getAggregator _ => PeerId
  | .getPacked _ => AggregatedRequest
  | .askTurns => Nat
  | .askScanBound => Nat
  | .askActiveDomains => DomainBitmap
  | .askMember _ => MemberView
  | .askDue => Bool
  | .askClaimHeld _ => Bool
  | .lockControl => Bool
  | .loadParticipating _ => Bool
  | .hasPins _ => Bool
  | _ => Unit

/-- What the rest of the library answers at a step. -/
inductive Choice where
  | any
  | nat (n : Nat)
  | flag (b : Bool)
  | bits (b : DomainBitmap)
  | member (m : MemberView)
  deriving Inhabited

/-- A code of the system: straight-line accesses and loops over them. -/
abbrev Proc (α : Type) := Prog Op Ret α

/-- One access, as code. -/
abbrev act (o : Op) : Proc (Ret o) := Prog.perform o

section Steps

variable {W : Type} [DecidableEq W]

/-- The section count of one thread. -/
def setSections (f : PeerId → Thread W → DomainId → Nat) (p : PeerId) (t : Thread W)
    (d : DomainId) (v : Nat) : PeerId → Thread W → DomainId → Nat :=
  update f p (update (f p) t (update (f p t) d v))

@[grind =] theorem setSections_apply (f : PeerId → Thread W → DomainId → Nat) (p : PeerId)
    (t : Thread W) (d : DomainId) (v : Nat) (p' : PeerId) (t' : Thread W) (d' : DomainId) :
    setSections f p t d v p' t' d' =
      if p' = p ∧ t' = t ∧ d' = d then v else f p' t' d' := by
  by_cases hp : p' = p
  · subst hp
    by_cases ht : t' = t
    · subst ht
      by_cases hd : d' = d
      · subst hd
        simp [setSections]
      · simp [setSections, hd]
    · simp [setSections, ht]
  · simp [setSections, hp]

/-- The unpin of an unlock is over: the thread is out of the section. -/
def State.closeSection (s : State W) (p : PeerId) (t : Thread W) (d : DomainId) : State W :=
  { s with sections := setSections s.sections p t d (s.sections p t d - 1) }

/-- A value at which `unpinOwnership` gives up: no pin, or a transfer's sentinel. -/
def isUnpinned (v : Nat) : Bool := v == 0 || v == transferringPins

/-- One access of a thread of a live peer. -/
def access (i : Tid W) : (o : Op) → Choice → State W → Option (Ret o × State W)
  | .getRecord d, _, s => some (s.truth d, s)
  | .setRecord d r, _, s => some ((), { s with truth := update s.truth d r })
  | .getShadow d g, _, s => some (s.shadow d g, s)
  | .setShadow d g r, _, s => some ((), { s with shadow := setCell s.shadow d g r })
  | .loadPin d closing, _, s =>
    let v := s.pin i.1 d
    some (v, if closing && isUnpinned v then s.closeSection i.1 i.2 d else s)
  | .casPin d expected desired closing, _, s =>
    let v := s.pin i.1 d
    if v = expected then
      let s' := { s with pin := setCell s.pin i.1 d desired }
      some (none, if closing then s'.closeSection i.1 i.2 d else s')
    else
      some (some v, if closing && isUnpinned v then s.closeSection i.1 i.2 d else s)
  | .storePin d v, _, s => some ((), { s with pin := setCell s.pin i.1 d v })
  | .loadHolder d, _, s => some (s.isHolder i.1 d, s)
  | .storeHolder d b, _, s => some ((), { s with isHolder := setCell s.isHolder i.1 d b })
  | .loadEpoch d, _, s => some (s.lastOwnershipEpoch i.1 d, s)
  | .storeEpoch d e, _, s =>
    some ((), { s with lastOwnershipEpoch := setCell s.lastOwnershipEpoch i.1 d e })
  | .lockPending, _, s =>
    if s.pendingDomainsMutex i.1 then none
    else some ((), { s with pendingDomainsMutex := update s.pendingDomainsMutex i.1 true })
  | .unlockPending, _, s =>
    some ((), { s with pendingDomainsMutex := update s.pendingDomainsMutex i.1 false })
  | .countPending d requesting, _, s =>
    let waiters := if requesting then s.pendingWaiters i.1 d + 1 else s.pendingWaiters i.1 d - 1
    let bits := if 0 < waiters then (s.selfPending i.1).set d else (s.selfPending i.1).clear d
    some (bits, { s with
      pendingWaiters := setCell s.pendingWaiters i.1 d waiters
      selfPending := update s.selfPending i.1 bits })
  | .loadPending d, _, s => some ((s.selfPending i.1).has d, s)
  | .getDemand q, _, s => some (s.demand q, s)
  | .setDemand q bits, _, s => some ((), { s with demand := update s.demand q bits })
  | .getAggregator g, _, s => some (s.aggregator g, s)
  | .setAggregator g q, _, s => some ((), { s with aggregator := update s.aggregator g q })
  | .getPacked g, _, s => some (s.packed g, s)
  | .setPacked g a, _, s => some ((), { s with packed := update s.packed g a })
  | .deactivate, _, s => some ((), { s with isActive := update s.isActive i.1 false })
  | .askTurns, .nat n, s => some (n, s)
  | .askScanBound, .nat n, s => some (n, s)
  | .askActiveDomains, .bits b, s => some (b, s)
  | .askMember _, .member m, s => some (m, s)
  | .askDue, .flag b, s => some (b, s)
  | .askClaimHeld _, .flag b, s => some (b, s)
  | .arrive d, _, s =>
    some ((), { s with sections := setSections s.sections i.1 i.2 d (s.sections i.1 i.2 d + 1) })
  | .beginPass dead, _, s =>
    -- one authority at a time: the one before it is done, or has crashed itself
    if s.crashed dead && (s.authority dead).all s.crashed then
      some ((), { s with authority := update s.authority dead (some i.1) })
    else none
  | .endPass dead, _, s => some ((), { s with authority := update s.authority dead none })
  | .lockControl, .flag false, s => some (false, s)
  | .lockControl, .flag true, s => if s.control then none else some (true, { s with control := true })
  | .unlockControl, _, s => some ((), { s with control := false })
  | .loadParticipating d, _, s => some ((s.participating i.1).has d, s)
  | .clearParticipation d, _, s =>
    some ((), { s with
      participating := update s.participating i.1 ((s.participating i.1).clear d) })
  | .hasPins d, _, s =>
    let pins := s.pin i.1 d
    if pins ≠ 0 ∧ pins ≠ transferringPins then some (true, s)
    else some (false, { s with leaving := setCell s.leaving i.1 d true })
  | .resetPins d, _, s =>
    some ((), { s with
      pin := setCell s.pin i.1 d 0
      leaving := setCell s.leaving i.1 d false })
  | .quitLeave d, _, s => some ((), { s with leaving := setCell s.leaving i.1 d false })
  | _, _, _ => none

section AccessLemmas

variable (i : Tid W) (ch : Choice) (s : State W) (d : DomainId)

@[simp] theorem access_loadPin (closing : Bool) : access i (.loadPin d closing) ch s =
    some (s.pin i.1 d,
      if closing && isUnpinned (s.pin i.1 d) then s.closeSection i.1 i.2 d else s) := rfl

@[simp] theorem access_casPin (expected desired : Nat) (closing : Bool) :
    access i (.casPin d expected desired closing) ch s =
      if s.pin i.1 d = expected then
        some (none,
          if closing then
            ({ s with pin := setCell s.pin i.1 d desired } : State W).closeSection i.1 i.2 d
          else { s with pin := setCell s.pin i.1 d desired })
      else some (some (s.pin i.1 d),
        if closing && isUnpinned (s.pin i.1 d) then s.closeSection i.1 i.2 d else s) := rfl

@[simp] theorem access_lockControl_false : access i .lockControl (.flag false) s =
    some (false, s) := rfl

@[simp] theorem access_lockControl_true : access i .lockControl (.flag true) s =
    if s.control then none else some (true, { s with control := true }) := rfl

end AccessLemmas

/-- One access; a crashed peer makes none. -/
def exec (i : Tid W) (o : Op) (ch : Choice) (s : State W) : Option (Ret o × State W) :=
  if s.crashed i.1 then none else access i o ch s

end Steps

end Cme.Ownership
