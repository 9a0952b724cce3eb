import Cme.Ownership.Transfer

/-!
# Registry — the lines a domain's life is kept in

Domain records with their names, member slots with their participation bits,
the scan bound and the header's bitmap of active domains, and each peer's pin
words. Every region write is one access, so a crash can fall between any two.

What this part of the library takes from the others:

* the procedures that move a record and count pins are those of `Cme.Ownership`,
  each of their accesses one step here (`Op.word`); what they keep in DRAM and
  nobody here reads (the epoch baseline, the holder belief, the active flag) is
  left out;
* the control lock together with the control-section mutex is one word: at most
  one thread is inside, and after a crash recovery hands the lock on;
* the lock of a domain is exclusive across peers and re-entrant within one;
  `holding` lists the peers it is granted to, once for each turn;
* a peer's own participation is read in its slot, which the peer alone writes
  while it lives.

History, written by the model and read by nobody: the handles `createDomain`
has returned, the Guards that are out, the threads in a lock of a domain
(`users`) and those in a leave or a delete of it (`retiring`), and the slots
whose create has not reached the bitmap (`unlisted`).
-/

namespace Cme.Registry

/-- A domain name, as its bytes. -/
abbrev Text := List Char

/-- The width of a record's name field, terminator included. -/
def maxNameLen : Nat := 16

def nul : Char := Char.ofNat 0

/-- A name as a record stores it. -/
def nameField (name : Text) : Text := name ++ List.replicate (maxNameLen - name.length) nul

def clearedName : Text := nameField []

end Cme.Registry

namespace Cme.DomainRecord

/-- Up to the first NUL. -/
def getName (e : DomainRecord) : Registry.Text := e.name.takeWhile (· ≠ Registry.nul)

/-- What of a record only control sections mean to write. -/
structure Life where
  magic : Nat
  state : DomainState
  generation : Nat
  name : Registry.Text
  deriving DecidableEq

def life (e : DomainRecord) : Life := ⟨e.magic, e.state, e.generation, e.name⟩

/-- The test of the name walk. -/
def carries (e : DomainRecord) (name : Registry.Text) : Bool :=
  e.isValidMagic && e.isActive && e.getName == name

end Cme.DomainRecord

namespace Cme.Registry

open Function Interleave

/-- `Member_t::Status`. -/
inductive Status where
  | none
  | active
  | recovering
  | leaving
  deriving DecidableEq, Repr

structure Member where
  status : Status
  participating : DomainBitmap
  deriving DecidableEq, Repr

/-- A slot, and which of its lives is meant. -/
structure DomainHandle where
  id : DomainId
  incarnation : Nat
  deriving DecidableEq, Repr

/-- A thread of a peer; a peer's threads are named by `T`. -/
abbrev Tid (T : Type) := PeerId × T

/-- The dimensions of a formatted region. A bitmap has a bit for each domain. -/
structure Dims where
  maxPeers : Nat
  numDomains : Nat
  numDomains_le : numDomains ≤ maxDomains

structure State (T : Type) where
  record : DomainId → DomainRecord
  shadow : DomainId → PeerId → DomainRecord
  member : PeerId → Member
  peerScanBound : Nat
  activeDomains : DomainBitmap
  pins : PeerId → DomainId → Nat
  control : Option (Tid T)
  holding : DomainId → List PeerId
  crashed : PeerId → Bool
  returned : List DomainHandle
  guards : List (PeerId × DomainHandle)
  users : DomainId → List (Tid T)
  retiring : DomainId → List (Tid T)
  unlisted : DomainId → Bool

/-- The accesses of a thread; those of the last block are history. -/
inductive Op where
  | word (o : Ownership.Op)
  | loadMember (q : PeerId)
  | isParticipating (d : DomainId)
  | setParticipation (d : DomainId)
  | clearParticipation (d : DomainId)
  | loadPeerScanBound
  | setActiveDomain (d : DomainId)
  | clearActiveDomain (d : DomainId)
  | lockControl
  | unlockControl
  | awaitTurn (d : DomainId)
  | giveTurn (d : DomainId)
  /-- Whom the strategy's scan finds to hand a domain to. -/
  | askSuccessor
  | hasOwnershipPins (d : DomainId)
  | resetOwnershipPins (d : DomainId)
  | returnHandle (h : DomainHandle)
  | returnGuard (h : DomainHandle)
  | dropGuard (h : DomainHandle)
  | beginUse (d : DomainId)
  | endUse (d : DomainId)
  | beginRetire (d : DomainId)
  | endRetire (d : DomainId)

abbrev Ret : Op → Type
  | .word o => Ownership.Ret o
  | .loadMember _ => Member
  | .isParticipating _ => Bool
  | .loadPeerScanBound => Nat
  | .lockControl => Bool
  | .awaitTurn _ => Bool
  | .askSuccessor => Option PeerId
  | .hasOwnershipPins _ => Bool
  | _ => Unit

/-- What is decided elsewhere: whether a wait ends with the lock or with its deadline, how
long a loop goes on, and whom a scan finds. -/
inductive Choice where
  | any
  | flag (b : Bool)
  | nat (n : Nat)
  | peer (q : Option PeerId)
  deriving Inhabited

/-- Code of a thread. -/
abbrev Proc (α : Type) := Prog Op Ret α

/-- One access, as code. -/
abbrev act (o : Op) : Proc (Ret o) := Prog.perform o

/-- A procedure that every strategy shares. -/
def words {α : Type} (p : Ownership.Proc α) : Proc α := p.lift Op.word fun _ r => r

/-- `loadDomainRecordSnapshot`. -/
abbrev loadRecord (d : DomainId) : Proc DomainRecord := act (.word (.getRecord d))

section Steps

variable {T : Type} [DecidableEq T]

/-- A member slot with one participation bit set or cleared. -/
def State.setBit (s : State T) (p : PeerId) (d : DomainId) (b : Bool) : State T :=
  let bits := (s.member p).participating
  let slot : Member := { s.member p with participating := if b then bits.set d else bits.clear d }
  { s with member := update s.member p slot }

/-- A record is set whole. A slot that turns Active is unlisted until its bit is written. -/
def State.storeRecord (s : State T) (d : DomainId) (e : DomainRecord) : State T :=
  { s with
    record := update s.record d e
    unlisted := if !(s.record d).isActive && e.isActive then update s.unlisted d true
      else s.unlisted }

/-- An access of the shared procedures. -/
def accessWord (p : PeerId) : (o : Ownership.Op) → Choice → State T →
    Option (Ownership.Ret o × State T)
  | .getRecord d, _, s => some (s.record d, s)
  | .setRecord d e, _, s => some ((), s.storeRecord d e)
  | .setShadow d q e, _, s => some ((), { s with shadow := setCell s.shadow d q e })
  | .loadPin d _, _, s => some (s.pins p d, s)
  | .casPin d expected desired _, _, s =>
    if s.pins p d = expected then some (none, { s with pins := setCell s.pins p d desired })
    else some (some (s.pins p d), s)
  | .storePin d v, _, s => some ((), { s with pins := setCell s.pins p d v })
  | .storeHolder _ _, _, s | .storeEpoch _ _, _, s | .deactivate, _, s => some ((), s)
  | .loadEpoch _, _, s => some (0, s)
  | .askTurns, .nat n, s => some (n, s)
  | _, _, _ => none

/-- One access of a thread of a live peer. -/
def access (i : Tid T) : (o : Op) → Choice → State T → Option (Ret o × State T)
  | .word o, ch, s => accessWord i.1 o ch s
  | .loadMember q, _, s => some (s.member q, s)
  | .isParticipating d, _, s => some ((s.member i.1).participating.has d, s)
  | .setParticipation d, _, s => some ((), s.setBit i.1 d true)
  | .clearParticipation d, _, s => some ((), s.setBit i.1 d false)
  | .loadPeerScanBound, _, s => some (s.peerScanBound, s)
  | .setActiveDomain d, _, s => some ((), { s with
      activeDomains := s.activeDomains.set d
      unlisted := update s.unlisted d false })
  | .clearActiveDomain d, _, s => some ((), { s with activeDomains := s.activeDomains.clear d })
  | .lockControl, .flag false, s => some (false, s)
  | .lockControl, .flag true, s =>
    if s.control = none then some (true, { s with control := some i }) else none
  | .unlockControl, _, s => some ((), { s with control := none })
  | .awaitTurn _, .flag false, s => some (false, s)
  | .awaitTurn d, .flag true, s =>
    if (s.holding d).all (· = i.1) then
      some (true, { s with holding := update s.holding d (i.1 :: s.holding d) })
    else none
  | .giveTurn d, _, s =>
    some ((), { s with holding := update s.holding d ((s.holding d).erase i.1) })
  | .askSuccessor, .peer q, s => some (q, s)
  | .hasOwnershipPins d, _, s =>
    some (decide (s.pins i.1 d ≠ 0 ∧ s.pins i.1 d ≠ Ownership.transferringPins), s)
  | .resetOwnershipPins d, _, s => some ((), { s with pins := setCell s.pins i.1 d 0 })
  | .returnHandle h, _, s => some ((), { s with returned := h :: s.returned })
  | .returnGuard h, _, s => some ((), { s with guards := (i.1, h) :: s.guards })
  | .dropGuard h, _, s =>
    if (i.1, h) ∈ s.guards then some ((), { s with guards := s.guards.erase (i.1, h) }) else none
  | .beginUse d, _, s => some ((), { s with users := update s.users d (i :: s.users d) })
  | .endUse d, _, s => some ((), { s with users := update s.users d ((s.users d).erase i) })
  | .beginRetire d, _, s =>
    some ((), { s with retiring := update s.retiring d (i :: s.retiring d) })
  | .endRetire d, _, s =>
    some ((), { s with retiring := update s.retiring d ((s.retiring d).erase i) })
  | _, _, _ => none

/-- A record that is moved outside a control section lands on the life it was loaded with. -/
def landsAsLoaded (i : Tid T) (o : Op) (_ : Choice) (s : State T) : Bool :=
  match o with
  | .word (.setRecord d e) => decide (s.control = some i) || decide (e.life = (s.record d).life)
  | _ => true

/-- One access; a crashed peer makes none. Unless runs are `rough`, a record is moved as if
at once. -/
def exec (rough : Bool) (i : Tid T) (o : Op) (ch : Choice) (s : State T) :
    Option (Ret o × State T) :=
  if !s.crashed i.1 && (rough || landsAsLoaded i o ch s) then access i o ch s else none

end Steps

end Cme.Registry
