import Cme.Client.Session
import Cme.Interleave.Lease
import Cme.Interleave.RobustMutex

/-!
# Daemon — one node's area, its daemon and the region behind it

The words of `shared/protocol/shared_area.hpp`, what the daemon keeps for a
domain (`daemon/domain/local_domain.hpp`, `daemon/domain/manager.hpp`) and what
the region answers it. A slot of the area, the daemon's entry beside it and the
region's record have one id, so all of them are columns over `DomainId`.

Every access to a word is one step. The fields of an entry are reached under
its `counting` mutex and the name index under `naming`. A call into the region is
one step, taken when the region answers; clocks, the other nodes and the
answers that are theirs to give come from the `Choice`. A requester is one
attempt and the guard it may return; its death is seen by the mutex it holds.

History, written by the model and read by nobody: how far a requester is
(`claims`), the section it is inside with the turn behind it (`sections`), and
four things that may go wrong, each named where it is recorded.
-/

namespace Cme.Daemon

open Function Interleave

/-- Domain names are bytes; one byte is one character here. -/
abbrev Text := List Char

/-- The width of a name field, `MaxDomainNameLen`. -/
def fieldWidth : Nat := 16

/-- What a field reads as: up to the first NUL. -/
def readField (field : Text) : Text := field.takeWhile (· ≠ Char.ofNat 0)

def clearedField : Text := List.replicate fieldWidth (Char.ofNat 0)

/-- A name a slot can hold, as the field that holds it. -/
structure DomainName where
  field : Text
  deriving DecidableEq, Repr

namespace DomainName

/-- Nothing for a name no slot could hold: empty, or too long for a terminator. -/
def make (name : Text) : Option DomainName :=
  if name.isEmpty ∨ name.length ≥ fieldWidth then none
  else some ⟨name ++ List.replicate (fieldWidth - name.length) (Char.ofNat 0)⟩

def getText (name : DomainName) : Text := readField name.field

end DomainName

/-- The region's id of a domain and which of its lives is meant. -/
structure Handle where
  id : DomainId
  incarnation : Nat
  deriving DecidableEq, Repr

/-- A cme `Guard`: the domain it was taken on, and which of all guards it is. -/
structure Turn where
  handle : Handle
  serial : Nat
  deriving DecidableEq, Repr

/-- What a slot is, `protocol::DomainState`. -/
inductive SlotState where
  | free
  | live
  | broken
  deriving DecidableEq, Repr

/-- How the region refuses. -/
inductive RegionError where
  | domainExists
  | domainLimit
  | unknownDomain
  | notParticipating
  | lockTimeout
  | other
  deriving DecidableEq, Repr

/-- The threads of one node. -/
inductive Tid where
  | requester (r : Nat)
  | worker (w : Nat)
  | control
  | maintainer
  deriving DecidableEq, Repr

/-- A requester inside its section, and the turn that stood in the entry when it
entered. -/
structure Section where
  domain : DomainId
  turn : Option Turn
  deriving DecidableEq, Repr

/-- The words a section rests on. -/
structure Turns where
  mutex : DomainId → RobustMutex Tid
  state : DomainId → RequestState
  expiresAtNanos : DomainId → Nat
  counting : DomainId → Option Tid
  guard : DomainId → Option Turn
  claims : Nat → Claim
  sections : Nat → Option Section
  /-- A turn was taken on another id than the slot's own. -/
  strayed : Bool
  /-- A worker answered LockHeld where nobody was left to take it back. -/
  late : Bool
  /-- `tryLockIfIdle` was told of a holder that died and left LockHeld. -/
  told : Bool
  /-- A requester told of such a holder gave the mutex back as it was. -/
  left : Bool

/-- The other words of a request. -/
structure Requests where
  seq : DomainId → Nat
  waiters : DomainId → Nat
  result : DomainId → Int
  abandonCount : DomainId → Nat

/-- Names, and who asked to stay in a domain. -/
structure Registry where
  naming : Option Tid
  ids : DomainName → Option DomainId
  name : DomainId → Text
  state : DomainId → SlotState
  joined : DomainId → Nat
  resolved : DomainId → Handle

/-- The records of the region, and which domains this node is in. -/
structure Region where
  name : DomainId → Option Text
  generation : DomainId → Nat
  participates : DomainId → Bool
  locks : Nat

structure State where
  turns : Turns
  requests : Requests
  registry : Registry
  region : Region

/-- The length of the area's table, and the domains of the region. -/
structure Limits where
  maxDomains : Nat
  domainCount : Nat

/-- The walk of the region's records for a name. -/
def Region.resolve (region : Region) (domainCount : Nat) (text : Text) : Option DomainId :=
  (List.range domainCount).find? fun id => id ≠ controlDomainId ∧ region.name id = some text

/-- The domain of a handle is still that domain. -/
def Region.names (region : Region) (handle : Handle) : Bool :=
  (region.name handle.id).isSome && handle.incarnation == region.generation handle.id

/-- Somebody will lower the state word of this slot: a requester that has raised
it, or whoever the kernel tells of the death of one. -/
def Turns.answerable (turns : Turns) (d : DomainId) : Bool :=
  match turns.mutex d with
  | .free => false
  | .abandoned => true
  | .held (.requester r) _ => turns.claims r ≠ .out
  | .held _ _ => false

/-- Which of the two callers of `RobustLock::tryLock` it is. -/
inductive Site where
  | tryLockIfIdle
  | reclaimAbandoned
  deriving DecidableEq, Repr

/-- One record of the region as `getDomainEntries` lists it. -/
structure DomainEntry where
  name : Text
  handle : Handle
  deriving DecidableEq, Repr

inductive Op where
  -- a slot's request line
  | loadState (d : DomainId)
  | storeState (d : DomainId) (next : RequestState)
  | awaitLoad (d : DomainId)
  | loadSeq (d : DomainId)
  | addSeq (d : DomainId)
  | waitOnWord (d : DomainId) (seen : Nat)
  | wakeRequester (d : DomainId)
  | loadResult (d : DomainId)
  | storeResult (d : DomainId) (result : Int)
  | hasValidTurn (d : DomainId)
  | holdTurnUntil (d : DomainId)
  | revokeTurn (d : DomainId)
  | addWaiter (d : DomainId)
  | subtractWaiter (d : DomainId)
  | hasWaiters (d : DomainId)
  | addAbandonCount (d : DomainId)
  | lockMutex (d : DomainId)
  | tryLock (d : DomainId) (site : Site)
  | unlockMutex (d : DomainId)
  | ring (d : DomainId)
  -- a slot's registry line
  | isExpectedState (d : DomainId) (expected : SlotState)
  | markState (d : DomainId) (next : SlotState)
  | getName (d : DomainId)
  | setName (d : DomainId) (field : Text)
  -- a requester's session
  | findCached (name : DomainName)
  | isServing
  | askRemaining
  | askTurns
  | spin
  -- the daemon's entry
  | lockCounting (d : DomainId)
  | unlockCounting (d : DomainId)
  | hasTurn (d : DomainId)
  | takeTurn (d : DomainId) (taken : Turn) (handle : Handle)
  | releaseTurn (d : DomainId)
  | turnHandle (d : DomainId)
  | runExpired (d : DomainId)
  | addJoin (d : DomainId)
  | dropJoin (d : DomainId)
  | clearJoins (d : DomainId)
  | keepsParticipation (d : DomainId)
  -- the daemon's name index
  | lockNaming
  | unlockNaming
  | findId (name : DomainName)
  | setId (name : DomainName) (d : DomainId)
  | clearId (name : DomainName) (d : DomainId)
  -- the daemon's clocks and its workers
  | refreshExpired
  | waitExpired
  | isBusy (d : DomainId)
  -- the region
  | createDomain (text : Text)
  | joinDomain (text : Text)
  | lock (handle : Handle)
  | deleteDomain (text : Text)
  | leaveByName (text : Text)
  | leaveByHandle (handle : Handle)
  | getRecord (id : DomainId)
  deriving DecidableEq, Repr

abbrev Ret : Op → Type
  | .loadState _ => RequestState
  | .awaitLoad _ => RequestState
  | .loadSeq _ => Nat
  | .loadResult _ => Int
  | .hasValidTurn _ => Bool
  | .hasWaiters _ => Bool
  | .lockMutex _ => Bool
  | .tryLock _ _ => Option Bool
  | .isExpectedState _ _ => Bool
  | .getName _ => Text
  | .findCached _ => Option DomainId
  | .isServing => Bool
  | .askRemaining => Bool
  | .askTurns => Nat
  | .hasTurn _ => Bool
  | .turnHandle _ => Handle
  | .runExpired _ => Bool
  | .dropJoin _ => Bool
  | .keepsParticipation _ => Bool
  | .findId _ => Option DomainId
  | .refreshExpired => Bool
  | .waitExpired => Bool
  | .isBusy _ => Bool
  | .createDomain _ => Except RegionError Handle
  | .joinDomain _ => Except RegionError Handle
  | .lock _ => Except RegionError Turn
  | .deleteDomain _ => Except RegionError Unit
  | .getRecord _ => Except RegionError (Option DomainEntry)
  | _ => Unit

/-- What clocks, the kernel and the other nodes answer at a step. -/
inductive Choice where
  | any
  | flag (b : Bool)
  | nat (n : Nat)
  | domain (d : Option DomainId)
  | refused (e : RegionError)
  deriving Inhabited, Repr

abbrev Proc (α : Type) := Prog Op Ret α

/-- One access, as code. -/
abbrev act (o : Op) : Proc (Ret o) := Prog.perform o

/-! ### The steps on a turn's words -/

namespace Turns

/-- A requester is inside from here on. -/
def enter (turns : Turns) (t : Tid) (d : DomainId) : Turns :=
  match t with
  | .requester r => { turns with
      claims := update turns.claims r .inside
      sections := update turns.sections r (some ⟨d, turns.guard d⟩) }
  | _ => turns

/-- How far a requester is after it has stored a state. -/
def claimOf : RequestState → Claim
  | .lockHeld => .claimed
  | .lockRequested => .asking
  | _ => .out

def storeState (turns : Turns) (t : Tid) (d : DomainId) (next : RequestState) : Turns :=
  let stored := { turns with state := update turns.state d next }
  match t with
  | .requester r => { stored with
      claims := update turns.claims r (claimOf next)
      sections := update turns.sections r none }
  | _ => { stored with late := turns.late || (next == .lockHeld && !turns.answerable d) }

def setMutex (turns : Turns) (d : DomainId) (mutex : RobustMutex Tid) : Turns :=
  { turns with mutex := update turns.mutex d mutex }

def unlockMutex (turns : Turns) (t : Tid) (d : DomainId) : Turns :=
  let freed := turns.setMutex d .free
  match t with
  | .requester _ => { freed with
      left := turns.left ||
        (turns.mutex d == .held t true && turns.state d == .lockHeld) }
  | _ => freed

def takeTurn (turns : Turns) (d : DomainId) (taken : Turn) : Turns :=
  { turns with
    guard := update turns.guard d (some taken)
    strayed := turns.strayed || taken.handle.id != d }

end Turns

/-- The steps that read or write a word a section rests on. -/
def execTurns (t : Tid) : (o : Op) → Choice → Turns → Option (Ret o × Turns)
  | .loadState d, _, s => some (s.state d, s)
  | .storeState d next, _, s => some ((), s.storeState t d next)
  | .awaitLoad d, _, s => some (s.state d, if s.state d = .lockHeld then s.enter t d else s)
  | .hasValidTurn d, .nat now, s =>
    let ahead := decide (now < s.expiresAtNanos d)
    some (ahead, if ahead then s.enter t d else s)
  | .holdTurnUntil d, .nat wallNanos, s => some ((),
      { s with expiresAtNanos := update s.expiresAtNanos d wallNanos })
  | .revokeTurn d, _, s => some ((),
      { s with expiresAtNanos := update s.expiresAtNanos d 0 })
  | .lockMutex d, _, s => ((s.mutex d).acquire t).map fun told => (told.1, s.setMutex d told.2)
  | .tryLock d site, _, s =>
    match (s.mutex d).acquire t with
    | none => some (none, s)
    | some (told, mutex) => some (some told,
        { s.setMutex d mutex with
          told := s.told || (told && site == .tryLockIfIdle && s.state d == .lockHeld) })
  | .unlockMutex d, _, s => some ((), s.unlockMutex t d)
  | .lockCounting d, _, s =>
    if (s.counting d).isSome then none
    else some ((), { s with counting := update s.counting d (some t) })
  | .unlockCounting d, _, s => some ((),
      { s with counting := update s.counting d none })
  | .hasTurn d, _, s => some ((s.guard d).isSome, s)
  | .releaseTurn d, _, s => some ((), { s with guard := update s.guard d none })
  | _, _, _ => none

/-- What a step leaves of the turn's words. -/
inductive Turned (t : Tid) (s : Turns) : Op → Turns → Prop where
  | stored (d : DomainId) (next : RequestState) :
      Turned t s (.storeState d next) (s.storeState t d next)
  | entered {o : Op} (d : DomainId) : Turned t s o (s.enter t d)
  | unlocked (d : DomainId) : Turned t s (.unlockMutex d) (s.unlockMutex t d)
  | counting (d : DomainId) : Turned t s (.lockCounting d)
      { s with counting := update s.counting d (some t) }
  | uncounting (d : DomainId) : Turned t s (.unlockCounting d)
      { s with counting := update s.counting d none }
  | released (d : DomainId) : Turned t s (.releaseTurn d)
      { s with guard := update s.guard d none }
  | aside {o : Op} {expiresAtNanos : DomainId → Nat} {mutex : DomainId → RobustMutex Tid}
      {told : Bool} : Turned t s o { s with expiresAtNanos, mutex, told }

theorem execTurns_turned {t : Tid} {o : Op} {ch : Choice} {s s' : Turns} {r : Ret o}
    (hx : execTurns t o ch s = some (r, s')) : Turned t s o s' := by
  cases o <;> first | (cases hx; done) | skip
  case storeState d next =>
    cases hx
    exact .stored d next
  case awaitLoad d =>
    cases hx
    split
    · exact .entered d
    · exact .aside
  case hasValidTurn d =>
    cases ch <;> cases hx
    split
    · exact .entered d
    · exact .aside
  case lockMutex d =>
    obtain ⟨told, -, heq⟩ := Option.map_eq_some_iff.mp hx
    cases heq
    exact .aside
  case tryLock d site =>
    rw [execTurns] at hx
    split at hx <;> cases hx <;> exact .aside
  case lockCounting d =>
    rw [execTurns] at hx
    split at hx <;> cases hx
    exact .counting d
  case holdTurnUntil d =>
    cases ch <;> cases hx
    exact .aside
  case unlockMutex d | unlockCounting d | releaseTurn d =>
    cases hx
    constructor
  all_goals
    cases hx
    exact .aside

/-! ### The other steps -/

/-- The other words of a request. -/
def execRequests : (o : Op) → Choice → Requests → Option (Ret o × Requests)
  | .loadSeq d, _, s => some (s.seq d, s)
  | .addSeq d, _, s => some ((), { s with seq := update s.seq d ((s.seq d + 1) % 2 ^ 32) })
  | .loadResult d, _, s => some (s.result d, s)
  | .storeResult d result, _, s => some ((), { s with result := update s.result d result })
  | .addWaiter d, _, s => some ((),
      { s with waiters := update s.waiters d ((s.waiters d + 1) % 2 ^ 32) })
  | .subtractWaiter d, _, s => some ((),
      { s with waiters := update s.waiters d ((s.waiters d + (2 ^ 32 - 1)) % 2 ^ 32) })
  | .hasWaiters d, _, s => some (decide (s.waiters d > 0), s)
  | .addAbandonCount d, _, s => some ((),
      { s with abandonCount := update s.abandonCount d ((s.abandonCount d + 1) % 2 ^ 16) })
  | _, _, _ => none

/-- Names, and who asked to stay. -/
def execRegistry (t : Tid) : (o : Op) → Choice → Registry → Option (Ret o × Registry)
  | .isExpectedState d expected, _, s => some (s.state d == expected, s)
  | .markState d next, _, s => some ((), { s with state := update s.state d next })
  | .getName d, _, s => some (readField (s.name d), s)
  | .setName d field, _, s => some ((), { s with name := update s.name d field })
  | .turnHandle d, _, s => some (s.resolved d, s)
  | .addJoin d, _, s => some ((), { s with joined := update s.joined d (s.joined d + 1) })
  | .dropJoin d, _, s =>
    if s.joined d = 0 then some (false, s)
    else some (true, { s with joined := update s.joined d (s.joined d - 1) })
  | .clearJoins d, _, s => some ((), { s with joined := update s.joined d 0 })
  | .lockNaming, _, s => if s.naming.isSome then none else some ((), { s with naming := some t })
  | .unlockNaming, _, s => some ((), { s with naming := none })
  | .findId name, _, s => some (s.ids name, s)
  | .setId name d, _, s => some ((), { s with ids := update s.ids name (some d) })
  | .clearId name d, _, s => some ((),
      -- a name set at another id since is the live one
      if s.ids name = some d then { s with ids := update s.ids name none } else s)
  | _, _, _ => none

/-- What the region does for this node. -/
def execRegion (domainCount : Nat) : (o : Op) → Choice → Region → Option (Ret o × Region)
  | .createDomain _, .refused e, s => some (.error e, s)
  | .createDomain text, .domain (some id), s =>
    if (s.resolve domainCount text).isSome then some (.error .domainExists, s)
    else if id ≠ controlDomainId ∧ id < domainCount ∧ s.name id = none then
      some (.ok ⟨id, s.generation id + 1⟩, { s with
        name := update s.name id (some text)
        generation := update s.generation id (s.generation id + 1)
        participates := update s.participates id true })
    else none
  | .joinDomain _, .refused e, s => some (.error e, s)
  | .joinDomain text, .any, s =>
    match s.resolve domainCount text with
    | none => some (.error .unknownDomain, s)
    | some id => some (.ok ⟨id, s.generation id⟩,
        { s with participates := update s.participates id true })
  | .lock _, .refused e, s => some (.error e, s)
  | .lock handle, .any, s =>
    if s.names handle then some (.ok ⟨handle, s.locks⟩, { s with locks := s.locks + 1 })
    else some (.error .unknownDomain, s)
  | .deleteDomain _, .refused e, s => some (.error e, s)
  | .deleteDomain text, .any, s =>
    match s.resolve domainCount text with
    | none => some (.error .unknownDomain, s)
    | some id => some (.ok (), { s with
        name := update s.name id none
        participates := update s.participates id false })
  | .leaveByName _, .refused _, s => some ((), s)
  | .leaveByName text, .any, s =>
    match s.resolve domainCount text with
    | none => some ((), s)
    | some id => some ((), { s with participates := update s.participates id false })
  | .leaveByHandle _, .refused _, s => some ((), s)
  | .leaveByHandle handle, .any, s =>
    if s.names handle then
      some ((), { s with participates := update s.participates handle.id false })
    else some ((), s)
  | .getRecord _, .refused e, s => some (.error e, s)
  | .getRecord id, .any, s => some (.ok ((s.name id).map fun name =>
      ⟨name, ⟨id, s.generation id⟩⟩), s)
  | _, _, _ => none

/-- Answers that are nobody's word in the model: clocks, sleeps, the doorbell, a
session's cache of ids, the socket, and the workers' in-flight mask. -/
def execOutside : (o : Op) → Choice → Option (Ret o)
  | .waitOnWord _ _, _ => some ()
  | .wakeRequester _, _ => some ()
  | .ring _, _ => some ()
  | .findCached _, .domain d => some d
  | .isServing, .flag b => some b
  | .askRemaining, .flag b => some b
  | .askTurns, .nat n => some n
  | .runExpired _, .flag b => some b
  | .refreshExpired, .flag b => some b
  | .waitExpired, .flag b => some b
  | .isBusy _, .flag b => some b
  | _, _ => none

/-- Which part of the state an access is to. -/
inductive Part where
  | turns
  | requests
  | registry
  | region
  | outside
  /-- Both the turn's words and the registry's. -/
  | entry
  deriving DecidableEq

def Op.part : Op → Part
  | .loadState _ | .storeState _ _ | .awaitLoad _ | .hasValidTurn _ | .holdTurnUntil _
  | .revokeTurn _ | .lockMutex _ | .tryLock _ _ | .unlockMutex _ | .lockCounting _
  | .unlockCounting _ | .hasTurn _ | .releaseTurn _ => .turns
  | .loadSeq _ | .addSeq _ | .loadResult _ | .storeResult _ _ | .addWaiter _
  | .subtractWaiter _ | .hasWaiters _ | .addAbandonCount _ => .requests
  | .isExpectedState _ _ | .markState _ _ | .getName _ | .setName _ _ | .turnHandle _
  | .addJoin _ | .dropJoin _ | .clearJoins _ | .lockNaming | .unlockNaming | .findId _
  | .setId _ _ | .clearId _ _ => .registry
  | .createDomain _ | .joinDomain _ | .lock _ | .deleteDomain _ | .leaveByName _
  | .leaveByHandle _ | .getRecord _ => .region
  | .takeTurn _ _ _ | .keepsParticipation _ => .entry
  | .waitOnWord _ _ | .wakeRequester _ | .ring _ | .findCached _ | .isServing | .askRemaining
  | .askTurns | .spin | .runExpired _ | .refreshExpired | .waitExpired | .isBusy _ => .outside

/-- The two accesses that touch both the turn and its entry's other fields. -/
def execEntry : (o : Op) → State → Option (Ret o × State)
  | .takeTurn d taken handle, s => some ((), { s with
      turns := s.turns.takeTurn d taken
      registry := { s.registry with resolved := update s.registry.resolved d handle } })
  | .keepsParticipation d, s =>
    some (decide (s.registry.joined d > 0) || (s.turns.guard d).isSome, s)
  | _, _ => none

def exec (lim : Limits) (t : Tid) (o : Op) (ch : Choice) (s : State) : Option (Ret o × State) :=
  match o.part with
  | .turns => (execTurns t o ch s.turns).map fun x => (x.1, { s with turns := x.2 })
  | .requests => (execRequests o ch s.requests).map fun x => (x.1, { s with requests := x.2 })
  | .registry => (execRegistry t o ch s.registry).map fun x => (x.1, { s with registry := x.2 })
  | .region => (execRegion lim.domainCount o ch s.region).map fun x => (x.1, { s with region := x.2 })
  | .outside => (execOutside o ch).map fun x => (x, s)
  | .entry => execEntry o s

/-- What a step of the node is, by the part it touches. -/
inductive Stepped (lim : Limits) (t : Tid) (ch : Choice) (s : State) :
    (o : Op) → Ret o → State → Prop where
  | turns {o r turns} (hpart : o.part = .turns) (h : execTurns t o ch s.turns = some (r, turns)) :
      Stepped lim t ch s o r { s with turns }
  | requests {o r requests} (h : execRequests o ch s.requests = some (r, requests)) :
      Stepped lim t ch s o r { s with requests }
  | registry {o r registry} (h : execRegistry t o ch s.registry = some (r, registry)) :
      Stepped lim t ch s o r { s with registry }
  | region {o r region} (h : execRegion lim.domainCount o ch s.region = some (r, region)) :
      Stepped lim t ch s o r { s with region }
  | took (d : DomainId) (taken : Turn) (handle : Handle) :
      Stepped lim t ch s (.takeTurn d taken handle) () { s with
        turns := s.turns.takeTurn d taken
        registry := { s.registry with resolved := update s.registry.resolved d handle } }
  | still {o r} : Stepped lim t ch s o r s

theorem exec_stepped {lim : Limits} {t : Tid} {o : Op} {ch : Choice} {s s' : State} {r : Ret o}
    (hx : exec lim t o ch s = some (r, s')) : Stepped lim t ch s o r s' := by
  cases hpart : o.part <;> rw [exec, hpart] at hx
  case entry =>
    cases o <;> cases hpart <;> cases hx
    · exact .took _ _ _
    · exact .still
  all_goals
    obtain ⟨x, h, ⟨⟩⟩ := Option.map_eq_some_iff.mp hx
  case outside => exact .still
  case turns => exact .turns hpart h
  case requests => exact .requests h
  case registry => exact .registry h
  case region => exact .region h

section Mutexes

variable (lim : Limits) {t : Tid} {ch : Choice} {s s' : State} {r : Unit}

/-- Only a mutex nobody holds is taken. -/
theorem exec_lockNaming (hx : exec lim t .lockNaming ch s = some (r, s')) :
    s.registry.naming = none ∧ s' = { s with registry.naming := some t } := by
  obtain ⟨x, hlock, ⟨⟩⟩ := Option.map_eq_some_iff.mp hx
  rw [execRegistry] at hlock
  obtain ⟨hfree, rfl⟩ := of_unless hlock
  exact ⟨by simpa using hfree, rfl⟩

theorem exec_lockCounting {d : DomainId} (hx : exec lim t (.lockCounting d) ch s = some (r, s')) :
    s.turns.counting d = none ∧
      s' = { s with turns.counting := update s.turns.counting d (some t) } := by
  obtain ⟨x, hlock, ⟨⟩⟩ := Option.map_eq_some_iff.mp hx
  rw [execTurns] at hlock
  obtain ⟨hfree, rfl⟩ := of_unless hlock
  exact ⟨by simpa using hfree, rfl⟩

end Mutexes

end Cme.Daemon
