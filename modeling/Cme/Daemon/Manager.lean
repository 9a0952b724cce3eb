import Cme.Daemon.Request

/-!
# Daemon — the manager of a node's domains

`daemon/domain/manager.cpp`: what a worker does for a slot whose bit was raised
(`serveLock`), what the control thread does for a command (`serveCommand`), and
the maintenance pass (`maintain`). Counters and spans are left out.

The worker, the control thread and the maintainer run over the area together
with the requesters and with what other nodes do to the region (`system`).
-/

namespace Cme.Daemon

open Function Interleave

/-- The errno values the daemon answers with. -/
def eio : Int := 5
def eagain : Int := 11
def ebusy : Int := 16
def eexist : Int := 17
def einval : Int := 22
def enospc : Int := 28
def enoent : Int := 2
def eperm : Int := 1
def enotempty : Int := 39

/-- What a control request is answered with. -/
inductive DomainAnswer where
  | served
  | nameUnusable
  | nameTaken
  | noRoom
  | noSuchDomain
  | stillInUse
  | participantsRemain
  | domainBroken
  | notParticipating
  | regionUnusable
  deriving DecidableEq, Repr

/-- The word of the reply. -/
def DomainAnswer.code : DomainAnswer → Int
  | .served => 0
  | .nameUnusable => -einval
  | .nameTaken => -eexist
  | .noRoom => -enospc
  | .noSuchDomain => -enoent
  | .stillInUse => -ebusy
  | .participantsRemain => -enotempty
  | .domainBroken => -eagain
  | .notParticipating => -eperm
  | .regionUnusable => -eio

/-! ### A worker -/

/-- What is published for an exception of the acquire: a turn that did not come
in time may be asked for again, the rest may not. -/
def refusal : RegionError → Int
  | .lockTimeout => -ebusy
  | _ => -einval

def refuse (d : DomainId) (failure : Int) : Proc Unit := do
  publishFailure d failure
  act (.wakeRequester d)

/-- `leaveDomain` of a turn: an incarnation of zero is a turn never taken. -/
def leaveDomain (handle : Handle) : Proc Unit :=
  if handle.incarnation = 0 then pure () else act (.leaveByHandle handle)

/-- The end of a grant whose turn is there. -/
def answerGrant (d : DomainId) : Proc Unit := do
  publishGrant d
  act (.wakeRequester d)

/-- Buys the turn, or rides one this node already holds. -/
def grant (d : DomainId) : Proc Unit := do
  publish d .granting
  act (.wakeRequester d)
  if ← act (.hasTurn d) then answerGrant d
  else
    let name ← act (.getName d)
    match ← act (.joinDomain name) with
    | .error e => refuse d (refusal e)
    | .ok resolved =>
      match ← act (.lock resolved) with
      | .error e => refuse d (refusal e)
      | .ok taken =>
        act (.takeTurn d taken resolved)
        act (.holdTurnUntil d)
        answerGrant d

/-- The hand-back itself: the stamp goes down before the state is read. -/
def dropTurn (d : DomainId) : Proc Bool := do
  act (.revokeTurn d)
  if (← act (.loadState d)) = .lockHeld then pure false
  else
    act (.releaseTurn d)
    if ← act (.keepsParticipation d) then pure true
    else
      let handle ← act (.turnHandle d)
      leaveDomain handle
      pure true

/-- Kept while something local is queued and this run's time is not up. -/
def dropTurnIfIdle (d : DomainId) : Proc Unit := do
  if ← act (.hasTurn d) then
    if ← act (.hasWaiters d) then
      if ← act (.runExpired d) then
        let _ ← dropTurn d
      else pure ()
    else
      let _ ← dropTurn d
  else pure ()

/-- What a state found by a worker asks of it. -/
def serveState (d : DomainId) : RequestState → Proc Unit
  | .lockRequested => grant d
  | .idle => dropTurnIfIdle d
  | _ => pure ()

def serveLock (lim : Limits) (d : DomainId) : Proc Unit := do
  if d < lim.maxDomains then
    act (.lockCounting d)
    let state ← act (.loadState d)
    serveState d state
    act (.unlockCounting d)
  else pure ()

/-! ### Naming -/

/-- Publishes a name at the slot of its handle. -/
def claim (lim : Limits) (name : DomainName) (handle : Handle) : Proc DomainAnswer := do
  if handle.id ≥ lim.maxDomains then pure .nameUnusable
  else if ← isNamed handle.id name.getText then
    act (.setId name handle.id)
    pure .served
  else
    if ← act (.isExpectedState handle.id .live) then
      act (.markState handle.id .broken)
    takeSlot name handle.id
where
  /-- The name before live. -/
  publishName (name : DomainName) (d : DomainId) : Proc DomainAnswer := do
    act (.setName d name.field)
    act (.markState d .live)
    act (.setId name d)
    pure .served
  /-- A Broken slot is emptied first, once nobody is at it. -/
  takeSlot (name : DomainName) (d : DomainId) : Proc DomainAnswer := do
    if ← act (.isExpectedState d .broken) then
      if ← tryLockIfIdle d then
        -- the mutex falls here, before the name is written
        act (.markState d .free)
        act (.unlockMutex d)
        publishName name d
      else pure .domainBroken
    else publishName name d

/-! ### The maintainer -/

/-- `getDomainEntries`: one record at a time. -/
def getDomainEntries : List DomainId → Proc (Except RegionError (List DomainEntry))
  | [] => pure (.ok [])
  | id :: rest => do
    match ← act (.getRecord id) with
    | .error e => pure (.error e)
    | .ok record =>
      match ← getDomainEntries rest with
      | .error e => pure (.error e)
      | .ok entries => pure (.ok (record.toList ++ entries))

/-- The slots the region's answer confirms at their own number. A Broken slot
still carries the name it is being taken from, so only its id can confirm it. -/
def confirm (lim : Limits) : List DomainEntry → Proc (List DomainId)
  | [] => pure []
  | entry :: rest => do
    if entry.handle.id ≥ lim.maxDomains then confirm lim rest
    else if ← isNamed entry.handle.id entry.name then
      return entry.handle.id :: (← confirm lim rest)
    else if ← act (.isExpectedState entry.handle.id .broken) then
      return entry.handle.id :: (← confirm lim rest)
    else confirm lim rest

/-- A slot freed by a refresh, with its mutex held. -/
def retireSlot (d : DomainId) : Proc Unit := do
  let name ← act (.getName d)
  act (.markState d .free)
  act (.setName d clearedField)
  match DomainName.make name with
  | none => pure ()
  | some retired => act (.clearId retired d)
  act (.unlockMutex d)

/-- Live or Broken. -/
def isTaken (d : DomainId) : Proc Bool := do
  if ← act (.isExpectedState d .live) then pure true
  else act (.isExpectedState d .broken)

/-- The retiring of `refresh`: only slots nothing is using. -/
def retireStale (confirmed : List DomainId) : List DomainId → Proc Unit
  | [] => pure ()
  | d :: rest => do
    if ← isTaken d then
      if d ∈ confirmed then retireStale confirmed rest
      else if ← tryLockIfIdle d then
        retireSlot d
        retireStale confirmed rest
      else retireStale confirmed rest
    else retireStale confirmed rest

def claimAll (lim : Limits) : List DomainEntry → Proc Unit
  | [] => pure ()
  | entry :: rest => do
    match DomainName.make entry.name with
    | none => claimAll lim rest
    | some living =>
      let _ ← claim lim living entry.handle
      claimAll lim rest

/-- A refresh from the region's answer on. -/
def mirror (lim : Limits) (living : List DomainEntry) : Proc Unit := do
  let confirmed ← confirm lim living
  retireStale confirmed (List.range lim.maxDomains)
  claimAll lim living
  act .unlockNaming

def refresh (lim : Limits) : Proc Unit := do
  if ← act .refreshExpired then
    act .lockNaming
    match ← getDomainEntries ((List.range lim.domainCount).drop 1) with
    | .error _ => act .unlockNaming
    | .ok living => mirror lim living
  else pure ()

/-- An expired turn of `dropExpiredTurns`. A holder that died leaves LockHeld
standing, which `dropTurn` takes for a live section. -/
def handBackExpired (d : DomainId) : Proc Bool := do
  let _ ← reclaimAbandoned d
  dropTurn d

/-- One slot of `dropExpiredTurns`. -/
def dropExpiredTurn (d : DomainId) : Proc Unit := do
  if ← act (.isBusy d) then pure ()
  else
    act (.lockCounting d)
    if ← act (.hasTurn d) then
      if ← act (.runExpired d) then
        let _ ← handBackExpired d
        act (.unlockCounting d)
      else act (.unlockCounting d)
    else act (.unlockCounting d)

def dropExpiredTurns : List DomainId → Proc Unit
  | [] => pure ()
  | d :: rest => do
    dropExpiredTurn d
    dropExpiredTurns rest

def maintain (lim : Limits) : Proc Unit := do
  refresh lim
  dropExpiredTurns (List.range lim.maxDomains)

/-! ### The control thread -/

/-- What a create does with the handle the region gave it. -/
def finishCreate (lim : Limits) (name : DomainName) (created : Handle) : Proc DomainAnswer := do
  act .lockNaming
  let claimed ← claim lim name created
  act .unlockNaming
  if claimed = .served then
    act (.lockCounting created.id)
    act (.addJoin created.id)
    act (.unlockCounting created.id)
    pure .served
  else pure claimed

/-- The region first, then the table; a name that exists is joined. -/
def create (lim : Limits) (name : DomainName) : Proc DomainAnswer := do
  match ← act (.createDomain name.getText) with
  | .ok created => finishCreate lim name created
  | .error .domainExists =>
    match ← act (.joinDomain name.getText) with
    | .ok created => finishCreate lim name created
    | .error .unknownDomain => pure .domainBroken
    | .error _ => pure .regionUnusable
  | .error .domainLimit => pure .noRoom
  | .error _ => pure .regionUnusable

/-- `retire`: the name goes with the domain. -/
def retire (name : DomainName) (d : DomainId) : Proc Unit := do
  act (.setName d clearedField)
  act (.clearId name d)
  act (.lockCounting d)
  act (.clearJoins d)
  act (.unlockCounting d)

/-- The poll of `remove` for a slot nothing is using. -/
def awaitQuiet (d : DomainId) : Nat → Proc Bool
  | 0 => do
    act .spin
    pure false
  | turns + 1 => do
    if ← tryLockIfIdle d then pure true
    else if ← act .waitExpired then pure false
    else awaitQuiet d turns

/-- `remove` with the slot's mutex held: the turn first, then the region. -/
def removeQuiet (name : DomainName) (d : DomainId) : Proc DomainAnswer := do
  act (.lockCounting d)
  act (.releaseTurn d)
  act (.revokeTurn d)
  act (.unlockCounting d)
  match ← act (.deleteDomain name.getText) with
  | .ok _ =>
    retire name d
    pure .served
  | .error .unknownDomain =>
    retire name d
    pure .served
  | .error .notParticipating =>
    act (.markState d .live)
    pure .participantsRemain
  | .error _ =>
    act (.markState d .live)
    pure .regionUnusable

/-- `remove` of a slot this node is in, under the naming mutex. -/
def removeSlot (name : DomainName) (d : DomainId) : Proc DomainAnswer := do
  act (.markState d .free)
  let turns ← act .askTurns
  if ← awaitQuiet d turns then
    let answer ← removeQuiet name d
    act (.unlockMutex d)
    pure answer
  else
    act (.markState d .live)
    pure .stillInUse

def remove (name : DomainName) : Proc DomainAnswer := do
  act .lockNaming
  match ← act (.findId name) with
  | none =>
    act .unlockNaming
    pure .noSuchDomain
  | some d =>
    act (.lockCounting d)
    let keeps ← act (.keepsParticipation d)
    act (.unlockCounting d)
    if keeps then
      let answer ← removeSlot name d
      act .unlockNaming
      pure answer
    else
      act .unlockNaming
      pure .notParticipating

/-- The index, under the naming mutex. -/
def findNamed (name : DomainName) : Proc (Option DomainId) := do
  act .lockNaming
  let found ← act (.findId name)
  act .unlockNaming
  pure found

def join (name : DomainName) : Proc DomainAnswer := do
  match ← findNamed name with
  | none => pure .noSuchDomain
  | some d =>
    act (.lockCounting d)
    match ← act (.joinDomain name.getText) with
    | .ok _ =>
      act (.addJoin d)
      act (.unlockCounting d)
      pure .served
    | .error .unknownDomain =>
      act (.unlockCounting d)
      pure .noSuchDomain
    | .error _ =>
      act (.unlockCounting d)
      pure .regionUnusable

/-- The turn keeps the participation while it is held. -/
def leave (name : DomainName) : Proc DomainAnswer := do
  match ← findNamed name with
  | none => pure .noSuchDomain
  | some d =>
    act (.lockCounting d)
    if ← act (.dropJoin d) then
      if ← act (.keepsParticipation d) then
        act (.unlockCounting d)
        pure .served
      else
        act (.leaveByName name.getText)
        act (.unlockCounting d)
        pure .served
    else
      act (.unlockCounting d)
      pure .served

/-- The four domain requests of `protocol::MessageType`. -/
inductive Command where
  | createDomain
  | deleteDomain
  | joinDomain
  | leaveDomain
  deriving DecidableEq, Repr

/-- Where a peer's bytes become a name. -/
def serveCommand (lim : Limits) (asked : Command) (asking : Text) : Proc DomainAnswer :=
  match DomainName.make asking with
  | none => pure .nameUnusable
  | some name =>
    match asked with
    | .createDomain => create lim name
    | .deleteDomain => remove name
    | .joinDomain => join name
    | .leaveDomain => leave name

/-! ### The system -/

inductive Call where
  | tryLock (name : DomainName)
  | unlock
  | serveLock (d : DomainId)
  | command (asked : Command) (asking : Text)
  | maintain

/-- A requester asks when it is in no section, and releases the one it is in. -/
def start (lim : Limits) (t : Tid) (call : Call) (s : State) : Option (Proc Unit) :=
  match t, call with
  | .requester r, .tryLock name =>
    match s.turns.sections r with
    | none => some (do let _ ← tryLockOnce lim name)
    | some _ => none
  | .requester r, .unlock =>
    match s.turns.sections r with
    | none => none
    | some section_ => some (release section_.domain)
  | .worker _, .serveLock d => some (serveLock lim d)
  | .control, .command asked asking => some (do let _ ← serveCommand lim asked asking)
  | .maintainer, .maintain => some (maintain lim)
  | _, _ => none

/-- What a thread's call runs, a requester's by whether it is in a section. -/
inductive Begun (lim : Limits) (s : State) : Tid → Proc Unit → Prop where
  | tryLock {r : Nat} (name : DomainName) (h : s.turns.sections r = none) :
      Begun lim s (.requester r) (do let _ ← tryLockOnce lim name)
  | unlock {r : Nat} {sec : Section} (h : s.turns.sections r = some sec) :
      Begun lim s (.requester r) (release sec.domain)
  | serveLock {w : Nat} (d : DomainId) : Begun lim s (.worker w) (serveLock lim d)
  | command (asked : Command) (asking : Text) :
      Begun lim s .control (do let _ ← serveCommand lim asked asking)
  | maintain : Begun lim s .maintainer (maintain lim)

theorem start_begun {lim : Limits} {t : Tid} {call : Call} {s : State} {p : Proc Unit}
    (hp : start lim t call s = some p) : Begun lim s t p := by
  unfold start at hp
  split at hp
  · split at hp <;> cases hp
    exact .tryLock _ ‹_›
  · split at hp <;> cases hp
    exact .unlock ‹_›
  · cases hp
    exact .serveLock _
  · cases hp
    exact .command _ _
  · cases hp
    exact .maintain
  · cases hp

/-- A requester dies; another node creates or deletes a domain. -/
inductive Env where
  | die (r : Nat)
  | createElsewhere (id : DomainId) (text : Text)
  | deleteElsewhere (id : DomainId)

/-- A domain is deleted by nobody while this node is in it. -/
def env (lim : Limits) : Env → State → Option State
  | .die r, s => some { s with turns := { s.turns with
      mutex := fun d => (s.turns.mutex d).die (.requester r)
      claims := update s.turns.claims r .out
      sections := update s.turns.sections r none } }
  | .createElsewhere id text, s =>
    if id ≠ controlDomainId ∧ id < lim.domainCount ∧ s.region.name id = none ∧
        s.region.resolve lim.domainCount text = none then
      some { s with region := { s.region with
        name := update s.region.name id (some text)
        generation := update s.region.generation id (s.region.generation id + 1) } }
    else none
  | .deleteElsewhere id, s =>
    if (s.region.name id).isSome ∧ s.region.participates id = false then
      some { s with region := { s.region with name := update s.region.name id none } }
    else none

def kills : Env → Tid → Bool
  | .die r, t => t = .requester r
  | _, _ => false

/-- One node: its requesters, its daemon, and the region around it. -/
def system (lim : Limits) : System Tid Op Ret State Choice Call Env where
  exec := exec lim
  start := start lim
  env := env lim
  kills := kills

/-- A fresh area, and a region without domains. -/
def fresh : Config Tid Op Ret State where
  shared :=
    { turns :=
        { mutex := fun _ => .free
          state := fun _ => .idle
          expiresAtNanos := fun _ => 0
          counting := fun _ => none
          guard := fun _ => none
          claims := fun _ => .out
          sections := fun _ => none
          strayed := false
          late := false
          told := false
          left := false }
      requests :=
        { seq := fun _ => 0
          waiters := fun _ => 0
          result := fun _ => 0
          abandonCount := fun _ => 0 }
      registry :=
        { naming := none
          ids := fun _ => none
          name := fun _ => clearedField
          state := fun _ => .free
          joined := fun _ => 0
          resolved := fun _ => ⟨0, 0⟩ }
      region :=
        { name := fun _ => none
          generation := fun _ => 0
          participates := fun _ => false
          locks := 0 } }
  threads := fun _ => .done ()

end Cme.Daemon
