import Cme.Ownership.Transfer
import Mathlib.Algebra.BigOperators.Fin

/-!
# Peterson — one peer's threads at one domain

`PetersonPolicy::lock` and `PetersonPolicy::unlock`
(`core/policy/successor_peterson.cpp`) as the threads of one peer run them on one
domain. The pin word and the record are those of `Cme.Ownership`, and so are the
procedures on them. The policy is bound. The climb and its release are single steps
here: `root` says whether this peer holds the root, and an `acquire` may fail at any
time. Between tenures of this peer the record is written by others.

History, written by the model and read by nobody. The section count of `Cme.Ownership` is
the number of a thread's Arrived answers that no unlock has unpinned. Two more counts are
kept by the caller, around the calls: `standing` counts a thread's Arrived answers less
the unlocks that have returned to it, `inside` less those that have begun. `released`
notes what a release of the root found.
-/

namespace Cme.Peterson

open Function Interleave
open Ownership (Choice Thread transferringPins)

/-- What a release of the root found: the sections that stood, those of the releasing
thread, and the record's holder. -/
structure Release where
  arrived : Nat
  own : Nat
  holder : PeerId
  deriving DecidableEq, Repr

/-- The threads of peer `me` at domain `d`. -/
structure State (n : Nat) (me : PeerId) (d : DomainId) where
  /-- Who is in the climb mutex. -/
  mutex : Option (Fin n)
  won : Bool
  root : Bool
  region : Ownership.State (Fin n)
  inside : Fin n → Nat
  standing : Fin n → Nat
  released : List Release

namespace State

variable {n : Nat} {me : PeerId} {d : DomainId} (s : State n me d)

/-- The pin word of this peer's view of the domain. -/
def pin : Nat := s.region.pin me d

/-- A thread's Arrived answers that have not been unpinned. -/
def arrived (i : Fin n) : Nat := s.region.sections me (.worker i) d

def total : Nat := ∑ i, s.arrived i

/-- The record is set whole. -/
def write (r : DomainRecord) : State n me d :=
  { s with region := { s.region with truth := update s.region.truth d r } }

end State

inductive Op where
  | tryLockClimb
  | lockClimb
  | unlockClimb
  | loadWon
  | storeWon (b : Bool)
  | acquire
  | release
  /-- An access to the words that every strategy shares. -/
  | word (o : Ownership.Op)
  /-- A lock has returned. -/
  | answered (result : OwnershipResult)
  | beginUnlock
  | returned

abbrev Op.Ret : Op → Type
  | .tryLockClimb | .loadWon | .acquire => Bool
  | .word o => Ownership.Ret o
  | _ => Unit

variable {n : Nat} {me : PeerId} {d : DomainId}

def exec (i : Fin n) :
    (o : Op) → Choice → State n me d → Option (o.Ret × State n me d)
  | .tryLockClimb, .flag b, s =>
    -- a deadline may pass at any time
    if b = false then some (false, s)
    else if s.mutex = none then some (true, { s with mutex := some i })
    else none
  | .lockClimb, _, s => if s.mutex = none then some ((), { s with mutex := some i }) else none
  | .unlockClimb, _, s => if s.mutex = some i then some ((), { s with mutex := none }) else none
  | .loadWon, _, s => some (s.won, s)
  | .storeWon b, _, s => some ((), { s with won := b })
  | .acquire, .flag b, s => some (b, if b then { s with root := true } else s)
  | .release, _, s => some ((), { s with
      root := false
      released := ⟨s.total, s.arrived i, (s.region.truth d).holder⟩ :: s.released })
  | .word o, ch, s =>
    (Ownership.access (me, .worker i) o ch s.region).map fun x => (x.1, { s with region := x.2 })
  | .answered result, _, s => some ((), if result = .arrived then { s with
      standing := update s.standing i (s.standing i + 1)
      inside := update s.inside i (s.inside i + 1) } else s)
  | .beginUnlock, _, s =>
    if 0 < s.inside i then
      some ((), { s with inside := update s.inside i (s.inside i - 1) })
    else none
  | .returned, _, s => some ((), { s with standing := update s.standing i (s.standing i - 1) })
  | _, _, _ => none

/-! ### The code -/

abbrev Proc := Prog Op Op.Ret

def act (o : Op) : Proc o.Ret := Prog.perform o

/-- A procedure that every strategy shares. -/
def words {α : Type} (p : Ownership.Proc α) : Proc α := p.lift Op.word fun _ r => r

def lock (me : PeerId) (d : DomainId) : Proc OwnershipResult := do
  if ← act .tryLockClimb then
    -- pinned under the climb lock
    words (Ownership.holdDomain d)
    if ← act .loadWon then
      -- a sibling holds the root
      words (Ownership.act (.arrive d))
      act .unlockClimb
      pure .arrived
    else if ← act .acquire then
      act (.storeWon true)
      let base ← words (Ownership.act (.getRecord d))
      words (Ownership.takeoverOwnership me d base)
      words (Ownership.act (.arrive d))
      act .unlockClimb
      pure .arrived
    else
      words (Ownership.unholdDomain d)
      act .unlockClimb
      pure .notArrived
  else pure .notArrived

/-- The root is left, and the record vacated before by the outermost unlock. -/
def leaveRoot (d : DomainId) (pins : Nat) : Proc Unit := do
  if pins = 1 then
    words (Ownership.vacateOwnership d)
  act .release
  act (.storeWon false)

def unlock (d : DomainId) : Proc Unit := do
  act .lockClimb
  let pins ← words (Ownership.act (.loadPin d false))
  if pins ≤ 1 then
    leaveRoot d pins
  words (Ownership.unpinOwnership d true)
  act .unlockClimb

/-! ### The threads -/

inductive Call where
  | lock
  | unlock

/-- A thread unlocks once for each Arrived answer. -/
def start (i : Fin n) (call : Call) (s : State n me d) :
    Option (Proc Unit) :=
  match call with
  | .lock => some (do
      let result ← lock me d
      act (.answered result))
  | .unlock =>
    if 0 < s.inside i then
      some (do
        act .beginUnlock
        unlock d
        act .returned)
    else none

/-- Another peer writes the record, in a tenure of its own. -/
inductive Env where
  | write (r : DomainRecord)

def env : Env → State n me d → Option (State n me d)
  | .write r, s => if s.root then none else some (s.write r)

def system (n : Nat) (me : PeerId) (d : DomainId) :
    System (Fin n) Op Op.Ret (State n me d) Choice Call Env where
  exec := exec
  start := start
  env := env
  kills _ _ := false

/-- No pin takes the 32-bit word to its sentinel: fewer than 2^32 - 1 locks of the domain
stand at once. -/
def belowSentinel (_ : Fin n) (o : Op) (_ : Choice) (_ : State n me d) : Bool :=
  match o with
  | .word (.casPin _ _ desired _) => decide (desired < transferringPins)
  | _ => true

/-- Before the first lock. -/
structure State.Initial (s : State n me d) : Prop where
  mutex : s.mutex = none
  won : s.won = false
  pin : s.pin = 0
  root : s.root = false
  arrived : ∀ i, s.arrived i = 0
  inside : ∀ i, s.inside i = 0
  standing : ∀ i, s.standing i = 0
  released : s.released = []

def idle (s : State n me d) : Config (Fin n) Op Op.Ret (State n me d) := ⟨s, fun _ => .done ()⟩

end Cme.Peterson
