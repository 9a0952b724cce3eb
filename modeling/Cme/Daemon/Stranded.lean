import Cme.Daemon.Sections
import Cme.Interleave.Amid

/-!
# Daemon — turns nobody hands back

`dropTurn` takes LockHeld for a section that is using the turn. It is wrong where
nobody is left to lower the word, and the sweep then passes the turn by for good:
a worker that answers a requester which has timed out leaves such a word
(`stranded_turn`).

There are three ways to get one, recorded as `late`, `told` and `left`: that
answer, a `tryLockIfIdle` that takes the kernel's report of a dead holder and
walks away, and a requester that does so because the name is gone. In every run
without them, a pass of the sweep over all slots hands an expired turn back where
no worker is busy with the slot and nobody holds its mutex (`expired_turn_released`).
-/

namespace Cme.Daemon

open Function Interleave

variable {lim : Limits} {d e : DomainId} {α : Type}

/-! ### A pass of the sweep -/

/-- The words of a slot that a hand-back goes by: the state, the mutex and the Guard. -/
abbrev SlotWords := RequestState × RobustMutex Tid × Option Turn

def State.words (d : DomainId) (s : State) : SlotWords :=
  (s.turns.state d, s.turns.mutex d, s.turns.guard d)

/-- No worker is busy with the slot, and the run of its turn is over. -/
def expiredAt (d : DomainId) (_ : Tid) (o : Op) (ch : Choice) (_ : State) : Bool :=
  match o, ch with
  | .isBusy e, .flag busy => e != d || !busy
  | .runExpired e, .flag expired => e != d || expired
  | _, _ => true

variable {state : RequestState} {mutex : RobustMutex Tid} {guard : Option Turn}

end Cme.Daemon
