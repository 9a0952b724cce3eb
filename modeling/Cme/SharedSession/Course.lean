import Cme.Interleave.Stage
import Cme.SharedSession.Tier

/-!
# SharedSession — the course of a call

Where a thread is in `lock`, `tryLock` or `~Guard`, and the operation that may come
next there. Only the thread with the tier's mutex touches `held` and `batch`, so a spot
also says what the thread has found in them.
-/

namespace Cme.SharedSession

open Interleave Prog

inductive Spot where
  | out
  | waiting
  | failed
  | entered
  | inside
  /-- It has found the ownership held, -/
  | owned
  /-- and read `batch`. -/
  | counted (batch : Nat)
  /-- Its guard is within the cap. -/
  | due
  | adding (batch : Nat)
  | ready
  /-- `batch` is 0, -/
  | blank
  /-- and the ownership is given back. -/
  | vacant
  | guarding
  | keeping
  | dropping
  | dropped

def follow : Spot → (o : Op) → Option (o.Ret → Spot)
  | .out, .addWaiter => some fun _ => .waiting
  | .waiting, .lockMutex => some fun _ => .entered
  | .waiting, .tryLockMutex => some fun entered => if entered then .entered else .failed
  | .failed, .subtractWaiter => some fun _ => .out
  | .entered, .subtractWaiter => some fun _ => .inside
  | .inside, .loadHeld => some fun held => if held then .owned else .inside
  | .owned, .loadBatch => some .counted
  | .counted batch, .loadCap => some fun cap => if cap ≤ batch then .inside else .due
  | .inside, .storeBatch 0 => some fun _ => .blank
  | .blank, .resetHeld => some fun _ => .vacant
  | .vacant, .expired | .vacant, .sessionLock => some fun _ => .vacant
  | .vacant, .storeHeld => some fun _ => .due
  | .due, .loadBatch => some .adding
  | .adding batch, .storeBatch next => if next = batch + 1 then some fun _ => .ready else none
  | .ready, .returnGuard => some fun _ => .guarding
  | .guarding, .loadWaiters => some fun waiters => if waiters = 0 then .dropping else .keeping
  | .dropping, .resetHeld => some fun _ => .dropped
  | .dropped, .storeBatch 0 => some fun _ => .dropped
  | .vacant, .unlockMutex | .keeping, .unlockMutex | .dropped, .unlockMutex => some fun _ => .out
  | _, _ => none

/-- A call ends with a guard, or with nothing. -/
def Spot.Rest (v : Spot) : Prop := v = .out ∨ v = .guarding

theorem staged_enterCohort : enterCohort.Staged follow (fun _ => Spot.Rest) .due :=
  .next _ rfl fun _ => .next _ (if_pos rfl) fun _ => .perform _ rfl fun _ => .inr rfl

/-- The session is asked for the domain. -/
theorem staged_acquire : (do
      if ← act .sessionLock then
        act .storeHeld
        enterCohort
      else act .unlockMutex).Staged follow (fun _ => Spot.Rest) .vacant := by
  refine .next _ rfl fun obtained => ?_
  cases obtained with
  | false => exact .perform _ rfl fun _ => .inl rfl
  | true => exact .next _ rfl fun _ => staged_enterCohort

/-- The tier goes on with what it has, or gives it up. -/
theorem staged_turn {p : Proc Unit} (hp : p.Staged follow (fun _ => Spot.Rest) .vacant) : (do
      if ← mustAcquire then
        act (.storeBatch 0)
        act .resetHeld
        p
      else enterCohort).Staged follow (fun _ => Spot.Rest) .inside := by
  have hgive : (do
        act (.storeBatch 0)
        act .resetHeld
        p).Staged follow (fun _ => Spot.Rest) .inside :=
    .next _ rfl fun _ => .next _ rfl fun _ => hp
  refine .next _ rfl fun held => ?_
  cases held with
  | false => exact hgive
  | true =>
    refine .next _ rfl fun batch => .next _ rfl fun cap => ?_
    by_cases hfull : cap ≤ batch
    · simp only [hfull, if_true, decide_true]
      exact hgive
    · simp only [hfull, if_false, decide_false, Bool.false_eq_true]
      exact staged_enterCohort

theorem staged_lock : lock.Staged follow (fun _ => Spot.Rest) .out :=
  .next _ rfl fun _ => .next _ rfl fun _ => .next _ rfl fun _ => staged_turn staged_acquire

theorem staged_tryLock : tryLock.Staged follow (fun _ => Spot.Rest) .out := by
  refine .next _ rfl fun _ => .next _ rfl fun entered => ?_
  cases entered with
  | false => exact .next _ rfl fun _ => .inl rfl
  | true =>
    refine .next _ rfl fun _ => staged_turn (.next _ rfl fun expired => ?_)
    cases expired with
    | false => exact staged_acquire
    | true => exact .perform _ rfl fun _ => .inl rfl

theorem staged_destroyGuard : destroyGuard.Staged follow (fun _ => Spot.Rest) .guarding := by
  refine .bind (Q := fun _ v => v = .keeping ∨ v = .dropped) ?_ fun _ v hv => ?_
  · refine .next _ rfl fun waiters => ?_
    by_cases hnone : waiters = 0
    · simp only [hnone, if_true]
      exact .next _ rfl fun _ => .perform _ rfl fun _ => .inr rfl
    · simp only [hnone, if_false]
      exact .pure (.inl rfl)
  · rcases hv with rfl | rfl
    all_goals exact .perform _ rfl fun _ => .inl rfl

/-- A call goes through the spots from where its thread rests. -/
theorem staged_start {n : Nat} {i : Fin n} {call : Call} {s : State n} {p : Proc Unit} {v : Spot}
    (hp : start i call s = some p) (hv : v.Rest) (hguards : s.stage i = .guarding ↔ v = .guarding) :
    p.Staged follow (fun _ => Spot.Rest) v := by
  cases call
  all_goals
    obtain ⟨hstage, hp⟩ := Option.ite_none_right_eq_some.mp hp
    obtain rfl := Option.some.inj hp
    rw [hstage] at hguards
    rcases hv with rfl | rfl
  case lock.inl => exact staged_lock
  case tryLock.inl => exact staged_tryLock
  case destroyGuard.inr => exact staged_destroyGuard
  all_goals simp at hguards

end Cme.SharedSession
