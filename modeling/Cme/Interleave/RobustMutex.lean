import Mathlib.Logic.Function.Basic

/-!
# Interleave — robust mutexes

A mutex whose holder may die. The next acquire after the death gets the mutex
and is told, and nobody else ever is: `inherited` is what that acquire was told.
-/

namespace Interleave

/-- A mutex, and whether its holder died. -/
inductive RobustMutex (T : Type) where
  | free
  | held (t : T) (inherited : Bool)
  | abandoned
  deriving DecidableEq, Repr

namespace RobustMutex

variable {T : Type}

/-- What an acquire is told, and the mutex after it; `none` while somebody
alive holds it. -/
def acquire (m : RobustMutex T) (t : T) : Option (Bool × RobustMutex T) :=
  match m with
  | .free => some (false, .held t false)
  | .abandoned => some (true, .held t true)
  | .held _ _ => none

/-- The mutex after `t` has died. -/
def die [DecidableEq T] (m : RobustMutex T) (t : T) : RobustMutex T :=
  match m with
  | .held u inherited => if u = t then .abandoned else .held u inherited
  | m => m

/-- Who holds it, alive. -/
def holder : RobustMutex T → Option T
  | .held t _ => some t
  | _ => none

@[simp] theorem holder_free : (free : RobustMutex T).holder = none := rfl

@[simp] theorem holder_held (t : T) (inherited : Bool) : (held t inherited).holder = some t := rfl

@[simp] theorem holder_abandoned : (abandoned : RobustMutex T).holder = none := rfl

/-- An acquire finds nobody alive in the mutex, and leaves the caller in it. -/
theorem acquire_some {m m' : RobustMutex T} {t : T} {told : Bool}
    (h : m.acquire t = some (told, m')) :
    m.holder = none ∧ m' = .held t told ∧ (told = true → m = .abandoned) := by
  cases m with
  | free =>
    cases h
    exact ⟨rfl, rfl, fun hf => by cases hf⟩
  | held u inherited => cases h
  | abandoned =>
    cases h
    exact ⟨rfl, rfl, fun _ => rfl⟩

/-- A death leaves the mutexes of others alone. -/
theorem die_of_ne [DecidableEq T] {m : RobustMutex T} {t : T} (h : m.holder ≠ some t) :
    m.die t = m := by
  cases m with
  | free => rfl
  | abandoned => rfl
  | held u inherited =>
    have hne : u ≠ t := fun hu => h (by rw [hu]; rfl)
    unfold die
    simp only [if_neg hne]

theorem die_of_eq [DecidableEq T] {m : RobustMutex T} {t : T} (h : m.holder = some t) :
    m.die t = .abandoned := by
  cases m with
  | free => cases h
  | abandoned => cases h
  | held u inherited =>
    cases h
    unfold die
    simp only [if_true]

end RobustMutex

end Interleave
