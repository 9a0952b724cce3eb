import Cme.Config.Numbers

/-!
# Config — from a setting to an instant

`common/timing.hpp`: what a timeout read from a file becomes, a deadline of the
steady clock or a stamp of the wall clock. The range check of `get` is in the
setting's own unit and the arithmetic in nanoseconds, a million times finer: a
count is used as written exactly where the instant it leads to fits the clock
(`accepted_timeout_unspent`), and the check lets larger ones through
(`accepted_timeout_spent`).
-/

namespace Cme.Timing

open Config Config.KeyValueConfig

/-- A signed 64-bit count. Its overflow is undefined in the source; here it wraps,
as the machine's does. -/
def rep (count : Int) : Int := count.bmod (2 ^ 64)

/-- `duration_cast` from milliseconds to nanoseconds. -/
def toNanos (millis : Int) : Int := rep (millis * 1000000)

/-- When it ends, on the steady clock. -/
structure Deadline where
  ends : Int
  deriving DecidableEq, Repr

/-- The constructor, the steady clock reading `now`. -/
def Deadline.start (now timeout : Int) : Deadline := ⟨rep (now + toNanos timeout)⟩

def Deadline.remaining (deadline : Deadline) (now : Int) : Option Int :=
  let left := rep (deadline.ends - now)
  if left ≤ 0 then none else some left

def Deadline.expiredAt (deadline : Deadline) (instant : Int) : Bool :=
  decide (deadline.ends ≤ instant)

/-- The wall clock reading `stamped`. -/
def wallAfter (stamped : Nat) (ahead : Int) : Nat :=
  let span := toNanos ahead
  if span ≤ 0 then stamped else (stamped + span.toNat) % 2 ^ 64

/-- Milliseconds, counted by a signed 64-bit word. -/
def millis : NumberType := { isDuration := true, digits := 63, digits_le := by decide }

theorem rep_eq {count : Int} (hlow : -2 ^ 63 ≤ count) (hhigh : count < 2 ^ 63) :
    rep count = count := by
  unfold rep
  exact Int.bmod_eq_of_le_mul_two (by omega) (by omega)

theorem rep_lt (count : Int) : rep count < 2 ^ 63 := by
  unfold rep
  rw [Int.bmod_def]
  omega

section

variable {count : Nat} {now : Int} (hnow : 0 ≤ now) (hfits : now + count * 1000000 < 2 ^ 63)
include hnow hfits

theorem toNanos_eq : toNanos count = count * 1000000 := by
  unfold toNanos
  exact rep_eq (by omega) (by omega)

theorem start_ends : (Deadline.start now count).ends = now + count * 1000000 := by
  unfold Deadline.start
  rw [toNanos_eq hnow hfits]
  exact rep_eq (by omega) (by omega)

theorem remaining_start (hpos : 0 < count) :
    (Deadline.start now count).remaining now = some (count * 1000000 : Int) := by
  unfold Deadline.remaining
  have hleft : now + count * 1000000 - now = count * 1000000 := by omega
  rw [start_ends hnow hfits, hleft, rep_eq (by omega) (by omega)]
  exact if_neg (by omega)

theorem wallAfter_eq {stamped : Nat} (hstamped : stamped ≤ 2 ^ 62) :
    wallAfter stamped count = stamped + count * 1000000 := by
  unfold wallAfter
  rw [toNanos_eq hnow hfits]
  dsimp only
  split <;> omega

end

/-- **A timeout that fits is used as written, and no other.** Whatever count `get`
accepts and whatever the clocks read: that a positive timeout is not spent at birth
and all of it remains, that its stamp is not before the wall clock, and that no
conversion and no addition leaves its word, is to say that the instant of the
deadline is below `2 ^ 63`. -/
theorem accepted_timeout_unspent (config : KeyValueConfig) (key : Text) (fallback : Int)
    (count : Nat) (_ : config.getNumber millis key fallback = .ok count) (steady stamped : Nat)
    (_ : steady ≤ 2 ^ 62) (hstamped : stamped ≤ 2 ^ 62) :
    ((0 < count → (Deadline.start steady count).expiredAt steady = false ∧
        (Deadline.start steady count).remaining steady = some (count * 1000000 : Int)) ∧
      stamped ≤ wallAfter stamped count ∧ toNanos count = count * 1000000 ∧
      (Deadline.start steady count).ends = steady + count * 1000000 ∧
      wallAfter stamped count = stamped + count * 1000000) ↔
    steady + count * 1000000 < 2 ^ 63 := by
  constructor
  · rintro ⟨-, -, -, hends, -⟩
    dsimp only [Deadline.start] at hends
    have hrange := rep_lt (steady + toNanos count)
    omega
  · intro hfits
    have hnow : (0 : Int) ≤ steady := Int.natCast_nonneg steady
    have hword : (steady + count * 1000000 : Int) < 2 ^ 63 := by omega
    have hends := start_ends hnow hword
    have hwall := wallAfter_eq hnow hword hstamped
    refine ⟨fun hpos => ⟨?_, remaining_start hnow hword hpos⟩, ?_, toNanos_eq hnow hword, hends,
      hwall⟩
    · unfold Deadline.expiredAt
      rw [hends, decide_eq_false_iff_not]
      omega
    · omega

/-- The default of `client.lock_timeout_ms`. -/
theorem accepted_timeout_unspent_default :
    (Deadline.start 7 5000).expiredAt 7 = false ∧ wallAfter 9 5000 = 5000000009 := by
  obtain ⟨hunspent, -, -, -, hstamp⟩ := (accepted_timeout_unspent
    { entries := fun _ => none, origin := [] } "client.lock_timeout_ms".toList 5000 5000 rfl
    7 9 (by decide) (by decide)).mpr (by decide)
  exact ⟨(hunspent (by decide)).1, hstamp⟩

/-- 9223372036855 milliseconds are accepted, and more nanoseconds than 63 bits
hold: the deadline is spent when it is made. -/
theorem accepted_timeout_spent :
    (single "client.lock_timeout_ms".toList "9223372036855".toList).getNumber millis
        "client.lock_timeout_ms".toList 5000 = .ok 9223372036855 ∧
      (Deadline.start 0 9223372036855).expiredAt 0 = true ∧
      (Deadline.start 0 9223372036855).remaining 0 = none := by
  decide +kernel

end Cme.Timing
