import Mathlib.Data.List.Nodup
import Mathlib.Data.Nat.ModEq

/-!
# Interleave — walks round a ring

The positions below a bound, taken as a ring. A walk from one of them visits
every other one once, and the first it meets of a set of stops is that set's
next stop. From distinct stops the next stops are distinct (`next_inj`), so each
stop has at most one other before it; and between a member of a part of the
stops and a stop outside it there is a place where the part ends
(`exists_next_notMem`).
-/

namespace Ring

/-- The other positions, in the order they are met. -/
def walk (start bound : Nat) : List Nat :=
  (List.range (bound - 1)).map fun step => (start + (step + 1)) % bound

/-- All positions, from `start` round. -/
def round (start bound : Nat) : List Nat :=
  (List.range bound).map fun step => (start + step) % bound

/-- The first stop a walk meets. -/
def next (stop : Nat → Bool) (start bound : Nat) : Option Nat := (walk start bound).find? stop

variable {stop : Nat → Bool} {bound p q t : Nat}

/-- Two starts that meet in one place after equal steps are one. -/
theorem eq_of_mod_eq (hp : p < bound) (hq : q < bound) {k : Nat}
    (h : (p + k) % bound = (q + k) % bound) : p = q := by
  have hmod : p ≡ q [MOD bound] := Nat.ModEq.add_right_cancel' k h
  exact Nat.ModEq.eq_of_lt_of_lt hmod hp hq

theorem mem_walk (hp : p < bound) : q ∈ walk p bound ↔ q < bound ∧ q ≠ p := by
  simp only [walk, List.mem_map, List.mem_range]
  constructor
  · rintro ⟨step, hstep, rfl⟩
    refine ⟨Nat.mod_lt _ (by omega), fun heq => ?_⟩
    -- a walk of fewer than `bound` steps is not back yet
    by_cases hwrap : p + (step + 1) < bound
    · rw [Nat.mod_eq_of_lt hwrap] at heq
      omega
    · rw [Nat.mod_eq_sub_mod (by omega), Nat.mod_eq_of_lt (by omega)] at heq
      omega
  · rintro ⟨hq, hne⟩
    rcases Nat.lt_or_gt_of_ne hne with hlt | hgt
    · refine ⟨q + bound - p - 1, by omega, ?_⟩
      have hsum : p + (q + bound - p - 1 + 1) = q + bound := by omega
      rw [hsum, Nat.add_mod_right, Nat.mod_eq_of_lt hq]
    · refine ⟨q - p - 1, by omega, ?_⟩
      have hsum : p + (q - p - 1 + 1) = q := by omega
      rw [hsum, Nat.mod_eq_of_lt hq]

theorem nodup_walk (hp : p < bound) : (walk p bound).Nodup := by
  refine List.Nodup.map_on (fun j hj k hk hjk => ?_) List.nodup_range
  rw [List.mem_range] at hj hk
  have hmod : j + 1 ≡ k + 1 [MOD bound] := Nat.ModEq.add_left_cancel' p hjk
  have heq := Nat.ModEq.eq_of_lt_of_lt hmod (by omega) (by omega)
  omega

theorem mem_round {start : Nat} : q ∈ round start bound ↔ q < bound := by
  simp only [round, List.mem_map, List.mem_range]
  constructor
  · rintro ⟨step, hstep, rfl⟩
    exact Nat.mod_lt _ (by omega)
  · intro hq
    have hlt : start % bound < bound := Nat.mod_lt _ (by omega)
    refine ⟨(q + (bound - start % bound)) % bound, Nat.mod_lt _ (by omega), ?_⟩
    -- the step makes up what `start` has left of its last turn
    have hturn : start + (q + (bound - start % bound)) = q + bound * (start / bound + 1) := by
      have hdiv := Nat.div_add_mod start bound
      rw [Nat.mul_add, Nat.mul_one]
      omega
    rw [Nat.add_mod_mod, hturn, Nat.add_mul_mod_self_left, Nat.mod_eq_of_lt hq]

theorem nodup_round (start bound : Nat) : (round start bound).Nodup := by
  refine List.Nodup.map_on (fun j hj k hk hjk => ?_) List.nodup_range
  rw [List.mem_range] at hj hk
  have hmod : j ≡ k [MOD bound] := Nat.ModEq.add_left_cancel' start hjk
  exact Nat.ModEq.eq_of_lt_of_lt hmod hj hk

theorem next_eq_some (h : next stop p bound = some t) :
    ∃ k < bound - 1, t = (p + (k + 1)) % bound ∧ stop t = true ∧
      ∀ j < k, stop ((p + (j + 1)) % bound) = false := by
  rw [next, walk, List.find?_map, Option.map_eq_some_iff] at h
  obtain ⟨k, hk, rfl⟩ := h
  rw [List.find?_range_eq_some] at hk
  obtain ⟨hstop, hmem, hnone⟩ := hk
  refine ⟨k, List.mem_range.mp hmem, rfl, hstop, fun j hj => ?_⟩
  simpa using hnone j hj

/-- A walk that has a stop ahead finds one at least as near. -/
theorem exists_next {k : Nat} (hk : k < bound - 1) (hstop : stop ((p + (k + 1)) % bound) = true) :
    ∃ j ≤ k, next stop p bound = some ((p + (j + 1)) % bound) ∧
      stop ((p + (j + 1)) % bound) = true := by
  have hmem : (p + (k + 1)) % bound ∈ walk p bound := by
    rw [walk, List.mem_map]
    exact ⟨k, List.mem_range.mpr hk, rfl⟩
  obtain ⟨t, ht⟩ : ∃ t, next stop p bound = some t := by
    rw [← Option.isSome_iff_exists, next, List.find?_isSome]
    exact ⟨_, hmem, hstop⟩
  obtain ⟨j, -, rfl, hj, hnone⟩ := next_eq_some ht
  refine ⟨j, ?_, ht, hj⟩
  by_contra hlt
  have hfalse := hnone k (by omega)
  rw [hstop] at hfalse
  exact absurd hfalse (by decide)

/-- **The next stops of distinct stops are distinct.** -/
theorem next_inj (hp : p < bound) (hq : q < bound) (hsp : stop p = true) (hsq : stop q = true)
    (h₁ : next stop p bound = some t) (h₂ : next stop q bound = some t) : p = q := by
  obtain ⟨k, hk, htk, -, hnk⟩ := next_eq_some h₁
  obtain ⟨l, hl, htl, -, hnl⟩ := next_eq_some h₂
  -- the start with the longer way would have met the other one first
  have longer : ∀ {a b i j : Nat}, b < bound → stop b = true → i < j →
      (a + (j + 1)) % bound = (b + (i + 1)) % bound →
      (∀ m < j, stop ((a + (m + 1)) % bound) = false) → False := by
    intro a b i j hb hsb hij heq hnone
    have hsplit : a + (j + 1) = a + (j - i - 1 + 1) + (i + 1) := by omega
    rw [hsplit] at heq
    have hmod : a + (j - i - 1 + 1) ≡ b [MOD bound] := Nat.ModEq.add_right_cancel' (i + 1) heq
    have hmet : (a + (j - i - 1 + 1)) % bound = b := by
      rw [hmod, Nat.mod_eq_of_lt hb]
    have hfalse := hnone (j - i - 1) (by omega)
    rw [hmet, hsb] at hfalse
    exact absurd hfalse (by decide)
  rcases Nat.lt_trichotomy k l with hlt | rfl | hgt
  · exact (longer hp hsp hlt (htl.symm.trans htk) hnl).elim
  · exact eq_of_mod_eq hp hq (htk.symm.trans htl)
  · exact (longer hq hsq hgt (htk.symm.trans htl) hnk).elim

/-- **A part of the stops ends before a stop outside it.** -/
theorem exists_next_notMem {part : Nat → Prop} (hpart : ∀ p, part p → p < bound)
    (hp : part p) (hd : q < bound) (hstop : stop q = true) (hq : ¬ part q) :
    ∃ p', part p' ∧ ∃ t, next stop p' bound = some t ∧ stop t = true ∧ ¬ part t := by
  -- by induction on the way from a member to `q`: the next stop is outside the
  -- part, or a member with a shorter way
  have ahead : ∀ n p, part p → ∀ k ≤ n, k < bound - 1 → (p + (k + 1)) % bound = q →
      ∃ p', part p' ∧ ∃ t, next stop p' bound = some t ∧ stop t = true ∧ ¬ part t := by
    intro n
    induction n with
    | zero =>
      intro p hp k hk hlt heq
      obtain rfl : k = 0 := by omega
      rw [← heq] at hstop
      obtain ⟨j, hj, hnext, hs⟩ := exists_next hlt hstop
      obtain rfl : j = 0 := by omega
      rw [heq] at hnext hs
      exact ⟨p, hp, q, hnext, hs, hq⟩
    | succ n ih =>
      intro p hp k hk hlt heq
      have hahead : stop ((p + (k + 1)) % bound) = true := by rw [heq, hstop]
      obtain ⟨j, hj, hnext, hs⟩ := exists_next hlt hahead
      by_cases hin : part ((p + (j + 1)) % bound)
      · have hjk : j ≠ k := by
          rintro rfl
          rw [heq] at hin
          exact hq hin
        refine ih _ hin (k - j - 1) (by omega) (by omega) ?_
        have hsum : p + (j + 1) + (k - j - 1 + 1) = p + (k + 1) := by omega
        rw [Nat.mod_add_mod, hsum, heq]
      · exact ⟨p, hp, _, hnext, hs, hin⟩
  have hlt := hpart p hp
  have hne : q ≠ p := by
    rintro rfl
    exact hq hp
  have hmem := (mem_walk hlt).mpr ⟨hd, hne⟩
  rw [walk, List.mem_map] at hmem
  obtain ⟨k, hk, heq⟩ := hmem
  exact ahead k p hp k le_rfl (List.mem_range.mp hk) heq

end Ring
