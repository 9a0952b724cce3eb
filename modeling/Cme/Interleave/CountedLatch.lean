import Mathlib.Algebra.BigOperators.Group.Finset.Piecewise
import Mathlib.Algebra.Order.BigOperators.Group.Finset

/-!
# Interleave — a counter that doubles as a latch

One word counts how many pins a set of owners has taken, and a reserved value
`top` of the same word says that one owner has latched it: a latch is taken by
exchanging 0 for `top`, so only while there is no pin, and a pin is taken by
exchanging `w` for `w + 1` for some `w` other than `top`, so only while there
is no latch. A count that climbs to `top` reads as a latch nobody holds and
stays, which loses progress but no exclusion.

An owner may also hold the word *still*: it relies on nobody moving the word
from 0, without writing it. What makes the others comply is up to the program.
-/

namespace Interleave

open Function

/-- The two ways to have the word to oneself. -/
inductive Grip where
  | latch
  | still
  deriving DecidableEq

variable {ι : Type} [Fintype ι]

/-- The word `w` agrees with what each owner has: `n` pins, or a grip `g`. -/
structure CountedLatch (top w : Nat) (n : ι → Nat) (g : ι → Option Grip) : Prop where
  word : (∀ t, g t ≠ some .latch) → w = top ∨ w = ∑ t, n t
  latch : ∀ t, g t = some .latch → w = top
  still : ∀ t, g t = some .still → w = 0
  alone : ∀ t, g t ≠ none → ∑ t, n t = 0
  one : ∀ t t', g t ≠ none → g t' ≠ none → t = t'

variable [DecidableEq ι] {top w : Nat} {n : ι → Nat} {g : ι → Option Grip} {t : ι}

theorem sum_update_add (n : ι → Nat) (t : ι) (k : Nat) :
    (∑ t', update n t k t') + n t = (∑ t', n t') + k := by
  have hnew := Finset.sum_update_of_mem (Finset.mem_univ t) n k
  have hold := Finset.add_sum_erase Finset.univ n (Finset.mem_univ t)
  rw [hnew, Finset.sdiff_singleton_eq_erase]
  omega

theorem grip_eq_none {x : Option Grip} (hl : x ≠ some .latch) (hs : x ≠ some .still) :
    x = none := by
  rcases x with _ | _ | _
  · rfl
  · exact absurd rfl hl
  · exact absurd rfl hs

omit [Fintype ι] in
/-- Where nobody has a grip, the one who takes it is the only one. -/
theorem eq_of_update_grip (hfree : ∀ t', g t' = none) {x : Option Grip} {a : ι}
    (ha : update g t x a ≠ none) : a = t := by
  by_contra hne
  exact ha (by rw [update_of_ne hne, hfree])

namespace CountedLatch

/-! An owner that comes to what it had changes nothing. -/

theorem same_grip (h : CountedLatch top w n g) {x : Option Grip} (hx : x = g t) :
    CountedLatch top w n (update g t x) := by
  rwa [hx, update_eq_self]

theorem same_count (h : CountedLatch top w n g) {k : Nat} (hk : k = n t) :
    CountedLatch top w (update n t k) g := by
  rwa [hk, update_eq_self]

theorem same (h : CountedLatch top w n g) {k : Nat} {x : Option Grip} (hk : k = n t)
    (hx : x = g t) : CountedLatch top w (update n t k) (update g t x) :=
  (h.same_grip hx).same_count hk

omit [DecidableEq ι] in
/-- Whoever has a pin keeps every grip away. -/
theorem grip_none (h : CountedLatch top w n g) (hn : 0 < n t) (t' : ι) : g t' = none := by
  by_contra hg
  have hsum := h.alone t' hg
  have hle := Finset.single_le_sum (fun i _ => Nat.zero_le (n i)) (Finset.mem_univ t)
  omega

theorem pin (h : CountedLatch top w n g) (hw : w ≠ top) (hstill : ∀ t', g t' ≠ some .still) :
    CountedLatch top (w + 1) (update n t (n t + 1)) g := by
  have hfree : ∀ t', g t' = none := fun t' =>
    grip_eq_none (fun hg => hw (h.latch t' hg)) (hstill t')
  have hcount : w = ∑ t', n t' := (h.word (by simp [hfree])).resolve_left hw
  have hsum := sum_update_add n t (n t + 1)
  refine ⟨fun _ => .inr (by omega), ?_, ?_, ?_, ?_⟩ <;> simp [hfree]

theorem unpin (h : CountedLatch top w n g) (hw : w ≠ top) (hn : 0 < n t) :
    CountedLatch top (w - 1) (update n t (n t - 1)) g := by
  have hfree := h.grip_none hn
  have hcount : w = ∑ t', n t' := (h.word (by simp [hfree])).resolve_left hw
  have hsum := sum_update_add n t (n t - 1)
  refine ⟨fun _ => .inr (by omega), ?_, ?_, ?_, ?_⟩ <;> simp [hfree]

/-- A pin is given up while the word reads 0 or `top`: it was lost in a count
that ran into `top`, and the word stays. -/
theorem forget (h : CountedLatch top w n g) (hw : w = 0 ∨ w = top) (hn : 0 < n t) :
    CountedLatch top w (update n t (n t - 1)) g := by
  have hfree := h.grip_none hn
  have hle := Finset.single_le_sum (fun i _ => Nat.zero_le (n i)) (Finset.mem_univ t)
  have htop : w = top := by
    rcases h.word (by simp [hfree]) with hw' | hw' <;> rcases hw with hw | hw <;> omega
  refine ⟨fun _ => .inl htop, ?_, ?_, ?_, ?_⟩ <;> simp [hfree]

omit [DecidableEq ι] in
/-- While the word reads 0 and nobody holds it still, nobody has anything. -/
theorem of_zero (htop : top ≠ 0) (h : CountedLatch top 0 n g)
    (hstill : ∀ t', g t' ≠ some .still) : (∀ t', g t' = none) ∧ ∑ t', n t' = 0 := by
  have hno : ∀ t', g t' ≠ some .latch := fun t' hg => htop (h.latch t' hg).symm
  refine ⟨fun t' => grip_eq_none (hno t') (hstill t'), ?_⟩
  rcases h.word hno with hw | hw <;> omega

theorem take (htop : top ≠ 0) (h : CountedLatch top 0 n g) (hstill : ∀ t', g t' ≠ some .still) :
    CountedLatch top top n (update g t (some .latch)) := by
  obtain ⟨hfree, hsum⟩ := h.of_zero htop hstill
  refine ⟨fun _ => .inl rfl, fun _ _ => rfl, ?_, fun _ _ => hsum, ?_⟩
  · intro t' ht'
    obtain rfl := eq_of_update_grip hfree (ht'.trans_ne (Option.some_ne_none _))
    simp at ht'
  · intro t' t'' h' h''
    rw [eq_of_update_grip hfree h', eq_of_update_grip hfree h'']

/-- Whoever finds the word at 0 may hold it still. -/
theorem hold (htop : top ≠ 0) (h : CountedLatch top 0 n g) (hstill : ∀ t', g t' ≠ some .still) :
    CountedLatch top 0 n (update g t (some .still)) := by
  obtain ⟨hfree, hsum⟩ := h.of_zero htop hstill
  refine ⟨fun _ => .inr hsum.symm, ?_, fun _ _ => rfl, fun _ _ => hsum, ?_⟩
  · intro t' ht'
    obtain rfl := eq_of_update_grip hfree (ht'.trans_ne (Option.some_ne_none _))
    simp at ht'
  · intro t' t'' h' h''
    rw [eq_of_update_grip hfree h', eq_of_update_grip hfree h'']

theorem release (h : CountedLatch top w n g) (hg : g t ≠ none) :
    CountedLatch top 0 n (update g t none) := by
  have hsum := h.alone t hg
  have hnone : ∀ t', update g t none t' = none := by
    intro t'
    by_cases he : t' = t
    · subst he
      simp
    · rw [update_of_ne he]
      by_contra hne
      exact he (h.one t' t hne hg)
  refine ⟨fun _ => .inr hsum.symm, ?_, ?_, ?_, ?_⟩ <;> simp [hnone]

omit [DecidableEq ι] in
theorem init (hn : ∀ t', n t' = 0) (hg : ∀ t', g t' = none) : CountedLatch top 0 n g := by
  refine ⟨fun _ => .inr ?_, ?_, ?_, ?_, ?_⟩ <;> simp [hn, hg]

end CountedLatch

end Interleave
