import Mathlib.Logic.Function.Basic

/-!
# Interleave — one lock and what it guards

The state behind one lock: what holds while nobody has it (`Quiet`), and what holds
while the thread that has it is at a stage of its section (`Fits`). Views are the
stages; `within` tells those inside the section from those outside. As one thread at
a time is inside, a step in the section answers only for the stage of its own thread.
-/

namespace Interleave

open Function

variable {Tid S V : Type} [DecidableEq Tid]

/-- The lock's holder is the one thread inside, and the guarded state is as its stage
says, or quiet. -/
structure Monitor (holder : S → Option Tid) (within : V → Bool) (Quiet : S → Prop)
    (Fits : S → V → Prop) (s : S) (γ : Tid → V) : Prop where
  holder_iff : ∀ i, holder s = some i ↔ within (γ i) = true
  quiet : holder s = none → Quiet s
  fits : ∀ i, within (γ i) = true → Fits s (γ i)

namespace Monitor

variable {holder : S → Option Tid} {within : V → Bool} {Quiet : S → Prop} {Fits : S → V → Prop}
  {s s' : S} {γ : Tid → V} {i j : Tid} {v : V}

section

variable (h : Monitor holder within Quiet Fits s γ)

include h

omit [DecidableEq Tid] in
theorem out_of_ne (hi : within (γ i) = true)
    (hj : j ≠ i) : within (γ j) = false := by
  by_contra hw
  have hmj := (h.holder_iff j).mpr (Bool.of_not_eq_false hw)
  exact hj (Option.some.inj (hmj.symm.trans ((h.holder_iff i).mpr hi)))

omit [DecidableEq Tid] in
theorem out_of_free (hfree : holder s = none) (j : Tid) :
    within (γ j) = false := by
  by_contra hw
  have hmj := (h.holder_iff j).mpr (Bool.of_not_eq_false hw)
  cases hfree.symm.trans hmj

theorem inside (hi : within (γ i) = true)
    (hv : within v = true) (hholder : holder s' = holder s) (hfits : Fits s' v) :
    Monitor holder within Quiet Fits s' (update γ i v) := by
  have hmi := (h.holder_iff i).mpr hi
  refine ⟨fun j => ?_, fun hfree => ?_, fun j hj => ?_⟩
  · by_cases hj : j = i
    · subst hj
      rw [hholder, hmi, update_self]
      exact ⟨fun _ => hv, fun _ => rfl⟩
    · rw [hholder, update_of_ne hj]
      exact h.holder_iff j
  · cases (hholder.symm.trans hfree).symm.trans hmi
  · by_cases hji : j = i
    · subst hji
      rw [update_self]
      exact hfits
    · rw [update_of_ne hji, h.out_of_ne hi hji] at hj
      cases hj

theorem enter (hfree : holder s = none)
    (hholder : holder s' = some i) (hv : within v = true) (hfits : Quiet s → Fits s' v) :
    Monitor holder within Quiet Fits s' (update γ i v) := by
  refine ⟨fun j => ?_, fun hfree' => ?_, fun j hj => ?_⟩
  · by_cases hj : j = i
    · subst hj
      rw [update_self]
      exact ⟨fun _ => hv, fun _ => hholder⟩
    · rw [update_of_ne hj, h.out_of_free hfree j, hholder]
      exact ⟨fun hm => absurd (Option.some.inj hm).symm hj, fun hm => by cases hm⟩
  · cases hfree'.symm.trans hholder
  · by_cases hji : j = i
    · subst hji
      rw [update_self]
      exact hfits (h.quiet hfree)
    · rw [update_of_ne hji, h.out_of_free hfree j] at hj
      cases hj

theorem exit (hi : within (γ i) = true)
    (hholder : holder s' = none) (hv : within v = false) (hquiet : Quiet s') :
    Monitor holder within Quiet Fits s' (update γ i v) := by
  have hout : ∀ j, within (update γ i v j) = false := by
    intro j
    by_cases hj : j = i
    · subst hj
      rw [update_self, hv]
    · rw [update_of_ne hj, h.out_of_ne hi hj]
  refine ⟨fun j => ?_, fun _ => hquiet, fun j hj => ?_⟩
  · rw [hholder, hout j]
    exact ⟨fun hm => (nomatch hm), fun hm => (nomatch hm)⟩
  · cases (hout j).symm.trans hj

omit [DecidableEq Tid] in
/-- A step beside the section: it keeps what is guarded. -/
theorem beside {γ' : Tid → V}
    (hholder : holder s' = holder s) (hquiet : holder s = none → Quiet s → Quiet s')
    (hfits : ∀ j, holder s = some j → within (γ j) = true → Fits s (γ j) → Fits s' (γ j))
    (hviews : ∀ j, γ' j = γ j ∨ (within (γ j) = false ∧ within (γ' j) = false)) :
    Monitor holder within Quiet Fits s' γ' := by
  refine ⟨fun j => ?_, fun hfree => ?_, fun j hj => ?_⟩
  · rw [hholder, h.holder_iff j]
    rcases hviews j with heq | ⟨hout, hout'⟩
    · rw [heq]
    · rw [hout, hout']
  · rw [hholder] at hfree
    exact hquiet hfree (h.quiet hfree)
  · rcases hviews j with heq | ⟨-, hout'⟩
    · rw [heq] at hj ⊢
      exact hfits j ((h.holder_iff j).mpr hj) hj (h.fits j hj)
    · cases hout'.symm.trans hj

end

end Monitor

end Interleave
