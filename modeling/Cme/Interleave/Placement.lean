import Cme.Interleave.System

/-!
# Interleave — things that are each in one place

A set of things and a set of spots, each of which holds at most one thing. A
placement says that the things of the set are those that are on a spot, and
that no thing is on two. What is put, moved and taken one spot at a time stays
placed.
-/

namespace Interleave

open Function

variable {X D : Type}

/-- The things in `up` are on one spot each, and nothing else is on a spot. -/
structure Placement (up : D → Prop) (spot : X → Option D) : Prop where
  up_of : ∀ x d, spot x = some d → up d
  one : ∀ x y d, spot x = some d → spot y = some d → x = y
  found : ∀ d, up d → ∃ x, spot x = some d

namespace Placement

variable [DecidableEq X] {up up' : D → Prop} {spot spot' : X → Option D} {x y z : X} {d e : D}

omit [DecidableEq X] in
theorem empty : Placement (fun _ : D => False) (fun _ : X => none) :=
  ⟨fun _ _ h => absurd h (by simp), fun _ _ _ h => absurd h (by simp), fun _ h => absurd h id⟩

omit [DecidableEq X] in
theorem congr (h : Placement up spot) (hup : ∀ e, up' e ↔ up e) : Placement up' spot :=
  ⟨fun x d hx => (hup d).mpr (h.up_of x d hx), h.one, fun d hd => h.found d ((hup d).mp hd)⟩

omit [DecidableEq X] in
theorem of_eq (h : Placement up spot) (heq : spot' = spot) : Placement up spot' := heq ▸ h

/-- A thing found after one was put is that one, or it was there before. -/
theorem put_cases (hz : update spot x (some d) z = some e) :
    (z = x ∧ e = d) ∨ (z ≠ x ∧ spot z = some e) := by
  by_cases hzx : z = x
  · subst hzx
    rw [update_self] at hz
    exact .inl ⟨rfl, (Option.some.inj hz).symm⟩
  · rw [update_of_ne hzx] at hz
    exact .inr ⟨hzx, hz⟩

theorem put (h : Placement up spot) (hd : ¬ up d) (hx : spot x = none) :
    Placement (fun e => up e ∨ e = d) (update spot x (some d)) := by
  refine ⟨fun z e hz => ?_, fun z z' e hz hz' => ?_, fun e he => ?_⟩
  · rcases put_cases hz with ⟨-, he⟩ | ⟨-, hz⟩
    · exact .inr he
    · exact .inl (h.up_of z e hz)
  · rcases put_cases hz with ⟨hzx, he⟩ | ⟨-, hold⟩ <;>
      rcases put_cases hz' with ⟨hzx', he'⟩ | ⟨-, hold'⟩
    · exact hzx.trans hzx'.symm
    · exact absurd (he ▸ h.up_of z' e hold') hd
    · exact absurd (he' ▸ h.up_of z e hold) hd
    · exact h.one z z' e hold hold'
  · rcases he with he | rfl
    · obtain ⟨z, hz⟩ := h.found e he
      have hzx : z ≠ x := by
        rintro rfl
        rw [hx] at hz
        cases hz
      exact ⟨z, by rw [update_of_ne hzx]; exact hz⟩
    · exact ⟨x, update_self ..⟩

theorem take (h : Placement up spot) (hx : spot x = some d) :
    Placement (fun e => up e ∧ e ≠ d) (update spot x none) := by
  have hcases : ∀ z e, update spot x none z = some e → z ≠ x ∧ spot z = some e :=
    fun z e hz => of_update hz (by simp)
  refine ⟨fun z e hz => ?_, fun z z' e hz hz' => ?_, fun e he => ?_⟩
  · obtain ⟨hzx, hz⟩ := hcases z e hz
    refine ⟨h.up_of z e hz, ?_⟩
    rintro rfl
    exact hzx (h.one z x e hz hx)
  · exact h.one z z' e (hcases z e hz).2 (hcases z' e hz').2
  · obtain ⟨z, hz⟩ := h.found e he.1
    have hzx : z ≠ x := by
      rintro rfl
      rw [hx] at hz
      exact he.2 (Option.some.inj hz).symm
    exact ⟨z, by rw [update_of_ne hzx]; exact hz⟩

theorem move (h : Placement up spot) (hx : spot x = some d) (hy : spot y = none) :
    Placement up (update (update spot x none) y (some d)) := by
  have hyx : y ≠ x := by
    rintro rfl
    rw [hx] at hy
    cases hy
  have hput := (h.take hx).put (d := d) (x := y) (fun hd => hd.2 rfl)
    (by rw [update_of_ne hyx]; exact hy)
  refine hput.congr fun e => ⟨fun he => ?_, fun he => ?_⟩
  · by_cases hed : e = d
    · exact .inr hed
    · exact .inl ⟨he, hed⟩
  · rcases he with he | rfl
    · exact he.1
    · exact h.up_of x e hx

end Placement

end Interleave
