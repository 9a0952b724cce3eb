import Cme.Interleave.Amid

/-!
# Interleave — a thread left to itself

`System.Alone M i p s a s'`: thread `i` runs `p` from `s` to its end without a
step of anybody else, and answers `a` in `s'`. Nobody at all leaves the whole state
alone, so the rules of `amid` reason about such a thread too.
-/

namespace Interleave

open Function

variable {Tid Op : Type} {Ret : Op → Type} {S Choice Call Env α : Type}

/-- The runs of one thread in which nobody else moves. -/
inductive System.Alone (M : System Tid Op Ret S Choice Call Env) (i : Tid) :
    Prog Op Ret α → S → α → S → Prop where
  | done (a : α) (s : S) : Alone M i (.done a) s a s
  | call {o : Op} {k : Ret o → Prog Op Ret α} {ch : Choice} {s s₁ s₂ : S} {r : Ret o} {a : α} :
      M.exec i o ch s = some (r, s₁) → Alone M i (k r) s₁ a s₂ → Alone M i (.call o k) s a s₂

variable {M : System Tid Op Ret S Choice Call Env} {i : Tid}

/-- Replay such a run with the answers of its operations. -/
def System.play (M : System Tid Op Ret S Choice Call Env) (i : Tid) :
    Prog Op Ret α → List Choice → S → Option (α × S)
  | .done a, [], s => some (a, s)
  | .call o k, ch :: rest, s => (M.exec i o ch s).bind fun rs => M.play i (k rs.1) rest rs.2
  | _, _, _ => none

theorem System.Alone.of_play {p : Prog Op Ret α} {l : List Choice} {s s' : S} {a : α}
    (h : M.play i p l s = some (a, s')) : M.Alone i p s a s' := by
  induction p generalizing l s with
  | done b =>
    cases l with
    | nil =>
      obtain ⟨rfl, rfl⟩ := outcome_eq h
      exact .done b s
    | cons ch rest => simp [System.play] at h
  | call o k ih =>
    cases l with
    | nil => simp [System.play] at h
    | cons ch rest =>
      rw [System.play, Option.bind_eq_some_iff] at h
      obtain ⟨⟨r, s₁⟩, hx, hrest⟩ := h
      exact .call hx (ih r hrest)

/-- A replay that passes a test is a run that does. -/
theorem System.exists_alone_of_play {p : Prog Op Ret α} {l : List Choice} {s : S}
    {test : α × S → Bool} (h : (M.play i p l s).any test = true) :
    ∃ a s', M.Alone i p s a s' ∧ test (a, s') = true := by
  obtain ⟨⟨a, s'⟩, hplay, htest⟩ := (Option.any_eq_true _ _).mp h
  exact ⟨a, s', .of_play hplay, htest⟩

theorem System.Alone.among {V : Type} (view : S → V) {p : Prog Op Ret α} {s s' : S} {a : α}
    (h : M.Alone i p s a s') :
    ∃ l, M.Among view i p s l a s' := by
  induction h with
  | done a s => exact ⟨[], .done rfl⟩
  | call hx _ ih =>
    obtain ⟨l, hrest⟩ := ih
    exact ⟨_ :: l, .call rfl hx hrest⟩

/-- Thread `i` alone, from the state the predicate is asked of. -/
abbrev solo (M : System Tid Op Ret S Choice Call Env) (i : Tid) (p : Prog Op Ret α)
    (Q : α → S → Prop) (s : S) : Prop :=
  amid M id (fun _ => True) i p Q s

variable {β : Type} {Q : α → S → Prop} {s : S}

theorem System.Alone.of_solo {p : Prog Op Ret α} {s' : S} {a : α} (h : M.Alone i p s a s')
    (hp : solo M i p Q s) : Q a s' := by
  obtain ⟨l, hrun⟩ := h.among id
  exact (hrun.of_amid hp).2

theorem solo_pure {a : α} : solo M i (pure a) Q s ↔ Q a s := Iff.rfl

theorem solo.perform {o : Op} {Q : Ret o → S → Prop}
    (h : ∀ ch r s', M.exec i o ch s = some (r, s') → Q r s') :
    solo M i (Prog.perform o) Q s := by
  rintro s₁ rfl ch r s' hx
  exact ⟨trivial, h ch r s' hx⟩

theorem solo_step {o : Op} {Q : Ret o → S → Prop} {r : Ret o} {u : S}
    (hx : ∀ ch, M.exec i o ch s = some (r, u)) (h : Q r u) : solo M i (Prog.perform o) Q s := by
  refine .perform fun ch r₁ s₁ hx₁ => ?_
  obtain ⟨rfl, rfl⟩ := outcome_eq ((hx ch).symm.trans hx₁)
  exact h

theorem solo_next {o : Op} {f : Ret o → Prog Op Ret α} {r : Ret o} {u : S}
    (hx : ∀ ch, M.exec i o ch s = some (r, u)) (h : solo M i (f r) Q u) :
    solo M i (Prog.perform o >>= f) Q s := .bind (solo_step hx h)

/-- Thread `i` alone comes to the end of `p`, and whatever its operations
answer on the way, it ends in `Q`. -/
def settles (M : System Tid Op Ret S Choice Call Env) (i : Tid) :
    Prog Op Ret α → (α → S → Prop) → S → Prop
  | .done a, Q, s => Q a s
  | .call o k, Q, s =>
    (∃ ch r s', M.exec i o ch s = some (r, s')) ∧
      ∀ ch r s', M.exec i o ch s = some (r, s') → settles M i (k r) Q s'

section Settles

theorem settles_pure {a : α} : settles M i (pure a) Q s ↔ Q a s := Iff.rfl

variable {p : Prog Op Ret α}

theorem settles_bind {f : α → Prog Op Ret β} {Q : β → S → Prop} :
    settles M i (p >>= f) Q s ↔ settles M i p (fun a => settles M i (f a) Q) s := by
  induction p generalizing s with
  | done a => exact Iff.rfl
  | call o k ih =>
    exact and_congr_right fun _ => forall_congr' fun ch => forall_congr' fun r =>
      forall_congr' fun s' => imp_congr_right fun _ => ih r

theorem settles.bind {f : α → Prog Op Ret β} {Q : β → S → Prop}
    (h : settles M i p (fun a => settles M i (f a) Q) s) : settles M i (p >>= f) Q s :=
  settles_bind.mpr h

theorem settles_mono {Q' : α → S → Prop} (h : settles M i p Q s) (hQ : ∀ a s, Q a s → Q' a s) :
    settles M i p Q' s := by
  induction p generalizing s with
  | done a => exact hQ a s h
  | call o k ih => exact ⟨h.1, fun ch r s' hx => ih r (h.2 ch r s' hx)⟩

/-- An operation with one outcome, whatever is answered. -/
theorem settles_step [Inhabited Choice] {o : Op} {Q : Ret o → S → Prop} {r : Ret o} {u : S}
    (hx : ∀ ch, M.exec i o ch s = some (r, u)) (h : Q r u) : settles M i (Prog.perform o) Q s := by
  refine ⟨⟨default, r, u, hx default⟩, fun ch r₁ s₁ hx₁ => ?_⟩
  obtain ⟨rfl, rfl⟩ := outcome_eq ((hx ch).symm.trans hx₁)
  exact h

theorem settles_then {c : Prop} [Decidable c] {p q : Prog Op Ret α} (hc : c)
    (h : settles M i p Q s) : settles M i (if c then p else q) Q s := by
  rwa [if_pos hc]

theorem settles_else {c : Prop} [Decidable c] {p q : Prog Op Ret α} (hc : ¬ c)
    (h : settles M i q Q s) : settles M i (if c then p else q) Q s := by
  rwa [if_neg hc]

/-- Such a run exists, and every such run ends as said. -/
theorem settles.exists_alone (h : settles M i p Q s) : ∃ a s', M.Alone i p s a s' := by
  induction p generalizing s with
  | done a => exact ⟨a, s, .done a s⟩
  | call o k ih =>
    obtain ⟨⟨ch, r, s₁, hx⟩, hk⟩ := h
    obtain ⟨a, s₂, hrest⟩ := ih r (hk ch r s₁ hx)
    exact ⟨a, s₂, .call hx hrest⟩

theorem settles.of_alone {s' : S} {a : α} (h : settles M i p Q s) (hrun : M.Alone i p s a s') :
    Q a s' := by
  induction hrun with
  | done a s => exact h
  | call hx _ ih => exact ih (h.2 _ _ _ hx)

end Settles

variable [DecidableEq Tid]

/-- What a thread can run alone it can run. -/
theorem System.Alone.reachable {p : Prog Op Ret Unit} {s s' : S} {a : Unit}
    (h : M.Alone i p s a s') {c₀ c : Config Tid Op Ret S} (hc : M.Reachable c₀ c)
    (hp : c.threads i = p) (hs : c.shared = s) :
    M.Reachable c₀ ⟨s', update c.threads i (.done a)⟩ := by
  induction h generalizing c with
  | done a s =>
    rw [← hs, ← hp, update_eq_self]
    exact hc
  | @call o k ch s s₁ s₂ r a hx _ ih =>
    subst hs
    have hnext : M.next (.exec i ch) c = some ⟨s₁, update c.threads i (k r)⟩ := by
      simp only [System.next, hp, hx, Option.map_some]
    have hrest := ih (.step _ hc hnext) (update_self ..) rfl
    rwa [update_idem] at hrest

/-- A thread makes a call and comes to its end. -/
theorem System.Reachable.call {c₀ c : Config Tid Op Ret S} (hc : M.Reachable c₀ c)
    (call : Call) (l : List Choice) {p : Prog Op Ret Unit} {s' : S} (hi : c.threads i = .done ())
    (hstart : M.start i call c.shared = some p) (hplay : M.play i p l c.shared = some ((), s')) :
    M.Reachable c₀ ⟨s', c.threads⟩ := by
  have hnext : M.next (.start i call) c = some { c with threads := update c.threads i p } := by
    simp only [System.next, hi, hstart, Option.map_some]
  have hrun := (System.Alone.of_play hplay).reachable (.step _ hc hnext) (update_self ..) rfl
  rwa [update_idem, ← hi, update_eq_self] at hrun

end Interleave
