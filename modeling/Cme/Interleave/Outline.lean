import Cme.Interleave.System

/-!
# Interleave — proof outlines

A rule for proving that every reachable configuration satisfies an invariant,
one procedure at a time.

Each thread is given a *view*: what its own past tells about the shared state
(it holds this latch, it has read that word). A view stands for the program
points that matter to the argument, and is never part of the program. The
invariant `Inv s γ` relates the shared state to the views of all threads at
once; that is where one thread's knowledge is protected from the steps of the
others.

`Outline.wp M Inv i p Q v` says that thread `i` with view `v` may run `p`:
each of its operations, taken in any state that satisfies the invariant,
leaves the invariant true for some new view, and at the end the result and
the view satisfy `Q`. It is defined by recursion on `p`, so a procedure's
specification is one `wp` statement and its callers use that statement.

`Outline.reachable` is the soundness of the rule.
-/

namespace Interleave

open Function

variable {Tid Op : Type} {Ret : Op → Type} {S Choice Call Env V : Type} [DecidableEq Tid]

/-- Thread `i`, whose view is `v`, keeps the invariant while it runs the
program, and ends with a result and a view in `Q`. -/
def wp (M : System Tid Op Ret S Choice Call Env) (Inv : S → (Tid → V) → Prop) (i : Tid)
    {α : Type} : Prog Op Ret α → (α → V → Prop) → V → Prop
  | .done a, Q, v => Q a v
  | .call o k, Q, v => ∀ s γ, Inv s γ → γ i = v → ∀ ch r s', M.exec i o ch s = some (r, s') →
      ∃ v', Inv s' (update γ i v') ∧ wp M Inv i (k r) Q v'

section Rules

variable {M : System Tid Op Ret S Choice Call Env} {Inv : S → (Tid → V) → Prop} {i : Tid}
variable {α β : Type}

@[simp] theorem wp_done (a : α) (Q : α → V → Prop) (v : V) :
    wp M Inv i (.done a) Q v ↔ Q a v := Iff.rfl

@[simp] theorem wp_pure (a : α) (Q : α → V → Prop) (v : V) :
    wp M Inv i (pure a) Q v ↔ Q a v := Iff.rfl

variable {p : Prog Op Ret α}

theorem wp_mono {Q Q' : α → V → Prop} (hQ : ∀ a v, Q a v → Q' a v) {v : V} (h : wp M Inv i p Q v) :
    wp M Inv i p Q' v := by
  induction p generalizing v with
  | done a => exact hQ a v h
  | call o k ih =>
    intro s γ hInv hv ch r s' hx
    obtain ⟨v', hInv', hk⟩ := h s γ hInv hv ch r s' hx
    exact ⟨v', hInv', ih r hk⟩

@[simp] theorem wp_bind (p : Prog Op Ret α) (f : α → Prog Op Ret β) (Q : β → V → Prop) (v : V) :
    wp M Inv i (p >>= f) Q v ↔ wp M Inv i p (fun a => wp M Inv i (f a) Q) v := by
  induction p generalizing v with
  | done a => exact Iff.rfl
  | call o k ih =>
    constructor
    · intro h s γ hInv hv ch r s' hx
      obtain ⟨v', hInv', hk⟩ := h s γ hInv hv ch r s' hx
      exact ⟨v', hInv', (ih r v').mp hk⟩
    · intro h s γ hInv hv ch r s' hx
      obtain ⟨v', hInv', hk⟩ := h s γ hInv hv ch r s' hx
      exact ⟨v', hInv', (ih r v').mpr hk⟩

theorem wp.bind {f : α → Prog Op Ret β} {Q : β → V → Prop} {v : V}
    (h : wp M Inv i p (fun a => wp M Inv i (f a) Q) v) : wp M Inv i (p >>= f) Q v :=
  (wp_bind ..).mpr h

theorem wp_then {f : α → Prog Op Ret β} {Q : α → V → Prop} {Z : β → V → Prop} {v : V}
    (hp : wp M Inv i p Q v) (hf : ∀ a u, Q a u → wp M Inv i (f a) Z u) :
    wp M Inv i (p >>= f) Z v :=
  (wp_bind ..).mpr (wp_mono hf hp)

/-- Where the answer of `p` says which view it leaves, the rest goes on from there. -/
theorem wp_seq {f : α → Prog Op Ret β} {g : α → V} {Q : β → V → Prop} {v : V}
    (hp : wp M Inv i p (fun a u => u = g a) v) (hf : ∀ a, wp M Inv i (f a) Q (g a)) :
    wp M Inv i (p >>= f) Q v :=
  wp_then hp fun a _ hu => hu ▸ hf a

/-- Code all of whose operations go unnoticed leaves the view alone. -/
theorem wp_only {P : Op → Prop} (hp : p.Only P)
    (hframe : ∀ o, P o → ∀ s γ ch r s', Inv s γ → M.exec i o ch s = some (r, s') → Inv s' γ)
    {Q : α → V → Prop} {v : V} (h : ∀ a, Q a v) : wp M Inv i p Q v := by
  induction p with
  | done a => exact h a
  | call o k ih =>
    intro s γ hInv hv ch r s' hx
    refine ⟨v, ?_, ih r (hp.2 r)⟩
    rw [← hv, update_eq_self]
    exact hframe o hp.1 s γ ch r s' hInv hx

/-- A loop of at most `n` turns keeps what each unanswered turn keeps. -/
theorem wp_attempt {body : Prog Op Ret (Option α)} {I : V → Prop} {Q : Option α → V → Prop}
    (hbody : ∀ v, I v → wp M Inv i body (fun a v => if a.isSome then Q a v else I v) v)
    (hnone : ∀ v, I v → Q none v) (n : Nat) {v : V} (hv : I v) :
    wp M Inv i (Prog.attempt body n) Q v := by
  induction n generalizing v with
  | zero => exact hnone v hv
  | succ n ih =>
    rw [Prog.attempt, wp_bind]
    refine wp_mono (fun a v' h => ?_) (hbody v hv)
    cases a with
    | none => exact ih h
    | some a => exact h

end Rules

/-- The invariant holds between procedures: every call may start in it, and
the steps outside the threads keep it. -/
structure Outline (M : System Tid Op Ret S Choice Call Env) (Inv : S → (Tid → V) → Prop)
    (Rest : Tid → V → Prop) : Prop where
  start : ∀ i call s γ p, Inv s γ → Rest i (γ i) → M.start i call s = some p →
    ∃ v, Inv s (update γ i v) ∧ wp M Inv i p (fun _ => Rest i) v
  env : ∀ e s γ s', Inv s γ → M.env e s = some s' →
    ∃ γ', Inv s' γ' ∧ ∀ i, if M.kills e i then Rest i (γ' i) else γ' i = γ i

/-- What an outline keeps true of a configuration. -/
def Outlined (M : System Tid Op Ret S Choice Call Env) (Inv : S → (Tid → V) → Prop)
    (Rest : Tid → V → Prop) (c : Config Tid Op Ret S) : Prop :=
  ∃ γ, Inv c.shared γ ∧ ∀ i, wp M Inv i (c.threads i) (fun _ => Rest i) (γ i)

variable {M : System Tid Op Ret S Choice Call Env} {Inv : S → (Tid → V) → Prop}
variable {Rest : Tid → V → Prop} {c₀ c c' : Config Tid Op Ret S}

theorem Outline.next (H : Outline M Inv Rest) {a : Action Tid Choice Call Env}
    (hc : Outlined M Inv Rest c) (h : M.next a c = some c') : Outlined M Inv Rest c' := by
  obtain ⟨γ, hInv, hwp⟩ := hc
  obtain ⟨i, ch, o, k, r, s', rfl, hi, hx, rfl⟩ | ⟨i, call, p, rfl, hi, hp, rfl⟩ |
    ⟨e, s', rfl, he, rfl⟩ := System.next_cases h
  · -- thread `i` takes its next operation: only its own view moves
    have hwi := hwp i
    rw [hi] at hwi
    obtain ⟨v', hInv', hk⟩ := hwi _ γ hInv rfl ch r s' hx
    refine ⟨update γ i v', hInv', fun j => ?_⟩
    by_cases hj : j = i
    · subst hj
      simpa using hk
    · simpa [update_of_ne hj] using hwp j
  · have hwi := hwp i
    rw [hi] at hwi
    obtain ⟨v, hInv', hv⟩ := H.start i call _ γ p hInv hwi hp
    refine ⟨update γ i v, hInv', fun j => ?_⟩
    by_cases hj : j = i
    · subst hj
      simpa using hv
    · simpa [update_of_ne hj] using hwp j
  · obtain ⟨γ', hInv', hγ⟩ := H.env e _ γ s' hInv he
    refine ⟨γ', hInv', fun j => ?_⟩
    have hj := hγ j
    by_cases hk : M.kills e j = true
    · simp only [hk, if_true] at hj ⊢
      exact hj
    · simp only [hk, if_false, Bool.false_eq_true] at hj ⊢
      rw [hj]
      exact hwp j

/-- **Soundness.** The invariant of an outline holds in every reachable
configuration. -/
theorem Outline.reachable (H : Outline M Inv Rest) (h₀ : Outlined M Inv Rest c₀)
    (h : M.Reachable c₀ c) : Outlined M Inv Rest c :=
  h.invariant h₀ fun _ _ _ hc hn => H.next hc hn

/-- All threads idle: the invariant is all there is to show. -/
theorem outlined_of_idle {γ : Tid → V} (hidle : ∀ i, c.threads i = .done ())
    (hInv : Inv c.shared γ) (hrest : ∀ i, Rest i (γ i)) : Outlined M Inv Rest c :=
  ⟨γ, hInv, fun i => by rw [hidle i]; exact hrest i⟩

end Interleave
