import Cme.Interleave.Outline

/-!
# Interleave — the stages of a thread's code

Some invariants turn on where a thread is in its code. `δ v o` says whether code at
stage `v` may come to the operation `o`, and which stage an answer leads to;
`Staged δ Q v p` says that `p` goes through the stages this way, whatever it is
answered, and ends as `Q` says. It is a fact about the code alone: a thread at a
stage that allows one operation only has that operation next.

An invariant over the state and the stages that every operation allowed at a stage
keeps holds throughout (`staged_reachable`). Where the views of an outline are stages,
or what is left of them, `wp_of_staged` gives the code its outline.

`refine h p` puts `h o` in the place of every operation `o` of `p`, for a model in
which what one level calls an operation is code of the level below.
-/

namespace Interleave

namespace Prog

variable {Op Op' : Type} {Ret : Op → Type} {Ret' : Op' → Type} {α β σ : Type}

/-- Every operation replaced by code. -/
def refine (h : (o : Op) → Prog Op' Ret' (Ret o)) : Prog Op Ret α → Prog Op' Ret' α
  | done a => done a
  | call o k => h o >>= fun r => (k r).refine h

theorem bind_assoc (p : Prog Op Ret α) (f : α → Prog Op Ret β) (g : β → Prog Op Ret σ) :
    p >>= f >>= g = p >>= fun a => f a >>= g := by
  induction p with
  | done a => rfl
  | call o k ih => exact congrArg (call o) (funext ih)

/-- Code is refined piece by piece. -/
theorem refine_bind (h : (o : Op) → Prog Op' Ret' (Ret o)) (p : Prog Op Ret α)
    (f : α → Prog Op Ret β) :
    (p >>= f).refine h = p.refine h >>= fun a => (f a).refine h := by
  induction p with
  | done a => rfl
  | call o k ih =>
    refine .trans ?_ (bind_assoc ..).symm
    exact congrArg (h o >>= ·) (funext ih)

/-- The code goes through the stages as `δ` says, and ends as `Q` says. -/
def Staged (δ : σ → (o : Op) → Option (Ret o → σ)) (Q : α → σ → Prop) :
    σ → Prog Op Ret α → Prop
  | v, done a => Q a v
  | v, call o k => ∃ f, δ v o = some f ∧ ∀ r, Staged δ Q (f r) (k r)

variable {δ : σ → (o : Op) → Option (Ret o → σ)} {v : σ}

variable {Q : α → σ → Prop}

theorem Staged.pure {a : α} (h : Q a v) : Staged δ Q v (Pure.pure a : Prog Op Ret α) := h

theorem Staged.perform {o : Op} {Q : Ret o → σ → Prop} (f : Ret o → σ) (hδ : δ v o = some f)
    (h : ∀ r, Q r (f r)) : Staged δ Q v (Prog.perform o) := ⟨f, hδ, h⟩

variable {p : Prog Op Ret α}

theorem Staged.bind {g : α → Prog Op Ret β} {Z : β → σ → Prop} (h : Staged δ Q v p)
    (hg : ∀ a v, Q a v → Staged δ Z v (g a)) : Staged δ Z v (p >>= g) := by
  induction p generalizing v with
  | done a => exact hg a v h
  | call o k ih =>
    obtain ⟨f, hf, hk⟩ := h
    exact ⟨f, hf, fun r => ih r (hk r)⟩

theorem Staged.mono {Q Q' : α → σ → Prop} (h : Staged δ Q v p) (hQ : ∀ a v, Q a v → Q' a v) :
    Staged δ Q' v p := by
  induction p generalizing v with
  | done a => exact hQ a v h
  | call o k ih =>
    obtain ⟨f, hf, hk⟩ := h
    exact ⟨f, hf, fun r => ih r (hk r)⟩

theorem Staged.next {o : Op} {g : Ret o → Prog Op Ret β} {Z : β → σ → Prop} (f : Ret o → σ)
    (hδ : δ v o = some f) (hg : ∀ r, Staged δ Z (f r) (g r)) :
    Staged δ Z v (Prog.perform o >>= g) := ⟨f, hδ, hg⟩

theorem Staged.ite {c : Prop} [Decidable c] {p q : Prog Op Ret α} (hp : c → Staged δ Q v p)
    (hq : ¬ c → Staged δ Q v q) : Staged δ Q v (if c then p else q) := by
  split
  · exact hp ‹_›
  · exact hq ‹_›

/-- Code all of whose operations lead from stages in `J` to stages in `J`. -/
theorem Staged.of_only {P : Op → Prop} {J : σ → Prop}
    (hP : ∀ o, P o → ∀ v, J v → ∃ f, δ v o = some f ∧ ∀ r, J (f r)) (hp : p.Only P) (hv : J v) :
    Staged δ (fun _ v => J v) v p := by
  induction p generalizing v with
  | done a => exact hv
  | call o k ih =>
    obtain ⟨f, hf, hJ⟩ := hP o hp.1 v hv
    exact ⟨f, hf, fun r => ih r (hp.2 r) (hJ r)⟩

end Prog

open Function Prog

variable {Tid Op : Type} {Ret : Op → Type} {S Choice Call Env σ : Type} [DecidableEq Tid]
variable {M : System Tid Op Ret S Choice Call Env} {c₀ c : Config Tid Op Ret S}

/-- Code that goes through the stages keeps what every operation at a stage keeps. The
views of the outline are what `g` makes of the stages. -/
theorem wp_of_staged {V α : Type} {I : S → (Tid → V) → Prop} {i : Tid} {g : σ → V}
    {δ : σ → (o : Op) → Option (Ret o → σ)} {p : Prog Op Ret α} {Q : α → V → Prop} {v : σ}
    (hstep : ∀ s γ v o f ch r s', I s γ → γ i = g v → δ v o = some f →
      M.exec i o ch s = some (r, s') → I s' (update γ i (g (f r))))
    (hp : p.Staged δ (fun a v => Q a (g v)) v) : wp M I i p Q (g v) := by
  induction p generalizing v with
  | done a => exact hp
  | call o k ih =>
    intro s γ hI hγ ch r s' hx
    obtain ⟨f, hf, hk⟩ := hp
    exact ⟨g (f r), hstep s γ v o f ch r s' hI hγ hf hx, ih r (hk r)⟩

section Reachable

variable {δ : Tid → σ → (o : Op) → Option (Ret o → σ)} {rest : σ} {I : S → (Tid → σ) → Prop}
variable (hdone : ∀ i, c₀.threads i = .done ()) (hinit : I c₀.shared fun _ => rest)
variable (hstart : ∀ i call s p, M.start i call s = some p →
  p.Staged (δ i) (fun _ v => v = rest) rest)
variable (hstep : ∀ i s γ o f ch r s', I s γ → δ i (γ i) o = some f →
  M.exec i o ch s = some (r, s') → I s' (update γ i (f r)))
include hdone hinit hstart hstep

/-- Every thread is at a stage of its code, and state and stages are as `I` says. A
thread that a step outside the threads ends is back at rest. -/
theorem staged_reachable_of_kills
    (henv : ∀ e s γ s', I s γ → M.env e s = some s' →
      I s' fun i => if M.kills e i then rest else γ i) (h : M.Reachable c₀ c) :
    ∃ γ, I c.shared γ ∧ ∀ i, (c.threads i).Staged (δ i) (fun _ v => v = rest) (γ i) := by
  induction h with
  | refl =>
    refine ⟨fun _ => rest, hinit, fun i => ?_⟩
    rw [hdone i]
    rfl
  | step a _ hnext ih =>
    obtain ⟨γ, hI, hstaged⟩ := ih
    obtain ⟨i, ch, o, k, r, s', rfl, hi, hx, rfl⟩ | ⟨i, call, p, rfl, hi, hp, rfl⟩ |
      ⟨e, s', rfl, he, rfl⟩ := System.next_cases hnext
    · have hcode := hstaged i
      rw [hi] at hcode
      obtain ⟨f, hf, hk⟩ := hcode
      refine ⟨update γ i (f r), hstep i _ γ o f ch r s' hI hf hx, fun j => ?_⟩
      by_cases hj : j = i
      · subst hj
        simpa using hk r
      · simpa [update_of_ne hj] using hstaged j
    · have hrest := hstaged i
      rw [hi] at hrest
      refine ⟨γ, hI, fun j => ?_⟩
      by_cases hj : j = i
      · subst hj
        have hstart' := hstart j call _ p hp
        rw [show γ j = rest from hrest]
        simpa using hstart'
      · simpa [update_of_ne hj] using hstaged j
    · refine ⟨_, henv e _ γ s' hI he, fun j => ?_⟩
      by_cases hj : M.kills e j = true
      · simp only [hj, if_true]
        rfl
      · simpa [hj] using hstaged j

/-- The same where nothing ends a thread. -/
theorem staged_reachable (henv : ∀ e s γ s', I s γ → M.env e s = some s' → I s' γ)
    (hkills : ∀ e i, M.kills e i = false) (h : M.Reachable c₀ c) :
    ∃ γ, I c.shared γ ∧ ∀ i, (c.threads i).Staged (δ i) (fun _ v => v = rest) (γ i) := by
  refine staged_reachable_of_kills hdone hinit hstart hstep ?_ h
  intro e s γ s' hI he
  simpa only [hkills, Bool.false_eq_true, if_false] using henv e s γ s' hI he

end Reachable

end Interleave
