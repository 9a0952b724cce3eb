import Cme.Interleave.System

/-!
# Interleave — a thread among others that leave some words alone

Between two steps of a thread the others may do anything to the state that does
not change what `view` shows of it: `System.Among` are the runs of one thread
under that assumption, with the states its own steps lead to. `amid` says of
every such run that each of these states satisfies `K` and that the run ends in
`Q`; what it needs to know of a state is its view.
-/

namespace Interleave

variable {Tid Op : Type} {Ret : Op → Type} {S V Choice Call Env α β : Type}

/-- The runs of one thread among others that leave the view alone. -/
inductive System.Among (M : System Tid Op Ret S Choice Call Env) (view : S → V) (i : Tid) :
    Prog Op Ret α → S → List S → α → S → Prop where
  | done {a : α} {s s' : S} : view s' = view s → Among M view i (.done a) s [] a s'
  | call {o : Op} {k : Ret o → Prog Op Ret α} {ch : Choice} {s s₁ s₂ s' : S} {r : Ret o} {a : α}
      {l : List S} : view s₁ = view s → M.exec i o ch s₁ = some (r, s₂) →
      Among M view i (k r) s₂ l a s' → Among M view i (.call o k) s (s₂ :: l) a s'

/-- The first operation of such a run, and the run after it. -/
theorem System.Among.next {M : System Tid Op Ret S Choice Call Env} {view : S → V} {i : Tid} {o : Op}
    {f : Ret o → Prog Op Ret α} {s s' : S} {l : List S} {a : α}
    (h : M.Among view i (Prog.perform o >>= f) s l a s') : ∃ s₁ ch r s₂ l', l = s₂ :: l' ∧
      view s₁ = view s ∧ M.exec i o ch s₁ = some (r, s₂) ∧ M.Among view i (f r) s₂ l' a s' := by
  cases h with
  | call hview hx hrest => exact ⟨_, _, _, _, _, rfl, hview, hx, hrest⟩

/-- From the view `v` thread `i` keeps `K` and ends in `Q`. -/
def amid (M : System Tid Op Ret S Choice Call Env) (view : S → V) (K : V → Prop) (i : Tid) :
    Prog Op Ret α → (α → V → Prop) → V → Prop
  | .done a, Q, v => Q a v
  | .call o k, Q, v => ∀ s, view s = v → ∀ ch r s', M.exec i o ch s = some (r, s') →
      K (view s') ∧ amid M view K i (k r) Q (view s')

variable {M : System Tid Op Ret S Choice Call Env} {view : S → V} {K : V → Prop} {i : Tid}
variable {p : Prog Op Ret α} {Q : α → V → Prop} {v : V}

theorem amid.bind {f : α → Prog Op Ret β} {Q : β → V → Prop}
    (h : amid M view K i p (fun a => amid M view K i (f a) Q) v) :
    amid M view K i (p >>= f) Q v := by
  induction p generalizing v with
  | done a => exact h
  | call o k ih =>
    intro s hs ch r s' hx
    obtain ⟨hK, hk⟩ := h s hs ch r s' hx
    exact ⟨hK, ih r hk⟩

theorem amid_mono {Q' : α → V → Prop} (h : amid M view K i p Q v) (hQ : ∀ a v, Q a v → Q' a v) :
    amid M view K i p Q' v := by
  induction p generalizing v with
  | done a => exact hQ a v h
  | call o k ih =>
    intro s hs ch r s' hx
    obtain ⟨hK, hk⟩ := h s hs ch r s' hx
    exact ⟨hK, ih r hk⟩

theorem amid.perform {o : Op} {Q : Ret o → V → Prop}
    (h : ∀ s, view s = v → ∀ ch r s', M.exec i o ch s = some (r, s') →
      K (view s') ∧ Q r (view s')) :
    amid M view K i (Prog.perform o) Q v := h

/-- An operation whose answer and whose effect on the view are known. -/
theorem amid_step {o : Op} {Q : Ret o → V → Prop} {r : Ret o} {u : V}
    (hx : ∀ s, view s = v → ∀ ch r' s', M.exec i o ch s = some (r', s') → r' = r ∧ view s' = u)
    (hK : K u) (h : Q r u) : amid M view K i (Prog.perform o) Q v := by
  intro s hs ch r' s' hx'
  obtain ⟨rfl, hu⟩ := hx s hs ch r' s' hx'
  rw [hu]
  exact ⟨hK, h⟩

theorem amid_then {c : Prop} [Decidable c] {p q : Prog Op Ret α} (hc : c)
    (h : amid M view K i p Q v) : amid M view K i (if c then p else q) Q v := by
  rwa [if_pos hc]

theorem amid_else {c : Prop} [Decidable c] {p q : Prog Op Ret α} (hc : ¬ c)
    (h : amid M view K i q Q v) : amid M view K i (if c then p else q) Q v := by
  rwa [if_neg hc]

/-- Code that never changes the view keeps what is said of it, whatever it answers. -/
theorem amid_only {T : Op → Prop} (hp : p.Only T)
    (hT : ∀ o, T o → ∀ s ch r s', M.exec i o ch s = some (r, s') → view s' = view s) (hK : K v)
    (h : ∀ a, Q a v) : amid M view K i p Q v := by
  induction p with
  | done a => exact h a
  | call o k ih =>
    intro s hs ch r s' hx
    have hview : view s' = v := (hT o hp.1 s ch r s' hx).trans hs
    rw [hview]
    exact ⟨hK, ih r (hp.2 r)⟩

/-- Fewer steps are possible in a restricted system. -/
theorem amid.restrict {ok : Tid → Op → Choice → S → Bool} (h : amid M view K i p Q v) :
    amid (M.restrict ok) view K i p Q v := by
  induction p generalizing v with
  | done a => exact h
  | call o k ih =>
    intro s hs ch r s' hx
    obtain ⟨hK, hk⟩ := h s hs ch r s' (System.restrict_exec.mp hx).2
    exact ⟨hK, ih r hk⟩

theorem System.Among.of_restrict {ok : Tid → Op → Choice → S → Bool} {s s' : S} {l : List S} {a : α}
    (h : (M.restrict ok).Among view i p s l a s') : M.Among view i p s l a s' := by
  induction h with
  | done hview => exact .done hview
  | call hview hx _ ih => exact .call hview (System.restrict_exec.mp hx).2 ih

/-- What is said of a view holds of the runs from a state that shows it. -/
theorem System.Among.of_amid {s s' : S} {l : List S} {a : α} (h : amid M view K i p Q (view s))
    (hrun : M.Among view i p s l a s') : (∀ x ∈ l, K (view x)) ∧ Q a (view s') := by
  induction hrun with
  | done hview => exact ⟨by simp, hview ▸ h⟩
  | call hview hx _ ih =>
    obtain ⟨hK, hk⟩ := h _ hview _ _ _ hx
    obtain ⟨hrest, hQ⟩ := ih hk
    exact ⟨List.forall_mem_cons.mpr ⟨hK, hrest⟩, hQ⟩

/-- A thread whose operations can take place once the others have made way comes to its
end among them. -/
theorem System.exists_among (hp : p.Only fun o => ∀ s, ∃ s₁ ch r s', view s₁ = view s ∧
      M.exec i o ch s₁ = some (r, s')) (s : S) : ∃ l a s', M.Among view i p s l a s' := by
  induction p generalizing s with
  | done a => exact ⟨[], a, s, .done rfl⟩
  | call o k ih =>
    obtain ⟨s₁, ch, r, s₂, hview, hx⟩ := hp.1 s
    obtain ⟨l, a, s', hrest⟩ := ih r (hp.2 r) s₂
    exact ⟨s₂ :: l, a, s', .call hview hx hrest⟩

end Interleave
