import Cme.Interleave.Outline

/-!
# Interleave — what a thread knows

Rely and guarantee on top of proof outlines. A thread's view is a *note*: its
mode, which the invariant sees, and a fact about the shared state, which only
the thread itself has a use for. `Pact.rely i v` says what the steps of the
others may do to the state while thread `i` is in mode `v`. A note's fact must
survive all of that (`Stable`), and whoever takes a step answers for what every
other thread relies on.

`triple K M i P p Q`: thread `i` with a note that entails `P` may run `p`, and
its note then entails `Q` of the result. Facts are kept and dropped freely along
the way (`triple.mono`); an operation that does no more than the others may do
keeps every fact there is (`triple_passive`), so that a procedure's
specification need not repeat what its caller knows.
-/

namespace Interleave

open Function

variable {Tid Op : Type} {Ret : Op → Type} {S Choice Call Env V : Type} [DecidableEq Tid]

/-- The steps `R` keep the fact. -/
def Stable (R : S → S → Prop) (F : S → Prop) : Prop := ∀ s s', R s s' → F s → F s'

variable {R : S → S → Prop}

theorem Stable.and {F G : S → Prop} (hF : Stable R F) (hG : Stable R G) :
    Stable R fun s => F s ∧ G s :=
  fun s s' h hs => ⟨hF s s' h hs.1, hG s s' h hs.2⟩

theorem Stable.const (p : Prop) : Stable R fun _ => p := fun _ _ _ h => h

theorem Stable.imp {p : Prop} {F : S → Prop} (hF : p → Stable R F) : Stable R fun s => p → F s :=
  fun s s' h hs hp => hF hp s s' h (hs hp)

theorem Stable.all {ι : Sort*} {F : ι → S → Prop} (hF : ∀ x, Stable R (F x)) :
    Stable R fun s => ∀ x, F x s :=
  fun s s' h hs x => hF x s s' h (hs x)

/-- A thread's mode, and what it knows. -/
structure Note (S V : Type) where
  mode : V
  fact : S → Prop

/-- An invariant over the state and all modes, and what each thread relies on. -/
structure Pact (Tid S V : Type) where
  inv : S → (Tid → V) → Prop
  rely : Tid → V → S → S → Prop

/-- The invariant holds, and so does every note, now and after the others' steps. -/
structure Pact.Noted (K : Pact Tid S V) (s : S) (γ : Tid → Note S V) : Prop where
  inv : K.inv s fun i => (γ i).mode
  fact : ∀ i, (γ i).fact s
  stable : ∀ i, Stable (K.rely i (γ i).mode) (γ i).fact

/-- The note entails `P`, wherever the invariant holds. -/
def Pact.Entails (K : Pact Tid S V) (i : Tid) (n : Note S V) (P : V → S → Prop) : Prop :=
  ∀ s μ, K.inv s μ → μ i = n.mode → n.fact s → P n.mode s

variable {K : Pact Tid S V} {M : System Tid Op Ret S Choice Call Env} {i : Tid}

omit [DecidableEq Tid] in
/-- What a note of the moment entails holds. -/
theorem Pact.Noted.entailed {s : S} {γ : Tid → Note S V} (h : K.Noted s γ) {P : V → S → Prop}
    (hP : K.Entails i (γ i) P) : P (γ i).mode s :=
  hP s _ h.inv rfl (h.fact i)

theorem modes_update (γ : Tid → Note S V) (i : Tid) (n : Note S V) :
    (fun j => (update γ i n j).mode) =
      update (fun j => (γ j).mode) i n.mode := by
  funext j
  by_cases hj : j = i
  · subst hj
    simp
  · simp [hj]

/-- One thread changes its note; what the others know survives the step. -/
theorem Pact.Noted.move {s s' : S} {γ : Tid → Note S V} (h : K.Noted s γ) {n : Note S V}
    (hinv : K.inv s' (update (fun j => (γ j).mode) i n.mode)) (hn : n.fact s')
    (hstable : Stable (K.rely i n.mode) n.fact) (hrely : ∀ j, j ≠ i → K.rely j (γ j).mode s s') :
    K.Noted s' (update γ i n) where
  inv := by rwa [modes_update]
  fact j := by
    by_cases hj : j = i
    · subst hj
      simpa using hn
    · rw [update_of_ne hj]
      exact h.stable j s s' (hrely j hj) (h.fact j)
  stable j := by
    by_cases hj : j = i
    · subst hj
      simpa using hstable
    · rw [update_of_ne hj]
      exact h.stable j

/-- Thread `i`, knowing `P`, keeps the pact while it runs `p`, and then knows `Q`. -/
def triple (K : Pact Tid S V) (M : System Tid Op Ret S Choice Call Env) (i : Tid) {α : Type}
    (P : V → S → Prop) (p : Prog Op Ret α) (Q : α → V → S → Prop) : Prop :=
  ∀ n : Note S V, K.Entails i n P → wp M K.Noted i p (fun a n' => K.Entails i n' (Q a)) n

section Rules

variable {α β : Type} {P P' : V → S → Prop} {Q Q' : α → V → S → Prop}

protected theorem triple.pure {a : α} (h : ∀ v s, P v s → Q a v s) : triple K M i P (pure a) Q :=
  fun n hn s μ hs hμ hf => h n.mode s (hn s μ hs hμ hf)

variable {p : Prog Op Ret α}

section

variable (h : triple K M i P p Q)

include h

/-- The rule of consequence; the invariant may be used on the way. -/
theorem triple.conseq (hP : ∀ s μ, K.inv s μ → P' (μ i) s → P (μ i) s)
    (hQ : ∀ a s μ, K.inv s μ → Q a (μ i) s → Q' a (μ i) s) : triple K M i P' p Q' := by
  intro n hn
  refine wp_mono (fun a n' hn' s μ hs hμ hf => ?_) (h n fun s μ hs hμ hf => ?_)
  · rw [← hμ]
    exact hQ a s μ hs (hμ ▸ hn' s μ hs hμ hf)
  · rw [← hμ]
    exact hP s μ hs (hμ ▸ hn s μ hs hμ hf)

theorem triple.mono (hP : ∀ v s, P' v s → P v s) (hQ : ∀ a v s, Q a v s → Q' a v s) :
    triple K M i P' p Q' :=
  h.conseq (fun _ _ _ => hP _ _) fun _ _ _ _ => hQ _ _ _

theorem triple.pre (hP : ∀ v s, P' v s → P v s) :
    triple K M i P' p Q := h.mono hP fun _ _ _ hQ => hQ

theorem triple.post (hQ : ∀ a v s, Q a v s → Q' a v s) :
    triple K M i P p Q' := h.mono (fun _ _ hP => hP) hQ

theorem triple.bind {f : α → Prog Op Ret β} {Z : β → V → S → Prop}
    (hf : ∀ a, triple K M i (Q a) (f a) Z) : triple K M i P (p >>= f) Z := by
  intro n hn
  exact .bind <| wp_mono (fun a n' hn' => hf a n' hn') (h n hn)

end

/-- A thread that knows the impossible may run anything. -/
theorem triple_absurd (h : ∀ v s, P v s → False) : triple K M i P p Q := by
  intro n hn
  cases p with
  | done a => exact fun s μ hs hμ hf => (h _ s (hn s μ hs hμ hf)).elim
  | call o k =>
    rintro s γ hγ rfl
    exact (h _ s (hγ.entailed hn)).elim

/-- A branch on something the code has read. -/
protected theorem triple.ite {c : Prop} [Decidable c] {p q : Prog Op Ret α}
    (hp : c → triple K M i P p Q) (hq : ¬ c → triple K M i P q Q) :
    triple K M i P (if c then p else q) Q := by
  split
  · exact hp ‹_›
  · exact hq ‹_›

variable {c : Prop} [Decidable c] {a : α}

/-- A branch that returns at once. -/
theorem triple.early (h : ∀ v s, P v s → Q a v s) (hp : triple K M i P p Q) :
    triple K M i P (if c then pure a else p) Q :=
  .ite (fun _ => .pure h) fun _ => hp

theorem triple.late (hp : triple K M i P p Q) (h : ∀ v s, P v s → Q a v s) :
    triple K M i P (if c then p else pure a) Q :=
  .ite (fun _ => hp) fun _ => .pure h

/-- One operation: the invariant holds again, the others can rely on the step,
and what the thread knows after it is stable. -/
theorem triple.perform {o : Op} {Q : Ret o → V → S → Prop}
    (h : ∀ s μ, K.inv s μ → P (μ i) s → ∀ ch r s', M.exec i o ch s = some (r, s') →
      ∃ v, K.inv s' (update μ i v) ∧ Q r v s' ∧ Stable (K.rely i v) (Q r v) ∧
        ∀ j, j ≠ i → K.rely j (μ j) s s') :
    triple K M i P (Prog.perform o) Q := by
  rintro n hn s γ hγ rfl ch r s' hx
  obtain ⟨v, hinv, hQ, hstable, hrely⟩ := h s _ hγ.inv (hγ.entailed hn) ch r s' hx
  exact ⟨⟨v, Q r v⟩, hγ.move hinv hQ hstable hrely, fun _ _ _ _ hf => hf⟩

/-- An operation that does no more than the others may do: whatever the thread
knew it still knows, and it learns `G` of the answer. -/
theorem triple_passive {o : Op} {G : Ret o → V → S → Prop}
    (h : ∀ s μ, K.inv s μ → P (μ i) s → ∀ ch r s', M.exec i o ch s = some (r, s') →
      K.inv s' μ ∧ (∀ j, K.rely j (μ j) s s') ∧ G r (μ i) s' ∧ Stable (K.rely i (μ i)) (G r (μ i))) :
    triple K M i P (Prog.perform o) fun r v s => P v s ∧ G r v s := by
  rintro n hn s γ hγ rfl ch r s' hx
  obtain ⟨hinv, hrely, hG, hstable⟩ := h s _ hγ.inv (hγ.entailed hn) ch r s' hx
  refine ⟨⟨(γ i).mode, fun s => (γ i).fact s ∧ G r (γ i).mode s⟩, hγ.move ?_ ?_ ?_ ?_, ?_⟩
  · rwa [update_eq_self i (fun j => (γ j).mode)]
  · exact ⟨hγ.stable i s s' (hrely i) (hγ.fact i), hG⟩
  · exact (hγ.stable i).and hstable
  · exact fun j _ => hrely j
  · exact fun s μ hs hμ hf => ⟨hn s μ hs hμ hf.1, hf.2⟩

/-- Code that is passive throughout keeps what the thread knows. -/
theorem triple_only {T : Op → Prop} (hp : p.Only T)
    (h : ∀ o, T o → ∀ s μ, K.inv s μ → P (μ i) s → ∀ ch r s', M.exec i o ch s = some (r, s') →
      K.inv s' μ ∧ ∀ j, K.rely j (μ j) s s') :
    triple K M i P p fun _ => P := by
  intro n hn
  induction p generalizing n with
  | done a => exact hn
  | call o k ih =>
    rintro s γ hγ rfl ch r s' hx
    obtain ⟨hinv, hrely⟩ := h o hp.1 s _ hγ.inv (hγ.entailed hn) ch r s' hx
    refine ⟨γ i, hγ.move ?_ ?_ (hγ.stable i) fun j _ => hrely j, ih r (hp.2 r) _ hn⟩
    · rwa [update_eq_self i (fun j => (γ j).mode)]
    · exact hγ.stable i s s' (hrely i) (hγ.fact i)

end Rules

/-- Every call may start from rest, and ends there; the steps outside the
threads keep the invariant and what the threads they spare rely on. -/
structure Pact.Kept (K : Pact Tid S V) (M : System Tid Op Ret S Choice Call Env)
    (Rest : Tid → V → S → Prop) : Prop where
  start : ∀ i call s μ p, K.inv s μ → Rest i (μ i) s → M.start i call s = some p →
    ∃ v P, K.inv s (Function.update μ i v) ∧ P v s ∧ Stable (K.rely i v) (P v) ∧
      triple K M i P p fun _ => Rest i
  env : ∀ e s μ s', K.inv s μ → M.env e s = some s' →
    ∃ μ', K.inv s' μ' ∧ ∀ i, if M.kills e i then
        Rest i (μ' i) s' ∧ Stable (K.rely i (μ' i)) (Rest i (μ' i))
      else μ' i = μ i ∧ K.rely i (μ i) s s'

variable {Rest : Tid → V → S → Prop} {c₀ c : Config Tid Op Ret S}

theorem Pact.Kept.outline (H : K.Kept M Rest) :
    Outline M K.Noted fun i n => K.Entails i n (Rest i) where
  start i call s γ p hγ hrest hp := by
    obtain ⟨v, P, hinv, hP, hstable, hp⟩ := H.start i call s _ p hγ.inv (hγ.entailed hrest) hp
    refine ⟨⟨v, P v⟩, ⟨?_, fun j => ?_, fun j => ?_⟩, hp _ fun _ _ _ _ hf => hf⟩
    · rwa [modes_update]
    · by_cases hj : j = i
      · subst hj
        simpa using hP
      · simpa [hj] using hγ.fact j
    · by_cases hj : j = i
      · subst hj
        simpa using hstable
      · simpa [hj] using hγ.stable j
  env e s γ s' hγ hs := by
    obtain ⟨μ, hinv, hμ⟩ := H.env e s _ s' hγ.inv hs
    -- the threads that end are at rest; the others keep their notes
    let γ' : Tid → Note S V := fun j => if M.kills e j then ⟨μ j, Rest j (μ j)⟩ else γ j
    have hkilled : ∀ j, M.kills e j = true → γ' j = ⟨μ j, Rest j (μ j)⟩ := fun j hj => if_pos hj
    have hspared : ∀ j, ¬ M.kills e j = true → γ' j = γ j := fun j hj => if_neg hj
    have hmodes : (fun j => (γ' j).mode) = μ := by
      funext j
      have hj := hμ j
      by_cases hk : M.kills e j = true
      · rw [hkilled j hk]
      · rw [if_neg hk] at hj
        rw [hspared j hk, hj.1]
    refine ⟨γ', ⟨hmodes ▸ hinv, fun j => ?_, fun j => ?_⟩, fun j => ?_⟩
    · have hj := hμ j
      by_cases hk : M.kills e j = true
      · rw [if_pos hk] at hj
        rw [hkilled j hk]
        exact hj.1
      · rw [if_neg hk] at hj
        rw [hspared j hk]
        exact hγ.stable j s s' hj.2 (hγ.fact j)
    · have hj := hμ j
      by_cases hk : M.kills e j = true
      · rw [if_pos hk] at hj
        rw [hkilled j hk]
        exact hj.2
      · rw [hspared j hk]
        exact hγ.stable j
    · by_cases hk : M.kills e j = true
      · rw [if_pos hk, hkilled j hk]
        exact fun _ _ _ _ hf => hf
      · rw [if_neg hk, hspared j hk]

/-- **Soundness.** From a state at rest, the invariant of a pact that is kept
holds in every reachable configuration. -/
theorem Pact.Kept.reachable (H : K.Kept M Rest) {μ : Tid → V}
    (hidle : ∀ i, c₀.threads i = .done ()) (hinv : K.inv c₀.shared μ)
    (hrest : ∀ i, Rest i (μ i) c₀.shared) (hstable : ∀ i, Stable (K.rely i (μ i)) (Rest i (μ i)))
    (h : M.Reachable c₀ c) : ∃ μ, K.inv c.shared μ := by
  have h₀ : Outlined M K.Noted (fun i n => K.Entails i n (Rest i)) c₀ :=
    outlined_of_idle (γ := fun i => ⟨μ i, Rest i (μ i)⟩) hidle ⟨hinv, hrest, hstable⟩
      fun _ _ _ _ _ hf => hf
  obtain ⟨γ, hγ, -⟩ := H.outline.reachable h₀ h
  exact ⟨_, hγ.inv⟩

end Interleave
