import Cme.Interleave.System

/-!
# Interleave — watching a system

A watch beside the state: it is written from what a thread is about to do in the state
it finds, and nobody reads it. A run of the watched system is a run of the system
(`Reachable.unwatched`); what it has done so far becomes a property of its state.
-/

namespace Interleave

variable {Tid Op : Type} {Ret : Op → Type} {S W Choice Call Env : Type} [DecidableEq Tid]

/-- The system with a watch that `note` writes at every operation. -/
def System.observe (M : System Tid Op Ret S Choice Call Env) (note : Tid → Op → S → W → W) :
    System Tid Op Ret (S × W) Choice Call Env where
  exec i o ch s := (M.exec i o ch s.1).map fun x => (x.1, x.2, note i o s.1 s.2)
  start i call s := M.start i call s.1
  env e s := (M.env e s.1).map fun s' => (s', s.2)
  kills := M.kills

/-- A configuration with a watch. -/
def Config.watched (c : Config Tid Op Ret S) (w : W) : Config Tid Op Ret (S × W) :=
  ⟨(c.shared, w), c.threads⟩

/-- A configuration without its watch. -/
def Config.unwatched (c : Config Tid Op Ret (S × W)) : Config Tid Op Ret S :=
  ⟨c.shared.1, c.threads⟩

variable {M : System Tid Op Ret S Choice Call Env} {note : Tid → Op → S → W → W}

omit [DecidableEq Tid] in
theorem System.observe_exec {i : Tid} {o : Op} {ch : Choice} {s s' : S × W} {r : Ret o}
    (h : (M.observe note).exec i o ch s = some (r, s')) :
    M.exec i o ch s.1 = some (r, s'.1) ∧ s'.2 = note i o s.1 s.2 := by
  obtain ⟨⟨r', s₁⟩, hx, ⟨⟩⟩ := Option.map_eq_some_iff.mp h
  exact ⟨hx, rfl⟩

theorem System.Reachable.unwatched {c₀ c : Config Tid Op Ret (S × W)}
    (h : (M.observe note).Reachable c₀ c) : M.Reachable c₀.unwatched c.unwatched := by
  refine h.map Prod.fst (fun _ _ _ _ _ _ hx => (System.observe_exec hx).1) (fun _ _ _ _ hp => hp)
    fun e s s' he => Or.inl ⟨e, ?_, fun _ => rfl⟩
  obtain ⟨s₁, hs₁, rfl⟩ := Option.map_eq_some_iff.mp he
  exact hs₁

end Interleave
