import Cme.Interleave.Prog

/-!
# Interleave — a system of threads over one shared state

A `System` says what an atomic operation does (`exec`), which procedures an
idle thread may start (`start`), and what happens outside the threads
(`env`). All three are functions: whatever is not determined by the state is
read from the `Choice`, the `Call` or the `Env` that the action carries, so a
schedule is a list of actions and can be replayed (`System.run`).

`Reachable M c₀ c` quantifies over every such schedule: any thread may take
its next step at any time, which is every interleaving.

`System.restrict` keeps the steps that meet a condition on the state before
the step. Its reachable states are those of the runs all of whose steps meet
the condition.
-/

namespace Interleave

open Function

/-- The steps of a system of threads named by `Tid`. -/
structure System (Tid Op : Type) (Ret : Op → Type) (S Choice Call Env : Type) where
  /-- One atomic operation of a thread; `none` where it cannot take place. -/
  exec : Tid → (o : Op) → Choice → S → Option (Ret o × S)
  /-- The code an idle thread starts for a call. -/
  start : Tid → Call → S → Option (Prog Op Ret Unit)
  /-- A step outside the threads. -/
  env : Env → S → Option S
  /-- The threads such a step ends. -/
  kills : Env → Tid → Bool

/-- The shared state and what every thread has still to run. -/
structure Config (Tid Op : Type) (Ret : Op → Type) (S : Type) where
  shared : S
  threads : Tid → Prog Op Ret Unit

/-- The configuration with its state seen through `f`. -/
def Config.map {Tid Op : Type} {Ret : Op → Type} {S T : Type} (f : S → T)
    (c : Config Tid Op Ret S) : Config Tid Op Ret T :=
  ⟨f c.shared, c.threads⟩

/-- One entry of a schedule. -/
inductive Action (Tid Choice Call Env : Type) where
  | exec (i : Tid) (ch : Choice)
  | start (i : Tid) (call : Call)
  | env (e : Env)

/-- The next operations of one thread, by what is chosen in each. -/
def execs {Tid Choice Call Env : Type} (i : Tid) (choices : List Choice) :
    List (Action Tid Choice Call Env) := choices.map (.exec i)

/-- The next `n` operations of one thread, where nothing is to choose. -/
def steps {Tid Choice Call Env : Type} [Inhabited Choice] (i : Tid) (n : Nat) :
    List (Action Tid Choice Call Env) := execs i (List.replicate n default)

/-- An operation that takes place has one answer and leaves one state. -/
theorem outcome_eq {α β : Type} {r r' : α} {s s' : β} (h : some (r, s) = some (r', s')) :
    r = r' ∧ s = s' :=
  Prod.mk.inj (Option.some.inj h)

/-- A step under a guard that is taken found the guard true. -/
theorem of_guard {α : Type} {c : Prop} {_ : Decidable c} {a b : α}
    (h : (if c then some a else none) = some b) : c ∧ a = b := by
  obtain ⟨hc, h⟩ := Option.ite_none_right_eq_some.mp h
  exact ⟨hc, Option.some.inj h⟩

theorem of_unless {α : Type} {c : Prop} {_ : Decidable c} {a b : α}
    (h : (if c then none else some a) = some b) : ¬ c ∧ a = b := by
  obtain ⟨hc, h⟩ := Option.ite_none_left_eq_some.mp h
  exact ⟨hc, Option.some.inj h⟩

/-- What an updated function has and the new value is not, it had before. -/
theorem of_update {ι β : Type} [DecidableEq ι] {f : ι → β} {i j : ι} {a b : β}
    (h : update f i a j = b) (hab : a ≠ b) : j ≠ i ∧ f j = b := by
  have hj : j ≠ i := by
    rintro rfl
    rw [update_self] at h
    exact hab h
  rw [update_of_ne hj] at h
  exact ⟨hj, h⟩

/-- A change of one value that keeps a part of it keeps that part everywhere. -/
theorem apply_update_eq {ι β γ : Type} [DecidableEq ι] {f : ι → β} {i : ι} {a : β} (g : β → γ)
    (h : g a = g (f i)) (j : ι) : g (update f i a j) = g (f j) := by
  rw [apply_update fun _ => g, h]
  exact congrFun (update_eq_self i fun k => g (f k)) j

namespace System

variable {Tid Op : Type} {Ret : Op → Type} {S Choice Call Env : Type} [DecidableEq Tid]

/-- The configuration after one action; `none` where the action is not enabled. -/
def next (M : System Tid Op Ret S Choice Call Env) (a : Action Tid Choice Call Env)
    (c : Config Tid Op Ret S) : Option (Config Tid Op Ret S) :=
  match a with
  | .exec i ch =>
    match c.threads i with
    | .done _ => none
    | .call o k =>
      (M.exec i o ch c.shared).map fun rs =>
        { shared := rs.2, threads := update c.threads i (k rs.1) }
  | .start i call =>
    match c.threads i with
    | .done _ =>
      (M.start i call c.shared).map fun p =>
        { c with threads := update c.threads i p }
    | .call _ _ => none
  | .env e =>
    (M.env e c.shared).map fun s' =>
      { shared := s', threads := fun i => if M.kills e i then .done () else c.threads i }

/-- Replay a schedule. -/
def run (M : System Tid Op Ret S Choice Call Env) :
    List (Action Tid Choice Call Env) → Config Tid Op Ret S → Option (Config Tid Op Ret S)
  | [], c => some c
  | a :: rest, c => (M.next a c).bind (M.run rest)

/-- The configurations some schedule leads to. -/
inductive Reachable (M : System Tid Op Ret S Choice Call Env) (c₀ : Config Tid Op Ret S) :
    Config Tid Op Ret S → Prop where
  | refl : Reachable M c₀ c₀
  | step {c c' : Config Tid Op Ret S} (a : Action Tid Choice Call Env) :
      Reachable M c₀ c → M.next a c = some c' → Reachable M c₀ c'

variable {M : System Tid Op Ret S Choice Call Env} {c₀ c c' : Config Tid Op Ret S}

/-- What one action does: a thread's operation, a thread's start, or a step
outside the threads. -/
theorem next_cases {a : Action Tid Choice Call Env} (h : M.next a c = some c') :
    (∃ i ch o k r s', a = .exec i ch ∧ c.threads i = .call o k ∧
      M.exec i o ch c.shared = some (r, s') ∧
      c' = { shared := s', threads := update c.threads i (k r) }) ∨
    (∃ i call p, a = .start i call ∧ c.threads i = .done () ∧
      M.start i call c.shared = some p ∧
      c' = { c with threads := update c.threads i p }) ∨
    (∃ e s', a = .env e ∧ M.env e c.shared = some s' ∧
      c' = { shared := s', threads := fun i => if M.kills e i then .done () else c.threads i }) := by
  cases a with
  | exec i ch =>
    left
    rw [next] at h
    cases hi : c.threads i with
    | done _ => simp [hi] at h
    | call o k =>
      simp only [hi, Option.map_eq_some_iff] at h
      obtain ⟨⟨r, s'⟩, hx, rfl⟩ := h
      exact ⟨i, ch, o, k, r, s', rfl, hi, hx, rfl⟩
  | start i call =>
    right; left
    rw [next] at h
    cases hi : c.threads i with
    | call o k => simp [hi] at h
    | done u =>
      simp only [hi, Option.map_eq_some_iff] at h
      obtain ⟨p, hp, rfl⟩ := h
      exact ⟨i, call, p, rfl, hi, hp, rfl⟩
  | env e =>
    right; right
    simp only [next, Option.map_eq_some_iff] at h
    obtain ⟨s', hs, rfl⟩ := h
    exact ⟨e, s', rfl, hs, rfl⟩

/-- A replayed schedule stays within the reachable configurations. -/
theorem Reachable.run {l : List (Action Tid Choice Call Env)} (hc : Reachable M c₀ c)
    (h : M.run l c = some c') : Reachable M c₀ c' := by
  induction l generalizing c with
  | nil =>
    rw [System.run, Option.some.injEq] at h
    exact h ▸ hc
  | cons a rest ih =>
    rw [System.run, Option.bind_eq_some_iff] at h
    obtain ⟨c₁, h₁, h₂⟩ := h
    exact ih (.step a hc h₁) h₂

/-- A schedule that ends where `P` holds shows that `P` is reachable. -/
theorem exists_of_run (M : System Tid Op Ret S Choice Call Env) (c₀ : Config Tid Op Ret S)
    (l : List (Action Tid Choice Call Env)) {P : Config Tid Op Ret S → Prop} [DecidablePred P]
    (h : (M.run l c₀).any (P ·) = true) : ∃ c, Reachable M c₀ c ∧ P c := by
  obtain ⟨c, hc, hp⟩ := (Option.any_eq_true _ _).mp h
  exact ⟨c, Reachable.refl.run hc, of_decide_eq_true hp⟩

/-- What every step keeps, every reachable configuration has. -/
theorem Reachable.invariant {P : Config Tid Op Ret S → Prop} (h₀ : P c₀)
    (hstep : ∀ a c c', P c → M.next a c = some c' → P c') (h : Reachable M c₀ c) : P c := by
  induction h with
  | refl => exact h₀
  | step a _ hs ih => exact hstep a _ _ ih hs

/-- **Projection.** Where the steps of one system are, seen through `f`, the steps of
another or nothing, its runs are runs of the other. -/
theorem Reachable.map {T Env' : Type} {N : System Tid Op Ret T Choice Call Env'} (f : S → T)
    (hexec : ∀ i o ch s r s', M.exec i o ch s = some (r, s') →
      N.exec i o ch (f s) = some (r, f s'))
    (hstart : ∀ i call s p, M.start i call s = some p → N.start i call (f s) = some p)
    (henv : ∀ e s s', M.env e s = some s' →
      (∃ e', N.env e' (f s) = some (f s') ∧ ∀ i, N.kills e' i = M.kills e i) ∨
      (f s' = f s ∧ ∀ i, M.kills e i = false))
    (h : Reachable M c₀ c) : Reachable N (c₀.map f) (c.map f) := by
  induction h with
  | refl => exact .refl
  | @step c c' a _ hs ih =>
    obtain ⟨i, ch, o, k, r, s', rfl, hi, hx, rfl⟩ | ⟨i, call, p, rfl, hi, hp, rfl⟩ |
      ⟨e, s', rfl, he, rfl⟩ := next_cases hs
    · refine .step (.exec i ch) ih ?_
      have hi' : (c.map f).threads i = .call o k := hi
      have hx' : N.exec i o ch (c.map f).shared = some (r, f s') := hexec i o ch _ r s' hx
      simp only [next, hi', hx', Option.map_some]
      rfl
    · refine .step (.start i call) ih ?_
      have hi' : (c.map f).threads i = .done () := hi
      have hp' : N.start i call (c.map f).shared = some p := hstart i call _ p hp
      simp only [next, hi', hp', Option.map_some]
      rfl
    · rcases henv e _ s' he with ⟨e', he', hkills⟩ | ⟨hsame, hkills⟩
      · refine .step (.env e') ih ?_
        have hx' : N.env e' (c.map f).shared = some (f s') := he'
        simp only [next, hx', Option.map_some, hkills]
        rfl
      · -- the step is no step of the other system
        refine (congrArg (Reachable N (c₀.map f)) ?_).mp ih
        simp [Config.map, hsame, hkills]

/-- Keep the operations that meet `calm` on the state before them. -/
def restrict (M : System Tid Op Ret S Choice Call Env)
    (calm : Tid → Op → Choice → S → Bool) : System Tid Op Ret S Choice Call Env where
  exec i o ch s := if calm i o ch s then M.exec i o ch s else none
  start := M.start
  env := M.env
  kills := M.kills

omit [DecidableEq Tid] in
theorem restrict_exec {calm : Tid → Op → Choice → S → Bool} {i : Tid} {o : Op} {ch : Choice}
    {s s' : S} {r : Ret o} : (M.restrict calm).exec i o ch s = some (r, s') ↔
      calm i o ch s = true ∧ M.exec i o ch s = some (r, s') := by
  simp [restrict]

theorem Reachable.of_restrict {calm : Tid → Op → Choice → S → Bool}
    (h : Reachable (M.restrict calm) c₀ c) : Reachable M c₀ c :=
  h.map (fun s => s) (fun _ _ _ _ _ _ hx => (restrict_exec.mp hx).2) (fun _ _ _ _ hp => hp)
    fun e _ _ he => Or.inl ⟨e, he, fun _ => rfl⟩

end System

end Interleave
