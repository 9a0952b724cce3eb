import Mathlib.Logic.Function.Basic

/-!
# Interleave — threads as resumptions

A thread is the code it has still to run: either it is `done`, or its next
move is one atomic operation `o` and its code goes on from the operation's
answer. `Op` names the atomic operations of one program and `Ret o` is the
type of the answer to `o`. Everything between two operations is local to the
thread and takes no step of its own.

`Prog` is a monad, so a procedure is written in `do` notation in the order
its source has it. Loops are recursive functions. A loop whose number of
turns the program does not fix (a wait with a deadline, a spin) asks the
environment for that number first and recurses on it; a run of any finite
length is then a run for some answer.

The modules of `Interleave` name nothing of the program they are used on.
-/

namespace Interleave

/-- The code a thread has still to run. -/
inductive Prog (Op : Type) (Ret : Op → Type) (α : Type) : Type where
  | done (a : α)
  | call (o : Op) (k : Ret o → Prog Op Ret α)

namespace Prog

variable {Op : Type} {Ret : Op → Type} {α β δ : Type}

/-- Run `p`, then go on with its result. -/
def bind : Prog Op Ret α → (α → Prog Op Ret β) → Prog Op Ret β
  | done a, f => f a
  | call o k, f => call o fun r => (k r).bind f

instance : Monad (Prog Op Ret) where
  pure := done
  bind := bind

/-- Whether a thread has ended can be decided. -/
instance decidableDone (p : Prog Op Ret Unit) : Decidable (p = done ()) :=
  match p with
  | done () => isTrue rfl
  | call _ _ => isFalse fun h => nomatch h

/-- One atomic operation. -/
def perform (o : Op) : Prog Op Ret (Ret o) := call o done

/-- Run `body` for at most `n` turns, until a turn answers. -/
def attempt (body : Prog Op Ret (Option α)) : Nat → Prog Op Ret (Option α)
  | 0 => pure none
  | n + 1 => do
    match ← body with
    | some a => pure (some a)
    | none => attempt body n

/-- The same code where there are more operations: `e` names its own among them. -/
def lift {Op' : Type} {Ret' : Op' → Type} (e : Op → Op') (answer : (o : Op) → Ret' (e o) → Ret o) :
    Prog Op Ret α → Prog Op' Ret' α
  | done a => done a
  | call o k => call (e o) fun r => (k (answer o r)).lift e answer

theorem lift_bind {Op' : Type} {Ret' : Op' → Type} (e : Op → Op')
    (answer : (o : Op) → Ret' (e o) → Ret o) (p : Prog Op Ret α) (f : α → Prog Op Ret β) :
    (p >>= f).lift e answer = p.lift e answer >>= fun a => (f a).lift e answer := by
  induction p with
  | done a => rfl
  | call o k ih => exact congrArg (call (e o)) (funext fun r => ih (answer o r))

/-- Every operation the code can come to is in `P`. -/
def Only (P : Op → Prop) : Prog Op Ret α → Prop
  | done _ => True
  | call o k => P o ∧ ∀ r, (k r).Only P

variable {P : Op → Prop}

theorem Only.pure (a : α) : (Pure.pure a : Prog Op Ret α).Only P := trivial

theorem Only.perform {o : Op} (h : P o) : (perform o : Prog Op Ret (Ret o)).Only P :=
  ⟨h, fun _ => trivial⟩

theorem Only.bind {p : Prog Op Ret α} {f : α → Prog Op Ret β} (hp : p.Only P)
    (hf : ∀ a, (f a).Only P) : (p >>= f).Only P := by
  induction p with
  | done a => exact hf a
  | call o k ih => exact ⟨hp.1, fun r => ih r (hp.2 r)⟩

theorem Only.ite {c : Prop} [Decidable c] {p q : Prog Op Ret α} (hp : p.Only P)
    (hq : q.Only P) : (if c then p else q).Only P := by
  split
  · exact hp
  · exact hq

theorem Only.mono {Q : Op → Prop} {p : Prog Op Ret α} (hp : p.Only P) (h : ∀ o, P o → Q o) :
    p.Only Q := by
  induction p with
  | done a => trivial
  | call o k ih => exact ⟨h o hp.1, fun r => ih r (hp.2 r)⟩

theorem Only.lift {Op' : Type} {Ret' : Op' → Type} {e : Op → Op'}
    {answer : (o : Op) → Ret' (e o) → Ret o} {Q : Op' → Prop} {p : Prog Op Ret α}
    (hp : p.Only fun o => Q (e o)) : (p.lift e answer).Only Q := by
  induction p with
  | done a => trivial
  | call o k ih => exact ⟨hp.1, fun r => ih _ (hp.2 _)⟩

end Prog

end Interleave
