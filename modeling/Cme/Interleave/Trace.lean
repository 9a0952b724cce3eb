import Cme.Interleave.Prog

/-!
# Interleave — the traces of one thread

What one thread does, whatever the others do: a trace of a program is the list
of its operations with the answers they got, down to its result. Every answer of
the right type is possible, so a fact about all traces is a fact about every
environment.
-/

namespace Interleave

/-- An operation and what it answered. -/
structure Event (Op : Type) (Ret : Op → Type) where
  op : Op
  answer : Ret op

namespace Prog

variable {Op : Type} {Ret : Op → Type} {α β : Type}

inductive Trace : Prog Op Ret α → List (Event Op Ret) → α → Prop where
  | done (a : α) : Trace (.done a) [] a
  | call {o : Op} {k : Ret o → Prog Op Ret α} {r : Ret o} {es : List (Event Op Ret)} {a : α}
      (h : Trace (k r) es a) : Trace (.call o k) (⟨o, r⟩ :: es) a

variable {es : List (Event Op Ret)} {a b : α}

theorem trace_pure : Trace (pure a : Prog Op Ret α) es b ↔ es = [] ∧ b = a := by
  constructor
  · intro h
    cases h
    exact ⟨rfl, rfl⟩
  · rintro ⟨rfl, rfl⟩
    exact .done b

variable {es : List (Event Op Ret)}

theorem trace_bind {p : Prog Op Ret α} {f : α → Prog Op Ret β} {b : β} : Trace (p >>= f) es b ↔
      ∃ a es₁ es₂, es = es₁ ++ es₂ ∧ Trace p es₁ a ∧ Trace (f a) es₂ b := by
  constructor
  · intro h
    induction p generalizing es with
    | done a => exact ⟨a, [], es, rfl, .done a, h⟩
    | call o k ih =>
      cases h with
      | call h =>
        obtain ⟨a, es₁, es₂, rfl, h₁, h₂⟩ := ih _ h
        exact ⟨a, _, es₂, rfl, .call h₁, h₂⟩
  · rintro ⟨a, es₁, es₂, rfl, h₁, h₂⟩
    induction h₁ with
    | done a => exact h₂
    | call _ ih => exact .call (ih h₂)

theorem trace_pure_mk {a a' : α} {b b' : β} :
    Trace (pure (a, b) : Prog Op Ret (α × β)) es (a', b') ↔ es = [] ∧ a' = a ∧ b' = b := by
  rw [trace_pure, Prod.mk.injEq]

theorem trace_pure_bind {f : α → Prog Op Ret β} {b : β} :
    Trace (pure a >>= f) es b ↔ Trace (f a) es b := Iff.rfl

/-- The first operation, and the rest on its answer. -/
theorem trace_perform {o : Op} {f : Ret o → Prog Op Ret β} {b : β} :
    Trace (perform o >>= f) es b ↔ ∃ r es', es = ⟨o, r⟩ :: es' ∧ Trace (f r) es' b := by
  constructor
  · intro h
    cases h with
    | call h => exact ⟨_, _, rfl, h⟩
  · rintro ⟨r, es', rfl, h⟩
    exact .call h

/-- The result at the end of these operations with these answers, if the program
has such a trace. -/
def follow [DecidableEq Op] : Prog Op Ret α → List (Event Op Ret) → Option α
  | done a, [] => some a
  | done _, _ :: _ => none
  | call _ _, [] => none
  | call o k, ⟨o', r⟩ :: es => if h : o' = o then follow (k (h ▸ r)) es else none

theorem trace_of_follow [DecidableEq Op] {p : Prog Op Ret α} (es : List (Event Op Ret))
    (h : p.follow es = some a) : Trace p es a := by
  induction p generalizing es with
  | done b =>
    cases es with
    | nil =>
      obtain rfl := Option.some.inj h
      exact .done b
    | cons => cases h
  | call o k ih =>
    cases es with
    | nil => cases h
    | cons e es =>
      obtain ⟨o', r⟩ := e
      rw [follow] at h
      split at h
      · rename_i ho
        subst ho
        exact .call (ih _ _ h)
      · cases h

end Prog

end Interleave
