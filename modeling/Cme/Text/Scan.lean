import Mathlib.Data.List.DropRight

/-!
# Text — scanning a sequence

Three operations every line reader has, over arbitrary letters:

* `strip` — the sequence without what its two ends have of a class;
* `pieces` — the sequence cut at a terminator, the last piece counted only when
  it holds something, and `terminated`, which puts the terminators back;
* `unwind` — a stack of frames taken down to those below a level.

`pieces_terminated` is the round trip of the second. The lemmas on `unwind` say
that frames at or above a level never show below it, which is what a reader of
nested text relies on.
-/

namespace Scan

variable {α : Type}

/-! ## Stripping both ends -/

section Strip

variable {p : α → Bool}

def strip (p : α → Bool) (l : List α) : List α := (l.dropWhile p).rdropWhile p

theorem strip_eq_nil_iff {l : List α} : strip p l = [] ↔ ∀ a ∈ l, p a = true := by
  constructor
  · intro h a ha
    rw [strip, List.rdropWhile_eq_nil_iff] at h
    rw [← List.takeWhile_append_dropWhile (p := p) (l := l), List.mem_append] at ha
    cases ha with
    | inl ha => exact List.mem_takeWhile_imp ha
    | inr ha => exact h a ha
  · intro h
    rw [strip, List.dropWhile_eq_nil_iff.mpr h, List.rdropWhile_nil]

/-- What stands between two stretches of the class is found whole when neither
of its own ends belongs to it. -/
theorem strip_pad {left core right : List α} (hleft : ∀ a ∈ left, p a = true)
    (hright : ∀ a ∈ right, p a = true) (hhead : ∀ a ∈ core.head?, p a = false)
    (hlast : ∀ a ∈ core.getLast?, p a = false) : strip p (left ++ (core ++ right)) = core := by
  have hfront : (left ++ (core ++ right)).dropWhile p = (core ++ right).dropWhile p :=
    List.dropWhile_append_of_pos hleft
  rw [strip, hfront]
  cases core with
  | nil =>
    rw [List.nil_append, List.dropWhile_eq_nil_iff.mpr hright, List.rdropWhile_nil]
  | cons a core =>
    have ha : p a = false := hhead a rfl
    rw [List.cons_append, List.dropWhile_cons_of_neg (by simp [ha]), ← List.cons_append]
    have hback : ((a :: core) ++ right).rdropWhile p = (a :: core).rdropWhile p := by
      rw [List.rdropWhile, List.reverse_append,
        List.dropWhile_append_of_pos (fun b hb => hright b (List.mem_reverse.mp hb)),
        List.rdropWhile]
    -- the last letter of the core stops the walk from the right
    have hstop : (a :: core).rdropWhile p = a :: core := by
      rw [List.rdropWhile_eq_self_iff]
      intro hne
      have hb := hlast _ (List.getLast?_eq_some_getLast hne)
      simp [hb]
    rw [hback, hstop]

end Strip

/-! ## Cutting at a terminator -/

section Pieces

variable [DecidableEq α] {stop : α}

/-- The pieces a reader that stops at `stop` takes one after another. -/
def pieces (stop : α) : List α → List (List α)
  | [] => []
  | a :: l =>
    if a = stop then [] :: pieces stop l
    else
      match pieces stop l with
      | [] => [[a]]
      | piece :: rest => (a :: piece) :: rest

def terminated (stop : α) (lines : List (List α)) : List α := lines.flatMap (· ++ [stop])

/-- A piece is read up to its terminator and the rest after it. -/
theorem pieces_append_stop {line : List α} (rest : List α) (h : stop ∉ line) :
    pieces stop (line ++ stop :: rest) = line :: pieces stop rest := by
  induction line with
  | nil => simp [pieces]
  | cons a line ih =>
    have ha : a ≠ stop := fun h' => h (h' ▸ .head _)
    have ih := ih (fun h' => h (.tail _ h'))
    simp [pieces, ha, ih]

theorem pieces_terminated {lines : List (List α)} (h : ∀ line ∈ lines, stop ∉ line) :
    pieces stop (terminated stop lines) = lines := by
  induction lines with
  | nil => rfl
  | cons line lines ih =>
    have ih := ih (fun l hl => h l (.tail _ hl))
    have hcut : terminated stop (line :: lines) = line ++ stop :: terminated stop lines := by
      simp [terminated]
    rw [hcut, pieces_append_stop _ (h line (.head _)), ih]

/-- The last terminator closes the last piece, or adds an empty one. -/
theorem pieces_concat_stop (l : List α) : pieces stop (l ++ [stop]) = pieces stop l ∨
      pieces stop (l ++ [stop]) = pieces stop l ++ [[]] := by
  induction l with
  | nil => right; simp [pieces]
  | cons a l ih =>
    by_cases ha : a = stop
    · rcases ih with ih | ih
      · left; simp [pieces, ha, ih]
      · right; simp [pieces, ha, ih]
    · -- the letter joins the piece the rest begins with, which the terminator does not change
      -- unless there is none yet
      cases hl : pieces stop l with
      | nil =>
        left
        have hnil : l = [] := by
          cases l with
          | nil => rfl
          | cons b l =>
            simp only [pieces] at hl
            split at hl
            · cases hl
            · split at hl <;> cases hl
        subst hnil
        simp [pieces, ha]
      | cons piece rest =>
        rcases ih with ih | ih
        · left; simp [pieces, ha, ih, hl]
        · right; simp [pieces, ha, ih, hl]

end Pieces

/-! ## A stack of frames, each at a level -/

section Unwind

variable {level : α → Nat} {stack : List α} {frame : α} {k m : Nat}

/-- The frames below level `k`, as a reader that closes frames from the top finds them. -/
def unwind (level : α → Nat) (k : Nat) (stack : List α) : List α :=
  stack.dropWhile (fun frame => k ≤ level frame)

theorem unwind_cons_of_lt (h : level frame < k) :
    unwind level k (frame :: stack) = frame :: stack :=
  List.dropWhile_cons_of_neg (by simpa using h)

theorem unwind_cons_of_le (h : k ≤ level frame) :
    unwind level k (frame :: stack) = unwind level k stack :=
  List.dropWhile_cons_of_pos (by simpa using h)

/-- Unwinding further forgets how far the stack was unwound before. -/
theorem unwind_unwind (h : k ≤ m) : unwind level k (unwind level m stack) = unwind level k stack := by
  induction stack with
  | nil => rfl
  | cons frame stack ih =>
    by_cases hm : m ≤ level frame
    · rw [unwind_cons_of_le hm, unwind_cons_of_le (Nat.le_trans h hm), ih]
    · rw [unwind_cons_of_lt (Nat.lt_of_not_le hm)]

end Unwind

end Scan
