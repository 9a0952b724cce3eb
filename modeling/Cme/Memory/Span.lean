import Mathlib.Algebra.BigOperators.Group.List.Basic
import Mathlib.Algebra.GroupWithZero.Nat
import Mathlib.Data.List.Pairwise

/-!
# Memory — spans of bytes

Half-open ranges of bytes, sections laid one after another from a cursor, and
the rows of a table of equal width. Sections laid so do not overlap and end
where the sum of their sizes ends; rows of one table do not overlap and stay in
it. Spans inside disjoint spans are disjoint.
-/

namespace Memory

/-- The bytes from `base` on, `bytes` of them. -/
structure Span where
  base : Nat
  bytes : Nat
  deriving DecidableEq, Repr

namespace Span

variable {a b c : Span}

/-- The first byte after the span. -/
def stop (a : Span) : Nat := a.base + a.bytes

def Within (a b : Span) : Prop := b.base ≤ a.base ∧ a.stop ≤ b.stop

def Disjoint (a b : Span) : Prop := a.stop ≤ b.base ∨ b.stop ≤ a.base

theorem Disjoint.symm (h : a.Disjoint b) : b.Disjoint a := Or.symm h

theorem Disjoint.of_within {a' b' : Span} (h : a.Disjoint b) (ha : a'.Within a)
    (hb : b'.Within b) : a'.Disjoint b' := by
  rcases h with h | h
  · exact Or.inl (Nat.le_trans ha.2 (Nat.le_trans h hb.1))
  · exact Or.inr (Nat.le_trans hb.2 (Nat.le_trans h ha.1))

end Span

/-! ### Sections -/

/-- Sections of the given sizes, from the cursor on. -/
def place (cursor : Nat) : List Nat → List Span
  | [] => []
  | bytes :: rest => ⟨cursor, bytes⟩ :: place (cursor + bytes) rest

theorem place_within {cursor : Nat} {sizes : List Nat} {a : Span} (h : a ∈ place cursor sizes) :
    a.Within ⟨cursor, sizes.sum⟩ := by
  induction sizes generalizing cursor with
  | nil => exact absurd h (by simp [place])
  | cons bytes rest ih =>
    rw [place, List.mem_cons] at h
    simp only [Span.Within, Span.stop, List.sum_cons]
    rcases h with rfl | h
    · show cursor ≤ cursor ∧ cursor + bytes ≤ cursor + (bytes + rest.sum)
      omega
    · obtain ⟨hlo, hhi⟩ := ih h
      simp only [Span.stop] at hlo hhi
      omega

/-- **Sections do not overlap.** -/
theorem place_pairwise (cursor : Nat) (sizes : List Nat) :
    (place cursor sizes).Pairwise Span.Disjoint := by
  induction sizes generalizing cursor with
  | nil => exact List.Pairwise.nil
  | cons bytes rest ih =>
    refine List.Pairwise.cons (fun b hb => ?_) (ih _)
    -- the rest starts where this section stops
    exact Or.inl (place_within hb).1

/-! ### Tables -/

/-- Row `i` of a table of rows of equal width. -/
def row (base width i : Nat) : Span := ⟨base + width * i, width⟩

theorem row_within {base width i n : Nat} (hi : i < n) :
    (row base width i).Within ⟨base, width * n⟩ := by
  have hle : width * (i + 1) ≤ width * n := Nat.mul_le_mul_left width hi
  rw [Nat.mul_succ] at hle
  simp only [Span.Within, Span.stop, row]
  omega

/-- **Rows do not overlap.** -/
theorem row_disjoint {base width i j : Nat} (h : i ≠ j) :
    (row base width i).Disjoint (row base width j) := by
  have below : ∀ {i j : Nat}, i < j → width * i + width ≤ width * j := by
    intro i j hij
    have hle : width * (i + 1) ≤ width * j := Nat.mul_le_mul_left width hij
    rwa [Nat.mul_succ] at hle
  simp only [Span.Disjoint, Span.stop, row]
  rcases Nat.lt_or_gt_of_ne h with hlt | hgt
  · have := below hlt
    omega
  · have := below hgt
    omega

/-! ### Cells -/

variable {i j n r r' width : Nat}

/-- Cell `r` of row `i` of a table of `n` rows. -/
theorem cell_lt (hi : i < n) (hr : r < width) : i * width + r < n * width :=
  calc i * width + r < i * width + width := Nat.add_lt_add_left hr _
    _ = (i + 1) * width := (Nat.succ_mul i width).symm
    _ ≤ n * width := Nat.mul_le_mul_right width hi

theorem cell_inj (hr : r < width) (hr' : r' < width) (h : i * width + r = j * width + r') :
    i = j ∧ r = r' := by
  have hpos : 0 < width := Nat.zero_lt_of_lt hr
  have hrow := congrArg (· / width) h
  simp only [Nat.mul_comm _ width, Nat.mul_add_div hpos, Nat.div_eq_of_lt hr,
    Nat.div_eq_of_lt hr', Nat.add_zero] at hrow
  subst hrow
  exact ⟨rfl, Nat.add_left_cancel h⟩

end Memory
