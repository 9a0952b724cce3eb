import Mathlib.Data.BitVec

/-!
# cme — bitmaps

`bitmap::Bits<n>`, a set of ids below `n` packed into words. The words are one
bit vector here: an id is its bit, and a word is the part of the vector under
its mask, for the concurrent form whose loads and stores are one word each.
`toList` is the order both ways of walking a set have, the range-for over it and
the loop that pops the lowest id until none is left.
-/

namespace Cme

/-- A packed set of ids below `n`. -/
abbrev Bits (n : Nat) := BitVec n

namespace Bits

variable {n : Nat}

def has (b : Bits n) (i : Nat) : Bool := b.getLsbD i

def set (b : Bits n) (i : Nat) : Bits n := b ||| BitVec.twoPow n i

def clear (b : Bits n) (i : Nat) : Bits n := b &&& ~~~(BitVec.twoPow n i)

def isEmpty (b : Bits n) : Bool := b == 0#n

/-- The ids of the set, low to high. -/
def toList (b : Bits n) : List Nat := (List.range n).filter b.has

def dropAll (b other : Bits n) : Bits n := b &&& ~~~other

/-- How many words hold `n` ids. -/
def countWords (n : Nat) : Nat := (n + 63) / 64

/-- The ids of one word. -/
def wordMask (n word : Nat) : Bits n := (BitVec.allOnes 64).setWidth n <<< (64 * word)

def getWord (b : Bits n) (word : Nat) : Bits n := b &&& wordMask n word

def setWord (b : Bits n) (word : Nat) (value : Bits n) : Bits n :=
  (b &&& ~~~(wordMask n word)) ||| value.getWord word

variable {b : Bits n} {i : Nat}

theorem lt_of_has (h : b.has i = true) : i < n := by
  by_contra hn
  rw [has, BitVec.getLsbD_of_ge _ _ (Nat.le_of_not_lt hn)] at h
  exact Bool.false_ne_true h

@[simp] theorem has_set (b : Bits n) (i j : Nat) :
    (b.set i).has j = (b.has j || (decide (i < n) && decide (j = i))) := by
  rw [has, set, BitVec.getLsbD_or, BitVec.getLsbD_twoPow, has]
  simp [eq_comm]

@[simp] theorem has_clear (b : Bits n) (i j : Nat) :
    (b.clear i).has j = (b.has j && !decide (j = i)) := by
  by_cases hj : j < n
  · simp [has, clear, hj]
  · have hb : b.getLsbD j = false := BitVec.getLsbD_of_ge _ _ (Nat.le_of_not_lt hj)
    simp [has, clear, hb]

@[simp] theorem has_and (b c : Bits n) (i : Nat) :
    has (b &&& c) i = (b.has i && c.has i) := BitVec.getLsbD_and

@[simp] theorem has_or (b c : Bits n) (i : Nat) :
    has (b ||| c) i = (b.has i || c.has i) := BitVec.getLsbD_or

@[simp] theorem has_dropAll (b c : Bits n) (i : Nat) :
    (b.dropAll c).has i = (b.has i && !c.has i) := by
  by_cases hi : i < n
  · simp [has, dropAll, hi]
  · have hb : b.getLsbD i = false := BitVec.getLsbD_of_ge _ _ (Nat.le_of_not_lt hi)
    simp [has, dropAll, hb]

theorem has_wordMask (n word i : Nat) :
    (wordMask n word).has i = decide (i < n ∧ i / 64 = word) := by
  rw [has, wordMask, BitVec.getLsbD_shiftLeft, BitVec.getLsbD_setWidth, BitVec.getLsbD_allOnes]
  rw [Bool.eq_iff_iff]
  simp only [Bool.and_eq_true, Bool.not_eq_true', decide_eq_true_eq, decide_eq_false_iff_not]
  omega

@[simp] theorem has_getWord (b : Bits n) (word i : Nat) :
    (b.getWord word).has i = (b.has i && decide (i / 64 = word)) := by
  by_cases hi : i < n
  · simp [getWord, has_wordMask, hi]
  · have hb : b.has i = false := BitVec.getLsbD_of_ge _ _ (Nat.le_of_not_lt hi)
    simp [getWord, hb]

@[simp] theorem has_setWord (b value : Bits n) (word i : Nat) :
    (b.setWord word value).has i = if i / 64 = word then value.has i else b.has i := by
  have hor : (b.setWord word value).has i =
      ((b.dropAll (wordMask n word)).has i || (value.getWord word).has i) := has_or _ _ _
  by_cases hi : i < n
  · rw [hor]
    by_cases hword : i / 64 = word <;> simp [has_wordMask, hi, hword]
  · have hb : b.has i = false := BitVec.getLsbD_of_ge _ _ (Nat.le_of_not_lt hi)
    have hv : value.has i = false := BitVec.getLsbD_of_ge _ _ (Nat.le_of_not_lt hi)
    rw [hor]
    simp [hb, hv]

@[simp] theorem has_zero (i : Nat) : has (0#n) i = false := by simp [has]

theorem isEmpty_iff : b.isEmpty = true ↔ ∀ i, b.has i = false := by
  rw [isEmpty, beq_iff_eq]
  constructor
  · rintro rfl i
    exact has_zero i
  · intro h
    refine BitVec.eq_of_getLsbD_eq fun i _ => ?_
    rw [BitVec.getLsbD_zero]
    exact h i

theorem clear_eq_self (h : b.has i = false) : b.clear i = b := by
  refine BitVec.eq_of_getLsbD_eq fun j _ => ?_
  have hj := has_clear b i j
  by_cases hji : j = i
  · subst hji
    rw [h, Bool.false_and] at hj
    exact hj.trans h.symm
  · simpa [hji, has] using hj

@[simp] theorem mem_toList : i ∈ b.toList ↔ b.has i = true := by
  rw [toList, List.mem_filter, List.mem_range, and_iff_right_iff_imp]
  exact lt_of_has

end Bits

end Cme
