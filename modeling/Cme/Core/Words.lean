import Cme.Core.Bitmap
import Mathlib.Data.List.Sort

/-!
# cme — bitmaps in words

`bitmap::Bits<n>` as the source packs it, 64 ids to a word. `popLowest` takes the
lowest bit of the first word that is not zero, and the loop that pops until the
set is empty walks it in the order of `Bits.toList`: so a poll goes through what
it holds, and the dispatcher through what is up.
-/

namespace Cme.Words

def has (words : List (BitVec 64)) (i : Nat) : Bool := (words.getD (i / 64) 0#64).getLsbD (i % 64)

/-- `none` where the source's precondition fails: the set is empty. -/
def popLowest (words : List (BitVec 64)) : Option (Nat × List (BitVec 64)) :=
  (words.findIdx? (· ≠ 0#64)).map fun k =>
    let word := words.getD k 0#64
    (k * 64 + word.ctz.toNat, words.set k (word &&& (word - 1#64)))

/-- Taking one from a number turns its lowest bit and the zeros below it. -/
theorem testBit_and_pred {x t : Nat} (ht : x.testBit t = true) (hlow : ∀ i < t, x.testBit i = false)
    (i : Nat) : (x &&& (x - 1)).testBit i = (!decide (i = t) && x.testBit i) := by
  -- x = 2 ^ t * odd, so x - 1 keeps the odd part's higher bits and fills the lower t
  have hmod : x % 2 ^ t = 0 := Nat.eq_of_testBit_eq fun j => by
    by_cases hj : j < t <;> simp [hj, hlow]
  have hodd : x / 2 ^ t % 2 = 1 := by simpa [Nat.testBit_eq_decide_div_mod_eq] using ht
  obtain ⟨v, hv⟩ : ∃ v, x / 2 ^ t = 2 * v + 1 := ⟨x / 2 ^ t / 2, by omega⟩
  have hx : x = 2 ^ t * (2 * v + 1) := by
    rw [← hv, Nat.mul_div_cancel' (Nat.dvd_of_mod_eq_zero hmod)]
  have hpred : x - 1 = 2 ^ t * (2 * v) + (2 ^ t - 1) := by rw [hx, Nat.mul_add]; omega
  have hpos := Nat.two_pow_pos t
  rw [Nat.testBit_and, hpred, Nat.testBit_two_pow_mul_add _ (by omega), hx, Nat.testBit_two_pow_mul]
  rcases Nat.lt_trichotomy i t with hi | rfl | hi
  · simp [Nat.not_le.mpr hi]
  · simp
  · obtain ⟨k, rfl⟩ := Nat.exists_eq_add_of_lt hi
    simp +contextual [Nat.add_assoc, Nat.testBit_succ, Nat.mul_add_div]

theorem getLsbD_and_pred {word : BitVec 64} (h : word ≠ 0#64) (i : Nat) :
    (word &&& (word - 1#64)).getLsbD i = (!decide (i = word.ctz.toNat) && word.getLsbD i) := by
  have hpos : 1 ≤ word.toNat := Nat.pos_of_ne_zero fun h0 => h (BitVec.eq_of_toNat_eq h0)
  have hand : (word &&& (word - 1#64)).toNat = word.toNat &&& (word.toNat - 1) := by
    rw [BitVec.toNat_and, BitVec.toNat_sub_of_le (by simpa [BitVec.le_def])]
    rfl
  rw [BitVec.getLsbD, hand]
  exact testBit_and_pred (BitVec.getLsbD_true_ctz_of_ne_zero h)
    (fun _ => BitVec.getLsbD_false_of_lt_ctz) i

variable {words rest : List (BitVec 64)} {i : Nat}

/-- The lowest id is popped, and no other leaves the set. -/
theorem popLowest_some (h : popLowest words = some (i, rest)) :
    rest.length = words.length ∧ has words i = true ∧ (∀ j < i, has words j = false) ∧
      ∀ j, has rest j = (!decide (j = i) && has words j) := by
  obtain ⟨k, hk, heq⟩ := Option.map_eq_some_iff.mp h
  obtain ⟨hlt, hne, hzero⟩ := List.findIdx?_eq_some_iff_getElem.mp hk
  have hword : words.getD k 0#64 = words[k] := by simp [hlt]
  rw [hword] at heq
  cases heq
  generalize words[k] = word at hne hword
  have hne : word ≠ 0#64 := by simpa using hne
  have hctz : word.ctz.toNat < 64 := BitVec.lt_def.mp (BitVec.ctz_lt_iff_ne_zero.mpr hne)
  refine ⟨List.length_set, ?_, fun j hj => ?_, fun j => ?_⟩
  · have hdiv : (k * 64 + word.ctz.toNat) / 64 = k := by omega
    have hmod : (k * 64 + word.ctz.toNat) % 64 = word.ctz.toNat := by omega
    rw [has, hdiv, hword, hmod]
    exact BitVec.getLsbD_true_ctz_of_ne_zero hne
  · -- in a word before the first that is not zero, or below that word's lowest bit
    rcases Nat.lt_or_eq_of_le (show j / 64 ≤ k by omega) with hjk | hjk
    · have hj : words[j / 64] = 0#64 := by simpa using hzero _ hjk
      simp [has, hj, hjk.trans hlt]
    · rw [has, hjk, hword]
      exact BitVec.getLsbD_false_of_lt_ctz (by omega)
  · -- only the word of the popped id is written
    by_cases hjk : j / 64 = k
    · have hiff : j = k * 64 + word.ctz.toNat ↔ j % 64 = word.ctz.toNat := by omega
      simp only [hiff]
      rw [has, has, hjk, hword, ← getLsbD_and_pred hne]
      simp [hlt]
    · have hji : j ≠ k * 64 + word.ctz.toNat := by omega
      simp [has, Ne.symm hjk, hji]

theorem popLowest_none (h : popLowest words = none) (i : Nat) : has words i = false := by
  have hzero : ∀ w ∈ words, w = 0#64 := by simpa [popLowest] using h
  rw [has, List.getD_eq_getElem?_getD]
  cases hw : words[i / 64]? with
  | none => simp
  | some w => simp [hzero w (List.mem_of_getElem? hw)]

/-- The ids left to pop. -/
def count (words : List (BitVec 64)) : Nat :=
  ((List.range (64 * words.length)).filter (has words)).length

theorem count_lt (h : popLowest words = some (i, rest)) : count rest < count words := by
  obtain ⟨hlen, hi, -, hrest⟩ := popLowest_some h
  have hlt : i / 64 < words.length := by
    by_contra hge
    simp [has, hge] at hi
  -- the ids of the rest are those of the set without `i`
  rw [count, count, hlen, funext hrest, ← List.filter_filter]
  exact List.length_filter_lt_length_iff_exists.mpr ⟨i, by simp [hi]; omega, by simp⟩

/-- The ids that `while (!set.isEmpty())` pops. -/
def drain (words : List (BitVec 64)) : List Nat :=
  match _h : popLowest words with
  | none => []
  | some (i, rest) => i :: drain rest
termination_by count words
decreasing_by exact count_lt _h

theorem drain_spec (words : List (BitVec 64)) :
    (drain words).Pairwise (· < ·) ∧ ∀ i, i ∈ drain words ↔ has words i = true := by
  fun_induction drain words with
  | case1 words h => simp [popLowest_none h]
  | case2 words i rest h ih =>
    obtain ⟨-, hi, hleast, hrest⟩ := popLowest_some h
    obtain ⟨hsorted, hmem⟩ := ih
    refine ⟨List.pairwise_cons.mpr ⟨fun j hj => ?_, hsorted⟩, fun j => ?_⟩ <;> grind

/-- The words of a set. -/
def pack {n : Nat} (b : Bits n) : List (BitVec 64) :=
  (List.range (Bits.countWords n)).map fun k => b.extractLsb' (64 * k) 64

theorem has_pack {n : Nat} (b : Bits n) (i : Nat) : has (pack b) i = b.has i := by
  by_cases hi : i / 64 < Bits.countWords n
  · simp [has, pack, hi, Bits.has, Nat.mod_lt, Nat.div_add_mod]
  · have hb : b.has i = false := BitVec.getLsbD_of_ge _ _ (by grind [Bits.countWords])
    simp [has, pack, hi, hb]

/-- **Popping the lowest id until none is left** comes by the ids of the set, each
once and from low to high. -/
theorem pops_in_order {n : Nat} (b : Bits n) : drain (pack b) = b.toList := by
  obtain ⟨hsorted, hmem⟩ := drain_spec (pack b)
  -- two strictly sorted lists with the same members
  refine hsorted.eq_of_mem_iff (List.pairwise_lt_range.filter _) fun i => ?_
  rw [hmem, has_pack, Bits.mem_toList]

end Cme.Words
