import Cme.Interleave.Bracket
import Mathlib.Data.Nat.Log
import Mathlib.Tactic.Ring

/-!
# cme — the tournament tree and a peer's climb

`core/policy/successor_peterson_layout.hpp`: the leaf count, the leaf
permutation and the path from a peer's leaf to the root. `bracket` is what the
three make together: every peer below the maximum has a leaf of its own in a
tree of `2 ^ clog 2 n` leaves, and `buildClimbPath` lists the nodes over it. Two
paths come to their first common node from opposite sides and are one above it
(`climb_paths_form_tournament`).
-/

namespace Cme.Tournament

open Interleave

/-- The two contender slots of a node. -/
inductive Role where
  | peer0
  | peer1
  deriving DecidableEq, Repr

def Role.other : Role → Role
  | .peer0 => .peer1
  | .peer1 => .peer0

/-- The cast of a bit to a role. -/
def Role.ofBit (bit : Nat) : Role := if bit = 1 then .peer1 else .peer0

/-- One level on a peer's climb: the 0-based node within a tree, and the slot. -/
structure ClimbStep where
  node : Nat
  role : Role
  deriving DecidableEq, Repr

/-- The loop of `roundUpPow2`: the word doubles modulo `2 ^ 32`. -/
def roundLoop : Nat → Nat → Nat → Option Nat
  | 0, _, _ => none
  | fuel + 1, rounded, count =>
    if rounded < count then roundLoop fuel (rounded * 2 % 2 ^ 32) count else some rounded

/-- Smallest power of two at least `count`. After 32 doublings the word is 0
for good, so a loop that has not stopped by then never does: `none`. -/
def roundUpPow2 (count : Nat) : Option Nat := roundLoop 33 1 count

/-- The loop of `reverseBits`. -/
def reverseLoop : Nat → Nat → Nat → Nat
  | 0, _, reversed => reversed
  | bits + 1, value, reversed => reverseLoop bits (value >>> 1) ((reversed <<< 1) ||| (value &&& 1))

/-- Reverse the low `bits` of `value`. -/
def reverseBits (value bits : Nat) : Nat := reverseLoop bits value 0

/-- Trailing zero bits of a word of at most `width` bits. -/
def countTrailingZeros : Nat → Nat → Nat
  | 0, _ => 0
  | width + 1, word => if word % 2 = 1 then 0 else countTrailingZeros width (word / 2) + 1

def getNodesPerDomain (maxNumPeers : Nat) : Option Nat := (roundUpPow2 maxNumPeers).map (· - 1)

/-- The loop of `buildClimbPath`, from the heap index `cur`. -/
def climbLoop : Nat → Nat → List ClimbStep
  | 0, _ => []
  | fuel + 1, cur =>
    if cur > 1 then ⟨cur / 2 - 1, Role.ofBit (cur &&& 1)⟩ :: climbLoop fuel (cur / 2) else []

/-- A peer's fixed leaf-to-root path. 32 halvings are enough for any word. -/
def buildClimbPath (maxNumPeers tid : Nat) : Option (List ClimbStep) :=
  (roundUpPow2 maxNumPeers).map fun numLeaves =>
    climbLoop 32 (numLeaves + reverseBits tid (countTrailingZeros 32 numLeaves))

/-! ### The leaf count -/

variable {count : Nat}

theorem roundLoop_zero (h : 0 < count) (fuel : Nat) : roundLoop fuel 0 count = none := by
  induction fuel with
  | zero => rfl
  | succ fuel ih => simpa [roundLoop, h] using ih

theorem double_word {j : Nat} (hj : j < 31) : 2 ^ j * 2 % 2 ^ 32 = 2 ^ (j + 1) := by
  rw [← Nat.pow_succ]
  exact Nat.mod_eq_of_lt (Nat.pow_lt_pow_right (by omega) (by omega))

/-- Up to `2 ^ 31` the count is rounded up; the exponent is the tree's depth. -/
theorem roundUpPow2_eq (h : count ≤ 2 ^ 31) : roundUpPow2 count = some (2 ^ Nat.clog 2 count) := by
  have hclog : Nat.clog 2 count ≤ 31 := Nat.clog_le_of_le_pow h
  -- the loop stands at `2 ^ j`, and has turns left for the doublings to come
  have loop : ∀ fuel j, j ≤ Nat.clog 2 count → Nat.clog 2 count < j + fuel →
      roundLoop fuel (2 ^ j) count = some (2 ^ Nat.clog 2 count) := by
    intro fuel
    induction fuel with
    | zero => intro j hj hfuel; omega
    | succ fuel ih =>
      intro j hj hfuel
      rw [roundLoop]
      by_cases hlt : 2 ^ j < count
      · have hjlt : j < Nat.clog 2 count := by
          by_contra hge
          have hle : count ≤ 2 ^ j :=
            (Nat.le_pow_clog (by omega) count).trans (Nat.pow_le_pow_right (by omega) (by omega))
          omega
        rw [if_pos hlt, double_word (by omega)]
        exact ih (j + 1) hjlt (by omega)
      · have hle : Nat.clog 2 count ≤ j := Nat.clog_le_of_le_pow (by omega)
        rw [if_neg hlt, Nat.le_antisymm hj hle]
  exact loop 33 0 (Nat.zero_le _) (by omega)

/-- Beyond `2 ^ 31` the loop never ends. -/
theorem roundUpPow2_eq_none (h : 2 ^ 31 < count) : roundUpPow2 count = none := by
  have loop : ∀ fuel j, j ≤ 31 → roundLoop fuel (2 ^ j) count = none := by
    intro fuel
    induction fuel with
    | zero => intros; rfl
    | succ fuel ih =>
      intro j hj
      have hlt : 2 ^ j < count := (Nat.pow_le_pow_right (by omega) hj).trans_lt h
      rw [roundLoop, if_pos hlt]
      rcases Nat.lt_or_eq_of_le hj with hj | rfl
      · rw [double_word hj]
        exact ih (j + 1) (by omega)
      · exact roundLoop_zero (by omega) fuel
  exact loop 33 0 (by omega)

theorem roundUpPow2_some {count leaves : Nat} (h : roundUpPow2 count = some leaves) :
    count ≤ 2 ^ 31 ∧ leaves = 2 ^ Nat.clog 2 count := by
  rcases Nat.lt_or_ge (2 ^ 31) count with hgt | hle
  · rw [roundUpPow2_eq_none hgt] at h
    cases h
  · rw [roundUpPow2_eq hle] at h
    exact ⟨hle, (Option.some.inj h).symm⟩

/-! ### The leaf permutation -/

theorem reverse_step (value reversed : Nat) :
    (reversed <<< 1) ||| (value &&& 1) = reversed * 2 + value % 2 := by
  rw [Nat.and_one_is_mod, Nat.shiftLeft_eq, Nat.pow_one, Nat.mul_comm reversed 2,
    ← Nat.pow_one 2, Nat.two_pow_add_eq_or_of_lt (by omega)]

theorem reverseLoop_eq (bits value reversed : Nat) :
    reverseLoop bits value reversed = reversed * 2 ^ bits + reverseBits value bits := by
  induction bits generalizing value reversed with
  | zero => simp [reverseBits, reverseLoop]
  | succ bits ih =>
    rw [reverseBits, reverseLoop, reverseLoop, ih, ih, reverse_step, reverse_step, Nat.pow_succ]
    ring

theorem reverseBits_succ (value bits : Nat) :
    reverseBits value (bits + 1) = value % 2 * 2 ^ bits + reverseBits (value / 2) bits := by
  rw [reverseBits, reverseLoop, reverseLoop_eq, reverse_step]
  simp [Nat.shiftRight_eq_div_pow]

theorem reverseBits_lt (value bits : Nat) : reverseBits value bits < 2 ^ bits := by
  induction bits generalizing value with
  | zero => simp [reverseBits, reverseLoop]
  | succ bits ih =>
    have hih := ih (value / 2)
    rw [reverseBits_succ, Nat.pow_succ]
    rcases Nat.mod_two_eq_zero_or_one value with h | h <;> rw [h] <;> omega

theorem reverseBits_inj {bits u v : Nat} (hu : u < 2 ^ bits) (hv : v < 2 ^ bits)
    (h : reverseBits u bits = reverseBits v bits) : u = v := by
  induction bits generalizing u v with
  | zero =>
    rw [Nat.pow_zero] at hu hv
    omega
  | succ bits ih =>
    have hlu := reverseBits_lt (u / 2) bits
    have hlv := reverseBits_lt (v / 2) bits
    rw [Nat.pow_succ] at hu hv
    rw [reverseBits_succ, reverseBits_succ] at h
    -- the low bit is the high bit of the reversal, and the rest recurs
    rcases Nat.mod_two_eq_zero_or_one u with hu₀ | hu₀ <;>
      rcases Nat.mod_two_eq_zero_or_one v with hv₀ | hv₀ <;> rw [hu₀, hv₀] at h
    · have := ih (u := u / 2) (v := v / 2) (by omega) (by omega) (by omega)
      omega
    · omega
    · omega
    · have := ih (u := u / 2) (v := v / 2) (by omega) (by omega) (by omega)
      omega

theorem countTrailingZeros_two_pow {k width : Nat} (h : k < width) :
    countTrailingZeros width (2 ^ k) = k := by
  induction k generalizing width with
  | zero =>
    obtain ⟨width, rfl⟩ := Nat.exists_eq_succ_of_ne_zero (by omega : width ≠ 0)
    simp [countTrailingZeros]
  | succ k ih =>
    obtain ⟨width, rfl⟩ := Nat.exists_eq_succ_of_ne_zero (by omega : width ≠ 0)
    have heven : 2 ^ (k + 1) % 2 ≠ 1 := by
      rw [Nat.pow_succ]
      omega
    have hhalf : 2 ^ (k + 1) / 2 = 2 ^ k := by
      rw [Nat.pow_succ]
      omega
    rw [countTrailingZeros, if_neg heven, hhalf, ih (by omega)]

/-! ### The path -/

/-- The bracket of a region of `n` peers. -/
def bracket (n : Nat) : Bracket (Fin n) where
  depth := Nat.clog 2 n
  leaf p := 2 ^ Nat.clog 2 n + reverseBits p (Nat.clog 2 n)
  leaf_ge p := Nat.le_add_right _ _
  leaf_lt p := by
    have hlt := reverseBits_lt p (Nat.clog 2 n)
    rw [Nat.pow_succ]
    omega
  leaf_inj p q h := by
    have hcap : n ≤ 2 ^ Nat.clog 2 n := Nat.le_pow_clog (by omega) n
    have hp : p.val < 2 ^ Nat.clog 2 n := p.isLt.trans_le hcap
    have hq : q.val < 2 ^ Nat.clog 2 n := q.isLt.trans_le hcap
    exact Fin.ext (reverseBits_inj hp hq (by simpa using h))

theorem climbLoop_eq {k fuel cur : Nat} (hfuel : k < fuel) (hge : 2 ^ k ≤ cur)
    (hlt : cur < 2 ^ (k + 1)) : climbLoop fuel cur = (List.range k).map fun ℓ =>
      ⟨cur / 2 ^ (ℓ + 1) - 1, Role.ofBit (cur / 2 ^ ℓ % 2)⟩ := by
  induction k generalizing fuel cur with
  | zero =>
    obtain ⟨fuel, rfl⟩ := Nat.exists_eq_succ_of_ne_zero (by omega : fuel ≠ 0)
    have hone : ¬ cur > 1 := by
      rw [Nat.pow_one] at hlt
      omega
    rw [climbLoop, if_neg hone, List.range_zero, List.map_nil]
  | succ k ih =>
    obtain ⟨fuel, rfl⟩ := Nat.exists_eq_succ_of_ne_zero (by omega : fuel ≠ 0)
    have hpos := Nat.two_pow_pos k
    rw [Nat.pow_succ] at hge hlt
    have hup : cur > 1 := by omega
    rw [climbLoop, if_pos hup, ih (by omega) (by omega) (by omega), List.range_succ_eq_map,
      List.map_cons, List.map_map, Nat.and_one_is_mod]
    congr 1
    · simp
    · refine List.map_congr_left fun ℓ _ => ?_
      simp only [Function.comp_apply, Nat.div_div_eq_div_mul, ← Nat.pow_succ']

/-- The step of peer `p` at a level of its climb. -/
def climbStep {n : Nat} (p : Fin n) (ℓ : Nat) : ClimbStep :=
  ⟨(bracket n).seat p (ℓ + 1) - 1, Role.ofBit ((bracket n).seat p ℓ % 2)⟩

variable {n : Nat}

/-- **The path climbs the bracket.** -/
theorem buildClimbPath_eq (p : Fin n) {path : List ClimbStep} (h : buildClimbPath n p = some path) :
    path = (List.range (bracket n).depth).map (climbStep p) := by
  rw [buildClimbPath, Option.map_eq_some_iff] at h
  obtain ⟨leaves, hleaves, rfl⟩ := h
  obtain ⟨hn, rfl⟩ := roundUpPow2_some hleaves
  have hdepth : Nat.clog 2 n ≤ 31 := Nat.clog_le_of_le_pow hn
  rw [countTrailingZeros_two_pow (by omega)]
  exact climbLoop_eq (Nat.lt_succ_of_le hdepth) ((bracket n).leaf_ge p) ((bracket n).leaf_lt p)

example : buildClimbPath 4 1 = some [⟨2, .peer0⟩, ⟨0, .peer1⟩] := by decide

/-! ### Two climbs -/

/-- The climb of a leaf, step by step. -/
def ascent {n : Nat} (p : Fin n) : List ClimbStep :=
  (List.range (bracket n).depth).map (climbStep p)

/-- The spare leaves climb the same tree: the path depends on the peer count
only through the leaf count. -/
theorem buildClimbPath_some (hn : n ≤ 2 ^ 31) (p : Fin (2 ^ Nat.clog 2 n)) :
    buildClimbPath n p = some (ascent p) := by
  have hpow : 2 ^ Nat.clog 2 n ≤ 2 ^ 31 :=
    Nat.pow_le_pow_right (by omega) (Nat.clog_le_of_le_pow hn)
  have hsame : buildClimbPath n p = buildClimbPath (2 ^ Nat.clog 2 n) p := by
    unfold buildClimbPath
    rw [roundUpPow2_eq hn, roundUpPow2_eq hpow, Nat.clog_pow 2 _ (by omega)]
  rcases hpath : buildClimbPath n p with _ | path
  · rw [buildClimbPath, roundUpPow2_eq hn] at hpath
    cases hpath
  · exact congrArg some (buildClimbPath_eq p (hsame ▸ hpath))

theorem climbStep_node_lt {n ℓ : Nat} (p : Fin n) (hℓ : ℓ < (bracket n).depth) :
    (climbStep p ℓ).node < 2 ^ (bracket n).depth - 1 := by
  have hlow := (bracket n).two_le_seat (i := p) hℓ
  have hhigh : (bracket n).seat p (ℓ + 1) < 2 ^ ((bracket n).depth - (ℓ + 1) + 1) :=
    Bracket.seat_lt (by omega)
  have hpow : 2 ^ ((bracket n).depth - (ℓ + 1) + 1) ≤ 2 ^ (bracket n).depth :=
    Nat.pow_le_pow_right (by omega) (by omega)
  show (bracket n).seat p (ℓ + 1) - 1 < _
  rw [Bracket.seat_succ] at hhigh ⊢
  omega

theorem ascent_last (p : Fin n) (h : ascent p ≠ []) :
    (ascent p).getLast?.map ClimbStep.node = some 0 := by
  have hroot := (bracket n).seat_depth (i := p)
  unfold ascent at h ⊢
  rcases hdepth : (bracket n).depth with _ | k <;> rw [hdepth] at h hroot
  · exact absurd rfl h
  · simp [List.range_succ, climbStep, hroot]

/-- Two climbs stand on one node only at one level, where their seats have one parent. -/
theorem eq_of_climbStep_node {n ℓ m : Nat} {p q : Fin n} (hℓ : ℓ < (bracket n).depth)
    (hm : m < (bracket n).depth) (h : (climbStep p ℓ).node = (climbStep q m).node) :
    ℓ = m ∧ (bracket n).seat p (ℓ + 1) = (bracket n).seat q (m + 1) := by
  have hp := (bracket n).two_le_seat (i := p) hℓ
  have hq := (bracket n).two_le_seat (i := q) hm
  have hseat : (bracket n).seat p (ℓ + 1) = (bracket n).seat q (m + 1) := by
    simp only [climbStep, Bracket.seat_succ] at h ⊢
    omega
  have hlevel := Bracket.level_eq (Nat.succ_le_of_lt hℓ) (Nat.succ_le_of_lt hm) hseat
  exact ⟨by omega, hseat⟩

/-- The steps of one climb below its meeting with another are over nodes the
other never visits. -/
theorem ascent_apart {n m : Nat} {p q : Fin n} (hm : m < (bracket n).depth)
    (hapart : ∀ ℓ ≤ m, (bracket n).seat p ℓ ≠ (bracket n).seat q ℓ) {step step' : ClimbStep}
    (hstep : step ∈ (List.range m).map (climbStep p)) (hstep' : step' ∈ ascent q) :
    step.node ≠ step'.node := by
  obtain ⟨ℓ, hℓ, rfl⟩ := List.mem_map.mp hstep
  obtain ⟨ℓ', hℓ', rfl⟩ := List.mem_map.mp hstep'
  rw [List.mem_range] at hℓ hℓ'
  intro hnode
  obtain ⟨rfl, hseat⟩ := eq_of_climbStep_node (by omega) hℓ' hnode
  exact hapart (ℓ + 1) (by omega) hseat

/-- A climb, cut at a step. -/
theorem ascent_cut {n m : Nat} (p : Fin n) (hm : m < (bracket n).depth) :
    ascent p = (List.range m).map (climbStep p) ++ climbStep p m ::
      (List.range ((bracket n).depth - (m + 1))).map fun ℓ => climbStep p (m + 1 + ℓ) := by
  have hdepth : (bracket n).depth = m + 1 + ((bracket n).depth - (m + 1)) := by omega
  rw [ascent, hdepth, List.range_add, List.range_succ, ← hdepth]
  simp

theorem ofBit_of_side_ne {c c' : Nat} (h : side c ≠ side c') :
    Role.ofBit (c' % 2) = (Role.ofBit (c % 2)).other := by
  unfold side at h
  rcases Nat.mod_two_eq_zero_or_one c with hc | hc <;>
    rcases Nat.mod_two_eq_zero_or_one c' with hc' | hc' <;> simp_all [Role.ofBit, Role.other]

/-- Two paths run over different nodes up to one step, meet there in opposite
roles, and are the same from then on. -/
def MeetOnce (path path' : List ClimbStep) : Prop :=
  ∃ before meet before' meet' after,
    path = before ++ meet :: after ∧ path' = before' ++ meet' :: after ∧
    before.length = before'.length ∧ meet.node = meet'.node ∧ meet'.role = meet.role.other ∧
    (∀ step ∈ before, ∀ step' ∈ path', step.node ≠ step'.node) ∧
    ∀ step' ∈ before', ∀ step ∈ path, step'.node ≠ step.node

theorem ascent_meetOnce {p q : Fin n} (hne : p ≠ q) : MeetOnce (ascent p) (ascent q) := by
  obtain ⟨m, hm, hapart, hside, hsame⟩ := (bracket n).exists_meeting hne
  have hafter : ∀ ℓ, climbStep p (m + 1 + ℓ) = climbStep q (m + 1 + ℓ) := by
    intro ℓ
    simp only [climbStep, hsame (m + 1 + ℓ) (by omega), hsame (m + 1 + ℓ + 1) (by omega)]
  have hq := ascent_cut q hm
  simp only [← hafter] at hq
  refine ⟨_, _, _, _, _, ascent_cut p hm, hq, by simp, ?_, ofBit_of_side_ne hside, ?_, ?_⟩
  · simp only [climbStep, hsame (m + 1) (by omega)]
  · exact fun _ hstep _ hstep' => ascent_apart hm hapart hstep hstep'
  · exact fun _ hstep' _ hstep => ascent_apart hm (fun ℓ hℓ => (hapart ℓ hℓ).symm) hstep' hstep

/-- **Climb paths form a tournament.** Every leaf climbs `log2` of the leaf
count in steps, over nodes of the tree, to the node 0, and any two climbs meet
once. -/
theorem climb_paths_form_tournament (maxNumPeers : Nat) (hle : maxNumPeers ≤ 2 ^ 31) :
    ∃ leaves, roundUpPow2 maxNumPeers = some leaves ∧ ∀ p < leaves,
      ∃ path, buildClimbPath maxNumPeers p = some path ∧
        path.length = Nat.log 2 leaves ∧ 2 ^ path.length = leaves ∧
        (∀ step ∈ path, step.node < leaves - 1) ∧
        (path ≠ [] → path.getLast?.map ClimbStep.node = some 0) ∧
        ∀ q < leaves, p ≠ q →
          ∃ path', buildClimbPath maxNumPeers q = some path' ∧ MeetOnce path path' := by
  have hdepth : (bracket (2 ^ Nat.clog 2 maxNumPeers)).depth = Nat.clog 2 maxNumPeers :=
    Nat.clog_pow 2 _ (by omega)
  refine ⟨_, roundUpPow2_eq hle, fun p hp => ⟨_, buildClimbPath_some hle ⟨p, hp⟩, ?_, ?_, ?_,
    ascent_last _, ?_⟩⟩
  · simp [ascent, hdepth, Nat.log_pow]
  · simp [ascent, hdepth]
  · intro step hstep
    obtain ⟨ℓ, hℓ, rfl⟩ := List.mem_map.mp hstep
    have hnode := climbStep_node_lt ⟨p, hp⟩ (List.mem_range.mp hℓ)
    rw [hdepth] at hnode
    exact hnode
  · intro q hq hne
    exact ⟨_, buildClimbPath_some hle ⟨q, hq⟩, ascent_meetOnce fun h => hne (Fin.val_eq_of_eq h)⟩

/-- Three peers, and the spare leaf of a fourth. -/
theorem climb_paths_form_tournament_three :
    ∃ path path', buildClimbPath 3 0 = some path ∧ buildClimbPath 3 3 = some path' ∧
      path.length = 2 ∧ MeetOnce path path' := by
  obtain ⟨leaves, hleaves, hall⟩ := climb_paths_form_tournament 3 (by decide)
  have hfour : roundUpPow2 3 = some 4 := by decide
  obtain rfl : leaves = 4 := Option.some.inj (hleaves.symm.trans hfour)
  obtain ⟨path, hpath, hlength, -, -, -, hmeet⟩ := hall 0 (by decide)
  obtain ⟨path', hpath', hmeets⟩ := hmeet 3 (by decide) (by decide)
  exact ⟨path, path', hpath, hpath', hlength.trans (by decide), hmeets⟩

end Cme.Tournament
