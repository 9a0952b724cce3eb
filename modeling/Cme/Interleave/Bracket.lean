import Mathlib.Algebra.Order.Group.Nat
import Mathlib.Data.Set.Finite.Lemmas
import Cme.Interleave.System

/-!
# Interleave — a knockout bracket of two-sided locks

A complete binary tree in heap numbering: the node `1` is the root and the
node `m` stands over the seats `2 * m` and `2 * m + 1`. Every contender owns
one leaf and climbs from it to the root, one level at a time. At level `ℓ` it
sits on the seat `leaf / 2 ^ ℓ` and contends for the node above with whoever
sits on the sibling seat; having won, the node is its seat one level up.

Each node is Peterson's lock for two sides: a contender writes itself on its
seat, gives the turn away, and passes once the sibling seat is blank or the
turn is its own. `Bracket.Fair` is the invariant of the whole tree, and there
is one lemma for each way a contender can move. Contenders that stopped moving
for good need no case of their own: whoever clears their seats, from the top
down, makes the moves in their place.
-/

namespace Interleave

open Function

/-- How far a contender is with the node at its level. -/
inductive Phase where
  | out
  | announced
  | waiting
  deriving DecidableEq, Repr

/-- A contender has won the levels below `level`, and is at `phase` of that one. -/
structure Standing where
  level : Nat
  phase : Phase
  deriving DecidableEq, Repr

/-- The contender is written on its seat at level `ℓ`. -/
def Standing.Active (x : Standing) (ℓ : Nat) : Prop :=
  ℓ < x.level ∨ (ℓ = x.level ∧ x.phase ≠ .out)

instance (x : Standing) (ℓ : Nat) : Decidable (x.Active ℓ) := by
  unfold Standing.Active
  infer_instance

/-- Contenders by their leaf, in a tree of `2 ^ depth` leaves. -/
structure Bracket (ι : Type) where
  depth : Nat
  leaf : ι → Nat
  leaf_ge : ∀ i, 2 ^ depth ≤ leaf i
  leaf_lt : ∀ i, leaf i < 2 ^ (depth + 1)
  leaf_inj : Function.Injective leaf

/-- The side of its node a seat is on. -/
def side (c : Nat) : Bool := c % 2 == 1

theorem eq_of_side {c c' : Nat} (hnode : c / 2 = c' / 2) (hside : side c = side c') : c = c' := by
  have hmod : c % 2 = c' % 2 := by
    unfold side at hside
    rcases Nat.mod_two_eq_zero_or_one c with h | h <;>
      rcases Nat.mod_two_eq_zero_or_one c' with h' | h' <;> simp [h, h'] at hside ⊢
  omega

namespace Bracket

variable {ι : Type} (B : Bracket ι)

/-- Where a contender sits at a level of its climb. -/
def seat (i : ι) (ℓ : Nat) : Nat := B.leaf i / 2 ^ ℓ

variable {B} {i j : ι} {ℓ m : Nat}

@[simp] theorem seat_zero : B.seat i 0 = B.leaf i := by simp [seat]

theorem seat_succ : B.seat i (ℓ + 1) = B.seat i ℓ / 2 := by
  rw [seat, seat, Nat.div_div_eq_div_mul, Nat.pow_succ]

theorem seat_ge (hℓ : ℓ ≤ B.depth) : 2 ^ (B.depth - ℓ) ≤ B.seat i ℓ := by
  rw [seat, Nat.le_div_iff_mul_le (Nat.two_pow_pos ℓ), ← Nat.pow_add, Nat.sub_add_cancel hℓ]
  exact B.leaf_ge i

theorem seat_lt (hℓ : ℓ ≤ B.depth) : B.seat i ℓ < 2 ^ (B.depth - ℓ + 1) := by
  rw [seat, Nat.div_lt_iff_lt_mul (Nat.two_pow_pos ℓ), ← Nat.pow_add]
  have hexp : B.depth - ℓ + 1 + ℓ = B.depth + 1 := by omega
  rw [hexp]
  exact B.leaf_lt i

/-- Every climb below the root is over a node. -/
theorem two_le_seat (hℓ : ℓ < B.depth) : 2 ≤ B.seat i ℓ := by
  have hge := B.seat_ge (i := i) (Nat.le_of_lt hℓ)
  have hpow : 2 ^ 1 ≤ 2 ^ (B.depth - ℓ) := Nat.pow_le_pow_right (by omega) (by omega)
  omega

theorem seat_lt_leaves : B.seat i ℓ < 2 ^ (B.depth + 1) :=
  Nat.lt_of_le_of_lt (Nat.div_le_self _ _) (B.leaf_lt i)

theorem seat_depth : B.seat i B.depth = 1 := by
  have hge := B.seat_ge (i := i) (Nat.le_refl B.depth)
  have hlt := B.seat_lt (i := i) (Nat.le_refl B.depth)
  rw [Nat.sub_self] at hge hlt
  omega

theorem level_eq (hℓ : ℓ ≤ B.depth) (hm : m ≤ B.depth) (h : B.seat i ℓ = B.seat j m) : ℓ = m := by
  have key : ∀ {i j : ι} {ℓ m : Nat}, ℓ ≤ B.depth → m ≤ B.depth → B.seat i ℓ = B.seat j m →
      ¬ ℓ < m := by
    intro i j ℓ m hℓ hm h hlt
    have hge := B.seat_ge (i := i) hℓ
    have hup := B.seat_lt (i := j) hm
    have hpow : 2 ^ (B.depth - m + 1) ≤ 2 ^ (B.depth - ℓ) :=
      Nat.pow_le_pow_right (by omega) (by omega)
    omega
  have h₁ := key hℓ hm h
  have h₂ := key hm hℓ h.symm
  omega

/-- **Two climbs meet once.** There is a level below which they sit apart, at
which they sit on the two sides of one node, and over which they sit together. -/
theorem exists_meeting (hne : i ≠ j) : ∃ m < B.depth, (∀ ℓ ≤ m, B.seat i ℓ ≠ B.seat j ℓ) ∧
    side (B.seat i m) ≠ side (B.seat j m) ∧ ∀ ℓ, m < ℓ → B.seat i ℓ = B.seat j ℓ := by
  classical
  have hroot : ∃ ℓ, B.seat i ℓ = B.seat j ℓ := ⟨B.depth, by rw [seat_depth, seat_depth]⟩
  have hleaf : B.seat i 0 ≠ B.seat j 0 := by
    rw [seat_zero, seat_zero]
    exact fun h => hne (B.leaf_inj h)
  -- the meeting is right below the first level they share
  obtain ⟨m, hm⟩ : ∃ m, Nat.find hroot = m + 1 := by
    refine Nat.exists_eq_succ_of_ne_zero fun hzero => hleaf ?_
    rw [← hzero]
    exact Nat.find_spec hroot
  have hapart : ∀ ℓ ≤ m, B.seat i ℓ ≠ B.seat j ℓ := fun ℓ hℓ => Nat.find_min hroot (by omega)
  have hmeet : B.seat i (m + 1) = B.seat j (m + 1) := hm ▸ Nat.find_spec hroot
  have hdepth : Nat.find hroot ≤ B.depth := Nat.find_min' hroot (by rw [seat_depth, seat_depth])
  refine ⟨m, by omega, hapart, fun hside => ?_, fun ℓ hℓ => ?_⟩
  · rw [seat_succ, seat_succ] at hmeet
    exact hapart m (Nat.le_refl m) (eq_of_side hmeet hside)
  · induction ℓ, hℓ using Nat.le_induction with
    | base => exact hmeet
    | succ ℓ _ ih => rw [seat_succ, seat_succ, ih]

/-- The whole tree is in order: seats say who is on them, a waiting contender
has yielded to a sibling that passed, and no node let two contenders pass. -/
structure Fair (B : Bracket ι) (x : ι → Standing) (line : Nat → Option ι) (turn : Nat → Bool) :
    Prop where
  bound : ∀ i, (x i).level < B.depth ∨ (x i = ⟨B.depth, .out⟩)
  line_active : ∀ i ℓ, ℓ < B.depth → (x i).Active ℓ → line (B.seat i ℓ) = some i
  active_line : ∀ i c, line c = some i → ∃ ℓ < B.depth, B.seat i ℓ = c ∧ (x i).Active ℓ
  turn_passed : ∀ i j ℓ, ℓ < B.depth → B.seat i (ℓ + 1) = B.seat j (ℓ + 1) → i ≠ j →
    ℓ < (x i).level → x j = ⟨ℓ, .waiting⟩ → turn (B.seat i (ℓ + 1)) = side (B.seat i ℓ)
  apart : ∀ i j ℓ, ℓ < B.depth → B.seat i (ℓ + 1) = B.seat j (ℓ + 1) →
    ℓ < (x i).level → ℓ < (x j).level → i = j

namespace Fair

variable {x : ι → Standing} {line : Nat → Option ι} {turn : Nat → Bool}

section

variable (h : Fair B x line turn)

include h

theorem level_le (i : ι) : (x i).level ≤ B.depth := by
  rcases h.bound i with hlt | heq
  · omega
  · rw [heq]

theorem eq_of_active (hℓ : ℓ < B.depth) (hi : (x i).Active ℓ) (hj : (x j).Active ℓ)
    (hseat : B.seat i ℓ = B.seat j ℓ) : i = j := by
  have hli := h.line_active i ℓ hℓ hi
  have hlj := h.line_active j ℓ hℓ hj
  rw [hseat, hlj] at hli
  exact (Option.some.inj hli).symm

theorem side_ne (hℓ : ℓ < B.depth) (hi : (x i).Active ℓ) (hj : (x j).Active ℓ)
    (hnode : B.seat i (ℓ + 1) = B.seat j (ℓ + 1)) (hne : i ≠ j) :
    side (B.seat i ℓ) ≠ side (B.seat j ℓ) := by
  intro hside
  rw [seat_succ, seat_succ] at hnode
  exact hne (h.eq_of_active hℓ hi hj (eq_of_side hnode hside))

/-- **Exclusion at the root.** One contender has won every level. -/
theorem champion_unique (hi : (x i).level = B.depth) (hj : (x j).level = B.depth) : i = j := by
  rcases Nat.eq_zero_or_pos B.depth with hzero | hpos
  · have hli := B.seat_depth (i := i)
    have hlj := B.seat_depth (i := j)
    rw [hzero, seat_zero] at hli hlj
    exact B.leaf_inj (hli.trans hlj.symm)
  · refine h.apart i j (B.depth - 1) (by omega) ?_ (by omega) (by omega)
    rw [Nat.sub_add_cancel hpos, seat_depth, seat_depth]

/-- Whoever may announce itself finds its seat blank: any other contender of
that seat would have won the same node below. -/
theorem seat_blank (hi : x i = ⟨ℓ, .out⟩) (hℓ : ℓ < B.depth) : line (B.seat i ℓ) = none := by
  rcases hl : line (B.seat i ℓ) with _ | j
  · rfl
  obtain ⟨m, hm, hseat, hact⟩ := h.active_line j _ hl
  have hlev : m = ℓ := level_eq (by omega) (by omega) hseat
  subst hlev
  have hij : i = j := by
    rcases m with _ | m
    · rw [seat_zero, seat_zero] at hseat
      exact (B.leaf_inj hseat).symm
    · refine h.apart i j m (by omega) hseat.symm ?_ ?_
      · rw [hi]
        exact Nat.lt_succ_self m
      · rcases hact with hlt | ⟨heq, -⟩ <;> omega
  subst hij
  rw [hi] at hact
  simp [Standing.Active] at hact

end

variable [DecidableEq ι]

section

variable (h : Fair B x line turn)

include h

theorem bound_update {v : Standing} (hv : v.level < B.depth ∨ v = ⟨B.depth, .out⟩) (j : ι) :
    (update x i v j).level < B.depth ∨ update x i v j = ⟨B.depth, .out⟩ := by
  by_cases hj : j = i
  · rwa [hj, update_self]
  · rw [update_of_ne hj]
    exact h.bound j

theorem announce (hi : x i = ⟨ℓ, .out⟩) (hℓ : ℓ < B.depth) : Fair B (update x i ⟨ℓ, .announced⟩)
      (update line (B.seat i ℓ) (some i)) turn := by
  have hblank := h.seat_blank hi hℓ
  have hold : ∀ {j m}, j ≠ i → m < B.depth → (x j).Active m → B.seat j m ≠ B.seat i ℓ := by
    intro j m hj hm hact hseat
    have hl := h.line_active j m hm hact
    rw [hseat, hblank] at hl
    cases hl
  refine ⟨h.bound_update (.inl hℓ), fun j m hm hact => ?_, fun j c hl => ?_,
    fun j k m hm hnode hne hpast hwait => ?_, fun j k m hm hnode hj hk => ?_⟩
  · by_cases hj : j = i
    · subst hj
      rw [update_self] at hact
      by_cases hml : m = ℓ
      · rw [hml, update_self]
      · have hlt : m < ℓ := hact.resolve_right (fun hr => hml hr.1)
        rw [update_of_ne (fun hs => hml (level_eq (by omega) (by omega) hs))]
        exact h.line_active j m hm (.inl (by rw [hi]; exact hlt))
    · rw [update_of_ne hj] at hact
      rw [update_of_ne (hold hj hm hact)]
      exact h.line_active j m hm hact
  · by_cases hc : c = B.seat i ℓ
    · rw [hc, update_self] at hl
      cases hl
      exact ⟨ℓ, hℓ, hc.symm, by rw [update_self]; exact .inr ⟨rfl, by simp⟩⟩
    · rw [update_of_ne hc] at hl
      obtain ⟨m, hm, hseat, hact⟩ := h.active_line j c hl
      refine ⟨m, hm, hseat, ?_⟩
      by_cases hj : j = i
      · subst hj
        rw [hi] at hact
        rw [update_self]
        exact .inl (hact.resolve_right (fun hr => hr.2 rfl))
      · rwa [update_of_ne hj]
  · have hk : k ≠ i := by
      rintro rfl
      simp at hwait
    rw [update_of_ne hk] at hwait
    refine h.turn_passed j k m hm hnode hne ?_ hwait
    by_cases hj : j = i
    · subst hj
      simpa [hi] using hpast
    · simpa [update_of_ne hj] using hpast
  · have hlev : ∀ a, (update x i ⟨ℓ, .announced⟩ a).level = (x a).level :=
      apply_update_eq Standing.level (by rw [hi])
    rw [hlev] at hj hk
    exact h.apart j k m hm hnode hj hk

theorem yieldTurn (hi : x i = ⟨ℓ, .announced⟩) (hℓ : ℓ < B.depth) :
    Fair B (update x i ⟨ℓ, .waiting⟩) line
      (update turn (B.seat i (ℓ + 1)) (!side (B.seat i ℓ))) := by
  have hact : (x i).Active ℓ := .inr ⟨by rw [hi], by rw [hi]; simp⟩
  have hsame : ∀ j m, (update x i ⟨ℓ, .waiting⟩ j).Active m ↔ (x j).Active m := by
    intro j m
    by_cases hj : j = i
    · subst hj
      simp [Standing.Active, hi]
    · rw [update_of_ne hj]
  have hlev : ∀ j, (update x i ⟨ℓ, .waiting⟩ j).level = (x j).level :=
    apply_update_eq Standing.level (by rw [hi])
  refine ⟨h.bound_update (.inl hℓ), fun j m hm ha => h.line_active j m hm ((hsame j m).mp ha),
    fun j c hl => ?_, fun j k m hm hnode hne hpast hwait => ?_, fun j k m hm hnode hj hk => ?_⟩
  · obtain ⟨m, hm, hseat, ha⟩ := h.active_line j c hl
    exact ⟨m, hm, hseat, (hsame j m).mpr ha⟩
  · rw [hlev] at hpast
    by_cases hmine : B.seat j (m + 1) = B.seat i (ℓ + 1)
    · -- at the contender's own node, whoever passed is on the other side
      have hml : m = ℓ := by
        have := level_eq (by omega) (by omega) hmine
        omega
      subst hml
      have hji : j ≠ i := by
        rintro rfl
        rw [hi] at hpast
        exact Nat.lt_irrefl m hpast
      have hside := h.side_ne hℓ (.inl hpast) hact hmine hji
      rw [hmine, update_self]
      cases hs : side (B.seat j m) <;> cases hs' : side (B.seat i m) <;> simp_all
    · rw [update_of_ne hmine]
      have hki : k ≠ i := by
        rintro rfl
        rw [update_self] at hwait
        have hml : m = ℓ := (Standing.mk.inj hwait).1.symm
        exact hmine (hml ▸ hnode)
      rw [update_of_ne hki] at hwait
      exact h.turn_passed j k m hm hnode hne hpast hwait
  · rw [hlev] at hj hk
    exact h.apart j k m hm hnode hj hk

/-- A waiting contender passes where every rival at its node has yielded. -/
theorem pass (hi : x i = ⟨ℓ, .waiting⟩) (hℓ : ℓ < B.depth)
    (hyield : ∀ j, j ≠ i → B.seat j (ℓ + 1) = B.seat i (ℓ + 1) → (x j).Active ℓ →
      turn (B.seat i (ℓ + 1)) = side (B.seat i ℓ)) :
    Fair B (update x i ⟨ℓ + 1, .out⟩) line turn := by
  have hact : (x i).Active ℓ := .inr ⟨by rw [hi], by rw [hi]; simp⟩
  have hsame : ∀ j m, (update x i ⟨ℓ + 1, .out⟩ j).Active m ↔ (x j).Active m := by
    intro j m
    by_cases hj : j = i
    · subst hj
      simp [Standing.Active, hi]
      omega
    · rw [update_of_ne hj]
  -- nobody else is past the node: it would have kept the contender waiting
  have hfirst : ∀ j, B.seat j (ℓ + 1) = B.seat i (ℓ + 1) → ℓ < (x j).level → j = i := by
    intro j hnode hpast
    by_contra hne
    have hside := h.side_ne hℓ (.inl hpast) hact hnode hne
    have hkept := h.turn_passed j i ℓ hℓ hnode hne hpast hi
    rw [hnode, hyield j hne hnode (.inl hpast)] at hkept
    exact hside hkept.symm
  refine ⟨fun j => ?_, fun j m hm ha => h.line_active j m hm ((hsame j m).mp ha),
    fun j c hl => ?_, fun j k m hm hnode hne hpast hwait => ?_, fun j k m hm hnode hj hk => ?_⟩
  · refine h.bound_update ?_ j
    rcases Nat.lt_or_ge (ℓ + 1) B.depth with hlt | hge
    · exact .inl hlt
    · have heq : ℓ + 1 = B.depth := by omega
      exact .inr (by rw [heq])
  · obtain ⟨m, hm, hseat, ha⟩ := h.active_line j c hl
    exact ⟨m, hm, hseat, (hsame j m).mpr ha⟩
  · have hki : k ≠ i := by
      rintro rfl
      simp at hwait
    rw [update_of_ne hki] at hwait
    by_cases hj : j = i
    · subst hj
      rw [update_self] at hpast
      rcases Nat.lt_or_ge m ℓ with hlt | hge
      · exact h.turn_passed j k m hm hnode hne (by rw [hi]; exact hlt) hwait
      · have hml : m = ℓ := by
          have : m < ℓ + 1 := hpast
          omega
        subst hml
        exact hyield k hki hnode.symm (.inr ⟨by rw [hwait], by rw [hwait]; simp⟩)
    · rw [update_of_ne hj] at hpast
      exact h.turn_passed j k m hm hnode hne hpast hwait
  · have hlev : ∀ a, m < (update x i ⟨ℓ + 1, .out⟩ a).level →
        m < (x a).level ∨ (a = i ∧ m = ℓ) := by
      intro a ha
      by_cases hai : a = i
      · subst hai
        rw [update_self] at ha
        rw [hi]
        exact (Nat.lt_or_eq_of_le (Nat.le_of_lt_succ ha)).imp_right fun heq => ⟨rfl, heq⟩
      · rw [update_of_ne hai] at ha
        exact .inl ha
    rcases hlev j hj with hj' | ⟨hji, hjℓ⟩ <;> rcases hlev k hk with hk' | ⟨hki, hkℓ⟩
    · exact h.apart j k m hm hnode hj' hk'
    · subst hki hkℓ
      exact hfirst j hnode hj'
    · subst hji hjℓ
      exact (hfirst k hnode.symm hk').symm
    · exact hji.trans hki.symm

theorem pass_turn (hi : x i = ⟨ℓ, .waiting⟩) (hℓ : ℓ < B.depth)
    (hturn : turn (B.seat i (ℓ + 1)) = side (B.seat i ℓ)) :
    Fair B (update x i ⟨ℓ + 1, .out⟩) line turn :=
  h.pass hi hℓ fun _ _ _ _ => hturn

theorem pass_blank (hi : x i = ⟨ℓ, .waiting⟩) (hℓ : ℓ < B.depth)
    (hblank : ∀ c, c / 2 = B.seat i ℓ / 2 → side c = !side (B.seat i ℓ) → line c = none) :
    Fair B (update x i ⟨ℓ + 1, .out⟩) line turn := by
  refine h.pass hi hℓ fun j hj hnode hact => ?_
  have hside := h.side_ne hℓ hact (.inr ⟨by rw [hi], by rw [hi]; simp⟩) hnode hj
  rw [seat_succ, seat_succ] at hnode
  have hnone := hblank _ hnode (by
    cases hs : side (B.seat j ℓ) <;> cases hs' : side (B.seat i ℓ) <;> simp_all)
  rw [h.line_active j ℓ hℓ hact] at hnone
  cases hnone

/-- The topmost seat of a contender is cleared, by whomever. -/
theorem retract (hℓ : ℓ < B.depth) (hact : (x i).Active ℓ) (htop : ∀ m, ℓ < m → ¬ (x i).Active m) :
    Fair B (update x i ⟨ℓ, .out⟩) (update line (B.seat i ℓ) none) turn := by
  -- it is active where it was, less this level
  have hlow : ∀ j m, (update x i ⟨ℓ, .out⟩ j).Active m ↔
      (x j).Active m ∧ ¬ (j = i ∧ m = ℓ) := by
    intro j m
    by_cases hj : j = i
    · subst hj
      have hmono : m < ℓ → (x j).Active m := by
        intro hm
        rcases hact with hlt | ⟨heq, -⟩
        · exact .inl (by omega)
        · exact .inl (by omega)
      have hnot : ℓ < m → ¬ (x j).Active m := htop m
      simp only [update_self, true_and]
      constructor
      · rintro (hlt | ⟨-, hne⟩)
        · exact ⟨hmono hlt, Nat.ne_of_lt hlt⟩
        · exact absurd rfl hne
      · rintro ⟨ha, hne⟩
        rcases Nat.lt_trichotomy m ℓ with hlt | heq | hgt
        · exact .inl hlt
        · exact absurd heq hne
        · exact absurd ha (hnot hgt)
    · simp [hj]
  have hlev : ∀ j, (update x i ⟨ℓ, .out⟩ j).level ≤ (x j).level := by
    intro j
    by_cases hj : j = i
    · subst hj
      rw [update_self]
      rcases hact with hlt | ⟨heq, -⟩
      · exact Nat.le_of_lt hlt
      · exact Nat.le_of_eq heq
    · rw [update_of_ne hj]
  refine ⟨h.bound_update (.inl hℓ), fun j m hm ha => ?_, fun j c hl => ?_,
    fun j k m hm hnode hne hpast hwait => ?_, fun j k m hm hnode hj hk => ?_⟩
  · obtain ⟨hold, hne⟩ := (hlow j m).mp ha
    have hseat : B.seat j m ≠ B.seat i ℓ := by
      intro hseat
      have hml : m = ℓ := level_eq (by omega) (by omega) hseat
      subst hml
      exact hne ⟨h.eq_of_active hm hold hact hseat, rfl⟩
    rw [update_of_ne hseat]
    exact h.line_active j m hm hold
  · by_cases hc : c = B.seat i ℓ
    · rw [hc, update_self] at hl
      cases hl
    · rw [update_of_ne hc] at hl
      obtain ⟨m, hm, hseat, ha⟩ := h.active_line j c hl
      refine ⟨m, hm, hseat, (hlow j m).mpr ⟨ha, ?_⟩⟩
      rintro ⟨rfl, rfl⟩
      exact hc hseat.symm
  · have hki : k ≠ i := by
      rintro rfl
      simp at hwait
    rw [update_of_ne hki] at hwait
    exact h.turn_passed j k m hm hnode hne (Nat.lt_of_lt_of_le hpast (hlev j)) hwait
  · exact h.apart j k m hm hnode (Nat.lt_of_lt_of_le hj (hlev j)) (Nat.lt_of_lt_of_le hk (hlev k))

end

omit [DecidableEq ι] in
theorem init (turn : Nat → Bool) : Fair B (fun _ => ⟨0, .out⟩) (fun _ => none) turn := by
  refine ⟨fun i => ?_, fun i ℓ _ ha => ?_, fun i c hl => ?_, fun i j ℓ _ _ _ hpast _ => ?_,
    fun i j ℓ _ _ hpast _ => ?_⟩
  · rcases Nat.eq_zero_or_pos B.depth with hzero | hpos
    · exact .inr (by rw [hzero])
    · exact .inl hpos
  · simp [Standing.Active] at ha
  · cases hl
  · exact absurd hpast (Nat.not_lt_zero ℓ)
  · exact absurd hpast (Nat.not_lt_zero ℓ)

end Fair

end Bracket

end Interleave
