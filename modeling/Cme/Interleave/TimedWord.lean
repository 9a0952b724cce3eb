import Mathlib.Data.Nat.Find
import Mathlib.Tactic.Common

/-!
# Interleave — a last-writer-wins word in real time

Several parties write one word that has no compare-and-swap. A party *bids*: it
reads the word at an instant where it may be taken, and issues a store of its own
value, which lands at a later instant. A party that finds its own value standing
may *withdraw*: it issues a store that empties the word and lands some time after
that check. A store that has landed is what the word reads as until the next one
lands, so a bid or a withdrawal may erase any value.

Three lengths of time bound what the stores can do:

* `window` and `lag`: a bid that counts lands at most `window + lag` after its read;
* `stall` and `lag`: a withdrawal lands at most `stall + lag` after its check.

`Lawful` says what a history of such a word obeys. A value is *checked* at an
instant when its author found it standing there and long enough after the landing
(`Aged`): `window + lag` after a bid that counts, `stall + lag` after any other.

## Results

* `Lawful.withdrawn_by` — at a check every earlier withdrawal has landed, so no two
  withdrawals are ever under way at once.
* `Lawful.apart` — after a value is confirmed no other value is checked within
  `stall + lag`, unless its author withdrew it or was past using it before.
-/

namespace Interleave

/-- A store of the author's own value. -/
structure Bid (V : Type) where
  val : V
  /-- When the word was read and found open. -/
  read : Nat
  /-- When the store was issued. -/
  issue : Nat
  /-- When the store took effect. -/
  land : Nat

/-- A store that empties the word. -/
structure Withdrawal (V : Type) where
  val : V
  /-- When the author found its own value standing. -/
  check : Nat
  land : Nat

/-- The lengths of time the stores keep to. -/
structure Pace where
  window : Nat
  lag : Nat
  stall : Nat

/-- The word at every instant, the stores that have landed, and the instants at
which an author found its value standing and went on to use it. -/
structure WordHistory (V : Type) where
  word : Nat → Option V
  bids : List (Bid V)
  withdrawals : List (Withdrawal V)
  confirmed : V → Nat → Prop
  /-- Why a bid could be made on a value that was not its author's. -/
  spent : V → Bid V → Prop

namespace WordHistory

variable {V : Type} {h : WordHistory V} {p : Pace}

/-- The author of `v` found it standing at `k` and acted on it. -/
def Checked (h : WordHistory V) (v : V) (k : Nat) : Prop :=
  h.confirmed v k ∨ ∃ x ∈ h.withdrawals, x.val = v ∧ x.check = k

/-- The bid landed long enough before the instant `k`. -/
def Aged (p : Pace) (b : Bid V) (k : Nat) : Prop :=
  (b.land ≤ b.read + p.window + p.lag ∧ b.land + p.window + p.lag ≤ k) ∨
  b.land + p.stall + p.lag ≤ k

/-- By the time bid `b` was issued over `e`, the author of `e` was past using it:
its bids are `stall` old, its withdrawals have landed, and it checks no more. -/
structure Past (h : WordHistory V) (p : Pace) (e : V) (b : Bid V) : Prop where
  aged : ∀ c ∈ h.bids, c.val = e → c.land ≤ b.read → c.land + p.stall ≤ b.issue
  landed : ∀ x ∈ h.withdrawals, x.val = e → x.land ≤ b.issue
  quit : ∀ k, h.Checked e k → k ≤ b.issue

/-- What a history of the word obeys. -/
structure Lawful (h : WordHistory V) (p : Pace) : Prop where
  /-- The word changes only where a store lands. -/
  changed : ∀ t₁ t₂, t₁ ≤ t₂ → h.word t₁ ≠ h.word t₂ →
    (∃ b ∈ h.bids, h.word t₂ = some b.val ∧ t₁ < b.land ∧ b.land ≤ t₂) ∨
    (h.word t₂ = none ∧ ∃ x ∈ h.withdrawals, t₁ < x.land ∧ x.land ≤ t₂)
  /-- A bid is made on an empty word, on the author's own value, or on a spent one. -/
  taken : ∀ b ∈ h.bids, h.word b.read = none ∨ h.word b.read = some b.val ∨
    ∃ e, h.word b.read = some e ∧ h.spent e b
  past : ∀ e b, h.spent e b → h.Past p e b
  read_lt_land : ∀ b ∈ h.bids, b.read < b.land
  issue_le_land : ∀ b ∈ h.bids, b.issue ≤ b.land
  stands : ∀ v k, h.Checked v k → h.word k = some v
  aged : ∀ v k, h.Checked v k → ∀ b ∈ h.bids, b.val = v → b.land ≤ k → Aged p b k
  /-- A confirmed value has stood the longer time. -/
  settled : ∀ v k, h.confirmed v k → ∀ b ∈ h.bids, b.val = v → b.land ≤ k →
    b.land + p.window + p.lag ≤ k
  within : ∀ x ∈ h.withdrawals, x.land ≤ x.check + p.stall + p.lag
  check_lt_land : ∀ x ∈ h.withdrawals, x.check < x.land
  /-- An author's withdrawals land before its next check. -/
  own_landed : ∀ v k, h.Checked v k → ∀ x ∈ h.withdrawals, x.val = v → x.check < k → x.land ≤ k
  once : ∀ x ∈ h.withdrawals, ∀ y ∈ h.withdrawals, x.val = y.val → x.check = y.check →
    x.land = y.land

variable (H : h.Lawful p)

include H

/-- A value that stands after another was bid in between; the first such bid did
not find it standing. -/
theorem Lawful.first_bid {t k : Nat} {u v : V} (htk : t ≤ k) (hu : h.word t = some u)
    (hv : h.word k = some v) (hne : u ≠ v) : ∃ b ∈ h.bids, b.val = v ∧ t < b.land ∧ b.land ≤ k ∧
      (t ≤ b.read → h.word b.read ≠ some v) := by
  classical
  -- the earliest landing of `v` after `t`
  let lands := fun l => ∃ b ∈ h.bids, b.val = v ∧ b.land = l ∧ t < l ∧ l ≤ k
  have hex : ∃ l, lands l := by
    rcases H.changed t k htk (by rw [hu, hv]; simpa using hne) with ⟨b, hb, hw, hlt, hle⟩ | ⟨hw, -⟩
    · rw [hv] at hw
      exact ⟨b.land, b, hb, (Option.some.inj hw).symm, rfl, hlt, hle⟩
    · rw [hv] at hw
      cases hw
  obtain ⟨b, hb, hbv, hbl, hlt, hle⟩ := Nat.find_spec hex
  refine ⟨b, hb, hbv, by omega, by omega, fun htr hown => ?_⟩
  rcases H.changed t b.read htr (by rw [hu, hown]; simpa using hne) with
    ⟨c, hc, hw, hclt, hcle⟩ | ⟨hw, -⟩
  · rw [hown] at hw
    have hmin := Nat.find_min' hex
      ⟨c, hc, (Option.some.inj hw).symm, rfl, hclt, by have := H.read_lt_land b hb; omega⟩
    have := H.read_lt_land b hb
    omega
  · rw [hown] at hw
    cases hw

/-- A word that was emptied was emptied by a withdrawal. -/
theorem Lawful.emptied {t r : Nat} {u : V} (htr : t ≤ r) (hu : h.word t = some u)
    (hr : h.word r = none) : ∃ x ∈ h.withdrawals, t < x.land ∧ x.land ≤ r := by
  rcases H.changed t r htr (by rw [hu, hr]; nofun) with ⟨b, -, hw, -⟩ | ⟨-, hx⟩
  · rw [hr] at hw
    cases hw
  · exact hx

theorem Lawful.bid_of_stands {t r : Nat} {e : V} (htr : t ≤ r) (ht : h.word t ≠ some e)
    (hr : h.word r = some e) : ∃ b ∈ h.bids, b.val = e ∧ t < b.land ∧ b.land ≤ r := by
  rcases H.changed t r htr (by rw [hr]; exact ht) with ⟨b, hb, hw, hlt, hle⟩ | ⟨hw, -⟩
  · rw [hr] at hw
    exact ⟨b, hb, (Option.some.inj hw).symm, hlt, hle⟩
  · rw [hr] at hw
    cases hw

/-- At a check, every withdrawal whose own check came before has landed. -/
theorem Lawful.withdrawn_by {v : V} {k : Nat} (hk : h.Checked v k)
    {y : Withdrawal V} (hy : y ∈ h.withdrawals) (hyk : y.check < k) : y.land ≤ k := by
  -- the check at `k` is the first to come before such a landing
  induction k using Nat.strongRecOn generalizing v y with
  | _ k ih =>
  by_contra hlate
  have hstands := H.stands v k hk
  have hycheck : h.Checked y.val y.check := .inr ⟨y, hy, rfl, rfl⟩
  have hystands := H.stands _ _ hycheck
  have hywithin := H.within y hy
  by_cases hne : y.val = v
  · exact hlate (H.own_landed v k hk y hy hne hyk)
  obtain ⟨b, hb, hbv, hlt, hle, hfresh⟩ := H.first_bid (by omega) hystands hstands hne
  have hrl := H.read_lt_land b hb
  have hil := H.issue_le_land b hb
  rcases H.aged v k hk b hb hbv hle with ⟨hcounts, hage⟩ | hage
  swap
  · omega
  by_cases hr : y.check < b.read
  · -- the bid was made on a word that had been opened since the withdrawal's check
    rcases H.taken b hb with hopen | hown | ⟨e, he, hspent⟩
    · obtain ⟨z, hz, hzlt, hzle⟩ := H.emptied (by omega) hystands hopen
      have hzc := H.check_lt_land z hz
      rcases Nat.lt_trichotomy z.check y.check with hlt' | heq | hgt
      · have := ih y.check hyk hycheck hz hlt'
        omega
      · have hzstands := H.stands _ _ (.inr ⟨z, hz, rfl, rfl⟩)
        rw [heq, hystands] at hzstands
        have := H.once y hy z hz (Option.some.inj hzstands) heq.symm
        omega
      · have := ih z.check (by omega) (.inr ⟨z, hz, rfl, rfl⟩) hy hgt
        omega
    · exact hfresh (by omega) (by rw [hown, hbv])
    · by_cases hey : e = y.val
      · have := (H.past _ _ hspent).landed y hy hey.symm
        omega
      · obtain ⟨c, hc, hcv, hclt, hcle⟩ := H.bid_of_stands (t := y.check) (by omega)
          (by rw [hystands]; simpa using fun heq => hey heq.symm) he
        have := (H.past _ _ hspent).aged c hc hcv hcle
        omega
  · -- the bid was read before the check, at which `y.val` stood
    have hopen : h.word b.read ≠ some y.val := by
      intro hy'
      rcases H.taken b hb with h1 | h1 | ⟨e, h1, hspent⟩
      · rw [h1] at hy'
        cases hy'
      · rw [h1, hbv] at hy'
        exact hne (Option.some.inj hy').symm
      · rw [h1] at hy'
        have := (H.past _ _ hspent).landed y hy (Option.some.inj hy').symm
        omega
    obtain ⟨c, hc, hcv, hclt, hcle⟩ := H.bid_of_stands (t := b.read) (by omega) hopen hystands
    rcases H.aged _ _ hycheck c hc hcv hcle with ⟨-, hcage⟩ | hcage <;> omega

/-- **One user at a time.** When another value is checked after `u` was confirmed,
the stall and the lag have passed, or the author of `u` withdrew it, or it was
past using it. -/
theorem Lawful.apart {u v : V} {t k : Nat} (hu : h.confirmed u t) (hv : h.Checked v k) (hne : u ≠ v)
    (htk : t < k) : t + p.stall + p.lag < k ∨
    (∃ x ∈ h.withdrawals, x.val = u ∧ t ≤ x.check ∧ x.land + p.lag ≤ k) ∨
    ∃ b ∈ h.bids, h.word b.read = some u ∧ h.spent u b ∧ t ≤ b.issue ∧ b.issue + p.lag ≤ k := by
  induction k using Nat.strongRecOn generalizing v with
  | _ k ih =>
  have hustands := H.stands u t (.inl hu)
  have hvstands := H.stands v k hv
  -- the stake that brought `v`, and what its author had read
  obtain ⟨b, hb, hbv, hlt, hle, hfresh⟩ := H.first_bid (by omega) hustands hvstands hne
  have hrl := H.read_lt_land b hb
  have hil := H.issue_le_land b hb
  rcases H.aged v k hv b hb hbv hle with ⟨hcounts, hage⟩ | hage
  swap
  · exact .inl (by omega)
  by_cases hr : t < b.read
  · rcases H.taken b hb with hopen | hown | ⟨e, he, hspent⟩
    · -- the word was emptied in between
      obtain ⟨x, hx, hxlt, hxle⟩ := H.emptied (by omega) hustands hopen
      have hxc := H.check_lt_land x hx
      have hxchecked : h.Checked x.val x.check := .inr ⟨x, hx, rfl, rfl⟩
      have hxt : t ≤ x.check := by
        by_contra hbefore
        have := H.withdrawn_by (.inl hu) hx (by omega)
        omega
      by_cases hxu : x.val = u
      · exact .inr (.inl ⟨x, hx, hxu, hxt, by omega⟩)
      · have hxt' : t < x.check := by
          rcases Nat.lt_or_ge t x.check with hlt' | hge
          · exact hlt'
          · have heq : x.check = t := by omega
            have hxs := H.stands _ _ hxchecked
            rw [heq, hustands] at hxs
            exact absurd (Option.some.inj hxs).symm hxu
        -- another value's withdrawal: the same question, at an earlier check
        rcases ih x.check (by omega) hxchecked (fun heq => hxu heq.symm) hxt' with
          h1 | ⟨y, hy, hyu, hyt, hyk⟩ | ⟨c, hc, hcw, hcs, hct, hck⟩
        · exact .inl (by omega)
        · exact .inr (.inl ⟨y, hy, hyu, hyt, by omega⟩)
        · exact .inr (.inr ⟨c, hc, hcw, hcs, hct, by omega⟩)
    · exact absurd (by rw [hown, hbv]) (hfresh (by omega))
    · by_cases heu : e = u
      · subst heu
        exact .inr (.inr
          ⟨b, hb, he, hspent, (H.past _ _ hspent).quit t (.inl hu), by omega⟩)
      · obtain ⟨c, hc, hcv, hclt, hcle⟩ := H.bid_of_stands (t := t) (by omega)
          (by rw [hustands]; simpa using fun heq => heu heq.symm) he
        have := (H.past _ _ hspent).aged c hc hcv hcle
        exact .inl (by omega)
  · -- read while `u` was standing, or before it landed
    by_cases hru : h.word b.read = some u
    · rcases H.taken b hb with h1 | h1 | ⟨e, h1, hspent⟩
      · rw [h1] at hru
        cases hru
      · rw [h1, hbv] at hru
        exact absurd (Option.some.inj hru).symm hne
      · rw [h1] at hru
        cases hru
        exact .inr (.inr
          ⟨b, hb, h1, hspent, (H.past _ _ hspent).quit t (.inl hu), by omega⟩)
    · obtain ⟨c, hc, hcv, hclt, hcle⟩ := H.bid_of_stands (t := b.read) (by omega) hru hustands
      have := H.settled u t hu c hc hcv hcle
      omega

end WordHistory

end Interleave
