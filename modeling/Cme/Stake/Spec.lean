import Cme.Stake.Knowledge

/-!
# Stake — the procedures keep the invariant

One specification for each procedure of the claim. `Fits` ties the fields of a
`Claim` between two ticks to what its candidate knows.
-/

namespace Cme.Stake

open Function Interleave

variable {lim : Limits} {w : Word} {s : State} {i : Tid} {v : Facts} {α : Type}

/-! ### Single operations -/

variable {Q : Nat → View → Prop}

theorem wp_clock
    (h : ∀ s, Records lim w s → v.clock ≤ s.now → Knows lim w s i { v with clock := s.now } →
      ∃ v', Knows lim w s i v' ∧ Q s.now (some v')) :
    wp (system lim w) (Inv lim w) i (act .clock) Q (some v) := by
  intro s γ hInv hγ ch t s' hx
  cases hx
  have hk := hInv.knows i v hγ
  obtain ⟨v', hk', hQ⟩ := h s hInv.records hk.clock { hk with clock := le_rfl }
  exact ⟨some v', hInv.relabel hk', hQ⟩

theorem wp_ask (h : ∀ n, Q n (some v)) : wp (system lim w) (Inv lim w) i (act .ask) Q (some v) := by
  intro s γ hInv hγ ch n s' hx
  replace hx : exec lim i .ask ch s = some (n, s') := hx
  cases ch with
  | nat m =>
    cases hx
    refine ⟨some v, ?_, h n⟩
    rw [← hγ, update_eq_self]
    exact hInv
  | any | flag b => cases hx

theorem wp_read {Q : Value → View → Prop}
    (h : ∀ s γ, Inv lim w s γ → γ i = some v → s.landed = true →
      ∃ v', Inv lim w (s.look i) (update γ i (some v')) ∧ Q (s.word s.now) (some v')) :
    wp (system lim w) (Inv lim w) i (act .read) Q (some v) := by
  intro s γ hInv hγ ch x s' hx
  obtain ⟨hl, hread⟩ := of_guard hx
  rw [if_pos hInv.records.magic] at hread
  cases hread
  obtain ⟨v', h1, h2⟩ := h s γ hInv hγ hl
  exact ⟨some v', h1, h2⟩

theorem wp_stake {Q : Unit → View → Prop} {o mine : Nat} (hst : v.stage = .opened o)
    (hfree : v.Free lim w i) (hown : v.own = some mine) (hunused : w = .lease → v.unused = true)
    (hmine : w = .recovery → mine = i ∧ i < lim.maxPeers) (ho : o ≤ v.lookAt)
    (h : Q () (some { v with stage := .staked o, unused := false })) :
    wp (system lim w) (Inv lim w) i (act (.stake mine (o + lim.window))) Q (some v) := by
  intro s γ hInv hγ ch x s' hx
  cases hx
  exact ⟨_, hInv.stake hγ hst hfree hown hunused hmine ho, h⟩

theorem wp_flushStaked {Q : Unit → View → Prop} {o : Nat} (hst : v.stage = .staked o)
    (h : ∀ f, Q () (some { v with stage := .flushed o f })) :
    wp (system lim w) (Inv lim w) i (act (.flush true)) Q (some v) := by
  intro s γ hInv hγ ch x s' hx
  cases hx
  exact ⟨_, hInv.flushStaked hγ hst, h s.now⟩

/-! ### Between two ticks -/

/-- Nothing of the candidate's is staked. -/
def Rests : Stage → Prop
  | .resting | .opened _ | .settled _ | .checked => True
  | _ => False

/-- Its stake was in time; the settle ends at `e`. -/
def Settles (e : Nat) (st : Stage) : Prop :=
  st = .settling e ∨ st = .settled e ∨ st = .inside e

/-- What a claim remembers of a watch was seen, and nothing reserved is unflushed. -/
structure Kept (lim : Limits) (claim : Claim) (v : Facts) : Prop where
  synced : v.synced = true
  watch : claim.phase = .watching → ∃ t, v.watch = some (claim.watched, t) ∧
    t ≤ claim.watchedSince
  stalled : ∀ x, claim.stalled = some x → ∃ timeout t, lim.stallTimeout = some timeout ∧
    v.watch = some (x, t) ∧ t + timeout ≤ v.clock

/-- The candidate is where its claim says. -/
structure Fits (lim : Limits) (claim : Claim) (v : Facts) : Prop extends Kept lim claim v where
  idle : claim.phase = .idle ∨ claim.phase = .watching → Rests v.stage
  settling : claim.phase = .settling → Settles claim.window v.stage
  holding : claim.phase = .holding → v.stage = .holding claim.window
  mine : claim.phase = .settling ∨ claim.phase = .holding →
    ∃ m, claim.mine = some m ∧ v.own = some m

/-- Won: the settle is over and the value stands. -/
structure Winner (lim : Limits) (claim : Claim) (v : Facts) : Prop extends Kept lim claim v where
  phase : claim.phase = .settling
  stage : v.stage = .settled claim.window
  mine : ∃ m, claim.mine = some m ∧ v.own = some m ∧ v.look = some (some m)

def Ticked (lim : Limits) (r : Outcome × Claim) (v : View) : Prop :=
  ∃ u, v = some u ∧ match r.1 with
    | .pending => Fits lim r.2 u
    | .won => Winner lim r.2 u

namespace Kept

theorem later (h : Kept lim claim v) {stage : Stage} {clock lookAt : Nat} {look : Option Value}
    {own slot failed : Option Nat} (hclock : v.clock ≤ clock) :
    Kept lim claim { v with stage, clock, look, lookAt, own, slot, failed } where
  synced := h.synced
  watch := h.watch
  stalled x hx := by
    obtain ⟨timeout, t, h1, h2, h3⟩ := h.stalled x hx
    exact ⟨timeout, t, h1, h2, Nat.le_trans h3 hclock⟩

/-! In each phase the claim fits where the candidate's stage does. -/

theorem rests (h : Kept lim claim v) (hphase : claim.phase = .idle ∨ claim.phase = .watching)
    (hst : Rests v.stage) : Fits lim claim v := by
  refine { h with idle := fun _ => hst, settling := fun h => ?_, holding := fun h => ?_,
                  mine := fun h => ?_ }
  all_goals
    rcases hphase with h1 | h1 <;> rw [h1] at h
  · cases h
  · cases h
  · cases h
  · cases h
  · rcases h with h | h <;> cases h
  · rcases h with h | h <;> cases h

theorem settles (h : Kept lim claim v) (hphase : claim.phase = .settling)
    (hst : Settles claim.window v.stage) (hmine : ∃ m, claim.mine = some m ∧ v.own = some m) :
    Fits lim claim v := { h with
  idle := fun h => by rcases h with h | h <;> rw [hphase] at h <;> cases h
  settling := fun _ => hst
  holding := fun h => by rw [hphase] at h; cases h
  mine := fun _ => hmine }

theorem holds (h : Kept lim claim v) (hphase : claim.phase = .holding)
    (hst : v.stage = .holding claim.window) (hmine : ∃ m, claim.mine = some m ∧ v.own = some m) :
    Fits lim claim v := { h with
  idle := fun h => by rcases h with h | h <;> rw [hphase] at h <;> cases h
  settling := fun h => by rw [hphase] at h; cases h
  holding := fun _ => hst
  mine := fun _ => hmine }

/-- The next attempt. -/
theorem again (h : Kept lim claim v) {mine : Value} (hst : Rests v.stage) :
    Fits lim { claim with phase := .idle, mine } v :=
  Kept.rests ⟨h.synced, nofun, h.stalled⟩ (.inl rfl) hst

end Kept

section

variable (hk : Knows lim w s i v)

include hk

section

variable (hR : Records lim w s)

include hR

theorem Knows.opened_of_rests (hst : Rests v.stage) :
    Knows lim w s i { v with stage := .opened s.now } := by
  have key : ∀ v : Facts, Knows lim w s i v → v.stage = .resting →
      Knows lim w s i { v with stage := .opened s.now } := by
    intro v hk hst
    obtain ⟨hdown, hup, -⟩ := hk.at_stage hst
    exact { hk with down := hdown, up := hup, timely := le_rfl }
  cases hstage : v.stage with
  | resting => exact key v hk hstage
  | opened o =>
    obtain ⟨hdown, hup, ht⟩ := hk.at_stage hstage
    replace ht : o ≤ s.now := ht
    exact { hk with
      down := hdown
      up := fun f hf ha hw => ⟨(hup f hf ha hw).1, (hup f hf ha hw).2.mono (by omega)⟩
      timely := le_rfl }
  | settled e => exact key { v with stage := .resting } (hk.resting_of_settled hR hstage) rfl
  | checked => exact key { v with stage := .resting } (hk.resting_of_checked hR hstage) rfl
  | staked _ | flushed _ _ | settling _ | inside _ | holding _ | clearing =>
    rw [hstage] at hst
    exact hst.elim

theorem Knows.settling_of_settles {e : Nat} (hst : Settles e v.stage) :
    Knows lim w s i { v with stage := .settling e } := by
  rcases hst with hst | hst
  · rw [← hst]
    exact hk
  · exact hk.settling_of_settled hR hst

/-- The stake was flushed within its window: it settles from now on. -/
theorem Knows.settling_of_flushed {o f : Nat} (hst : v.stage = .flushed o f)
    (hf : f < o + lim.window) :
    Knows lim w s i { v with stage := .settling (s.now + lim.settle) } := by
  obtain ⟨hdown, hup, ht⟩ := hk.at_stage hst
  obtain ⟨-, hfn, hwindow, hpublished, hstaked, -⟩ := ht
  refine { hk with
    down := fun b hb => ?_
    up := fun g hg ha hw => ?_
    timely := ⟨by omega, by omega⟩ }
  · have hland := (hR.bid i b hb).2.2.2
    refine ⟨?_, by omega⟩
    rcases hdown b hb with h1 | ⟨h1, h2⟩
    · exact h1
    · exact .inl (by omega)
  · obtain ⟨⟨d, hd, hle⟩, hr⟩ := hup g hg ha hw
    refine ⟨d, hd, by omega, fun val r k hwhat => ?_⟩
    have := hr val r k hwhat
    omega

/-- It was flushed later: it is held. -/
theorem Knows.holding_of_flushed {o f : Nat} (hst : v.stage = .flushed o f) :
    Knows lim w s i { v with stage := .holding (s.now + lim.lateHold) } := by
  have hup := hk.up
  have ht := hk.timely
  rw [hst] at hup ht
  obtain ⟨-, hfn, -, -, hstaked, hentered⟩ := ht
  refine { hk with
    down := fun b hb => ?_
    up := fun g hg ha hw => ?_
    timely := ⟨by omega, hentered⟩ }
  · have hland := (hR.bid i b hb).2.2.2
    show b.land + lim.lateHold ≤ s.now + lim.lateHold + lim.lag
    omega
  · obtain ⟨⟨d, hd, hle⟩, -⟩ := hup g hg ha hw
    exact ⟨d, hd, by omega⟩

end

end

/-! ### The words -/

theorem wp_isFree {seen : Value} (hlook : v.look = some seen) :
    wp (system lim w) (Inv lim w) i (isFree lim w i seen)
      (fun free u => ∃ failed, u = some { v with failed } ∧
        (free = true → { v with failed }.Free lim w i)) (some v) := by
  unfold isFree
  cases w with
  | lease =>
    refine ⟨v.failed, rfl, fun hfree => .inl ?_⟩
    rw [hlook, of_decide_eq_true hfree]
  | recovery =>
    dsimp only
    by_cases hself : seen = some i
    · rw [if_pos hself]
      exact ⟨v.failed, rfl, fun _ => .inr (.inl ⟨rfl, by rw [hlook, hself]⟩)⟩
    · rw [if_neg hself]
      cases seen with
      | none => exact ⟨v.failed, rfl, fun _ => .inl hlook⟩
      | some p =>
        unfold isClaimantGone
        dsimp only
        by_cases hp : p < lim.maxPeers
        · rw [if_pos hp]
          intro s γ hInv hγ ch b s' hx
          replace hx : exec lim i (.hasFailed p) ch s = some (b, s') := hx
          have hk := hInv.knows i v hγ
          cases ch with
          | any | nat n => cases hx
          | flag answer =>
            cases answer with
            | false =>
              cases hx
              exact ⟨some v, hInv.relabel hk, v.failed, rfl, fun h => by cases h⟩
            | true =>
              rw [exec, if_pos rfl] at hx
              cases hc : s.crashed p with
              | none =>
                rw [hc] at hx
                cases hx
              | some t =>
                rw [hc] at hx
                obtain ⟨hage, ⟨⟩⟩ := of_guard hx
                refine ⟨some { v with failed := some p }, hInv.relabel { hk with
                  failed := fun e he => ?_ }, some p, rfl,
                  fun _ => .inr (.inr ⟨p, hlook, .inl ⟨rfl, .inl rfl⟩⟩)⟩
                cases he
                exact ⟨t, hc, hage⟩
        · rw [if_neg hp]
          exact ⟨v.failed, rfl, fun _ => .inr (.inr ⟨p, hlook, .inl ⟨rfl, .inr (by omega)⟩⟩)⟩

theorem wp_makeOwn (hown : w = .recovery → v.own = some i) :
    wp (system lim w) (Inv lim w) i (makeOwn w i)
      (fun mine u => ∃ unused, u = some { v with own := some mine, unused } ∧
        (w = .recovery → mine = i) ∧ (w = .lease → unused = true)) (some v) := by
  unfold makeOwn
  cases w with
  | recovery =>
    refine ⟨v.unused, ?_, fun _ => rfl, nofun⟩
    rw [← hown rfl]
  | lease =>
    intro s γ hInv hγ ch n s' hx
    replace hx : exec lim i .getRandomNonce ch s = some (n, s') := hx
    cases ch with
    | any | flag b => cases hx
    | nat m =>
      obtain ⟨hm, ⟨⟩⟩ := of_guard hx
      exact ⟨_, hInv.nonce hγ hm, true, rfl, nofun, fun _ => rfl⟩

/-- A stake leaves the candidate with a flushed store, or, where the copy it was
made from was taken, as it was. -/
theorem wp_publish {o mine : Nat} (hst : v.stage = .opened o) (hfree : v.Free lim w i)
    (hown : v.own = some mine) (hunused : w = .lease → v.unused = true)
    (hmine : w = .recovery → mine = i ∧ i < lim.maxPeers) (ho : o ≤ v.lookAt)
    (hclock : o ≤ v.clock) :
    wp (system lim w) (Inv lim w) i (publish lim w i mine (o + lim.window))
      (fun done u => ∃ f look lookAt failed unused slot, u = some { v with
        stage := if done then .flushed o f else .opened o, look, lookAt, failed, unused, slot })
      (some v) := by
  -- the store and its flush, from any view in which the word may be taken
  have hstake : ∀ u : Facts, u.stage = .opened o → u.Free lim w i → u.own = some mine →
      (w = .lease → u.unused = true) → o ≤ u.lookAt →
      (∃ look lookAt failed slot, u = { v with look, lookAt, failed, slot }) →
      wp (system lim w) (Inv lim w) i
        (do act (.stake mine (o + lim.window)); act (.flush true); pure true : Proc Bool)
        (fun done u => ∃ f look lookAt failed unused slot, u = some { v with
          stage := if done then .flushed o f else .opened o, look, lookAt, failed, unused, slot })
        (some u) := by
    intro u hst hfree hown hunused ho hu
    obtain ⟨look, lookAt, failed, slot, rfl⟩ := hu
    refine .bind <| wp_stake hst hfree hown hunused hmine ho ?_
    refine .bind <| wp_flushStaked rfl fun f => ?_
    exact ⟨f, look, lookAt, failed, false, slot, rfl⟩
  unfold publish
  cases w with
  | lease => exact hstake v hst hfree hown hunused ho ⟨v.look, v.lookAt, v.failed, v.slot, rfl⟩
  | recovery =>
    dsimp only
    refine .bind <| wp_read fun s γ hInv hγ _ => ⟨_, hInv.lookOpened hγ hst, ?_⟩
    refine wp_then (wp_isFree rfl) fun free u hu => ?_
    obtain ⟨failed, rfl, hfree'⟩ := hu
    cases free with
    | true =>
      exact hstake _ hst (hfree' rfl) hown nofun hclock ⟨_, _, _, _, rfl⟩
    | false =>
      refine ⟨0, some (s.word s.now), v.clock, failed, v.unused, none, ?_⟩
      rw [← hst]
      rfl

/-! ### The claim -/

variable {claim : Claim}

/-- A watch that goes on, is started over, or ends. -/
theorem wp_hasStoodTimeout {seen : Value} (hfits : Kept lim claim v)
    (hidle : claim.phase = .idle ∨ claim.phase = .watching) (hrests : Rests v.stage)
    (hlook : v.look = some seen) : wp (system lim w) (Inv lim w) i (hasStoodTimeout lim seen claim)
      (fun r u => ∃ u', u = some u' ∧ Fits lim r.2 u' ∧
        (r.2.phase = .idle ∨ r.2.phase = .watching)) (some v) := by
  unfold hasStoodTimeout
  cases htimeout : lim.stallTimeout with
  | none => exact ⟨v, rfl, hfits.rests hidle hrests, hidle⟩
  | some timeout =>
    dsimp only
    by_cases hrestart : claim.phase ≠ .watching ∨ seen ≠ claim.watched
    · -- a new watch, on what the last read found
      rw [if_pos hrestart, wp_bind]
      refine wp_clock fun s hR _ hk => ?_
      have hlast := Nat.le_trans (hR.lastRead_le i) hR.readAt_le
      refine ⟨{ v with clock := s.now, watch := some (seen, s.lastRead i) }, { hk with
        watch := fun x t hx => ?_ }, _, rfl, Kept.rests ⟨hfits.synced, fun _ =>
          ⟨s.lastRead i, rfl, hlast⟩, nofun⟩ (.inr rfl) hrests, .inr rfl⟩
      cases hx
      exact ⟨(hk.look seen hlook).1, hR.lastRead_le i⟩
    · rw [if_neg hrestart, wp_bind]
      push Not at hrestart
      refine wp_clock fun s hR hclock hk => ⟨_, hk, ?_⟩
      obtain ⟨t, hwatch, ht⟩ := hfits.watch hrestart.1
      by_cases hshort : s.now - claim.watchedSince < timeout
      · rw [if_pos hshort]
        exact ⟨_, rfl, (hfits.later hclock).rests hidle hrests, hidle⟩
      · rw [if_neg hshort]
        refine ⟨_, rfl, Kept.rests ⟨hfits.synced, nofun, fun x hx => ?_⟩ (.inl rfl) hrests,
          .inl rfl⟩
        cases hx
        refine ⟨timeout, t, htimeout, ?_, ?_⟩
        · rw [hrestart.2]
          exact hwatch
        · have hseen := (hk.watch _ _ hwatch).2
          have hnow := hR.readAt_le
          show t + timeout ≤ s.now
          omega

/-- One attempt: it stakes, in time or late, or it watches. -/
theorem wp_attemptStake (hpeer : w = .recovery → i < lim.maxPeers) (hfits : Fits lim claim v)
    (hidle : claim.phase = .idle ∨ claim.phase = .watching) :
    wp (system lim w) (Inv lim w) i (attemptStake lim w i claim)
      (fun r u => ∃ u', u = some u' ∧ Fits lim r.2 u' ∧ r.1 ≠ some .won ∧
        (r.1 = none → r.2.phase = .idle ∨ r.2.phase = .watching)) (some v) := by
  unfold attemptStake
  rw [wp_bind]
  -- the window opens; a peer's own value is its id
  refine wp_clock fun s hR hclock hk => ⟨{ v with
    stage := .opened s.now, clock := s.now, own := if w = .recovery then some i else v.own },
    { hk.opened_of_rests hR (hfits.idle hidle) with
      own := fun x hx => ?_, nonce := fun hw x hx => ?_ }, ?_⟩
  · by_cases hw : w = .recovery
    · replace hx : (if w = .recovery then some i else v.own) = some x := hx
      rw [if_pos hw] at hx
      rw [← Option.some.inj hx]
      exact hR.peers hw i
    · replace hx : (if w = .recovery then some i else v.own) = some x := hx
      rw [if_neg hw] at hx
      exact hk.own x hx
  · replace hx : (if w = .recovery then some i else v.own) = some x := hx
    rw [if_neg (by rw [hw]; nofun)] at hx
    exact hk.nonce hw x hx
  generalize s.now = o at *
  refine .bind <| wp_read fun s γ hInv hγ _ => ⟨_, hInv.lookOpened hγ rfl, ?_⟩
  generalize s.word s.now = seen
  refine wp_then (wp_isFree rfl) fun free u hu => ?_
  obtain ⟨failed, rfl, hfree⟩ := hu
  by_cases htaken : free = false ∧ claim.stalled ≠ some seen
  · rw [if_pos htaken]
    refine wp_then (wp_hasStoodTimeout (hfits.later hclock) hidle trivial rfl)
      fun r u hu => ?_
    obtain ⟨u', rfl, hf, hp⟩ := hu
    refine ⟨u', rfl, hf, ?_, fun _ => hp⟩
    cases r.1 <;> nofun
  rw [if_neg htaken]
  -- free, or the value that stood its whole timeout
  have hFree : Facts.Free lim w i { v with
      stage := .opened o, clock := o, look := some seen, lookAt := o, failed
      own := if w = .recovery then some i else v.own, slot := none } := by
    cases hfr : free with
    | true => exact hfree hfr
    | false =>
      have hstalled : claim.stalled = some seen := by
        by_contra hne
        exact htaken ⟨hfr, hne⟩
      cases seen with
      | none => exact .inl rfl
      | some e =>
        obtain ⟨timeout, t, h1, h2, h3⟩ := hfits.stalled _ hstalled
        exact .inr (.inr ⟨e, rfl, .inr ⟨timeout, t, h1, h2, by
          show t + timeout ≤ o
          omega⟩⟩)
  dsimp only
  refine wp_then (wp_makeOwn fun hw => if_pos hw) fun mine u hu => ?_
  obtain ⟨unused, rfl, hmine, hunused⟩ := hu
  refine .bind <| wp_mono (fun done u hu => ?_) (wp_publish rfl hFree rfl hunused
    (fun hw => ⟨hmine hw, hpeer hw⟩) le_rfl le_rfl)
  obtain ⟨f, look, lookAt, failed, unused, slot, rfl⟩ := hu
  cases done with
  | false =>
    exact ⟨_, rfl, Kept.rests ⟨hfits.synced, nofun, nofun⟩ (.inl rfl) trivial, nofun, nofun⟩
  | true =>
    rw [if_pos rfl, wp_bind]
    refine wp_clock fun s₁ hR₁ _ hk₁ => ⟨_, hk₁, ?_⟩
    have hflushed : f ≤ s₁.now := hk₁.timely.2.1
    refine .bind <| wp_clock fun s₂ hR₂ _ hk₂ => ?_
    by_cases hlate : o + lim.window ≤ s₁.now
    · refine ⟨_, hk₂.holding_of_flushed hR₂ rfl, _, rfl, ?_, nofun, nofun⟩
      simp only [hlate, if_true]
      exact Kept.holds ⟨hfits.synced, nofun, nofun⟩ rfl rfl ⟨mine, rfl, rfl⟩
    · refine ⟨_, hk₂.settling_of_flushed hR₂ rfl (by omega), _, rfl, ?_, nofun, nofun⟩
      simp only [hlate, if_false]
      exact Kept.settles ⟨hfits.synced, nofun, nofun⟩ rfl (.inl rfl) ⟨mine, rfl, rfl⟩

theorem wp_tryStake (hpeer : w = .recovery → i < lim.maxPeers) (hfits : Fits lim claim v)
    (hidle : claim.phase = .idle ∨ claim.phase = .watching) :
    wp (system lim w) (Inv lim w) i (tryStake lim w i claim) (Ticked lim) (some v) := by
  have hpending : ∀ {o : Option Outcome}, o ≠ some .won → o.getD .pending = .pending := by
    intro o ho
    cases o with
    | none => rfl
    | some o =>
      cases o with
      | pending => rfl
      | won => exact absurd rfl ho
  unfold tryStake
  refine wp_then (wp_attemptStake hpeer hfits hidle) fun r u hu => ?_
  obtain ⟨u', rfl, hf, hwon, hagain⟩ := hu
  obtain ⟨outcome, claim'⟩ := r
  cases outcome with
  | some o =>
    refine ⟨u', rfl, ?_⟩
    cases o with
    | pending => exact hf
    | won => exact absurd rfl hwon
  | none =>
    dsimp only
    refine wp_then (wp_attemptStake hpeer hf (hagain rfl)) fun r u hu => ?_
    obtain ⟨u'', rfl, hf', hwon', -⟩ := hu
    refine ⟨u'', rfl, ?_⟩
    rw [hpending hwon']
    exact hf'

theorem wp_retract (hlim : lim.Sound) {m : Nat}
    (hst : (∃ e, v.stage = .holding e ∧ e ≤ v.clock) ∨ ∃ e, v.stage = .inside e)
    (hown : v.own = some m) (hsynced : v.synced = true) :
    wp (system lim w) (Inv lim w) i (retract (some m))
      (fun _ u => ∃ st look lookAt slot, u = some { v with stage := st, look, lookAt, slot } ∧
        Rests st) (some v) := by
  unfold retract
  rw [wp_bind]
  have hread : ∀ s γ, Inv lim w s γ → γ i = some v → s.landed = true →
      Inv lim w (s.look i) (update γ i (some { v with
        stage := .checked, look := some (s.word s.now), lookAt := v.clock, slot := none })) := by
    intro s γ hInv hγ hl
    rcases hst with ⟨e, hst, he⟩ | ⟨e, hst⟩
    · exact hInv.lookHolding hlim hγ hst he hsynced hl
    · have hin := hInv.lookInside hγ hst none nofun
      have hk := (hin.knows i _ (update_self ..)).checked_of_inside hin.records hin.ledger
        hlim hst hsynced (s.look_lastRead i)
      have := hin.relabel hk
      rw [update_idem] at this
      exact this
  refine wp_read fun s γ hInv hγ hl => ⟨_, hread s γ hInv hγ hl, ?_⟩
  generalize s.word s.now = copy
  dsimp only
  by_cases hmine : copy = some m
  · rw [if_pos hmine, wp_bind]
    subst hmine
    intro s γ hInv hγ ch x s' hx
    obtain ⟨hby, ⟨⟩⟩ := of_guard hx
    refine ⟨_, hInv.clear hlim hγ rfl rfl hown hby, ?_⟩
    rw [wp_done]
    intro s γ hInv hγ ch x s' hx
    cases hx
    exact ⟨_, hInv.flushClearing hγ rfl, .resting, some (some m), v.clock, none, rfl, trivial⟩
  · rw [if_neg hmine]
    exact ⟨.checked, some copy, v.clock, none, rfl, trivial⟩

theorem wp_endSettle (hlim : lim.Sound) (hpeer : w = .recovery → i < lim.maxPeers)
    (hfits : Fits lim claim v) (hphase : claim.phase = .settling) :
    wp (system lim w) (Inv lim w) i (endSettle lim w i claim) (Ticked lim) (some v) := by
  obtain ⟨m, hm, hown⟩ := hfits.mine (.inl hphase)
  unfold endSettle
  rw [wp_bind]
  refine wp_clock fun s hR hclock hk => ⟨_, hk.settling_of_settles hR (hfits.settling hphase), ?_⟩
  by_cases hwait : s.now < claim.window
  · rw [if_pos hwait]
    exact ⟨_, rfl, (hfits.later hclock).settles hphase (.inl rfl) ⟨m, hm, hown⟩⟩
  rw [if_neg hwait, wp_bind]
  refine wp_read fun s' γ hInv hγ hl =>
    ⟨_, hInv.lookSettling hlim hγ rfl (Nat.le_of_not_lt hwait) hl, ?_⟩
  generalize s'.word s'.now = seen
  by_cases hmine : seen = claim.mine
  · rw [if_pos hmine]
    exact ⟨_, rfl, hfits.later hclock, hphase, rfl, m, hm, hown, by rw [hmine, hm]⟩
  · rw [if_neg hmine]
    exact wp_tryStake hpeer ((hfits.later hclock).again trivial) (.inl rfl)

theorem wp_endHold (hlim : lim.Sound) (hpeer : w = .recovery → i < lim.maxPeers)
    (hfits : Fits lim claim v) (hphase : claim.phase = .holding) :
    wp (system lim w) (Inv lim w) i (endHold lim w i claim) (Ticked lim) (some v) := by
  obtain ⟨m, hm, hown⟩ := hfits.mine (.inr hphase)
  have hstage := hfits.holding hphase
  unfold endHold
  refine .bind <| wp_clock fun s hR hclock hk => ⟨_, hk, ?_⟩
  by_cases hwait : s.now < claim.window
  · rw [if_pos hwait]
    exact ⟨_, rfl, (hfits.later hclock).holds hphase hstage ⟨m, hm, hown⟩⟩
  rw [if_neg hwait, wp_bind, hm]
  refine wp_mono (fun _ u hu => ?_)
    (wp_retract hlim (.inl ⟨_, hstage, Nat.le_of_not_lt hwait⟩) hown hfits.synced)
  obtain ⟨st, look, lookAt, slot, rfl, hrests⟩ := hu
  exact wp_tryStake hpeer ((hfits.later hclock).again hrests) (.inl rfl)

theorem wp_tick (hlim : lim.Sound) (hpeer : w = .recovery → i < lim.maxPeers)
    (hfits : Fits lim claim v) :
    wp (system lim w) (Inv lim w) i (tick lim w i claim) (Ticked lim) (some v) := by
  unfold tick
  cases hphase : claim.phase with
  | idle => exact wp_tryStake hpeer hfits (.inl hphase)
  | watching => exact wp_tryStake hpeer hfits (.inr hphase)
  | settling => exact wp_endSettle hlim hpeer hfits hphase
  | holding => exact wp_endHold hlim hpeer hfits hphase

theorem fits_fresh (t : Nat) : Fits lim .fresh (.start t) :=
  Kept.rests ⟨rfl, nofun, nofun⟩ (.inl rfl) trivial

/-! ### The callers -/

theorem guarded_of_map {α : Type} {s s' : State} {what : Nat → Nat → Option Payload} {x y : α}
    (h : (s.guarded lim i what).map (x, ·) = some (y, s')) : s.guarded lim i what = some s' := by
  rw [Option.map_eq_some_iff] at h
  obtain ⟨s₁, h1, h2⟩ := h
  cases h2
  exact h1

theorem wp_guardedWrites {n e : Nat} (hst : v.stage = .inside e) :
    wp (system lim w) (Inv lim w) i (guardedWrites n) (fun _ u => u = some v) (some v) := by
  induction n with
  | zero => rfl
  | succ n ih =>
    unfold guardedWrites
    rw [wp_bind]
    intro s γ hInv hγ ch x s' hx
    exact ⟨some v, hInv.guarded hγ hst (guarded_of_map hx), ih⟩

theorem wp_enter {Q : Unit → View → Prop} {e m : Nat} (hlim : lim.Sound)
    (hst : v.stage = .settled e) (hlook : v.look = some (some m)) (hown : v.own = some m)
    (h : Q () (some { v with stage := .inside e })) :
    wp (system lim w) (Inv lim w) i (act (.enter m)) Q (some v) := by
  intro s γ hInv hγ ch x s' hx
  obtain ⟨hby, ⟨⟩⟩ := of_guard hx
  exact ⟨_, hInv.enter hlim hγ hst hlook hown hby, h⟩

theorem wp_isMine {m e : Nat} (hst : v.stage = .inside e) :
    wp (system lim w) (Inv lim w) i (isMine m)
      (fun held u => ∃ look lookAt slot, u = some { v with stage := .settled e, look, lookAt, slot } ∧
        (held = true → look = some (some m))) (some v) := by
  unfold isMine
  refine .bind <| wp_read fun s γ hInv hγ _ => ?_
  have hin := hInv.lookInside hγ hst none nofun
  have hk := (hin.knows i _ (update_self ..)).settled_of_inside hst
  have h := hin.relabel hk
  rw [update_idem] at h
  refine ⟨_, h, some (s.word s.now), v.clock, none, rfl, fun hheld => ?_⟩
  rw [of_decide_eq_true hheld]

theorem wp_writeUnderClaim {n m e : Nat} (hlim : lim.Sound) (hst : v.stage = .settled e)
    (hlook : v.look = some (some m)) (hown : v.own = some m) :
    wp (system lim w) (Inv lim w) i (writeUnderClaim m n)
      (fun _ u => ∃ look lookAt slot, u = some { v with stage := .settled e, look, lookAt, slot })
      (some v) := by
  induction n generalizing v with
  | zero =>
    refine ⟨v.look, v.lookAt, v.slot, ?_⟩
    rw [← hst]
  | succ n ih =>
    unfold writeUnderClaim
    refine .bind <| wp_enter hlim hst hlook hown ?_
    refine .bind <| wp_ask fun k => ?_
    refine wp_seq (wp_guardedWrites rfl) fun _ => ?_
    refine wp_then (wp_isMine rfl) fun held u hu => ?_
    obtain ⟨look, lookAt, slot, rfl, hheld⟩ := hu
    cases held with
    | true =>
      refine wp_mono (fun _ u hu => ?_) (ih rfl (hheld rfl) hown)
      obtain ⟨look', lookAt', slot', rfl⟩ := hu
      exact ⟨look', lookAt', slot', rfl⟩
    | false => exact ⟨look, lookAt, slot, rfl⟩

theorem Winner.fits {look : Option Value} {lookAt : Nat} {slot : Option Nat}
    (h : Winner lim claim v) :
    Fits lim claim { v with stage := .settled claim.window, look, lookAt, slot } := by
  obtain ⟨m, h1, h2, -⟩ := h.mine
  exact (h.later le_rfl).settles h.phase (.inr (.inl rfl)) ⟨m, h1, h2⟩

theorem wp_serve {n : Nat} (hlim : lim.Sound) (hpeer : w = .recovery → i < lim.maxPeers)
    (hfits : Fits lim claim v) :
    wp (system lim w) (Inv lim w) i (serve lim w i n claim) (fun _ _ => True) (some v) := by
  induction n generalizing claim v with
  | zero => trivial
  | succ n ih =>
    unfold serve
    refine wp_then (wp_tick hlim hpeer hfits) fun r u hu => ?_
    obtain ⟨u', rfl, hu⟩ := hu
    obtain ⟨outcome, claim'⟩ := r
    cases outcome with
    | pending =>
      replace hu : Fits lim claim' u' := hu
      exact ih hu
    | won =>
      replace hu : Winner lim claim' u' := hu
      obtain ⟨m, hm, hown, hlook⟩ := hu.mine
      dsimp only
      rw [hm]
      dsimp only
      refine .bind <| wp_ask fun k => ?_
      refine wp_then (wp_writeUnderClaim hlim hu.stage hlook hown) fun _ u'' hu'' => ?_
      obtain ⟨look, lookAt, slot, rfl⟩ := hu''
      exact ih hu.fits

/-! ### Admission -/

theorem wp_acquireLeaseLoop {deadline n : Nat} (hlim : lim.Sound) (hfits : Fits lim claim v) :
    wp (system lim .lease) (Inv lim .lease) i (acquireLeaseLoop lim i deadline n claim)
      (fun nonce u => ∃ u', u = some u' ∧ ∀ m, nonce = some m →
        ∃ e, u'.stage = .settled e ∧ u'.own = some m ∧ u'.look = some (some m) ∧
          u'.synced = true) (some v) := by
  induction n generalizing claim v with
  | zero => exact ⟨v, rfl, fun _ hm => by cases hm⟩
  | succ n ih =>
    unfold acquireLeaseLoop
    refine .bind <| wp_clock fun s hR hclock hk => ⟨_, hk, ?_⟩
    by_cases hdeadline : deadline ≤ s.now
    · rw [if_pos hdeadline]
      exact ⟨_, rfl, fun _ hm => by cases hm⟩
    rw [if_neg hdeadline, wp_bind]
    have hfits' : Fits lim claim { v with clock := s.now } := { hfits with
      stalled := fun x hx => by
        obtain ⟨timeout, t, h1, h2, h3⟩ := hfits.stalled x hx
        exact ⟨timeout, t, h1, h2, Nat.le_trans h3 hclock⟩ }
    refine wp_mono (fun r u hu => ?_) (wp_tick hlim (fun h => by cases h) hfits')
    obtain ⟨u', rfl, hu⟩ := hu
    obtain ⟨outcome, claim'⟩ := r
    cases outcome with
    | pending => exact ih hu
    | won =>
      replace hu : Winner lim claim' u' := hu
      refine ⟨u', rfl, fun m hm => ?_⟩
      obtain ⟨m', hm', hown, hlook⟩ := hu.mine
      replace hm : claim'.mine = some m := hm
      rw [hm'] at hm
      cases hm
      exact ⟨_, hu.stage, hown, hlook, hu.synced⟩

/-- The facts of a holder between two of its stores. -/
structure Inside (e m : Nat) (v : Facts) : Prop where
  stage : v.stage = .inside e
  own : v.own = some m
  synced : v.synced = true

theorem Inside.reread {e m : Nat} (h : Inside e m v) (look : Option Value) (lookAt : Nat)
    (slot : Option Nat) : Inside e m { v with look, lookAt, slot } :=
  ⟨h.stage, h.own, h.synced⟩

theorem wp_readSlot {peerId e : Nat} {Q : Option (Option Tid) → View → Prop}
    (hst : v.stage = .inside e)
    (h : ∀ x look lookAt slot, (x = some none → slot = some peerId) →
      Q x (some { v with look, lookAt, slot })) :
    wp (system lim w) (Inv lim w) i (act (.readSlot peerId)) Q (some v) := by
  intro s γ hInv hγ ch x s' hx
  obtain ⟨hl, ⟨⟩⟩ := of_guard hx
  by_cases hfree : s.slotMagic peerId = true ∧ s.slots peerId s.now = none
  · refine ⟨_, hInv.lookInside hγ hst (some peerId) fun p hp => ?_, h _ _ _ _ fun _ => rfl⟩
    rw [← Option.some.inj hp]
    exact hfree.2
  · exact ⟨_, hInv.lookInside hγ hst none nofun,
      h _ _ _ _ fun hx => absurd (of_guard hx) hfree⟩

theorem wp_readBound {e : Nat} (hst : v.stage = .inside e)
    (h : ∀ x look lookAt slot, Q x (some { v with look, lookAt, slot })) :
    wp (system lim w) (Inv lim w) i (act .readBound) Q (some v) := by
  intro s γ hInv hγ ch x s' hx
  obtain ⟨-, ⟨⟩⟩ := of_guard hx
  exact ⟨_, hInv.lookInside hγ hst none nofun, h _ _ _ _⟩

theorem wp_flushInside {Q : Unit → View → Prop} {e : Nat} (hst : v.stage = .inside e)
    (h : Q () (some { v with synced := true })) :
    wp (system lim w) (Inv lim w) i (act (.flush false)) Q (some v) := by
  intro s γ hInv hγ ch x s' hx
  cases hx
  have hk := hInv.knows i v hγ
  obtain ⟨hdown, hup, ht⟩ := hk.at_stage hst
  have hk' := hk.flush (d := s.now + lim.lag) (.inside e) true le_rfl hdown
    (fun f hf ha hw => (hup f hf ha hw).elim) ht
  rw [← hst] at hk'
  exact ⟨some { v with synced := true },
    hInv.move (hInv.records.calm (hInv.records.calm_flushed i _ (Nat.le_add_right _ _)))
      (hInv.ledger.quiet (quiet_flushed ..)) hk'
      fun j hj v hk => hInv.others_flush (fun _ _ => rfl) j hj v hk, h⟩

theorem wp_reserveMemberSlot {peerId n e m : Nat} (hin : Inside e m v) :
    wp (system lim w) (Inv lim w) i (reserveMemberSlot peerId n)
      (fun r u => ∃ u', u = some u' ∧ Inside e m u' ∧ ∀ p, r = some p → u'.took = some p)
      (some v) := by
  induction n generalizing v peerId with
  | zero => exact ⟨v, rfl, hin, nofun⟩
  | succ n ih =>
    unfold reserveMemberSlot
    refine .bind <| wp_readSlot hin.stage fun x look lookAt slot hslot => ?_
    have hin' := hin.reread look lookAt slot
    cases x with
    | none => exact ih hin'
    | some x =>
      cases x with
      | some _ => exact ih hin'
      | none =>
        dsimp only
        rw [wp_bind]
        intro s γ hInv hγ ch x s' hx
        refine ⟨_, hInv.takeSlot hγ hin'.stage (hslot rfl) (guarded_of_map hx), ?_⟩
        rw [wp_done, wp_bind]
        refine wp_flushInside hin'.stage ?_
        refine ⟨_, rfl, ⟨hin'.stage, hin'.own, rfl⟩, fun p hp => ?_⟩
        exact hp

theorem wp_findScanBound {bound n e m : Nat} (hin : Inside e m v) :
    wp (system lim w) (Inv lim w) i (findScanBound bound n)
      (fun _ u => ∃ u', u = some u' ∧ Inside e m u' ∧ u'.took = v.took) (some v) := by
  induction n generalizing v with
  | zero => exact ⟨v, rfl, hin, rfl⟩
  | succ n ih =>
    unfold findScanBound
    by_cases hn : n + 1 ≤ bound
    · rw [if_pos hn]
      exact ⟨v, rfl, hin, rfl⟩
    rw [if_neg hn, wp_bind]
    refine wp_readSlot hin.stage fun x look lookAt slot _ => ?_
    have hin' := hin.reread look lookAt slot
    cases x with
    | none => exact ih hin'
    | some x =>
      cases x with
      | none => exact ih hin'
      | some _ => exact ⟨_, rfl, hin', rfl⟩

theorem wp_adjustPeerScanBound {peerId e m : Nat} (hin : Inside e m v) :
    wp (system lim w) (Inv lim w) i (adjustPeerScanBound lim peerId)
      (fun _ u => ∃ u', u = some u' ∧ Inside e m u' ∧ u'.took = v.took) (some v) := by
  unfold adjustPeerScanBound
  refine wp_then (wp_findScanBound hin) fun bound u hu => ?_
  obtain ⟨u, rfl, hin, htook⟩ := hu
  refine .bind <| wp_readBound hin.stage fun x look lookAt slot => ?_
  have hin' := hin.reread look lookAt slot
  split
  · exact ⟨_, rfl, hin', htook⟩
  rw [wp_bind]
  intro s γ hInv hγ ch x s' hx
  refine ⟨_, hInv.storeBound hγ hin'.stage (guarded_of_map hx), ?_⟩
  exact wp_flushInside hin'.stage ⟨_, rfl, ⟨hin'.stage, hin'.own, rfl⟩, htook⟩

theorem wp_claimPeerSlot (hlim : lim.Sound) (hfits : Fits lim .fresh v) :
    wp (system lim .lease) (Inv lim .lease) i (claimPeerSlot lim i) (fun _ _ => True)
      (some v) := by
  unfold claimPeerSlot acquireLease
  rw [wp_bind, wp_bind]
  refine wp_clock fun s hR hclock hk => ⟨_, hk, ?_⟩
  refine .bind <| wp_ask fun n => ?_
  have hfits' : Fits lim .fresh { v with clock := s.now } := { hfits with stalled := nofun }
  refine wp_mono (fun nonce u hu => ?_) (wp_acquireLeaseLoop hlim hfits')
  obtain ⟨u', rfl, hu⟩ := hu
  cases nonce with
  | none => trivial
  | some m =>
    obtain ⟨e, hst, hown, hlook, hsynced⟩ := hu m rfl
    dsimp only
    refine .bind <| wp_enter hlim hst hlook hown ?_
    refine wp_then (wp_reserveMemberSlot ⟨rfl, hown, hsynced⟩) fun peerId u hu => ?_
    obtain ⟨u, rfl, hin, htook⟩ := hu
    cases peerId with
    | none =>
      exact wp_mono (fun _ _ _ => trivial) (wp_retract hlim (.inr ⟨e, hin.stage⟩) hin.own hin.synced)
    | some peerId =>
      dsimp only
      refine wp_then (wp_adjustPeerScanBound hin) fun _ u hu => ?_
      obtain ⟨u, rfl, hin, hkept⟩ := hu
      refine wp_then (wp_retract hlim (.inr ⟨e, hin.stage⟩) hin.own hin.synced) fun _ u hu => ?_
      obtain ⟨st, look, lookAt, slot, rfl, -⟩ := hu
      intro s γ hInv hγ ch x s' hx
      cases hx
      refine ⟨none, ?_, trivial⟩
      exact (hInv.answer hγ (hkept.trans (htook peerId rfl))).forget i

theorem wp_begin {Q : Unit → View → Prop} (h : ∀ t, Q () (some (.start t))) :
    wp (system lim w) (Inv lim w) i (act .begin) Q none := by
  intro s γ hInv hγ ch x s' hx
  obtain ⟨hs, ⟨⟩⟩ := of_unless hx
  push Not at hs
  exact ⟨_, hInv.begin (by simpa using hs.1) (by simpa using hs.2), h s.now⟩

/-- **The claim procedure keeps the invariant**, whatever the candidates, their
clocks and the stores in the air do. -/
theorem outline (hlim : lim.Sound) : Outline (system lim w) (Inv lim w) (fun _ _ => True) where
  start i call s γ p hInv _ hp := by
    refine ⟨none, hInv.forget i, ?_⟩
    replace hp : start lim w i call s = some p := hp
    unfold start at hp
    cases w with
    | recovery =>
      cases call with
      | claimPeerSlot => cases hp
      | serve n =>
        obtain ⟨hi, ⟨⟩⟩ := of_guard hp
        exact .bind <| wp_begin fun t => wp_serve hlim (fun _ => hi) (fits_fresh t)
    | lease =>
      cases call with
      | serve n =>
        cases hp
        exact .bind <| wp_begin fun t => wp_serve hlim nofun (fits_fresh t)
      | claimPeerSlot =>
        cases hp
        exact .bind <| wp_begin fun t => wp_claimPeerSlot hlim (fits_fresh t)
  env e s γ s' hInv he := by
    replace he : env lim e s = some s' := he
    cases e with
    | advance t =>
      obtain ⟨ht, ⟨⟩⟩ := of_guard he
      refine ⟨γ, hInv.advance ht.1 (fun f hf d hd => ?_), fun _ => rfl⟩
      have := List.all_eq_true.mp ht.2 f hf
      rw [hd] at this
      simpa using this
    | land n =>
      unfold env at he
      dsimp only at he
      cases hf : s.flying[n]? with
      | none =>
        rw [hf] at he
        cases he
      | some f =>
        rw [hf] at he
        obtain ⟨hr, ⟨⟩⟩ := of_guard he
        rw [land_eq_landing]
        exact ⟨γ, hInv.land (landed_land hf hr), fun _ => rfl⟩
    | die i =>
      obtain ⟨hc, ⟨⟩⟩ := of_guard he
      refine ⟨_, hInv.die hc, fun j => ?_⟩
      by_cases hj : kills (.die i) j = true
      · show if kills (.die i) j = true then _ else _
        rw [if_pos hj]
        trivial
      · show if kills (.die i) j = true then _ else _
        rw [if_neg hj]
        refine update_of_ne ?_ _ _
        rintro rfl
        exact hj (decide_eq_true rfl)
    | leave i =>
      obtain ⟨-, ⟨⟩⟩ := of_guard he
      exact ⟨γ, hInv.leave i, fun _ => rfl⟩
    | vacate peerId =>
      unfold env at he
      dsimp only at he
      cases hj : s.slots peerId s.now with
      | none =>
        rw [hj] at he
        cases he
      | some j =>
        rw [hj] at he
        obtain ⟨hgone, ⟨⟩⟩ := of_guard he
        exact ⟨γ, hInv.vacate hgone.2 hj hgone.1, fun _ => rfl⟩

theorem records_fresh : Records lim w (.fresh w) where
  magic := rfl
  peers hw v := by
    subst hw
    rfl
  readAt_le := le_rfl
  lastRead_le _ := le_rfl
  due := nofun
  unclaimed := rfl
  steady _ _ := rfl
  changed _ _ _ h := absurd rfl h
  stakeAir := nofun
  bid := nofun
  clearAir := nofun
  withdrawal := nofun
  oneClear := .nil
  once := nofun
  write := nofun
  check val k hk := by
    cases hk with
    | write x hx _ _ => cases hx
    | landed i x hx _ _ => cases hx
    | flying f hf _ => cases hf
  crash := nofun
  entered := nofun
  unstarted _ _ := ⟨nofun, nofun, rfl⟩

theorem ledger_fresh : Ledger lim w (.fresh w) where
  ended := nofun
  nonce _ _ := by
    refine { once := fun _ _ _ _ hb => (List.not_mem_nil hb).elim, air := nofun, airOnce := .nil,
             entered := nofun, write := nofun, withdrawal := nofun, clearAir := nofun,
             take := fun i y hy => ?_ }
    rcases hy with ⟨l, hl⟩ | ⟨f, hf, -⟩
    · cases hl
    · cases hf
  take i y hy := by
    rcases hy with ⟨l, hl⟩ | ⟨f, hf, -⟩
    · cases hl
    · cases hf
  keeps := nofun
  slotSteady _ _ _ := rfl
  returned := nofun

theorem inv_reachable (hlim : lim.Sound) {c : Config Tid Op Op.Ret State}
    (h : (system lim w).Reachable (fresh w) c) :
    Records lim w c.shared ∧ Ledger lim w c.shared := by
  have h₀ : Outlined (system lim w) (Inv lim w) (fun _ _ => True) (fresh w) :=
    outlined_of_idle (γ := fun _ => none) (fun _ => rfl)
      ⟨records_fresh, ledger_fresh, fun _ _ hv => by cases hv⟩ fun _ => trivial
  obtain ⟨γ, hInv, -⟩ := (outline hlim).reachable h₀ h
  exact ⟨hInv.records, hInv.ledger⟩

end Cme.Stake
