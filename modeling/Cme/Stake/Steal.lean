import Cme.Interleave.Trace
import Cme.Stake.Claim

/-!
# Stake — a nonce that stands its timeout

A candidate that ticks at the lease (`LeaseWord`), seen alone: whatever the word
reads as and whenever the ticks come. The traces of a tick are listed once
(`Try`, `Move`), and what the claim remembers is tied to the ticks behind it
(`Recalls`): a watch began in the tick that last restarted it, and every tick since
read the watched value and nothing else.

The source writes the retry of `tryStake` as a recursion. `tickIn` has it so, with
fuel; two turns of it are enough, and `tick` is that.
-/

namespace Cme.Stake

open Interleave Prog

/-- An operation of a tick, and its answer. -/
abbrev Ev := Event Op Op.Ret

def clockAt (t : Nat) : Ev := ⟨.clock, t⟩

def readAs (v : Value) : Ev := ⟨.read, v⟩

def clockOf : Ev → Option Nat
  | ⟨.clock, t⟩ => some t
  | _ => none

def readOf : Ev → Option Value
  | ⟨.read, v⟩ => some v
  | _ => none

def isStake : Ev → Bool
  | ⟨.stake _ _, _⟩ => true
  | _ => false

def clocks (es : List Ev) : List Nat := es.filterMap clockOf

def reads (es : List Ev) : List Value := es.filterMap readOf

@[simp] theorem clocks_append (es es' : List Ev) : clocks (es ++ es') = clocks es ++ clocks es' :=
  List.filterMap_append

@[simp] theorem reads_append (es es' : List Ev) : reads (es ++ es') = reads es ++ reads es' :=
  List.filterMap_append

/-! ### The recursion -/

section

variable (lim : Limits) (w : Word) (self : Tid)

/-- `tryStake` as the source has it; `none` where the fuel ran out. -/
def tryStakeIn : Nat → Claim → Proc (Option Outcome × Claim)
  | 0, claim => pure (none, claim)
  | fuel + 1, claim => do
    match ← attemptStake lim w self claim with
    | (some outcome, claim) => pure (some outcome, claim)
    | (none, claim) => tryStakeIn fuel claim

def endSettleIn (fuel : Nat) (claim : Claim) : Proc (Option Outcome × Claim) := do
  if (← act .clock) < claim.window then pure (some .pending, claim)
  else if (← act .read) = claim.mine then pure (some .won, claim)
  else tryStakeIn lim w self fuel { claim with phase := .idle }

def endHoldIn (fuel : Nat) (claim : Claim) : Proc (Option Outcome × Claim) := do
  if (← act .clock) < claim.window then pure (some .pending, claim)
  else
    retract claim.mine
    tryStakeIn lim w self fuel { claim with phase := .idle }

def tickIn (fuel : Nat) (claim : Claim) : Proc (Option Outcome × Claim) :=
  match claim.phase with
  | .idle | .watching => tryStakeIn lim w self fuel claim
  | .settling => endSettleIn lim w self fuel claim
  | .holding => endHoldIn lim w self fuel claim

end

/-! ### The traces of an attempt -/

/-- The operations of an attempt that stakes: its window opened at `t`. -/
def stakeEvents (lim : Limits) (t : Nat) (seen : Value) (mine done opened : Nat) : List Ev :=
  [clockAt t, readAs seen, ⟨.getRandomNonce, mine⟩, ⟨.stake mine (t + lim.window), ()⟩,
    ⟨.flush true, ()⟩, clockAt done, clockAt opened]

namespace Claim

/-- The watch starts again. -/
def watch (c : Claim) (seen : Value) (began : Nat) : Claim :=
  { c with phase := .watching, watched := seen, watchedSince := began, stalled := none }

/-- The watch has ended. -/
def stood (c : Claim) (seen : Value) : Claim := { c with stalled := some seen, phase := .idle }

def staked (c : Claim) (lim : Limits) (t mine done opened : Nat) : Claim :=
  { c with
    stalled := none
    mine := some mine
    phase := if t + lim.window ≤ done then .holding else .settling
    window := opened + if t + lim.window ≤ done then lim.lateHold else lim.settle }

end Claim

/-- What one attempt does at the lease. -/
inductive Attempt (lim : Limits) (timeout : Nat) (c : Claim) :
    List Ev → Option Outcome → Claim → Prop where
  | watch (t began v : Nat) (hstalled : c.stalled ≠ some (some v))
      (hnew : c.phase ≠ .watching ∨ some v ≠ c.watched) :
      Attempt lim timeout c [clockAt t, readAs (some v), clockAt began] (some .pending)
        (c.watch (some v) began)
  | wait (t now v : Nat) (hphase : c.phase = .watching) (hwatched : c.watched = some v) :
      Attempt lim timeout c [clockAt t, readAs (some v), clockAt now] (some .pending) c
  | stood (t now v : Nat) (hphase : c.phase = .watching) (hwatched : c.watched = some v)
      (hstood : timeout ≤ now - c.watchedSince) :
      Attempt lim timeout c [clockAt t, readAs (some v), clockAt now] none
        (c.stood (some v))
  | stake (t : Nat) (seen : Value) (mine done opened : Nat)
      (hseen : seen = none ∨ c.stalled = some seen) :
      Attempt lim timeout c (stakeEvents lim t seen mine done opened) (some .pending)
        (c.staked lim t mine done opened)

section

variable {lim : Limits} {self : Tid} {timeout : Nat} {c c' : Claim} {es : List Ev}
  {out : Option Outcome}

theorem attempt_of_trace (ht : lim.stallTimeout = some timeout)
    (h : Trace (attemptStake lim .lease self c) es (out, c')) :
    Attempt lim timeout c es out c' := by
  simp only [attemptStake, act, isFree, makeOwn, publish, hasStoodTimeout, ht, trace_perform,
    trace_pure_bind] at h
  obtain ⟨t, _, rfl, seen, _, rfl, h⟩ := h
  split at h
  · -- another value stands, and no watch of it has ended
    rename_i hno
    obtain ⟨hseen, hstalled⟩ := hno
    obtain ⟨v, rfl⟩ := Option.ne_none_iff_exists'.mp (of_decide_eq_false hseen)
    obtain ⟨⟨stood, claim⟩, _, _, rfl, h₁, h₂⟩ := trace_bind.mp h
    obtain ⟨rfl, rfl, rfl⟩ := trace_pure_mk.mp h₂
    split at h₁
    · rename_i hnew
      simp only [trace_perform, trace_pure] at h₁
      obtain ⟨began, _, rfl, rfl, hclaim⟩ := h₁
      obtain ⟨rfl, rfl⟩ := Prod.mk.inj hclaim
      exact .watch t began v hstalled hnew
    · rename_i hold
      obtain ⟨hphase, hwatched⟩ := not_or.mp hold
      simp only [trace_perform] at h₁
      obtain ⟨now, _, rfl, h₁⟩ := h₁
      split at h₁
      · obtain ⟨rfl, rfl, rfl⟩ := trace_pure_mk.mp h₁
        exact .wait t now v (not_not.mp hphase) (not_not.mp hwatched).symm
      · rename_i hstood
        obtain ⟨rfl, rfl, rfl⟩ := trace_pure_mk.mp h₁
        exact .stood t now v (not_not.mp hphase) (not_not.mp hwatched).symm
          (Nat.le_of_not_lt hstood)
  · rename_i hyes
    have hfree : seen = none ∨ c.stalled = some seen := by
      rcases not_and_or.mp hyes with hseen | hstalled
      · exact .inl (of_decide_eq_true (Bool.of_not_eq_false hseen))
      · exact .inr (not_not.mp hstalled)
    obtain ⟨mine, _, rfl, hrest⟩ := trace_perform.mp h
    obtain ⟨_, _, _, rfl, hpublish, hopen⟩ := trace_bind.mp hrest
    simp only [trace_perform, trace_pure] at hpublish
    obtain ⟨_, _, rfl, _, _, rfl, rfl, rfl⟩ := hpublish
    simp only [if_true, trace_perform, trace_pure] at hopen
    obtain ⟨done, _, rfl, opened, _, rfl, rfl, hclaim⟩ := hopen
    obtain ⟨rfl, rfl⟩ := Prod.mk.inj hclaim
    exact .stake t seen mine done opened hfree

/-- What `tryStake` does from a claim that holds no stalled value. -/
inductive Try (lim : Limits) (timeout : Nat) (c : Claim) : List Ev → Claim → Prop where
  | watch (t began v : Nat) (hnew : c.phase ≠ .watching ∨ some v ≠ c.watched) :
      Try lim timeout c [clockAt t, readAs (some v), clockAt began] (c.watch (some v) began)
  | wait (t now v : Nat) (hphase : c.phase = .watching) (hwatched : c.watched = some v) :
      Try lim timeout c [clockAt t, readAs (some v), clockAt now] c
  | stake (t mine done opened : Nat) :
      Try lim timeout c (stakeEvents lim t none mine done opened) (c.staked lim t mine done opened)
  /-- The watch has ended, and the value reads the same again. -/
  | steal (t now v t' mine done opened : Nat) (hphase : c.phase = .watching)
      (hwatched : c.watched = some v) (hstood : timeout ≤ now - c.watchedSince) :
      Try lim timeout c
        ([clockAt t, readAs (some v), clockAt now] ++ stakeEvents lim t' (some v) mine done opened)
        (c.staked lim t' mine done opened)
  /-- The watch has ended, and the word is free. -/
  | reopen (t now v t' mine done opened : Nat) :
      Try lim timeout c
        ([clockAt t, readAs (some v), clockAt now] ++ stakeEvents lim t' none mine done opened)
        (c.staked lim t' mine done opened)
  /-- The watch has ended, and another value stands. -/
  | rewatch (t now v t' began v' : Nat) :
      Try lim timeout c
        ([clockAt t, readAs (some v), clockAt now] ++
          [clockAt t', readAs (some v'), clockAt began])
        (c.watch (some v') began)

/-- The second attempt of a `tryStake` ends it: the watch that ended left
`Phase::Idle`. -/
theorem Attempt.outcome_of_idle (h : Attempt lim timeout c es out c') (hc : c.phase ≠ .watching) :
    out = some .pending := by
  cases h with
  | watch | stake => rfl
  | wait _ _ _ hphase => exact absurd hphase hc
  | stood _ _ _ hphase => exact absurd hphase hc

theorem Attempt.try (h : Attempt lim timeout c es (some .pending) c') (hc : c.stalled = none) :
    Try lim timeout c es c' := by
  cases h with
  | watch t began v _ hnew => exact .watch t began v hnew
  | wait t now v hphase hwatched => exact .wait t now v hphase hwatched
  | stake t seen mine done opened hseen =>
    rcases hseen with rfl | hseen
    · exact .stake t mine done opened
    · rw [hc] at hseen
      cases hseen

variable {outcome : Outcome}

theorem try_of_trace (ht : lim.stallTimeout = some timeout) (hc : c.stalled = none)
    (h : Trace (tryStake lim .lease self c) es (outcome, c')) :
    outcome = .pending ∧ Try lim timeout c es c' := by
  obtain ⟨⟨out, claim⟩, es₁, es₂, rfl, h₁, h⟩ := trace_bind.mp h
  have hfirst := attempt_of_trace ht h₁
  rcases out with _ | out
  · obtain ⟨⟨out, claim'⟩, es₂, es₃, rfl, h₂, h⟩ := trace_bind.mp h
    obtain ⟨rfl, rfl, rfl⟩ := trace_pure_mk.mp h
    have hsecond := attempt_of_trace ht h₂
    cases hfirst with
    | stood t now v hphase hwatched hstood =>
      obtain rfl := hsecond.outcome_of_idle (by simp [Claim.stood])
      refine ⟨rfl, ?_⟩
      rw [List.append_nil]
      cases hsecond with
      | watch t' began v' => exact .rewatch t now v t' began v'
      | wait _ _ _ hphase => cases hphase
      | stake t' seen mine done opened hseen =>
        rcases hseen with rfl | hseen
        · exact .reopen t now v t' mine done opened
        · cases hseen
          exact .steal t now v t' mine done opened hphase hwatched hstood
  · obtain ⟨rfl, rfl, rfl⟩ := trace_pure_mk.mp h
    obtain rfl : outcome = .pending := by cases hfirst <;> rfl
    rw [List.append_nil]
    exact ⟨rfl, hfirst.try hc⟩

/-! ### The traces of a tick -/

/-- What a tick does from a claim that holds no stalled value. -/
inductive Move (lim : Limits) (timeout : Nat) (c : Claim) : List Ev → Outcome → Claim → Prop where
  | tryStake {es : List Ev} {c' : Claim} (h : Try lim timeout c es c') : Move lim timeout c es .pending c'
  | early (now : Nat) (hphase : c.phase ≠ .watching) : Move lim timeout c [clockAt now] .pending c
  | won (now : Nat) (hphase : c.phase = .settling) (hwindow : c.window ≤ now) :
      Move lim timeout c [clockAt now, readAs c.mine] .won c
  /-- The settle was lost or the late hold has ended: one read, and a new attempt. -/
  | again {es₀ es : List Ev} {c' : Claim} (hreads : (reads es₀).length = 1)
      (hstakes : es₀.any isStake = false) (h : Try lim timeout { c with phase := .idle } es c') :
      Move lim timeout c (es₀ ++ es) .pending c'

theorem retract_trace {mine : Value} {u : Unit} (h : Trace (retract mine) es u) :
    (reads es).length = 1 ∧ es.any isStake = false := by
  simp only [retract, act, trace_perform] at h
  obtain ⟨copy, _, rfl, h⟩ := h
  rcases mine with _ | val
  · obtain ⟨rfl, -⟩ := trace_pure.mp h
    exact ⟨rfl, rfl⟩
  · simp only at h
    split at h
    · cases h with
      | call h =>
        cases h with
        | call h =>
          cases h
          exact ⟨rfl, rfl⟩
    · obtain ⟨rfl, -⟩ := trace_pure.mp h
      exact ⟨rfl, rfl⟩

theorem move_of_trace (ht : lim.stallTimeout = some timeout) (hc : c.stalled = none)
    (h : Trace (tick lim .lease self c) es (outcome, c')) : Move lim timeout c es outcome c' := by
  have htry (h : Trace (tryStake lim .lease self c) es (outcome, c')) :
      Move lim timeout c es outcome c' := by
    obtain ⟨rfl, htry⟩ := try_of_trace ht hc h
    exact .tryStake htry
  rw [tick] at h
  split at h
  · exact htry h
  · exact htry h
  · rename_i hphase
    simp only [endSettle, act, trace_perform] at h
    obtain ⟨now, _, rfl, h⟩ := h
    split at h
    · obtain ⟨rfl, rfl, rfl⟩ := trace_pure_mk.mp h
      exact .early now (by rw [hphase]; decide)
    · rename_i hwindow
      simp only [trace_perform] at h
      obtain ⟨v, _, rfl, h⟩ := h
      split at h
      · rename_i hmine
        obtain ⟨rfl, rfl, rfl⟩ := trace_pure_mk.mp h
        rw [hmine]
        exact .won now hphase (Nat.le_of_not_lt hwindow)
      · obtain ⟨rfl, hagain⟩ := try_of_trace ht (by exact hc) h
        show Move lim timeout c ([clockAt now, readAs v] ++ _) .pending c'
        exact .again rfl rfl hagain
  · rename_i hphase
    simp only [endHold, act, trace_perform] at h
    obtain ⟨now, _, rfl, h⟩ := h
    split at h
    · obtain ⟨rfl, rfl, rfl⟩ := trace_pure_mk.mp h
      exact .early now (by rw [hphase]; decide)
    · obtain ⟨_, es₀, es, rfl, hretract, hrest⟩ := trace_bind.mp h
      obtain ⟨rfl, hagain⟩ := try_of_trace ht (by exact hc) hrest
      obtain ⟨hreads, hstakes⟩ := retract_trace hretract
      show Move lim timeout c ((clockAt now :: es₀) ++ es) .pending c'
      exact .again hreads hstakes hagain

/-! ### What the claim remembers -/

/-- One call of `tick`, as it went. -/
structure Tick where
  events : List Ev
  outcome : Outcome

def Tick.stakes (t : Tick) : Bool := t.events.any isStake

variable (lim self) in
/-- Ticks of one candidate, from a new claim on; each finds the claim as the last
one left it. -/
inductive History : List Tick → Claim → Prop where
  | start : History [] .fresh
  | tick {l : List Tick} {c c' : Claim} {es : List Ev} {outcome : Outcome} (h : History l c)
      (ht : Trace (tick lim .lease self c) es (outcome, c')) : History (l ++ [⟨es, outcome⟩]) c'

/-- The last ticks from `t₀` on: `t₀` read `v` at last and then took the time
`since`, the ticks after it read `v` and nothing else, and none staked. -/
structure WatchedFrom (t₀ : Tick) (mid : List Tick) (v since : Nat) : Prop where
  read : (reads t₀.events).getLast? = some (some v)
  began : (clocks t₀.events).getLast? = some since
  reads : ∀ t ∈ mid, reads t.events ≠ [] ∧ ∀ r ∈ reads t.events, r = some v
  stakes : ∀ t ∈ t₀ :: mid, t.stakes = false

variable (lim) in
/-- The last ticks from `t₀` on: `t₀` staked `mine` inside its window and opened the
settle that ends at `settled`, and no tick after it staked. -/
structure StakedIn (t₀ : Tick) (mid : List Tick) (mine settled : Nat) : Prop where
  stake : ∃ es₀ t seen done opened, t₀.events = es₀ ++ stakeEvents lim t seen mine done opened ∧
    done < t + lim.window ∧ settled = opened + lim.settle
  stakes : ∀ t ∈ mid, t.stakes = false

variable (lim) in
/-- What the claim remembers of the ticks. -/
structure Recalls (l : List Tick) (c : Claim) : Prop where
  stalled : c.stalled = none
  watching : c.phase = .watching → ∃ v pre t₀ mid, c.watched = some v ∧ l = pre ++ t₀ :: mid ∧
    WatchedFrom t₀ mid v c.watchedSince
  settling : c.phase = .settling → ∃ mine pre t₀ mid, c.mine = some mine ∧ l = pre ++ t₀ :: mid ∧
    StakedIn lim t₀ mid mine c.window

variable {l : List Tick}

theorem Recalls.idle (hstalled : c.stalled = none) (hphase : c.phase = .idle) :
    Recalls lim l c := by
  refine ⟨hstalled, fun hw => ?_, fun hw => ?_⟩
  · cases hphase.symm.trans hw
  · cases hphase.symm.trans hw

theorem Recalls.watch {es₀ : List Ev} {t began v : Nat} (outcome : Outcome)
    (hstakes : es₀.any isStake = false) : Recalls lim
      (l ++ [⟨es₀ ++ [clockAt t, readAs (some v), clockAt began], outcome⟩])
      (c.watch (some v) began) := by
  refine ⟨rfl, fun _ => ⟨v, l, _, [], rfl, rfl, ⟨?_, ?_, ?_, ?_⟩⟩, fun hphase => by cases hphase⟩
  · rw [reads_append]
    exact List.getLast?_concat
  · rw [clocks_append]
    exact List.getLast?_append.trans rfl
  · intro t ht
    cases ht
  · intro t ht
    rw [List.mem_singleton.mp ht, Tick.stakes, List.any_append, hstakes]
    rfl

theorem Recalls.staked {es₀ : List Ev} {t mine done opened : Nat} {seen : Value}
    (outcome : Outcome) : Recalls lim
      (l ++ [⟨es₀ ++ stakeEvents lim t seen mine done opened, outcome⟩])
      (c.staked lim t mine done opened) := by
  refine ⟨rfl, fun hphase => ?_, fun hphase => ?_⟩
  · rw [Claim.staked] at hphase
    simp only at hphase
    split at hphase <;> cases hphase
  · have hearly : ¬ t + lim.window ≤ done := by
      intro hlate
      rw [Claim.staked, if_pos hlate] at hphase
      cases hphase
    refine ⟨mine, l, _, [], rfl, rfl, ⟨⟨es₀, t, seen, done, opened, rfl, ?_, ?_⟩, ?_⟩⟩
    · exact Nat.lt_of_not_le hearly
    · simp only [Claim.staked, if_neg hearly]
    · intro t ht
      cases ht

theorem Recalls.keep {t : Tick} (h : Recalls lim l c)
    (hreads : c.phase = .watching → ∀ v, c.watched = some v →
      reads t.events ≠ [] ∧ ∀ r ∈ reads t.events, r = some v)
    (hstakes : t.stakes = false) : Recalls lim (l ++ [t]) c := by
  refine ⟨h.stalled, fun hphase => ?_, fun hphase => ?_⟩
  · obtain ⟨v, pre, t₀, mid, hv, rfl, hw⟩ := h.watching hphase
    refine ⟨v, pre, t₀, mid ++ [t], hv, by simp, ⟨hw.read, hw.began, ?_, ?_⟩⟩
    · intro s hs
      rcases List.mem_append.mp hs with hs | hs
      · exact hw.reads s hs
      · rw [List.mem_singleton.mp hs]
        exact hreads hphase v hv
    · intro s hs
      rcases List.mem_append.mp (List.cons_append ▸ hs : s ∈ (t₀ :: mid) ++ [t]) with hs | hs
      · exact hw.stakes s hs
      · rw [List.mem_singleton.mp hs, hstakes]
  · obtain ⟨mine, pre, t₀, mid, hm, rfl, hw⟩ := h.settling hphase
    refine ⟨mine, pre, t₀, mid ++ [t], hm, by simp, ⟨hw.stake, ?_⟩⟩
    intro s hs
    rcases List.mem_append.mp hs with hs | hs
    · exact hw.stakes s hs
    · rw [List.mem_singleton.mp hs, hstakes]

theorem Recalls.try (h : Recalls lim l c) (htry : Try lim timeout c es c')
    (es₀ : List Ev) (outcome : Outcome) (hes : c.phase = .watching → es₀ = []) (hstakes : es₀.any isStake = false) :
    Recalls lim (l ++ [⟨es₀ ++ es, outcome⟩]) c' := by
  cases htry with
  | watch t began v hnew => exact Recalls.watch outcome hstakes
  | wait t now v hphase hwatched =>
    rw [hes hphase, List.nil_append]
    refine h.keep (fun _ v' hv' => ?_) rfl
    obtain rfl := Option.some.inj (hwatched.symm.trans hv')
    refine ⟨List.cons_ne_nil _ _, fun r hr => List.mem_singleton.mp hr⟩
  | stake t mine done opened => exact Recalls.staked outcome
  | steal t now v t' mine done opened =>
    rw [← List.append_assoc]
    exact Recalls.staked outcome
  | reopen t now v t' mine done opened =>
    rw [← List.append_assoc]
    exact Recalls.staked outcome
  | rewatch t now v t' began v' =>
    rw [← List.append_assoc]
    refine Recalls.watch outcome ?_
    rw [List.any_append, hstakes]
    rfl

theorem Recalls.move (h : Recalls lim l c) (hm : Move lim timeout c es outcome c') :
    Recalls lim (l ++ [⟨es, outcome⟩]) c' := by
  cases hm with
  | tryStake htry => exact h.try htry [] .pending (fun _ => rfl) rfl
  | early now hphase => exact h.keep (fun hw => absurd hw hphase) rfl
  | won now hphase =>
    refine h.keep (fun hw => ?_) rfl
    rw [hphase] at hw
    cases hw
  | again hreads hstakes htry =>
    have hidle : Recalls lim l { c with phase := .idle } := .idle h.stalled rfl
    exact hidle.try htry _ .pending (fun hw => by cases hw) hstakes

theorem History.recalls (ht : lim.stallTimeout = some timeout) (h : History lim self l c) :
    Recalls lim l c := by
  induction h with
  | start => exact .idle rfl rfl
  | tick _ htick ih => exact ih.move (move_of_trace ht ih.stalled htick)

/-- The ticks before one of them, and what that one does. -/
theorem History.before {pre post : List Tick} {t : Tick} (ht : lim.stallTimeout = some timeout)
    (h : History lim self l c) (hl : l = pre ++ t :: post) :
    ∃ c₁ c₂, Recalls lim pre c₁ ∧ Move lim timeout c₁ t.events t.outcome c₂ := by
  induction h generalizing post with
  | start => cases pre <;> cases hl
  | @tick l c c' es outcome h htick ih =>
    rcases List.eq_nil_or_concat post with rfl | ⟨post, last, rfl⟩
    · obtain ⟨rfl, hlast⟩ := List.append_inj' hl rfl
      obtain rfl := List.singleton_inj.mp hlast
      have hrec := h.recalls ht
      exact ⟨c, c', hrec, move_of_trace ht hrec.stalled htick⟩
    · rw [List.concat_eq_append, ← List.cons_append, ← List.append_assoc] at hl
      exact ih (List.append_inj' hl rfl).1

/-! ### The steal -/

theorem split_at_stake {a b before after : List Ev} {e₀ e : Ev} (ha : a.any isStake = false)
    (hb : b.any isStake = false) (h : a ++ e₀ :: b = before ++ e :: after) (he : isStake e = true) :
    before = a := by
  induction a generalizing before with
  | nil =>
    cases before with
    | nil => rfl
    | cons x before =>
      rw [List.nil_append, List.cons_append, List.cons.injEq] at h
      rw [h.2, List.any_append, List.any_cons, he, Bool.true_or, Bool.or_true] at hb
      cases hb
  | cons x a ih =>
    rw [List.any_cons, Bool.or_eq_false_iff] at ha
    cases before with
    | nil =>
      obtain ⟨rfl, -⟩ := List.cons.inj h
      rw [he] at ha
      cases ha.1
    | cons y before =>
      rw [List.cons_append, List.cons_append, List.cons.injEq] at h
      rw [h.1, ih ha.2 h.2]

theorem split_stakeEvents {es₀ before after : List Ev} {t mine done opened : Nat} {seen : Value}
    {e : Ev} (hes : es₀.any isStake = false)
    (h : es₀ ++ stakeEvents lim t seen mine done opened = before ++ e :: after)
    (he : isStake e = true) :
    before = es₀ ++ [clockAt t, readAs seen, ⟨.getRandomNonce, mine⟩] := by
  have ha : (es₀ ++ [clockAt t, readAs seen, ⟨.getRandomNonce, mine⟩]).any isStake = false := by
    rw [List.any_append, hes]
    rfl
  have hb : [(⟨.flush true, ()⟩ : Ev), clockAt done, clockAt opened].any isStake = false := rfl
  have hlist : (es₀ ++ [clockAt t, readAs seen, ⟨.getRandomNonce, mine⟩]) ++
      (⟨.stake mine (t + lim.window), ()⟩ : Ev) ::
        [⟨.flush true, ()⟩, clockAt done, clockAt opened] = before ++ e :: after := by
    rw [← h]
    simp only [stakeEvents, List.append_assoc, List.cons_append, List.nil_append]
  exact split_at_stake ha hb hlist he

theorem not_split {before after : List Ev} {e : Ev} (hes : es.any isStake = false)
    (h : es = before ++ e :: after) : isStake e = false := by
  rw [h, List.any_append, List.any_cons, Bool.or_eq_false_iff, Bool.or_eq_false_iff] at hes
  exact hes.2.1

/-- A stake over a value ends a watch of that value. -/
theorem Try.steals {es₀ before after : List Ev} {e : Ev} {v : Nat} (h : Try lim timeout c es c')
    (hes : es₀.any isStake = false) (hsplit : es₀ ++ es = before ++ e :: after)
    (he : isStake e = true) (hv : (reads before).getLast? = some (some v)) :
    c.phase = .watching ∧ c.watched = some v ∧ ∃ now ∈ clocks before,
      timeout ≤ now - c.watchedSince ∧ ∀ r ∈ reads before, r ∈ reads es₀ ∨ r = some v := by
  have hno (hes' : es.any isStake = false) : False := by
    have := not_split (by rw [List.any_append, hes, hes', Bool.or_self]) hsplit
    rw [he] at this
    cases this
  cases h with
  | watch | wait | rewatch => exact (hno rfl).elim
  | stake t mine done opened =>
    obtain rfl := split_stakeEvents hes hsplit he
    rw [reads_append] at hv
    cases List.getLast?_append.symm.trans hv
  | reopen t now v' t' mine done opened =>
    rw [← List.append_assoc] at hsplit
    obtain rfl := split_stakeEvents (by rw [List.any_append, hes]; rfl) hsplit he
    rw [reads_append] at hv
    cases List.getLast?_append.symm.trans hv
  | steal t now v' t' mine done opened hphase hwatched hstood =>
    rw [← List.append_assoc] at hsplit
    obtain rfl := split_stakeEvents (by rw [List.any_append, hes]; rfl) hsplit he
    rw [reads_append] at hv
    have hvv : some v' = some v := Option.some.inj (List.getLast?_append.symm.trans hv)
    refine ⟨hphase, hwatched.trans hvv, now, ?_, hstood, ?_⟩
    · simp only [clocks_append, List.mem_append]
      exact .inl (.inr (.tail _ (.head _)))
    · intro r hr
      rw [← hvv]
      simp only [reads_append, List.mem_append] at hr
      rcases hr with (hr | hr) | hr
      · exact .inl hr
      · exact .inr (List.mem_singleton.mp hr)
      · exact .inr (List.mem_singleton.mp hr)

theorem Move.steals {before after : List Ev} {e : Ev} {v : Nat}
    (h : Move lim timeout c es outcome c') (hsplit : es = before ++ e :: after)
    (he : isStake e = true) (hv : (reads before).getLast? = some (some v)) :
    c.phase = .watching ∧ c.watched = some v ∧ ∃ now ∈ clocks before,
      timeout ≤ now - c.watchedSince ∧ ∀ r ∈ reads before, r = some v := by
  have hno (hes : es.any isStake = false) : False := by
    have := not_split hes hsplit
    rw [he] at this
    cases this
  cases h with
  | early | won => exact (hno rfl).elim
  | tryStake h =>
    have hsplit' : [] ++ es = before ++ e :: after := hsplit
    obtain ⟨hphase, hwatched, now, hnow, hstood, hreads⟩ := h.steals rfl hsplit' he hv
    refine ⟨hphase, hwatched, now, hnow, hstood, fun r hr => ?_⟩
    rcases hreads r hr with hr | hr
    · cases hr
    · exact hr
  | again _ hstakes h =>
    cases (h.steals hstakes hsplit he hv).1

/-! ### The end of a tick -/

theorem Attempt.reads_length (h : Attempt lim timeout c es out c') : (reads es).length = 1 := by
  cases h <;> rfl

theorem Attempt.idle_of_none (h : Attempt lim timeout c es none c') : c'.phase = .idle := by
  cases h
  rfl

/-- Two turns end the recursion. -/
theorem tryStakeIn_trace (ht : lim.stallTimeout = some timeout) (fuel : Nat)
    (h : Trace (tryStakeIn lim .lease self (fuel + 2) c) es (out, c')) :
    ∃ outcome, out = some outcome ∧ Trace (tryStake lim .lease self c) es (outcome, c') ∧
      (reads es).length ≤ 2 := by
  obtain ⟨⟨out₁, c₁⟩, es₁, es₂, rfl, h₁, hrest⟩ := trace_bind.mp h
  have hfirst := attempt_of_trace ht h₁
  rcases out₁ with _ | outcome
  · obtain ⟨⟨out₂, c₂⟩, es₂, es₃, rfl, h₂, hrest⟩ := trace_bind.mp hrest
    have hsecond := attempt_of_trace ht h₂
    have hidle : c₁.phase ≠ .watching := by
      rw [hfirst.idle_of_none]
      decide
    obtain rfl := hsecond.outcome_of_idle hidle
    obtain ⟨rfl, rfl, rfl⟩ := trace_pure_mk.mp hrest
    refine ⟨.pending, rfl, trace_bind.mpr ⟨_, _, _, rfl, h₁, ?_⟩, ?_⟩
    · exact trace_bind.mpr ⟨_, _, _, rfl, h₂, .done _⟩
    · rw [List.append_nil, reads_append, List.length_append, hfirst.reads_length,
        hsecond.reads_length]
  · obtain ⟨rfl, rfl, rfl⟩ := trace_pure_mk.mp hrest
    refine ⟨outcome, rfl, trace_bind.mpr ⟨_, _, _, rfl, h₁, .done _⟩, ?_⟩
    rw [List.append_nil, hfirst.reads_length]
    omega

theorem tickIn_trace (ht : lim.stallTimeout = some timeout) (fuel : Nat)
    (h : Trace (tickIn lim .lease self (fuel + 2) c) es (out, c')) :
    ∃ outcome, out = some outcome ∧ Trace (tick lim .lease self c) es (outcome, c') ∧
      (reads es).length ≤ 3 := by
  cases hphase : c.phase
  all_goals
    simp only [tick, hphase]
    simp only [tickIn, hphase] at h
  case idle | watching =>
    obtain ⟨outcome, rfl, htry, hreads⟩ := tryStakeIn_trace ht fuel h
    exact ⟨outcome, rfl, htry, Nat.le_succ_of_le hreads⟩
  case settling =>
    obtain ⟨now, _, rfl, h₁⟩ := trace_perform.mp h
    by_cases hearly : now < c.window
    · rw [if_pos hearly] at h₁
      obtain ⟨rfl, rfl, rfl⟩ := trace_pure_mk.mp h₁
      refine ⟨.pending, rfl, trace_perform.mpr ⟨now, _, rfl, ?_⟩, Nat.zero_le 3⟩
      rw [if_pos hearly]
      exact .done _
    · rw [if_neg hearly] at h₁
      obtain ⟨v, _, rfl, h₂⟩ := trace_perform.mp h₁
      -- the two ways on from the read that ends the window
      have hsettle {outcome : Outcome} {es : List Ev}
          (hend : Trace (if v = c.mine then pure (.won, c)
            else tryStake lim .lease self { c with phase := .idle }) es (outcome, c')) :
          Trace (endSettle lim .lease self c) (clockAt now :: readAs v :: es) (outcome, c') := by
        refine trace_perform.mpr ⟨now, _, rfl, ?_⟩
        rw [if_neg hearly]
        exact trace_perform.mpr ⟨v, _, rfl, hend⟩
      by_cases hmine : v = c.mine
      · rw [if_pos hmine] at h₂
        obtain ⟨rfl, rfl, rfl⟩ := trace_pure_mk.mp h₂
        refine ⟨.won, rfl, hsettle ?_, (by decide : 1 ≤ 3)⟩
        rw [if_pos hmine]
        exact .done _
      · rw [if_neg hmine] at h₂
        obtain ⟨outcome, rfl, htry, hreads⟩ := tryStakeIn_trace ht fuel h₂
        refine ⟨outcome, rfl, hsettle ?_, Nat.succ_le_succ hreads⟩
        rw [if_neg hmine]
        exact htry
  case holding =>
    obtain ⟨now, _, rfl, h₁⟩ := trace_perform.mp h
    by_cases hearly : now < c.window
    · rw [if_pos hearly] at h₁
      obtain ⟨rfl, rfl, rfl⟩ := trace_pure_mk.mp h₁
      refine ⟨.pending, rfl, trace_perform.mpr ⟨now, _, rfl, ?_⟩, Nat.zero_le 3⟩
      rw [if_pos hearly]
      exact .done _
    · rw [if_neg hearly] at h₁
      obtain ⟨_, es₀, es, rfl, hretract, h₂⟩ := trace_bind.mp h₁
      obtain ⟨outcome, rfl, htry, hreads⟩ := tryStakeIn_trace ht fuel h₂
      refine ⟨outcome, rfl, trace_perform.mpr ⟨now, _, rfl, ?_⟩, ?_⟩
      · rw [if_neg hearly]
        exact trace_bind.mpr ⟨_, _, _, rfl, hretract, htry⟩
      · have hone := (retract_trace hretract).1
        show (reads (es₀ ++ es)).length ≤ 3
        rw [reads_append, List.length_append, hone]
        omega

/-! ### The claim alone -/

theorem clock_le {pre mid post : List Tick} {t₀ t : Tick} {since now : Nat}
    (hclock : ((pre ++ t₀ :: mid ++ t :: post).flatMap fun t => clocks t.events).Pairwise (· ≤ ·))
    (hsince : since ∈ clocks t₀.events) (hnow : now ∈ clocks t.events) : since ≤ now := by
  have hpairs := (List.pairwise_flatMap.mp hclock).2
  have hlater := (List.pairwise_append.mp hpairs).2.2
  exact hlater t₀ (List.mem_append_right _ (.head _)) t (.head _) since hsince
    now hnow

/-- **A nonce is stolen only after it stood its timeout.** Whatever the lease word
reads as, and at whatever times the ticks come: a stake over a value follows a tick
that began the watch of it, at least the timeout before, and every tick since read
that value only and staked nothing. The recursion of a tick ends within two turns
and three reads. Won is answered only after the settle of a stake made in its
window, by a tick that reads the nonce again. -/
theorem stolen_after_timeout (ht : lim.stallTimeout = some timeout) (h : History lim self l c)
    (hclock : (l.flatMap fun t => clocks t.events).Pairwise (· ≤ ·)) :
    (∀ pre t post before e after v, l = pre ++ t :: post → t.events = before ++ e :: after →
      isStake e = true → (reads before).getLast? = some (some v) →
        ∃ pre' t₀ mid since now, pre = pre' ++ t₀ :: mid ∧ WatchedFrom t₀ mid v since ∧
          (∀ r ∈ reads before, r = some v) ∧ now ∈ clocks before ∧ since + timeout ≤ now) ∧
    (∀ fuel c es out c', Trace (tickIn lim .lease self (fuel + 2) c) es (out, c') →
      ∃ outcome, out = some outcome ∧ Trace (tick lim .lease self c) es (outcome, c') ∧
        (reads es).length ≤ 3) ∧
    (∀ pre t post, l = pre ++ t :: post → t.outcome = .won →
      ∃ mine pre' t₀ mid settled now, pre = pre' ++ t₀ :: mid ∧ StakedIn lim t₀ mid mine settled ∧
        t.events = [clockAt now, readAs (some mine)] ∧ settled ≤ now) := by
  refine ⟨?_, fun fuel c es out c' => tickIn_trace ht fuel, ?_⟩
  · intro pre t post before e after v hl hsplit he hv
    obtain ⟨c₁, c₂, hrec, hmove⟩ := h.before ht hl
    obtain ⟨hphase, hwatched, now, hnow, hstood, hreads⟩ := hmove.steals hsplit he hv
    obtain ⟨v', pre', t₀, mid, hv', rfl, hw⟩ := hrec.watching hphase
    obtain rfl := Option.some.inj (hwatched.symm.trans hv')
    refine ⟨pre', t₀, mid, _, now, rfl, hw, hreads, hnow, ?_⟩
    have hle : c₁.watchedSince ≤ now := by
      rw [hl] at hclock
      refine clock_le hclock (List.mem_of_getLast? hw.began) ?_
      rw [hsplit, clocks_append]
      exact List.mem_append_left _ hnow
    omega
  · intro pre t post hl hwon
    obtain ⟨c₁, c₂, hrec, hmove⟩ := h.before ht hl
    obtain ⟨events, outcome⟩ := t
    obtain rfl : outcome = .won := hwon
    cases hmove with
    | won now hphase hwindow =>
      obtain ⟨mine, pre', t₀, mid, hmine, rfl, hs⟩ := hrec.settling hphase
      exact ⟨mine, pre', t₀, mid, _, now, rfl, hs, by rw [hmine], hwindow⟩

end

deriving instance DecidableEq for Op

/-- The lease's constants, in milliseconds. -/
def leaseLimits : Limits where
  window := 1
  lag := 2
  settle := 5
  lateHold := 54
  stallTimeout := some 200
  acquireDeadline := 5000
  maxPeers := 2
  stall := 50
  stallFrom := .fromStake
  failAge := 0

/-- A joiner finds nonce 7 and watches it, -/
def firstTick : Tick := ⟨[clockAt 0, readAs (some 7), clockAt 0], .pending⟩

/-- finds it standing, -/
def secondTick : Tick := ⟨[clockAt 150, readAs (some 7), clockAt 150], .pending⟩

/-- stakes nonce 9 over it after the timeout, -/
def thirdTick : Tick :=
  ⟨[clockAt 200, readAs (some 7), clockAt 200] ++ stakeEvents leaseLimits 200 (some 7) 9 200 200,
    .pending⟩

/-- and holds the lease after the settle. -/
def fourthTick : Tick := ⟨[clockAt 205, readAs (some 9)], .won⟩

theorem stolen_after_timeout_sevens :
    (∃ pre t₀ mid since now, [firstTick, secondTick] = pre ++ t₀ :: mid ∧
      WatchedFrom t₀ mid 7 since ∧ now ∈ [200, 200, 200] ∧ since + 200 ≤ now) ∧
    ∃ pre t₀ mid settled now, [firstTick, secondTick, thirdTick] = pre ++ t₀ :: mid ∧
      StakedIn leaseLimits t₀ mid 9 settled ∧ fourthTick.events = [clockAt now, readAs (some 9)] ∧
        settled ≤ now := by
  have h₀ : History leaseLimits 0 [] .fresh := .start
  have h₁ := h₀.tick (trace_of_follow firstTick.events rfl)
  have h₂ := h₁.tick (trace_of_follow secondTick.events rfl)
  have h₃ := h₂.tick (trace_of_follow thirdTick.events rfl)
  have h₄ := h₃.tick (trace_of_follow fourthTick.events rfl)
  obtain ⟨hsteal, -, hwon⟩ := stolen_after_timeout rfl h₄ (by decide)
  constructor
  · obtain ⟨pre, t₀, mid, since, now, hpre, hw, -, hnow, hle⟩ :=
      hsteal [firstTick, secondTick] thirdTick [fourthTick]
        ([clockAt 200, readAs (some 7), clockAt 200] ++
          [clockAt 200, readAs (some 7), ⟨.getRandomNonce, (9 : Nat)⟩])
        ⟨.stake 9 201, ()⟩ [⟨.flush true, ()⟩, clockAt 200, clockAt 200] 7 rfl rfl rfl rfl
    exact ⟨pre, t₀, mid, since, now, hpre, hw, hnow, hle⟩
  · obtain ⟨mine, pre, t₀, mid, settled, now, hpre, hs, hevents, hle⟩ :=
      hwon [firstTick, secondTick, thirdTick] fourthTick [] rfl rfl
    cases hevents
    exact ⟨pre, t₀, mid, settled, _, hpre, hs, rfl, hle⟩

end Cme.Stake
