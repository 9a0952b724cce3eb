import Cme.Interleave.Alone
import Cme.Recovery.Seizing

/-!
# Recovery — a recovery can be taken up again

Whatever the authorities before it have done, a crashed peer whose last authority has
died is found by the ring walk, and when its slot goes to None nothing in the region
names it (`recovery_resumes`). The one line that can be written back under a finish
is the aggregator record: a hand-off, of a scrub or of a departing peer, picks an
Active slot and writes the record later (`late_handoff_names_freed`).
-/

namespace Cme.Recovery

open Function Interleave
open Ownership (Dims)
open Ownership.RequestAgg (getGroups)

/-- One authority at a time, and no hand-off of the aggregator duty, by a scrub or by a
departing peer, to a peer that is not Active any more. -/
def chained (dims : Dims) (p : PeerId) (o : Op) (ch : Choice) (s : State) : Bool :=
  undeposed dims p o ch s && landed o s

/-- Nothing in the region names `d`. -/
structure Cleared (dims : Dims) (strategy : Strategy) (s : State) (d : PeerId) : Prop where
  words : ∀ t < dims.maxPeers, (s.claim t).read ≠ d
  demand : s.demand d = 0
  lines : ∀ node role, s.lines node role ≠ d
  aggregator : strategy = .requestAgg → s.aggregator (d % getGroups dims) ≠ d
  participating : (s.member d).participating = 0

section

variable {dims : Dims} {strategy : Strategy} {s s' : State} {i d : PeerId}

/-- The operations a walk uses find what the state holds. -/
theorem settles_read {o : Op} {r : Ret o} {Q : Ret o → State → Prop} (hup : s.up i = true)
    (hread : ∀ ch, access i o ch s = some (r, s)) (h : Q r s) :
    settles (system dims strategy) i (act o) Q s := by
  have hexec : ∀ ch, (system dims strategy).exec i o ch s = some (r, s) :=
    fun ch => (if_pos hup).trans (hread ch)
  refine ⟨⟨.any, r, s, hexec .any⟩, fun ch r' s' hx => ?_⟩
  obtain ⟨rfl, rfl⟩ := outcome_eq ((hexec ch).symm.trans hx)
  exact h

/-- The walk stops at a slot whose claim word names nobody live. -/
theorem settles_findTarget (hup : s.up i = true) (hstatus : (s.member d).status ≠ .none)
    (hgone : s.up (s.claim d).read = false) (rest : List PeerId) :
    settles (system dims strategy) i (findTarget dims (d :: rest)) (fun target _ => target = d) s := by
  refine .bind (settles_read hup (fun _ => rfl) ?_)
  by_cases hjoined : (s.member d).status = .active ∨ (s.member d).status = .leaving
  · exact settles_then hjoined (settles_pure.mpr rfl)
  · have hrecovering : (s.member d).status = .recovering := by
      cases hst : (s.member d).status <;> simp_all
    refine settles_else hjoined (settles_then hrecovering (.bind ?_))
    have hstranded : settles (system dims strategy) i (isRecoveryStranded dims d)
        (fun stranded u => stranded = true ∧ u = s) s := by
      refine .bind (.bind (settles_read hup (fun _ => rfl) ?_))
      refine settles_pure.mpr ?_
      by_cases hra : (s.claim d).read < dims.maxPeers
      · refine settles_then hra (settles_then hra ?_)
        exact settles_read hup (fun _ => rfl) ⟨by rw [hgone]; rfl, rfl⟩
      · exact settles_else hra (settles_pure.mpr ⟨rfl, rfl⟩)
    refine settles_mono hstranded fun stranded u h => ?_
    exact settles_then h.1 (settles_pure.mpr rfl)

/-- Only a write of the slot itself frees that of a crashed peer. -/
theorem setMember_of_freed {o : Op} {ch : Choice} {r : Ret o} (hx : access i o ch s = some (r, s'))
    (hne : d ≠ i) (hbefore : (s.member d).status ≠ .none) (hafter : (s'.member d).status = .none) :
    ∃ slot, o = .setMember d slot ∧ slot.status = .none := by
  cases o with
  | setMember t slot =>
    cases hx
    change (update s.member t slot d).status = .none at hafter
    by_cases hd : d = t
    · subst hd
      rw [update_self] at hafter
      exact ⟨slot, rfl, hafter⟩
    · rw [update_of_ne hd] at hafter
      exact absurd hafter hbefore
  | settleClaim t =>
    cases hx
    split at hafter <;> exact absurd hafter hbefore
  | askScanBound | askExpired =>
    cases ch <;> cases hx
    exact absurd hafter hbefore
  | publishNone =>
    cases hx
    change (update s.member i _ d).status = .none at hafter
    rw [update_of_ne hne] at hafter
    exact absurd hafter hbefore
  | spin => cases hx
  | _ =>
    cases hx
    exact absurd hafter hbefore

/-- Nothing outside the poll threads frees a slot. -/
theorem not_freed_outside {a : Env} (ha : env dims strategy a s = some s')
    (hbefore : (s.member d).status ≠ .none) : (s'.member d).status ≠ .none := by
  have hslot : ∀ {p : PeerId} {slot : Slot}, slot.status ≠ .none ∨ slot.status = (s.member p).status →
      (update s.member p slot d).status ≠ .none := by
    intro p slot hslot
    by_cases hd : d = p
    · subst hd
      rw [update_self]
      rcases hslot with hslot | hslot
      · exact hslot
      · rwa [hslot]
    · rwa [update_of_ne hd]
  cases a with
  | reserve p =>
    obtain ⟨-, rfl⟩ := of_guard ha
    exact hslot (Or.inl fun h => by cases h)
  | participate p bits =>
    obtain ⟨-, rfl⟩ := of_guard ha
    exact hslot (Or.inr rfl)
  | beginLeave p =>
    obtain ⟨-, rfl⟩ := of_guard ha
    exact hslot (Or.inl fun h => by cases h)
  | announce p x step | withdraw p x step =>
    obtain ⟨-, ha⟩ := Option.ite_none_right_eq_some.mp ha
    obtain ⟨slot, -, rfl⟩ := Option.map_eq_some_iff.mp ha
    exact hbefore
  | publishShadow x g r | publish x r =>
    cases ha
    exact hbefore
  | _ =>
    obtain ⟨-, rfl⟩ := of_guard ha
    exact hbefore

/-- What a thread has collected when it may write None. -/
theorem cleared_of_complete {e : Setting} {γ : PeerId → Stage} (h : Inv e s γ)
    (hlanding : e.landing = true) {slot : Slot} {f : Unit → Stage}
    (hδ : advance e.dims e.strategy i (γ i) (.setMember d slot) = some f)
    (hnone : slot.status = .none) : Cleared e.dims e.strategy s d ∧ slot.participating = 0 := by
  have hknows := h.knows i
  simp only [advance] at hδ
  split at hδ
  · obtain ⟨⟨-, hstatus, -⟩, -⟩ := of_guard hδ
    cases hstatus.symm.trans hnone
  · next t facts hv =>
    obtain ⟨⟨rfl, -, hcomplete, copy, hcopy, hslot⟩, -⟩ := of_guard hδ
    rw [hv] at hknows
    obtain ⟨hseized, hfacts⟩ := hknows
    refine ⟨⟨fun t ht => hfacts _ (hcomplete.words t ht), ?_, fun node role hline => ?_,
      fun hagg => hfacts _ (hcomplete.aggregator hagg) hlanding, hseized.participating⟩, ?_⟩
    · cases hdemand : e.strategy.hasDemand with
      | true => exact hfacts _ (hcomplete.demand hdemand)
      | false => exact h.sound.demand hdemand d
    · -- a line that named the peer would lie on its climb, which has been scrubbed
      have hne : s.lines node role ≠ noPeer := hline ▸ e.ne_noPeer hseized.lt
      obtain ⟨hpeterson, hon⟩ := h.sound.lines node role hne
      rw [hline] at hon
      exact hfacts _ (hcomplete.lines hpeterson _ hon) hline
    · have hseen : s.member d = copy := hfacts _ hcopy
      rw [hslot, ← hseen]
      exact hseized.participating
  · cases hδ

theorem runs_chained (strategy : Strategy) (hmax : dims.maxPeers < 2 ^ 32) :
    Runs ((system dims strategy).restrict (chained dims)) ⟨dims, strategy, true, hmax⟩ := by
  refine runs_of_restrict (e := ⟨dims, strategy, true, hmax⟩) fun hcalm => ?_
  rw [chained, Bool.and_eq_true] at hcalm
  exact ⟨hcalm.1, fun _ => hcalm.2⟩

/-- **Recovery is resumable.** For every strategy, in every state that a chain of
authorities leaves behind:

* a claim word that reads as a live peer was written by that occupant of the id, so a
  crashed peer no live authority has staked is accepted by the ring walk of everyone
  who comes to it;
* the write that frees the slot of a crashed peer finds nothing that names the peer, and
  no participation bits. -/
theorem recovery_resumes (hmax : dims.maxPeers < 2 ^ 32) (h₀ : s.Formatted dims)
    {c : Config PeerId Op Ret State}
    (hc : ((system dims strategy).restrict (chained dims)).Reachable (idle s) c)
    (hd : d < dims.maxPeers) : (c.shared.up (c.shared.claim d).read = true →
      c.shared.author d = some ((c.shared.claim d).read,
        c.shared.occupancy (c.shared.claim d).read)) ∧
    ((c.shared.member d).status ≠ .none → c.shared.up d = false →
      (∀ q, c.shared.up q = true → c.shared.author d ≠ some (q, c.shared.occupancy q)) →
      ∀ i rest, c.shared.up i = true → settles (system dims strategy) i
        (findTarget dims (d :: rest)) (fun target _ => target = d) c.shared) ∧
    ∀ a c', ((system dims strategy).restrict (chained dims)).next a c = some c' →
      c.shared.up d = false → (c.shared.member d).status ≠ .none →
      (c'.shared.member d).status = .none →
      (c.shared.member d).participating = 0 ∧ Cleared dims strategy c'.shared d := by
  have hruns := runs_chained strategy hmax
  obtain ⟨γ, hinv, hstaged⟩ := inv_reachable hruns h₀ hc
  refine ⟨hinv.sound.author d hd, fun hstatus _ hdied i rest hup => ?_, fun a c' hnext hdown hst hst' => ?_⟩
  · refine settles_findTarget hup hstatus ?_ rest
    by_contra hlive
    rw [Bool.not_eq_false] at hlive
    exact hdied _ hlive (hinv.sound.author d hd hlive)
  · rcases System.next_cases hnext with
      ⟨i, ch, o, k, r, s', -, hi, hx, rfl⟩ | ⟨i, call, p, -, -, -, rfl⟩ | ⟨a, s', -, ha, rfl⟩
    · obtain ⟨f, hδ, -⟩ : (Prog.call o k).Staged (advance dims strategy i) _ (γ i) := hi ▸ hstaged i
      obtain ⟨hup, hx⟩ := exec_some (hruns.exec hx).1
      obtain ⟨slot, rfl, hnone⟩ := setMember_of_freed hx (ne_of_up hup hdown).symm hst hst'
      obtain ⟨hclear, hbits⟩ := cleared_of_complete hinv rfl hδ hnone
      cases hx
      exact ⟨hclear.participating, { hclear with
        participating := (congrArg Slot.participating (update_self ..)).trans hbits }⟩
    · exact absurd hst' hst
    · exact absurd hst' (not_freed_outside (hruns.env ha) hst)

end

open Schedule in
/-- Peer 0 stakes slot 2 and dies, and peer 1 finds 2; or peer 0 lives to free it. -/
theorem recovery_resumes_twoJoined :
    (∃ c, ((system threeSlots .requestAgg).restrict (chained threeSlots)).Reachable
        (idle twoJoined) c ∧ (c.shared.claim 2).read = 0 ∧
      settles (system threeSlots .requestAgg) 1 (findTarget threeSlots [2])
        (fun target _ => target = 2) c.shared) ∧
    ∃ c c', ((system threeSlots .requestAgg).restrict (chained threeSlots)).Reachable
        (idle twoJoined) c ∧
      ((system threeSlots .requestAgg).restrict (chained threeSlots)).next (.exec 0 .any) c =
        some c' ∧ Cleared threeSlots .requestAgg c'.shared 2 := by
  constructor
  · obtain ⟨c, hc, hread, hactive, hdied, hup, hdown, hauthor⟩ := System.exists_of_run
      ((system threeSlots .requestAgg).restrict (chained threeSlots)) (idle twoJoined)
      (List.flatten [[.env (.crash 2)], walk 0 3 5, stake 0 false,
        [.env (.crash 0), .env (.reserve 1)]])
      (P := fun c => (c.shared.claim 2).read = 0 ∧ (c.shared.member 2).status = .active ∧
        c.shared.up 0 = false ∧ c.shared.up 1 = true ∧ c.shared.up 2 = false ∧
        c.shared.author 2 = some (0, 1)) (by decide +kernel)
    obtain ⟨-, hfind, -⟩ := recovery_resumes (d := 2) (by decide) twoJoined_formatted hc (by decide)
    refine ⟨c, hc, hread, hfind (by rw [hactive]; decide) hdown (fun q hq hwrote => ?_) 1 [] hup⟩
    rw [hauthor, Option.some.injEq, Prod.mk.injEq] at hwrote
    rw [← hwrote.1, hdied] at hq
    cases hq
  · obtain ⟨c, hc, hstatus, hdown, hstep⟩ := System.exists_of_run
      ((system threeSlots .requestAgg).restrict (chained threeSlots)) (idle twoJoined)
      (List.flatten [[.env (.crash 2)], walk 0 3 5, stake 0 false, quietSpan 0, latched 0 10])
      (P := fun c => (c.shared.member 2).status = .recovering ∧ c.shared.up 2 = false ∧
        (((system threeSlots .requestAgg).restrict (chained threeSlots)).next (.exec 0 .any) c).any
          (fun c' => decide ((c'.shared.member 2).status = .none)) = true) (by decide +kernel)
    obtain ⟨c', hnext, hnone⟩ := (Option.any_eq_true _ _).mp hstep
    obtain ⟨-, -, hfreed⟩ := recovery_resumes (d := 2) (by decide) twoJoined_formatted hc (by decide)
    have hbefore : (c.shared.member 2).status ≠ .none := by
      rw [hstatus]
      decide
    exact ⟨c, c', hc, hnext, (hfreed _ c' hnext hdown hbefore (of_decide_eq_true hnone)).2⟩

/-! ### A hand-off that lands late -/

/-- Four slots in one aggregator group; 0, 1 and 2 are taken, and 2 has the duty. -/
def threeJoined : State :=
  { twoJoined with
    member := fun p => ⟨true, if p = 3 then .none else .active, 0⟩
    up := fun p => p = 0 || p = 1 || p = 2
    truth := fun _ => { twoJoined.truth 0 with holder := 1 }
    aggregator := fun _ => 2 }

def oneGroup : Dims := { maxPeers := 4, numDomains := 1, aggregatorGroups := 1 }

theorem threeJoined_formatted : threeJoined.Formatted oneGroup where
  up_lt p hp := by
    have hor : (p = 0 ∨ p = 1) ∨ p = 2 := by simpa [threeJoined] using hp
    rcases hor with (rfl | rfl) | rfl <;> decide
  up_member p hp := by
    have hor : (p = 0 ∨ p = 1) ∨ p = 2 := by simpa [threeJoined] using hp
    rcases hor with (rfl | rfl) | rfl <;> exact Or.inl rfl
  claim _ := rfl
  demand _ := rfl
  lines _ _ := rfl
  poll _ := rfl
  confirmed _ := rfl
  atWork _ := rfl

open Schedule in
/-- Peer 0 crashes; peer 2 stakes it and crashes too. Peer 1 recovers 2, finds the duty
on it and slot 0 Active, and is held up before it writes the record. Peer 3 joins and
recovers 0 up to the None write; its own scrub finds the record on 2. -/
def handoffHeldUp : List Entry := List.flatten [
  [.env (.crash 0)], walk 2 4 5, stake 2 false, [.env (.crash 2), .env (.reserve 3)],
  walk 1 4 4, stake 1 false, quietSpan 1, latched 1 12,
  walk 3 4 4, stake 3 false, quietSpan 3, latched 3 11, steps 1 1]

/-- The None write on slot 0 lands with the record of its group on peer 0. -/
theorem late_handoff_names_freed : threeJoined.Formatted oneGroup ∧ ∃ c c',
    ((system oneGroup .requestAgg).restrict (undeposed oneGroup)).Reachable
      (idle threeJoined) c ∧
    ((system oneGroup .requestAgg).restrict (undeposed oneGroup)).next (.exec 3 .any) c =
      some c' ∧
    (c.shared.member 0).status = .recovering ∧ (c'.shared.member 0).status = .none ∧
    c'.shared.aggregator (0 % getGroups oneGroup) = 0 := by
  obtain ⟨c, hc, hstatus, hstep⟩ := System.exists_of_run
    ((system oneGroup .requestAgg).restrict (undeposed oneGroup)) (idle threeJoined)
    handoffHeldUp (P := fun c => (c.shared.member 0).status = .recovering ∧
      (((system oneGroup .requestAgg).restrict (undeposed oneGroup)).next (.exec 3 .any) c).any
        (fun c' => decide ((c'.shared.member 0).status = .none ∧
          c'.shared.aggregator (0 % getGroups oneGroup) = 0)) = true) (by decide +kernel)
  obtain ⟨c', hnext, hnone⟩ := (Option.any_eq_true _ _).mp hstep
  exact ⟨threeJoined_formatted, c, c', hc, hnext, hstatus, of_decide_eq_true hnone⟩

end Cme.Recovery
