import Cme.Recovery.Runs

/-!
# Recovery — no work without a seize

A takeover pass or a finish runs under a slot that was seized after the crash of
its occupant, as long as no stake deposes a confirmed authority
(`work_follows_seize`). A late stake can depose one: its tick then ends with the
claim given up and the span still armed, and when the id comes back and crashes
again the span lets it skip the seize (`stale_span_skips_seize`).
-/

namespace Cme.Recovery

open Interleave
open Ownership (Dims)

variable {dims : Dims} {strategy : Strategy} {s : State}

/-- **No recovery skips the seize.** Under a confirmed claim that nobody stakes
over, a peer at work on `d` has `d` down and its slot Recovering, without
participation bits, stamped after the crash of the occupant that the id has now. -/
theorem work_follows_seize (hmax : dims.maxPeers < 2 ^ 32) (h₀ : s.Formatted dims)
    {c : Config PeerId Op Ret State}
    (hc : ((system dims strategy).restrict (undeposed dims)).Reachable (idle s) c) {p d : PeerId}
    (hwork : c.shared.atWork p = some d) :
    (c.shared.member d).status = .recovering ∧ (c.shared.member d).participating = 0 ∧
      c.shared.up d = false ∧ c.shared.stamped d = some (c.shared.occupancy d) := by
  have hruns : Runs _ ⟨dims, strategy, false, hmax⟩ :=
    runs_of_restrict fun hcalm => ⟨hcalm, fun h => nomatch h⟩
  obtain ⟨γ, hinv, -⟩ := inv_reachable hruns h₀ hc
  obtain ⟨facts, hstage⟩ := hinv.atWork p d hwork
  have hknows := hinv.knows p
  rw [hstage] at hknows
  obtain ⟨⟨-, -, hstatus, hbits, hdown, hstamped⟩, -⟩ := hknows
  exact ⟨hstatus, hbits, hdown, hstamped⟩

/-! ### A late stake -/

/-- Three slots, of which 0 and 2 are taken. -/
def twoJoined : State where
  member p := ⟨true, if p = 1 then .none else .active, 0⟩
  up p := p = 0 || p = 2
  claim _ := ⟨true, noPeer⟩
  truth _ := ⟨DomainRecord.magicValue, .active, 1, 1, 0, []⟩
  shadow _ _ := ⟨DomainRecord.magicValue, .active, 1, 1, 0, []⟩
  demand _ := 0
  aggregator g := g
  lines _ _ := noPeer
  poll _ := .fresh
  occupancy _ := 1
  stamped _ := none
  author _ := none
  confirmed _ := none
  atWork _ := none

def threeSlots : Dims := { maxPeers := 3, numDomains := 1, aggregatorGroups := 1 }

theorem twoJoined_formatted : twoJoined.Formatted threeSlots where
  up_lt p hp := by
    have hor : p = 0 ∨ p = 2 := by simpa [twoJoined] using hp
    rcases hor with rfl | rfl <;> decide
  up_member p hp := by
    have hor : p = 0 ∨ p = 2 := by simpa [twoJoined] using hp
    rcases hor with rfl | rfl <;> exact Or.inl rfl
  claim _ := rfl
  demand _ := rfl
  lines _ _ := rfl
  poll _ := rfl
  confirmed _ := rfl
  atWork _ := rfl

namespace Schedule

abbrev Entry := Action PeerId Choice Call Env

/-- The walk of an unlatched tick, up to the write of the stake. -/
def walk (p : PeerId) (bound accesses : Nat) : List Entry :=
  List.flatten [[.start p .tick], steps p 1, [.exec p (.nat bound)], steps p accesses]

/-- The write of a stake and the end of its tick. -/
def stake (p : PeerId) (late : Bool) : List Entry :=
  List.flatten [steps p 1, [.exec p (.flag late)], steps p 1]

/-- A latched tick whose window has passed. -/
def latched (p : PeerId) (accesses : Nat) : List Entry :=
  List.flatten [[.start p .tick], steps p 2, [.exec p (.flag true)], steps p accesses]

/-- The tick that seizes, and the quiet ticks up to the last of the span. -/
def quietSpan (p : PeerId) : List Entry :=
  List.flatten [latched p 7, (List.replicate 98 (latched p 5)).flatten]

end Schedule

open Schedule in
/-- Peer 0 judges the claim on 2 free and is held up. Peer 1 joins, confirms its own
claim, seizes and arms its span; peer 0's stake lands late, and peer 1's next tick
gives its claim up. Peer 0 withdraws, stakes again and recovers 2. -/
def deposedThenFreed : List Entry := List.flatten [
  [.env (.crash 2)], walk 0 3 5, [.env (.reserve 1)], walk 1 3 4, stake 1 false, latched 1 7,
  stake 0 true, latched 1 4, latched 0 4, stake 0 false, quietSpan 0, latched 0 13]

open Schedule in
/-- Slot 2 is taken again by a peer that joins a domain and crashes; peer 1 claims
it. -/
def comesBack : List Entry := List.flatten [
  [.env (.reserve 2), .env (.participate 2 1), .env (.crash 2)], walk 1 3 4, stake 1 false,
  latched 1 2]

/-- Peer 1 is at its takeover pass, and slot 2 is as the crashed peer left it. -/
theorem stale_span_skips_seize : twoJoined.Formatted threeSlots ∧
    ∃ c, (system threeSlots .order).Reachable (idle twoJoined) c ∧
    c.shared.atWork 1 = some 2 ∧ c.shared.up 1 = true ∧ c.shared.up 2 = false ∧
    (c.shared.member 2).status = .active ∧ (c.shared.member 2).participating = 1 ∧
    c.shared.stamped 2 = some 1 ∧ c.shared.occupancy 2 = 2 :=
  ⟨twoJoined_formatted, System.exists_of_run _ _ (List.flatten [deposedThenFreed, comesBack]) (by decide +kernel)⟩

open Schedule in
/-- A recovery that nobody deposes: peer 0 is at its pass under the slot it seized. -/
theorem work_follows_seize_claimed : ∃ c,
    ((system threeSlots .order).restrict (undeposed threeSlots)).Reachable (idle twoJoined) c ∧
    c.shared.atWork 0 = some 2 ∧ (c.shared.member 2).status = .recovering ∧
    c.shared.stamped 2 = some (c.shared.occupancy 2) := by
  obtain ⟨c, hc, hwork⟩ := System.exists_of_run
    ((system threeSlots .order).restrict (undeposed threeSlots)) (idle twoJoined)
    (List.flatten [[.env (.crash 2)], walk 0 3 5, stake 0 false, latched 0 4])
    (P := fun c => c.shared.atWork 0 = some 2) (by decide +kernel)
  have hseized := work_follows_seize (by decide) twoJoined_formatted hc hwork
  exact ⟨c, hc, hwork, hseized.1, hseized.2.2.2⟩

end Cme.Recovery
