import Cme.Interleave.Rely
import Cme.Interleave.Ring
import Cme.Registry.State

/-!
# Admission — the bound of the peer scan

`claimPeerSlot` (`admission/claim.cpp`) under a lease that is exclusive: the
reservation of the lowest free slot, the downward scan for the bound, the store
of the bound. A joiner may die after any of its writes; the next one then takes
the lease. Departures and recoveries change the slots in use at any time, and
set them to None.

A slot the scan has read as None stays None until the next reservation, because
only admission takes a slot out of None. So what lies above the bound when the
lease goes back was free when it was read, and still is: the bound covers every
slot in use, and so does the ring a peer walks over it (`scanBound_covers`).
-/

namespace Cme.Admission

open Function Interleave
open Registry (Status)

/-- A joiner. -/
abbrev Tid := Nat

/-- What admission reads of a member slot. -/
structure Member where
  isValidMagic : Bool
  status : Status
  deriving DecidableEq

structure State where
  member : PeerId → Member
  peerScanBound : Nat
  /-- Who has the lease. -/
  lease : Option Tid
  /-- History: a call that yields a slot has given the lease back, and no slot has
  been reserved since. -/
  settled : Bool

inductive Op where
  | acquireLease
  | readSlot (p : PeerId)
  | takeSlot (p : PeerId)
  | readBound
  | storeBound (bound : Nat)
  | releaseLease (yields : Bool)

def Op.Ret : Op → Type
  | .readSlot _ => Member
  | .readBound => Nat
  | _ => Unit

/-- What a departure or a recovery leaves in a slot that is in use. -/
def State.mark (s : State) (p : PeerId) (status : Status) : State :=
  { s with member := Function.update s.member p { s.member p with status := status } }

theorem mark_isValidMagic (s : State) (p q : PeerId) (status : Status) :
    ((s.mark p status).member q).isValidMagic = (s.member q).isValidMagic := by
  by_cases hq : q = p
  · simp [State.mark, hq]
  · simp [State.mark, hq]

theorem mark_member_of_ne (s : State) {p q : PeerId} (hq : q ≠ p) (status : Status) :
    (s.mark p status).member q = s.member q := update_of_ne hq ..

def exec (i : Tid) : (o : Op) → Unit → State → Option (o.Ret × State)
  | .acquireLease, _, s => if s.lease = none then some ((), { s with lease := some i }) else none
  | .readSlot p, _, s => some (s.member p, s)
  | .takeSlot p, _, s => some ((), { s.mark p .active with settled := false })
  | .readBound, _, s => some (s.peerScanBound, s)
  | .storeBound bound, _, s => some ((), { s with peerScanBound := bound })
  | .releaseLease yields, _, s =>
    some ((), { s with lease := none, settled := yields || s.settled })

/-- The code of a joiner. -/
abbrev Proc := Prog Op Op.Ret

def act (o : Op) : Proc o.Ret := Prog.perform o

/-- The lowest free slot from `peerId` on, of `n` left to look at. -/
def reserveMemberSlot (peerId : PeerId) : Nat → Proc (Option PeerId)
  | 0 => pure none
  | n + 1 => do
    let member ← act (.readSlot peerId)
    if !member.isValidMagic || member.status ≠ .none then reserveMemberSlot (peerId + 1) n
    else
      act (.takeSlot peerId)
      pure (some peerId)

/-- The loop of `adjustPeerScanBound`, from `slotsAbove` down to `bound`. -/
def findScanBound (bound : Nat) : Nat → Proc Nat
  | 0 => pure bound
  | slotsAbove + 1 => do
    if bound < slotsAbove + 1 then
      let member ← act (.readSlot slotsAbove)
      if member.isValidMagic && member.status ≠ .none then pure (slotsAbove + 1)
      else findScanBound bound slotsAbove
    else pure bound

def adjustPeerScanBound (peerCount : Nat) (peerId : PeerId) : Proc Unit := do
  let bound ← findScanBound (peerId + 1) peerCount
  let stored : Nat ← act .readBound
  if stored = bound then pure ()
  else act (.storeBound bound)

/-- The lease goes back on either way out; without a slot the call throws. -/
def claimPeerSlot (peerCount : Nat) : Proc Unit := do
  act .acquireLease
  match ← reserveMemberSlot 0 peerCount with
  | some peerId =>
    adjustPeerScanBound peerCount peerId
    act (.releaseLease true)
  | none => act (.releaseLease false)

/-- A joiner dies, and the lease it had is the next one's to take; a departure or
a recovery changes a slot in use. -/
inductive Env where
  | die (i : Tid)
  | mark (p : PeerId) (status : Status)

def env : Env → State → Option State
  | .die i, s => some { s with lease := if s.lease = some i then none else s.lease }
  | .mark p status, s => if (s.member p).status = .none then none else some (s.mark p status)

def kills : Env → Tid → Bool
  | .die i, j => i = j
  | .mark _ _, _ => false

/-- Joiners at a region of `peerCount` slots. -/
def system (peerCount : Nat) : System Tid Op Op.Ret State Unit Unit Env where
  exec := exec
  start _ _ _ := some (claimPeerSlot peerCount)
  env := env
  kills := kills

/-- A formatted region, with any members and any bound. -/
structure State.Initial (s : State) : Prop where
  valid : ∀ p, (s.member p).isValidMagic = true
  lease : s.lease = none
  settled : s.settled = false

/-! ### The invariant -/

/-- Every slot in use is below the bound. -/
def State.Covered (s : State) (peerCount : Nat) : Prop :=
  ∀ p < peerCount, (s.member p).status ≠ .none → p < s.peerScanBound

structure Inv (peerCount : Nat) (s : State) (inside : Tid → Bool) : Prop where
  lease : ∀ i, inside i = true → s.lease = some i
  valid : ∀ p, (s.member p).isValidMagic = true
  covered : s.settled = true → s.Covered peerCount

/-- What a joiner that has the lease relies on. -/
structure Kept (s s' : State) : Prop where
  free : ∀ p, (s.member p).status = .none → (s'.member p).status = .none
  bound : s'.peerScanBound = s.peerScanBound
  settled : s'.settled = s.settled

def pact (peerCount : Nat) : Pact Tid State Bool where
  inv := Inv peerCount
  rely _ inside s s' := inside = true → Kept s s'

variable {peerCount : Nat} {i : Tid}

theorem Kept.refl (s : State) : Kept s s := ⟨fun _ h => h, rfl, rfl⟩

/-- Every slot from `k` on is free. -/
def FreeFrom (peerCount k : Nat) (s : State) : Prop :=
  ∀ q, k ≤ q → q < peerCount → (s.member q).status = .none

theorem FreeFrom.stable (peerCount k : Nat) : Stable Kept (FreeFrom peerCount k) :=
  fun _ _ h hfree q hk hq => h.free q (hfree q hk hq)

variable {s : State}

theorem FreeFrom.down {k : Nat} (h : FreeFrom peerCount (k + 1) s)
    (hk : (s.member k).status = .none) : FreeFrom peerCount k s := by
  intro q hkq hq
  rcases Nat.eq_or_lt_of_le hkq with rfl | hlt
  · exact hk
  · exact h q hlt hq

theorem FreeFrom.covered (h : FreeFrom peerCount s.peerScanBound s) : s.Covered peerCount := by
  intro p hp hused
  by_contra hle
  exact hused (h p (by omega) hp)

variable {inside : Tid → Bool}

theorem Inv.alone (h : Inv peerCount s inside) (hi : inside i = true) {j : Tid} (hj : j ≠ i) :
    inside j = false := by
  by_contra hin
  have hlease := h.lease j (by simpa using hin)
  rw [h.lease i hi] at hlease
  exact hj (Option.some.inj hlease).symm

/-- A reservation: whatever the bound was, it is not known to cover the slot. -/
theorem Inv.takeSlot (h : Inv peerCount s inside) (p : PeerId) :
    Inv peerCount { s.mark p .active with settled := false } inside where
  lease := h.lease
  valid q := (mark_isValidMagic s p q .active).trans (h.valid q)
  covered hs := absurd hs (by simp)

theorem mark_kept {p : PeerId} (hused : (s.member p).status ≠ .none) (status : Status) :
    Kept s (s.mark p status) where
  free q hq := by
    have hne : q ≠ p := by
      rintro rfl
      exact hused hq
    rw [mark_member_of_ne s hne]
    exact hq
  bound := rfl
  settled := rfl

theorem Inv.mark (h : Inv peerCount s inside) {p : PeerId} (hused : (s.member p).status ≠ .none)
    (status : Status) : Inv peerCount (s.mark p status) inside where
  lease := h.lease
  valid q := (mark_isValidMagic s p q status).trans (h.valid q)
  covered hs q hq hin := by
    refine h.covered hs q hq fun hnone => ?_
    exact hin ((mark_kept hused status).free q hnone)

/-! ### The procedures -/

/-- The joiner has the lease; its own slot is reserved, and every slot from `bound`
on is free. -/
def Scanned (peerCount bound : Nat) (inside : Bool) (s : State) : Prop :=
  inside = true ∧ s.settled = false ∧ FreeFrom peerCount bound s

theorem scanned_stable (bound : Nat) (inside : Bool) :
    Stable ((pact peerCount).rely i inside) (Scanned peerCount bound inside) := by
  rintro s s' hrely ⟨hin, hs, hfree⟩
  have hkept := hrely hin
  exact ⟨hin, hkept.settled.trans hs, FreeFrom.stable peerCount bound s s' hkept hfree⟩

/-- The joiner has the lease. -/
def Inside (inside : Bool) (_ : State) : Prop := inside = true

/-- A read changes nothing, and what it found free stays free. -/
theorem triple_readSlot {P : Bool → State → Prop} (hP : ∀ v s, P v s → v = true) (p : PeerId) :
    triple (pact peerCount) (system peerCount) i P (act (.readSlot p)) fun member v s =>
      P v s ∧ (member.isValidMagic = true ∧
        (member.status = .none → (s.member p).status = .none)) := by
  refine triple_passive fun s μ hinv hin ch r s' hx => ?_
  cases hx
  refine ⟨hinv, fun j _ => Kept.refl s, ⟨hinv.valid p, fun h => h⟩, ?_⟩
  rintro s₁ s₂ hrely ⟨hvalid, hfree⟩
  exact ⟨hvalid, fun hnone => (hrely (hP _ s hin)).free p (hfree hnone)⟩

/-- A reservation leaves everything known that the scan starts from. -/
theorem triple_takeSlot (p : PeerId) :
    triple (pact peerCount) (system peerCount) i Inside (act (.takeSlot p))
      fun _ => Scanned peerCount peerCount := by
  refine .perform fun s μ hinv hin ch r s' hx => ?_
  cases hx
  have hin : μ i = true := hin
  refine ⟨true, ?_, ⟨rfl, rfl, fun q hle hlt => absurd hlt (by omega)⟩, scanned_stable _ _,
    fun j hj hjin => ?_⟩
  · rw [← hin, update_eq_self]
    exact hinv.takeSlot p
  · rw [hinv.alone hin hj] at hjin
    exact absurd hjin (by decide)

theorem triple_reserveMemberSlot (n : Nat) (peerId : PeerId) :
    triple (pact peerCount) (system peerCount) i Inside (reserveMemberSlot peerId n)
      fun found v s => if found.isSome then Scanned peerCount peerCount v s else Inside v s := by
  induction n generalizing peerId with
  | zero => exact .pure fun v s h => h
  | succ n ih =>
    refine (triple_readSlot (fun _ _ h => h) peerId).bind fun member => ?_
    refine .ite (fun _ => (ih (peerId + 1)).pre fun v s h => h.1) fun _ => ?_
    refine ((triple_takeSlot peerId).pre fun v s h => h.1).bind fun _ => ?_
    exact .pure fun v s h => h

/-- The scan: what it has passed is free. -/
theorem triple_findScanBound (n bound : Nat) :
    triple (pact peerCount) (system peerCount) i (Scanned peerCount n) (findScanBound bound n)
      fun found => Scanned peerCount found := by
  -- the result is at or above the slot the scan has come down to
  have up : ∀ {k l : Nat}, k ≤ l → ∀ v s, Scanned peerCount k v s → Scanned peerCount l v s :=
    fun hkl v s h => ⟨h.1, h.2.1, fun q hq hlt => h.2.2 q (hkl.trans hq) hlt⟩
  induction n with
  | zero => exact .pure (up (Nat.zero_le bound))
  | succ n ih =>
    refine .ite (fun _ => ?_) fun hle => .pure (up (Nat.le_of_not_lt hle))
    refine (triple_readSlot (fun _ _ h => h.1) n).bind fun member => .ite (fun _ => ?_)
      fun hfree => ih.pre fun v s h => ?_
    · exact .pure fun v s h => h.1
    · obtain ⟨⟨hin, hs, habove⟩, hvalid, hnone⟩ := h
      refine ⟨hin, hs, habove.down (hnone ?_)⟩
      by_contra hused
      exact hfree (by simp [hvalid, hused])

/-- The bound is the one the scan came to. -/
def Adjusted (peerCount : Nat) (inside : Bool) (s : State) : Prop :=
  inside = true ∧ s.settled = false ∧ FreeFrom peerCount s.peerScanBound s

theorem adjusted_stable (inside : Bool) :
    Stable ((pact peerCount).rely i inside) (Adjusted peerCount inside) := by
  rintro s s' hrely ⟨hin, hs, hfree⟩
  have hkept := hrely hin
  refine ⟨hin, hkept.settled.trans hs, ?_⟩
  rw [hkept.bound]
  exact FreeFrom.stable peerCount _ s s' hkept hfree

theorem triple_adjustPeerScanBound (peerId : PeerId) :
    triple (pact peerCount) (system peerCount) i (Scanned peerCount peerCount)
      (adjustPeerScanBound peerCount peerId) fun _ => Adjusted peerCount := by
  refine (triple_findScanBound peerCount (peerId + 1)).bind fun bound => ?_
  have hread : triple (pact peerCount) (system peerCount) i (Scanned peerCount bound)
      (act .readBound) fun (stored : Nat) v s =>
        Scanned peerCount bound v s ∧ s.peerScanBound = stored := by
    refine triple_passive fun s μ hinv hin ch r s' hx => ?_
    cases hx
    refine ⟨hinv, fun j _ => Kept.refl s, rfl, fun s₁ s₂ hrely h => ?_⟩
    exact (hrely hin.1).bound.trans h
  refine hread.bind fun (stored : Nat) =>
    .ite (fun hsame => .pure fun v s h => ?_) fun _ => ?_
  · obtain ⟨⟨hin, hs, hfree⟩, hstored⟩ := h
    refine ⟨hin, hs, ?_⟩
    rwa [hstored, hsame]
  · refine .perform fun s μ hinv hin ch r s' hx => ?_
    cases hx
    obtain ⟨⟨hin, hs, hfree⟩, -⟩ := hin
    refine ⟨true, ?_, ⟨rfl, hs, hfree⟩, adjusted_stable true, fun j hj hjin => ?_⟩
    · rw [← hin, update_eq_self]
      refine ⟨hinv.lease, hinv.valid, fun hset => ?_⟩
      rw [hs] at hset
      exact absurd hset (by decide)
    · rw [hinv.alone hin hj] at hjin
      exact absurd hjin (by decide)

/-- The lease goes back: with a slot, the bound covers every slot in use. -/
theorem triple_releaseLease {P : Bool → State → Prop} (yields : Bool) (hP : ∀ v s, P v s → v = true)
    (hcovered : ∀ v s, P v s → yields = true → s.Covered peerCount) :
    triple (pact peerCount) (system peerCount) i P (act (.releaseLease yields))
      fun _ v _ => v = false := by
  refine .perform fun s μ hinv hpre ch r s' hx => ?_
  cases hx
  have hin := hP _ s hpre
  refine ⟨false, ⟨fun j hj => ?_, hinv.valid, fun hset => ?_⟩, rfl, Stable.const _,
    fun j hj hjin => ?_⟩
  · by_cases hji : j = i
    · rw [hji, update_self] at hj
      exact absurd hj (by decide)
    · rw [update_of_ne hji, hinv.alone hin hji] at hj
      exact absurd hj (by decide)
  · cases yields with
    | true => exact hcovered _ s hpre rfl
    | false => exact hinv.covered (by simpa using hset)
  · rw [hinv.alone hin hj] at hjin
    exact absurd hjin (by decide)

theorem triple_claimPeerSlot :
    triple (pact peerCount) (system peerCount) i (fun v _ => v = false) (claimPeerSlot peerCount)
      fun _ v _ => v = false := by
  have hacquire : triple (pact peerCount) (system peerCount) i (fun v _ => v = false)
      (act .acquireLease) fun _ => Inside := by
    refine .perform fun s μ hinv hout ch r s' hx => ?_
    obtain ⟨hfree, ⟨⟩⟩ := of_guard hx
    refine ⟨true, ⟨fun j hj => ?_, hinv.valid, hinv.covered⟩, rfl, Stable.const _,
      fun j hj hjin => ?_⟩
    · by_cases hji : j = i
      · rw [hji]
      · rw [update_of_ne hji] at hj
        rw [hinv.lease j hj] at hfree
        exact absurd hfree (by simp)
    · exact ⟨fun _ h => h, rfl, rfl⟩
  refine hacquire.bind fun _ => (triple_reserveMemberSlot peerCount 0).bind fun found => ?_
  cases found with
  | none => exact triple_releaseLease false (fun _ _ h => h) fun _ _ _ h => absurd h (by decide)
  | some peerId =>
    refine (triple_adjustPeerScanBound peerId).bind fun _ => ?_
    exact triple_releaseLease true (fun _ _ h => h.1) fun _ _ h _ => h.2.2.covered

/-! ### Every run -/

theorem pact_kept : (pact peerCount).Kept (system peerCount) fun _ v _ => v = false where
  start i _ s μ p hinv hrest hp := by
    cases hp
    refine ⟨false, fun v _ => v = false, ?_, rfl, Stable.const _, triple_claimPeerSlot⟩
    rw [← hrest, update_eq_self]
    exact hinv
  env e s μ s' hinv hs := by
    cases e with
    | die d =>
      cases hs
      refine ⟨update μ d false, ⟨fun j hj => ?_, hinv.valid, hinv.covered⟩, fun j => ?_⟩
      · have hjd : j ≠ d := by
          rintro rfl
          rw [update_self] at hj
          exact absurd hj (by decide)
        rw [update_of_ne hjd] at hj
        -- the dead joiner's lease is not this one's
        have hlease := hinv.lease j hj
        change (if s.lease = some d then none else s.lease) = some j
        rw [if_neg (by rw [hlease]; simpa using hjd), hlease]
      · by_cases hjd : d = j
        · have hk : kills (.die d) j = true := by simp [kills, hjd]
          rw [if_pos (show (system peerCount).kills (.die d) j = true from hk), hjd,
            update_self]
          exact ⟨rfl, Stable.const _⟩
        · have hk : ¬ kills (.die d) j = true := by simp [kills, hjd]
          rw [if_neg (show ¬ (system peerCount).kills (.die d) j = true from hk),
            update_of_ne (Ne.symm hjd)]
          exact ⟨rfl, fun _ => ⟨fun _ h => h, rfl, rfl⟩⟩
    | mark p status =>
      obtain ⟨hused, ⟨⟩⟩ := of_unless hs
      exact ⟨μ, hinv.mark hused status, fun j => ⟨rfl, fun _ => mark_kept hused status⟩⟩

/-- `loadPeerScanBound`: the bound line, read fresh. -/
def State.loadPeerScanBound (s : State) (peerCount : Nat) : Nat :=
  if s.peerScanBound ≠ 0 then s.peerScanBound else peerCount

/-- `loadPeerRing` of peer `p`. -/
def State.loadPeerRing (s : State) (peerCount : Nat) (p : PeerId) : List PeerId :=
  idRing p (s.loadPeerScanBound peerCount)

/-- A walk over a bound that covers the slots in use. -/
theorem State.Covered.ring (h : s.Covered peerCount) {p : PeerId} (hp : p < peerCount)
    (hused : (s.member p).status ≠ .none) :
    p ∉ s.loadPeerRing peerCount p ∧ ∀ q < peerCount, (s.member q).status ≠ .none → q ≠ p →
      (s.loadPeerRing peerCount p).count q = 1 := by
  have hpb := h p hp hused
  have hbound : s.loadPeerScanBound peerCount = s.peerScanBound := by
    rw [State.loadPeerScanBound, if_pos (by omega)]
  have hring : s.loadPeerRing peerCount p = Ring.walk p s.peerScanBound := by
    rw [State.loadPeerRing, hbound]
    rfl
  rw [hring]
  refine ⟨fun hmem => ((Ring.mem_walk hpb).mp hmem).2 rfl, fun q hq hqused hne => ?_⟩
  exact List.count_eq_one_of_mem (Ring.nodup_walk hpb)
    ((Ring.mem_walk hpb).mpr ⟨h q hq hqused, hne⟩)

/-- **The bound covers every slot in use** from the moment a call that yields a
slot has given the lease back until the next reservation, and the ring over it
visits each other one of them once. -/
theorem scanBound_covers {peerCount : Nat} {c₀ c : Config Tid Op Op.Ret State}
    (h₀ : c₀.shared.Initial) (hidle : ∀ i, c₀.threads i = .done ())
    (h : (system peerCount).Reachable c₀ c) (hs : c.shared.settled = true) :
    (∀ p < peerCount, (c.shared.member p).status ≠ .none → p < c.shared.peerScanBound) ∧
    ∀ p < peerCount, (c.shared.member p).status ≠ .none →
      p ∉ c.shared.loadPeerRing peerCount p ∧
      ∀ q < peerCount, (c.shared.member q).status ≠ .none → q ≠ p →
        (c.shared.loadPeerRing peerCount p).count q = 1 := by
  have hinit : Inv peerCount c₀.shared fun _ => false :=
    ⟨fun _ hi => absurd hi (by decide), h₀.valid, fun hset => by
      rw [h₀.settled] at hset
      exact absurd hset (by decide)⟩
  obtain ⟨μ, hinv⟩ := pact_kept.reachable (μ := fun _ => false) hidle hinit (fun _ => rfl)
    (fun _ => Stable.const _) h
  have hcovered := hinv.covered hs
  exact ⟨hcovered, fun p hp hused => hcovered.ring hp hused⟩

/-- A region of three slots, none in use. -/
def threeSlots : Config Tid Op Op.Ret State :=
  ⟨⟨fun _ => ⟨true, .none⟩, 0, none, false⟩, fun _ => .done ()⟩

/-- Joiner 0 takes slot 0; joiner 1 reserves slot 1 and dies before the bound;
joiner 2 takes slot 2, finds it above the others, and stores the bound. -/
def threeJoin : List (Action Tid Unit Unit Env) :=
  [.start 0 ()] ++ steps 0 8 ++ [.start 1 ()] ++ steps 1 4 ++ [.env (.die 1), .start 2 ()] ++
    steps 2 8

theorem scanBound_covers_threeJoin :
    ∃ c, (system 3).Reachable threeSlots c ∧ c.shared.settled = true ∧
      ∀ p < 3, (c.shared.member p).status ≠ .none → p < c.shared.peerScanBound := by
  obtain ⟨c, hc, hp⟩ := System.exists_of_run (system 3) threeSlots threeJoin
    (P := (·.shared.settled = true)) (by decide +kernel)
  have h₀ : threeSlots.shared.Initial := ⟨fun _ => rfl, rfl, rfl⟩
  exact ⟨c, hc, hp, (scanBound_covers h₀ (fun _ => rfl) hc hp).1⟩

end Cme.Admission
