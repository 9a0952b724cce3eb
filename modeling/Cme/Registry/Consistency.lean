import Cme.Registry.Calls

/-!
# Registry — consistency, the scan scope, and handles

* A grant loads a record and sets the whole line later, outside the control
  lock. A slot that is deleted and created again in between gets its former
  record back, and two live domains then have one name
  (`late_grant_duplicates_name`). Where every record lands on the life it was
  loaded with, the registry is consistent in every reachable state
  (`registry_consistent`): names are unique, nobody Active participates in a Free
  slot, and no handle is returned twice.
* A create publishes the record, then the bit of the header's bitmap. A creator
  that dies in between leaves an Active record that no poll loop visits. The
  orphan sweep would free it, but `joinDomain` looks at the record alone, and once
  somebody has joined, no sweep takes the slot back (`joined_unlisted`). Where
  joins keep off such slots and records land on their lives, every domain
  somebody participates in is listed (`joined_listed`).
* `deleteDomain` compares the pin count with one before it takes the control
  lock. A lock of the same peer that falls in between returns a Guard for a
  domain that is then deleted under it (`deleted_under_guard`). Where a peer keeps
  its locks of a domain apart from its leaves and deletes of it, the domain a
  Guard names stays in its slot until the Guard is released
  (`guard_names_domain`).
-/

namespace Cme.Registry

open Interleave

variable {T : Type} [DecidableEq T]

/-! ### A region of two peers -/

/-- Two members with two threads each, and free data slots. -/
def twoPeers : State Bool where
  record d := ⟨DomainRecord.magicValue, if d = 0 then .active else .free, if d = 0 then 1 else 0,
    0, if d = 0 then 0 else noPeer, clearedName⟩
  shadow _ _ := ⟨DomainRecord.magicValue, .free, 0, 0, noPeer, clearedName⟩
  member p := if p < 2 then ⟨.active, 1⟩ else ⟨.none, 0⟩
  peerScanBound := 2
  activeDomains := 1
  pins _ _ := 0
  control := none
  holding _ := []
  crashed _ := false
  returned := []
  guards := []
  users _ := []
  retiring _ := []
  unlisted _ := false

/-- One data slot. -/
def twoPeersDims : Dims := { maxPeers := 2, numDomains := 2, numDomains_le := by decide }

/-- Two data slots. -/
def twoSlotsDims : Dims := { maxPeers := 2, numDomains := 3, numDomains_le := by decide }

theorem twoPeers_member (p : PeerId) :
    twoPeers.member p = if p < 2 then ⟨.active, 1⟩ else ⟨.none, 0⟩ := rfl

theorem twoPeers_initial : twoPeers.Initial twoPeersDims where
  free d hd := by
    have h0 : d ≠ 0 := hd
    simp [twoPeers, h0, DomainRecord.isActive]
  controlActive := rfl
  bits p d h := by
    rw [twoPeers_member] at h
    split at h
    · by_contra hd
      have h0 : d ≠ 0 := hd
      simp [Bits.has, h0] at h
    · simp [Bits.has] at h
  bound p h := by
    rw [twoPeers_member] at h
    split at h
    · assumption
    · simp at h
  control := rfl
  joined p := by
    rw [twoPeers_member]
    split
    · exact Or.inr rfl
    · exact Or.inl rfl
  returned := rfl
  guards := rfl
  users _ := rfl
  retiring _ := rfl
  unlisted _ := rfl

abbrev Schedule := List (Action (Tid Bool) Choice Call Env)

/-- A thread takes the lock it asks for. -/
def granted (i : Tid Bool) : Schedule := [.exec i (.flag true)]

/-- A pin that gets its word at once. -/
def pinned (i : Tid Bool) : Schedule := steps i 1 ++ [.exec i (.nat 1)] ++ steps i 1

/-- A create up to the store of the record; its walks load `loads` records. -/
def createToRecord (i : Tid Bool) (name : Text) (loads : Nat) : Schedule :=
  [.start i (.createDomain name)] ++ steps i 1 ++ granted i ++ steps i (loads + 3)

/-- The bitmap, the participation, the end of the section, the handle. -/
def createToEnd (i : Tid Bool) (name : Text) (loads : Nat) : Schedule :=
  createToRecord i name loads ++ steps i 5

def join (i : Tid Bool) : Schedule :=
  [.start i (.joinDomain 1 none)] ++ steps i 2 ++ granted i ++ steps i 5

/-- A lock by handle, to the Guard. -/
def lockFirst (i : Tid Bool) : Schedule :=
  [.start i (.lock ⟨1, 1⟩ .lock)] ++ steps i 3 ++ pinned i ++ granted i ++ steps i 3

/-- A delete that has the domain's lock and has counted one pin. -/
def deleteToCount (i : Tid Bool) : Schedule :=
  [.start i (.deleteDomain 1 none)] ++ steps i 2 ++ pinned i ++ granted i ++ steps i 1

/-! ### Consistency -/

/-- What the registry promises between its operations. -/
structure State.Consistent (s : State T) : Prop where
  names : ∀ d d', d ≠ controlDomainId → d' ≠ controlDomainId → (s.record d).isActive = true →
    (s.record d').isActive = true → (s.record d).getName = (s.record d').getName → d = d'
  participation : ∀ q d, d ≠ controlDomainId → (s.member q).status = .active →
    (s.member q).participating.has d = true → (s.record d).isActive = true
  handles : s.returned.Nodup

/-- A thread of peer 0 gives up a delete of x, whose record it has loaded for the grant of
its release. The other thread leaves the domain, and peer 1 deletes it, creates y in its
slot and x in the next one; then the grant sets the line. -/
def grantAcrossDelete : Schedule :=
  let granter : Tid Bool := (0, false)
  let leaver : Tid Bool := (0, true)
  let other : Tid Bool := (1, false)
  createToEnd granter ['x'] 3 ++ join other ++
  -- the control lock does not come; the release goes as far as the loaded record
  deleteToCount granter ++ steps granter 1 ++ [.exec granter (.flag false)] ++
  steps granter 1 ++ [.exec granter (.nat 0)] ++ steps granter 3 ++
  [.exec granter (.peer (some 1))] ++ steps granter 3 ++
  -- a leave looks for pins, and does not take the grant's mark for one
  [.start leaver (.leaveDomain 1 none)] ++ steps leaver 2 ++ granted leaver ++ steps leaver 13 ++
  deleteToCount other ++ steps other 1 ++ granted other ++ steps other 9 ++
  [.exec other (.nat 0)] ++ steps other 2 ++ [.exec other (.peer none)] ++
  steps other 1 ++
  createToEnd other ['y'] 3 ++ createToEnd other ['x'] 4 ++
  steps granter 2

/-- Two live domains of one name, with nobody in a control section. -/
theorem late_grant_duplicates_name :
    ∃ c, (system twoSlotsDims true).Reachable (idle twoPeers) c ∧ c.shared.control = none ∧
      (c.shared.record 1).isActive = true ∧ (c.shared.record 2).isActive = true ∧
      (c.shared.record 1).getName = ['x'] ∧ (c.shared.record 2).getName = ['x'] :=
  System.exists_of_run _ _ grantAcrossDelete (by decide +kernel)

/-- **The registry is consistent** in every reachable state of the runs in which a record
that is moved outside a control section lands on the life it was loaded with: between
operations and in the middle of them, after crashes at any write, recoveries and
departures. -/
theorem registry_consistent (dims : Dims) {s₀ : State T} (h₀ : s₀.Initial dims)
    {c : Config (Tid T) Op Ret (State T)}
    (h : ((system dims true).restrict landsAsLoaded).Reachable (idle s₀) c) :
    c.shared.Consistent := by
  let f : Flags := ⟨true, false, false, fun hf => absurd hf Bool.false_ne_true⟩
  have hM : Runs ((system dims true).restrict landsAsLoaded :
      System (Tid T) Op Ret _ _ _ _) f := by
    intro i o ch s r s' hx
    obtain ⟨hlands, hexec⟩ := System.restrict_exec.mp hx
    exact ⟨(exec_eq hexec).1, (exec_eq hexec).2.2, hlands,
      fun hf => absurd hf Bool.false_ne_true, fun hf => absurd hf Bool.false_ne_true⟩
  obtain ⟨μ, hInv⟩ := inv_reachable hM rfl rfl rfl h₀ h
  exact ⟨hInv.names, fun q d hd hs hb => hInv.joined q d hd (Member.isActiveIn_iff.mpr ⟨hs, hb⟩),
    hInv.handedOnce⟩

theorem registry_consistent_createAndJoin :
    ∃ c, ((system twoPeersDims true).restrict landsAsLoaded).Reachable (idle twoPeers) c ∧
      c.shared.control = none ∧ c.shared.returned = [⟨1, 1⟩] ∧ c.shared.Consistent := by
  obtain ⟨c, hc, hcontrol, hreturned⟩ := System.exists_of_run
    ((system twoPeersDims true).restrict landsAsLoaded)
    (idle twoPeers) (createToEnd (0, false) ['x'] 2 ++ join (1, false))
    (P := fun c => c.shared.control = none ∧ c.shared.returned = [⟨1, 1⟩]) (by decide +kernel)
  exact ⟨c, hc, hcontrol, hreturned, registry_consistent _ twoPeers_initial hc⟩

/-! ### The scan scope -/

/-- A creator dies with the record published and the bitmap not, and is
recovered; the other peer joins, and sweeps. -/
def joinInterruptedCreate : Schedule :=
  createToRecord (0, false) ['x'] 2 ++
  [.env (.crash 0), .env .handControl, .env (.seize 0), .env (.finish 0)] ++
  join (1, false) ++
  [.start (1, false) .sweepOrphans] ++ steps (1, false) 1 ++ granted (1, false) ++
  steps (1, false) 2

/-- A domain with an Active participant that no poll loop visits. -/
theorem joined_unlisted :
    ∃ c, (system twoPeersDims true).Reachable (idle twoPeers) c ∧ c.shared.control = none ∧
      (c.shared.record 1).isActive = true ∧ (c.shared.member 1).isActiveIn 1 = true ∧
      c.shared.activeDomains.has 1 = false :=
  System.exists_of_run _ _ joinInterruptedCreate (by decide +kernel)

/-- **Every joined domain is listed** in the runs in which nobody joins a slot
whose create has not reached the bitmap, and a record that is moved outside a control
section lands on the life it was loaded with. -/
theorem joined_listed (dims : Dims) {s₀ : State T} (h₀ : s₀.Initial dims)
    {c : Config (Tid T) Op Ret (State T)}
    (h : (((system dims true).restrict landsAsLoaded).restrict joinsListed).Reachable (idle s₀) c)
    {d : DomainId}
    (hd : d ≠ controlDomainId) (hactive : (c.shared.record d).isActive = true) {q : PeerId}
    (hq : (c.shared.member q).isActiveIn d = true) : c.shared.activeDomains.has d = true := by
  let f : Flags := ⟨true, true, false, fun hf => by cases hf⟩
  have hM : Runs (((system dims true).restrict landsAsLoaded).restrict joinsListed :
      System (Tid T) Op Ret _ _ _ _) f := by
    intro i o ch s r s' hx
    obtain ⟨hcalm, hx⟩ := System.restrict_exec.mp hx
    obtain ⟨hlands, hexec⟩ := System.restrict_exec.mp hx
    exact ⟨(exec_eq hexec).1, (exec_eq hexec).2.2, hlands, fun _ => hcalm,
      fun hf => by cases hf⟩
  obtain ⟨μ, hInv⟩ := inv_reachable hM rfl rfl rfl h₀ h
  refine (hInv.listed rfl d hd hactive).resolve_right fun hu => ?_
  cases (hInv.unlisted rfl q d hd hu).symm.trans hq

theorem joined_listed_createAndJoin :
    ∃ c, (((system twoPeersDims true).restrict landsAsLoaded).restrict joinsListed).Reachable
        (idle twoPeers) c ∧ (c.shared.member 1).isActiveIn 1 = true ∧ c.shared.activeDomains.has 1 = true := by
  obtain ⟨c, hc, hactive, hjoined⟩ := System.exists_of_run
    (((system twoPeersDims true).restrict landsAsLoaded).restrict joinsListed) (idle twoPeers)
    (createToEnd (0, false) ['x'] 2 ++ join (1, false))
    (P := fun c => (c.shared.record 1).isActive = true ∧ (c.shared.member 1).isActiveIn 1 = true)
    (by decide +kernel)
  exact ⟨c, hc, hjoined, joined_listed _ twoPeers_initial hc (by decide) hactive hjoined⟩

/-! ### Handles -/

/-- A delete has the domain's lock and has counted one pin; the other thread of
the peer locks the domain by its handle; the delete goes on to the end of its
control section. -/
def deleteAroundLock : Schedule :=
  let deleter : Tid Bool := (0, true)
  createToEnd (0, false) ['x'] 2 ++ deleteToCount deleter ++
  lockFirst (0, false) ++
  steps deleter 1 ++ granted deleter ++ steps deleter 8

/-- A Guard that is out, and its slot Free. -/
theorem deleted_under_guard : ∃ c, (system twoPeersDims false).Reachable (idle twoPeers) c ∧
      (0, ⟨1, 1⟩) ∈ c.shared.guards ∧ c.shared.crashed 0 = false ∧
      (c.shared.record 1).isActive = false :=
  System.exists_of_run _ _ deleteAroundLock (by decide +kernel)

/-- **A Guard names the domain in its slot** from its return to its release, in
the runs in which a peer keeps its locks of a domain apart from its leaves and
deletes of it. -/
theorem guard_names_domain (dims : Dims) {s₀ : State T} (h₀ : s₀.Initial dims)
    {c : Config (Tid T) Op Ret (State T)}
    (h : ((system dims false).restrict retiresApart).Reachable (idle s₀) c) {p : PeerId}
    {k : DomainHandle} (hk : (p, k) ∈ c.shared.guards) (hp : c.shared.crashed p = false) :
    (c.shared.record k.id).isActive = true ∧
      (c.shared.record k.id).generation = k.incarnation := by
  let f : Flags := ⟨false, false, true, fun _ => rfl⟩
  have hM : Runs ((system dims false).restrict retiresApart :
      System (Tid T) Op Ret _ _ _ _) f := by
    intro i o ch s r s' hx
    obtain ⟨hcalm, hexec⟩ := System.restrict_exec.mp hx
    obtain ⟨hlive, hlands, haccess⟩ := exec_eq hexec
    exact ⟨hlive, haccess, hlands, fun hf => absurd hf Bool.false_ne_true, fun _ => hcalm⟩
  obtain ⟨μ, hInv⟩ := inv_reachable hM rfl rfl rfl h₀ h
  exact ((hInv.settled rfl).guarded (p, k) hk hp).2

theorem guard_names_domain_lockFirst :
    ∃ c, ((system twoPeersDims false).restrict retiresApart).Reachable (idle twoPeers) c ∧
      (0, ⟨1, 1⟩) ∈ c.shared.guards ∧ (c.shared.record 1).isActive = true ∧
      (c.shared.record 1).generation = 1 := by
  obtain ⟨c, hc, hguard, hlive⟩ := System.exists_of_run
    ((system twoPeersDims false).restrict retiresApart) (idle twoPeers)
    (createToEnd (0, false) ['x'] 2 ++ lockFirst (0, true))
    (P := fun c => (0, ⟨1, 1⟩) ∈ c.shared.guards ∧ c.shared.crashed 0 = false) (by decide +kernel)
  exact ⟨c, hc, hguard, guard_names_domain _ twoPeers_initial hc hguard hlive⟩

end Cme.Registry
