import Cme.Interleave.Ring
import Cme.Registry.State

/-!
# Recovery — whom a peer watches

`ChainRecoveryAuthorityPolicy::getRecoveryTarget` with the liveness tests it asks
(`core/policy/recovery_authority.cpp`, `core/policy/liveness_heartbeat.cpp`), on
one snapshot of the member slots and the claim words. A peer watches the first
slot on the ring after its own that is a member or stranded in recovery, and it
is a member itself, so the ring's general facts give both halves of the policy's
argument (`one_watcher`): no two peers watch one slot, and where a slot is down
somebody watches one that is.
-/

namespace Cme.Recovery

open Registry (Status)

/-- What the walk reads of a member slot. -/
structure Member where
  status : Status
  lastSeenNanos : Nat
  deriving DecidableEq, Repr

/-- One peer's claim slot. -/
structure RecoveryClaim where
  isValidMagic : Bool
  recoveryAuthority : PeerId
  deriving DecidableEq, Repr

/-- The slots, the claim words, the bound of the scan and the clock, at one
instant. -/
structure Snapshot where
  maxPeers : Nat
  /-- It is a 32-bit word, so no slot has the id NoPeer. -/
  maxPeers_lt : maxPeers < 2 ^ 32
  member : PeerId → Member
  claim : PeerId → RecoveryClaim
  /-- Zero before the first refresh. -/
  peerScanBound : Nat
  peerScanBound_le : peerScanBound ≤ maxPeers
  /-- The wall clock, in nanoseconds. -/
  now : Nat

/-- `config::liveness::DeadWindowEffective`: the window, the clock skew and the
cache's age, in nanoseconds. -/
def deadWindowEffective : Int := 500000000 + 50000000 + 5000

/-- `WallStamp::ageAt`: no age for a stamp at or ahead of the clock. The count is
a signed word. -/
def ageAt (nanos now : Nat) : Option Int :=
  if now ≤ nanos then none else some (((now - nanos : Nat) : Int).bmod (2 ^ 64))

def isPastDeadWindow (now lastSeenNanos : Nat) : Bool :=
  match ageAt lastSeenNanos now with
  | none => false
  | some age => decide (deadWindowEffective < age)

/-- `HeartbeatLivenessPolicy::isAlive`: by status alone. -/
def Member.isAlive (m : Member) : Bool := m.status == .active || m.status == .leaving

def Member.isRecovering (m : Member) : Bool := m.status == .recovering

namespace Snapshot

variable (s : Snapshot)

def isValidPeer (p : PeerId) : Bool := decide (p < s.maxPeers)

/-- `HeartbeatLivenessPolicy::hasFailed`. -/
def hasFailed (p : PeerId) : Bool :=
  s.isValidPeer p && isPastDeadWindow s.now (s.member p).lastSeenNanos

/-- `FieldWord::read`: a slot never written reads as NoPeer. -/
def readClaim (dead : PeerId) : PeerId :=
  if (s.claim dead).isValidMagic then (s.claim dead).recoveryAuthority else noPeer

def isClaimantGone (recordedRA : PeerId) : Bool :=
  if s.isValidPeer recordedRA then s.hasFailed recordedRA else true

def isRecoveryStranded (dead : PeerId) : Bool := s.isClaimantGone (s.readClaim dead)

def getPeerScanBound : Nat := if s.peerScanBound ≠ 0 then s.peerScanBound else s.maxPeers

/-- What ends the walk of `getRecoveryTarget`. -/
def selects (candidate : PeerId) : Bool :=
  (s.member candidate).isAlive ||
    ((s.member candidate).isRecovering && s.isRecoveryStranded candidate)

/-- `getRecoveryTarget` of peer `self`, with what it is latched on. -/
def getRecoveryTarget (claimTarget self : PeerId) : PeerId :=
  if claimTarget ≠ noPeer then claimTarget
  else ((idRing self s.getPeerScanBound).find? s.selects).getD noPeer

/-- The peers of `live` are up; every other slot in use is a failed peer's. -/
def Failed (live : Set PeerId) (d : PeerId) : Prop :=
  d < s.maxPeers ∧ (s.member d).status ≠ .none ∧ d ∉ live

/-- Down, and nobody is recovering it: a member still, or in recovery under a
claim that is absent or whose author has not stamped in time. -/
def Recoverable (d : PeerId) : Prop :=
  (s.member d).status = .active ∨ (s.member d).status = .leaving ∨
    ((s.member d).status = .recovering ∧ (¬ s.readClaim d < s.maxPeers ∨
      isPastDeadWindow s.now (s.member (s.readClaim d)).lastSeenNanos = true))

/-- A set of peers that are up: members that have stamped in time. -/
def Up (live : Set PeerId) : Prop :=
  ∀ p ∈ live, p < s.maxPeers ∧ (s.member p).isAlive = true ∧
    isPastDeadWindow s.now (s.member p).lastSeenNanos = false

end Snapshot

variable {s : Snapshot} {live : Set PeerId}

theorem selects_iff {d : PeerId} : s.selects d = true ↔ s.Recoverable d := by
  have hstranded : s.isRecoveryStranded d = true ↔ ¬ s.readClaim d < s.maxPeers ∨
      isPastDeadWindow s.now (s.member (s.readClaim d)).lastSeenNanos = true := by
    by_cases hvalid : s.readClaim d < s.maxPeers
    · simp [Snapshot.isRecoveryStranded, Snapshot.isClaimantGone, Snapshot.hasFailed,
        Snapshot.isValidPeer, hvalid]
    · simp [Snapshot.isRecoveryStranded, Snapshot.isClaimantGone, Snapshot.isValidPeer, hvalid]
  rw [Snapshot.selects, Bool.or_eq_true, Bool.and_eq_true, hstranded]
  simp only [Member.isAlive, Member.isRecovering, Bool.or_eq_true, beq_iff_eq,
    Snapshot.Recoverable, or_assoc]

theorem selects_of_isAlive {p : PeerId} (h : (s.member p).isAlive = true) : s.selects p = true := by
  rw [Snapshot.selects, h, Bool.true_or]

theorem status_ne_none_of_selects {p : PeerId} (h : s.selects p = true) :
    (s.member p).status ≠ .none := by
  intro hnone
  simp [Snapshot.selects, Member.isAlive, Member.isRecovering, hnone] at h

theorem getPeerScanBound_le (s : Snapshot) : s.getPeerScanBound ≤ s.maxPeers := by
  rw [Snapshot.getPeerScanBound]
  split
  · exact s.peerScanBound_le
  · exact le_rfl

theorem getRecoveryTarget_eq (self : PeerId) : s.getRecoveryTarget noPeer self =
      (Ring.next s.selects self s.getPeerScanBound).getD noPeer := by
  rw [Snapshot.getRecoveryTarget, if_neg (by simp)]
  rfl

section

variable (hlive : s.Up live)
variable (hbound : ∀ p < s.maxPeers, (s.member p).status ≠ .none → p < s.getPeerScanBound)

include hlive hbound

/-- A peer that is up is a stop of the ring itself. -/
theorem Snapshot.Up.stop {p : PeerId} (hp : p ∈ live) :
    p < s.getPeerScanBound ∧ s.selects p = true := by
  obtain ⟨hlt, halive, -⟩ := hlive p hp
  have hstop := selects_of_isAlive halive
  exact ⟨hbound p hlt (status_ne_none_of_selects hstop), hstop⟩

theorem targets_apart {p q : PeerId} (hp : p ∈ live) (hq : q ∈ live) (hne : p ≠ q)
    (heq : s.getRecoveryTarget noPeer p = s.getRecoveryTarget noPeer q) :
    s.getRecoveryTarget noPeer p = noPeer := by
  obtain ⟨hpb, hps⟩ := hlive.stop hbound hp
  obtain ⟨hqb, hqs⟩ := hlive.stop hbound hq
  rw [getRecoveryTarget_eq, getRecoveryTarget_eq] at heq
  rw [getRecoveryTarget_eq]
  cases hp' : Ring.next s.selects p s.getPeerScanBound with
  | none => rfl
  | some t =>
    cases hq' : Ring.next s.selects q s.getPeerScanBound with
    | none => rw [← hp', heq, hq', Option.getD_none]
    | some u =>
      rw [hp', hq', Option.getD_some, Option.getD_some] at heq
      subst heq
      exact absurd (Ring.next_inj hpb hqb hps hqs hp' hq') hne

/-- Where a failed peer can be selected, some peer that is up watches a failed
peer that can. -/
theorem exists_watcher {d : PeerId} (hd : s.Failed live d) (hstop : s.selects d = true)
    (hsome : live.Nonempty) : ∃ p ∈ live, s.Failed live (s.getRecoveryTarget noPeer p) ∧
      s.selects (s.getRecoveryTarget noPeer p) = true := by
  obtain ⟨p₀, hp₀⟩ := hsome
  have hin : ∀ p, p ∈ live → p < s.getPeerScanBound := fun p hp => (hlive.stop hbound hp).1
  obtain ⟨p, hp, t, hnext, ht, hout⟩ :=
    Ring.exists_next_notMem hin hp₀ (hbound d hd.1 hd.2.1) hstop hd.2.2
  have htarget : s.getRecoveryTarget noPeer p = t := by
    rw [getRecoveryTarget_eq, hnext, Option.getD_some]
  have hlt : t < s.getPeerScanBound := by
    obtain ⟨k, hk, rfl, -, -⟩ := Ring.next_eq_some hnext
    exact Nat.mod_lt _ (by omega)
  refine ⟨p, hp, ?_⟩
  rw [htarget]
  exact ⟨⟨hlt.trans_le (getPeerScanBound_le s), status_ne_none_of_selects ht, hout⟩, ht⟩

end

/-- **One watcher.** All peers that are up judge one snapshot, unlatched, with a
bound above every slot in use. -/
theorem one_watcher (s : Snapshot) (live : Set PeerId) (hlive : s.Up live)
    (hbound : ∀ p < s.maxPeers, (s.member p).status ≠ .none → p < s.getPeerScanBound) :
    (∀ p ∈ live, ∀ q ∈ live, p ≠ q →
      s.getRecoveryTarget noPeer p = s.getRecoveryTarget noPeer q →
      s.getRecoveryTarget noPeer p = noPeer) ∧
    ∀ d, s.Failed live d → s.Recoverable d → live.Nonempty →
      (∃ p ∈ live, s.Failed live (s.getRecoveryTarget noPeer p)) ∧
      ((∀ d', s.Failed live d' → s.Recoverable d' → d' = d) →
        ∃! p, p ∈ live ∧ s.getRecoveryTarget noPeer p = d) := by
  refine ⟨fun p hp q hq => targets_apart hlive hbound hp hq, fun d hd hrec hsome => ?_⟩
  obtain ⟨p, hp, hfailed, hstop⟩ := exists_watcher hlive hbound hd (selects_iff.mpr hrec) hsome
  refine ⟨⟨p, hp, hfailed⟩, fun honly => ?_⟩
  have hpd := honly _ hfailed (selects_iff.mp hstop)
  refine ⟨p, ⟨hp, hpd⟩, fun q ⟨hq, hqd⟩ => ?_⟩
  by_contra hne
  -- a second watcher of `d` would leave both without a target
  have hnone := targets_apart hlive hbound hq hp hne (hqd.trans hpd.symm)
  have hword : d + 1 < 2 ^ 32 := Nat.lt_of_le_of_lt hd.1 s.maxPeers_lt
  rw [← hqd, hnone] at hword
  exact absurd hword (by decide)

/-- Two members that stamp, a member that has stopped, and a slot left in recovery
by it. -/
def fourSlots : Snapshot where
  maxPeers := 5
  maxPeers_lt := by decide
  member := fun p =>
    if p = 0 then ⟨.active, 1000000000⟩ else if p = 1 then ⟨.active, 5⟩
    else if p = 2 then ⟨.recovering, 5⟩ else if p = 3 then ⟨.leaving, 1000000000⟩ else ⟨.none, 0⟩
  claim := fun p => if p = 2 then ⟨true, 1⟩ else ⟨true, noPeer⟩
  peerScanBound := 4
  peerScanBound_le := by decide
  now := 1000000000

/-- Peer 0 watches the stopped member, and no two of the peers that are up watch
one slot. -/
theorem one_watcher_fourSlots :
    fourSlots.getRecoveryTarget noPeer 0 = 1 ∧ fourSlots.getRecoveryTarget noPeer 3 = 0 ∧
      ∃ p ∈ ({0, 3} : Set PeerId),
        fourSlots.Failed {0, 3} (fourSlots.getRecoveryTarget noPeer p) := by
  have hup : fourSlots.Up {0, 3} := by
    rintro p (rfl | rfl) <;> decide
  have hbound : ∀ p < fourSlots.maxPeers, (fourSlots.member p).status ≠ .none →
      p < fourSlots.getPeerScanBound := by decide
  have hfailed : fourSlots.Failed {0, 3} 1 := ⟨by decide, by decide, by simp⟩
  refine ⟨by decide, by decide, ?_⟩
  exact ((one_watcher fourSlots {0, 3} hup hbound).2 1 hfailed (Or.inl (by decide))
    ⟨0, Or.inl rfl⟩).1

end Cme.Recovery
