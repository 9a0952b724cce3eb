import Cme.Registry.Lifecycle
import Cme.Interleave.Rely

/-!
# Registry — the invariant, and what a thread relies on

What grants and recoveries do to a record they do to its holder and epoch, if
their line has not changed its life since they loaded it (`landsAsLoaded`). The
rest of a record, its `life`, is then written inside control sections alone, and
the invariant speaks of nothing else. A thread inside a section relies on every
life, and on participation not growing (`In`); a thread outside relies on the
domain it is in a lock of, where that lock is not overlapped by a leave or a
delete of its own peer (`Out`).

`Flags` says which runs are meant: whether peers leave the membership, whether
joins keep off slots that are not listed yet, and whether a peer keeps its locks
of a domain apart from its leaves and deletes of it.
-/

namespace Cme.Registry

open Interleave Interleave.Prog

section Lives

variable {e e' : DomainRecord}

section

variable (h : e'.life = e.life)

include h

theorem isActive_of_life : e'.isActive = e.isActive := by
  have hs : e'.state = e.state := congrArg DomainRecord.Life.state h
  rw [DomainRecord.isActive, DomainRecord.isActive, hs]

theorem isValidMagic_of_life : e'.isValidMagic = e.isValidMagic := by
  have hm : e'.magic = e.magic := congrArg DomainRecord.Life.magic h
  rw [DomainRecord.isValidMagic, DomainRecord.isValidMagic, hm]

theorem getName_of_life : e'.getName = e.getName := by
  have hn : e'.name = e.name := congrArg DomainRecord.Life.name h
  rw [DomainRecord.getName, DomainRecord.getName, hn]

theorem generation_of_life : e'.generation = e.generation :=
  congrArg DomainRecord.Life.generation h

end

end Lives

/-- The runs meant. -/
structure Flags where
  departs : Bool
  listed : Bool
  settled : Bool
  stays : settled = true → departs = false

/-- Where a thread is: inside a control section or not, and the handle of a
create it has not returned yet. -/
structure Mode where
  inside : Bool
  mint : Option DomainHandle

def Mode.rest : Mode := ⟨false, none⟩

def scanBound (dims : Dims) (bound : Nat) : Nat := if bound ≠ 0 then bound else dims.maxPeers

variable {T : Type}

/-- A Guard that is out names the domain in the slot, its peer participates, and
no thread of the peer is about to take the domain away. -/
structure Settled (s : State T) : Prop where
  guarded : ∀ g ∈ s.guards, s.crashed g.1 = false →
    (s.member g.1).isActiveIn g.2.id = true ∧ (s.record g.2.id).isActive = true ∧
      (s.record g.2.id).generation = g.2.incarnation
  unretired : ∀ g ∈ s.guards, ∀ j ∈ s.retiring g.2.id, j.1 ≠ g.1
  apart : ∀ d, ∀ i ∈ s.users d, ∀ j ∈ s.retiring d, j.1 ≠ i.1
  present : ∀ p, s.crashed p = false →
    (s.member p).status = .none ∨ (s.member p).status = .active

structure Inv (f : Flags) (dims : Dims) (s : State T) (μ : Tid T → Mode) : Prop where
  inside : ∀ i, (μ i).inside = true ↔ s.control = some i ∧ s.crashed i.1 = false
  range : ∀ d, d ≠ controlDomainId → (s.record d).isActive = true →
    d < dims.numDomains ∧ (s.record d).isValidMagic = true
  names : ∀ d d', d ≠ controlDomainId → d' ≠ controlDomainId → (s.record d).isActive = true →
    (s.record d').isActive = true → (s.record d).getName = (s.record d').getName → d = d'
  joined : ∀ q d, d ≠ controlDomainId → (s.member q).isActiveIn d = true →
    (s.record d).isActive = true
  bound : ∀ q, (s.member q).status = .active → q < scanBound dims s.peerScanBound
  handed : ∀ h ∈ s.returned, h.incarnation ≤ (s.record h.id).generation
  handedOnce : s.returned.Nodup
  minted : ∀ i h, (μ i).mint = some h →
    h ∉ s.returned ∧ h.incarnation ≤ (s.record h.id).generation
  mintedOnce : ∀ i j h, (μ i).mint = some h → (μ j).mint = some h → i = j
  listed : f.listed = true → ∀ d, d ≠ controlDomainId → (s.record d).isActive = true →
    s.activeDomains.has d = true ∨ s.unlisted d = true
  unlisted : f.listed = true → ∀ q d, d ≠ controlDomainId → s.unlisted d = true →
    (s.member q).isActiveIn d = false
  settled : f.settled = true → Settled s

/-- What a thread relies on wherever it is. -/
structure Out (f : Flags) (i : Tid T) (s s' : State T) : Prop where
  alive : s'.crashed i.1 = s.crashed i.1
  users : ∀ d, i ∈ s.users d → i ∈ s'.users d
  retiring : ∀ d, i ∈ s.retiring d → i ∈ s'.retiring d
  status : f.settled = true → s.crashed i.1 = false → (s.member i.1).status = .active →
    (s'.member i.1).status = .active
  kept : f.settled = true → s.crashed i.1 = false → ∀ d, i ∈ s.users d →
    (s.member i.1).isActiveIn d = true →
    (s'.member i.1).isActiveIn d = true ∧ (s'.record d).life = (s.record d).life

/-- What a thread inside a control section relies on besides. -/
structure In (s s' : State T) : Prop where
  life : ∀ d, (s'.record d).life = (s.record d).life
  bits : ∀ q d, (s'.member q).participating.has d = true →
    (s.member q).participating.has d = true
  active : ∀ q, (s'.member q).status = .active → (s.member q).status = .active
  bound : s'.peerScanBound = s.peerScanBound

def pact (f : Flags) (dims : Dims) : Pact (Tid T) (State T) Mode where
  inv := Inv f dims
  rely i v s s' := Out f i s s' ∧ (v.inside = true → In s s')

theorem Member.isActiveIn_iff {m : Member} {d : DomainId} :
    m.isActiveIn d = true ↔ m.status = .active ∧ m.participating.has d = true := by
  simp [Member.isActiveIn]

/-! ### Steps that write neither lives nor members -/

/-- The two states differ in nothing the invariant speaks of. -/
structure Same (s s' : State T) : Prop where
  life : ∀ d, (s'.record d).life = (s.record d).life
  rest : s' = { s with
    record := s'.record, shadow := s'.shadow, pins := s'.pins, holding := s'.holding }

theorem State.same (s : State T) {record : DomainId → DomainRecord}
    (hlife : ∀ d, (record d).life = (s.record d).life) (shadow : DomainId → PeerId → DomainRecord)
    (pins : PeerId → DomainId → Nat) (holding : DomainId → List PeerId) :
    Same s { s with record := record, shadow := shadow, pins := pins, holding := holding } :=
  ⟨hlife, rfl⟩

variable {f : Flags} {dims : Dims} {s s' : State T} {μ : Tid T → Mode} {i : Tid T} {v : Mode}

theorem Inv.same (h : Inv f dims s μ) (hs : Same s s') : Inv f dims s' μ := by
  have hactive (d : DomainId) := isActive_of_life (hs.life d)
  have hgen (d : DomainId) := generation_of_life (hs.life d)
  rw [hs.rest]
  exact { h with
    range := fun d hd ha => by
      rw [isValidMagic_of_life (hs.life d)]
      exact h.range d hd (hactive d ▸ ha)
    names := fun d d' hd hd' ha ha' hn => by
      rw [getName_of_life (hs.life _), getName_of_life (hs.life _)] at hn
      exact h.names d d' hd hd' (hactive d ▸ ha) (hactive d' ▸ ha') hn
    joined := fun q d hd hq => hactive d ▸ h.joined q d hd hq
    handed := fun k hk => hgen k.id ▸ h.handed k hk
    minted := fun j k hk => ⟨(h.minted j k hk).1, hgen k.id ▸ (h.minted j k hk).2⟩
    listed := fun hf d hd ha => h.listed hf d hd (hactive d ▸ ha)
    settled := fun hf => { h.settled hf with
      guarded := fun g hg hp => by
        rw [hactive, hgen]
        exact (h.settled hf).guarded g hg hp } }

theorem Same.rely (hs : Same s s') (i : Tid T) (v : Mode) : (pact f dims).rely i v s s' := by
  have hlife := hs.life
  rw [hs.rest]
  exact ⟨⟨rfl, fun _ h => h, fun _ h => h, fun _ _ h => h, fun _ _ d _ ha => ⟨ha, hlife d⟩⟩,
    fun _ => ⟨hlife, fun _ _ h => h, fun _ h => h, rfl⟩⟩

variable [DecidableEq T]

/-- The accesses that write neither lives nor members nor history. -/
def Op.IsQuiet : Op → Prop
  | .word (.setRecord _ _) => False
  | .word _ | .loadMember _ | .isParticipating _ | .loadPeerScanBound | .awaitTurn _
  | .giveTurn _ | .askSuccessor | .hasOwnershipPins _ | .resetOwnershipPins _ => True
  | _ => False

variable {rough : Bool}

theorem exec_eq {o : Op} {ch : Choice} {r : Ret o} (hx : exec rough i o ch s = some (r, s')) :
    s.crashed i.1 = false ∧ (rough || landsAsLoaded i o ch s) = true ∧
      access i o ch s = some (r, s') := by
  unfold exec at hx
  split at hx
  · rename_i h
    rw [Bool.and_eq_true, Bool.not_eq_true'] at h
    exact ⟨h.1, h.2, hx⟩
  · simp at hx

theorem life_update (record : DomainId → DomainRecord) {d : DomainId} {e : DomainRecord}
    (h : e.life = (record d).life) (d' : DomainId) :
    (Function.update record d e d').life = (record d').life :=
  apply_update_eq DomainRecord.life h d'

omit [DecidableEq T] in
theorem same_of_word {o : Ownership.Op} {ch : Choice} {r : Ownership.Ret o} {p : PeerId}
    (ho : (Op.word o).IsQuiet) (hx : accessWord p o ch s = some (r, s')) : Same s s' := by
  cases o
  case setRecord => exact ho.elim
  case casPin =>
    rw [accessWord] at hx
    split at hx
    all_goals
      cases hx
      exact s.same (fun _ => rfl) _ _ _
  case getRecord | setShadow | loadPin | storePin | storeHolder | storeEpoch | deactivate | loadEpoch =>
    cases hx
    exact s.same (fun _ => rfl) _ _ _
  case askTurns =>
    cases ch with
    | nat n =>
      cases hx
      exact s.same (fun _ => rfl) _ _ _
    | _ => cases hx
  all_goals cases hx

theorem same_of_quiet {o : Op} {ch : Choice} {r : Ret o} (ho : o.IsQuiet)
    (hx : access i o ch s = some (r, s')) : Same s s' := by
  cases o with
  | word o => exact same_of_word ho hx
  | awaitTurn d =>
    cases ch with
    | flag b =>
      cases b with
      | false =>
        cases hx
        exact s.same (fun _ => rfl) _ _ _
      | true =>
        obtain ⟨-, ⟨⟩⟩ := of_guard hx
        exact s.same (fun _ => rfl) _ _ _
    | _ => cases hx
  | askSuccessor =>
    cases ch with
    | peer q =>
      cases hx
      exact s.same (fun _ => rfl) _ _ _
    | _ => cases hx
  | _ =>
    first
      | exact absurd ho id
      | (cases hx
         exact s.same (fun _ => rfl) _ _ _)

end Cme.Registry
