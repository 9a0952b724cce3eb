import Cme.Core.Bitmap

/-!
# cme — ids, limits and the records of the region

Peer and domain ids are the slot indices of the region. `noPeer` is the
sentinel of `core/types.hpp`. A record is one 64-byte line and is always read
and written whole, so a record is one value here.
-/

namespace Cme

open Function

/-- A peer id, which is its slot index. -/
abbrev PeerId := Nat

/-- A domain id; each domain is an independent lock. -/
abbrev DomainId := Nat

/-- No owner. -/
def noPeer : PeerId := 2 ^ 32 - 1

/-- Slot 0: the domain that serialises the registry. -/
def controlDomainId : DomainId := 0

def maxDomains : Nat := 64

/-- A set of domain ids. -/
abbrev DomainBitmap := Bits maxDomains

/-- From `start`, wrapping at `bound`, the other `bound - 1` ids. -/
def idRing (start bound : Nat) : List Nat :=
  (List.range (bound - 1)).map fun step => (start + (step + 1)) % bound

/-- The ring never comes back to where it starts, also when the bound it was
given is stale and lies below the start. -/
theorem ne_of_mem_idRing {start bound q : Nat} (h : q ∈ idRing start bound) : q ≠ start := by
  rw [idRing, List.mem_map] at h
  obtain ⟨step, hstep, rfl⟩ := h
  rw [List.mem_range] at hstep
  have hpos : 0 < bound := by omega
  intro heq
  have hlt : start < bound := heq ▸ Nat.mod_lt _ hpos
  by_cases hwrap : start + (step + 1) < bound
  · rw [Nat.mod_eq_of_lt hwrap] at heq
    omega
  · rw [Nat.mod_eq_sub_mod (by omega), Nat.mod_eq_of_lt (by omega)] at heq
    omega

/-- One cell of a table. -/
def setCell {α β γ : Type} [DecidableEq α] [DecidableEq β] (f : α → β → γ) (p : α) (d : β)
    (v : γ) : α → β → γ :=
  update f p (update (f p) d v)

@[grind =] theorem setCell_apply {α β γ : Type} [DecidableEq α] [DecidableEq β] (f : α → β → γ)
    (p : α) (d : β) (v : γ) (p' : α) (d' : β) :
    setCell f p d v p' d' = if p' = p ∧ d' = d then v else f p' d' := by
  by_cases hp : p' = p
  · subst hp
    by_cases hd : d' = d
    · subst hd
      simp [setCell]
    · simp [setCell, hd]
  · simp [setCell, hp]

theorem setCell_eq_self {α β γ : Type} [DecidableEq α] [DecidableEq β] {f : α → β → γ} {p : α}
    {d : β} {v : γ} (h : f p d = v) : setCell f p d v = f := by
  rw [setCell, ← h, update_eq_self, update_eq_self]

/-- A live domain, or a spare entry. -/
inductive DomainState where
  | free
  | active
  deriving DecidableEq, Repr

/-- One domain's record, its name as the bytes of its field. The truth and its shadows
have this shape. -/
structure DomainRecord where
  magic : Nat
  state : DomainState
  generation : Nat
  epoch : Nat
  holder : PeerId
  name : List Char
  deriving DecidableEq, Repr

namespace DomainRecord

/-- The ASCII bytes of CMET. -/
def magicValue : Nat := 0x434D4554

def isValidMagic (r : DomainRecord) : Bool := r.magic == magicValue

def isActive (r : DomainRecord) : Bool := r.state == .active

end DomainRecord

/-- What a scan reads of a member slot, fresh or from the cache. -/
structure MemberView where
  active : Bool := false
  participating : DomainBitmap := 0
  deriving DecidableEq, Repr

/-- What one request on a domain of the shared area is doing. -/
inductive RequestState where
  | idle
  | lockRequested
  | granting
  | lockHeld
  | error
  deriving DecidableEq, Repr

/-- Whether a state ends a requester's wait. -/
def isAcquireAnswered (state : RequestState) : Bool := state == .lockHeld || state == .error

/-- The outcome of an ownership wait. -/
inductive OwnershipResult where
  | arrived
  | notArrived
  deriving DecidableEq, Repr

end Cme
