import Cme.Interleave.Alone
import Cme.Layout.Geometry
import Cme.Memory.Span
import Cme.Ownership.Policy

/-!
# Ownership — the packed demand of a group

RequestAgg packs the demand bitmaps of a group's members into one 64-byte slot:
peer `p` is member `p / groups` of group `p % groups` and owns the slice of
`bitmapBytes` bytes at that index. The group count is at least what keeps every
member of a group inside the slot, whichever larger count the region was
formatted with.

* `slice_within`, `slice_disjoint` — where the slices lie;
* `has_unpackAggregatedRequest`, `packSlice_byte` — what a slice says;
* `packed_demand_round_trips` — what an aggregator packs is what a holder
  unpacks, and a peer that publishes its own slice touches no other byte.
-/

namespace Cme.Ownership

open Function Interleave Interleave.Prog

namespace RequestAgg

variable {dims : Dims}

/-! ## Counts -/

theorem le_ceilDiv_mul (a : Nat) {b : Nat} (hb : 0 < b) : a ≤ ceilDiv a b * b := by
  have hdiv := Nat.div_add_mod (a + b - 1) b
  have hmod := Nat.mod_lt (a + b - 1) hb
  rw [ceilDiv, Nat.mul_comm]
  omega

theorem getMembersPerSlot_pos (dims : Dims) : 0 < getMembersPerSlot dims := by
  unfold getMembersPerSlot
  dsimp only
  generalize (if getBitmapBytes dims = 0 then 0 else 64 / getBitmapBytes dims) = perSlot
  split <;> omega

theorem maxPeers_le (dims : Dims) : dims.maxPeers ≤ getGroups dims * getMembersPerSlot dims :=
  calc dims.maxPeers
      ≤ ceilDiv dims.maxPeers (getMembersPerSlot dims) * getMembersPerSlot dims :=
        le_ceilDiv_mul _ (getMembersPerSlot_pos dims)
    _ ≤ getGroups dims * getMembersPerSlot dims :=
        Nat.mul_le_mul_right _ (Nat.le_max_right _ _)

/-- Where the 32-bit sums do not wrap, the region is laid out for the groups the
policy counts with. -/
theorem getGroups_eq_getGroupCount (hpeers : dims.maxPeers + 64 ≤ 2 ^ 32)
    (hdomains : dims.numDomains + 8 ≤ 2 ^ 32) :
    getGroups dims = Layout.getGroupCount dims.aggregatorGroups dims.numDomains dims.maxPeers := by
  have hceil : ∀ a b, 0 < b → a + b ≤ 2 ^ 32 → Layout.ceilDiv a b = ceilDiv a b := by
    intro a b hb hle
    rw [Layout.ceilDiv, ceilDiv, show Layout.word32 _ = a + b - 1 by unfold Layout.word32; omega]
  have hmembers : Layout.getMembersPerSlot dims.numDomains = getMembersPerSlot dims := by
    rw [Layout.getMembersPerSlot, Layout.getBitmapBytes, hceil _ _ (by decide) hdomains]
    rfl
  have hslot : getMembersPerSlot dims ≤ 64 := by
    unfold getMembersPerSlot
    have := Nat.div_le_self 64 (getBitmapBytes dims)
    grind
  rw [Layout.getGroupCount, hmembers, hceil _ _ (getMembersPerSlot_pos dims) (by omega), getGroups]
  grind

theorem getGroups_pos (h : 0 < dims.maxPeers) : 0 < getGroups dims := by
  have hle := maxPeers_le dims
  rcases Nat.eq_zero_or_pos (getGroups dims) with hzero | hpos
  · rw [hzero, Nat.zero_mul] at hle
    omega
  · exact hpos

/-- Every byte of the bitmaps of a full slot fits into its 64. -/
theorem membersPerSlot_mul_le (hmax : dims.numDomains ≤ maxDomains) :
    getMembersPerSlot dims * getBitmapBytes dims ≤ 64 := by
  have hbytes : getBitmapBytes dims ≤ 8 := by
    have hmax' : dims.numDomains ≤ 64 := hmax
    unfold getBitmapBytes ceilDiv
    omega
  rcases Nat.eq_zero_or_pos (getBitmapBytes dims) with hzero | hpos
  · rw [hzero]
    omega
  · have hfit : 64 / getBitmapBytes dims * getBitmapBytes dims ≤ 64 := Nat.div_mul_le_self _ _
    have hsome : 0 < 64 / getBitmapBytes dims := Nat.div_pos (by omega) hpos
    have hmembers : getMembersPerSlot dims = 64 / getBitmapBytes dims := by
      simp only [getMembersPerSlot, if_neg (Nat.ne_of_gt hpos), if_neg (Nat.ne_of_gt hsome)]
    rw [hmembers]
    exact hfit

theorem numDomains_le (dims : Dims) : dims.numDomains ≤ 8 * getBitmapBytes dims := by
  have h := le_ceilDiv_mul dims.numDomains (b := 8) (by decide)
  unfold getBitmapBytes
  omega

/-! ## Slices -/

/-- The bytes of a peer in the slot of its group. -/
def slice (dims : Dims) (peer : PeerId) : Memory.Span where
  base := peer / getGroups dims * getBitmapBytes dims
  bytes := getBitmapBytes dims

variable {peer : PeerId}

theorem slice_within (hmax : dims.numDomains ≤ maxDomains) (h : peer < dims.maxPeers) :
    (slice dims peer).Within ⟨0, 64⟩ := by
  have hpos : 0 < getGroups dims := getGroups_pos (Nat.lt_of_le_of_lt (Nat.zero_le _) h)
  -- the member's index is below what one slot holds
  have hindex : peer / getGroups dims < getMembersPerSlot dims := by
    rw [Nat.div_lt_iff_lt_mul hpos, Nat.mul_comm]
    exact Nat.lt_of_lt_of_le h (maxPeers_le dims)
  have hend : (peer / getGroups dims + 1) * getBitmapBytes dims ≤ 64 :=
    Nat.le_trans (Nat.mul_le_mul_right _ hindex) (membersPerSlot_mul_le hmax)
  rw [Nat.add_mul, Nat.one_mul] at hend
  refine ⟨Nat.zero_le _, ?_⟩
  show peer / getGroups dims * getBitmapBytes dims + getBitmapBytes dims ≤ 0 + 64
  omega

theorem index_ne {p q : PeerId} (hgroup : p % getGroups dims = q % getGroups dims)
    (hne : p ≠ q) : p / getGroups dims ≠ q / getGroups dims := by
  intro h
  apply hne
  rw [← Nat.div_add_mod p (getGroups dims), ← Nat.div_add_mod q (getGroups dims), h, hgroup]

theorem slice_disjoint {p q : PeerId} (hgroup : p % getGroups dims = q % getGroups dims)
    (hne : p ≠ q) : (slice dims p).Disjoint (slice dims q) := by
  have hindex := index_ne hgroup hne
  show p / getGroups dims * getBitmapBytes dims + getBitmapBytes dims
      ≤ q / getGroups dims * getBitmapBytes dims ∨
    q / getGroups dims * getBitmapBytes dims + getBitmapBytes dims
      ≤ p / getGroups dims * getBitmapBytes dims
  rcases Nat.lt_or_gt_of_ne hindex with hlt | hlt
  · left
    have h := Nat.mul_le_mul_right (getBitmapBytes dims) (Nat.succ_le_of_lt hlt)
    rwa [Nat.succ_mul] at h
  · right
    have h := Nat.mul_le_mul_right (getBitmapBytes dims) (Nat.succ_le_of_lt hlt)
    rwa [Nat.succ_mul] at h

/-! ## What a slice says -/

/-- The bits of the first `k` bytes from `offset`, each in its place. -/
theorem getLsbD_foldl_bytes (slot : AggregatedRequest) (offset k d : Nat) :
    ((List.range k).foldl
      (fun acc j => acc ||| ((slot (offset + j)).setWidth maxDomains <<< (8 * j)))
      (0 : DomainBitmap)).getLsbD d
      = (decide (d < maxDomains) && decide (d < 8 * k) && (slot (offset + d / 8)).getLsbD (d % 8)) := by
  induction k with
  | zero => simp
  | succ k ih =>
    rw [List.range_succ, List.foldl_append, List.foldl_cons, List.foldl_nil, BitVec.getLsbD_or, ih,
      BitVec.getLsbD_shiftLeft, BitVec.getLsbD_setWidth]
    by_cases hd : d < maxDomains
    · by_cases hlow : d < 8 * k
      · -- an earlier byte's bit: the new byte is shifted past it
        have hle : d < 8 * (k + 1) := by omega
        simp [hd, hlow, hle]
      · by_cases hhere : d < 8 * (k + 1)
        · have hdiv : d / 8 = k := by omega
          have hmod : d - 8 * k = d % 8 := by omega
          have hfit : d % 8 < maxDomains := Nat.lt_of_le_of_lt (Nat.mod_le _ _) hd
          simp [hd, hlow, hhere, hdiv, hmod, hfit]
        · -- past the new byte, which has only eight bits
          have hpast : (slot (offset + k)).getLsbD (d - 8 * k) = false :=
            BitVec.getLsbD_of_ge _ _ (by omega)
          simp [hlow, hhere, hpast]
    · simp [hd]

theorem has_unpackAggregatedRequest (slot : AggregatedRequest) (index bytes d : Nat) :
    (unpackAggregatedRequest slot index bytes).has d
      = (decide (d < maxDomains) && decide (d < 8 * bytes) &&
          (slot (index * bytes + d / 8)).getLsbD (d % 8)) :=
  getLsbD_foldl_bytes slot (index * bytes) bytes d

variable {slot : AggregatedRequest}

theorem packSlice_outside {index bytes j : Nat} {bits : DomainBitmap}
    (h : j < index * bytes ∨ index * bytes + bytes ≤ j) :
    packSlice slot index bytes bits j = slot j := by
  unfold packSlice
  rw [if_neg (by omega)]

theorem packSlice_byte {index bytes d : Nat} {bits : DomainBitmap} (h : d < 8 * bytes) :
    (packSlice slot index bytes bits (index * bytes + d / 8)).getLsbD (d % 8) = bits.getLsbD d := by
  have hin : index * bytes ≤ index * bytes + d / 8 ∧
      index * bytes + d / 8 < index * bytes + bytes := by omega
  have hlow : d % 8 < 8 := Nat.mod_lt _ (by decide)
  have hsub : index * bytes + d / 8 - index * bytes = d / 8 := by omega
  unfold packSlice
  rw [if_pos hin, hsub, BitVec.getLsbD_setWidth, BitVec.getLsbD_ushiftRight, Nat.div_add_mod]
  simp [hlow]

/-! ## Packing a group -/

/-- The slot with the bitmaps of `members` copied in. -/
def packedFrom (dims : Dims) (demand : PeerId → DomainBitmap) (members : List PeerId)
    (slot : AggregatedRequest) : AggregatedRequest :=
  members.foldl
    (fun slot q => packSlice slot (q / getGroups dims) (getBitmapBytes dims) (demand q)) slot

/-- The byte of a member that is packed holds its bits: later members of the
group write elsewhere. -/
theorem packedFrom_byte {demand : PeerId → DomainBitmap} {members : List PeerId} {group : Nat}
    (hgroup : ∀ q ∈ members, q % getGroups dims = group) (hnodup : members.Nodup)
    (hpeer : peer ∈ members) {d : Nat} (hd : d < 8 * getBitmapBytes dims) :
    (packedFrom dims demand members slot
      (peer / getGroups dims * getBitmapBytes dims + d / 8)).getLsbD (d % 8)
      = (demand peer).getLsbD d := by
  -- from the last member backwards: the last one that writes the byte is the peer
  induction members using List.reverseRecOn with
  | nil => cases hpeer
  | append_singleton members q ih =>
    have hdistinct := List.nodup_append.mp hnodup
    rw [packedFrom, List.foldl_append, List.foldl_cons, List.foldl_nil]
    rcases List.mem_append.mp hpeer with hmem | hmem
    · have hne : peer ≠ q := hdistinct.2.2 peer hmem q (List.mem_singleton_self q)
      have hsame : peer % getGroups dims = q % getGroups dims :=
        (hgroup peer (List.mem_append_left _ hmem)).trans
          (hgroup q (List.mem_append_right _ (List.mem_singleton_self q))).symm
      have hout : peer / getGroups dims * getBitmapBytes dims + d / 8
            < q / getGroups dims * getBitmapBytes dims ∨
          q / getGroups dims * getBitmapBytes dims + getBitmapBytes dims
            ≤ peer / getGroups dims * getBitmapBytes dims + d / 8 := by
        have hapart : peer / getGroups dims * getBitmapBytes dims + getBitmapBytes dims
              ≤ q / getGroups dims * getBitmapBytes dims ∨
            q / getGroups dims * getBitmapBytes dims + getBitmapBytes dims
              ≤ peer / getGroups dims * getBitmapBytes dims := slice_disjoint hsame hne
        have hbyte : d / 8 < getBitmapBytes dims := by omega
        rcases hapart with h | h
        · exact .inl (Nat.lt_of_lt_of_le (Nat.add_lt_add_left hbyte _) h)
        · exact .inr (Nat.le_trans h (Nat.le_add_right _ _))
      rw [packSlice_outside hout]
      exact ih (fun r hr => hgroup r (List.mem_append_left _ hr)) hdistinct.1 hmem
    · obtain rfl := List.mem_singleton.mp hmem
      exact packSlice_byte hd

/-- The packed slot of a group. -/
def packedOf (dims : Dims) (demand : PeerId → DomainBitmap) (group : Nat) : AggregatedRequest :=
  packedFrom dims demand (groupMembers dims group) fun _ => 0

theorem mem_groupMembers {group : Nat} :
    peer ∈ groupMembers dims group ↔ peer < dims.maxPeers ∧ peer % getGroups dims = group := by
  simp [groupMembers]

/-- What a holder reads of a member in its packed slot: the member's demand, as
far as the slice goes. -/
theorem has_unpack_packedOf (demand : PeerId → DomainBitmap) (hpeer : peer < dims.maxPeers)
    (d : Nat) : (unpackAggregatedRequest (packedOf dims demand (peer % getGroups dims))
      (peer / getGroups dims) (getBitmapBytes dims)).has d
      = (decide (d < 8 * getBitmapBytes dims) && (demand peer).has d) := by
  rw [has_unpackAggregatedRequest]
  by_cases hd : d < 8 * getBitmapBytes dims
  · have hbyte : (packedOf dims demand (peer % getGroups dims)
        (peer / getGroups dims * getBitmapBytes dims + d / 8)).getLsbD (d % 8)
        = (demand peer).getLsbD d :=
      packedFrom_byte (fun q hq => (mem_groupMembers.mp hq).2) (List.nodup_range.filter _)
        (mem_groupMembers.mpr ⟨hpeer, rfl⟩) hd
    rw [hbyte]
    by_cases hmax : d < maxDomains
    · simp [hd, hmax, Bits.has]
    · have hout : (demand peer).getLsbD d = false := BitVec.getLsbD_of_ge _ _ (by omega)
      simp [hout, Bits.has]
  · simp [hd]

/-! ## The code -/

section Code

variable {W : Type} [DecidableEq W] {strategy : Strategy} {v : Variant} {i : Tid W} {s : State W}

section

variable (hlive : s.crashed i.1 = false)

include hlive

theorem exec_of_live (o : Op) (ch : Choice) :
    (system (W := W) dims strategy v).exec i o ch s = access i o ch s := by
  show (if s.crashed i.1 then none else access i o ch s) = access i o ch s
  rw [hlive]
  rfl

theorem settles_packMembers (members : List PeerId) (slot : AggregatedRequest) :
    settles (system dims strategy v) i (packMembers dims members slot)
      (fun slot' s' => s' = s ∧ slot' = packedFrom dims s.demand members slot) s := by
  induction members generalizing slot with
  | nil => exact ⟨rfl, rfl⟩
  | cons q members ih =>
    refine .bind (settles_step (fun ch => exec_of_live hlive _ ch) ?_)
    exact ih _

theorem settles_packAggregatedRequest (group : Nat) :
    settles (system dims strategy v) i (packAggregatedRequest dims group)
      (fun slot s' => s' = s ∧ slot = packedOf dims s.demand group) s :=
  settles_packMembers hlive _ _

/-- Publishing the demand rewrites the own group's slot, and in it the own slice. -/
theorem settles_updateDemandAndSlice (hfree : s.pendingDomainsMutex i.1 = false) (d : DomainId)
    (requesting : Bool) :
    settles (system dims strategy v) i (updateDemandAndSlice dims i.1 d requesting)
      (fun _ s' => ∃ bits, s'.packed = update s.packed (i.1 % getGroups dims)
        (packSlice (s.packed (i.1 % getGroups dims)) (i.1 / getGroups dims) (getBitmapBytes dims)
          bits)) s := by
  have hlock : ∀ ch, (system dims strategy v).exec i .lockPending ch s = some ((), { s with
      pendingDomainsMutex := update s.pendingDomainsMutex i.1 true }) := by
    intro ch
    rw [exec_of_live hlive]
    show (if s.pendingDomainsMutex i.1 then none else some _) = _
    rw [hfree]
    rfl
  refine .bind (settles_step hlock ?_)
  refine .bind (settles_step (fun ch => exec_of_live (by exact hlive) _ ch) ?_)
  -- the demand line, then the slot as it stands with the slice replaced
  refine .bind (.bind (settles_step
    (fun ch => exec_of_live (by exact hlive) _ ch) ?_))
  refine .bind (settles_step (fun ch => exec_of_live (by exact hlive) _ ch) ?_)
  refine settles_step (fun ch => exec_of_live (by exact hlive) _ ch) ?_
  exact settles_step (fun ch => exec_of_live (by exact hlive) _ ch) ⟨_, rfl⟩

end

/-- Every peer's slice lies in the slot of its group, slices of one group are
disjoint, what is packed for a member is what is unpacked for it, and a peer that
publishes its demand changes no byte outside its own slice. -/
theorem packed_demand_round_trips (dims : Dims) (strategy : Strategy) (v : Variant) (i : Tid W)
    (s : State W) (hmax : dims.numDomains ≤ maxDomains) (hlive : s.crashed i.1 = false)
    (hbits : ∀ q d, (s.demand q).has d = true → d < dims.numDomains) :
    (∀ peer < dims.maxPeers, (slice dims peer).Within ⟨0, 64⟩) ∧
      (∀ p q, p % getGroups dims = q % getGroups dims → p ≠ q →
        (slice dims p).Disjoint (slice dims q)) ∧
      (∀ group, settles (system dims strategy v) i (packAggregatedRequest dims group)
        (fun slot s' => s' = s ∧
          ∀ peer < dims.maxPeers, peer % getGroups dims = group →
            unpackAggregatedRequest slot (peer / getGroups dims) (getBitmapBytes dims)
              = s.demand peer) s) ∧
      (s.pendingDomainsMutex i.1 = false → ∀ d requesting,
        settles (system dims strategy v) i (updateDemandAndSlice dims i.1 d requesting)
          (fun _ s' => ∀ group j,
            (group ≠ i.1 % getGroups dims ∨ j < (slice dims i.1).base ∨
              (slice dims i.1).stop ≤ j) →
            s'.packed group j = s.packed group j) s) := by
  refine ⟨fun peer => slice_within hmax, fun p q => slice_disjoint, ?_, ?_⟩
  · intro group
    refine settles_mono (settles_packAggregatedRequest hlive group) ?_
    rintro slot s' ⟨rfl, rfl⟩
    refine ⟨rfl, ?_⟩
    rintro peer hpeer rfl
    -- bit by bit; the bits beyond the slice are beyond the domain count
    refine BitVec.eq_of_getLsbD_eq fun d _ => ?_
    refine (has_unpack_packedOf s'.demand hpeer d).trans ?_
    by_cases hd : d < 8 * getBitmapBytes dims
    · simp [hd, Bits.has]
    · have hclear : (s'.demand peer).has d = false := by
        by_contra hset
        have hlt := hbits peer d (by simpa using hset)
        have hle := numDomains_le dims
        exact hd (Nat.lt_of_lt_of_le hlt hle)
      rw [hclear, Bool.and_false]
      exact hclear.symm
  · intro hfree d requesting
    refine settles_mono (settles_updateDemandAndSlice hlive hfree d requesting) ?_
    rintro _ s' ⟨bits, hpacked⟩ group j hout
    rw [hpacked]
    by_cases hgroup : group = i.1 % getGroups dims
    · subst hgroup
      rw [update_self]
      exact packSlice_outside (hout.resolve_left (fun h => h rfl))
    · rw [update_of_ne hgroup]

end Code

/-- Three peers in two groups, nine domains: a bitmap of two bytes. -/
def threePeersDims : Dims := { maxPeers := 3, numDomains := 9, aggregatorGroups := 2 }

/-- Peer 0 holds every domain, and peer 2 wants the domains 0 and 8. -/
def wanting : State Unit :=
  { State.held with demand := fun q => if q = 2 then Bits.set (Bits.set 0 0) 8 else 0 }

theorem wanting_demand {q : PeerId} {d : DomainId} (h : (wanting.demand q).has d = true) :
    q = 2 ∧ d < 9 := by
  have hdemand : wanting.demand q = if q = 2 then Bits.set (Bits.set 0 0) 8 else 0 := rfl
  rw [hdemand] at h
  split at h
  · next hq =>
    have hzero : Bits.has (0 : DomainBitmap) d = false := Bits.has_zero d
    simp only [Bits.has_set, hzero, Bool.false_or, Bool.or_eq_true, Bool.and_eq_true,
      decide_eq_true_eq] at h
    refine ⟨hq, ?_⟩
    rcases h with ⟨-, h⟩ | ⟨-, h⟩ <;> rw [h] <;> decide
  · have hzero : Bits.has (0 : DomainBitmap) d = false := Bits.has_zero d
    rw [hzero] at h
    cases h

theorem packed_demand_round_trips_wanting :
    ∃ slot, (system threePeersDims .requestAgg ⟨false, false⟩).Alone (0, .poll)
        (packAggregatedRequest threePeersDims 0) wanting slot wanting ∧
      unpackAggregatedRequest slot 1 2 = wanting.demand 2 := by
  have hpack := (packed_demand_round_trips threePeersDims .requestAgg ⟨false, false⟩ (0, .poll)
    wanting (by decide) rfl (fun _ _ h => (wanting_demand h).2)).2.2.1 0
  obtain ⟨slot, s', hrun⟩ := hpack.exists_alone
  obtain ⟨rfl, hslot⟩ := hpack.of_alone hrun
  exact ⟨slot, hrun, hslot 2 (by decide) (by decide)⟩

end RequestAgg

end Cme.Ownership
