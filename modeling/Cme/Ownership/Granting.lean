import Cme.Interleave.Observe
import Cme.Interleave.Ring
import Cme.Ownership.Packing

/-!
# Ownership — what a grant pass hands over

Request walks its ring and RequestAgg the groups, its own first and each from a
rotated start; both drop a domain from the set they offer as soon as they have
granted it. A log beside the state keeps whose demand a pass read and what it
handed over.

`Pass` is what holds between two peers of either walk, with the peers that are
still to come: what was handed over went, once, to a peer that wants it, and as
long as the packed slots say what the demand lines say, nobody who is behind
wants anything that is left. Both loops keep it (`settles_transferHeldDomains`,
`settles_offerMembers`, `settles_offerGroups`), and at the end nobody is to come.
-/

namespace Cme.Ownership

open Function Interleave Interleave.Prog

/-- Whose demand line was read, and which domain was published to whom; latest first. -/
structure Log where
  visits : List PeerId
  grants : List (DomainId × PeerId)
  deriving DecidableEq, Repr

section Watch

variable {W : Type} [DecidableEq W]

def note (_ : Tid W) (o : Op) (_ : State W) (log : Log) : Log :=
  match o with
  | .getDemand q => { log with visits := q :: log.visits }
  | .setRecord d r => { log with grants := (d, r.holder) :: log.grants }
  | _ => log

/-- The region with the log beside it. -/
def watched (dims : Dims) (strategy : Strategy) (v : Variant) :
    System (Tid W) Op Ret (State W × Log) Choice Call Env :=
  (system dims strategy v).observe note

variable {dims : Dims} {strategy : Strategy} {v : Variant} {i : Tid W} {x : State W × Log}

theorem watched_exec (hlive : x.1.crashed i.1 = false) {o : Op} {r : Ret o} {s' : State W}
    {ch : Choice} (h : access i o ch x.1 = some (r, s')) :
    (watched dims strategy v).exec i o ch x = some (r, s', note i o x.1 x.2) := by
  show ((system dims strategy v).exec i o ch x.1).map _ = _
  rw [RequestAgg.exec_of_live hlive, h]
  rfl

/-- The record of a domain that was handed to `q`. -/
def handed (record : DomainRecord) (q : PeerId) : DomainRecord :=
  { record with holder := q, epoch := record.epoch + 1 }

/-- A guarded transfer of a domain that the peer holds, with nobody inside. -/
theorem settles_transferOwnershipGuarded {d : DomainId} {q : PeerId}
    {Q : Bool → State W × Log → Prop} (hlive : x.1.crashed i.1 = false)
    (hpin : x.1.pin i.1 d = 0) (hmagic : (x.1.truth d).isValidMagic = true)
    (hholder : (x.1.truth d).holder = i.1) (hq : q < dims.maxPeers) (hne : q ≠ i.1)
    (hok : ∀ s', s'.demand = x.1.demand → s'.packed = x.1.packed → s'.crashed = x.1.crashed →
      s'.pin = x.1.pin → s'.truth = update x.1.truth d (handed (x.1.truth d) q) →
      Q true (s', { x.2 with grants := (d, q) :: x.2.grants })) :
    settles (watched dims strategy v) i (transferOwnershipGuarded dims i.1 d q) Q x := by
  have hbegin : ∀ ch, (watched dims strategy v).exec i (.casPin d 0 transferringPins false) ch x
      = some (none, { x.1 with pin := setCell x.1.pin i.1 d transferringPins }, x.2) := by
    intro ch
    refine watched_exec hlive ?_
    rw [access_casPin, if_pos hpin]
    rfl
  refine .bind (.bind (settles_step hbegin ?_))
  refine settles_then rfl (.bind ?_)
  refine settles_then hq (.bind (settles_step
    (fun ch => watched_exec (by exact hlive) rfl) ?_))
  refine settles_then hmagic (settles_else (fun h => h.2 hholder) (settles_else hne ?_))
  refine .bind (settles_step (fun ch => watched_exec (by exact hlive) rfl) ?_)
  refine .bind (settles_step (fun ch => watched_exec (by exact hlive) rfl) ?_)
  refine settles_step (fun ch => watched_exec (by exact hlive) rfl) ?_
  refine .bind (settles_step (fun ch => watched_exec (by exact hlive) rfl) ?_)
  -- the word is taken and given back
  refine hok _ rfl rfl rfl ?_ rfl
  show setCell (setCell x.1.pin i.1 d transferringPins) i.1 d 0 = x.1.pin
  funext p e
  rw [setCell_apply, setCell_apply]
  split
  · next h => rw [h.1, h.2, hpin]
  · rfl

end Watch

/-! ## One pass -/

section Pass

variable {W : Type}

/-- The domains offered are the peer's: nobody inside, and the record names it. -/
def Offered (giver : PeerId) (s : State W) (held : DomainBitmap) : Prop :=
  ∀ d, held.has d = true →
    s.pin giver d = 0 ∧ (s.truth d).isValidMagic = true ∧ (s.truth d).holder = giver

/-- Inside a pass that began in `s` with `offered`: `held` is what is still
offered, `unread` are the peers whose line is still to be read, and `unserved`
those of which nothing is known yet. Between two peers both are the peers to come. -/
structure Pass (dims : Dims) (giver : PeerId) (honest : Prop) (s : State W)
    (offered : DomainBitmap) (unread unserved : List PeerId) (held : DomainBitmap)
    (x : State W × Log) : Prop where
  demand : x.1.demand = s.demand
  packed : x.1.packed = s.packed
  crashed : x.1.crashed = s.crashed
  pin : x.1.pin = s.pin
  within : ∀ d, held.has d = true → offered.has d = true
  granted : ∀ d q, (d, q) ∈ x.2.grants → offered.has d = true ∧ held.has d = false ∧ q ≠ giver ∧
    q < dims.maxPeers ∧ (s.demand q).has d = true ∧ x.1.truth d = handed (s.truth d) q
  kept : ∀ d, (∀ q, (d, q) ∉ x.2.grants) → x.1.truth d = s.truth d
  once : (x.2.grants.map Prod.fst).Nodup
  gone : ∀ d, offered.has d = true → held.has d = false → ∃ q, (d, q) ∈ x.2.grants
  visited : ∀ q ∈ x.2.visits, q ≠ giver ∧ q ∉ unread
  visitedOnce : x.2.visits.Nodup
  served : honest → ∀ q < dims.maxPeers, q ≠ giver → q ∉ unserved →
    ∀ d, held.has d = true → (s.demand q).has d = false

namespace Pass

variable {dims : Dims} {giver : PeerId} {honest : Prop} {s : State W} {offered held : DomainBitmap}
  {unread unserved upcoming : List PeerId} {x : State W × Log}

/-- Before the first peer: all of them are to come. -/
theorem start (hall : ∀ q < dims.maxPeers, q ≠ giver → q ∈ upcoming) :
    Pass dims giver honest s offered upcoming upcoming offered (s, ⟨[], []⟩) where
  demand := rfl
  packed := rfl
  crashed := rfl
  pin := rfl
  within _ h := h
  granted _ _ h := nomatch h
  kept _ _ := rfl
  once := List.nodup_nil
  gone d h h' := absurd h (by rw [h']; exact Bool.false_ne_true)
  visited _ h := nomatch h
  visitedOnce := List.nodup_nil
  served _ q hq hne hnot := absurd (hall q hq hne) hnot

/-- What is still offered was not touched. -/
theorem truth_of_held (h : Pass dims giver honest s offered unread unserved held x) {d : DomainId}
    (hd : held.has d = true) : x.1.truth d = s.truth d := by
  refine h.kept d fun q hq => ?_
  have hnot := (h.granted d q hq).2.1
  rw [hd] at hnot
  cases hnot

/-- With nothing left to offer the peers to come do not matter. -/
theorem finish (h : Pass dims giver honest s offered unread unserved held x)
    (hempty : held.isEmpty = true) : Pass dims giver honest s offered [] [] held x :=
  { h with
    visited := fun q hq => ⟨(h.visited q hq).1, List.not_mem_nil⟩
    served := fun _ q _ _ _ d hd => absurd hd (by rw [Bits.isEmpty_iff.mp hempty d]; simp) }

variable {q : PeerId}

theorem read (h : Pass dims giver honest s offered (q :: unread) unserved held x) (hne : q ≠ giver)
    (hfresh : q ∉ unread) : Pass dims giver honest s offered unread unserved held
      (x.1, { x.2 with visits := q :: x.2.visits }) :=
  { h with
    visited := fun p hp => by
      rcases List.mem_cons.mp hp with rfl | hp
      · exact ⟨hne, hfresh⟩
      · obtain ⟨hpne, hp⟩ := h.visited p hp
        exact ⟨hpne, fun hmem => hp (.tail _ hmem)⟩
    visitedOnce := List.nodup_cons.mpr
      ⟨fun hmem => (h.visited q hmem).2 (.head _), h.visitedOnce⟩ }

theorem serve (h : Pass dims giver honest s offered unread (q :: unserved) held x)
    (hserved : q ≠ giver → honest → ∀ d, held.has d = true → (s.demand q).has d = false) :
    Pass dims giver honest s offered unread unserved held x :=
  { h with
    served := fun hhonest p hp hne hnot d hd => by
      by_cases hpq : p = q
      · subst hpq
        exact hserved hne hhonest d hd
      · exact h.served hhonest p hp hne (fun hmem => (List.mem_cons.mp hmem).elim hpq hnot) d hd }

/-- A peer is passed over: the giver itself, or one whose slot shows no demand for what is left. -/
theorem skip (h : Pass dims giver honest s offered (q :: upcoming) (q :: upcoming) held x)
    (hskip : q ≠ giver → honest → ∀ d, held.has d = true → (s.demand q).has d = false) :
    Pass dims giver honest s offered upcoming upcoming held x :=
  { h.serve hskip with
    visited := fun p hp => ⟨(h.visited p hp).1,
      fun hmem => (h.visited p hp).2 (.tail _ hmem)⟩ }

/-- A domain that was still offered has been handed to a peer that wants it. -/
theorem grant {d : DomainId} (h : Pass dims giver honest s offered unread unserved held x)
    (hd : held.has d = true) (hwants : (s.demand q).has d = true) (hq : q < dims.maxPeers)
    (hne : q ≠ giver) {s' : State W} (hdemand : s'.demand = x.1.demand)
    (hpacked : s'.packed = x.1.packed) (hcrashed : s'.crashed = x.1.crashed)
    (hpin : s'.pin = x.1.pin)
    (htruth : s'.truth = update x.1.truth d (handed (x.1.truth d) q)) :
    Pass dims giver honest s offered unread unserved (held.clear d)
      (s', { x.2 with grants := (d, q) :: x.2.grants }) where
  demand := hdemand.trans h.demand
  packed := hpacked.trans h.packed
  crashed := hcrashed.trans h.crashed
  pin := hpin.trans h.pin
  within e he := h.within e (by simp only [Bits.has_clear, Bool.and_eq_true] at he; exact he.1)
  granted e p hmem := by
    rcases List.mem_cons.mp hmem with heq | hmem
    · obtain ⟨rfl, rfl⟩ := Prod.mk.inj heq
      refine ⟨h.within e hd, by simp, hne, hq, hwants, ?_⟩
      show s'.truth e = _
      rw [htruth, update_self, h.truth_of_held hd]
    · obtain ⟨hoffered, hgone, hrest⟩ := h.granted e p hmem
      -- an earlier grant is of another domain
      have hother : e ≠ d := by
        rintro rfl
        rw [hd] at hgone
        cases hgone
      refine ⟨hoffered, by simp [hgone], hrest.1, hrest.2.1, hrest.2.2.1, ?_⟩
      show s'.truth e = _
      rw [htruth, update_of_ne hother]
      exact hrest.2.2.2
  kept e hnone := by
    have hother : e ≠ d := by
      rintro rfl
      exact hnone q (.head _)
    show s'.truth e = _
    rw [htruth, update_of_ne hother]
    exact h.kept e fun p hp => hnone p (.tail _ hp)
  once := by
    refine List.nodup_cons.mpr ⟨fun hmem => ?_, h.once⟩
    obtain ⟨⟨e, p⟩, hgrant, rfl⟩ := List.mem_map.mp hmem
    have hgone := (h.granted e p hgrant).2.1
    rw [hd] at hgone
    cases hgone
  gone e he hgone := by
    by_cases hed : e = d
    · exact ⟨q, hed ▸ .head _⟩
    · have hgone' : held.has e = false := by simpa [hed] using hgone
      obtain ⟨p, hp⟩ := h.gone e he hgone'
      exact ⟨p, .tail _ hp⟩
  visited := h.visited
  visitedOnce := h.visitedOnce
  served hhonest p hp hpne hnot e he :=
    h.served hhonest p hp hpne hnot e
      (by simp only [Bits.has_clear, Bool.and_eq_true] at he; exact he.1)

end Pass

end Pass

/-! ## The loops -/

section Loops

variable {W : Type} [DecidableEq W] {dims : Dims} {strategy : Strategy} {v : Variant} {i : Tid W}
  {s : State W} {honest : Prop} {offered held : DomainBitmap} {unread unserved upcoming : List PeerId}
  {x : State W × Log}

/-- Grant each of a list of domains that are still offered to a peer that wants them. -/
theorem settles_grantEach (hlive : s.crashed i.1 = false) (hmine : Offered i.1 s offered)
    {q : PeerId} (hq : q < dims.maxPeers) (hne : q ≠ i.1) {domains : List DomainId}
    (hnodup : domains.Nodup) (hheld : ∀ d ∈ domains, held.has d = true)
    (hwants : ∀ d ∈ domains, (s.demand q).has d = true) (granted : Bool)
    (h : Pass dims i.1 honest s offered unread unserved held x) :
    settles (watched dims strategy v) i (grantEach dims i.1 q domains held granted)
      (fun r x' => Pass dims i.1 honest s offered unread unserved r.1 x' ∧
        ∀ d, r.1.has d = (held.has d && !decide (d ∈ domains))) x := by
  induction domains generalizing held granted x with
  | nil => exact ⟨h, fun d => by simp⟩
  | cons d domains ih =>
    obtain ⟨hd, hnodup⟩ := List.nodup_cons.mp hnodup
    have hdheld := hheld d (.head _)
    have htruth := h.truth_of_held hdheld
    obtain ⟨hpin, hmagic, hholder⟩ := hmine d (h.within d hdheld)
    refine .bind (settles_transferOwnershipGuarded (by rw [h.crashed]; exact hlive)
      (by rw [h.pin]; exact hpin) (by rw [htruth]; exact hmagic) (by rw [htruth]; exact hholder)
      hq hne ?_)
    intro s' hdemand hpacked hcrashed hpin' htruth'
    have hgrant := h.grant hdheld (hwants d (.head _)) hq hne hdemand hpacked hcrashed
      hpin' htruth'
    -- the domain is dropped from what is offered; the rest still is
    have hrest : ∀ e ∈ domains, (held.clear d).has e = true := by
      intro e he
      have hed : e ≠ d := fun heq => hd (heq ▸ he)
      simp [hed, hheld e (.tail _ he)]
    refine settles_mono (ih hnodup hrest (fun e he => hwants e (.tail _ he)) _
      hgrant) ?_
    rintro r x' ⟨hpass, hleft⟩
    refine ⟨hpass, fun e => ?_⟩
    rw [hleft, Bits.has_clear]
    by_cases hed : e = d <;> simp [hed]

/-- One peer of either walk: its demand line is read, and what it wants of what
is left is handed to it. -/
theorem settles_serve (hlive : s.crashed i.1 = false) (hmine : Offered i.1 s offered) {q : PeerId}
    (hq : q < dims.maxPeers) (hne : q ≠ i.1) (hfresh : q ∉ upcoming)
    (h : Pass dims i.1 honest s offered (q :: upcoming) (q :: upcoming) held x) :
    settles (watched dims strategy v) i (RequestAgg.grantHeldToPeer dims i.1 q held)
      (fun r x' => Pass dims i.1 honest s offered upcoming upcoming r.1 x') x := by
  have hread := h.read hne hfresh
  refine .bind (settles_step
    (fun ch => watched_exec (by rw [h.crashed]; exact hlive) rfl) ?_)
  have hbits : x.1.demand q = s.demand q := congrFun h.demand q
  refine settles_mono (settles_grantEach hlive hmine hq hne (List.nodup_range.filter _)
    (fun d hd => ?_) (fun d hd => ?_) false hread) ?_
  · have hboth := Bits.mem_toList.mp hd
    simp only [Bits.has_and, Bool.and_eq_true] at hboth
    exact hboth.1
  · have hboth := Bits.mem_toList.mp hd
    simp only [Bits.has_and, Bool.and_eq_true] at hboth
    rw [← hbits]
    exact hboth.2
  · rintro r x' ⟨hpass, hleft⟩
    refine hpass.serve fun _ _ d hd => ?_
    rw [hleft d, Bool.and_eq_true, Bool.not_eq_true', decide_eq_false_iff_not] at hd
    by_contra hwants
    rw [Bool.not_eq_false] at hwants
    refine hd.2 (Bits.mem_toList.mpr ?_)
    rw [Bits.has_and, hd.1, hbits, hwants]
    rfl

/-- Request's walk along a ring. -/
theorem settles_transferHeldDomains (hlive : s.crashed i.1 = false) (hmine : Offered i.1 s offered)
    {ring : List PeerId} (hnodup : ring.Nodup) (hring : ∀ q ∈ ring, q < dims.maxPeers ∧ q ≠ i.1)
    (h : Pass dims i.1 honest s offered ring ring held x) : settles (watched dims strategy v) i
      (transferHeldDomains dims i.1 Request.wantedBy ring held)
      (fun _ x' => ∃ left, Pass dims i.1 honest s offered [] [] left x') x := by
  induction ring generalizing held x with
  | nil => exact ⟨held, h⟩
  | cons q ring ih =>
    obtain ⟨hfresh, hnodup⟩ := List.nodup_cons.mp hnodup
    obtain ⟨hq, hne⟩ := hring q (.head _)
    by_cases hempty : held.isEmpty = true
    · exact settles_then hempty ⟨held, h.finish hempty⟩
    · refine settles_else hempty ?_
      have hserve : settles (watched dims strategy v) i _ _ x :=
        settles_bind.mp (settles_serve hlive hmine hq hne hfresh h)
      refine .bind (settles_mono hserve fun bits x₁ hgrant => ?_)
      refine .bind (settles_mono hgrant fun r x₂ hpass => ?_)
      exact ih hnodup (fun p hp => hring p (.tail _ hp)) hpass

namespace RequestAgg

/-- The peer a step of the walk through a group comes to. -/
def memberAt (dims : Dims) (group count first step : Nat) : PeerId :=
  group + (first + step) % count * getGroups dims

/-- A group's slot says of every member what its demand line says, as far as it
concerns what is offered. -/
def SlotAgrees (dims : Dims) (s : State W) (offered : DomainBitmap) (group : Nat)
    (slot : AggregatedRequest) : Prop :=
  ∀ index, group + index * getGroups dims < dims.maxPeers → ∀ d, offered.has d = true →
    (unpackAggregatedRequest slot index (getBitmapBytes dims)).has d
      = (s.demand (group + index * getGroups dims)).has d

/-- The members of one group, in the order of the walk. -/
theorem settles_offerMembers (hlive : s.crashed i.1 = false) (hmine : Offered i.1 s offered)
    {group count first : Nat} {slot : AggregatedRequest}
    (hslot : honest → SlotAgrees dims s offered group slot) {steps : List Nat}
    (hbound : ∀ step ∈ steps, memberAt dims group count first step < dims.maxPeers)
    (hnodup : (steps.map (memberAt dims group count first) ++ upcoming).Nodup) (granted : Bool)
    (h : Pass dims i.1 honest s offered (steps.map (memberAt dims group count first) ++ upcoming)
      (steps.map (memberAt dims group count first) ++ upcoming) held x) :
    settles (watched dims strategy v) i
      (offerMembers dims i.1 slot group count first steps held granted)
      (fun r x' => Pass dims i.1 honest s offered upcoming upcoming r.1 x') x := by
  induction steps generalizing held granted x with
  | nil => exact h
  | cons step steps ih =>
    obtain ⟨hfresh, hnodup⟩ := List.nodup_cons.mp hnodup
    have hq := hbound step (.head _)
    have hrest := fun r hr => hbound r (.tail _ hr)
    by_cases hskip : memberAt dims group count first step = i.1 ∨
        (held &&& unpackAggregatedRequest slot ((first + step) % count)
          (getBitmapBytes dims)).isEmpty = true
    · refine settles_then hskip (ih hrest hnodup granted (h.skip fun hne hhonest d hd => ?_))
      -- the slot shows no demand, and the demand line says the same
      have hnone := Bits.isEmpty_iff.mp (hskip.resolve_left hne) d
      rw [Bits.has_and, hd, Bool.true_and] at hnone
      rw [← hnone]
      exact (hslot hhonest _ hq d (h.within d hd)).symm
    · refine settles_else hskip (.bind (settles_mono
        (settles_serve hlive hmine hq (fun heq => hskip (.inl heq)) hfresh h) ?_))
      rintro ⟨left, ok⟩ x' hpass
      exact ih hrest hnodup _ hpass

/-- The members of a group in the order a holder visits them; none when there
are fewer peers than groups. -/
def groupOrder (dims : Dims) (self : PeerId) (group : Nat) : List PeerId :=
  if dims.maxPeers ≤ group then []
  else
    (List.range (ceilDiv (dims.maxPeers - group) (getGroups dims))).map
      (memberAt dims group (ceilDiv (dims.maxPeers - group) (getGroups dims))
        (if group = self % getGroups dims then self / getGroups dims + 1 else 0))

/-- The group a step of the outer loop comes to. -/
def groupAt (dims : Dims) (self : PeerId) (step : Nat) : Nat :=
  (self % getGroups dims + step) % getGroups dims

theorem settles_offerGroups (hlive : s.crashed i.1 = false) (hmine : Offered i.1 s offered)
    (hslots : honest → ∀ group < getGroups dims, SlotAgrees dims s offered group (s.packed group))
    (hpos : 0 < getGroups dims) {steps : List Nat}
    (hbound : ∀ q ∈ steps.flatMap fun step => groupOrder dims i.1 (groupAt dims i.1 step),
      q < dims.maxPeers)
    (hnodup : (steps.flatMap fun step => groupOrder dims i.1 (groupAt dims i.1 step)).Nodup)
    (granted : Bool)
    (h : Pass dims i.1 honest s offered
      (steps.flatMap fun step => groupOrder dims i.1 (groupAt dims i.1 step))
      (steps.flatMap fun step => groupOrder dims i.1 (groupAt dims i.1 step)) held x) :
    settles (watched dims strategy v) i (offerGroups dims i.1 steps held granted)
      (fun _ x' => ∃ left, Pass dims i.1 honest s offered [] [] left x') x := by
  induction steps generalizing held granted x with
  | nil => exact ⟨held, h⟩
  | cons step steps ih =>
    rw [List.flatMap_cons] at h hnodup hbound
    by_cases hempty : held.isEmpty = true
    · exact settles_then hempty ⟨held, h.finish hempty⟩
    refine settles_else hempty ?_
    have hlater := fun q hq => hbound q (List.mem_append_right _ hq)
    by_cases hnone : dims.maxPeers ≤ groupAt dims i.1 step
    · refine settles_then hnone (ih hlater ?_ granted ?_)
      · rw [groupOrder, if_pos hnone] at hnodup
        exact hnodup
      · rw [groupOrder, if_pos hnone] at h
        exact h
    · refine settles_else hnone (.bind (settles_step
        (fun ch => watched_exec (by rw [h.crashed]; exact hlive) rfl) ?_))
      have hslot : honest → SlotAgrees dims s offered (groupAt dims i.1 step)
          (x.1.packed (groupAt dims i.1 step)) := by
        intro hhonest
        rw [h.packed]
        exact hslots hhonest _ (Nat.mod_lt _ hpos)
      have hafter := (List.nodup_append.mp hnodup).2.1
      rw [groupOrder, if_neg hnone] at h hnodup hbound
      refine .bind (settles_mono (settles_offerMembers hlive hmine hslot
        (fun r hr => hbound _ (List.mem_append_left _ (List.mem_map_of_mem hr))) hnodup granted h) ?_)
      rintro ⟨left, ok⟩ x' hpass
      exact ih hlater hafter _ hpass

end RequestAgg

end Loops

/-! ## The order of the walk -/

namespace RequestAgg

variable {dims : Dims}

theorem lt_ceilDiv_iff {a b n : Nat} (hb : 0 < b) : n < ceilDiv a b ↔ n * b < a := by
  rw [ceilDiv, Nat.lt_iff_add_one_le, Nat.le_div_iff_mul_le hb, Nat.add_mul, Nat.one_mul]
  omega

variable {group : Nat}

/-- A member's place in its group, and back. -/
theorem member_div_mod (index : Nat) (h : group < getGroups dims) :
    (group + index * getGroups dims) % getGroups dims = group ∧
      (group + index * getGroups dims) / getGroups dims = index := by
  refine ⟨?_, ?_⟩
  · rw [Nat.add_mul_mod_self_right, Nat.mod_eq_of_lt h]
  · rw [Nat.add_mul_div_right _ _ (by omega), Nat.div_eq_of_lt h, Nat.zero_add]

/-- The walk through a group goes round its members. -/
theorem groupOrder_eq (self : PeerId) (h : group < dims.maxPeers) : groupOrder dims self group =
      (Ring.round (if group = self % getGroups dims then self / getGroups dims + 1 else 0)
        (ceilDiv (dims.maxPeers - group) (getGroups dims))).map
          (fun index => group + index * getGroups dims) := by
  rw [groupOrder, if_neg (Nat.not_le_of_lt h), Ring.round, List.map_map]
  rfl

theorem mem_groupOrder {self q : PeerId} (hgroup : group < getGroups dims) :
    q ∈ groupOrder dims self group ↔ q < dims.maxPeers ∧ q % getGroups dims = group := by
  have hpos : 0 < getGroups dims := Nat.lt_of_le_of_lt (Nat.zero_le _) hgroup
  by_cases hnone : dims.maxPeers ≤ group
  · rw [groupOrder, if_pos hnone]
    constructor
    · intro h
      cases h
    · rintro ⟨hq, rfl⟩
      have hle := Nat.mod_le q (getGroups dims)
      exact absurd (Nat.lt_of_le_of_lt hle hq) (Nat.not_lt_of_le hnone)
  · rw [groupOrder_eq self (Nat.lt_of_not_le hnone), List.mem_map]
    constructor
    · rintro ⟨index, hindex, rfl⟩
      have hlt := (lt_ceilDiv_iff hpos).mp (Ring.mem_round.mp hindex)
      exact ⟨Nat.lt_sub_iff_add_lt'.mp hlt, (member_div_mod index hgroup).1⟩
    · rintro ⟨hq, rfl⟩
      have hsplit := Nat.mod_add_div q (getGroups dims)
      rw [Nat.mul_comm] at hsplit
      refine ⟨q / getGroups dims, Ring.mem_round.mpr ((lt_ceilDiv_iff hpos).mpr ?_), hsplit⟩
      rw [Nat.lt_sub_iff_add_lt', hsplit]
      exact hq

theorem nodup_groupOrder {self : PeerId} (hgroup : group < getGroups dims) :
    (groupOrder dims self group).Nodup := by
  by_cases hnone : dims.maxPeers ≤ group
  · rw [groupOrder, if_pos hnone]
    exact List.nodup_nil
  · rw [groupOrder_eq self (Nat.lt_of_not_le hnone)]
    refine (Ring.nodup_round _ _).map fun j k hjk => ?_
    have hj := (member_div_mod j hgroup).2
    have hk := (member_div_mod k hgroup).2
    rw [← hj, ← hk]
    exact congrArg (· / getGroups dims) hjk

/-- The peers in the order both loops come to them. -/
def visitOrder (dims : Dims) (self : PeerId) : List PeerId :=
  (List.range (getGroups dims)).flatMap fun step => groupOrder dims self (groupAt dims self step)

theorem visitOrder_eq (dims : Dims) (self : PeerId) : visitOrder dims self =
      (Ring.round (self % getGroups dims) (getGroups dims)).flatMap (groupOrder dims self) := by
  rw [Ring.round, List.flatMap_map]
  rfl

theorem mem_visitOrder {self q : PeerId} (hpos : 0 < getGroups dims) :
    q ∈ visitOrder dims self ↔ q < dims.maxPeers := by
  rw [visitOrder_eq, List.mem_flatMap]
  constructor
  · rintro ⟨group, hgroup, hq⟩
    exact ((mem_groupOrder (Ring.mem_round.mp hgroup)).mp hq).1
  · intro hq
    have hgroup : q % getGroups dims < getGroups dims := Nat.mod_lt _ hpos
    exact ⟨q % getGroups dims, Ring.mem_round.mpr hgroup, (mem_groupOrder hgroup).mpr ⟨hq, rfl⟩⟩

theorem nodup_visitOrder (dims : Dims) (self : PeerId) : (visitOrder dims self).Nodup := by
  rw [visitOrder_eq, List.nodup_flatMap]
  refine ⟨fun group hgroup => nodup_groupOrder (Ring.mem_round.mp hgroup), ?_⟩
  refine (Ring.nodup_round _ _).imp_of_mem fun {g h} hg hh hne => ?_
  intro q hq hq'
  apply hne
  rw [← ((mem_groupOrder (Ring.mem_round.mp hg)).mp hq).2,
    ← ((mem_groupOrder (Ring.mem_round.mp hh)).mp hq').2]

end RequestAgg

/-! ## What both passes hand over -/

/-- Some record of the domain was published. -/
def Log.transfers (log : Log) (d : DomainId) : Prop := ∃ q, (d, q) ∈ log.grants

/-- Another peer's demand line has the domain. -/
def Wanted {W : Type} (dims : Dims) (self : PeerId) (s : State W) (d : DomainId) : Prop :=
  ∃ q < dims.maxPeers, q ≠ self ∧ (s.demand q).has d = true

/-- What a pass may do whatever it was shown: it reads every other peer at most
once, and what it hands over it hands over once, to a peer that wants it. -/
structure Careful {W : Type} (dims : Dims) (giver : PeerId) (s : State W) (held : DomainBitmap)
    (x : State W × Log) : Prop where
  visits_nodup : x.2.visits.Nodup
  not_self : giver ∉ x.2.visits
  to_requester : ∀ d q, (d, q) ∈ x.2.grants → held.has d = true ∧ q ≠ giver ∧
    q < dims.maxPeers ∧ (s.demand q).has d = true ∧ x.1.truth d = handed (s.truth d) q
  untouched : ∀ d, ¬ x.2.transfers d → x.1.truth d = s.truth d
  once : (x.2.grants.map Prod.fst).Nodup

section Result

variable {W : Type} {dims : Dims} {giver : PeerId} {honest : Prop} {s : State W}
  {held left : DomainBitmap} {x : State W × Log}

theorem Pass.careful (h : Pass dims giver honest s held [] [] left x) :
    Careful dims giver s held x where
  visits_nodup := h.visitedOnce
  not_self hmem := (h.visited giver hmem).1 rfl
  to_requester d q hmem := by
    obtain ⟨hoffered, -, hrest⟩ := h.granted d q hmem
    exact ⟨hoffered, hrest⟩
  untouched d hnone := h.kept d fun q hq => hnone ⟨q, hq⟩
  once := h.once

/-- At the end of an honest pass what is left is what nobody wants. -/
theorem Pass.transfers_iff (h : Pass dims giver honest s held [] [] left x) (hhonest : honest)
    (d : DomainId) : x.2.transfers d ↔ held.has d = true ∧ Wanted dims giver s d := by
  constructor
  · rintro ⟨q, hq⟩
    obtain ⟨hheld, -, hne, hlt, hwants, -⟩ := h.granted d q hq
    exact ⟨hheld, q, hlt, hne, hwants⟩
  · rintro ⟨hheld, q, hlt, hne, hwants⟩
    refine h.gone d hheld ?_
    by_contra hleft
    have hnot := h.served hhonest q hlt hne List.not_mem_nil d (by simpa using hleft)
    rw [hwants] at hnot
    cases hnot

end Result

section Grants

variable {W : Type} [DecidableEq W]

/-- Slots that hold what the aggregators would pack agree with the demand lines. -/
theorem RequestAgg.slotAgrees_of_packed {dims : Dims} {strategy : Strategy} {v : Variant}
    {i : Tid W} {s : State W} {held : DomainBitmap} (hlive : s.crashed i.1 = false)
    (hdomains : ∀ d, held.has d = true → d < dims.numDomains) {group : Nat}
    (hgroup : group < getGroups dims)
    (hpacked : (system dims strategy v).Alone i (packAggregatedRequest dims group) s
      (s.packed group) s) :
    SlotAgrees dims s held group (s.packed group) := by
  have hslot : s.packed group = packedOf dims s.demand group :=
    ((settles_packAggregatedRequest hlive group).of_alone hpacked).2
  intro index hindex d hd
  obtain ⟨hmod, hdiv⟩ := member_div_mod index hgroup
  have hbit := has_unpack_packedOf s.demand hindex d
  rw [hmod, hdiv] at hbit
  have hslice : d < 8 * getBitmapBytes dims :=
    Nat.lt_of_lt_of_le (hdomains d hd) (numDomains_le dims)
  rw [hslot, hbit, decide_eq_true hslice, Bool.true_and]

/-- With packed slots that hold what packing the demand lines gives, RequestAgg's
pass reads every other peer at most once and hands over a held domain exactly
when another peer wants it, so exactly the domains Request's pass over the full
ring hands over; and whatever the slots hold, it hands a domain over at most
once and only to a peer whose demand line has it. -/
theorem aggregated_granting_matches (dims : Dims) (strategy : Strategy) (v : Variant) (i : Tid W)
    (s : State W) (held : DomainBitmap) (hself : i.1 < dims.maxPeers)
    (hlive : s.crashed i.1 = false) (hmine : Offered i.1 s held)
    (hdomains : ∀ d, held.has d = true → d < dims.numDomains) :
    settles (watched dims strategy v) i (RequestAgg.transferHeldDomainsAgg dims i.1 held)
      (fun _ x => Careful dims i.1 s held x ∧
        ((∀ group < RequestAgg.getGroups dims, (system dims strategy v).Alone i
            (RequestAgg.packAggregatedRequest dims group) s (s.packed group) s) →
          (∀ d, x.2.transfers d ↔ held.has d = true ∧ Wanted dims i.1 s d) ∧
            settles (watched dims strategy v) i
              (transferHeldDomains dims i.1 Request.wantedBy (idRing i.1 dims.maxPeers) held)
              (fun _ y => ∀ d, x.2.transfers d ↔ y.2.transfers d) (s, ⟨[], []⟩)))
      (s, ⟨[], []⟩) := by
  have hpos : 0 < RequestAgg.getGroups dims :=
    RequestAgg.getGroups_pos (Nat.lt_of_le_of_lt (Nat.zero_le _) hself)
  have hagg : settles (watched dims strategy v) i
      (RequestAgg.transferHeldDomainsAgg dims i.1 held) (fun _ x => ∃ left, Pass dims i.1
        (∀ group < RequestAgg.getGroups dims,
          RequestAgg.SlotAgrees dims s held group (s.packed group)) s held [] [] left x)
      (s, ⟨[], []⟩) :=
    RequestAgg.settles_offerGroups hlive hmine (fun h => h) hpos
      (fun q hq => (RequestAgg.mem_visitOrder hpos).mp hq) (RequestAgg.nodup_visitOrder dims i.1)
      false (.start fun q hq _ => (RequestAgg.mem_visitOrder hpos).mpr hq)
  refine settles_mono hagg ?_
  rintro _ x ⟨left, hpass⟩
  refine ⟨hpass.careful, fun hpacked => ?_⟩
  have hiff := hpass.transfers_iff
    fun group hgroup => RequestAgg.slotAgrees_of_packed hlive hdomains hgroup (hpacked group hgroup)
  refine ⟨hiff, ?_⟩
  -- the plain walk needs no slot to be right
  have hring : ∀ q, q ∈ idRing i.1 dims.maxPeers ↔ q < dims.maxPeers ∧ q ≠ i.1 :=
    fun q => Ring.mem_walk hself
  have hplain : settles (watched dims strategy v) i
      (transferHeldDomains dims i.1 Request.wantedBy (idRing i.1 dims.maxPeers) held)
      (fun _ y => ∃ left, Pass dims i.1 True s held [] [] left y) (s, ⟨[], []⟩) :=
    settles_transferHeldDomains hlive hmine (Ring.nodup_walk hself) (fun q hq => (hring q).mp hq)
      (.start fun q hq hne => (hring q).mpr ⟨hq, hne⟩)
  refine settles_mono hplain ?_
  rintro _ y ⟨left', hpass'⟩ d
  rw [hiff d, hpass'.transfers_iff trivial d]

end Grants

/-- The region of `wanting` once its aggregators have packed. -/
def packedWanting : State Unit :=
  { RequestAgg.wanting with
    packed := RequestAgg.packedOf RequestAgg.threePeersDims RequestAgg.wanting.demand }

theorem aggregated_granting_matches_wanting :
    ∃ granted x, (watched RequestAgg.threePeersDims .requestAgg ⟨false, false⟩).Alone (0, .poll)
        (RequestAgg.transferHeldDomainsAgg RequestAgg.threePeersDims 0 (Bits.set 0 8))
        (packedWanting, ⟨[], []⟩) granted x ∧
      x.2.transfers 8 := by
  have hheld : ∀ d, Bits.has (Bits.set (0 : DomainBitmap) 8) d = true → d = 8 := by
    intro d hd
    have hzero : Bits.has (0 : DomainBitmap) d = false := Bits.has_zero d
    simpa [hzero, maxDomains] using hd
  have hmine : Offered 0 packedWanting (Bits.set 0 8) := fun d _ => ⟨rfl, rfl, rfl⟩
  have hpass := aggregated_granting_matches RequestAgg.threePeersDims .requestAgg ⟨false, false⟩
    (0, .poll) packedWanting (Bits.set 0 8) (by decide) rfl hmine
    (fun d hd => by rw [hheld d hd]; decide)
  obtain ⟨granted, x, hrun⟩ := hpass.exists_alone
  refine ⟨granted, x, hrun, ?_⟩
  obtain ⟨-, hmatches⟩ := hpass.of_alone hrun
  have hpacked : ∀ group < RequestAgg.getGroups RequestAgg.threePeersDims,
      (system RequestAgg.threePeersDims .requestAgg ⟨false, false⟩).Alone (0, .poll)
        (RequestAgg.packAggregatedRequest RequestAgg.threePeersDims group) packedWanting
        (packedWanting.packed group) packedWanting := by
    intro group _
    have hpack : settles (system RequestAgg.threePeersDims .requestAgg ⟨false, false⟩) (0, .poll)
        (RequestAgg.packAggregatedRequest RequestAgg.threePeersDims group) _ packedWanting :=
      RequestAgg.settles_packAggregatedRequest rfl group
    obtain ⟨slot, s', hslot⟩ := hpack.exists_alone
    obtain ⟨rfl, rfl⟩ := hpack.of_alone hslot
    exact hslot
  refine ((hmatches hpacked).1 8).mpr ⟨by decide, 2, by decide, by decide, by decide⟩

end Cme.Ownership
