import Cme.Recovery.Stages

/-!
# Recovery — what holds under one authority at a time

The argument is about runs in which nobody stakes a target that another live peer
has confirmed and not given up (`undeposed`). Then a confirmed claim is the only
confirmed claim on its target, its author alone writes the target's slot, and what
it has found out about the target's lines stays so.

`Setting.landing` is a second condition, on the aggregator duty alone: a hand-off
lands while the peer it picked is still Active.
-/

namespace Cme.Recovery

open Function Interleave
open Ownership (Dims)
open Registry (Status)

/-- No stake lands on a target that another peer has confirmed and not given up. -/
def undeposed (dims : Dims) (p : PeerId) (o : Op) (_ : Choice) (s : State) : Bool :=
  match o with
  | .setClaim d c =>
    c.read == noPeer || (List.range dims.maxPeers).all fun q => q == p || s.confirmed q != some d
  | _ => true

/-- A hand-off of the aggregator duty, by a scrub or by a departing peer, lands while the
peer it picked is Active. -/
def landed (o : Op) (s : State) : Bool :=
  match o with
  | .setAggregator _ q => q == noPeer || (s.member q).status == .active
  | _ => true

/-- A region and the conditions a run of it meets. Its count of slots is a 32-bit
word, so no slot has the id NoPeer. -/
structure Setting where
  dims : Dims
  strategy : Strategy
  landing : Bool
  maxPeers_lt : dims.maxPeers < 2 ^ 32

section

variable (e : Setting)

/-- What a fact about the lines of `d` says. -/
def Holds (s : State) (d : PeerId) : Fact → Prop
  | .word t => (s.claim t).read ≠ d
  | .demand => s.demand d = 0
  | .aggregator => e.landing = true → s.aggregator (d % Ownership.RequestAgg.getGroups e.dims) ≠ d
  | .line node role => s.lines node role ≠ d
  | .copy slot => s.member d = slot

/-- Peer `p` has confirmed its claim on `d` and seized the slot of the crashed
occupant. -/
structure Seized (s : State) (p d : PeerId) : Prop where
  lt : d < e.dims.maxPeers
  confirmed : s.confirmed p = some d
  status : (s.member d).status = .recovering
  participating : (s.member d).participating = 0
  down : s.up d = false
  stamped : s.stamped d = some (s.occupancy d)

/-- What the stage of peer `p` tells about the state. -/
def Knows (s : State) (p : PeerId) : Stage → Prop
  | .rest => 0 < (s.poll p).recoveryCycles → Seized e s p (s.poll p).recoveryTarget
  | .free => True
  | .confirmed d => d < e.dims.maxPeers ∧ s.confirmed p = some d
  | .checked d =>
    d < e.dims.maxPeers ∧ s.confirmed p = some d ∧ (s.member d).status ≠ .none ∧ s.up d = false
  | .working d _ facts => Seized e s p d ∧ ∀ f ∈ facts, Holds e s d f
  | .departing d facts =>
    d < e.dims.maxPeers ∧ d = p ∧ ∀ t, .word t ∈ facts → (s.claim t).read ≠ p

/-- Nothing that a claim on the crashed `d` rests on has changed. -/
structure Keeps (s s' : State) (d : PeerId) : Prop where
  member : s'.member d = s.member d
  up : s'.up d = false
  stamped : s'.stamped d = s.stamped d
  occupancy : s'.occupancy d = s.occupancy d
  holds : (s.member d).status = .recovering → ∀ f, Holds e s d f → Holds e s' d f

/-- What holds of the slots, the claim words and the lines. -/
structure Sound (s : State) : Prop where
  up_lt : ∀ p, s.up p = true → p < e.dims.maxPeers
  up_member : ∀ p, s.up p = true →
    (s.member p).status = .active ∨ (s.member p).status = .leaving
  confirmed_up : ∀ p d, s.confirmed p = some d → s.up p = true
  word : ∀ p d, s.confirmed p = some d → (s.claim d).read = p ∨ (s.claim d).read = noPeer
  unique : ∀ p q d, s.confirmed p = some d → s.confirmed q = some d → p = q
  author : ∀ d < e.dims.maxPeers, s.up (s.claim d).read = true →
    s.author d = some ((s.claim d).read, s.occupancy (s.claim d).read)
  vacant : ∀ q < e.dims.maxPeers, (s.member q).status = .none →
    ∀ t < e.dims.maxPeers, (s.claim t).read ≠ q
  lines : ∀ node role, s.lines node role ≠ noPeer →
    e.strategy = .peterson ∧ (node, role) ∈ climbSlots e.dims (s.lines node role)
  demand : e.strategy.hasDemand = false → ∀ p, s.demand p = 0

/-- The invariant, with the stages of all poll threads. -/
structure Inv (s : State) (γ : PeerId → Stage) : Prop where
  sound : Sound e s
  down_rest : ∀ p, s.up p = false → γ p = .rest
  knows : ∀ p, Knows e s p (γ p)
  atWork : ∀ p d, s.atWork p = some d → ∃ facts, γ p = .working d true facts

end

variable {e : Setting} {s s' : State} {γ : PeerId → Stage} {i p q d t : PeerId} {v : Stage}

theorem Setting.ne_noPeer (e : Setting) (h : d < e.dims.maxPeers) : d ≠ noPeer :=
  Recovery.ne_noPeer e.maxPeers_lt h

theorem Sound.up_ne_noPeer (h : Sound e s) (hp : s.up p = true) : p ≠ noPeer :=
  e.ne_noPeer (h.up_lt p hp)

theorem ne_of_up (hp : s.up p = true) (hd : s.up d = false) : p ≠ d := by
  rintro rfl
  exact nomatch hp.symm.trans hd

/-- A live peer's slot is neither free nor in recovery. -/
theorem Sound.status_of_up (h : Sound e s) (hp : s.up p = true) :
    (s.member p).status ≠ .none ∧ (s.member p).status ≠ .recovering := by
  rcases h.up_member p hp with hst | hst <;> rw [hst] <;> decide

/-! ### What a thread knows -/

theorem keeps_of_lines (hmember : s'.member d = s.member d) (hup : s'.up d = false)
    (hstamped : s'.stamped d = s.stamped d) (hoccupancy : s'.occupancy d = s.occupancy d)
    (hlines : s'.claim = s.claim ∧ s'.demand = s.demand ∧ s'.aggregator = s.aggregator ∧
      s'.lines = s.lines) : Keeps e s s' d := by
  refine ⟨hmember, hup, hstamped, hoccupancy, fun _ f hf => ?_⟩
  obtain ⟨hclaim, hdemand, haggregator, hcells⟩ := hlines
  cases f <;> simpa only [Holds, hmember, hclaim, hdemand, haggregator, hcells] using hf

theorem Seized.keeps (h : Seized e s p d) (hconf : s'.confirmed p = s.confirmed p)
    (hk : Keeps e s s' d) : Seized e s' p d where
  lt := h.lt
  confirmed := hconf.trans h.confirmed
  status := by rw [hk.member]; exact h.status
  participating := by rw [hk.member]; exact h.participating
  down := hk.up
  stamped := by rw [hk.stamped, hk.occupancy]; exact h.stamped

/-- What a peer knows stays true while what its claim rests on does not change. -/
theorem Knows.steady (h : Knows e s p v) (hpoll : s'.poll p = s.poll p)
    (hconf : s'.confirmed p = s.confirmed p)
    (hself : ¬ v.Stakes → ∀ t, (s.claim t).read ≠ p → (s'.claim t).read ≠ p)
    (hkeep : ∀ d < e.dims.maxPeers, s.confirmed p = some d → s.up d = false →
      (s.member d).status ≠ .none → Keeps e s s' d) : Knows e s' p v := by
  have hseized : ∀ {d}, Seized e s p d → Keeps e s s' d := by
    intro d hd
    exact hkeep d hd.lt hd.confirmed hd.down fun hnone => nomatch hd.status.symm.trans hnone
  cases v with
  | rest =>
    intro hpos
    rw [hpoll] at hpos ⊢
    exact (h hpos).keeps hconf (hseized (h hpos))
  | free => trivial
  | confirmed d => exact ⟨h.1, hconf.trans h.2⟩
  | checked d =>
    obtain ⟨hlt, hd, hstatus, hdown⟩ := h
    have hk := hkeep d hlt hd hdown hstatus
    exact ⟨hlt, hconf.trans hd, by rw [hk.member]; exact hstatus, hk.up⟩
  | working d inside facts =>
    obtain ⟨hd, hfacts⟩ := h
    have hk := hseized hd
    exact ⟨hd.keeps hconf hk, fun f hf => hk.holds hd.status f (hfacts f hf)⟩
  | departing d facts => exact ⟨h.1, h.2.1, fun t ht => hself id t (h.2.2 t ht)⟩

theorem Knows.note (h : Knows e s p v) {f : Fact} {P : PeerId → Prop}
    (hf : ∀ d < e.dims.maxPeers, P d → Holds e s d f) : Knows e s p (v.note f P) := by
  cases v with
  | working d inside facts =>
    rw [Stage.note]
    split
    · next hP =>
      refine ⟨h.1, List.forall_mem_cons.mpr ⟨hf d h.1.lt hP, h.2⟩⟩
    · exact h
  | departing d facts =>
    rw [Stage.note]
    split
    · next hP =>
      refine ⟨h.1, h.2.1, fun t ht => ?_⟩
      rcases List.mem_cons.mp ht with rfl | ht
      · exact h.2.1 ▸ hf d h.1 hP
      · exact h.2.2 t ht
    · exact h
  | _ => exact h

theorem inside_note {f : Fact} {P : PeerId → Prop} (h : ∃ facts, v = .working d true facts) :
    ∃ facts, v.note f P = .working d true facts := by
  obtain ⟨facts, rfl⟩ := h
  rw [Stage.note]
  split
  · exact ⟨f :: facts, rfl⟩
  · exact ⟨facts, rfl⟩

namespace Inv

section

variable (h : Inv e s γ)

include h

/-- A step of thread `i` to stage `v`, from what it leaves true. -/
theorem next (hs : Sound e s') (hup : s.up i = true) (hups : s'.up = s.up) (hi : Knows e s' i v)
    (hother : ∀ p ≠ i, Knows e s' p (γ p)) (hwork : ∀ p ≠ i, s'.atWork p = s.atWork p)
    (hwi : ∀ d, s'.atWork i = some d → ∃ facts, v = .working d true facts) :
    Inv e s' (update γ i v) where
  sound := hs
  down_rest p hp := by
    rw [hups] at hp
    rw [update_of_ne (ne_of_up hup hp).symm]
    exact h.down_rest p hp
  knows := (forall_update_iff γ fun p v => Knows e s' p v).mpr ⟨hi, hother⟩
  atWork := (forall_update_iff γ fun p v => ∀ d, s'.atWork p = some d →
    ∃ facts, v = .working d true facts).mpr
      ⟨hwi, fun p hp d hd => h.atWork p d ((hwork p hp).symm.trans hd)⟩

theorem idle (hv : ∀ d facts, γ i ≠ .working d true facts) (d : PeerId) : s.atWork i ≠ some d := by
  intro hd
  obtain ⟨facts, hstage⟩ := h.atWork i d hd
  exact hv d facts hstage

theorem move (hup : s.up i = true) (hknows : Knows e s i v)
    (hwork : ∀ d, s.atWork i = some d → ∃ facts, v = .working d true facts) :
    Inv e s (update γ i v) :=
  h.next h.sound hup rfl hknows (fun p _ => h.knows p) (fun _ _ => rfl) hwork

theorem learn (hup : s.up i = true) {f : Fact} {P : PeerId → Prop}
    (hf : ∀ d < e.dims.maxPeers, P d → Holds e s d f) : Inv e s (update γ i ((γ i).note f P)) :=
  h.move hup ((h.knows i).note hf) fun d hd => inside_note (h.atWork i d hd)

theorem stay : Inv e s (update γ i (γ i)) := by
  rw [update_eq_self]
  exact h

/-! ### Writes to the records and to the lines of the area -/

/-- What is known of a crashed peer's lines is to stay true, and what the invariant
says of the lines. -/
theorem area {claim : PeerId → RecoveryClaim} {author : PeerId → Option (PeerId × Nat)}
    {truth : DomainId → DomainRecord} {shadow : DomainId → Nat → DomainRecord}
    {demand : PeerId → DomainBitmap} {aggregator : Nat → PeerId}
    {lines : Nat → Tournament.Role → PeerId}
    (hs : Sound e { s with claim, author, truth, shadow, demand, aggregator, lines })
    (hself : ∀ p, ¬ (γ p).Stakes → ∀ t, (s.claim t).read ≠ p → (claim t).read ≠ p)
    (hholds : ∀ d < e.dims.maxPeers, s.up d = false → (s.member d).status = .recovering →
      ∀ f, Holds e s d f →
        Holds e { s with claim, author, truth, shadow, demand, aggregator, lines } d f) :
    Inv e { s with claim, author, truth, shadow, demand, aggregator, lines } γ where
  sound := hs
  down_rest := h.down_rest
  knows p := (h.knows p).steady rfl rfl (hself p) fun d hd _ hdown _ =>
    ⟨rfl, hdown, rfl, rfl, hholds d hd hdown⟩
  atWork := h.atWork

theorem truth (x : DomainId → DomainRecord) : Inv e { s with truth := x } γ :=
  h.area ⟨h.sound.1, h.sound.2, h.sound.3, h.sound.4, h.sound.5, h.sound.6, h.sound.7, h.sound.8,
    h.sound.9⟩ (fun _ _ _ ht => ht) fun _ _ _ _ f hf => by cases f <;> exact hf

theorem shadow (x : DomainId → Nat → DomainRecord) : Inv e { s with shadow := x } γ :=
  h.area ⟨h.sound.1, h.sound.2, h.sound.3, h.sound.4, h.sound.5, h.sound.6, h.sound.7, h.sound.8,
    h.sound.9⟩ (fun _ _ _ ht => ht) fun _ _ _ _ f hf => by cases f <;> exact hf

/-- A demand line is cleared, or a live peer writes its own. -/
theorem setDemand (q : PeerId) (bits : DomainBitmap)
    (hbits : bits = 0 ∨ (s.up q = true ∧ e.strategy.hasDemand = true)) :
    Inv e { s with demand := update s.demand q bits } γ := by
  refine h.area { h.sound with demand := fun hnone => ?_ } (fun _ _ _ ht => ht)
    fun d _ hdown _ f hf => ?_
  · refine (forall_update_iff s.demand fun _ x => x = 0).mpr ⟨?_, fun p _ => h.sound.demand hnone p⟩
    exact hbits.resolve_right fun hq => nomatch hnone.symm.trans hq.2
  · cases f with
    | demand =>
      show update s.demand q bits d = 0
      by_cases hd : d = q
      · subst hd
        rw [update_self]
        exact hbits.resolve_right fun hq => nomatch hdown.symm.trans hq.1
      · rw [update_of_ne hd]
        exact hf
    | _ => exact hf

/-- The duty goes to nobody whose slot is in recovery. -/
theorem setAggregator (g : Nat) (q : PeerId)
    (hq : e.landing = true → q ≠ noPeer → (s.member q).status ≠ .recovering) :
    Inv e { s with aggregator := update s.aggregator g q } γ := by
  refine h.area { h.sound with } (fun _ _ _ ht => ht) fun d hd _ hstatus f hf => ?_
  cases f with
  | aggregator =>
    intro hlanding
    show update s.aggregator g q _ ≠ d
    by_cases hg : d % Ownership.RequestAgg.getGroups e.dims = g
    · rw [hg, update_self]
      rintro rfl
      exact hq hlanding (e.ne_noPeer hd) hstatus
    · rw [update_of_ne hg]
      exact hf hlanding
  | _ => exact hf

/-- A line is cleared, or a live peer announces itself on its climb. -/
theorem setLine (node : Nat) (role : Tournament.Role) (q : PeerId)
    (hq : q = noPeer ∨
      (s.up q = true ∧ e.strategy = .peterson ∧ (node, role) ∈ climbSlots e.dims q)) :
    Inv e { s with lines := setCell s.lines node role q } γ := by
  refine h.area { h.sound with lines := fun node' role' => ?_ } (fun _ _ _ ht => ht)
    fun d hd hdown _ f hf => ?_
  · show setCell s.lines node role q node' role' ≠ noPeer → _ ∧ _ ∈ climbSlots e.dims (setCell ..)
    rw [setCell_apply]
    split
    · next hat =>
      intro hne
      rw [hat.1, hat.2]
      exact (hq.resolve_left hne).2
    · exact h.sound.lines node' role'
  · cases f with
    | line node' role' =>
      show setCell s.lines node role q node' role' ≠ d
      rw [setCell_apply]
      split
      · rcases hq with rfl | ⟨hup, -⟩
        · exact (e.ne_noPeer hd).symm
        · exact ne_of_up hup hdown
      · exact hf
    | _ => exact hf

/-- A withdrawal, or a stake of a live peer on a target that nobody else has
confirmed. -/
theorem setClaim (hup : s.up i = true) (t : PeerId) (c : RecoveryClaim)
    (hc : c.read = noPeer ∨ (c.read = i ∧ ∀ q, s.confirmed q = some t → q = i))
    (hstakes : c.read = i → (γ i).Stakes) : Inv e { s with
      claim := update s.claim t c
      author := update s.author t (if c.read = noPeer then none else some (i, s.occupancy i)) }
      γ := by
  -- neither value is a crashed peer's
  have hread : ∀ {d}, d < e.dims.maxPeers → s.up d = false → c.read ≠ d := by
    intro d hd hdown
    rcases hc with hc | ⟨hc, -⟩
    · rw [hc]
      exact (e.ne_noPeer hd).symm
    · rw [hc]
      exact ne_of_up hup hdown
  refine h.area { h.sound with
    word := fun p d hpd => ?_, author := fun d hd => ?_, vacant := fun q hq hnone w hw => ?_ }
    (fun p hp w hw => ?_) fun d hd hdown _ f hf => ?_
  · show (update s.claim t c d).read = p ∨ (update s.claim t c d).read = noPeer
    by_cases hdt : d = t
    · subst hdt
      rw [update_self]
      rcases hc with hc | ⟨hc, honly⟩
      · exact .inr hc
      · exact .inl (hc.trans (honly p hpd).symm)
    · rw [update_of_ne hdt]
      exact h.sound.word p d hpd
  · show s.up (update s.claim t c d).read = true → update s.author t _ d = some
      ((update s.claim t c d).read, s.occupancy (update s.claim t c d).read)
    by_cases hdt : d = t
    · subst hdt
      rw [update_self, update_self]
      intro hlive
      have hne := h.sound.up_ne_noPeer hlive
      rw [if_neg hne, (hc.resolve_left hne).1]
    · rw [update_of_ne hdt, update_of_ne hdt]
      exact h.sound.author d hd
  · show (update s.claim t c w).read ≠ q
    have hdown : s.up q = false := by
      by_contra hlive
      exact (h.sound.status_of_up (Bool.not_eq_false _ ▸ hlive)).1 hnone
    by_cases hwt : w = t
    · rw [hwt, update_self]
      exact hread hq hdown
    · rw [update_of_ne hwt]
      exact h.sound.vacant q hq hnone w hw
  · -- a departing peer is live, and does not stake
    by_cases hwt : w = t
    · rw [hwt, update_self]
      rintro rfl
      have hlive : s.up c.read = true := by
        by_contra hdown
        rw [h.down_rest _ (by simpa using hdown)] at hp
        exact hp trivial
      have hself := (hc.resolve_left (h.sound.up_ne_noPeer hlive)).1
      rw [hself] at hp
      exact hp (hstakes hself)
    · rw [update_of_ne hwt]
      exact hw
  · cases f with
    | word w =>
      show (update s.claim t c w).read ≠ d
      by_cases hwt : w = t
      · rw [hwt, update_self]
        exact hread hd hdown
      · rw [update_of_ne hwt]
        exact hf
    | _ => exact hf

/-! ### Writes to the slots and to a peer's own words -/

theorem setPoll (hup : s.up i = true) {l : PollState} (hends : (γ i).Ends l) : Inv e { s with
      poll := update s.poll i l
      confirmed := update s.confirmed i ((s.confirmed i).filter l.keeps) }
      (update γ i .rest) := by
  have hconf : ∀ p d, update s.confirmed i ((s.confirmed i).filter l.keeps) p = some d →
      s.confirmed p = some d := by
    refine (forall_update_iff s.confirmed fun p x => ∀ d, x = some d → s.confirmed p = some d).mpr
      ⟨fun d hd => (Option.filter_eq_some_iff.mp hd).1, fun p _ d hd => hd⟩
  refine h.next { h.sound with
    confirmed_up := fun p d hd => h.sound.confirmed_up p d (hconf p d hd)
    word := fun p d hd => h.sound.word p d (hconf p d hd)
    unique := fun p q d hp hq => h.sound.unique p q d (hconf p d hp) (hconf q d hq) }
    hup rfl ?_ ?_ (fun _ _ => rfl) fun d hd => ?_
  · intro hpos
    change 0 < (update s.poll i l i).recoveryCycles at hpos
    rw [update_self] at hpos
    obtain ⟨facts, hstage⟩ := hends.1 hpos
    have hknows := h.knows i
    rw [hstage] at hknows
    have hkept : update s.confirmed i ((s.confirmed i).filter l.keeps) i =
        some l.recoveryTarget := by
      rw [update_self, hknows.1.confirmed, Option.filter_some, if_pos]
      simp [PollState.keeps, hpos]
    show Seized e _ i (update s.poll i l i).recoveryTarget
    rw [update_self]
    exact { hknows.1 with confirmed := hkept }
  · intro p hp
    exact (h.knows p).steady (update_of_ne hp ..) (update_of_ne hp ..) (fun _ _ ht => ht)
      fun d _ _ hdown _ => keeps_of_lines rfl hdown rfl rfl ⟨rfl, rfl, rfl, rfl⟩
  · obtain ⟨facts, hstage⟩ := h.atWork i d hd
    exact absurd hstage (hends.2 d facts)

theorem mark (hup : s.up i = true) (target : Option PeerId) (hknows : Knows e s i v)
    (hwork : ∀ d, target = some d → ∃ facts, v = .working d true facts) :
    Inv e { s with atWork := update s.atWork i target } (update γ i v) := by
  have hsame : ∀ q w, Knows e s q w → Knows e { s with atWork := update s.atWork i target } q w :=
    fun q w hq => hq.steady rfl rfl (fun _ _ ht => ht) fun d _ _ hdown _ =>
      keeps_of_lines rfl hdown rfl rfl ⟨rfl, rfl, rfl, rfl⟩
  refine h.next { h.sound with } hup rfl (hsame i v hknows) (fun p _ => hsame p _ (h.knows p))
    (fun p hp => update_of_ne hp ..) fun d hd => ?_
  exact hwork d ((update_self i target s.atWork).symm.trans hd)

/-- The read that ends a settle finds the peer's own value. -/
theorem settle (hup : s.up i = true) (ht : t < e.dims.maxPeers) (hread : (s.claim t).read = i)
    (hidle : ∀ d facts, γ i ≠ .working d true facts) :
    Inv e { s with confirmed := update s.confirmed i (some t) } (update γ i (.confirmed t)) := by
  -- nobody else can have confirmed a claim on this target
  have honly : ∀ p, s.confirmed p = some t → p = i := by
    intro p hp
    rcases h.sound.word p t hp with hw | hw
    · exact hw.symm.trans hread
    · exact absurd (hread.symm.trans hw) (h.sound.up_ne_noPeer hup)
  have hconf : ∀ {p d}, update s.confirmed i (some t) p = some d →
      p = i ∧ d = t ∨ p ≠ i ∧ s.confirmed p = some d := by
    intro p d hd
    by_cases hp : p = i
    · rw [hp, update_self] at hd
      exact .inl ⟨hp, (Option.some.inj hd).symm⟩
    · rw [update_of_ne hp] at hd
      exact .inr ⟨hp, hd⟩
  refine h.next { h.sound with
    confirmed_up := fun p d hd => ?_, word := fun p d hd => ?_, unique := fun p q d hp hq => ?_ }
    hup rfl ⟨ht, update_self ..⟩ ?_ (fun _ _ => rfl) fun d hd => absurd hd (h.idle hidle d)
  · rcases hconf hd with ⟨rfl, -⟩ | ⟨-, hd⟩
    · exact hup
    · exact h.sound.confirmed_up p d hd
  · rcases hconf hd with ⟨rfl, rfl⟩ | ⟨-, hd⟩
    · exact .inl hread
    · exact h.sound.word p d hd
  · rcases hconf hp with ⟨rfl, rfl⟩ | ⟨hpi, hps⟩ <;> rcases hconf hq with ⟨rfl, hdt⟩ | ⟨hqi, hqs⟩
    · rfl
    · exact absurd (honly q hqs) hqi
    · exact absurd (honly p (hdt ▸ hps)) hpi
    · exact h.sound.unique p q d hps hqs
  · intro p hp
    exact (h.knows p).steady rfl (update_of_ne hp ..) (fun _ _ ht => ht) fun d _ _ hdown _ =>
      keeps_of_lines rfl hdown rfl rfl ⟨rfl, rfl, rfl, rfl⟩


end

variable {slot : Slot}

/-- A slot is written that no claim names, or that is not free then. -/
theorem slots (h : Inv e s γ) (q : PeerId) {stamped : PeerId → Option Nat}
    {atWork : PeerId → Option PeerId}
    (hup : s.up q = true → slot.status = .active ∨ slot.status = .leaving)
    (hvacant : slot.status = .none → ∀ t < e.dims.maxPeers, (s.claim t).read ≠ q) :
    Sound e { s with member := update s.member q slot, stamped, atWork } :=
  { h.sound with
    up_member := (forall_update_iff s.member fun p (x : Slot) =>
      s.up p = true → x.status = .active ∨ x.status = .leaving).mpr
        ⟨hup, fun p _ => h.sound.up_member p⟩
    vacant := (forall_update_iff s.member fun p (x : Slot) => p < e.dims.maxPeers →
      x.status = .none → ∀ t < e.dims.maxPeers, (s.claim t).read ≠ p).mpr
        ⟨fun _ => hvacant, fun p _ => h.sound.vacant p⟩ }

/-- A write to the slot that peer `i` has confirmed and found crashed. -/
theorem setMember (h : Inv e s γ) (hup : s.up i = true) (hconf : s.confirmed i = some d)
    (hdown : s.up d = false) {stamped : PeerId → Option Nat} {atWork : PeerId → Option PeerId}
    (hstamped : ∀ t ≠ d, stamped t = s.stamped t) (hwork : ∀ p ≠ i, atWork p = s.atWork p)
    (hidle : ∀ t, atWork i ≠ some t)
    (hvacant : slot.status = .none → ∀ t < e.dims.maxPeers, (s.claim t).read ≠ d)
    (hknows : Knows e { s with member := update s.member d slot, stamped, atWork } i v) :
    Inv e { s with member := update s.member d slot, stamped, atWork } (update γ i v) := by
  refine h.next (h.slots d (fun hlive => nomatch hdown.symm.trans hlive) hvacant) hup rfl hknows
    (fun p hp => ?_) hwork fun t ht => absurd ht (hidle t)
  refine (h.knows p).steady rfl rfl (fun _ _ hw => hw) fun t _ ht hdown _ => ?_
  -- another peer has confirmed another target
  have hne : t ≠ d := by
    rintro rfl
    exact hp (h.sound.unique p i t ht hconf)
  exact keeps_of_lines (update_of_ne hne ..) hdown (hstamped t hne) rfl ⟨rfl, rfl, rfl, rfl⟩

theorem ownSlot (h : Inv e s γ) (hup : s.up q = true)
    (hslot : slot.status = .active ∨ slot.status = .leaving) :
    Inv e { s with member := update s.member q slot } γ where
  sound := by
    refine h.slots q (fun _ => hslot) fun hnone => ?_
    rw [hnone] at hslot
    rcases hslot with hst | hst <;> cases hst
  down_rest := h.down_rest
  knows p := (h.knows p).steady rfl rfl (fun _ _ ht => ht) fun _ _ _ hdown _ =>
    keeps_of_lines (update_of_ne (ne_of_up hup hdown).symm ..) hdown rfl rfl ⟨rfl, rfl, rfl, rfl⟩
  atWork := h.atWork

theorem knows_fresh (h : s'.poll p = .fresh) : Knows e s' p .rest := by
  intro hpos
  rw [h] at hpos
  exact absurd hpos (Nat.lt_irrefl 0)

theorem crash (h : Inv e s γ) (q : PeerId) : Inv e { s with
      up := update s.up q false
      poll := update s.poll q .fresh
      confirmed := update s.confirmed q none
      atWork := update s.atWork q none } fun p => if p = q then .rest else γ p := by
  have hup : ∀ {p}, update s.up q false p = true → p ≠ q ∧ s.up p = true := by
    intro p hp
    have hne : p ≠ q := by
      rintro rfl
      exact nomatch (update_self p false s.up).symm.trans hp
    exact ⟨hne, (update_of_ne hne ..).symm.trans hp⟩
  have hgone : ∀ {f : PeerId → Option PeerId} {p d}, update f q none p = some d →
      p ≠ q ∧ f p = some d := by
    intro f p d hp
    have hne : p ≠ q := by
      rintro rfl
      exact nomatch (update_self p none f).symm.trans hp
    exact ⟨hne, (update_of_ne hne ..).symm.trans hp⟩
  have hdown : ∀ {p}, s.up p = false → update s.up q false p = false := by
    intro p hp
    by_contra hlive
    exact nomatch hp.symm.trans (hup (Bool.not_eq_false _ ▸ hlive)).2
  refine ⟨{ h.sound with
    up_lt := fun p hp => h.sound.up_lt p (hup hp).2
    up_member := fun p hp => h.sound.up_member p (hup hp).2
    confirmed_up := fun p d hd => ?_
    word := fun p d hd => h.sound.word p d (hgone hd).2
    unique := fun p p' d hp hp' => h.sound.unique p p' d (hgone hp).2 (hgone hp').2
    author := fun d hd hread => h.sound.author d hd (hup hread).2 }, ?_, ?_, ?_⟩
  · exact (update_of_ne (hgone hd).1 ..).trans (h.sound.confirmed_up p d (hgone hd).2)
  · intro p hp
    split
    · rfl
    · next hne => exact h.down_rest p ((update_of_ne hne ..).symm.trans hp)
  · intro p
    split
    · next heq => exact knows_fresh (heq ▸ update_self ..)
    · next hne =>
      exact (h.knows p).steady (update_of_ne hne ..) (update_of_ne hne ..) (fun _ _ ht => ht)
        fun d _ _ hd _ => keeps_of_lines rfl (hdown hd) rfl rfl ⟨rfl, rfl, rfl, rfl⟩
  · intro p d hd
    rw [if_neg (hgone hd).1]
    exact h.atWork p d (hgone hd).2

/-- A peer leaves: no claim is its own, and nobody has found it crashed. -/
theorem depart (h : Inv e s γ) (hup : s.up i = true)
    (hwords : ∀ t < e.dims.maxPeers, (s.claim t).read ≠ i) :
    Inv e (s.departed i) (update γ i .rest) where
  sound := (h.crash i).slots i (fun hlive => nomatch (update_self i false s.up).symm.trans hlive)
    fun _ => hwords
  down_rest := (forall_update_iff γ fun p v => update s.up i false p = false → v = .rest).mpr
    ⟨fun _ => rfl, fun p hp hdown => h.down_rest p ((update_of_ne hp ..).symm.trans hdown)⟩
  knows := by
    refine (forall_update_iff γ fun p v => Knows e _ p v).mpr
      ⟨knows_fresh (update_self ..), fun p hp => ?_⟩
    refine (h.knows p).steady (update_of_ne hp ..) (update_of_ne hp ..) (fun _ _ ht => ht)
      fun d _ _ hdown _ => ?_
    have hne := (ne_of_up hup hdown).symm
    exact keeps_of_lines (update_of_ne hne ..) ((update_of_ne hne ..).trans hdown) rfl rfl
      ⟨rfl, rfl, rfl, rfl⟩
  atWork := (forall_update_iff γ fun p v => ∀ d, update s.atWork i none p = some d →
    ∃ facts, v = .working d true facts).mpr
      ⟨fun d hd => (nomatch (update_self i none s.atWork).symm.trans hd),
        fun p hp d hd => h.atWork p d ((update_of_ne hp ..).symm.trans hd)⟩

/-- A free slot gets a new occupant: nobody has a claim on it, and no claim is its
predecessor's. -/
theorem reserve (h : Inv e s γ) (hq : q < e.dims.maxPeers) (hnone : (s.member q).status = .none) :
    Inv e { s with
      member := update s.member q { s.member q with status := .active }
      up := update s.up q true
      poll := update s.poll q .fresh
      occupancy := update s.occupancy q (s.occupancy q + 1) } γ := by
  have hdown : s.up q = false := by
    by_contra hup
    exact (h.sound.status_of_up (Bool.not_eq_false _ ▸ hup)).1 hnone
  have hclaims : ∀ d < e.dims.maxPeers, (s.claim d).read ≠ q := h.sound.vacant q hq hnone
  have hup : ∀ {p}, p ≠ q → update s.up q true p = true → s.up p = true := by
    intro p hne hp
    exact (update_of_ne hne ..).symm.trans hp
  refine ⟨{ h.sound with
    up_lt := ?_, up_member := ?_, confirmed_up := ?_, author := ?_, vacant := ?_ }, ?_, ?_,
    h.atWork⟩
  · intro p hp
    by_cases hpq : p = q
    · exact hpq ▸ hq
    · exact h.sound.up_lt p (hup hpq hp)
  · intro p hp
    show (update s.member q _ p).status = _ ∨ (update s.member q _ p).status = _
    by_cases hpq : p = q
    · rw [hpq, update_self]
      exact .inl rfl
    · rw [update_of_ne hpq]
      exact h.sound.up_member p (hup hpq hp)
  · intro p d hd
    by_cases hpq : p = q
    · exact hpq ▸ update_self ..
    · exact (update_of_ne hpq ..).trans (h.sound.confirmed_up p d hd)
  · intro d hd hread
    show s.author d = some (_, update s.occupancy q _ (s.claim d).read)
    rw [update_of_ne (hclaims d hd)]
    exact h.sound.author d hd (hup (hclaims d hd) hread)
  · refine (forall_update_iff s.member fun p (x : Slot) => p < e.dims.maxPeers →
      x.status = .none → ∀ t < e.dims.maxPeers, (s.claim t).read ≠ p).mpr
        ⟨fun _ hst => (nomatch hst), fun p _ => h.sound.vacant p⟩
  · intro p hp
    have hne : p ≠ q := by
      rintro rfl
      exact nomatch (update_self p true s.up).symm.trans hp
    exact h.down_rest p ((update_of_ne hne ..).symm.trans hp)
  · intro p
    by_cases hpq : p = q
    · subst hpq
      rw [h.down_rest p hdown]
      exact knows_fresh (update_self ..)
    · refine (h.knows p).steady (update_of_ne hpq ..) rfl (fun _ _ ht => ht)
        fun d _ _ hd hstatus => ?_
      have hne : d ≠ q := by
        rintro rfl
        exact hstatus hnone
      exact keeps_of_lines (update_of_ne hne ..) ((update_of_ne hne ..).trans hd) rfl
        (update_of_ne hne ..) ⟨rfl, rfl, rfl, rfl⟩

end Inv

end Cme.Recovery
