import Cme.Tournament.Climb

/-!
# Tournament — the invariant of the node area

Each domain's tree, read off the lines of the area, is a fair bracket: that is
the exclusion argument, and it does not ask who is alive. What the threads add
is who may move a peer's standing. A live peer's own climb does, and knows the
standing. A crashed peer's standing is moved by the one live peer that scrubs
it, which knows how far down it has come in every domain.
-/

namespace Cme.Tournament

open Function Interleave

variable {n : Nat}

/-! ### A tree read off the area -/

def Role.ofSide : Bool → Role
  | false => .peer0
  | true => .peer1

def Role.toSide : Role → Bool
  | .peer0 => false
  | .peer1 => true

@[simp] theorem Role.toSide_ofSide (b : Bool) : (Role.ofSide b).toSide = b := by cases b <;> rfl

@[simp] theorem Role.other_ofSide (b : Bool) : (Role.ofSide b).other = Role.ofSide (!b) := by
  cases b <;> rfl

theorem Role.ofBit_mod (c : Nat) : Role.ofBit (c % 2) = Role.ofSide (side c) := by
  unfold Role.ofBit side
  rcases Nat.mod_two_eq_zero_or_one c with h | h <;> rw [h] <;> rfl

theorem Role.ofSide_inj {a b : Bool} (h : Role.ofSide a = Role.ofSide b) : a = b := by
  rw [← Role.toSide_ofSide a, h, Role.toSide_ofSide]

/-- The nodes of one tree. -/
def treeNodes (n : Nat) : Nat := 2 ^ (bracket n).depth - 1

/-- The index in the area of the node over a seat. -/
def nodeOver (n : Nat) (d : DomainId) (c : Nat) : Nat := d * treeNodes n + (c / 2 - 1)

/-- The peer a word names. -/
def named (n : Nat) (owner : PeerId) : Option (Fin n) :=
  if h : owner ≠ noPeer ∧ owner < n then some ⟨owner, h.2⟩ else none

theorem named_val (hn : n ≤ noPeer) (p : Fin n) : named n p = some p := by
  have hne : p.val ≠ noPeer := Nat.ne_of_lt (p.isLt.trans_le hn)
  simp [named, hne]

theorem named_noPeer : named n noPeer = none := by simp [named]

theorem eq_of_named {owner : PeerId} {p : Fin n} (h : named n owner = some p) : owner = p := by
  unfold named at h
  split at h
  · rw [← Option.some.inj h]
  · cases h

/-- Who is written on the seats of a domain's tree. -/
def seats (lines : Nat → Role → PeerId) (d : DomainId) (c : Nat) : Option (Fin n) :=
  if 2 ≤ c ∧ c < 2 ^ ((bracket n).depth + 1) then
    named n (lines (nodeOver n d c) (Role.ofSide (side c)))
  else none

/-- Whose turn it is at the nodes of a domain's tree. -/
def sides (n : Nat) (turns : Nat → Role) (d : DomainId) (m : Nat) : Bool :=
  if 1 ≤ m ∧ m < 2 ^ (bracket n).depth then (turns (d * treeNodes n + (m - 1))).toSide else false

theorem place_inj {nodes a b d e : Nat} (ha : a < nodes) (hb : b < nodes)
    (h : d * nodes + a = e * nodes + b) : d = e ∧ a = b := by
  have hdiv : (a + d * nodes) / nodes = (b + e * nodes) / nodes := by
    rw [Nat.add_comm a, Nat.add_comm b, h]
  rw [Nat.add_mul_div_right a d (by omega), Nat.add_mul_div_right b e (by omega),
    Nat.div_eq_of_lt ha, Nat.div_eq_of_lt hb] at hdiv
  have hde : d = e := by omega
  subst hde
  exact ⟨rfl, by omega⟩

section Seats

variable {lines : Nat → Role → PeerId} {turns : Nat → Role} {d d' : DomainId} {c : Nat}

theorem half_lt_treeNodes (hc : 2 ≤ c) (hlt : c < 2 ^ ((bracket n).depth + 1)) :
    c / 2 - 1 < treeNodes n := by
  unfold treeNodes
  rw [Nat.pow_succ] at hlt
  omega

/-- A line is of one seat of one tree. -/
theorem seats_other (owner : PeerId) (hc : 2 ≤ c) (hlt : c < 2 ^ ((bracket n).depth + 1))
    {c' : Nat} (hne : ¬ (d' = d ∧ c' = c)) :
    seats (n := n) (setCell lines (nodeOver n d c) (Role.ofSide (side c)) owner) d' c' =
      seats lines d' c' := by
  unfold seats
  by_cases hr : 2 ≤ c' ∧ c' < 2 ^ ((bracket n).depth + 1)
  · rw [if_pos hr, if_pos hr, setCell_apply, if_neg]
    rintro ⟨hnode, hrole⟩
    obtain ⟨hd, hhalf⟩ := place_inj (half_lt_treeNodes hr.1 hr.2) (half_lt_treeNodes hc hlt) hnode
    exact hne ⟨hd, eq_of_side (by omega) (Role.ofSide_inj hrole)⟩
  · rw [if_neg hr, if_neg hr]

theorem seats_setCell (owner : PeerId) (hc : 2 ≤ c) (hlt : c < 2 ^ ((bracket n).depth + 1)) :
    seats (n := n) (setCell lines (nodeOver n d c) (Role.ofSide (side c)) owner) d =
      update (seats lines d) c (named n owner) := by
  funext c'
  by_cases hcc : c' = c
  · subst hcc
    rw [update_self, seats, if_pos ⟨hc, hlt⟩, setCell_apply, if_pos ⟨rfl, rfl⟩]
  · rw [update_of_ne hcc, seats_other owner hc hlt fun h => hcc h.2]

/-- A turn is of one node of one tree. -/
theorem sides_other (role : Role) (hc : 2 ≤ c) (hlt : c < 2 ^ ((bracket n).depth + 1)) {m : Nat}
    (hne : ¬ (d' = d ∧ m = c / 2)) :
    sides n (update turns (nodeOver n d c) role) d' m = sides n turns d' m := by
  unfold sides
  by_cases hr : 1 ≤ m ∧ m < 2 ^ (bracket n).depth
  · rw [if_pos hr, if_pos hr, update_of_ne]
    intro hnode
    have hm : m - 1 < treeNodes n := by
      unfold treeNodes
      omega
    obtain ⟨hd, hhalf⟩ := place_inj hm (half_lt_treeNodes hc hlt) hnode
    exact hne ⟨hd, by omega⟩
  · rw [if_neg hr, if_neg hr]

theorem sides_update (role : Role) (hc : 2 ≤ c) (hlt : c < 2 ^ ((bracket n).depth + 1)) :
    sides n (update turns (nodeOver n d c) role) d =
      update (sides n turns d) (c / 2) role.toSide := by
  funext m
  by_cases hm : m = c / 2
  · subst hm
    rw [Nat.pow_succ] at hlt
    rw [update_self, sides, if_pos (by omega), nodeOver, update_self]
  · rw [update_of_ne hm, sides_other role hc hlt fun h => hm h.2]

end Seats

/-- The slot of a peer's climb at a level. -/
def place (d : DomainId) (p : Fin n) (ℓ : Nat) : Rung :=
  ⟨d, ℓ, nodeOver n d ((bracket n).seat p ℓ), Role.ofSide (side ((bracket n).seat p ℓ))⟩

theorem rung_climbStep (d : DomainId) (p : Fin n) (ℓ : Nat) :
    rung (treeNodes n) d ℓ (climbStep p ℓ) = place d p ℓ := by
  rw [rung, place, climbStep, nodeOver, Bracket.seat_succ, Role.ofBit_mod]

/-! ### The invariant -/

/-- What a thread knows: a climb, its standing and whether it is inside; a
scrub, the level that bounds the crashed peer's lines in each domain and the
line it has just found to name the crashed peer. -/
inductive View (n : Nat) where
  | climb (x : Standing) (inside : Bool)
  | idle
  | scrub (dead : Fin n) (bound : DomainId → Nat) (seen : Option (DomainId × Nat))

/-- What a scrub of peer `p` relies on. -/
structure Scrubbing (s : State n) (p dead : Fin n) (bound : DomainId → Nat)
    (seen : Option (DomainId × Nat)) : Prop where
  gone : s.crashed dead = true
  mine : s.scrubber dead = some p
  above : ∀ d ℓ, bound d ≤ ℓ → ¬ (s.standing dead d).Active ℓ
  found : ∀ d ℓ, seen = some (d, ℓ) → (s.standing dead d).Active ℓ

/-- The area agrees with what the threads know. -/
structure Inv (numDomains : Nat) (s : State n) (γ : Tid n → View n) : Prop where
  fair : ∀ d, (bracket n).Fair (fun p => s.standing p d) (seats s.lines d) (sides n s.turns d)
  climber : ∀ p d, s.crashed p = false →
    γ (.climber p d) = .climb (s.standing p d) (s.inside p d)
  inside : ∀ p d, s.crashed p = false → s.inside p d = true →
    s.standing p d = ⟨(bracket n).depth, .out⟩
  unused : ∀ p d, numDomains ≤ d → s.standing p d = ⟨0, .out⟩
  scrub : ∀ p dead bound seen, s.crashed p = false →
    γ (.scrubber p) = .scrub dead bound seen → Scrubbing s p dead bound seen
  clean : ∀ p, s.clean p = true → ∀ d, s.standing p d = ⟨0, .out⟩
  erased : s.erased = false

variable {numDomains : Nat} {s : State n} {γ : Tid n → View n} {p dead : Fin n} {d : DomainId}
variable {x x' : Standing} {ℓ : Nat}

theorem standing_column (f : Fin n → DomainId → Standing) (p : Fin n) (d : DomainId)
    (x : Standing) :
    (fun q => setCell f p d x q d) = update (fun q => f q d) p x := by
  funext q
  by_cases hq : q = p
  · subst hq
    simp [setCell_apply]
  · simp [setCell_apply, hq]

theorem standing_column_of_ne (f : Fin n → DomainId → Standing) (p : Fin n) {d d' : DomainId}
    (x : Standing) (hd : d' ≠ d) : (fun q => setCell f p d x q d') = fun q => f q d' := by
  funext q
  simp [setCell_apply, hd]

theorem standing_of_ne {f : Fin n → DomainId → Standing} {p q : Fin n} (hq : q ≠ p)
    (d d' : DomainId) (x : Standing) : setCell f p d x q d' = f q d' := by
  simp [setCell_apply, hq]

section

variable (h : Inv numDomains s γ)

include h

/-- **A climb moves.** The tree of its domain stays fair, the other trees are
not touched, and a peer known to be clean has announced nothing. -/
theorem Inv.move (hp : s.crashed p = false) (hd : d < numDomains)
    (hv : γ (.climber p d) = .climb x false) {lines : Nat → Role → PeerId} {turns : Nat → Role}
    {clean : Fin n → Bool}
    (hfair : (bracket n).Fair (update (fun q => s.standing q d) p x') (seats lines d)
      (sides n turns d))
    (hlines : ∀ d', d' ≠ d → seats (n := n) lines d' = seats s.lines d')
    (hturns : ∀ d', d' ≠ d → sides n turns d' = sides n s.turns d')
    (hclean : ∀ q, clean q = true → s.clean q = true) (hmoved : clean p = false ∨ x ≠ ⟨0, .out⟩) :
    Inv numDomains { s with
        lines := lines, turns := turns, standing := setCell s.standing p d x', clean := clean }
      (update γ (.climber p d) (.climb x' false)) := by
  have hx : s.standing p d = x ∧ s.inside p d = false := by
    have hview := h.climber p d hp
    rw [hv] at hview
    obtain ⟨hx, hin⟩ := View.climb.inj hview
    exact ⟨hx.symm, hin.symm⟩
  refine ⟨fun d' => ?_, fun q d' hq => ?_, fun q d' hq hin => ?_, fun q d' hd' => ?_,
    fun q dead bound seen hq hs => ?_, fun q hc d' => ?_, h.erased⟩
  · by_cases hdd : d' = d
    · subst hdd
      show (bracket n).Fair (fun q => setCell s.standing p d' x' q d') _ _
      rw [standing_column]
      exact hfair
    · show (bracket n).Fair (fun q => setCell s.standing p d x' q d') _ _
      rw [standing_column_of_ne _ _ _ hdd, hlines d' hdd, hturns d' hdd]
      exact h.fair d'
  · by_cases hmine : (Tid.climber q d' : Tid n) = .climber p d
    · cases hmine
      simp [setCell_apply, hx.2]
    · rw [update_of_ne hmine]
      have hne : ¬ (q = p ∧ d' = d) := by
        rintro ⟨rfl, rfl⟩
        exact hmine rfl
      simpa [setCell_apply, hne] using h.climber q d' hq
  · have hne : ¬ (q = p ∧ d' = d) := by
      rintro ⟨rfl, rfl⟩
      rw [hx.2] at hin
      cases hin
    simpa [setCell_apply, hne] using h.inside q d' hq hin
  · have hne : ¬ (q = p ∧ d' = d) := by
      rintro ⟨rfl, rfl⟩
      exact absurd hd' (Nat.not_le.mpr hd)
    simpa [setCell_apply, hne] using h.unused q d' hd'
  · rw [update_of_ne (by simp)] at hs
    obtain ⟨hdead, hmine, habove, hfound⟩ := h.scrub q dead bound seen hq hs
    -- a crashed peer is not the one that moves
    have hne : dead ≠ p := by
      rintro rfl
      rw [hp] at hdead
      cases hdead
    exact ⟨hdead, hmine, fun d' ℓ hℓ => by simpa [standing_of_ne hne] using habove d' ℓ hℓ,
      fun d' ℓ hℓ => by simpa [standing_of_ne hne] using hfound d' ℓ hℓ⟩
  · replace hc : clean q = true := hc
    have hne : q ≠ p := by
      rintro rfl
      rcases hmoved with hfalse | hmoved
      · rw [hfalse] at hc
        cases hc
      · exact hmoved (hx.1.symm.trans (h.clean q (hclean q hc) d))
    simpa [standing_of_ne hne] using h.clean q (hclean q hc) d'

theorem Inv.standing_eq (hp : s.crashed p = false) {b : Bool} (hv : γ (.climber p d) = .climb x b) :
    s.standing p d = x := by
  have hview := h.climber p d hp
  rw [hv] at hview
  exact (View.climb.inj hview).1.symm

theorem Inv.announce (hn : n ≤ noPeer) (hp : s.crashed p = false) (hd : d < numDomains)
    (hv : γ (.climber p d) = .climb ⟨ℓ, .out⟩ false) (hℓ : ℓ < (bracket n).depth) :
    Inv numDomains { s with
        lines := setCell s.lines (place d p ℓ).node (place d p ℓ).role p
        standing := setCell s.standing p d ⟨ℓ, .announced⟩
        clean := update s.clean p false }
      (update γ (.climber p d) (.climb ⟨ℓ, .announced⟩ false)) := by
  have hlo := (bracket n).two_le_seat (i := p) hℓ
  have hhi := (bracket n).seat_lt_leaves (i := p) (ℓ := ℓ)
  refine h.move hp hd hv ?_
    (fun d' hd' => funext fun _ => seats_other _ hlo hhi fun h => hd' h.1) (fun _ _ => rfl)
    (fun q hq => ?_) (.inl (by simp))
  · rw [place, seats_setCell _ hlo hhi, named_val hn]
    exact (h.fair d).announce (h.standing_eq hp hv) hℓ
  · by_cases hqp : q = p
    · subst hqp
      simp at hq
    · rwa [update_of_ne hqp] at hq

section

variable (hp : s.crashed p = false)

include hp

theorem Inv.yieldTurn (hd : d < numDomains) (hv : γ (.climber p d) = .climb ⟨ℓ, .announced⟩ false)
    (hℓ : ℓ < (bracket n).depth) : Inv numDomains { s with
        turns := update s.turns (place d p ℓ).node (place d p ℓ).role.other
        standing := setCell s.standing p d ⟨ℓ, .waiting⟩ }
      (update γ (.climber p d) (.climb ⟨ℓ, .waiting⟩ false)) := by
  have hlo := (bracket n).two_le_seat (i := p) hℓ
  have hhi := (bracket n).seat_lt_leaves (i := p) (ℓ := ℓ)
  refine h.move hp hd hv ?_ (fun _ _ => rfl)
    (fun d' hd' => funext fun _ => sides_other _ hlo hhi fun h => hd' h.1) (fun _ hq => hq) (.inr (by simp))
  rw [place, sides_update _ hlo hhi, Role.other_ofSide, Role.toSide_ofSide, ← Bracket.seat_succ]
  exact (h.fair d).yieldTurn (h.standing_eq hp hv) hℓ

theorem Inv.passIdle (hd : d < numDomains) (hv : γ (.climber p d) = .climb ⟨ℓ, .waiting⟩ false)
    (hℓ : ℓ < (bracket n).depth)
    (hidle : s.lines (place d p ℓ).node (place d p ℓ).role.other = noPeer) :
    Inv numDomains { s with standing := setCell s.standing p d ⟨ℓ + 1, .out⟩ }
      (update γ (.climber p d) (.climb ⟨ℓ + 1, .out⟩ false)) := by
  refine h.move hp hd hv ?_ (fun _ _ => rfl) (fun _ _ => rfl) (fun _ hq => hq) (.inr (by simp))
  refine (h.fair d).pass_blank (h.standing_eq hp hv) hℓ fun c hc hside => ?_
  rw [place, Role.other_ofSide] at hidle
  unfold seats
  split
  · rw [nodeOver, hc, hside]
    rw [nodeOver] at hidle
    rw [hidle, named_noPeer]
  · rfl

theorem Inv.passTurn (hd : d < numDomains) (hv : γ (.climber p d) = .climb ⟨ℓ, .waiting⟩ false)
    (hℓ : ℓ < (bracket n).depth) (hturn : s.turns (place d p ℓ).node ≠ (place d p ℓ).role.other) :
    Inv numDomains { s with standing := setCell s.standing p d ⟨ℓ + 1, .out⟩ }
      (update γ (.climber p d) (.climb ⟨ℓ + 1, .out⟩ false)) := by
  refine h.move hp hd hv ?_ (fun _ _ => rfl) (fun _ _ => rfl) (fun _ hq => hq) (.inr (by simp))
  refine (h.fair d).pass_turn (h.standing_eq hp hv) hℓ ?_
  have hlo := (bracket n).two_le_seat (i := p) hℓ
  have hhi := (bracket n).seat_lt_leaves (i := p) (ℓ := ℓ)
  rw [Nat.pow_succ] at hhi
  rw [Bracket.seat_succ, sides, if_pos (by omega)]
  rw [place, Role.other_ofSide, nodeOver] at hturn
  cases hs : side ((bracket n).seat p ℓ) <;> rw [hs] at hturn <;>
    cases ht : s.turns (d * treeNodes n + ((bracket n).seat p ℓ / 2 - 1)) <;>
      simp_all [Role.ofSide, Role.toSide]

theorem Inv.clearMine (hd : d < numDomains) (hv : γ (.climber p d) = .climb x false)
    (hℓ : ℓ < (bracket n).depth) (hact : x.Active ℓ) (htop : ∀ m, ℓ < m → ¬ x.Active m) :
    Inv numDomains { s with
        lines := setCell s.lines (place d p ℓ).node (place d p ℓ).role noPeer
        standing := setCell s.standing p d ⟨ℓ, .out⟩ }
      (update γ (.climber p d) (.climb ⟨ℓ, .out⟩ false)) := by
  have hlo := (bracket n).two_le_seat (i := p) hℓ
  have hhi := (bracket n).seat_lt_leaves (i := p) (ℓ := ℓ)
  have hx := h.standing_eq hp hv
  refine h.move hp hd hv ?_
    (fun d' hd' => funext fun _ => seats_other _ hlo hhi fun h => hd' h.1) (fun _ _ => rfl)
    (fun _ hq => hq) (.inr ?_)
  · rw [place, seats_setCell _ hlo hhi, named_noPeer]
    exact (h.fair d).retract hℓ (by rw [hx]; exact hact) (by rw [hx]; exact htop)
  · rintro rfl
    simp [Standing.Active] at hact

/-- `acquire` returns true at the root, and release begins. -/
theorem Inv.setInside {b : Bool} (b' : Bool) (hv : γ (.climber p d) = .climb x b)
    (hx : b' = true → x = ⟨(bracket n).depth, .out⟩) :
    Inv numDomains { s with inside := setCell s.inside p d b' }
      (update γ (.climber p d) (.climb x b')) := by
  have hst := h.standing_eq hp hv
  refine ⟨h.fair, fun q d' hq => ?_, fun q d' hq hin => ?_, h.unused,
    fun q dead bound seen hq hs => ?_, h.clean, h.erased⟩
  · by_cases hmine : (Tid.climber q d' : Tid n) = .climber p d
    · cases hmine
      simp [setCell_apply, hst]
    · have hne : ¬ (q = p ∧ d' = d) := by
        rintro ⟨rfl, rfl⟩
        exact hmine rfl
      rw [update_of_ne hmine]
      simpa [setCell_apply, hne] using h.climber q d' hq
  · replace hin : setCell s.inside p d b' q d' = true := hin
    rw [setCell_apply] at hin
    split at hin
    · rename_i hmine
      obtain ⟨rfl, rfl⟩ := hmine
      exact hst.trans (hx hin)
    · exact h.inside q d' hq hin
  · rw [update_of_ne (by simp)] at hs
    obtain ⟨hgone, hmine, habove, hfound⟩ := h.scrub q dead bound seen hq hs
    exact ⟨hgone, hmine, habove, hfound⟩

end

/-! ### Scrubs -/

/-- A view of a scrubbing thread changes: the climbs do not notice, and the
scrubs of the other peers rely on what they did. -/
theorem Inv.scrubView {v : View n}
    (hv : ∀ dead bound seen, v = .scrub dead bound seen → Scrubbing s p dead bound seen) :
    Inv numDomains s (update γ (.scrubber p) v) := by
  refine ⟨h.fair, fun q d hq => ?_, h.inside, h.unused, fun q dead bound seen hq hs => ?_,
    h.clean, h.erased⟩
  · rw [update_of_ne (by simp)]
    exact h.climber q d hq
  · by_cases hqp : q = p
    · subst hqp
      rw [update_self] at hs
      exact hv dead bound seen hs
    · rw [update_of_ne (by simpa using hqp)] at hs
      exact h.scrub q dead bound seen hq hs

theorem Inv.scrubber_unique {q : Fin n} {bound bound' : DomainId → Nat}
    {seen seen' : Option (DomainId × Nat)} (hp : s.crashed p = false) (hq : s.crashed q = false)
    (hvp : γ (.scrubber p) = .scrub dead bound seen)
    (hvq : γ (.scrubber q) = .scrub dead bound' seen') : p = q := by
  have hmine := (h.scrub p dead bound seen hp hvp).mine
  rw [(h.scrub q dead bound' seen' hq hvq).mine] at hmine
  exact (Option.some.inj hmine).symm

theorem Inv.beginScrub (hp : s.crashed p = false) (hgone : s.crashed dead = true)
    (hfree : (s.scrubber dead).all s.crashed = true) :
    Inv numDomains { s with scrubber := update s.scrubber dead (some p) }
      (update γ (.scrubber p) (.scrub dead (fun _ => (bracket n).depth) none)) := by
  refine ⟨h.fair, fun q d hq => ?_, h.inside, h.unused, fun q dead' bound seen hq hs => ?_,
    h.clean, h.erased⟩
  · rw [update_of_ne (by simp)]
    exact h.climber q d hq
  · by_cases hqp : q = p
    · subst hqp
      rw [update_self] at hs
      cases hs
      refine ⟨hgone, by simp, fun d ℓ hℓ hact => ?_, fun d ℓ hseen => by cases hseen⟩
      -- nothing stands above the root
      have hbound := (h.fair d).bound dead
      rcases hact with hlt | ⟨heq, hne⟩
      · have hle := (h.fair d).level_le dead
        exact absurd (Nat.lt_of_le_of_lt hℓ hlt) (Nat.not_lt.mpr hle)
      · rcases hbound with hlt | hroot
        · exact absurd hℓ (by rw [heq]; exact Nat.not_le.mpr hlt)
        · exact hne (by rw [hroot])
    · rw [update_of_ne (by simpa using hqp)] at hs
      obtain ⟨hgone', hmine, habove, hfound⟩ := h.scrub q dead' bound seen hq hs
      have hne : dead' ≠ dead := by
        rintro rfl
        replace hq : s.crashed q = false := hq
        rw [hmine] at hfree
        simp [hq] at hfree
      exact ⟨hgone', by simpa [update_of_ne hne] using hmine, habove, hfound⟩

/-- A line of the crashed peer's path names it exactly if it is active there. -/
theorem Inv.names_iff (hn : n ≤ noPeer) (hℓ : ℓ < (bracket n).depth) :
    s.lines (place d dead ℓ).node (place d dead ℓ).role = dead ↔
      (s.standing dead d).Active ℓ := by
  have hlo := (bracket n).two_le_seat (i := dead) hℓ
  have hhi := (bracket n).seat_lt_leaves (i := dead) (ℓ := ℓ)
  have hseat : seats (n := n) s.lines d ((bracket n).seat dead ℓ) =
      named n (s.lines (place d dead ℓ).node (place d dead ℓ).role) := by
    rw [seats, if_pos ⟨hlo, hhi⟩, place]
  constructor
  · intro hline
    rw [hline, named_val hn] at hseat
    obtain ⟨m, hm, heq, hact⟩ := (h.fair d).active_line dead _ hseat
    rw [Bracket.level_eq (Nat.le_of_lt hm) (Nat.le_of_lt hℓ) heq] at hact
    exact hact
  · intro hact
    rw [(h.fair d).line_active dead ℓ hℓ hact] at hseat
    exact eq_of_named hseat.symm

end

variable {bound : DomainId → Nat} {seen : Option (DomainId × Nat)}

section

variable (h : Inv numDomains s γ)

include h

/-- The scrub reads a line that does not name the crashed peer. -/
theorem Inv.scrubSkip (hp : s.crashed p = false) (hv : γ (.scrubber p) = .scrub dead bound seen)
    (hbound : bound d ≤ ℓ + 1) (hnot : ¬ (s.standing dead d).Active ℓ) : Inv numDomains s
      (update γ (.scrubber p) (.scrub dead (update bound d ℓ) none)) := by
  obtain ⟨hgone, hmine, habove, -⟩ := h.scrub p dead bound seen hp hv
  refine h.scrubView fun dead' bound' seen' hs => ?_
  cases hs
  refine ⟨hgone, hmine, fun d' m hm => ?_, fun d' m hseen => by cases hseen⟩
  by_cases hd : d' = d
  · subst hd
    rw [update_self] at hm
    rcases Nat.lt_or_eq_of_le hm with hlt | rfl
    · exact habove d' m (hbound.trans hlt)
    · exact hnot
  · rw [update_of_ne hd] at hm
    exact habove d' m hm

/-- The scrub reads a line that names the crashed peer. -/
theorem Inv.scrubFound (hp : s.crashed p = false) (hv : γ (.scrubber p) = .scrub dead bound seen)
    (hact : (s.standing dead d).Active ℓ) :
    Inv numDomains s (update γ (.scrubber p) (.scrub dead bound (some (d, ℓ)))) := by
  obtain ⟨hgone, hmine, habove, -⟩ := h.scrub p dead bound seen hp hv
  refine h.scrubView fun dead' bound' seen' hs => ?_
  cases hs
  refine ⟨hgone, hmine, habove, fun d' m hseen => ?_⟩
  cases hseen
  exact hact

/-- **The scrub clears a line.** It still names the crashed peer: only this
scrub moves that peer's standing. -/
theorem Inv.clearDead (hn : n ≤ noPeer) (hp : s.crashed p = false)
    (hv : γ (.scrubber p) = .scrub dead bound (some (d, ℓ))) (hbound : bound d ≤ ℓ + 1)
    (hℓ : ℓ < (bracket n).depth) : Inv numDomains { s with
        lines := setCell s.lines (place d dead ℓ).node (place d dead ℓ).role noPeer
        standing := setCell s.standing dead d ⟨ℓ, .out⟩
        erased := s.erased ||
          s.namesLive (s.lines (place d dead ℓ).node (place d dead ℓ).role) }
      (update γ (.scrubber p) (.scrub dead (update bound d ℓ) none)) := by
  obtain ⟨hgone, hmine, habove, hfound⟩ := h.scrub p dead bound _ hp hv
  have hact := hfound d ℓ rfl
  have htop : ∀ m, ℓ < m → ¬ (s.standing dead d).Active m := fun m hm =>
    habove d m (hbound.trans hm)
  have hlo := (bracket n).two_le_seat (i := dead) hℓ
  have hhi := (bracket n).seat_lt_leaves (i := dead) (ℓ := ℓ)
  have hmoved : s.standing dead d ≠ ⟨0, .out⟩ := by
    intro hzero
    rw [hzero] at hact
    simp [Standing.Active] at hact
  have hlive : ∀ {q : Fin n}, s.crashed q = false → q ≠ dead := by
    rintro q hq rfl
    rw [hgone] at hq
    cases hq
  refine ⟨fun d' => ?_, fun q d' hq => ?_, fun q d' hq hin => ?_, fun q d' hd' => ?_,
    fun q dead' bound' seen' hq hs => ?_, fun q hc d' => ?_, ?_⟩
  · by_cases hdd : d' = d
    · subst hdd
      show (bracket n).Fair (fun q => setCell s.standing dead d' ⟨ℓ, .out⟩ q d') _ _
      rw [standing_column, place, seats_setCell _ hlo hhi, named_noPeer]
      exact (h.fair d').retract hℓ hact htop
    · show (bracket n).Fair (fun q => setCell s.standing dead d ⟨ℓ, .out⟩ q d') _ _
      rw [standing_column_of_ne _ _ _ hdd, place, show seats _ d' = _ from
        funext fun _ => seats_other _ hlo hhi fun h => hdd h.1]
      exact h.fair d'
  · rw [update_of_ne (by simp)]
    simpa [standing_of_ne (hlive hq)] using h.climber q d' hq
  · simpa [standing_of_ne (hlive hq)] using h.inside q d' hq hin
  · have hne : ¬ (q = dead ∧ d' = d) := by
      rintro ⟨rfl, rfl⟩
      exact hmoved (h.unused q d' hd')
    simpa [setCell_apply, hne] using h.unused q d' hd'
  · by_cases hqp : q = p
    · subst hqp
      rw [update_self] at hs
      cases hs
      refine ⟨hgone, hmine, fun d' m hm => ?_, fun d' m hseen => by cases hseen⟩
      by_cases hd : d' = d
      · subst hd
        rw [update_self] at hm
        simpa [setCell_apply, Standing.Active] using hm
      · rw [update_of_ne hd] at hm
        simpa [setCell_apply, hd] using habove d' m hm
    · rw [update_of_ne (by simpa using hqp)] at hs
      obtain ⟨hgone', hmine', habove', hfound'⟩ := h.scrub q dead' bound' seen' hq hs
      have hne : dead' ≠ dead := by
        rintro rfl
        exact hqp (h.scrubber_unique hq hp hs hv)
      exact ⟨hgone', hmine', fun d' m hm => by simpa [standing_of_ne hne] using habove' d' m hm,
        fun d' m hm => by simpa [standing_of_ne hne] using hfound' d' m hm⟩
  · have hne : q ≠ dead := by
      rintro rfl
      exact hmoved (h.clean q hc d)
    simpa [standing_of_ne hne] using h.clean q hc d'
  · show (s.erased || s.namesLive _) = false
    rw [(h.names_iff hn hℓ).mpr hact, h.erased, State.namesLive, dif_pos dead.isLt]
    simpa using hgone

/-- The scrub has come down to the leaves of every domain. -/
theorem Inv.endScrub (hp : s.crashed p = false) (hv : γ (.scrubber p) = .scrub dead bound seen)
    (hbound : ∀ d < numDomains, bound d = 0) : Inv numDomains { s with
        clean := update s.clean dead true
        scrubber := update s.scrubber dead none }
      (update γ (.scrubber p) .idle) := by
  obtain ⟨-, -, habove, -⟩ := h.scrub p dead bound seen hp hv
  refine ⟨h.fair, fun q d hq => ?_, h.inside, h.unused, fun q dead' bound' seen' hq hs => ?_,
    fun q hc d => ?_, h.erased⟩
  · rw [update_of_ne (by simp)]
    exact h.climber q d hq
  · have hqp : q ≠ p := by
      rintro rfl
      rw [update_self] at hs
      cases hs
    rw [update_of_ne (by simpa using hqp)] at hs
    obtain ⟨hgone, hmine, habove', hfound⟩ := h.scrub q dead' bound' seen' hq hs
    have hne : dead' ≠ dead := by
      rintro rfl
      exact hqp (h.scrubber_unique hq hp hs hv)
    exact ⟨hgone, by simpa [update_of_ne hne] using hmine, habove', hfound⟩
  · by_cases hqd : q = dead
    · subst hqd
      rcases Nat.lt_or_ge d numDomains with hd | hd
      · have hout : ∀ ℓ, ¬ (s.standing q d).Active ℓ := fun ℓ =>
          habove d ℓ (by rw [hbound d hd]; exact Nat.zero_le ℓ)
        show s.standing q d = ⟨0, .out⟩
        rcases hx : s.standing q d with ⟨level, phase⟩
        rw [hx] at hout
        have hlevel : level = 0 := by
          by_contra hne
          exact hout 0 (.inl (Nat.pos_of_ne_zero hne))
        have hphase : phase = .out := by
          by_contra hne
          exact hout level (.inr ⟨rfl, hne⟩)
        rw [hlevel, hphase]
      · exact h.unused q d hd
    · replace hc : update s.clean dead true q = true := hc
      rw [update_of_ne hqd] at hc
      exact h.clean q hc d

/-! ### Crashes and new occupants -/

theorem Inv.crash (p : Fin n) : Inv numDomains { s with crashed := update s.crashed p true } γ := by
  have hlive : ∀ q, update s.crashed p true q = false → s.crashed q = false := by
    intro q hq
    by_cases hqp : q = p
    · subst hqp
      simp at hq
    · rwa [update_of_ne hqp] at hq
  refine ⟨h.fair, fun q d hq => h.climber q d (hlive q hq),
    fun q d hq hin => h.inside q d (hlive q hq) hin, h.unused,
    fun q dead bound seen hq hs => ?_, h.clean, h.erased⟩
  obtain ⟨hgone, hmine, habove, hfound⟩ := h.scrub q dead bound seen (hlive q hq) hs
  refine ⟨?_, hmine, habove, hfound⟩
  show update s.crashed p true dead = true
  by_cases hdp : dead = p
  · subst hdp
    rw [update_self]
  · rw [update_of_ne hdp]
    exact hgone

/-- The views of a new occupant's threads. -/
def freshView : Tid n → View n
  | .climber _ _ => .climb ⟨0, .out⟩ false
  | .scrubber _ => .idle

theorem Inv.occupy (hclean : s.clean p = true) (hfree : (s.scrubber p).all s.crashed = true) :
    Inv numDomains { s with
        crashed := update s.crashed p false
        inside := update s.inside p fun _ => false
        scrubber := fun dead => if s.scrubber dead = some p then none else s.scrubber dead }
      (fun i => if i.peer = p then freshView i else γ i) := by
  have hlive : ∀ q, q ≠ p → update s.crashed p false q = false → s.crashed q = false := by
    intro q hqp hq
    rwa [update_of_ne hqp] at hq
  refine ⟨h.fair, fun q d hq => ?_, fun q d hq hin => ?_, h.unused,
    fun q dead bound seen hq hs => ?_, h.clean, h.erased⟩
  · by_cases hqp : q = p
    · subst hqp
      simp [Tid.peer, freshView, h.clean q hclean d]
    · simpa [Tid.peer, hqp] using h.climber q d (hlive q hqp hq)
  · by_cases hqp : q = p
    · subst hqp
      simp at hin
    · exact h.inside q d (hlive q hqp hq) (by simpa [hqp] using hin)
  · have hqp : q ≠ p := by
      rintro rfl
      simp [Tid.peer, freshView] at hs
    replace hs : γ (.scrubber q) = .scrub dead bound seen := by simpa [Tid.peer, hqp] using hs
    obtain ⟨hgone, hmine, habove, hfound⟩ := h.scrub q dead bound seen (hlive q hqp hq) hs
    have hdp : dead ≠ p := by
      rintro rfl
      rw [hmine] at hfree
      simp [hlive q hqp hq] at hfree
    refine ⟨by simpa [hdp] using hgone, ?_, habove, hfound⟩
    simpa [hmine] using hqp

end

end Cme.Tournament
