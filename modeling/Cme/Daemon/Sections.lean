import Cme.Daemon.Spec

/-!
# Daemon — sections and the turns behind them

Results about every run of a node. A slot's sections are one requester's at a time
(`alone_in_slot`). A section has its slot's turn behind it
from the moment the requester is inside until its own Idle store or its death
(`turn_behind_section`). Two sections have different domains of the region behind
them as long as every turn was taken on its slot's own id (`sections_apart`), and
only so long: a name that moved to another id between two refreshes lets one node
into one domain twice (`one_domain_twice`).
-/

namespace Cme.Daemon

open Function Interleave

variable {lim : Limits} {t : Tid} {r : Nat}

theorem inv_fresh : Inv fresh.shared.turns fun _ => {} where
  placed :=
    { mutex := fun _ _ => by simp [fresh]
      entry := fun _ _ => by simp [fresh]
      out := fun _ _ => rfl
      away := fun _ _ => rfl
      claims := fun _ => rfl
      daemon := fun _ hne => absurd rfl hne
      apart := fun _ => rfl
      quiet := nofun }
  sound := fun _ =>
    { permitted := nofun
      inside := nofun
      asking := nofun
      claimed := nofun
      riding := nofun
      buying := nofun
      revoked := nofun
      dropping := nofun
      removing := nofun }
  sectioned := ⟨nofun, nofun⟩
  watched := fun _ _ _ _ => nofun

theorem inv_reachable {c : Config Tid Op Ret State} (h : (system lim).Reachable fresh c) :
    ∃ γ, Inv c.shared.turns γ := by
  have hrest : ∀ i, Rest i {} := by
    intro i
    cases i with
    | requester r => exact Or.inl rfl
    | worker w => rfl
    | control => rfl
    | maintainer => rfl
  have hinit : Outlined (system lim) NodeInv Rest fresh :=
    outlined_of_idle (fun _ => rfl) inv_fresh hrest
  obtain ⟨γ, hInv, -⟩ := (outline lim).reachable hinit h
  exact ⟨γ, hInv⟩

/-! ### The turn behind a section -/

variable {s : Turns}

theorem Inv.section_turn {γ : Tid → View} (h : Inv s γ) {sec : Section}
    (hs : s.sections r = some sec) : sec.turn.isSome = true ∧ s.guard sec.domain = sec.turn := by
  obtain ⟨hm, hclaim, hguard⟩ := h.sectioned.held r sec hs
  refine ⟨?_, hguard⟩
  have hlease := h.placed.lease_claim hm
  rw [hclaim] at hlease
  have hturn := ((h.sound sec.domain).inside hlease).1
  rw [← hguard]
  exact hturn

/-- A requester's section is its own. -/
theorem Turns.storeState_sections (ht : t ≠ .requester r) (d : DomainId) (next : RequestState) :
    (s.storeState t d next).sections r = s.sections r := by
  cases t with
  | requester q =>
    have hne : r ≠ q := fun hq => ht (by rw [hq])
    exact update_of_ne hne _ _
  | worker w => rfl
  | control => rfl
  | maintainer => rfl

theorem Turns.enter_sections (ht : t ≠ .requester r) (d : DomainId) :
    (s.enter t d).sections r = s.sections r := by
  cases t with
  | requester q =>
    have hne : r ≠ q := fun hq => ht (by rw [hq])
    exact update_of_ne hne _ _
  | worker w => rfl
  | control => rfl
  | maintainer => rfl

theorem Turns.unlockMutex_sections (d : DomainId) : (s.unlockMutex t d).sections = s.sections := by
  cases t <;> rfl

variable {ch : Choice} {s s' : Turns}

/-- Nobody else's step opens or closes a section. -/
theorem execTurns_sections {o : Op} {x : Ret o} (hx : execTurns t o ch s = some (x, s'))
    (ht : t ≠ .requester r) : s'.sections r = s.sections r := by
  cases execTurns_turned hx with
  | stored d next => exact Turns.storeState_sections ht d next
  | entered d => exact Turns.enter_sections ht d
  | unlocked d => rw [Turns.unlockMutex_sections]
  | counting d | uncounting d | released d | aside => rfl

theorem exec_sections {o : Op} {s s' : State} {x : Ret o} (hx : exec lim t o ch s = some (x, s'))
    (ht : t ≠ .requester r) : s'.turns.sections r = s.turns.sections r := by
  cases exec_stepped hx with
  | turns _ h => exact execTurns_sections h ht
  | requests h | registry h | region h | took | still => rfl

/-- A step of anybody else leaves a section standing. -/
theorem next_sections {c c' : Config Tid Op Ret State} {a : Action Tid Choice Call Env}
    (h : (system lim).next a c = some c') (hexec : ∀ ch, a ≠ .exec (.requester r) ch)
    (hdie : a ≠ .env (.die r)) : c'.shared.turns.sections r = c.shared.turns.sections r := by
  obtain ⟨i, ch, o, k, x, s', rfl, -, hx, rfl⟩ | ⟨i, call, p, rfl, -, -, rfl⟩ |
    ⟨e, s', rfl, he, rfl⟩ := System.next_cases h
  · exact exec_sections hx fun hi => hexec ch (by rw [hi])
  · rfl
  · cases e with
    | die q =>
      cases he
      have hne : r ≠ q := fun hq => hdie (by rw [hq])
      exact update_of_ne hne _ _
    | createElsewhere id text =>
      obtain ⟨-, ⟨⟩⟩ := of_guard he
      rfl
    | deleteElsewhere id =>
      obtain ⟨-, ⟨⟩⟩ := of_guard he
      rfl

/-- **A turn stands behind every section.** While a requester is inside its
section the slot's entry holds the very guard it entered on, and no step but the
requester's own, or its death, is followed by anything else. -/
theorem turn_behind_section {c : Config Tid Op Ret State} (h : (system lim).Reachable fresh c)
    {sec : Section} (hs : c.shared.turns.sections r = some sec) :
    sec.turn.isSome = true ∧ c.shared.turns.guard sec.domain = sec.turn ∧
    ∀ a c', (system lim).next a c = some c' → (∀ ch, a ≠ .exec (.requester r) ch) →
      a ≠ .env (.die r) →
      c'.shared.turns.sections r = some sec ∧ c'.shared.turns.guard sec.domain = sec.turn := by
  obtain ⟨γ, hInv⟩ := inv_reachable h
  obtain ⟨hturn, hguard⟩ := hInv.section_turn hs
  refine ⟨hturn, hguard, fun a c' hnext hexec hdie => ?_⟩
  have hstands : c'.shared.turns.sections r = some sec := by
    rw [next_sections hnext hexec hdie]
    exact hs
  obtain ⟨γ', hInv'⟩ := inv_reachable (.step a h hnext)
  exact ⟨hstands, (hInv'.section_turn hstands).2⟩

/-- The name of one character. -/
def named (c : Char) : DomainName := ⟨c :: List.replicate 15 (Char.ofNat 0)⟩

/-- A requester asks for a domain whose slot its scan finds after `scan` steps,
and waits. -/
def request (r : Nat) (name : DomainName) (scan : Nat) : List (Action Tid Choice Call Env) :=
  [.start (.requester r) (.tryLock name), .exec (.requester r) (.domain none)] ++
  -- the scan, the mutex, the name again, and LockHeld
  steps (.requester r) (scan + 7) ++ [.exec (.requester r) (.nat 1)] ++
  -- no valid stamp: Idle, and LockRequested
  steps (.requester r) 2 ++ [.exec (.requester r) (.flag true)] ++ steps (.requester r) 3 ++
  [.exec (.requester r) (.nat 1)]

/-- A worker finds the request, buys the turn and answers. -/
def findRequest (w : Nat) (d : DomainId) : List (Action Tid Choice Call Env) :=
  .start (.worker w) (.serveLock d) :: steps (.worker w) 2

def buyTurn (w : Nat) : List (Action Tid Choice Call Env) :=
  steps (.worker w) 8 ++ [.exec (.worker w) (.nat 100)] ++ steps (.worker w) 5

/-- A refresh that reads the region; the sweep after it finds every slot busy. -/
def refreshPass (reads : Nat) (slots : Nat) : List (Action Tid Choice Call Env) :=
  [.start .maintainer .maintain, .exec .maintainer (.flag true)] ++ steps .maintainer reads ++
  List.replicate slots (.exec .maintainer (.flag true))

/-- A sweep of slot 1 of two, whose turn has run out. -/
def sweepPass (reads : Nat) : List (Action Tid Choice Call Env) :=
  [.start .maintainer .maintain, .exec .maintainer (.flag false), .exec .maintainer (.flag true),
   .exec .maintainer (.flag false)] ++ steps .maintainer 2 ++
  [.exec .maintainer (.flag true)] ++ steps .maintainer reads

/-- A requester gets its turn, and a sweep finds it inside. -/
def lockThenSweep : List (Action Tid Choice Call Env) :=
  .env (.createElsewhere 1 ['a']) :: refreshPass 15 2 ++ request 0 (named 'a') 3 ++
  findRequest 0 1 ++ buyTurn 0 ++ steps (.requester 0) 2 ++ sweepPass 4

theorem turn_behind_section_lockThenSweep :
    ∃ c, (system ⟨2, 2⟩).Reachable fresh c ∧ c.shared.turns.expiresAtNanos 1 = 0 ∧
      c.shared.turns.sections 0 = some ⟨1, some ⟨⟨1, 1⟩, 0⟩⟩ ∧
      c.shared.turns.guard 1 = some ⟨⟨1, 1⟩, 0⟩ := by
  obtain ⟨c, hc, hstamp, hs⟩ := System.exists_of_run (system ⟨2, 2⟩) fresh lockThenSweep
    (P := fun c => c.shared.turns.expiresAtNanos 1 = 0 ∧
      c.shared.turns.sections 0 = some ⟨1, some ⟨⟨1, 1⟩, 0⟩⟩) (by decide)
  exact ⟨c, hc, hstamp, hs, (turn_behind_section hc hs).2.1⟩

/-- **A slot is one requester's at a time.** Whatever becomes of the table and of the
region's names, a requester inside a section holds the mutex of its slot, the slot reads
LockHeld unless somebody is at work on its entry, and nobody else is inside a section of
the slot. -/
theorem alone_in_slot {c : Config Tid Op Ret State} (h : (system lim).Reachable fresh c)
    {sec : Section} (hs : c.shared.turns.sections r = some sec) :
    (c.shared.turns.mutex sec.domain).holder = some (.requester r) ∧
    (c.shared.turns.counting sec.domain = none →
      c.shared.turns.state sec.domain = .lockHeld) ∧
    ∀ q sec', c.shared.turns.sections q = some sec' → sec'.domain = sec.domain → q = r := by
  obtain ⟨γ, hInv⟩ := inv_reachable h
  obtain ⟨hm, hclaim, -⟩ := hInv.sectioned.held r sec hs
  have hholder := hInv.placed.holder hm
  refine ⟨hholder, fun hnone => ?_, fun q sec' hs' hd => ?_⟩
  · obtain ⟨-, hword | hanswers, -⟩ :=
      (hInv.sound sec.domain).inside ((hInv.placed.lease_claim hm).trans hclaim)
    · exact eq_of_beq hword
    · -- an answer under way would have the entry counted
      simp [lease, hnone, Keeper.answering] at hanswers
  · -- the slot's mutex has one holder
    have hholder' := hInv.placed.holder (hInv.sectioned.held q sec' hs').1
    rw [hd, hholder] at hholder'
    cases hholder'
    rfl

theorem alone_in_slot_lockThenSweep : ∃ c, (system ⟨2, 2⟩).Reachable fresh c ∧
    (c.shared.turns.mutex 1).holder = some (.requester 0) ∧
      c.shared.turns.state 1 = .lockHeld := by
  obtain ⟨c, hc, hnone, hs⟩ := System.exists_of_run (system ⟨2, 2⟩) fresh lockThenSweep
    (P := fun c => c.shared.turns.counting 1 = none ∧
      c.shared.turns.sections 0 = some ⟨1, some ⟨⟨1, 1⟩, 0⟩⟩) (by decide)
  exact ⟨c, hc, (alone_in_slot hc hs).1, (alone_in_slot hc hs).2.1 hnone⟩

/-! ### One domain, one section -/

/-- Unless one strayed, every turn is one of its slot's own id. -/
def Home (s : Turns) : Prop :=
  s.strayed = false → ∀ d turn, s.guard d = some turn → turn.handle.id = d

theorem Home.of_same (h : Home s) (hstrayed : s'.strayed = s.strayed)
    (hguard : s'.guard = s.guard) :
    Home s' := by
  unfold Home
  rw [hstrayed, hguard]
  exact h

theorem Home.takeTurn (h : Home s) (d : DomainId) (taken : Turn) : Home (s.takeTurn d taken) := by
  intro hstrayed e turn hguard
  replace hstrayed : (s.strayed || taken.handle.id != d) = false := hstrayed
  rw [Bool.or_eq_false_iff] at hstrayed
  replace hguard : update s.guard d (some taken) e = some turn := hguard
  by_cases he : e = d
  · subst he
    rw [update_self] at hguard
    cases hguard
    simpa using hstrayed.2
  · rw [update_of_ne he] at hguard
    exact h hstrayed.1 e turn hguard

theorem Home.releaseTurn (h : Home s) (d : DomainId) :
    Home { s with guard := update s.guard d none } := by
  intro hstrayed e turn hguard
  replace hguard : update s.guard d none e = some turn := hguard
  exact h hstrayed e turn (of_update hguard (by simp)).2

theorem Home.execTurns {o : Op} {x : Ret o} (h : Home s) (hx : execTurns t o ch s = some (x, s')) :
    Home s' := by
  cases execTurns_turned hx with
  | stored d next | entered d | unlocked d => cases t <;> exact h.of_same rfl rfl
  | released d => exact h.releaseTurn d
  | counting d | uncounting d | aside => exact h.of_same rfl rfl

theorem Home.exec {o : Op} {s s' : State} {x : Ret o} (h : Home s.turns)
    (hx : exec lim t o ch s = some (x, s')) : Home s'.turns := by
  cases exec_stepped hx with
  | turns _ hturns => exact h.execTurns hturns
  | took d taken => exact h.takeTurn d taken
  | requests _ | registry _ | region _ | still => exact h

theorem home_reachable {c : Config Tid Op Ret State} (h : (system lim).Reachable fresh c) :
    Home c.shared.turns := by
  refine h.invariant (P := fun c => Home c.shared.turns) (fun _ _ _ hg => by cases hg)
    fun a c c' hc hnext => ?_
  obtain ⟨i, ch, o, k, x, s', rfl, -, hx, rfl⟩ | ⟨i, call, p, rfl, -, -, rfl⟩ |
    ⟨e, s', rfl, he, rfl⟩ := System.next_cases hnext
  · exact Home.exec hc hx
  · exact hc
  · cases e with
    | die q =>
      cases he
      exact Home.of_same hc rfl rfl
    | createElsewhere id text =>
      obtain ⟨-, ⟨⟩⟩ := of_guard he
      exact hc
    | deleteElsewhere id =>
      obtain ⟨-, ⟨⟩⟩ := of_guard he
      exact hc

/-- No two requesters are inside sections whose turns are of one domain. -/
def Turns.Apart (s : Turns) : Prop :=
  ∀ r r' sec sec' turn turn', r ≠ r' → s.sections r = some sec → s.sections r' = some sec' →
    sec.turn = some turn → sec'.turn = some turn' → turn.handle ≠ turn'.handle

/-- A name is published at slot 2, asked for, and moved to id 1 of the region
before a worker joins it. The slot that is in use cannot be retired, a refresh
publishes the name at slot 1 too, and a second requester finds it there. -/
def nameMoves : List (Action Tid Choice Call Env) :=
  [.env (.createElsewhere 1 ['b']), .env (.createElsewhere 2 ['a'])] ++ refreshPass 26 3 ++
  request 0 (named 'a') 5 ++ findRequest 0 2 ++
  [.env (.deleteElsewhere 2), .env (.deleteElsewhere 1), .env (.createElsewhere 1 ['a'])] ++
  buyTurn 0 ++ steps (.requester 0) 2 ++ refreshPass 26 3 ++
  request 1 (named 'a') 3 ++ findRequest 1 1 ++ buyTurn 1 ++ steps (.requester 1) 2

/-- **One node, one domain, two sections.** -/
theorem one_domain_twice : ∃ c, (system ⟨3, 3⟩).Reachable fresh c ∧
      c.shared.turns.sections 0 = some ⟨2, some ⟨⟨1, 2⟩, 0⟩⟩ ∧
      c.shared.turns.sections 1 = some ⟨1, some ⟨⟨1, 2⟩, 1⟩⟩ :=
  System.exists_of_run _ _ nameMoves (by decide +kernel)

/-- **Turns of their own slots keep sections apart.** In every run in which each
turn is taken on a handle of the slot's own id, no two requesters are inside
sections whose turns are of one domain of the region. -/
theorem sections_apart {c : Config Tid Op Ret State} (h : (system lim).Reachable fresh c)
    (hhome : c.shared.turns.strayed = false) : c.shared.turns.Apart := by
  obtain ⟨γ, hInv⟩ := inv_reachable h
  intro r r' sec sec' turn turn' hne hs hs' ht ht' hsame
  have hid : turn.handle.id = sec.domain := by
    refine home_reachable h hhome sec.domain turn ?_
    rw [(hInv.section_turn hs).2, ht]
  have hid' : turn'.handle.id = sec'.domain := by
    refine home_reachable h hhome sec'.domain turn' ?_
    rw [(hInv.section_turn hs').2, ht']
  -- one slot, so one mutex and one holder
  have hslot : sec.domain = sec'.domain := by
    rw [← hid, ← hid', hsame]
  have hholder := hInv.placed.holder (hInv.sectioned.held r sec hs).1
  have hholder' := hInv.placed.holder (hInv.sectioned.held r' sec' hs').1
  rw [← hslot, hholder] at hholder'
  exact hne (by simpa using hholder')

/-- Two names that stay where they are, and a requester in each. -/
def namesStay : List (Action Tid Choice Call Env) :=
  [.env (.createElsewhere 1 ['b']), .env (.createElsewhere 2 ['a'])] ++ refreshPass 26 3 ++
  request 0 (named 'a') 5 ++ findRequest 0 2 ++ buyTurn 0 ++ steps (.requester 0) 2 ++
  request 1 (named 'b') 3 ++ findRequest 1 1 ++ buyTurn 1 ++ steps (.requester 1) 2

theorem sections_apart_namesStay : ∃ c sec sec' turn turn', (system ⟨3, 3⟩).Reachable fresh c ∧
      c.shared.turns.sections 0 = some sec ∧ c.shared.turns.sections 1 = some sec' ∧
      sec.turn = some turn ∧ sec'.turn = some turn' ∧ turn.handle ≠ turn'.handle := by
  obtain ⟨c, hc, hhome, hs, hs'⟩ := System.exists_of_run (system ⟨3, 3⟩) fresh namesStay
    (P := fun c => c.shared.turns.strayed = false ∧
      c.shared.turns.sections 0 = some ⟨2, some ⟨⟨2, 1⟩, 0⟩⟩ ∧
      c.shared.turns.sections 1 = some ⟨1, some ⟨⟨1, 1⟩, 1⟩⟩) (by decide)
  exact ⟨c, _, _, _, _, hc, hs, hs', rfl, rfl,
    sections_apart hc hhome 0 1 _ _ _ _ (by decide) hs hs' rfl rfl⟩

end Cme.Daemon
