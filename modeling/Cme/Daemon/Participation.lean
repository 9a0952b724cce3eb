import Cme.Daemon.Words
import Cme.Interleave.Rely

/-!
# Daemon — which domains a node is in, and why

A node is in a domain of the region because somebody here joined it (`joined_`) or
because its entry holds a turn. The region lets the last participant of a domain only
delete it, so a node that is alone in a domain may have to stay.

`World` is one node with the other participants of the region's domains. What `libcme`
answers depends on them: a leave is refused to the last participant, a delete to every
other one (`permits`). `Accounts` is what the argument is about, and `Settled` is what
holds of a domain whenever nothing is in progress on its slot.
-/

namespace Cme.Daemon.Participation

open Function Interleave

/-! ### The node among others -/

structure World where
  node : State
  /-- Another node is in the domain. -/
  others : DomainId → Bool
  /-- History: the domain a `create` has entered and not counted, or whose turn a
  `remove` has given back before the region has answered its delete. -/
  moving : Option DomainId

/-- The region refuses a leave to the last participant, and to a holder. -/
def World.refuses (w : World) (id : DomainId) : Bool :=
  !w.node.region.participates id || !w.others id || (w.node.turns.guard id).isSome

/-- The outcomes the region allows. -/
def permits (lim : Limits) (o : Op) (ch : Choice) (w : World) : Bool :=
  match o, ch with
  | .leaveByName text, .refused _ =>
    match w.node.region.resolve lim.domainCount text with
    | none => true
    | some id => w.refuses id
  | .leaveByHandle handle, .refused _ =>
    !w.node.region.names handle || w.refuses handle.id
  | .deleteDomain text, .any =>
    match w.node.region.resolve lim.domainCount text with
    | none => true
    | some id => !w.others id
  | .deleteDomain text, .refused .unknownDomain =>
    (w.node.region.resolve lim.domainCount text).isNone
  | _, _ => true

/-- Where a command of the control thread has this node between two domains' books. -/
def movingAfter : (o : Op) → Ret o → World → Option DomainId
  | .createDomain _, .ok created, _ => some created.id
  | .joinDomain _, .ok created, w =>
    if w.node.turns.counting created.id = some .control then w.moving else some created.id
  | .addJoin _, _, _ => none
  | .releaseTurn d, _, _ => some d
  | .deleteDomain _, _, _ => none
  | _, _, w => w.moving

def exec (lim : Limits) (t : Tid) (o : Op) (ch : Choice) (w : World) : Option (Ret o × World) :=
  if permits lim o ch w then
    (Daemon.exec lim t o ch w.node).map fun x => (x.1, { w with
      node := x.2
      moving := if t = .control then movingAfter o x.1 w else w.moving })
  else none

/-- What happens around the node. -/
inductive Event where
  | node (e : Env)
  | joinElsewhere (d : DomainId)
  | leaveElsewhere (d : DomainId)

def othersAfter (e : Env) (others : DomainId → Bool) : DomainId → Bool :=
  match e with
  | .die _ => others
  | .createElsewhere id _ => update others id true
  | .deleteElsewhere id => update others id false

/-- The last participant does not leave. -/
def env (lim : Limits) : Event → World → Option World
  | .node e, w => (Daemon.env lim e w.node).map fun s =>
      { w with node := s, others := othersAfter e w.others }
  | .joinElsewhere d, w =>
    if (w.node.region.name d).isSome then
      some { w with others := update w.others d true }
    else none
  | .leaveElsewhere d, w =>
    if w.node.region.participates d then
      some { w with others := update w.others d false }
    else none

def kills : Event → Tid → Bool
  | .node e, t => Daemon.kills e t
  | _, _ => false

def system (lim : Limits) : System Tid Op Ret World Choice Call Event where
  exec := exec lim
  start t call w := start lim t call w.node
  env := env lim
  kills := kills

def fresh : Config Tid Op Ret World where
  shared := ⟨Daemon.fresh.shared, fun _ => false, none⟩
  threads := Daemon.fresh.threads

variable {lim : Limits} {w w' : World}

theorem exec_node {t : Tid} {o : Op} {ch : Choice} {r : Ret o}
    (hx : exec lim t o ch w = some (r, w')) :
    permits lim o ch w = true ∧ Daemon.exec lim t o ch w.node = some (r, w'.node) ∧
      w'.others = w.others ∧
      w'.moving = if t = .control then movingAfter o r w else w.moving := by
  rw [exec] at hx
  split at hx
  · rename_i hpermits
    obtain ⟨⟨r', s'⟩, hs, ⟨⟩⟩ := Option.map_eq_some_iff.mp hx
    exact ⟨hpermits, hs, rfl, rfl⟩
  · cases hx

/-- The node runs as it does without the others in view. -/
theorem reachable_node {c : Config Tid Op Ret World} (h : (system lim).Reachable fresh c) :
    (Daemon.system lim).Reachable Daemon.fresh (c.map World.node) := by
  refine h.map World.node (fun _ _ _ _ _ _ hx => (exec_node hx).2.1) (fun _ _ _ _ hp => hp)
    fun e w w' he => ?_
  cases e with
  | node e =>
    obtain ⟨s, hs, rfl⟩ := Option.map_eq_some_iff.mp he
    exact .inl ⟨e, hs, fun _ => rfl⟩
  | joinElsewhere d =>
    obtain ⟨-, ⟨⟩⟩ := of_guard he
    exact .inr ⟨rfl, fun _ => rfl⟩
  | leaveElsewhere d =>
    obtain ⟨-, ⟨⟩⟩ := of_guard he
    exact .inr ⟨rfl, fun _ => rfl⟩

/-! ### The runs in which the books balance -/

/-- There is a reason to be in the domain without a turn. -/
def World.stays (w : World) (id : DomainId) : Bool :=
  decide (w.node.registry.joined id > 0) || !w.others id

/-- What `tryLockIfIdle` asks of a slot, access by access: the mutex is to be had, the
state is Idle, and nobody waits there. -/
def World.idleAt (w : World) (t : Tid) : Op → Bool
  | .tryLock d _ => ((w.node.turns.mutex d).acquire t).isSome
  | .loadState d => decide (w.node.turns.state d = .idle)
  | .hasWaiters d => decide (w.node.requests.waiters d = 0)
  | _ => true

/-- Every call reaches the domain of its own slot. A create that finds its slot Broken,
or Live under another name, finds it idle, and so publishes; a refresh may leave one it
finds busy Broken. A lock of a grant fails, and a delete is refused, only where this node
has joined the domain or is alone in it. Nobody enters a domain whose delete is being
finished, and `joined_` stays within its 32 bits. -/
def calm (lim : Limits) (t : Tid) (o : Op) (ch : Choice) (w : World) : Bool :=
  match o, ch with
  | .createDomain _, .domain (some id) => decide (id < lim.maxDomains)
  | .joinDomain text, .any =>
    match w.node.region.resolve lim.domainCount text with
    | none => true
    | some id => decide (w.node.turns.counting id = some t ∨ t = .control ∧ id < lim.maxDomains)
  | .addJoin d, _ => decide ((w.moving = none ∨ w.moving = some d) ∧
      w.node.registry.joined d + 1 < 2 ^ 32)
  -- between its two entries the control thread reads these only in a create's claim
  | .tryLock .., _ | .loadState _, _ | .hasWaiters _, _ =>
    t != .control || w.moving.isNone || w.idleAt t o
  | .lock handle, .any => w.node.region.names handle || w.stays handle.id
  | .lock handle, _ => w.stays handle.id
  | .deleteDomain text, .any =>
    match w.moving with
    | none => true
    | some d =>
      match w.node.region.resolve lim.domainCount text with
      | none => !w.node.region.participates d
      | some id => decide (id = d)
  | .deleteDomain _, .refused .unknownDomain =>
    match w.moving with
    | none => true
    | some d => !w.node.region.participates d
  | .deleteDomain _, _ =>
    match w.moving with
    | none => true
    | some d => w.stays d
  | .leaveByName text, _ =>
    match w.node.region.resolve lim.domainCount text with
    | none => false
    | some id => decide (w.node.turns.counting id = some t)
  | .leaveByHandle handle, _ =>
    w.node.region.names handle || !w.node.region.participates handle.id
  | .clearJoins d, _ => !w.node.region.participates d
  | _, _ => true

/-- No other node joins a domain this node is in for no reason of its own. -/
def calmEvent (e : Event) (w : World) : Bool :=
  match e with
  | .joinElsewhere d => !w.node.region.participates d ||
      decide (w.node.registry.joined d > 0) || (w.node.turns.guard d).isSome
  | _ => true

def calmSystem (lim : Limits) : System Tid Op Ret World Choice Call Event :=
  { (system lim).restrict (calm lim) with
    env := fun e w => if calmEvent e w then env lim e w else none }

theorem exec_calm {t : Tid} {o : Op} {ch : Choice} {r : Ret o}
    (hx : (calmSystem lim).exec t o ch w = some (r, w')) :
    calm lim t o ch w = true ∧ exec lim t o ch w = some (r, w') := by
  have hx' : ((system lim).restrict (calm lim)).exec t o ch w = some (r, w') := hx
  exact System.restrict_exec.mp hx'

theorem env_calm {e : Event} (he : (calmSystem lim).env e w = some w') :
    calmEvent e w = true ∧ env lim e w = some w' := by
  replace he : (if calmEvent e w then env lim e w else none) = some w' := he
  split at he
  · exact ⟨‹_›, he⟩
  · cases he

theorem reachable_of_calm {c₀ c : Config Tid Op Ret World} (h : (calmSystem lim).Reachable c₀ c) :
    (system lim).Reachable c₀ c := by
  have hstart : ∀ t call w p, (calmSystem lim).start t call w = some p →
      (system lim).start t call w = some p := fun _ _ _ _ hp => hp
  exact h.map (fun w => w) (fun _ _ _ _ _ _ hx => (exec_calm hx).2) hstart
    fun e _ _ he => .inl ⟨e, (env_calm he).2, fun _ => rfl⟩

/-! ### The accounts -/

/-- What says that a node is in a domain, and why. -/
structure Accounts where
  participates : DomainId → Bool
  joined : DomainId → Nat
  turn : DomainId → Bool
  resolved : DomainId → Handle
  counting : DomainId → Option Tid
  named : DomainId → Bool
  generation : DomainId → Nat
  others : DomainId → Bool
  moving : Option DomainId

def World.accounts (w : World) : Accounts where
  participates := w.node.region.participates
  joined := w.node.registry.joined
  turn d := (w.node.turns.guard d).isSome
  resolved := w.node.registry.resolved
  counting := w.node.turns.counting
  named d := (w.node.region.name d).isSome
  generation := w.node.region.generation
  others := w.others
  moving := w.moving

namespace Accounts

/-- Who is in the domain has a reason, or is on the way. -/
def Settled (a : Accounts) (d : DomainId) : Prop :=
  a.participates d = true →
    a.moving = some d ∨ a.joined d > 0 ∨ a.turn d = true ∨ a.others d = false

/-- The handle a turn was taken with is one of this slot's domain. -/
def Handled (a : Accounts) (d : DomainId) : Prop :=
  (a.resolved d).id = d ∧ (a.resolved d).incarnation ≠ 0

/-- A thread's mode is the entry it holds. -/
structure Inv (a : Accounts) (μ : Tid → Option DomainId) : Prop where
  counting : ∀ t d, a.counting d = some t ↔ μ t = some d
  settled : ∀ d, a.counting d = none → a.Settled d
  named : ∀ d, a.participates d = true → a.named d = true
  generation : ∀ d, a.named d = true → a.generation d ≠ 0
  turns : ∀ d, a.turn d = true → a.Handled d

/-- Nobody else touches the books of an entry that is held, and whoever changes who is
in its domain leaves it settled. -/
structure Relies (t : Tid) (v : Option DomainId) (a a' : Accounts) : Prop where
  moving : t = .control → a'.moving = a.moving
  joined : ∀ d, v = some d → a'.joined d = a.joined d
  turn : ∀ d, v = some d → a'.turn d = a.turn d
  resolved : ∀ d, v = some d → a'.resolved d = a.resolved d
  settled : ∀ d, v = some d → a.Settled d → a'.Settled d

theorem Relies.refl (t : Tid) (v : Option DomainId) (a : Accounts) : Relies t v a a :=
  ⟨fun _ => rfl, fun _ _ => rfl, fun _ _ => rfl, fun _ _ => rfl, fun _ _ h => h⟩

variable {a a' : Accounts} {μ : Tid → Option DomainId} {t j : Tid} {d e : DomainId}

theorem Inv.ne_of_ne (h : Inv a μ) (hd : μ t = some d) (he : μ j = some e) (hj : j ≠ t) :
    e ≠ d := by
  rintro rfl
  have ht := (h.counting t e).mpr hd
  rw [(h.counting j e).mpr he] at ht
  exact hj (Option.some.inj ht)

/-- A step on the books of one entry. -/
structure Within (d : DomainId) (a a' : Accounts) : Prop where
  counting : a'.counting = a.counting
  others : a'.others = a.others
  participates : ∀ e, e ≠ d → a'.participates e = a.participates e
  joined : ∀ e, e ≠ d → a'.joined e = a.joined e
  turn : ∀ e, e ≠ d → a'.turn e = a.turn e
  resolved : ∀ e, e ≠ d → a'.resolved e = a.resolved e
  named : ∀ e, a'.named e = a.named e
  generation : ∀ e, a'.generation e = a.generation e
  moving : ∀ e, e ≠ d → a.moving = some e → a'.moving = some e

theorem Within.settled (h : Within d a a') (he : e ≠ d) (hs : a.Settled e) : a'.Settled e := by
  intro hp
  rw [h.participates e he] at hp
  rw [h.joined e he, h.turn e he, h.others]
  exact (hs hp).imp_left (h.moving e he)

theorem Inv.within (hI : Inv a μ) (hμ : μ t = some d) (h : Within d a a')
    (hnamed : a'.participates d = true → a.named d = true)
    (hturn : a'.turn d = true → a'.Handled d) : Inv a' μ where
  counting u e := by
    rw [h.counting]
    exact hI.counting u e
  settled e he := by
    rw [h.counting] at he
    have hne : e ≠ d := by
      rintro rfl
      rw [(hI.counting t e).mpr hμ] at he
      cases he
    exact h.settled hne (hI.settled e he)
  named e he := by
    rw [h.named]
    by_cases hed : e = d
    · subst hed
      exact hnamed he
    · rw [h.participates e hed] at he
      exact hI.named e he
  generation e he := by
    rw [h.named] at he
    rw [h.generation]
    exact hI.generation e he
  turns e he := by
    by_cases hed : e = d
    · subst hed
      exact hturn he
    · rw [h.turn e hed] at he
      rw [Handled, h.resolved e hed]
      exact hI.turns e he

theorem Within.relies (h : Within d a a') (hI : Inv a μ) (hμ : μ t = some d)
    (hmoving : t ≠ .control → a'.moving = a.moving) (hj : j ≠ t) : Relies j (μ j) a a' where
  moving hc := hmoving fun ht => hj (hc.trans ht.symm)
  joined e he := h.joined e (hI.ne_of_ne hμ he hj)
  turn e he := h.turn e (hI.ne_of_ne hμ he hj)
  resolved e he := h.resolved e (hI.ne_of_ne hμ he hj)
  settled _ he := h.settled (hI.ne_of_ne hμ he hj)

/-- A step on no entry's books, after which every domain is as settled as before. -/
structure Beside (a a' : Accounts) : Prop where
  counting : a'.counting = a.counting
  joined : a'.joined = a.joined
  turn : a'.turn = a.turn
  resolved : a'.resolved = a.resolved
  settled : ∀ e, a.Settled e → a'.Settled e
  named : ∀ e, (a.participates e = true → a.named e = true) →
    a'.participates e = true → a'.named e = true
  generation : ∀ e, (a.named e = true → a.generation e ≠ 0) →
    a'.named e = true → a'.generation e ≠ 0

theorem Inv.beside (hI : Inv a μ) (h : Beside a a') : Inv a' μ where
  counting u e := by
    rw [h.counting]
    exact hI.counting u e
  settled e he := h.settled e (hI.settled e (h.counting ▸ he))
  named e := h.named e (hI.named e)
  generation e := h.generation e (hI.generation e)
  turns e he := by
    rw [h.turn] at he
    rw [Handled, h.resolved]
    exact hI.turns e he

theorem Beside.relies (h : Beside a a') (v : Option DomainId)
    (hmoving : j = .control → a'.moving = a.moving) : Relies j v a a' :=
  ⟨hmoving, fun _ _ => by rw [h.joined], fun _ _ => by rw [h.turn], fun _ _ => by rw [h.resolved],
    fun e _ => h.settled e⟩

/-- Who is in one domain changes, and with it perhaps its record; the control thread may
enter it, or settle it where it is between two entries. -/
theorem Beside.near (hm : ∀ e, e ≠ d → a.moving = some e → a'.moving = some e)
    (hcounting : a'.counting = a.counting) (hjoined : a'.joined = a.joined)
    (hturn : a'.turn = a.turn) (hresolved : a'.resolved = a.resolved)
    (hothers : ∀ e, e ≠ d → a'.others e = a.others e)
    (hparticipates : ∀ e, e ≠ d → a'.participates e = a.participates e)
    (hnamed : ∀ e, e ≠ d → a'.named e = a.named e)
    (hgeneration : ∀ e, e ≠ d → a'.generation e = a.generation e)
    (hsettled : a.Settled d → a'.Settled d)
    (hnamed' : (a.participates d = true → a.named d = true) →
      a'.participates d = true → a'.named d = true)
    (hgeneration' : (a.named d = true → a.generation d ≠ 0) →
      a'.named d = true → a'.generation d ≠ 0) : Beside a a' where
  counting := hcounting
  joined := hjoined
  turn := hturn
  resolved := hresolved
  settled e hs := by
    by_cases he : e = d
    · subst he
      exact hsettled hs
    · intro hp
      rw [hparticipates e he] at hp
      rw [hjoined, hturn, hothers e he]
      exact (hs hp).imp_left (hm e he)
  named e h hp := by
    by_cases he : e = d
    · subst he
      exact hnamed' h hp
    · rw [hnamed e he]
      exact h (hparticipates e he ▸ hp)
  generation e h hn := by
    by_cases he : e = d
    · subst he
      exact hgeneration' h hn
    · rw [hgeneration e he]
      exact h (hnamed e he ▸ hn)

/-- An entry is taken or given back. -/
def setCounting (a : Accounts) (d : DomainId) (c : Option Tid) : Accounts :=
  { a with counting := update a.counting d c }

theorem relies_setCounting (j : Tid) (v : Option DomainId) (a : Accounts) (d : DomainId)
    (c : Option Tid) : Relies j v a (a.setCounting d c) :=
  ⟨fun _ => rfl, fun _ _ => rfl, fun _ _ => rfl, fun _ _ => rfl, fun _ _ h => h⟩

/-- The thread that takes an entry or gives it back says so. -/
theorem Inv.counting_update (hI : Inv a μ) {c : Option Tid} {v : Option DomainId}
    (hcv : c = some t ∧ v = some d ∨ c = none ∧ v = none) (ht : ∀ e, μ t = some e → e = d)
    (hd : ∀ u, a.counting d = some u → u = t) (u : Tid) (e : DomainId) :
    update a.counting d c e = some u ↔ update μ t v u = some e := by
  by_cases hu : u = t <;> by_cases he : e = d
  · subst hu he
    rw [update_self, update_self]
    obtain ⟨rfl, rfl⟩ | ⟨rfl, rfl⟩ := hcv <;> simp
  · subst hu
    rw [update_self, update_of_ne he]
    refine iff_of_false (fun hc => he (ht e ((hI.counting u e).mp hc))) ?_
    obtain ⟨-, rfl⟩ | ⟨-, rfl⟩ := hcv <;> simp [Ne.symm he]
  · subst he
    rw [update_self, update_of_ne hu]
    refine iff_of_false ?_ fun hc => hu (hd u ((hI.counting u e).mpr hc))
    obtain ⟨rfl, -⟩ | ⟨rfl, -⟩ := hcv <;> simp [Ne.symm hu]
  · rw [update_of_ne he, update_of_ne hu]
    exact hI.counting u e

theorem Inv.lock (hI : Inv a μ) (hμ : μ t = none) (hd : a.counting d = none) :
    Inv (a.setCounting d (some t)) (update μ t (some d)) := { hI with
  counting := hI.counting_update (.inl ⟨rfl, rfl⟩) (fun e he => nomatch hμ.symm.trans he)
    fun u hu => nomatch hd.symm.trans hu
  settled := fun e he => hI.settled e (of_update he (by simp)).2 }

theorem Inv.unlock (hI : Inv a μ) (hμ : μ t = some d) (hd : a.Settled d) :
    Inv (a.setCounting d none) (update μ t none) := { hI with
  counting := hI.counting_update (.inr ⟨rfl, rfl⟩)
    (fun e he => Option.some.inj (he.symm.trans hμ))
    fun u hu => Option.some.inj (hu.symm.trans ((hI.counting t d).mpr hμ))
  settled := fun e he => by
    replace he : update a.counting d none e = none := he
    by_cases hed : e = d
    · rw [hed]
      exact hd
    · rw [update_of_ne hed] at he
      exact hI.settled e he }

end Accounts

end Cme.Daemon.Participation
