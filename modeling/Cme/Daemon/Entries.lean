import Cme.Daemon.Participation
import Cme.Daemon.Tally

/-!
# Daemon — the books of an entry

Which accesses change the accounts of `Cme.Daemon.Participation`, and what a thread may
say after each of them. Whoever holds an entry answers for its domain, and gives the
entry back settled; the control thread also moves between two entries, in `create` and
in `remove`, and marks the domain as moving there.
-/

namespace Cme.Daemon.Participation

open Function Interleave

variable {lim : Limits} {t : Tid} {d : DomainId} {w w' : World}

/-! ### Accesses beside the books -/

/-- Accesses that change who is in a domain, or why. -/
def Op.books : Op → Bool
  | .lockCounting _ | .unlockCounting _ | .takeTurn _ _ _ | .releaseTurn _ | .addJoin _
  | .dropJoin _ | .clearJoins _ | .createDomain _ | .joinDomain _ | .deleteDomain _
  | .leaveByName _ | .leaveByHandle _ => true
  | _ => false

variable {o : Op} {ch : Choice} {r : Ret o}

theorem execTurns_books (ho : Op.books o = false) {s s' : Turns}
    (hx : execTurns t o ch s = some (r, s')) : s'.guard = s.guard ∧ s'.counting = s.counting := by
  cases execTurns_turned hx with
  | stored d next | entered d | unlocked d => cases t <;> exact ⟨rfl, rfl⟩
  | aside => exact ⟨rfl, rfl⟩
  | counting d | uncounting d | released d => cases ho

theorem execRegistry_books (ho : Op.books o = false) {s s' : Registry}
    (hx : execRegistry t o ch s = some (r, s')) :
    s'.joined = s.joined ∧ s'.resolved = s.resolved := by
  cases o
  case addJoin | dropJoin | clearJoins => cases ho
  case lockNaming =>
    rw [execRegistry] at hx
    obtain ⟨-, ⟨⟩⟩ := of_unless hx
    exact ⟨rfl, rfl⟩
  case clearId =>
    cases hx
    split <;> exact ⟨rfl, rfl⟩
  case isExpectedState | markState | getName | setName | turnHandle | unlockNaming | findId | setId =>
    cases hx
    exact ⟨rfl, rfl⟩
  all_goals cases hx

theorem execRegion_books {n : Nat} (ho : Op.books o = false) {s s' : Region}
    (hx : execRegion n o ch s = some (r, s')) :
    s'.name = s.name ∧ s'.generation = s.generation ∧ s'.participates = s.participates := by
  cases o
  case createDomain | joinDomain | deleteDomain | leaveByName | leaveByHandle => cases ho
  case lock handle =>
    cases ch with
    | any =>
      rw [execRegion] at hx
      split at hx
      all_goals
        cases hx
        exact ⟨rfl, rfl, rfl⟩
    | refused e =>
      cases hx
      exact ⟨rfl, rfl, rfl⟩
    | _ => cases hx
  case getRecord id =>
    cases ch with
    | any =>
      cases hx
      exact ⟨rfl, rfl, rfl⟩
    | refused e =>
      cases hx
      exact ⟨rfl, rfl, rfl⟩
    | _ => cases hx
  all_goals cases hx

variable {s s' : State}

theorem exec_books (ho : Op.books o = false) (hx : Daemon.exec lim t o ch s = some (r, s'))
    (others : DomainId → Bool) (moving : Option DomainId) :
    World.accounts ⟨s', others, moving⟩ = World.accounts ⟨s, others, moving⟩ := by
  cases exec_stepped hx with
  | turns _ h =>
    obtain ⟨hguard, hcounting⟩ := execTurns_books ho h
    simp only [World.accounts, hguard, hcounting]
  | registry h =>
    obtain ⟨hjoined, hresolved⟩ := execRegistry_books ho h
    simp only [World.accounts, hjoined, hresolved]
  | region h =>
    obtain ⟨hname, hgeneration, hparticipates⟩ := execRegion_books ho h
    simp only [World.accounts, hname, hgeneration, hparticipates]
  | took => cases ho
  | requests h | still => rfl

/-! ### The pact -/

open Accounts

def pact : Pact Tid World (Option DomainId) where
  inv w μ := w.accounts.Inv μ
  rely t v w w' := Relies t v w.accounts w'.accounts

theorem pact_inv (w : World) (μ : Tid → Option DomainId) : pact.inv w μ = w.accounts.Inv μ := rfl

/-- What a thread does, from `P` to `Q`, in the runs considered here. -/
abbrev Does (lim : Limits) (t : Tid) {α : Type} (P : Option DomainId → World → Prop) (p : Proc α)
    (Q : α → Option DomainId → World → Prop) : Prop := triple pact (calmSystem lim) t P p Q

theorem exec_beside (ho : Op.books o = false) (hx : (calmSystem lim).exec t o ch w = some (r, w')) :
    w'.accounts = w.accounts := by
  obtain ⟨-, hx⟩ := exec_calm hx
  obtain ⟨-, hx, hothers, hmoving⟩ := exec_node hx
  have hmoves : movingAfter o r w = w.moving := by
    cases o <;> first | rfl | cases ho
  rw [hmoves, ite_self] at hmoving
  obtain ⟨s', others', moving'⟩ := w'
  obtain rfl : others' = w.others := hothers
  obtain rfl : moving' = w.moving := hmoving
  exact exec_books ho hx _ _

variable {P : Option DomainId → World → Prop}

/-- Code beside the books keeps whatever is known. -/
theorem triple_beside {α : Type} {p : Proc α} (hp : p.Only fun o => Op.books o = false) :
    Does lim t P p fun _ => P := by
  refine triple_only hp fun o ho w μ hI _ ch r w' hx => ?_
  have hsame := exec_beside ho hx
  refine ⟨?_, fun j => ?_⟩
  · rw [pact_inv, hsame]
    exact hI
  · show Relies j (μ j) w.accounts w'.accounts
    rw [hsame]
    exact Relies.refl ..

theorem triple_plain {α : Type} {p : Proc α} (hp : Plain p) : Does lim t P p fun _ => P :=
  triple_beside (hp.mono fun o ho => by cases o <;> first | rfl | cases ho)

theorem triple_act (ho : Op.books o = false) : Does lim t P (act o) fun _ => P :=
  triple_beside (.perform ho)

/-! ### Facts -/

/-- A thread out of every entry, and where the control thread is. -/
def Out (t : Tid) (M : Option DomainId → Prop) (v : Option DomainId) (w : World) : Prop :=
  v = none ∧ (t = .control → M w.moving)

theorem Out.stable (t : Tid) (M : Option DomainId → Prop) (v : Option DomainId) :
    Stable (pact.rely t v) (Out t M v) := by
  rintro w w' h ⟨rfl, hM⟩
  refine ⟨rfl, fun hc => ?_⟩
  have hmoving : w'.moving = w.moving := h.moving hc
  rw [hmoving]
  exact hM hc

/-- A thread in an entry, and what it knows of its books. -/
def In (d : DomainId) (F : Accounts → Prop) (v : Option DomainId) (w : World) : Prop :=
  v = some d ∧ F w.accounts

/-- What the others leave true. -/
def Lasts (t : Tid) (d : DomainId) (F : Accounts → Prop) : Prop :=
  ∀ a a', Relies t (some d) a a' → F a → F a'

variable {F : Accounts → Prop}

theorem In.stable (hF : Lasts t d F) (v : Option DomainId) : Stable (pact.rely t v) (In d F v) := by
  rintro w w' h ⟨rfl, hw⟩
  exact ⟨rfl, hF _ _ h hw⟩

theorem lasts_settled : Lasts t d fun a => a.Settled d := fun _ _ h => h.settled d rfl

theorem lasts_handled : Lasts t d fun a => a.Handled d := by
  intro a a' h ha
  rw [Handled, h.resolved d rfl]
  exact ha

theorem lasts_turn (b : Bool) : Lasts t d fun a => a.turn d = b := by
  intro a a' h ha
  rw [h.turn d rfl]
  exact ha

theorem lasts_resolved (handle : Handle) : Lasts t d fun a => a.resolved d = handle := by
  intro a a' h ha
  rw [h.resolved d rfl]
  exact ha

theorem lasts_moving (M : Option DomainId → Prop) : Lasts t d fun a => t = .control → M a.moving := by
  intro a a' h ha hc
  rw [h.moving hc]
  exact ha hc

theorem lasts_const (p : Prop) : Lasts t d fun _ => p := fun _ _ _ h => h

theorem Lasts.and {F G : Accounts → Prop} (hF : Lasts t d F) (hG : Lasts t d G) :
    Lasts t d fun a => F a ∧ G a := fun a a' h ha => ⟨hF a a' h ha.1, hG a a' h ha.2⟩

/-! ### One access -/

theorem triple_learn (ho : Op.books o = false) {G : Ret o → Accounts → Prop}
    (hG : ∀ r, Lasts t d (G r))
    (h : ∀ w μ, w.accounts.Inv μ → F w.accounts → ∀ ch r s', calm lim t o ch w = true →
      Daemon.exec lim t o ch w.node = some (r, s') → G r w.accounts) :
    Does lim t (In d F) (act o) fun r => In d (G r) := by
  refine .perform fun w μ hI hP ch r w' hx => ?_
  have hsame := exec_beside ho hx
  obtain ⟨hcalm, hx'⟩ := exec_calm hx
  refine ⟨some d, ?_, ⟨rfl, ?_⟩, In.stable (hG r) _, fun j _ => ?_⟩
  · rw [pact_inv, hsame, ← hP.1, update_eq_self]
    exact hI
  · rw [hsame]
    exact h w μ hI hP.2 ch r _ hcalm (exec_node hx').2.1
  · show Relies j (μ j) w.accounts w'.accounts
    rw [hsame]
    exact Relies.refl ..

/-- The world after an access. -/
def World.after (w : World) (t : Tid) (o : Op) (r : Ret o) (s' : State) : World :=
  ⟨s', w.others, if t = .control then movingAfter o r w else w.moving⟩

theorem exec_after (hx : (calmSystem lim).exec t o ch w = some (r, w')) :
    ∃ s', w' = w.after t o r s' ∧ calm lim t o ch w = true ∧ permits lim o ch w = true ∧
      Daemon.exec lim t o ch w.node = some (r, s') := by
  obtain ⟨hcalm, hx⟩ := exec_calm hx
  obtain ⟨hpermits, hnode, hothers, hmoving⟩ := exec_node hx
  refine ⟨w'.node, ?_, hcalm, hpermits, hnode⟩
  rw [World.after, ← hothers, ← hmoving]

/-- A change to the books of the entry the thread is in. -/
theorem triple_entry {G : Ret o → Accounts → Prop} (hG : ∀ r, Lasts t d (G r))
    (h : ∀ w μ, w.accounts.Inv μ → μ t = some d → F w.accounts → ∀ ch r s',
      calm lim t o ch w = true → permits lim o ch w = true →
      Daemon.exec lim t o ch w.node = some (r, s') →
      Within d w.accounts (w.after t o r s').accounts ∧
        ((w.after t o r s').accounts.participates d = true → w.accounts.named d = true) ∧
        ((w.after t o r s').accounts.turn d = true → (w.after t o r s').accounts.Handled d) ∧
        G r (w.after t o r s').accounts) :
    Does lim t (In d F) (act o) fun r => In d (G r) := by
  refine .perform fun w μ hI hP ch r w' hx => ?_
  obtain ⟨s', rfl, hcalm, hpermits, hnode⟩ := exec_after hx
  obtain ⟨hwithin, hnamed, hturn, hG'⟩ := h w μ hI hP.1 hP.2 ch r s' hcalm hpermits hnode
  refine ⟨some d, ?_, ⟨rfl, hG'⟩, In.stable (hG r) _, fun j hj => ?_⟩
  · rw [← hP.1, update_eq_self]
    exact hI.within hP.1 hwithin hnamed hturn
  · exact hwithin.relies hI hP.1 (fun hc => if_neg hc) hj

/-! ### An entry -/

theorem triple_lockCounting {M : Option DomainId → Prop} (d : DomainId) :
    Does lim t (Out t M) (act (.lockCounting d))
      fun _ => In d fun a => a.Settled d ∧ (t = .control → M a.moving) := by
  refine .perform fun w μ hI hP ch r w' hx => ?_
  obtain ⟨s', rfl, -, -, hnode⟩ := exec_after hx
  obtain ⟨hnone, rfl⟩ := exec_lockCounting lim hnode
  have hacc : (w.after t (.lockCounting d) () { w.node with turns := { w.node.turns with
      counting := update w.node.turns.counting d (some t) } }).accounts =
      w.accounts.setCounting d (some t) := by
    simp [World.after, World.accounts, Accounts.setCounting, movingAfter]
  refine ⟨some d, ?_, ⟨rfl, ?_⟩,
    In.stable (lasts_settled.and (lasts_moving M)) _, fun j _ => ?_⟩
  · rw [pact_inv, hacc]
    exact hI.lock hP.1 hnone
  · rw [hacc]
    exact ⟨hI.settled d hnone, hP.2⟩
  · show Relies j (μ j) w.accounts _
    rw [hacc]
    exact relies_setCounting ..

theorem triple_unlockCounting {M : Option DomainId → Prop} (d : DomainId) :
    Does lim t (In d fun a => a.Settled d ∧ (t = .control → M a.moving))
      (act (.unlockCounting d)) fun _ => Out t M := by
  refine .perform fun w μ hI hP ch r w' hx => ?_
  obtain ⟨s', rfl, -, -, hnode⟩ := exec_after hx
  cases hnode
  have hacc : (w.after t (.unlockCounting d) () { w.node with turns := { w.node.turns with
      counting := update w.node.turns.counting d none } }).accounts =
      w.accounts.setCounting d none := by
    simp [World.after, World.accounts, Accounts.setCounting, movingAfter]
  have hmoving := congrArg Accounts.moving hacc
  refine ⟨none, ?_, ⟨rfl, fun hc => ?_⟩, Out.stable t M _, fun j _ => ?_⟩
  · rw [pact_inv, hacc]
    exact hI.unlock hP.1 hP.2.1
  · exact (congrArg M hmoving).mpr (hP.2.2 hc)
  · show Relies j (μ j) w.accounts _
    rw [hacc]
    exact relies_setCounting ..

theorem within_of {w w' : World} (hcounting : w'.node.turns.counting = w.node.turns.counting)
    (hothers : w'.others = w.others)
    (hparticipates : ∀ e, e ≠ d → w'.node.region.participates e = w.node.region.participates e)
    (hjoined : ∀ e, e ≠ d → w'.node.registry.joined e = w.node.registry.joined e)
    (hguard : ∀ e, e ≠ d → w'.node.turns.guard e = w.node.turns.guard e)
    (hresolved : ∀ e, e ≠ d → w'.node.registry.resolved e = w.node.registry.resolved e)
    (hname : w'.node.region.name = w.node.region.name)
    (hgeneration : w'.node.region.generation = w.node.region.generation)
    (hmoving : ∀ e, e ≠ d → w.moving = some e → w'.moving = some e) :
    Within d w.accounts w'.accounts :=
  ⟨hcounting, hothers, hparticipates, hjoined, fun e he => congrArg Option.isSome (hguard e he),
    hresolved, fun e => congrArg (fun name => (name e).isSome) hname,
    fun e => congrFun hgeneration e, hmoving⟩

theorem after_moving (ht : t ≠ .control) (w : World) (o : Op) (r : Ret o) (s' : State) :
    (w.after t o r s').moving = w.moving := if_neg ht

/-! ### A turn -/

theorem triple_hasTurn : Does lim t (In d fun a => a.Settled d)
    (act (.hasTurn d)) fun holds => In d fun a => a.Settled d ∧ (holds = true → a.Handled d) := by
  refine triple_learn rfl (fun r a a' h ha => ⟨h.settled d rfl ha.1, fun hr => ?_⟩)
    fun w μ hI hs ch r s' _ hx => ⟨hs, fun hr => ?_⟩
  · exact lasts_handled a a' h (ha.2 hr)
  · obtain ⟨rfl, -⟩ := outcome_eq hx
    exact hI.turns d hr

variable {handle : Handle}

theorem triple_takeTurn (ht : t ≠ .control) (hid : handle.id = d) (hinc : handle.incarnation ≠ 0)
    (taken : Turn) : Does lim t (In d F) (act (.takeTurn d taken handle))
      fun _ => In d fun a => a.Settled d := by
  refine triple_entry (fun _ => lasts_settled) fun w μ hI hμ _ ch r s' _ _ hx => ?_
  cases hx
  have hturn : update w.node.turns.guard d (some taken) d = some taken :=
    update_self ..
  refine ⟨within_of rfl rfl (fun _ _ => rfl) (fun _ _ => rfl)
    (fun e he => update_of_ne he ..) (fun e he => update_of_ne he ..) rfl rfl
    fun e _ he => (after_moving ht ..).trans he, fun hp => hI.named d hp, fun _ => ?_, fun _ => ?_⟩
  · show (update w.node.registry.resolved d handle d).id = d ∧
      (update w.node.registry.resolved d handle d).incarnation ≠ 0
    rw [update_self]
    exact ⟨hid, hinc⟩
  · exact .inr (.inr (.inl (congrArg Option.isSome hturn)))

theorem triple_releaseTurn (ht : t ≠ .control) :
    Does lim t (In d fun a => a.Handled d) (act (.releaseTurn d))
      fun _ => In d fun a => a.Handled d ∧ a.turn d = false := by
  refine triple_entry (fun _ => lasts_handled.and (lasts_turn false))
    fun w μ hI hμ hs ch r s' _ _ hx => ?_
  cases hx
  have hturn : (update w.node.turns.guard d none d).isSome = false := by
    rw [update_self]
    rfl
  refine ⟨within_of rfl rfl (fun _ _ => rfl) (fun _ _ => rfl)
    (fun e he => update_of_ne he ..) (fun _ _ => rfl) rfl rfl
    fun e _ he => (after_moving ht ..).trans he, fun hp => hI.named d hp, fun hc => ?_, hs, hturn⟩
  cases hturn.symm.trans hc

theorem triple_keepsParticipation (hF : Lasts t d F) :
    Does lim t (In d F) (act (.keepsParticipation d)) fun keeps =>
      In d fun a => F a ∧ (if keeps then a.Settled d else a.turn d = false) := by
  refine triple_learn rfl (fun keeps => hF.and ?_) fun w μ hI hs ch keeps s' _ hx => ⟨hs, ?_⟩
  · cases keeps
    · exact lasts_turn false
    · exact lasts_settled
  · obtain ⟨rfl, -⟩ := outcome_eq hx
    split
    · rename_i hkeeps
      rw [Bool.or_eq_true, decide_eq_true_eq] at hkeeps
      exact fun _ => .inr (hkeeps.imp_right .inl)
    · rename_i hkeeps
      rw [Bool.or_eq_true, not_or] at hkeeps
      exact Bool.eq_false_iff.mpr hkeeps.2

theorem triple_turnHandle (hF : Lasts t d F) : Does lim t (In d F) (act (.turnHandle d))
      fun handle => In d fun a => F a ∧ a.resolved d = handle := by
  refine triple_learn rfl (fun handle => hF.and (lasts_resolved handle))
    fun w μ hI hs ch handle s' _ hx => ⟨hs, ?_⟩
  obtain ⟨rfl, -⟩ := outcome_eq hx
  rfl

/-! ### The region, from an entry -/

theorem settled_of_refuses {w : World} (h : w.refuses d = true)
    (hturn : w.accounts.turn d = false) :
    w.accounts.Settled d := by
  intro hp
  rw [World.refuses, Bool.or_eq_true, Bool.or_eq_true] at h
  rcases h with (h | h) | h
  · have hp' : w.node.region.participates d = true := hp
    rw [hp'] at h
    cases h
  · have hothers : w.others d = false := by simpa using h
    exact .inr (.inr (.inr hothers))
  · have hturn' : (w.node.turns.guard d).isSome = false := hturn
    rw [hturn'] at h
    cases h

theorem within_refl (w : World) (hmoving : (w.after t o r w.node).moving = w.moving) :
    Within d w.accounts (w.after t o r w.node).accounts :=
  within_of rfl rfl (fun _ _ => rfl) (fun _ _ => rfl) (fun _ _ => rfl) (fun _ _ => rfl) rfl rfl
    fun _ _ he => hmoving.trans he

/-- The node goes into the domain of its entry, or out of it. -/
theorem within_participates {w : World} {b : Bool} {s' : State}
    (hs' : s' = { w.node with region := { w.node.region with
      participates := update w.node.region.participates d b } })
    (hmoving : (w.after t o r s').moving = w.moving) :
    Within d w.accounts (w.after t o r s').accounts := by
  subst hs'
  exact within_of rfl rfl (fun e he => update_of_ne he ..) (fun _ _ => rfl)
    (fun _ _ => rfl) (fun _ _ => rfl) rfl rfl fun _ _ he => hmoving.trans he

theorem handled_after {μ : Tid → Option DomainId} {s' : State} (hI : w.accounts.Inv μ)
    (hturns : s'.turns = w.node.turns) (hresolved : s'.registry.resolved = w.node.registry.resolved)
    (h : (w.after t o r s').accounts.turn d = true) : (w.after t o r s').accounts.Handled d := by
  replace h : (s'.turns.guard d).isSome = true := h
  rw [hturns] at h
  show (s'.registry.resolved d).id = d ∧ (s'.registry.resolved d).incarnation ≠ 0
  rw [hresolved]
  exact hI.turns d h

theorem settled_of_out {a : Accounts} (h : a.participates d = false) : a.Settled d := by
  intro hp
  rw [h] at hp
  cases hp

theorem settled_after {w : World} (h : w.accounts.Settled d)
    (hmoving : (w.after t o r w.node).moving = w.moving) :
    (w.after t o r w.node).accounts.Settled d := by
  intro hp
  rcases h hp with hm | h
  · exact .inl (hmoving.trans hm)
  · exact .inr h

theorem triple_leaveByHandle (ht : t ≠ .control) (hid : handle.id = d) :
    Does lim t (In d fun a => a.turn d = false) (act (.leaveByHandle handle))
      fun _ => In d fun a => a.Settled d := by
  refine triple_entry (fun _ => lasts_settled) fun w μ hI hμ hturn ch r s' hcalm hpermits hx => ?_
  subst hid
  cases ch with
  | any =>
    replace hx : ((if w.node.region.names handle then some ((), { w.node.region with
      participates := update w.node.region.participates handle.id false })
      else some ((), w.node.region)).map fun x => (x.1, { w.node with region := x.2 })) =
        some (r, s') := hx
    split at hx
    · cases hx
      have hout : update w.node.region.participates handle.id false handle.id = false :=
        update_self ..
      exact ⟨within_participates rfl (after_moving ht ..),
        fun hp => absurd (hout.symm.trans hp) Bool.false_ne_true, handled_after hI rfl rfl,
        settled_of_out hout⟩
    · rename_i hnames
      cases hx
      replace hcalm : (w.node.region.names handle || !w.node.region.participates handle.id) = true :=
        hcalm
      have hout : w.node.region.participates handle.id = false := by simpa [hnames] using hcalm
      exact ⟨within_refl w (after_moving ht ..), fun hp => hI.named _ hp, handled_after hI rfl rfl,
        settled_of_out hout⟩
  | refused e =>
    cases hx
    refine ⟨within_refl w (after_moving ht ..), fun hp => hI.named _ hp, handled_after hI rfl rfl,
      settled_after ?_ (after_moving ht ..)⟩
    replace hcalm : (w.node.region.names handle || !w.node.region.participates handle.id) = true :=
      hcalm
    replace hpermits : (!w.node.region.names handle || w.refuses handle.id) = true := hpermits
    cases hnames : w.node.region.names handle with
    | false =>
      rw [hnames, Bool.false_or, Bool.not_eq_true'] at hcalm
      exact settled_of_out hcalm
    | true =>
      rw [hnames, Bool.not_true, Bool.false_or] at hpermits
      exact settled_of_refuses hpermits hturn
  | _ => cases hx

variable {text : Text}

theorem join_outcome {r : Except RegionError Handle}
    (hx : Daemon.exec lim t (.joinDomain text) ch s = some (r, s')) : (∃ e, r = .error e ∧ s' = s) ∨
      ∃ id, ch = .any ∧ s.region.resolve lim.domainCount text = some id ∧
        r = .ok ⟨id, s.region.generation id⟩ ∧ s' = { s with region := { s.region with
          participates := update s.region.participates id true } } := by
  cases ch with
  | refused e =>
    cases hx
    exact .inl ⟨e, rfl, rfl⟩
  | any =>
    obtain ⟨⟨a, g⟩, hg, ⟨⟩⟩ := Option.map_eq_some_iff.mp hx
    rw [execRegion] at hg
    split at hg
    · cases hg
      exact .inl ⟨.unknownDomain, rfl, rfl⟩
    · rename_i id hid
      cases hg
      exact .inr ⟨id, rfl, hid, rfl, rfl⟩
  | _ => cases hx

theorem named_of_resolve {id : DomainId}
    (h : w.node.region.resolve lim.domainCount text = some id) :
    w.accounts.named id = true := by
  show (w.node.region.name id).isSome = true
  rw [resolve_eq_some h]
  rfl

theorem triple_grantJoin (ht : t ≠ .control) (text : Text) :
    Does lim t (In d fun a => a.Settled d) (act (.joinDomain text))
      fun joined => In d fun a => match joined with
        | .error _ => a.Settled d
        | .ok handle => handle.id = d ∧ handle.incarnation ≠ 0 := by
  refine triple_entry (fun joined => ?_) fun w μ hI hμ hs ch r s' hcalm _ hx => ?_
  · cases joined
    · exact lasts_settled
    · exact lasts_const _
  · rcases join_outcome hx with ⟨e, rfl, rfl⟩ | ⟨id, rfl, hid, rfl, rfl⟩
    · exact ⟨within_refl w (after_moving ht ..), fun hp => hI.named _ hp, handled_after hI rfl rfl,
        settled_after hs (after_moving ht ..)⟩
    · -- The entry it holds is the domain's.
      rw [calm, hid] at hcalm
      have hown := (of_decide_eq_true hcalm).resolve_right fun h => ht h.1
      obtain rfl : d = id := Option.some.inj (hμ.symm.trans ((hI.counting t id).mp hown))
      have hname := named_of_resolve hid
      exact ⟨within_participates rfl (after_moving ht ..), fun _ => hname, handled_after hI rfl rfl,
        rfl, hI.generation d hname⟩

theorem reason_of_stays (h : w.stays d = true) :
    w.accounts.joined d > 0 ∨ w.accounts.turn d = true ∨ w.accounts.others d = false := by
  rw [World.stays, Bool.or_eq_true, decide_eq_true_eq, Bool.not_eq_true'] at h
  exact h.imp_right .inr

theorem triple_grantLock (hid : handle.id = d) :
    Does lim t (In d fun _ => True) (act (.lock handle)) fun locked =>
      In d fun a => match locked with
        | .error _ => a.Settled d
        | .ok _ => True := by
  refine triple_learn rfl (fun locked => ?_) fun w μ hI _ ch r s' hcalm hx => ?_
  · cases locked
    · exact lasts_settled
    · exact lasts_const _
  · subst hid
    cases ch with
    | any =>
      replace hcalm : (w.node.region.names handle || w.stays handle.id) = true := hcalm
      obtain ⟨⟨a, g⟩, hg, ⟨⟩⟩ := Option.map_eq_some_iff.mp hx
      rw [execRegion] at hg
      split at hg
      · obtain ⟨rfl, -⟩ := outcome_eq hg
        trivial
      · rename_i hnames
        obtain ⟨rfl, -⟩ := outcome_eq hg
        exact fun _ => .inr (reason_of_stays (by simpa [hnames] using hcalm))
    | refused e =>
      obtain ⟨rfl, -⟩ := outcome_eq hx
      exact fun _ => .inr (reason_of_stays hcalm)
    | _ => cases hx

/-! ### The control thread -/

/-- In an entry, between no two. -/
abbrev Here (F : Accounts → Prop) (a : Accounts) : Prop :=
  F a ∧ (Tid.control = .control → a.moving = none)

theorem lasts_here (hF : Lasts .control d F) : Lasts .control d (Here F) :=
  hF.and (lasts_moving fun m => m = none)

theorem triple_step {Q : Ret o → Option DomainId → World → Prop}
    (hQ : ∀ r v, Stable (pact.rely .control v) (Q r v))
    (h : ∀ w μ, w.accounts.Inv μ → P (μ .control) w → ∀ ch r s',
      calm lim .control o ch w = true → permits lim o ch w = true →
      Daemon.exec lim .control o ch w.node = some (r, s') →
      Beside w.accounts (w.after .control o r s').accounts ∧
        Q r (μ .control) (w.after .control o r s')) :
    Does lim .control P (act o) Q := by
  refine .perform fun w μ hI hP ch r w' hx => ?_
  obtain ⟨s', rfl, hcalm, hpermits, hnode⟩ := exec_after hx
  obtain ⟨hbeside, hQ'⟩ := h w μ hI hP ch r s' hcalm hpermits hnode
  refine ⟨μ .control, ?_, hQ', hQ r _, fun j hj => ?_⟩
  · rw [update_eq_self]
    exact hI.beside hbeside
  · exact hbeside.relies _ fun hc => absurd hc hj

theorem triple_addJoin (d : DomainId) : Does lim .control (In d F) (act (.addJoin d))
      fun _ => In d (Here fun a => a.Settled d) := by
  refine triple_entry (fun _ => lasts_here lasts_settled) fun w μ hI hμ _ ch r s' hcalm _ hx => ?_
  cases hx
  obtain ⟨hmoving, -⟩ : (w.moving = none ∨ w.moving = some d) ∧
    w.node.registry.joined d + 1 < 2 ^ 32 := of_decide_eq_true hcalm
  have hjoined : update w.node.registry.joined d (w.node.registry.joined d + 1) d > 0 := by
    rw [update_self]
    exact Nat.succ_pos _
  refine ⟨within_of rfl rfl (fun _ _ => rfl) (fun e he => update_of_ne he ..)
    (fun _ _ => rfl) (fun _ _ => rfl) rfl rfl fun e he hm => ?_, fun hp => hI.named d hp,
    handled_after hI rfl rfl, fun _ => .inr (.inl hjoined), fun _ => rfl⟩
  rcases hmoving with h | h
  · rw [hm] at h
    cases h
  · rw [hm] at h
    exact absurd (Option.some.inj h) he

theorem triple_dropJoin (d : DomainId) :
    Does lim .control (In d (Here fun a => a.Settled d)) (act (.dropJoin d))
      fun dropped => In d (Here fun a => dropped = false → a.Settled d) := by
  refine triple_entry (fun _ => lasts_here fun a a' h ha hr => h.settled d rfl (ha hr))
    fun w μ hI hμ hs ch r s' hcalm _ hx => ?_
  obtain ⟨⟨a, g⟩, hg, ⟨⟩⟩ := Option.map_eq_some_iff.mp hx
  rw [execRegistry] at hg
  split at hg
  · cases hg
    exact ⟨within_refl w rfl, fun hp => hI.named d hp, handled_after hI rfl rfl,
      fun _ => settled_after hs.1 rfl, hs.2⟩
  · cases hg
    exact ⟨within_of rfl rfl (fun _ _ => rfl) (fun e he => update_of_ne he ..)
      (fun _ _ => rfl) (fun _ _ => rfl) rfl rfl (fun _ _ hm => hm), fun hp => hI.named d hp,
      handled_after hI rfl rfl, fun hc => (by cases hc), hs.2⟩

theorem triple_clearJoins (d : DomainId) : Does lim .control (In d (Here F)) (act (.clearJoins d))
      fun _ => In d (Here fun a => a.Settled d) := by
  refine triple_entry (fun _ => lasts_here lasts_settled) fun w μ hI hμ hs ch r s' hcalm _ hx => ?_
  cases hx
  have hout : w.node.region.participates d = false := by
    replace hcalm : (!w.node.region.participates d) = true := hcalm
    simpa using hcalm
  exact ⟨within_of rfl rfl (fun _ _ => rfl) (fun e he => update_of_ne he ..)
    (fun _ _ => rfl) (fun _ _ => rfl) rfl rfl (fun _ _ hm => hm), fun hp => hI.named d hp,
    handled_after hI rfl rfl, settled_of_out hout, hs.2⟩

/-- The turn goes back before the delete; the domain is on the way. -/
theorem triple_giveTurnBack (d : DomainId) :
    Does lim .control (In d (Here F)) (act (.releaseTurn d))
      fun _ => In d fun a => a.Settled d ∧ (Tid.control = .control → a.moving = some d) := by
  refine triple_entry (fun _ => lasts_settled.and (lasts_moving fun m => m = some d))
    fun w μ hI hμ hs ch r s' _ _ hx => ?_
  cases hx
  have hnone : w.moving = none := hs.2 rfl
  have hturn : (update w.node.turns.guard d none d).isSome = false := by
    rw [update_self]
    rfl
  refine ⟨within_of rfl rfl (fun _ _ => rfl) (fun _ _ => rfl)
    (fun e he => update_of_ne he ..) (fun _ _ => rfl) rfl rfl fun e _ hm => ?_,
    fun hp => hI.named d hp, fun hc => ?_, fun _ => .inl rfl, fun _ => rfl⟩
  · rw [hnone] at hm
    cases hm
  · cases hturn.symm.trans hc

theorem triple_leaveByName (d : DomainId) (text : Text) :
    Does lim .control (In d (Here fun a => a.turn d = false))
      (act (.leaveByName text)) fun _ => In d (Here fun a => a.Settled d) := by
  refine triple_entry (fun _ => lasts_here lasts_settled)
    fun w μ hI hμ hs ch r s' hcalm hpermits hx => ?_
  cases hid : w.node.region.resolve lim.domainCount text with
  | none =>
    rw [calm, hid] at hcalm
    cases hcalm
  | some id =>
    -- The entry it holds is the domain's.
    rw [calm, hid] at hcalm
    have hown : w.node.turns.counting id = some .control := of_decide_eq_true hcalm
    obtain rfl : d = id := Option.some.inj (hμ.symm.trans ((hI.counting .control id).mp hown))
    cases ch with
    | any =>
      obtain ⟨⟨a, g⟩, hg, ⟨⟩⟩ := Option.map_eq_some_iff.mp hx
      rw [execRegion, hid] at hg
      cases hg
      have hout : update w.node.region.participates d false d = false :=
        update_self ..
      exact ⟨within_participates rfl rfl,
        fun hp => absurd (hout.symm.trans hp) Bool.false_ne_true, handled_after hI rfl rfl,
        settled_of_out hout, hs.2⟩
    | refused e =>
      cases hx
      rw [permits, hid] at hpermits
      exact ⟨within_refl w rfl, fun hp => hI.named d hp, handled_after hI rfl rfl,
        settled_after (settled_of_refuses hpermits hs.1) rfl, hs.2⟩
    | _ => cases hx

/-! ### The region, from outside -/

/-- Between no two entries, and in none. -/
abbrev Home : Option DomainId → World → Prop := Out .control fun m => m = none

/-- What a create knows of the region's answer. -/
def Entered (lim : Limits) (entered : Except RegionError Handle) (v : Option DomainId) (w : World) :
    Prop :=
  match entered with
  | .error _ => Home v w
  | .ok created => Out .control (fun m => m = some created.id) v w ∧ created.id < lim.maxDomains

theorem Entered.stable (entered : Except RegionError Handle) (v : Option DomainId) :
    Stable (pact.rely .control v) (Entered lim entered v) := by
  cases entered with
  | error e => exact Out.stable .control (fun m => m = none) v
  | ok created =>
    exact (Out.stable .control (fun m => m = some created.id) v).and (Stable.const _)

theorem beside_same (w : World) (hmoving : (w.after t o r w.node).moving = w.moving) :
    Beside w.accounts (w.after t o r w.node).accounts where
  counting := rfl
  joined := rfl
  turn := rfl
  resolved := rfl
  settled _ h := settled_after h hmoving
  named _ h := h
  generation _ h := h

theorem triple_createDomain (text : Text) : Does lim .control Home (act (.createDomain text))
      fun entered => Entered lim entered := by
  refine triple_step (fun r v => Entered.stable r v) fun w μ hI hP ch r s' hcalm _ hx => ?_
  have hnone : w.moving = none := hP.2 rfl
  cases ch with
  | refused e =>
    cases hx
    exact ⟨beside_same w rfl, hP⟩
  | domain id =>
    cases id with
    | none => cases hx
    | some id =>
      obtain ⟨⟨a, g⟩, hg, ⟨⟩⟩ := Option.map_eq_some_iff.mp hx
      rw [execRegion] at hg
      split at hg
      · cases hg
        exact ⟨beside_same w rfl, hP⟩
      · obtain ⟨-, ⟨⟩⟩ := of_guard hg
        refine ⟨.near (d := id) (fun _ _ h => nomatch hnone.symm.trans h) rfl rfl rfl rfl
          (fun _ _ => rfl) (fun e he => update_of_ne he ..) (fun e he => ?_)
          (fun e he => update_of_ne he ..) (fun _ _ => .inl rfl) (fun _ _ => ?_) fun _ _ => ?_,
          ⟨hP.1, fun _ => rfl⟩, of_decide_eq_true hcalm⟩
        · exact congrArg Option.isSome (update_of_ne he ..)
        · exact congrArg Option.isSome (update_self id (some text) w.node.region.name)
        · show update w.node.region.generation id (w.node.region.generation id + 1) id ≠ 0
          rw [update_self]
          exact Nat.succ_ne_zero _
  | _ => cases hx

/-- The node enters from outside the entry of the domain the region finds. -/
theorem beside_join {id : DomainId} (hnone : w.moving = none)
    (hid : w.node.region.resolve lim.domainCount text = some id)
    {r : Ret (.joinDomain text)} (hmoving : movingAfter (.joinDomain text) r w = some id) :
    Beside w.accounts (w.after .control (.joinDomain text) r { w.node with
      region := { w.node.region with
        participates := update w.node.region.participates id true } }).accounts :=
  .near (d := id) (fun _ _ h => nomatch hnone.symm.trans h) rfl rfl rfl rfl (fun _ _ => rfl)
    (fun _ he => update_of_ne he ..) (fun _ _ => rfl) (fun _ _ => rfl) (fun _ _ => .inl hmoving)
    (fun _ _ => named_of_resolve hid) fun h => h

theorem triple_createJoin (text : Text) : Does lim .control Home (act (.joinDomain text))
      fun entered => Entered lim entered := by
  refine triple_step (fun r v => Entered.stable r v) fun w μ hI hP ch r s' hcalm _ hx => ?_
  have hnone : w.moving = none := hP.2 rfl
  rcases join_outcome hx with ⟨e, rfl, rfl⟩ | ⟨id, rfl, hid, rfl, rfl⟩
  · exact ⟨beside_same w rfl, hP⟩
  · -- A create holds no entry.
    have hout : w.node.turns.counting id ≠ some .control := fun hc => by
      have hmine := (hI.counting .control id).mp hc
      rw [hP.1] at hmine
      cases hmine
    rw [calm, hid] at hcalm
    have hlt := (of_decide_eq_true hcalm).resolve_left hout
    have hmoving : movingAfter (.joinDomain text) (.ok ⟨id, w.node.region.generation id⟩) w =
        some id := if_neg hout
    exact ⟨beside_join hnone hid hmoving, ⟨hP.1, fun _ => hmoving⟩, hlt.2⟩

/-- A `join`, from an entry that need not be the domain's: the count says which. -/
theorem triple_joinDomain (d : DomainId) (text : Text) :
    Does lim .control (In d (Here fun a => a.Settled d))
      (act (.joinDomain text)) fun joined => In d fun a => match joined with
        | .error _ => Here (fun a => a.Settled d) a
        | .ok _ => True := by
  refine .perform fun w μ hI hP ch r w' hx => ?_
  obtain ⟨s', rfl, hcalm, -, hnode⟩ := exec_after hx
  have hnone : w.moving = none := hP.2.2 rfl
  have hkeep : update μ .control (some d) = μ := by
    rw [← hP.1, update_eq_self]
  rcases join_outcome hnode with ⟨e, rfl, rfl⟩ | ⟨id, rfl, hid, rfl, rfl⟩
  · have hbeside : Beside w.accounts (w.after .control (.joinDomain text) (.error e)
      w.node).accounts := beside_same w rfl
    refine ⟨some d, ?_, ⟨rfl, settled_after hP.2.1 rfl, hP.2.2⟩,
      In.stable (lasts_here lasts_settled) _, fun j hj => hbeside.relies _ fun hc => absurd hc hj⟩
    rw [hkeep]
    exact hI.beside hbeside
  · by_cases hown : w.node.turns.counting id = some .control
    · obtain rfl : d = id :=
        Option.some.inj (hP.1.symm.trans ((hI.counting .control id).mp hown))
      have hmoving : movingAfter (.joinDomain text) (.ok ⟨d, w.node.region.generation d⟩) w =
          w.moving := if_pos hown
      have hwithin : Within d w.accounts (w.after .control (.joinDomain text)
          (.ok ⟨d, w.node.region.generation d⟩) { w.node with region := { w.node.region with
            participates := update w.node.region.participates d true } }).accounts :=
        within_participates rfl hmoving
      refine ⟨some d, ?_, ⟨rfl, trivial⟩, In.stable (lasts_const _) _,
        fun j hj => hwithin.relies hI hP.1 (fun hc => absurd rfl hc) hj⟩
      rw [hkeep]
      exact hI.within hP.1 hwithin (fun _ => named_of_resolve hid) (handled_after hI rfl rfl)
    · have hmoving : movingAfter (.joinDomain text) (.ok ⟨id, w.node.region.generation id⟩) w =
          some id := if_neg hown
      have hbeside := beside_join hnone hid hmoving
      refine ⟨some d, ?_, ⟨rfl, trivial⟩, In.stable (lasts_const _) _,
        fun j hj => hbeside.relies _ fun hc => absurd hc hj⟩
      rw [hkeep]
      exact hI.beside hbeside

theorem beside_refused (hmoving : w.moving = some d)
    (hd : w.accounts.participates d = true →
      w.accounts.joined d > 0 ∨ w.accounts.turn d = true ∨ w.accounts.others d = false) :
    Beside w.accounts (w.after .control o r w.node).accounts :=
  .near (fun _ he h => (he (Option.some.inj (h.symm.trans hmoving))).elim) rfl rfl rfl rfl
    (fun _ _ => rfl) (fun _ _ => rfl) (fun _ _ => rfl) (fun _ _ => rfl)
    (fun _ hp => .inr (hd hp)) (fun h => h) fun h => h

/-- The region's answer to a delete settles the domain. -/
theorem triple_deleteDomain (d : DomainId) (text : Text) :
    Does lim .control (Out .control fun m => m = some d)
      (act (.deleteDomain text)) fun _ => Home := by
  refine triple_step (fun r v => Out.stable _ _ v) fun w μ hI hP ch r s' hcalm _ hx => ?_
  have hmoving : w.moving = some d := hP.2 rfl
  have hout : (!w.node.region.participates d) = true → w.node.region.participates d = true →
      w.accounts.joined d > 0 ∨ w.accounts.turn d = true ∨ w.accounts.others d = false := by
    intro h hp
    rw [hp] at h
    cases h
  refine ⟨?_, hP.1, fun _ => rfl⟩
  cases ch with
  | any =>
    rw [calm, hmoving] at hcalm
    obtain ⟨⟨a, g⟩, hg, ⟨⟩⟩ := Option.map_eq_some_iff.mp hx
    rw [execRegion] at hg
    cases hid : w.node.region.resolve lim.domainCount text with
    | none =>
      rw [hid] at hg hcalm
      cases hg
      exact beside_refused hmoving (hout hcalm)
    | some id =>
      rw [hid] at hg hcalm
      obtain rfl : id = d := of_decide_eq_true hcalm
      cases hg
      have hgone : update w.node.region.participates id false id = false :=
        update_self ..
      have hunnamed : (update w.node.region.name id none id).isSome = false := by
        rw [update_self]
        rfl
      exact .near (fun _ he h => (he (Option.some.inj (h.symm.trans hmoving))).elim)
        rfl rfl rfl rfl (fun _ _ => rfl) (fun e he => update_of_ne he ..)
        (fun e he => congrArg Option.isSome (update_of_ne he ..)) (fun _ _ => rfl)
        (fun _ => settled_of_out hgone)
        (fun _ hp => absurd (hgone.symm.trans hp) Bool.false_ne_true)
        fun _ hn => absurd (hunnamed.symm.trans hn) Bool.false_ne_true
  | refused e =>
    cases hx
    by_cases he : e = .unknownDomain
    · subst he
      rw [calm, hmoving] at hcalm
      exact beside_refused hmoving (hout hcalm)
    · have hstays : w.stays d = true := by
        cases e <;> first | simpa only [calm, hmoving] using hcalm | exact absurd rfl he
      exact beside_refused hmoving fun _ => reason_of_stays hstays
  | _ => cases hx

end Cme.Daemon.Participation
