import Cme.Interleave.Outline
import Cme.Interleave.Placement
import Cme.Workers.Pool

/-!
# Workers — what a hand-over keeps

While the words agree, a raised domain is in one of three kinds of places: with
the dispatcher that raised it, in a worker's slot, or with a worker. A worker
raises its idle bit without knowing whether the dispatcher has taken the bit
since the worker found its slot empty. Raised then, the bit offers a worker that
is already spoken for, and the next hand-over overwrites the one before it
(`assign_overwrites`). With that one access held back, nothing is lost
(`calm_handOver`).
-/

namespace Cme.Workers

open Function Interleave

variable {count : Nat} {s : State count} {w : Fin count} {d : DomainId}

/-- The places a raised domain can be in. -/
inductive Spot (count : Nat) where
  | slot (w : Fin count)
  | work (w : Fin count)
  | hand
  deriving DecidableEq

/-- What is on each spot. -/
def spots (slot : Fin count → DomainId) (work : Fin count → Work) (hand : Hand count) :
    Spot count → Option DomainId
  | .slot w => if slot w = noDomain then none else some (slot w)
  | .work w => (work w).domain?
  | .hand => hand.domain?

abbrev State.spot (s : State count) : Spot count → Option DomainId := spots s.slot s.work s.hand

/-- How often the domain of a spot has been served since it was raised. -/
def done (work : Fin count → Work) : Spot count → Nat
  | .work w => match work w with
    | .served _ => 1
    | _ => 0
  | _ => 0

section Spots

variable (slot : Fin count → DomainId) (work : Fin count → Work) (hand : Hand count)

theorem spots_setSlot (w : Fin count) (v : DomainId) : spots (update slot w v) work hand =
      update (spots slot work hand) (.slot w) (if v = noDomain then none else some v) := by
  funext x
  by_cases hx : x = .slot w
  · subst hx
    simp [spots]
  · rw [update_of_ne hx]
    cases x with
    | slot w' =>
      have hne : w' ≠ w := fun heq => hx (by rw [heq])
      simp [spots, hne]
    | work w' => rfl
    | hand => rfl

theorem spots_setWork (w : Fin count) (k : Work) : spots slot (update work w k) hand =
      update (spots slot work hand) (.work w) k.domain? := by
  funext x
  by_cases hx : x = .work w
  · subst hx
    simp [spots]
  · rw [update_of_ne hx]
    cases x with
    | slot w' => rfl
    | work w' =>
      have hne : w' ≠ w := fun heq => hx (by rw [heq])
      simp [spots, hne]
    | hand => rfl

theorem spots_setHand (hand' : Hand count) :
    spots slot work hand' = update (spots slot work hand) .hand hand'.domain? := by
  funext x
  cases x <;> simp [spots]

theorem done_setWork {x : Spot count} (hx : x ≠ .work w) (k : Work) :
    done (update work w k) x = done work x := by
  cases x with
  | slot w' => rfl
  | work w' =>
    have hne : w' ≠ w := fun heq => hx (by rw [heq])
    simp [done, hne]
  | hand => rfl

end Spots

/-- The words and the hands agree. -/
structure Good (s : State count) : Prop where
  placed : Placement (fun d => s.inFlight.has d = true) s.spot
  free : ∀ w : Fin count, s.idle.has w = true →
    s.slot w = noDomain ∧ s.work w = .none ∧ ∀ d, s.hand ≠ .seated d w
  seated : ∀ d w, s.hand = .seated d w → s.slot w = noDomain ∧ s.work w = .none
  accepted : ∀ d, s.accepted d = true → s.hand.domain? ≠ some d
  serves : ∀ x d, s.spot x = some d → s.serves d = done s.work x
  overwrote : s.overwrote = false
  fellEarly : s.fellEarly = false

theorem ne_noDomain_of_has (h : s.inFlight.has d = true) : d ≠ noDomain := by
  rintro rfl
  rw [Bits.has, BitVec.getLsbD_of_ge _ _ (by decide)] at h
  cases h

section

variable (h : Good s)

include h

theorem Good.takeSlot (hw : s.work w = .none) (hd : s.slot w ≠ noDomain) : Good { s with
      slot := update s.slot w noDomain
      work := update s.work w (.took (s.slot w)) } := by
  have hslot : s.spot (.slot w) = some (s.slot w) := by simp [spots, hd]
  have hwork : s.spot (.work w) = none := by simp [spots, hw, Work.domain?]
  have hspot : spots (update s.slot w noDomain)
      (update s.work w (.took (s.slot w))) s.hand =
      update (update s.spot (.slot w) none) (.work w) (some (s.slot w)) := by
    rw [spots_setWork, spots_setSlot, if_pos rfl, Work.domain?]
  refine ⟨?_, fun w' hidle => ?_, fun d' w' hs => ?_, h.accepted, fun x e hx => ?_, h.overwrote,
    h.fellEarly⟩
  · exact (h.placed.move hslot hwork).of_eq hspot
  · have hne : w' ≠ w := by
      rintro rfl
      exact hd (h.free w' hidle).1
    simpa [hne] using h.free w' hidle
  · have hne : w' ≠ w := by
      rintro rfl
      exact hd (h.seated d' w' hs).1
    simpa [hne] using h.seated d' w' hs
  · rcases Placement.put_cases ((congrFun hspot x).symm.trans hx) with ⟨rfl, rfl⟩ | ⟨hxw, hx⟩
    · simpa [done] using h.serves _ _ hslot
    · rw [done_setWork _ hxw]
      exact h.serves x e (of_update hx (by simp)).2

theorem Good.serve (hw : s.work w = .took d) : Good { s with
      serves := update s.serves d (s.serves d + 1)
      work := update s.work w (.served d) } := by
  have hwork : s.spot (.work w) = some d := by simp [spots, hw, Work.domain?]
  have hspot : spots s.slot (update s.work w (.served d)) s.hand = s.spot := by
    rw [spots_setWork, Work.domain?]
    exact update_eq_self_iff.mpr hwork.symm
  refine ⟨?_, fun w' hidle => ?_, fun d' w' hs => ?_, h.accepted, fun x e hx => ?_, h.overwrote,
    h.fellEarly⟩
  · exact h.placed.of_eq hspot
  · have hne : w' ≠ w := by
      rintro rfl
      cases hw.symm.trans (h.free w' hidle).2.1
    simpa [hne] using h.free w' hidle
  · have hne : w' ≠ w := by
      rintro rfl
      cases hw.symm.trans (h.seated d' w' hs).2
    simpa [hne] using h.seated d' w' hs
  · replace hx : s.spot x = some e := (congrFun hspot x).symm.trans hx
    have hserves := h.serves x e hx
    by_cases hed : e = d
    · subst hed
      obtain rfl := h.placed.one _ _ _ hx hwork
      simp only [update_self, done]
      rw [hserves, done, hw]
    · have hxw : x ≠ .work w := by
        rintro rfl
        rw [hwork] at hx
        exact hed (Option.some.inj hx).symm
      rw [done_setWork _ hxw]
      simpa [hed] using hserves

theorem Good.release (hw : s.work w = .served d) : Good { s with
      inFlight := s.inFlight.clear d
      work := update s.work w .none
      fellEarly := s.fellEarly || (s.inFlight.has d && decide (s.serves d ≠ 1)) } := by
  have hwork : s.spot (.work w) = some d := by simp [spots, hw, Work.domain?]
  have hspot : spots s.slot (update s.work w .none) s.hand =
      update s.spot (.work w) none := by
    rw [spots_setWork, Work.domain?]
  have honce : s.serves d = 1 := by
    rw [h.serves _ _ hwork, done, hw]
  have hnone : ∀ w', s.work w' = .none → update s.work w .none w' = .none := by
    intro w' hw'
    by_cases hne : w' = w
    · rw [hne, update_self]
    · rw [update_of_ne hne, hw']
  refine ⟨?_, fun w' hidle => ?_, fun d' w' hs => ?_, h.accepted, fun x e hx => ?_, h.overwrote,
    ?_⟩
  · exact ((h.placed.take hwork).congr fun e => by simp).of_eq hspot
  · obtain ⟨hslot, hfree, hhand⟩ := h.free w' hidle
    exact ⟨hslot, hnone w' hfree, hhand⟩
  · obtain ⟨hslot, hfree⟩ := h.seated d' w' hs
    exact ⟨hslot, hnone w' hfree⟩
  · obtain ⟨hxw, hx⟩ := of_update ((congrFun hspot x).symm.trans hx) (by simp)
    rw [done_setWork _ hxw]
    exact h.serves x e hx
  · simp [h.fellEarly, honce]

/-- A worker with nothing in its slot, and for which no hand-over is under
way, offers itself. -/
theorem Good.offer (hslot : s.slot w = noDomain) (hw : s.work w = .none)
    (hhand : ∀ d, s.hand ≠ .seated d w) : Good { s with idle := s.idle.set w } := by
  refine ⟨h.placed, fun w' hidle => ?_, h.seated, h.accepted, h.serves, h.overwrote, h.fellEarly⟩
  by_cases hne : w' = w
  · subst hne
    exact ⟨hslot, hw, hhand⟩
  · refine h.free w' ?_
    have hval : ¬ (w' : Nat) = w := fun heq => hne (Fin.ext heq)
    simpa [hval] using hidle

theorem Good.claim (hhand : s.hand = .none) (hd : s.inFlight.has d = false) (hlt : d < maxDomains) :
    Good { s with
      inFlight := s.inFlight.set d
      hand := .claimed d
      accepted := update s.accepted d false
      serves := update s.serves d 0 } := by
  have hempty : s.spot .hand = none := by simp [spots, hhand, Hand.domain?]
  have hspot : spots s.slot s.work (.claimed d) = update s.spot .hand (some d) := by
    rw [spots_setHand _ _ s.hand, Hand.domain?]
  refine ⟨?_, fun w hidle => ?_, fun d' w hs => (by cases hs), fun e he => ?_, fun x e hx => ?_,
    h.overwrote, h.fellEarly⟩
  · exact ((h.placed.put (by simp [hd]) hempty).congr fun e => by simp [hlt]).of_eq hspot
  · obtain ⟨hslot, hfree, -⟩ := h.free w hidle
    exact ⟨hslot, hfree, by simp⟩
  · rintro ⟨⟩
    simp at he
  · rcases Placement.put_cases ((congrFun hspot x).symm.trans hx) with ⟨rfl, rfl⟩ | ⟨-, hold⟩
    · simp [done]
    · have hed : e ≠ d := by
        rintro rfl
        cases hd.symm.trans (h.placed.up_of x e hold)
      simpa [hed] using h.serves x e hold

/-- The dispatcher takes a standing idle bit for the domain it has raised. -/
theorem Good.seat (hhand : s.hand = .claimed d) (hidle : s.idle.has w = true) :
    Good { s with idle := s.idle.clear w, hand := .seated d w } := by
  obtain ⟨hslot, hfree, -⟩ := h.free w hidle
  have hspot : spots s.slot s.work (.seated d w) = s.spot := by
    rw [spots_setHand _ _ s.hand, Hand.domain?]
    refine update_eq_self_iff.mpr ?_
    simp [spots, hhand, Hand.domain?]
  refine ⟨?_, fun w' hidle' => ?_, fun d' w' hs => ?_, fun e he => ?_, fun x e hx => ?_,
    h.overwrote, h.fellEarly⟩
  · exact h.placed.of_eq hspot
  · have hboth : s.idle.has w' = true ∧ ¬ (w' : Nat) = w := by simpa using hidle'
    obtain ⟨hslot', hfree', -⟩ := h.free w' hboth.1
    refine ⟨hslot', hfree', ?_⟩
    rintro d' ⟨⟩
    exact hboth.2 rfl
  · cases hs
    exact ⟨hslot, hfree⟩
  · have hne := h.accepted e he
    rw [hhand] at hne
    exact hne
  · exact h.serves x e ((congrFun hspot x).symm.trans hx)

/-- The dispatcher takes back the bit of a domain it could not hand over. -/
theorem Good.withdraw (hhand : s.hand = .claimed d) : Good { s with
      inFlight := s.inFlight.clear d
      hand := .none
      fellEarly := s.fellEarly || s.accepted d } := by
  have hheld : s.spot .hand = some d := by simp [spots, hhand, Hand.domain?]
  have hspot : spots s.slot s.work .none = update s.spot .hand none := by
    rw [spots_setHand _ _ s.hand, Hand.domain?]
  have hacc : s.accepted d = false := by
    by_contra hne
    have hne' := h.accepted d (by simpa using hne)
    rw [hhand] at hne'
    exact hne' rfl
  refine ⟨?_, fun w hidle => ?_, fun d' w hs => (by cases hs), fun e _ heq => (by cases heq),
    fun x e hx => ?_, h.overwrote, ?_⟩
  · exact ((h.placed.take hheld).congr fun e => by simp).of_eq hspot
  · obtain ⟨hslot, hfree, -⟩ := h.free w hidle
    exact ⟨hslot, hfree, by simp⟩
  · exact h.serves x e (of_update ((congrFun hspot x).symm.trans hx) (by simp)).2
  · simp [h.fellEarly, hacc]

/-- The dispatcher stores the domain in the slot of the worker it took. -/
theorem Good.store (hhand : s.hand = .seated d w) : Good { s with
      slot := update s.slot w d
      hand := .none
      overwrote := s.overwrote || decide (s.slot w ≠ noDomain) } := by
  obtain ⟨hslot, hfree⟩ := h.seated d w hhand
  have hheld : s.spot .hand = some d := by simp [spots, hhand, Hand.domain?]
  have hd : d ≠ noDomain := ne_noDomain_of_has (h.placed.up_of _ _ hheld)
  have hempty : s.spot (.slot w) = none := by simp [spots, hslot]
  have hspot : spots (update s.slot w d) s.work .none =
      update (update s.spot .hand none) (.slot w) (some d) := by
    rw [spots_setSlot, spots_setHand _ _ s.hand, if_neg hd, Hand.domain?]
  refine ⟨?_, fun w' hidle => ?_, fun d' w' hs => (by cases hs), fun e _ heq => (by cases heq),
    fun x e hx => ?_, ?_, h.fellEarly⟩
  · exact (h.placed.move hheld hempty).of_eq hspot
  · obtain ⟨hslot', hfree', hnot⟩ := h.free w' hidle
    have hne : w' ≠ w := by
      rintro rfl
      exact hnot d hhand
    exact ⟨by simpa [hne] using hslot', hfree', by simp⟩
  · rcases Placement.put_cases ((congrFun hspot x).symm.trans hx) with ⟨rfl, rfl⟩ | ⟨-, hx⟩
    · simpa [done] using h.serves _ _ hheld
    · exact h.serves x e (of_update hx (by simp)).2
  · simp [h.overwrote, hslot]

/-- `assign` returns true: nothing is left in the dispatcher's hand. -/
theorem Good.accept (hhand : s.hand = .none) :
    Good { s with accepted := update s.accepted d true } := by
  refine ⟨h.placed, h.free, h.seated, fun e _ heq => ?_, h.serves, h.overwrote, h.fellEarly⟩
  cases (congrArg Hand.domain? hhand).symm.trans heq

end

/-! ### The threads -/

/-- A thread's view is what it has in hand. -/
inductive View (count : Nat) where
  | hand (h : Hand count)
  | work (k : Work)

/-- The words and the hands agree, and every thread knows its own. -/
structure Inv (s : State count) (γ : Tid count → View count) : Prop where
  good : Good s
  dispatcher : γ .dispatcher = .hand s.hand
  worker : ∀ w, γ (.worker w) = .work (s.work w)

/-- No worker raises its idle bit while a hand-over to it is under way: its slot
is empty, and the dispatcher has not taken its bit for a store to come. -/
def calm (_ : Tid count) (o : Op count) (_ : Choice) (s : State count) : Bool :=
  match o with
  | .claimIdle w =>
    decide (s.slot w = noDomain) && match s.hand with
      | .seated _ w' => decide (w' ≠ w)
      | _ => true
  | _ => true

/-- The pool with every idle bit raised in calm. -/
abbrev calmSystem (count : Nat) : System (Tid count) (Op count) Ret (State count) Choice Call Empty :=
  (system count).restrict calm

/-- Accesses to words that no hand-over turns on. -/
def Quiet : Op count → Prop
  | .loadRunning | .storeRunning _ | .loadHanded _ | .addHanded _ | .loadParked _
  | .storeParked _ _ | .loadIdle | .futexWait _ | .futexWake _ | .askTurns | .spin => True
  | _ => False

theorem access_quiet {o : Op count} (ho : Quiet o) {ch : Choice} {s s' : State count} {r : Ret o}
    (hx : access o ch s = some (r, s')) :
    ∃ running handed parked, s' = { s with running := running, handed := handed, parked := parked } := by
  cases o <;> first | exact ho.elim | skip
  case askTurns => cases ch <;> cases hx; exact ⟨_, _, _, rfl⟩
  case spin => cases hx
  all_goals cases hx; exact ⟨_, _, _, rfl⟩

variable {γ : Tid count → View count} {s' : State count}

theorem Inv.quiet (h : Inv s γ) {o : Op count} (ho : Quiet o) {ch : Choice} {r : Ret o}
    (hx : access o ch s = some (r, s')) : Inv s' γ := by
  obtain ⟨running, handed, parked, rfl⟩ := access_quiet ho hx
  obtain ⟨hplaced, hfree, hseated, hacc, hserves, hover, hfell⟩ := h.good
  exact ⟨⟨hplaced, hfree, hseated, hacc, hserves, hover, hfell⟩, h.dispatcher, h.worker⟩

section Specs

variable {i : Tid count} {v : View count} {α : Type}

theorem wp_act {o : Op count} {Q : Ret o → View count → Prop}
    (h : ∀ s γ, Inv s γ → γ i = v → ∀ ch r s', calm i o ch s = true →
      access o ch s = some (r, s') → ∃ v', Inv s' (update γ i v') ∧ Q r v') :
    wp (calmSystem count) Inv i (act o) Q v := by
  intro s γ hInv hv ch r s' hx
  obtain ⟨hcalm, hexec⟩ := System.restrict_exec.mp hx
  exact h s γ hInv hv ch r s' hcalm hexec

theorem wp_quiet {p : Proc count α} (hp : p.Only Quiet) {Q : α → View count → Prop}
    (h : ∀ a, Q a v) : wp (calmSystem count) Inv i p Q v :=
  wp_only hp (fun _ ho _ _ _ _ _ hInv hx => hInv.quiet ho (System.restrict_exec.mp hx).2) h

end Specs

theorem Inv.workerStep (h : Inv s γ) {k : Work} (hgood : Good s') (hhand : s'.hand = s.hand)
    (hwork : s'.work = update s.work w k) : Inv s' (update γ (.worker w) (.work k)) := by
  refine ⟨hgood, ?_, fun w' => ?_⟩
  · rw [update_of_ne (by simp), hhand]
    exact h.dispatcher
  · rw [hwork]
    by_cases hww : w' = w
    · subst hww
      simp
    · rw [update_of_ne (by simpa using hww), update_of_ne hww]
      exact h.worker w'

theorem Inv.dispatcherStep (h : Inv s γ) {k : Hand count} (hgood : Good s') (hhand : s'.hand = k)
    (hwork : s'.work = s.work) : Inv s' (update γ .dispatcher (.hand k)) := by
  refine ⟨hgood, by rw [update_self, hhand], fun w' => ?_⟩
  rw [update_of_ne (by simp), hwork]
  exact h.worker w'

theorem Inv.work_eq (h : Inv s γ) {k : Work} (hv : γ (.worker w) = .work k) : s.work w = k := by
  rw [h.worker w] at hv
  exact View.work.inj hv

theorem Inv.hand_eq (h : Inv s γ) {k : Hand count} (hv : γ .dispatcher = .hand k) : s.hand = k := by
  rw [h.dispatcher] at hv
  exact View.hand.inj hv

theorem quiet_spinOnWord (w : Fin count) (expected turns : Nat) :
    (spinOnWord w expected turns).Only Quiet := by
  induction turns with
  | zero => exact .pure _
  | succ turns ih =>
    exact .bind (.perform trivial) fun _ => .ite (.pure _) ih

theorem quiet_waitOnWord (w : Fin count) (expected : Nat) :
    (waitOnWord w expected).Only Quiet :=
  .bind (.perform trivial) fun turns => .bind (quiet_spinOnWord w expected turns) fun _ =>
    .ite (.pure _) (.bind (.perform trivial) fun _ => .bind (.perform trivial) fun _ =>
      .perform trivial)

theorem quiet_stop (ws : List (Fin count)) : (stop ws).Only Quiet := by
  induction ws with
  | nil => exact .pure _
  | cons w ws ih => exact .bind (.perform trivial) fun _ => .bind (.perform trivial) fun _ => ih

theorem wp_workerTurn :
    wp (calmSystem count) Inv (.worker w) (workerTurn w) (fun _ v => v = .work .none)
      (.work .none) := by
  rw [workerTurn, wp_bind]
  refine wp_quiet (.perform (by trivial)) fun running => ?_
  split
  · refine .bind <| wp_quiet (.perform (by trivial)) fun seen => ?_
    refine .bind <| wp_act fun s γ hInv hv ch domainId s' _ hx => ?_
    cases hx
    have hwork := hInv.work_eq hv
    by_cases hempty : s.slot w = noDomain
    · -- nothing there: offer the seat, and wait
      refine ⟨.work .none, ?_, ?_⟩
      · have hsame : update s.slot w noDomain = s.slot :=
          update_eq_self_iff.mpr hempty.symm
        rw [if_pos hempty, hsame, ← hv, update_eq_self]
        exact hInv
      · rw [if_pos hempty, wp_bind]
        refine wp_act fun s γ hInv hv ch r s' hcalm hx => ?_
        cases hx
        simp only [calm, Bool.and_eq_true, decide_eq_true_eq] at hcalm
        have hwork := hInv.work_eq hv
        have hhand : ∀ d, s.hand ≠ .seated d w := by
          intro d heq
          rw [heq] at hcalm
          simp at hcalm
        refine ⟨.work .none, ?_, wp_quiet (quiet_waitOnWord w seen) fun _ => rfl⟩
        exact hInv.workerStep (hInv.good.offer hcalm.1 hwork hhand) rfl
          (update_eq_self_iff.mpr hwork.symm).symm
    · refine ⟨.work (.took (s.slot w)), ?_, ?_⟩
      · rw [if_neg hempty]
        exact hInv.workerStep (hInv.good.takeSlot hwork hempty) rfl rfl
      · rw [if_neg hempty, wp_bind]
        refine wp_act fun s γ hInv hv ch r s' _ hx => ?_
        cases hx
        refine ⟨_, hInv.workerStep (hInv.good.serve (hInv.work_eq hv)) rfl rfl, ?_⟩
        refine .bind <| wp_act fun s γ hInv hv ch r s' _ hx => ?_
        cases hx
        exact ⟨_, hInv.workerStep (hInv.good.release (hInv.work_eq hv)) rfl rfl, rfl⟩
  · rfl

theorem wp_takeLowest (turns : Nat) : wp (calmSystem count) Inv .dispatcher (takeLowest d turns)
      (fun w v => v = .hand (match w with | none => .claimed d | some w => .seated d w))
      (.hand (.claimed d)) := by
  induction turns with
  | zero =>
    rw [takeLowest, wp_bind]
    exact wp_act fun s γ hInv hv ch r s' _ hx => by cases hx
  | succ turns ih =>
    rw [takeLowest, wp_bind]
    refine wp_quiet (.perform (by trivial)) fun standing => ?_
    split
    · rfl
    · rename_i w _
      refine .bind <| wp_act fun s γ hInv hv ch taken s' _ hx => ?_
      cases hx
      by_cases hidle : s.idle.has w = true
      · refine ⟨.hand (.seated d w), ?_, ?_⟩
        · rw [if_pos hidle]
          exact hInv.dispatcherStep (hInv.good.seat (hInv.hand_eq hv) hidle) rfl rfl
        · rw [if_pos hidle]
          rfl
      · -- the bit is gone already, and clearing it does nothing
        refine ⟨.hand (.claimed d), ?_, ?_⟩
        · rw [if_neg hidle, Bits.clear_eq_self (by simpa using hidle), ← hv,
            update_eq_self]
          exact hInv
        · rw [if_neg hidle]
          exact ih

theorem wp_assign : wp (calmSystem count) Inv .dispatcher (assign d) (fun _ v => v = .hand .none)
      (.hand .none) := by
  rw [assign]
  split
  · rfl
  rename_i hlt
  refine .bind <| wp_act fun s γ hInv hv ch claimed s' _ hx => ?_
  by_cases hup : s.inFlight.has d = true
  · rw [access, if_pos hup] at hx
    cases hx
    refine ⟨.hand .none, ?_, ?_⟩
    · rw [← hv, update_eq_self]
      exact hInv
    · rw [if_neg (by simp)]
      rfl
  · rw [access, if_neg hup] at hx
    cases hx
    refine ⟨_, hInv.dispatcherStep
      (hInv.good.claim (hInv.hand_eq hv) (by simpa using hup) (Nat.lt_of_not_le hlt)) rfl rfl, ?_⟩
    rw [if_pos rfl, wp_bind]
    refine wp_quiet (.perform (by trivial)) fun turns => ?_
    refine wp_seq (wp_takeLowest turns) fun seat => ?_
    cases seat with
    | none =>
      refine .bind <| wp_act fun s γ hInv hv ch r s' _ hx => ?_
      cases hx
      exact ⟨_, hInv.dispatcherStep (hInv.good.withdraw (hInv.hand_eq hv)) rfl rfl, rfl⟩
    | some w =>
      refine .bind <| wp_act fun s γ hInv hv ch r s' _ hx => ?_
      cases hx
      refine ⟨_, hInv.dispatcherStep (hInv.good.store (hInv.hand_eq hv)) rfl rfl, ?_⟩
      refine .bind <| wp_quiet (.perform (by trivial)) fun _ => ?_
      refine .bind <| wp_quiet (.perform (by trivial)) fun parked => ?_
      dsimp only
      exact wp_quiet (.ite (.bind (.perform (by trivial)) fun _ => .pure _)
        (.pure _)) fun _ => rfl

/-- Between two calls a thread has nothing in hand. -/
def Rest : Tid count → View count → Prop
  | .dispatcher, v => v = .hand .none
  | .worker _, v => v = .work .none

theorem wp_assignCall :
    wp (calmSystem count) Inv .dispatcher (assignCall d) (fun _ => Rest .dispatcher)
      (.hand .none) := by
  rw [assignCall]
  refine wp_seq wp_assign fun ok => ?_
  split
  · split
    · refine wp_act fun s γ hInv hv ch r s' _ hx => ?_
      cases hx
      have hhand := hInv.hand_eq hv
      exact ⟨_, hInv.dispatcherStep (hInv.good.accept hhand) hhand rfl, rfl⟩
    · rfl
  · rfl

theorem outline (count : Nat) : Outline (calmSystem count) Inv Rest where
  start := by
    intro i call s γ code hInv hrest hstart
    replace hstart : start i call s = some code := hstart
    refine ⟨γ i, by rwa [update_eq_self], ?_⟩
    cases i with
    | dispatcher =>
      replace hrest : γ .dispatcher = .hand .none := hrest
      rw [hrest]
      cases call with
      | assign d =>
        cases hstart
        exact wp_assignCall
      | stop =>
        cases hstart
        exact wp_quiet (.bind (.perform (by trivial)) fun _ => quiet_stop _) fun _ => rfl
      | turn => cases hstart
    | worker w =>
      replace hrest : γ (.worker w) = .work .none := hrest
      rw [hrest]
      cases call with
      | assign | stop => cases hstart
      | turn =>
        cases hstart
        exact wp_workerTurn
  env := fun e => nomatch e

theorem good_initial (count : Nat) : Good (State.initial count) := by
  have hspot : (State.initial count).spot = fun _ => none := by
    funext x
    cases x <;> rfl
  have hbit : ∀ n d, (0 : Bits n).has d = false := fun n d => BitVec.getLsbD_zero
  refine ⟨?_, fun w hidle => ?_, fun d w hs => ?_, fun d ha => ?_, fun x d hx => ?_, rfl, rfl⟩
  · rw [hspot]
    refine Placement.empty.congr fun d => ⟨fun hd => ?_, False.elim⟩
    rw [State.initial, hbit] at hd
    cases hd
  · rw [State.initial, hbit] at hidle
    cases hidle
  · cases hs
  · cases ha
  · rw [hspot] at hx
    cases hx

/-! ### Every run -/

/-- A domain is in one worker's slot and with no worker, or with one worker and
in no slot. -/
def State.InOnePlace (s : State count) (d : DomainId) : Prop :=
  ((∃! w, s.slot w = d) ∧ ∀ w, (s.work w).domain? ≠ some d) ∨
    ((∃! w, (s.work w).domain? = some d) ∧ ∀ w, s.slot w ≠ d)

/-- Where an accepted domain is. -/
theorem Good.inOnePlace (h : Good s) (hup : s.inFlight.has d = true)
    (hacc : s.accepted d = true) : s.InOnePlace d := by
  have hd : d ≠ noDomain := ne_noDomain_of_has hup
  have hslot : ∀ w, s.slot w = d → s.spot (.slot w) = some d := by
    intro w hw
    simp [spots, hw, hd]
  obtain ⟨x, hx⟩ := h.placed.found d hup
  cases x with
  | slot w =>
    have hw : s.slot w = d := by
      by_cases hempty : s.slot w = noDomain
      · simp [spots, hempty] at hx
      · simpa [spots, hempty] using hx
    refine Or.inl ⟨⟨w, hw, fun w' hw' => ?_⟩, fun w' hw' => ?_⟩
    · exact Spot.slot.inj (h.placed.one _ _ _ (hslot w' hw') hx)
    · cases h.placed.one (.work w') _ _ hw' hx
  | work w =>
    refine Or.inr ⟨⟨w, hx, fun w' hw' => ?_⟩, fun w' hw' => ?_⟩
    · exact Spot.work.inj (h.placed.one (.work w') _ _ hw' hx)
    · cases h.placed.one _ _ _ (hslot w' hw') hx
  | hand => exact absurd hx (h.accepted d hacc)

/-- The dispatcher hands over a domain, as far as `n` steps past the scan. -/
def handOver (d : DomainId) (n : Nat) : List (Action (Tid 1) Choice Call Empty) :=
  [.start .dispatcher (.assign d), .exec .dispatcher .any, .exec .dispatcher (.nat 1)] ++
    steps .dispatcher n

/-- **The hand-over loses a domain.** One worker, found idle by a wait that only
timed out, has emptied its slot again and not yet raised its bit, which still
stands. The dispatcher hands it domain 1; the worker raises its bit; the
dispatcher hands it domain 2. -/
def offerAfterTaken : List (Action (Tid 1) Choice Call Empty) :=
  let w : Tid 1 := .worker ⟨0, Nat.one_pos⟩
  List.flatten [.start w .turn :: steps w 4, .exec w (.nat 0) :: steps w 3,
    .start w .turn :: steps w 3, handOver 1 6, steps w 1, handOver 2 3]

theorem assign_overwrites : ∃ c₀ c, domainWorkers 1 = .ok c₀ ∧ (system 1).Reachable c₀ c ∧
      c.shared.inFlight.has 1 = true ∧ c.shared.accepted 1 = true ∧
      ¬ c.shared.InOnePlace 1 ∧ c.shared.overwrote = true := by
  obtain ⟨c, hc, hup, hacc, hover, hslot, hwork⟩ := System.exists_of_run (system 1)
    { shared := State.initial 1, threads := fun _ => .done () } offerAfterTaken
    (P := fun c => c.shared.inFlight.has 1 = true ∧ c.shared.accepted 1 = true ∧
      c.shared.overwrote = true ∧ c.shared.slot 0 ≠ 1 ∧ (c.shared.work 0).domain? ≠ some 1)
    (by decide)
  refine ⟨_, c, rfl, hc, hup, hacc, ?_, hover⟩
  rintro (⟨⟨w, hw, -⟩, -⟩ | ⟨⟨w, hw, -⟩, -⟩)
  · rw [Subsingleton.elim w 0] at hw
    exact hslot hw
  · rw [Subsingleton.elim w 0] at hw
    exact hwork hw

/-- **A calm hand-over loses nothing.** In every run in which no worker raises
its idle bit while a hand-over to it is under way: a raised domain whose
`assign` has returned true is in one place, no store met an occupied slot, and
no bit of such a domain fell other than after one service. -/
theorem calm_handOver (count : Nat) {c₀ c : Config (Tid count) (Op count) Ret (State count)}
    (h₀ : domainWorkers count = .ok c₀) (h : (calmSystem count).Reachable c₀ c) :
    (∀ d, c.shared.inFlight.has d = true → c.shared.accepted d = true →
      c.shared.InOnePlace d) ∧
    c.shared.overwrote = false ∧ c.shared.fellEarly = false := by
  have hinit : Outlined (calmSystem count) Inv Rest c₀ := by
    unfold domainWorkers at h₀
    cases hcount : requireWorkerCount count with
    | error e =>
      rw [hcount] at h₀
      cases h₀
    | ok n =>
      rw [hcount] at h₀
      cases h₀
      refine outlined_of_idle (γ := fun i => match i with
        | .dispatcher => .hand .none
        | .worker _ => .work .none) (fun _ => rfl) ⟨good_initial count, rfl, fun _ => rfl⟩ ?_
      intro i
      cases i <;> rfl
  obtain ⟨γ, hInv, -⟩ := (outline count).reachable hinit h
  exact ⟨fun d => hInv.good.inOnePlace, hInv.good.overwrote, hInv.good.fellEarly⟩

/-- The same two hand-overs, each to a worker that has offered itself: domain 1
is served before domain 2 is handed over. -/
def offerInTime : List (Action (Tid 1) Choice Call Empty) :=
  let w : Tid 1 := .worker ⟨0, Nat.one_pos⟩
  List.flatten [.start w .turn :: steps w 4, handOver 1 6, .exec w (.nat 0) :: steps w 3,
    .start w .turn :: steps w 5, .start w .turn :: steps w 4, handOver 2 6]

theorem calm_handOver_offerInTime :
    ∃ c₀ c, domainWorkers 1 = .ok c₀ ∧ (calmSystem 1).Reachable c₀ c ∧
      c.shared.serves 1 = 1 ∧ c.shared.inFlight.has 1 = false ∧
      c.shared.inFlight.has 2 = true ∧ c.shared.InOnePlace 2 ∧
      c.shared.overwrote = false ∧ c.shared.fellEarly = false := by
  obtain ⟨c, hc, hserves, hdown, hup, hacc⟩ := System.exists_of_run (calmSystem 1)
    { shared := State.initial 1, threads := fun _ => .done () } offerInTime
    (P := fun c => c.shared.serves 1 = 1 ∧ c.shared.inFlight.has 1 = false ∧
      c.shared.inFlight.has 2 = true ∧ c.shared.accepted 2 = true) (by decide)
  obtain ⟨hplace, hover, hfell⟩ := calm_handOver 1 rfl hc
  exact ⟨_, c, rfl, hc, hserves, hdown, hup, hplace 2 hup hacc, hover, hfell⟩

end Cme.Workers
