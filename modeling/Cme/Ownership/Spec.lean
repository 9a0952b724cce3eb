import Cme.Ownership.Invariant

/-!
# Ownership — what each procedure does to the stage of its thread

One specification per procedure of `Transfer` and `Policy`, proved from the
access lemmas of `Invariant` and from the specifications of the procedures it
calls. They hold for every system whose accesses are those of `exec` and, where
the system has `leaveDomain`, are calm (`Runs`).
-/

namespace Cme.Ownership

open Function Interleave Interleave.Prog

/-- The accesses that change no word of `Core`. -/
def Op.IsQuiet : Op → Prop
  | .setRecord _ _ => False
  | .loadPin _ closing => closing = false
  | .casPin _ _ _ _ => False
  | .storePin _ _ => False
  | .arrive _ => False
  | .beginPass _ => False
  | .endPass _ => False
  | .lockControl => False
  | .unlockControl => False
  | .hasPins _ => False
  | .resetPins _ => False
  | .quitLeave _ => False
  | _ => True

/-! ### Code that changes no word of `Core` -/

theorem quiet_adoptOwnership (d : DomainId) (e : Nat) : (adoptOwnership d e).Only Op.IsQuiet :=
  .bind (.perform trivial) fun _ => .bind (.perform trivial) fun _ => .perform trivial

theorem quiet_reconcileHolderBelief (self : PeerId) (d : DomainId) :
    (reconcileHolderBelief self d).Only Op.IsQuiet :=
  .bind (.perform trivial) fun _ => .ite (.perform trivial) <|
    .bind (.perform trivial) fun _ => .bind (.perform trivial) fun _ =>
      .ite (.perform trivial) (.pure _)

theorem quiet_reconcileDomain (self : PeerId) (d : DomainId) (found : DomainBitmap) :
    (reconcileDomain self d found).Only Op.IsQuiet := by
  have hcollect : ∀ k : Unit, (do
      if ← act (.loadHolder d) then
        if ← canTransferDomain d then pure (found.set d) else pure found
      else pure found : Proc DomainBitmap).Only Op.IsQuiet := fun _ =>
    .bind (.perform trivial) fun _ => .ite (.bind (.bind (.perform rfl) fun _ => .pure _) fun _ =>
      .ite (.pure _) (.pure _)) (.pure _)
  refine .bind (.perform trivial) fun _ => .ite (.pure _) (.bind (.perform trivial) fun _ => ?_)
  refine .ite (.bind (quiet_reconcileHolderBelief self d) hcollect) ?_
  refine .bind (.perform trivial) fun _ => .ite ?_ (hcollect ())
  exact .bind (quiet_reconcileHolderBelief self d) hcollect

theorem quiet_collectDomain (d : DomainId) (found : DomainBitmap) :
    (collectDomain d found).Only Op.IsQuiet :=
  .bind (.perform trivial) fun _ => .ite (.pure _) <| .bind (.perform trivial) fun _ =>
    .ite (.bind (.bind (.perform rfl) fun _ => .pure _) fun _ => .ite (.pure _) (.pure _)) (.pure _)

theorem quiet_scan {step : DomainId → DomainBitmap → Proc DomainBitmap}
    (h : ∀ d found, (step d found).Only Op.IsQuiet) (ids : List DomainId) (found : DomainBitmap) :
    (scan step ids found).Only Op.IsQuiet := by
  induction ids generalizing found with
  | nil => exact .pure _
  | cons d rest ih => exact .bind (h d found) fun found => ih found

theorem quiet_reconcileAndCollect (self : PeerId) :
    (reconcileAndCollectTransferable self).Only Op.IsQuiet :=
  .bind (.perform trivial) fun _ => quiet_scan (quiet_reconcileDomain self) _ _

theorem quiet_collectOnDemand (self : PeerId) : (collectOnDemand self).Only Op.IsQuiet :=
  .bind (.perform trivial) fun _ => .ite (quiet_reconcileAndCollect self) <|
    .bind (.perform trivial) fun _ => quiet_scan quiet_collectDomain _ _

theorem quiet_getMemberView (dims : Dims) (q : PeerId) :
    (getMemberView dims q).Only Op.IsQuiet := .ite (.perform trivial) (.pure _)

variable {d : DomainId}

theorem quiet_updateSelfPending {b : Bool} {publish : DomainBitmap → Proc Unit}
    (h : ∀ bits, (publish bits).Only Op.IsQuiet) :
    (updateSelfPending d b publish).Only Op.IsQuiet :=
  .bind (.perform trivial) fun _ => .bind (.perform trivial) fun bits =>
    .bind (h bits) fun _ => .perform trivial

theorem quiet_packMembers (dims : Dims) (members : List PeerId) (slot : AggregatedRequest) :
    (RequestAgg.packMembers dims members slot).Only Op.IsQuiet := by
  induction members generalizing slot with
  | nil => exact .pure _
  | cons q rest ih => exact .bind (.perform trivial) fun _ => ih _

theorem quiet_refreshAggregatedRequest (dims : Dims) (self : PeerId) :
    (RequestAgg.refreshAggregatedRequest dims self).Only Op.IsQuiet :=
  .bind (.perform trivial) fun _ =>
    .ite (.bind (quiet_packMembers dims _ _) fun _ => .perform trivial) <|
    .bind (quiet_getMemberView dims _) fun _ => .ite (.pure _) <|
    .bind (.perform trivial) fun _ =>
    .bind (quiet_packMembers dims _ _) fun _ => .perform trivial

theorem quiet_updateDemandAndSlice (dims : Dims) (self : PeerId) (d : DomainId) (b : Bool) :
    (RequestAgg.updateDemandAndSlice dims self d b).Only Op.IsQuiet :=
  quiet_updateSelfPending fun _ => .bind (.perform trivial) fun _ =>
    .bind (.perform trivial) fun _ => .perform trivial

theorem names_self {p : PeerId} {r : DomainRecord} (h : (r.isValidMagic && r.holder == p) = true) :
    r.holder = p := by
  simp only [Bool.and_eq_true, beq_iff_eq] at h
  exact h.2

/-- The value at which an unpin gives up, as the loop tests it. -/
theorem isUnpinned_iff (w : Nat) : isUnpinned w = true ↔ ¬ (0 < w ∧ w ≠ transferringPins) := by
  simp [isUnpinned]
  omega

variable {W : Type} [DecidableEq W]

/-- Whether an access keeps the windows of a `leaveDomain` still: no exchange
of the pin word succeeds inside one, and the check that opens one does not read
the sentinel of a transfer. -/
def calm (i : Tid W) (o : Op) (_ : Choice) (s : State W) : Bool :=
  match o with
  | .casPin d expected _ _ => !(s.leaving i.1 d && s.pin i.1 d == expected)
  | .hasPins d => s.pin i.1 d != transferringPins
  | _ => true

variable {ch : Choice}

theorem access_quiet {i : Tid W} {o : Op} {s s' : State W} {r : Ret o} (ho : o.IsQuiet)
    (hx : access i o ch s = some (r, s')) : s'.toCore = s.toCore := by
  cases o <;> cases ch <;> simp_all [access, Op.IsQuiet] <;> (obtain ⟨-, rfl⟩ := hx; rfl)

theorem closeSection_crashed (s : State W) (p : PeerId) (t : Thread W) (d : DomainId) :
    (s.closeSection p t d).crashed = s.crashed := rfl

theorem access_crashed {i : Tid W} {o : Op} {s s' : State W} {r : Ret o}
    (hx : access i o ch s = some (r, s')) : s'.crashed = s.crashed := by
  by_cases ho : o.IsQuiet
  · rw [access_quiet ho hx]
  · cases o <;> simp only [Op.IsQuiet, not_true_eq_false, not_false_eq_true] at ho
    case lockControl =>
      match ch with
      | .flag true =>
        simp only [access_lockControl_true] at hx
        grind
      | .flag false =>
        simp only [access_lockControl_false] at hx
        grind
    all_goals
      simp only [access] at hx
      grind [closeSection_crashed]

variable [Fintype W]
variable {M : System (Tid W) Op Ret (State W) Choice Call Env} {leaves : Bool}

/-- The invariant, of a whole state. -/
abbrev StateInv (leaves : Bool) (s : State W) (γ : Tid W → Stage) : Prop := Inv leaves s.toCore γ

/-- The accesses of `M` are those of `exec`, and calm where there are leaves. -/
def Runs (M : System (Tid W) Op Ret (State W) Choice Call Env) (leaves : Bool) : Prop :=
  ∀ i o ch s r s', M.exec i o ch s = some (r, s') →
    exec i o ch s = some (r, s') ∧ (leaves = true → calm i o ch s = true)

omit [DecidableEq W] in
/-- A window that is open is quiet: an exchange that succeeds is outside. -/
theorem not_leaving_of_exchange {s : State W} {γ : Tid W → Stage} {p : PeerId} {t : Thread W}
    {expected desired : Nat} {closing : Bool} (hInv : StateInv leaves s γ)
    (hcalm : leaves = true → calm (p, t) (.casPin d expected desired closing) ch s = true)
    (hw : s.pin p d = expected) : s.leaving p d = false := by
  cases hl : leaves with
  | false => exact hInv.calm hl p d
  | true => simpa [calm, hw] using hcalm hl

/-- Giving up an unpin ends it: the pin was lost in a count that overran. -/
theorem unpin_gives_up {s : State W} {γ : Tid W → Stage} {p : PeerId} {t : Thread W}
    {closing : Bool} (hInv : StateInv leaves s γ) (hv : (γ (p, t)).Unpins d closing)
    (hw : isUnpinned (s.pin p d) = true) :
    StateInv leaves (if closing then s.closeSection p t d else s)
      (update γ (p, t) .idle) := by
  have hend := hInv.unpinned hv (w := s.pin p d) (fun n g hc hn => hc.forget (by
    simpa [isUnpinned] using hw) hn)
  have hpin : setCell s.pin p d (s.pin p d) = s.pin := by
    funext p' d'
    grind
  cases closing <;> simpa [hpin, unpinSections, State.closeSection] using hend

/-- An unpin reads the word: it is over where the word reads 0 or the sentinel, and goes on
where it does not. -/
theorem unpin_reads {s : State W} {γ : Tid W → Stage} {p : PeerId} {t : Thread W} {v : Stage}
    {closing : Bool} (hInv : StateInv leaves s γ) (hγ : γ (p, t) = v) (hv : v.Unpins d closing)
    {Q : Stage → Prop} (hQ : ∀ v', (0 < s.pin p d ∧ s.pin p d ≠ transferringPins →
      v'.Unpins d closing) → (¬ (0 < s.pin p d ∧ s.pin p d ≠ transferringPins) → v' = .idle) →
      Q v') :
    ∃ v', StateInv leaves (if closing && isUnpinned (s.pin p d) then s.closeSection p t d else s)
      (update γ (p, t) v') ∧ Q v' := by
  by_cases hgive : isUnpinned (s.pin p d) = true
  · refine ⟨.idle, ?_, hQ _ (fun hc => absurd hc ((isUnpinned_iff _).mp hgive)) fun _ => rfl⟩
    simpa [hgive] using unpin_gives_up hInv (hγ ▸ hv) hgive
  · refine ⟨v, ?_, hQ _ (fun _ => hv) fun hc => absurd ((isUnpinned_iff _).mpr hc) hgive⟩
    rw [← hγ, update_eq_self]
    simpa [hgive] using hInv

section Accesses

variable {α : Type} (M leaves) (p : PeerId) (t : Thread W)

/-- What a procedure of a thread of peer `p` does to its stage. -/
abbrev Spec (c : Proc α) (Q : α → Stage → Prop) (v : Stage) : Prop :=
  wp M (StateInv leaves) (p, t) c Q v

/-- From idle to idle. -/
abbrev Rests (c : Proc α) : Prop := Spec M leaves p t c (fun _ v => v = .idle) .idle

variable {M leaves} (hM : Runs M leaves) {p t} {d : DomainId} {v : Stage}
include hM

theorem wp_act {o : Op} {Q : Ret o → Stage → Prop}
    (h : ∀ s γ, StateInv leaves s γ → γ (p, t) = v → s.crashed p = false → ∀ ch r s',
      access (p, t) o ch s = some (r, s') → (leaves = true → calm (p, t) o ch s = true) →
      ∃ v', StateInv leaves s' (update γ (p, t) v') ∧ Q r v') :
    Spec M leaves p t (act o) Q v := by
  intro s γ hInv hv ch r s' hx
  obtain ⟨hexec, hcalm⟩ := hM (p, t) o ch s r s' hx
  unfold exec at hexec
  split at hexec
  · simp at hexec
  · rename_i hp
    exact h s γ hInv hv (by simpa using hp) ch r s' hexec hcalm

theorem wp_quiet {c : Proc α} (hc : c.Only Op.IsQuiet) {Q : α → Stage → Prop}
    (h : ∀ a, Q a v) : Spec M leaves p t c Q v := by
  refine wp_only hc ?_ h
  intro o ho s γ ch r s' hInv hx
  obtain ⟨hexec, -⟩ := hM (p, t) o ch s r s' hx
  unfold exec at hexec
  split at hexec
  · simp at hexec
  · rw [StateInv, access_quiet ho hexec]
    exact hInv

theorem wp_quiet_act {o : Op} {Q : Ret o → Stage → Prop} (ho : o.IsQuiet) (h : ∀ r, Q r v) :
    Spec M leaves p t (act o) Q v :=
  wp_quiet hM (.perform ho) h

theorem wp_skip {o : Op} {k : Ret o → Proc α} {Q : α → Stage → Prop} (ho : o.IsQuiet)
    (h : ∀ r, wp M (StateInv leaves) (p, t) (k r) Q v) : Spec M leaves p t (act o >>= k) Q v :=
  .bind <| wp_quiet_act hM ho h

/-! ### local_domain_view.cpp -/

variable {Q : Unit → Stage → Prop}

theorem wp_spin : Spec M leaves p t (act .spin) Q v := by
  refine wp_act hM fun s γ _ _ _ ch r s' hx _ => ?_
  cases hx

theorem wp_pinLoop (hQ : Q () (.pinned d)) (turns cur : Nat) :
    Spec M leaves p t (pinLoop d turns cur) Q .idle := by
  induction turns generalizing cur with
  | zero => exact wp_spin hM
  | succ turns ih =>
    rw [pinLoop]
    split
    · exact wp_skip hM (by trivial) fun cur => ih cur
    · rename_i hcur
      refine .bind <| wp_act hM fun s γ hInv hv hp ch r s' hx hcalm => ?_
      by_cases hw : s.pin p d = cur
      · -- the exchange took effect: this thread has one more pin
        obtain ⟨rfl, rfl⟩ := outcome_eq ((if_pos hw).symm.trans hx)
        have hl := not_leaving_of_exchange hInv hcalm hw
        subst hw
        exact ⟨.pinned d, hInv.pin hv hcur hl, hQ⟩
      · obtain ⟨rfl, rfl⟩ := outcome_eq ((if_neg hw).symm.trans hx)
        exact ⟨.idle, by rwa [← hv, update_eq_self], ih _⟩

theorem wp_pinOwnership (hQ : Q () (.pinned d)) :
    Spec M leaves p t (pinOwnership d) Q .idle := by
  rw [pinOwnership]
  refine wp_skip hM (by trivial) fun cur => ?_
  exact wp_skip hM (by trivial) fun turns => wp_pinLoop hM hQ turns cur

theorem wp_unpinLoop {closing : Bool} (hQ : Q () .idle) (turns cur : Nat) :
    (0 < cur ∧ cur ≠ transferringPins → v.Unpins d closing) →
    (¬ (0 < cur ∧ cur ≠ transferringPins) → v = .idle) →
    Spec M leaves p t (unpinLoop d closing turns cur) Q v := by
  induction turns generalizing cur v with
  | zero => exact fun _ _ => wp_spin hM
  | succ turns ih =>
    intro hcur hout
    rw [unpinLoop]
    split
    · rename_i hc
      refine .bind <| wp_act hM fun s γ hInv hv hp ch r s' hx hcalm => ?_
      have hun := hcur hc
      rw [← hv] at hun
      by_cases hw : s.pin p d = cur
      · obtain ⟨rfl, rfl⟩ := outcome_eq ((if_pos hw).symm.trans hx)
        refine ⟨.idle, ?_, hQ⟩
        have hend := hInv.unpinned hun (w := cur - 1) fun n g hl hn => by
          rw [hw] at hl
          exact hl.unpin hc.2 hn
        cases closing <;> simpa [unpinSections, State.closeSection] using hend
      · obtain ⟨rfl, rfl⟩ := outcome_eq ((if_neg hw).symm.trans hx)
        exact unpin_reads hInv hv (hcur hc) fun v' => ih _
    · rename_i hc
      rw [hout hc]
      exact hQ

theorem wp_unpinOwnership {closing : Bool} (hQ : Q () .idle) (hv : v.Unpins d closing) :
    Spec M leaves p t (unpinOwnership d closing) Q v := by
  rw [unpinOwnership]
  refine wp_skip hM trivial fun turns => ?_
  refine .bind <| wp_act hM fun s γ hInv hstage hp ch r s' hx _ => ?_
  obtain ⟨rfl, rfl⟩ := outcome_eq hx
  exact unpin_reads hInv hstage hv fun v' => wp_unpinLoop hM hQ _ _

theorem wp_tryBeginOwnershipTransfer {Q : Bool → Stage → Prop} (htrue : Q true (.latched d false))
    (hfalse : Q false .idle) :
    Spec M leaves p t (tryBeginOwnershipTransfer d) Q .idle := by
  rw [tryBeginOwnershipTransfer]
  refine .bind <| wp_act hM fun s γ hInv hv hp ch r s' hx hcalm => ?_
  by_cases hw : s.pin p d = 0
  · obtain ⟨rfl, rfl⟩ := outcome_eq ((if_pos hw).symm.trans hx)
    exact ⟨_, hInv.latch hv hw (not_leaving_of_exchange hInv hcalm hw), htrue⟩
  · obtain ⟨rfl, rfl⟩ := outcome_eq ((if_neg hw).symm.trans hx)
    exact ⟨.idle, by rwa [← hv, update_eq_self], hfalse⟩

theorem wp_endOwnershipTransfer {k : Bool} (hQ : Q () .idle) :
    Spec M leaves p t (endOwnershipTransfer d) Q (.latched d k) := by
  refine wp_act hM fun s γ hInv hv hp ch r s' hx _ => ?_
  obtain ⟨-, rfl⟩ := outcome_eq hx
  exact ⟨.idle, hInv.unlatch hv, hQ⟩

/-! ### ownership_transfer.cpp -/

/-- A read of the truth. The thread may go on as before, or rely on what it
read where that is allowed. -/
theorem wp_getRecord {Q : DomainRecord → Stage → Prop} {C : DomainRecord → Prop} (v' : Stage)
    (hlearn : ∀ (s : Core W) γ, Inv leaves s γ → s.crashed p = false → γ (p, t) = v →
      C (s.truth d) → Inv leaves s (update γ (p, t) v'))
    (h : ∀ r : DomainRecord, Q r v ∨ (C r ∧ Q r v')) :
    Spec M leaves p t (act (.getRecord d)) Q v := by
  refine wp_act hM fun s γ hInv hv hp ch r s' hx _ => ?_
  obtain ⟨rfl, rfl⟩ := outcome_eq hx
  rcases h (s.truth d) with hQ | ⟨hC, hQ⟩
  · exact ⟨v, by rwa [← hv, update_eq_self], hQ⟩
  · exact ⟨v', hlearn s.toCore γ hInv hp hv hC, hQ⟩

/-- Under a pin, a truth that names the peer makes it resident. -/
theorem wp_getRecord_pinned {Q : DomainRecord → Stage → Prop}
    (h : ∀ r : DomainRecord, Q r (.pinned d) ∨ (r.holder = p ∧ Q r (.resident d))) :
    Spec M leaves p t (act (.getRecord d)) Q (.pinned d) := by
  refine wp_getRecord hM (.resident d) ?_ h
  intro s γ hInv hp hv hholder
  refine hInv.relabel _ ?_ ?_ ?_ ?_ ?_ ?_ ?_ <;> grind

/-- A pinned thread asks the truth whether it names the peer. -/
theorem wp_namesSelf {a b : DomainRecord → Proc α} {Q : α → Stage → Prop}
    (hyes : ∀ r, Spec M leaves p t (a r) Q (.resident d))
    (hno : ∀ r, Spec M leaves p t (b r) Q (.pinned d)) :
    Spec M leaves p t (do
      let r ← act (.getRecord d)
      if r.isValidMagic && r.holder == p then a r else b r) Q (.pinned d) := by
  refine .bind <| wp_getRecord_pinned hM fun r => ?_
  by_cases hr : (r.isValidMagic && r.holder == p) = true
  · refine .inr ⟨names_self hr, ?_⟩
    rw [if_pos hr]
    exact hyes r
  · left
    rw [if_neg hr]
    exact hno r

/-- The stages of a transfer: under its latch, or in the window of a leave. -/
def IsTransfer (f : Bool → Stage) (d : DomainId) : Prop :=
  f = Stage.latched d ∨ f = Stage.leaving d

variable {f : Bool → Stage}

/-- Under a grip, a truth that names the peer is the transfer's to change. -/
theorem wp_getRecord_gripped (hf : IsTransfer f d) {Q : DomainRecord → Stage → Prop}
    (h : ∀ r : DomainRecord, Q r (f false) ∨ (r.holder = p ∧ Q r (f true))) :
    Spec M leaves p t (act (.getRecord d)) Q (f false) := by
  refine wp_getRecord hM (f true) ?_ h
  intro s γ hInv hp hv hholder
  rcases hf with rfl | rfl <;> refine hInv.relabel _ ?_ ?_ ?_ ?_ ?_ ?_ ?_ <;> grind

theorem wp_publishDomainRecord (hf : IsTransfer f d) (r : DomainRecord) (hQ : Q () (f false)) :
    Spec M leaves p t (publishDomainRecord d r) Q (f true) := by
  rw [publishDomainRecord]
  refine wp_skip hM trivial fun _ => ?_
  refine wp_act hM fun s γ hInv hv hp ch x s' hx _ => ?_
  obtain ⟨-, rfl⟩ := outcome_eq hx
  refine ⟨f false, Inv.publish hInv hp r ?_ ?_ ?_, hQ⟩ <;> rcases hf with rfl | rfl <;> grind

theorem wp_transferOwnership (hf : IsTransfer f d) (dims : Dims) {q : PeerId} (hq : q ≠ p)
    (hQ : Q () (f false)) :
    Spec M leaves p t (transferOwnership dims p d q) Q (f false) := by
  rw [transferOwnership]
  split
  · refine .bind <| wp_getRecord_gripped hM hf fun r => ?_
    by_cases hr : r.isValidMagic = true ∧ r.holder = p
    · -- the truth names this peer: the transfer publishes
      refine .inr ⟨hr.2, ?_⟩
      rw [if_pos hr.1, if_neg (fun h => h.2 hr.2)]
      refine wp_skip hM trivial fun _ => ?_
      exact wp_publishDomainRecord hM hf _ hQ
    · left
      split
      · rename_i hmagic
        rw [if_pos ⟨hq, fun hh => hr ⟨hmagic, hh⟩⟩]
        exact hQ
      · exact wp_quiet_act hM trivial fun _ => hQ
  · exact hQ

theorem wp_transferOwnershipGuarded (dims : Dims) {q : PeerId} (hq : q ≠ p)
    {Q : Bool → Stage → Prop} (hQ : ∀ ok, Q ok .idle) :
    Spec M leaves p t (transferOwnershipGuarded dims p d q) Q .idle := by
  rw [transferOwnershipGuarded]
  refine .bind <| wp_tryBeginOwnershipTransfer hM ?_ (hQ false)
  rw [if_pos rfl]
  refine .bind <| wp_transferOwnership hM (.inl rfl) dims hq ?_
  exact .bind <| wp_endOwnershipTransfer hM (hQ true)

theorem wp_pollTurn : Spec M leaves p t (pollTurn p d)
    (fun a v => if a.isSome then v = .resident d else v = .pinned d) (.pinned d) := by
  rw [pollTurn]
  refine wp_skip hM trivial fun shadow => ?_
  split
  · refine wp_skip hM trivial fun last => ?_
    split
    · refine wp_namesSelf hM (fun r => ?_) fun _ => rfl
      exact .bind <| wp_quiet hM (quiet_adoptOwnership d r.epoch) fun _ => rfl
    · rfl
  · rfl

/-- Where a wait leaves its thread: resident if it arrived, with its pin if not. -/
def Waited (d : DomainId) : OwnershipResult → Stage → Prop
  | .arrived, v => v = .resident d
  | .notArrived, v => v = .pinned d

theorem wp_pollUntilDeadline :
    Spec M leaves p t (pollUntilDeadline p d) (Waited d) (.pinned d) := by
  rw [pollUntilDeadline]
  refine wp_skip hM trivial fun turns => ?_
  refine .bind <| wp_attempt (I := fun v => v = .pinned d) (fun v hv => ?_) (fun v hv => hv) turns rfl
  rw [hv]
  refine wp_mono (fun a v' h => ?_) (wp_pollTurn hM)
  cases a with
  | none => exact h
  | some _ => exact h

theorem wp_waitForOwnership :
    Spec M leaves p t (waitForOwnership p d) (Waited d) (.pinned d) := by
  rw [waitForOwnership]
  refine wp_skip hM trivial fun believed => ?_
  split
  · exact wp_namesSelf hM (fun _ => rfl) fun _ =>
      wp_skip hM trivial fun _ => wp_pollUntilDeadline hM
  · exact wp_pollUntilDeadline hM

theorem wp_holdAndCheckResident : Spec M leaves p t (holdAndCheckResident p d)
    (fun ok v => if ok then v = .resident d else v = .pinned d) .idle := by
  rw [holdAndCheckResident]
  refine .bind <| wp_pinOwnership hM ?_
  refine wp_skip hM trivial fun believed => ?_
  split
  · exact wp_namesSelf hM (fun _ => rfl) fun _ => wp_skip hM trivial fun _ => rfl
  · rfl

theorem wp_unholdDomain (hQ : Q () .idle) :
    Spec M leaves p t (unholdDomain d) Q (.pinned d) :=
  wp_unpinOwnership hM hQ (.inl rfl)

/-! ### The policies -/

/-- Where a lock leaves its thread: resident if it arrived, idle if not. -/
def Locked (d : DomainId) : OwnershipResult → Stage → Prop
  | .arrived, v => v = .resident d
  | .notArrived, v => v = .idle

theorem wp_order_lock : Spec M leaves p t (Order.lock p d) (Locked d) .idle := by
  rw [Order.lock]
  refine .bind <| wp_pinOwnership hM ?_
  refine wp_then (wp_waitForOwnership hM) fun result v hv => ?_
  cases result with
  | arrived => exact hv
  | notArrived =>
    obtain rfl : v = .pinned d := hv
    exact .bind <| wp_unholdDomain hM rfl

theorem wp_lockOnDemand {announce : Proc Unit} (hannounce : announce.Only Op.IsQuiet) :
    Spec M leaves p t (lockOnDemand p d announce) (Locked d) .idle := by
  rw [lockOnDemand]
  refine wp_then (wp_holdAndCheckResident hM) fun ok v hv => ?_
  cases ok with
  | true => exact hv
  | false =>
    obtain rfl : v = .pinned d := hv
    rw [if_neg Bool.false_ne_true]
    refine .bind <| wp_quiet hM hannounce fun _ => ?_
    refine wp_then (wp_waitForOwnership hM) fun result v hv => ?_
    refine .bind <| wp_quiet hM (quiet_updateSelfPending fun _ => .perform trivial) fun _ => ?_
    cases result with
    | arrived => exact hv
    | notArrived =>
      -- the settle-wait
      obtain rfl : v = .pinned d := hv
      refine wp_then (wp_waitForOwnership hM) fun result v hv => ?_
      cases result with
      | arrived => exact hv
      | notArrived =>
        obtain rfl : v = .pinned d := hv
        exact .bind <| wp_unholdDomain hM rfl

section

variable (dims : Dims)

include dims

theorem wp_lock (strategy : Strategy) :
    Spec M leaves p t (lock dims p d strategy) (Locked d) .idle := by
  cases strategy with
  | order => exact wp_order_lock hM
  | request =>
    exact wp_lockOnDemand hM (quiet_updateSelfPending fun _ => .perform trivial)
  | requestAgg => exact wp_lockOnDemand hM (quiet_updateDemandAndSlice dims p d true)

/-- A lock call: returning Arrived turns the thread's pin into a section. -/
theorem wp_lockCall (strategy : Strategy) :
    Rests M leaves p t (lockCall dims p d strategy) := by
  rw [lockCall]
  refine wp_then (wp_lock hM dims strategy) fun result v hv => ?_
  cases result with
  | arrived =>
    obtain rfl : v = .resident d := hv
    refine wp_act hM fun s γ hInv hv hp ch x s' hx _ => ?_
    obtain ⟨-, rfl⟩ := outcome_eq hx
    exact ⟨_, hInv.arrive hv, rfl⟩
  | notArrived => exact hv

theorem wp_tryLockCall (strategy : Strategy) :
    Rests M leaves p t (tryLockCall dims p d strategy) := by
  rw [tryLockCall]
  refine wp_skip hM trivial fun participating => ?_
  split
  · exact wp_lockCall hM dims strategy
  · rfl

theorem wp_grantEach {q : PeerId} (hq : q ≠ p) (ids : List DomainId) (held : DomainBitmap)
    (granted : Bool) {Q : DomainBitmap × Bool → Stage → Prop} (hQ : ∀ a, Q a .idle) :
    Spec M leaves p t (grantEach dims p q ids held granted) Q .idle := by
  induction ids generalizing held granted with
  | nil => exact hQ _
  | cons d rest ih =>
    rw [grantEach]
    exact .bind <| wp_transferOwnershipGuarded hM dims hq fun ok => ih _ _

theorem wp_transferHeldDomains {wanted : PeerId → Proc DomainBitmap}
    (hwanted : ∀ q, (wanted q).Only Op.IsQuiet) (ring : List PeerId) (hring : ∀ q ∈ ring, q ≠ p)
    (held : DomainBitmap) (hQ : Q () .idle) :
    Spec M leaves p t (transferHeldDomains dims p wanted ring held) Q .idle := by
  induction ring generalizing held with
  | nil => exact hQ
  | cons q ring ih =>
    rw [transferHeldDomains]
    split
    · exact hQ
    · refine .bind <| wp_quiet hM (hwanted q) fun bits => ?_
      refine .bind <| wp_grantEach hM dims (hring q (.head _)) _ _ _ fun a => ?_
      exact ih (fun q' hq' => hring q' (List.mem_cons_of_mem q hq')) _

/-- A ring, as its readers use it: it never holds the peer itself. -/
theorem wp_getPeerRing {Q : List PeerId → Stage → Prop}
    (hQ : ∀ ring, (∀ q ∈ ring, q ≠ p) → Q ring v) :
    Spec M leaves p t (getPeerRing dims p) Q v := by
  rw [getPeerRing, getPeerScanBound]
  simp only [wp_bind]
  exact wp_quiet_act hM trivial fun bound => hQ _ fun q hq => ne_of_mem_idRing hq

theorem wp_findSuccessor (ring : List PeerId) {Q : PeerId → Stage → Prop} (hQ : ∀ q, Q q v) :
    Spec M leaves p t (Order.findSuccessor dims p d ring) Q v := by
  induction ring with
  | nil => exact hQ p
  | cons q ring ih =>
    rw [Order.findSuccessor]
    refine .bind <| wp_quiet hM (quiet_getMemberView dims q) fun member => ?_
    split
    · exact hQ q
    · exact ih

theorem wp_transferToRequester (ring : List PeerId) (hring : ∀ q ∈ ring, q ≠ p)
    {Q : Bool → Stage → Prop} (hQ : ∀ ok, Q ok .idle) :
    Spec M leaves p t (Request.transferOwnershipToRequester dims p d ring) Q .idle := by
  induction ring with
  | nil => exact hQ false
  | cons q ring ih =>
    rw [Request.transferOwnershipToRequester]
    refine wp_skip hM trivial fun bits => ?_
    split
    · exact wp_transferOwnershipGuarded hM dims (hring q (.head _)) hQ
    · exact ih fun q' hq' => hring q' (List.mem_cons_of_mem q hq')

theorem wp_offerMembers (slot : AggregatedRequest) (g n start : Nat) (steps : List Nat)
    (held : DomainBitmap) (granted : Bool) {Q : DomainBitmap × Bool → Stage → Prop}
    (hQ : ∀ a, Q a .idle) : Spec M leaves p t
      (RequestAgg.offerMembers dims p slot g n start steps held granted) Q .idle := by
  induction steps generalizing held granted with
  | nil => exact hQ _
  | cons m rest ih =>
    rw [RequestAgg.offerMembers]
    simp only
    split
    · exact ih _ _
    · -- the peer itself was skipped
      rename_i hskip
      rw [RequestAgg.grantHeldToPeer]
      refine .bind <| wp_skip hM trivial fun bits => ?_
      exact wp_grantEach hM dims (fun hq => hskip (.inl hq)) _ _ _ fun a => ih _ _

theorem wp_offerGroups (steps : List Nat) (held : DomainBitmap) (granted : Bool)
    {Q : Bool → Stage → Prop} (hQ : ∀ a, Q a .idle) :
    Spec M leaves p t (RequestAgg.offerGroups dims p steps held granted) Q .idle := by
  induction steps generalizing held granted with
  | nil => exact hQ _
  | cons g rest ih =>
    rw [RequestAgg.offerGroups]
    simp only
    split
    · exact hQ _
    · split
      · exact ih _ _
      · refine wp_skip hM trivial fun slot => ?_
        exact .bind <| wp_offerMembers hM dims slot _ _ _ _ _ _ fun a => ih _ _

end

/-- The sample after the unpin, and the grants it leads to. -/
theorem wp_afterUnpin {grant : Proc Unit}
    (hgrant : Rests M leaves p t grant) :
    Spec M leaves p t
      (do unpinOwnership d true; if ← canTransferDomain d then grant else pure ())
      (fun _ v => v = .idle) (.closing d) := by
  refine .bind <| wp_unpinOwnership hM ?_ rfl
  rw [wp_bind, canTransferDomain, canTransferOwnership]
  refine wp_skip hM (by trivial) fun pins => ?_
  rw [wp_pure]
  split
  · exact hgrant
  · rfl

theorem wp_unlock (dims : Dims) (strategy : Strategy) :
    Spec M leaves p t (unlock dims p d strategy) (fun _ v => v = .idle)
      (.closing d) := by
  cases strategy with
  | order =>
    refine wp_afterUnpin hM ?_
    refine .bind <| wp_getPeerRing hM dims fun ring hring => ?_
    refine .bind <| wp_findSuccessor hM dims ring fun successor => ?_
    split
    · rename_i hne
      exact .bind <| wp_transferOwnershipGuarded hM dims hne fun _ => rfl
    · rfl
  | request =>
    refine wp_afterUnpin hM ?_
    refine .bind <| wp_getPeerRing hM dims fun ring hring => ?_
    exact .bind <| wp_transferToRequester hM dims ring hring fun _ => rfl
  | requestAgg =>
    refine wp_afterUnpin hM ?_
    exact .bind <| wp_offerGroups hM dims _ _ _ fun _ => rfl

theorem wp_pollCycle (dims : Dims) (strategy : Strategy) :
    Rests M leaves p t (pollCycle dims p strategy) := by
  cases strategy with
  | order =>
    rw [pollCycle, Order.pollCycle]
    refine .bind <| wp_quiet hM (quiet_reconcileAndCollect p) fun held => ?_
    split
    · rfl
    · refine .bind <| wp_getPeerRing hM dims fun ring hring => ?_
      refine wp_transferHeldDomains hM dims (fun q => ?_) ring hring held rfl
      exact .bind (quiet_getMemberView dims q) fun _ => .pure _
  | request =>
    rw [pollCycle, Request.pollCycle]
    refine .bind <| wp_quiet hM (quiet_collectOnDemand p) fun held => ?_
    split
    · rfl
    · refine .bind <| wp_getPeerRing hM dims fun ring hring => ?_
      exact wp_transferHeldDomains hM dims (fun q => .perform trivial) ring hring held rfl
  | requestAgg =>
    rw [pollCycle, RequestAgg.pollCycle]
    refine .bind <| wp_quiet hM (quiet_refreshAggregatedRequest dims p) fun _ => ?_
    refine .bind <| wp_quiet hM (quiet_collectOnDemand p) fun held => ?_
    split
    · rfl
    · exact .bind <| wp_offerGroups hM dims _ _ _ fun _ => rfl

/-! ### Recovery and leaving -/

variable {dead : PeerId}

/-- In a pass, a record that names the dead peer is the authority's to seize. -/
theorem wp_getRecord_passing {Q : DomainRecord → Stage → Prop}
    (h : ∀ r : DomainRecord, Q r (.passing dead) ∨ (r.holder = dead ∧ Q r (.seizing dead d))) :
    Spec M leaves p t (act (.getRecord d)) Q (.passing dead) := by
  refine wp_getRecord hM (.seizing dead d) ?_ h
  intro s γ hInv hp hv hholder
  have hpass := hInv.passing p t dead hp (by rw [hv]; rfl)
  refine hInv.relabel _ ?_ ?_ ?_ ?_ ?_ ?_ ?_ <;> grind

/-- An authority that was deposed keeps its hands off the record it read. -/
theorem wp_askClaimHeld {Q : Bool → Stage → Prop} (htrue : Q true (.seizing dead d))
    (hfalse : Q false (.passing dead)) :
    Spec M leaves p t (act (.askClaimHeld dead)) Q (.seizing dead d) := by
  refine wp_act hM fun s γ hInv hv hp ch r s' hx _ => ?_
  have hcore : s'.toCore = s.toCore := access_quiet (by trivial) hx
  have hpass := hInv.passing p t dead hp (by rw [hv]; rfl)
  simp only [StateInv, hcore]
  cases r with
  | true => exact ⟨_, by rwa [← hv, update_eq_self], htrue⟩
  | false =>
    refine ⟨_, ?_, hfalse⟩
    refine Inv.relabel hInv _ ?_ ?_ ?_ ?_ ?_ ?_ ?_ <;> grind

theorem wp_takeoverOwnership (base : DomainRecord) (hQ : Q () (.passing dead)) :
    Spec M leaves p t (takeoverOwnership p d base) Q (.seizing dead d) := by
  rw [takeoverOwnership, publishDomainRecord]
  refine .bind <| wp_skip hM trivial fun _ => ?_
  refine wp_act hM fun s γ hInv hv hp ch x s' hx _ => ?_
  obtain ⟨-, rfl⟩ := outcome_eq hx
  exact ⟨_, hInv.seize hp hv, wp_quiet hM (quiet_adoptOwnership d _) fun _ => hQ⟩

theorem wp_takeoverDomains (ids : List DomainId) (pass : TakeoverPass)
    {Q : TakeoverPass → Stage → Prop} (hQ : ∀ pass, Q pass (.passing dead)) :
    Spec M leaves p t (takeoverDomains p dead ids pass) Q (.passing dead) := by
  induction ids generalizing pass with
  | nil => exact hQ pass
  | cons d rest ih =>
    rw [takeoverDomains]
    refine .bind <| wp_getRecord_passing hM fun r => ?_
    by_cases hr : r.holder = dead
    · refine .inr ⟨hr, ?_⟩
      rw [if_pos hr]
      refine .bind <| wp_askClaimHeld hM ?_ (hQ _)
      rw [if_pos rfl]
      exact .bind <| wp_takeoverOwnership hM _ (ih .touched)
    · left
      rw [if_neg hr]
      exact ih pass

theorem wp_takeoverCall (dims : Dims) (dead : PeerId) :
    Rests M leaves p .poll (takeoverCall dims p dead) := by
  rw [takeoverCall]
  refine .bind <| wp_act hM fun s γ hInv hv hp ch x s' hx _ => ?_
  obtain ⟨hdead, hx⟩ := of_guard hx
  obtain ⟨-, rfl⟩ := Prod.mk.inj hx
  rw [Bool.and_eq_true] at hdead
  refine ⟨_, hInv.beginPass hv hdead.1 hdead.2, ?_⟩
  refine .bind <| wp_takeoverDomains hM _ _ fun _ => ?_
  refine wp_act hM fun s γ hInv hv hp ch x s' hx _ => ?_
  obtain ⟨-, rfl⟩ := outcome_eq hx
  exact ⟨_, hInv.endPass hp hv, rfl⟩

theorem wp_getSuccessorOnLeave (ring : List PeerId) (hring : ∀ q ∈ ring, q ≠ p)
    {Q : PeerId → Stage → Prop} (hQ : ∀ q, q = noPeer ∨ q ≠ p → Q q v) :
    Spec M leaves p t (getSuccessorOnLeave d ring) Q v := by
  induction ring with
  | nil => exact hQ noPeer (.inl rfl)
  | cons q ring ih =>
    rw [getSuccessorOnLeave]
    refine wp_skip hM trivial fun member => ?_
    split
    · exact hQ q (.inr (hring q (.head _)))
    · exact ih fun q' hq' => hring q' (List.mem_cons_of_mem q hq')

theorem wp_quitLeave {k : Bool} (hQ : Q () .ruling) :
    Spec M leaves p t (act (.quitLeave d)) Q (.leaving d k) := by
  refine wp_act hM fun s γ hInv hv hp ch x s' hx _ => ?_
  obtain ⟨-, rfl⟩ := outcome_eq hx
  refine ⟨_, ?_, hQ⟩
  -- the word is at 0 as long as the window is open
  have hw : s.pin p d = 0 := (hInv.cells p d).still t (by simp [hv, Stage.grip])
  have hpin : setCell s.pin p d 0 = s.pin := by
    funext p' d'
    grind
  simpa [hpin] using hInv.closeWindow hv

theorem wp_resetPins {k : Bool} (hQ : Q () .ruling) :
    Spec M leaves p t (act (.resetPins d)) Q (.leaving d k) := by
  refine wp_act hM fun s γ hInv hv hp ch x s' hx _ => ?_
  obtain ⟨-, rfl⟩ := outcome_eq hx
  exact ⟨_, hInv.closeWindow hv, hQ⟩

theorem wp_leaveDomain (dims : Dims) {Q : LeaveResult → Stage → Prop} (hQ : ∀ a, Q a .ruling) :
    Spec M leaves p t (leaveDomain dims p d) Q (.leaving d false) := by
  rw [leaveDomain]
  refine wp_skip hM trivial fun participating => ?_
  split
  · refine .bind <| wp_getPeerRing hM dims fun ring hring => ?_
    refine .bind <| wp_getSuccessorOnLeave hM ring hring fun q hq => ?_
    split
    · exact .bind <| wp_quitLeave hM (hQ _)
    · rename_i hsome
      have hend : Spec M leaves p t
          (do act (.resetPins d); act (.clearParticipation d); pure LeaveResult.ok) Q
          (.leaving d false) := by
        refine .bind <| wp_resetPins hM ?_
        exact wp_skip hM trivial fun _ => hQ _
      refine wp_skip hM trivial fun record => ?_
      split
      · exact .bind <| wp_transferOwnership hM (.inr rfl) dims (hq.resolve_left hsome) hend
      · exact hend
  · exact .bind <| wp_quitLeave hM (hQ _)

theorem wp_hasPins {Q : Bool → Stage → Prop} (hl : leaves = true) (htrue : Q true .ruling)
    (hfalse : Q false (.leaving d false)) :
    Spec M leaves p t (act (.hasPins d)) Q .ruling := by
  refine wp_act hM fun s γ hInv hv hp ch r s' hx hcalm => ?_
  have hne : s.pin p d ≠ transferringPins := by simpa [calm] using hcalm hl
  subst hl
  by_cases hw : s.pin p d = 0
  · obtain ⟨rfl, rfl⟩ := outcome_eq ((if_neg fun h => h.1 hw).symm.trans hx)
    exact ⟨_, Inv.openWindow hInv hv hw, hfalse⟩
  · obtain ⟨rfl, rfl⟩ := outcome_eq ((if_pos ⟨hw, hne⟩).symm.trans hx)
    exact ⟨_, by rwa [← hv, update_eq_self], htrue⟩

theorem wp_leaveDomainLocked (hl : leaves = true) (dims : Dims) (expected : Option Nat)
    {Q : Except PeerError LeaveResult → Stage → Prop} (hQ : ∀ a, Q a .ruling) :
    Spec M leaves p t (leaveDomainLocked dims p d expected) Q .ruling := by
  have hrefuse : (refuseReplacedDomain d expected).Only Op.IsQuiet := by
    cases expected with
    | none => exact .pure _
    | some e => exact .bind (.bind (.perform trivial) fun _ => .pure _) fun _ => .pure _
  rw [leaveDomainLocked]
  refine .bind <| wp_quiet hM hrefuse fun replaced => ?_
  split
  · exact hQ _
  · refine .bind <| wp_hasPins hM hl (hQ _) ?_
    rw [if_neg Bool.false_ne_true]
    exact .bind <| wp_leaveDomain hM dims fun a => hQ _

theorem wp_leaveCall (hl : leaves = true) (dims : Dims) (expected : Option Nat) :
    Rests M leaves p t (leaveCall dims p d expected) := by
  rw [leaveCall, peerLeaveDomain]
  refine .bind ?_
  split
  · rfl
  · split
    · rfl
    · refine .bind <| wp_act hM fun s γ hInv hv hp ch r s' hx _ => ?_
      cases ch with
      | flag taken =>
        cases taken with
        | false =>
          obtain ⟨rfl, rfl⟩ := outcome_eq hx
          exact ⟨.idle, by rwa [← hv, update_eq_self], rfl⟩
        | true =>
          obtain ⟨hc, hx⟩ := of_unless hx
          obtain ⟨rfl, rfl⟩ := Prod.mk.inj hx
          refine ⟨.ruling, hInv.lockControl hv (Bool.eq_false_iff.mpr hc), ?_⟩
          rw [if_pos rfl]
          refine .bind <| wp_leaveDomainLocked hM hl dims expected fun result => ?_
          refine .bind <| wp_act hM fun s γ hInv hv hp ch r s' hx _ => ?_
          obtain ⟨-, rfl⟩ := outcome_eq hx
          refine ⟨.idle, hInv.unlockControl hv, ?_⟩
          split <;> rfl
      | _ => cases hx

end Accesses

end Cme.Ownership
