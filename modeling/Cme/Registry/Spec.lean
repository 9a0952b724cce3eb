import Cme.Registry.Moves

/-!
# Registry — what each procedure does

One specification per procedure of `Lifecycle`, proved from the writes of
`Moves` and from the specifications of the procedures it calls. Inside a control
section the mode is `⟨true, none⟩`, and `⟨true, some h⟩` once a create has
published the incarnation `h`.
-/

namespace Cme.Registry

open Function Interleave Interleave.Prog

variable {T : Type}

/-- No peer publishes its participation in a slot that is not listed yet. -/
def joinsListed (_ : Tid T) (o : Op) (_ : Choice) (s : State T) : Bool :=
  match o with
  | .setParticipation d => !s.unlisted d
  | _ => true

/-- A peer begins no lock of a domain during a leave or a delete of its own of
that domain, and neither of these during such a lock or with a Guard out. -/
def retiresApart (i : Tid T) (o : Op) (_ : Choice) (s : State T) : Bool :=
  match o with
  | .beginUse d => (s.retiring d).all fun j => j.1 ≠ i.1
  | .beginRetire d =>
    ((s.users d).all fun j => i.1 ≠ j.1) && s.guards.all fun g => !(g.2.id = d && i.1 = g.1)
  | _ => true

variable {f : Flags} {dims : Dims} {i : Tid T}

/-! ### Facts -/

section Facts

variable {v : Mode}

section

variable (hv : v.inside = true)

include hv

theorem stable_life (d : DomainId) (l : DomainRecord.Life) :
    Stable ((pact f dims).rely i v) fun s => (s.record d).life = l :=
  fun _ _ h hl => ((h.2 hv).life d).trans hl

theorem stable_isActive (d : DomainId) (b : Bool) :
    Stable ((pact f dims).rely i v) fun s => (s.record d).isActive = b :=
  fun _ _ h hb => (isActive_of_life ((h.2 hv).life d)).trans hb

theorem stable_absent (q : PeerId) (d : DomainId) :
    Stable ((pact f dims).rely i v) fun s => (s.member q).isActiveIn d = false := by
  intro s s' h ha
  by_contra hq
  obtain ⟨hs, hb⟩ := Member.isActiveIn_iff.mp (by simpa using hq)
  have := Member.isActiveIn_iff.mpr ⟨(h.2 hv).active q hs, (h.2 hv).bits q d hb⟩
  cases ha.symm.trans this

theorem stable_unjoined (q : PeerId) (d : DomainId) :
    Stable ((pact f dims).rely i v) fun s => (s.member q).participating.has d = false := by
  intro s s' h hb
  by_contra hq
  cases hb.symm.trans ((h.2 hv).bits q d (by simpa using hq))

end

theorem stable_retiring (d : DomainId) :
    Stable ((pact f dims).rely i v) fun s => i ∈ s.retiring d :=
  fun _ _ h hd => h.1.retiring d hd

theorem stable_mayClear (hv : v.inside = true) (d : DomainId) :
    Stable ((pact f dims).rely i v) fun s => MayClear s i d :=
  fun s s' h hd => hd.imp (h.1.retiring d) (stable_unjoined hv i.1 d s s' h)

end Facts

variable [DecidableEq T]

/-- An access as it is made in the runs meant: by a live peer, on the line it loaded if it
moves a record outside a control section, and as the flags say. -/
structure Ran (f : Flags) (i : Tid T) (o : Op) (ch : Choice) (s : State T) (r : Ret o)
    (s' : State T) : Prop where
  live : s.crashed i.1 = false
  accessed : access i o ch s = some (r, s')
  lands : landsAsLoaded i o ch s = true
  listed : f.listed = true → joinsListed i o ch s = true
  apart : f.settled = true → retiresApart i o ch s = true

def Runs (M : System (Tid T) Op Ret (State T) Choice Call Env) (f : Flags) : Prop :=
  ∀ i o ch s r s', M.exec i o ch s = some (r, s') → Ran f i o ch s r s'

variable {M : System (Tid T) Op Ret (State T) Choice Call Env} {F : Mode → State T → Prop}

theorem Runs.accessed (hM : Runs M f) {o : Op} {ch : Choice} {r : Ret o} {s s' : State T}
    (hx : M.exec i o ch s = some (r, s')) : access i o ch s = some (r, s') :=
  (hM i o ch s r s' hx).accessed

/-! ### Quiet code -/

theorem triple_quiet (hM : Runs M f) {α : Type} {p : Proc α} (hp : p.Only Op.IsQuiet) :
    triple (pact f dims) M i F p fun _ => F := by
  refine triple_only hp fun o ho s μ hInv _ ch r s' hx => ?_
  have hs := same_of_quiet ho (hM.accessed hx)
  exact ⟨hInv.same hs, fun j => hs.rely j (μ j)⟩

theorem triple_quiet_act (hM : Runs M f) (o : Op) (ho : o.IsQuiet) :
    triple (pact f dims) M i F (act o) fun _ => F :=
  triple_quiet hM (.perform ho)

theorem triple_learn (hM : Runs M f) (o : Op) (ho : o.IsQuiet) {G : Ret o → State T → Prop}
    (hG : ∀ v s ch r s', F v s → access i o ch s = some (r, s') → G r s')
    (hstable : ∀ v s, F v s → ∀ r, Stable ((pact f dims).rely i v) (G r)) :
    triple (pact f dims) M i F (act o) fun r v s => F v s ∧ G r s := by
  refine triple_passive (G := fun r _ s => G r s) fun s μ hInv hF ch r s' hx => ?_
  have hs := same_of_quiet ho (hM.accessed hx)
  exact ⟨hInv.same hs, fun j => hs.rely j (μ j), hG _ s ch r s' hF (hM.accessed hx),
    hstable _ s hF r⟩

/-- The accesses of code that moves records. -/
def Op.IsMove (o : Op) : Prop := o.IsQuiet ∨ ∃ d e, o = .word (.setRecord d e)

/-- Outside a control section a store leaves the life of its record, and so all that the
invariant asks. -/
theorem triple_outside (hM : Runs M f) {α : Type} {p : Proc α} (hp : p.Only Op.IsMove)
    (hout : ∀ v s, F v s → v.inside = false) : triple (pact f dims) M i F p fun _ => F := by
  refine triple_only hp fun o ho s μ hInv hF ch r s' hx => ?_
  have hran := hM i o ch s r s' hx
  have hs : Same s s' := by
    obtain ho | ⟨d, e, rfl⟩ := ho
    · exact same_of_quiet ho hran.accessed
    obtain ⟨-, rfl⟩ := outcome_eq hran.accessed
    -- its thread is not inside, so the line is as it was loaded
    have hnot : s.control ≠ some i := fun hc => by
      have hin := (hInv.inside i).mpr ⟨hc, hran.live⟩
      rw [hout _ s hF] at hin
      cases hin
    have hlands : (decide (s.control = some i) || decide (e.life = (s.record d).life)) = true :=
      hran.lands
    rw [decide_eq_false hnot, Bool.false_or, decide_eq_true_eq] at hlands
    exact same_storeRecord hlands
  exact ⟨hInv.same hs, fun j => hs.rely j (μ j)⟩

variable {d : DomainId} {e : DomainRecord}

theorem triple_loadRecord (hM : Runs M f) (hin : ∀ v s, F v s → v.inside = true) (d : DomainId) :
    triple (pact f dims) M i F (loadRecord d)
      fun e v s => F v s ∧ (s.record d).life = e.life := by
  refine triple_learn hM (.word (.getRecord d)) trivial (fun v s ch e s' _ hx => ?_) fun v s hF e =>
    stable_life (hin v s hF) d e.life
  cases hx
  rfl

theorem quiet_syncDomainView (d : DomainId) : (syncDomainView d).Only Op.IsQuiet :=
  .bind (.perform trivial) fun _ => .pure _

theorem quiet_firstActiveIn (d : DomainId) (ring : List PeerId) :
    (firstActiveIn d ring).Only Op.IsQuiet := by
  induction ring with
  | nil => exact .pure _
  | cons q ring ih => exact .bind (.perform trivial) fun _ => .ite (.pure _) ih

theorem quiet_getSuccessorOnLeave (self : PeerId) (d : DomainId) :
    (getSuccessorOnLeave dims self d).Only Op.IsQuiet :=
  .bind (.bind (.perform trivial) fun _ => .pure _) fun _ => quiet_firstActiveIn d _

theorem quiet_findNamedAmong (name : Text) (l : List DomainId) :
    (findNamedAmong name l).Only Op.IsQuiet := by
  induction l with
  | nil => exact .pure _
  | cons d l ih => exact .bind (.perform trivial) fun _ => .ite (.pure _) ih

theorem quiet_refuseReplacedDomain (d : DomainId) (expected : Option Nat) :
    (refuseReplacedDomain d expected).Only Op.IsQuiet := by
  cases expected with
  | none => exact .pure _
  | some g => exact .lift (.bind (.bind (.perform trivial) fun _ => .pure _) fun _ => .pure _)

theorem quiet_holdDomain (d : DomainId) : (words (Ownership.holdDomain d)).Only Op.IsQuiet := by
  have hloop : ∀ turns cur, (Ownership.pinLoop d turns cur).Only fun o => (Op.word o).IsQuiet := by
    intro turns
    induction turns with
    | zero => exact fun cur => .perform trivial
    | succ turns ih =>
      refine fun cur => .ite (.bind (.perform trivial) fun _ => ih _)
        (.bind (.perform trivial) fun found => ?_)
      cases found
      · exact .pure _
      · exact ih _
  exact .lift (.bind (.perform trivial) fun _ => .bind (.perform trivial) fun _ => hloop _ _)

theorem quiet_unpinOwnership (d : DomainId) (closing : Bool) :
    (words (Ownership.unpinOwnership d closing)).Only Op.IsQuiet := by
  have hloop : ∀ turns cur,
      (Ownership.unpinLoop d closing turns cur).Only fun o => (Op.word o).IsQuiet := by
    intro turns
    induction turns with
    | zero => exact fun cur => .perform trivial
    | succ turns ih =>
      refine fun cur => .ite (.bind (.perform trivial) fun found => ?_) (.pure _)
      cases found
      · exact .pure _
      · exact ih _
  exact .lift (.bind (.perform trivial) fun _ => .bind (.perform trivial) fun _ => hloop _ _)

theorem quiet_adoptOwnership (d : DomainId) (epoch : Nat) :
    (words (Ownership.adoptOwnership d epoch)).Only Op.IsQuiet :=
  .lift (.bind (.perform trivial) fun _ => .bind (.perform trivial) fun _ => .perform trivial)

theorem quiet_policyLock (d : DomainId) : (policyLock d).Only Op.IsQuiet :=
  .bind (quiet_holdDomain d) fun _ => .bind (.perform trivial) fun _ =>
    .ite (.pure _) (.bind (quiet_unpinOwnership d false) fun _ => .pure _)

theorem quiet_lock (d : DomainId) : (lock dims d).Only Op.IsQuiet :=
  .ite (.pure _) <| .bind (.perform trivial) fun _ =>
    .ite (.bind (quiet_policyLock d) fun _ => .ite (.pure _) (.pure _)) (.pure _)

/-- Shared procedures make no other accesses than to their words. -/
theorem moves_words {α : Type} (p : Ownership.Proc α) : (words p).Only Op.IsMove := by
  induction p with
  | done a => trivial
  | call o k ih =>
    refine ⟨?_, ih⟩
    cases o
    case setRecord d e => exact .inr ⟨d, e, rfl⟩
    all_goals exact .inl trivial

theorem moves_grant (self : PeerId) (d : DomainId) (q : PeerId) :
    (grant dims self d q).Only Op.IsMove :=
  .bind (moves_words _) fun _ => .pure _

theorem moves_releaseInternal (self : PeerId) (d : DomainId) :
    (releaseInternal dims self d).Only Op.IsMove := by
  refine .bind (.perform (.inl trivial)) fun _ => .bind (moves_words _) fun _ =>
    .bind (moves_words _) fun _ => .ite (.bind (.perform (.inl trivial)) fun q => ?_) (.pure _)
  cases q with
  | none => exact .pure _
  | some q => exact moves_grant self d q

theorem moves_moveRecord (self : PeerId) (d : DomainId) (move : Move) :
    (moveRecord dims self d move).Only Op.IsMove := by
  cases move with
  | grant q => exact moves_grant self d q
  | takeover => exact .bind (.perform (.inl trivial)) fun _ => moves_words _
  | vacate => exact moves_words _

theorem quiet_resolveHandle (name : Text) : (resolveHandle dims name).Only Op.IsQuiet := by
  refine .bind (quiet_findNamedAmong name _) fun r => ?_
  cases r <;> exact .pure _

theorem quiet_refuseStaleHandle (h : DomainHandle) : (refuseStaleHandle dims h).Only Op.IsQuiet :=
  .ite (.pure _) <| .bind (.ite (.pure _) (.bind (.perform trivial) fun _ => .pure _)) fun _ =>
    .pure _

/-! ### The scans of a control section -/

theorem carries_of_life {e e' : DomainRecord} (h : e'.life = e.life) (name : Text) :
    e'.carries name = e.carries name := by
  rw [DomainRecord.carries, DomainRecord.carries, isValidMagic_of_life h, isActive_of_life h,
    getName_of_life h]

section

variable (hM : Runs M f)

include hM

section

variable (hin : ∀ v s, F v s → v.inside = true)

include hin

/-- A name walk that finds nothing has seen every record of its range. -/
theorem triple_findNamedAmong (name : Text) (l : List DomainId) :
    triple (pact f dims) M i F (findNamedAmong name l) fun r v s =>
      F v s ∧ (r = none → ∀ d ∈ l, (s.record d).carries name = false) := by
  induction l generalizing F with
  | nil => exact .pure fun v s hF => ⟨hF, fun _ d hd => by simp at hd⟩
  | cons d l ih =>
    refine (triple_loadRecord hM hin d).bind fun e => ?_
    refine .ite (fun _ => .pure fun v s hF => ⟨hF.1, fun h => by simp at h⟩)
      fun hmiss => ?_
    refine (ih fun v s hF => hin v s hF.1).post fun r v s hF => ⟨hF.1.1, fun hr d' hd' => ?_⟩
    rcases List.mem_cons.mp hd' with rfl | hd'
    · rw [carries_of_life hF.1.2]
      simpa [DomainRecord.carries] using hmiss
    · exact hF.2 hr d' hd'

theorem triple_findEmptyAmong (l : List DomainId) :
    triple (pact f dims) M i F (findEmptyAmong l) fun r v s => F v s ∧ ∀ d, r = some d →
      d ∈ l ∧ (s.record d).isValidMagic = true ∧ (s.record d).isActive = false := by
  induction l generalizing F with
  | nil => exact .pure fun v s hF => ⟨hF, fun d hd => by simp at hd⟩
  | cons d l ih =>
    refine (triple_loadRecord hM hin d).bind fun e => ?_
    refine .ite (fun hhit => .pure fun v s hF => ⟨hF.1, fun d' hd' => ?_⟩) fun _ => ?_
    · cases hd'
      rw [isValidMagic_of_life hF.2, isActive_of_life hF.2]
      exact ⟨.head _, by simpa using hhit⟩
    · refine (ih fun v s hF => hin v s hF.1).post fun r v s hF => ⟨hF.1.1, fun d' hd' => ?_⟩
      exact ⟨.tail _ (hF.2 d' hd').1, (hF.2 d' hd').2⟩

theorem triple_anyOtherActiveIn (self : PeerId) (d : DomainId) (l : List PeerId) :
    triple (pact f dims) M i F (anyOtherActiveIn self d l) fun r v s =>
      F v s ∧ (r = false → ∀ q ∈ l, q ≠ self → (s.member q).isActiveIn d = false) := by
  induction l generalizing F with
  | nil => exact .pure fun v s hF => ⟨hF, fun _ q hq => by simp at hq⟩
  | cons q l ih =>
    rw [anyOtherActiveIn]
    refine .ite (fun hself => ?_) fun _ => ?_
    · refine (ih hin).post fun r v s hF => ⟨hF.1, fun hr q' hq' hne => ?_⟩
      rcases List.mem_cons.mp hq' with rfl | hq'
      · exact absurd hself hne
      · exact hF.2 hr q' hq' hne
    have hload : triple (pact f dims) M i F (act (.loadMember q)) fun m v s =>
        F v s ∧ (m.isActiveIn d = false → (s.member q).isActiveIn d = false) := by
      refine triple_learn hM (.loadMember q) trivial (fun v s ch m s' _ hx => ?_) fun v s hF m =>
        .imp fun _ => stable_absent (hin v s hF) q d
      cases hx
      exact id
    refine hload.bind fun m => .ite
      (fun _ => .pure fun v s hF => ⟨hF.1, fun h => by simp at h⟩) fun hm => ?_
    refine (ih fun v s hF => hin v s hF.1).post fun r v s hF =>
      ⟨hF.1.1, fun hr q' hq' hne => ?_⟩
    rcases List.mem_cons.mp hq' with rfl | hq'
    · exact hF.1.2 (by simpa using hm)
    · exact hF.2 hr q' hq' hne

/-- The scan covers every Active member, because the scan bound does. -/
theorem triple_hasOtherParticipant (self : PeerId) (d : DomainId) :
    triple (pact f dims) M i F (hasOtherParticipant dims self d) fun r v s =>
      F v s ∧ (r = false → ∀ q, q ≠ self → (s.member q).isActiveIn d = false) := by
  have hbound : triple (pact f dims) M i F (loadPeerScanBound dims) fun b v s =>
      F v s ∧ scanBound dims s.peerScanBound = b := by
    refine (triple_learn hM .loadPeerScanBound trivial (G := fun b s => s.peerScanBound = b)
      (fun v s ch b s' _ hx => ?_) fun v s hF b => ?_).bind fun b =>
        .pure fun v s hF => ⟨hF.1, by rw [hF.2]; rfl⟩
    · cases hx
      rfl
    · exact fun _ _ h hb => ((h.2 (hin v s hF)).bound).trans hb
  refine hbound.bind fun b => ?_
  refine (triple_anyOtherActiveIn hM (F := fun v s => F v s ∧
    scanBound dims s.peerScanBound = b) (fun v s hF => hin v s hF.1) self d _).conseq
    (fun _ _ _ hF => hF) fun r s μ hInv hF => ⟨hF.1.1, fun hr q hne => ?_⟩
  by_contra hq
  have hq : (s.member q).isActiveIn d = true := by simpa using hq
  have hlt : q < b := hF.1.2 ▸ hInv.bound q (Member.isActiveIn_iff.mp hq).1
  cases (hF.2 hr q (List.mem_range.mpr hlt) hne).symm.trans hq

end

/-! ### The writes of a control section -/

/-- Moving the holder of a record leaves its life. -/
theorem triple_storeRecord_same (hF : ∀ v s, F v s → (s.record d).life = e.life) :
    triple (pact f dims) M i F (act (.word (.setRecord d e))) fun _ => F := by
  refine (triple_passive (G := fun _ _ _ => True) fun s μ hInv hs ch r s' hx => ?_).post
    fun _ _ _ h => h.1
  obtain ⟨-, rfl⟩ := outcome_eq (hM.accessed hx)
  have hsame : Same s (s.storeRecord d e) := same_storeRecord (hF _ s hs).symm
  exact ⟨hInv.same hsame, fun j => hsame.rely j (μ j), trivial, .const _⟩

theorem triple_setParticipation {w : Mode} (hw : w.inside = true) (d : DomainId) :
    triple (pact f dims) M i (fun v s => v = w ∧ (s.record d).isActive = true)
      (act (.setParticipation d)) fun _ v _ => v = w := by
  refine .perform fun s μ hInv hs ch r s' hx => ⟨w, ?_, rfl, .const _, fun j hj => ?_⟩ <;>
    obtain ⟨-, hx, -, hlisted, -⟩ := hM i _ ch s r s' hx <;>
    cases hx
  · rw [← hs.1, update_eq_self]
    exact hInv.setParticipation hs.2 fun hf => by simpa [joinsListed] using hlisted hf
  · exact hInv.rely_inside (hs.1 ▸ hw) hj (out_setParticipation i.1 d j)

theorem triple_clearParticipation {w : Mode} (hw : w.inside = true) (d : DomainId)
    {G : State T → Prop} (hG : ∀ s, G s → G (s.setBit i.1 d false))
    (hstable : Stable ((pact f dims).rely i w) G) :
    triple (pact f dims) M i (fun v s => v = w ∧ MayClear s i d ∧ G s)
      (act (.clearParticipation d)) fun _ v s =>
        v = w ∧ (s.member i.1).participating.has d = false ∧ G s := by
  refine .perform fun s μ hInv hs ch r s' hx => ⟨w, ?_, ?_, ?_, fun j hj => ?_⟩ <;>
    obtain ⟨-, rfl⟩ := outcome_eq (hM.accessed hx)
  · rw [← hs.1, update_eq_self]
    exact hInv.clearParticipation hs.2.1
  · exact ⟨rfl, setBit_cleared i.1 d, hG s hs.2.2⟩
  · exact (Stable.const _).and ((stable_unjoined hw i.1 d).and hstable)
  · exact hInv.rely_inside (hs.1 ▸ hw) hj (hInv.out_clearParticipation hs.2.1 j)

/-- The mode of a thread inside. -/
def Mode.within (mint : Option DomainHandle) : Mode := ⟨true, mint⟩

theorem triple_freeSlot : triple (pact f dims) M i (fun v s => v = .within none ∧ MayClear s i d ∧
        (s.record d).life = e.life ∧ ∀ q, q ≠ i.1 → (s.member q).isActiveIn d = false)
      (freeSlot d e) fun _ v _ => v = .within none := by
  refine (triple_clearParticipation hM rfl d (G := fun s => (s.record d).life = e.life ∧
    ∀ q, q ≠ i.1 → (s.member q).isActiveIn d = false) (fun s hs => ⟨hs.1, fun q hq => ?_⟩) ?_).bind
      fun _ => ?_
  · rw [setBit_isActiveIn_ne false fun h => hq h.1]
    exact hs.2 q hq
  · exact (stable_life rfl d _).and (.all fun q => .imp fun _ => stable_absent rfl q d)
  have hstore : triple (pact f dims) M i (fun v s => v = .within none ∧
        (s.member i.1).participating.has d = false ∧ (s.record d).life = e.life ∧
        ∀ q, q ≠ i.1 → (s.member q).isActiveIn d = false)
      (act (.word (.setRecord d e.freed))) fun _ v s =>
        v = .within none ∧ (s.record d).isActive = false := by
    refine .perform fun s μ hInv hs ch r s' hx => ⟨.within none, ?_, ?_, ?_, ?_⟩ <;>
      obtain ⟨-, rfl⟩ := outcome_eq (hM.accessed hx)
    all_goals
      have hnone : ∀ q, (s.member q).isActiveIn d = false := fun q => by
        by_cases hq : q = i.1
        · rw [hq, Member.isActiveIn, hs.2.1, Bool.and_false]
        · exact hs.2.2.2 q hq
    · rw [← hs.1, update_eq_self]
      exact hInv.free hs.2.2.1.symm hnone
    · exact ⟨rfl, (congrArg _ (storeRecord_record d _)).trans (freed_isActive e)⟩
    · exact (Stable.const _).and (stable_isActive rfl d false)
    · exact fun j hj => hInv.rely_inside (by rw [hs.1]; rfl) hj (out_free e hnone j)
  refine hstore.bind fun _ => ?_
  have hclear : triple (pact f dims) M i (fun v s => v = .within none ∧
      (s.record d).isActive = false) (act (.clearActiveDomain d)) fun _ v _ =>
        v = .within none := by
    refine .perform fun s μ hInv hs ch r s' hx => ⟨.within none, ?_, rfl, .const _, ?_⟩ <;>
      obtain ⟨-, rfl⟩ := outcome_eq (hM.accessed hx)
    · rw [← hs.1, update_eq_self]
      exact hInv.clearActiveDomain hs.2
    · exact fun j _ => rely_aside (fun _ h => h) fun _ h => h
  exact hclear.bind fun _ => (triple_quiet_act hM (.resetOwnershipPins d) trivial).bind fun _ => .pure fun _ _ h => h

theorem triple_deleteDomainLocked (d : DomainId) :
    triple (pact f dims) M i (fun v s => v = .within none ∧ MayClear s i d)
      (deleteDomainLocked dims i.1 d) fun _ v _ => v = .within none := by
  refine (triple_loadRecord hM (fun v s hs => by rw [hs.1]; rfl) d).bind fun e => ?_
  refine .late ?_ fun v s hs => hs.1.1
  refine .late ?_ fun v s hs => hs.1.1
  refine .early (fun v s hs => hs.1.1) ?_
  refine (triple_hasOtherParticipant hM (fun v s hs => by rw [hs.1.1]; rfl) i.1 d).bind
    fun other => .ite (fun _ => .pure fun v s hs => hs.1.1.1) fun hother => ?_
  exact (triple_freeSlot hM).pre fun v s hs =>
    ⟨hs.1.1.1, hs.1.1.2, hs.1.2, hs.2 (by simpa using hother)⟩

theorem triple_reclaimAmong (l : List DomainId) (freed : Nat) :
    triple (pact f dims) M i (fun v _ => v = .within none) (reclaimAmong dims i.1 l freed)
      fun _ v _ => v = .within none := by
  induction l generalizing freed with
  | nil => exact .pure fun _ _ h => h
  | cons d l ih =>
    have hask : triple (pact f dims) M i (fun v _ => v = .within none)
        (act (.isParticipating d)) fun b v s => v = .within none ∧
          (b = false → MayClear s i d) := by
      refine triple_learn hM (.isParticipating d) trivial (fun v s ch b s' _ hx hb => ?_) fun v s hv b =>
        .imp fun _ => stable_mayClear (by rw [hv]; rfl) d
      cases hx
      exact Or.inr hb
    refine hask.bind fun b => .ite (fun _ => (ih freed).pre fun _ _ h => h.1) fun hb => ?_
    refine (triple_quiet_act hM (.word (.getRecord d)) trivial).bind fun e => ?_
    refine .ite (fun _ => ?_) fun _ => (ih freed).pre fun _ _ h => h.1
    refine ((triple_deleteDomainLocked hM d).pre fun v s hs => ?_).bind fun _ => ih _
    exact ⟨hs.1, hs.2 (by simpa using hb)⟩

/-- A transfer inside a control section: no other thread can have changed the life of the
line between its load and its store. -/
theorem triple_transferOwnership (hin : ∀ v s, F v s → v.inside = true) (d : DomainId)
    (q : PeerId) : triple (pact f dims) M i F
      (words (Ownership.transferOwnership dims.words i.1 d q)) fun _ => F := by
  have hpublish : ∀ e : DomainRecord, triple (pact f dims) M i
      (fun v s => F v s ∧ (s.record d).life = e.life)
      (words (Ownership.publishDomainRecord d { e with holder := q, epoch := e.epoch + 1 }))
      fun _ => F := fun e =>
    (triple_quiet_act hM (.word (.setShadow d _ _)) trivial).bind fun _ =>
      (triple_storeRecord_same hM fun _ _ h => h.2).post fun _ _ _ h => h.1
  unfold Ownership.transferOwnership
  split
  · refine (triple_loadRecord hM hin d).bind fun e => ?_
    change triple _ _ _ _ (words (if e.isValidMagic = true then
      if q ≠ i.1 ∧ e.holder ≠ i.1 then _ else if q = i.1 then _ else _ else _)) _
    split
    · split
      · exact .pure fun _ _ h => h.1
      · split
        · exact (hpublish e).bind fun _ => triple_quiet hM (quiet_adoptOwnership d _)
        · exact (triple_quiet_act hM (.word (.storeHolder d false)) trivial).bind fun _ =>
            hpublish e
    · exact (triple_quiet_act hM (.word .deactivate) trivial).bind fun _ =>
        .pure fun _ _ h => h.1
  · exact .pure fun _ _ h => h

theorem triple_leaveDomain (d : DomainId) :
    triple (pact f dims) M i (fun v s => v = .within none ∧ i ∈ s.retiring d)
      (leaveDomain dims i.1 d) fun _ v _ => v = .within none := by
  refine (triple_quiet_act hM (.isParticipating d) trivial).bind fun _ => ?_
  refine .late ?_ fun _ _ h => h.1
  refine (triple_quiet hM (quiet_getSuccessorOnLeave i.1 d)).bind fun q => ?_
  refine .early (fun _ _ h => h.1) ?_
  refine (triple_quiet_act hM (.word (.getRecord d)) trivial).bind fun e => ?_
  refine triple.bind (Q := fun _ (v : Mode) (s : State T) => v = .within none ∧ i ∈ s.retiring d) ?_ fun _ => ?_
  · refine .late ?_ fun _ _ h => h
    exact triple_transferOwnership hM (fun v s h => by rw [h.1]; rfl) d q
  refine (triple_quiet_act hM (.resetOwnershipPins d) trivial).bind fun _ => ?_
  refine ((triple_clearParticipation hM rfl d (G := fun _ => True) (fun _ h => h)
    (.const _)).pre fun v s h => ⟨h.1, Or.inl h.2, trivial⟩).bind fun _ =>
      .pure fun _ _ h => h.1

theorem triple_joinDomain (d : DomainId) :
    triple (pact f dims) M i (fun v _ => v = .within none) (joinDomain d)
      fun _ v _ => v = .within none := by
  refine (triple_quiet_act hM (.isParticipating d) trivial).bind fun _ => ?_
  refine .early (fun _ _ h => h) ?_
  refine (triple_loadRecord hM (fun v s h => by rw [h]; rfl) d).bind fun e => ?_
  refine .ite (fun hactive => ?_) fun _ => .pure fun _ _ h => h.1
  refine (triple_quiet hM (quiet_syncDomainView d)).bind fun _ => ?_
  refine .late ?_ fun _ _ h => h.1
  refine ((triple_setParticipation hM rfl d).pre fun v s h => ⟨h.1, ?_⟩).bind fun _ =>
    .pure fun _ _ h => h
  rw [isActive_of_life h.2]
  exact hactive

/-- The handle a create has published. -/
def CreateResult.minted : CreateResult → Option DomainHandle
  | .ok h => some h
  | _ => none

theorem triple_activate {name : Text} (hname : isNulFree name = true) (d : DomainId) :
    triple (pact f dims) M i (fun v s => v = .within none ∧ Vacant dims s d name)
      (activate i.1 name d) fun r v _ => v = .within r.minted := by
  refine (triple_loadRecord hM (fun v s h => by rw [h.1]; rfl) d).bind fun e => ?_
  refine .late ?_ fun _ _ h => h.1.1
  have hstore : triple (pact f dims) M i (fun v s => (v = .within none ∧ Vacant dims s d name) ∧
        (s.record d).life = e.life)
      (act (.word (.setRecord d (e.reborn i.1 name)))) fun _ v s =>
        v = .within (some ⟨d, e.generation + 1⟩) ∧ (s.record d).isActive = true := by
    refine .perform fun s μ hInv hs ch r s' hx =>
      ⟨.within (some ⟨d, e.generation + 1⟩), ?_, ?_, ?_, ?_⟩ <;>
      obtain ⟨-, rfl⟩ := outcome_eq (hM.accessed hx)
    · exact hInv.rebear (by rw [hs.1.1]; rfl) hs.2.symm hs.1.2 hname
    · exact ⟨rfl, congrArg _ (storeRecord_record d _)⟩
    · exact (Stable.const _).and (stable_isActive rfl d true)
    · exact fun j hj => hInv.rely_inside (by rw [hs.1.1]; rfl) hj
        (hInv.out_rebear e i.1 name hs.1.2.data hs.1.2.free j)
  refine ((triple_quiet_act hM (.word (.setShadow d _ _)) trivial).bind fun _ => hstore).bind
    fun _ => ?_
  have hset : triple (pact f dims) M i (fun v s => v = .within (some ⟨d, e.generation + 1⟩) ∧
        (s.record d).isActive = true)
      (act (.setActiveDomain d)) fun _ v s =>
        v = .within (some ⟨d, e.generation + 1⟩) ∧ (s.record d).isActive = true := by
    refine (triple_passive (G := fun _ _ _ => True) fun s μ hInv hs ch r s' hx => ?_).post
      fun _ _ _ h => h.1
    obtain ⟨-, rfl⟩ := outcome_eq (hM.accessed hx)
    exact ⟨hInv.setActiveDomain d, fun j => rely_aside (fun _ h => h) fun _ h => h, trivial, .const _⟩
  refine hset.bind fun _ => (triple_quiet hM (quiet_syncDomainView d)).bind fun _ => ?_
  exact (triple_setParticipation hM rfl d).bind fun _ => .pure fun _ _ h => h

end

theorem mem_getDataDomainIdRange :
    d ∈ getDataDomainIdRange dims ↔ d ≠ controlDomainId ∧ d < dims.numDomains := by
  have hrange : ∀ a n : Nat, (1 ≤ a ∧ a < 1 + (n - 1)) ↔ a ≠ 0 ∧ a < n := by omega
  rw [getDataDomainIdRange, List.mem_range'_1]
  exact hrange d dims.numDomains

theorem triple_createDomainLocked (hM : Runs M f) {name : Text} (hname : isNulFree name = true) :
    triple (pact f dims) M i (fun v _ => v = .within none) (createDomainLocked dims i.1 name)
      fun r v _ => v = .within r.minted := by
  refine .late ?_ fun _ _ h => h
  refine (triple_findNamedAmong hM (fun v s h => by rw [h]; rfl) name _).bind fun taken => ?_
  cases taken with
  | some h => exact .pure fun _ _ h => h.1
  | none =>
    refine (triple_findEmptyAmong hM (F := fun v s => v = .within none ∧
      ((none : Option DomainHandle) = none → ∀ d ∈ getDataDomainIdRange dims,
        (s.record d).carries name = false)) (fun v s h => by rw [h.1]; rfl) _).bind fun slot => ?_
    cases slot with
    | none => exact .pure fun _ _ h => h.1.1
    | some d =>
      refine (triple_activate hM hname d).conseq (fun s μ hInv h => ⟨h.1.1, ?_⟩)
        fun _ _ _ _ h => h
      obtain ⟨hd, hmagic, hfree⟩ := h.2 d rfl
      obtain ⟨hdata, hlt⟩ := mem_getDataDomainIdRange.mp hd
      refine ⟨hdata, hlt, hmagic, hfree, fun d' hc ha hn => ?_⟩
      -- the walk has seen every Active record, and none of them has the name
      obtain ⟨hlt', hmagic'⟩ := hInv.range d' hc ha
      have hmiss := h.1.2 rfl d' (mem_getDataDomainIdRange.mpr ⟨hc, hlt'⟩)
      rw [DomainRecord.carries, hmagic', ha, hn] at hmiss
      simp at hmiss

end Cme.Registry
