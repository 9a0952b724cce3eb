import Cme.Interleave.Stage
import Cme.Recovery.Service

/-!
# Recovery — the stages of a tick

Where a poll thread is in its tick, as far as the argument needs it: it has nothing
to do with a claim (`free`), its claim is confirmed, it has checked the slot that it
is about to seize, or it works under a slot it has seized. A thread at work collects
what its reads and writes tell about the lines of the crashed peer; None may be
written only by one that has collected them all. A departing peer collects what it
knows of its own claims. `staged_serviceTick` and `staged_depart` say that the code
goes through these stages, whatever its reads answer.
-/

namespace Cme.Recovery

open Interleave Interleave.Prog
open Ownership (Dims TakeoverPass)
open Registry (Status)

/-- What a thread at work knows of the lines of its target. -/
inductive Fact where
  /-- The claim word of this slot does not name the target. -/
  | word (t : PeerId)
  /-- The target's demand line is empty. -/
  | demand
  /-- The record of the target's group does not name it. -/
  | aggregator
  /-- This contender line does not name the target. -/
  | line (node : Nat) (role : Tournament.Role)
  /-- The target's slot. -/
  | copy (slot : Slot)

inductive Stage where
  | rest
  | free
  | confirmed (d : PeerId)
  | checked (d : PeerId)
  | working (d : PeerId) (inside : Bool) (facts : List Fact)
  | departing (d : PeerId) (facts : List Fact)

/-- The contender lines on a peer's climbs, in all trees. -/
def climbSlots (dims : Dims) (p : PeerId) : List (Nat × Tournament.Role) :=
  match Tournament.getNodesPerDomain dims.maxPeers,
      Tournament.buildClimbPath dims.maxPeers p with
  | some nodesPerDomain, some path =>
    path.reverse.flatMap fun step =>
      (List.range dims.numDomains).map fun d => (d * nodesPerDomain + step.node, step.role)
  | _, _ => []

/-- Nothing that a finish is to clear is left. -/
structure Complete (dims : Dims) (strategy : Strategy) (d : PeerId) (facts : List Fact) :
    Prop where
  words : ∀ t < dims.maxPeers, .word t ∈ facts
  demand : strategy.hasDemand = true → .demand ∈ facts
  aggregator : strategy = .requestAgg → .aggregator ∈ facts
  lines : strategy = .peterson → ∀ slot ∈ climbSlots dims d, .line slot.1 slot.2 ∈ facts

namespace Stage

/-- A thread at work learns a fact about its target, a departing one about itself. -/
noncomputable def note (v : Stage) (f : Fact) (P : PeerId → Prop) : Stage :=
  open Classical in
  match v with
  | .working d inside facts => if P d then .working d inside (f :: facts) else v
  | .departing d facts => if P d then .departing d (f :: facts) else v
  | v => v

/-- The stages in which a claim may be staked. -/
def Stakes : Stage → Prop
  | .departing _ _ => False
  | _ => True

/-- What the copy of a slot tells the thread that read it. -/
noncomputable def check (v : Stage) (t : PeerId) (seen : Slot × Bool) : Stage :=
  open Classical in
  match v with
  | .confirmed d =>
    if t = d ∧ seen.1.isValidMagic = true ∧ seen.1.status ≠ .none ∧ seen.2 = true then .checked d
    else v
  | v => v.note (.copy seen.1) (t = ·)

/-- The end of the work of a tick. -/
def leave : Stage → Stage
  | .working d _ facts => .working d false facts
  | v => v

/-- The words a tick may end with. -/
def Ends (v : Stage) (l : PollState) : Prop :=
  (0 < l.recoveryCycles → ∃ facts, v = .working l.recoveryTarget false facts) ∧
    ∀ d facts, v ≠ .working d true facts

end Stage

/-- The stage after an operation of peer `self`, if its code may come to it. -/
noncomputable def advance (dims : Dims) (strategy : Strategy) (self : PeerId) (v : Stage) :
    (o : Op) → Option (Ret o → Stage) :=
  open Classical in
  fun o => match o with
  | .getPoll =>
    match v with
    | .rest => some fun l =>
      if 0 < l.recoveryCycles then .working l.recoveryTarget false [] else .free
    | _ => none
  | .setPoll l => if v.Ends l then some fun _ => .rest else none
  | .getMember t => some fun seen => v.check t seen
  | .setMember t slot =>
    match v with
    | .checked d =>
      if t = d ∧ slot.status = .recovering ∧ slot.participating = 0 then
        some fun _ => .working d false []
      else none
    | .working d true facts =>
      if t = d ∧ slot.status = .none ∧ Complete dims strategy d facts ∧
          ∃ copy, .copy copy ∈ facts ∧ slot.participating = copy.participating then
        some fun _ => .confirmed d
      else none
    | _ => none
  | .getClaim t => some fun c => v.note (.word t) (c.read ≠ ·)
  | .settleClaim t =>
    if t < dims.maxPeers then
      match v with
      | .free => some fun c => if c.read = self then .confirmed t else v
      | .working d false _ => some fun c => if c.read = self ∧ t ≠ d then .confirmed t else v
      | _ => none
    else none
  | .setClaim t c =>
    if c.read = noPeer then some fun _ => v.note (.word t) fun _ => True
    else if c.read = self ∧ v.Stakes then some fun _ => v
    else none
  | .setDemand t bits =>
    match v with
    | .working d inside facts =>
      if t = d ∧ bits = 0 then some fun _ => .working d inside (.demand :: facts) else none
    | .departing d _ => if t = d ∧ bits = 0 then some fun _ => v else none
    | _ => none
  | .getAggregator g => some fun q =>
    v.note .aggregator fun d => q ≠ d ∧ g = d % Ownership.RequestAgg.getGroups dims
  | .setAggregator g q =>
    match v with
    | .working d inside facts =>
      if g = d % Ownership.RequestAgg.getGroups dims ∧ q ≠ d then
        some fun _ => .working d inside (.aggregator :: facts)
      else none
    | .departing _ _ => some fun _ => v
    | _ => none
  | .getLine node role => some fun q => v.note (.line node role) (q ≠ ·)
  | .setLine node role q =>
    if q = noPeer then some fun _ => v.note (.line node role) fun _ => True else none
  | .enter t =>
    match v with
    | .working d false facts => if t = d then some fun _ => .working d true facts else none
    | _ => none
  | .leave => some fun _ => v.leave
  | .joinPollThread =>
    match v with
    | .rest => some fun _ => .departing self []
    | _ => none
  | .publishNone =>
    match v with
    | .departing _ facts =>
      if ∀ t < dims.maxPeers, .word t ∈ facts then some fun _ => .rest else none
    | _ => none
  | .hasFailed _ | .getRecord _ | .setShadow _ _ _ | .setRecord _ _ | .askScanBound
  | .askExpired | .spin => some fun _ => v

section Code

variable {dims : Dims} {strategy : Strategy} {self d : PeerId} {inside : Bool}
  {facts : List Fact} {v : Stage}

/-- At work on `d`, with at least these facts. -/
def Working (d : PeerId) (inside : Bool) (facts : List Fact) (v : Stage) : Prop :=
  ∃ more, v = .working d inside more ∧ facts ⊆ more

theorem Working.mono {facts fewer : List Fact}
    (h : Working d inside facts v) (hsub : fewer ⊆ facts) : Working d inside fewer v := by
  obtain ⟨more, rfl, hmore⟩ := h
  exact ⟨more, rfl, List.Subset.trans hsub hmore⟩

theorem Working.note (h : Working d inside facts v) (f : Fact) (P : PeerId → Prop) :
    Working d inside facts (v.note f P) := by
  obtain ⟨more, rfl, hmore⟩ := h
  rw [Stage.note]
  split
  · exact ⟨f :: more, rfl, fun x hx => .tail _ (hmore hx)⟩
  · exact ⟨more, rfl, hmore⟩

theorem Working.learn (h : Working d inside facts v) (f : Fact) {P : PeerId → Prop} (hP : P d) :
    Working d inside (f :: facts) (v.note f P) := by
  obtain ⟨more, rfl, hmore⟩ := h
  rw [Stage.note, if_pos hP]
  refine ⟨f :: more, rfl, fun x hx => ?_⟩
  rcases List.mem_cons.mp hx with rfl | hx
  · exact .head _
  · exact .tail _ (hmore hx)

theorem Working.check (h : Working d inside facts v) (t : PeerId) (seen : Slot × Bool) :
    Working d inside facts (v.check t seen) := by
  have hnote := h.note (.copy seen.1) (t = ·)
  obtain ⟨more, rfl, -⟩ := h
  exact hnote

/-- A departing peer, with at least these facts. -/
def Departing (d : PeerId) (facts : List Fact) (v : Stage) : Prop :=
  ∃ more, v = .departing d more ∧ facts ⊆ more

/-- A stage that holds facts about `d`, and learns more of them. -/
structure Learns (d : PeerId) (W : List Fact → Stage → Prop) : Prop where
  note : ∀ {facts v}, W facts v → ∀ f P, W facts (v.note f P)
  learn : ∀ {facts v}, W facts v → ∀ f {P : PeerId → Prop}, P d → W (f :: facts) (v.note f P)
  mono : ∀ {facts fewer v}, W facts v → fewer ⊆ facts → W fewer v

theorem learns_working (d : PeerId) (inside : Bool) : Learns d (Working d inside) :=
  ⟨.note, .learn, .mono⟩

theorem learns_departing (d : PeerId) : Learns d (Departing d) where
  note := by
    rintro facts v ⟨more, rfl, hmore⟩ f P
    rw [Stage.note]
    split
    · exact ⟨f :: more, rfl, fun x hx => .tail _ (hmore hx)⟩
    · exact ⟨more, rfl, hmore⟩
  learn := by
    rintro facts v ⟨more, rfl, hmore⟩ f P hP
    rw [Stage.note, if_pos hP]
    exact ⟨f :: more, rfl, List.cons_subset_cons _ hmore⟩
  mono := by
    rintro facts fewer v ⟨more, rfl, hmore⟩ hsub
    exact ⟨more, rfl, List.Subset.trans hsub hmore⟩

/-- Where a tick that has not won anything is: at work for the span it has armed. -/
def Begun (l : PollState) (v : Stage) : Prop :=
  if 0 < l.recoveryCycles then Working l.recoveryTarget false [] v else v = .free

/-- Operations that leave a thread where it is, but for what it learns. -/
def Peaceful (self : PeerId) : Op → Prop
  | .getMember _ | .getClaim _ | .getLine _ _ | .getAggregator _ | .hasFailed _ | .getRecord _
  | .setShadow _ _ _ | .setRecord _ _ | .askScanBound | .askExpired | .spin => True
  | .setClaim _ c => c.read = self ∨ c.read = noPeer
  | _ => False

variable {o : Op}

/-- Where learning leads nowhere else, peaceful operations do not either. -/
theorem advance_peaceful {P : Stage → Prop} (hnote : ∀ v, P v → ∀ f Q, P (v.note f Q))
    (hcheck : ∀ v, P v → ∀ t seen, P (v.check t seen)) (hstakes : ∀ v, P v → v.Stakes)
    (ho : Peaceful self o) (v : Stage) (hv : P v) :
    ∃ f, advance dims strategy self v o = some f ∧ ∀ r, P (f r) := by
  cases o with
  | getMember t => exact ⟨_, rfl, fun seen => hcheck v hv t seen⟩
  | getClaim | getLine | getAggregator => exact ⟨_, rfl, fun _ => hnote v hv _ _⟩
  | hasFailed | getRecord | setShadow | setRecord | askScanBound | askExpired | spin =>
    exact ⟨_, rfl, fun _ => hv⟩
  | setClaim t c =>
    by_cases hempty : c.read = noPeer
    · exact ⟨_, if_pos hempty, fun _ => hnote v hv _ _⟩
    · have hself : c.read = self := ho.resolve_right hempty
      exact ⟨_, (if_neg hempty).trans (if_pos ⟨hself, hstakes v hv⟩), fun _ => hv⟩
  | _ => exact ho.elim

theorem advance_working (ho : Peaceful self o) (v : Stage) (hv : Working d inside facts v) :
    ∃ f, advance dims strategy self v o = some f ∧ ∀ r, Working d inside facts (f r) :=
  advance_peaceful (fun _ hv => hv.note) (fun _ hv => hv.check)
    (fun _ ⟨_, hstage, _⟩ => hstage ▸ trivial) ho v hv

variable {l : PollState}

theorem advance_begun (ho : Peaceful self o) (v : Stage) (hv : Begun l v) :
    ∃ f, advance dims strategy self v o = some f ∧ ∀ r, Begun l (f r) := by
  unfold Begun at hv ⊢
  split at hv
  · next hpos =>
    simp only [if_pos hpos]
    exact advance_working ho v hv
  · next hzero =>
    simp only [if_neg hzero]
    refine advance_peaceful (P := (· = .free)) ?_ ?_ (fun _ h => h ▸ trivial) ho v hv <;>
      rintro _ rfl _ _ <;> rfl

theorem staged_working {α : Type} {p : Proc α} (hp : p.Only (Peaceful self))
    (hv : Working d inside facts v) :
    p.Staged (advance dims strategy self) (fun _ => Working d inside facts) v :=
  .of_only (fun _ ho => advance_working ho) hp hv

/-- Peaceful code of a tick that has not won anything. -/
theorem staged_begun {α : Type} {p : Proc α} (hp : p.Only (Peaceful self)) (hv : Begun l v) :
    p.Staged (advance dims strategy self) (fun _ => Begun l) v :=
  .of_only (fun _ ho => advance_begun ho) hp hv

/-! ### Peaceful code -/

/-- The accesses to claim words alone. -/
def OnClaim (self : PeerId) : Op → Prop
  | .getClaim _ => True
  | .setClaim _ c => c.read = self ∨ c.read = noPeer
  | _ => False

theorem peaceful_of_onClaim (h : OnClaim self o) : Peaceful self o := by
  cases o with
  | getClaim t => trivial
  | setClaim t c => exact h
  | _ => exact h.elim

theorem onClaim_retract (mine dead : PeerId) : (retract mine dead).Only (OnClaim self) := by
  refine .bind (.perform trivial) fun copy => .ite (.perform ?_) (.pure ())
  right
  simp [RecoveryClaim.read]

theorem onClaim_resetClaim (l : PollState) : (resetClaim self l).Only (OnClaim self) := by
  refine .ite (.ite ?_ (.pure _)) (.pure _)
  exact .bind (onClaim_retract _ _) fun _ => .pure _

theorem peaceful_hasFailed (p : PeerId) : (hasFailed dims p).Only (Peaceful self) :=
  .ite (.perform trivial) (.pure _)

theorem peaceful_readClaim (dead : PeerId) : (readClaim dead).Only (Peaceful self) :=
  .bind (.perform trivial) fun _ => .pure _

theorem peaceful_isClaimantGone (ra : PeerId) : (isClaimantGone dims ra).Only (Peaceful self) :=
  .ite (peaceful_hasFailed ra) (.pure _)

theorem peaceful_isFree (ra : PeerId) : (isFree dims self ra).Only (Peaceful self) :=
  .ite (.pure _) (peaceful_isClaimantGone ra)

theorem peaceful_publish (dead : PeerId) : (publish dims self dead).Only (Peaceful self) := by
  refine .bind (.perform trivial) fun copy => .ite (.bind (peaceful_isFree _)
    fun free => .ite (.bind (.perform ?_) fun _ => .pure _) (.pure _))
    (.pure _)
  cases hmagic : copy.isValidMagic with
  | true => exact .inl (by simp [RecoveryClaim.read])
  | false => exact .inr (by simp [RecoveryClaim.read])

theorem peaceful_retract (mine dead : PeerId) : (retract mine dead).Only (Peaceful self) :=
  (onClaim_retract mine dead).mono fun _ => peaceful_of_onClaim

theorem peaceful_isClaimHeld (dead : PeerId) : (isClaimHeld self dead).Only (Peaceful self) :=
  .bind (peaceful_readClaim dead) fun _ => .pure _

theorem peaceful_findTarget (ring : List PeerId) : (findTarget dims ring).Only (Peaceful self) := by
  induction ring with
  | nil => exact .pure _
  | cons candidate rest ih =>
    refine .bind (.perform trivial) fun seen => .ite (.pure _) (.ite
      (.bind ?_ fun stranded => .ite (.pure _) ih) ih)
    exact .bind (peaceful_readClaim candidate) fun ra => peaceful_isClaimantGone ra

theorem peaceful_getRecoveryTarget (l : PollState) :
    (getRecoveryTarget dims self l).Only (Peaceful self) :=
  .ite (.pure _) (.bind (.perform trivial) fun _ => peaceful_findTarget _)

theorem peaceful_takeoverDomains (dead : PeerId) (domains : List DomainId) (pass : TakeoverPass) :
    (takeoverDomains self dead domains pass).Only (Peaceful self) := by
  induction domains generalizing pass with
  | nil => exact .pure _
  | cons x rest ih =>
    refine .bind (.perform trivial) fun record => .ite (.bind
      (peaceful_isClaimHeld dead) fun held => .ite (.bind ?_ fun _ => ih _) (.pure _))
      (ih _)
    exact .bind (.perform trivial) fun _ => .perform trivial

/-! ### The claim -/

/-- What a claim leaves as it is: the takeover span. -/
def SameSpan (l l' : PollState) : Prop :=
  l'.recoveryCycles = l.recoveryCycles ∧ l'.recoveryTarget = l.recoveryTarget

theorem begun_iff {l l' : PollState} (h : SameSpan l l') (v : Stage) : Begun l' v ↔ Begun l v := by
  rw [Begun, Begun, h.1, h.2]

/-- Where a tick is whose claim on `t` is confirmed. -/
def Won (l : PollState) (t : PeerId) (v : Stage) : Prop :=
  if l.isRecoveryArmed t then Working t false [] v else v = .confirmed t

theorem staged_tryStake (dead : PeerId) (l : PollState) (hv : Begun l v) :
    (tryStake dims self dead l).Staged (advance dims strategy self)
      (fun l' v => SameSpan l l' ∧ Begun l v) v := by
  refine (staged_begun (peaceful_readClaim dead) hv).bind fun seen v hv => ?_
  refine (staged_begun (peaceful_isFree seen) hv).bind fun free v hv => ?_
  refine .ite (fun _ => ?_) fun _ => .pure ⟨⟨rfl, rfl⟩, hv⟩
  refine (staged_begun (peaceful_publish dead) hv).bind fun published v hv => ?_
  refine .ite (fun _ => ?_) fun _ => .pure ⟨⟨rfl, rfl⟩, hv⟩
  exact .next (fun _ => v) rfl fun late => .pure ⟨⟨rfl, rfl⟩, hv⟩

/-- The read that ends a settle: the claim is confirmed, or another value stands. -/
theorem advance_settleClaim {t : PeerId} (ht : t < dims.maxPeers) (hv : Begun l v) :
    ∃ f, advance dims strategy self v (.settleClaim t) = some f ∧
      ∀ c : RecoveryClaim, if c.read = self then Won l t (f c) else Begun l (f c) := by
  by_cases hpos : 0 < l.recoveryCycles
  · rw [Begun, if_pos hpos] at hv
    obtain ⟨more, rfl, -⟩ := id hv
    refine ⟨_, if_pos ht, fun c => ?_⟩
    by_cases hself : c.read = self
    · rw [if_pos hself, Won]
      by_cases hsame : t = l.recoveryTarget
      · subst hsame
        simpa [PollState.isRecoveryArmed, hpos, hself] using hv
      · simp [PollState.isRecoveryArmed, hself, hsame, Ne.symm hsame]
    · rw [if_neg hself, Begun, if_pos hpos]
      simpa [hself] using hv
  · rw [Begun, if_neg hpos] at hv
    subst hv
    refine ⟨_, if_pos ht, fun c => ?_⟩
    by_cases hself : c.read = self
    · simp [Won, PollState.isRecoveryArmed, hself, hpos]
    · simp [Begun, hself, hpos]

theorem staged_tick {dead : PeerId} (hdead : dead < dims.maxPeers) (l : PollState)
    (hv : Begun l v) :
    (tick dims self dead l).Staged (advance dims strategy self)
      (fun (x : Bool × PollState) v => SameSpan l x.2 ∧
        if x.1 then Won l dead v else Begun l v) v := by
  have hstake : ∀ {v} l', SameSpan l l' → Begun l v →
      (do let l'' ← tryStake dims self dead l'; pure (false, l'') : Proc (Bool × PollState)).Staged
        (advance dims strategy self)
        (fun (x : Bool × PollState) v => SameSpan l x.2 ∧
          if x.1 then Won l dead v else Begun l v) v := by
    intro v l' hspan hv
    refine (staged_tryStake dead l' ((begun_iff hspan v).mpr hv)).bind fun l'' v h => ?_
    exact .pure ⟨⟨h.1.1.trans hspan.1, h.1.2.trans hspan.2⟩, (begun_iff hspan v).mp h.2⟩
  unfold tick
  cases l.phase with
  | idle => exact hstake l ⟨rfl, rfl⟩ hv
  | settling =>
    refine .next (fun _ => v) rfl fun expired => ?_
    refine .ite (fun _ => ?_) fun _ => .pure ⟨⟨rfl, rfl⟩, hv⟩
    obtain ⟨f, hf, hread⟩ : ∃ f, advance dims strategy self v (.settleClaim dead) = some f ∧
        ∀ c : RecoveryClaim, if c.read = self then Won l dead (f c) else Begun l (f c) :=
      advance_settleClaim hdead hv
    refine .next f hf fun copy => ?_
    have hcopy := hread copy
    by_cases hself : copy.read = self
    · rw [if_pos hself] at hcopy ⊢
      exact .pure ⟨⟨rfl, rfl⟩, hcopy⟩
    · rw [if_neg hself] at hcopy ⊢
      exact hstake _ ⟨rfl, rfl⟩ hcopy
  | holding =>
    refine .next (fun _ => v) rfl fun expired => ?_
    refine .ite (fun _ => ?_) fun _ => .pure ⟨⟨rfl, rfl⟩, hv⟩
    refine (staged_begun (peaceful_retract self dead) hv).bind fun _ v hv => ?_
    exact hstake _ ⟨rfl, rfl⟩ hv

theorem staged_claim {dead : PeerId} (hdead : dead < dims.maxPeers) (l : PollState)
    (hv : Begun l v) :
    (claim dims self dead l).Staged (advance dims strategy self)
      (fun (x : Bool × PollState) v => SameSpan l x.2 ∧
        if x.1 then Won l dead v else Begun l v) v := by
  refine (staged_tick hdead l hv).bind fun x v h => ?_
  exact .pure h

/-! ### The finish -/

section

variable {W : List Fact → Stage → Prop} (hW : Learns d W) (hd : d ≠ noPeer)

include hW hd

/-- A withdrawal of the target's claim on one word. -/
theorem staged_retract (t : PeerId) (hv : W facts v) :
    (retract d t).Staged (advance dims strategy self) (fun _ => W (.word t :: facts)) v := by
  refine .next (fun c => v.note (.word t) (c.read ≠ ·)) rfl fun copy => ?_
  refine .ite (fun hmine => ?_) fun hmine => .pure ?_
  · have hempty : ({ copy with recoveryAuthority := noPeer } : RecoveryClaim).read = noPeer := by
      simp [RecoveryClaim.read]
    exact .perform _ (if_pos hempty) fun _ => hW.learn (hW.note hv _ _) _ trivial
  · -- what is read is another peer's value, or no value at all
    refine hW.learn hv _ fun hread => hmine ?_
    by_cases hmagic : copy.isValidMagic = true
    · rw [RecoveryClaim.read, if_pos hmagic] at hread
      exact ⟨hmagic, hread⟩
    · rw [RecoveryClaim.read, if_neg hmagic] at hread
      exact absurd hread.symm hd

theorem staged_retractEach (words : List PeerId) (hv : W facts v) :
    (retractEach d words).Staged (advance dims strategy self)
      (fun _ => W (words.map .word ++ facts)) v := by
  induction words generalizing facts v with
  | nil => exact .pure hv
  | cons t rest ih =>
    refine (staged_retract hW hd t hv).bind fun _ v hv => ?_
    refine (ih hv).mono fun _ v hv => hW.mono hv ?_
    intro f hf
    simp only [List.map_cons, List.cons_append, List.mem_cons, List.mem_append] at hf ⊢
    tauto

/-- All the words of a walk over the slots. -/
theorem staged_retractClaimsBy (hv : W [] v) :
    (retractClaimsBy dims d).Staged (advance dims strategy self)
      (fun _ v => ∃ facts, (∀ t < dims.maxPeers, .word t ∈ facts) ∧ W facts v) v :=
  (staged_retractEach hW hd (List.range dims.maxPeers) hv).mono fun _ _ hv =>
    ⟨_, fun _ ht => List.mem_append_left _ (List.mem_map_of_mem (List.mem_range.mpr ht)), hv⟩

end

theorem advance_setLine (v : Stage) (node : Nat) (role : Tournament.Role) :
    advance dims strategy self v (.setLine node role noPeer) =
      some fun _ => v.note (.line node role) fun _ => True := by simp [advance]

theorem staged_scrubDomains (nodesPerDomain : Nat) (step : Tournament.ClimbStep)
    (domains : List DomainId) (hv : Working d inside facts v) :
    (scrubDomains nodesPerDomain d step domains).Staged (advance dims strategy self)
      (fun _ => Working d inside
        (domains.map (fun x => .line (x * nodesPerDomain + step.node) step.role) ++ facts)) v := by
  induction domains generalizing facts v with
  | nil => exact .pure hv
  | cons x rest ih =>
    have hrest : ∀ {v}, Working d inside (.line (x * nodesPerDomain + step.node) step.role :: facts) v →
        (scrubDomains nodesPerDomain d step rest).Staged (advance dims strategy self)
          (fun _ => Working d inside ((x :: rest).map
            (fun x => .line (x * nodesPerDomain + step.node) step.role) ++ facts)) v := by
      intro v hv
      refine (ih hv).mono fun _ v hv => hv.mono fun f hf => ?_
      simp only [List.map_cons, List.cons_append, List.mem_cons, List.mem_append] at hf ⊢
      tauto
    refine .next _ rfl fun owner => ?_
    by_cases hown : owner = d
    · rw [if_pos hown]
      exact .next _ (advance_setLine _ _ _) fun _ => hrest ((hv.note _ _).learn _ trivial)
    · rw [if_neg hown]
      exact hrest (hv.learn _ hown)

theorem staged_scrubLevels (nodesPerDomain : Nat) (levels : List Tournament.ClimbStep)
    (hv : Working d inside facts v) :
    (scrubLevels dims nodesPerDomain d levels).Staged (advance dims strategy self)
      (fun _ => Working d inside (levels.flatMap (fun step => (List.range dims.numDomains).map
        fun x => .line (x * nodesPerDomain + step.node) step.role) ++ facts)) v := by
  induction levels generalizing facts v with
  | nil => exact .pure hv
  | cons step below ih =>
    refine (staged_scrubDomains nodesPerDomain step _ hv).bind fun _ v hv => ?_
    refine (ih hv).mono fun _ v hv => hv.mono fun f hf => ?_
    simp only [List.flatMap_cons, List.mem_append] at hf ⊢
    tauto

theorem staged_cleanupDeadPeer (hv : Working d inside facts v) :
    (cleanupDeadPeer dims d).Staged (advance dims strategy self)
      (fun _ => Working d inside
        ((climbSlots dims d).map (fun slot => .line slot.1 slot.2) ++ facts)) v := by
  unfold cleanupDeadPeer climbSlots
  cases Tournament.getNodesPerDomain dims.maxPeers with
  | none => exact .perform (fun _ => v) rfl fun _ => hv
  | some nodesPerDomain =>
    cases Tournament.buildClimbPath dims.maxPeers d with
    | none => exact .perform (fun _ => v) rfl fun _ => hv
    | some path =>
      refine (staged_scrubLevels nodesPerDomain path.reverse hv).mono fun _ v hv => ?_
      simpa [List.map_flatMap, Function.comp_def] using hv

theorem staged_setDemand (hv : Working d inside facts v) :
    (act (.setDemand d 0)).Staged (advance dims strategy self)
      (fun _ => Working d inside (.demand :: facts)) v := by
  obtain ⟨more, rfl, hmore⟩ := hv
  exact .perform _ (if_pos ⟨rfl, rfl⟩) fun _ => ⟨_, rfl, List.cons_subset_cons _ hmore⟩

/-- The duty goes to somebody else. -/
theorem staged_findLiveGroupAggregator (hd : d ≠ noPeer) (members : List PeerId)
    (hv : Working d inside facts v) :
    (findLiveGroupAggregator d members).Staged (advance dims strategy self)
      (fun q v => q ≠ d ∧ Working d inside facts v) v := by
  induction members generalizing v with
  | nil => exact .pure ⟨hd.symm, hv⟩
  | cons q rest ih =>
    refine .ite (fun _ => ih hv) fun hq => ?_
    refine .next _ rfl fun seen => ?_
    exact .ite (fun _ => .pure ⟨hq, hv.check q seen⟩) fun _ => ih (hv.check q seen)

theorem staged_reelect (hd : d ≠ noPeer) (hv : Working d inside facts v) :
    (reelect dims d).Staged (advance dims strategy self)
      (fun _ => Working d inside (.aggregator :: facts)) v := by
  refine .next _ rfl fun named => ?_
  refine .ite (fun _ => ?_) fun hnamed => .pure (hv.learn _ ⟨hnamed, rfl⟩)
  refine (staged_findLiveGroupAggregator hd _ (hv.note _ _)).bind fun q v h => ?_
  obtain ⟨hq, more, rfl, hmore⟩ := h
  exact .perform _ (if_pos ⟨rfl, hq⟩) fun _ => ⟨_, rfl, List.cons_subset_cons _ hmore⟩

/-- Once all words are clean, a scrub completes what a finish asks for. -/
theorem staged_scrubRecoveredPeer (hd : d ≠ noPeer)
    (hwords : ∀ t < dims.maxPeers, .word t ∈ facts) (hv : Working d true facts v) :
    (scrubRecoveredPeer dims d strategy).Staged (advance dims strategy self)
      (fun _ v => ∃ facts, Complete dims strategy d facts ∧ Working d true facts v) v := by
  cases hstrategy : strategy with
  | order =>
    refine .pure ⟨facts, ⟨hwords, ?_, ?_, ?_⟩, hv⟩ <;> simp [Strategy.hasDemand]
  | request =>
    refine (staged_setDemand hv).mono fun _ v hv => ⟨_, ⟨?_, ?_, ?_, ?_⟩, hv⟩
    · exact fun t ht => .tail _ (hwords t ht)
    · exact fun _ => .head _
    · exact fun h => nomatch h
    · exact fun h => nomatch h
  | requestAgg =>
    refine (staged_setDemand hv).bind fun _ v hv => ?_
    refine (staged_reelect hd hv).mono fun _ v hv => ⟨_, ⟨?_, ?_, ?_, ?_⟩, hv⟩
    · exact fun t ht => .tail _ (.tail _ (hwords t ht))
    · exact fun _ => .tail _ (.head _)
    · exact fun _ => .head _
    · exact fun h => nomatch h
  | peterson =>
    refine (staged_cleanupDeadPeer hv).mono fun _ v hv => ⟨_, ⟨?_, ?_, ?_, ?_⟩, hv⟩
    · exact fun t ht => List.mem_append_right _ (hwords t ht)
    · exact fun h => nomatch h
    · exact fun h => nomatch h
    · exact fun _ slot hslot => List.mem_append_left _ (List.mem_map_of_mem hslot)

theorem staged_finishRecoveryCleanup (hd : d ≠ noPeer)
    (hwords : ∀ t < dims.maxPeers, .word t ∈ facts) (hv : Working d true facts v) :
    (finishRecoveryCleanup dims strategy d).Staged (advance dims strategy self)
      (fun _ v => v = .confirmed d ∨ Working d true [] v) v := by
  refine (staged_scrubRecoveredPeer hd hwords hv).bind fun _ v h => ?_
  obtain ⟨facts, hcomplete, more, rfl, hmore⟩ := h
  refine .next _ rfl fun seen => ?_
  have hseen : (Stage.working d true more).check d seen =
      .working d true (.copy seen.1 :: more) := if_pos rfl
  rw [hseen]
  refine .ite (fun _ => ?_) fun _ => .pure (.inr ⟨_, rfl, List.nil_subset _⟩)
  refine .perform _ (if_pos ⟨rfl, rfl, ?_, seen.1, .head _, rfl⟩) fun _ => .inl rfl
  have hsub : facts ⊆ .copy seen.1 :: more := fun f hf => .tail _ (hmore hf)
  exact ⟨fun t ht => hsub (hcomplete.words t ht), fun h => hsub (hcomplete.demand h),
    fun h => hsub (hcomplete.aggregator h), fun h slot hslot => hsub (hcomplete.lines h slot hslot)⟩

/-! ### A tick -/

theorem Stage.ends_of_zero (hzero : l.recoveryCycles = 0)
    (hv : ∀ d facts, v ≠ .working d true facts) : v.Ends l :=
  ⟨fun hpos => absurd hpos (by omega), hv⟩

theorem Working.ends (hv : Working d false facts v) (hl : l.recoveryTarget = d) : v.Ends l := by
  obtain ⟨more, rfl, -⟩ := hv
  exact ⟨fun _ => ⟨more, by rw [hl]⟩, fun _ _ h => nomatch h⟩

theorem Working.not_inside
    (hv : Working d false facts v) (e : PeerId) (more : List Fact) : v ≠ .working e true more := by
  obtain ⟨_, rfl, -⟩ := hv
  exact fun h => nomatch h

theorem Begun.ends (hv : Begun l v) : v.Ends l := by
  unfold Begun at hv
  split at hv
  · exact hv.ends rfl
  · next hzero =>
    subst hv
    exact Stage.ends_of_zero (by omega) fun _ _ h => nomatch h

theorem Begun.not_inside (hv : Begun l v) (d : PeerId) (facts : List Fact) :
    v ≠ .working d true facts := hv.ends.2 d facts

/-- Where a tick is that has a confirmed claim and does no more work under it. -/
def Settled (d : PeerId) (v : Stage) : Prop := v = .confirmed d ∨ Working d false [] v

theorem Settled.not_inside (hv : Settled d v) (e : PeerId)
    (facts : List Fact) : v ≠ .working e true facts := by
  rcases hv with rfl | hv
  · exact fun h => nomatch h
  · exact hv.not_inside e facts

theorem advance_settled (ho : OnClaim self o) (v : Stage) (hv : Settled d v) :
    ∃ f, advance dims strategy self v o = some f ∧ ∀ r, Settled d (f r) := by
  rcases hv with rfl | hv
  · cases o with
    | getClaim t => exact ⟨_, rfl, fun c => .inl rfl⟩
    | setClaim t c =>
      by_cases hempty : c.read = noPeer
      · exact ⟨_, if_pos hempty, fun _ => .inl rfl⟩
      · exact ⟨_, (if_neg hempty).trans (if_pos ⟨ho.resolve_right hempty, trivial⟩),
          fun _ => .inl rfl⟩
    | _ => exact ho.elim
  · obtain ⟨f, hf, hstay⟩ := advance_working (peaceful_of_onClaim ho) v hv
    exact ⟨f, hf, fun r => .inr (hstay r)⟩

theorem staged_resetClaim (l : PollState) (hv : Settled d v) :
    (resetClaim self l).Staged (advance dims strategy self)
      (fun l' v => SameSpan l l' ∧ Settled d v) v := by
  refine .ite (fun _ => ?_) fun _ => .pure ⟨⟨rfl, rfl⟩, hv⟩
  refine .ite (fun _ => ?_) fun _ => .pure ⟨⟨rfl, rfl⟩, hv⟩
  have hretract : (retract self l.claimTarget).Staged (advance dims strategy self)
      (fun _ => Settled d) v :=
    .of_only (fun _ ho => advance_settled ho) (onClaim_retract self l.claimTarget) hv
  exact hretract.bind fun _ v hv => .pure ⟨⟨rfl, rfl⟩, hv⟩

theorem staged_finishRecovery (hd : d ≠ noPeer) (hl : l.recoveryCycles = 0)
    (hv : Working d true [] v) :
    (finishRecovery dims self strategy d l).Staged (advance dims strategy self)
      (fun l' v => v.Ends l') v := by
  refine (staged_retractClaimsBy (learns_working d true) hd hv).bind fun _ v h => ?_
  obtain ⟨facts, hwords, hv⟩ := h
  refine (staged_finishRecoveryCleanup hd hwords hv).bind fun _ v hv => ?_
  refine .next _ rfl fun _ => ?_
  have hsettled : Settled d v.leave := by
    rcases hv with rfl | ⟨more, rfl, -⟩
    · exact .inl rfl
    · exact .inr ⟨more, rfl, List.nil_subset _⟩
  refine (staged_resetClaim l hsettled).mono fun l' v h => ?_
  exact Stage.ends_of_zero (h.1.1.trans hl) h.2.not_inside

/-- The pass and the finish, under an armed span. -/
theorem staged_serviceSeized (hd : d ≠ noPeer) (hl : l.recoveryTarget = d)
    (hv : Working d false [] v) :
    (serviceSeized dims self strategy d l).Staged (advance dims strategy self)
      (fun l' v => v.Ends l') v := by
  obtain ⟨more, rfl, -⟩ := hv
  refine .next _ (if_pos rfl) fun _ => ?_
  have hinside : Working d true [] (.working d true more) := ⟨more, rfl, List.nil_subset _⟩
  -- the exits that leave the work for the next tick
  have hleave : ∀ {v} l', l'.recoveryTarget = d ∨ l'.recoveryCycles = 0 → Working d true [] v →
      (do act .leave; pure l' : Proc PollState).Staged (advance dims strategy self)
        (fun l' v => v.Ends l') v := by
    intro v l' hl' hv
    obtain ⟨facts, rfl, -⟩ := hv
    refine .next _ rfl fun _ => .pure ?_
    have hout : Working d false [] (.working d false facts) := ⟨facts, rfl, List.nil_subset _⟩
    rcases hl' with hl' | hl'
    · exact hout.ends hl'
    · exact Stage.ends_of_zero hl' hout.not_inside
  refine (staged_working (peaceful_takeoverDomains d _ _) hinside).bind fun pass v hv => ?_
  cases pass with
  | touched => exact hleave _ (.inl rfl) hv
  | deposed => exact hleave _ (.inl hl) hv
  | quiet =>
    have hspan : (l.isRecoveryOngoing.1 = true → l.isRecoveryOngoing.2.recoveryTarget = d) ∧
        (l.isRecoveryOngoing.1 = false → l.isRecoveryOngoing.2.recoveryCycles = 0) := by
      unfold PollState.isRecoveryOngoing
      split
      · next hzero => exact ⟨fun h => (nomatch h), fun _ => hzero⟩
      · split
        · exact ⟨fun h => (nomatch h), fun _ => rfl⟩
        · exact ⟨fun _ => hl, fun h => (nomatch h)⟩
    refine .ite (fun hongoing => hleave _ (.inl (hspan.1 hongoing)) hv) fun hover => ?_
    have hzero := hspan.2 (Bool.eq_false_iff.mpr hover)
    refine (staged_working (peaceful_isClaimHeld d) hv).bind fun held v hv => ?_
    exact .ite (fun _ => staged_finishRecovery hd hzero hv)
      fun _ => hleave _ (.inr hzero) hv

theorem staged_seizeDeadPeerSlot (d : PeerId) :
    (seizeDeadPeerSlot d).Staged (advance dims strategy self)
      (fun seized v => if seized then Working d false [] v else v = .confirmed d)
      (.confirmed d) := by
  refine .next _ rfl fun seen => ?_
  refine .ite (fun hgood => ?_) fun hbad => .pure ?_
  · have hchecked : (Stage.confirmed d).check d seen = .checked d := if_pos ⟨rfl, hgood⟩
    rw [hchecked]
    refine .next _ (if_pos ⟨rfl, rfl, rfl⟩) fun _ => .pure ?_
    exact ⟨[], rfl, List.nil_subset _⟩
  · exact if_neg fun h => hbad h.2

theorem staged_serviceConfirmed (hd : d ≠ noPeer) (hv : Won l d v) :
    (serviceConfirmed dims self strategy d l).Staged (advance dims strategy self)
      (fun l' v => v.Ends l') v := by
  by_cases harmed : l.isRecoveryArmed d = true
  · have hl : l.recoveryTarget = d := by
      simp only [PollState.isRecoveryArmed, Bool.and_eq_true, beq_iff_eq] at harmed
      exact harmed.2
    rw [Won, if_pos harmed] at hv
    rw [serviceConfirmed, if_pos harmed]
    exact staged_serviceSeized hd hl hv
  · rw [Won, if_neg harmed] at hv
    subst hv
    rw [serviceConfirmed, if_neg harmed]
    refine (staged_seizeDeadPeerSlot d).bind fun seized v h => ?_
    cases seized with
    | true => exact staged_serviceSeized hd rfl h
    | false =>
      have hreset : (resetClaimOn self d l).Staged (advance dims strategy self)
          (fun _ => Settled d) v := by
        refine .ite (fun _ => ?_) fun _ => .pure (.inl h)
        exact (staged_resetClaim l (.inl h)).mono fun _ _ h => h.2
      exact hreset.bind fun l' v hv => .pure (Stage.ends_of_zero rfl hv.not_inside)

theorem ne_noPeer (hmax : dims.maxPeers < 2 ^ 32) {p : PeerId} (h : p < dims.maxPeers) :
    p ≠ noPeer :=
  (Nat.lt_of_lt_of_le h (Nat.le_sub_one_of_lt hmax)).ne

theorem staged_serviceRecovery (hmax : dims.maxPeers < 2 ^ 32) (hv : Begun l v) :
    (serviceRecovery dims self strategy l).Staged (advance dims strategy self)
      (fun l' v => v.Ends l') v := by
  refine (staged_begun (peaceful_getRecoveryTarget l) hv).bind fun target v hv => ?_
  refine .ite (fun _ => .pure (Stage.ends_of_zero rfl hv.not_inside)) fun hvalid => ?_
  have hlt : target < dims.maxPeers := not_not.mp fun hge => hvalid (.inl hge)
  refine (staged_begun (peaceful_hasFailed target) hv).bind fun failed v hv => ?_
  refine .ite (fun _ => ?_) fun _ => ?_
  · refine (staged_claim hlt l hv).bind fun x v h => ?_
    obtain ⟨hspan, hout⟩ := h
    refine .ite (fun hwon => ?_) fun hlost => ?_
    · rw [if_pos hwon] at hout
      have harmed : x.2.isRecoveryArmed target = l.isRecoveryArmed target := by
        rw [PollState.isRecoveryArmed, PollState.isRecoveryArmed, hspan.1, hspan.2]
      refine staged_serviceConfirmed (ne_noPeer hmax hlt) ?_
      rw [Won, harmed]
      exact hout
    · rw [if_neg hlost] at hout
      exact .pure ((begun_iff hspan v).mpr hout).ends
  · have hreset : (resetClaimOn self target l).Staged (advance dims strategy self)
        (fun _ => Begun l) v :=
      staged_begun (.ite ((onClaim_resetClaim l).mono fun _ => peaceful_of_onClaim)
        (.pure _)) hv
    exact hreset.bind fun l' v hv => .pure (Stage.ends_of_zero rfl hv.not_inside)

/-- A tick goes through the stages, from rest to rest. -/
theorem staged_serviceTick (hmax : dims.maxPeers < 2 ^ 32) :
    (serviceTick dims self strategy).Staged (advance dims strategy self)
      (fun _ v => v = .rest) .rest := by
  refine .next _ rfl fun l => ?_
  have hbegun : Begun l
      (if 0 < l.recoveryCycles then .working l.recoveryTarget false [] else .free) := by
    unfold Begun
    split
    · exact ⟨[], rfl, List.nil_subset _⟩
    · rfl
  refine (staged_serviceRecovery hmax hbegun).bind fun l' v hv => ?_
  exact .perform _ (if_pos hv) fun _ => rfl

/-! ### A departure -/

/-- The accesses of a strategy's `leave`. -/
def HandsOn (self : PeerId) : Op → Prop
  | .setDemand t bits => t = self ∧ bits = 0
  | .getAggregator _ | .setAggregator _ _ | .getMember _ => True
  | _ => False

theorem advance_departing (ho : HandsOn self o) (v : Stage) (hv : Departing self [] v) :
    ∃ f, advance dims strategy self v o = some f ∧ ∀ r, Departing self [] (f r) := by
  have hnote := (learns_departing self).note hv
  obtain ⟨more, rfl, -⟩ := id hv
  cases o with
  | setDemand t bits => exact ⟨_, if_pos ho, fun _ => hv⟩
  | getAggregator g => exact ⟨_, rfl, fun _ => hnote _ _⟩
  | setAggregator g q => exact ⟨_, rfl, fun _ => hv⟩
  | getMember t => exact ⟨_, rfl, fun _ => hnote _ _⟩
  | _ => exact ho.elim

theorem handsOn_findLiveGroupAggregator (excludePeer : PeerId) (members : List PeerId) :
    (findLiveGroupAggregator excludePeer members).Only (HandsOn self) := by
  induction members with
  | nil => exact .pure _
  | cons q rest ih =>
    exact .ite ih (.bind (.perform trivial) fun _ => .ite (.pure _) ih)

theorem handsOn_policyLeave (strategy : Strategy) :
    (policyLeave dims self strategy).Only (HandsOn self) := by
  cases strategy with
  | request => exact .perform ⟨rfl, rfl⟩
  | requestAgg =>
    refine .bind (.perform ⟨rfl, rfl⟩) fun _ => .bind (.perform trivial) fun named => ?_
    exact .ite (.bind (handsOn_findLiveGroupAggregator _ _) fun _ => .perform trivial) (.pure _)
  | _ => exact .pure _

/-- A departure goes through its stages; it writes None with its claims withdrawn. -/
theorem staged_depart (hself : self ≠ noPeer) :
    (depart dims self strategy).Staged (advance dims strategy self) (fun _ v => v = .rest)
      .rest := by
  refine .next _ rfl fun _ => ?_
  have hleave : (policyLeave dims self strategy).Staged (advance dims strategy self)
      (fun _ => Departing self []) (.departing self []) :=
    .of_only (fun _ ho => advance_departing ho) (handsOn_policyLeave strategy)
      ⟨[], rfl, List.nil_subset _⟩
  refine hleave.bind fun _ v hv => ?_
  refine (staged_retractClaimsBy (learns_departing self) hself hv).bind fun _ v h => ?_
  obtain ⟨facts, hwords, more, rfl, hmore⟩ := h
  exact .perform _ (if_pos fun t ht => hmore (hwords t ht)) fun _ => rfl

end Code

end Cme.Recovery
