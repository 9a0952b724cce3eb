import Cme.Registry.Spec

/-!
# Registry — the calls of a peer, and the steps around them

Every call starts and ends at rest, and so the invariant holds in every
reachable state of every system whose accesses are those of `exec`
(`inv_reachable`).
-/

namespace Cme.Registry

open Function Interleave Interleave.Prog

variable {T : Type} [DecidableEq T]
variable {M : System (Tid T) Op Ret (State T) Choice Call Env} {f : Flags} {dims : Dims}
variable {i : Tid T} {F : Mode → State T → Prop}

/-! ### Control sections -/

variable {G : State T → Prop}

omit [DecidableEq T] in
/-- Inside, a thread relies on all it relies on outside. -/
theorem stable_inside {mint : Option DomainHandle} (h : Stable ((pact f dims).rely i .rest) G) :
    Stable ((pact f dims).rely i (.within mint)) G :=
  fun s s' hs hG => h s s' ⟨hs.1, fun hin => by cases hin⟩ hG

section

variable (hM : Runs M f)

include hM

theorem triple_lockControl (hG : Stable ((pact f dims).rely i .rest) G) :
    triple (pact f dims) M i (fun v s => v = .rest ∧ G s) (act .lockControl) fun b v s =>
      v = (if b then Mode.within none else .rest) ∧ G s := by
  refine .perform fun s μ hInv hs ch b s' hx => ?_
  obtain ⟨hlive, hx, -, -, -⟩ := hM i _ ch s b s' hx
  cases ch with
  | flag b' =>
    cases b' with
    | false =>
      cases hx
      refine ⟨.rest, ?_, ⟨rfl, hs.2⟩, (Stable.const _).and hG, fun j _ =>
        (s.same (fun _ => rfl) _ _ _).rely j (μ j)⟩
      rw [← hs.1, update_eq_self]
      exact hInv
    | true =>
      obtain ⟨hc, ⟨⟩⟩ := of_guard hx
      refine ⟨.within none, ?_, ⟨rfl, ?_⟩, (Stable.const _).and (stable_inside hG), fun j _ =>
        rely_aside (fun _ h => h) fun _ h => h⟩
      · have hv : (⟨true, (μ i).mint⟩ : Mode) = .within none := by rw [hs.1]; rfl
        exact hv ▸ hInv.lockControl hc hlive
      · exact hG s _ (rely_aside (fun _ h => h) fun _ h => h) hs.2
  | _ => cases hx

theorem triple_unlockControl (mint : Option DomainHandle) :
    triple (pact f dims) M i (fun v _ => v = .within mint) (act .unlockControl)
      fun _ v _ => v = ⟨false, mint⟩ := by
  refine .perform fun s μ hInv hs ch r s' hx =>
    ⟨⟨false, mint⟩, ?_, rfl, .const _, fun j _ => ?_⟩ <;>
    obtain ⟨-, rfl⟩ := outcome_eq (hM.accessed hx)
  · have hv : (⟨false, (μ i).mint⟩ : Mode) = ⟨false, mint⟩ := by rw [hs]; rfl
    exact hv ▸ hInv.unlockControl (by rw [hs]; rfl)
  · exact rely_aside (fun _ h => h) fun _ h => h

/-- A control section leaves its thread as its body does, outside again. -/
theorem triple_inControlSection {α : Type} {body : Proc (Except Error α)}
    (mint : Except Error α → Option DomainHandle) (herr : ∀ e, mint (.error e) = none)
    (hG : Stable ((pact f dims).rely i .rest) G)
    (hbody : triple (pact f dims) M i (fun v s => v = .within none ∧ G s) body
      fun r v _ => v = .within (mint r)) :
    triple (pact f dims) M i (fun v s => v = .rest ∧ G s) (inControlSection body)
      fun r v _ => v = ⟨false, mint r⟩ := by
  have hrefused : ∀ e, (Mode.rest : Mode) = ⟨false, mint (.error e)⟩ := fun e => by
    rw [herr]; rfl
  refine (triple_quiet_act hM (.isParticipating controlDomainId) trivial).bind fun _ => ?_
  refine .late ?_ fun v s h => h.1.trans (hrefused _)
  refine (triple_lockControl hM hG).bind fun b => ?_
  refine .ite (fun hb => ?_) fun hb => .pure fun v s h => ?_
  · refine (hbody.pre fun v s h => ?_).bind fun r =>
      (triple_unlockControl hM (mint r)).bind fun _ => .pure fun _ _ h => h
    rwa [if_pos hb] at h
  · rw [if_neg hb] at h
    exact h.1.trans (hrefused _)

/-! ### Registry calls -/

variable (d : DomainId)

theorem triple_peerJoinDomain (expected : Option Nat) :
    triple (pact f dims) M i (fun v _ => v = .rest) (peerJoinDomain dims d expected)
      fun _ v _ => v = .rest := by
  refine .early (fun _ _ h => h) ?_
  refine (triple_quiet_act hM (.isParticipating d) trivial).bind fun _ => ?_
  refine .ite (fun _ => ?_) fun _ => ?_
  · refine (triple_quiet hM (quiet_refuseReplacedDomain d expected)).bind fun _ => ?_
    exact .early (fun _ _ h => h) <| .pure fun _ _ h => h
  have hbody : triple (pact f dims) M i (fun v _ => v = .within none ∧ True)
      (peerJoinLocked d expected) fun _ v _ => v = .within none := by
    refine (triple_quiet hM (quiet_refuseReplacedDomain d expected)).bind fun _ => ?_
    refine .early (fun _ _ h => h.1) ?_
    refine ((triple_joinDomain hM d).pre fun _ _ h => h.1).bind fun r => ?_
    cases r <;> exact .pure fun _ _ h => h
  exact (triple_inControlSection hM (fun _ => none) (fun _ => rfl) (.const _) hbody).pre
    fun _ _ h => ⟨h, trivial⟩

theorem triple_beginRetire :
    triple (pact f dims) M i (fun v _ => v = .rest) (act (.beginRetire d)) fun _ v s =>
      v = .rest ∧ i ∈ s.retiring d := by
  refine triple_passive (G := fun _ _ (s : State T) => i ∈ s.retiring d) fun s μ hInv _ ch r s' hx => ?_
  obtain ⟨-, hx, -, -, hapart⟩ := hM i _ ch s r s' hx
  cases hx
  refine ⟨hInv.setRetiring fun hf d' j hj => ?_, fun j =>
    rely_aside (fun _ h => h) fun _ h => mem_push h, ?_, stable_retiring d⟩
  · refine (mem_of_push hj).symm.imp_right ?_
    rintro ⟨rfl, rfl⟩
    have hfree := hapart hf
    simp only [retiresApart, Bool.and_eq_true, List.all_eq_true, decide_eq_true_eq,
      Bool.not_eq_true', Bool.and_eq_false_imp, decide_eq_false_iff_not] at hfree
    exact hfree
  · simp

theorem triple_endRetire :
    triple (pact f dims) M i (fun v _ => v = .rest) (act (.endRetire d)) fun _ v _ =>
      v = .rest := by
  refine .perform fun s μ hInv hs ch r s' hx => ⟨.rest, ?_, rfl, .const _, fun j hj => ?_⟩ <;>
    obtain ⟨-, rfl⟩ := outcome_eq (hM.accessed hx)
  · rw [← hs, update_eq_self]
    exact hInv.setRetiring fun _ _ _ hj => Or.inl (mem_of_erase hj)
  · exact rely_aside (fun _ h => h) fun _ h => mem_erase_ne hj h

theorem triple_peerLeaveDomain (expected : Option Nat) :
    triple (pact f dims) M i (fun v _ => v = .rest) (peerLeaveDomain dims i.1 d expected)
      fun _ v _ => v = .rest := by
  refine .early (fun _ _ h => h) ?_
  refine .early (fun _ _ h => h) ?_
  have hbody : triple (pact f dims) M i (fun v s => v = .within none ∧ i ∈ s.retiring d)
      (peerLeaveLocked dims i.1 d expected) fun _ v _ => v = .within none := by
    refine (triple_quiet hM (quiet_refuseReplacedDomain d expected)).bind fun _ => ?_
    refine .early (fun _ _ h => h.1) ?_
    refine (triple_quiet_act hM (.hasOwnershipPins d) trivial).bind fun _ => ?_
    refine .early (fun _ _ h => h.1) ?_
    refine (triple_leaveDomain hM d).bind fun r => ?_
    cases r <;> exact .pure fun _ _ h => h
  refine (triple_beginRetire hM d).bind fun _ => ?_
  refine (triple_inControlSection hM (fun _ => none) (fun _ => rfl) (stable_retiring d)
    hbody).bind fun r => ?_
  exact (triple_endRetire hM d).bind fun _ => .pure fun _ _ h => h

theorem triple_peerDeleteDomain (expected : Option Nat) :
    triple (pact f dims) M i (fun v _ => v = .rest) (peerDeleteDomain dims i.1 d expected)
      fun _ v _ => v = .rest := by
  refine .early (fun _ _ h => h) ?_
  refine .early (fun _ _ h => h) ?_
  have hbody : triple (pact f dims) M i (fun v s => v = .within none ∧ i ∈ s.retiring d)
      (peerDeleteLocked dims i.1 d expected) fun _ v _ => v = .within none := by
    refine (triple_quiet hM (quiet_refuseReplacedDomain d expected)).bind fun _ => ?_
    refine .early (fun _ _ h => h.1) ?_
    refine ((triple_deleteDomainLocked hM d).pre fun v s h => ⟨h.1, Or.inl h.2⟩).bind fun r => ?_
    cases r <;> exact .pure fun _ _ h => h
  have hheld : triple (pact f dims) M i (fun v s => v = .rest ∧ i ∈ s.retiring d)
      (peerDeleteHeld dims i.1 d expected) fun _ v _ => v = .rest := by
    refine (triple_quiet_act hM (.word (.loadPin d false)) trivial).bind fun _ => ?_
    refine .early (fun _ _ h => h.1) ?_
    exact triple_inControlSection hM (fun _ => none) (fun _ => rfl) (stable_retiring d)
      hbody
  have hlocking : triple (pact f dims) M i (fun v s => v = .rest ∧ i ∈ s.retiring d)
      (peerDeleteLocking dims i.1 d expected) fun _ v _ => v = .rest := by
    refine (triple_quiet hM (quiet_lock d)).bind fun r => ?_
    cases r with
    | error e => exact .pure fun _ _ h => h.1
    | ok _ =>
      exact hheld.bind fun _ => (triple_outside hM (moves_releaseInternal i.1 d)
        fun v s h => by rw [h]; rfl).bind fun _ => .pure fun _ _ h => h
  refine (triple_beginRetire hM d).bind fun _ => hlocking.bind fun _ => ?_
  exact (triple_endRetire hM d).bind fun _ => .pure fun _ _ h => h

/-- The handle a create is about to return. -/
def mintedBy : Except Error DomainHandle → Option DomainHandle
  | .ok h => some h
  | .error _ => none

theorem triple_returnHandle (h : DomainHandle) :
    triple (pact f dims) M i (fun v _ => v = ⟨false, some h⟩) (act (.returnHandle h))
      fun _ v _ => v = .rest := by
  refine .perform fun s μ hInv hs ch r s' hx => ⟨.rest, ?_, rfl, .const _, fun j _ => ?_⟩ <;>
    obtain ⟨-, rfl⟩ := outcome_eq (hM.accessed hx)
  · have hv : (⟨(μ i).inside, none⟩ : Mode) = .rest := by rw [hs]; rfl
    exact hv ▸ hInv.returnHandle (by rw [hs])
  · exact rely_aside (fun _ h => h) fun _ h => h

theorem triple_peerCreateDomain {name : Text} (hname : isNulFree name = true) :
    triple (pact f dims) M i (fun v _ => v = .rest) (peerCreateDomain dims i.1 name)
      fun _ v _ => v = .rest := by
  refine .late ?_ fun _ _ h => h
  have hbody : triple (pact f dims) M i (fun v _ => v = .within none ∧ True)
      (peerCreateLocked dims i.1 name) fun r v _ => v = .within (mintedBy r) := by
    refine ((triple_createDomainLocked hM hname).pre fun _ _ h => h.1).bind fun r => ?_
    cases r <;> exact .pure fun _ _ h => h
  refine ((triple_inControlSection hM mintedBy (fun _ => rfl) (.const _) hbody).pre
    fun _ _ h => ⟨h, trivial⟩).bind fun r => ?_
  cases r with
  | error e => exact .pure fun _ _ h => h
  | ok h => exact (triple_returnHandle hM h).bind fun _ => .pure fun _ _ h => h

theorem triple_sweepOrphans :
    triple (pact f dims) M i (fun v _ => v = .rest) (sweepOrphans dims i.1)
      fun _ v _ => v = .rest := by
  have hbody : triple (pact f dims) M i (fun v _ => v = .within none ∧ True)
      (sweepLocked dims i.1) fun _ v _ => v = .within none :=
    ((triple_reclaimAmong hM _ 0).pre fun _ _ h => h.1).bind fun _ => .pure fun _ _ h => h
  exact ((triple_inControlSection hM (fun _ => none) (fun _ => rfl) (.const _) hbody).pre
    fun _ _ h => ⟨h, trivial⟩).bind fun _ => .pure fun _ _ h => h

end

/-! ### Locks -/

/-- A live member, where that matters. -/
def Seated (f : Flags) (i : Tid T) (s : State T) : Prop :=
  f.settled = true → s.crashed i.1 = false ∧ (s.member i.1).status = .active

omit [DecidableEq T] in
theorem stable_seated {v : Mode} : Stable ((pact f dims).rely i v) (Seated f i) :=
  fun _ _ h hs hf => ⟨h.1.alive.trans (hs hf).1, h.1.status hf (hs hf).1 (hs hf).2⟩

/-- In a lock of the domain. -/
def Using (f : Flags) (i : Tid T) (d : DomainId) (s : State T) : Prop :=
  Seated f i s ∧ i ∈ s.users d

omit [DecidableEq T] in
theorem stable_using {v : Mode} (d : DomainId) : Stable ((pact f dims).rely i v) (Using f i d) :=
  stable_seated.and fun _ _ h hu => h.1.users d hu

/-- In a lock of a domain it participates in. -/
def Joined (f : Flags) (i : Tid T) (d : DomainId) (s : State T) : Prop :=
  Using f i d s ∧ (f.settled = true → (s.member i.1).isActiveIn d = true)

omit [DecidableEq T] in
theorem stable_joined {v : Mode} (d : DomainId) : Stable ((pact f dims).rely i v) (Joined f i d) :=
  fun s s' h hs => ⟨stable_using d s s' h hs.1, fun hf =>
    (h.1.kept hf (hs.1.1 hf).1 d hs.1.2 (hs.2 hf)).1⟩

/-- In a lock of a domain it has confirmed to be the handle's. -/
def Confirmed (f : Flags) (i : Tid T) (h : DomainHandle) (s : State T) : Prop :=
  Joined f i h.id s ∧ (f.settled = true →
    (s.record h.id).isActive = true ∧ (s.record h.id).generation = h.incarnation)

omit [DecidableEq T] in
theorem stable_confirmed {v : Mode} (h : DomainHandle) :
    Stable ((pact f dims).rely i v) (Confirmed f i h) := by
  intro s s' hr hs
  refine ⟨stable_joined h.id s s' hr hs.1, fun hf => ?_⟩
  have hl := (hr.1.kept hf (hs.1.1.1 hf).1 h.id hs.1.1.2 (hs.1.2 hf)).2
  rw [isActive_of_life hl, generation_of_life hl]
  exact hs.2 hf

section

variable (hM : Runs M f)

include hM

theorem triple_isParticipating (d : DomainId) :
    triple (pact f dims) M i (fun v s => v = .rest ∧ Using f i d s) (act (.isParticipating d))
      fun b v s => (v = .rest ∧ Using f i d s) ∧ (b = true → Joined f i d s) := by
  refine triple_learn hM (.isParticipating d) trivial (fun v s ch b s' hs hx hb => ?_)
    fun v s _ b => .imp fun _ => stable_joined d
  cases hx
  exact ⟨hs.2, fun hf => Member.isActiveIn_iff.mpr ⟨(hs.2.1 hf).2, hb⟩⟩

variable (h : DomainHandle)

/-- The check with the turn held: a handle that passes names the domain. -/
theorem triple_refuseStaleHandle :
    triple (pact f dims) M i (fun v s => v = .rest ∧ Joined f i h.id s)
      (refuseStaleHandle dims h) fun stale v s =>
        v = .rest ∧ Using f i h.id s ∧ (stale = false → Confirmed f i h s) := by
  refine .ite (fun _ => .pure fun v s hs => ⟨hs.1, hs.2.1, fun hf => by simp at hf⟩)
    fun hzero => ?_
  refine triple.bind (Q := fun (g : Nat) (v : Mode) (s : State T) =>
    v = .rest ∧ Using f i h.id s ∧ (g = h.incarnation → Confirmed f i h s)) ?_ fun g => ?_
  · refine .early (fun v s hs => ⟨hs.1, hs.2.1, fun hg =>
      absurd hg.symm hzero⟩) ?_
    have hload : triple (pact f dims) M i (fun v s => v = .rest ∧ Joined f i h.id s)
        (loadRecord h.id) fun e v s => (v = .rest ∧ Joined f i h.id s) ∧
          (e.isActive = true → e.generation = h.incarnation → Confirmed f i h s) := by
      refine triple_learn hM (.word (.getRecord h.id)) trivial (fun v s ch e s' hs hx ha hg => ?_)
        fun v s _ e => .imp fun _ => .imp fun _ => stable_confirmed h
      cases hx
      exact ⟨hs.2, fun _ => ⟨ha, hg⟩⟩
    refine hload.bind fun e => .pure fun v s hs => ⟨hs.1.1, hs.1.2.1, fun hg => ?_⟩
    replace hg : (if e.isValidMagic && e.isActive then e.generation else 0) = _ := hg
    by_cases he : (e.isValidMagic && e.isActive) = true
    · rw [if_pos he] at hg
      exact hs.2 (by simp at he; exact he.2) hg
    · rw [if_neg he] at hg
      exact absurd hg.symm hzero
  · refine .pure fun v s hs => ⟨hs.1, hs.2.1, fun hstale => hs.2.2 ?_⟩
    simpa using hstale

theorem triple_confirmHandle :
    triple (pact f dims) M i (fun v s => v = .rest ∧ Joined f i h.id s) (confirmHandle dims i.1 h)
      fun r v s => v = .rest ∧ Using f i h.id s ∧ (r = .ok (some h) → Confirmed f i h s) := by
  refine (triple_refuseStaleHandle hM h).bind fun stale => .ite (fun _ => ?_) fun hs => ?_
  · exact (triple_outside hM (moves_releaseInternal i.1 h.id) fun v s h => by
        rw [h.1]; rfl).bind fun _ => .pure fun v s hs => ⟨hs.1, hs.2.1, fun h => by simp at h⟩
  · exact .pure fun v s hv => ⟨hv.1, hv.2.1, fun _ => hv.2.2 (by simpa using hs)⟩

/-- The two policies' locks of a domain its peer participates in. -/
theorem triple_policyLock {d : DomainId} {b : Bool} : triple (pact f dims) M i
      (fun v s => (v = .rest ∧ Using f i d s) ∧ (b = true → Joined f i d s)) (policyLock d)
      fun _ v s => (v = .rest ∧ Using f i d s) ∧ (b = true → Joined f i d s) :=
  triple_quiet hM (quiet_policyLock d)

/-- A lock or a try of a domain: what wins is won by a peer that participates. -/
theorem triple_askTurn {α : Type} {d : DomainId} {valid : Prop} [Decidable valid]
    {won invalid lost stranger : Except Error α} (hinvalid : invalid ≠ won) (hlost : lost ≠ won)
    (hstranger : stranger ≠ won) : triple (pact f dims) M i (fun v s => v = .rest ∧ Using f i d s)
      (if valid then pure invalid else do
        if ← act (.isParticipating d) then
          if ← policyLock d then pure won else pure lost
        else pure stranger)
      fun r v s => (v = .rest ∧ Using f i d s) ∧ (r = won → Joined f i d s) := by
  refine .early (fun v s hs => ⟨hs, fun h => absurd h hinvalid⟩) ?_
  refine (triple_isParticipating hM d).bind fun b => ?_
  refine .ite (fun hb => ?_) fun _ => .pure fun v s hs =>
    ⟨hs.1, fun h => absurd h hstranger⟩
  refine (triple_policyLock hM).bind fun got => ?_
  exact .early (fun v s hs => ⟨hs.1, fun _ => hs.2 hb⟩) <| .pure fun v s hs => ⟨hs.1, fun h => absurd h hlost⟩

theorem triple_askByHandle (wait : Wait) :
    triple (pact f dims) M i (fun v s => v = .rest ∧ Using f i h.id s) (askByHandle dims i.1 h wait)
      fun r v s => v = .rest ∧ Using f i h.id s ∧ (r = .ok (some h) → Confirmed f i h s) := by
  cases wait
  all_goals
    refine (triple_quiet hM (quiet_refuseStaleHandle h)).bind fun _ => ?_
    refine .early (fun v s hs => ⟨hs.1, hs.2, nofun⟩) ?_
    refine triple.bind (triple_askTurn hM (by simp) (by simp) (by simp)) fun r => ?_
    cases r
  case lock.error | tryLock.error => exact .pure fun v s hs => ⟨hs.1.1, hs.1.2, nofun⟩
  case lock.ok => exact (triple_confirmHandle hM h).pre fun v s hs => ⟨hs.1.1, hs.2 rfl⟩
  case tryLock.ok got =>
    cases got with
    | none => exact .pure fun v s hs => ⟨hs.1.1, hs.1.2, nofun⟩
    | some _ => exact (triple_confirmHandle hM h).pre fun v s hs => ⟨hs.1.1, hs.2 rfl⟩

theorem triple_beginUse (d : DomainId) :
    triple (pact f dims) M i (fun v s => v = .rest ∧ Seated f i s) (act (.beginUse d))
      fun _ v s => v = .rest ∧ Using f i d s := by
  refine (triple_passive (G := fun _ _ (s : State T) => i ∈ s.users d) fun s μ hInv _ ch r s' hx => ?_).post
    fun _ v s hs => ⟨hs.1.1, hs.1.2, hs.2⟩
  obtain ⟨-, hx, -, -, hapart⟩ := hM i _ ch s r s' hx
  cases hx
  refine ⟨hInv.setUsers fun hf d' j hj => ?_, fun j =>
    rely_aside (fun _ h => mem_push h) fun _ h => h, ?_, fun _ _ h hu => h.1.users d hu⟩
  · refine (mem_of_push hj).symm.imp_right ?_
    rintro ⟨rfl, rfl⟩
    simpa [retiresApart] using hapart hf
  · simp

theorem triple_endUse (d : DomainId) :
    triple (pact f dims) M i (fun v _ => v = .rest) (act (.endUse d)) fun _ v _ =>
      v = .rest := by
  refine .perform fun s μ hInv hs ch r s' hx => ⟨.rest, ?_, rfl, .const _, fun j hj => ?_⟩ <;>
    obtain ⟨-, rfl⟩ := outcome_eq (hM.accessed hx)
  · rw [← hs, update_eq_self]
    exact hInv.setUsers fun _ _ _ hj => Or.inl (mem_of_erase hj)
  · exact rely_aside (fun _ h => mem_erase_ne hj h) fun _ h => h

theorem triple_returnGuard :
    triple (pact f dims) M i (fun v s => v = .rest ∧ Confirmed f i h s) (act (.returnGuard h))
      fun _ v _ => v = .rest := by
  refine (triple_passive (G := fun _ _ _ => True) fun s μ hInv hs ch r s' hx => ?_).post
    fun _ _ _ h => h.1.1
  obtain ⟨-, rfl⟩ := outcome_eq (hM.accessed hx)
  exact ⟨hInv.returnGuard fun hf => ⟨hs.2.1.1.2, hs.2.1.2 hf, hs.2.2 hf⟩,
    fun j => rely_aside (fun _ h => h) fun _ h => h, trivial, .const _⟩

theorem triple_sessionLock (wait : Wait) :
    triple (pact f dims) M i (fun v s => v = .rest ∧ Seated f i s) (sessionLock dims i.1 h wait)
      fun _ v _ => v = .rest := by
  refine (triple_beginUse hM h.id).bind fun _ => (triple_askByHandle hM h wait).bind fun r => ?_
  refine triple.bind (Q := fun _ v _ => v = Mode.rest) ?_ fun _ =>
    (triple_endUse hM h.id).bind fun _ => .pure fun _ _ h => h
  refine .ite (fun hr => ?_) fun _ => .pure fun _ _ h => h.1
  exact (triple_returnGuard hM h).pre fun v s hs => ⟨hs.1, hs.2.2 hr⟩

theorem triple_sessionLockByName (name : Text) (wait : Wait) :
    triple (pact f dims) M i (fun v s => v = .rest ∧ Seated f i s)
      (sessionLockByName dims i.1 name wait) fun _ v _ => v = .rest := by
  refine (triple_quiet hM (quiet_resolveHandle name)).bind fun r => ?_
  cases r with
  | error e => exact .pure fun _ _ h => h.1
  | ok h => exact triple_sessionLock hM h wait

theorem triple_releaseGuard :
    triple (pact f dims) M i (fun v _ => v = .rest) (releaseGuard dims i.1 h) fun _ v _ => v = .rest := by
  refine triple.bind (Q := fun _ v _ => v = Mode.rest) ?_ fun _ =>
    triple_outside hM (moves_releaseInternal i.1 h.id) fun v s h => by rw [h]; rfl
  refine (triple_passive (G := fun _ _ _ => True) fun s μ hInv hs ch r s' hx => ?_).post
    fun _ _ _ h => h.1
  replace hx := hM.accessed hx
  obtain ⟨-, ⟨⟩⟩ := of_guard hx
  exact ⟨hInv.setGuards fun g hg => List.mem_of_mem_erase hg, fun j => rely_aside (fun _ h => h) fun _ h => h,
    trivial, .const _⟩

end

/-! ### The steps outside the threads -/

omit [DecidableEq T] in
theorem Inv.env {s s' : State T} {μ : Tid T → Mode} (h : Inv f dims s μ) {e : Env}
    (hs : env f.departs e s = some s') :
    ∃ μ', Inv f dims s' μ' ∧ ∀ j, if kills e j then μ' j = .rest
      else μ' j = μ j ∧ (pact f dims).rely j (μ j) s s' := by
  have hstays : f.settled = true → f.departs = true → False := fun hf hd => by
    rw [f.stays hf] at hd
    exact Bool.false_ne_true hd
  cases e with
  | crash p =>
    cases hs
    refine ⟨_, h.crash p, fun j => ?_⟩
    by_cases hj : j.1 = p
    · simp [kills, hj]
    · simp only [kills, hj, decide_false, Bool.false_eq_true, if_false, true_and]
      exact ⟨⟨update_of_ne hj .., fun _ h => h, fun _ h => h, fun _ _ h => h,
        fun _ _ _ _ h => ⟨h, rfl⟩⟩, fun _ => ⟨fun _ => rfl, fun _ _ h => h, fun _ h => h, rfl⟩⟩
  | seize p =>
    obtain ⟨hc, rfl⟩ : (s.crashed p = true ∧ (s.member p).status ≠ .none) ∧
        s.setStatus p .recovering 0 = s' := by simpa [Registry.env] using hs
    have hset := h.setStatus p .recovering 0 (by simp)
      (fun d hd => by simp [Bits.has] at hd) fun _ => hc.1
    exact ⟨μ, hset.1, fun j => ⟨rfl, hset.2 j _⟩⟩
  | lapse d =>
    cases hs
    have hsame := s.same (fun _ => rfl) s.shadow s.pins
      (update s.holding d ((s.holding d).filter fun q => !s.crashed q))
    exact ⟨μ, h.same hsame, fun j => ⟨rfl, hsame.rely j _⟩⟩
  | handControl =>
    simp only [Registry.env] at hs
    split at hs
    · rename_i i hi
      obtain ⟨hc, ⟨⟩⟩ := of_guard hs
      exact ⟨μ, h.handControl hi hc, fun j => ⟨rfl, rely_aside (fun _ h => h) fun _ h => h⟩⟩
    · simp at hs
  | finish p =>
    obtain ⟨hc, rfl⟩ : (s.crashed p = true ∧ (s.member p).status = .recovering) ∧
        s.setStatus p .none (s.member p).participating = s' := by simpa [Registry.env] using hs
    have hset := h.setStatus p .none (s.member p).participating
      (by simp) (fun _ hd => hd) fun _ => hc.1
    exact ⟨μ, hset.1, fun j => ⟨rfl, hset.2 j _⟩⟩
  | drain p =>
    obtain ⟨hc, rfl⟩ : (f.departs = true ∧ s.crashed p = false ∧ (s.member p).status = .active) ∧
        s.setStatus p .leaving (s.member p).participating = s' := by
      simpa [Registry.env] using hs
    have hset := h.setStatus p .leaving (s.member p).participating
      (by simp) (fun _ hd => hd) fun hf => (hstays hf hc.1).elim
    exact ⟨μ, hset.1, fun j => ⟨rfl, hset.2 j _⟩⟩
  | depart p =>
    obtain ⟨hc, rfl⟩ : (f.departs = true ∧ s.crashed p = false ∧ (s.member p).status = .leaving) ∧
        s.setStatus p .none 0 = s' := by simpa [Registry.env] using hs
    have hset := h.setStatus p .none 0 (by simp)
      (fun d hd => by simp [Bits.has] at hd) fun hf => (hstays hf hc.1).elim
    exact ⟨μ, hset.1, fun j => ⟨rfl, hset.2 j _⟩⟩

theorem triple_callCode (hM : Runs M f) {call : Call} {s : State T} {p : Proc Unit}
    (hp : callCode dims i s call = some p) :
    triple (pact f dims) M i (fun v s => v = .rest ∧ Seated f i s) p fun _ v _ => v = .rest := by
  have hdone : ∀ {α : Type} {q : Proc α} {P : Mode → State T → Prop},
      triple (pact f dims) M i P q (fun _ v _ => v = .rest) →
      triple (pact f dims) M i P (do let _ ← q) fun _ v _ => v = .rest :=
    fun h => h.bind fun _ => .pure fun _ _ h => h
  cases call with
  | createDomain name =>
    obtain ⟨hname, rfl⟩ : isNulFree name = true ∧ (do let _ ← peerCreateDomain dims i.1 name) = p := by
      simpa [callCode] using hp
    exact (hdone (triple_peerCreateDomain hM hname)).pre fun _ _ h => h.1
  | joinDomain d expected =>
    cases hp
    exact (hdone (triple_peerJoinDomain hM d expected)).pre fun _ _ h => h.1
  | leaveDomain d expected =>
    cases hp
    exact (hdone (triple_peerLeaveDomain hM d expected)).pre fun _ _ h => h.1
  | deleteDomain d expected =>
    cases hp
    exact (hdone (triple_peerDeleteDomain hM d expected)).pre fun _ _ h => h.1
  | sweepOrphans =>
    cases hp
    exact (triple_sweepOrphans hM).pre fun _ _ h => h.1
  | lock h wait =>
    cases hp
    exact hdone (triple_sessionLock hM h wait)
  | lockByName name wait =>
    cases hp
    exact hdone (triple_sessionLockByName hM name wait)
  | releaseGuard h =>
    obtain ⟨-, rfl⟩ : (i.1, h) ∈ s.guards ∧ releaseGuard dims i.1 h = p := by simpa [callCode] using hp
    exact (triple_releaseGuard hM h).pre fun _ _ h => h.1
  | moveRecord d move =>
    cases hp
    exact (triple_outside hM (moves_moveRecord i.1 d move) fun v s h => by rw [h.1]; rfl).post
      fun _ _ _ h => h.1

theorem kept (hM : Runs M f) (hstart : M.start = start dims) (henv : M.env = env f.departs)
    (hkills : M.kills = kills) : (pact f dims).Kept M fun _ v _ => v = .rest where
  start i call s μ p hInv hrest hp := by
    rw [hstart] at hp
    unfold start at hp
    split at hp
    · simp at hp
    · rename_i hlive
      simp only [Bool.or_eq_true, beq_iff_eq, not_or, Bool.not_eq_true] at hlive
      refine ⟨.rest, _, ?_, ⟨rfl, fun hf => ⟨hlive.1, ?_⟩⟩, (Stable.const _).and stable_seated,
        triple_callCode hM hp⟩
      · rw [← hrest, update_eq_self]
        exact hInv
      · exact ((hInv.settled hf).present i.1 hlive.1).resolve_left hlive.2
  env e s μ s' hInv hs := by
    rw [henv] at hs
    obtain ⟨μ', hInv', hμ⟩ := hInv.env hs
    refine ⟨μ', hInv', fun j => ?_⟩
    have hj := hμ j
    rw [hkills]
    by_cases hk : kills e j = true
    · rw [if_pos hk] at hj ⊢
      exact ⟨hj, .const _⟩
    · rw [if_neg hk] at hj ⊢
      exact hj

omit [DecidableEq T] in
theorem inv_initial {s : State T} (h : s.Initial dims) : Inv f dims s fun _ => .rest where
  inside i := by simp [Mode.rest, h.control]
  range d hd ha := by rw [h.free d hd] at ha; cases ha
  names d _ hd _ ha := by rw [h.free d hd] at ha; cases ha
  joined q d hd hq := absurd (h.bits q d (Member.isActiveIn_iff.mp hq).2) hd
  bound := h.bound
  handed k hk := by rw [h.returned] at hk; simp at hk
  handedOnce := by rw [h.returned]; exact List.nodup_nil
  minted _ _ hk := by simp [Mode.rest] at hk
  mintedOnce _ _ _ hk := by simp [Mode.rest] at hk
  listed _ d hd ha := by rw [h.free d hd] at ha; cases ha
  unlisted _ _ d _ hu := by rw [h.unlisted d] at hu; cases hu
  settled _ :=
    { guarded := fun g hg => by rw [h.guards] at hg; simp at hg
      unretired := fun g hg => by rw [h.guards] at hg; simp at hg
      apart := fun d i hi => by rw [h.users d] at hi; simp at hi
      present := fun p _ => h.joined p }

theorem inv_reachable (hM : Runs M f) (hstart : M.start = start dims)
    (henv : M.env = env f.departs) (hkills : M.kills = kills) {s₀ : State T}
    (h₀ : s₀.Initial dims) {c : Config (Tid T) Op Ret (State T)}
    (h : M.Reachable (idle s₀) c) : ∃ μ, Inv f dims c.shared μ :=
  (kept hM hstart henv hkills).reachable (μ := fun _ => .rest) (fun _ => rfl) (inv_initial h₀)
    (fun _ => rfl) (fun _ => .const _) h

end Cme.Registry
