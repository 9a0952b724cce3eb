import Cme.Daemon.Keeper
import Cme.Daemon.Words
import Cme.Interleave.Outline

/-!
# Daemon — the procedures against the invariant

One specification per procedure: from which view it starts and with which views
it ends. A requester ends out of every slot or inside one; a thread of the
daemon ends holding nothing.
-/

namespace Cme.Daemon

open Function Interleave

variable {lim : Limits} {t : Tid} {v : View} {d : DomainId} {r : Nat} {α : Type}

/-- The invariant of a node. -/
def NodeInv (s : State) (γ : Tid → View) : Prop := Inv s.turns γ

/-- What a procedure of thread `t` does to what it knows. -/
abbrev Spec (lim : Limits) (t : Tid) (p : Proc α) (Q : α → View → Prop) (v : View) : Prop :=
  wp (system lim) NodeInv t p Q v

/-- From nothing held to nothing held. -/
abbrev Rests (lim : Limits) (t : Tid) (p : Proc α) : Prop := Spec lim t p (fun _ v => v = {}) {}

/-! ### Steps that no lease notices -/

theorem exec_quiet {o : Op} (ho : o.quiet = true) {ch : Choice} {s s' : State} {x : Ret o}
    (hx : exec lim t o ch s = some (x, s')) : s'.turns = s.turns := by
  cases exec_stepped hx with
  | turns hpart h =>
    -- the two reads among them
    cases o <;> cases hpart <;> first | (cases ho; done) | (cases h; rfl)
  | took => cases ho
  | requests h | registry h | region h | still => rfl

theorem wp_quiet {p : Proc α} (hp : Quiet p) {Q : α → View → Prop} (h : ∀ a, Q a v) :
    Spec lim t p Q v := by
  refine wp_only hp (fun o ho s γ ch x s' hInv hx => ?_) h
  show Inv s'.turns γ
  rw [exec_quiet ho hx]
  exact hInv

theorem wp_quietly {β : Type} {p : Proc β} (hp : Quiet p) {f : β → Proc α}
    {Q : α → View → Prop} (h : ∀ a, wp (system lim) NodeInv t (f a) Q v) :
    Spec lim t (p >>= f) Q v :=
  (wp_bind ..).mpr (wp_quiet hp h)

theorem wp_skip {o : Op} (ho : o.quiet = true) {f : Ret o → Proc α} {Q : α → View → Prop}
    (h : ∀ a, wp (system lim) NodeInv t (f a) Q v) : Spec lim t (act o >>= f) Q v :=
  wp_quietly (.perform ho) h

theorem quiet_publishName (name : DomainName) (d : DomainId) : Quiet (claim.publishName name d) :=
  .bind (.perform rfl) fun _ => .bind (.perform rfl) fun _ => .bind (.perform rfl) fun _ => .pure _

theorem quiet_leaveDomain (handle : Handle) : Quiet (leaveDomain handle) :=
  .ite (.pure _) (.perform rfl)

theorem quiet_findNamed (name : DomainName) : Quiet (findNamed name) :=
  .bind (.perform rfl) fun _ => .bind (.perform rfl) fun _ => .bind (.perform rfl) fun _ => .pure _

/-! ### A requester -/

/-- A requester at a slot. -/
def atSlot (d : DomainId) (c : Claim) : View := { mutex := some d, claim := c }

variable {c : Claim} {Q : Unit → View → Prop}

theorem wp_publish (next : RequestState)
    (hsound : ∀ s γ, Inv s γ → γ (.requester r) = atSlot d c →
      ((lease s γ d).use (Turns.claimOf next) (next == .lockHeld)).Sound)
    (h : Q () (atSlot d (Turns.claimOf next))) :
    Spec lim (.requester r) (publish d next) Q (atSlot d c) := by
  refine .bind ?_
  intro s γ hInv hγ ch x s' hx
  cases hx
  refine ⟨_, Inv.store hInv hγ rfl next (hsound _ _ hInv hγ), ?_⟩
  exact wp_quiet (.perform rfl) fun _ => h

theorem wp_publishClaim (h : Q () (atSlot d .claimed)) :
    Spec lim (.requester r) (publish d .lockHeld) Q (atSlot d c) :=
  wp_publish .lockHeld
    (fun _ _ hInv hγ => (hInv.sound d).claim (hInv.not_removing hγ rfl)) h

theorem wp_publishIdle (h : Q () (atSlot d .out)) :
    Spec lim (.requester r) (publish d .idle) Q (atSlot d c) :=
  wp_publish .idle (fun _ _ hInv _ => (hInv.sound d).retract) h

theorem wp_publishRequest (h : Q () (atSlot d .asking)) :
    Spec lim (.requester r) (publish d .lockRequested) Q (atSlot d c) :=
  wp_publish .lockRequested
    (fun _ _ hInv hγ => (hInv.sound d).ask (hInv.not_removing hγ rfl)) h

theorem wp_lockForRequest (h : Q () (atSlot d .out)) :
    Spec lim (.requester r) (lockForRequest d) Q {} := by
  unfold lockForRequest
  refine wp_skip rfl fun _ => ?_
  rw [wp_bind]
  intro s γ hInv hγ ch told s' hx
  replace hx : (((s.turns.mutex d).acquire (.requester r)).map fun told =>
      (told.1, s.turns.setMutex d told.2)).map (fun x => (x.1, { s with turns := x.2 })) =
        some (told, s') := hx
  rw [Option.map_map, Option.map_eq_some_iff] at hx
  obtain ⟨⟨told', m⟩, hacquire, hx⟩ := hx
  cases hx
  refine ⟨_, Inv.lockMutex hInv hγ rfl hacquire, ?_⟩
  rw [wp_done, wp_bind]
  refine wp_quiet (looks_recordAbandonment _ _).quiet fun _ => ?_
  exact wp_quiet (.perform rfl) fun _ => h

theorem wp_unlockMutex (h : Q () {}) :
    Spec lim (.requester r) (act (.unlockMutex d)) Q (atSlot d .out) := by
  intro s γ hInv hγ ch x s' hx
  cases hx
  exact ⟨_, Inv.unlockMutex hInv hγ rfl rfl, h⟩

theorem wp_release (h : Q () {}) :
    Spec lim (.requester r) (release d) Q (atSlot d c) := by
  unfold release
  refine .bind <| wp_publishIdle ?_
  refine wp_skip rfl fun waiters => ?_
  refine .bind <| wp_unlockMutex ?_
  exact wp_quiet (.ite (.pure _) (.perform rfl)) fun _ => h

/-- Where an answer leaves the waiting requester. -/
def Awaited (d : DomainId) : Option RequestState → View → Prop
  | none, v => v = atSlot d .asking
  | some .error, v => v = atSlot d .asking
  | some .lockHeld, v => v = atSlot d .inside
  | some _, _ => False

theorem wp_awaitStateLoop (turns : Nat) :
    Spec lim (.requester r) (awaitStateLoop d turns) (Awaited d)
      (atSlot d .asking) := by
  induction turns with
  | zero =>
    unfold awaitStateLoop
    exact wp_skip rfl fun _ => rfl
  | succ turns ih =>
    unfold awaitStateLoop
    refine wp_skip rfl fun seen => ?_
    rw [wp_bind]
    intro s γ hInv hγ ch seenState s' hx
    cases hx
    by_cases hheld : s.turns.state d = .lockHeld
    · -- the answer is there, and with it the turn
      refine ⟨atSlot d .inside, ?_, ?_⟩
      · simp only [hheld, if_true]
        refine Inv.enter hInv hγ rfl ?_
        have hclaim := hInv.placed.lease_claim (t := .requester r) (d := d) (by rw [hγ]; rfl)
        rw [hγ] at hclaim
        have hword : (lease s.turns γ d).word = true := by
          show (s.turns.state d == .lockHeld) = true
          rw [hheld]
          rfl
        exact (hInv.sound d).answered hclaim hword
      · rw [wp_done, hheld]
        exact rfl
    · refine ⟨atSlot d .asking, ?_, ?_⟩
      · simp only [hheld, if_false]
        rw [← hγ, update_eq_self]
        exact hInv
      · rw [wp_done]
        dsimp only
        by_cases herror : s.turns.state d = .error
        · rw [herror]
          exact rfl
        · have hwaiting : ¬isAcquireAnswered (s.turns.state d) = true := by
            simp [isAcquireAnswered, hheld, herror]
          rw [if_neg hwaiting, wp_bind]
          refine wp_quiet (.perform rfl) fun left => ?_
          split
          · exact wp_skip rfl fun _ => ih
          · exact rfl

theorem wp_awaitState :
    Spec lim (.requester r) (awaitState d) (Awaited d) (atSlot d .asking) := by
  unfold awaitState
  exact wp_skip rfl fun turns => wp_awaitStateLoop turns

/-- Between two calls of a requester. -/
def Settled (v : View) : Prop := v = {} ∨ ∃ d, v = atSlot d .inside

theorem wp_awaitTurn (name : DomainName) :
    Spec lim (.requester r) (awaitTurn name d) (fun _ => Settled)
      (atSlot d .out) := by
  unfold awaitTurn
  refine .bind <| wp_publishRequest ?_
  refine wp_skip rfl fun _ => ?_
  refine wp_then wp_awaitState fun outcome v hv => ?_
  split
  · -- the deadline
    replace hv : v = atSlot d .asking := hv
    subst hv
    exact .bind <| wp_release (.inl rfl)
  · -- a refusal
    replace hv : v = atSlot d .asking := hv
    subst hv
    refine wp_skip rfl fun failure => ?_
    exact .bind <| wp_release (.inl rfl)
  · rename_i state hne
    cases state with
    | lockHeld => exact .inr ⟨d, hv⟩
    | error => exact absurd rfl hne
    | idle => exact hv.elim
    | lockRequested => exact hv.elim
    | granting => exact hv.elim

theorem wp_lockUnderMutex (name : DomainName) :
    Spec lim (.requester r) (lockUnderMutex name d) (fun _ => Settled)
      (atSlot d .out) := by
  unfold lockUnderMutex
  refine wp_quietly (looks_isNamed _ _).quiet fun named => ?_
  split
  · refine .bind <| wp_publishClaim ?_
    rw [wp_bind]
    intro s γ hInv hγ ch ahead s' hx
    cases ch <;> first | (cases hx; done) | skip
    rename_i now
    cases hx
    by_cases hahead : now < s.turns.expiresAtNanos d
    · -- a valid stamp, read after the word went up
      refine ⟨atSlot d .inside, ?_, ?_⟩
      · simp only [hahead, decide_true, if_true]
        refine Inv.enter hInv hγ rfl ?_
        have hclaim := hInv.placed.lease_claim (t := .requester r) (d := d) (by rw [hγ]; rfl)
        rw [hγ] at hclaim
        have hpermit : (lease s.turns γ d).permit = true := by
          show (s.turns.expiresAtNanos d != 0) = true
          have : s.turns.expiresAtNanos d ≠ 0 := by omega
          simpa using this
        exact (hInv.sound d).enter hclaim hpermit
      · rw [wp_done, if_pos (by simpa using hahead)]
        exact .inr ⟨d, rfl⟩
    · refine ⟨atSlot d .claimed, ?_, ?_⟩
      · simp only [hahead, decide_false, Bool.false_eq_true, if_false]
        rw [← hγ, update_eq_self]
        exact hInv
      · rw [wp_done, if_neg (by simpa using hahead), wp_bind]
        refine wp_publishIdle ?_
        refine wp_skip rfl fun serving => ?_
        split
        · exact wp_awaitTurn name
        · exact .bind <| wp_unlockMutex (.inl rfl)
  · exact .bind <| wp_unlockMutex (.inl rfl)

theorem wp_tryLockOnce (name : DomainName) :
    Spec lim (.requester r) (tryLockOnce lim name) (fun _ => Settled) {} := by
  unfold tryLockOnce
  refine wp_quietly (looks_resolveId name).quiet fun resolved => ?_
  split
  · exact .inl rfl
  · exact .bind <| wp_lockForRequest (wp_lockUnderMutex name)

/-! ### A thread of the daemon -/

section DaemonThreads

variable (ht : ∀ r, t ≠ .requester r)
include ht

/-- A thread of the daemon with a slot's entry. -/
def keeping (d : DomainId) (k : Keeper) : View := { entry := some d, keeper := k }

variable {Q : Unit → View → Prop}

theorem wp_lockCounting (he : v.entry = none)
    (h : Q () { v with entry := some d, keeper := .plain }) :
    Spec lim t (act (.lockCounting d)) Q v := by
  intro s γ hInv hγ ch x s' hx
  obtain ⟨hfree, rfl⟩ := exec_lockCounting lim hx
  exact ⟨_, Inv.lockCounting hInv hγ ht he hfree, h⟩

theorem wp_unlockCounting (he : v.entry = some d) (hk : v.keeper = .plain)
    (h : Q () { v with entry := none, keeper := .away }) :
    Spec lim t (act (.unlockCounting d)) Q v := by
  intro s γ hInv hγ ch x s' hx
  cases hx
  exact ⟨_, Inv.unlockCounting hInv hγ ht he hk, h⟩

theorem wp_tryLock {site : Site} (hm : v.mutex = none) (hk : v.keeper ≠ .removing)
    (hsite : site = .reclaimAbandoned → t = .maintainer) {Q : Option Bool → View → Prop}
    (hnone : Q none v) (hsome : ∀ told, Q (some told)
      { v with mutex := some d, reclaims := told && site == .reclaimAbandoned }) :
    Spec lim t (act (.tryLock d site)) Q v := by
  intro s γ hInv hγ ch x s' hx
  replace hx : (execTurns t (.tryLock d site) ch s.turns).map
      (fun x => (x.1, { s with turns := x.2 })) = some (x, s') := hx
  rw [execTurns] at hx
  split at hx
  · cases hx
    refine ⟨v, ?_, hnone⟩
    rw [← hγ, update_eq_self]
    exact hInv
  · rename_i told m hacquire
    cases hx
    exact ⟨_, Inv.tryLock hInv hγ ht hm hk hsite hacquire, hsome told⟩

theorem wp_unlockDaemon (hm : v.mutex = some d) (hk : v.keeper ≠ .removing)
    (hreclaims : v.reclaims = false) (h : Q () { v with mutex := none }) :
    Spec lim t (act (.unlockMutex d)) Q v := by
  intro s γ hInv hγ ch x s' hx
  cases hx
  have hfreed : s.turns.unlockMutex t d = s.turns.setMutex d .free := by
    cases t with
    | requester r => exact absurd rfl (ht r)
    | worker w => rfl
    | control => rfl
    | maintainer => rfl
  refine ⟨_, ?_, h⟩
  show Inv (s.turns.unlockMutex t d) _
  rw [hfreed]
  exact Inv.unlockDaemon hInv hγ ht hm hk hreclaims

/-- A thread of the daemon with a slot's mutex. -/
def quieting (d : DomainId) : View := { mutex := some d }

theorem wp_tryLockIfIdle : Spec lim t (tryLockIfIdle d)
      (fun held v => v = if held then quieting d else {}) {} := by
  unfold tryLockIfIdle
  refine .bind <| wp_tryLock ht rfl (fun h => by cases h) (fun h => by cases h) rfl fun told => ?_
  have hview : ({ ({} : View) with
      mutex := some d, reclaims := told && Site.tryLockIfIdle == .reclaimAbandoned } : View) =
      quieting d := by
    cases told <;> rfl
  rw [hview]
  dsimp only
  refine wp_quietly (looks_recordAbandonment _ _).quiet fun _ => ?_
  refine wp_skip rfl fun state => ?_
  split
  · refine wp_skip rfl fun waiters => ?_
    split
    · exact .bind <| wp_unlockDaemon ht rfl (fun h => by cases h) rfl rfl
    · rfl
  · exact .bind <| wp_unlockDaemon ht rfl (fun h => by cases h) rfl rfl

/-! ### The words of a slot, under its entry -/

omit ht in
theorem wp_keeperPublish {k k' : Keeper} (next : RequestState)
    (hstep : ∀ s γ, Inv s γ → γ t = keeping d k →
      Inv (s.storeState t d next) (update γ t (keeping d k')))
    (h : Q () (keeping d k')) : Spec lim t (publish d next) Q (keeping d k) := by
  refine .bind ?_
  intro s γ hInv hγ ch x s' hx
  cases hx
  exact ⟨_, hstep _ _ hInv hγ, wp_quiet (.perform rfl) fun _ => h⟩

theorem wp_answerGrant (h : Q () (keeping d .plain)) :
    Spec lim t (answerGrant d) Q (keeping d .riding) := by
  refine .bind <| .bind <| wp_quiet (.perform rfl) fun _ => ?_
  refine wp_keeperPublish .lockHeld
    (fun _ _ hInv hγ => hInv.storeGrant hγ ht rfl rfl) ?_
  exact wp_quiet (.perform rfl) fun _ => h

theorem wp_refuse (failure : Int) (h : Q () (keeping d .plain)) :
    Spec lim t (refuse d failure) Q (keeping d .buying) := by
  refine .bind <| .bind <| wp_quiet (.perform rfl) fun _ => ?_
  refine wp_keeperPublish .error
    (fun _ _ hInv hγ => hInv.storeError hγ ht rfl rfl) ?_
  exact wp_quiet (.perform rfl) fun _ => h

theorem wp_grant (h : Q () (keeping d .plain)) :
    Spec lim t (grant d) Q (keeping d .plain) := by
  unfold grant
  refine .bind <| wp_keeperPublish .granting
    (fun _ _ hInv hγ => hInv.storeGranting hγ ht rfl rfl) ?_
  refine wp_skip rfl fun _ => ?_
  rw [wp_bind]
  intro s γ hInv hγ ch turn s' hx
  cases hx
  refine ⟨_, Inv.learnTurn hInv hγ rfl rfl, ?_⟩
  rw [wp_done]
  dsimp only
  by_cases hturn : (s.turns.guard d).isSome = true
  · -- a turn this node already holds
    rw [if_pos hturn, if_pos hturn]
    exact wp_answerGrant ht h
  · rw [if_neg hturn, if_neg hturn, wp_bind]
    refine wp_quiet (.perform rfl) fun name => ?_
    refine wp_skip rfl fun joined => ?_
    split
    · exact wp_refuse ht _ h
    · refine wp_skip rfl fun locked => ?_
      split
      · exact wp_refuse ht _ h
      · rename_i taken
        rw [wp_bind]
        intro s γ hInv hγ ch x s' hx
        cases hx
        refine ⟨keeping d .riding, Inv.takeTurn hInv hγ rfl rfl taken, ?_⟩
        rw [wp_done, wp_bind]
        intro s γ hInv hγ ch x s' hx
        cases ch <;> first | (cases hx; done) | skip
        rename_i wallNanos
        cases hx
        refine ⟨keeping d .riding, ?_, wp_answerGrant ht h⟩
        rw [← hγ, update_eq_self]
        exact Inv.holdTurnUntil hInv hγ rfl rfl wallNanos

omit ht in
theorem wp_dropTurn : Spec lim t (dropTurn d) (fun _ v => v = keeping d .plain)
      (keeping d .plain) := by
  refine .bind ?_
  intro s γ hInv hγ ch x s' hx
  cases hx
  refine ⟨keeping d .revoked, Inv.revokeTurn hInv hγ rfl rfl, ?_⟩
  rw [wp_done, wp_bind]
  intro s γ hInv hγ ch state s' hx
  cases hx
  refine ⟨_, Inv.judge hInv hγ rfl rfl, ?_⟩
  rw [wp_done]
  by_cases hheld : s.turns.state d = .lockHeld
  · rw [if_pos hheld, if_pos hheld]
    rfl
  · rw [if_neg hheld, if_neg hheld, wp_bind]
    intro s γ hInv hγ ch x s' hx
    cases hx
    refine ⟨keeping d .plain, Inv.drop hInv hγ rfl rfl, ?_⟩
    rw [wp_done, wp_bind]
    refine wp_quiet (.perform rfl) fun keeps => ?_
    split
    · rfl
    · refine wp_skip rfl fun handle => ?_
      exact wp_quietly (quiet_leaveDomain handle) fun _ => rfl

omit ht in
theorem wp_dropTurnIfIdle (h : Q () (keeping d .plain)) :
    Spec lim t (dropTurnIfIdle d) Q (keeping d .plain) := by
  have hdrop : Spec lim t (do let _ ← dropTurn d) Q (keeping d .plain) := by
    refine wp_seq wp_dropTurn fun _ => ?_
    exact h
  unfold dropTurnIfIdle
  refine wp_skip rfl fun turn => ?_
  split
  · refine wp_skip rfl fun waiters => ?_
    split
    · refine wp_skip rfl fun expired => ?_
      split
      · exact hdrop
      · exact h
    · exact hdrop
  · exact h

theorem wp_serveLock : Rests lim t (serveLock lim d) := by
  unfold serveLock
  split
  · refine .bind <| wp_lockCounting ht rfl ?_
    refine wp_skip rfl fun state => ?_
    rw [wp_bind]
    have hlast : Spec lim t (act (.unlockCounting d)) (fun _ v => v = {})
        (keeping d .plain) := wp_unlockCounting ht rfl rfl rfl
    cases state with
    | lockRequested => exact wp_grant ht hlast
    | idle => exact wp_dropTurnIfIdle hlast
    | granting => exact hlast
    | lockHeld => exact hlast
    | error => exact hlast
  · rfl

/-! ### Naming -/

theorem wp_claim (name : DomainName) (handle : Handle) :
    Rests lim t (claim lim name handle) := by
  have hbroken : Rests lim t (claim.takeSlot name handle.id) := by
    refine wp_skip rfl fun broken => ?_
    split
    · refine wp_seq (wp_tryLockIfIdle ht) fun held => ?_
      split
      · refine wp_skip rfl fun _ => ?_
        refine .bind <| wp_unlockDaemon ht rfl (fun h => by cases h) rfl ?_
        exact wp_quiet (quiet_publishName name handle.id) fun _ => rfl
      · rfl
    · exact wp_quiet (quiet_publishName name handle.id) fun _ => rfl
  unfold claim
  split
  · rfl
  · refine wp_quietly (looks_isNamed _ _).quiet fun named => ?_
    split
    · exact wp_skip rfl fun _ => rfl
    · refine wp_skip rfl fun live => ?_
      dsimp only
      split
      · exact wp_skip rfl fun _ => hbroken
      · exact hbroken

theorem wp_retireSlot :
    Spec lim t (retireSlot d) (fun _ v => v = {}) (quieting d) := by
  have hlast : Spec lim t (act (.unlockMutex d)) (fun _ v => v = {})
      (quieting d) := wp_unlockDaemon ht rfl (fun h => by cases h) rfl rfl
  unfold retireSlot
  refine wp_skip rfl fun name => ?_
  refine wp_skip rfl fun _ => ?_
  refine wp_skip rfl fun _ => ?_
  split
  · exact hlast
  · exact wp_skip rfl fun _ => hlast

theorem wp_retireStale (confirmed slots : List DomainId) :
    Rests lim t (retireStale confirmed slots) := by
  induction slots with
  | nil => rfl
  | cons d rest ih =>
    unfold retireStale
    refine wp_quietly (looks_isTaken d).quiet fun taken => ?_
    split
    · split
      · exact ih
      · refine wp_seq (wp_tryLockIfIdle ht) fun held => ?_
        split
        · refine wp_seq (wp_retireSlot ht) fun _ => ?_
          exact ih
        · exact ih
    · exact ih

theorem wp_claimAll (living : List DomainEntry) :
    Rests lim t (claimAll lim living) := by
  induction living with
  | nil => rfl
  | cons entry rest ih =>
    unfold claimAll
    split
    · exact ih
    · refine wp_seq (wp_claim ht _ _) fun _ => ?_
      exact ih

theorem wp_refresh : Rests lim t (refresh lim) := by
  unfold refresh
  refine wp_skip rfl fun expired => ?_
  split
  · refine wp_skip rfl fun _ => ?_
    refine wp_quietly (looks_getDomainEntries _).quiet fun living => ?_
    split
    · exact wp_quiet (.perform rfl) fun _ => rfl
    · refine wp_quietly (looks_confirm _).quiet fun confirmed => ?_
      refine wp_seq (wp_retireStale ht _ _) fun _ => ?_
      refine wp_seq (wp_claimAll ht _) fun _ => ?_
      exact wp_quiet (.perform rfl) fun _ => rfl
  · rfl

/-! ### The control thread -/

theorem wp_finishCreate (name : DomainName) (created : Handle) :
    Rests lim t (finishCreate lim name created) := by
  unfold finishCreate
  refine wp_skip rfl fun _ => ?_
  refine wp_seq (wp_claim ht _ _) fun claimed => ?_
  refine wp_skip rfl fun _ => ?_
  split
  · refine .bind <| wp_lockCounting ht rfl ?_
    refine wp_skip rfl fun _ => ?_
    exact .bind <| wp_unlockCounting ht rfl rfl rfl
  · rfl

theorem wp_create (name : DomainName) :
    Rests lim t (create lim name) := by
  unfold create
  refine wp_skip rfl fun created => ?_
  split
  · exact wp_finishCreate ht _ _
  · refine wp_skip rfl fun joined => ?_
    split
    · exact wp_finishCreate ht _ _
    · rfl
    · rfl
  · rfl
  · rfl

theorem wp_awaitQuiet (turns : Nat) : Spec lim t (awaitQuiet d turns)
      (fun held v => v = if held then quieting d else {}) {} := by
  induction turns with
  | zero =>
    unfold awaitQuiet
    exact wp_skip rfl fun _ => rfl
  | succ turns ih =>
    unfold awaitQuiet
    refine wp_seq (wp_tryLockIfIdle ht) fun held => ?_
    split
    · rfl
    · refine wp_skip rfl fun expired => ?_
      split
      · rfl
      · exact ih

section

variable (name : DomainName)

include name

theorem wp_retire :
    Spec lim t (retire name d) (fun _ v => v = quieting d) (quieting d) := by
  unfold retire
  refine wp_skip rfl fun _ => ?_
  refine wp_skip rfl fun _ => ?_
  refine .bind <| wp_lockCounting ht rfl ?_
  refine wp_skip rfl fun _ => ?_
  exact wp_unlockCounting ht rfl rfl rfl

theorem wp_removeQuiet : Spec lim t (removeQuiet name d) (fun _ v => v = quieting d)
      (quieting d) := by
  unfold removeQuiet
  refine .bind <| wp_lockCounting ht rfl ?_
  rw [wp_bind]
  -- the mutex keeps requesters out while the turn goes before the stamp
  intro s γ hInv hγ ch x s' hx
  cases hx
  refine ⟨_, Inv.dropQuiet hInv hγ ht rfl rfl, ?_⟩
  rw [wp_done, wp_bind]
  intro s γ hInv hγ ch x s' hx
  cases hx
  refine ⟨_, Inv.revokeRemoved hInv hγ rfl rfl, ?_⟩
  rw [wp_done, wp_bind]
  refine wp_unlockCounting ht rfl rfl ?_
  refine wp_skip rfl fun deleted => ?_
  split
  · exact .bind <| wp_retire ht name
  · exact .bind <| wp_retire ht name
  · exact wp_skip rfl fun _ => rfl
  · exact wp_skip rfl fun _ => rfl

theorem wp_removeSlot : Rests lim t (removeSlot name d) := by
  unfold removeSlot
  refine wp_skip rfl fun _ => ?_
  refine wp_skip rfl fun turns => ?_
  refine wp_seq (wp_awaitQuiet ht turns) fun held => ?_
  split
  · refine wp_seq (wp_removeQuiet ht name) fun answer => ?_
    exact .bind <| wp_unlockDaemon ht rfl (fun h => by cases h) rfl rfl
  · exact wp_skip rfl fun _ => rfl

theorem wp_remove : Rests lim t (remove name) := by
  unfold remove
  refine wp_skip rfl fun _ => ?_
  refine wp_skip rfl fun found => ?_
  split
  · exact wp_skip rfl fun _ => rfl
  · refine .bind <| wp_lockCounting ht rfl ?_
    refine wp_skip rfl fun keeps => ?_
    refine .bind <| wp_unlockCounting ht rfl rfl ?_
    split
    · refine wp_seq (wp_removeSlot ht name) fun answer => ?_
      exact wp_skip rfl fun _ => rfl
    · exact wp_skip rfl fun _ => rfl

theorem wp_join : Rests lim t (join name) := by
  unfold join
  refine wp_quietly (quiet_findNamed name) fun found => ?_
  split
  · rfl
  · refine .bind <| wp_lockCounting ht rfl ?_
    refine wp_skip rfl fun joined => ?_
    split
    · refine wp_skip rfl fun _ => ?_
      exact .bind <| wp_unlockCounting ht rfl rfl rfl
    · exact .bind <| wp_unlockCounting ht rfl rfl rfl
    · exact .bind <| wp_unlockCounting ht rfl rfl rfl

theorem wp_leave : Rests lim t (leave name) := by
  unfold leave
  refine wp_quietly (quiet_findNamed name) fun found => ?_
  split
  · rfl
  · refine .bind <| wp_lockCounting ht rfl ?_
    refine wp_skip rfl fun dropped => ?_
    split
    · refine wp_skip rfl fun keeps => ?_
      split
      · exact .bind <| wp_unlockCounting ht rfl rfl rfl
      · refine wp_skip rfl fun _ => ?_
        exact .bind <| wp_unlockCounting ht rfl rfl rfl
    · exact .bind <| wp_unlockCounting ht rfl rfl rfl

end

theorem wp_serveCommand (asked : Command) (asking : Text) :
    Rests lim t (serveCommand lim asked asking) := by
  unfold serveCommand
  split
  · rfl
  · cases asked with
    | createDomain => exact wp_create ht _
    | deleteDomain => exact wp_remove ht _
    | joinDomain => exact wp_join ht _
    | leaveDomain => exact wp_leave ht _

end DaemonThreads

/-! ### The maintainer -/

theorem maintainer_ne (r : Nat) : Tid.maintainer ≠ .requester r := nofun

theorem wp_reclaimAbandoned : Spec lim .maintainer (reclaimAbandoned d)
      (fun _ v => v = keeping d .plain) (keeping d .plain) := by
  refine .bind <| wp_tryLock maintainer_ne rfl (fun h => by cases h) (fun _ => rfl) rfl fun told => ?_
  dsimp only
  refine wp_quietly (looks_recordAbandonment _ _).quiet fun _ => ?_
  split
  · rename_i htold
    subst htold
    -- Idle is what the state would have said had the holder reached its release
    rw [wp_bind]
    unfold publish
    rw [wp_bind]
    intro s γ hInv hγ ch x s' hx
    cases hx
    refine ⟨_, Inv.storeReclaimed hInv hγ maintainer_ne rfl rfl (fun h => by cases h), ?_⟩
    rw [wp_done]
    refine wp_quiet (.perform rfl) fun _ => ?_
    exact .bind <| wp_unlockDaemon maintainer_ne rfl (fun h => by cases h) rfl rfl
  · rename_i htold
    rw [wp_bind]
    refine wp_unlockDaemon maintainer_ne rfl (fun h => by cases h) (by simpa using htold) ?_
    show _ = _
    simp only [Bool.not_eq_true] at htold
    rw [htold]
    rfl

theorem wp_handBackExpired : Spec lim .maintainer (handBackExpired d)
      (fun _ v => v = keeping d .plain) (keeping d .plain) := by
  unfold handBackExpired
  refine wp_seq wp_reclaimAbandoned fun _ => ?_
  exact wp_dropTurn

theorem wp_dropExpiredTurn :
    Rests lim .maintainer (dropExpiredTurn d) := by
  have hlast : Spec lim .maintainer (act (.unlockCounting d)) (fun _ v => v = {})
      (keeping d .plain) := wp_unlockCounting maintainer_ne rfl rfl rfl
  unfold dropExpiredTurn
  refine wp_skip rfl fun busy => ?_
  split
  · rfl
  · refine .bind <| wp_lockCounting maintainer_ne rfl ?_
    refine wp_skip rfl fun turn => ?_
    split
    · refine wp_skip rfl fun expired => ?_
      split
      · refine wp_seq wp_handBackExpired fun _ => ?_
        exact hlast
      · exact hlast
    · exact hlast

theorem wp_dropExpiredTurns (slots : List DomainId) :
    Rests lim .maintainer (dropExpiredTurns slots) := by
  induction slots with
  | nil => rfl
  | cons d rest ih =>
    unfold dropExpiredTurns
    refine wp_seq wp_dropExpiredTurn fun _ => ?_
    exact ih

theorem wp_maintain :
    Rests lim .maintainer (maintain lim) := by
  unfold maintain
  refine wp_seq (wp_refresh maintainer_ne) fun _ => ?_
  exact wp_dropExpiredTurns _

/-! ### Every run -/

/-- Between two calls: a requester may be inside, the daemon holds nothing. -/
def Rest : Tid → View → Prop
  | .requester _, v => Settled v
  | _, v => v = {}

theorem Settled.of_section {s : Turns} {γ : Tid → View} (hInv : Inv s γ)
    (hsettled : Settled (γ (.requester r))) : match s.sections r with
    | none => γ (.requester r) = {}
    | some sec => γ (.requester r) = atSlot sec.domain .inside := by
  cases hsec : s.sections r with
  | none =>
    rcases hsettled with hout | ⟨d, hin⟩
    · exact hout
    · exact absurd hsec (hInv.sectioned.known r (by rw [hin]; rfl))
  | some sec =>
    obtain ⟨hm, hclaim, -⟩ := hInv.sectioned.held r sec hsec
    rcases hsettled with hout | ⟨d, hin⟩
    · rw [hout] at hclaim
      cases hclaim
    · rw [hin] at hm ⊢
      cases hm
      rfl

theorem outline (lim : Limits) : Outline (system lim) NodeInv Rest where
  start := by
    intro i call s γ code hInv hrest hstart
    refine ⟨γ i, by rwa [update_eq_self], ?_⟩
    cases start_begun hstart with
    | tryLock name hsec =>
      have hview := Settled.of_section hInv hrest
      rw [hsec] at hview
      rw [hview, wp_bind]
      exact wp_mono (fun _ v hv => hv) (wp_tryLockOnce name)
    | unlock hsec =>
      have hview := Settled.of_section hInv hrest
      rw [hsec] at hview
      rw [hview]
      exact wp_release (.inl rfl)
    | serveLock d =>
      rw [hrest]
      exact wp_serveLock (fun _ h => by cases h)
    | command asked asking =>
      rw [hrest, wp_bind]
      exact wp_mono (fun _ v hv => hv) (wp_serveCommand (fun _ h => by cases h) asked asking)
    | maintain =>
      rw [hrest]
      exact wp_maintain
  env := by
    intro e s γ s' hInv he
    cases e with
    | die r =>
      cases he
      refine ⟨_, Inv.die hInv r, fun i => ?_⟩
      by_cases hi : i = .requester r
      · subst hi
        simp [system, kills, Rest, Settled]
      · simp [system, kills, hi]
    | createElsewhere id text =>
      obtain ⟨-, ⟨⟩⟩ := of_guard he
      exact ⟨γ, hInv, fun i => by simp [system, kills]⟩
    | deleteElsewhere id =>
      obtain ⟨-, ⟨⟩⟩ := of_guard he
      exact ⟨γ, hInv, fun i => by simp [system, kills]⟩

end Cme.Daemon
