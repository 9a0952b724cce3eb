import Cme.Daemon.Manager

/-!
# Daemon — what holds between any two steps

A thread's view is the slot whose mutex it holds, the slot whose entry it holds,
and what it is doing there. The holder of a slot's mutex is the user of a
`Lease` and the holder of its entry the keeper; the state word is the lease's
word, the stamp its permit and the cme guard its turn. The invariant is that
every slot's lease is sound, that a section's turn is the one in the entry, and
that a LockHeld nobody is answerable for has been recorded as one (`Watched`).
-/

namespace Cme.Daemon

open Function Interleave

/-- What a thread is in the middle of. -/
structure View where
  /-- The slot whose mutex it holds. -/
  mutex : Option DomainId := none
  claim : Claim := .out
  /-- The slot whose entry it holds. -/
  entry : Option DomainId := none
  keeper : Keeper := .away
  /-- It was told of a dead holder, and is about to store Idle for it. -/
  reclaims : Bool := false
  deriving DecidableEq

/-- The lease of a slot. -/
def lease (s : Turns) (γ : Tid → View) (d : DomainId) : Lease where
  claim := match (s.mutex d).holder with
    | some t => (γ t).claim
    | none => .out
  keeper := match s.counting d with
    | some t => (γ t).keeper
    | none => .away
  word := s.state d == .lockHeld
  permit := s.expiresAtNanos d != 0
  turn := (s.guard d).isSome

/-- The views say who holds what. -/
structure Placed (s : Turns) (γ : Tid → View) : Prop where
  mutex : ∀ t d, (γ t).mutex = some d ↔ (s.mutex d).holder = some t
  entry : ∀ t d, (γ t).entry = some d ↔ s.counting d = some t
  out : ∀ t, (γ t).mutex = none → (γ t).claim = .out
  away : ∀ t, (γ t).entry = none → (γ t).keeper = .away
  claims : ∀ r, s.claims r = (γ (.requester r)).claim
  daemon : ∀ t, (γ t).claim ≠ .out → ∃ r, t = .requester r
  apart : ∀ r, (γ (.requester r)).entry = none
  quiet : ∀ t, (γ t).keeper = .removing → (γ t).mutex = (γ t).entry

/-- A section has its slot's mutex, and its turn is the slot's. -/
structure Sectioned (s : Turns) (γ : Tid → View) : Prop where
  held : ∀ r sec, s.sections r = some sec → (γ (.requester r)).mutex = some sec.domain ∧
    (γ (.requester r)).claim = .inside ∧ s.guard sec.domain = sec.turn
  known : ∀ r, (γ (.requester r)).claim = .inside → s.sections r ≠ none

/-- Somebody is answerable for a LockHeld. -/
def Answers (s : Turns) (γ : Tid → View) (d : DomainId) : Prop :=
  s.mutex d = .abandoned ∨
  (∃ r inherited, s.mutex d = .held (.requester r) inherited ∧
    (s.claims r ≠ .out ∨ inherited = true)) ∨
  (s.mutex d = .held .maintainer true ∧ (γ .maintainer).reclaims = true)

/-- Unless one of the three ways to lose it was taken, every LockHeld has
somebody answerable for it. -/
def Watched (s : Turns) (γ : Tid → View) : Prop :=
  s.late = false → s.told = false → s.left = false →
    ∀ d, s.state d = .lockHeld → Answers s γ d

structure Inv (s : Turns) (γ : Tid → View) : Prop where
  placed : Placed s γ
  sound : ∀ d, (lease s γ d).Sound
  sectioned : Sectioned s γ
  watched : Watched s γ

section Views

variable {s s' : Turns} {γ : Tid → View} {t : Tid} {v : View} {d : DomainId} {r : Nat}

theorem Placed.holder (h : Placed s γ) (hm : (γ t).mutex = some d) :
    (s.mutex d).holder = some t := (h.mutex t d).mp hm

theorem Placed.lease_claim (h : Placed s γ) (hm : (γ t).mutex = some d) :
    (lease s γ d).claim = (γ t).claim := by
  unfold lease
  simp only [h.holder hm]

theorem Placed.lease_keeper (h : Placed s γ) (he : (γ t).entry = some d) :
    (lease s γ d).keeper = (γ t).keeper := by
  unfold lease
  simp only [(h.entry t d).mp he]

theorem Placed.claim_out (h : Placed s γ) (ht : ∀ r, t ≠ .requester r) : (γ t).claim = .out := by
  by_contra hne
  obtain ⟨r, hr⟩ := h.daemon t hne
  exact ht r hr

/-- A slot the thread has no part in keeps its lease. -/
theorem lease_frame {e : DomainId} (v' : View) (hp : Placed s γ) (hγ : γ t = v)
    (hmutex : s'.mutex e = s.mutex e) (hcounting : s'.counting e = s.counting e)
    (hstate : s'.state e = s.state e) (hstamp : s'.expiresAtNanos e = s.expiresAtNanos e)
    (hguard : s'.guard e = s.guard e) (hclaim : v.mutex = some e → v'.claim = v.claim)
    (hkeeper : v.entry = some e → v'.keeper = v.keeper) (hsound : (lease s γ e).Sound) :
    (lease s' (update γ t v') e).Sound := by
  refine cast (congrArg Lease.Sound ?_) hsound
  unfold lease
  rw [hmutex, hcounting, hstate, hstamp, hguard]
  congr 1
  · cases hh : (s.mutex e).holder with
    | none => rfl
    | some u =>
      by_cases hu : u = t
      · subst hu
        have hm := (hp.mutex u e).mpr hh
        simp only [update_self, hγ]
        exact (hclaim (hγ ▸ hm)).symm
      · simp only [update_of_ne hu]
  · cases hc : s.counting e with
    | none => rfl
    | some u =>
      by_cases hu : u = t
      · subst hu
        have he := (hp.entry u e).mpr hc
        simp only [update_self, hγ]
        exact (hkeeper (hγ ▸ he)).symm
      · simp only [update_of_ne hu]

/-- A thread's view is another, and the others hold what they held. -/
theorem Placed.step {v' : View} (h : Placed s γ)
    (hmutex : ∀ e, v'.mutex = some e ↔ (s'.mutex e).holder = some t)
    (hentry : ∀ e, v'.entry = some e ↔ s'.counting e = some t)
    (hothers : ∀ u, u ≠ t → ∀ e, ((s.mutex e).holder = some u ↔ (s'.mutex e).holder = some u) ∧
      (s.counting e = some u ↔ s'.counting e = some u))
    (hclaims : ∀ r, s'.claims r = (update γ t v' (.requester r)).claim)
    (hout : v'.mutex = none → v'.claim = .out) (haway : v'.entry = none → v'.keeper = .away)
    (hdaemon : v'.claim ≠ .out → ∃ r, t = .requester r)
    (hapart : ∀ r, t = .requester r → v'.entry = none)
    (hquiet : v'.keeper = .removing → v'.mutex = v'.entry) : Placed s' (update γ t v') where
  mutex := (forall_update_iff γ fun u w => ∀ e, w.mutex = some e ↔ (s'.mutex e).holder = some u).mpr
    ⟨hmutex, fun u hu e => (h.mutex u e).trans (hothers u hu e).1⟩
  entry := (forall_update_iff γ fun u w => ∀ e, w.entry = some e ↔ s'.counting e = some u).mpr
    ⟨hentry, fun u hu e => (h.entry u e).trans (hothers u hu e).2⟩
  out := (forall_update_iff γ fun _ w => w.mutex = none → w.claim = .out).mpr
    ⟨hout, fun u _ => h.out u⟩
  away := (forall_update_iff γ fun _ w => w.entry = none → w.keeper = .away).mpr
    ⟨haway, fun u _ => h.away u⟩
  claims := hclaims
  daemon := (forall_update_iff γ fun u w => w.claim ≠ .out → ∃ r, u = .requester r).mpr
    ⟨hdaemon, fun u _ => h.daemon u⟩
  apart := fun q => (forall_update_iff γ fun u w => ∀ r, u = .requester r → w.entry = none).mpr
    ⟨hapart, fun _ _ r hr => hr ▸ h.apart r⟩ (.requester q) q rfl
  quiet := (forall_update_iff γ fun _ w => w.keeper = .removing → w.mutex = w.entry).mpr
    ⟨hquiet, fun u _ => h.quiet u⟩

theorem Placed.move {v' : View} (h : Placed s γ) (hγ : γ t = v) (hmutex : s'.mutex = s.mutex)
    (hcounting : s'.counting = s.counting) (hvm : v'.mutex = v.mutex) (hve : v'.entry = v.entry)
    (hclaims : ∀ r, s'.claims r = (update γ t v' (.requester r)).claim)
    (hclaim : v'.claim = v.claim ∨ v.mutex ≠ none ∧ ∃ r, t = .requester r)
    (hkeeper : v'.keeper = v.keeper ∨ v.entry ≠ none)
    (hquiet : v'.keeper = .removing → v'.mutex = v'.entry) : Placed s' (update γ t v') := by
  subst hγ
  refine h.step (fun e => ?_) (fun e => ?_) (fun u _ e => ?_) hclaims (fun hn => ?_)
    (fun hn => ?_) (fun hc => ?_) (fun q hq => ?_) hquiet
  · rw [hmutex, hvm]
    exact h.mutex t e
  · rw [hcounting, hve]
    exact h.entry t e
  · rw [hmutex, hcounting]
    exact ⟨.rfl, .rfl⟩
  · rw [hvm] at hn
    rcases hclaim with hc | ⟨hne, -⟩
    · rw [hc]
      exact h.out t hn
    · exact absurd hn hne
  · rw [hve] at hn
    rcases hkeeper with hk | hne
    · rw [hk]
      exact h.away t hn
    · exact absurd hn hne
  · rcases hclaim with hsame | ⟨-, hr⟩
    · rw [hsame] at hc
      exact h.daemon t hc
    · exact hr
  · rw [hve, hq]
    exact h.apart q

/-- A requester's claim is in the daemon's book and in its view. -/
theorem Placed.claims_update (h : Placed s γ) (r : Nat) (v' : View) (q : Nat) :
    update s.claims r v'.claim q = (update γ (.requester r) v' (.requester q)).claim := by
  by_cases hq : q = r
  · subst hq
    simp
  · rw [update_of_ne hq, update_of_ne (by simpa using hq), h.claims q]

theorem Sectioned.update {v' : View} {sec : Option Section} (h : Sectioned s γ)
    (hguard : s'.guard = s.guard) (hsections : s'.sections = update s.sections r sec)
    (hheld : ∀ sec', sec = some sec' → v'.mutex = some sec'.domain ∧ v'.claim = .inside ∧
      s.guard sec'.domain = sec'.turn)
    (hknown : v'.claim = .inside → sec ≠ none) :
    Sectioned s' (Function.update γ (.requester r) v') := by
  constructor <;> intro q <;> rw [hsections] <;> by_cases hq : q = r
  · rw [hq, update_self, update_self, hguard]
    exact hheld
  · rw [update_of_ne hq, update_of_ne (by simpa using hq), hguard]
    exact h.held q
  · rw [hq, update_self, update_self]
    exact hknown
  · rw [update_of_ne hq, update_of_ne (by simpa using hq)]
    exact h.known q

theorem Watched.move {γ' : Tid → View} (h : Watched s γ) (hmutex : s'.mutex = s.mutex)
    (hclaims : s'.claims = s.claims) (hlate : s'.late = false → s.late = false)
    (htold : s'.told = false → s.told = false) (hleft : s'.left = false → s.left = false)
    (hreclaims : (γ' .maintainer).reclaims = (γ .maintainer).reclaims)
    (hstate : ∀ e, s'.state e = .lockHeld →
      s.state e = .lockHeld ∨ (s'.late = false → Answers s' γ' e)) : Watched s' γ' := by
  intro hl ht hf e he
  rcases hstate e he with hold | hnew
  · have ha := h (hlate hl) (htold ht) (hleft hf) e hold
    unfold Answers at ha ⊢
    rw [hmutex, hclaims, hreclaims]
    exact ha
  · exact hnew hl

/-! ### The user's moves -/

section

variable (h : Inv s γ)

include h

/-- A requester with the slot's mutex moves, and with it at most the slot's word. -/
theorem Inv.userMove (hγ : γ (.requester r) = v) (hm : v.mutex = some d) {c : Claim}
    {sec : Option Section} (state : DomainId → RequestState)
    (hstate : ∀ e, e ≠ d → state e = s.state e)
    (hsound : ((lease s γ d).use c (state d == .lockHeld)).Sound)
    (hsec : sec = if c = .inside then some ⟨d, s.guard d⟩ else none)
    (hword : state d = .lockHeld → c ≠ .out) :
    Inv { s with
        state
        claims := update s.claims r c
        sections := update s.sections r sec }
      (update γ (.requester r) { v with claim := c }) := by
  have hholder : (s.mutex d).holder = some (.requester r) :=
    h.placed.holder (by rw [hγ]; exact hm)
  refine ⟨h.placed.move hγ rfl rfl rfl rfl (h.placed.claims_update r { v with claim := c })
    (.inr ⟨by rw [hm]; simp, r, rfl⟩) (.inl rfl) (fun hk => ?_), fun e => ?_,
    h.sectioned.update rfl rfl (fun sec' hsec' => ?_) fun hc => ?_, ?_⟩
  · rw [← hγ] at hk ⊢
    exact h.placed.quiet _ hk
  · by_cases he : e = d
    · -- the slot itself: only the user and the word have moved
      subst he
      refine cast (congrArg Lease.Sound ?_) hsound
      unfold lease Lease.use
      simp only [hholder, update_self]
      congr 1
      cases hc : s.counting e with
      | none => rfl
      | some u =>
        by_cases hu : u = .requester r
        · subst hu
          simp only [update_self, hγ]
        · simp only [update_of_ne hu]
    · exact lease_frame { v with claim := c } h.placed hγ rfl rfl (hstate e he) rfl rfl
        (fun hv => absurd (Option.some.inj (hm.symm.trans hv)).symm he) (fun _ => rfl) (h.sound e)
  · rw [hsec] at hsec'
    obtain ⟨hc, ⟨⟩⟩ := of_guard hsec'
    exact ⟨hm, hc, rfl⟩
  · replace hc : c = .inside := hc
    rw [hsec, if_pos hc]
    simp
  · intro hl ht hf e he
    by_cases hed : e = d
    · subst hed
      rw [RobustMutex.holder.eq_def] at hholder
      split at hholder
      · rename_i u inherited hu
        cases hholder
        refine .inr (.inl ⟨r, inherited, hu, .inl ?_⟩)
        show update s.claims r c r ≠ .out
        rw [update_self]
        exact hword he
      · cases hholder
    · replace he : s.state e = .lockHeld := hstate e hed ▸ he
      -- another slot's mutex is not this requester's, so its claim is another's
      rcases h.watched hl ht hf e he with ha | ⟨q, inherited, hq, hor⟩ | ⟨hmt, hrec⟩
      · exact .inl ha
      · refine .inr (.inl ⟨q, inherited, hq, ?_⟩)
        have hqr : q ≠ r := by
          rintro rfl
          have hme := (h.placed.mutex (.requester q) e).mpr (by rw [hq]; rfl)
          rw [hγ, hm] at hme
          exact hed (Option.some.inj hme).symm
        show update s.claims r c q ≠ .out ∨ _
        rw [update_of_ne hqr]
        exact hor
      · refine .inr (.inr ⟨hmt, ?_⟩)
        rw [update_of_ne (by simp)]
        exact hrec

theorem Inv.store (hγ : γ (.requester r) = v) (hm : v.mutex = some d) (next : RequestState)
    (hsound : ((lease s γ d).use (Turns.claimOf next) (next == .lockHeld)).Sound) :
    Inv (s.storeState (.requester r) d next)
      (update γ (.requester r) { v with claim := Turns.claimOf next }) := by
  refine h.userMove hγ hm (update s.state d next) (fun e he => update_of_ne he _ _) ?_ ?_ ?_
  · rw [update_self]
    exact hsound
  · cases next <;> rfl
  · rw [update_self]
    rintro rfl
    decide

theorem Inv.enter (hγ : γ (.requester r) = v) (hm : v.mutex = some d)
    (hsound : ((lease s γ d).use .inside (s.state d == .lockHeld)).Sound) :
    Inv (s.enter (.requester r) d)
      (update γ (.requester r) { v with claim := .inside }) :=
  h.userMove hγ hm s.state (fun _ _ => rfl) hsound rfl fun _ => by decide

/-! ### The keeper's moves -/

/-- The keeper of a slot moves, and with it the slot's words. -/
theorem Inv.keeperMove (hγ : γ t = v) (he : v.entry = some d) (k : Keeper)
    {state : DomainId → RequestState} {expiresAtNanos : DomainId → Nat}
    {guard : DomainId → Option Turn} {strayed late : Bool}
    (hother : ∀ e, e ≠ d → state e = s.state e ∧ expiresAtNanos e = s.expiresAtNanos e ∧
      guard e = s.guard e)
    (hlate : late = false → s.late = false)
    (hsound : ((lease s γ d).keep k (state d == .lockHeld) (expiresAtNanos d != 0)
      (guard d).isSome).Sound)
    (hguard : guard d = s.guard d ∨ (lease s γ d).claim ≠ .inside)
    (hquiet : k = .removing → v.mutex = some d)
    (hword : state d = .lockHeld →
      s.state d = .lockHeld ∨ (late = false → s.answerable d = true)) :
    Inv { s with state, expiresAtNanos, guard, strayed, late }
      (update γ t { v with keeper := k }) := by
  have hcount : s.counting d = some t := (h.placed.entry t d).mp (by rw [hγ]; exact he)
  set v' : View := { v with keeper := k }
  have hclaim : ∀ u, (update γ t v' u).claim = (γ u).claim :=
    apply_update_eq View.claim (by rw [hγ])
  refine ⟨?_, fun e => ?_, ⟨fun q sec hq => ?_, fun q hq => ?_⟩, ?_⟩
  · refine h.placed.move hγ rfl rfl rfl rfl (fun q => ?_) (.inl rfl)
      (.inr (by rw [he]; simp)) (fun hk => (hquiet hk).trans he.symm)
    rw [hclaim, ← h.placed.claims q]
  · by_cases hed : e = d
    · subst hed
      refine cast (congrArg Lease.Sound ?_) hsound
      unfold lease Lease.keep
      simp only [hcount, update_self, hclaim]
      rfl
    · obtain ⟨hstate, hstamp, hg⟩ := hother e hed
      exact lease_frame v' h.placed hγ rfl rfl hstate hstamp hg (fun _ => rfl)
        (fun hv => absurd (Option.some.inj (he.symm.trans hv)).symm hed) (h.sound e)
  · obtain ⟨hm, hin, hg⟩ := h.sectioned.held q sec hq
    rw [hclaim, apply_update_eq View.mutex (show v'.mutex = (γ t).mutex by rw [hγ])]
    refine ⟨hm, hin, ?_⟩
    by_cases hsec : sec.domain = d
    · rcases hguard with hsame | hnot
      · rw [← hg, hsec]
        exact hsame
      · exfalso
        apply hnot
        rw [← hsec, h.placed.lease_claim hm]
        exact hin
    · exact (hother _ hsec).2.2.trans hg
  · rw [hclaim] at hq
    exact h.sectioned.known q hq
  · refine h.watched.move rfl rfl hlate id id (apply_update_eq View.reclaims (by rw [hγ]) _)
      fun e he' => ?_
    by_cases hed : e = d
    · subst hed
      refine (hword he').imp_right fun hans hl => ?_
      -- whoever is answerable for the word in the entry's slot
      have ha := hans hl
      unfold Turns.answerable at ha
      split at ha
      · cases ha
      · rename_i hm
        exact .inl hm
      · rename_i q inherited hm
        exact .inr (.inl ⟨q, inherited, hm, .inl (by simpa using ha)⟩)
      · cases ha
    · exact .inl ((hother e hed).1 ▸ he')

/-! ### The slot's mutex -/

/-- A thread that uses nothing takes a slot's mutex, or gives it back. -/
theorem Inv.mutexMove (hγ : γ t = v) (hout : v.claim = .out) (hkeeper : v.keeper ≠ .removing)
    {m : RobustMutex Tid} (had has reclaims told left : Bool)
    (hwas : v.mutex = bif had then some d else none)
    (hold : (s.mutex d).holder = bif had then some t else none)
    (hnew : m.holder = bif has then some t else none)
    (hwatched : Watched { s with mutex := update s.mutex d m, told, left } (update γ t
      { v with mutex := bif has then some d else none, reclaims := reclaims })) :
    Inv { s with mutex := update s.mutex d m, told, left } (update γ t
      { v with mutex := bif has then some d else none, reclaims := reclaims }) := by
  have hheld : ∀ e, (bif has then some d else none) = some e ↔
      (update s.mutex d m e).holder = some t := by
    intro e
    by_cases he : e = d
    · rw [he, update_self, hnew]
      cases has <;> simp
    · -- it holds no other slot's mutex
      rw [update_of_ne he, ← h.placed.mutex t e, hγ, hwas]
      cases had <;> cases has <;> simp [Ne.symm he]
  set v' : View := { v with mutex := bif has then some d else none, reclaims := reclaims }
  have hclaim : ∀ u, (update γ t v' u).claim = (γ u).claim :=
    apply_update_eq View.claim (by rw [hγ])
  refine ⟨h.placed.step hheld (fun e => ?_) (fun u hu e => ⟨?_, .rfl⟩) (fun q => ?_)
    (fun _ => hout) (show v.entry = none → v.keeper = _ from hγ ▸ h.placed.away t)
    (fun hc => absurd hout hc) (fun q hq => ?_)
    fun hk => absurd hk hkeeper, fun e => ?_, ⟨fun q sec hq => ?_, fun q hq => ?_⟩, hwatched⟩
  · rw [← h.placed.entry t e, hγ]
  · show _ ↔ (update s.mutex d m e).holder = some u
    by_cases he : e = d
    · rw [he, update_self, hold, hnew]
      cases had <;> cases has <;> simp [Ne.symm hu]
    · rw [update_of_ne he]
  · rw [hclaim]
    exact h.placed.claims q
  · rw [← h.placed.apart q, ← hq, hγ]
  · -- the user's side of every lease is as it was: in this slot nobody used anything
    refine cast (congrArg Lease.Sound ?_) (h.sound e)
    unfold lease
    congr 1
    · simp only [hclaim]
      by_cases he : e = d
      · rw [he, update_self, hold, hnew]
        cases had <;> cases has <;> simp [hγ, hout]
      · rw [update_of_ne he]
    · simp only [apply_update_eq View.keeper (show v'.keeper = (γ t).keeper by rw [hγ])]
  · obtain ⟨hm, hin, hg⟩ := h.sectioned.held q sec hq
    rw [hclaim]
    refine ⟨?_, hin, hg⟩
    have hne : Tid.requester q ≠ t := by
      intro hqt
      rw [hqt, hγ, hout] at hin
      cases hin
    rw [update_of_ne hne]
    exact hm
  · rw [hclaim] at hq
    exact h.sectioned.known q hq

theorem Inv.requester_away (hγ : γ (.requester r) = v) : v.keeper ≠ .removing := by
  have haway := h.placed.away _ (h.placed.apart r)
  rw [hγ] at haway
  rw [haway]
  decide

/-- A slot whose mutex a requester holds is not being emptied: whoever empties
one holds its mutex too. -/
theorem Inv.not_removing (hγ : γ (.requester r) = v) (hm : v.mutex = some d) :
    (lease s γ d).keeper ≠ .removing := by
  intro hk
  unfold lease at hk
  cases hc : s.counting d with
  | none =>
    simp only [hc] at hk
    cases hk
  | some u =>
    simp only [hc] at hk
    have hentry := (h.placed.entry u d).mpr hc
    have hmutex : (γ u).mutex = some d := (h.placed.quiet u hk).trans hentry
    have hholder := (h.placed.mutex u d).mp hmutex
    rw [h.placed.holder (t := .requester r) (by rw [hγ]; exact hm)] at hholder
    cases hholder
    rw [h.placed.apart r] at hentry
    cases hentry

/-- A mutex that was free has no LockHeld behind it. -/
theorem Inv.not_free (hl : s.late = false) (ht : s.told = false) (hf : s.left = false)
    (hfree : s.mutex d = .free) : s.state d ≠ .lockHeld := by
  intro hd
  rcases h.watched hl ht hf d hd with ha | ⟨q, inherited, hq, -⟩ | ⟨hm, -⟩
  · rw [hfree] at ha
    cases ha
  · rw [hfree] at hq
    cases hq
  · rw [hfree] at hm
    cases hm

/-- A LockHeld behind a mutex that is to be had is one its dead holder left. -/
theorem Inv.told_of_acquire (hl : s.late = false) (ht : s.told = false) (hf : s.left = false)
    {told : Bool} {m : RobustMutex Tid} (hx : (s.mutex d).acquire t = some (told, m))
    (hd : s.state d = .lockHeld) : told = true := by
  cases hm : s.mutex d with
  | free => exact absurd hd (h.not_free hl ht hf hm)
  | held u inherited =>
    rw [hm] at hx
    cases hx
  | abandoned =>
    rw [hm] at hx
    cases hx
    rfl

end

/-- What a slot's mutex says of the other slots is not touched. -/
theorem Answers.other {γ' : Tid → View} {e : DomainId} (h : Answers s γ e)
    (hmutex : s'.mutex e = s.mutex e) (hclaims : s'.claims = s.claims)
    (hreclaims : s.mutex e = .held .maintainer true →
      (γ' .maintainer).reclaims = (γ .maintainer).reclaims) : Answers s' γ' e := by
  unfold Answers at h ⊢
  rw [hmutex, hclaims]
  rcases h with ha | hq | ⟨hm, hr⟩
  · exact .inl ha
  · exact .inr (.inl hq)
  · exact .inr (.inr ⟨hm, by rw [hreclaims hm]; exact hr⟩)

/-- A requester takes a slot's mutex, from nobody or from a dead holder. -/
theorem Inv.lockMutex (h : Inv s γ) (hγ : γ (.requester r) = v) (hm : v.mutex = none) {told : Bool}
    {m : RobustMutex Tid} (hx : (s.mutex d).acquire (.requester r) = some (told, m)) :
    Inv (s.setMutex d m) (update γ (.requester r) { v with mutex := some d }) := by
  obtain ⟨hnone, rfl, habandoned⟩ := RobustMutex.acquire_some hx
  have hout : v.claim = .out := by
    rw [← hγ]
    exact h.placed.out _ (by rw [hγ]; exact hm)
  refine h.mutexMove hγ hout (h.requester_away hγ) false true v.reclaims _ _ hm hnone rfl
    fun hl ht hf e he => ?_
  by_cases hed : e = d
  · subst hed
    exact .inr (.inl ⟨r, told, update_self _ _ _, .inr (h.told_of_acquire hl ht hf hx he)⟩)
  · refine (h.watched hl ht hf e he).other ?_ rfl fun _ => ?_
    · exact update_of_ne hed _ _
    · rw [update_of_ne (by simp)]

/-- A requester that has lowered the word, or never raised it, gives the mutex
back. -/
theorem Inv.unlockMutex (h : Inv s γ) (hγ : γ (.requester r) = v) (hm : v.mutex = some d)
    (hout : v.claim = .out) :
    Inv (s.unlockMutex (.requester r) d)
      (update γ (.requester r) { v with mutex := none }) := by
  have hholder : (s.mutex d).holder = some (.requester r) :=
    h.placed.holder (by rw [hγ]; exact hm)
  refine h.mutexMove (m := .free) hγ hout (h.requester_away hγ) true false v.reclaims _ _ hm hholder
    rfl fun hl ht hf e he => ?_
  replace hl : s.late = false := hl
  replace ht : s.told = false := ht
  replace he : s.state e = .lockHeld := he
  replace hf : (s.left || (s.mutex d == .held (.requester r) true && s.state d == .lockHeld)) =
    false := hf
  rw [Bool.or_eq_false_iff] at hf
  obtain ⟨hf, hkept⟩ := hf
  have ha := h.watched hl ht hf e he
  by_cases hed : e = d
  · subst hed
    exfalso
    -- the mutex was inherited with LockHeld, which is what `left` records
    rcases ha with ha | ⟨q, inherited, hq, hor⟩ | ⟨hmt, -⟩
    · rw [ha] at hholder
      cases hholder
    · rw [hq] at hholder
      obtain rfl : q = r := by simpa using hholder
      rcases hor with hclaim | rfl
      · rw [h.placed.claims q, hγ, hout] at hclaim
        exact hclaim rfl
      · rw [hq, he] at hkept
        simp at hkept
    · rw [hmt] at hholder
      cases hholder
  · refine ha.other ?_ rfl fun _ => ?_
    · exact update_of_ne hed _ _
    · rw [update_of_ne (by simp)]

end Views

end Cme.Daemon
