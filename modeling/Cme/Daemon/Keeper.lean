import Cme.Daemon.Invariant

/-!
# Daemon — the steps of the daemon's threads, and a death

What a worker, the control thread and the maintainer do to a slot, and what the
death of a requester leaves, against the invariant.
-/

namespace Cme.Daemon

open Function Interleave

variable {s s' : Turns} {γ : Tid → View} {t : Tid} {v : View} {d : DomainId} {r : Nat}

/-! ### The slot's mutex -/

section

variable (h : Inv s γ)

include h

section

variable (hγ : γ t = v)

include hγ

section

variable (ht : ∀ r, t ≠ .requester r)

include ht

theorem Inv.tryLock (hm : v.mutex = none) (hk : v.keeper ≠ .removing) {site : Site}
    (hsite : site = .reclaimAbandoned → t = .maintainer) {told : Bool} {m : RobustMutex Tid}
    (hx : (s.mutex d).acquire t = some (told, m)) : Inv { s.setMutex d m with
        told := s.told || (told && site == .tryLockIfIdle && s.state d == .lockHeld) }
      (update γ t
        { v with mutex := some d, reclaims := told && site == .reclaimAbandoned }) := by
  obtain ⟨hnone, rfl, habandoned⟩ := RobustMutex.acquire_some hx
  have hout : v.claim = .out := by
    rw [← hγ]
    exact h.placed.claim_out ht
  refine h.mutexMove hγ hout hk false true _ _ _ hm hnone rfl fun hl htold hf e he => ?_
  replace htold : (s.told || (told && site == .tryLockIfIdle && s.state d == .lockHeld)) =
    false := htold
  rw [Bool.or_eq_false_iff] at htold
  by_cases hed : e = d
  · subst hed
    replace he : s.state e = .lockHeld := he
    have hdead : told = true := h.told_of_acquire hl htold.1 hf hx he
    have hreclaim : site = .reclaimAbandoned := by
      cases site with
      | reclaimAbandoned => rfl
      | tryLockIfIdle =>
        rw [hdead, he] at htold
        simp at htold
    have hmaintainer := hsite hreclaim
    subst hmaintainer hreclaim hdead
    refine .inr (.inr ⟨update_self _ _ _, ?_⟩)
    rw [update_self]
    rfl
  · refine (h.watched hl htold.1 hf e he).other ?_ rfl fun hmt => ?_
    · exact update_of_ne hed _ _
    · by_cases hu : Tid.maintainer = t
      · have hmt' := (h.placed.mutex .maintainer e).mpr (by rw [hmt]; rfl)
        rw [hu, hγ, hm] at hmt'
        cases hmt'
      · rw [update_of_ne hu]

/-- A thread of the daemon gives a slot's mutex back, with nothing to reclaim. -/
theorem Inv.unlockDaemon (hm : v.mutex = some d) (hk : v.keeper ≠ .removing)
    (hreclaims : v.reclaims = false) :
    Inv (s.setMutex d .free) (update γ t { v with mutex := none }) := by
  have hout : v.claim = .out := by
    rw [← hγ]
    exact h.placed.claim_out ht
  have hholder : (s.mutex d).holder = some t := h.placed.holder (by rw [hγ]; exact hm)
  refine h.mutexMove hγ hout hk true false v.reclaims _ _ hm hholder rfl
    fun hl htold hf e he => ?_
  have ha := h.watched hl htold hf e he
  by_cases hed : e = d
  · subst hed
    exfalso
    rcases ha with ha | ⟨q, inherited, hq, -⟩ | ⟨hmt, hr⟩
    · rw [ha] at hholder
      cases hholder
    · rw [hq] at hholder
      exact ht q (Option.some.inj hholder).symm
    · rw [hmt] at hholder
      obtain rfl : Tid.maintainer = t := by simpa using hholder
      rw [hγ, hreclaims] at hr
      cases hr
  · refine ha.other ?_ rfl fun _ => ?_
    · exact update_of_ne hed _ _
    · by_cases hu : Tid.maintainer = t
      · rw [hu, update_self, hγ]
      · rw [update_of_ne hu]

/-! ### The slot's entry -/

/-- A thread of the daemon takes a slot's entry, or gives it back. -/
theorem Inv.entryMove (had has : Bool)
    (hwas : v.entry = bif had then some d else none)
    (hold : s.counting d = bif had then some t else none)
    (hplain : v.keeper = bif had then .plain else .away) :
    Inv { s with counting := update s.counting d (bif has then some t else none) }
      (update γ t { v with
        entry := bif has then some d else none
        keeper := bif has then .plain else .away }) := by
  have hentry : ∀ e, (bif has then some d else none) = some e ↔
      update s.counting d (bif has then some t else none) e = some t := by
    intro e
    by_cases he : e = d
    · rw [he, update_self]
      cases has <;> simp
    · rw [update_of_ne he, ← h.placed.entry t e, hγ, hwas]
      cases had <;> cases has <;> simp [Ne.symm he]
  have hkeeper : (lease s γ d).keeper = bif had then .plain else .away := by
    unfold lease
    simp only [hold]
    cases had with
    | false => rfl
    | true => exact (congrArg View.keeper hγ).trans hplain
  set v' : View := { v with
    entry := bif has then some d else none
    keeper := bif has then .plain else .away }
  have hclaim : ∀ u, (update γ t v' u).claim = (γ u).claim :=
    apply_update_eq View.claim (by rw [hγ])
  refine ⟨h.placed.step (fun e => ?_) hentry (fun u hu e => ⟨.rfl, ?_⟩) (fun q => ?_)
    (show v.mutex = none → v.claim = _ from hγ ▸ h.placed.out t) (fun hn => ?_) (fun hc => absurd ?_ hc) (fun q hq => absurd hq (ht q))
    (fun hk => ?_), fun e => ?_, ⟨fun q sec hq => ?_, fun q hq => ?_⟩, ?_⟩
  · rw [← h.placed.mutex t e, hγ]
  · show _ ↔ update s.counting d _ e = some u
    by_cases he : e = d
    · rw [he, update_self, hold]
      cases had <;> cases has <;> simp [Ne.symm hu]
    · rw [update_of_ne he]
  · rw [hclaim]
    exact h.placed.claims q
  · cases has with
    | false => rfl
    | true => cases hn
  · rw [← h.placed.claim_out ht, hγ]
  · cases has <;> cases hk
  · by_cases he : e = d
    · subst he
      -- the slot itself: only its keeper has moved
      have hlease : lease { s with counting := update s.counting e (bif has then some t else none) }
          (update γ t v') e = (lease s γ e).keep (bif has then .plain else .away)
            (lease s γ e).word (lease s γ e).permit (lease s γ e).turn := by
        unfold lease Lease.keep
        simp only [hclaim, update_self]
        congr 1
        cases has <;> simp [v']
      rw [hlease]
      refine (h.sound e).place ?_ ?_ ?_
      · cases has <;> simp
      · cases had <;> rw [hkeeper] <;> rfl
      · cases had <;> rw [hkeeper] <;> simp
    · have hentry' : v.entry = some e → v'.keeper = v.keeper := by
        intro hv
        rw [hwas] at hv
        cases had <;> cases hv
        exact absurd rfl he
      exact lease_frame v' h.placed hγ rfl (update_of_ne he _ _) rfl rfl rfl (fun _ => rfl) hentry'
        (h.sound e)
  · rw [hclaim, apply_update_eq View.mutex (show v'.mutex = (γ t).mutex by rw [hγ])]
    exact h.sectioned.held q sec hq
  · rw [hclaim] at hq
    exact h.sectioned.known q hq
  · exact h.watched.move rfl rfl id id id (apply_update_eq View.reclaims (by rw [hγ]) _)
      fun e he => .inl he

theorem Inv.lockCounting (he : v.entry = none) (hfree : s.counting d = none) :
    Inv { s with counting := update s.counting d (some t) }
      (update γ t { v with entry := some d, keeper := .plain }) :=
  h.entryMove hγ ht false true he hfree (hγ ▸ h.placed.away t (hγ ▸ he))

theorem Inv.unlockCounting (he : v.entry = some d) (hk : v.keeper = .plain) :
    Inv { s with counting := update s.counting d none }
      (update γ t { v with entry := none, keeper := .away }) :=
  h.entryMove hγ ht true false he ((h.placed.entry t d).mp (hγ ▸ he)) hk

end

/-! ### The words of a slot, under its entry -/

theorem Inv.keeper_eq (he : v.entry = some d) : (lease s γ d).keeper = v.keeper := by
  rw [h.placed.lease_keeper (by rw [hγ]; exact he), hγ]

section

variable (ht : ∀ r, t ≠ .requester r)

include ht

section

variable (he : v.entry = some d)

include he

theorem Inv.keeperStore (next : RequestState) (k : Keeper)
    (hquiet : k = .removing → v.mutex = some d)
    (hsound : ((lease s γ d).keep k (next == .lockHeld) (lease s γ d).permit
      (lease s γ d).turn).Sound) :
    Inv (s.storeState t d next) (update γ t { v with keeper := k }) := by
  have hs : s.storeState t d next = { s with
      state := update s.state d next
      late := s.late || (next == .lockHeld && !s.answerable d) } := by
    cases t with
    | requester r => exact absurd rfl (ht r)
    | worker w => rfl
    | control => rfl
    | maintainer => rfl
  rw [hs]
  refine h.keeperMove hγ he k (fun e hed => ⟨update_of_ne hed _ _, rfl, rfl⟩)
    (fun hl => (Bool.or_eq_false_iff.mp hl).1) ?_ (.inl rfl) hquiet ?_
  · rw [update_self]
    exact hsound
  · rw [update_self]
    rintro rfl
    refine .inr fun hl => ?_
    have hans := (Bool.or_eq_false_iff.mp hl).2
    simpa using hans

/-- The word goes down, and an answer will follow. -/
theorem Inv.storeGranting (hk : v.keeper = .plain) :
    Inv (s.storeState t d .granting) (update γ t { v with keeper := .granting }) :=
  h.keeperStore hγ ht he .granting .granting nofun
    ((h.sound d).grant (by rw [h.keeper_eq hγ he, hk]))

theorem Inv.storeError (hk : v.keeper = .buying) :
    Inv (s.storeState t d .error) (update γ t { v with keeper := .plain }) :=
  h.keeperStore hγ ht he .error .plain nofun
    ((h.sound d).refuse (by rw [h.keeper_eq hγ he, hk]))

theorem Inv.storeGrant (hk : v.keeper = .riding) :
    Inv (s.storeState t d .lockHeld) (update γ t { v with keeper := .plain }) :=
  h.keeperStore hγ ht he .lockHeld .plain nofun
    ((h.sound d).answer (by rw [h.keeper_eq hγ he, hk]))

end

/-- A slot whose mutex a thread of the daemon holds has no user. -/
theorem Inv.unused (hm : v.mutex = some d) : (lease s γ d).claim = .out := by
  rw [h.placed.lease_claim (t := t) (by rw [hγ]; exact hm)]
  exact h.placed.claim_out ht

theorem Inv.storeReclaimed (hm : v.mutex = some d) (he : v.entry = some d)
    (hk : v.keeper ≠ .removing) :
    Inv (s.storeState t d .idle) (update γ t { v with reclaims := false }) := by
  have hstored := h.keeperStore hγ ht he .idle v.keeper (fun _ => hm) (by
    have hlower := (h.sound d).lower (h.unused hγ ht hm)
    have hsame : (lease s γ d).keep v.keeper (RequestState.idle == .lockHeld)
        (lease s γ d).permit (lease s γ d).turn = { lease s γ d with word := false } := by
      rw [← h.keeper_eq hγ he]
      rfl
    rw [hsame]
    exact hlower)
  have hview : update γ t { v with keeper := v.keeper } = γ := by
    rw [← hγ]
    exact update_eq_self t γ
  rw [hview] at hstored
  -- nobody has to answer for the word any more
  have hidle : (s.storeState t d .idle).state d ≠ .lockHeld := by
    have hstate : (s.storeState t d .idle).state = update s.state d .idle := by
      cases t <;> rfl
    rw [hstate, update_self]
    decide
  have hplace : ∀ e, v.mutex = some e ↔ ((s.storeState t d .idle).mutex e).holder = some t := by
    rw [← hγ]
    exact hstored.placed.mutex t
  have hout : v.claim = .out := by
    rw [← hγ]
    exact h.placed.claim_out ht
  have hmutex := hstored.mutexMove (d := d) hγ hout hk true true false
    (s.storeState t d .idle).told (s.storeState t d .idle).left hm ((hplace d).mp hm)
    ((hplace d).mp hm)
  rw [update_eq_self, Bool.cond_true, ← hm] at hmutex
  refine hmutex fun hl htold hf e hstate => ?_
  have hed : e ≠ d := fun hed => hidle (hed ▸ hstate)
  refine (hstored.watched hl htold hf e hstate).other rfl rfl fun hmt => ?_
  by_cases hu : Tid.maintainer = t
  · have hme := (hplace e).mpr (by rw [hmt, hu]; rfl)
    rw [hm] at hme
    exact absurd (Option.some.inj hme).symm hed
  · rw [update_of_ne hu]

end

section

variable (he : v.entry = some d)

include he

/-- An answering keeper learns whether the turn is there. -/
theorem Inv.learnTurn (hk : v.keeper = .granting) : Inv s (update γ t
      { v with keeper := if (s.guard d).isSome then .riding else .buying }) :=
  h.keeperMove hγ he _ (fun _ _ => ⟨rfl, rfl, rfl⟩) id
    ((h.sound d).learn (by rw [h.keeper_eq hγ he, hk]; rfl) id rfl) (.inl rfl)
    (fun hr => by split at hr <;> cases hr) .inl

theorem Inv.takeTurn (hk : v.keeper = .buying) (taken : Turn) :
    Inv (s.takeTurn d taken) (update γ t { v with keeper := .riding }) := by
  have hkeeper : (lease s γ d).keeper = .buying := by rw [h.keeper_eq hγ he, hk]
  refine h.keeperMove hγ he .riding (fun e hed => ⟨rfl, rfl, update_of_ne hed _ _⟩) id ?_
    (.inr fun hin => ?_) nofun .inl
  · have hlearn : ((lease s γ d).keep .riding (lease s γ d).word (lease s γ d).permit true).Sound :=
      (h.sound d).learn (by rw [hkeeper]; rfl) (fun _ => rfl) rfl
    rw [update_self]
    exact hlearn
  · have hturn := ((h.sound d).inside hin).1
    rw [(h.sound d).buying hkeeper] at hturn
    cases hturn

theorem Inv.holdTurnUntil (hk : v.keeper = .riding) (wallNanos : Nat) :
    Inv { s with expiresAtNanos := update s.expiresAtNanos d wallNanos } γ := by
  have hkeeper : (lease s γ d).keeper = .riding := by rw [h.keeper_eq hγ he, hk]
  have hview : update γ t { v with keeper := .riding } = γ := by
    rw [← hk, ← hγ]
    exact update_eq_self t γ
  rw [← hview]
  refine h.keeperMove hγ he .riding (fun e hed => ⟨rfl, update_of_ne hed _ _, rfl⟩) id ?_
    (.inl rfl) nofun .inl
  rw [update_self, ← hkeeper]
  cases hzero : wallNanos != 0 with
  | true => exact (h.sound d).permit hkeeper
  | false => exact (h.sound d).unpermit

theorem Inv.unstamp (k : Keeper) (hquiet : k = .removing → v.mutex = some d)
    (hsound : ((lease s γ d).keep k (lease s γ d).word false (lease s γ d).turn).Sound) :
    Inv { s with expiresAtNanos := update s.expiresAtNanos d 0 }
      (update γ t { v with keeper := k }) := by
  refine h.keeperMove hγ he k (fun e hed => ⟨rfl, update_of_ne hed _ _, rfl⟩) id ?_ (.inl rfl)
    hquiet .inl
  rw [update_self]
  exact hsound

theorem Inv.revokeTurn (hk : v.keeper = .plain) :
    Inv { s with expiresAtNanos := update s.expiresAtNanos d 0 }
      (update γ t { v with keeper := .revoked }) :=
  h.unstamp hγ he .revoked nofun ((h.sound d).revoke (by rw [h.keeper_eq hγ he, hk]))

theorem Inv.revokeRemoved (hk : v.keeper = .removing) :
    Inv { s with expiresAtNanos := update s.expiresAtNanos d 0 }
      (update γ t { v with keeper := .plain }) :=
  h.unstamp hγ he .plain nofun ((h.sound d).removed (by rw [h.keeper_eq hγ he, hk]))

theorem Inv.judge (hk : v.keeper = .revoked) : Inv s (update γ t
      { v with keeper := if s.state d = .lockHeld then .plain else .dropping }) := by
  have hkeeper : (lease s γ d).keeper = .revoked := by rw [h.keeper_eq hγ he, hk]
  refine h.keeperMove hγ he _ (fun _ _ => ⟨rfl, rfl, rfl⟩) id ?_
    (.inl rfl) (fun hr => by split at hr <;> cases hr) .inl
  split
  · exact (h.sound d).place (.inr rfl) (by rw [hkeeper]; rfl) (by rw [hkeeper]; simp)
  · rename_i hdown
    exact (h.sound d).judge hkeeper (by
      show (s.state d == .lockHeld) = false
      simpa using hdown)

/-- The turn goes: nobody is inside, as the keeper found or as the mutex says. -/
theorem Inv.releaseTurn (k : Keeper) (hquiet : k = .removing → v.mutex = some d)
    (hsound : ((lease s γ d).keep k (lease s γ d).word (lease s γ d).permit false).Sound)
    (hnot : (lease s γ d).claim ≠ .inside) : Inv { s with guard := update s.guard d none }
      (update γ t { v with keeper := k }) := by
  refine h.keeperMove hγ he k (fun e hed => ⟨rfl, rfl, update_of_ne hed _ _⟩) id ?_ (.inr hnot)
    hquiet .inl
  rw [update_self]
  exact hsound

theorem Inv.drop (hk : v.keeper = .dropping) : Inv { s with guard := update s.guard d none }
      (update γ t { v with keeper := .plain }) := by
  have hkeeper : (lease s γ d).keeper = .dropping := by rw [h.keeper_eq hγ he, hk]
  exact h.releaseTurn hγ he .plain nofun ((h.sound d).drop hkeeper)
    fun hin => ((h.sound d).inside hin).2.2 hkeeper

end

theorem Inv.dropQuiet (ht : ∀ r, t ≠ .requester r) (hm : v.mutex = some d) (he : v.entry = some d) :
    Inv { s with guard := update s.guard d none }
      (update γ t { v with keeper := .removing }) := by
  have hclaim := h.unused hγ ht hm
  exact h.releaseTurn hγ he .removing (fun _ => hm) (Lease.sound_removing hclaim) (by rw [hclaim]; decide)

end

/-! ### A death -/

/-- What a dead requester leaves: the mutex it held, for the next to be told. -/
theorem Inv.die (r : Nat) : Inv { s with
        mutex := fun d => (s.mutex d).die (.requester r)
        claims := update s.claims r .out
        sections := update s.sections r none }
      (update γ (.requester r) {}) := by
  have hmutex : ∀ d, (s.mutex d).holder ≠ some (.requester r) →
      (s.mutex d).die (.requester r) = s.mutex d := fun d hd => RobustMutex.die_of_ne hd
  have hmine : ∀ e, s.counting e ≠ some (.requester r) := fun e he => by
    have hr := (h.placed.entry _ e).mpr he
    rw [h.placed.apart r] at hr
    cases hr
  refine ⟨h.placed.step (fun e => ?_) (fun e => iff_of_false nofun (hmine e))
    (fun u hu e => ⟨?_, .rfl⟩) (fun q => ?_) (fun _ => rfl) (fun _ => rfl) (fun hc => absurd rfl hc)
    (fun _ _ => rfl) nofun, fun e => ?_, h.sectioned.update rfl rfl nofun nofun, ?_⟩
  · refine iff_of_false nofun ?_
    show ((s.mutex e).die (.requester r)).holder ≠ _
    by_cases he : (s.mutex e).holder = some (.requester r)
    · rw [RobustMutex.die_of_eq he]
      exact nofun
    · rw [hmutex e he]
      exact he
  · show _ ↔ ((s.mutex e).die (.requester r)).holder = some u
    by_cases he : (s.mutex e).holder = some (.requester r)
    · rw [RobustMutex.die_of_eq he, he]
      simp [Ne.symm hu]
    · rw [hmutex e he]
  · exact h.placed.claims_update r {} q
  · have hkeeper : ∀ u, s.counting e = some u →
        (update γ (.requester r) {} u).keeper = (γ u).keeper := by
      intro u hu
      rw [update_of_ne]
      rintro rfl
      exact hmine e hu
    by_cases he : (s.mutex e).holder = some (.requester r)
    · -- its mutex is abandoned, so the user of the lease is gone
      refine cast (congrArg Lease.Sound ?_) (h.sound e).vanish
      unfold lease
      simp only [RobustMutex.die_of_eq he, RobustMutex.holder_abandoned]
      congr 1
      cases hc : s.counting e with
      | none => rfl
      | some u => simp only [hkeeper u hc]
    · refine cast (congrArg Lease.Sound ?_) (h.sound e)
      unfold lease
      simp only [hmutex e he]
      congr 1
      · cases hh : (s.mutex e).holder with
        | none => rfl
        | some u =>
          have hne : u ≠ .requester r := by
            rintro rfl
            exact he hh
          simp only [update_of_ne hne]
      · cases hc : s.counting e with
        | none => rfl
        | some u => simp only [hkeeper u hc]
  · intro hl ht hf e he
    -- a LockHeld of the dead is behind an abandoned mutex now
    rcases h.watched hl ht hf e he with ha | ⟨q, inherited, hq, hor⟩ | ⟨hmt, hrec⟩
    · refine .inl ?_
      show (s.mutex e).die _ = _
      rw [ha]
      rfl
    · by_cases hqr : q = r
      · subst hqr
        refine .inl ?_
        show (s.mutex e).die _ = _
        rw [RobustMutex.die_of_eq (by rw [hq]; rfl)]
      · refine .inr (.inl ⟨q, inherited, ?_, ?_⟩)
        · show (s.mutex e).die _ = _
          rw [hmutex e (by rw [hq]; simpa using hqr), hq]
        · show update s.claims r .out q ≠ .out ∨ _
          rw [update_of_ne hqr]
          exact hor
    · refine .inr (.inr ⟨?_, ?_⟩)
      · show (s.mutex e).die _ = _
        rw [hmutex e (by rw [hmt]; simp), hmt]
      · rw [update_of_ne (by simp)]
        exact hrec

end

end Cme.Daemon
