import Cme.Daemon.Entries
import Cme.Daemon.Sections

/-!
# Daemon — a node leaves what it does not use

The procedures of the manager against the accounts. A grant enters the domain and leaves
with a turn; a drop gives the turn back and leaves the domain unless it is joined; a join
counts; the last leave leaves.

A grant whose lock times out stays in the domain it joined, with no turn and no join
(`stays_after_timeout`). In the runs without that (`calm`), every domain the node is in
is settled (`leaves_what_is_unused`).
-/

namespace Cme.Daemon.Participation

open Function Interleave Accounts

variable {lim : Limits} {t : Tid} {d : DomainId} {w w' : World}

/-! ### A worker and the maintainer -/

section Keepers

variable (ht : t ≠ .control)
include ht

variable (d : DomainId)

theorem triple_grant : Does lim t (In d fun a => a.Settled d) (grant d)
      fun _ => In d fun a => a.Settled d := by
  refine (triple_plain (plain_publish d _)).bind fun _ => (triple_act rfl).bind fun _ => ?_
  refine (triple_act rfl).bind fun rides => .ite (fun _ => ?_) fun _ => ?_
  · exact triple_plain (plain_answerGrant d)
  · refine (triple_act rfl).bind fun name => (triple_grantJoin ht name).bind fun joined => ?_
    cases joined with
    | error e => exact triple_plain (plain_refuse d _)
    | ok handle =>
      by_cases hhandle : handle.id = d ∧ handle.incarnation ≠ 0
      · refine ((triple_grantLock hhandle.1).pre fun v w h => ⟨h.1, trivial⟩).bind fun locked => ?_
        cases locked with
        | error e => exact triple_plain (plain_refuse d _)
        | ok taken =>
          refine (triple_takeTurn ht hhandle.1 hhandle.2 taken).bind fun _ => ?_
          exact (triple_act rfl).bind fun _ => triple_plain (plain_answerGrant d)
      · exact triple_absurd fun v w h => hhandle h.2

theorem triple_dropTurn :
    Does lim t (In d fun a => a.Settled d ∧ a.Handled d) (dropTurn d)
      fun _ => In d fun a => a.Settled d := by
  refine (triple_act rfl).bind fun _ => (triple_act rfl).bind fun state =>
    .early (fun v w h => ⟨h.1, h.2.1⟩) ?_
  refine ((triple_releaseTurn ht).pre fun v w h => ⟨h.1, h.2.2⟩).bind fun _ => ?_
  refine (triple_keepsParticipation (lasts_handled.and (lasts_turn false))).bind fun keeps => ?_
  cases keeps with
  | true => exact .pure fun v w h => ⟨h.1, h.2.2⟩
  | false =>
    refine (triple_turnHandle ((lasts_handled.and (lasts_turn false)).and (lasts_turn false))).bind
      fun handle => ?_
    by_cases hhandle : handle.id = d ∧ handle.incarnation ≠ 0
    · rw [leaveDomain, if_neg hhandle.2]
      refine ((triple_leaveByHandle ht hhandle.1).pre fun v w h => ⟨h.1, h.2.1.2⟩).bind
        fun _ => .pure fun _ _ h => h
    · refine triple_absurd fun v w h => hhandle ?_
      rw [← h.2.2]
      exact h.2.1.1.1

theorem triple_dropTurnIfIdle :
    Does lim t (In d fun a => a.Settled d) (dropTurnIfIdle d)
      fun _ => In d fun a => a.Settled d := by
  refine triple_hasTurn.bind fun holds => .ite (fun hholds => ?_) fun _ => ?_
  · have hdrop : Does lim t
        (In d fun a => a.Settled d ∧ (holds = true → a.Handled d))
        (do let _ ← dropTurn d) fun _ => In d fun a => a.Settled d :=
      ((triple_dropTurn ht d).pre fun v w h => ⟨h.1, h.2.1, h.2.2 hholds⟩).bind
        fun _ => .pure fun _ _ h => h
    refine (triple_act rfl).bind fun waiters => .ite (fun _ => ?_) fun _ => hdrop
    refine (triple_act rfl).bind fun expired => .ite (fun _ => hdrop) fun _ => ?_
    exact .pure fun v w h => ⟨h.1, h.2.1⟩
  · exact .pure fun v w h => ⟨h.1, h.2.1⟩

/-- Out of every entry; where the control thread is does not matter to the others. -/
abbrev Away (t : Tid) : Option DomainId → World → Prop := Out t fun _ => True

omit ht in
theorem triple_enter : Does lim t (Away t)
    (act (.lockCounting d)) fun _ => In d fun a => a.Settled d :=
  (triple_lockCounting d).post fun _ _ _ h => ⟨h.1, h.2.1⟩

omit ht in
theorem triple_exit : Does lim t (In d fun a => a.Settled d)
    (act (.unlockCounting d)) fun _ => Away t :=
  (triple_unlockCounting d).pre fun _ _ h => ⟨h.1, h.2, fun _ => trivial⟩

theorem triple_serveLock :
    Does lim t (Away t) (serveLock lim d) fun _ => Away t := by
  refine .late ?_ fun _ _ h => h
  refine (triple_enter d).bind fun _ => (triple_act rfl).bind fun state => ?_
  have hserve : Does lim t (In d fun a => a.Settled d) (serveState d state)
      fun _ => In d fun a => a.Settled d := by
    cases state with
    | lockRequested => exact triple_grant ht d
    | idle => exact triple_dropTurnIfIdle ht d
    | _ => exact .pure fun _ _ h => h
  exact hserve.bind fun _ => triple_exit d

theorem triple_dropExpiredTurns (slots : List DomainId) :
    Does lim t (Away t) (dropExpiredTurns slots) fun _ => Away t := by
  induction slots with
  | nil => exact .pure fun _ _ h => h
  | cons d rest ih =>
    refine triple.bind ?_ fun _ => ih
    refine (triple_act rfl).bind fun busy => .early (fun _ _ h => h) ?_
    have hkeep : ∀ holds : Bool, Does lim t
        (In d fun a => a.Settled d ∧ (holds = true → a.Handled d)) (act (.unlockCounting d))
        fun _ => Away t := fun holds => (triple_exit d).pre fun v w h => ⟨h.1, h.2.1⟩
    refine (triple_enter d).bind fun _ => triple_hasTurn.bind fun holds =>
      .ite (fun hholds => ?_) fun _ => hkeep holds
    refine (triple_act rfl).bind fun expired => .ite (fun _ => ?_) fun _ => hkeep holds
    refine triple.bind ?_ fun _ => triple_exit d
    refine (triple_plain (plain_reclaimAbandoned d)).bind fun _ => ?_
    exact (triple_dropTurn ht d).pre fun v w h => ⟨h.1, h.2.1, h.2.2 hholds⟩

end Keepers

/-! ### The control thread -/

variable (d : DomainId)

theorem triple_giveEntry : Does lim .control (In d (Here fun a => a.Settled d))
      (act (.unlockCounting d)) fun _ => Home :=
  triple_unlockCounting (M := fun m => m = none) d

variable {P : Option DomainId → World → Prop}

/-- The control thread between the two entries of a create. -/
abbrev Amidst (d : DomainId) : Option DomainId → World → Prop := Out .control fun m => m = some d

/-- A create that looks for the slot's peace finds it. -/
theorem triple_idleAt {o : Op} {R : Ret o → Prop} (hbooks : Op.books o = false)
    (hidle : ∀ ch (w : World), calm lim .control o ch w = true → w.moving ≠ none →
      w.idleAt .control o = true)
    (hR : ∀ (w : World) ch r s', w.idleAt .control o = true →
      Daemon.exec lim .control o ch w.node = some (r, s') → R r) :
    Does lim .control (Amidst d) (act o) fun r v w => Amidst d v w ∧ R r := by
  refine triple_passive fun w μ hI hP ch r w' hx => ?_
  have hsame := exec_beside hbooks hx
  refine ⟨?_, fun j => ?_, ?_, Stable.const _⟩
  · show w'.accounts.Inv μ
    rw [hsame]
    exact hI
  · show Relies j (μ j) w.accounts w'.accounts
    rw [hsame]
    exact Relies.refl ..
  · obtain ⟨s', rfl, hcalm, -, hnode⟩ := exec_after hx
    have hmoving : w.moving = some d := hP.2 rfl
    exact hR w ch r s' (hidle ch w hcalm (by rw [hmoving]; exact Option.some_ne_none d)) hnode

theorem idleAt_of_calm {o : Op} {w : World}
    (h : (Tid.control != .control || w.moving.isNone || w.idleAt .control o) = true)
    (hmoving : w.moving ≠ none) : w.idleAt .control o = true := by
  simpa [hmoving] using h

theorem triple_tryLockIfIdle (e : DomainId) : Does lim .control (Amidst d) (tryLockIfIdle e)
      fun quiet v w => Amidst d v w ∧ quiet = true := by
  have htry : Does lim .control (Amidst d) (act (.tryLock e .tryLockIfIdle))
      fun told v w => Amidst d v w ∧ told.isSome = true := by
    refine triple_idleAt d rfl (fun ch w => idleAt_of_calm) fun w ch told s' hidle hx => ?_
    obtain ⟨⟨told', s₁⟩, hs, heq⟩ := Option.map_eq_some_iff.mp hx
    obtain ⟨rfl, -⟩ := Prod.mk.inj heq
    replace hidle : ((w.node.turns.mutex e).acquire .control).isSome = true := hidle
    rw [execTurns] at hs
    split at hs
    · rename_i hnone
      rw [hnone] at hidle
      cases hidle
    · obtain ⟨rfl, -⟩ := outcome_eq hs
      rfl
  have hload : Does lim .control (Amidst d) (act (.loadState e))
      fun state v w => Amidst d v w ∧ state = .idle := by
    refine triple_idleAt d rfl (fun ch w => idleAt_of_calm) fun w ch state s' hidle hx => ?_
    obtain ⟨rfl, -⟩ := outcome_eq hx
    exact of_decide_eq_true hidle
  have hwaiters : Does lim .control (Amidst d) (act (.hasWaiters e))
      fun waiting v w => Amidst d v w ∧ waiting = false := by
    refine triple_idleAt d rfl (fun ch w => idleAt_of_calm) fun w ch waiting s' hidle hx => ?_
    obtain ⟨rfl, -⟩ := outcome_eq hx
    have hnone : w.node.requests.waiters e = 0 := of_decide_eq_true hidle
    rw [hnone]
    rfl
  rw [tryLockIfIdle]
  refine htry.bind fun told => ?_
  cases told with
  | none => exact triple_absurd fun v w h => Bool.false_ne_true h.2
  | some told =>
    refine ((triple_plain (looks_recordAbandonment e told).plain).pre fun _ _ h => h.1).bind fun _ =>
      hload.bind fun state => .ite (fun _ => ?_) fun hstate => triple_absurd fun v w h => hstate h.2
    refine (hwaiters.pre fun _ _ h => h.1).bind fun waiting =>
      .ite (fun hwaiting => triple_absurd fun v w h => ?_) fun _ => .pure fun _ _ h => ⟨h.1, rfl⟩
    rw [h.2] at hwaiting
    cases hwaiting

section

variable (name : DomainName)

include name

theorem triple_publishName (d : DomainId) : Does lim t P (claim.publishName name d)
      fun claimed v w => P v w ∧ claimed = .served :=
  (triple_act rfl).bind fun _ => (triple_act rfl).bind fun _ => (triple_act rfl).bind fun _ =>
    .pure fun _ _ h => ⟨h, rfl⟩

/-- A name whose id has a slot is published there, if a Broken slot is found idle. -/
theorem triple_claim {C : Prop} {handle : Handle} (hlt : handle.id < lim.maxDomains)
    (htry : Does lim t P (tryLockIfIdle handle.id) fun quiet v w => P v w ∧ (C → quiet = true)) :
    Does lim t P (claim lim name handle)
      fun claimed v w => P v w ∧ (C → claimed = .served) := by
  have hpublish : Does lim t P (claim.publishName name handle.id)
      fun claimed v w => P v w ∧ (C → claimed = .served) :=
    (triple_publishName name _).post fun _ _ _ h => ⟨h.1, fun _ => h.2⟩
  rw [claim, if_neg (Nat.not_le.mpr hlt)]
  refine (triple_plain (looks_isNamed _ _).plain).bind fun named => .ite (fun _ => ?_) fun _ => ?_
  · exact (triple_act rfl).bind fun _ => .pure fun _ _ h => ⟨h, fun _ => rfl⟩
  · have hslot : Does lim t P (claim.takeSlot name handle.id)
        fun claimed v w => P v w ∧ (C → claimed = .served) := by
      refine (triple_act rfl).bind fun broken => .ite (fun _ => ?_) fun _ => hpublish
      refine htry.bind fun quiet => .ite (fun _ => ?_) fun hquiet =>
        .pure fun _ _ h => ⟨h.1, fun hC => absurd (h.2 hC) hquiet⟩
      exact ((triple_act rfl).pre fun _ _ h => h.1).bind fun _ => (triple_act rfl).bind fun _ =>
        hpublish
    refine (triple_act rfl).bind fun live => .ite (fun _ => ?_) fun _ => hslot
    exact (triple_act rfl).bind fun _ => hslot

theorem triple_finishCreate {created : Handle} (hlt : created.id < lim.maxDomains) :
    Does lim .control (Out .control fun m => m = some created.id)
      (finishCreate lim name created) fun _ => Home := by
  rw [finishCreate]
  have hclaim := triple_claim (C := True) name hlt <|
    (triple_tryLockIfIdle created.id created.id).post fun _ _ _ h => ⟨h.1, fun _ => h.2⟩
  refine (triple_act rfl).bind fun _ => hclaim.bind fun claimed =>
    (triple_act rfl).bind fun _ => .ite (fun _ => ?_) fun hserved => ?_
  · refine ((triple_lockCounting created.id).pre fun _ _ h => h.1).bind fun _ => ?_
    refine (triple_addJoin created.id).bind fun _ => (triple_giveEntry created.id).bind fun _ => ?_
    exact .pure fun _ _ h => h
  · exact triple_absurd fun v w h => hserved (h.2 trivial)

theorem triple_create : Does lim .control Home (create lim name) fun _ => Home := by
  rw [create]
  have hfinish : ∀ created : Handle, Does lim .control
      (Entered lim (.ok created)) (finishCreate lim name created) fun _ => Home := by
    intro created
    by_cases hlt : created.id < lim.maxDomains
    · exact (triple_finishCreate name hlt).pre fun _ _ h => h.1
    · exact triple_absurd fun v w h => hlt h.2
  refine (triple_createDomain _).bind fun made => ?_
  split
  · exact hfinish _
  · refine (triple_createJoin _).bind fun joined => ?_
    split
    · exact hfinish _
    · exact .pure fun _ _ h => h
    · exact .pure fun _ _ h => h
  · exact .pure fun _ _ h => h
  · exact .pure fun _ _ h => h

theorem triple_retire (d : DomainId) : Does lim .control Home (retire name d) fun _ => Home := by
  rw [retire]
  refine (triple_act rfl).bind fun _ => (triple_act rfl).bind fun _ => ?_
  exact (triple_lockCounting d).bind fun _ => (triple_clearJoins d).bind fun _ =>
    triple_giveEntry d

theorem triple_removeQuiet (d : DomainId) :
    Does lim .control Home (removeQuiet name d) fun _ => Home := by
  rw [removeQuiet]
  refine (triple_lockCounting d).bind fun _ => (triple_giveTurnBack d).bind fun _ =>
    (triple_act rfl).bind fun _ => (triple_unlockCounting d).bind fun _ =>
      (triple_deleteDomain d _).bind fun deleted => ?_
  have hback : ∀ answer : DomainAnswer, Does lim .control Home
      (do act (.markState d .live); pure answer) fun _ => Home :=
    fun answer => (triple_act rfl).bind fun _ => .pure fun _ _ h => h
  have hretire : Does lim .control Home
      (do retire name d; pure DomainAnswer.served) fun _ => Home :=
    (triple_retire name d).bind fun _ => .pure fun _ _ h => h
  split
  · exact hretire
  · exact hretire
  · exact hback _
  · exact hback _

theorem triple_remove : Does lim .control Home (remove name) fun _ => Home := by
  rw [remove]
  refine (triple_act rfl).bind fun _ => (triple_act rfl).bind fun found => ?_
  cases found with
  | none => exact (triple_act rfl).bind fun _ => .pure fun _ _ h => h
  | some d =>
    refine (triple_lockCounting d).bind fun _ => (triple_act rfl).bind fun keeps =>
      (triple_giveEntry d).bind fun _ => .ite (fun _ => ?_) fun _ => ?_
    · refine triple.bind ?_ fun answer => (triple_act rfl).bind fun _ => .pure fun _ _ h => h
      rw [removeSlot]
      refine (triple_act rfl).bind fun _ => (triple_act rfl).bind fun turns =>
        (triple_plain (plain_awaitQuiet d turns)).bind fun quiet => .ite (fun _ => ?_) fun _ => ?_
      · exact (triple_removeQuiet name d).bind fun answer => (triple_act rfl).bind
          fun _ => .pure fun _ _ h => h
      · exact (triple_act rfl).bind fun _ => .pure fun _ _ h => h
    · exact (triple_act rfl).bind fun _ => .pure fun _ _ h => h

theorem beside_findNamed : (findNamed name).Only fun o => Op.books o = false :=
  .bind (.perform rfl) fun _ => .bind (.perform rfl) fun _ => .bind (.perform rfl)
    fun _ => .pure _

theorem triple_join : Does lim .control Home (join name) fun _ => Home := by
  rw [join]
  refine (triple_beside (beside_findNamed name)).bind fun found => ?_
  cases found with
  | none => exact .pure fun _ _ h => h
  | some d =>
    have hend : ∀ answer : DomainAnswer, Does lim .control
        (In d (Here fun a => a.Settled d)) (do act (.unlockCounting d); pure answer)
        fun _ => Home := fun answer =>
      (triple_giveEntry d).bind fun _ => .pure fun _ _ h => h
    refine (triple_lockCounting d).bind fun _ => (triple_joinDomain d _).bind fun joined => ?_
    cases joined with
    | ok handle => exact (triple_addJoin d).bind fun _ => hend _
    | error e => cases e <;> exact hend _

theorem triple_leave : Does lim .control Home (leave name) fun _ => Home := by
  rw [leave]
  refine (triple_beside (beside_findNamed name)).bind fun found => ?_
  cases found with
  | none => exact .pure fun _ _ h => h
  | some d =>
    have hend : Does lim .control (In d (Here fun a => a.Settled d))
        (do act (.unlockCounting d); pure DomainAnswer.served) fun _ => Home :=
      (triple_giveEntry d).bind fun _ => .pure fun _ _ h => h
    refine (triple_lockCounting d).bind fun _ => (triple_dropJoin d).bind fun dropped =>
      .ite (fun hdropped => ?_) fun hdropped => ?_
    · refine (triple_keepsParticipation (lasts_here fun a a' h ha hr => h.settled d rfl (ha hr))).bind
        fun keeps => ?_
      cases keeps with
      | true => exact hend.pre fun v w h => ⟨h.1, h.2.2, h.2.1.2⟩
      | false =>
        exact ((triple_leaveByName d _).pre fun v w h => ⟨h.1, h.2.2, h.2.1.2⟩).bind fun _ => hend
    · refine hend.pre fun v w h => ⟨h.1, h.2.1 ?_, h.2.2⟩
      exact Bool.eq_false_iff.mpr hdropped

end

theorem triple_serveCommand (asked : Command) (asking : Text) :
    Does lim .control Home (serveCommand lim asked asking) fun _ => Home := by
  rw [serveCommand]
  cases DomainName.make asking with
  | none => exact .pure fun _ _ h => h
  | some name =>
    cases asked with
    | createDomain => exact triple_create name
    | deleteDomain => exact triple_remove name
    | joinDomain => exact triple_join name
    | leaveDomain => exact triple_leave name

/-! ### Every run -/

theorem beside_retireSlot : (retireSlot d).Only fun o => Op.books o = false := by
  refine .bind (.perform rfl) fun name => .bind (.perform rfl) fun _ => .bind (.perform rfl)
    fun _ => ?_
  have hend : ((act (.unlockMutex d)).Only fun o => Op.books o = false) := .perform rfl
  split
  · exact hend
  · exact .bind (.perform rfl) fun _ => hend

theorem triple_retireStale (confirmed slots : List DomainId) :
    Does lim t P (retireStale confirmed slots) fun _ => P := by
  induction slots with
  | nil => exact .pure fun _ _ h => h
  | cons d rest ih =>
    refine (triple_plain (looks_isTaken d).plain).bind fun taken => .ite (fun _ => ?_) fun _ => ih
    refine .ite (fun _ => ih) fun _ => ?_
    refine (triple_plain (plain_tryLockIfIdle d)).bind fun quiet => .ite (fun _ => ?_) fun _ => ih
    exact (triple_beside (beside_retireSlot d)).bind fun _ => ih

theorem triple_claimAll (living : List DomainEntry) :
    Does lim t P (claimAll lim living) fun _ => P := by
  induction living with
  | nil => exact .pure fun _ _ h => h
  | cons entry rest ih =>
    rw [claimAll]
    split
    · exact ih
    · rename_i name _
      by_cases hlt : entry.handle.id < lim.maxDomains
      · -- a refresh goes on whatever it finds
        have hclaim := triple_claim (C := False) (P := P) (t := t) name hlt <|
          (triple_plain (plain_tryLockIfIdle _)).post fun _ _ _ h => ⟨h, False.elim⟩
        exact (hclaim.post fun _ _ _ h => h.1).bind fun _ => ih
      · rw [claim, if_pos (Nat.not_lt.mp hlt)]
        exact ih

theorem triple_maintain : Does lim .maintainer (Away .maintainer)
    (maintain lim) fun _ => Away .maintainer := by
  rw [maintain]
  refine triple.bind ?_ fun _ => triple_dropExpiredTurns (by decide) _
  rw [refresh]
  refine (triple_act rfl).bind fun due => .late ?_ fun _ _ h => h
  refine (triple_act rfl).bind fun _ => (triple_plain (looks_getDomainEntries _).plain).bind fun living => ?_
  split
  · exact triple_act rfl
  · exact (triple_plain (looks_confirm _).plain).bind fun confirmed => (triple_retireStale confirmed _).bind
      fun _ => (triple_claimAll _).bind fun _ => triple_act rfl

/-- Out of every entry, and the control thread between no two. A requester holds none,
and may end anywhere. -/
def Rest : Tid → Option DomainId → World → Prop
  | .requester _, _, _ => True
  | t, v, w => Out t (fun m => m = none) v w

theorem Rest.stable (t : Tid) (v : Option DomainId) : Stable (pact.rely t v) (Rest t v) := by
  cases t with
  | requester r => exact fun _ _ _ _ => trivial
  | _ => exact Out.stable _ (fun m => m = none) v

theorem triple_start {call : Call} {s : State} {p : Proc Unit} (hp : start lim t call s = some p) :
    Does lim t (Rest t) p fun _ => Rest t := by
  cases start_begun hp with
  | tryLock name =>
    exact (triple_plain (plain_tryLockOnce name)).bind fun _ => .pure fun _ _ h => h
  | unlock => exact triple_plain (plain_release _)
  | serveLock d =>
    exact (triple_serveLock (by simp) d).mono (fun _ _ h => ⟨h.1, fun _ => trivial⟩)
      fun _ _ _ h => ⟨h.1, fun hc => (nomatch hc)⟩
  | command asked asking =>
    exact (triple_serveCommand asked asking).bind fun _ => .pure fun _ _ h => h
  | maintain =>
    exact triple_maintain.mono (fun _ _ h => ⟨h.1, fun _ => trivial⟩)
      fun _ _ _ h => ⟨h.1, fun hc => (nomatch hc)⟩

/-- What happens around the node leaves its domains settled. -/
theorem beside_env {e : Event} {μ : Tid → Option DomainId} (hI : w.accounts.Inv μ)
    (hcalm : calmEvent e w = true) (he : env lim e w = some w') :
    Beside w.accounts w'.accounts ∧ w'.moving = w.moving := by
  cases e with
  | node e =>
    obtain ⟨s, hs, rfl⟩ := Option.map_eq_some_iff.mp he
    cases e with
    | die r =>
      cases hs
      exact ⟨⟨rfl, rfl, rfl, rfl, fun _ h => h, fun _ h => h, fun _ h => h⟩, rfl⟩
    | createElsewhere id text =>
      rw [Daemon.env] at hs
      obtain ⟨hnew, ⟨⟩⟩ := of_guard hs
      -- this node is in no domain that is just being named
      have hout : w.accounts.participates id = true → False := fun hp => by
        have hnamed : (w.node.region.name id).isSome = true := hI.named id hp
        rw [hnew.2.2.1] at hnamed
        cases hnamed
      refine ⟨.near (d := id) (fun _ _ h => h) rfl rfl rfl rfl (fun e he => update_of_ne he ..)
        (fun _ _ => rfl) (fun e he => congrArg Option.isSome (update_of_ne he ..))
        (fun e he => update_of_ne he ..) (fun _ hp => (hout hp).elim) (fun _ hp => (hout hp).elim)
        fun _ _ => ?_, rfl⟩
      show update w.node.region.generation id (w.node.region.generation id + 1) id ≠ 0
      rw [update_self]
      exact Nat.succ_ne_zero _
    | deleteElsewhere id =>
      rw [Daemon.env] at hs
      obtain ⟨hdelete, ⟨⟩⟩ := of_guard hs
      have hout : w.accounts.participates id = true → False := fun hp => by
        have hp' : w.node.region.participates id = true := hp
        rw [hdelete.2] at hp'
        cases hp'
      refine ⟨.near (d := id) (fun _ _ h => h) rfl rfl rfl rfl (fun e he => update_of_ne he ..)
        (fun _ _ => rfl) (fun e he => congrArg Option.isSome (update_of_ne he ..)) (fun _ _ => rfl)
        (fun _ hp => (hout hp).elim) (fun _ hp => (hout hp).elim) fun _ hn => ?_, rfl⟩
      replace hn : (update w.node.region.name id none id).isSome = true := hn
      rw [update_self] at hn
      cases hn
  | joinElsewhere d =>
    obtain ⟨-, ⟨⟩⟩ := of_guard he
    refine ⟨.near (d := d) (fun _ _ h => h) rfl rfl rfl rfl (fun e he => update_of_ne he ..)
      (fun _ _ => rfl) (fun _ _ => rfl) (fun _ _ => rfl) (fun _ hp => .inr ?_) (fun h => h)
      fun h => h, rfl⟩
    replace hcalm : (!w.node.region.participates d || decide (w.node.registry.joined d > 0) ||
      (w.node.turns.guard d).isSome) = true := hcalm
    have hp' : w.node.region.participates d = true := hp
    rw [hp', Bool.not_true, Bool.false_or, Bool.or_eq_true, decide_eq_true_eq] at hcalm
    exact hcalm.imp_right Or.inl
  | leaveElsewhere d =>
    obtain ⟨-, ⟨⟩⟩ := of_guard he
    exact ⟨.near (d := d) (fun _ _ h => h) rfl rfl rfl rfl (fun e he => update_of_ne he ..)
      (fun _ _ => rfl) (fun _ _ => rfl) (fun _ _ => rfl)
      (fun _ _ => .inr (.inr (.inr (update_self ..)))) (fun h => h) fun h => h, rfl⟩

theorem kept : pact.Kept (calmSystem lim) Rest where
  start t call w μ p hI hrest hp := by
    refine ⟨μ t, Rest t, ?_, hrest, Rest.stable t _, triple_start hp⟩
    rwa [update_eq_self]
  env e w μ w' hI he := by
    obtain ⟨hcalm, he⟩ := env_calm he
    obtain ⟨hbeside, hmoving⟩ := beside_env hI hcalm he
    refine ⟨μ, hI.beside hbeside, fun t => ?_⟩
    split
    · rename_i hkilled
      refine ⟨?_, Rest.stable t _⟩
      -- Only requesters die.
      cases e with
      | node e =>
        cases e with
        | die r =>
          obtain rfl : t = .requester r := of_decide_eq_true hkilled
          trivial
        | createElsewhere d x => cases hkilled
        | deleteElsewhere d => cases hkilled
      | joinElsewhere d => cases hkilled
      | leaveElsewhere d => cases hkilled
    · exact ⟨rfl, hbeside.relies _ fun _ => hmoving⟩

theorem inv_fresh : fresh.shared.accounts.Inv fun _ => none where
  counting _ _ := ⟨fun h => (nomatch h), fun h => (nomatch h)⟩
  settled _ _ h := nomatch h
  named _ h := nomatch h
  generation _ h := nomatch h
  turns _ h := nomatch h

/-- **A node leaves what it does not use.** In every run in which a grant that has
joined gets its turn, a refused delete leaves a joined domain, a create finds its slot
free to publish, every call reaches its own slot's domain and nobody joins a domain this
node is in for no reason: a domain this node is in, while nothing is in progress on its slot, has been joined here, or the entry
holds a turn, or nobody else is in it. -/
theorem leaves_what_is_unused (lim : Limits) (c : Config Tid Op Ret World)
    (h : (calmSystem lim).Reachable fresh c) : (system lim).Reachable fresh c ∧
      (Daemon.system lim).Reachable Daemon.fresh (c.map World.node) ∧
      ∀ d, c.shared.node.region.participates d = true →
        c.shared.node.turns.counting d = none → c.shared.moving ≠ some d →
        c.shared.node.registry.joined d > 0 ∨ (c.shared.node.turns.guard d).isSome = true ∨
          c.shared.others d = false := by
  have hreach := reachable_of_calm h
  refine ⟨hreach, reachable_node hreach, fun d hp hfree hm => ?_⟩
  obtain ⟨μ, hI⟩ := kept.reachable (fun _ => rfl) inv_fresh
    (fun t => by cases t <;> first | trivial | exact ⟨rfl, fun _ => rfl⟩)
    (fun t => Rest.stable t _) h
  exact (Accounts.Inv.settled hI d hfree hp).resolve_left hm

/-- A schedule of the node, among others. -/
def among : Action Tid Choice Call Env → Action Tid Choice Call Event
  | .exec t ch => .exec t ch
  | .start t call => .start t call
  | .env e => .env (.node e)

/-- Another node creates a domain, and a requester here asks for its turn. -/
def askTurn : List (Action Tid Choice Call Env) :=
  List.flatten [[.env (.createElsewhere 1 ['a'])], refreshPass 15 2, request 0 (named 'a') 3,
    findRequest 0 1]

/-- The worker joins and gets the turn. -/
def grantTurn : List (Action Tid Choice Call Event) :=
  (List.flatten [askTurn, buyTurn 0]).map among

theorem leaves_what_is_unused_grantTurn :
    ∃ c, (calmSystem ⟨2, 2⟩).Reachable fresh c ∧ c.shared.node.region.participates 1 = true ∧
      c.shared.node.registry.joined 1 = 0 ∧ c.shared.others 1 = true ∧
      (c.shared.node.turns.guard 1).isSome = true := by
  obtain ⟨c, hc, hp, hfree, hmoving, hjoined, hothers⟩ := System.exists_of_run (calmSystem ⟨2, 2⟩) fresh grantTurn
    (P := fun c => c.shared.node.region.participates 1 = true ∧
      c.shared.node.turns.counting 1 = none ∧ c.shared.moving = none ∧
      c.shared.node.registry.joined 1 = 0 ∧ c.shared.others 1 = true) (by decide +kernel)
  have hsettled := (leaves_what_is_unused ⟨2, 2⟩ c hc).2.2 1 hp hfree (by rw [hmoving]; simp)
  rw [hjoined, hothers] at hsettled
  refine ⟨c, hc, hp, hjoined, hothers, ?_⟩
  rcases hsettled with h | h | h
  · cases h
  · exact h
  · cases h

/-- The worker joins, and the lock does not come in time. -/
def lockTimesOut : List (Action Tid Choice Call Event) :=
  (List.flatten [askTurn, steps (.worker 0) 6, [.exec (.worker 0) (.refused .lockTimeout)],
    steps (.worker 0) 5]).map among

/-- **A node stays.** The grant is over and nothing is in progress on the slot; the node
is in the domain with another, without a join and without a turn. -/
theorem stays_after_timeout : ∃ c, (system ⟨2, 2⟩).Reachable fresh c ∧
      (Daemon.system ⟨2, 2⟩).Reachable Daemon.fresh (c.map World.node) ∧
      c.threads (.worker 0) = .done () ∧ c.threads .control = .done () ∧
      c.threads .maintainer = .done () ∧ c.shared.node.turns.counting 1 = none ∧
      c.shared.moving = none ∧ c.shared.node.region.participates 1 = true ∧
      c.shared.node.registry.joined 1 = 0 ∧ (c.shared.node.turns.guard 1).isSome = false ∧
      c.shared.others 1 = true :=
  (System.exists_of_run _ _ lockTimesOut (by decide +kernel)).imp
    fun _ h => ⟨h.1, reachable_node h.1, h.2⟩

end Cme.Daemon.Participation
