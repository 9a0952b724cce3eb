import Cme.Client.Session
import Cme.Interleave.Monitor
import Cme.Interleave.Outline

/-!
# Client — what a failed migration leaves

`migrateLocked` closes the door, drains, and then replaces the connection before it
asks for the area. What fails once the new connection stands leaves the door closed
on a session whose peer is there: `tryLock` finds the door closed and asks to migrate,
`migrate` finds the peer serving and answers that there is nothing to do
(`closed_while_serving`). Where a Welcome or a rejoin fails only with the new peer
gone as well (`peerGoneOnFailure`), a closed door outside `migrateLocked` always
stands beside a peer that is gone, and the next call migrates again.
-/

namespace Cme.Client.Recovery

open Interleave

variable {W : Type} [DecidableEq W]

/-- What throws out of a migration on the new connection finds its peer gone. -/
def peerGoneOnFailure (_ : W) (o : Op W) (ch : Choice) (s : State W) : Bool :=
  match o, ch with
  | .attach, .failure (some _) => !s.serving
  | .exchange, .failure (some e) => e.refused || s.migrating.isNone || !s.serving
  | _, _ => true

/-- Where a thread stands with the control mutex. -/
inductive Post where
  | out
  /-- It holds the mutex, outside `migrateLocked`. -/
  | holding
  /-- It has read that the peer is gone. -/
  | bereft
  /-- Inside `migrateLocked`, on the connection whose peer is gone. -/
  | closed
  /-- Inside `migrateLocked`, on the new connection. -/
  | connected
  deriving DecidableEq

def Post.within : Post → Bool
  | .out => false
  | _ => true

/-- A door closed for nobody's migration: the next call migrates again. -/
def Settled (s : State W) : Prop := s.closing = true → s.serving = false

def Quiet (s : State W) : Prop := s.migrating = none ∧ Settled s

def Fits (s : State W) : Post → Prop
  | .out => True
  | .holding => s.migrating = none ∧ Settled s
  | .bereft => s.migrating = none ∧ s.serving = false
  | .closed => s.migrating ≠ none ∧ s.serving = false
  | .connected => s.migrating ≠ none

abbrev Inv (s : State W) (γ : W → Post) : Prop :=
  Monitor State.control Post.within Quiet Fits s γ

variable [Fintype W] {s s' : State W} {γ : W → Post} {t : W} {v : Post}

abbrev goneSystem (W : Type) [Fintype W] [DecidableEq W] :
    System W (Op W) Ret (State W) Choice (Call W) Env :=
  (system W).restrict peerGoneOnFailure

/-! ### Operations -/

/-- Accesses that a migration does not rest on. -/
def Aside : Op W → Prop
  | .storeClosing _ | .lockControl | .unlockControl | .connect | .attach | .exchange => False
  | _ => True

theorem exec_aside {o : Op W} (ho : Aside o) {ch : Choice} {r : Ret o}
    (hx : exec t o ch s = some (r, s')) :
    s'.control = s.control ∧ s'.closing = s.closing ∧ s'.serving = s.serving ∧
      s'.migrating = s.migrating := by
  cases o <;> first | exact ho.elim | skip
  case loadClosing | loadHolders =>
    obtain ⟨-, rfl⟩ := outcome_eq hx
    split <;> exact ⟨rfl, rfl, rfl, rfl⟩
  case countIn | countOut | subtractHolder =>
    obtain ⟨-, rfl⟩ := outcome_eq hx
    exact ⟨rfl, rfl, rfl, rfl⟩
  case pickGuard index | moveGuard index target =>
    rw [exec] at hx
    split at hx <;> cases hx <;> exact ⟨rfl, rfl, rfl, rfl⟩
  all_goals cases ch <;> cases hx <;> exact ⟨rfl, rfl, rfl, rfl⟩

omit [Fintype W] [DecidableEq W] in
/-- The peer may only go, and a migration rests on nothing else. -/
theorem Inv.beside (hI : Inv s γ) (hcontrol : s'.control = s.control)
    (hclosing : s'.closing = s.closing) (hserving : s.serving = false → s'.serving = false)
    (hmigrating : s'.migrating = s.migrating) : Inv s' γ := by
  have hsettled : Settled s → Settled s' := fun h hc => hserving (h (hclosing ▸ hc))
  refine Monitor.beside hI hcontrol (fun _ hq => ⟨hmigrating.trans hq.1, hsettled hq.2⟩)
    (fun j _ _ hf => ?_) fun _ => Or.inl rfl
  cases hv : γ j
  all_goals rw [hv] at hf
  case out => trivial
  case holding => exact ⟨hmigrating.trans hf.1, hsettled hf.2⟩
  case bereft => exact ⟨hmigrating.trans hf.1, hserving hf.2⟩
  case closed => exact ⟨fun h => hf.1 (hmigrating.symm.trans h), hserving hf.2⟩
  case connected => exact fun h => hf (hmigrating.symm.trans h)

theorem wp_aside {α : Type} {p : Proc W α} (hp : p.Only Aside) {Q : α → Post → Prop}
    (h : ∀ r, Q r v) : wp (goneSystem W) Inv t p Q v := by
  refine wp_only hp (fun o ho s γ ch r s' hI hx => ?_) h
  obtain ⟨-, hx⟩ := System.restrict_exec.mp hx
  obtain ⟨hcontrol, hclosing, hserving, hmigrating⟩ := exec_aside ho hx
  exact hI.beside hcontrol hclosing (fun h => hserving.trans h) hmigrating

theorem wp_within {o : Op W} {Q : Ret o → Post → Prop} (hv : v.within = true)
    (h : ∀ s : State W, Fits s v → ∀ ch r s', peerGoneOnFailure t o ch s = true →
      exec t o ch s = some (r, s') →
        s'.control = s.control ∧ ∃ v', v'.within = true ∧ Fits s' v' ∧ Q r v') :
    wp (goneSystem W) Inv t (act o) Q v := by
  rintro s γ hI rfl ch r s' hx
  obtain ⟨hcalm, hx⟩ := System.restrict_exec.mp hx
  obtain ⟨hcontrol, v', hv', hfits, hQ⟩ := h s (hI.fits t hv) ch r s' hcalm hx
  exact ⟨v', Monitor.inside hI hv hv' hcontrol hfits, hQ⟩

theorem wp_isServing : wp (goneSystem W) Inv t (act .isServing)
    (fun serving w => w = if serving then .holding else .bereft) .holding := by
  refine wp_within rfl fun s hs ch r s' _ hx => ?_
  cases hx
  refine ⟨rfl, ?_⟩
  by_cases hserving : s.serving = true
  · exact ⟨.holding, rfl, hs, (if_pos hserving).symm⟩
  · exact ⟨.bereft, rfl, ⟨hs.1, Bool.eq_false_of_not_eq_true hserving⟩, (if_neg hserving).symm⟩

theorem wp_lockControl :
    wp (goneSystem W) Inv t (act .lockControl) (fun _ w => w = .holding) .out := by
  intro s γ hI hγ ch r s' hx
  obtain ⟨-, hx⟩ := System.restrict_exec.mp hx
  obtain ⟨hfree, ⟨⟩⟩ := of_unless hx
  exact ⟨.holding, Monitor.enter hI (by simpa using hfree) rfl rfl fun hq => hq, rfl⟩

theorem wp_unlockControl :
    wp (goneSystem W) Inv t (act .unlockControl) (fun _ w => w = .out) .holding := by
  intro s γ hI hγ ch r s' hx
  obtain ⟨-, hx⟩ := System.restrict_exec.mp hx
  cases hx
  have hin : (γ t).within = true := by rw [hγ]; rfl
  have hfits := hI.fits t hin
  rw [hγ] at hfits
  exact ⟨.out, Monitor.exit hI hin rfl rfl hfits, rfl⟩

theorem wp_close :
    wp (goneSystem W) Inv t (act (.storeClosing true)) (fun _ w => w = .closed) .bereft := by
  refine wp_within rfl fun s hs ch r s' _ hx => ?_
  cases hx
  exact ⟨rfl, .closed, rfl, ⟨fun h => (nomatch h), hs.2⟩, rfl⟩

theorem wp_reopen (hv : v.within = true) :
    wp (goneSystem W) Inv t (act (.storeClosing false)) (fun _ w => w = .holding) v := by
  refine wp_within hv fun s hs ch r s' _ hx => ?_
  cases hx
  exact ⟨rfl, .holding, rfl, ⟨rfl, fun h => (nomatch h)⟩, rfl⟩

/-- What an operation of a migration leaves: it goes on, or throws. -/
def After (failure : Option Error) (w : Post) : Prop :=
  w = if failure.isNone then .connected else .holding

theorem wp_connect : wp (goneSystem W) Inv t (act .connect) After .closed := by
  refine wp_within rfl fun s hs ch r s' _ hx => ?_
  cases ch with
  | failure e =>
    obtain ⟨rfl, rfl⟩ := outcome_eq hx
    cases e with
    | none => exact ⟨rfl, .connected, rfl, hs.1, rfl⟩
    | some e => exact ⟨rfl, .holding, rfl, ⟨rfl, fun _ => hs.2⟩, rfl⟩
  | _ => cases hx

theorem wp_attach : wp (goneSystem W) Inv t (act .attach) After .connected := by
  refine wp_within rfl fun s hs ch r s' hcalm hx => ?_
  cases ch with
  | failure e =>
    obtain ⟨rfl, rfl⟩ := outcome_eq hx
    cases e with
    | none => exact ⟨rfl, .connected, rfl, hs, rfl⟩
    | some e =>
      have hgone : s.serving = false := by simpa [peerGoneOnFailure] using hcalm
      exact ⟨rfl, .holding, rfl, ⟨rfl, fun _ => hgone⟩, rfl⟩
  | _ => cases hx

theorem wp_exchange : wp (goneSystem W) Inv t (act .exchange) (fun _ w => w = .holding) .holding := by
  refine wp_within rfl fun s hs ch r s' _ hx => ?_
  cases ch with
  | failure e =>
    cases hx
    refine ⟨?_, .holding, rfl, ?_, rfl⟩
    · split <;> rfl
    · split
      · exact hs
      · exact ⟨rfl, hs.2⟩
  | _ => cases hx

theorem wp_rejoin (names : Nat) : wp (goneSystem W) Inv t (rejoin names) After .connected := by
  induction names with
  | zero => rfl
  | succ names ih =>
    rw [rejoin, wp_bind]
    refine wp_within rfl fun s hs ch r s' hcalm hx => ?_
    cases ch with
    | failure e =>
      obtain ⟨rfl, rfl⟩ := outcome_eq hx
      cases e with
      | none => exact ⟨rfl, .connected, rfl, hs, ih⟩
      | some e =>
        by_cases hrefused : e.refused = true
        · -- the name leaves the set and the next one is asked for
          refine ⟨by simp [hrefused], .connected, rfl, ?_, ?_⟩
          · simpa [hrefused] using hs
          · simpa [hrefused] using ih
        · have hsome : s.migrating.isNone = false := Option.isNone_eq_false_iff.mpr
            (Option.isSome_iff_ne_none.mpr hs)
          have hgone : s.serving = false := by
            simpa [peerGoneOnFailure, hrefused, hsome] using hcalm
          refine ⟨by simp [hrefused], .holding, rfl, ?_, ?_⟩
          · simpa [hrefused, Fits, Settled] using fun _ => hgone
          · simp [hrefused, After]
    | _ => cases hx

/-! ### The code -/

omit [Fintype W] [DecidableEq W] in
theorem aside_drain (turns : Nat) : (drain turns : Proc W Bool).Only Aside := by
  induction turns with
  | zero => exact .pure _
  | succ turns ih =>
    refine .bind (.perform trivial) fun holders => ?_
    split
    · exact .pure _
    · exact ih

theorem wp_closeAndDrain : wp (goneSystem W) Inv t closeAndDrain
    (fun drained w => w = if drained then .closed else .holding) .bereft := by
  rw [closeAndDrain]
  refine wp_seq wp_close fun _ => ?_
  refine .bind <| wp_aside (.perform (by trivial)) fun turns => ?_
  refine .bind <| wp_aside (aside_drain turns) fun drained => ?_
  cases drained with
  | true => rfl
  | false =>
    rw [if_neg (by decide), wp_bind]
    exact wp_mono (fun _ w hw => hw) (wp_reopen rfl)

/-- A migration ends with the mutex held and the session settled, however it ends. -/
theorem wp_migrateLocked :
    wp (goneSystem W) Inv t migrateLocked (fun _ w => w = .holding) .bereft := by
  rw [migrateLocked]
  refine wp_seq wp_closeAndDrain fun drained => ?_
  cases drained with
  | false => rfl
  | true =>
    rw [if_pos rfl]
    refine wp_seq wp_connect fun refused => ?_
    cases refused with
    | some e => rfl
    | none =>
      refine wp_seq wp_attach fun failure => ?_
      cases failure with
      | some e => rfl
      | none =>
        refine .bind <| wp_aside (.perform (by trivial)) fun joined => ?_
        refine wp_seq (wp_rejoin joined) fun failure => ?_
        cases failure with
        | some e => rfl
        | none =>
          exact .bind <| wp_mono (fun _ w hw => hw) (wp_reopen rfl)

theorem wp_migrate : wp (goneSystem W) Inv t migrate (fun _ w => w = .out) .out := by
  rw [migrate]
  refine wp_seq wp_lockControl fun _ => ?_
  refine wp_seq wp_isServing fun serving => ?_
  cases serving with
  | true =>
    rw [if_pos rfl, wp_bind]
    exact wp_mono (fun _ w hw => hw) wp_unlockControl
  | false =>
    rw [if_neg (by decide)]
    refine wp_seq wp_migrateLocked fun result => ?_
    refine wp_then wp_unlockControl fun _ w hw => ?_
    split <;> exact hw

omit [Fintype W] [DecidableEq W] in
theorem aside_unlock (g : Guard) : (unlock g : Proc W Unit).Only Aside := by
  refine .bind (.bind (.perform trivial) fun _ => .bind (.perform trivial) fun waiters =>
    .bind (.perform trivial) fun _ => ?_) fun _ => .perform trivial
  split
  · exact .perform trivial
  · exact .pure _

omit [Fintype W] [DecidableEq W] in
theorem aside_awaitTurn (name : String) (area : Nat) (d : DomainId) :
    (awaitTurn name area d : Proc W Answer).Only Aside := by
  refine .bind (.perform trivial) fun _ => .bind (.perform trivial) fun _ =>
    .bind (.perform trivial) fun _ => .bind (.perform trivial) fun outcome => ?_
  split
  · exact .bind (aside_unlock _) fun _ => .pure _
  · exact .bind (.perform trivial) fun _ => .bind (aside_unlock _) fun _ => .pure _
  · exact .pure _

omit [Fintype W] [DecidableEq W] in
theorem aside_lockUnderMutex (name : String) (area : Nat) (d : DomainId) :
    (lockUnderMutex name area d : Proc W Answer).Only Aside := by
  refine .bind (.perform trivial) fun named => ?_
  split
  · refine .bind (.perform trivial) fun _ => .bind (.perform trivial) fun valid => ?_
    split
    · exact .bind (.perform trivial) fun _ => .pure _
    · refine .bind (.perform trivial) fun _ => .bind (.perform trivial) fun serving => ?_
      split
      · exact aside_awaitTurn name area d
      · exact .bind (.perform trivial) fun _ => .pure _
  · exact .bind (.perform trivial) fun _ => .pure _

omit [Fintype W] [DecidableEq W] in
/-- An attempt does not touch what a migration rests on. -/
theorem aside_tryLockOnce (name : String) : (tryLockOnce name : Proc W Answer).Only Aside := by
  refine .bind (.perform trivial) fun _ => .bind (.bind (.perform trivial) fun closing => ?_)
    fun _ => .bind (.perform trivial) fun _ => .pure _
  split
  · exact .pure _
  · refine .bind (.perform trivial) fun area => .bind (.perform trivial) fun resolved => ?_
    split
    · exact .pure _
    · refine .bind (.perform trivial) fun failure => ?_
      split
      · exact .pure _
      · exact aside_lockUnderMutex name area _

theorem wp_tryLock (name : String) (turns : Nat) :
    wp (goneSystem W) Inv t (tryLock name turns) (fun _ w => w = .out) .out := by
  induction turns with
  | zero =>
    rw [tryLock, wp_bind]
    exact wp_aside (.perform (by trivial)) fun _ => rfl
  | succ turns ih =>
    have hagain {k : Except Error Bool → Proc W Answer}
        (hthrew : ∀ e, k (.error e) = pure (.threw e)) (hretry : ∀ u, k (.ok u) = tryLock name turns) :
        wp (goneSystem W) Inv t (migrate >>= k) (fun _ w => w = .out) .out := by
      refine wp_seq wp_migrate fun result => ?_
      cases result with
      | error e =>
        rw [hthrew]
        rfl
      | ok u =>
        rw [hretry]
        exact ih
    rw [tryLock, wp_bind]
    refine wp_aside (.perform (by trivial)) fun left => ?_
    split
    · refine .bind <| wp_aside (aside_tryLockOnce name) fun answer => ?_
      split
      · rfl
      · rfl
      · refine .bind <| wp_aside (.perform (by trivial)) fun serving => ?_
        split
        · refine .bind <| wp_aside (.perform (by trivial)) fun closing => ?_
          split
          · exact hagain (fun _ => rfl) fun _ => rfl
          · rfl
        · exact hagain (fun _ => rfl) fun _ => rfl
    · rfl

theorem wp_exchangeAcrossMigration :
    wp (goneSystem W) Inv t exchangeAcrossMigration (fun _ w => w = .holding) .holding := by
  rw [exchangeAcrossMigration]
  refine wp_seq wp_exchange fun refused => ?_
  split
  · rfl
  · refine wp_seq wp_isServing fun serving => ?_
    cases serving with
    | true => rfl
    | false =>
      rw [if_neg (by decide)]
      refine wp_seq wp_migrateLocked fun result => ?_
      split
      · rfl
      · rfl
      · refine wp_then wp_exchange fun refused w hw => ?_
        split <;> exact hw
  · rfl

theorem outline : Outline (goneSystem W) Inv fun _ v => v = .out where
  start t call s γ p hI hrest hp := by
    refine ⟨.out, ?_, ?_⟩
    · rw [← hrest, Function.update_eq_self]
      exact hI
    · cases call with
      | tryLock name =>
        cases hp
        rw [tryLockCall, wp_bind]
        refine wp_aside (.perform (by trivial)) fun turns => ?_
        refine wp_seq (wp_tryLock name turns) fun answer => ?_
        split
        · exact wp_aside (.perform (by trivial)) fun _ => rfl
        · rfl
      | unlock index =>
        cases hp
        rw [unlockCall, wp_bind]
        refine wp_aside (.perform (by trivial)) fun picked => ?_
        split
        · rfl
        · exact wp_aside (aside_unlock _) fun _ => rfl
      | move index target =>
        cases hp
        exact wp_aside (.perform (by trivial)) fun _ => rfl
      | control =>
        cases hp
        rw [controlCall]
        refine wp_seq wp_lockControl fun _ => ?_
        refine wp_seq wp_exchangeAcrossMigration fun _ => ?_
        exact wp_unlockControl
  env e s γ s' hI he := by
    cases e
    cases he
    exact ⟨γ, hI.beside rfl rfl (fun _ => rfl) rfl, fun _ => rfl⟩

omit [Fintype W] [DecidableEq W] in
theorem inv_connected : Inv (connected W).shared fun _ => .out where
  holder_iff _ := ⟨fun h => (nomatch h), fun h => (nomatch h)⟩
  quiet _ := ⟨rfl, fun h => (nomatch h)⟩
  fits _ h := (nomatch h)

/-! ### Runs -/

/-- **A failed migration can be repeated.** Where a migration fails on its new
connection only with that peer gone, a session outside `migrateLocked` has its door
open or its peer gone. -/
theorem recoverable (W : Type) [Fintype W] [DecidableEq W] {c : Config W (Op W) Ret (State W)}
    (h : ((system W).restrict peerGoneOnFailure).Reachable (connected W) c)
    (hnone : c.shared.migrating = none) : c.shared.closing = false ∨ c.shared.serving = false := by
  have hidle : Outlined (goneSystem W) Inv (fun _ v => v = .out) (connected W) :=
    outlined_of_idle (fun _ => rfl) inv_connected fun _ => rfl
  obtain ⟨γ, hI, -⟩ := outline.reachable hidle h
  have hsettled : Settled c.shared := by
    cases hcontrol : c.shared.control with
    | none => exact (hI.quiet hcontrol).2
    | some t =>
      have hin := (hI.holder_iff t).mp hcontrol
      have hfits := hI.fits t hin
      cases hv : γ t
      all_goals rw [hv] at hin hfits
      case out => cases hin
      case holding => exact hfits.2
      case bereft => exact fun _ => hfits.2
      case closed => exact absurd hnone hfits.1
      case connected => exact absurd hnone hfits
  cases hclosing : c.shared.closing with
  | false => exact Or.inl rfl
  | true => exact Or.inr (hsettled hclosing)

/-- The daemon goes, and thread 0's control call migrates; its replacement answers
with no Welcome and goes as well. -/
def replacementGone : List (Action (Fin 1) Choice (Call (Fin 1)) Env) :=
  .env .daemonGone :: .start 0 .control :: execs 0 [.any,
    .failure (some (.controlRefused "cmed: could not reach the daemon")), .any, .any, .nat 1, .any,
    .failure none] ++ .env .daemonGone :: execs 0 [.failure (some
      (.areaNotReady "cmed: the daemon closed the connection without answering")), .any]

theorem recoverable_replacementGone :
    ∃ c, ((system (Fin 1)).restrict peerGoneOnFailure).Reachable (connected (Fin 1)) c ∧
      c.shared.closing = true ∧ c.shared.serving = false := by
  obtain ⟨c, hc, hclosing, hnone⟩ := System.exists_of_run
    ((system (Fin 1)).restrict peerGoneOnFailure) (connected (Fin 1)) replacementGone
    (P := fun c => c.shared.closing = true ∧ c.shared.migrating = none) (by decide +kernel)
  refine ⟨c, hc, hclosing, ?_⟩
  rcases recoverable (Fin 1) hc hnone with hopen | hgone
  · cases hclosing.symm.trans hopen
  · exact hgone

/-- The daemon goes, and thread 0's `tryLock` migrates; the replacement is there and
its Welcome is late. -/
def lateWelcome : List (Action (Fin 1) Choice (Call (Fin 1)) Env) :=
  .env .daemonGone :: .start 0 (.tryLock "a") :: execs 0 [.nat 2, .flag true, .any, .any, .any,
    .domain (some 1), .failure none, .flag true, .any, .flag false, .any, .any, .any, .any, .any,
    -- the migration
    .any, .any, .any, .nat 1, .any, .failure none, .failure (some
      (.areaNotReady "cmed: the daemon closed the connection without answering")), .any,
    .flag false]

/-- The door stays closed on a session whose peer is serving, with no call in
progress. -/
theorem closed_while_serving : ∃ c, (system (Fin 1)).Reachable (connected (Fin 1)) c ∧
    (∀ t, c.threads t = .done ()) ∧ c.shared.migrating = none ∧ c.shared.closing = true ∧
      c.shared.serving = true :=
  System.exists_of_run _ _ lateWelcome (by decide +kernel)

end Cme.Client.Recovery
