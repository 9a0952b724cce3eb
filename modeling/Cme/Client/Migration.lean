import Cme.Client.Holders

/-!
# Client — every run of a session

The procedures of a session against the invariant, and what follows for every
run: the law of the count in all of them, exactness and an area never replaced
in use before the first guard is built, and the run in which the first guard is
already enough to lose both.
-/

namespace Cme.Client

open Function Interleave

variable {W : Type} [Fintype W] [DecidableEq W] {t : W} {v : Local} {a : Nat} {d : DomainId}
variable {g : Guard} {name : String}

/-- Accesses to the words of a mapping. -/
def Touches (a : Nat) : Op W → Prop
  | .resolveId area _ | .lockForRequest area _ | .isNamed area _ _ | .publish area _ _
  | .hasValidTurn area _ | .ring area _ | .awaitState area _ | .getFailureCode area _
  | .hasWaiters area _ | .unlockMutex area _ => area = a
  | _ => False

theorem exec_touches {o : Op W} (ho : Touches a o) {ch : Choice} {s s' : State W} {r : Ret o}
    (hx : exec t o ch s = some (r, s')) : s' = s.touch a := by
  cases o <;> first | exact ho.elim | skip
  all_goals
    obtain rfl := ho
    cases ch <;> cases hx <;> rfl

/-- Accesses that at most see the connection come, or a migration end. -/
def Quiet : Op W → Prop
  | .isServing | .exchange | .askRemaining | .askTurns | .connect | .loadClosing false
  | .spin => True
  | _ => False

theorem exec_quiet {o : Op W} (ho : Quiet o) {ch : Choice} {s s' : State W} {r : Ret o}
    (hx : exec t o ch s = some (r, s')) :
    ∃ serving migrating, s' = { s with serving := serving, migrating := migrating } := by
  cases o <;> first | exact ho.elim | skip
  case loadClosing counted =>
    cases counted
    · cases hx
      exact ⟨_, _, rfl⟩
    · exact ho.elim
  case connect | exchange =>
    cases ch <;> cases hx
    split
    · exact ⟨_, _, rfl⟩
    · exact ⟨_, _, rfl⟩
  all_goals cases ch <;> cases hx <;> exact ⟨_, _, rfl⟩

theorem wp_touch {o : Op W} (ho : Touches a o) (hv : v.area = some a ∨ v.hand.isSome = true)
    {Q : Ret o → Local → Prop} (h : ∀ r, Q r v) : wp (system W) Inv t (act o) Q v := by
  intro s γ hInv hγ ch r s' hx
  obtain rfl := exec_touches ho hx
  refine ⟨v, ?_, h r⟩
  rw [← hγ, update_eq_self]
  refine hInv.touch fun hb => ?_
  rcases hv with harea | hhand
  · refine ((hInv.calm hb).current t a ?_).2
    rw [hInv.local_eq hγ]
    exact harea
  · obtain ⟨g, hg⟩ := Option.isSome_iff_exists.mp hhand
    exact absurd hb (hInv.built_of_hand hγ hg)

theorem wp_quiet {α : Type} {p : Proc W α} (hp : p.Only Quiet) {Q : α → Local → Prop}
    (h : ∀ r, Q r v) : wp (system W) Inv t p Q v :=
  wp_only hp (fun _ ho _ _ _ _ _ hInv hx => by
    obtain ⟨serving, migrating, rfl⟩ := exec_quiet ho hx
    exact hInv.setServing serving migrating) h

/-! ### Guards -/

theorem wp_unlock (hg : v.hand = some g)
    {Q : Unit → Local → Prop} (h : Q () { v with hand := none }) :
    wp (system W) Inv t (unlock g) Q v := by
  have hsome : v.area = some g.area ∨ v.hand.isSome = true := .inr (by rw [hg]; rfl)
  rw [unlock, wp_bind, release, wp_bind]
  refine wp_touch (by rfl) hsome fun _ => ?_
  refine .bind <| wp_touch (by rfl) hsome fun waiters => ?_
  refine .bind <| wp_touch (by rfl) hsome fun _ => ?_
  have hlast : wp (system W) Inv t (act .subtractHolder) Q v := by
    intro s γ hInv hγ ch r s' hx
    simp only [system, exec, Option.some.injEq, Prod.mk.injEq] at hx
    obtain ⟨-, rfl⟩ := hx
    exact ⟨_, hInv.subtractHolder hγ hg, h⟩
  split
  · exact wp_touch (by rfl) hsome fun _ => hlast
  · exact hlast

/-! ### Attempts -/

/-- The record of an attempt inside the area. -/
def attempting (a : Nat) (hand : Option Guard) : Local :=
  { attempt := true, inside := true, area := some a, hand := hand }

theorem wp_buildGuard {Q : Unit → Local → Prop} (h : Q () (attempting a (some ⟨a, d⟩))) :
    wp (system W) Inv t (act (.buildGuard a d)) Q (attempting a none) := by
  intro s γ hInv hγ ch r s' hx
  cases hx
  exact ⟨_, hInv.buildGuard hγ rfl, h⟩

/-- What an attempt leaves behind: a guard in hand exactly if it says so. -/
def Attempted (answer : Answer) (v : Local) : Prop :=
  v.attempt = true ∧ v.control = false ∧ v.closed = false ∧ v.drained = false ∧
    (v.hand.isSome = true ↔ answer = .guard)

theorem attempted_none {answer : Answer} (h : answer ≠ .guard) :
    Attempted answer (attempting a none) :=
  ⟨rfl, rfl, rfl, rfl, by simp [attempting, h]⟩

theorem attempted_guard : Attempted .guard (attempting a (some g)) :=
  ⟨rfl, rfl, rfl, rfl, by simp [attempting]⟩

theorem wp_awaitTurn : wp (system W) Inv t (awaitTurn name a d) Attempted (attempting a none) := by
  rw [awaitTurn, wp_bind]
  refine wp_touch (by rfl) (.inl rfl) fun _ => ?_
  refine .bind <| wp_touch (by rfl) (.inl rfl) fun _ => ?_
  refine .bind <| wp_buildGuard ?_
  refine .bind <| wp_touch (by rfl) (.inl rfl) fun outcome => ?_
  split
  · exact .bind <| wp_unlock rfl (attempted_none (by simp))
  · refine .bind <| wp_touch (by rfl) (.inl rfl) fun failure => ?_
    exact .bind <| wp_unlock rfl (attempted_none (by simp))
  · exact attempted_guard

theorem wp_lockUnderMutex :
    wp (system W) Inv t (lockUnderMutex name a d) Attempted (attempting a none) := by
  rw [lockUnderMutex, wp_bind]
  refine wp_touch (by rfl) (.inl rfl) fun named => ?_
  split
  · refine .bind <| wp_touch (by rfl) (.inl rfl) fun _ => ?_
    refine .bind <| wp_touch (by rfl) (.inl rfl) fun valid => ?_
    split
    · exact .bind <| wp_buildGuard attempted_guard
    · refine .bind <| wp_touch (by rfl) (.inl rfl) fun _ => ?_
      refine .bind <| wp_quiet (.perform (by trivial)) fun serving => ?_
      split
      · exact wp_awaitTurn
      · exact .bind <| wp_touch (by rfl) (.inl rfl) fun _ => attempted_none (by simp)
  · exact .bind <| wp_touch (by rfl) (.inl rfl) fun _ => attempted_none (by simp)

theorem wp_attempt_body : wp (system W) Inv t (attempt name) Attempted { attempt := true } := by
  rw [attempt, wp_bind]
  intro s γ hInv hγ ch closing s' hx
  cases hx
  by_cases hclosing : s.closing = true
  · refine ⟨{ attempt := true }, ?_, ?_⟩
    · simp only [hclosing, Bool.not_true, Bool.and_false, Bool.false_eq_true, if_false]
      rw [← hγ, update_eq_self]
      exact hInv
    · rw [wp_done, if_pos hclosing]
      exact ⟨rfl, rfl, rfl, rfl, by simp⟩
  · have hopen : s.closing = false := by simpa using hclosing
    refine ⟨{ attempt := true, inside := true }, ?_, ?_⟩
    · simp only [hopen, Bool.not_false, Bool.and_true, if_true]
      exact hInv.enter hγ hopen
    · rw [wp_done, if_neg hclosing, wp_bind]
      intro s γ hInv hγ ch area s' hx
      cases hx
      refine ⟨_, hInv.shared hγ, ?_⟩
      rw [wp_done, wp_bind]
      refine wp_touch (by rfl) (.inl rfl) fun resolved => ?_
      split
      · exact attempted_none (by simp)
      · refine .bind <| wp_touch (by rfl) (.inl rfl) fun failure => ?_
        split
        · exact attempted_none (by simp)
        · exact wp_lockUnderMutex

/-- What a call leaves its thread with: a guard in hand exactly if it says so. -/
def Answered (answer : Answer) (v : Local) : Prop :=
  ∃ hand : Option Guard, v = { hand := hand } ∧ (hand.isSome = true ↔ answer = .guard)

theorem wp_tryLockOnce : wp (system W) Inv t (tryLockOnce name) Answered {} := by
  rw [tryLockOnce, wp_bind]
  intro s γ hInv hγ ch r s' hx
  cases hx
  refine ⟨_, hInv.countIn hγ, ?_⟩
  rw [wp_done]
  refine wp_then wp_attempt_body fun answer v hdone => ?_
  obtain ⟨hatt, hcontrol, hclosed, hdrained, hhand⟩ := hdone
  rw [wp_bind]
  intro s γ hInv hγ ch r s' hx
  simp only [system, exec, Option.some.injEq, Prod.mk.injEq] at hx
  obtain ⟨-, rfl⟩ := hx
  exact ⟨_, hInv.countOut hγ hatt hcontrol hclosed hdrained, v.hand, rfl, hhand⟩

/-! ### Migrations -/

section Migrating

variable (hW : Fintype.card W < 2 ^ 32)
include hW

/-- The record of a thread that holds the control mutex. -/
def Controls (v : Local) : Prop := ∃ closed drained, v = migrating closed drained

variable {Q : Unit → Local → Prop}

omit hW in
theorem wp_storeClosing (hv : Controls v) (closing : Bool)
    (h : Q () (migrating closing false)) :
    wp (system W) Inv t (act (.storeClosing closing)) Q v := by
  obtain ⟨closed, drained, rfl⟩ := hv
  intro s γ hInv hγ ch r s' hx
  cases hx
  exact ⟨_, hInv.storeClosing hγ closing, h⟩

theorem wp_drain (turns : Nat) :
    wp (system W) Inv t (drain turns) (fun drained v => v = migrating true drained)
      (migrating true false) := by
  induction turns with
  | zero => rfl
  | succ turns ih =>
    rw [drain, wp_bind]
    intro s γ hInv hγ ch holders s' hx
    cases hx
    by_cases hzero : s.holders = 0
    · refine ⟨migrating true true, ?_, ?_⟩
      · rw [if_pos hzero]
        exact hInv.drain hW hγ hzero
      · rw [wp_done, if_pos hzero]
        rfl
    · refine ⟨migrating true false, ?_, ?_⟩
      · rw [if_neg hzero, ← hγ, update_eq_self]
        exact hInv
      · rw [wp_done, if_neg hzero]
        exact ih

theorem wp_closeAndDrain (hv : Controls v) : wp (system W) Inv t closeAndDrain
      (fun drained v => if drained then v = migrating true true else Controls v) v := by
  rw [closeAndDrain, wp_bind]
  refine wp_storeClosing hv true ?_
  refine .bind <| wp_quiet (.perform (by trivial)) fun turns => ?_
  refine wp_seq (wp_drain hW turns) fun drained => ?_
  cases drained with
  | true => rfl
  | false =>
    rw [if_neg (by simp), wp_bind]
    exact wp_storeClosing ⟨_, _, rfl⟩ false ⟨_, _, rfl⟩

omit hW [Fintype W] [DecidableEq W] in
theorem quiet_rejoin (names : Nat) : (rejoin names : Proc W (Option Error)).Only Quiet := by
  induction names with
  | zero => exact .pure _
  | succ names ih =>
    refine .bind (.perform trivial) fun refused => ?_
    split
    · exact ih
    · split
      · exact ih
      · exact .pure _

theorem wp_migrateLocked (hv : Controls v) :
    wp (system W) Inv t migrateLocked (fun _ => Controls) v := by
  rw [migrateLocked]
  refine wp_then (wp_closeAndDrain hW hv) fun drained v hdrained => ?_
  cases drained with
  | false => exact hdrained
  | true =>
    replace hdrained : v = migrating true true := hdrained
    subst hdrained
    rw [if_pos rfl, wp_bind]
    refine wp_quiet (.perform (by trivial)) fun refused => ?_
    split
    · exact ⟨_, _, rfl⟩
    · rw [wp_bind]
      intro s γ hInv hγ ch failure s' hx
      refine ⟨migrating true true, ?_, ?_⟩
      · rw [← hγ, update_eq_self]
        cases ch <;> cases hx
        split
        · exact hInv.attach hγ
        · exact hInv.setServing s.serving none
      · rw [wp_done]
        split
        · exact ⟨_, _, rfl⟩
        · refine .bind <| wp_quiet (.perform (by trivial)) fun joined => ?_
          refine .bind <| wp_quiet (quiet_rejoin joined) fun failure => ?_
          split
          · exact ⟨_, _, rfl⟩
          · exact .bind <| wp_storeClosing ⟨_, _, rfl⟩ false ⟨_, _, rfl⟩

omit hW in
theorem wp_lockControl (h : Q () (migrating false false)) :
    wp (system W) Inv t (act .lockControl) Q {} := by
  intro s γ hInv hγ ch r s' hx
  replace hx : exec t .lockControl ch s = some (r, s') := hx
  obtain ⟨hfree, ⟨⟩⟩ := of_unless hx
  exact ⟨_, hInv.lockControl hγ (by simpa using hfree), h⟩

omit hW in
theorem wp_unlockControl (hv : Controls v) (h : Q () {}) :
    wp (system W) Inv t (act .unlockControl) Q v := by
  obtain ⟨closed, drained, rfl⟩ := hv
  intro s γ hInv hγ ch r s' hx
  cases hx
  exact ⟨_, hInv.unlockControl hγ, h⟩

theorem wp_migrate : wp (system W) Inv t migrate (fun _ v => v = {}) {} := by
  rw [migrate, wp_bind]
  refine wp_lockControl ?_
  refine .bind <| wp_quiet (.perform (by trivial)) fun serving => ?_
  split
  · exact .bind <| wp_unlockControl ⟨_, _, rfl⟩ rfl
  · refine wp_then (wp_migrateLocked hW ⟨_, _, rfl⟩) fun result v hv => ?_
    refine .bind <| wp_unlockControl hv ?_
    split <;> rfl

/-! ### Calls -/

theorem wp_tryLock (turns : Nat) : wp (system W) Inv t (tryLock name turns) Answered {} := by
  have hempty : ∀ {answer : Answer}, answer ≠ .guard → Answered answer {} := fun hne =>
    ⟨none, rfl, by simp [hne]⟩
  induction turns with
  | zero =>
    rw [tryLock, wp_bind]
    exact wp_quiet (.perform (by trivial)) fun _ => hempty (by simp)
  | succ turns ih =>
    have hagain {k : Except Error Bool → Proc W Answer}
        (hthrew : ∀ e, k (.error e) = pure (.threw e)) (hretry : ∀ u, k (.ok u) = tryLock name turns) :
        wp (system W) Inv t (migrate >>= k) Answered {} := by
      refine wp_seq (wp_migrate hW) fun result => ?_
      cases result with
      | error e =>
        rw [hthrew]
        exact hempty (by simp)
      | ok u =>
        rw [hretry]
        exact ih
    rw [tryLock, wp_bind]
    refine wp_quiet (.perform (by trivial)) fun left => ?_
    split
    · refine wp_then wp_tryLockOnce fun answer v hanswer => ?_
      obtain ⟨hand, rfl, hhand⟩ := hanswer
      have hnone : answer ≠ .guard → hand = none := by
        intro hne
        rcases hand with _ | g
        · rfl
        · exact absurd (hhand.mp rfl) hne
      split
      · exact ⟨hand, rfl, hhand⟩
      · exact ⟨hand, rfl, hhand⟩
      · -- empty-handed: it comes back only where the area is gone or the door closed
        rw [hnone (by simp), wp_bind]
        refine wp_quiet (.perform (by trivial)) fun serving => ?_
        split
        · refine .bind <| wp_quiet (.perform (by trivial)) fun closing => ?_
          split
          · exact hagain (fun _ => rfl) fun _ => rfl
          · exact hempty (by simp)
        · exact hagain (fun _ => rfl) fun _ => rfl
    · exact hempty (by simp)

theorem wp_tryLockCall : wp (system W) Inv t (tryLockCall name) (fun _ v => v = {}) {} := by
  rw [tryLockCall, wp_bind]
  refine wp_quiet (.perform (by trivial)) fun turns => ?_
  refine wp_then (wp_tryLock hW turns) fun answer v hanswer => ?_
  obtain ⟨hand, rfl, hhand⟩ := hanswer
  split
  · obtain ⟨g, rfl⟩ := Option.isSome_iff_exists.mp (hhand.mpr rfl)
    intro s γ hInv hγ ch r s' hx
    cases hx
    exact ⟨_, hInv.returnGuard hγ, rfl⟩
  · rename_i hne
    rcases hand with _ | g
    · rfl
    · exact absurd (hhand.mp rfl) (by simpa using hne)

omit hW in
theorem wp_unlockCall (index : Nat) :
    wp (system W) Inv t (unlockCall index) (fun _ v => v = {}) {} := by
  rw [unlockCall, wp_bind]
  intro s γ hInv hγ ch picked s' hx
  replace hx : exec t (.pickGuard index) ch s = some (picked, s') := hx
  rw [exec] at hx
  split at hx
  · cases hx
    refine ⟨{}, ?_, rfl⟩
    rw [← hγ, update_eq_self]
    exact hInv
  · rename_i g hg
    cases hx
    exact ⟨_, hInv.pickGuard hγ hg, wp_unlock rfl rfl⟩

omit hW in
theorem wp_moveCall (index : Nat) (u : W) :
    wp (system W) Inv t (act (.moveGuard index u)) (fun _ v => v = {}) {} := by
  intro s γ hInv hγ ch r s' hx
  replace hx : exec t (.moveGuard index u) ch s = some (r, s') := hx
  rw [exec] at hx
  refine ⟨{}, ?_, rfl⟩
  rw [← hγ, update_eq_self]
  split at hx
  · cases hx
    exact hInv
  · rename_i g hg
    cases hx
    exact hInv.moveGuard hg u

theorem wp_exchangeAcrossMigration (hv : Controls v) :
    wp (system W) Inv t exchangeAcrossMigration (fun _ => Controls) v := by
  rw [exchangeAcrossMigration, wp_bind]
  refine wp_quiet (.perform (by trivial)) fun refused => ?_
  split
  · exact hv
  · refine .bind <| wp_quiet (.perform (by trivial)) fun serving => ?_
    split
    · exact hv
    · refine wp_then (wp_migrateLocked hW hv) fun result v hv => ?_
      split
      · exact hv
      · exact hv
      · refine .bind <| wp_quiet (.perform (by trivial)) fun refused => ?_
        split <;> exact hv
  · exact hv

theorem wp_controlCall : wp (system W) Inv t controlCall (fun _ v => v = {}) {} := by
  rw [controlCall, wp_bind]
  refine wp_lockControl ?_
  refine wp_then (wp_exchangeAcrossMigration hW ⟨_, _, rfl⟩) fun _ v hv => ?_
  exact wp_unlockControl hv rfl

theorem outline : Outline (system W) Inv fun _ v => v = {} where
  start := by
    intro i call s γ code hInv hrest hstart
    refine ⟨γ i, by rwa [update_eq_self], ?_⟩
    rw [hrest]
    cases call with
    | tryLock name =>
      cases hstart
      exact wp_tryLockCall hW
    | unlock index =>
      cases hstart
      exact wp_unlockCall index
    | move index target =>
      cases hstart
      exact wp_moveCall index target
    | control =>
      cases hstart
      exact wp_controlCall hW
  env := by
    intro e s γ s' hInv he
    cases e
    cases he
    exact ⟨γ, hInv.setServing false s.migrating, fun i => by simp [system]⟩

end Migrating

omit [DecidableEq W] in
theorem inv_connected : Inv (connected W).shared (fun _ => {}) where
  view := fun _ => rfl
  counted :=
    { law := by simp [connected, State.attempts, State.guardsOut, State.guardsOf]
      word := by simp [connected]
      out := by simp [connected, State.guardsOut, State.guardsOf] }
  doored := fun _ => .unlocked rfl rfl rfl fun h => h
  calm := fun _ => ⟨fun _ _ _ => rfl, fun _ _ h => (by cases h), rfl, rfl, rfl⟩

/-! ### Results -/

section Guarded

/-- Thread 0 locks on the fast path. The daemon goes; thread 1's attempt comes
back empty and migrates. Thread 0 then unlocks. -/
def lockThenReplace : List (Action (Fin 2) Choice (Call (Fin 2)) Env) :=
  .start 0 (.tryLock "a") :: execs 0 [.nat 1, .flag true, .any, .any, .any, .domain (some 1),
    .failure none, .flag true, .any, .flag true, .any, .any, .any] ++ [.env .daemonGone] ++
  .start 1 (.tryLock "b") :: execs 1 [.nat 2, .flag true, .any, .any, .any, .domain (some 2),
    .failure none, .flag true, .any, .flag false, .any, .any, .any, .any, .any] ++
  -- the migration: the count reads 0 and the area is replaced
  execs 1 [.any, .any, .any, .nat 1, .any, .failure none, .failure none, .nat 0, .any, .any,
    .flag false]

def unlockAfterwards : List (Action (Fin 2) Choice (Call (Fin 2)) Env) :=
  .start 0 (.unlock 0) :: execs 0 [.any, .any, .flag false, .any, .any, .any]

/-- **One lock is enough.** The count reads 0 with a guard out, the drain
answers true and the area is replaced under that guard; its unlock writes to the
mapping that is gone, and the count wraps below zero. -/
theorem replaced_under_guard : (∃ c, (system (Fin 2)).Reachable (connected (Fin 2)) c ∧
      c.shared.holders = 0 ∧ c.shared.attempts = 0 ∧ c.shared.guards 0 = [⟨0, 1⟩] ∧
      c.shared.area = 1 ∧ c.shared.drainedInUse = true ∧ c.shared.replacedInUse = true) ∧
    ∃ c, (system (Fin 2)).Reachable (connected (Fin 2)) c ∧
      c.shared.holders = 2 ^ 32 - 1 ∧ c.shared.attempts = 0 ∧ c.shared.guardsOut = 0 ∧
      c.shared.stale = true :=
  ⟨System.exists_of_run _ _ lockThenReplace (by decide),
    System.exists_of_run _ _ (lockThenReplace ++ unlockAfterwards) (by decide)⟩

end Guarded

/-- **The count is exact until a guard is built.** In every run the count and
the guards ever built add up, as 32-bit words, to the attempts in flight and the
guards out. As long as no guard has been built the count is that number itself,
no drain has answered true with a holder about, no area has been replaced in use
and no access has gone to a replaced area. -/
theorem holders_exact (hW : Fintype.card W < 2 ^ 32) {c : Config W (Op W) Ret (State W)}
    (h : (system W).Reachable (connected W) c) : (c.shared.holders + c.shared.built) % 2 ^ 32 =
      (c.shared.attempts + c.shared.guardsOut) % 2 ^ 32 ∧
    (c.shared.built = 0 →
      c.shared.holders = c.shared.attempts + c.shared.guardsOut ∧
      c.shared.drainedInUse = false ∧ c.shared.replacedInUse = false ∧
      c.shared.stale = false) := by
  have hinit : Outlined (system W) Inv (fun _ v => v = {}) (connected W) :=
    outlined_of_idle (fun _ => rfl) inv_connected fun _ => rfl
  obtain ⟨γ, hInv, -⟩ := (outline hW).reachable hinit h
  exact ⟨hInv.counted.law, fun hbuilt =>
    ⟨hInv.counted.exact hW hbuilt, (hInv.calm hbuilt).unharmed⟩⟩

/-- Thread 0 migrates without a guard about, and thread 1 is asking. -/
def migrateThenAsk : List (Action (Fin 2) Choice (Call (Fin 2)) Env) :=
  .env .daemonGone :: .start 0 .control :: execs 0 [.any, .failure (some (.controlRefused "gone")),
    .any, .any, .nat 1, .any, .failure none, .failure none, .nat 0, .any, .failure none, .any] ++
  .start 1 (.tryLock "a") :: execs 1 [.nat 1, .flag true, .any, .any, .any, .domain (some 1)]

theorem holders_exact_migrateThenAsk :
    ∃ c, (system (Fin 2)).Reachable (connected (Fin 2)) c ∧ c.shared.area = 1 ∧
      c.shared.attempts = 1 ∧ c.shared.holders = c.shared.attempts + c.shared.guardsOut ∧
      c.shared.replacedInUse = false := by
  obtain ⟨c, hc, harea, hattempts, hbuilt⟩ := System.exists_of_run (system (Fin 2)) (connected (Fin 2))
    migrateThenAsk (P := fun c => c.shared.area = 1 ∧ c.shared.attempts = 1 ∧
      c.shared.built = 0) (by decide)
  obtain ⟨hexact, -, hreplaced, -⟩ := (holders_exact (by decide) hc).2 hbuilt
  exact ⟨c, hc, harea, hattempts, hexact, hreplaced⟩

end Cme.Client
