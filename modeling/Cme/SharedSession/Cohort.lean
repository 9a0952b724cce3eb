import Cme.Interleave.CountedLatch
import Cme.Interleave.Monitor
import Cme.SharedSession.Course

/-!
# SharedSession — who the ownership is kept for

A guard's destructor keeps the peer's ownership for a waiter it counts. A timed
waiter is counted from before its attempt at the mutex until after it, also when the
attempt has failed, so the ownership may be kept for a thread that is on its way out
(`kept_for_nobody`). Where no attempt fails once a destructor has decided, and no
destructor decides while a failed waiter is still counted (`calm`), some waiter that
was counted takes the mutex, and ownership is held only while the tier is in use.
-/

namespace Cme.SharedSession

open Function Interleave

variable {n : Nat}

/-- No destructor reads the count while a failed attempt is still in it, and a timed
attempt fails only at a mutex whose holder has not read the count. -/
def calm (_ : Fin n) (o : Op) (ch : Choice) (s : State n) : Bool :=
  match o, ch with
  | .loadWaiters, _ => decide (∀ j, s.stage j ≠ .failed)
  | .tryLockMutex, .flag false => decide (∃ j, s.mutex = some j ∧ s.stage j ≠ .releasing)
  | _, _ => true

/-- What a thread knows. -/
inductive View where
  | out
  | waiting
  | failed
  | entered
  | inside
  /-- In its call, and the ownership has been given up. -/
  | vacant
  | guarding
  /-- Its destructor saw a waiter. -/
  | keeping
  /-- Its destructor saw none. -/
  | dropping
  | dropped
  deriving DecidableEq

namespace View

def stage : View → Stage
  | out => .out
  | waiting => .waiting
  | failed => .failed
  | entered => .entered
  | inside | vacant => .inside
  | guarding => .guarding
  | keeping | dropping | dropped => .releasing

/-- The thread has the mutex. -/
def within : View → Bool
  | out | waiting | failed => false
  | _ => true

end View

/-- Some thread is at the mutex. -/
def State.Awaited (s : State n) : Prop := ∃ j, s.stage j = .waiting

def Quiet (s : State n) : Prop := s.held = true → s.Awaited

def Fits (s : State n) : View → Prop
  | .vacant | .dropped => s.held = false
  | .keeping => s.Awaited
  | _ => True

structure Inv (s : State n) (γ : Fin n → View) : Prop where
  monitor : Monitor State.mutex View.within Quiet Fits s γ
  stages : ∀ i, s.stage i = (γ i).stage
  waiters : s.waiters = ∑ i, (s.stage i).counted

variable {s s' : State n} {γ : Fin n → View} {i : Fin n} {v : View}

theorem counted_update (f : Fin n → Stage) (i : Fin n) (stage : Stage) :
    (∑ j, (update f i stage j).counted) + (f i).counted =
      (∑ j, (f j).counted) + stage.counted := by
  have hcomp : (fun j => (update f i stage j).counted) =
      update (fun j => (f j).counted) i stage.counted := by
    funext j
    exact Function.apply_update (fun _ => Stage.counted) f i stage j
  rw [hcomp]
  exact sum_update_add _ i _

theorem stages_update (h : ∀ j, s.stage j = (γ j).stage) (hs : s'.stage = update s.stage i v.stage)
    (j : Fin n) : s'.stage j = (update γ i v j).stage := by
  rw [hs]
  by_cases hj : j = i
  · subst hj
    rw [update_self, update_self]
  · rw [update_of_ne hj, update_of_ne hj, h j]

/-- Where the ownership is kept, a thread at the mutex was counted. -/
theorem Inv.awaited (h : Inv s γ) (hi : (γ i).within = true) (hme : (s.stage i).counted = 0)
    (hfailed : ∀ j, s.stage j ≠ .failed) (hpos : s.waiters ≠ 0) : s.Awaited := by
  obtain ⟨j, -, hj⟩ : ∃ j ∈ Finset.univ, (s.stage j).counted ≠ 0 := by
    refine Finset.exists_ne_zero_of_sum_ne_zero ?_
    rw [← h.waiters]
    exact hpos
  refine ⟨j, ?_⟩
  have hji : j ≠ i := by
    rintro rfl
    exact hj hme
  have hout := h.monitor.out_of_ne hi hji
  have hstage := h.stages j
  -- who is counted is waiting, has failed, or has the mutex
  cases hv : γ j
  all_goals rw [hv] at hstage hout
  case waiting => exact hstage
  case out =>
    rw [hstage] at hj
    exact absurd rfl hj
  case failed => exact absurd hstage (hfailed j)
  all_goals cases hout

/-- A waiter stays at the mutex when another thread moves. -/
theorem Inv.awaits {stage : Stage} {j : Fin n} (h : Inv s γ) (hi : γ i ≠ .waiting)
    (hj : s.stage j = .waiting) : ∃ j, update s.stage i stage j = .waiting := by
  refine ⟨j, ?_⟩
  have hji : j ≠ i := by
    rintro rfl
    rw [h.stages j] at hj
    cases hv : γ j
    all_goals rw [hv] at hj
    case waiting => exact hi hv
    all_goals cases hj
  rw [update_of_ne hji, hj]

/-! ### Operations -/

abbrev calmSystem (n : Nat) : System (Fin n) Op Op.Ret (State n) Choice Call Env :=
  (system n).restrict calm

/-- What is left of a spot when the batch does not matter. -/
def View.of : Spot → View
  | .out => out
  | .waiting => waiting
  | .failed => failed
  | .entered => entered
  | .vacant => vacant
  | .guarding => guarding
  | .keeping => keeping
  | .dropping => dropping
  | .dropped => dropped
  | _ => inside

/-- An operation of the thread with the mutex that moves its own stage. -/
theorem Inv.move {v' : View} (hI : Inv s γ) (hi : (γ i).within = true) (hv' : v'.within = true)
    (hmutex : s'.mutex = s.mutex) (hstage : s'.stage = update s.stage i v'.stage)
    (hwaiters : s'.waiters + (γ i).stage.counted = s.waiters + v'.stage.counted)
    (hfits : Fits s' v') : Inv s' (update γ i v') := by
  refine ⟨hI.monitor.inside hi hv' hmutex hfits, stages_update hI.stages hstage, ?_⟩
  have hsum := counted_update s.stage i v'.stage
  rw [hstage]
  rw [hI.stages i, ← hI.waiters] at hsum
  omega

theorem Inv.aside {v' : View} (hI : Inv s γ) (hi : (γ i).within = false) (hv' : v'.within = false)
    (hmutex : s'.mutex = s.mutex) (hheld : s'.held = s.held)
    (hstage : s'.stage = update s.stage i v'.stage)
    (hwaiters : s'.waiters + (γ i).stage.counted = s.waiters + v'.stage.counted)
    (hawaited : (∀ j, s.mutex = some j → γ j = .keeping) → s.Awaited → s'.Awaited) :
    Inv s' (update γ i v') := by
  refine ⟨hI.monitor.beside hmutex (fun hfree hq hh => ?_) (fun j hj _ hf => ?_) fun j => ?_,
    stages_update hI.stages hstage, ?_⟩
  · refine hawaited (fun j hj => ?_) (hq (hheld ▸ hh))
    cases hfree.symm.trans hj
  · cases hv : γ j
    all_goals rw [hv] at hf
    case vacant | dropped => exact hheld.trans hf
    case keeping =>
      refine hawaited (fun k hk => ?_) hf
      obtain rfl := Option.some.inj (hj.symm.trans hk)
      exact hv
    all_goals trivial
  · by_cases hj : j = i
    · subst hj
      rw [update_self]
      exact .inr ⟨hi, hv'⟩
    · exact .inl (update_of_ne hj _ _)
  · have hsum := counted_update s.stage i v'.stage
    rw [hstage]
    rw [hI.stages i, ← hI.waiters] at hsum
    omega

theorem Inv.take (hI : Inv s γ) (hγ : γ i = .waiting) (hfree : s.mutex = none) :
    Inv ({ s with mutex := some i }.setStage i .entered) (update γ i .entered) := by
  refine ⟨hI.monitor.enter hfree rfl rfl fun _ => trivial, stages_update hI.stages rfl, ?_⟩
  have hsum := counted_update s.stage i .entered
  rw [hI.stages i, hγ, ← hI.waiters] at hsum
  exact (Nat.add_right_cancel hsum).symm

theorem Inv.counted_le (hI : Inv s γ) (i : Fin n) : (γ i).stage.counted ≤ s.waiters := by
  rw [hI.waiters, ← hI.stages i]
  exact Finset.single_le_sum (fun j _ => Nat.zero_le (s.stage j).counted) (Finset.mem_univ i)

/-- An operation of the thread with the mutex that leaves the stages alone. -/
theorem Inv.plain {v' : View} (hI : Inv s γ) (hi : (γ i).within = true) (hv' : v'.within = true)
    (hsame : v'.stage = (γ i).stage) (hmutex : s'.mutex = s.mutex) (hstage : s'.stage = s.stage)
    (hwaiters : s'.waiters = s.waiters) (hfits : Fits s' v') : Inv s' (update γ i v') := by
  refine hI.move hi hv' hmutex ?_ ?_ hfits
  · rw [hsame, ← hI.stages, update_eq_self, hstage]
  · rw [hsame, hwaiters]

/-- A waiter that has failed is no longer counted, and was not the one awaited. -/
theorem Inv.giveUp (hI : Inv s γ) (hγ : γ i = .failed) :
    Inv ({ s with waiters := s.waiters - 1 }.setStage i .out) (update γ i .out) := by
  have hpos := hI.counted_le i
  rw [hγ] at hpos
  refine hI.aside (by rw [hγ]; rfl) rfl rfl rfl rfl ?_ ?_
  · rw [hγ]
    exact Nat.sub_add_cancel hpos
  · rintro - ⟨j, hj⟩
    exact hI.awaits (by rw [hγ]; simp) hj

/-- A destructor that counts a waiter keeps the ownership for a thread at the mutex. -/
theorem Inv.decide (hI : Inv s γ) (hγ : γ i = .guarding) (hcalm : ∀ j, s.stage j ≠ .failed) :
    Inv (s.setStage i .releasing) (update γ i (.of (if s.waiters = 0 then .dropping else .keeping))) := by
  have hin : (γ i).within = true := by rw [hγ]; rfl
  have hzero : (s.stage i).counted = 0 := by rw [hI.stages i, hγ]; rfl
  split
  · exact hI.move hin rfl rfl rfl (by rw [hγ]; rfl) trivial
  · rename_i hsome
    refine hI.move hin rfl rfl rfl (by rw [hγ]; rfl) ?_
    obtain ⟨j, hj⟩ := hI.awaited hin hzero hcalm hsome
    exact hI.awaits (by rw [hγ]; simp) hj

/-- The mutex is given back where nothing is kept for nobody. -/
theorem Inv.unlock (hI : Inv s γ) (hv : γ i = .vacant ∨ γ i = .dropped ∨ γ i = .keeping) :
    Inv ({ s with mutex := none }.setStage i .out) (update γ i .out) := by
  have hin : (γ i).within = true := by rcases hv with hv | hv | hv <;> rw [hv] <;> rfl
  have hzero : (γ i).stage.counted = 0 := by rcases hv with hv | hv | hv <;> rw [hv] <;> rfl
  have hfits := hI.monitor.fits i hin
  refine ⟨hI.monitor.exit hin rfl rfl fun hheld => ?_, stages_update hI.stages rfl, ?_⟩
  · rcases hv with hv | hv | hv
    all_goals rw [hv] at hfits
    · cases hheld.symm.trans hfits
    · cases hheld.symm.trans hfits
    · -- the waiter it keeps the ownership for is another thread
      obtain ⟨j, hj⟩ := hfits
      exact hI.awaits (by rw [hv]; simp) hj
  · have hsum := counted_update s.stage i .out
    rw [hI.stages i, hzero, ← hI.waiters] at hsum
    exact hsum.symm

/-- An operation on neither the mutex nor the waiters. -/
def Op.still : Op → Bool
  | .loadHeld | .loadBatch | .loadCap | .storeBatch _ | .resetHeld | .storeHeld => true
  | .sessionLock | .expired => true
  | _ => false

section Step

variable {spot : Spot} {o : Op} {f : o.Ret → Spot} {ch : Choice} {r : o.Ret}

theorem still_follow (ho : o.still = true) (hf : follow spot o = some f)
    (hx : exec i o ch s = some (r, s')) : (View.of spot).within = true ∧
      (View.of (f r)).within = true ∧ (View.of (f r)).stage = (View.of spot).stage ∧
      (s'.mutex = s.mutex ∧ s'.stage = s.stage ∧ s'.waiters = s.waiters) ∧
      (Fits s (.of spot) → Fits s' (.of (f r))) := by
  unfold follow at hf
  split at hf
  all_goals first | cases ho; done | cases ch
  all_goals first | cases hf | obtain ⟨rfl, hf⟩ := Option.ite_none_right_eq_some.mp hf; cases hf
  all_goals first | cases hx; done | cases hx
  all_goals grind [Fits, View.of, View.within, View.stage]

/-- Every operation of the code keeps the invariant of a calm tier. -/
theorem Inv.step (hI : Inv s γ) (hγ : γ i = .of spot) (hf : follow spot o = some f)
    (hx : (calmSystem n).exec i o ch s = some (r, s')) : Inv s' (update γ i (.of (f r))) := by
  obtain ⟨hcalm, hx⟩ := System.restrict_exec.mp hx
  by_cases ho : o.still = true
  · obtain ⟨hin, hin', hstage, ⟨hmutex, hstages, hwaiters⟩, hfits⟩ := still_follow ho hf hx
    rw [← hγ] at hin hstage hfits
    exact hI.plain hin hin' hstage hmutex hstages hwaiters (hfits (hI.monitor.fits i hin))
  cases o
  all_goals first | exact absurd rfl ho | cases spot <;> cases hf
  case neg.addWaiter.out.refl =>
    cases hx
    exact hI.aside (by rw [hγ]; rfl) rfl rfl rfl rfl (by rw [hγ]; rfl) fun _ _ =>
      ⟨i, update_self _ _ _⟩
  case neg.lockMutex.waiting.refl =>
    obtain ⟨hfree, hx⟩ := Option.ite_none_right_eq_some.mp hx
    cases hx
    exact hI.take hγ hfree
  case neg.tryLockMutex.waiting.refl =>
    cases ch with
    | any => cases hx
    | flag b =>
      cases b with
      | true =>
        obtain ⟨hfree, hx⟩ := Option.ite_none_right_eq_some.mp hx
        cases hx
        exact hI.take hγ hfree
      | false =>
        cases hx
        obtain ⟨j, hj, hstage⟩ := of_decide_eq_true hcalm
        refine hI.aside (by rw [hγ]; rfl) rfl rfl rfl rfl (by rw [hγ]; rfl) ?_
        -- the holder has not decided to keep anything
        intro hkeeping _
        rw [hI.stages j, hkeeping j hj] at hstage
        exact absurd rfl hstage
  case neg.subtractWaiter.failed.refl =>
    cases hx
    rw [if_neg (by rw [hI.stages i, hγ]; decide)]
    exact hI.giveUp hγ
  case neg.subtractWaiter.entered.refl =>
    cases hx
    have hpos := hI.counted_le i
    rw [hγ] at hpos
    rw [if_pos (by rw [hI.stages i, hγ]; rfl)]
    refine hI.move (by rw [hγ]; rfl) rfl rfl rfl ?_ trivial
    rw [hγ]
    exact Nat.sub_add_cancel hpos
  case neg.returnGuard.ready.refl =>
    cases hx
    exact hI.move (by rw [hγ]; rfl) rfl rfl rfl (by rw [hγ]; rfl) trivial
  case neg.loadWaiters.guarding.refl =>
    cases hx
    exact hI.decide hγ (of_decide_eq_true hcalm)
  all_goals
    obtain ⟨-, hx⟩ := Option.ite_none_right_eq_some.mp hx
    cases hx
    refine hI.unlock ?_
    rw [hγ]
    simp [View.of]

end Step

/-- A call ends with a guard, or with nothing. -/
def Rest (_ : Fin n) (v : View) : Prop := v = .out ∨ v = .guarding

/-! ### Runs -/

theorem outline : Outline (calmSystem n) Inv Rest where
  start i call s γ p hI hrest hp := by
    refine ⟨γ i, by rwa [update_eq_self], ?_⟩
    have hcode : ∀ spot : Spot, spot.Rest → γ i = .of spot →
        wp (calmSystem n) Inv i p (fun _ => Rest i) (.of spot) := by
      intro spot hspot hγ
      refine wp_of_staged (fun _ _ _ _ _ _ _ _ h => h.step) ((staged_start hp hspot ?_).mono ?_)
      · rw [hI.stages i, hγ]
        rcases hspot with rfl | rfl <;> simp [View.of, View.stage]
      · rintro _ v (rfl | rfl)
        · exact .inl rfl
        · exact .inr rfl
    rcases hrest with hv | hv
    · rw [hv]
      exact hcode .out (.inl rfl) hv
    · rw [hv]
      exact hcode .guarding (.inr rfl) hv
  env e s γ s' hI hs := by
    obtain ⟨cap⟩ := e
    cases hs
    refine ⟨γ, ⟨hI.monitor.beside rfl (fun _ hquiet => hquiet) (fun j _ _ hfits => ?_)
      fun _ => .inl rfl, hI.stages, hI.waiters⟩, fun _ => rfl⟩
    cases hv : γ j
    all_goals rw [hv] at hfits
    all_goals exact hfits

theorem inv_fresh (n cohortCap : Nat) : Inv (fresh n cohortCap) fun _ => .out where
  monitor := ⟨fun _ => ⟨fun h => (nomatch h), fun h => (nomatch h)⟩, fun _ h => (nomatch h),
    fun _ h => (nomatch h)⟩
  stages _ := rfl
  waiters := (Finset.sum_eq_zero fun _ _ => rfl).symm

/-- **Ownership is held for use.** On a calm tier, where no guard is alive and no call
is in progress, the peer holds no ownership. -/
theorem held_in_use (n cohortCap : Nat) {c : Config (Fin n) Op Op.Ret (State n)}
    (h : ((system n).restrict calm).Reachable (idle n cohortCap) c)
    (hout : ∀ i, c.shared.stage i = .out) : c.shared.held = false := by
  have hidle : Outlined (calmSystem n) Inv Rest (idle n cohortCap) :=
    outlined_of_idle (γ := fun _ => .out) (fun _ => rfl) (inv_fresh n cohortCap)
      fun _ => .inl rfl
  obtain ⟨γ, hI, -⟩ := outline.reachable hidle h
  have hnone : c.shared.mutex = none := by
    by_contra hsome
    obtain ⟨i, hi⟩ := Option.ne_none_iff_exists'.mp hsome
    have hin := (hI.monitor.holder_iff i).mp hi
    have hstage := (hI.stages i).symm.trans (hout i)
    cases hv : γ i
    all_goals rw [hv] at hin hstage
    case out | waiting | failed => cases hin
    all_goals cases hstage
  by_contra hheld
  obtain ⟨j, hj⟩ := hI.monitor.quiet hnone (Bool.eq_true_of_not_eq_false hheld)
  rw [hout j] at hj
  cases hj

/-- Thread 0 has a guard, thread 1 waits for it and gets the ownership it keeps. -/
def handOver : List (Action (Fin 2) Choice Call Env) :=
  let p : Fin 2 := ⟨0, Nat.zero_lt_two⟩
  let q : Fin 2 := ⟨1, Nat.one_lt_two⟩
  .start p .lock :: steps p 6 ++ .exec p (.flag true) :: steps p 4 ++ .start q .lock :: steps q 1 ++
    .start p .destroyGuard :: steps p 2 ++ steps q 8 ++ .start q .destroyGuard :: steps q 4

theorem held_in_use_handOver : ∃ c, ((system 2).restrict calm).Reachable (idle 2 16) c ∧
    (∀ i, c.shared.stage i = .out) ∧ c.shared.held = false := by
  obtain ⟨c, hc, hout⟩ := System.exists_of_run ((system 2).restrict calm) (idle 2 16)
    handOver (P := fun c => ∀ i, c.shared.stage i = .out) (by decide +kernel)
  exact ⟨c, hc, hout, held_in_use 2 16 hc hout⟩

/-- Thread 0 has a guard, thread 1's attempt fails, and the guard is destroyed before
thread 1 is no longer counted. -/
def giveUpLate : List (Action (Fin 2) Choice Call Env) :=
  let p : Fin 2 := ⟨0, Nat.zero_lt_two⟩
  let q : Fin 2 := ⟨1, Nat.one_lt_two⟩
  .start p .lock :: steps p 6 ++ .exec p (.flag true) :: steps p 4 ++
    .start q .tryLock :: execs q [.any, .flag false] ++ .start p .destroyGuard :: steps p 2 ++
    steps q 1

/-- The ownership is kept for a waiter that has given up: every call has returned, no
guard is alive, and the peer holds the domain. -/
theorem kept_for_nobody : ∃ c, (system 2).Reachable (idle 2 16) c ∧
    (∀ i, c.threads i = .done ()) ∧ (∀ i, c.shared.stage i = .out) ∧
      c.shared.held = true :=
  System.exists_of_run _ _ giveUpLate (by decide +kernel)

end Cme.SharedSession
