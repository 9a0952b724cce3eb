import Cme.Interleave.Observe
import Cme.SharedSession.Cohort

/-!
# SharedSession — how long a cohort keeps the ownership

Whatever the threads and their deadlines do, a guard stands on ownership that its tier
holds, and `batch` bounds the guards that one acquisition of the domain serves: the
guard that would exceed the cap gives the ownership back first, so a remote peer
waits for no more than the cap's guards. A cap of 0 still admits one.
-/

namespace Cme.SharedSession.Batch

open Function Interleave

variable {n : Nat}

/-- The tier of a session whose cap is never set above `top`. -/
def cappedSystem (n top : Nat) : System (Fin n) Op Op.Ret (State n) Choice Call Env :=
  { system n with
    env := fun e s => match e with
      | .setCohortCap cap => if cap ≤ top then env e s else none }

/-- The guards that the ownership in hand has served. -/
def served (_ : Fin n) (o : Op) (_ : State n) (count : Nat) : Nat :=
  match o with
  | .storeHeld => 0
  | .returnGuard => count + 1
  | _ => count

/-- The thread has the mutex. -/
def within : Spot → Bool
  | .out | .waiting | .failed => false
  | _ => true

/-- Ownership in hand has served the guards that `batch` counts. -/
def Fair (x : State n × Nat) : Prop := x.1.held = true → x.1.batch = x.2

def Fits (top : Nat) (x : State n × Nat) : Spot → Prop
  | .entered | .inside | .keeping | .dropping => Fair x
  | .owned => x.1.held = true ∧ x.1.batch = x.2
  | .counted batch => x.1.held = true ∧ x.1.batch = x.2 ∧ batch = x.2
  | .due => x.1.held = true ∧ x.1.batch = x.2 ∧ x.2 < max 1 top
  | .adding batch => x.1.held = true ∧ batch = x.2 ∧ x.2 < max 1 top
  | .ready => x.1.held = true ∧ x.1.batch = x.2 + 1 ∧ x.2 < max 1 top
  -- fresh ownership: the count starts again only once `held` is stored
  | .blank => x.1.batch = 0
  | .vacant => x.1.batch = 0 ∧ x.1.held = false
  | .guarding => x.1.held = true ∧ x.1.batch = x.2 ∧ 1 ≤ x.2 ∧ x.2 ≤ max 1 top
  | .dropped => x.1.held = false
  | _ => True

structure Inv (top : Nat) (x : State n × Nat) (γ : Fin n → Spot) : Prop where
  monitor : Monitor (fun x : State n × Nat => x.1.mutex) within Fair (Fits top) x γ
  guards : ∀ i, x.1.stage i = .guarding ↔ γ i = .guarding
  cap : x.1.cohortCap ≤ top

abbrev watchedSystem (n top : Nat) : System (Fin n) Op Op.Ret (State n × Nat) Choice Call Env :=
  (cappedSystem n top).observe served

variable {top : Nat} {x x' : State n × Nat} {γ : Fin n → Spot} {i : Fin n} {v : Spot}

/-- What a spot says is about the ownership, the batch and the count. -/
theorem Fits.congr (h : Fits top x v) (hheld : x'.1.held = x.1.held)
    (hbatch : x'.1.batch = x.1.batch) (hcount : x'.2 = x.2) : Fits top x' v := by
  cases v <;> simp only [Fits, Fair, hheld, hbatch, hcount] at h ⊢ <;> exact h

/-- An operation leaves the cap alone, and the stages of the other threads. -/
theorem exec_frame {o : Op} {ch : Choice} {s s' : State n} {r : o.Ret}
    (hx : exec i o ch s = some (r, s')) :
    s'.cohortCap = s.cohortCap ∧ ∀ j, j ≠ i → s'.stage j = s.stage j := by
  unfold exec at hx
  repeat' split at hx
  all_goals cases hx
  all_goals first
    | exact ⟨rfl, fun j hj => update_of_ne hj _ _⟩
    | exact ⟨rfl, fun _ _ => rfl⟩

theorem stage_setStage (s : State n) (i : Fin n) (stage : Stage) :
    (s.setStage i stage).stage i = stage := update_self ..

section Step

variable {o : Op} {f : o.Ret → Spot} {ch : Choice} {r : o.Ret} {s' : State n}

/-- The thread with the mutex, until it gives the mutex back. -/
theorem Fits.step (h : Fits top x v) (hv : within v = true) (hf : follow v o = some f)
    (hcap : x.1.cohortCap ≤ top) (hx : exec i o ch x.1 = some (r, s')) (ho : o ≠ .unlockMutex) :
    s'.mutex = x.1.mutex ∧ within (f r) = true ∧ Fits top (s', served i o x.1 x.2) (f r) ∧
      ((x.1.stage i = .guarding ↔ v = .guarding) → (s'.stage i = .guarding ↔ f r = .guarding)) := by
  -- one case for each spot and the operation that follows it
  unfold follow at hf
  split at hf
  all_goals first | cases hv; done | cases ho rfl | skip
  all_goals cases ch
  all_goals first | cases hf | obtain ⟨rfl, hf⟩ := Option.ite_none_right_eq_some.mp hf; cases hf
  all_goals first | cases hx; done | cases hx
  all_goals grind [Fits, Fair, served, within, State.setStage, stage_setStage]

/-- The mutex goes back where `batch` is what the ownership has served, or it is gone. -/
theorem Fits.fair {f : Unit → Spot} (h : Fits top x v) (hf : follow v .unlockMutex = some f) :
    f () = .out ∧ Fair x := by
  cases v <;> cases hf
  -- the three spots a give-back follows: a lock that failed, a guard kept, a guard dropped
  case vacant => exact ⟨rfl, fun hheld => by cases hheld.symm.trans h.2⟩
  case keeping => exact ⟨rfl, h⟩
  case dropped => exact ⟨rfl, fun hheld => by cases hheld.symm.trans h⟩

/-- A thread without the mutex takes it, or stays without it. -/
theorem step_outside (hv : within v = false) (hf : follow v o = some f) {s : State n}
    (hx : exec i o ch s = some (r, s')) (count : Nat) :
    (s'.held = s.held ∧ s'.batch = s.batch ∧ served i o s count = count ∧
      s'.stage i ≠ .guarding ∧ f r ≠ .guarding) ∧
    (s.mutex = none ∧ s'.mutex = some i ∧ f r = .entered ∨
      s'.mutex = s.mutex ∧ within (f r) = false) := by
  cases v <;> cases hv <;> cases o <;> cases hf
  case out.refl.addWaiter.refl | failed.refl.subtractWaiter.refl =>
    cases hx
    grind [served, within, State.setStage, stage_setStage]
  case waiting.refl.lockMutex.refl =>
    obtain ⟨hfree, hx⟩ := Option.ite_none_right_eq_some.mp hx
    cases hx
    grind [served, State.setStage, stage_setStage]
  case waiting.refl.tryLockMutex.refl =>
    cases ch with
    | any => cases hx
    | flag b =>
      cases b with
      | false =>
        cases hx
        grind [served, within, State.setStage, stage_setStage]
      | true =>
        obtain ⟨hfree, hx⟩ := Option.ite_none_right_eq_some.mp hx
        cases hx
        grind [served, State.setStage, stage_setStage]

end Step

theorem Inv.step {o : Op} {f : o.Ret → Spot} {ch : Choice} {r : o.Ret} (h : Inv top x γ)
    (hf : follow (γ i) o = some f) (hx : (watchedSystem n top).exec i o ch x = some (r, x')) :
    Inv top x' (update γ i (f r)) := by
  obtain ⟨s', count⟩ := x'
  obtain ⟨hx, rfl⟩ := System.observe_exec hx
  obtain ⟨hcap, hother⟩ := exec_frame (s := x.1) hx
  have hmoved : Monitor (fun x : State n × Nat => x.1.mutex) within Fair (Fits top)
      (s', served i o x.1 x.2) (update γ i (f r)) ∧
        (s'.stage i = .guarding ↔ f r = .guarding) := by
    -- the mutex splits the steps: its owner may change the ownership, nobody else does
    by_cases hin : within (γ i) = true
    · have hfits := h.monitor.fits i hin
      by_cases ho : o = .unlockMutex
      · subst ho
        obtain ⟨hout, hfair⟩ := hfits.fair hf
        obtain ⟨-, hx⟩ := Option.ite_none_right_eq_some.mp hx
        cases hx
        rw [hout]
        refine ⟨h.monitor.exit hin rfl rfl hfair, ?_⟩
        simp [stage_setStage]
      · obtain ⟨hmutex, hin', hfits', hself⟩ := hfits.step hin hf h.cap hx ho
        exact ⟨h.monitor.inside hin hin' hmutex hfits', hself (h.guards i)⟩
    · have hout := Bool.of_not_eq_true hin
      obtain ⟨⟨hheld, hbatch, hcount, hself, hspot⟩, hmove⟩ := step_outside hout hf hx x.2
      refine ⟨?_, iff_of_false hself hspot⟩
      have hfair : Fair x → Fair (s', served i o x.1 x.2) := fun hq hh =>
        hbatch.trans ((hq (hheld ▸ hh)).trans hcount.symm)
      rcases hmove with ⟨hfree, hmine, hinside⟩ | ⟨hmutex, hout'⟩
      · rw [hinside]
        exact h.monitor.enter hfree hmine rfl hfair
      · refine h.monitor.beside hmutex (fun _ => hfair)
          (fun _ _ _ hj => hj.congr hheld hbatch hcount) fun j => ?_
        by_cases hj : j = i
        · subst hj
          rw [update_self]
          exact .inr ⟨hout, hout'⟩
        · exact .inl (update_of_ne hj _ _)
  refine ⟨hmoved.1, fun j => ?_, hcap ▸ h.cap⟩
  by_cases hj : j = i
  · subst hj
    rw [update_self]
    exact hmoved.2
  · rw [update_of_ne hj, hother j hj]
    exact h.guards j

theorem outline : Outline (watchedSystem n top) (Inv top) fun _ => Spot.Rest where
  start i call x γ p h hrest hp := by
    refine ⟨γ i, by rwa [update_eq_self], ?_⟩
    exact wp_of_staged (g := id) (fun _ _ _ _ _ _ _ _ h hv hf => h.step (hv ▸ hf))
      (staged_start hp hrest (h.guards i))
  env e x γ x' h hx := by
    obtain ⟨s', hs, rfl⟩ := Option.map_eq_some_iff.mp hx
    obtain ⟨cap⟩ := e
    obtain ⟨hcap, hs⟩ := Option.ite_none_right_eq_some.mp hs
    cases hs
    exact ⟨γ, ⟨h.monitor.beside rfl (fun _ hq => hq) (fun _ _ _ hj => hj.congr rfl rfl rfl)
      fun _ => .inl rfl, h.guards, hcap⟩, fun _ => rfl⟩

/-- **A cohort is bounded.** Whatever the threads, their deadlines and the session's own
lock do, a guard's thread has the tier's mutex and the tier has the ownership; no other
thread has a guard; and the ownership has served at most `top` guards, or one, since it
was last taken from the session. -/
theorem cohort_bounded (n : Nat) {cohortCap top : Nat} (hcap : cohortCap ≤ top)
    {c : Config (Fin n) Op Op.Ret (State n × Nat)}
    (h : ((cappedSystem n top).observe served).Reachable ((idle n cohortCap).watched 0) c) {i : Fin n}
    (hi : c.shared.1.stage i = .guarding) :
    c.shared.1.mutex = some i ∧ c.shared.1.held = true ∧
      (∀ j, c.shared.1.stage j = .guarding → j = i) ∧ 1 ≤ c.shared.2 ∧ c.shared.2 ≤ max 1 top := by
  have hidle : Outlined (watchedSystem n top) (Inv top) (fun _ => Spot.Rest) ((idle n cohortCap).watched 0) := by
    refine outlined_of_idle (γ := fun _ => .out) (fun _ => rfl) ⟨⟨fun _ => ⟨?_, ?_⟩, fun _ => ?_,
      fun _ => ?_⟩, fun _ => ⟨?_, ?_⟩, hcap⟩ fun _ => .inl rfl
    all_goals exact fun h => by cases h
  obtain ⟨γ, hI, -⟩ := outline.reachable hidle h
  -- what the spot of a guard says is the bound
  have hv := (hI.guards i).mp hi
  have hin : within (γ i) = true := by rw [hv]; rfl
  have hfits := hI.monitor.fits i hin
  rw [hv] at hfits
  refine ⟨(hI.monitor.holder_iff i).mpr hin, hfits.1, fun j hj => ?_, hfits.2.2⟩
  -- two guards would be two owners of the mutex
  by_contra hji
  have hout := hI.monitor.out_of_ne hin hji
  rw [(hI.guards j).mp hj] at hout
  cases hout

theorem cohort_bounded_handOver : ∃ c : Config (Fin 2) Op Op.Ret (State 2 × Nat),
    ((cappedSystem 2 16).observe served).Reachable ((idle 2 16).watched 0) c ∧
      c.shared.1.stage 1 = .guarding ∧ c.shared.1.mutex = some 1 ∧ c.shared.1.held = true ∧
      (∀ j, c.shared.1.stage j = .guarding → j = 1) ∧ 1 ≤ c.shared.2 ∧ c.shared.2 ≤ max 1 16 := by
  obtain ⟨c, hc, hat⟩ := System.exists_of_run ((cappedSystem 2 16).observe served)
    ((idle 2 16).watched 0) (handOver.take 25)
    (P := fun c => c.shared.1.stage 1 = .guarding ∧ c.shared.2 = 2) (by decide +kernel)
  have hi := (hat).1
  exact ⟨c, hc, hi, cohort_bounded 2 (Nat.le_refl 16) hc hi⟩

end Cme.SharedSession.Batch
