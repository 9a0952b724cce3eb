import Cme.Daemon.Manager
import Cme.Interleave.Stage

/-!
# Daemon — the sleep of a requester

`awaitState` (`shared/protocol/shared_area.hpp`) reads `seq`, then the state, and
sleeps on the `seq` it read; the worker stores its answer, moves `seq` and wakes.
Here `waitOnWord` is the code of `shared/util/futex.cpp`: a spin on the word, then
the futex, whose kernel half compares the word and queues the sleeper in one step.
The other operations are those of `Cme.Daemon`.

One slot, its requester and one worker. The requester waits as often as it likes and
publishes what it likes between its waits; the worker grants and refuses. Everybody
else may do anything but write the two words of the slot.

`bumps` counts how often `seq` moved since the requester last read it. The word has
32 bits: `unwrapped` are the runs in which it has not come round when the requester
asks the kernel to compare it.
-/

namespace Cme.Daemon.Sleep

open Function Interleave Interleave.Prog

inductive Party where
  | requester
  | worker
  deriving DecidableEq, Repr

/-- How a futex wait returns. -/
inductive FutexResult where
  | woken
  | again
  | timedOut
  | interrupted
  | other
  deriving DecidableEq, Repr

inductive Op where
  | area (o : Daemon.Op)
  /-- A look at the word while spinning. -/
  | spinLoad
  /-- The kernel's comparison. No result: the caller is queued. -/
  | futexWait (expected : Nat)
  | futexReturn
  deriving DecidableEq, Repr

abbrev Ret : Op → Type
  | .area o => Daemon.Ret o
  | .spinLoad => Nat
  | .futexWait _ => Option FutexResult
  | .futexReturn => FutexResult

abbrev Proc (α : Type) := Prog Op Ret α

abbrev act (o : Op) : Proc (Ret o) := Prog.perform o

/-! ### `shared/util/futex.cpp` -/

/-- The looks of a spin; none where the spin has no time. -/
def spinLooks (expected : Nat) : Nat → Proc Bool
  | 0 => pure false
  | looks + 1 => do
    if (← act .spinLoad) ≠ expected then pure true else spinLooks expected looks

def spinOnWord (expected : Nat) : Proc Bool := do
  let looks ← act (.area .askTurns)
  spinLooks expected looks

def callFutexWait (expected : Nat) : Proc FutexResult := do
  match ← act (.futexWait expected) with
  | some result => pure result
  | none => act .futexReturn

/-- A signal ends a wait without ending the loop. -/
def sleepLoop (expected : Nat) : Nat → Proc Bool
  | 0 => do
    act (.area .spin)
    pure false
  | turns + 1 => do
    if ← act (.area .askRemaining) then
      match ← callFutexWait expected with
      | .woken => pure true
      | .again => pure true
      | .timedOut => pure false
      | .interrupted => sleepLoop expected turns
      | .other => pure true
    else pure false

def sleepOnWord (expected : Nat) : Proc Bool := do
  let turns ← act (.area .askTurns)
  sleepLoop expected turns

def waitOnWord (expected : Nat) : Proc Bool := do
  if ← spinOnWord expected then pure true else sleepOnWord expected

/-- What an access of the area is at this level. -/
def access : (o : Daemon.Op) → Proc (Daemon.Ret o)
  | .waitOnWord _ seen => do
    let _ ← waitOnWord seen
    pure ()
  | o => act (.area o)

/-! ### The system -/

structure State where
  area : Daemon.State
  /-- The requester is queued in the kernel. -/
  asleep : Bool
  bumps : Nat

inductive Choice where
  | area (ch : Daemon.Choice)
  | kernel (result : FutexResult)

def Party.tid : Party → Tid
  | .requester => .requester 0
  | .worker => .worker 0

def bumpsAfter (d : DomainId) (i : Party) (o : Daemon.Op) (bumps : Nat) : Nat :=
  if o = .addSeq d then bumps + 1
  else if i = .requester ∧ o = .loadSeq d then 0
  else bumps

def exec (lim : Limits) (d : DomainId) (i : Party) :
    (o : Op) → Choice → State → Option (Ret o × State)
  | .area o, .area ch, s => (Daemon.exec lim i.tid o ch s.area).map fun x => (x.1,
      { area := x.2
        -- a wake takes every sleeper of the word off the queue
        asleep := s.asleep && !decide (o = .wakeRequester d)
        bumps := bumpsAfter d i o s.bumps })
  | .spinLoad, _, s => some (s.area.requests.seq d, s)
  | .futexWait _, .kernel .other, s => some (some .other, s)
  | .futexWait expected, .kernel _, s =>
    if s.area.requests.seq d = expected then some (none, { s with asleep := true })
    else some (some .again, s)
  | .futexReturn, .kernel result, s =>
    -- on the queue it may be a timeout, a signal, or a wake from nowhere
    if s.asleep then some (result, { s with asleep := false }) else some (.woken, s)
  | _, _, _ => none

inductive Call where
  | await
  | publish (next : RequestState)
  | grant
  | refuse (failure : Int)

/-- The requester waits or publishes, the worker grants or refuses. -/
def start (d : DomainId) : Party → Call → State → Option (Proc Unit)
  | .requester, .await, _ => some (do let _ ← (awaitState d).refine access)
  | .requester, .publish next, _ => some ((publish d next).refine access)
  | .worker, .grant, _ => some ((grant d).refine access)
  | .worker, .refuse failure, _ => some ((refuse d failure).refine access)
  | _, _, _ => none

/-- Others leave an area in which the slot's two words are as they were. -/
inductive Env where
  | others (area : Daemon.State)

def env (d : DomainId) : Env → State → Option State
  | .others area, s =>
    if area.requests.seq d = s.area.requests.seq d ∧ area.turns.state d = s.area.turns.state d then
      some { s with area := area }
    else none

def system (lim : Limits) (d : DomainId) : System Party Op Ret State Choice Call Env where
  exec := exec lim d
  start := start d
  env := env d
  kills := fun _ _ => false

/-- The word has not come round since it was read. -/
def current (_ : Party) : Op → Choice → State → Bool
  | .futexWait _, _, s => decide (s.bumps < 2 ^ 32)
  | _, _, _ => true

def unwrapped (lim : Limits) (d : DomainId) : System Party Op Ret State Choice Call Env :=
  (system lim d).restrict current

/-- Nobody is at the slot. -/
def idle (area : Daemon.State) : Config Party Op Ret State where
  shared := ⟨area, false, 0⟩
  threads := fun _ => .done ()

/-- The code comes to its `wakeRequester` after at most the bump that precedes it. -/
inductive WakeToCome (d : DomainId) : Proc Unit → Prop where
  | now (k : Unit → Proc Unit) : WakeToCome d (.call (.area (.wakeRequester d)) k)
  | bump (k : Unit → Proc Unit) : WakeToCome d (k ()) →
      WakeToCome d (.call (.area (.addSeq d)) k)

/-! ### The stages -/

inductive Stage where
  | out
  /-- `seq` read, the state not yet. -/
  | seqRead (seen : Nat)
  /-- The state was no answer. -/
  | unsettled (seen : Nat)
  /-- The kernel queued the requester. -/
  | queued (seen : Nat)
  /-- The worker has stored a state and not moved `seq`. -/
  | stored
  /-- The worker has moved `seq` and not woken anybody. -/
  | bumped
  deriving DecidableEq, Repr

def Stage.seen : Stage → Option Nat
  | .seqRead seen | .unsettled seen | .queued seen => some seen
  | _ => none

/-- Where the kernel's comparison leaves the requester. -/
def afterCompare (seen : Nat) : Option FutexResult → Stage
  | none => .queued seen
  | some .interrupted => .unsettled seen
  | some _ => .out

def requesterStage (d : DomainId) : Stage → (o : Op) → Option (Ret o → Stage)
  | .out, .area .askTurns => some fun _ => .out
  | .out, .area .spin => some fun _ => .out
  | .out, .area (.storeState _ _) => some fun _ => .out
  | .out, .area (.addSeq _) => some fun _ => .out
  | .out, .area (.loadSeq e) => if e = d then some fun seen => .seqRead seen else none
  | .seqRead seen, .area (.awaitLoad e) =>
    if e = d then some fun state => if isAcquireAnswered state then .out else .unsettled seen
    else none
  | .unsettled seen, .area .askTurns => some fun _ => .unsettled seen
  | .unsettled seen, .spinLoad => some fun _ => .unsettled seen
  | .unsettled seen, .area .askRemaining =>
    some fun remains => if remains then .unsettled seen else .out
  | .unsettled _, .area .spin => some fun _ => .out
  | .unsettled _, .area (.loadSeq e) => if e = d then some fun seen => .seqRead seen else none
  | .unsettled seen, .futexWait expected =>
    if expected = seen then some (afterCompare seen) else none
  | .queued seen, .futexReturn =>
    some fun result => if result = .interrupted then .unsettled seen else .out
  | _, _ => none

/-- The accesses that write a slot's two words. -/
def moves : Daemon.Op → Bool
  | .storeState _ _ | .addSeq _ => true
  | _ => false

def storesAt (d : DomainId) : Daemon.Op → Bool
  | .storeState e _ => decide (e = d)
  | _ => false

/-- A store is followed by the bump, and the bump by the wake. -/
def workerStage (d : DomainId) : Stage → (o : Op) → Option (Ret o → Stage)
  | .out, .area o =>
    if moves o then (if storesAt d o then some fun _ => .stored else none) else some fun _ => .out
  | .stored, .area o => if o = .addSeq d then some fun _ => .bumped else none
  | .bumped, .area o => if o = .wakeRequester d then some fun _ => .out else none
  | _, _ => none

def stages (d : DomainId) : Party → Stage → (o : Op) → Option (Ret o → Stage)
  | .requester => requesterStage d
  | .worker => workerStage d

variable {lim : Limits} {d : DomainId}

/-- At the stage that owes a wake the code has it next. -/
theorem wakeToCome_of_bumped {p : Proc Unit} {Q : Unit → Stage → Prop} (hQ : ¬ Q () .bumped)
    (h : p.Staged (workerStage d) Q .bumped) : WakeToCome d p := by
  cases p with
  | done a => exact absurd h hQ
  | call o k =>
    obtain ⟨f, hf, -⟩ := h
    cases o with
    | area o =>
      by_cases ho : o = .wakeRequester d
      · subst ho
        exact .now k
      · rw [workerStage, if_neg ho] at hf
        cases hf
    | spinLoad | futexWait _ | futexReturn => cases hf

theorem wakeToCome_of_stored {p : Proc Unit} {Q : Unit → Stage → Prop} (hQ : ¬ Q () .stored)
    (hQ' : ¬ Q () .bumped) (h : p.Staged (workerStage d) Q .stored) : WakeToCome d p := by
  cases p with
  | done a => exact absurd h hQ
  | call o k =>
    obtain ⟨f, hf, hk⟩ := h
    cases o with
    | area o =>
      by_cases ho : o = .addSeq d
      · subst ho
        rw [workerStage, if_pos rfl] at hf
        cases hf
        exact .bump k (wakeToCome_of_bumped hQ' (hk ()))
      · rw [workerStage, if_neg ho] at hf
        cases hf
    | spinLoad | futexWait _ | futexReturn => cases hf

/-! ### The code goes through its stages -/

theorem staged_spinLooks (seen : Nat) (looks : Nat) :
    (spinLooks seen looks).Staged (requesterStage d) (fun _ v => v = .unsettled seen)
      (.unsettled seen) := by
  induction looks with
  | zero => exact .pure rfl
  | succ looks ih => exact .next _ rfl fun r => .ite (fun _ => .pure rfl) fun _ => ih

theorem staged_callFutexWait (seen : Nat) : (callFutexWait seen).Staged (requesterStage d)
      (fun result v => v = if result = .interrupted then .unsettled seen else .out)
      (.unsettled seen) := by
  refine .next _ (if_pos rfl) fun r => ?_
  cases r with
  | none => exact .perform _ rfl fun _ => rfl
  | some result => cases result <;> exact .pure rfl

theorem staged_sleepLoop (seen : Nat) (turns : Nat) :
    (sleepLoop seen turns).Staged (requesterStage d) (fun _ v => v = .out)
      (.unsettled seen) := by
  induction turns with
  | zero => exact .next _ rfl fun _ => .pure rfl
  | succ turns ih =>
    refine .next _ rfl fun remains => ?_
    cases remains with
    | false => exact .pure rfl
    | true =>
      refine .bind (staged_callFutexWait seen) fun result v hv => ?_
      subst hv
      cases result with
      | interrupted => exact ih
      | woken | again | timedOut | other => exact .pure rfl

theorem staged_waitOnWord (seen : Nat) :
    (waitOnWord seen).Staged (requesterStage d) (fun _ v => v = .out ∨ v = .unsettled seen)
      (.unsettled seen) := by
  have hspin : (spinOnWord seen).Staged (requesterStage d) (fun _ v => v = .unsettled seen)
      (.unsettled seen) := .next _ rfl fun looks => staged_spinLooks seen looks
  refine .bind hspin fun moved v hv => ?_
  subst hv
  refine .ite (fun _ => .pure (.inr rfl)) fun _ => .next _ rfl fun turns => ?_
  exact (staged_sleepLoop seen turns).mono fun _ _ hv => .inl hv

/-- A turn of the wait starts where the last one left the requester. -/
theorem staged_awaitStateLoop (turns : Nat) {v : Stage}
    (hv : v = .out ∨ ∃ seen, v = .unsettled seen) :
    ((awaitStateLoop d turns).refine access).Staged (requesterStage d) (fun _ v => v = .out) v := by
  induction turns generalizing v with
  | zero => rcases hv with rfl | ⟨seen, rfl⟩ <;> exact .next _ rfl fun _ => .pure rfl
  | succ turns ih =>
    have hread : requesterStage d v (.area (.loadSeq d)) = some fun seen => .seqRead seen := by
      rcases hv with rfl | ⟨seen, rfl⟩ <;> exact if_pos rfl
    refine .next _ hread fun seen => .next _ (if_pos rfl) fun state => ?_
    show Staged _ _ _ (Prog.refine access (if isAcquireAnswered state then pure (some state) else do
      if ← Daemon.act .askRemaining then
        Daemon.act (.waitOnWord d seen)
        awaitStateLoop d turns
      else pure none))
    by_cases hanswered : isAcquireAnswered state = true
    · rw [if_pos hanswered, if_pos hanswered]
      exact .pure rfl
    · rw [if_neg hanswered, if_neg hanswered]
      refine .next _ rfl fun remains => ?_
      cases remains with
      | false => exact .pure rfl
      | true =>
        have hwait : (access (.waitOnWord d seen)).Staged (requesterStage d)
            (fun _ v => v = .out ∨ v = .unsettled seen) (.unsettled seen) :=
          (staged_waitOnWord seen).bind fun _ v hv => .pure hv
        exact hwait.bind fun _ v hv => ih (hv.imp_right fun heq => ⟨seen, heq⟩)

theorem staged_awaitState :
    ((awaitState d).refine access).Staged (requesterStage d) (fun _ v => v = .out) .out :=
  .next _ rfl fun turns => staged_awaitStateLoop turns (.inl rfl)

variable {next : RequestState}

theorem staged_publish :
    ((publish d next).refine access).Staged (requesterStage d) (fun _ v => v = .out) .out :=
  .next _ rfl fun _ => .next _ rfl fun _ => .pure rfl

/-- What a worker does between its answers. -/
theorem workerStage_aside {o : Daemon.Op} (ho : moves o = false) :
    workerStage d .out (.area o) = some fun _ => .out := by
  rw [workerStage, ho]
  rfl

theorem workerStage_store :
    workerStage d .out (.area (.storeState d next)) = some fun _ => .stored := by
  simp [workerStage, moves, storesAt]

theorem staged_answer {α : Type} {p : Proc α} {Q : α → Stage → Prop}
    (hp : p.Staged (workerStage d) Q .out) : (do
      act (.area (.storeState d next))
      act (.area (.addSeq d))
      act (.area (.wakeRequester d))
      p).Staged (workerStage d) Q .out :=
  .next _ workerStage_store fun _ => .next _ (if_pos rfl) fun _ => .next _ (if_pos rfl) fun _ => hp

theorem staged_refuse (failure : Int) :
    ((refuse d failure).refine access).Staged (workerStage d) (fun _ v => v = .out) .out :=
  .next _ (workerStage_aside rfl) fun _ => staged_answer (p := pure ()) rfl

theorem staged_answerGrant :
    ((answerGrant d).refine access).Staged (workerStage d) (fun _ v => v = .out) .out :=
  .next _ (workerStage_aside rfl) fun _ => staged_answer (p := pure ()) rfl

theorem staged_grant :
    ((grant d).refine access).Staged (workerStage d) (fun _ v => v = .out) .out := by
  refine staged_answer (.next _ (workerStage_aside rfl) fun hasTurn => ?_)
  cases hasTurn with
  | true => exact staged_answerGrant
  | false =>
    refine .next _ (workerStage_aside rfl) fun name => .next _ (workerStage_aside rfl) fun joined => ?_
    cases joined with
    | error e => exact staged_refuse _
    | ok resolved =>
      refine .next _ (workerStage_aside rfl) fun taken => ?_
      cases taken with
      | error e => exact staged_refuse _
      | ok turn =>
        refine .next _ (workerStage_aside rfl) fun _ => .next _ (workerStage_aside rfl) fun _ => ?_
        exact staged_answerGrant

/-! ### The slot's two words -/

section Words

variable {t : Tid} {ch : Daemon.Choice} {s s' : Daemon.State}

theorem exec_addSeq {e : DomainId} {r : Unit}
    (hx : Daemon.exec lim t (.addSeq e) ch s = some (r, s')) : s'.turns.state = s.turns.state ∧
      s'.requests.seq = update s.requests.seq e ((s.requests.seq e + 1) % 2 ^ 32) := by
  cases hx
  exact ⟨rfl, rfl⟩

theorem exec_storeState {e : DomainId} {next : RequestState} {r : Unit}
    (hx : Daemon.exec lim t (.storeState e next) ch s = some (r, s')) :
    s'.requests.seq = s.requests.seq := by
  cases hx
  rfl

variable {o : Daemon.Op} {r : Daemon.Ret o}

theorem execTurns_unmoved (ho : moves o = false) {turns turns' : Turns}
    (hx : execTurns t o ch turns = some (r, turns')) : turns'.state = turns.state := by
  cases execTurns_turned hx with
  | stored d next => cases ho
  | entered d | unlocked d => cases t <;> rfl
  | counting d | uncounting d | released d | aside => rfl

theorem execRequests_unmoved (ho : moves o = false) {q q' : Requests}
    (hx : execRequests o ch q = some (r, q')) : q'.seq = q.seq := by
  cases o
  case addSeq => cases ho
  case loadSeq | loadResult | storeResult | addWaiter | subtractWaiter | hasWaiters | addAbandonCount =>
    cases hx
    rfl
  all_goals cases hx

theorem exec_unmoved (ho : moves o = false) (hx : Daemon.exec lim t o ch s = some (r, s')) :
    s'.turns.state = s.turns.state ∧ s'.requests.seq = s.requests.seq := by
  cases exec_stepped hx with
  | turns _ h => exact ⟨execTurns_unmoved ho h, rfl⟩
  | requests h => exact ⟨rfl, execRequests_unmoved ho h⟩
  | registry h | region h | took | still => exact ⟨rfl, rfl⟩

end Words

/-! ### The invariant -/

/-- What the state has to do with the requester's stage and the worker's. -/
structure Sound (d : DomainId) (s : State) (v w : Stage) : Prop where
  range : s.area.requests.seq d < 2 ^ 32
  /-- The word is the one read, moved on by the bumps since. -/
  counted : ∀ seen, v.seen = some seen →
    seen < 2 ^ 32 ∧ s.area.requests.seq d = (seen + s.bumps) % 2 ^ 32
  queued : s.asleep = true → ∃ seen, v = .queued seen
  /-- No answer stands behind a word that has not moved, unless its bump is to come. -/
  unmoved : ∀ seen, v = .unsettled seen ∨ v = .queued seen → s.bumps = 0 →
    isAcquireAnswered (s.area.turns.state d) = false ∨ w = .stored
  /-- No answer stands before a sleeper, unless its wake is to come. -/
  asleep : s.asleep = true →
    isAcquireAnswered (s.area.turns.state d) = false ∨ w = .stored ∨ w = .bumped

section Invariant

variable {s s' : State} {v w : Stage} {seen : Nat} {i : Party} {ch : Choice}

theorem Sound.awake (h : Sound d s v w) (hv : ∀ seen, v ≠ .queued seen) : s.asleep = false := by
  by_contra hasleep
  obtain ⟨seen, hq⟩ := h.queued (Bool.of_not_eq_false hasleep)
  exact hv seen hq

theorem sound_out (hrange : s.area.requests.seq d < 2 ^ 32) (hawake : s.asleep = false) :
    Sound d s .out w where
  range := hrange
  counted := fun _ hseen => nomatch hseen
  queued := fun hasleep => absurd (hawake.symm.trans hasleep) Bool.false_ne_true
  unmoved := fun seen hstage => by rcases hstage with h | h <;> cases h
  asleep := fun hasleep => absurd (hawake.symm.trans hasleep) Bool.false_ne_true

/-- The words and the bumps are as they were, and nobody fell asleep. -/
theorem Sound.keep (h : Sound d s v w) (hseq : s'.area.requests.seq d = s.area.requests.seq d)
    (hstate : s'.area.turns.state d = s.area.turns.state d) (hbumps : s'.bumps = s.bumps)
    (hasleep : s'.asleep = true → s.asleep = true) : Sound d s' v w where
  range := hseq ▸ h.range
  counted := by
    rw [hseq, hbumps]
    exact h.counted
  queued := fun hs => h.queued (hasleep hs)
  unmoved := by
    rw [hstate, hbumps]
    exact h.unmoved
  asleep := by
    rw [hstate]
    exact fun hs => h.asleep (hasleep hs)

/-- A word read modulo its width is the one it was exactly when it has not moved. -/
theorem Sound.bumps_eq_zero (h : Sound d s v w) (hseen : v.seen = some seen)
    (hcurrent : s.bumps < 2 ^ 32) (heq : s.area.requests.seq d = seen) : s.bumps = 0 := by
  obtain ⟨hlt, hcounted⟩ := h.counted seen hseen
  rw [hcounted] at heq
  omega

variable {o : Daemon.Op} {r : Daemon.Ret o}

theorem exec_area (hx : (unwrapped lim d).exec i (.area o) ch s = some (r, s')) :
    (∃ ch', Daemon.exec lim i.tid o ch' s.area = some (r, s'.area)) ∧
      s'.asleep = (s.asleep && !decide (o = .wakeRequester d)) ∧
      s'.bumps = bumpsAfter d i o s.bumps := by
  obtain ⟨-, hx⟩ := System.restrict_exec.mp hx
  cases ch with
  | kernel result => cases hx
  | area ch =>
    obtain ⟨⟨r', area'⟩, harea, ⟨⟩⟩ := Option.map_eq_some_iff.mp hx
    exact ⟨⟨ch, harea⟩, rfl, rfl⟩

theorem exec_area_unmoved (ho : moves o = false)
    (hx : (unwrapped lim d).exec i (.area o) ch s = some (r, s')) :
    s'.area.requests.seq d = s.area.requests.seq d ∧
      s'.area.turns.state d = s.area.turns.state d ∧ (s'.asleep = true → s.asleep = true) := by
  obtain ⟨⟨ch', harea⟩, hasleep, -⟩ := exec_area hx
  obtain ⟨hstate, hseq⟩ := exec_unmoved ho harea
  refine ⟨congrFun hseq d, congrFun hstate d, fun hs => ?_⟩
  rw [hasleep] at hs
  exact (Bool.and_eq_true_iff.mp hs).1

theorem exec_area_range (h : s.area.requests.seq d < 2 ^ 32)
    (hx : (unwrapped lim d).exec i (.area o) ch s = some (r, s')) :
    s'.area.requests.seq d < 2 ^ 32 := by
  obtain ⟨⟨ch', harea⟩, -, -⟩ := exec_area hx
  by_cases ho : moves o = false
  · rw [(exec_unmoved ho harea).2]
    exact h
  cases o
  case storeState e next =>
    rw [exec_storeState harea]
    exact h
  case addSeq e =>
    rw [(exec_addSeq harea).2]
    by_cases he : d = e
    · subst he
      rw [update_self]
      exact Nat.mod_lt _ (by decide)
    · rw [update_of_ne he]
      exact h
  all_goals exact absurd rfl ho

theorem Sound.leave (h : Sound d s v w) (hv : ∀ seen, v ≠ .queued seen)
    (hx : (unwrapped lim d).exec i (.area o) ch s = some (r, s')) : Sound d s' .out w := by
  refine sound_out (exec_area_range h.range hx) ?_
  rw [(exec_area hx).2.1, h.awake hv]
  rfl

theorem Sound.readSeq {r : Nat} (h : Sound d s v w) (hv : ∀ seen, v ≠ .queued seen)
    (hx : (unwrapped lim d).exec .requester (.area (.loadSeq d)) ch s = some (r, s')) :
    Sound d s' (.seqRead r) w := by
  obtain ⟨⟨ch', harea⟩, hasleep, hbumps⟩ := exec_area hx
  have hawake : s'.asleep = false := by
    rw [hasleep, h.awake hv]
    rfl
  have hzero : s'.bumps = 0 := by
    rw [hbumps, bumpsAfter, if_neg (by simp), if_pos ⟨rfl, rfl⟩]
  have hseq : s'.area.requests.seq d = s.area.requests.seq d := (exec_area_unmoved rfl hx).1
  have hr : r = s.area.requests.seq d := by
    obtain ⟨rfl, -⟩ := outcome_eq harea
    rfl
  refine ⟨hseq ▸ h.range, fun seen hseen => ?_, fun hs => ?_, fun seen hstage => ?_, fun hs => ?_⟩
  · cases hseen
    rw [hr, hseq, hzero, Nat.add_zero, Nat.mod_eq_of_lt h.range]
    exact ⟨h.range, rfl⟩
  · cases hawake.symm.trans hs
  · rcases hstage with h | h <;> cases h
  · cases hawake.symm.trans hs

theorem Sound.readState {r : RequestState} (h : Sound d s (.seqRead seen) w)
    (hx : (unwrapped lim d).exec .requester (.area (.awaitLoad d)) ch s = some (r, s')) :
    Sound d s' (if isAcquireAnswered r then .out else .unsettled seen) w := by
  split
  · exact h.leave (fun _ hq => nomatch hq) hx
  rename_i hunanswered
  obtain ⟨⟨ch', harea⟩, -, hbumps⟩ := exec_area hx
  obtain ⟨hseq, hstate, hasleep⟩ := exec_area_unmoved rfl hx
  have hr : r = s.area.turns.state d := by
    obtain ⟨rfl, -⟩ := outcome_eq harea
    rfl
  have hawake : ¬ s'.asleep = true := fun hs =>
    absurd ((h.awake fun _ hq => nomatch hq).symm.trans (hasleep hs)) Bool.false_ne_true
  have hsame : s'.bumps = s.bumps := hbumps
  refine ⟨hseq ▸ h.range, ?_, fun hs => absurd hs hawake, fun _ _ _ => .inl ?_,
    fun hs => absurd hs hawake⟩
  · rw [hseq, hsame]
    exact h.counted
  · rw [hstate, ← hr]
    simpa using hunanswered

/-- The requester asks the clock, or looks again: it knows what it knew. -/
theorem Sound.stay (h : Sound d s v w) (ho : moves o = false) (hread : o ≠ .loadSeq d)
    (hx : (unwrapped lim d).exec i (.area o) ch s = some (r, s')) : Sound d s' v w := by
  obtain ⟨hseq, hstate, hasleep⟩ := exec_area_unmoved ho hx
  refine h.keep hseq hstate ?_ hasleep
  have hbump : o ≠ .addSeq d := by
    rintro rfl
    cases ho
  rw [(exec_area hx).2.2, bumpsAfter, if_neg hbump, if_neg fun hboth => hread hboth.2]

/-- The kernel compares, and queues the requester or sends it back. -/
theorem Sound.compare {r : Option FutexResult} (h : Sound d s (.unsettled seen) w)
    (hx : (unwrapped lim d).exec .requester (.futexWait seen) ch s = some (r, s')) :
    Sound d s' (afterCompare seen r) w := by
  obtain ⟨hcurrent, hx⟩ := System.restrict_exec.mp hx
  have hawake : s.asleep = false := h.awake fun _ hq => nomatch hq
  have hback : Sound d s .out w := sound_out h.range hawake
  cases ch with
  | area ch => cases hx
  | kernel result =>
    -- a result other than these comes from the queue
    have hcompare : (if s.area.requests.seq d = seen then some (none, { s with asleep := true })
        else some (some FutexResult.again, s)) = some (r, s') →
        Sound d s' (afterCompare seen r) w := by
      intro hx
      split at hx
      · rename_i heq
        cases hx
        have hzero := h.bumps_eq_zero rfl (of_decide_eq_true hcurrent) heq
        have hbefore := h.unmoved seen (.inl rfl) hzero
        refine ⟨h.range, h.counted, fun _ => ⟨seen, rfl⟩, fun _ _ _ => hbefore, fun _ => ?_⟩
        exact hbefore.imp_right .inl
      · cases hx
        exact hback
    cases result with
    | other =>
      cases hx
      exact hback
    | woken | again | timedOut | interrupted => exact hcompare hx

theorem Sound.wakeUp {r : FutexResult} (h : Sound d s (.queued seen) w)
    (hx : (unwrapped lim d).exec .requester .futexReturn ch s = some (r, s')) :
    Sound d s' (if r = .interrupted then .unsettled seen else .out) w := by
  obtain ⟨-, hx⟩ := System.restrict_exec.mp hx
  cases ch with
  | area ch => cases hx
  | kernel result =>
    replace hx : (if s.asleep then some (result, { s with asleep := false })
      else some (FutexResult.woken, s)) = some (r, s') := hx
    split at hx
    · cases hx
      split
      · exact ⟨h.range, h.counted, fun hs => (nomatch hs),
          fun _ _ => h.unmoved seen (.inr rfl), fun hs => (nomatch hs)⟩
      · exact sound_out h.range rfl
    · rename_i hasleep
      cases hx
      exact sound_out h.range (Bool.of_not_eq_true hasleep)

theorem Sound.requester {o : Op} {f : Ret o → Stage} (h : Sound d s v w)
    (hδ : requesterStage d v o = some f) {r : Ret o}
    (hx : (unwrapped lim d).exec .requester o ch s = some (r, s')) : Sound d s' (f r) w := by
  unfold requesterStage at hδ
  split at hδ
  case h_1 | h_2 | h_3 | h_4 | h_10 =>
    cases hδ
    exact h.leave (fun _ hq => nomatch hq) hx
  case h_5 | h_11 =>
    obtain ⟨he, ⟨⟩⟩ := of_guard hδ
    subst he
    exact h.readSeq (fun _ hq => nomatch hq) hx
  case h_6 =>
    obtain ⟨he, ⟨⟩⟩ := of_guard hδ
    subst he
    exact h.readState hx
  case h_7 =>
    cases hδ
    refine h.stay rfl ?_ hx
    exact fun heq => nomatch heq
  case h_8 =>
    cases hδ
    obtain ⟨-, hx⟩ := System.restrict_exec.mp hx
    cases hx
    exact h
  case h_9 =>
    cases hδ
    cases r with
    | true =>
      refine h.stay rfl ?_ hx
      exact fun heq => nomatch heq
    | false => exact h.leave (fun _ hq => nomatch hq) hx
  case h_12 =>
    obtain ⟨he, ⟨⟩⟩ := of_guard hδ
    subst he
    exact h.compare hx
  case h_13 =>
    cases hδ
    exact h.wakeUp hx
  case h_14 => cases hδ

theorem Sound.store {next : RequestState} {r : Unit} (h : Sound d s v w)
    (hx : (unwrapped lim d).exec .worker (.area (.storeState d next)) ch s = some (r, s')) :
    Sound d s' v .stored := by
  obtain ⟨⟨ch', harea⟩, hasleep, hbumps⟩ := exec_area hx
  have hseq : s'.area.requests.seq d = s.area.requests.seq d := congrFun (exec_storeState harea) d
  have hsame : s'.bumps = s.bumps := hbumps
  refine ⟨hseq ▸ h.range, ?_, fun hs => ?_, fun _ _ _ => .inr rfl, fun _ => .inr (.inl rfl)⟩
  · rw [hseq, hsame]
    exact h.counted
  · rw [hasleep] at hs
    exact h.queued (Bool.and_eq_true_iff.mp hs).1

theorem Sound.bump {r : Unit} (h : Sound d s v w)
    (hx : (unwrapped lim d).exec .worker (.area (.addSeq d)) ch s = some (r, s')) :
    Sound d s' v .bumped := by
  obtain ⟨⟨ch', harea⟩, hasleep, hbumps⟩ := exec_area hx
  have hseq : s'.area.requests.seq d = (s.area.requests.seq d + 1) % 2 ^ 32 := by
    rw [(exec_addSeq harea).2, update_self]
  have hmore : s'.bumps = s.bumps + 1 := by
    rw [hbumps, bumpsAfter, if_pos rfl]
  refine ⟨exec_area_range h.range hx, fun seen hseen => ?_, fun hs => ?_, fun _ _ hzero => ?_,
    fun _ => .inr (.inr rfl)⟩
  · obtain ⟨hlt, hcounted⟩ := h.counted seen hseen
    refine ⟨hlt, ?_⟩
    rw [hseq, hmore, hcounted]
    omega
  · rw [hasleep] at hs
    exact h.queued (Bool.and_eq_true_iff.mp hs).1
  · rw [hmore] at hzero
    cases hzero

theorem Sound.wake {r : Unit} (h : Sound d s v .bumped)
    (hx : (unwrapped lim d).exec .worker (.area (.wakeRequester d)) ch s = some (r, s')) :
    Sound d s' v .out := by
  obtain ⟨-, hasleep, hbumps⟩ := exec_area hx
  obtain ⟨hseq, hstate, -⟩ := exec_area_unmoved rfl hx
  have hawake : s'.asleep = false := by
    rw [hasleep]
    simp
  have hsame : s'.bumps = s.bumps := hbumps
  have hnone : ¬ s'.asleep = true := fun hs => absurd (hawake.symm.trans hs) Bool.false_ne_true
  refine ⟨hseq ▸ h.range, ?_, fun hs => absurd hs hnone, fun seen hstage hzero => ?_,
    fun hs => absurd hs hnone⟩
  · rw [hseq, hsame]
    exact h.counted
  · rw [hsame] at hzero
    rw [hstate]
    exact .inl ((h.unmoved seen hstage hzero).resolve_right (by decide))

theorem Sound.worker {o : Op} {f : Ret o → Stage} (h : Sound d s v w)
    (hδ : workerStage d w o = some f) {r : Ret o}
    (hx : (unwrapped lim d).exec .worker o ch s = some (r, s')) : Sound d s' v (f r) := by
  unfold workerStage at hδ
  split at hδ
  · rename_i o
    split at hδ
    · obtain ⟨hstores, ⟨⟩⟩ := of_guard hδ
      cases o with
      | storeState e next =>
        obtain rfl : e = d := of_decide_eq_true hstores
        exact h.store hx
      | _ => cases hstores
    · rename_i hmoves
      cases hδ
      have ho : moves o = false := Bool.of_not_eq_true hmoves
      obtain ⟨hseq, hstate, hasleep⟩ := exec_area_unmoved ho hx
      have hbump : o ≠ .addSeq d := by
        rintro rfl
        cases ho
      refine h.keep hseq hstate ?_ hasleep
      rw [(exec_area hx).2.2, bumpsAfter, if_neg hbump, if_neg fun hboth => nomatch hboth.1]
  · obtain ⟨ho, ⟨⟩⟩ := of_guard hδ
    subst ho
    exact h.bump hx
  · obtain ⟨ho, ⟨⟩⟩ := of_guard hδ
    subst ho
    exact h.wake hx
  · cases hδ

theorem sound_reachable {area : Daemon.State} (hseq : area.requests.seq d < 2 ^ 32)
    {c : Config Party Op Ret State} (h : (unwrapped lim d).Reachable (idle area) c) :
    ∃ γ : Party → Stage, Sound d c.shared (γ .requester) (γ .worker) ∧
      ∀ i, (c.threads i).Staged (stages d i) (fun _ v => v = .out) (γ i) := by
  refine staged_reachable (I := fun s γ => Sound d s (γ .requester) (γ .worker)) (fun _ => rfl)
    (sound_out hseq rfl) ?_ ?_ ?_ (fun _ _ => rfl) h
  · intro i call s p hp
    cases i with
    | requester =>
      cases call with
      | await =>
        cases hp
        exact staged_awaitState.bind fun _ _ hv => .pure hv
      | publish next =>
        cases hp
        exact staged_publish
      | grant | refuse _ => cases hp
    | worker =>
      cases call with
      | grant =>
        cases hp
        exact staged_grant
      | refuse failure =>
        cases hp
        exact staged_refuse failure
      | await | publish _ => cases hp
  · intro i s γ o f ch r s' hsound hδ hx
    cases i with
    | requester =>
      rw [update_self, update_of_ne (by decide)]
      exact hsound.requester hδ hx
    | worker =>
      rw [update_self, update_of_ne (by decide)]
      exact hsound.worker hδ hx
  · intro e s γ s' hsound he
    obtain ⟨area⟩ := e
    obtain ⟨hwords, ⟨⟩⟩ := of_guard he
    exact hsound.keep hwords.1 hwords.2 rfl id

end Invariant

/-! ### Results -/

/-- **No answer is slept through.** In every interleaving in which the word does not come
round between the requester's read and its wait: where the requester is asleep and the
state is an answer, the worker has the wake of that answer still before it. -/
theorem no_answer_slept_through (lim : Limits) (d : DomainId) {area : Daemon.State}
    (hseq : area.requests.seq d < 2 ^ 32) {c : Config Party Op Ret State}
    (h : (unwrapped lim d).Reachable (idle area) c) (hasleep : c.shared.asleep = true)
    (hanswer : c.shared.area.turns.state d = .lockHeld ∨ c.shared.area.turns.state d = .error) :
    WakeToCome d (c.threads .worker) := by
  obtain ⟨γ, hsound, hstaged⟩ := sound_reachable hseq h
  have hanswered : ¬ isAcquireAnswered (c.shared.area.turns.state d) = false := by
    rcases hanswer with heq | heq
    · rw [heq]
      decide
    · rw [heq]
      decide
  have hworker := hstaged .worker
  rcases (hsound.asleep hasleep).resolve_left hanswered with hw | hw
  · rw [hw] at hworker
    exact wakeToCome_of_stored (by decide) (by decide) hworker
  · rw [hw] at hworker
    exact wakeToCome_of_bumped (by decide) hworker

/-- The requester publishes its request, looks once and falls asleep; the worker refuses it
and has stored its answer. -/
def storedAnswer : List (Action Party Choice Call Env) :=
  List.flatten [[.start .requester (.publish .lockRequested)],
    List.replicate 2 (.exec .requester (.area .any)),
    [.start .requester .await, .exec .requester (.area (.nat 1)), .exec .requester (.area .any),
      .exec .requester (.area .any), .exec .requester (.area (.flag true)),
      -- one look while spinning, then the futex
      .exec .requester (.area (.nat 1)), .exec .requester (.area .any),
      .exec .requester (.area (.nat 1)), .exec .requester (.area (.flag true)),
      .exec .requester (.kernel .woken)],
    [.start .worker (.refuse (-16))], List.replicate 2 (.exec .worker (.area .any))]

theorem no_answer_slept_through_stored :
    ∃ c, (unwrapped ⟨2, 2⟩ 1).Reachable (idle fresh.shared) c ∧ c.shared.asleep = true ∧
      c.shared.area.turns.state 1 = .error ∧ WakeToCome 1 (c.threads .worker) := by
  obtain ⟨c, hc, hasleep, hstate⟩ := System.exists_of_run (unwrapped ⟨2, 2⟩ 1) (idle fresh.shared)
    storedAnswer (P := fun c => c.shared.asleep = true ∧ c.shared.area.turns.state 1 = .error)
    (by decide +kernel)
  exact ⟨c, hc, hasleep, hstate,
    no_answer_slept_through ⟨2, 2⟩ 1 (by decide) hc hasleep (.inr hstate)⟩

end Cme.Daemon.Sleep
