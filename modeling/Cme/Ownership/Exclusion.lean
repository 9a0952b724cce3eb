import Cme.Ownership.Spec

/-!
# Ownership — who is inside a section

The truth record names the peer of every thread that is inside a section, in
every run of the token strategies with crashes and recovery passes
(`token_exclusion`).

`Peer::leaveDomain` breaks this. It looks at the pin word once and then moves
the record by `transferOwnership`, without the latch that
`ownership_transfer.hpp` asks for on every grant of a held domain. A lock of
another thread of the peer that falls between the check and the publish finds
the record still naming the peer, and so puts two peers inside
(`leaveDomain_splits_section`). The runs in which nobody exchanges the pin word
of a leave in progress, and the check does not meet a transfer's sentinel, are
safe (`calm_leave_exclusion`).
-/

namespace Cme.Ownership

open Function Interleave

variable {W : Type} [DecidableEq W] [Fintype W]

/-- A thread that is inside a section belongs to the peer that the truth names. -/
def State.SectionsOwned (s : State W) : Prop :=
  ∀ p t d, s.crashed p = false → 0 < s.sections p t d → (s.truth d).holder = p

/-- No two live peers are inside the section of one domain. -/
def State.Exclusive (s : State W) : Prop :=
  ∀ p q t t' d, s.crashed p = false → s.crashed q = false →
    0 < s.sections p t d → 0 < s.sections q t' d → p = q

omit [DecidableEq W] [Fintype W] in
theorem State.SectionsOwned.exclusive {s : State W} (h : s.SectionsOwned) : s.Exclusive := by
  intro p q t t' d hp hq hin hin'
  rw [← h p t d hp hin, ← h q t' d hq hin']

omit [DecidableEq W] in
theorem inv_initial {s : State W} (h : s.Initial) (leaves : Bool) :
    StateInv leaves s (fun _ => .idle) where
  cells p d := by
    rw [Cell, h.pin p d]
    exact CountedLatch.init (by simp [h.sections, Stage.extra]) (by simp [Stage.grip])
  window := by simp [Stage.grip]
  closing := by simp
  owner := by simp [h.sections, Stage.owns]
  passing := by simp [Stage.pass]
  seizing := by simp
  ruled := ⟨by simp [Stage.rules], by simp [Stage.rules]⟩
  calm := fun _ p d => h.leaving p d

variable {M : System (Tid W) Op Ret (State W) Choice Call Env} {dims : Dims} {strategy : Strategy}

/-- Every call may start where all stages agree with the words. -/
theorem wp_callCode {v : Variant} (hM : Runs M v.leaves) {p : PeerId} {t : Thread W} {call : Call}
    {s : State W} {γ : Tid W → Stage} {c : Proc Unit} (hInv : StateInv v.leaves s γ)
    (hrest : γ (p, t) = .idle) (hs : callCode dims strategy v p s t call = some c) :
    ∃ stage, StateInv v.leaves s (update γ (p, t) stage) ∧
      wp M (StateInv v.leaves) (p, t) c (fun _ stage => stage = .idle) stage := by
  have hsame : StateInv v.leaves s (update γ (p, t) .idle) := by
    rwa [← hrest, update_eq_self]
  cases t with
  | poll =>
    cases call with
    | pollCycle =>
      cases hs
      exact ⟨_, hsame, wp_pollCycle hM dims strategy⟩
    | takeover dead =>
      cases hs
      exact ⟨_, hsame, wp_takeoverCall hM dims dead⟩
    | _ => exact absurd hs (by simp [callCode])
  | worker w =>
    cases call with
    | lock d =>
      cases hs
      exact ⟨_, hsame, wp_lockCall hM dims strategy⟩
    | tryLock d =>
      cases hs
      exact ⟨_, hsame, wp_tryLockCall hM dims strategy⟩
    | unlock d =>
      -- the unlock starts out with the pin of the section it closes
      obtain ⟨hin, rfl⟩ : 0 < s.sections p (.worker w) d ∧ unlock dims p d strategy = c := by
        simpa [callCode] using hs
      refine ⟨.closing d, ?_, wp_unlock hM dims strategy⟩
      refine hInv.relabel _ ?_ ?_ ?_ ?_ ?_ ?_ ?_ <;> grind
    | leaveDomain d expected =>
      obtain ⟨hl, rfl⟩ : v.leaves = true ∧ leaveCall dims p d expected = c := by
        simpa [callCode] using hs
      exact ⟨_, hsame, wp_leaveCall hM hl dims expected⟩
    | _ => exact absurd hs (by simp [callCode])

theorem outline_of_runs {v : Variant} (hM : Runs M v.leaves)
    (hstart : M.start = start dims strategy v) (henv : M.env = env v)
    (hkills : M.kills = fun _ _ => false) :
    Outline M (StateInv v.leaves) (fun _ stage => stage = .idle) where
  start := by
    rintro ⟨p, t⟩ call s γ c hInv hrest hs
    rw [hstart] at hs
    unfold start at hs
    split at hs
    · simp at hs
    · exact wp_callCode hM hInv hrest hs
  env := by
    rintro ⟨q⟩ s γ s' hInv hs
    rw [henv] at hs
    obtain ⟨-, rfl⟩ : v.crashes = true ∧
        { s with crashed := update s.crashed q true } = s' := by
      simpa [env] using hs
    exact ⟨γ, hInv.crash q, fun i => by simp [hkills]⟩

variable {c : Config (Tid W) Op Ret (State W)}

theorem outlined_of_outline {leaves : Bool}
    (H : Outline M (StateInv leaves) (fun _ stage => stage = .idle)) {s₀ : State W}
    (h₀ : s₀.Initial) (h : M.Reachable (idle s₀) c) :
    Outlined M (StateInv leaves) (fun _ stage => stage = .idle) c :=
  H.reachable (outlined_of_idle (γ := fun _ => .idle) (fun _ => rfl) (inv_initial h₀ leaves)
    fun _ => rfl) h

/-- What an outline says about the sections of a reachable state. -/
theorem sectionsOwned_of_outline {leaves : Bool}
    (H : Outline M (StateInv leaves) (fun _ stage => stage = .idle)) {s₀ : State W}
    (h₀ : s₀.Initial) (h : M.Reachable (idle s₀) c) :
    c.shared.SectionsOwned := by
  obtain ⟨γ, hInv, -⟩ := outlined_of_outline H h₀ h
  exact fun p t d hp hin => hInv.owner p t d hp (Or.inl hin)

/-- The variant with crashes and recovery passes. -/
def crashing : Variant := { crashes := true, leaves := false }

/-- The variant in which peers leave domains and nobody crashes. -/
def departing : Variant := { crashes := false, leaves := true }

theorem runs_crashing (dims : Dims) (strategy : Strategy) :
    Runs (system dims strategy crashing : System (Tid W) Op Ret _ _ _ _) crashing.leaves :=
  fun _ _ _ _ _ _ hx => ⟨hx, fun hl => by simp [crashing] at hl⟩

/-- **Mutual exclusion of the token strategies.** In every reachable state a
live peer with a thread inside a section is the one the truth names, so no two
live peers are inside at once. -/
theorem token_exclusion (dims : Dims) (strategy : Strategy) {s₀ : State W} (h₀ : s₀.Initial)
    {c : Config (Tid W) Op Ret (State W)}
    (h : (system dims strategy crashing).Reachable (idle s₀) c) :
    c.shared.SectionsOwned ∧ c.shared.Exclusive := by
  have howned := sectionsOwned_of_outline
    (outline_of_runs (runs_crashing dims strategy) rfl rfl rfl) h₀ h
  exact ⟨howned, howned.exclusive⟩

/-! ### A region of two peers -/

/-- Two peers with two workers each. Peer 0 holds every domain. -/
def twoPeers : State Bool := { State.held with participating := fun _ => 3 }

def twoPeersDims : Dims := { maxPeers := 2, numDomains := 2, aggregatorGroups := 0 }

theorem twoPeers_initial : twoPeers.Initial :=
  ⟨fun _ _ => rfl, fun _ => rfl, fun _ _ _ => rfl, fun _ => rfl, fun _ _ => rfl, rfl⟩

/-- `Peer::tryLock` of a peer that believes it holds domain 1 and does. -/
def lockResident (i : Tid Bool) : List (Action (Tid Bool) Choice Call Env) :=
  [.start i (.tryLock 1)] ++ steps i 2 ++ [.exec i (.nat 1)] ++ steps i 4

theorem token_exclusion_twoPeers :
    ∃ c, (system twoPeersDims .order crashing).Reachable (idle twoPeers) c ∧
      0 < c.shared.sections 0 (.worker false) 1 ∧ (c.shared.truth 1).holder = 0 := by
  obtain ⟨c, hc, hin, hlive⟩ := System.exists_of_run
    (system twoPeersDims .order crashing) (idle twoPeers) (lockResident (0, .worker false))
    (P := fun c => 0 < c.shared.sections 0 (.worker false) 1 ∧ c.shared.crashed 0 = false)
    (by decide)
  exact ⟨c, hc, hin, (token_exclusion _ _ twoPeers_initial hc).1 _ _ _ hlive hin⟩

/-- One worker of peer 0 leaves domain 1 while the other locks it: the lock
falls between the check of the pin word and the publish, and peer 1 then finds
its grant. -/
def leaveRace : List (Action (Tid Bool) Choice Call Env) :=
  let leaver : Tid Bool := (0, .worker false)
  let successor : Tid Bool := (1, .worker false)
  -- the leave takes the control lock and finds the pin word at 0
  [.start leaver (.leaveDomain 1 none), .exec leaver (.flag true), .exec leaver .any] ++
  -- the sibling's lock returns Arrived
  lockResident (0, .worker true) ++
  -- the leave picks peer 1 and publishes
  [.exec leaver .any, .exec leaver (.nat 2),
    .exec leaver (.member { active := true, participating := 3 })] ++ steps leaver 5 ++
  -- peer 1 waits, reads its shadow, then the truth, and arrives
  [.start successor (.tryLock 1)] ++ steps successor 2 ++ [.exec successor (.nat 1)] ++
  steps successor 2 ++ [.exec successor (.nat 1)] ++ steps successor 7

/-- A leave puts two peers inside the section of the domain it leaves. -/
theorem leaveDomain_splits_section :
    ∃ c, (system twoPeersDims .order departing).Reachable (idle twoPeers) c ∧
      0 < c.shared.sections 0 (.worker true) 1 ∧ (c.shared.truth 1).holder = 1 ∧
      0 < c.shared.sections 1 (.worker false) 1 :=
  System.exists_of_run _ _ leaveRace (by decide)

omit [Fintype W] in
theorem crashed_of_departing {s₀ : State W} (h₀ : s₀.Initial)
    (h : ((system dims strategy departing).restrict calm).Reachable (idle s₀) c) (p : PeerId) :
    c.shared.crashed p = false := by
  refine h.invariant (P := fun c => ∀ p, c.shared.crashed p = false) h₀.crashed ?_ p
  intro a c c' hc hn
  obtain ⟨i, ch, o, k, r, s', -, -, hx, rfl⟩ | ⟨i, call, q, -, -, -, rfl⟩ | ⟨e, s', -, he, -⟩ :=
    System.next_cases hn
  · have hexec := (System.restrict_exec.mp hx).2
    have hlive : exec i o ch c.shared = some (r, s') := hexec
    simp only [exec, hc, Bool.false_eq_true, if_false] at hlive
    rw [access_crashed hlive]
    exact hc
  · exact hc
  · cases e
    exact absurd he (by simp [System.restrict, system, env, departing])

/-- **Leaving keeps exclusion in calm runs.** Where no exchange of a peer's pin
word succeeds between the check and the reset of the peer's own leave, and the
check does not read the sentinel of a transfer, the truth names the peer of
every thread inside a section, during and after the leave. -/
theorem calm_leave_exclusion (dims : Dims) (strategy : Strategy) {s₀ : State W}
    (h₀ : s₀.Initial) {c : Config (Tid W) Op Ret (State W)}
    (h : ((system dims strategy departing).restrict calm).Reachable (idle s₀) c) :
    (∀ p t d, 0 < c.shared.sections p t d → (c.shared.truth d).holder = p) ∧
    (∀ p q t t' d, 0 < c.shared.sections p t d → 0 < c.shared.sections q t' d → p = q) := by
  have hM : Runs ((system dims strategy departing).restrict calm :
      System (Tid W) Op Ret _ _ _ _) departing.leaves := by
    intro i o ch s r s' hx
    obtain ⟨hcalm, hexec⟩ := System.restrict_exec.mp hx
    exact ⟨hexec, fun _ => hcalm⟩
  have howned := sectionsOwned_of_outline (outline_of_runs hM rfl rfl rfl) h₀ h
  have hlive := crashed_of_departing h₀ h
  exact ⟨fun p t d => howned p t d (hlive p),
    fun p q t t' d => howned.exclusive p q t t' d (hlive p) (hlive q)⟩

/-- The same leave with nobody in its way, and peer 1's lock after it. -/
def quietLeave : List (Action (Tid Bool) Choice Call Env) :=
  let leaver : Tid Bool := (0, .worker false)
  let successor : Tid Bool := (1, .worker false)
  [.start leaver (.leaveDomain 1 none), .exec leaver (.flag true)] ++ steps leaver 2 ++
  [.exec leaver (.nat 2), .exec leaver (.member { active := true, participating := 3 })] ++
  steps leaver 8 ++
  [.start successor (.tryLock 1)] ++ steps successor 2 ++ [.exec successor (.nat 1)] ++
  steps successor 2 ++ [.exec successor (.nat 1)] ++ steps successor 7

theorem calm_leave_exclusion_twoPeers :
    ∃ c, ((system twoPeersDims .order departing).restrict calm).Reachable (idle twoPeers) c ∧
      (c.shared.participating 0).has 1 = false ∧
      0 < c.shared.sections 1 (.worker false) 1 ∧ (c.shared.truth 1).holder = 1 := by
  obtain ⟨c, hc, hout, hin⟩ := System.exists_of_run
    ((system twoPeersDims .order departing).restrict calm) (idle twoPeers) quietLeave
    (P := fun c => (c.shared.participating 0).has 1 = false ∧
      0 < c.shared.sections 1 (.worker false) 1) (by decide)
  exact ⟨c, hc, hout, hin, (calm_leave_exclusion _ _ twoPeers_initial hc).1 _ _ _ hin⟩

end Cme.Ownership
