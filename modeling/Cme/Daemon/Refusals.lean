import Cme.Daemon.Index
import Cme.Interleave.Amid

/-!
# Daemon — a delete that is refused

`remove` takes the name out of the table before it waits for the slot to fall
quiet and before it asks the region, and puts it back when either refuses: the
slot is marked Live, whatever it was. A node that keeps no participation in the
slot is refused before that. So a refused delete leaves the table, the index and
the counts as it found them exactly when the slot was Live or there was no
participation to give up (`refused_remove_changes_nothing`); a Broken slot comes
back with the name that the table had withdrawn (`refused_remove_revives`).
-/

namespace Cme.Daemon

open Function Interleave

/-- The answers of a delete that was refused. -/
def DomainAnswer.Refused (answer : DomainAnswer) : Prop :=
  answer = .notParticipating ∨ answer = .stillInUse ∨ answer = .participantsRemain ∨
    answer = .regionUnusable

instance (answer : DomainAnswer) : Decidable answer.Refused :=
  inferInstanceAs (Decidable (_ ∨ _))

/-- What a delete reports on: the table with its index, and the joins. -/
structure Reported where
  names : Names
  joined : DomainId → Nat

def State.reported (s : State) : Reported := ⟨s.registry.names, s.registry.joined⟩

/-- Accesses that write it. -/
def Op.reports : Op → Bool
  | .markState _ _ | .setName _ _ | .setId _ _ | .clearId _ _ | .addJoin _ | .dropJoin _
  | .clearJoins _ => true
  | _ => false

variable {lim : Limits} {t : Tid} {v : Reported} {d : DomainId} {name : DomainName}

theorem execRegistry_reported {o : Op} (ho : Op.reports o = false) {ch : Choice}
    {r r' : Registry} {a : Ret o} (hx : execRegistry t o ch r = some (a, r')) :
    r'.names = r.names ∧ r'.joined = r.joined := by
  cases o
  case lockNaming =>
    rw [execRegistry] at hx
    obtain ⟨-, ⟨⟩⟩ := of_unless hx
    exact ⟨rfl, rfl⟩
  case isExpectedState | getName | turnHandle | findId | unlockNaming =>
    cases hx
    exact ⟨rfl, rfl⟩
  case markState | setName | setId | clearId | addJoin | dropJoin | clearJoins => cases ho
  all_goals cases hx

theorem exec_reported {o : Op} (ho : Op.reports o = false) {ch : Choice} {s s' : State}
    {r : Ret o} (hx : exec lim t o ch s = some (r, s')) : s'.reported = s.reported := by
  cases exec_stepped hx with
  | registry h =>
    obtain ⟨hnames, hjoined⟩ := execRegistry_reported ho h
    unfold State.reported
    rw [hnames, hjoined]
  | turns _ h | requests h | region h | took | still => rfl

theorem reports_of_plain {o : Op} (ho : o.plain = true) : Op.reports o = false := by
  cases o <;> first | rfl | cases ho

/-! ### The delete, step by step -/

/-- What the thread runs among others that leave the table and the joins alone. -/
abbrev reporting (lim : Limits) (t : Tid) {α : Type} (p : Proc α) (Q : α → Reported → Prop)
    (v : Reported) : Prop :=
  amid (system lim) State.reported (fun _ => True) t p Q v

theorem reporting_aside {o : Op} (ho : Op.reports o = false) {Q : Ret o → Reported → Prop}
    (h : ∀ r, Q r v) : reporting lim t (act o) Q v :=
  amid_only (T := fun o => Op.reports o = false) (.perform ho)
    (fun _ ho _ _ _ _ hx => exec_reported ho hx) trivial h

/-- The slot marked. -/
def Reported.mark (v : Reported) (d : DomainId) (next : SlotState) : Reported :=
  { v with names := { v.names with state := Function.update v.names.state d next } }

theorem reporting_markState {next : SlotState} {Q : Unit → Reported → Prop}
    (h : Q () (v.mark d next)) : reporting lim t (act (.markState d next)) Q v := by
  refine amid_step (fun s hs ch r s' hx => ?_) trivial h
  cases hx
  subst hs
  exact ⟨rfl, rfl⟩

/-- The second mark is the one that stands. -/
theorem Reported.mark_mark (v : Reported) (d : DomainId) (first next : SlotState) :
    (v.mark d first).mark d next = v.mark d next := by
  simp only [Reported.mark, update_idem]

/-- Marking Live changes nothing where the slot was Live, and only there. -/
theorem Reported.mark_live_iff : v.mark d .live = v ↔ v.names.state d = .live := by
  constructor
  · intro h
    have hstate := congrArg (fun u : Reported => u.names.state d) h
    exact hstate.symm.trans (update_self ..)
  · intro h
    rw [Reported.mark, ← h, update_eq_self]

theorem reporting_awaitQuiet {turns : Nat} {Q : Bool → Reported → Prop} (h : ∀ b, Q b v) :
    reporting lim t (awaitQuiet d turns) Q v :=
  amid_only (plain_awaitQuiet d turns)
    (fun _ ho _ _ _ _ hx => exec_reported (reports_of_plain ho) hx) trivial h

variable {Q : DomainAnswer → Reported → Prop}

/-- `Served` says nothing here; it is what a retired slot is answered with. -/
theorem reporting_retire (h : ∀ u, Q .served u) : reporting lim t (do
      retire name d
      pure DomainAnswer.served) Q v := by
  refine .bind (amid_mono (Q := fun _ _ => True) ?_ fun _ u _ => h u)
  refine .bind (.perform fun _ _ _ _ _ _ => ⟨trivial, ?_⟩)
  refine .bind (.perform fun _ _ _ _ _ _ => ⟨trivial, ?_⟩)
  refine .bind (.perform fun _ _ _ _ _ _ => ⟨trivial, ?_⟩)
  refine .bind (.perform fun _ _ _ _ _ _ => ⟨trivial, ?_⟩)
  exact .perform fun _ _ _ _ _ _ => ⟨trivial, trivial⟩

/-- The region is asked; what it refuses is marked Live. -/
theorem reporting_removeQuiet (hserved : ∀ u, Q .served u)
    (hrefused : ∀ answer, answer ≠ .notParticipating → Q answer (v.mark d .live)) :
    reporting lim t (removeQuiet name d) Q (v.mark d .free) := by
  refine .bind (reporting_aside rfl fun _ => ?_)
  refine .bind (reporting_aside rfl fun _ => ?_)
  refine .bind (reporting_aside rfl fun _ => ?_)
  refine .bind (reporting_aside rfl fun _ => ?_)
  refine .bind (reporting_aside rfl fun outcome => ?_)
  have hback : ∀ answer, answer ≠ .notParticipating → reporting lim t (do
      act (.markState d .live)
      pure answer) Q (v.mark d .free) := by
    intro answer hanswer
    refine .bind (reporting_markState ?_)
    rw [Reported.mark_mark]
    exact hrefused answer hanswer
  cases outcome with
  | ok _ => exact reporting_retire hserved
  | error e =>
    cases e with
    | unknownDomain => exact reporting_retire hserved
    | notParticipating => exact hback .participantsRemain (by decide)
    | domainExists | domainLimit | lockTimeout | other => exact hback .regionUnusable (by decide)

theorem reporting_removeSlot (hserved : ∀ u, Q .served u)
    (hrefused : ∀ answer, answer ≠ .notParticipating → Q answer (v.mark d .live)) :
    reporting lim t (removeSlot name d) Q v := by
  refine .bind (reporting_markState ?_)
  refine .bind (reporting_aside rfl fun turns => ?_)
  refine .bind (reporting_awaitQuiet fun quiet => ?_)
  cases quiet with
  | true =>
    refine .bind (reporting_removeQuiet (fun u => ?_) fun answer hanswer => ?_)
    · exact .bind (reporting_aside rfl fun _ => hserved u)
    · exact .bind (reporting_aside rfl fun _ => hrefused answer hanswer)
  | false =>
    refine .bind (reporting_markState ?_)
    rw [Reported.mark_mark]
    exact hrefused .stillInUse (by decide)

/-- A refusal before any write. -/
theorem reporting_refuse (answer : DomainAnswer) : reporting lim t (do
      act .unlockNaming
      pure answer) (fun a u => a = answer ∧ u = v) v :=
  .bind (reporting_aside rfl fun _ => ⟨rfl, rfl⟩)

/-! ### Results -/

/-- Some slot of the table resolves to the text. -/
def Registry.resolves (r : Registry) (lim : Limits) (text : Text) : Prop :=
  ∃ d < lim.maxDomains, r.state d = .live ∧ readField (r.name d) = text

instance (r : Registry) (lim : Limits) (text : Text) : Decidable (r.resolves lim text) :=
  inferInstanceAs (Decidable (∃ d < lim.maxDomains, _))

/-- The states, the names, the index and the joins are what they were, and no name
resolves that did not. -/
structure Unchanged (lim : Limits) (s s' : State) : Prop where
  state : s'.registry.state = s.registry.state
  name : s'.registry.name = s.registry.name
  ids : s'.registry.ids = s.registry.ids
  joined : s'.registry.joined = s.registry.joined
  resolves : ∀ text, ¬ s.registry.resolves lim text → ¬ s'.registry.resolves lim text

theorem unchanged_iff {s s' : State} : Unchanged lim s s' ↔ s'.reported = s.reported := by
  constructor
  · intro h
    simp only [State.reported, Registry.names, h.state, h.name, h.ids, h.joined]
  · intro h
    obtain ⟨hnames, hjoined⟩ := Reported.mk.inj h
    obtain ⟨hids, hname, hstate⟩ := Names.mk.inj hnames
    refine ⟨hstate, hname, hids, hjoined, fun text hnone hsome => hnone ?_⟩
    unfold Registry.resolves at hsome ⊢
    rwa [hstate, hname] at hsome

/-- A step of the delete that leaves what it reports on alone. -/
theorem next_aside {o : Op} (ho : Op.reports o = false) {f : Ret o → Proc DomainAnswer}
    {s s' : State} {l : List State} {answer : DomainAnswer}
    (hrun : (system lim).Among State.reported t (act o >>= f) s l answer s') :
    ∃ s₁ ch r s₂ l', l = s₂ :: l' ∧ exec lim t o ch s₁ = some (r, s₂) ∧
      s₂.reported = s.reported ∧ (system lim).Among State.reported t (f r) s₂ l' answer s' := by
  obtain ⟨s₁, ch, r, s₂, l', hl, hview, hx, hrest⟩ := hrun.next
  exact ⟨s₁, ch, r, s₂, l', hl, hx, (exec_reported ho hx).trans hview, hrest⟩

/-- `LocalDomain::keepsParticipation` -/
def State.keepsParticipation (s : State) (d : DomainId) : Bool :=
  decide (s.registry.joined d > 0) || (s.turns.guard d).isSome

/-- **A refused delete changes nothing it reports on** exactly when its slot was Live or,
in the state its fourth step looks at, the node keeps no participation in the slot:
whatever the region answers, however long the slot stays in use and whatever the node
counts. -/
theorem refused_remove_changes_nothing {s s' : State} {l : List State} {answer : DomainAnswer}
    (hrun : (system lim).Among State.reported t (remove name) s l answer s')
    (hrefused : answer.Refused) :
    ∃ d looked, s.registry.ids name = some d ∧ l[3]? = some looked ∧
      (Unchanged lim s s' ↔
        s.registry.state d = .live ∨ looked.keepsParticipation d = false) := by
  obtain ⟨_, _, _, s₁, _, rfl, -, hsame₁, hrun₁⟩ := next_aside rfl hrun
  obtain ⟨s₂, _, found, _, _, rfl, hx₂, hsame₂, hrun₂⟩ := next_aside rfl hrun₁
  obtain ⟨rfl, rfl⟩ := outcome_eq hx₂
  have hids : s₂.registry.ids name = s.registry.ids name :=
    congrArg (fun v : Reported => v.names.ids name) (hsame₂.trans hsame₁)
  cases hfound : s.registry.ids name with
  | none =>
    rw [hids.trans hfound] at hrun₂
    obtain ⟨-, rfl, -⟩ := hrun₂.of_amid (reporting_refuse .noSuchDomain)
    rcases hrefused with h | h | h | h <;> cases h
  | some d =>
    rw [hids.trans hfound] at hrun₂
    obtain ⟨_, _, _, s₃, _, rfl, -, hsame₃, hrun₃⟩ := next_aside rfl hrun₂
    obtain ⟨s₄, _, keeps, _, _, rfl, hx₄, hsame₄, hrun₄⟩ := next_aside rfl hrun₃
    obtain ⟨_, _, _, s₅, _, rfl, -, hsame₅, hrun₅⟩ := next_aside rfl hrun₄
    obtain ⟨rfl, rfl⟩ := outcome_eq hx₄
    have hsame : s₅.reported = s.reported :=
      hsame₅.trans (hsame₄.trans (hsame₃.trans (hsame₂.trans hsame₁)))
    refine ⟨d, s₄, rfl, rfl, ?_⟩
    rw [unchanged_iff]
    cases hkeeps : s₄.keepsParticipation d with
    | false =>
      rw [if_neg (by rw [← State.keepsParticipation, hkeeps]; decide)] at hrun₅
      obtain ⟨-, -, hleft⟩ := hrun₅.of_amid (reporting_refuse .notParticipating)
      exact iff_of_true (hleft.trans hsame) (.inr rfl)
    | true =>
      rw [if_pos (by rw [← State.keepsParticipation, hkeeps])] at hrun₅
      -- every refusal from here on has marked the slot Live
      have hmarked : s'.reported = s₅.reported.mark d .live := by
        refine (hrun₅.of_amid (K := fun _ => True)
          (Q := fun answer u => answer.Refused → u = s₅.reported.mark d .live) ?_).2 hrefused
        refine .bind (reporting_removeSlot (fun u => ?_) fun answer _ => ?_)
        · refine .bind (reporting_aside rfl fun _ hrefused => ?_)
          rcases hrefused with h | h | h | h <;> cases h
        · exact .bind (reporting_aside rfl fun _ _ => rfl)
      rw [hmarked, hsame, Reported.mark_live_iff]
      simp [State.reported, Registry.names]

/-- A domain created here, whose delete the region refuses. -/
theorem refused_remove_changes_nothing_created :
    ∃ c, (system ⟨2, 2⟩).Reachable fresh c ∧ c.shared.registry.state 1 = .live ∧
      ∃ s', (system ⟨2, 2⟩).Alone .control (remove (named 'a')) c.shared .regionUnusable s' ∧
        s'.registry.state = c.shared.registry.state ∧ s'.registry.joined = c.shared.registry.joined := by
  obtain ⟨c, hc, hids, hlive, hplay⟩ := System.exists_of_run (system ⟨2, 2⟩) fresh
    (Index.command .createDomain ['a'] [.domain (some 1)] 11)
    (P := fun c => c.shared.registry.ids (named 'a') = some 1 ∧
      c.shared.registry.state 1 = .live ∧
      ((system ⟨2, 2⟩).play .control (remove (named 'a'))
        (List.flatten [List.replicate 6 .any, [.nat 1], List.replicate 7 .any,
          [.refused .other], List.replicate 3 .any]) c.shared).any
        (fun r : DomainAnswer × State => decide (r.1 = .regionUnusable)) = true) (by decide +kernel)
  obtain ⟨answer, s', hrun, hanswer⟩ := System.exists_alone_of_play hplay
  obtain rfl := of_decide_eq_true hanswer
  obtain ⟨l, hamong⟩ := hrun.among _
  obtain ⟨d, looked, hd, -, hiff⟩ := refused_remove_changes_nothing hamong (by decide)
  obtain rfl : 1 = d := Option.some.inj (hids.symm.trans hd)
  have hsame := hiff.mpr (.inl hlive)
  exact ⟨c, hc, hlive, s', hrun, hsame.state, hsame.joined⟩

/-- A domain `n` of another node is deleted there, its id goes to `m` and its name to
another id. A requester is at the slot of `n`; a client joins `n`, another creates `m`,
and the slot is marked Broken because it is in use. -/
def breakSlot : List (Action Tid Choice Call Env) :=
  List.flatten [[.env (.createElsewhere 1 ['n'])], refreshPass 18 3,
    [.env (.deleteElsewhere 1), .env (.createElsewhere 1 ['m']), .env (.createElsewhere 2 ['n']),
      .start (.requester 0) (.tryLock (named 'n')), .exec (.requester 0) (.domain none)],
    steps (.requester 0) 5, Index.command .joinDomain ['n'] [] 7,
    Index.command .createDomain ['m'] [.domain (some 2)] 9]

/-- **A refused delete brings a name back.** The slot of `n` is Broken and the name does
not resolve; a delete of `n` finds the slot in use, answers StillInUse and leaves the
slot Live, where the name resolves again. -/
theorem refused_remove_revives :
    ∃ c, (system ⟨3, 3⟩).Reachable fresh c ∧ c.shared.registry.ids (named 'n') = some 1 ∧
      c.shared.registry.state 1 = .broken ∧ ¬ c.shared.registry.resolves ⟨3, 3⟩ ['n'] ∧
      ∃ s', (system ⟨3, 3⟩).Alone .control (remove (named 'n')) c.shared .stillInUse s' ∧
        s'.registry.state 1 = .live ∧ s'.registry.resolves ⟨3, 3⟩ ['n'] := by
  obtain ⟨c, hc, hids, hbroken, hnone, hplay⟩ := System.exists_of_run (system ⟨3, 3⟩) fresh
    breakSlot (P := fun c => c.shared.registry.ids (named 'n') = some 1 ∧
      c.shared.registry.state 1 = .broken ∧ ¬ c.shared.registry.resolves ⟨3, 3⟩ ['n'] ∧
      ((system ⟨3, 3⟩).play .control (remove (named 'n'))
        (List.flatten [List.replicate 6 .any, [.nat 1, .any, .flag true], List.replicate 2 .any])
        c.shared).any (fun r : DomainAnswer × State => decide (r.1 = .stillInUse ∧
          r.2.registry.state 1 = .live ∧ r.2.registry.resolves ⟨3, 3⟩ ['n'])) = true)
    (by decide +kernel)
  obtain ⟨answer, s', hrun, htest⟩ := System.exists_alone_of_play hplay
  obtain ⟨rfl, hlive, hresolves⟩ := of_decide_eq_true htest
  exact ⟨c, hc, hids, hbroken, hnone, s', hrun, hlive, hresolves⟩

end Cme.Daemon
