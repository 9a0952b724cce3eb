import Cme.Daemon.Manager

/-!
# Daemon — the code that only reaches a slot's words

Most of what a node's threads run reads and writes the words of a slot, and leaves the
naming mutex, the entries, the turns and the region alone. `Op.plain` are those
accesses; the procedures made of nothing else are listed here once.
-/

namespace Cme.Daemon

open Interleave

/-- An access to the words of a slot, a clock, or a record of the region. -/
def Op.plain : Op → Bool
  | .markState _ _ | .setName _ _ | .setId _ _ | .clearId _ _ | .findId _ | .lockNaming
  | .unlockNaming | .lockCounting _ | .unlockCounting _ | .takeTurn _ _ _ | .releaseTurn _
  | .revokeTurn _ | .addJoin _ | .dropJoin _ | .clearJoins _ | .createDomain _ | .joinDomain _
  | .lock _ | .deleteDomain _ | .leaveByName _ | .leaveByHandle _ => false
  | _ => true

/-- An access that leaves the words of a section alone. -/
def Op.quiet : Op → Bool
  | .loadState _ | .hasTurn _ | .keepsParticipation _ => true
  | o => o.part != .turns && o.part != .entry

variable {lim : Limits} {α : Type} {p : Proc α}

/-- Code made of accesses to the words of a slot. -/
abbrev Plain (p : Proc α) : Prop := p.Only fun o => o.plain = true

/-- Code that no section notices. -/
abbrev Quiet (p : Proc α) : Prop := p.Only fun o => o.quiet = true

/-- Code that is both. -/
abbrev Looks (p : Proc α) : Prop := p.Only fun o => (o.plain && o.quiet) = true

theorem Looks.plain (h : Looks p) : Plain p := h.mono fun _ ho => (Bool.and_eq_true_iff.mp ho).1

theorem Looks.quiet (h : Looks p) : Quiet p := h.mono fun _ ho => (Bool.and_eq_true_iff.mp ho).2

variable (d : DomainId)

theorem plain_publish (next : RequestState) : Plain (publish d next) :=
  .bind (.perform rfl) fun _ => .perform rfl

theorem looks_recordAbandonment (b : Bool) : Looks (recordAbandonment d b) := by
  rw [recordAbandonment]
  exact .ite (.perform rfl) (.pure _)

theorem plain_tryLockIfIdle : Plain (tryLockIfIdle d) := by
  refine .bind (.perform rfl) fun told => ?_
  split
  · exact .pure _
  · refine .bind (looks_recordAbandonment d _).plain fun _ => .bind (.perform rfl)
      fun state => ?_
    split
    · refine .bind (.perform rfl) fun waiters => ?_
      split
      · exact .bind (.perform rfl) fun _ => .pure _
      · exact .pure _
    · exact .bind (.perform rfl) fun _ => .pure _

theorem looks_getDomainEntries (ids : List DomainId) : Looks (getDomainEntries ids) := by
  induction ids with
  | nil => exact .pure _
  | cons id rest ih =>
    refine .bind (.perform rfl) fun record => ?_
    split
    · exact .pure _
    · refine .bind ih fun entries => ?_
      split <;> exact .pure _

theorem looks_isNamed (x : Text) : Looks (isNamed d x) :=
  .bind (.perform rfl) fun _ => .ite (.bind (.perform rfl) fun _ => .pure _) (.pure _)

theorem looks_confirm (entries : List DomainEntry) : Looks (confirm lim entries) := by
  induction entries with
  | nil => exact .pure _
  | cons entry rest ih =>
    exact .ite ih (.bind (looks_isNamed _ _) fun _ => .ite (.bind ih fun _ => .pure _)
      (.bind (.perform rfl) fun _ => .ite (.bind ih fun _ => .pure _) ih))

theorem looks_isTaken : Looks (isTaken d) :=
  .bind (.perform rfl) fun _ => .ite (.pure _) (.perform rfl)

theorem plain_refuse (failure : Int) : Plain (refuse d failure) :=
  .bind (.bind (.perform rfl) fun _ => plain_publish d _)
    fun _ => .perform rfl

theorem plain_answerGrant : Plain (answerGrant d) :=
  .bind (.bind (.perform rfl) fun _ => plain_publish d _)
    fun _ => .perform rfl

theorem plain_reclaimAbandoned : Plain (reclaimAbandoned d) := by
  refine .bind (.perform rfl) fun told => ?_
  split
  · exact .pure _
  · refine .bind (looks_recordAbandonment d _).plain fun _ => .ite ?_ ?_
    · exact .bind (plain_publish d _) fun _ => .bind (.perform rfl)
        fun _ => .pure _
    · exact .bind (.perform rfl) fun _ => .pure _

theorem plain_release : Plain (release d) :=
  .bind (plain_publish d _) fun _ => .bind (.perform rfl) fun _ =>
    .bind (.perform rfl) fun _ =>
      .ite (.pure _) (.perform rfl)

theorem looks_resolve (name : Text) (slots : List DomainId) : Looks (resolve name slots) := by
  induction slots with
  | nil => exact .pure _
  | cons d rest ih => exact .bind (looks_isNamed d name) fun _ => .ite (.pure _) ih

theorem looks_resolveId (name : DomainName) : Looks (resolveId lim name) := by
  refine .bind (.perform rfl) fun cached => ?_
  split
  · exact looks_resolve _ _
  · exact .bind (looks_isNamed _ _) fun _ => .ite (.pure _) (looks_resolve _ _)

theorem plain_awaitState : Plain (awaitState d) := by
  refine .bind (.perform rfl) fun turns => ?_
  induction turns with
  | zero => exact .bind (.perform rfl) fun _ => .pure _
  | succ turns ih =>
    refine .bind (.perform rfl) fun seen => .bind (.perform rfl)
      fun state => .ite (.pure _) (.bind (.perform rfl) fun left => ?_)
    exact .ite (.bind (.perform rfl) fun _ => ih) (.pure _)

theorem plain_awaitTurn (name : DomainName) (d : DomainId) : Plain (awaitTurn name d) := by
  refine .bind (plain_publish d _) fun _ => .bind (.perform rfl) fun _ =>
    .bind (plain_awaitState d) fun outcome => ?_
  split
  · exact .bind (plain_release d) fun _ => .pure _
  · exact .bind (.perform rfl) fun _ => .bind (plain_release d)
      fun _ => .pure _
  · exact .pure _

theorem plain_tryLockOnce (name : DomainName) : Plain (tryLockOnce lim name) := by
  refine .bind (looks_resolveId name).plain fun resolved => ?_
  split
  · exact .pure _
  · refine .bind (.bind (.perform rfl) fun _ => .bind (.perform rfl)
      fun _ => .bind (looks_recordAbandonment _ _).plain fun _ => .perform rfl) fun _ => ?_
    refine .bind (looks_isNamed _ _).plain fun named => .ite ?_ ?_
    · refine .bind (plain_publish _ _) fun _ => .bind (.perform rfl) fun valid =>
        .ite (.pure _) (.bind (plain_publish _ _) fun _ =>
          .bind (.perform rfl) fun serving => .ite (plain_awaitTurn _ _) ?_)
      exact .bind (.perform rfl) fun _ => .pure _
    · exact .bind (.perform rfl) fun _ => .pure _

theorem plain_awaitQuiet (turns : Nat) : Plain (awaitQuiet d turns) := by
  induction turns with
  | zero => exact .bind (.perform rfl) fun _ => .pure _
  | succ turns ih =>
    refine .bind (plain_tryLockIfIdle d) fun _ => .ite (.pure _) ?_
    exact .bind (.perform rfl) fun _ => .ite (.pure _) ih

end Cme.Daemon
