import Cme.Daemon.Manager
import Cme.Interleave.Alone

/-!
# Daemon — what each connection has joined

`daemon/control/exchange.hpp`: the ledger a connection of the control socket
keeps of the names it is in, and what is given back when it closes. The control
thread serves one message to its end before it takes the next, and here nothing
else runs meanwhile, so a message, a disconnect and a refresh pass are each one
event: the thread's run from the state it finds, alone. Between them other
nodes create and delete domains.
-/

namespace Cme.Daemon

open Function Interleave

/-- The names a connection is in. -/
abbrev JoinLedger := Finset Text

/-- `record`: a create leaves the peer in the domain, a delete takes it out. -/
def record (asked : Command) (held : Text) (joins : JoinLedger) : JoinLedger :=
  match asked with
  | .createDomain | .joinDomain => insert held joins
  | .deleteDomain | .leaveDomain => joins.erase held

/-- `giveBack`, in the order the set is walked in. -/
def giveBack (lim : Limits) : List Text → Proc Unit
  | [] => pure ()
  | name :: rest => do
    let _ ← serveCommand lim .leaveDomain name
    giveBack lim rest

/-- The daemon, and the ledgers of its connections. One that is closed has an
empty one. -/
structure Node (C : Type) where
  daemon : State
  joins : C → JoinLedger

inductive Event (C : Type) where
  /-- A message with the name field it carries. -/
  | message (c : C) (asked : Command) (field : Text)
  /-- A connection closes; its ledger is walked in this order. -/
  | disconnect (c : C) (names : List Text)
  | refresh
  | createElsewhere (id : DomainId) (text : Text)
  | deleteElsewhere (id : DomainId)

/-- A text a name field can read as. -/
def NulFree (text : Text) : Prop := ∀ ch ∈ text, ch ≠ Char.ofNat 0

instance (text : Text) : Decidable (NulFree text) := List.decidableBAll _ _

variable {C : Type} [DecidableEq C]

/-- The ledgers after a message: only what the answer says took. -/
def Node.answered (n : Node C) (c : C) (asked : Command) (held : Text) (answer : DomainAnswer)
    (s : State) : Node C :=
  { daemon := s
    joins := if answer.code = 0 then update n.joins c (record asked held (n.joins c))
      else n.joins }

/-- What one event may do. -/
inductive Node.Step (lim : Limits) : Event C → Node C → Node C → Prop
  | message {n : Node C} {c : C} {asked : Command} {field : Text} {answer : DomainAnswer}
      {s : State} :
      (system lim).Alone .control (serveCommand lim asked (readField field)) n.daemon answer s →
      Step lim (.message c asked field) n (n.answered c asked (readField field) answer s)
  | disconnect {n : Node C} {c : C} {names : List Text} {s : State} :
      names.Nodup → names.toFinset = n.joins c →
      (system lim).Alone .control (giveBack lim names) n.daemon () s →
      Step lim (.disconnect c names) n ⟨s, update n.joins c ∅⟩
  | refresh {n : Node C} {s : State} :
      (system lim).Alone .maintainer (refresh lim) n.daemon () s →
      Step lim .refresh n ⟨s, n.joins⟩
  | createElsewhere {n : Node C} {id : DomainId} {text : Text} {s : State} :
      NulFree text → env lim (.createElsewhere id text) n.daemon = some s →
      Step lim (.createElsewhere id text) n ⟨s, n.joins⟩
  | deleteElsewhere {n : Node C} {id : DomainId} {s : State} :
      env lim (.deleteElsewhere id) n.daemon = some s →
      Step lim (.deleteElsewhere id) n ⟨s, n.joins⟩

/-- The nodes some sequence of events leads to, where `ok` says which event may
come when. -/
def Node.Runs (lim : Limits) (ok : Event C → Node C → Prop) : Node C → Node C → Prop :=
  Relation.ReflTransGen fun n n' => ∃ e, ok e n ∧ Node.Step lim e n n'

/-- A daemon that has just started, with no connection. -/
def Node.fresh : Node C := ⟨Daemon.fresh.shared, fun _ => ∅⟩

/-- Replay one event, with the answers to the accesses of its run. -/
def Node.perform (lim : Limits) (n : Node C) : Event C → List Choice → Option (Node C)
  | .message c asked field, l =>
    ((system lim).play .control (serveCommand lim asked (readField field)) l n.daemon).map
      fun x => n.answered c asked (readField field) x.1 x.2
  | .disconnect c names, l =>
    if names.Nodup ∧ names.toFinset = n.joins c then
      ((system lim).play .control (giveBack lim names) l n.daemon).map
        fun x => ⟨x.2, update n.joins c ∅⟩
    else none
  | .refresh, l =>
    ((system lim).play .maintainer (refresh lim) l n.daemon).map fun x => ⟨x.2, n.joins⟩
  | .createElsewhere id text, _ =>
    if NulFree text then
      (env lim (.createElsewhere id text) n.daemon).map fun s => ⟨s, n.joins⟩
    else none
  | .deleteElsewhere id, _ =>
    (env lim (.deleteElsewhere id) n.daemon).map fun s => ⟨s, n.joins⟩

theorem Node.Step.of_perform {lim : Limits} {n n' : Node C} {e : Event C} {l : List Choice}
    (h : n.perform lim e l = some n') : Node.Step lim e n n' := by
  cases e with
  | message c asked field =>
    obtain ⟨⟨answer, s⟩, hx, rfl⟩ := Option.map_eq_some_iff.mp h
    exact .message (.of_play hx)
  | disconnect c names =>
    rw [Node.perform] at h
    split at h
    · rename_i hnames
      obtain ⟨⟨_, s⟩, hx, rfl⟩ := Option.map_eq_some_iff.mp h
      exact .disconnect hnames.1 hnames.2 (.of_play hx)
    · simp at h
  | refresh =>
    obtain ⟨⟨_, s⟩, hx, rfl⟩ := Option.map_eq_some_iff.mp h
    exact .refresh (.of_play hx)
  | createElsewhere id text =>
    rw [Node.perform] at h
    split at h
    · rename_i htext
      obtain ⟨s, hx, rfl⟩ := Option.map_eq_some_iff.mp h
      exact .createElsewhere htext hx
    · simp at h
  | deleteElsewhere id =>
    obtain ⟨s, hx, rfl⟩ := Option.map_eq_some_iff.mp h
    exact .deleteElsewhere hx

/-- Replay a sequence of events. -/
def Node.performAll (lim : Limits) : List (Event C × List Choice) → Node C → Option (Node C)
  | [], n => some n
  | e :: rest, n => (n.perform lim e.1 e.2).bind (Node.performAll lim rest)

theorem Node.Runs.of_performAll {lim : Limits} {l : List (Event C × List Choice)} {n n' : Node C}
    (h : Node.performAll lim l n = some n') : Node.Runs lim (fun _ _ => True) n n' := by
  induction l generalizing n with
  | nil => exact Option.some.inj h ▸ .refl
  | cons e rest ih =>
    rw [Node.performAll, Option.bind_eq_some_iff] at h
    obtain ⟨n₁, h₁, h₂⟩ := h
    exact .head ⟨e.1, trivial, .of_perform h₁⟩ (ih h₂)

end Cme.Daemon
