import Cme.Interleave.Monitor
import Cme.Interleave.Outline
import Mathlib.Algebra.Group.Nat.Defs

/-!
# Client — a control exchange and its answer

`exchangeDomainRequestLocked` with `sendDomainRequest` and `receiveAnswer`
(`daemon/client/session.cpp`), on one connection. The callers take `control_.mutex`
one after another. The daemon answers every request once and in order and echoes
its sequence, whenever it gets to it (`Env.answer`). Requests and answers are
queues, and a `receive` takes the oldest answer there is; it gives up only with
none there.

History, written by the model and read by nobody: `own` is the answer to the
caller's own request, if it was on the connection when the call took an answer or
gave up, and `exchanges` lists the calls that have ended, the latest first.
-/

namespace Cme.Client.Exchange

open Interleave

abbrev Tid := Nat

/-- The types this session sends a domain request under. -/
inductive MessageType where
  | createDomain
  | deleteDomain
  | joinDomain
  | leaveDomain
  deriving DecidableEq, Repr

def nameOfCommand : MessageType → String
  | .createDomain => "create"
  | .deleteDomain => "delete"
  | .joinDomain => "join"
  | .leaveDomain => "leave"

/-- CmedControlRefusedError. -/
structure Refusal where
  what : String
  code : Int
  deriving DecidableEq, Repr

/-- How a call ends: it returns, or throws a refusal. -/
abbrev Outcome := Option Refusal

structure Request where
  sequence : Nat
  type : MessageType
  name : String
  deriving DecidableEq, Repr

/-- An Answer; no result where the payload cannot be read. -/
structure Answer where
  sequence : Nat
  result : Option Int
  deriving DecidableEq, Repr

/-- A call that has ended. -/
structure Ended where
  type : MessageType
  name : String
  own : Option Answer
  outcome : Outcome
  deriving DecidableEq, Repr

structure State where
  /-- control_.mutex -/
  control : Option Tid
  /-- control_.sequence, a 32-bit word -/
  sequence : Nat
  /-- Requests the daemon has yet to answer, the oldest first. -/
  asked : List Request
  /-- Answers on the connection, the oldest first. -/
  answers : List Answer
  own : Option Answer
  exchanges : List Ended

inductive Op where
  | lockControl
  | unlockControl
  /-- `sendDomainRequest`; an errno where it failed. -/
  | send (type : MessageType) (name : String)
  | receive
  | loadSequence
  | finish (type : MessageType) (name : String) (outcome : Outcome)

abbrev Op.Ret : Op → Type
  | .send _ _ => Option Int
  | .receive => Option Answer
  | .loadSequence => Nat
  | _ => Unit

inductive Choice where
  | any
  | fails (code : Int)
  deriving Inhabited

def exec (i : Tid) : (o : Op) → Choice → State → Option (o.Ret × State)
  | .lockControl, _, s => if s.control = none then some ((), { s with control := some i }) else none
  | .unlockControl, _, s =>
    if s.control = some i then some ((), { s with control := none }) else none
  | .send type name, ch, s =>
    let sequence := (s.sequence + 1) % 2 ^ 32
    match ch with
    | .any => some (none, { s with
        sequence := sequence
        asked := s.asked ++ [⟨sequence, type, name⟩]
        own := none })
    | .fails code => some (some code, { s with sequence := sequence, own := none })
  | .receive, ch, s =>
    match ch, s.answers with
    | .any, answer :: rest => some (some answer, { s with
        answers := rest
        own := s.answers.find? (·.sequence = s.sequence) })
    -- the time is up
    | .fails _, [] => some (none, s)
    | _, _ => none
  | .loadSequence, _, s => some (s.sequence, s)
  | .finish type name outcome, _, s =>
    some ((), { s with exchanges := ⟨type, name, s.own, outcome⟩ :: s.exchanges })

/-! ### The code -/

abbrev Proc := Prog Op Op.Ret

def act (o : Op) : Proc o.Ret := Prog.perform o

def unreachable (code : Int) : Refusal := ⟨"cmed: could not reach the daemon", code⟩

/-- ETIMEDOUT. -/
def unanswered : Refusal := ⟨"cmed: the daemon did not answer", 110⟩

/-- EPROTO. -/
def unmatched : Refusal := ⟨"cmed: the daemon's answer does not match the request", 71⟩

/-- What the result of an answer comes to. -/
def answered (type : MessageType) (name : String) (result : Int) : Outcome :=
  if result ≠ 0 then
    some ⟨"cmed: the daemon would not " ++ nameOfCommand type ++ " " ++ name, -result⟩
  else none

/-- What the answer that was taken comes to, for the request of this sequence. -/
def judge (type : MessageType) (name : String) (answer : Answer) (sequence : Nat) :
    Outcome :=
  match answer.result with
  | none => some unmatched
  | some result =>
    if answer.sequence ≠ sequence then some unmatched else answered type name result

def exchangeDomainRequestLocked (type : MessageType) (name : String) :
    Proc Outcome := do
  match ← act (.send type name) with
  | some code => pure (some (unreachable code))
  | none =>
    match ← act .receive with
    | none => pure (some unanswered)
    | some answer => pure (judge type name answer (← act .loadSequence))

/-- A call, under the control mutex. -/
def exchange (type : MessageType) (name : String) : Proc Unit := do
  act .lockControl
  let outcome ← exchangeDomainRequestLocked type name
  act (.finish type name outcome)
  act .unlockControl

structure Call where
  type : MessageType
  name : String

inductive Env where
  | answer (result : Int)

/-- The daemon answers the oldest request. -/
def env : Env → State → Option State
  | .answer result, s =>
    match s.asked with
    | [] => none
    | request :: rest => some { s with
        asked := rest
        answers := s.answers ++ [⟨request.sequence, some result⟩] }

def system : System Tid Op Op.Ret State Choice Call Env where
  exec := exec
  start _ call _ := some (exchange call.type call.name)
  env := env
  kills _ _ := false

/-- A connection after its Welcome. -/
def welcomed : State where
  control := none
  sequence := 1
  asked := []
  answers := []
  own := none
  exchanges := []

def idle : Config Tid Op Op.Ret State := ⟨welcomed, fun _ => .done ()⟩

/-! ### The stages of an exchange -/

/-- The call returned the result of its own answer, if that was there. -/
def Ended.Matched (e : Ended) : Prop :=
  ∀ a, e.own = some a → ∃ result, a.result = some result ∧
    e.outcome = answered e.type e.name result

/-- No call has given up on its answer. -/
def Patient (exchanges : List Ended) : Prop := ∀ e ∈ exchanges, e.outcome ≠ some unanswered

/-- How far a caller is. -/
inductive Stage where
  | out
  | held
  | sent
  | took (answer : Answer)
  /-- It knows the outcome of its call. -/
  | judged (type : MessageType) (name : String) (outcome : Outcome)
  deriving DecidableEq

def Stage.within : Stage → Bool
  | .out => false
  | _ => true

/-- Nothing is on the way, if no call has given up. -/
def Quiet (s : State) : Prop := Patient s.exchanges → s.asked = [] ∧ s.answers = []

/-- The one request under way, or its answer. -/
def UnderWay (s : State) : Prop :=
  (∃ type name, s.asked = [⟨s.sequence, type, name⟩] ∧ s.answers = []) ∨
    (s.asked = [] ∧ ∃ result, s.answers = [⟨s.sequence, some result⟩])

def Fits (s : State) : Stage → Prop
  | .out => True
  | .held => Quiet s
  | .sent => s.own = none ∧ (Patient s.exchanges → UnderWay s)
  | .took answer => Patient s.exchanges → s.asked = [] ∧ s.answers = [] ∧
      s.own = some answer ∧ ∃ result, answer = ⟨s.sequence, some result⟩
  | .judged type name outcome => (Patient s.exchanges → Ended.Matched ⟨type, name, s.own, outcome⟩) ∧
      (outcome ≠ some unanswered → Quiet s)

structure Inv (s : State) (γ : Tid → Stage) : Prop where
  monitor : Monitor State.control Stage.within Quiet Fits s γ
  matched : ∀ later e earlier, s.exchanges = later ++ e :: earlier → Patient earlier → e.Matched

variable {i : Tid} {v : Stage}

theorem wp_inside {o : Op} {Q : o.Ret → Stage → Prop} (hv : v.within = true)
    (h : ∀ s, Fits s v → ∀ ch r s', exec i o ch s = some (r, s') →
      s'.control = s.control ∧ s'.exchanges = s.exchanges ∧
        ∃ v', v'.within = true ∧ Fits s' v' ∧ Q r v') :
    wp system Inv i (act o) Q v := by
  rintro s γ hI rfl ch r s' hx
  obtain ⟨hcontrol, hexchanges, v', hv', hfits, hQ⟩ := h s (hI.monitor.fits i hv) ch r s' hx
  refine ⟨v', ⟨hI.monitor.inside hv hv' hcontrol hfits, ?_⟩, hQ⟩
  rw [hexchanges]
  exact hI.matched

section

variable (type : MessageType)

include type

theorem wp_send (name : String) : wp system Inv i (act (.send type name)) (fun r w => match r with
      | none => w = .sent
      | some code => w = .judged type name (some (unreachable code))) .held := by
  refine wp_inside rfl fun s hs ch r s' hx => ?_
  cases ch with
  | any =>
    cases hx
    refine ⟨rfl, rfl, .sent, rfl, ⟨rfl, fun hpatient => Or.inl ⟨type, name, ?_, ?_⟩⟩, rfl⟩
    · show s.asked ++ _ = _
      rw [(hs hpatient).1, List.nil_append]
    · exact (hs hpatient).2
  | fails code =>
    cases hx
    exact ⟨rfl, rfl, .judged type name (some (unreachable code)), rfl,
      ⟨fun _ _ ha => (nomatch ha), fun _ => hs⟩, rfl⟩

/-- The one answer on the way is the caller's own. -/
theorem wp_receive (name : String) : wp system Inv i (act .receive) (fun r w => match r with
      | none => w = .judged type name (some unanswered)
      | some answer => w = .took answer) .sent := by
  refine wp_inside rfl fun s hs ch r s' hx => ?_
  obtain ⟨hown, hway⟩ := hs
  cases ch with
  | any =>
    cases hanswers : s.answers with
    | nil =>
      simp only [exec, hanswers] at hx
      cases hx
    | cons answer rest =>
      simp only [exec, hanswers] at hx
      cases hx
      refine ⟨rfl, rfl, .took answer, rfl, fun hpatient => ?_, rfl⟩
      rcases hway hpatient with ⟨_, _, -, hnone⟩ | ⟨hasked, result, hone⟩
      · cases hanswers.symm.trans hnone
      · obtain ⟨rfl, rfl⟩ := List.cons.inj (hanswers.symm.trans hone)
        refine ⟨hasked, rfl, ?_, result, rfl⟩
        simp
  | fails code =>
    cases hanswers : s.answers with
    | nil =>
      simp only [exec, hanswers] at hx
      cases hx
      refine ⟨rfl, rfl, .judged type name (some unanswered), rfl, ⟨fun _ a ha => ?_, ?_⟩, rfl⟩
      · cases hown.symm.trans ha
      · exact fun h => absurd rfl h
    | cons answer rest =>
      simp only [exec, hanswers] at hx
      cases hx

/-- The sequence is the one the request went out under. -/
theorem wp_judge (name : String) (answer : Answer) : wp system Inv i (act .loadSequence)
      (fun sequence w => w = .judged type name (judge type name answer sequence)) (.took answer) := by
  refine wp_inside rfl fun s hs ch r s' hx => ?_
  cases hx
  refine ⟨rfl, rfl, .judged type name (judge type name answer s.sequence), rfl,
    ⟨fun hpatient a ha => ?_, fun _ hpatient => ?_⟩, rfl⟩
  · obtain ⟨-, -, hown, result, rfl⟩ := hs hpatient
    obtain rfl := Option.some.inj (hown.symm.trans ha)
    refine ⟨result, rfl, ?_⟩
    simp only [judge, ne_eq, not_true_eq_false, if_false]
  · exact ⟨(hs hpatient).1, (hs hpatient).2.1⟩

theorem wp_exchangeDomainRequestLocked (name : String) :
    wp system Inv i (exchangeDomainRequestLocked type name)
      (fun outcome w => w = .judged type name outcome) .held := by
  rw [exchangeDomainRequestLocked]
  refine wp_then (wp_send type name) fun sent w hw => ?_
  cases sent with
  | some code => exact hw
  | none =>
    obtain rfl : w = .sent := hw
    refine wp_then (wp_receive type name) fun taken w hw => ?_
    cases taken with
    | none => exact hw
    | some answer =>
      obtain rfl : w = .took answer := hw
      exact .bind <| wp_judge type name answer

theorem wp_finish (name : String) (outcome : Outcome) :
    wp system Inv i (act (.finish type name outcome)) (fun _ w => w = .held)
      (.judged type name outcome) := by
  intro s γ hI hγ ch r s' hx
  have hin : (γ i).within = true := by rw [hγ]; rfl
  have hfits := hI.monitor.fits i hin
  rw [hγ] at hfits
  obtain ⟨hmatched, hquiet⟩ := hfits
  cases hx
  refine ⟨.held, ⟨hI.monitor.inside hin rfl rfl fun hpatient => ?_, fun later e earlier hsplit hp => ?_⟩,
    rfl⟩
  · have hme : outcome ≠ some unanswered := hpatient ⟨type, name, s.own, outcome⟩ (.head _)
    exact hquiet hme fun e he => hpatient e (.tail _ he)
  · cases later with
    | nil =>
      obtain ⟨rfl, rfl⟩ := List.cons.inj hsplit
      exact hmatched hp
    | cons x later => exact hI.matched later e earlier (List.cons.inj hsplit).2 hp

end

theorem wp_lockControl : wp system Inv i (act .lockControl) (fun _ w => w = .held) .out := by
  intro s γ hI hγ ch r s' hx
  obtain ⟨hfree, ⟨⟩⟩ := of_guard hx
  exact ⟨.held, ⟨hI.monitor.enter hfree rfl rfl fun hq => hq, hI.matched⟩, rfl⟩

theorem wp_unlockControl : wp system Inv i (act .unlockControl) (fun _ w => w = .out) .held := by
  intro s γ hI hγ ch r s' hx
  have hin : (γ i).within = true := by rw [hγ]; rfl
  have hquiet := hI.monitor.fits i hin
  rw [hγ] at hquiet
  obtain ⟨-, ⟨⟩⟩ := of_guard hx
  exact ⟨.out, ⟨hI.monitor.exit hin rfl rfl hquiet, hI.matched⟩, rfl⟩

theorem wp_exchange (type : MessageType) (name : String) :
    wp system Inv i (exchange type name) (fun _ w => w = .out) .out := by
  rw [exchange]
  refine wp_seq wp_lockControl fun _ => ?_
  refine wp_seq (wp_exchangeDomainRequestLocked type name) fun outcome => ?_
  refine wp_seq (wp_finish type name outcome) fun _ => ?_
  exact wp_unlockControl

/-- The daemon's answer takes the place of its request. -/
theorem UnderWay.answer {s s' : State} {result : Int} (h : UnderWay s)
    (hs : env (.answer result) s = some s') : UnderWay s' := by
  rcases h with ⟨type, name, hasked, hanswers⟩ | ⟨hasked, -⟩
  · simp only [env, hasked, hanswers] at hs
    cases hs
    exact Or.inr ⟨rfl, result, rfl⟩
  · simp only [env, hasked] at hs
    cases hs

theorem Inv.answer {s s' : State} {γ : Tid → Stage} {result : Int} (hI : Inv s γ)
    (hs : env (.answer result) s = some s') : Inv s' γ := by
  obtain ⟨request, rest, hasked⟩ : ∃ request rest, s.asked = request :: rest := by
    cases hasked : s.asked with
    | nil =>
      simp only [env, hasked] at hs
      cases hs
    | cons request rest => exact ⟨request, rest, rfl⟩
  have hsame : s'.control = s.control ∧ s'.exchanges = s.exchanges ∧ s'.own = s.own ∧
      s'.sequence = s.sequence := by
    simp only [env, hasked] at hs
    cases hs
    exact ⟨rfl, rfl, rfl, rfl⟩
  obtain ⟨hcontrol, hexchanges, hown, hsequence⟩ := hsame
  -- with nothing under way the daemon has nothing to answer
  have hbusy : ∀ s : State, s.asked = request :: rest → ¬ s.asked = [] := by
    intro s h hnil
    cases h.symm.trans hnil
  have hquiet : Quiet s → Quiet s' := by
    intro hq hpatient
    rw [hexchanges] at hpatient
    exact absurd (hq hpatient).1 (hbusy s hasked)
  have hfits : ∀ v, Fits s v → Fits s' v := by
    intro v hf
    cases v with
    | out => trivial
    | held => exact hquiet hf
    | sent =>
      refine ⟨hown.trans hf.1, fun hpatient => ?_⟩
      rw [hexchanges] at hpatient
      exact (hf.2 hpatient).answer hs
    | took answer =>
      intro hpatient
      rw [hexchanges] at hpatient
      exact absurd (hf hpatient).1 (hbusy s hasked)
    | judged type name outcome =>
      refine ⟨fun hpatient => ?_, fun hne => hquiet (hf.2 hne)⟩
      rw [hexchanges] at hpatient
      rw [hown]
      exact hf.1 hpatient
  refine ⟨hI.monitor.beside hcontrol (fun _ => hquiet) (fun j _ _ => hfits (γ j))
    fun j => Or.inl rfl, ?_⟩
  rw [hexchanges]
  exact hI.matched

theorem outline : Outline system Inv fun _ v => v = .out where
  start i call s γ p hI hrest hp := by
    cases hp
    refine ⟨.out, ?_, wp_exchange call.type call.name⟩
    rw [← hrest, Function.update_eq_self]
    exact hI
  env e s γ s' hI hs := by
    obtain ⟨result⟩ := e
    exact ⟨γ, hI.answer hs, fun i => rfl⟩

theorem inv_welcomed : Inv welcomed fun _ => .out := by
  refine ⟨⟨fun i => ?_, fun _ _ => ⟨rfl, rfl⟩, fun _ hin => by cases hin⟩, fun later e earlier hsplit => ?_⟩
  · exact ⟨fun hm => (nomatch hm), fun hm => (nomatch hm)⟩
  · cases later <;> cases hsplit

/-! ### The answers -/

/-- **Answers are matched.** While no earlier call on the connection has given up on
its answer, a call whose own answer is there returns that answer's result. -/
theorem answers_matched {c : Config Tid Op Op.Ret State} (h : system.Reachable idle c)
    {later earlier : List Ended} {e : Ended} (hsplit : c.shared.exchanges = later ++ e :: earlier)
    (hpatient : ∀ x ∈ earlier, x.outcome ≠ some unanswered) (a : Answer) (ha : e.own = some a) :
    ∃ result, a.result = some result ∧ e.outcome = answered e.type e.name result := by
  have hidle : Outlined system Inv (fun _ v => v = .out) idle :=
    outlined_of_idle (γ := fun _ => .out) (fun _ => rfl) inv_welcomed fun _ => rfl
  obtain ⟨γ, hI, -⟩ := outline.reachable hidle h
  exact hI.matched later e earlier hsplit hpatient a ha

/-- One call after another, each with its answer in time. -/
def inTime : List (Action Tid Choice Call Env) :=
  .start 0 ⟨.joinDomain, "a"⟩ :: steps 0 2 ++ .env (.answer 0) :: steps 0 4 ++
  .start 1 ⟨.deleteDomain, "b"⟩ :: steps 1 2 ++ .env (.answer (-16)) :: steps 1 4

theorem answers_matched_inTime : ∃ c, system.Reachable idle c ∧ ∃ e ∈ c.shared.exchanges,
    e.own = some ⟨3, some (-16)⟩ ∧ e.outcome = answered .deleteDomain "b" (-16) := by
  obtain ⟨c, hc, hlog⟩ := System.exists_of_run system idle inTime
    (P := fun c => c.shared.exchanges =
      [⟨.deleteDomain, "b", some ⟨3, some (-16)⟩, answered .deleteDomain "b" (-16)⟩,
        ⟨.joinDomain, "a", some ⟨2, some 0⟩, none⟩]) (by decide +kernel)
  refine ⟨c, hc, _, by rw [hlog]; exact .head _, rfl, ?_⟩
  have hpatient : ∀ x ∈ [(⟨.joinDomain, "a", some ⟨2, some 0⟩, none⟩ : Ended)],
      x.outcome ≠ some unanswered := by decide
  have hsplit : c.shared.exchanges = [] ++ _ :: _ := hlog
  obtain ⟨result, hresult, houtcome⟩ := answers_matched hc hsplit hpatient _ rfl
  obtain rfl := Option.some.inj hresult
  exact houtcome

/-- The first call gives up, and its answer stays ahead of the second's. -/
def late : List (Action Tid Choice Call Env) :=
  .start 0 ⟨.joinDomain, "a"⟩ :: execs 0 [.any, .any, .fails 0, .any, .any] ++
  .start 1 ⟨.joinDomain, "b"⟩ :: steps 1 2 ++ .env (.answer 0) :: .env (.answer 0) :: steps 1 4

/-- An answer on the connection is lost behind a late one. -/
theorem answer_behind_late : ∃ c, system.Reachable idle c ∧ ∃ e ∈ c.shared.exchanges,
    e.own = some ⟨3, some 0⟩ ∧ e.outcome = some unmatched :=
  System.exists_of_run _ _ late (by decide +kernel)

end Cme.Client.Exchange
