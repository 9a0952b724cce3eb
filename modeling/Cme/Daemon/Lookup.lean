import Cme.Daemon.Manager
import Cme.Interleave.Observe

/-!
# Daemon — the name index and the slot table

`domains_.ids` is written by `claim`, `refresh` and `retire`, always under the naming
mutex, and so are the names and states of the slots. `Names` is what they write; it
agrees when an entry of the index leads to a standing slot of that name.

A lookup outlives the naming mutex: `join` and `leave` find their slot under it and
count on the slot afterwards. `Watch` is the lookup of the command in progress, and
notes a change the command makes to a slot that does not carry its name.

`claim` gives a slot whose id the region gave to another name to that name, and leaves
the entry of the old name in the index. The two agree where that does not happen, and
where a refresh pass retires no slot that a command has just looked up (`settled`).
-/

namespace Cme.Daemon

open Function Interleave

/-! ### The watch -/

/-- The lookup of the command in progress. -/
structure Watch where
  found : Option (DomainName × DomainId)
  /-- The entry's mutex was taken since. -/
  counted : Bool
  /-- The command has cleared the slot's name. -/
  cleared : Bool
  /-- A command changed a slot that did not carry its name. -/
  strayed : Bool
  deriving DecidableEq

/-- The slot of which an access changes the counts, the turn, the name or the state. -/
def Op.touched : Op → Option DomainId
  | .addJoin d | .dropJoin d | .clearJoins d | .takeTurn d _ _ | .releaseTurn d | .revokeTurn d
  | .setName d _ | .markState d _ => some d
  | _ => none

namespace Watch

def strays (w : Watch) (r : Registry) (o : Op) : Bool :=
  match w.found, o.touched with
  | some (name, d), some e =>
    !(decide (e = d) && (w.cleared || decide (readField (r.name e) = name.getText)))
  | _, _ => false

/-- What the watch is after an access of the control thread. A command that keeps the
naming mutex ends where it gives the mutex back, the others where they give the
entry's back. -/
def after (w : Watch) (o : Op) (r : Registry) : Watch :=
  match o with
  | .findId name => { w with
      found := (r.ids name).map fun d => (name, d), counted := false, cleared := false }
  | .lockCounting _ => { w with counted := true }
  | .unlockCounting _ => if r.naming = some .control then w else { w with found := none }
  | .unlockNaming => if w.counted then { w with found := none } else w
  | .setName _ _ => { w with cleared := true }
  | _ => w

def note (t : Tid) (o : Op) (s : State) (w : Watch) : Watch :=
  if t = .control then
    { w.after o s.registry with strayed := w.strayed || w.strays s.registry o }
  else w

end Watch

/-- A name whose field holds its text and nothing behind it, as every name that was
read from a field is. -/
def DomainName.Canonical (name : DomainName) : Prop := DomainName.make name.getText = some name

instance (name : DomainName) : Decidable name.Canonical := inferInstanceAs (Decidable (_ = _))

/-- No slot goes from one name to another, no refresh retires a slot a command has
looked up, and names are read from fields. -/
def settled (t : Tid) (o : Op) (_ : Choice) (s : State × Watch) : Bool :=
  match t, o with
  | _, .markState _ .broken => false
  | .maintainer, .markState d .free => decide (∀ x, s.2.found = some x → x.2 ≠ d)
  | _, .setId name _ => decide name.Canonical
  | _, _ => true

/-- One node with its watch, settled. -/
def settledSystem (lim : Limits) : System Tid Op Ret (State × Watch) Choice Call Env :=
  ((system lim).observe Watch.note).restrict settled

def noLookup : Watch := ⟨none, false, false, false⟩

/-! ### The table and its index -/

/-- What the naming mutex guards. -/
structure Names where
  ids : DomainName → Option DomainId
  name : DomainId → Text
  state : DomainId → SlotState

def Registry.names (r : Registry) : Names := ⟨r.ids, r.name, r.state⟩

namespace Names

/-- A slot stands for a domain of that name. -/
def Carries (m : Names) (d : DomainId) (name : DomainName) : Prop :=
  m.state d = .live ∧ readField (m.name d) = name.getText

/-- The index away from one slot. -/
structure AgreesBut (m : Names) (d : Option DomainId) : Prop where
  carries : ∀ name e, m.ids name = some e → some e ≠ d → m.Carries e name
  canonical : ∀ name e, m.ids name = some e → name.Canonical
  unbroken : ∀ e, m.state e ≠ .broken

abbrev Agrees (m : Names) : Prop := m.AgreesBut none

/-- The index leads to slot `d` under the text `x` alone. -/
structure Off (m : Names) (d : DomainId) (x : Text) : Prop extends m.AgreesBut (some d) where
  here : ∀ name, m.ids name = some d → name.getText = x

variable {m : Names} {d : DomainId} {x : Text} {n : DomainName}

theorem Agrees.carries_of_find (h : m.Agrees) (hn : m.ids n = some d) : m.Carries d n :=
  h.carries n d hn (by simp)

theorem Agrees.off (h : m.Agrees) (hx : m.state d = .live → readField (m.name d) = x) :
    m.Off d x where
  carries _ _ hn _ := h.carries_of_find hn
  canonical := h.canonical
  unbroken := h.unbroken
  here _ hn := (h.carries_of_find hn).2.symm.trans (hx (h.carries_of_find hn).1)

theorem Off.agrees (h : m.Off d x) (hd : ∀ n, m.ids n = some d → m.Carries d n) : m.Agrees where
  carries n e hn _ := by
    by_cases he : e = d
    · subst he
      exact hd n hn
    · exact h.carries n e hn (by simpa using he)
  canonical := h.canonical
  unbroken := h.unbroken

theorem Carries.ne {e : DomainId} (h : m.Carries e n) (hd : m.state d ≠ .live) : e ≠ d :=
  fun he => hd (he ▸ h.1)

theorem Carries.congr {m' : Names} (h : m.Carries d n) (hs : m'.state d = m.state d)
    (hn : m'.name d = m.name d) : m'.Carries d n := by
  rw [Carries, hs, hn]
  exact h

theorem AgreesBut.setSlot {m' : Names} (h : m.AgreesBut (some d)) (hids : m'.ids = m.ids)
    (hname : ∀ e, e ≠ d → m'.name e = m.name e) (hstate : ∀ e, e ≠ d → m'.state e = m.state e)
    (hd : m'.state d ≠ .broken) : m'.AgreesBut (some d) where
  carries n e hn he := by
    rw [hids] at hn
    have hne : e ≠ d := by simpa using he
    exact (h.carries n e hn he).congr (hstate e hne) (hname e hne)
  canonical n e hn := h.canonical n e (by rw [← hids]; exact hn)
  unbroken e := by
    by_cases he : e = d
    · subst he
      exact hd
    · rw [hstate e he]
      exact h.unbroken e

theorem Agrees.setSlot {m' : Names} (h : m.Agrees) (hd : m.state d ≠ .live) (hids : m'.ids = m.ids)
    (hname : ∀ e, e ≠ d → m'.name e = m.name e) (hstate : ∀ e, e ≠ d → m'.state e = m.state e)
    (hd' : m'.state d ≠ .broken) : m'.Agrees := by
  have hoff : m.AgreesBut (some d) :=
    ⟨fun n e hn _ => h.carries_of_find hn, h.canonical, h.unbroken⟩
  have hoff' := hoff.setSlot hids hname hstate hd'
  refine ⟨fun n e hn _ => hoff'.carries n e hn ?_, hoff'.canonical, hoff'.unbroken⟩
  rw [hids] at hn
  simpa using (h.carries_of_find hn).ne hd

theorem Off.setState (h : m.Off d x) {next : SlotState} (hnext : next ≠ .broken) :
    Off { m with state := update m.state d next } d x where
  toAgreesBut := h.toAgreesBut.setSlot rfl (fun _ _ => rfl)
    (fun _ he => update_of_ne he _ _) (by simpa using hnext)
  here := h.here

theorem Off.setName (h : m.Off d x) (field : Text) :
    Off { m with name := update m.name d field } d x where
  toAgreesBut := h.toAgreesBut.setSlot rfl (fun _ he => update_of_ne he _ _)
    (fun _ _ => rfl) (h.unbroken d)
  here := h.here

/-- The only entry that leads to the slot goes. -/
theorem Off.clearId (h : m.Off d n.getText) (hn : n.Canonical) :
    Agrees (if m.ids n = some d then { m with ids := update m.ids n none } else m) := by
  have honly : ∀ n', m.ids n' = some d → n' = n := by
    intro n' hn'
    have hcan := h.canonical n' d hn'
    rw [DomainName.Canonical, h.here n' hn', hn] at hcan
    exact (Option.some.inj hcan).symm
  by_cases hmine : m.ids n = some d
  · rw [if_pos hmine]
    have hids : ∀ n' e, update m.ids n none n' = some e → m.ids n' = some e :=
      fun n' e hn' => (of_update hn' (by simp)).2
    refine ⟨fun n' e hn' _ => ?_, fun n' e hn' => h.canonical n' e (hids n' e hn'), h.unbroken⟩
    have hne : e ≠ d := by
      rintro rfl
      have heq := honly n' (hids n' e hn')
      replace hn' : update m.ids n none n' = some e := hn'
      rw [heq, update_self] at hn'
      cases hn'
    exact (h.carries n' e (hids n' e hn') (by simpa using hne)).congr rfl rfl
  · rw [if_neg hmine]
    refine h.agrees fun n' hn' => ?_
    rw [honly n' hn'] at hn'
    exact absurd hn' hmine

/-- Under a text that is no name, nothing leads to the slot. -/
theorem Off.agrees_of_make_none (h : m.Off d x) (hx : DomainName.make x = none) : m.Agrees := by
  refine h.agrees fun n hn => ?_
  have hcan := h.canonical n d hn
  rw [DomainName.Canonical, h.here n hn, hx] at hcan
  cases hcan

theorem Agrees.setId (h : m.Agrees) (hd : m.Carries d n) (hn : n.Canonical) :
    Agrees { m with ids := update m.ids n (some d) } where
  carries n' e hn' _ := by
    by_cases hne : n' = n
    · subst hne
      replace hn' : update m.ids n' (some d) n' = some e := hn'
      rw [update_self] at hn'
      cases hn'
      exact hd.congr rfl rfl
    · replace hn' : update m.ids n (some d) n' = some e := hn'
      rw [update_of_ne hne] at hn'
      exact (h.carries_of_find hn').congr rfl rfl
  canonical n' e hn' := by
    by_cases hne : n' = n
    · subst hne
      exact hn
    · replace hn' : update m.ids n (some d) n' = some e := hn'
      rw [update_of_ne hne] at hn'
      exact h.canonical n' e hn'
  unbroken := h.unbroken

end Names

end Cme.Daemon
