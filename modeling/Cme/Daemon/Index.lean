import Cme.Daemon.Lookup
import Cme.Daemon.Sections
import Cme.Daemon.Tally
import Cme.Daemon.Words
import Cme.Interleave.Rely

/-!
# Daemon — the index in every run

The procedures of the manager against the naming mutex. Whoever holds it relies on the
table and its index staying as they are, and gives it back with the two in agreement.
The control thread relies on its watch; between the two mutexes of a `join` or a
`leave`, the slot it found keeps its name, as nobody renames a standing slot and the
maintainer retires none that was looked up.
-/

namespace Cme.Daemon.Index

open Function Interleave

variable {lim : Limits} {t : Tid} {s : State × Watch} {μ : Tid → Bool} {n : DomainName} {d : DomainId}

/-- The naming mutex, what it guards, and the lookup in progress. -/
structure Inv (s : State × Watch) (μ : Tid → Bool) : Prop where
  naming : ∀ t, s.1.registry.naming = some t ↔ μ t = true
  agrees : s.1.registry.naming = none → s.1.registry.names.Agrees
  kept : ∀ n d, s.2.found = some (n, d) → s.1.registry.naming ≠ some .control →
    s.1.registry.names.Carries d n
  strayed : s.2.strayed = false

structure Relies (t : Tid) (v : Bool) (s s' : State × Watch) : Prop where
  watch : t = .control → s'.2 = s.2
  names : v = true → s'.1.registry.names = s.1.registry.names
  found : v = true → ∀ x, s'.2.found = some x → s.2.found = some x

def pact : Pact Tid (State × Watch) Bool := ⟨Inv, Relies⟩

/-- What a thread does, from `P` to `Q`, in the runs considered here. -/
abbrev Does (lim : Limits) (t : Tid) {α : Type} (P : Bool → State × Watch → Prop) (p : Proc α)
    (Q : α → Bool → State × Watch → Prop) : Prop := triple pact (settledSystem lim) t P p Q

theorem Inv.alone {t' : Tid} (hI : Inv s μ) (h : μ t = true) (h' : μ t' = true) : t = t' :=
  Option.some.inj (((hI.naming t).mpr h).symm.trans ((hI.naming t').mpr h'))

/-! ### Facts -/

/-- What is known of the table, its index and the watch under the naming mutex. -/
abbrev Fact := Names → Watch → Prop

def Holds (F : Fact) (v : Bool) (s : State × Watch) : Prop :=
  v = true ∧ F s.1.registry.names s.2

/-- What only the control thread can count on, or a lookup that ends leaves true. -/
def Lasts (t : Tid) (F : Fact) : Prop :=
  t = .control ∨ ∀ m w w', (∀ x, w'.found = some x → w.found = some x) → F m w → F m w'

variable {F : Fact}

theorem Holds.stable (hF : Lasts t F) (v : Bool) : Stable (pact.rely t v) (Holds F v) := by
  rintro s s' h ⟨rfl, hs⟩
  refine ⟨rfl, ?_⟩
  have hnames := h.names rfl
  rw [hnames]
  rcases hF with hc | hF
  · rw [h.watch hc]
    exact hs
  · exact hF _ _ _ (h.found rfl) hs

/-- No lookup of this thread is in progress. -/
def Idle (t : Tid) (w : Watch) : Prop := t = .control → w.found = none

/-- The table and its index agree, and no lookup of this thread is in progress. -/
abbrev Tidy (t : Tid) : Bool → State × Watch → Prop := Holds fun m w => m.Agrees ∧ Idle t w

theorem lasts_idle {F : Names → Prop} (t : Tid) : Lasts t fun m w => F m ∧ Idle t w := by
  by_cases ht : t = .control
  · exact .inl ht
  · exact .inr fun m w w' _ h => ⟨h.1, fun hc => absurd hc ht⟩

variable {o : Op} {ch : Choice}

theorem exec_settled {s' : State × Watch} {r : Ret o}
    (hx : (settledSystem lim).exec t o ch s = some (r, s')) :
    settled t o ch s = true ∧ exec lim t o ch s.1 = some (r, s'.1) ∧
      s'.2 = Watch.note t o s.1 s.2 := by
  obtain ⟨hcalm, hx⟩ := System.restrict_exec.mp hx
  obtain ⟨hx, hw⟩ := System.observe_exec hx
  exact ⟨hcalm, hx, hw⟩

theorem note_of_ne (ht : t ≠ .control) (o : Op) (s : State) (w : Watch) :
    Watch.note t o s w = w := if_neg ht

variable {w : Watch}

theorem note_strayed (o : Op) (s : State) (hw : w.strayed = false)
    (hs : t = .control → w.strays s.registry o = false) : (Watch.note t o s w).strayed = false := by
  by_cases ht : t = .control
  · rw [Watch.note, if_pos ht]
    simp [hw, hs ht]
  · rw [note_of_ne ht]
    exact hw

/-! ### Accesses aside -/

/-- Accesses that write what the naming mutex guards, or the mutex. -/
def Op.names : Op → Bool
  | .markState _ _ | .setName _ _ | .setId _ _ | .clearId _ _ | .lockNaming | .unlockNaming => true
  | _ => false

theorem execRegistry_names (ho : Op.names o = false) {r r' : Registry} {a : Ret o}
    (hx : execRegistry t o ch r = some (a, r')) : r'.names = r.names ∧ r'.naming = r.naming := by
  cases o
  case dropJoin d =>
    rw [execRegistry] at hx
    split at hx
    all_goals
      cases hx
      exact ⟨rfl, rfl⟩
  case isExpectedState | getName | turnHandle | addJoin | clearJoins | findId =>
    cases hx
    exact ⟨rfl, rfl⟩
  case markState | setName | setId | clearId | lockNaming | unlockNaming => cases ho
  all_goals cases hx

variable {s s' : State}

theorem exec_names (ho : Op.names o = false) {r : Ret o} (hx : exec lim t o ch s = some (r, s')) :
    s'.registry.names = s.registry.names ∧ s'.registry.naming = s.registry.naming := by
  cases exec_stepped hx with
  | registry h => exact execRegistry_names ho h
  | turns _ h | requests h | region h | took | still => exact ⟨rfl, rfl⟩

/-- Accesses that the watch notes. -/
def Op.noted : Op → Bool
  | .findId _ | .lockCounting _ | .unlockCounting _ | .unlockNaming => true
  | o => o.touched.isSome

theorem strays_of_untouched (ho : o.touched = none) (w : Watch) (r : Registry) :
    w.strays r o = false := by
  rw [Watch.strays, ho]
  cases w.found <;> rfl

theorem note_eq_self (ho : Op.noted o = false) (s : State) (w : Watch) :
    Watch.note t o s w = w := by
  have htouched : o.touched = none := by
    cases o <;> first | rfl | cases ho
  have hafter : w.after o s.registry = w := by
    cases o <;> first | rfl | cases ho
  rw [Watch.note, hafter, strays_of_untouched htouched, Bool.or_false]
  exact ite_self _

/-- Accesses of a thread that touch neither. -/
def Aside (t : Tid) (o : Op) : Prop := Op.names o = false ∧ (t = .control → Op.noted o = false)

theorem note_aside (ho : Aside t o) (s : State) (w : Watch) : Watch.note t o s w = w := by
  by_cases ht : t = .control
  · exact note_eq_self (ho.2 ht) s w
  · exact note_of_ne ht o s w

theorem aside_plain {α : Type} {p : Proc α} (hp : Plain p) : p.Only (Aside t) := by
  refine hp.mono fun o ho => ⟨?_, fun _ => ?_⟩ <;> cases o <;> first | rfl | cases ho

/-- The invariant is about the table, its mutex and the watch. -/
theorem Inv.same {s s' : State × Watch} (hI : Inv s μ)
    (hnames : s'.1.registry.names = s.1.registry.names)
    (hnaming : s'.1.registry.naming = s.1.registry.naming) (hw : s'.2 = s.2) : Inv s' μ where
  naming t := hnaming ▸ hI.naming t
  agrees h := hnames ▸ hI.agrees (hnaming ▸ h)
  kept n d hf hc := hnames ▸ hI.kept n d (hw ▸ hf) (hnaming ▸ hc)
  strayed := hw ▸ hI.strayed

theorem triple_aside {α : Type} {p : Proc α} (hp : p.Only (Aside t))
    {P : Bool → State × Watch → Prop} : Does lim t P p fun _ => P := by
  refine triple_only hp fun o ho s μ hI _ ch r s' hx => ?_
  obtain ⟨-, hx, hw⟩ := exec_settled hx
  obtain ⟨hnames, hnaming⟩ := exec_names ho.1 hx
  rw [note_aside ho] at hw
  exact ⟨hI.same hnames hnaming hw, fun j => ⟨fun _ => hw, fun _ => hnames, fun _ _ h => hw ▸ h⟩⟩

/-! ### Accesses under the naming mutex -/

/-- What the holder of the mutex finds besides what it knows. -/
def Kept (t : Tid) (m : Names) (w : Watch) : Prop :=
  t ≠ .control → ∀ n d, w.found = some (n, d) → m.Carries d n

/-- An access of the holder: the new facts, the lookups of others, and its own. -/
theorem triple_under {G : Ret o → Fact} (hG : ∀ r, Lasts t (G r))
    (h : ∀ s : State × Watch, F s.1.registry.names s.2 → Kept t s.1.registry.names s.2 →
      s.1.registry.naming = some t → ∀ ch r s', settled t o ch s = true →
      exec lim t o ch s.1 = some (r, s') →
        s'.registry.naming = some t ∧ G r s'.registry.names (Watch.note t o s.1 s.2) ∧
          Kept t s'.registry.names s.2 ∧ (t = .control → s.2.strays s.1.registry o = false)) :
    Does lim t (Holds F) (act o) fun r => Holds (G r) := by
  refine .perform fun s μ hI hP ch r s' hx => ?_
  obtain ⟨hcalm, hx, hw⟩ := exec_settled hx
  obtain ⟨hμ, hF⟩ := hP
  have hmine := (hI.naming t).mpr hμ
  have hkept : Kept t s.1.registry.names s.2 := fun ht n d hf =>
    hI.kept n d hf (by rw [hmine]; simpa using ht)
  obtain ⟨hnaming, hGs, hkept', hstray⟩ := h s hF hkept hmine ch r s'.1 hcalm hx
  have hothers : ∀ j, j ≠ t → μ j ≠ true := fun j hj hμj => hj (hI.alone hμj hμ)
  -- the mutex is held before and after, so nobody else relies on the table
  refine ⟨true, ⟨fun j => ?_, fun hnone => ?_, fun n d hf hc => ?_, ?_⟩, ⟨rfl, ?_⟩,
    Holds.stable (hG r) true, fun j hj => ⟨fun hc => ?_, fun hv => absurd hv (hothers j hj),
      fun hv => absurd hv (hothers j hj)⟩⟩
  · by_cases hj : j = t
    · subst hj
      rw [update_self]
      exact ⟨fun _ => rfl, fun _ => hnaming⟩
    · rw [update_of_ne hj, hnaming, ← hI.naming j, hmine]
  · rw [hnaming] at hnone
    cases hnone
  · rw [hnaming] at hc
    have ht : t ≠ .control := fun hc' => hc (by rw [hc'])
    rw [hw, note_of_ne ht] at hf
    exact hkept' ht n d hf
  · rw [hw]
    exact note_strayed o s.1 hI.strayed hstray
  · rw [hw]
    exact hGs
  · have ht : t ≠ .control := fun hc' => hj (hc.trans hc'.symm)
    rw [hw, note_of_ne ht]

theorem triple_read (ho : Aside t o) {G : Ret o → Names → Prop} (hF : Lasts t F)
    (h : ∀ s ch r s', exec lim t o ch s = some (r, s') → G r s.registry.names) :
    Does lim t (Holds F) (act o)
      fun r => Holds fun m w => F m w ∧ G r m := by
  refine triple_under (fun r => ?_) fun s hs hkept hmine ch r s' _ hx => ?_
  · rcases hF with hc | hF
    · exact .inl hc
    · exact .inr fun m w w' hw hm => ⟨hF m w w' hw hm.1, hm.2⟩
  · obtain ⟨hnames, hnaming⟩ := exec_names ho.1 hx
    rw [note_aside ho, hnames, hnaming]
    refine ⟨hmine, ⟨hs, h s.1 ch r s' hx⟩, hkept, fun hc => strays_of_untouched ?_ _ _⟩
    have hnoted := ho.2 hc
    cases o <;> first | rfl | cases hnoted

/-- Without the naming mutex, and no lookup in progress. -/
def Free (t : Tid) (v : Bool) (s : State × Watch) : Prop := v = false ∧ Idle t s.2

theorem Free.stable (t : Tid) (v : Bool) : Stable (pact.rely t v) (Free t v) := by
  rintro s s' h ⟨rfl, hs⟩
  refine ⟨rfl, fun hc => ?_⟩
  rw [h.watch hc]
  exact hs hc

theorem triple_lockNaming : Does lim t (Free t) (act .lockNaming)
    fun _ => Tidy t := by
  refine .perform fun s μ hI hP ch r s' hx => ?_
  obtain ⟨-, hx, hw⟩ := exec_settled hx
  rw [note_eq_self rfl] at hw
  obtain ⟨hμ, hidle⟩ := hP
  obtain ⟨hnone, hs'⟩ := exec_lockNaming lim hx
  have hnames : s'.1.registry.names = s.1.registry.names := by rw [hs']; rfl
  have hnaming : s'.1.registry.naming = some t := by rw [hs']
  have hagrees := hI.agrees hnone
  have hothers : ∀ j, μ j ≠ true := fun j hj => by
    have hheld := (hI.naming j).mpr hj
    rw [hnone] at hheld
    cases hheld
  refine ⟨true, ⟨fun j => ?_, fun hnone' => ?_, fun n d hf hc => ?_, ?_⟩, ⟨rfl, ?_⟩,
    Holds.stable (lasts_idle t) true, fun j hj => ⟨fun _ => hw, fun _ => hnames, ?_⟩⟩
  · by_cases hj : j = t
    · subst hj
      rw [update_self]
      exact ⟨fun _ => rfl, fun _ => hnaming⟩
    · rw [update_of_ne hj, hnaming]
      exact ⟨fun h => absurd (Option.some.inj h).symm hj, fun h => absurd h (hothers j)⟩
  · rw [hnaming] at hnone'
    cases hnone'
  · rw [hw] at hf
    rw [hnames]
    exact hI.kept n d hf (by rw [hnone]; simp)
  · rw [hw]
    exact hI.strayed
  · rw [hnames, hw]
    exact ⟨hagrees, hidle⟩
  · rw [hw]
    exact fun _ _ h => h

/-- The mutex is given back, with the table and its index in agreement; what the
control thread has found and not dropped carries its name. -/
theorem triple_unlockNaming {G : Watch → Prop}
    (hF : ∀ m w, F m w → m.Agrees ∧ (t = .control → ∀ n d,
      (if w.counted then none else w.found) = some (n, d) → m.Carries d n))
    (hG : t = .control → ∀ m w, F m w → G (if w.counted then { w with found := none } else w)) :
    Does lim t (Holds F) (act .unlockNaming)
      fun _ v s => v = false ∧ (t = .control → G s.2) := by
  refine .perform fun s μ hI hP ch r s' hx => ?_
  obtain ⟨-, hx, hw⟩ := exec_settled hx
  obtain ⟨hμ, hFs⟩ := hP
  obtain ⟨hagrees, hcarries⟩ := hF _ _ hFs
  have hmine := (hI.naming t).mpr hμ
  have hs' := (outcome_eq hx).2
  have hnames : s'.1.registry.names = s.1.registry.names := by rw [← hs']; rfl
  have hnaming : s'.1.registry.naming = none := by rw [← hs']
  -- a lookup that was counted ends here
  have hnote : t = .control → s'.2 = if s.2.counted then { s.2 with found := none } else s.2 := by
    intro hc
    rw [hw, Watch.note, if_pos hc, strays_of_untouched rfl, Bool.or_false]
    show { (if s.2.counted then { s.2 with found := none } else s.2) with
      strayed := s.2.strayed } = _
    split <;> rfl
  refine ⟨false, ⟨fun j => ?_, fun _ => hnames ▸ hagrees, fun n d hf _ => ?_, ?_⟩, ⟨rfl, fun hc => ?_⟩,
    ?_, fun j hj => ⟨fun hc => ?_, fun _ => hnames, fun hv => ?_⟩⟩
  · rw [hnaming]
    refine ⟨fun h => (nomatch h), fun h => ?_⟩
    obtain ⟨hj, h⟩ := of_update h (by simp)
    exact absurd (hI.alone h hμ) hj
  · rw [hnames]
    by_cases hc : t = .control
    · rw [hnote hc] at hf
      refine hcarries hc n d ?_
      split at hf
      · cases hf
      · rename_i hcounted
        rw [if_neg hcounted]
        exact hf
    · rw [hw, note_of_ne hc] at hf
      exact hI.kept n d hf (by rw [hmine]; simpa using hc)
  · rw [hw]
    exact note_strayed _ s.1 hI.strayed fun _ => strays_of_untouched rfl _ _
  · rw [hnote hc]
    exact hG hc _ _ hFs
  · rintro s₁ s₂ h ⟨-, hg⟩
    refine ⟨rfl, fun hc => ?_⟩
    rw [h.watch hc]
    exact hg hc
  · have ht : t ≠ .control := fun hc' => hj (hc.trans hc'.symm)
    rw [hw, note_of_ne ht]
  · exact absurd (hI.alone hv hμ) hj

/-! ### Naming -/

theorem triple_isExpected {F : Names → Prop} (d : DomainId) (expected : SlotState) :
    Does lim t (Holds fun m w => F m ∧ Idle t w)
      (act (.isExpectedState d expected))
      fun b => Holds fun m w => (F m ∧ (b = true ↔ m.state d = expected)) ∧ Idle t w := by
  refine (triple_read (G := fun b m => b = true ↔ m.state d = expected) ⟨rfl, fun _ => rfl⟩
    (lasts_idle t) fun s ch r s' hx => ?_).post fun b v s h => ⟨h.1, ⟨h.2.1.1, h.2.2⟩, h.2.1.2⟩
  obtain ⟨rfl, -⟩ := outcome_eq hx
  exact beq_iff_eq

theorem triple_isNamed (hF : Lasts t F) (d : DomainId) (x : Text) :
    Does lim t (Holds F) (isNamed d x)
      fun b => Holds fun m w => F m w ∧ (b = true → m.state d = .live ∧ readField (m.name d) = x) := by
  rw [isNamed]
  refine (triple_read (G := fun r m => r = true → m.state d = .live) ⟨rfl, fun _ => rfl⟩ hF
    fun s ch r s' hx hr => ?_).bind fun live => ?_
  · obtain ⟨rfl, -⟩ := outcome_eq hx
    exact beq_iff_eq.mp hr
  have hlive : Lasts t fun m w => F m w ∧ (live = true → m.state d = .live) := by
    rcases hF with hc | hF
    · exact .inl hc
    · exact .inr fun m w w' hw h => ⟨hF m w w' hw h.1, h.2⟩
  refine .ite (fun hyes => ?_) fun _ => ?_
  · refine (triple_read (G := fun r m => r = readField (m.name d)) ⟨rfl, fun _ => rfl⟩ hlive
      fun s ch r s' hx => ?_).bind fun name => ?_
    · exact ((outcome_eq hx).1).symm
    · refine .pure fun v s hs => ⟨hs.1, hs.2.1.1, fun hname => ⟨hs.2.1.2 hyes, ?_⟩⟩
      exact hs.2.2.symm.trans (by simpa using hname)
  · exact .pure fun v s hs => ⟨hs.1, hs.2.1, fun hb => by cases hb⟩

/-- A write of the holder while no lookup of its own is in progress. -/
theorem triple_write {F G : Names → Prop} (hfound : ∀ w r, (Watch.after w o r).found = w.found)
    (h : ∀ s : State × Watch, F s.1.registry.names → Kept t s.1.registry.names s.2 →
      ∀ ch r s', settled t o ch s = true → exec lim t o ch s.1 = some (r, s') →
        s'.registry.naming = s.1.registry.naming ∧ G s'.registry.names ∧
          Kept t s'.registry.names s.2) :
    Does lim t (Holds fun m w => F m ∧ Idle t w) (act o)
      fun _ => Holds fun m w => G m ∧ Idle t w := by
  refine triple_under (fun _ => lasts_idle t) fun s hs hkept hmine ch r s' hcalm hx => ?_
  obtain ⟨hnaming, hG, hkept'⟩ := h s hs.1 hkept ch r s' hcalm hx
  refine ⟨hnaming.trans hmine, ⟨hG, fun hc => ?_⟩, hkept', fun hc => ?_⟩
  · rw [Watch.note, if_pos hc]
    exact (hfound s.2 s.1.registry).trans (hs.2 hc)
  · rw [Watch.strays, hs.2 hc]

/-- What others have looked up stands, so it is another slot. -/
theorem Kept.away {m m' : Names} (h : Kept t m w) (hd : m.state d ≠ .live)
    (hname : ∀ e, e ≠ d → m'.name e = m.name e) (hstate : ∀ e, e ≠ d → m'.state e = m.state e) :
    Kept t m' w := by
  intro ht n e hf
  have hc := h ht n e hf
  have hne := hc.ne hd
  exact hc.congr (hstate e hne) (hname e hne)

/-- The name, then live, then the index. -/
theorem triple_publishName (n : DomainName) (d : DomainId) : Does lim t
      (Holds fun m w => (m.Agrees ∧ m.state d ≠ .live) ∧ Idle t w) (claim.publishName n d)
      fun _ => Tidy t := by
  rw [claim.publishName]
  refine (triple_write (G := fun m => m.Agrees ∧ m.state d ≠ .live ∧
    readField (m.name d) = n.getText) (fun _ _ => rfl)
    fun s hs hkept ch r s' _ hx => ?_).bind fun _ => ?_
  · cases hx
    refine ⟨rfl, ⟨hs.1.setSlot hs.2 rfl (fun e he => update_of_ne he _ _) (fun _ _ => rfl)
      (hs.1.unbroken d), hs.2, ?_⟩, hkept.away hs.2 (fun e he => update_of_ne he _ _)
        fun _ _ => rfl⟩
    show readField (update s.1.registry.name d n.field d) = n.getText
    rw [update_self]
    rfl
  -- only a live slot must be indexed, and the index is next
  refine (triple_write (G := fun m => m.Agrees ∧ m.Carries d n) (fun _ _ => rfl)
    fun s hs hkept ch r s' _ hx => ?_).bind fun _ => ?_
  · cases hx
    obtain ⟨hagrees, hfree, hname⟩ := hs
    have hlive : update s.1.registry.state d .live d = .live := update_self _ _ _
    exact ⟨rfl, ⟨hagrees.setSlot hfree rfl (fun _ _ => rfl)
      (fun e he => update_of_ne he _ _) (fun hb => nomatch hlive.symm.trans hb),
      hlive, hname⟩, hkept.away hfree (fun _ _ => rfl) fun e he => update_of_ne he _ _⟩
  refine (triple_write (G := fun m => m.Agrees) (fun _ _ => rfl)
    fun s hs hkept ch r s' hcalm hx => ?_).bind fun _ => .pure fun _ _ h => h
  cases hx
  have hn : n.Canonical := by cases t <;> exact of_decide_eq_true hcalm
  exact ⟨rfl, hs.1.setId hs.2 hn, fun ht n' e hf => (hkept ht n' e hf).congr rfl rfl⟩

/-- `claim` leaves the two in agreement where it takes no slot over. -/
theorem triple_claim (n : DomainName) (handle : Handle) :
    Does lim t (Tidy t) (claim lim n handle) fun _ => Tidy t := by
  rw [claim]
  refine .early (fun _ _ h => h) ?_
  refine (triple_isNamed (lasts_idle t) handle.id n.getText).bind fun named => ?_
  refine .ite (fun hyes => ?_) fun _ => ?_
  · refine triple.pre (P := Holds fun m w => (m.Agrees ∧ m.Carries handle.id n) ∧ Idle t w)
      ((triple_write (G := fun m => m.Agrees) (fun _ _ => rfl)
        fun s hs hkept ch r s' hcalm hx => ?_).bind fun _ => .pure fun _ _ h => h) ?_
    · cases hx
      have hn : n.Canonical := by cases t <;> exact of_decide_eq_true hcalm
      exact ⟨rfl, hs.1.setId hs.2 hn, fun ht n' e hf => (hkept ht n' e hf).congr rfl rfl⟩
    · exact fun v s h => ⟨h.1, ⟨h.2.1.1, h.2.2 hyes⟩, h.2.1.2⟩
  · refine triple.pre (P := Tidy t) ?_ fun v s h => ⟨h.1, h.2.1⟩
    refine (triple_isExpected handle.id .live).bind fun live => ?_
    refine .ite (fun _ => ?_) fun hno => ?_
    · -- a slot that stands for another name would be marked Broken
      refine triple.bind (Q := fun _ _ _ => False) (.perform fun s μ hI hP ch r s' hx => ?_)
        fun _ => triple_absurd fun _ _ h => h
      obtain ⟨hcalm, -, -⟩ := exec_settled hx
      cases t <;> cases hcalm
    · refine (triple_isExpected handle.id .broken).bind fun broken => ?_
      refine .ite (fun hyes => triple_absurd fun v s h => ?_) fun _ => ?_
      · -- in these runs no slot is Broken
        exact h.2.1.1.1.unbroken handle.id (h.2.1.2.mp hyes)
      · refine (triple_publishName n handle.id).pre fun v s h => ⟨h.1, ⟨h.2.1.1.1, fun hlive => ?_⟩, h.2.2⟩
        exact hno (h.2.1.1.2.mpr hlive)

/-! ### The maintainer -/

/-- No lookup in progress leads to the slot. -/
def Unsought (d : DomainId) (w : Watch) : Prop := ∀ x, w.found = some x → x.2 ≠ d

theorem lasts_unsought {F : Names → Prop} (d : DomainId) : Lasts t fun m w => F m ∧ Unsought d w :=
  .inr fun _ _ _ hw h => ⟨h.1, fun x hx => h.2 x (hw x hx)⟩

theorem Kept.unsought {m m' : Names} (h : Kept t m w) (hd : Unsought d w)
    (hname : ∀ e, e ≠ d → m'.name e = m.name e) (hstate : ∀ e, e ≠ d → m'.state e = m.state e) :
    Kept t m' w := by
  intro ht n e hf
  have hne : e ≠ d := hd (n, e) hf
  exact (h ht n e hf).congr (hstate e hne) (hname e hne)

/-- The entry that leads to a slot goes from the index, and nothing else. -/
theorem exec_clearId {r : Unit} {m : Names} (hm : s.registry.names = m)
    (hx : exec lim t (.clearId n d) ch s = some (r, s')) :
    s'.registry.naming = s.registry.naming ∧ s'.registry.names =
      if m.ids n = some d then { m with ids := update m.ids n none } else m := by
  subst hm
  cases hx
  by_cases hmine : s.registry.ids n = some d <;> simp [Registry.names, hmine]

theorem triple_retireSlot (d : DomainId) :
    Does lim .maintainer (Tidy .maintainer) (retireSlot d) fun _ => Tidy .maintainer := by
  have hidle : ∀ w, Idle .maintainer w := fun w hc => (nomatch hc)
  rw [retireSlot]
  refine (triple_read (G := fun x m => x = readField (m.name d)) ⟨rfl, fun _ => rfl⟩ (lasts_idle _)
    fun s ch r s' hx => ?_).bind fun x => ?_
  · exact ((outcome_eq hx).1).symm
  refine (triple_under (G := fun _ m w => (m.Off d x ∧ NulFree x) ∧ Unsought d w)
    (fun _ => lasts_unsought d) fun s hs hkept hmine ch r s' hcalm hx => ?_).bind fun _ => ?_
  · cases hx
    obtain ⟨⟨hagrees, -⟩, hname⟩ := hs
    have hd : ∀ x, s.2.found = some x → x.2 ≠ d := of_decide_eq_true hcalm
    exact ⟨hmine, ⟨⟨(hagrees.off fun _ => hname.symm).setState (by decide),
      hname ▸ nulFree_readField _⟩, hd⟩, hkept.unsought hd (fun _ _ => rfl)
        fun e he => update_of_ne he _ _, fun hc => (nomatch hc)⟩
  refine (triple_under (G := fun _ m w => (m.Off d x ∧ NulFree x) ∧ Unsought d w)
    (fun _ => lasts_unsought d) fun s hs hkept hmine ch r s' _ hx => ?_).bind fun _ => ?_
  · cases hx
    exact ⟨hmine, ⟨⟨hs.1.1.setName clearedField, hs.1.2⟩, hs.2⟩,
      hkept.unsought hs.2 (fun e he => update_of_ne he _ _) fun _ _ => rfl,
      fun hc => (nomatch hc)⟩
  have hunlock : Does lim .maintainer (Tidy .maintainer) (act (.unlockMutex d))
      fun _ => Tidy .maintainer := triple_aside (.perform ⟨rfl, fun _ => rfl⟩)
  cases hmake : DomainName.make x with
  | none =>
    exact hunlock.pre fun v s h => ⟨h.1, h.2.1.1.agrees_of_make_none hmake, hidle _⟩
  | some retired =>
    refine triple.bind (triple_under (G := fun _ m w => m.Agrees ∧ Idle .maintainer w)
      (fun _ => lasts_idle _) fun s hs hkept hmine ch r s' _ hx => ?_) fun _ => hunlock
    obtain ⟨⟨hoff, hnul⟩, -⟩ := hs
    have htext := getText_make hnul hmake
    have hcan : retired.Canonical := by rw [DomainName.Canonical, htext, hmake]
    subst htext
    obtain ⟨hnaming, hnames⟩ := exec_clearId rfl hx
    rw [hnames]
    refine ⟨hnaming.trans hmine, ⟨hoff.clearId hcan, hidle _⟩, fun ht n e hf => ?_,
      fun hc => (nomatch hc)⟩
    refine (hkept ht n e hf).congr ?_ ?_
    · split <;> rfl
    · split <;> rfl

theorem triple_retireStale (confirmed slots : List DomainId) :
    Does lim .maintainer (Tidy .maintainer) (retireStale confirmed slots)
      fun _ => Tidy .maintainer := by
  induction slots with
  | nil => exact .pure fun _ _ h => h
  | cons d rest ih =>
    rw [retireStale]
    refine (triple_aside (aside_plain (looks_isTaken d).plain)).bind fun taken => .ite (fun _ => ?_) fun _ => ih
    refine .ite (fun _ => ih) fun _ => ?_
    refine (triple_aside (aside_plain (plain_tryLockIfIdle d))).bind fun held => .ite (fun _ => ?_) fun _ => ih
    exact (triple_retireSlot d).bind fun _ => ih

theorem triple_claimAll (entries : List DomainEntry) :
    Does lim t (Tidy t) (claimAll lim entries) fun _ => Tidy t := by
  induction entries with
  | nil => exact .pure fun _ _ h => h
  | cons entry rest ih =>
    rw [claimAll]
    split
    · exact ih
    · exact (triple_claim _ _).bind fun _ => ih

/-- The mutex goes back after work that left no lookup. -/
theorem triple_release : Does lim t (Tidy t) (act .unlockNaming) fun _ => Free t := by
  refine (triple_unlockNaming (G := fun w => w.found = none) (fun m w h => ⟨h.1, fun hc n d hf => ?_⟩)
    fun hc m w h => ?_).post fun _ v s h => h
  · rw [h.2 hc] at hf
    split at hf <;> cases hf
  · split
    · rfl
    · exact h.2 hc

theorem triple_refresh : Does lim .maintainer (Free .maintainer)
    (refresh lim) fun _ => Free .maintainer := by
  rw [refresh]
  refine (triple_aside (.perform ⟨rfl, fun _ => rfl⟩)).bind fun expired =>
    .late ?_ fun _ _ h => h
  refine triple_lockNaming.bind fun _ => ?_
  refine (triple_aside (aside_plain (looks_getDomainEntries _).plain)).bind fun living => ?_
  split
  · exact triple_release
  · refine (triple_aside (aside_plain (looks_confirm _).plain)).bind fun confirmed => ?_
    exact (triple_retireStale confirmed _).bind fun _ => (triple_claimAll _).bind fun _ =>
      triple_release

/-! ### The other threads -/

section Others

variable (ht : t ≠ .control)
include ht

theorem aside_act {o : Op} (ho : Op.names o = false) : (act o).Only (Aside t) :=
  .perform ⟨ho, fun hc => absurd hc ht⟩

theorem aside_leaveDomain (handle : Handle) : (leaveDomain handle).Only (Aside t) := by
  rw [leaveDomain]
  exact .ite (.pure _) (aside_act ht rfl)

theorem aside_dropTurn (d : DomainId) : (dropTurn d).Only (Aside t) := by
  refine .bind (aside_act ht rfl) fun _ => .bind (aside_act ht rfl)
    fun state => .ite (.pure _) ?_
  refine .bind (aside_act ht rfl) fun _ => .bind (aside_act ht rfl)
    fun keeps => .ite (.pure _) ?_
  exact .bind (aside_act ht rfl) fun handle => .bind (aside_leaveDomain ht handle)
    fun _ => .pure _

theorem aside_grant (d : DomainId) : (grant d).Only (Aside t) := by
  refine .bind (aside_plain (plain_publish d _)) fun _ => .bind (aside_act ht rfl) fun _ =>
    .bind (aside_act ht rfl) fun rides => .ite (aside_plain (plain_answerGrant d)) ?_
  refine .bind (aside_act ht rfl) fun name => .bind (aside_act ht rfl)
    fun joined => ?_
  split
  · exact aside_plain (plain_refuse d _)
  · refine .bind (aside_act ht rfl) fun locked => ?_
    split
    · exact aside_plain (plain_refuse d _)
    · exact .bind (aside_act ht rfl) fun _ => .bind (aside_act ht rfl)
        fun _ => aside_plain (plain_answerGrant d)

theorem aside_dropTurnIfIdle (d : DomainId) : (dropTurnIfIdle d).Only (Aside t) := by
  have hdrop : (do let _ ← dropTurn d : Proc Unit).Only (Aside t) :=
    .bind (aside_dropTurn ht d) fun _ => .pure _
  refine .bind (aside_act ht rfl) fun holds => .ite ?_ (.pure _)
  refine .bind (aside_act ht rfl) fun waiters => .ite ?_ hdrop
  exact .bind (aside_act ht rfl) fun expired => .ite hdrop (.pure _)

theorem aside_serveLock (d : DomainId) : (serveLock lim d).Only (Aside t) := by
  refine .ite (.bind (aside_act ht rfl) fun _ => .bind (aside_act ht rfl)
    fun state => .bind ?_ fun _ => aside_act ht rfl) (.pure _)
  cases state with
  | lockRequested => exact aside_grant ht d
  | idle => exact aside_dropTurnIfIdle ht d
  | _ => exact .pure _

theorem aside_dropExpiredTurns (slots : List DomainId) : (dropExpiredTurns slots).Only (Aside t) := by
  induction slots with
  | nil => exact .pure _
  | cons d rest ih =>
    have hunlock : (act (.unlockCounting d)).Only (Aside t) := aside_act ht rfl
    refine .bind ?_ fun _ => ih
    refine .bind (aside_act ht rfl) fun busy => .ite (.pure _) ?_
    refine .bind (aside_act ht rfl) fun _ => .bind (aside_act ht rfl)
      fun holds => .ite ?_ hunlock
    refine .bind (aside_act ht rfl) fun expired => .ite ?_ hunlock
    exact .bind (.bind (aside_plain (plain_reclaimAbandoned d)) fun _ => aside_dropTurn ht d) fun _ => hunlock

end Others

/-! ### The control thread -/

theorem note_control (o : Op) (s : State) (hs : w.strays s.registry o = false) :
    Watch.note .control o s w = { w.after o s.registry with strayed := w.strayed } := by
  rw [Watch.note, if_pos rfl, hs, Bool.or_false]

/-- The slot of the lookup is changed, while it carries the name or after the command
has cleared it. -/
theorem strays_found {r : Registry} (ho : o.touched = some d) (hf : w.found = some (n, d))
    (hd : w.cleared = true ∨ readField (r.name d) = n.getText) : w.strays r o = false := by
  rw [Watch.strays, hf, ho]
  rcases hd with hd | hd
  · simp [hd]
  · simp [hd]

theorem strays_none (o : Op) (r : Registry) (hf : w.found = none) : w.strays r o = false := by
  rw [Watch.strays, hf]

/-- An access beside the naming mutex that the watch notes. -/
theorem triple_count (ho : Op.names o = false) {F : Watch → Prop} {G : Ret o → Watch → Prop}
    (h : ∀ s : State × Watch, s.1.registry.naming ≠ some .control →
      (∀ n d, s.2.found = some (n, d) → s.1.registry.names.Carries d n) → F s.2 →
      s.2.strays s.1.registry o = false ∧
        (∀ x, (s.2.after o s.1.registry).found = some x → s.2.found = some x) ∧
        ∀ r, G r { s.2.after o s.1.registry with strayed := s.2.strayed }) :
    Does lim .control (fun v s => v = false ∧ F s.2) (act o)
      fun r v s => v = false ∧ G r s.2 := by
  refine .perform fun s μ hI hP ch r s' hx => ?_
  obtain ⟨-, hx, hw⟩ := exec_settled hx
  obtain ⟨hnames, hnaming⟩ := exec_names ho hx
  obtain ⟨hμ, hF⟩ := hP
  have hnot : s.1.registry.naming ≠ some .control := fun hc => by
    rw [(hI.naming .control).mp hc] at hμ
    cases hμ
  obtain ⟨hstray, hfound, hG⟩ := h s hnot (fun n d hf => hI.kept n d hf hnot) hF
  rw [note_control o s.1 hstray] at hw
  refine ⟨false, ⟨fun j => ?_, fun hnone => ?_, fun n d hf hc => ?_, ?_⟩, ⟨rfl, ?_⟩, ?_,
    fun j hj => ⟨fun hc => absurd hc hj, fun _ => hnames, fun _ x hx => ?_⟩⟩
  · rw [hnaming, ← hμ, update_eq_self]
    exact hI.naming j
  · rw [hnames]
    exact hI.agrees (hnaming ▸ hnone)
  · rw [hw] at hf
    rw [hnames]
    exact hI.kept n d (hfound _ hf) (hnaming ▸ hc)
  · rw [hw]
    exact hI.strayed
  · rw [hw]
    exact hG r
  · rintro s₁ s₂ h ⟨-, hg⟩
    rw [h.watch rfl]
    exact ⟨rfl, hg⟩
  · rw [hw] at hx
    exact hfound x hx

theorem triple_lockCounting {F : Option (DomainName × DomainId) → Prop} (d : DomainId) :
    Does lim .control (fun v s => v = false ∧ F s.2.found)
      (act (.lockCounting d)) fun _ v s => v = false ∧ F s.2.found := by
  refine triple_count (o := .lockCounting d) (F := fun w => F w.found)
    (G := fun _ w => F w.found) rfl fun s _ _ hF => ?_
  exact ⟨strays_of_untouched rfl _ _, fun _ hx => hx, fun _ => hF⟩

theorem triple_unlockCounting {F : Watch → Prop} (d : DomainId) :
    Does lim .control (fun v s => v = false ∧ F s.2)
      (act (.unlockCounting d)) fun _ => Free .control := by
  refine (triple_count (G := fun _ w => w.found = none) rfl fun s hnot _ hF =>
    ⟨strays_of_untouched rfl _ _, fun x hx => ?_, fun _ => ?_⟩).post
      fun _ v s h => ⟨h.1, fun _ => h.2⟩
  · replace hx : (if s.1.registry.naming = some .control then s.2
      else { s.2 with found := none }).found = some x := hx
    rw [if_neg hnot] at hx
    cases hx
  · show (if s.1.registry.naming = some .control then s.2
      else { s.2 with found := none }).found = none
    rw [if_neg hnot]

theorem triple_touch (ho : Op.names o = false) (htouched : o.touched = some d)
    (hafter : ∀ w r, Watch.after w o r = w) :
    Does lim .control (fun v s => v = false ∧ s.2.found = some (n, d))
      (act o) fun _ v s => v = false ∧ s.2.found = some (n, d) := by
  refine triple_count (F := fun w => w.found = some (n, d)) (G := fun _ w => w.found = some (n, d))
    ho fun s _ hcarries hf => ⟨strays_found htouched hf (.inr ?_), fun x hx => ?_, fun _ => ?_⟩
  · exact (hcarries n d hf).2
  · rw [hafter] at hx
    exact hx
  · show (s.2.after o s.1.registry).found = some (n, d)
    rw [hafter]
    exact hf

theorem triple_findId (n : DomainName) :
    Does lim .control (Tidy .control) (act (.findId n)) fun found => Holds fun m w => m.Agrees ∧ found = m.ids n ∧
        w.found = found.map (fun d => (n, d)) ∧ w.counted = false := by
  refine triple_under (fun _ => .inl rfl) fun s hs hkept hmine ch r s' _ hx => ?_
  obtain ⟨hnames, hnaming⟩ := exec_names rfl hx
  obtain ⟨rfl, -⟩ := outcome_eq hx
  have hstray : s.2.strays s.1.registry (.findId n) = false := strays_of_untouched rfl _ _
  rw [hnames, note_control _ s.1 hstray]
  exact ⟨hnaming.trans hmine, ⟨hs.1, rfl, rfl, rfl⟩, hkept, fun _ => hstray⟩

theorem triple_findNamed (n : DomainName) : Does lim .control (Free .control) (findNamed n)
      fun found v s => v = false ∧ s.2.found = found.map fun d => (n, d) := by
  rw [findNamed]
  refine triple_lockNaming.bind fun _ => (triple_findId n).bind fun found => ?_
  refine (triple_unlockNaming (G := fun w => w.found = found.map fun d => (n, d))
    (fun m w h => ⟨h.1, fun _ n' d hf => ?_⟩) fun _ m w h => ?_).bind
      fun _ => .pure fun v s h => ⟨h.1, h.2 rfl⟩
  · obtain ⟨hagrees, hids, hfound, hcounted⟩ := h
    rw [hcounted, if_neg Bool.false_ne_true, hfound] at hf
    obtain ⟨d', rfl, ⟨⟩⟩ := Option.map_eq_some_iff.mp hf
    exact hagrees.carries_of_find hids.symm
  · obtain ⟨-, -, hfound, hcounted⟩ := h
    rw [if_neg (by rw [hcounted]; decide)]
    exact hfound

theorem triple_handBack (n : DomainName) (d : DomainId) (answer : DomainAnswer) : Does lim .control
      (fun v s => v = false ∧ s.2.found = some (n, d)) (do act (.unlockCounting d); pure answer)
      fun _ => Free .control :=
  (triple_unlockCounting (F := fun w => w.found = some (n, d)) d).bind
    fun _ => .pure fun _ _ h => h

theorem triple_join (n : DomainName) :
    Does lim .control (Free .control) (join n) fun _ => Free .control := by
  rw [join]
  refine (triple_findNamed n).bind fun found => ?_
  cases found with
  | none => exact .pure fun v s h => ⟨h.1, fun _ => h.2⟩
  | some d =>
    refine (triple_lockCounting (F := fun found => found = some (n, d)) d).bind fun _ => ?_
    refine (triple_aside (.perform ⟨rfl, fun _ => rfl⟩)).bind fun joined => ?_
    split
    · exact (triple_touch rfl rfl fun _ _ => rfl).bind fun _ => triple_handBack n d _
    · exact triple_handBack n d _
    · exact triple_handBack n d _

theorem triple_leave (n : DomainName) :
    Does lim .control (Free .control) (leave n) fun _ => Free .control := by
  rw [leave]
  refine (triple_findNamed n).bind fun found => ?_
  cases found with
  | none => exact .pure fun v s h => ⟨h.1, fun _ => h.2⟩
  | some d =>
    refine (triple_lockCounting (F := fun found => found = some (n, d)) d).bind fun _ => ?_
    refine (triple_touch rfl rfl fun _ _ => rfl).bind fun dropped =>
      .ite (fun _ => ?_) fun _ => triple_handBack n d _
    refine (triple_aside (.perform ⟨rfl, fun _ => rfl⟩)).bind fun keeps =>
      .ite (fun _ => triple_handBack n d _) fun _ => ?_
    exact (triple_aside (.perform ⟨rfl, fun _ => rfl⟩)).bind fun _ => triple_handBack n d _

/-! ### `create` -/

theorem triple_finishCreate (n : DomainName) (created : Handle) :
    Does lim .control (Free .control) (finishCreate lim n created)
      fun _ => Free .control := by
  rw [finishCreate]
  refine triple_lockNaming.bind fun _ => (triple_claim n created).bind fun claimed =>
    triple_release.bind fun _ => .late ?_ fun _ _ h => h
  -- A command that creates looks nothing up.
  have hadd : Does lim .control (fun v s => v = false ∧ s.2.found = none)
      (act (.addJoin created.id)) fun _ v s => v = false ∧ s.2.found = none :=
    triple_count (o := .addJoin created.id) (F := fun w => w.found = none)
      (G := fun _ w => w.found = none) rfl
      fun s _ _ hf => ⟨strays_none _ _ hf, fun _ hx => hx, fun _ => hf⟩
  refine ((triple_lockCounting (F := fun found => found = none) created.id).pre
    fun v s h => ⟨h.1, h.2 rfl⟩).bind fun _ => hadd.bind fun _ => ?_
  exact (triple_unlockCounting (F := fun w => w.found = none) created.id).bind
    fun _ => .pure fun _ _ h => h

theorem triple_create (n : DomainName) : Does lim .control (Free .control) (create lim n)
      fun _ => Free .control := by
  rw [create]
  refine (triple_aside (.perform ⟨rfl, fun _ => rfl⟩)).bind fun made => ?_
  split
  · exact triple_finishCreate n _
  · refine (triple_aside (.perform ⟨rfl, fun _ => rfl⟩)).bind fun joined => ?_
    split
    · exact triple_finishCreate n _
    · exact .pure fun _ _ h => h
    · exact .pure fun _ _ h => h
  · exact .pure fun _ _ h => h
  · exact .pure fun _ _ h => h

/-! ### `remove` -/

/-- An access under the naming mutex that changes nothing the mutex guards. -/
theorem triple_noted (ho : Op.names o = false) {F G : Fact}
    (h : ∀ s : State × Watch, s.1.registry.naming = some .control →
      F s.1.registry.names s.2 → s.2.strays s.1.registry o = false ∧
        G s.1.registry.names { s.2.after o s.1.registry with strayed := s.2.strayed }) :
    Does lim .control (Holds F) (act o) fun _ => Holds G := by
  refine triple_under (fun _ => .inl rfl) fun s hs hkept hmine ch r s' _ hx => ?_
  obtain ⟨hnames, hnaming⟩ := exec_names ho hx
  obtain ⟨hstray, hG⟩ := h s hmine hs
  rw [hnames, note_control o s.1 hstray]
  exact ⟨hnaming.trans hmine, hG, hkept, fun _ => hstray⟩

/-- The domain of the command, found and standing. -/
def Found (n : DomainName) (d : DomainId) : Fact := fun m w =>
  m.Agrees ∧ m.ids n = some d ∧ w.found = some (n, d)

/-- Its slot is no longer standing. -/
def Leaving (n : DomainName) (d : DomainId) : Fact := fun m w =>
  m.Off d n.getText ∧ n.Canonical ∧ w.found = some (n, d) ∧ w.counted = true

/-- It still has the name. -/
def Removing (n : DomainName) (d : DomainId) : Fact := fun m w =>
  Leaving n d m w ∧ readField (m.name d) = n.getText

/-- The command is done with the slot. -/
def Done : Fact := fun m w => m.Agrees ∧ w.counted = true

theorem triple_markFree (n : DomainName) (d : DomainId) :
    Does lim .control (Holds fun m w => Found n d m w ∧ w.counted = true)
      (act (.markState d .free)) fun _ => Holds (Removing n d) := by
  refine triple_under (fun _ => .inl rfl) fun s hs _ hmine ch r s' _ hx => ?_
  obtain ⟨⟨hagrees, hids, hfound⟩, hcounted⟩ := hs
  cases hx
  have htext := (hagrees.carries_of_find hids).2
  have hstray : s.2.strays s.1.registry (.markState d .free) = false :=
    strays_found rfl hfound (.inr htext)
  rw [note_control _ s.1 hstray]
  refine ⟨hmine, ⟨⟨?_, hagrees.canonical n d hids, hfound, hcounted⟩, htext⟩,
    fun hc => absurd rfl hc, fun _ => hstray⟩
  exact (hagrees.off fun _ => htext).setState (by decide)

theorem triple_markLive (n : DomainName) (d : DomainId) :
    Does lim .control (Holds (Removing n d)) (act (.markState d .live))
      fun _ => Holds Done := by
  refine triple_under (fun _ => .inl rfl) fun s hs _ hmine ch r s' _ hx => ?_
  obtain ⟨⟨hoff, -, hfound, hcounted⟩, htext⟩ := hs
  cases hx
  have hstray : s.2.strays s.1.registry (.markState d .live) = false :=
    strays_found rfl hfound (.inr htext)
  rw [note_control _ s.1 hstray]
  refine ⟨hmine, ⟨?_, hcounted⟩, fun hc => absurd rfl hc, fun _ => hstray⟩
  -- Whatever leads to the slot leads there under the name it has.
  refine (hoff.setState (by decide : SlotState.live ≠ .broken)).agrees fun n' hn' => ⟨?_, ?_⟩
  · exact update_self ..
  · exact htext.trans (hoff.here n' hn').symm

theorem triple_clearName (n : DomainName) (d : DomainId) :
    Does lim .control (Holds (Removing n d)) (act (.setName d clearedField))
      fun _ => Holds fun m w => Leaving n d m w ∧ w.cleared = true := by
  refine triple_under (fun _ => .inl rfl) fun s hs _ hmine ch r s' _ hx => ?_
  obtain ⟨⟨hoff, hcan, hfound, hcounted⟩, htext⟩ := hs
  cases hx
  have hstray : s.2.strays s.1.registry (.setName d clearedField) = false :=
    strays_found rfl hfound (.inr htext)
  rw [note_control _ s.1 hstray]
  refine ⟨hmine, ⟨⟨?_, hcan, hfound, hcounted⟩, rfl⟩, fun hc => absurd rfl hc, fun _ => hstray⟩
  exact hoff.setName _

/-- The entry goes after the name, and nothing leads to the slot. -/
theorem triple_clearEntry (n : DomainName) (d : DomainId) : Does lim .control
      (Holds fun m w => Leaving n d m w ∧ w.cleared = true) (act (.clearId n d))
      fun _ => Holds fun m w => Done m w ∧ w.found = some (n, d) ∧ w.cleared = true := by
  refine triple_under (fun _ => .inl rfl) fun s hs _ hmine ch r s' _ hx => ?_
  obtain ⟨⟨hoff, hcan, hfound, hcounted⟩, hcleared⟩ := hs
  obtain ⟨hnaming, hnames⟩ := exec_clearId rfl hx
  have hstray : s.2.strays s.1.registry (.clearId n d) = false := strays_of_untouched rfl _ _
  rw [note_control _ s.1 hstray, hnames]
  exact ⟨hnaming.trans hmine, ⟨⟨hoff.clearId hcan, hcounted⟩, hfound, hcleared⟩,
    fun hc => absurd rfl hc, fun _ => hstray⟩

theorem triple_lockEntry {F G : Fact} (hF : ∀ m w, F m w → G m { w with counted := true })
    (d : DomainId) : Does lim .control (Holds F) (act (.lockCounting d))
      fun _ => Holds G := by
  refine triple_noted rfl fun s _ hs => ⟨strays_of_untouched rfl _ _, ?_⟩
  exact hF s.1.registry.names s.2 hs

theorem triple_unlockEntry (d : DomainId) : Does lim .control (Holds F) (act (.unlockCounting d))
      fun _ => Holds F := by
  refine triple_noted rfl fun s hmine hs => ⟨strays_of_untouched rfl _ _, ?_⟩
  have hafter : s.2.after (.unlockCounting d) s.1.registry = s.2 := if_pos hmine
  rw [hafter]
  exact hs

theorem triple_touchEntry (ho : Op.names o = false) (htouched : o.touched = some d)
    (hafter : ∀ w r, Watch.after w o r = w)
    (hF : ∀ m w, F m w →
      w.found = some (n, d) ∧ (w.cleared = true ∨ readField (m.name d) = n.getText)) :
    Does lim .control (Holds F) (act o) fun _ => Holds F := by
  refine triple_noted ho fun s _ hs => ?_
  obtain ⟨hfound, htext⟩ := hF _ _ hs
  refine ⟨strays_found htouched hfound htext, ?_⟩
  rw [hafter]
  exact hs

theorem triple_retire (n : DomainName) (d : DomainId) :
    Does lim .control (Holds (Removing n d)) (retire n d)
      fun _ => Holds Done := by
  rw [retire]
  refine (triple_clearName n d).bind fun _ => (triple_clearEntry n d).bind fun _ => ?_
  refine (triple_lockEntry (G := fun m w => Done m w ∧ w.found = some (n, d) ∧ w.cleared = true)
    (fun m w h => ⟨⟨h.1.1, rfl⟩, h.2⟩) d).bind fun _ => ?_
  refine (triple_touchEntry rfl rfl (fun _ _ => rfl) fun m w h => ⟨h.2.1, .inl h.2.2⟩).bind
    fun _ => ?_
  exact (triple_unlockEntry d).post fun _ _ _ h => ⟨h.1, h.2.1⟩

theorem triple_removeQuiet (n : DomainName) (d : DomainId) :
    Does lim .control (Holds (Removing n d)) (removeQuiet n d)
      fun _ => Holds Done := by
  rw [removeQuiet]
  have htext : ∀ m w, Removing n d m w →
      w.found = some (n, d) ∧ (w.cleared = true ∨ readField (m.name d) = n.getText) :=
    fun m w h => ⟨h.1.2.2.1, .inr h.2⟩
  refine (triple_lockEntry (G := Removing n d)
    (fun m w h => ⟨⟨h.1.1, h.1.2.1, h.1.2.2.1, rfl⟩, h.2⟩) d).bind fun _ => ?_
  refine (triple_touchEntry rfl rfl (fun _ _ => rfl) htext).bind fun _ => ?_
  refine (triple_touchEntry rfl rfl (fun _ _ => rfl) htext).bind fun _ => ?_
  refine (triple_unlockEntry d).bind fun _ => ?_
  refine (triple_aside (.perform ⟨rfl, fun _ => rfl⟩)).bind fun deleted => ?_
  have hback : ∀ answer : DomainAnswer, Does lim .control
      (Holds (Removing n d)) (do act (.markState d .live); pure answer) fun _ => Holds Done :=
    fun answer => (triple_markLive n d).bind fun _ => .pure fun _ _ h => h
  have hretire : Does lim .control (Holds (Removing n d))
      (do retire n d; pure DomainAnswer.served) fun _ => Holds Done :=
    (triple_retire n d).bind fun _ => .pure fun _ _ h => h
  split
  · exact hretire
  · exact hretire
  · exact hback _
  · exact hback _

theorem triple_removeSlot (n : DomainName) (d : DomainId) :
    Does lim .control (Holds fun m w => Found n d m w ∧ w.counted = true)
      (removeSlot n d) fun _ => Holds Done := by
  rw [removeSlot]
  refine (triple_markFree n d).bind fun _ => ?_
  refine (triple_aside (.perform ⟨rfl, fun _ => rfl⟩)).bind fun turns => ?_
  refine (triple_aside (aside_plain (plain_awaitQuiet d turns))).bind fun quiet => .ite (fun _ => ?_) fun _ => ?_
  · refine (triple_removeQuiet n d).bind fun answer => ?_
    exact (triple_aside (.perform ⟨rfl, fun _ => rfl⟩)).bind fun _ => .pure fun _ _ h => h
  · exact (triple_markLive n d).bind fun _ => .pure fun _ _ h => h

theorem triple_done : Does lim .control (Holds Done) (act .unlockNaming)
    fun _ => Free .control := by
  refine triple_unlockNaming (G := fun w => w.found = none) (fun m w h => ⟨h.1, fun _ n d hf => ?_⟩)
    fun _ m w h => ?_
  · rw [if_pos h.2] at hf
    cases hf
  · rw [if_pos h.2]

theorem triple_remove (n : DomainName) :
    Does lim .control (Free .control) (remove n) fun _ => Free .control := by
  rw [remove]
  refine triple_lockNaming.bind fun _ => (triple_findId n).bind fun found => ?_
  cases found with
  | none =>
    refine (triple_release.pre fun v s h => ?_).bind fun _ => .pure fun _ _ h => h
    exact ⟨h.1, h.2.1, fun _ => h.2.2.2.1⟩
  | some d =>
    have hlock : Does lim .control (Holds (Found n d))
        (act (.lockCounting d)) fun _ => Holds fun m w => Found n d m w ∧ w.counted = true :=
      triple_lockEntry (fun m w h => ⟨h, rfl⟩) d
    refine (hlock.pre fun v s h => ⟨h.1, h.2.1, h.2.2.1.symm, h.2.2.2.1⟩).bind fun _ => ?_
    refine (triple_aside (.perform ⟨rfl, fun _ => rfl⟩)).bind fun keeps => ?_
    refine (triple_unlockEntry d).bind fun _ => .ite (fun _ => ?_) fun _ => ?_
    · exact (triple_removeSlot n d).bind fun answer => triple_done.bind
        fun _ => .pure fun _ _ h => h
    · exact (triple_done.pre fun v s h => ⟨h.1, h.2.1.1, h.2.2⟩).bind
        fun _ => .pure fun _ _ h => h

theorem triple_serveCommand (asked : Command) (asking : Text) :
    Does lim .control (Free .control) (serveCommand lim asked asking)
      fun _ => Free .control := by
  rw [serveCommand]
  cases DomainName.make asking with
  | none => exact .pure fun _ _ h => h
  | some n =>
    cases asked with
    | createDomain => exact triple_create n
    | deleteDomain => exact triple_remove n
    | joinDomain => exact triple_join n
    | leaveDomain => exact triple_leave n

/-! ### Every run -/

theorem triple_maintain : Does lim .maintainer (Free .maintainer)
    (maintain lim) fun _ => Free .maintainer := by
  rw [maintain]
  exact triple_refresh.bind fun _ => triple_aside (aside_dropExpiredTurns (by decide) _)

/-- Out of the naming mutex; a requester never asks for it, and may end anywhere. -/
def Rest : Tid → Bool → State × Watch → Prop
  | .requester _, _, _ => True
  | t, v, s => Free t v s

theorem Rest.stable (t : Tid) (v : Bool) : Stable (pact.rely t v) (Rest t v) := by
  cases t with
  | requester r => exact fun _ _ _ _ => trivial
  | _ => exact Free.stable _ v

theorem triple_start {call : Call} {s : State} {p : Proc Unit} (hp : start lim t call s = some p) :
    Does lim t (Rest t) p fun _ => Rest t := by
  cases start_begun hp with
  | tryLock name =>
    exact triple_aside (.bind (aside_plain (plain_tryLockOnce name)) fun _ => .pure _)
  | unlock => exact triple_aside (aside_plain (plain_release _))
  | serveLock d => exact triple_aside (aside_serveLock (by simp) d)
  | command asked asking =>
    exact (triple_serveCommand asked asking).bind fun _ => .pure fun _ _ h => h
  | maintain => exact triple_maintain

theorem env_registry {e : Env} (he : env lim e s = some s') : s'.registry = s.registry := by
  cases e with
  | die r =>
    cases he
    rfl
  | createElsewhere | deleteElsewhere =>
    obtain ⟨-, ⟨⟩⟩ := of_guard he
    rfl

theorem kept : pact.Kept (settledSystem lim) Rest where
  start t call s μ p hI hrest hp := by
    refine ⟨μ t, Rest t, ?_, hrest, Rest.stable t _, triple_start hp⟩
    rwa [update_eq_self]
  env e s μ s' hI he := by
    obtain ⟨s₁, hs₁, rfl⟩ := Option.map_eq_some_iff.mp he
    have hr := env_registry hs₁
    refine ⟨μ, hI.same (by rw [hr]) (by rw [hr]) rfl, fun t => ?_⟩
    split
    · rename_i hkilled
      refine ⟨?_, Rest.stable t _⟩
      -- Only requesters die.
      cases e with
      | die r =>
        obtain rfl : t = .requester r := of_decide_eq_true hkilled
        trivial
      | createElsewhere d x | deleteElsewhere d => cases hkilled
    · exact ⟨rfl, fun _ => rfl, fun _ => by rw [hr], fun _ x hx => hx⟩

theorem inv_fresh : Inv (fresh.watched noLookup).shared fun _ => false where
  naming _ := ⟨fun h => (nomatch h), fun h => (nomatch h)⟩
  agrees _ := ⟨fun _ _ h => (nomatch h), fun _ _ h => (nomatch h), fun _ => SlotState.noConfusion⟩
  kept _ _ h := nomatch h
  strayed := rfl

/-- **The index and the table agree.** In every run in which no slot goes from one name
to another and no refresh retires a slot a command has looked up: while nobody holds the
naming mutex, an entry of the index leads to a slot that stands and carries the name,
and no command has changed a slot that did not carry its name. -/
theorem index_agrees (lim : Limits) (c : Config Tid Op Ret (State × Watch))
    (h : (settledSystem lim).Reachable (fresh.watched noLookup) c) :
    (system lim).Reachable fresh c.unwatched ∧
      (c.shared.1.registry.naming = none → ∀ name d, c.shared.1.registry.ids name = some d →
        (c.shared.1.registry.state d = .live ∨ c.shared.1.registry.state d = .broken) ∧
          readField (c.shared.1.registry.name d) = name.getText) ∧
      c.shared.2.strayed = false := by
  obtain ⟨μ, hI⟩ := kept.reachable (fun _ => rfl) inv_fresh
    (fun t => by cases t <;> first | trivial | exact ⟨rfl, fun _ => rfl⟩)
    (fun t => Rest.stable t _) h
  refine ⟨h.of_restrict.unwatched, fun hnone name d hd => ?_, hI.strayed⟩
  have hcarries := (hI.agrees hnone).carries_of_find hd
  exact ⟨.inl hcarries.1, hcarries.2⟩

/-- A command of the control thread that asks the region first, or goes to the table. -/
def command (asked : Command) (asking : Text) (region : List Choice) (reads : Nat) :
    List (Action Tid Choice Call Env) :=
  .start .control (.command asked asking) :: region.map (.exec .control) ++ steps .control reads

/-- A domain is created here and joined again. -/
def joinTwice : List (Action Tid Choice Call Env) :=
  List.flatten [command .createDomain ['a'] [.domain (some 1)] 11,
    command .joinDomain ['a'] [] 6]

theorem index_agrees_joinTwice : ∃ c, (settledSystem ⟨2, 2⟩).Reachable (fresh.watched noLookup) c ∧
      c.shared.1.registry.naming = none ∧ c.shared.1.registry.ids (named 'a') = some 1 ∧
      c.shared.1.registry.joined 1 = 2 ∧ c.shared.2.found = some (named 'a', 1) ∧
      (c.shared.1.registry.state 1 = .live ∨ c.shared.1.registry.state 1 = .broken) ∧
      readField (c.shared.1.registry.name 1) = ['a'] ∧ c.shared.2.strayed = false := by
  obtain ⟨c, hc, hnaming, hids, hjoined, hfound⟩ := System.exists_of_run (settledSystem ⟨2, 2⟩)
    (fresh.watched noLookup) joinTwice
    (P := fun c => c.shared.1.registry.naming = none ∧
      c.shared.1.registry.ids (named 'a') = some 1 ∧ c.shared.1.registry.joined 1 = 2 ∧
      c.shared.2.found = some (named 'a', 1)) (by decide +kernel)
  obtain ⟨-, hagrees, hstrayed⟩ := index_agrees ⟨2, 2⟩ c hc
  obtain ⟨hstate, hname⟩ := hagrees hnaming (named 'a') 1 hids
  exact ⟨c, hc, hnaming, hids, hjoined, hfound, hstate, hname, hstrayed⟩

/-- Another node creates a domain, a refresh finds it, it is deleted, and a domain of
another name is created here with its id. Then a client leaves the first. -/
def takeSlotOver : List (Action Tid Choice Call Env) :=
  List.flatten [[.env (.createElsewhere 1 ['a'])], refreshPass 15 2, [.env (.deleteElsewhere 1)],
    command .createDomain ['b'] [.domain (some 1)] 18, command .leaveDomain ['a'] [] 5]

/-- **A stale entry.** Nobody holds the naming mutex, and the index leads from one name
to a slot that carries another; the command on the first name has taken the other
domain's last join. -/
theorem stale_entry :
    ∃ c, ((system ⟨2, 2⟩).observe Watch.note).Reachable (fresh.watched noLookup) c ∧
      (system ⟨2, 2⟩).Reachable fresh c.unwatched ∧ c.shared.1.registry.naming = none ∧
      c.shared.1.registry.ids (named 'a') = some 1 ∧ c.shared.1.registry.state 1 = .live ∧
      readField (c.shared.1.registry.name 1) = ['b'] ∧
      c.shared.1.registry.ids (named 'b') = some 1 ∧ c.shared.1.registry.joined 1 = 0 ∧
      c.shared.2.strayed = true :=
  (System.exists_of_run _ _ takeSlotOver (by decide +kernel)).imp
    fun _ h => ⟨h.1, h.1.unwatched, h.2⟩

end Cme.Daemon.Index
