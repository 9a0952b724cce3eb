import Cme.Interleave.CountedLatch
import Cme.Interleave.Outline
import Cme.Ownership.Policy

/-!
# Ownership — what every access keeps

`Stage` is what a thread's own past tells about the pin words and the truth
records. `Inv` ties the stages of all threads to the words. Its parts:

* `cells`: the pin word of a peer is a counted latch over the peer's threads.
  A thread has one pin for every section it is in and one while it is inside
  `lock`; a transfer grips the word by its latch, and a `leaveDomain` relies on
  the word staying at 0 from its check to its reset;
* `owner`: a thread that is inside a section, or has read the truth while it
  had a pin or a grip, is right that the truth names its peer;
* `passing`, `seizing`: a recovery pass that has read a record naming the dead
  peer is right about that until it writes.

Each lemma `Inv.*` below is one access that matters; the others change no word
of `Core` and are covered by `wp_quiet`.
-/

namespace Cme.Ownership

open Function Interleave

/-- What a thread's own past tells. -/
inductive Stage where
  | idle
  | pinned (d : DomainId)
  | resident (d : DomainId)
  | closing (d : DomainId)
  | latched (d : DomainId) (knows : Bool)
  | ruling
  | leaving (d : DomainId) (knows : Bool)
  | passing (dead : PeerId)
  | seizing (dead : PeerId) (d : DomainId)
  deriving DecidableEq

namespace Stage

-- Every constructor has its own equation, which is what `grind` rewrites with.

/-- The pins a thread has beyond those of the sections it is in. -/
@[grind] def extra : Stage → DomainId → Nat
  | .pinned d', d | .resident d', d => if d' = d then 1 else 0
  | .idle, _ | .closing _, _ | .latched _ _, _ | .ruling, _ | .leaving _ _, _ => 0
  | .passing _, _ | .seizing _ _, _ => 0

/-- How a thread has the pin word of a domain to itself. -/
@[grind] def grip : Stage → DomainId → Option Grip
  | .latched d' _, d => if d' = d then some .latch else none
  | .leaving d' _, d => if d' = d then some .still else none
  | .idle, _ | .pinned _, _ | .resident _, _ | .closing _, _ | .ruling, _ => none
  | .passing _, _ | .seizing _ _, _ => none

/-- Whether a thread has read that the truth names its peer, and protects it. -/
@[grind] def owns : Stage → DomainId → Prop
  | .resident d', d => d' = d
  | .latched d' k, d | .leaving d' k, d => d' = d ∧ k = true
  | .idle, _ | .pinned _, _ | .closing _, _ | .ruling, _ => False
  | .passing _, _ | .seizing _ _, _ => False

/-- Whether a thread has the control lock. -/
@[grind] def rules : Stage → Prop
  | .ruling | .leaving _ _ => True
  | .idle | .pinned _ | .resident _ | .closing _ | .latched _ _ => False
  | .passing _ | .seizing _ _ => False

/-- The dead peer whose recovery pass a thread is in. -/
@[grind] def pass : Stage → Option PeerId
  | .passing dead | .seizing dead _ => some dead
  | .idle | .pinned _ | .resident _ | .closing _ | .latched _ _ | .ruling | .leaving _ _ => none

/-- Only a leave holds a word still. -/
theorem rules_of_still {v : Stage} {d : DomainId} (h : v.grip d = some .still) : v.rules := by
  cases v <;> simp_all [grip, rules]

end Stage

variable {W : Type} [DecidableEq W] [Fintype W]

/-- The pin word of one peer and domain agrees with the peer's threads. -/
def Cell (s : Core W) (γ : Tid W → Stage) (p : PeerId) (d : DomainId) : Prop :=
  CountedLatch transferringPins (s.pin p d)
    (fun t => s.sections p t d + (γ (p, t)).extra d) (fun t => (γ (p, t)).grip d)

/-- At most one thread has the control lock, and only while it is taken. -/
structure Ruled (control : Bool) (γ : Tid W → Stage) : Prop where
  taken : ∀ i, (γ i).rules → control = true
  one : ∀ i j, (γ i).rules → (γ j).rules → i = j

/-- The invariant; `leaves` says whether the system has `leaveDomain`. -/
structure Inv (leaves : Bool) (s : Core W) (γ : Tid W → Stage) : Prop where
  cells : ∀ p d, Cell s γ p d
  window : ∀ p t d, (γ (p, t)).grip d = some .still → s.leaving p d = true
  closing : ∀ p t d, γ (p, t) = .closing d → 0 < s.sections p t d
  owner : ∀ p t d, s.crashed p = false → 0 < s.sections p t d ∨ (γ (p, t)).owns d →
    (s.truth d).holder = p
  passing : ∀ p t dead, s.crashed p = false → (γ (p, t)).pass = some dead →
    t = .poll ∧ s.crashed dead = true ∧ s.authority dead = some p
  seizing : ∀ p t dead d, s.crashed p = false → γ (p, t) = .seizing dead d →
    (s.truth d).holder = dead
  ruled : Ruled s.control γ
  calm : leaves = false → ∀ p d, s.leaving p d = false

variable {leaves : Bool} {s s' : Core W} {γ : Tid W → Stage} {p : PeerId} {t : Thread W}
variable {d : DomainId} {v : Stage}

omit [Fintype W] in
@[grind =] theorem update_stage (γ : Tid W → Stage) (p : PeerId) (t : Thread W) (v : Stage)
    (p' : PeerId) (t' : Thread W) :
    Function.update γ (p, t) v (p', t') = if p' = p ∧ t' = t then v else γ (p', t') := by
  simp [Function.update_apply, Prod.ext_iff]

/-! ### One cell moves, the others stay -/

/-- **Frame.** An access of thread `(p, t)` to its pin word of `d` moves that cell and no
other. -/
theorem Cell.frame {pin : PeerId → DomainId → Nat} {sections : PeerId → Thread W → DomainId → Nat}
    (h : ∀ p d, Cell s γ p d) (hpin : ∀ p' d', ¬ (p' = p ∧ d' = d) → pin p' d' = s.pin p' d')
    (hsections : ∀ p' t' d', ¬ (p' = p ∧ t' = t ∧ d' = d) →
      sections p' t' d' = s.sections p' t' d')
    (hextra : ∀ d', d' ≠ d → v.extra d' = (γ (p, t)).extra d')
    (hgrip : ∀ d', d' ≠ d → v.grip d' = (γ (p, t)).grip d')
    (hc : CountedLatch transferringPins (pin p d)
      (update (fun t' => s.sections p t' d + (γ (p, t')).extra d) t (sections p t d + v.extra d))
      (update (fun t' => (γ (p, t')).grip d) t (v.grip d))) (p' : PeerId) (d' : DomainId) :
    Cell { s with pin, sections } (update γ (p, t) v) p' d' := by
  unfold Cell
  by_cases hpd : p' = p ∧ d' = d
  · obtain ⟨rfl, rfl⟩ := hpd
    convert hc using 1 <;> funext t' <;> grind [update_apply]
  · have hcell := h p' d'
    unfold Cell at hcell
    convert hcell using 1
    · exact hpin p' d' hpd
    · funext t'
      grind
    · funext t'
      grind

section

variable (h : Inv leaves s γ)

include h

/-- The invariant after an access to a pin word: the cell that was touched, and
what the thread's new stage claims. -/
theorem Inv.touch (d : DomainId) {pin : PeerId → DomainId → Nat}
    {sections : PeerId → Thread W → DomainId → Nat} {leaving : PeerId → DomainId → Bool}
    {control : Bool} (hpin : ∀ p' d', ¬ (p' = p ∧ d' = d) → pin p' d' = s.pin p' d')
    (hsections : ∀ p' t' d', ¬ (p' = p ∧ t' = t ∧ d' = d) →
      sections p' t' d' = s.sections p' t' d')
    (hextra : ∀ d', d' ≠ d → v.extra d' = (γ (p, t)).extra d')
    (hgrip : ∀ d', d' ≠ d → v.grip d' = (γ (p, t)).grip d')
    (hcell : CountedLatch transferringPins (pin p d)
      (update (fun t' => s.sections p t' d + (γ (p, t')).extra d) t (sections p t d + v.extra d))
      (update (fun t' => (γ (p, t')).grip d) t (v.grip d)))
    (hwindow : ∀ p' t' d', (update γ (p, t) v (p', t')).grip d' = some .still →
      leaving p' d' = true)
    (hcalm : leaves = false → ∀ p' d', leaving p' d' = false)
    (hclosing : ∀ d', v = .closing d' → 0 < sections p t d')
    (howner : s.crashed p = false → ∀ d', 0 < sections p t d' ∨ v.owns d' →
      (s.truth d').holder = p)
    (hpass : s.crashed p = false → ∀ dead, v.pass = some dead →
      t = .poll ∧ s.crashed dead = true ∧ s.authority dead = some p)
    (hseizing : s.crashed p = false → ∀ dead d', v = .seizing dead d' →
      (s.truth d').holder = dead) (hruled : Ruled control (update γ (p, t) v)) :
    Inv leaves { s with pin, sections, leaving, control } (update γ (p, t) v) where
  cells := Cell.frame h.cells hpin hsections hextra hgrip hcell
  window := hwindow
  closing := by
    intro p' t' d' hv
    have hold := h.closing p' t' d'
    grind
  owner := by
    intro p' t' d' hp hd
    have hold := h.owner p' t' d'
    grind
  passing := by
    intro p' t' dead hp hv
    have hold := h.passing p' t' dead hp
    grind
  seizing := by
    intro p' t' dead d' hp hv
    have hold := h.seizing p' t' dead d' hp
    grind
  ruled := hruled
  calm := hcalm

omit h in
omit [Fintype W] in
/-- A thread that does not take the control lock takes no right with it. -/
theorem Ruled.update {c : Bool} (h : Ruled c γ) (hv : v.rules → (γ (p, t)).rules) :
    Ruled c (update γ (p, t) v) := by
  obtain ⟨htaken, hone⟩ := h
  constructor
  · rintro ⟨p', t'⟩ hr
    grind
  · rintro ⟨p', t'⟩ ⟨p'', t''⟩ hr hr'
    grind

/-- The same for an access that opens and closes no window: the thread may not
claim more of the truth than it did. -/
theorem Inv.touchWord (d : DomainId) {pin : PeerId → DomainId → Nat}
    {sections : PeerId → Thread W → DomainId → Nat}
    (hpin : ∀ p' d', ¬ (p' = p ∧ d' = d) → pin p' d' = s.pin p' d')
    (hsections : ∀ p' t' d', ¬ (p' = p ∧ t' = t ∧ d' = d) →
      sections p' t' d' = s.sections p' t' d')
    (hextra : ∀ d', d' ≠ d → v.extra d' = (γ (p, t)).extra d')
    (hgrip : ∀ d', d' ≠ d → v.grip d' = (γ (p, t)).grip d')
    (hcell : CountedLatch transferringPins (pin p d)
      (update (fun t' => s.sections p t' d + (γ (p, t')).extra d) t (sections p t d + v.extra d))
      (update (fun t' => (γ (p, t')).grip d) t (v.grip d)))
    (hstill : ∀ d', v.grip d' ≠ some .still) (hclosing : ∀ d', v ≠ .closing d')
    (howner : ∀ d', 0 < sections p t d' ∨ v.owns d' →
      0 < s.sections p t d' ∨ (γ (p, t)).owns d')
    (hpass : v.pass = none) (hrules : ¬ v.rules) :
    Inv leaves { s with pin, sections } (update γ (p, t) v) := by
  refine h.touch d hpin hsections hextra hgrip hcell ?_ h.calm
    (fun d' hv => absurd hv (hclosing d')) ?_ (by simp [hpass]) (by grind)
    (h.ruled.update fun hv => absurd hv hrules)
  · intro p' t' d' hg
    refine h.window p' t' d' ?_
    grind
  · exact fun hp d' hd => h.owner p t d' hp (howner d' hd)

/-! ### The accesses to a pin word -/

omit h in
theorem transferringPins_ne_zero : transferringPins ≠ 0 := by decide

omit [DecidableEq W] in
/-- Nobody holds a word still while no leave is in its window. -/
theorem Inv.not_still (hl : s.leaving p d = false) (t' : Thread W) :
    (γ (p, t')).grip d ≠ some .still := by
  intro hg
  rw [h.window p t' d hg] at hl
  exact Bool.noConfusion hl

theorem Inv.relabel (v : Stage)
    (hextra : ∀ d', v.extra d' = (γ (p, t)).extra d')
    (hgrip : ∀ d', v.grip d' = (γ (p, t)).grip d')
    (hclosing : ∀ d', v = .closing d' → 0 < s.sections p t d')
    (howner : s.crashed p = false → ∀ d', v.owns d' → (s.truth d').holder = p)
    (hpass : s.crashed p = false → ∀ dead, v.pass = some dead →
      t = .poll ∧ s.crashed dead = true ∧ s.authority dead = some p)
    (hseizing : s.crashed p = false → ∀ dead d', v = .seizing dead d' →
      (s.truth d').holder = dead)
    (hrules : v.rules → (γ (p, t)).rules) :
    Inv leaves s (update γ (p, t) v) := by
  refine h.touch 0 (by simp) (by simp) (fun d' _ => hextra d') (fun d' _ => hgrip d')
    ((h.cells p 0).same (by rw [hextra]) (hgrip 0)) ?_ h.calm hclosing ?_ hpass hseizing
    (h.ruled.update hrules)
  · intro p' t' d' hg
    refine h.window p' t' d' ?_
    grind
  · intro hp d' hd
    rcases hd with hd | hd
    · exact h.owner p t d' hp (Or.inl hd)
    · exact howner hp d' hd

theorem Inv.pin (hi : γ (p, t) = .idle) (hw : s.pin p d ≠ transferringPins)
    (hl : s.leaving p d = false) : Inv leaves { s with pin := setCell s.pin p d (s.pin p d + 1) }
      (update γ (p, t) (.pinned d)) := by
  refine h.touchWord d (by grind) (by simp) (by grind) (by grind) (.same_grip ?_ (by grind))
    (by grind) (by grind) (by grind) rfl (by grind)
  have hcell := (h.cells p d).pin hw (h.not_still hl) (t := t)
  simpa [hi, Stage.extra.eq_def, setCell_apply] using hcell

/-- What a thread is about to unpin: its own pin inside `lock`, or the pin of
the section it closes. -/
def Stage.Unpins (v : Stage) (d : DomainId) (closing : Bool) : Prop :=
  if closing then v = .closing d else v = .pinned d ∨ v = .resident d

/-- The section counts once the unpin is over. -/
def unpinSections (s : Core W) (p : PeerId) (t : Thread W) (d : DomainId) (closing : Bool) :
    PeerId → Thread W → DomainId → Nat :=
  if closing then setSections s.sections p t d (s.sections p t d - 1) else s.sections

/-- The end of an unpin, with the word `w` it leaves. -/
theorem Inv.unpinned {closing : Bool} (hv : (γ (p, t)).Unpins d closing)
    {w : Nat}
    (hcell : ∀ n g, CountedLatch transferringPins (s.pin p d) n g → 0 < n t →
      CountedLatch transferringPins w (update n t (n t - 1)) g) :
    Inv leaves { s with pin := setCell s.pin p d w, sections := unpinSections s p t d closing }
      (update γ (p, t) .idle) := by
  have hpos := h.closing p t d
  have hsec : ∀ p' t' d', unpinSections s p t d closing p' t' d' =
      if closing = true ∧ p' = p ∧ t' = t ∧ d' = d then s.sections p t d - 1
      else s.sections p' t' d' := by
    intro p' t' d'
    cases closing <;> simp [unpinSections, setSections_apply]
  have hv' : (closing = true ∧ γ (p, t) = .closing d) ∨
      (closing = false ∧ (γ (p, t) = .pinned d ∨ γ (p, t) = .resident d)) := by
    cases closing <;> simpa [Stage.Unpins] using hv
  refine h.touchWord d (by grind) (by grind) (by grind) (by grind) (.same_grip ?_ (by grind))
    (by grind) (by grind) (by grind) rfl (by grind)
  have hn : 0 < s.sections p t d + (γ (p, t)).extra d := by grind
  have hnew := hcell _ _ (h.cells p d) hn
  have hk : unpinSections s p t d closing p t d + Stage.idle.extra d =
      s.sections p t d + (γ (p, t)).extra d - 1 := by grind
  simpa [hk, setCell_apply] using hnew

theorem Inv.latch (hi : γ (p, t) = .idle) (hw : s.pin p d = 0)
    (hl : s.leaving p d = false) : Inv leaves { s with pin := setCell s.pin p d transferringPins }
      (update γ (p, t) (.latched d false)) := by
  refine h.touchWord d (by grind) (by simp) (by grind) (by grind) (.same_count ?_ (by grind))
    (by grind) (by grind) (by grind) rfl (by grind)
  have hold := h.cells p d
  rw [Cell, hw] at hold
  have hcell := hold.take transferringPins_ne_zero (h.not_still hl) (t := t)
  simpa [Stage.grip.eq_def, setCell_apply] using hcell

theorem Inv.unlatch {k : Bool} (hi : γ (p, t) = .latched d k) :
    Inv leaves { s with pin := setCell s.pin p d 0 } (update γ (p, t) .idle) := by
  refine h.touchWord d (by grind) (by simp) (by grind) (by grind) (.same_count ?_ (by grind))
    (by grind) (by grind) (by grind) rfl (by grind)
  have hcell := (h.cells p d).release (t := t) (by grind)
  simpa [Stage.grip.eq_def, setCell_apply] using hcell

/-- The pin of a lock that returned Arrived becomes the pin of a section. -/
theorem Inv.arrive (hi : γ (p, t) = .resident d) :
    Inv leaves { s with sections := setSections s.sections p t d (s.sections p t d + 1) }
      (update γ (p, t) .idle) :=
  h.touchWord d (by simp) (by grind) (by grind) (by grind)
    ((h.cells p d).same (by grind) (by grind)) (by grind) (by grind) (by grind) rfl (by grind)

/-! ### The control lock and the window of a leave -/

theorem Inv.lockControl (hi : γ (p, t) = .idle) (hc : s.control = false) :
    Inv leaves { s with control := true } (update γ (p, t) .ruling) := by
  have hfree : ∀ i, ¬ (γ i).rules := fun i hr => by simp [h.ruled.taken i hr] at hc
  refine h.touch 0 (by simp) (by simp) (by grind) (by grind)
    ((h.cells p 0).same (by grind) (by grind)) ?_ h.calm (by simp) ?_ (by simp [Stage.pass])
    (by simp) ⟨fun _ _ => rfl, ?_⟩
  · intro p' t' d' hg
    refine h.window p' t' d' ?_
    grind
  · intro hp d' hd
    exact h.owner p t d' hp (by grind)
  · rintro ⟨p', t'⟩ ⟨p'', t''⟩ hr hr'
    grind

theorem Inv.unlockControl (hi : γ (p, t) = .ruling) :
    Inv leaves { s with control := false } (update γ (p, t) .idle) := by
  have hone : ∀ i, (γ i).rules → i = (p, t) := fun i hr =>
    h.ruled.one i (p, t) hr (by simp [hi, Stage.rules])
  have hnone : ∀ i, ¬ (update γ (p, t) .idle i).rules := by
    rintro ⟨p', t'⟩ hr
    grind
  refine h.touch 0 (by simp) (by simp) (by grind) (by grind)
    ((h.cells p 0).same (by grind) (by grind)) ?_ h.calm (by simp) ?_ (by simp [Stage.pass])
    (by simp) ⟨fun i hr => absurd hr (hnone i), fun i _ hr => absurd hr (hnone i)⟩
  · intro p' t' d' hg
    refine h.window p' t' d' ?_
    grind
  · intro hp d' hd
    exact h.owner p t d' hp (by grind)

omit h in
omit [DecidableEq W] [Fintype W] in
/-- Only the thread that has the control lock is in a window. -/
theorem Ruled.grip_ne_still {c : Bool} (h : Ruled c γ) (hi : (γ (p, t)).rules) {p' : PeerId}
    {t' : Thread W} (hne : ¬ (p' = p ∧ t' = t)) : (γ (p', t')).grip d ≠ some .still := by
  intro hg
  have heq := h.one _ _ (Stage.rules_of_still hg) hi
  exact hne (Prod.mk.inj heq)

omit h in
/-- The check of the pin word found it at 0: the window opens. -/
theorem Inv.openWindow (h : Inv true s γ) (hi : γ (p, t) = .ruling) (hw : s.pin p d = 0) :
    Inv true { s with leaving := setCell s.leaving p d true }
      (update γ (p, t) (.leaving d false)) := by
  have hr : (γ (p, t)).rules := by simp [hi, Stage.rules]
  have hothers : ∀ t', (γ (p, t')).grip d ≠ some .still := by
    intro t'
    by_cases ht : t' = t
    · subst ht
      grind
    · exact h.ruled.grip_ne_still hr (by simp [ht])
  refine h.touch d (by simp) (by simp) (by grind) (by grind) (.same_count ?_ (by grind)) ?_
    (by simp) (by simp) ?_ (by simp [Stage.pass]) (by simp) (h.ruled.update fun _ => hr)
  · have hold := h.cells p d
    rw [Cell, hw] at hold
    have hcell := hold.hold transferringPins_ne_zero hothers (t := t)
    simpa [Stage.grip.eq_def, hw] using hcell
  · intro p' t' d' hg
    have hwin := h.window p' t' d'
    grind
  · intro hp d' hd
    exact h.owner p t d' hp (by grind)

/-- The window closes, by the reset of the pin word or by a refusal before it. -/
theorem Inv.closeWindow {k : Bool} (hi : γ (p, t) = .leaving d k) :
    Inv leaves { s with pin := setCell s.pin p d 0, leaving := setCell s.leaving p d false }
      (update γ (p, t) .ruling) := by
  have hr : (γ (p, t)).rules := by simp [hi, Stage.rules]
  refine h.touch d (by grind) (by simp) (by grind) (by grind) (.same_count ?_ (by grind)) ?_ ?_
    (by simp) ?_ (by simp [Stage.pass]) (by simp) (h.ruled.update fun _ => hr)
  · have hcell := (h.cells p d).release (t := t) (by grind)
    simpa [Stage.grip.eq_def, setCell_apply] using hcell
  · intro p' t' d' hg
    have hwin := h.window p' t' d'
    have hother : ¬ (p' = p ∧ t' = t) → (γ (p', t')).grip d' ≠ some .still :=
      h.ruled.grip_ne_still hr
    grind
  · intro hl p' d'
    have hcalm := h.calm hl p' d'
    grind
  · intro hp d' hd
    exact h.owner p t d' hp (by grind)

/-! ### The writes of a truth record -/

omit [DecidableEq W] in
/-- A pin or a section keeps the grips of the peer's other threads away. -/
theorem Inv.not_inside_of_grip (hg : (γ (p, t)).grip d ≠ none)
    (t' : Thread W) :
    s.sections p t' d = 0 ∧ (γ (p, t')).extra d = 0 ∧
      ((γ (p, t')).grip d ≠ none → t' = t) := by
  have hsum := (h.cells p d).alone t hg
  have hzero := (Finset.sum_eq_zero_iff.mp hsum) t' (Finset.mem_univ t')
  refine ⟨by omega, by omega, fun hg' => (h.cells p d).one t' t hg' hg⟩

omit h in
omit [DecidableEq W] [Fintype W] in
/-- Whoever owns has a pin, or a grip. -/
theorem Stage.owns_cases {v : Stage} (h : v.owns d) : v.extra d = 1 ∨ v.grip d ≠ none := by
  cases v <;> simp_all [Stage.owns, Stage.extra, Stage.grip]

/-- A transfer publishes: the peer that the truth names, and that nobody of its
own threads relies on, passes it on. -/
theorem Inv.publish (hp : s.crashed p = false) (r : DomainRecord) {v : Stage}
    (hown : (γ (p, t)).owns d) (hg : (γ (p, t)).grip d ≠ none)
    (hv : (γ (p, t) = .latched d true ∧ v = .latched d false) ∨
      (γ (p, t) = .leaving d true ∧ v = .leaving d false)) :
    Inv leaves { s with truth := update s.truth d r } (update γ (p, t) v) := by
  have hholder := h.owner p t d hp (Or.inr hown)
  -- forgetting what the truth says is a step of its own
  have h' : Inv leaves s (update γ (p, t) v) := by
    refine h.relabel v ?_ ?_ ?_ ?_ ?_ ?_ ?_ <;> grind
  have hv' : ¬ v.owns d := by grind
  refine ⟨h'.cells, h'.window, h'.closing, ?_, h'.passing, ?_, h'.ruled, h'.calm⟩
  · intro p' t' d' hp' hd
    have hold := h'.owner p' t' d' hp' hd
    by_cases hd' : d' = d
    · subst hd'
      obtain rfl : p' = p := hold.symm.trans hholder
      obtain ⟨hsec, hextra, hone⟩ := h.not_inside_of_grip hg t'
      have hthread : ¬ (update γ (p', t) v (p', t')).owns d' := by
        have hcases := @Stage.owns_cases d' (γ (p', t'))
        grind
      grind
    · simpa [hd'] using hold
  · intro p' t' dead d' hp' hv''
    have hold := h'.seizing p' t' dead d' hp' hv''
    have hdead := (h'.passing p' t' dead hp' (by rw [hv'']; rfl)).2.1
    by_cases hd' : d' = d
    · subst hd'
      rw [← hold, hholder, hp] at hdead
      exact Bool.noConfusion hdead
    · simpa [hd'] using hold

end

variable {dead : PeerId}

/-- A seize publishes: the dead peer's record now names the authority. -/
theorem Inv.seize (h : Inv leaves s γ) (hp : s.crashed p = false) (hi : γ (p, t) = .seizing dead d)
    {r : DomainRecord} : Inv leaves { s with truth := update s.truth d r }
      (update γ (p, t) (.passing dead)) := by
  have hholder := h.seizing p t dead d hp hi
  obtain ⟨ht, hdead, hauth⟩ := h.passing p t dead hp (by rw [hi]; rfl)
  have h' : Inv leaves s (update γ (p, t) (.passing dead)) := by
    refine h.relabel _ ?_ ?_ ?_ ?_ ?_ ?_ ?_ <;> grind
  refine ⟨h'.cells, h'.window, h'.closing, ?_, h'.passing, ?_, h'.ruled, h'.calm⟩
  · intro p' t' d' hp' hd
    have hold := h'.owner p' t' d' hp' hd
    by_cases hd' : d' = d
    · subst hd'
      rw [← hholder, hold, hp'] at hdead
      exact Bool.noConfusion hdead
    · simpa [hd'] using hold
  · intro p' t' dead' d' hp' hv
    have hold := h'.seizing p' t' dead' d' hp' hv
    by_cases hd' : d' = d
    · -- another pass that has read this record is a pass for the same dead peer
      subst hd'
      have hpass := h'.passing p' t' dead' hp' (by rw [hv]; rfl)
      grind
    · simpa [hd'] using hold

/-! ### Recovery passes and crashes -/

/-- The one authority for a dead peer starts its pass. -/
theorem Inv.beginPass (h : Inv leaves s γ) (hi : γ (p, .poll) = .idle)
    (hdead : s.crashed dead = true) (hauth : (s.authority dead).all s.crashed = true) :
    Inv leaves { s with authority := update s.authority dead (some p) }
      (update γ (p, .poll) (.passing dead)) := by
  -- no live thread is in a pass for this peer
  have hnone : ∀ p' t', s.crashed p' = false → (γ (p', t')).pass ≠ some dead := by
    intro p' t' hp' hv
    have hpass := (h.passing p' t' dead hp' hv).2.2
    simp [hpass, hp'] at hauth
  have h' : Inv leaves { s with authority := update s.authority dead (some p) } γ := by
    refine ⟨h.cells, h.window, h.closing, h.owner, ?_, h.seizing, h.ruled, h.calm⟩
    intro p' t' dead' hp' hv
    have hold := h.passing p' t' dead' hp' hv
    have hother := hnone p' t' hp'
    grind [update_apply]
  refine h'.relabel _ ?_ ?_ ?_ ?_ ?_ ?_ ?_ <;> grind [update_apply]

theorem Inv.endPass (h : Inv leaves s γ) (hp : s.crashed p = false)
    (hi : γ (p, t) = .passing dead) :
    Inv leaves { s with authority := update s.authority dead none }
      (update γ (p, t) .idle) := by
  have hmine := h.passing p t dead hp (by rw [hi]; rfl)
  have h' : Inv leaves s (update γ (p, t) .idle) := by
    refine h.relabel _ ?_ ?_ ?_ ?_ ?_ ?_ ?_ <;> grind
  refine ⟨h'.cells, h'.window, h'.closing, h'.owner, ?_, h'.seizing, h'.ruled, h'.calm⟩
  intro p' t' dead' hp' hv
  have hold := h'.passing p' t' dead' hp' hv
  grind [update_apply]

omit [DecidableEq W] in
theorem Inv.crash (h : Inv leaves s γ) (q : PeerId) :
    Inv leaves { s with crashed := update s.crashed q true } γ := by
  have hlive : ∀ p', update s.crashed q true p' = false → s.crashed p' = false := by
    intro p' hp'
    grind [update_apply]
  refine ⟨h.cells, h.window, h.closing, ?_, ?_, ?_, h.ruled, h.calm⟩
  · exact fun p' t' d' hp' hd => h.owner p' t' d' (hlive p' hp') hd
  · intro p' t' dead hp' hv
    have hold := h.passing p' t' dead (hlive p' hp') hv
    grind [update_apply]
  · exact fun p' t' dead d' hp' hv => h.seizing p' t' dead d' (hlive p' hp') hv

end Cme.Ownership
