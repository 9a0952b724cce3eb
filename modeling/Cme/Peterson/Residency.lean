import Cme.Interleave.Alone
import Cme.Interleave.CountedLatch
import Cme.Interleave.Monitor
import Cme.Interleave.Outline
import Cme.Peterson.Lock

/-!
# Peterson — the win flag, the pins and the root

Outside the climb mutex the win flag says whether this peer holds the root, the pin
word counts the Arrived answers that have not been unpinned, and the root is held
exactly while there is one (`Quiet`). Inside the mutex one thread is on its way from
one such state to the next, and its stage says how far it is (`Fits`). A stage also says
what the call in progress owes: an unpin (`owes`), and a return to the caller (`pays`).
-/

namespace Cme.Peterson

open Function Interleave
open Ownership (Choice transferringPins)

variable {n : Nat} {me : PeerId} {d : DomainId}

/-- How far a thread is in a lock or an unlock. -/
inductive Stage where
  | out
  /-- In the mutex, with nothing done. -/
  | entered
  | pinned
  /-- Found the flag down. -/
  | climbing
  /-- Has the root, not yet the flag. -/
  | climbed
  | crowned
  /-- About to leave the mutex with an answer. -/
  | arrived
  /-- Out of the mutex with an answer that the caller has not seen. -/
  | answered
  /-- In an unlock, before the mutex. -/
  | waiting
  /-- In an unlock, in the mutex. -/
  | leaving
  /-- Other answers stand. -/
  | staying
  /-- Its answer is the last one. -/
  | last
  | vacated
  | released
  | left
  | unpinned
  /-- Out of the mutex, and the caller does not know. -/
  | returning
  deriving DecidableEq

namespace Stage

/-- The thread is in the climb mutex. -/
def within : Stage → Bool
  | out | answered | waiting | returning => false
  | _ => true

/-- An unpin is to come, of a lock just answered or of the unlock in progress. -/
def owes : Stage → Nat
  | arrived | answered | waiting | leaving | staying | last | vacated | released | left => 1
  | _ => 0

/-- An unlock is in progress. -/
def pays : Stage → Nat
  | waiting | leaving | staying | last | vacated | released | left | unpinned | returning => 1
  | _ => 0

end Stage

/-- What the mutex guards: the flag, the root, the pins, the answers not unpinned, and
the record's holder. -/
structure Tally where
  won : Bool
  root : Bool
  pin : Nat
  total : Nat
  holder : PeerId

def State.tally (s : State n me d) : Tally :=
  ⟨s.won, s.root, s.pin, s.total, (s.region.truth d).holder⟩

/-- What holds outside the climb mutex. -/
structure Quiet (won root : Bool) (pin total : Nat) : Prop where
  won : won = root
  pin : pin = total
  below : total < transferringPins
  root : root = true ↔ 0 < total

abbrev Tally.quiet (t : Tally) : Prop := Quiet t.won t.root t.pin t.total

/-- What holds while the thread in the mutex is at a stage. -/
def Fits (t : Tally) : Stage → Prop
  | .out | .answered | .waiting | .returning => True
  | .entered | .arrived | .unpinned => t.quiet
  | .leaving => t.quiet ∧ 0 < t.total
  | .pinned => t.won = t.root ∧ t.pin = t.total + 1 ∧
      t.total + 1 < transferringPins ∧ (t.root = true ↔ 0 < t.total)
  | .climbing => t.won = false ∧ t.root = false ∧ t.pin = 1 ∧ t.total = 0
  | .climbed => t.won = false ∧ t.root = true ∧ t.pin = 1 ∧ t.total = 0
  | .crowned => t.won = true ∧ t.root = true ∧ t.pin = t.total + 1 ∧
      t.total + 1 < transferringPins
  | .staying => t.quiet ∧ 1 < t.total
  | .last => t.quiet ∧ t.total = 1
  | .vacated => t.quiet ∧ t.total = 1 ∧ t.holder = noPeer
  | .released => t.root = false ∧ t.pin = 1 ∧ t.total = 1
  | .left => t.won = false ∧ t.root = false ∧ t.pin = 1 ∧ t.total = 1

/-- The last unlock released the root, after it vacated the record. -/
def Release.InOrder (r : Release) : Prop := r.arrived = 1 ∧ r.own = 1 ∧ r.holder = noPeer

/-- The thread in the mutex is as far as its stage says. -/
abbrev Guarded (s : State n me d) (γ : Fin n → Stage) : Prop :=
  Monitor State.mutex Stage.within (fun s => s.tally.quiet) (fun s => Fits s.tally) s γ

structure Inv (s : State n me d) (γ : Fin n → Stage) : Prop where
  monitor : Guarded s γ
  owed : ∀ i, s.arrived i = s.inside i + (γ i).owes
  paid : ∀ i, s.standing i = s.inside i + (γ i).pays
  released : ∀ r ∈ s.released, r.InOrder

variable {s s' : State n me d} {i : Fin n} {v v' : Stage}

theorem State.arrived_le (s : State n me d) (i : Fin n) : s.arrived i ≤ s.total :=
  Finset.single_le_sum (fun j _ => Nat.zero_le (s.arrived j)) (Finset.mem_univ i)

theorem State.total_congr (h : s'.arrived = s.arrived) :
    s'.total = s.total := by
  rw [State.total, State.total, h]

/-- One thread's count changes. -/
theorem State.total_update {k : Nat}
    (h : s'.arrived = update (s.arrived) i k) :
    s'.total + s.arrived i = s.total + k := by
  have hsum := sum_update_add (s.arrived) i k
  rw [State.total, h, State.total]
  omega

/-- What a step does to the debts of the thread that takes it, and to nobody else's. -/
structure Books (i : Fin n) (v v' : Stage) (s s' : State n me d) : Prop where
  others : ∀ j, j ≠ i → s'.arrived j = s.arrived j ∧ s'.inside j = s.inside j ∧
    s'.standing j = s.standing j
  owed : s.arrived i = s.inside i + v.owes → s'.arrived i = s'.inside i + v'.owes
  paid : s.standing i = s.inside i + v.pays → s'.standing i = s'.inside i + v'.pays

theorem Inv.move {γ : Fin n → Stage} (hI : Inv s γ) (hγ : γ i = v)
    (hmonitor : Guarded s' (update γ i v'))
    (hbooks : Books i v v' s s') (hreleased : ∀ r ∈ s'.released, r.InOrder) :
    Inv s' (update γ i v') := by
  subst hγ
  refine ⟨hmonitor, fun j => ?_, fun j => ?_, hreleased⟩
  · by_cases hj : j = i
    · subst hj
      rw [update_self]
      exact hbooks.owed (hI.owed j)
    · rw [update_of_ne hj, (hbooks.others j hj).1, (hbooks.others j hj).2.1]
      exact hI.owed j
  · by_cases hj : j = i
    · subst hj
      rw [update_self]
      exact hbooks.paid (hI.paid j)
    · rw [update_of_ne hj, (hbooks.others j hj).2.1, (hbooks.others j hj).2.2]
      exact hI.paid j

/-- Nothing is answered, begun or returned, and the debts are the same. -/
theorem Books.same (harrived : s'.arrived = s.arrived) (hinside : s'.inside = s.inside)
    (hstanding : s'.standing = s.standing) (hdebts : v'.owes = v.owes ∧ v'.pays = v.pays) :
    Books i v v' s s' where
  others j _ := by rw [harrived, hinside, hstanding]; exact ⟨rfl, rfl, rfl⟩
  owed h := by rw [harrived, hinside, hdebts.1, h]
  paid h := by rw [hstanding, hinside, hdebts.2, h]

/-- What a thread does, from a stage to `Q`, while the pin word has room. -/
abbrev Does (me : PeerId) (d : DomainId) (i : Fin n) {α : Type} (p : Proc α)
    (Q : α → Stage → Prop) (v : Stage) : Prop :=
  wp ((system n me d).restrict belowSentinel) Inv i p Q v

/-! ### Operations in the mutex -/

/-- What most operations in the mutex leave alone. -/
structure Plain (s s' : State n me d) : Prop where
  rest : s' = { s with won := s'.won, root := s'.root, region := s'.region }
  arrived : s'.arrived = s.arrived

/-- From stage to stage in the mutex, with the same debts. -/
structure Stage.Abreast (v v' : Stage) : Prop where
  within : v'.within = true
  debts : v'.owes = v.owes ∧ v'.pays = v.pays

variable {o : Op} {Q : o.Ret → Stage → Prop}

/-- An operation in the mutex that takes the thread from stage to stage. -/
theorem does_plain (hv : v.within = true)
    (h : ∀ (s : State n me d), Fits s.tally v → ∀ ch r s', belowSentinel i o ch s = true →
      exec i o ch s = some (r, s') → Plain s s' ∧
        ∃ v', v.Abreast v' ∧ Fits s'.tally v' ∧ Q r v') :
    Does me d i (act o) Q v := by
  rintro s γ hI rfl ch r s' hx
  obtain ⟨hbelow, hx⟩ := System.restrict_exec.mp hx
  obtain ⟨⟨hrest, harrived⟩, v', hv', hfits, hQ⟩ := h s (hI.monitor.fits i hv) ch r s' hbelow hx
  refine ⟨v', hI.move rfl (hI.monitor.inside hv hv'.within (by rw [hrest]) hfits)
    (.same harrived (by rw [hrest]) (by rw [hrest]) hv'.debts) ?_, hQ⟩
  rw [hrest]
  exact hI.released

theorem exec_word {o : Ownership.Op} {ch : Choice} {r : Ownership.Ret o}
    (hx : exec i (.word o) ch s = some (r, s')) :
    ∃ g, Ownership.access (me, .worker i) o ch s.region = some (r, g) ∧
      s' = { s with region := g } := by
  obtain ⟨⟨r', g⟩, hg, ⟨⟩⟩ := Option.map_eq_some_iff.mp hx
  exact ⟨g, hg, rfl⟩

/-- An operation of the mutex's holder that touches none of what its stage rests on. -/
def Op.untouching : Op → Prop
  | .loadWon => True
  | .word (.loadPin _ false) | .word (.getRecord _) | .word (.setShadow _ _ _)
  | .word (.loadEpoch _) | .word (.storeEpoch _ _) | .word (.storeHolder _ _) | .word .askTurns
  | .word .spin => True
  | _ => False

theorem exec_untouching (ho : o.untouching) {ch : Choice} {r : o.Ret}
    (hx : exec i o ch s = some (r, s')) :
    Plain s s' ∧ s'.tally = s.tally := by
  cases o with
  | loadWon =>
    cases hx
    exact ⟨⟨rfl, rfl⟩, rfl⟩
  | word o =>
    obtain ⟨g, hg, rfl⟩ := exec_word hx
    cases o <;> first | exact ho.elim | skip
    case askTurns | spin =>
      cases ch <;> first | (cases hg; done) | skip
      all_goals
        cases hg
        exact ⟨⟨rfl, rfl⟩, rfl⟩
    case loadPin e closing =>
      cases closing
      · cases hg
        exact ⟨⟨rfl, rfl⟩, rfl⟩
      · exact ho.elim
    all_goals
      cases hg
      exact ⟨⟨rfl, rfl⟩, rfl⟩
  | _ => exact ho.elim

theorem does_untouching {α : Type} {p : Proc α} {Q : α → Stage → Prop} (hp : p.Only Op.untouching)
    (hv : v.within = true) (h : ∀ a, Q a v) : Does me d i p Q v := by
  induction p with
  | done a => exact h a
  | call o k ih =>
    refine (wp_bind (act o) k Q v).mpr (does_plain hv fun s hs ch r s' _ hx => ?_)
    obtain ⟨hplain, htally⟩ := exec_untouching hp.1 hx
    exact ⟨hplain, v, ⟨hv, rfl, rfl⟩, htally ▸ hs, ih r (hp.2 r)⟩

/-! ### The pins -/

/-- One access of a shared procedure, and what comes after it. -/
theorem words_bind {α : Type} (o : Ownership.Op) (f : Ownership.Ret o → Ownership.Proc α) :
    words (Ownership.act o >>= f) = act (.word o) >>= fun r => words (f r) := rfl

/-- A compare-and-swap of the pin word, which counts a section out if it is `closing`. -/
structure Swapped (i : Fin n) (closing : Bool) (s s' : State n me d) : Prop where
  rest : s' = { s with region := s'.region }
  arrived : s'.arrived = if closing then update s.arrived i (s.arrived i - 1) else s.arrived

theorem casPin_cases {expected desired : Nat} {closing : Bool} {ch : Choice} {r : Option Nat}
    (hclosing : closing = true → 0 < s.pin ∧ s.pin ≠ transferringPins)
    (hx : exec i (.word (.casPin d expected desired closing)) ch s = some (r, s')) :
    (r = some s.pin ∧ s' = s) ∨
      (s.pin = expected ∧ r = none ∧ s'.pin = desired ∧ Swapped i closing s s') := by
  obtain ⟨g, hg, rfl⟩ := exec_word hx
  rw [Ownership.access_casPin] at hg
  split at hg
  · rename_i hpin
    cases hg
    refine .inr ⟨hpin, rfl, ?_, rfl, ?_⟩
    · cases closing <;> simp [State.pin, Ownership.State.closeSection, setCell_apply]
    · cases closing with
      | false => rfl
      | true =>
        funext j
        by_cases hj : j = i
        · subst hj
          simp [State.arrived, Ownership.State.closeSection, Ownership.setSections_apply]
        · simp [State.arrived, Ownership.State.closeSection, Ownership.setSections_apply, hj]
  · rename_i hpin
    cases hg
    refine .inl ⟨rfl, ?_⟩
    cases closing with
    | false => rfl
    | true =>
      obtain ⟨hpos, htop⟩ := hclosing rfl
      have hused : Ownership.isUnpinned (s.region.pin me d) = false := by
        simp only [Ownership.isUnpinned, Bool.or_eq_false_iff, beq_eq_false_iff_ne]
        exact ⟨Nat.pos_iff_ne_zero.mp hpos, htop⟩
      simp [hused]

theorem does_pinLoop (turns cur : Nat) :
    Does me d i (words (Ownership.pinLoop d turns cur)) (fun _ v => v = .pinned) .entered := by
  induction turns generalizing cur with
  | zero => exact does_plain (o := .word .spin) rfl fun s hs ch r s' _ hx => by cases hx
  | succ turns ih =>
    rw [Ownership.pinLoop]
    split
    · rw [words_bind]
      exact .bind <| does_untouching ⟨trivial, fun _ => trivial⟩ rfl ih
    · rw [words_bind]
      refine .bind <| does_plain rfl fun s hs ch r s' hbelow hx => ?_
      have hroom : cur + 1 < transferringPins := of_decide_eq_true hbelow
      rcases casPin_cases (fun h => Bool.noConfusion h) hx with ⟨rfl, rfl⟩ |
        ⟨hcur, rfl, hpin, hswap⟩
      · exact ⟨⟨rfl, rfl⟩, .entered, ⟨rfl, rfl, rfl⟩, hs, ih _⟩
      · obtain ⟨hrest, harrived⟩ := hswap
        have hquiet : s.tally.quiet := hs
        have hcount : cur = s.total := hcur.symm.trans hquiet.pin
        refine ⟨⟨by rw [hrest], harrived⟩, .pinned, ⟨rfl, rfl, rfl⟩, ?_, rfl⟩
        rw [State.tally, hpin, State.total_congr harrived, hcount, hrest]
        exact ⟨hquiet.won, rfl, hcount ▸ hroom, hquiet.root⟩

theorem does_holdDomain :
    Does me d i (words (Ownership.holdDomain d)) (fun _ v => v = .pinned) .entered := by
  rw [Ownership.holdDomain, Ownership.pinOwnership, words_bind]
  refine .bind <| does_untouching ⟨trivial, fun _ => trivial⟩ rfl fun cur => ?_
  rw [words_bind]
  exact .bind <| does_untouching ⟨trivial, fun _ => trivial⟩ rfl fun turns => does_pinLoop turns cur

/-- One pin goes, and takes the thread from stage `v` to `v'`. The word cannot change under
the mutex, but the loop does not know. -/
theorem does_unpinOwnership {closing : Bool} (hv : v.within = true)
    (hpos : ∀ s : State n me d, Fits s.tally v → 0 < s.pin ∧ s.pin < transferringPins)
    (hcas : ∀ (s s' : State n me d) γ, Inv s γ → γ i = v → Fits s.tally v → s'.pin = s.pin - 1 →
      Swapped i closing s s' → Inv s' (update γ i v')) :
    Does me d i (words (Ownership.unpinOwnership d closing)) (fun _ w => w = v') v := by
  have hloop : ∀ turns cur, 0 < cur ∧ cur < transferringPins →
      Does me d i (words (Ownership.unpinLoop d closing turns cur)) (fun _ w => w = v') v := by
    intro turns
    induction turns with
    | zero =>
      intro cur _
      exact does_plain (o := .word .spin) hv fun s hs ch r s' _ hx => by cases hx
    | succ turns ih =>
      intro cur hcur
      rw [Ownership.unpinLoop, if_pos ⟨hcur.1, Nat.ne_of_lt hcur.2⟩, words_bind]
      refine .bind ?_
      intro s γ hI hγ ch r s' hx
      have hfits : Fits s.tally v := hγ ▸ hI.monitor.fits i (hγ ▸ hv)
      obtain ⟨hpositive, hbelow⟩ := hpos s hfits
      rcases casPin_cases (fun _ => ⟨hpositive, Nat.ne_of_lt hbelow⟩)
        (System.restrict_exec.mp hx).2 with ⟨rfl, rfl⟩ |
        ⟨hpin, rfl, hpin', hswap⟩
      · refine ⟨v, ?_, ih _ ⟨hpositive, hbelow⟩⟩
        rw [← hγ, update_eq_self]
        exact hI
      · exact ⟨v', hcas s s' γ hI hγ hfits (by rw [hpin', hpin]) hswap, rfl⟩
  rw [Ownership.unpinOwnership, words_bind]
  refine .bind <| does_untouching ⟨trivial, fun _ => trivial⟩ hv fun turns => ?_
  rw [words_bind]
  refine .bind <| does_plain hv fun s hs ch cur s' _ hx => ?_
  obtain ⟨hpositive, hbelow⟩ := hpos s hs
  obtain ⟨g, hg, rfl⟩ := exec_word hx
  have hused : Ownership.isUnpinned (s.region.pin me d) = false := by
    simp only [Ownership.isUnpinned, Bool.or_eq_false_iff, beq_eq_false_iff_ne]
    exact ⟨Nat.pos_iff_ne_zero.mp hpositive, Nat.ne_of_lt hbelow⟩
  rw [Ownership.access_loadPin, hused, Bool.and_false, if_neg Bool.false_ne_true] at hg
  cases hg
  exact ⟨⟨rfl, rfl⟩, v, ⟨hv, rfl, rfl⟩, hs, hloop _ _ ⟨hpositive, hbelow⟩⟩

theorem one_lt_transferringPins : 1 < transferringPins := by decide

/-- The back-out of a lock that did not win the root. -/
theorem does_unholdDomain :
    Does me d i (words (Ownership.unholdDomain d)) (fun _ w => w = .entered) .climbing := by
  have hpos : ∀ s : State n me d, Fits s.tally .climbing →
      0 < s.pin ∧ s.pin < transferringPins := by
    rintro s ⟨-, -, hpin, -⟩
    have hone : s.pin = 1 := hpin
    exact hone ▸ ⟨Nat.one_pos, one_lt_transferringPins⟩
  refine does_unpinOwnership rfl hpos fun s s' γ hI hγ ⟨hdown, hfree, hone, hnone⟩ hpin
    ⟨hrest, harrived⟩ => ?_
  replace harrived : s'.arrived = s.arrived := harrived
  have hquiet : s'.tally.quiet := by
    have htotal : s'.total = 0 := (State.total_congr harrived).trans hnone
    have hroot : s'.root = false := by rw [hrest]; exact hfree
    have hwon : s'.won = false := by rw [hrest]; exact hdown
    have hnopin : s'.pin = 0 := hpin.trans (congrArg (· - 1) hone)
    rw [State.tally, htotal, hroot, hwon, hnopin]
    exact ⟨rfl, rfl, Nat.lt_trans Nat.one_pos one_lt_transferringPins, by simp⟩
  exact hI.move hγ (hI.monitor.inside (by rw [hγ]; rfl) rfl (by rw [hrest]) hquiet)
    (.same harrived (by rw [hrest]) (by rw [hrest]) ⟨rfl, rfl⟩) (by rw [hrest]; exact hI.released)

/-- The unpin of an unlock: of the last one, after it left the root, or of another. -/
theorem does_unpin_closing (hv : v = .left ∨ v = .staying) :
    Does me d i (words (Ownership.unpinOwnership d true)) (fun _ w => w = .unpinned) v := by
  have hwithin : v.within = true := by rcases hv with rfl | rfl <;> rfl
  have howes : v.owes = 1 := by rcases hv with rfl | rfl <;> rfl
  have hpays : v.pays = 1 := by rcases hv with rfl | rfl <;> rfl
  have hpin : ∀ s : State n me d, Fits s.tally v → s.pin = s.total ∧
      0 < s.total ∧ s.total < transferringPins := by
    intro s hs
    rcases hv with rfl | rfl
    · obtain ⟨-, -, hpin, hone⟩ := hs
      have htotal : s.total = 1 := hone
      rw [htotal]
      exact ⟨hpin, Nat.one_pos, one_lt_transferringPins⟩
    · exact ⟨hs.1.pin, Nat.zero_lt_of_lt hs.2, hs.1.below⟩
  refine does_unpinOwnership hwithin (fun s hs => (hpin s hs).1 ▸ (hpin s hs).2)
    fun s s' γ hI hγ hfits hpin' ⟨hrest, harrived⟩ => ?_
  obtain ⟨heq, hpos, hbelow⟩ := hpin s hfits
  replace harrived : s'.arrived = update s.arrived i (s.arrived i - 1) := harrived
  have howed := hI.owed i
  rw [hγ, howes] at howed
  have htotal := State.total_update harrived
  have hless : s'.total + 1 = s.total := by omega
  have hflags : s.won = s.root ∧ (s.root = true ↔ 0 < s'.total) := by
    rcases hv with rfl | rfl
    · obtain ⟨hdown, hfree, -, hone⟩ := hfits
      have htotal : s.total = 1 := hone
      refine ⟨hdown.trans hfree.symm, fun hroot => ?_, fun _ => by omega⟩
      cases hfree.symm.trans hroot
    · obtain ⟨hquiet, hmore⟩ := hfits
      replace hmore : 1 < s.total := hmore
      exact ⟨hquiet.won, fun _ => by omega, fun _ => hquiet.root.mpr hpos⟩
  have hquiet : s'.tally.quiet := by
    refine ⟨?_, ?_, Nat.lt_trans (Nat.lt_of_succ_le hless.le) hbelow, ?_⟩
    · rw [hrest]
      exact hflags.1
    · show s'.pin = s'.total
      omega
    · rw [State.tally, hrest]
      exact hflags.2
  refine hI.move hγ (hI.monitor.inside (by rw [hγ]; exact hwithin) rfl (by rw [hrest]) hquiet)
    ⟨fun j hj => ?_, fun h => ?_, fun h => ?_⟩ (by rw [hrest]; exact hI.released)
  · rw [harrived, update_of_ne hj, hrest]
    exact ⟨rfl, rfl, rfl⟩
  · rw [harrived, update_self, hrest, h, howes]
    rfl
  · rw [hrest]
    exact h.trans (congrArg _ hpays)

/-! ### In and out of the mutex -/

theorem arrive_counts {ch : Choice} {r : Unit}
    (hx : exec i (.word (.arrive d)) ch s = some (r, s')) :
    s' = { s with region := s'.region } ∧ s'.pin = s.pin ∧
      s'.arrived = update (s.arrived) i (s.arrived i + 1) := by
  obtain ⟨g, hg, rfl⟩ := exec_word hx
  cases hg
  refine ⟨rfl, rfl, funext fun j => ?_⟩
  by_cases hj : j = i
  · subst hj
    simp [State.arrived, Ownership.setSections_apply]
  · simp [State.arrived, Ownership.setSections_apply, hj]

/-- The answer is counted, in the mutex. -/
theorem does_arrive : Does me d i (words (Ownership.act (.arrive d)))
      (fun _ w => w = .arrived) .crowned := by
  intro s γ hI hγ ch r s' hx
  have hin : (γ i).within = true := by rw [hγ]; rfl
  have hfits := hI.monitor.fits i hin
  rw [hγ] at hfits
  obtain ⟨hwon, hroot, hpin, hbelow⟩ := hfits
  have hx' : exec i (.word (.arrive d)) ch s = some (r, s') := (System.restrict_exec.mp hx).2
  obtain ⟨hs', hpin', harrived⟩ := arrive_counts hx'
  have htotal := State.total_update harrived
  have hone : s'.total = s.total + 1 := by omega
  have hquiet : s'.tally.quiet := by
    rw [State.tally, hone, hpin', hs']
    exact ⟨hwon.trans hroot.symm, hpin, hbelow, fun _ => Nat.succ_pos _, fun _ => hroot⟩
  refine ⟨.arrived, hI.move hγ (hI.monitor.inside hin rfl (by rw [hs']) hquiet)
    ⟨fun j hj => ⟨?_, by rw [hs'], by rw [hs']⟩, fun h => ?_, fun h => ?_⟩
    (by rw [hs']; exact hI.released), rfl⟩
  · rw [harrived, update_of_ne hj]
  · rw [harrived, update_self, h, hs']
    rfl
  · rw [hs']
    exact h

/-- Out of the mutex, with the debts the thread has in it. -/
theorem does_unlockClimb (hv : v.within = true) (hv' : v'.within = false)
    (hquiet : ∀ t, Fits t v → t.quiet) (hdebts : v'.owes = v.owes ∧ v'.pays = v.pays) :
    Does me d i (act .unlockClimb) (fun _ w => w = v') v := by
  intro s γ hI hγ ch r s' hx
  have hin : (γ i).within = true := by rw [hγ]; exact hv
  obtain ⟨-, ⟨⟩⟩ := of_guard (System.restrict_exec.mp hx).2
  have hfits := hquiet s.tally (hγ ▸ hI.monitor.fits i hin)
  exact ⟨v', hI.move hγ (hI.monitor.exit hin rfl hv' hfits) (.same rfl rfl rfl hdebts) hI.released,
    rfl⟩

theorem does_tryLockClimb : Does me d i (act .tryLockClimb)
      (fun b w => w = if b then .entered else .out) .out := by
  intro s γ hI hγ ch r s' hx
  replace hx := (System.restrict_exec.mp hx).2
  cases ch with
  | flag b =>
    replace hx : (if b = false then some (false, s) else if s.mutex = none then
      some (true, { s with mutex := some i }) else none) = some (r, s') := hx
    split at hx
    · cases hx
      refine ⟨.out, ?_, rfl⟩
      rw [← hγ, update_eq_self]
      exact hI
    · obtain ⟨hnone, ⟨⟩⟩ := of_guard hx
      exact ⟨.entered, hI.move hγ (hI.monitor.enter hnone rfl rfl fun hq => hq)
        (.same rfl rfl rfl ⟨rfl, rfl⟩) hI.released, rfl⟩
  | _ => cases hx

theorem does_lockClimb :
    Does me d i (act .lockClimb) (fun _ w => w = .leaving) .waiting := by
  intro s γ hI hγ ch r s' hx
  obtain ⟨hnone, ⟨⟩⟩ := of_guard (System.restrict_exec.mp hx).2
  -- its own answer has not been unpinned
  have hpos : 0 < s.total := by
    have hle := s.arrived_le i
    have howed := hI.owed i
    rw [hγ] at howed
    have hone : s.arrived i = s.inside i + 1 := howed
    omega
  exact ⟨.leaving, hI.move hγ (hI.monitor.enter hnone rfl rfl fun hq => ⟨hq, hpos⟩)
    (.same rfl rfl rfl ⟨rfl, rfl⟩) hI.released, rfl⟩

/-! ### Lock and unlock -/

theorem does_setRecord (r : DomainRecord) (w : Stage)
    (h : ∀ s : State n me d, Fits s.tally v → Fits (s.write r).tally w)
    (hv : v.within = true) (hw : v.Abreast w) :
    Does me d i (words (Ownership.act (.setRecord d r))) (fun _ u => u = w) v := by
  refine does_plain (o := .word (.setRecord d r)) hv fun s hs ch _ s' _ hx => ?_
  obtain ⟨g, hg, rfl⟩ := exec_word hx
  cases hg
  exact ⟨⟨rfl, rfl⟩, w, hw, h s hs, rfl⟩

theorem does_takeoverOwnership (base : DomainRecord) :
    Does me d i (words (Ownership.takeoverOwnership me d base)) (fun _ w => w = .crowned)
      .crowned := by
  rw [Ownership.takeoverOwnership, Ownership.publishDomainRecord, words, Prog.lift_bind,
    Prog.lift_bind]
  refine .bind <| .bind <| does_untouching ⟨trivial, fun _ => trivial⟩ rfl fun _ => ?_
  refine wp_mono (fun _ w hw => ?_)
    (does_setRecord _ .crowned (fun s hs => hs) rfl ⟨rfl, rfl, rfl⟩)
  subst hw
  exact does_untouching ⟨trivial, fun _ => ⟨trivial, fun _ => ⟨trivial, fun _ => trivial⟩⟩⟩ rfl
    fun _ => rfl

theorem does_vacateOwnership :
    Does me d i (words (Ownership.vacateOwnership d)) (fun _ w => w = .vacated) .last := by
  rw [Ownership.vacateOwnership, words_bind]
  refine .bind <| does_untouching ⟨trivial, fun _ => trivial⟩ rfl fun record => ?_
  rw [words, Prog.lift_bind]
  refine wp_then (does_setRecord _ .vacated (fun s hs => ?_) rfl ⟨rfl, rfl, rfl⟩)
    fun _ w hw => ?_
  · refine ⟨hs.1, hs.2, ?_⟩
    show (update s.region.truth d _ d).holder = noPeer
    rw [update_self]
  · subst hw
    exact does_untouching ⟨trivial, fun _ => trivial⟩ rfl fun _ => rfl

/-- The root is left once the record is vacated. -/
theorem does_release :
    Does me d i (act .release) (fun _ w => w = .released) .vacated := by
  intro s γ hI hγ ch r s' hx
  have hin : (γ i).within = true := by rw [hγ]; rfl
  have hfits := hI.monitor.fits i hin
  have howed := hI.owed i
  rw [hγ] at hfits howed
  obtain ⟨hquiet, hone, hholder⟩ := hfits
  replace hone : s.total = 1 := hone
  obtain ⟨-, rfl⟩ := outcome_eq (System.restrict_exec.mp hx).2
  refine ⟨.released, hI.move hγ (hI.monitor.inside hin rfl rfl ⟨rfl, hquiet.pin.trans hone, hone⟩)
    (.same rfl rfl rfl ⟨rfl, rfl⟩) fun r hr => ?_, rfl⟩
  rcases List.mem_cons.mp hr with rfl | hr
  · have hle := s.arrived_le i
    have hown : s.arrived i = s.inside i + 1 := howed
    exact ⟨hone, by show s.arrived i = 1; omega, hholder⟩
  · exact hI.released r hr

theorem does_storeWon (b : Bool) (w : Stage)
    (h : ∀ t, Fits t v → Fits { t with won := b } w) (hv : v.within = true) (hw : v.Abreast w) :
    Does me d i (act (.storeWon b)) (fun _ u => u = w) v := by
  refine does_plain hv fun s hs ch _ s' _ hx => ?_
  cases hx
  exact ⟨⟨rfl, rfl⟩, w, hw, h s.tally hs, rfl⟩

theorem does_leaveRoot :
    Does me d i (leaveRoot d 1) (fun _ w => w = .left) .last := by
  rw [leaveRoot, if_pos rfl]
  refine wp_seq does_vacateOwnership fun _ => ?_
  refine wp_seq does_release fun _ => ?_
  exact does_storeWon false .left (fun _ hs => ⟨rfl, hs⟩) rfl ⟨rfl, rfl, rfl⟩

theorem does_unlock : Does me d i (unlock d) (fun _ w => w = .returning) .waiting := by
  rw [unlock]
  refine wp_seq does_lockClimb fun _ => ?_
  have hrest : ∀ w : Stage, w = .left ∨ w = .staying →
      Does me d i (do words (Ownership.unpinOwnership d true); act .unlockClimb)
        (fun _ w => w = .returning) w := fun w hw =>
    wp_seq (does_unpin_closing hw) fun _ =>
      does_unlockClimb rfl rfl (fun _ hs => hs) ⟨rfl, rfl⟩
  refine .bind <| does_plain (o := .word (.loadPin d false)) rfl fun s hs ch pins s' _ hx => ?_
  obtain ⟨g, hg, rfl⟩ := exec_word hx
  replace hg : some (s.region.pin me d, s.region) = some (pins, g) := hg
  cases hg
  refine ⟨⟨rfl, rfl⟩, ?_⟩
  have hcount : s.region.pin me d = s.total := hs.1.pin
  rw [hcount]
  -- its own answer stands, alone or not
  by_cases hone : s.total = 1
  · refine ⟨.last, ⟨rfl, rfl, rfl⟩, ⟨hs.1, hone⟩, ?_⟩
    rw [hone, if_pos (Nat.le_refl 1)]
    exact wp_seq does_leaveRoot fun _ => hrest _ (.inl rfl)
  · have hmore : 1 < s.total := Nat.lt_of_le_of_ne hs.2 (Ne.symm hone)
    refine ⟨.staying, ⟨rfl, rfl, rfl⟩, ⟨hs.1, hmore⟩, ?_⟩
    rw [if_neg (Nat.not_le.mpr hmore)]
    exact hrest _ (.inr rfl)

/-- What a lock leaves its caller to see. -/
def Stage.afterLock : OwnershipResult → Stage
  | .arrived => .answered
  | .notArrived => .out

theorem does_lock : Does me d i (lock me d) (fun r w => w = Stage.afterLock r) .out := by
  have harrive : Does me d i (do
      words (Ownership.act (.arrive d))
      act .unlockClimb
      pure OwnershipResult.arrived) (fun r w => w = Stage.afterLock r) .crowned := by
    refine wp_seq does_arrive fun _ => .bind <| wp_mono (fun _ w hw => hw) ?_
    exact does_unlockClimb rfl rfl (fun _ hs => hs) ⟨rfl, rfl⟩
  rw [lock]
  refine wp_seq does_tryLockClimb fun entered => ?_
  cases entered with
  | false => exact rfl
  | true =>
    rw [if_pos rfl]
    refine wp_seq does_holdDomain fun _ => ?_
    refine .bind <| does_plain rfl fun s hs ch won s' _ hx => ?_
    obtain ⟨rfl, rfl⟩ := outcome_eq hx
    refine ⟨⟨rfl, rfl⟩, ?_⟩
    obtain ⟨hwon, hpin, hbelow, hroot⟩ := hs
    -- a sibling holds the root, or this thread climbs to it
    cases hflag : s.won with
    | true =>
      exact ⟨.crowned, ⟨rfl, rfl, rfl⟩, ⟨hflag, hwon.symm.trans hflag, hpin, hbelow⟩, harrive⟩
    | false =>
      have hdown : s.root = false := hwon.symm.trans hflag
      have hnone : s.total = 0 := Nat.eq_zero_of_not_pos fun hpos => by
        cases hdown.symm.trans (hroot.mpr hpos)
      refine ⟨.climbing, ⟨rfl, rfl, rfl⟩,
        ⟨hflag, hdown, hpin.trans (congrArg (· + 1) hnone), hnone⟩, ?_⟩
      rw [if_neg Bool.false_ne_true, wp_bind]
      refine does_plain rfl fun s hs ch reached s' _ hx => ?_
      cases ch with
      | flag b =>
        obtain ⟨rfl, rfl⟩ := outcome_eq hx
        cases b with
        | true =>
          refine ⟨⟨rfl, rfl⟩, .climbed, ⟨rfl, rfl, rfl⟩, ⟨hs.1, rfl, hs.2.2⟩, ?_⟩
          rw [if_pos rfl, wp_bind]
          refine wp_mono (fun _ w hw => ?_) (does_storeWon true .crowned
            (fun t hs => ⟨rfl, hs.2.1, ?_⟩) rfl ⟨rfl, rfl, rfl⟩)
          · subst hw
            refine .bind <| does_untouching ⟨trivial, fun _ => trivial⟩ rfl fun base => ?_
            exact wp_seq (does_takeoverOwnership base) fun _ => harrive
          · show t.pin = t.total + 1 ∧ t.total + 1 < transferringPins
            rw [hs.2.2.2]
            exact ⟨hs.2.2.1, one_lt_transferringPins⟩
        | false =>
          refine ⟨⟨rfl, rfl⟩, .climbing, ⟨rfl, rfl, rfl⟩, hs, ?_⟩
          rw [if_neg Bool.false_ne_true]
          refine wp_seq does_unholdDomain fun _ => .bind <| wp_mono (fun _ w hw => hw) ?_
          exact does_unlockClimb rfl rfl (fun _ hs => hs) ⟨rfl, rfl⟩
      | _ => cases hx

/-! ### The caller -/

/-- The caller's own steps concern nothing the mutex guards. -/
theorem Inv.beside {γ : Fin n → Stage} (hI : Inv s γ) (hγ : γ i = v)
    (hv : v.within = false) (hv' : v'.within = false)
    (hrest : s' = { s with inside := s'.inside, standing := s'.standing })
    (hbooks : Books i v v' s s') : Inv s' (update γ i v') := by
  have htally : s'.tally = s.tally := by
    rw [hrest]
    rfl
  refine hI.move hγ (hI.monitor.beside (by rw [hrest]) (fun _ hq => htally ▸ hq)
    (fun _ _ _ hf => htally ▸ hf) fun j => ?_) hbooks (by rw [hrest]; exact hI.released)
  by_cases hj : j = i
  · subst hj
    rw [hγ, update_self]
    exact .inr ⟨hv, hv'⟩
  · exact .inl (update_of_ne hj _ _)

theorem does_answered (result : OwnershipResult) : Does me d i (act (.answered result))
      (fun _ w => w = .out) (.afterLock result) := by
  intro s γ hI hγ ch r s' hx
  obtain ⟨-, rfl⟩ := outcome_eq (System.restrict_exec.mp hx).2
  cases result with
  | arrived =>
    refine ⟨.out, hI.beside hγ rfl rfl rfl
      ⟨fun j hj => ⟨rfl, update_of_ne hj _ _, update_of_ne hj _ _⟩, fun h => ?_, fun h => ?_⟩, rfl⟩
    · refine Eq.trans h ?_
      show s.inside i + 1 = update s.inside i (s.inside i + 1) i
      rw [update_self]
    · show update s.standing i (s.standing i + 1) i = update s.inside i (s.inside i + 1) i
      rw [update_self, update_self, h]
      rfl
  | notArrived =>
    refine ⟨.out, ?_, rfl⟩
    have hsame : update γ i .out = γ := (congrArg (update γ i) hγ.symm).trans (update_eq_self ..)
    rw [hsame]
    exact hI

theorem does_beginUnlock : Does me d i (act .beginUnlock) (fun _ w => w = .waiting) .out := by
  intro s γ hI hγ ch r s' hx
  obtain ⟨hpos, ⟨⟩⟩ := of_guard (System.restrict_exec.mp hx).2
  have hless : update s.inside i (s.inside i - 1) i + 1 = s.inside i := by
    rw [update_self]
    omega
  exact ⟨.waiting, hI.beside hγ rfl rfl rfl
    ⟨fun j hj => ⟨rfl, update_of_ne hj _ _, rfl⟩, fun h => h.trans hless.symm,
      fun h => h.trans hless.symm⟩, rfl⟩

theorem does_returned : Does me d i (act .returned) (fun _ w => w = .out) .returning := by
  intro s γ hI hγ ch r s' hx
  obtain ⟨-, rfl⟩ := outcome_eq (System.restrict_exec.mp hx).2
  refine ⟨.out, hI.beside hγ rfl rfl rfl
    ⟨fun j hj => ⟨rfl, rfl, update_of_ne hj _ _⟩, fun h => h, fun h => ?_⟩, rfl⟩
  show update s.standing i (s.standing i - 1) i = s.inside i + 0
  have hone : s.standing i = s.inside i + 1 := h
  rw [update_self, hone]
  rfl

/-! ### Every interleaving -/

/-- A record another peer writes concerns no stage: who vacated it has the root. -/
theorem Fits.write (h : Fits s.tally v) (hroot : s.root = false) (r : DomainRecord) :
    Fits (s.write r).tally v := by
  cases v with
  | vacated =>
    obtain ⟨hq, hone, -⟩ := h
    cases hroot.symm.trans (hq.root.mpr (Nat.lt_of_lt_of_eq Nat.one_pos hone.symm))
  | _ => exact h

theorem outline : Outline ((system n me d).restrict belowSentinel) Inv
    fun _ v => v = .out where
  start i call s γ p hI hrest hp := by
    refine ⟨.out, ?_, ?_⟩
    · rw [← hrest, update_eq_self]
      exact hI
    · cases call with
      | lock =>
        cases hp
        exact wp_seq does_lock does_answered
      | unlock =>
        obtain ⟨-, ⟨⟩⟩ := of_guard hp
        exact wp_seq does_beginUnlock fun _ => wp_seq does_unlock fun _ => does_returned
  env e s γ s' hI hs := by
    obtain ⟨r⟩ := e
    obtain ⟨hroot, ⟨⟩⟩ := of_unless hs
    exact ⟨γ, ⟨hI.monitor.beside rfl (fun _ hq => hq)
      (fun _ _ _ hf => hf.write (Bool.eq_false_of_not_eq_true hroot) r) fun j => .inl rfl, hI.owed,
      hI.paid, hI.released⟩, fun i => rfl⟩

theorem inv_initial (h : s.Initial) : Inv s fun _ => .out := by
  have htotal : s.total = 0 := Finset.sum_eq_zero fun i _ => h.arrived i
  refine ⟨⟨fun i => ?_, fun _ => ⟨?_, ?_, ?_, ?_⟩, fun _ hin => by cases hin⟩, fun i => ?_,
    fun i => ?_, ?_⟩
  · rw [h.mutex]
    exact ⟨fun hm => (nomatch hm), fun hm => (nomatch hm)⟩
  · exact h.won.trans h.root.symm
  · exact h.pin.trans htotal.symm
  · exact Nat.lt_of_le_of_lt htotal.le (Nat.lt_trans Nat.one_pos one_lt_transferringPins)
  · simp [State.tally, h.root, htotal]
  · rw [h.arrived, h.inside]
    rfl
  · rw [h.standing, h.inside]
    rfl
  · rw [h.released]
    simp

/-- A thread between two calls owes nothing. -/
theorem inv_reachable {s₀ : State n me d} (h₀ : s₀.Initial)
    {c : Config (Fin n) Op Op.Ret (State n me d)}
    (h : ((system n me d).restrict belowSentinel).Reachable (idle s₀) c) :
    ∃ γ, Inv c.shared γ ∧ ∀ i, c.threads i = .done () → γ i = .out := by
  have hidle : Outlined ((system n me d).restrict belowSentinel) Inv
      (fun _ v => v = .out) (idle s₀) :=
    outlined_of_idle (γ := fun _ => .out) (fun _ => rfl) (inv_initial h₀) fun _ => rfl
  obtain ⟨γ, hI, hthreads⟩ := outline.reachable hidle h
  refine ⟨γ, hI, fun i hi => ?_⟩
  have hout := hthreads i
  rw [hi] at hout
  exact hout

/-- The root is held while an answer stands, but for the last unlock on its way out. -/
theorem Fits.root {t : Tally} (h : Fits t v) (hv : v.within = true) (hpos : 0 < t.total) :
    t.root = true ∨ (v.owes = 1 ∧ t.total = 1) := by
  cases v with
  | out | answered | waiting | returning => cases hv
  | entered | arrived | unpinned => exact .inl ((Quiet.root h).mpr hpos)
  | leaving | staying | last | vacated => exact .inl (h.1.root.mpr hpos)
  | pinned => exact .inl (h.2.2.2.mpr hpos)
  | climbing =>
    have hnone := h.2.2.2
    omega
  | climbed | crowned => exact .inl h.2.1
  | released => exact .inr ⟨rfl, h.2.2⟩
  | left => exact .inr ⟨rfl, h.2.2.2⟩

/-- No thread is between Arrived and unlock without the root. -/
theorem Inv.root_of_inside {γ : Fin n → Stage} (h : Inv s γ) {i : Fin n}
    (hi : 0 < s.inside i) : s.root = true := by
  have hle := s.arrived_le i
  have howed := h.owed i
  cases hm : s.mutex with
  | none =>
    have hpos : 0 < s.total := by omega
    exact (h.monitor.quiet hm).root.mpr hpos
  | some j =>
    have hin := (h.monitor.holder_iff j).mp hm
    have hpos : 0 < s.total := by omega
    rcases (h.monitor.fits j hin).root hin hpos with hroot | ⟨howes, hone⟩
    · exact hroot
    · -- the last unlock is of another answer than `i` has
      replace hone : s.total = 1 := hone
      have howed' := h.owed j
      by_cases hij : i = j
      · subst hij
        omega
      · have hpair : ∑ k ∈ {i, j}, s.arrived k ≤ s.total :=
          Finset.sum_le_sum_of_subset (Finset.subset_univ _)
        rw [Finset.sum_pair hij] at hpair
        omega

/-- Only a release takes the root away, and it notes what it found. -/
theorem root_released {ch : Choice} {r : o.Ret} (hx : exec i o ch s = some (r, s'))
    (hroot : s.root = true) (hroot' : s'.root = false) :
    s'.released = ⟨s.total, s.arrived i, (s.region.truth d).holder⟩ ::
      s.released := by
  cases o
  case release =>
    cases hx
    rfl
  case word o =>
    obtain ⟨g, -, rfl⟩ := exec_word hx
    cases hroot.symm.trans hroot'
  all_goals
    exfalso
    cases ch <;> simp only [exec] at hx <;> grind

/-- **Residency of one peer's threads.** Outside the climb mutex the win flag says
whether the peer holds the root, the pin word counts the Arrived answers not yet
unpinned, and the root is held exactly while there is one. A thread between Arrived
and unlock has the root under it. The step that takes the root away is of the
thread with the last such answer, and finds the record vacated. A thread between two calls
has as many answers to unpin as it has had Arrived answers less unlocks that returned; so
once every unlock has returned, no pin is left and the root is free. -/
theorem residency (n : Nat) (me : PeerId) (d : DomainId) {s₀ : State n me d} (h₀ : s₀.Initial)
    {c : Config (Fin n) Op Op.Ret (State n me d)}
    (h : ((system n me d).restrict belowSentinel).Reachable (idle s₀) c) :
    (c.shared.mutex = none → (c.shared.won = true ↔ c.shared.root = true) ∧
      c.shared.pin = ∑ i, c.shared.arrived i ∧
      (c.shared.root = true ↔ 0 < ∑ i, c.shared.arrived i)) ∧
    (∀ i, 0 < c.shared.inside i → c.shared.root = true) ∧
    (∀ a c', ((system n me d).restrict belowSentinel).next a c = some c' →
      c.shared.root = true → c'.shared.root = false →
      ∃ i ch, a = .exec i ch ∧ c.shared.arrived i = 1 ∧
        ∑ i, c.shared.arrived i = 1 ∧ (c.shared.region.truth d).holder = noPeer) ∧
    (∀ i, c.threads i = .done () → c.shared.arrived i = c.shared.standing i ∧
      c.shared.inside i = c.shared.standing i) ∧
    ((∀ i, c.threads i = .done () ∧ c.shared.standing i = 0) → c.shared.mutex = none ∧
      c.shared.pin = 0 ∧ c.shared.won = false ∧ c.shared.root = false) := by
  obtain ⟨γ, hI, hrest⟩ := inv_reachable h₀ h
  have hsettled : ∀ i, c.threads i = .done () →
      c.shared.arrived i = c.shared.standing i ∧
        c.shared.inside i = c.shared.standing i := by
    intro i hi
    have howed := hI.owed i
    have hpaid := hI.paid i
    rw [hrest i hi] at howed hpaid
    exact ⟨howed.trans hpaid.symm, hpaid.symm⟩
  refine ⟨fun hm => ?_, fun i => hI.root_of_inside, fun a c' hnext hroot hroot' => ?_, hsettled,
    fun hall => ?_⟩
  · have hq := hI.monitor.quiet hm
    exact ⟨Eq.congr_left hq.won, hq.pin, hq.root⟩
  · obtain ⟨γ', hI', -⟩ := inv_reachable h₀ (.step a h hnext)
    obtain ⟨i, ch, o, k, r, s', rfl, hi, hx, rfl⟩ | ⟨i, call, p, rfl, hi, hp, rfl⟩ |
      ⟨e, s', rfl, he, rfl⟩ := System.next_cases hnext
    · have hnoted := root_released (System.restrict_exec.mp hx).2 hroot hroot'
      have horder := hI'.released ⟨c.shared.total, c.shared.arrived i,
        (c.shared.region.truth d).holder⟩ (by rw [hnoted]; exact .head _)
      exact ⟨i, ch, rfl, horder.2.1, horder.1, horder.2.2⟩
    · cases hroot.symm.trans hroot'
    · -- the others write the record only
      obtain ⟨r⟩ := e
      replace he : (if c.shared.root = true then none else some (c.shared.write r)) = some s' := he
      rw [if_pos hroot] at he
      cases he
  · have hfree : c.shared.mutex = none := by
      by_contra hheld
      obtain ⟨j, hj⟩ := Option.ne_none_iff_exists'.mp hheld
      have hin := (hI.monitor.holder_iff j).mp hj
      rw [hrest j (hall j).1] at hin
      cases hin
    have hq := hI.monitor.quiet hfree
    have hnone : c.shared.total = 0 :=
      Finset.sum_eq_zero fun i _ => (hsettled i (hall i).1).1.trans (hall i).2
    have hroot : c.shared.root = false :=
      Bool.eq_false_of_not_eq_true fun hheld => (hq.root.mp hheld).ne' hnone
    exact ⟨hfree, hq.pin.trans hnone, hq.won.trans hroot, hroot⟩

/-- A domain nobody of this peer has locked. -/
def unlocked (n : Nat) (me : PeerId) (d : DomainId) : State n me d where
  mutex := none
  won := false
  root := false
  region := {
    truth := fun _ => ⟨DomainRecord.magicValue, .active, 1, 4, noPeer, []⟩
    pin := fun _ _ => 0
    crashed := fun _ => false
    sections := fun _ _ _ => 0
    authority := fun _ => none
    leaving := fun _ _ => false
    control := false
    shadow := fun _ _ => ⟨DomainRecord.magicValue, .active, 1, 4, noPeer, []⟩
    demand := fun _ => 0
    aggregator := fun _ => noPeer
    packed := fun _ _ => 0
    isHolder := fun _ _ => false
    lastOwnershipEpoch := fun _ _ => 0
    selfPending := fun _ => 0
    pendingWaiters := fun _ _ => 0
    pendingDomainsMutex := fun _ => false
    participating := fun _ => 0
    isActive := fun _ => true }
  inside _ := 0
  standing _ := 0
  released := []

theorem unlocked_initial : (unlocked n me d).Initial :=
  ⟨rfl, rfl, rfl, rfl, fun _ => rfl, fun _ => rfl, fun _ => rfl, rfl⟩

/-- A lock that wins the root. -/
def climbs (i : Fin n) : List (Action (Fin n) Choice Call Env) :=
  .start i .lock :: execs i [.flag true, .any, .nat 1, .any, .any, .flag true] ++ steps i 10

/-- Thread 0 climbs, thread 1 finds the root held; both unlock. -/
def lockBoth : List (Action (Fin 2) Choice Call Env) :=
  let p : Fin 2 := ⟨0, Nat.zero_lt_two⟩
  let q : Fin 2 := ⟨1, Nat.one_lt_two⟩
  climbs p ++ .start q .lock :: execs q [.flag true, .any, .nat 1] ++ steps q 5 ++
    .start p .unlock :: steps p 3 ++ .exec p (.nat 0) :: steps p 4 ++
    .start q .unlock :: steps q 8 ++ .exec q (.nat 0) :: steps q 4

theorem residency_lockBoth : ∃ c,
    ((system 2 7 3).restrict belowSentinel).Reachable (idle (unlocked 2 7 3)) c ∧
      c.shared.released = [⟨1, 1, noPeer⟩] ∧ c.shared.pin = 0 ∧ c.shared.won = false ∧
      c.shared.root = false := by
  obtain ⟨c, hc, hreleased, hall⟩ := System.exists_of_run ((system 2 7 3).restrict belowSentinel)
    (idle (unlocked 2 7 3)) lockBoth (P := fun c => c.shared.released = [⟨1, 1, noPeer⟩] ∧
      ∀ i, c.threads i = .done () ∧ c.shared.standing i = 0) (by decide +kernel)
  obtain ⟨-, -, -, -, hfree⟩ := residency 2 7 3 unlocked_initial hc
  exact ⟨c, hc, hreleased, (hfree hall).2⟩

/-! ### A full pin word -/

/-- The one thread of a peer. -/
def sole : Fin 1 := ⟨0, Nat.one_pos⟩

/-- The thread is between two calls and has `calls` answers to unlock, over a pin word that
reads `pins`. -/
structure Nested (pins calls : Nat) (c : Config (Fin 1) Op Op.Ret (State 1 me d)) : Prop where
  reachable : (system 1 me d).Reachable (idle (unlocked 1 me d)) c
  idle : c.threads sole = .done ()
  free : c.shared.mutex = none
  won : c.shared.won = true
  root : c.shared.root = true
  pin : c.shared.region.pin me d = pins
  inside : c.shared.inside sole = calls
  standing : c.shared.standing sole = calls

section

variable {c : Config (Fin 1) Op Op.Ret (State 1 me d)} {k : Nat}

/-- Another lock under the root takes another pin, the last value of the word included. -/
theorem Nested.lock (h : Nested k k c) (hk : k < transferringPins) :
    ∃ c' : Config (Fin 1) Op Op.Ret (State 1 me d), Nested (k + 1) (k + 1) c' := by
  obtain ⟨⟨mutex, won, root, region, inside, standing, released⟩, threads⟩ := c
  obtain ⟨hc, hidle, rfl, rfl, rfl, rfl, hin, hs⟩ := h
  have hne : region.pin me d ≠ transferringPins := Nat.ne_of_lt hk
  refine ⟨⟨⟨none, true, true, { region with
    pin := setCell region.pin me d (region.pin me d + 1)
    sections := Ownership.setSections region.sections me (.worker sole) d
      (region.sections me (.worker sole) d + 1) },
    update inside sole (inside sole + 1), update standing sole (standing sole + 1), released⟩,
      threads⟩,
    hc.call .lock (.flag true :: .any :: .nat 1 :: List.replicate 5 .any) hidle rfl ?_,
    hidle, rfl, rfl, rfl, ?_, ?_, ?_⟩
  · simp [System.play, Peterson.lock, words, Ownership.holdDomain, Ownership.pinOwnership,
      Ownership.pinLoop, Prog.lift, act, Ownership.act, Prog.perform, bind, Prog.bind, pure, system,
      exec, Ownership.access, hne, List.replicate]
  · simp [setCell]
  · simpa using hin
  · simpa using hs

/-- The full word reads as a transfer's, and an unlock leaves it and the root alone. -/
theorem Nested.unlock (h : Nested transferringPins (k + 1) c) :
    ∃ c' : Config (Fin 1) Op Op.Ret (State 1 me d), Nested transferringPins k c' := by
  obtain ⟨⟨mutex, won, root, region, inside, standing, released⟩, threads⟩ := c
  obtain ⟨hc, hidle, rfl, rfl, rfl, hpin, hin, hs⟩ := h
  replace hin : inside sole = k + 1 := hin
  replace hs : standing sole = k + 1 := hs
  replace hpin : region.pin me d = transferringPins := hpin
  have hmany : ¬ transferringPins ≤ 1 := by decide
  refine ⟨⟨⟨none, true, true, region.closeSection me (.worker sole) d, update inside sole k,
    update standing sole k, released⟩, threads⟩,
    hc.call .unlock [.any, .any, .any, .nat 0, .any, .any, .any] hidle (if_pos ?_) ?_, hidle, rfl,
    rfl, rfl, hpin, update_self sole k inside, update_self sole k standing⟩
  · exact Nat.lt_of_lt_of_eq k.succ_pos hin.symm
  · simp [System.play, Peterson.unlock, words, Ownership.unpinOwnership, Ownership.unpinLoop,
      Ownership.isUnpinned, Prog.lift, act, Ownership.act, Prog.perform, bind, Prog.bind, pure,
      system, exec, Ownership.access, hpin, hin, hs, hmany]

end

/-- One thread locks the domain 2^32 - 1 times, until its pins read as the transfer sentinel,
and unlocks it as often: nothing stands, and the pins and the root are kept. -/
theorem saturated_pins_keep_root : ∃ c, (system 1 7 3).Reachable (idle (unlocked 1 7 3)) c ∧
    (∀ i, c.threads i = .done () ∧ c.shared.standing i = 0) ∧ c.shared.mutex = none ∧
      c.shared.pin = transferringPins ∧ c.shared.root = true := by
  have hlock : ∀ k < transferringPins, ∃ c : Config (Fin 1) Op Op.Ret (State 1 7 3),
      Nested (k + 1) (k + 1) c := by
    intro k
    induction k with
    | zero =>
      intro _
      obtain ⟨c, hc, hidle, hfree, hwon, hroot, hpin, hin, hs⟩ := System.exists_of_run
        (system 1 7 3) (idle (unlocked 1 7 3)) (climbs sole)
        (P := fun c => c.threads sole = .done () ∧ c.shared.mutex = none ∧ c.shared.won = true ∧
          c.shared.root = true ∧ c.shared.pin = 1 ∧ c.shared.inside sole = 1 ∧
          c.shared.standing sole = 1) (by decide +kernel)
      exact ⟨c, hc, hidle, hfree, hwon, hroot, hpin, hin, hs⟩
    | succ k ih =>
      intro hk
      obtain ⟨c, h⟩ := ih (Nat.lt_of_succ_lt hk)
      exact h.lock hk
  have hunlock : ∀ k, ∀ c : Config (Fin 1) Op Op.Ret (State 1 7 3), Nested transferringPins k c →
      ∃ c' : Config (Fin 1) Op Op.Ret (State 1 7 3), Nested transferringPins 0 c' := by
    intro k
    induction k with
    | zero => exact fun c h => ⟨c, h⟩
    | succ k ih =>
      intro c h
      obtain ⟨c', h'⟩ := h.unlock
      exact ih c' h'
  obtain ⟨c, h⟩ := hlock (transferringPins - 1) (by decide)
  obtain ⟨c', h'⟩ := hunlock _ c h
  exact ⟨c', h'.reachable, fun i => Subsingleton.elim sole i ▸ ⟨h'.idle, h'.standing⟩, h'.free,
    h'.pin, h'.root⟩

end Cme.Peterson
