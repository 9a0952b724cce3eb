import Cme.Client.Session
import Cme.Interleave.CountedLatch
import Cme.Interleave.Outline

/-!
# Client — what `holders_` counts

The token of an attempt raises and lowers the count. A guard lowers it when it
gives its area back, and nothing raises it when the guard is built, so the count
is what it is meant to be, less the guards ever built (`Counted`). A session that
has locked once has a count that reads 0 with a guard out, and one that has
unlocked once has a count that wraps below zero (`replaced_under_guard`).
Before the first guard is built the count is exact, and the door and the count
together keep a replacement out of an area in use (`holders_exact`).
-/

namespace Cme.Client

open Function Interleave

variable {W : Type} [Fintype W] [DecidableEq W] {s s' : State W} {t : W} {v l : Local}

/-- The count, up to the guards built. -/
structure Counted (s : State W) : Prop where
  law : (s.holders + s.built) % 2 ^ 32 = (s.attempts + s.guardsOut) % 2 ^ 32
  word : s.holders < 2 ^ 32
  out : s.guardsOut ≤ s.built

/-- What one thread's record says of the mutex and the door: an attempt inside
has counted itself in; the thread that drained holds the control mutex, and the
door is closed. -/
structure Door (control : Option W) (closing : Bool) (t : W) (l : Local) : Prop where
  inside : l.inside = true → l.attempt = true
  control : l.control = true → control = some t
  drained : l.drained = true → l.closed = true
  closer : l.closed = true → l.control = true
  closed : l.closed = true → closing = true

/-- Nobody is inside an area about to be replaced. -/
structure Calm (s : State W) : Prop where
  empty : ∀ t, (s.locals t).drained = true → ∀ u, (s.locals u).inside = false
  current : ∀ t a, (s.locals t).area = some a → (s.locals t).inside = true ∧ a = s.area
  unharmed : s.drainedInUse = false ∧ s.replacedInUse = false ∧ s.stale = false

/-- A thread's view is its own record. -/
structure Inv (s : State W) (γ : W → Local) : Prop where
  view : ∀ t, γ t = s.locals t
  counted : Counted s
  doored : ∀ t, Door s.control s.closing t (s.locals t)
  calm : s.built = 0 → Calm s

/-! ### Counting -/

/-- A sum over the threads of which one thread's term changes. -/
theorem sum_change {f g : W → Nat} (t : W) (hother : ∀ u, u ≠ t → g u = f u) :
    (∑ u, g u) + f t = (∑ u, f u) + g t := by
  have hsum : g = update f t (g t) := eq_update_iff.mpr ⟨rfl, hother⟩
  have hadd := sum_update_add f t (g t)
  rwa [← hsum] at hadd

omit [DecidableEq W] in
theorem guardsOf_le_guardsOut (s : State W) (t : W) : s.guardsOf t ≤ s.guardsOut :=
  Finset.single_le_sum (fun _ _ => Nat.zero_le _) (Finset.mem_univ t)

/-- One thread's step: what it adds to the attempts and the guards, it adds to
the count and the guards built. -/
theorem Counted.change {holders built : Nat} {guards : W → List Guard} (h : Counted s)
    (hlocals : s'.locals = update s.locals t l) (hholders : s'.holders = holders)
    (hbuilt : s'.built = built) (hguard : s'.guards = guards)
    (hguards : ∀ u, u ≠ t → guards u = s.guards u) (hword : holders < 2 ^ 32)
    (hlaw : (holders + built + (s.locals t).attempt.toNat + s.guardsOf t) % 2 ^ 32 =
      (s.holders + s.built + l.attempt.toNat + l.hand.toList.length + (guards t).length) % 2 ^ 32)
    (hout : s.built + l.hand.toList.length + (guards t).length ≤ built + s.guardsOf t) :
    Counted s' := by
  have hmine : s'.guardsOf t = l.hand.toList.length + (guards t).length := by
    rw [State.guardsOf, hlocals, hguard, update_self]
  have hatt : s'.attempts + (s.locals t).attempt.toNat = s.attempts + (s'.locals t).attempt.toNat :=
    sum_change (f := fun u => (s.locals u).attempt.toNat)
      (g := fun u => (s'.locals u).attempt.toNat) t fun u hu => by
        show (s'.locals u).attempt.toNat = _
        rw [hlocals, update_of_ne hu]
  have hgua : s'.guardsOut + s.guardsOf t = s.guardsOut + s'.guardsOf t :=
    sum_change t fun u hu => by
      unfold State.guardsOf
      rw [hlocals, update_of_ne hu, hguard, hguards u hu]
  rw [hlocals, update_self] at hatt
  obtain ⟨hold, -, hle⟩ := h
  exact ⟨by omega, by omega, by omega⟩

omit [DecidableEq W] in
theorem Counted.exact (h : Counted s) (hW : Fintype.card W < 2 ^ 32) (hbuilt : s.built = 0) :
    s.holders = s.attempts + s.guardsOut := by
  have hle : s.attempts ≤ Fintype.card W := by
    unfold State.attempts
    calc ∑ t, (s.locals t).attempt.toNat ≤ ∑ _t : W, 1 :=
          Finset.sum_le_sum fun t _ => Bool.toNat_le _
      _ = Fintype.card W := by simp
  obtain ⟨hlaw, hword, hout⟩ := h
  omega

/-! ### Steps of one thread -/

omit [Fintype W] [DecidableEq W] in
/-- A thread that has nothing to do with the control mutex. -/
theorem Door.unlocked {control : Option W} {closing : Bool} (hcontrol : l.control = false)
    (hclosed : l.closed = false) (hdrained : l.drained = false)
    (hin : l.inside = true → l.attempt = true) : Door control closing t l :=
  ⟨hin, by simp [hcontrol], by simp [hdrained], by simp [hclosed], by simp [hclosed]⟩

omit [Fintype W] in
theorem Calm.update (h : Calm s) (hlocals : s'.locals = update s.locals t l)
    (harea : s'.area = s.area)
    (hempty : l.drained = true → ∀ u, ((update s.locals t l) u).inside = false)
    (hquiet : ∀ u, u ≠ t → (s.locals u).drained = true → l.inside = false)
    (hcurrent : ∀ a, l.area = some a → l.inside = true ∧ a = s.area)
    (hharm : s'.drainedInUse = false ∧ s'.replacedInUse = false ∧ s'.stale = false) : Calm s' := by
  refine ⟨?_, ?_, hharm⟩ <;> rw [hlocals]
  · refine (forall_update_iff s.locals fun _ m => m.drained = true → ∀ u,
      ((Function.update s.locals t l) u).inside = false).mpr ⟨hempty, fun u hu hd => ?_⟩
    exact (forall_update_iff s.locals fun _ m => m.inside = false).mpr
      ⟨hquiet u hu hd, fun w _ => h.empty u hd w⟩
  · rw [harea]
    exact (forall_update_iff s.locals fun _ m => ∀ a, m.area = some a → m.inside = true ∧
      a = s.area).mpr ⟨hcurrent, fun u _ => h.current u⟩

omit [Fintype W] in
/-- A thread that has not drained stays outside the area. -/
theorem Calm.outside (h : Calm s) (hlocals : s'.locals = Function.update s.locals t l)
    (harea : s'.area = s.area) (hdrained : l.drained = false) (hinside : l.inside = false)
    (hnone : l.area = none)
    (hharm : s'.drainedInUse = false ∧ s'.replacedInUse = false ∧ s'.stale = false) : Calm s' :=
  h.update hlocals harea (by simp [hdrained]) (fun _ _ _ => hinside) (by simp [hnone]) hharm

theorem decrement_lt (word : Nat) : decrement word < 2 ^ 32 := by
  unfold decrement
  exact Nat.mod_lt _ (Nat.two_pow_pos 32)

variable {γ : W → Local}

theorem Inv.step (h : Inv s γ) (hlocals : s'.locals = update s.locals t l)
    (hcounted : Counted s') (hmine : Door s'.control s'.closing t l)
    (hothers : ∀ u, u ≠ t → Door s'.control s'.closing u (s.locals u))
    (hcalm : s'.built = 0 → Calm s') : Inv s' (update γ t l) := by
  refine ⟨?_, hcounted, ?_, hcalm⟩ <;> rw [hlocals]
  · rw [funext h.view]
    exact fun _ => rfl
  · exact (forall_update_iff s.locals (Door s'.control s'.closing)).mpr ⟨hmine, hothers⟩

omit [DecidableEq W] in
theorem Inv.local_eq (h : Inv s γ) (hv : γ t = v) : s.locals t = v := (h.view t).symm.trans hv

/-- A step that moves neither an attempt nor a guard. -/
theorem Inv.still (h : Inv s γ) (hv : γ t = v) (hattempt : l.attempt = v.attempt)
    (hhand : l.hand = v.hand)
    (hs : s' = { s.setLocal t l with
      control := s'.control, closing := s'.closing, migrating := s'.migrating,
      drainedInUse := s'.drainedInUse })
    (hmine : Door s'.control s'.closing t l)
    (hothers : ∀ u, u ≠ t → Door s'.control s'.closing u (s.locals u))
    (hcalm : s.built = 0 → Calm s → Calm s') : Inv s' (update γ t l) := by
  have hl := h.local_eq hv
  have hbuilt := congrArg State.built hs
  have hlocals := congrArg State.locals hs
  refine h.step hlocals (h.counted.change hlocals (congrArg State.holders hs) hbuilt
    (congrArg State.guards hs) (fun _ _ => rfl) h.counted.word ?_ ?_) hmine hothers fun hb => ?_
  · rw [State.guardsOf, hl, hattempt, hhand, Nat.add_assoc _ v.hand.toList.length]
    rfl
  · rw [State.guardsOf, hl, hhand, Nat.add_assoc]
    exact le_rfl
  · have hb := hbuilt.symm.trans hb
    exact hcalm hb (h.calm hb)

omit [DecidableEq W] in
/-- A step of nobody's record. -/
theorem Inv.frame (h : Inv s γ)
    (hs : s' = { s with
      serving := s'.serving, area := s'.area, replacedInUse := s'.replacedInUse,
      stale := s'.stale, migrating := s'.migrating })
    (hcalm : s.built = 0 → Calm s → Calm s') : Inv s' γ := by
  rw [hs] at hcalm ⊢
  exact ⟨h.view, { h.counted with }, h.doored, fun hb => hcalm hb (h.calm hb)⟩

section Attempts

variable {a : Nat}

theorem Inv.countIn (h : Inv s γ) (hv : γ t = {}) :
    Inv { s.setLocal t { s.locals t with attempt := true } with
        holders := (s.holders + 1) % 2 ^ 32 }
      (update γ t { attempt := true }) := by
  have hl := h.local_eq hv
  rw [hl]
  refine h.step rfl (h.counted.change rfl rfl rfl rfl (fun _ _ => rfl)
    (Nat.mod_lt _ (Nat.two_pow_pos 32)) ?_ ?_) (.unlocked rfl rfl rfl fun _ => rfl)
    (fun u _ => h.doored u) fun hb => (h.calm hb).outside rfl rfl rfl rfl rfl (h.calm hb).unharmed
  · simp [State.guardsOf, State.setLocal, hl]
    omega
  · simp [State.guardsOf, State.setLocal, hl]

theorem Inv.countOut (h : Inv s γ) (hv : γ t = v) (hatt : v.attempt = true)
    (hcontrol : v.control = false) (hclosed : v.closed = false) (hdrained : v.drained = false) :
    Inv { s.setLocal t { s.locals t with attempt := false, inside := false, area := none } with
        holders := decrement s.holders }
      (update γ t { hand := v.hand }) := by
  have hl := h.local_eq hv
  have hown : { s.locals t with attempt := false, inside := false, area := none } =
      ({ hand := v.hand } : Local) := by
    rw [hl]
    show Local.mk false false none v.hand v.control v.closed v.drained = _
    rw [hcontrol, hclosed, hdrained]
  rw [hown]
  refine h.step rfl (h.counted.change rfl rfl rfl rfl (fun _ _ => rfl) (decrement_lt s.holders)
    ?_ ?_) (.unlocked rfl rfl rfl fun hin => hin) (fun u _ => h.doored u)
    fun hb => (h.calm hb).outside rfl rfl rfl rfl rfl (h.calm hb).unharmed
  · simp [State.guardsOf, State.setLocal, hl, hatt, decrement]
    omega
  · simp [State.guardsOf, State.setLocal, hl, Nat.add_assoc]

theorem Inv.enter (h : Inv s γ) (hv : γ t = { attempt := true }) (hopen : s.closing = false) :
    Inv (s.setLocal t { s.locals t with inside := true })
      (update γ t { attempt := true, inside := true }) := by
  rw [h.local_eq hv]
  refine h.still hv rfl rfl rfl (.unlocked rfl rfl rfl fun _ => rfl) (fun u _ => h.doored u)
    fun hb hcalm => hcalm.update rfl rfl (fun hd => by cases hd) (fun u _ hd => ?_)
      (fun a ha => by cases ha) hcalm.unharmed
  -- whoever has drained has closed the door
  have hclosed := (h.doored u).closed ((h.doored u).drained hd)
  rw [hopen] at hclosed
  cases hclosed

/-- The mapping is read behind the open door. -/
theorem Inv.shared (h : Inv s γ) (hv : γ t = { attempt := true, inside := true }) :
    Inv (s.setLocal t { s.locals t with area := some s.area })
      (update γ t { attempt := true, inside := true, area := some s.area }) := by
  have hl := h.local_eq hv
  rw [hl]
  refine h.still hv rfl rfl rfl (.unlocked rfl rfl rfl fun _ => rfl) (fun u _ => h.doored u)
    fun hb hcalm => hcalm.update rfl rfl (fun hd => by cases hd) (fun u _ hd => ?_)
      (fun a ha => ⟨rfl, (Option.some.inj ha).symm⟩) hcalm.unharmed
  have hout := hcalm.empty u hd t
  rwa [hl] at hout

omit [DecidableEq W] in
/-- A word of the mapping is touched by an attempt inside, or once there are
guards. -/
theorem Inv.touch (h : Inv s γ) (hcur : s.built = 0 → a = s.area) : Inv (s.touch a) γ := by
  refine h.frame rfl fun hb hcalm => ⟨hcalm.empty, hcalm.current, ?_⟩
  simp [State.touch, hcalm.unharmed, hcur hb]

end Attempts

section Guards

variable {g : Guard}

omit [DecidableEq W] in
theorem Inv.built_pos (h : Inv s γ) (hone : 1 ≤ s.guardsOf t) : s.built ≠ 0 := by
  have hsum := guardsOf_le_guardsOut s t
  have hout := h.counted.out
  omega

omit [DecidableEq W] in
theorem Inv.built_of_hand (h : Inv s γ) (hv : γ t = v) (hg : v.hand = some g) : s.built ≠ 0 :=
  h.built_pos (t := t) (by simp [State.guardsOf, h.local_eq hv, hg])

theorem Inv.buildGuard (h : Inv s γ) (hv : γ t = v) (hhand : v.hand = none) :
    Inv { s.setLocal t { s.locals t with hand := some g } with built := s.built + 1 }
      (update γ t { v with hand := some g }) := by
  have hl := h.local_eq hv
  have hmine := h.doored t
  rw [hl] at hmine ⊢
  refine h.step rfl (h.counted.change rfl rfl rfl rfl (fun _ _ => rfl) h.counted.word ?_ ?_)
    { hmine with } (fun u _ => h.doored u) fun hb => by cases hb
  · simp [State.guardsOf, State.setLocal, hl, hhand]
    omega
  · simp [State.guardsOf, State.setLocal, hl, hhand]

/-- The guard in hand gives its area back, and the count goes down. -/
theorem Inv.subtractHolder (h : Inv s γ) (hv : γ t = v) (hg : v.hand = some g) :
    Inv { s.setLocal t { s.locals t with hand := none } with holders := decrement s.holders }
      (update γ t { v with hand := none }) := by
  have hl := h.local_eq hv
  have hmine := h.doored t
  rw [hl] at hmine ⊢
  refine h.step rfl (h.counted.change rfl rfl rfl rfl (fun _ _ => rfl) (decrement_lt s.holders)
    ?_ ?_) { hmine with } (fun u _ => h.doored u) fun hb => absurd hb (h.built_of_hand hv hg)
  · simp [State.guardsOf, State.setLocal, hl, hg, decrement]
    omega
  · simp [State.guardsOf, State.setLocal, hl, hg]

theorem Inv.returnGuard (h : Inv s γ) (hv : γ t = { hand := some g }) :
    Inv { s.setLocal t { s.locals t with hand := none } with
        guards := update s.guards t ((s.locals t).hand.toList ++ s.guards t) }
      (update γ t {}) := by
  have hl := h.local_eq hv
  rw [hl]
  refine h.step rfl (h.counted.change rfl rfl rfl rfl (fun _ hu => update_of_ne hu _ _)
    h.counted.word ?_ ?_) (.unlocked rfl rfl rfl fun hin => hin) (fun u _ => h.doored u)
    fun hb => absurd hb (h.built_of_hand hv rfl)
  · simp [State.guardsOf, State.setLocal, hl]
    omega
  · simp [State.guardsOf, State.setLocal, hl, Nat.add_comm]

theorem Inv.pickGuard (h : Inv s γ) (hv : γ t = {}) {index : Nat}
    (hg : (s.guards t)[index]? = some g) :
    Inv { s.setLocal t { s.locals t with hand := some g } with
        guards := update s.guards t ((s.guards t).eraseIdx index) }
      (update γ t { hand := some g }) := by
  have hl := h.local_eq hv
  obtain ⟨hlen, -⟩ := List.getElem?_eq_some_iff.mp hg
  have hb : s.built ≠ 0 := h.built_pos (t := t) (by unfold State.guardsOf; omega)
  rw [hl]
  refine h.step rfl (h.counted.change rfl rfl rfl rfl (fun _ hu => update_of_ne hu _ _)
    h.counted.word ?_ ?_) (.unlocked rfl rfl rfl fun hin => hin) (fun u _ => h.doored u)
    fun hb' => absurd hb' hb
  · simp [State.guardsOf, State.setLocal, hl, List.length_eraseIdx, hlen]
    omega
  · simp [State.guardsOf, State.setLocal, hl, List.length_eraseIdx, hlen]
    omega

theorem Inv.moveGuard (h : Inv s γ) {index : Nat} (hg : (s.guards t)[index]? = some g) (u : W) :
    let rest := update s.guards t ((s.guards t).eraseIdx index)
    Inv { s with guards := update rest u (g :: rest u) } γ := by
  intro rest
  obtain ⟨hlen, -⟩ := List.getElem?_eq_some_iff.mp hg
  -- out of one thread's keeping first, then into the other's
  have hout : ({ s with guards := rest } : State W).guardsOut + 1 = s.guardsOut := by
    have hsum := sum_change (f := s.guardsOf) (g := ({ s with guards := rest } : State W).guardsOf)
      t fun w hw => by simp [State.guardsOf, rest, hw]
    have hone : ({ s with guards := rest } : State W).guardsOf t + 1 = s.guardsOf t := by
      simp only [State.guardsOf, rest, update_self, List.length_eraseIdx, hlen, if_true]
      omega
    unfold State.guardsOut
    omega
  have hin : ({ s with guards := update rest u (g :: rest u) } : State W).guardsOut =
      ({ s with guards := rest } : State W).guardsOut + 1 := by
    have hsum := sum_change (f := ({ s with guards := rest } : State W).guardsOf)
      (g := ({ s with guards := update rest u (g :: rest u) } : State W).guardsOf)
      u fun w hw => by simp [State.guardsOf, hw]
    have hone : ({ s with guards := update rest u (g :: rest u) } : State W).guardsOf u =
        ({ s with guards := rest } : State W).guardsOf u + 1 := by
      simp only [State.guardsOf, update_self, List.length_cons]
      omega
    unfold State.guardsOut
    omega
  have hsame := hin.trans hout
  refine ⟨h.view, ⟨?_, h.counted.word, ?_⟩, ?_, fun hb => ?_⟩
  · rw [hsame]
    exact h.counted.law
  · rw [hsame]
    exact h.counted.out
  · exact h.doored
  · exact { h.calm hb with }

end Guards

section Migrations

variable {b b' : Bool}

/-- The record of a thread that only deals with the control mutex. -/
def migrating (closed drained : Bool) : Local :=
  { control := true, closed := closed, drained := drained }

theorem Inv.lockControl (h : Inv s γ) (hv : γ t = {}) (hfree : s.control = none) :
    Inv { s.setLocal t { s.locals t with control := true } with control := some t }
      (update γ t (migrating false false)) := by
  rw [h.local_eq hv]
  refine h.still hv rfl rfl rfl ⟨fun hin => hin, fun _ => rfl, fun hd => hd, fun _ => rfl,
    fun hc => (by cases hc)⟩ (fun u _ => { h.doored u with control := fun hc => ?_ })
    fun hb hcalm => hcalm.outside rfl rfl rfl rfl rfl hcalm.unharmed
  have hheld := (h.doored u).control hc
  rw [hfree] at hheld
  cases hheld

omit [DecidableEq W] in
theorem Inv.alone (h : Inv s γ) (hv : γ t = migrating b b') {u : W} (hu : u ≠ t) :
    (s.locals u).control = false ∧ (s.locals u).closed = false := by
  have hmine := (h.doored t).control (by rw [h.local_eq hv]; rfl)
  have hfree : (s.locals u).control = false := by
    by_contra hne
    have htheirs := (h.doored u).control (by simpa using hne)
    rw [hmine] at htheirs
    exact hu (Option.some.inj htheirs).symm
  refine ⟨hfree, ?_⟩
  by_contra hne
  have hheld := (h.doored u).closer (by simpa using hne)
  rw [hfree] at hheld
  cases hheld

omit [DecidableEq W] in
/-- What the mutex and the door are to the others does not matter to them. -/
theorem Inv.others (h : Inv s γ) (hv : γ t = migrating b b') (control : Option W) (closing : Bool)
    (u : W) (hu : u ≠ t) : Door control closing u (s.locals u) := by
  obtain ⟨hcontrol, hclosed⟩ := h.alone hv hu
  exact ⟨(h.doored u).inside, by simp [hcontrol], (h.doored u).drained, by simp [hclosed],
    by simp [hclosed]⟩

theorem Inv.unlockControl (h : Inv s γ) (hv : γ t = migrating b b') :
    Inv { s.setLocal t { s.locals t with control := false, closed := false, drained := false } with
        control := none } (update γ t {}) := by
  rw [h.local_eq hv]
  exact h.still hv rfl rfl rfl (.unlocked rfl rfl rfl fun hin => hin) (h.others hv _ _)
    fun hb hcalm => hcalm.outside rfl rfl rfl rfl rfl hcalm.unharmed

/-- The door is closed, or opened again, by whoever holds the mutex. -/
theorem Inv.storeClosing (h : Inv s γ) (hv : γ t = migrating b b') (closing : Bool) :
    Inv { s.setLocal t { s.locals t with closed := closing, drained := false } with
        closing := closing, migrating := if closing then some t else none }
      (update γ t (migrating closing false)) := by
  have hmine := h.doored t
  rw [h.local_eq hv] at hmine ⊢
  exact h.still hv rfl rfl rfl ⟨fun hin => hin, hmine.control, fun hd => (by cases hd),
    fun _ => rfl, fun hc => hc⟩ (h.others hv _ _)
    fun hb hcalm => hcalm.outside rfl rfl rfl rfl rfl hcalm.unharmed

/-- **The count reads 0.** Before the first guard that means that nobody is
about, and the closed door keeps it that way. -/
theorem Inv.drain (h : Inv s γ) (hW : Fintype.card W < 2 ^ 32) (hv : γ t = migrating true b)
    (hzero : s.holders = 0) : Inv { s.setLocal t { s.locals t with drained := true } with
        drainedInUse := s.drainedInUse || decide (s.attempts + s.guardsOut ≠ 0) }
      (update γ t (migrating true true)) := by
  have hmine := h.doored t
  rw [h.local_eq hv] at hmine ⊢
  refine h.still hv rfl rfl rfl { hmine with drained := fun _ => rfl } (fun u _ => h.doored u)
    fun hb hcalm => ?_
  have hexact := h.counted.exact hW hb
  have hnobody : ∀ u, (s.locals u).inside = false := by
    intro u
    by_contra hne
    have hatt := (h.doored u).inside (by simpa using hne)
    have hle : (s.locals u).attempt.toNat ≤ s.attempts :=
      Finset.single_le_sum (f := fun u => (s.locals u).attempt.toNat)
        (fun _ _ => Nat.zero_le _) (Finset.mem_univ u)
    rw [hatt, Bool.toNat_true] at hle
    omega
  have hnone : s.attempts + s.guardsOut = 0 := by omega
  refine hcalm.update rfl rfl (fun _ => ?_) (fun _ _ _ => rfl) (fun a ha => by cases ha) ?_
  · exact (forall_update_iff s.locals fun _ m => m.inside = false).mpr ⟨rfl, fun u _ => hnobody u⟩
  · simp [State.setLocal, hcalm.unharmed, hnone]

omit [DecidableEq W] in
/-- The mapping is replaced behind the closed door. -/
theorem Inv.attach (h : Inv s γ) (hv : γ t = migrating b true) : Inv { s with
        area := s.area + 1
        replacedInUse := s.replacedInUse ||
          decide (s.guardsOut ≠ 0 ∨ ∃ u, (s.locals u).inside = true) } γ := by
  refine h.frame rfl fun hb hcalm => ?_
  have hout : s.guardsOut = 0 := by
    have := h.counted.out
    omega
  have hnobody := hcalm.empty t (by rw [h.local_eq hv]; rfl)
  refine ⟨hcalm.empty, fun u a ha => ?_, ?_⟩
  · have hin := (hcalm.current u a ha).1
    rw [hnobody u] at hin
    cases hin
  · simp [hcalm.unharmed, hout, hnobody]

omit [DecidableEq W] in
/-- The connection comes and goes, and a migration ends. -/
theorem Inv.setServing (h : Inv s γ) (serving : Bool) (migrating : Option W) :
    Inv { s with serving := serving, migrating := migrating } γ :=
  h.frame rfl fun _ hcalm => { hcalm with }

end Migrations

end Cme.Client
