import Cme.Recovery.Invariant

/-!
# Recovery — every step keeps the invariant

`Inv.step` follows an operation of a poll thread from its stage, `Inv.outside` the
rest of the region; `inv_reachable` is what holds along every run, with the stage of
every thread.
-/

namespace Cme.Recovery

open Function Interleave
open Ownership (Dims)
open Registry (Status)

/-- A system whose steps are steps of the poll threads under the conditions. -/
structure Runs (M : System PeerId Op Ret State Choice Call Env) (e : Setting) : Prop where
  exec : ∀ {i o ch s r s'}, M.exec i o ch s = some (r, s') →
    exec i o ch s = some (r, s') ∧ undeposed e.dims i o ch s = true ∧
      (e.landing = true → landed o s = true)
  start : ∀ {i call s p}, M.start i call s = some p → start e.dims e.strategy i call s = some p
  env : ∀ {a s s'}, M.env a s = some s' → env e.dims e.strategy a s = some s'
  kills : ∀ a i, M.kills a i = kills a i

variable {e : Setting} {s s' : State} {γ : PeerId → Stage} {i q d t : PeerId}

theorem runs_of_restrict {calm : PeerId → Op → Choice → State → Bool}
    (h : ∀ {p o ch s}, calm p o ch s = true →
      undeposed e.dims p o ch s = true ∧ (e.landing = true → landed o s = true)) :
    Runs ((system e.dims e.strategy).restrict calm) e where
  exec hx := by
    obtain ⟨hcalm, hexec⟩ := System.restrict_exec.mp hx
    exact ⟨hexec, h hcalm⟩
  start hp := hp
  env ha := ha
  kills _ _ := rfl

theorem exec_some {o : Op} {ch : Choice} {r : Ret o} (hx : exec i o ch s = some (r, s')) :
    s.up i = true ∧ access i o ch s = some (r, s') := by
  unfold exec at hx
  split at hx
  · next hup => exact ⟨hup, hx⟩
  · cases hx

theorem mem_climbSlots {dims : Dims} {x : DomainId} {step : Tournament.ClimbStep}
    {slot : Nat × Tournament.Role} (h : climbSlot dims q x step = some slot) :
    slot ∈ climbSlots dims q := by
  simp only [climbSlot, Option.bind_eq_bind, Option.bind_eq_some_iff] at h
  obtain ⟨nodesPerDomain, hnodes, path, hpath, h⟩ := h
  simp only [climbSlots, hnodes, hpath]
  split at h
  · next hon =>
    cases h
    refine List.mem_flatMap.mpr ⟨step, List.mem_reverse.mpr hon.1, ?_⟩
    exact List.mem_map.mpr ⟨x, List.mem_range.mpr hon.2, rfl⟩
  · cases h

/-- A stake under the condition: nobody else has confirmed the target. -/
theorem undeposed_stake (h : Sound e s) {c : RecoveryClaim} {ch : Choice}
    (hcalm : undeposed e.dims i (.setClaim t c) ch s = true) (hc : c.read ≠ noPeer)
    (q : PeerId) (hq : s.confirmed q = some t) : q = i := by
  simp only [undeposed, Bool.or_eq_true, beq_iff_eq, List.all_eq_true, List.mem_range, hc,
    false_or] at hcalm
  rcases hcalm q (h.up_lt q (h.confirmed_up q t hq)) with heq | hne
  · exact heq
  · exact absurd hq (by simpa using hne)

namespace Inv

theorem getPoll (h : Inv e s γ) (hup : s.up i = true) {f : PollState → Stage}
    (hδ : advance e.dims e.strategy i (γ i) .getPoll = some f) :
    Inv e s (update γ i (f (s.poll i))) := by
  have hknows := h.knows i
  cases hv : γ i with
  | rest =>
    rw [hv] at hδ hknows
    cases hδ
    have hidle := h.idle (i := i) fun d facts hstage => by cases hv.symm.trans hstage
    refine h.move hup ?_ fun d hd => absurd hd (hidle d)
    dsimp only
    by_cases hpos : 0 < (s.poll i).recoveryCycles
    · rw [if_pos hpos]
      exact ⟨hknows hpos, fun f hf => absurd hf List.not_mem_nil⟩
    · rw [if_neg hpos]
      trivial
  | _ =>
    rw [hv] at hδ
    cases hδ

theorem getMember (h : Inv e s γ) (hup : s.up i = true) (t : PeerId) :
    Inv e s (update γ i ((γ i).check t (s.member t, !s.up t))) := by
  have hlearn : Inv e s (update γ i ((γ i).note (.copy (s.member t)) (t = ·))) := by
    refine h.learn hup fun d _ htd => ?_
    show s.member d = s.member t
    rw [htd]
  cases hv : γ i with
  | confirmed d =>
    have hknows := h.knows i
    rw [hv] at hknows
    have hidle := h.idle (i := i) fun d facts hstage => by cases hv.symm.trans hstage
    refine h.move hup ?_ fun d hd => absurd hd (hidle d)
    rw [Stage.check]
    split
    · next hgood =>
      obtain ⟨rfl, -, hstatus, hfailed⟩ := hgood
      exact ⟨hknows.1, hknows.2, hstatus, by simpa using hfailed⟩
    · exact hknows
  | _ =>
    rw [hv] at hlearn
    exact hlearn

theorem settleClaim (h : Inv e s γ) (hup : s.up i = true) {f : RecoveryClaim → Stage}
    (hδ : advance e.dims e.strategy i (γ i) (.settleClaim t) = some f) :
    Inv e (if (s.claim t).read = i then { s with confirmed := update s.confirmed i (some t) } else s)
      (update γ i (f (s.claim t))) := by
  simp only [advance] at hδ
  split at hδ
  · next ht =>
    have hsettle := fun hread => h.settle (t := t) hup ht hread
    split at hδ
    · next hv =>
      cases hδ
      dsimp only
      split
      · next hread => exact hsettle hread fun d facts hstage => by cases hv.symm.trans hstage
      · exact h.stay
    · next d facts hv =>
      cases hδ
      dsimp only
      by_cases hread : (s.claim t).read = i
      · rw [if_pos hread]
        split
        · exact hsettle hread fun d facts hstage => by cases hv.symm.trans hstage
        · next hsame =>
          -- the target it works on already: the claim is confirmed again
          obtain rfl : t = d := by
            by_contra hne
            exact hsame ⟨hread, hne⟩
          have hknows := h.knows i
          rw [hv] at hknows
          rw [← hknows.1.confirmed, update_eq_self]
          exact h.stay
      · rw [if_neg hread, if_neg fun hboth => hread hboth.1]
        exact h.stay
    · cases hδ
  · cases hδ

variable {f : Unit → Stage}

section

variable (h : Inv e s γ)

include h

section

variable (hup : s.up i = true)

include hup

theorem writeClaim {c : RecoveryClaim} {ch : Choice}
    (hcalm : undeposed e.dims i (.setClaim t c) ch s = true)
    (hδ : advance e.dims e.strategy i (γ i) (.setClaim t c) = some f) : Inv e { s with
      claim := update s.claim t c
      author := update s.author t (if c.read = noPeer then none else some (i, s.occupancy i)) }
      (update γ i (f ())) := by
  by_cases hempty : c.read = noPeer
  · simp only [advance, if_pos hempty] at hδ
    cases hδ
    have hne : c.read ≠ i := fun hself => h.sound.up_ne_noPeer hup (hself.symm.trans hempty)
    refine (h.setClaim hup t c (.inl hempty) fun hself => absurd hself hne).learn hup
      fun d hd _ => ?_
    show (update s.claim t c t).read ≠ d
    rw [update_self, hempty]
    exact (e.ne_noPeer hd).symm
  · simp only [advance, if_neg hempty] at hδ
    obtain ⟨hself, rfl⟩ := of_guard hδ
    exact (h.setClaim hup t c (.inr ⟨hself.1, undeposed_stake h.sound hcalm hempty⟩)
      fun _ => hself.2).stay

theorem writeMember {slot : Slot}
    (hδ : advance e.dims e.strategy i (γ i) (.setMember t slot) = some f) :
    Inv e (s.storeMember i t slot) (update γ i (f ())) := by
  have hknows := h.knows i
  simp only [advance] at hδ
  split at hδ
  · next d hv =>
    rw [hv] at hknows
    obtain ⟨hwrite, rfl⟩ := of_guard hδ
    obtain ⟨rfl, hstatus, hbits⟩ := hwrite
    obtain ⟨hlt, hconf, -, hdown⟩ := hknows
    have hne : slot.status ≠ .none := fun hnone => by cases hstatus.symm.trans hnone
    rw [State.storeMember, if_pos hstatus, if_neg hne, if_neg (by simp [hdown])]
    refine h.setMember hup hconf hdown (fun t ht => update_of_ne ht ..) (fun _ _ => rfl)
      (h.idle fun d facts hstage => by cases hv.symm.trans hstage) (fun hnone => absurd hnone hne)
      ⟨⟨hlt, hconf, ?_, ?_, hdown, update_self ..⟩, fun f hf => absurd hf List.not_mem_nil⟩
    · exact (congrArg Slot.status (update_self ..)).trans hstatus
    · exact (congrArg Slot.participating (update_self ..)).trans hbits
  · next d facts hv =>
    rw [hv] at hknows
    obtain ⟨hwrite, rfl⟩ := of_guard hδ
    obtain ⟨rfl, hstatus, hcomplete, -⟩ := hwrite
    obtain ⟨⟨hlt, hconf, -, -, hdown, -⟩, hfacts⟩ := hknows
    have hne : slot.status ≠ .recovering := fun hrec => by cases hstatus.symm.trans hrec
    have hgone : ∀ d, update s.atWork i none i ≠ some d := by simp
    rw [State.storeMember, if_pos hstatus, if_neg hne]
    exact h.setMember hup hconf hdown (fun _ _ => rfl) (fun p hp => update_of_ne hp ..) hgone
      (fun _ w hw => hfacts _ (hcomplete.words w hw)) ⟨hlt, hconf⟩
  · cases hδ

theorem clearDemand {bits : DomainBitmap}
    (hδ : advance e.dims e.strategy i (γ i) (.setDemand t bits) = some f) :
    Inv e { s with demand := update s.demand t bits } (update γ i (f ())) := by
  simp only [advance] at hδ
  split at hδ
  · next d inside facts hv =>
    obtain ⟨hwrite, rfl⟩ := of_guard hδ
    obtain ⟨rfl, rfl⟩ := hwrite
    have hlearn := (h.setDemand t 0 (.inl rfl)).learn hup (f := .demand) (P := (· = t))
      fun d _ hd => by rw [hd]; exact update_self ..
    rw [hv, Stage.note, if_pos rfl] at hlearn
    exact hlearn
  · obtain ⟨hwrite, rfl⟩ := of_guard hδ
    exact (h.setDemand t bits (.inl hwrite.2)).stay
  · cases hδ

theorem writeAggregator {g : Nat} (hland : e.landing = true → landed (.setAggregator g q) s = true)
    (hδ : advance e.dims e.strategy i (γ i) (.setAggregator g q) = some f) :
    Inv e { s with aggregator := update s.aggregator g q } (update γ i (f ())) := by
  have hwrite : Inv e { s with aggregator := update s.aggregator g q } γ := by
    refine h.setAggregator g q fun hl hq hrec => ?_
    have hactive := hland hl
    simp only [landed, Bool.or_eq_true, beq_iff_eq, hq, false_or] at hactive
    cases hactive.symm.trans hrec
  simp only [advance] at hδ
  split at hδ
  · next d inside facts hv =>
    obtain ⟨hgood, rfl⟩ := of_guard hδ
    obtain ⟨rfl, hq⟩ := hgood
    have hlearn := hwrite.learn hup (f := .aggregator) (P := (· = d)) fun t _ ht _ => by
      rw [ht]
      show update s.aggregator _ q _ ≠ d
      rw [update_self]
      exact hq
    rw [hv, Stage.note, if_pos rfl] at hlearn
    exact hlearn
  · cases hδ
    exact hwrite.stay
  · cases hδ

theorem clearLine {node : Nat} {role : Tournament.Role}
    (hδ : advance e.dims e.strategy i (γ i) (.setLine node role q) = some f) :
    Inv e { s with lines := setCell s.lines node role q } (update γ i (f ())) := by
  obtain ⟨hq, rfl⟩ := of_guard hδ
  subst hq
  refine (h.setLine node role noPeer (.inl rfl)).learn hup fun d hd _ => ?_
  show setCell s.lines node role noPeer node role ≠ d
  rw [setCell_apply, if_pos ⟨rfl, rfl⟩]
  exact (e.ne_noPeer hd).symm

theorem enterWork (hδ : advance e.dims e.strategy i (γ i) (.enter t) = some f) :
    Inv e { s with atWork := update s.atWork i (some t) } (update γ i (f ())) := by
  have hknows := h.knows i
  simp only [advance] at hδ
  split at hδ
  · next d facts hv =>
    rw [hv] at hknows
    obtain ⟨htd, rfl⟩ := of_guard hδ
    subst htd
    refine h.mark hup (some t) hknows fun d hd => ?_
    cases hd
    exact ⟨facts, rfl⟩
  · cases hδ

theorem joinThread (hδ : advance e.dims e.strategy i (γ i) .joinPollThread = some f) :
    Inv e s (update γ i (f ())) := by
  simp only [advance] at hδ
  split at hδ
  · next hv =>
    cases hδ
    refine h.move hup ⟨h.sound.up_lt i hup, rfl, fun t ht => absurd ht List.not_mem_nil⟩
      fun d hd => absurd hd (h.idle (fun d facts hstage => ?_) d)
    cases hv.symm.trans hstage
  · cases hδ

theorem writeNone (hδ : advance e.dims e.strategy i (γ i) .publishNone = some f) :
    Inv e (s.departed i) (update γ i (f ())) := by
  have hknows := h.knows i
  simp only [advance] at hδ
  split at hδ
  · next d facts hv =>
    obtain ⟨hall, rfl⟩ := of_guard hδ
    rw [hv] at hknows
    exact h.depart hup fun t ht => hknows.2.2 t (hall t ht)
  · cases hδ

end

theorem step {o : Op} {ch : Choice} {r : Ret o} {f : Ret o → Stage}
    (hδ : advance e.dims e.strategy i (γ i) o = some f) (hx : exec i o ch s = some (r, s'))
    (hcalm : undeposed e.dims i o ch s = true) (hland : e.landing = true → landed o s = true) :
    Inv e s' (update γ i (f r)) := by
  obtain ⟨hup, hx⟩ := exec_some hx
  cases o with
  | getPoll =>
    cases hx
    exact h.getPoll hup hδ
  | setPoll l =>
    cases hx
    obtain ⟨hends, rfl⟩ := of_guard hδ
    exact h.setPoll hup hends
  | getMember t =>
    cases hx
    cases hδ
    exact h.getMember hup t
  | setMember t slot =>
    cases hx
    exact h.writeMember hup hδ
  | getClaim t =>
    cases hx
    cases hδ
    exact h.learn hup fun d _ hd => hd
  | settleClaim t =>
    cases hx
    exact h.settleClaim hup hδ
  | setClaim t c =>
    cases hx
    exact h.writeClaim hup hcalm hδ
  | setShadow x g record =>
    cases hx
    cases hδ
    exact (h.shadow _).stay
  | setRecord x record =>
    cases hx
    cases hδ
    exact (h.truth _).stay
  | setDemand t bits =>
    cases hx
    exact h.clearDemand hup hδ
  | getAggregator g =>
    cases hx
    cases hδ
    refine h.learn hup fun d _ hd _ => ?_
    rw [← hd.2]
    exact hd.1
  | setAggregator g q =>
    cases hx
    exact h.writeAggregator hup hland hδ
  | getLine node role =>
    cases hx
    cases hδ
    exact h.learn hup fun d _ hd => hd
  | setLine node role q =>
    cases hx
    exact h.clearLine hup hδ
  | enter t =>
    cases hx
    exact h.enterWork hup hδ
  | leave =>
    cases hx
    cases hδ
    refine h.mark hup none ?_ fun _ hd => by cases hd
    have hknows := h.knows i
    cases hv : γ i <;> rw [hv] at hknows <;> exact hknows
  | joinPollThread =>
    cases hx
    exact h.joinThread hup hδ
  | publishNone =>
    cases hx
    exact h.writeNone hup hδ
  | spin => cases hx
  | askScanBound | askExpired =>
    cases hδ
    cases ch <;> cases hx
    exact h.stay
  | hasFailed | getRecord =>
    cases hx
    cases hδ
    exact h.stay

theorem outside {a : Env} (ha : env e.dims e.strategy a s = some s') :
    Inv e s' fun p => if kills a p then .rest else γ p := by
  have hall : ∀ {s'}, Inv e s' γ → (∀ p, kills a p = false) →
      Inv e s' fun p => if kills a p then .rest else γ p := by
    intro s' hs' hkills
    simpa only [hkills, Bool.false_eq_true, if_false] using hs'
  cases a with
  | crash p =>
    obtain ⟨-, rfl⟩ := of_guard ha
    simpa only [kills, decide_eq_true_eq] using h.crash p
  | reserve p =>
    obtain ⟨hfree, rfl⟩ := of_guard ha
    exact hall (h.reserve hfree.1 hfree.2.2) fun _ => rfl
  | participate p bits =>
    obtain ⟨hup, rfl⟩ := of_guard ha
    exact hall (h.ownSlot hup (h.sound.up_member p hup)) fun _ => rfl
  | beginLeave p =>
    obtain ⟨hup, rfl⟩ := of_guard ha
    exact hall (h.ownSlot hup (.inr rfl)) fun _ => rfl
  | request p bits =>
    obtain ⟨hup, rfl⟩ := of_guard ha
    exact hall (h.setDemand p bits (.inr hup)) fun _ => rfl
  | volunteer p =>
    obtain ⟨hup, rfl⟩ := of_guard ha
    exact hall (h.setAggregator _ p fun _ _ => (h.sound.status_of_up hup.1).2) fun _ => rfl
  | announce p x step =>
    obtain ⟨hup, ha⟩ := Option.ite_none_right_eq_some.mp ha
    obtain ⟨slot, hslot, rfl⟩ := Option.map_eq_some_iff.mp ha
    have hon : slot ∈ climbSlots e.dims p := mem_climbSlots hslot
    exact hall (h.setLine slot.1 slot.2 p (.inr ⟨hup.1, hup.2, hon⟩)) fun _ => rfl
  | withdraw p x step =>
    obtain ⟨-, ha⟩ := Option.ite_none_right_eq_some.mp ha
    obtain ⟨slot, -, rfl⟩ := Option.map_eq_some_iff.mp ha
    exact hall (h.setLine slot.1 slot.2 noPeer (.inl rfl)) fun _ => rfl
  | publishShadow x g r =>
    cases ha
    exact hall (h.shadow _) fun _ => rfl
  | publish x r =>
    cases ha
    exact hall (h.truth _) fun _ => rfl

end

end Inv

theorem inv_of_formatted (h : s.Formatted e.dims) : Inv e s fun _ => .rest where
  sound :=
    { up_lt := h.up_lt
      up_member := h.up_member
      confirmed_up := fun p d hd => by cases (h.confirmed p).symm.trans hd
      word := fun p d hd => by cases (h.confirmed p).symm.trans hd
      unique := fun p q d hd _ => by cases (h.confirmed p).symm.trans hd
      author := fun d _ hread => by
        rw [h.claim d] at hread
        exact absurd rfl (e.ne_noPeer (h.up_lt _ hread))
      vacant := fun q hq _ t _ => by
        rw [h.claim t]
        exact (e.ne_noPeer hq).symm
      lines := fun node role hne => absurd (h.lines node role) hne
      demand := fun _ => h.demand }
  down_rest _ _ := rfl
  knows p hpos := by
    rw [h.poll p] at hpos
    exact absurd hpos (Nat.lt_irrefl 0)
  atWork p d hd := by cases (h.atWork p).symm.trans hd

/-- Along every run under the conditions, with the stage of every thread. -/
theorem inv_reachable {M : System PeerId Op Ret State Choice Call Env} (hM : Runs M e)
    (h₀ : s.Formatted e.dims) {c : Config PeerId Op Ret State} (hc : M.Reachable (idle s) c) :
    ∃ γ, Inv e c.shared γ ∧ ∀ i, (c.threads i).Staged
      (advance e.dims e.strategy i) (fun _ v => v = .rest) (γ i) := by
  refine staged_reachable_of_kills (I := Inv e) (fun _ => rfl) (inv_of_formatted h₀) ?_ ?_ ?_ hc
  · intro i call s p hp
    cases call with
    | tick =>
      obtain ⟨-, rfl⟩ := of_guard (hM.start hp)
      exact staged_serviceTick e.maxPeers_lt
    | depart =>
      obtain ⟨hleaving, rfl⟩ := of_guard (hM.start hp)
      exact staged_depart (e.ne_noPeer hleaving.2.1)
  · intro i s γ o f ch r s' hI hδ hx
    obtain ⟨hexec, hcalm, hland⟩ := hM.exec hx
    exact hI.step hδ hexec hcalm hland
  · intro a s γ s' hI ha
    simpa only [hM.kills] using hI.outside (hM.env ha)

end Cme.Recovery
