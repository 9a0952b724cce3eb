import Cme.Stake.Ledger

/-!
# Stake — what the candidates know, under each operation
-/

namespace Cme.Stake

open Function Interleave

variable {lim : Limits} {w : Word} {s s' : State} {i j : Tid} {γ : Tid → View} {v v' : Facts}

theorem Records.lastRead_le_now (h : Records lim w s) (i : Tid) : s.lastRead i ≤ s.now :=
  Nat.le_trans (h.lastRead_le i) h.readAt_le

theorem State.owner_unique {m : Nat} (hi : s.owner m = some i) (hj : s.owner m = some j) :
    i = j := by
  rw [hi] at hj
  exact Option.some.inj hj

/-- What a candidate knows of its stores, at the stage it is at. -/
theorem Knows.at_stage (hk : Knows lim w s i v) {st : Stage} (hst : v.stage = st) :
    (∀ b, (i, b) ∈ s.bids → st.Down lim s i b) ∧
      (∀ f ∈ s.flying, f.author = i → f.what.OnWord → st.Up lim s f) ∧ st.Timely lim s i :=
  hst ▸ ⟨hk.down, hk.up, hk.timely⟩

/-! ### Steps of others -/

variable {st : Stage}

theorem Stage.Down.mono {b : Bid Nat} (h : st.Down lim s i b) (hnow : s.now ≤ s'.now)
    (hread : s'.lastRead i = s.lastRead i) : st.Down lim s' i b := by
  cases st with
  | resting => exact Old.mono h hnow
  | opened o => exact Old.mono h hnow
  | clearing => exact Old.mono h hnow
  | staked o => exact h.imp_left (·.mono hnow)
  | flushed o f => exact h.imp_left (·.mono hnow)
  | settling e => exact ⟨h.1.mono hnow, h.2⟩
  | holding e => exact h
  | settled e | inside e | checked =>
    unfold Stage.Down
    rw [hread]
    exact h

variable {f : Store}

theorem Stage.Up.mono (h : st.Up lim s f) (hnow : s.now ≤ s'.now) : st.Up lim s' f := by
  cases st with
  | resting => exact ⟨h.1, h.2.mono (by omega)⟩
  | _ => exact h

/-- A step that leaves candidate `j`'s own stores and times alone. -/
structure Unseen (j : Tid) (s s' : State) : Prop where
  alive : s.crashed j = none → s'.crashed j = none
  started : s'.started j = s.started j
  now : s.now ≤ s'.now
  readAt : s.readAt ≤ s'.readAt
  lastRead : s'.lastRead j = s.lastRead j
  stakedAt : s'.stakedAt j = s.stakedAt j
  window : s'.window j = s.window j
  published : s'.published j = s.published j
  entered : s'.entered j = s.entered j
  word : ∀ t, t ≤ s.readAt → s'.word t = s.word t
  slots : ∀ p t, t ≤ s.readAt → s'.slots p t = s.slots p t
  owner : ∀ x, s.owner x = some j → s'.owner x = some j
  crashed : ∀ e t, s.crashed e = some t → s'.crashed e = some t
  bids : ∀ b, (j, b) ∈ s'.bids → (j, b) ∈ s.bids
  withdrawals : ∀ x, (j, x) ∈ s'.withdrawals → (j, x) ∈ s.withdrawals
  writes : ∀ x ∈ s'.writes, x.author = j → x ∈ s.writes
  flying : ∀ f ∈ s'.flying, f.author = j → f.what.Counts → f ∈ s.flying
  staked : ∀ x k, s.owner x = some j → s'.Staked x k → s.Staked x k
  took : ∀ y, s.Took j y → s'.Took j y
  reaches : ∀ y d, s.Reaches j y d → s'.Reaches j y d

theorem Unseen.refl (j : Tid) (s : State) : Unseen j s s where
  alive h := h
  started := rfl
  now := le_rfl
  readAt := le_rfl
  lastRead := rfl
  stakedAt := rfl
  window := rfl
  published := rfl
  entered := rfl
  word _ _ := rfl
  slots _ _ _ := rfl
  owner _ h := h
  crashed _ _ h := h
  bids _ h := h
  withdrawals _ h := h
  writes _ h _ := h
  flying _ h _ _ := h
  staked _ _ _ h := h
  took _ h := h
  reaches _ _ h := h

theorem Stage.Timely.mono (h : st.Timely lim s i) (c : Unseen i s s') : st.Timely lim s' i := by
  cases st with
  | opened o => exact Nat.le_trans h c.now
  | staked o =>
    unfold Stage.Timely
    rw [c.stakedAt, c.window, c.entered]
    exact ⟨Nat.le_trans h.1 c.now, h.2.1, Nat.le_trans h.2.2.1 c.now, h.2.2.2⟩
  | flushed o f =>
    unfold Stage.Timely
    rw [c.stakedAt, c.window, c.published, c.entered]
    exact ⟨Nat.le_trans h.1 c.now, Nat.le_trans h.2.1 c.now, h.2.2⟩
  | settling e =>
    unfold Stage.Timely
    rw [c.stakedAt, c.window, c.published]
    exact h
  | holding e =>
    show s'.stakedAt i + lim.lateHold ≤ e ∧ s'.entered i = none
    rw [c.stakedAt, c.entered]
    exact h
  | settled e =>
    unfold Stage.Timely
    rw [c.stakedAt, c.window, c.published, c.lastRead]
    exact ⟨h.1, h.2.1, h.2.2.1, fun x hx => h.2.2.2 x (c.withdrawals x hx)⟩
  | inside e =>
    obtain ⟨h1, h2, h3, h4, val, since, h5, h6, h7⟩ := h
    unfold Stage.Timely
    rw [c.stakedAt, c.window, c.published, c.lastRead, c.entered]
    exact ⟨h1, h2, h3, fun x hx => h4 x (c.withdrawals x hx), val, since, h5, h6,
      fun x hx => h7 x (c.withdrawals x hx)⟩
  | checked =>
    obtain ⟨h1, h2, h3, h4, h5⟩ := h
    unfold Stage.Timely
    rw [c.stakedAt, c.lastRead, c.entered]
    exact ⟨fun x hx => h1 x (c.withdrawals x hx), h2, h3, fun x hx ha => h4 x (c.writes x hx ha) ha,
      fun y => c.reaches y _ (h5 y)⟩
  | resting | clearing => trivial

theorem Payload.OnWord.counts {what : Payload} (h : what.OnWord) : what.Counts := by
  cases what with
  | bound _ => exact h
  | _ => trivial

theorem Knows.frame (h : Knows lim w s j v) (hR : Records lim w s) (c : Unseen j s s') :
    Knows lim w s' j v where
  alive := c.alive h.alive
  started := c.started.trans h.started
  down b hb := (h.down b (c.bids b hb)).mono c.now c.lastRead
  up f hf ha hw := (h.up f (c.flying f hf ha hw.counts) ha hw).mono c.now
  timely := h.timely.mono c
  clock := Nat.le_trans h.clock c.now
  look x hx := by
    rw [c.lastRead, c.word _ (hR.lastRead_le j)]
    exact h.look x hx
  failed e he := by
    obtain ⟨t, h1, h2⟩ := h.failed e he
    exact ⟨t, c.crashed e t h1, Nat.le_trans h2 c.now⟩
  watch x t hx := by
    obtain ⟨h1, h2⟩ := h.watch x t hx
    exact ⟨(c.word t h2).trans h1, Nat.le_trans h2 c.readAt⟩
  own x hx := c.owner x (h.own x hx)
  nonce hw x hx k hk := by
    rw [c.stakedAt]
    exact h.nonce hw x hx k (c.staked x k (h.own x hx) hk)
  slot p hp := by
    rw [c.lastRead, c.slots p _ (hR.lastRead_le j)]
    exact h.slot p hp
  synced hs f hf ha y hw := by
    have hn := c.now
    exact (h.synced hs f (c.flying f hf ha (by rw [hw]; trivial)) ha y hw).mono (by omega)
  took p hp := by
    obtain ⟨y, hy, ht⟩ := h.took p hp
    exact ⟨y, hy, c.took y ht⟩

theorem Inv.move (h : Inv lim w s γ) (hR : Records lim w s') (hL : Ledger lim w s')
    (hi : Knows lim w s' i v') (hother : ∀ j, j ≠ i → ∀ v, Knows lim w s j v → Knows lim w s' j v) :
    Inv lim w s' (update γ i (some v')) where
  records := hR
  ledger := hL
  knows j v hj := by
    by_cases hji : j = i
    · subst hji
      rw [update_self] at hj
      cases hj
      exact hi
    · rw [update_of_ne hji] at hj
      exact hother j hji v (h.knows j v hj)

theorem Inv.relabel (h : Inv lim w s γ) (hi : Knows lim w s i v') :
    Inv lim w s (update γ i (some v')) :=
  h.move h.records h.ledger hi fun _ _ _ hk => hk

theorem Inv.forget (h : Inv lim w s γ) (i : Tid) : Inv lim w s (update γ i none) where
  records := h.records
  ledger := h.ledger
  knows j v hj := h.knows j v (of_update hj (by simp)).2

/-! ### Reading -/

theorem State.look_lastRead (s : State) (i : Tid) : (s.look i).lastRead i = s.now := by
  show update s.lastRead i s.now i = s.now
  exact update_self ..

theorem Inv.others_look (h : Inv lim w s γ) (j : Tid) (hj : j ≠ i) (v : Facts)
    (hk : Knows lim w s j v) : Knows lim w (s.look i) j v :=
  hk.frame h.records { Unseen.refl j s with
    readAt := h.records.readAt_le
    lastRead := update_of_ne hj _ _ }

/-- What every read leaves: the value found, and what was known of the stores if
that does not hang on the time of the last read. -/
theorem Inv.look (h : Inv lim w s γ) (hv : γ i = some v) (st : Stage) (slot : Option Nat)
    (hdown : ∀ b, (i, b) ∈ s.bids → st.Down lim (s.look i) i b)
    (hup : ∀ f ∈ s.flying, f.author = i → f.what.OnWord → st.Up lim (s.look i) f)
    (htimely : st.Timely lim (s.look i) i) (hslot : ∀ p, slot = some p → s.slots p s.now = none) :
    Inv lim w (s.look i) (update γ i
      (some { v with stage := st, look := some (s.word s.now), lookAt := v.clock, slot })) := by
  have hk := h.knows i v hv
  refine h.move (h.records.calm (h.records.calm_look i))
    (h.ledger.quiet { Quiet.refl s with readAt := h.records.readAt_le }) ?_
    fun j hj v hk => h.others_look j hj v hk
  exact {
    alive := hk.alive
    started := hk.started
    down := hdown
    up := hup
    timely := htimely
    clock := hk.clock
    look := fun x hx => by
      rw [s.look_lastRead i]
      exact ⟨Option.some.inj hx, hk.clock⟩
    failed := hk.failed
    watch := fun x t hx => by
      obtain ⟨h1, h2⟩ := hk.watch x t hx
      exact ⟨h1, Nat.le_trans h2 h.records.readAt_le⟩
    own := hk.own
    nonce := hk.nonce
    slot := fun p hp => by
      rw [s.look_lastRead i]
      exact hslot p hp
    synced := hk.synced
    took := hk.took }

theorem Inv.lookOpened (h : Inv lim w s γ) (hv : γ i = some v) {o : Nat}
    (hst : v.stage = .opened o) :
    Inv lim w (s.look i) (update γ i
      (some { v with look := some (s.word s.now), lookAt := v.clock, slot := none })) := by
  have hk := h.knows i v hv
  obtain ⟨hdown, hup, ht⟩ := hk.at_stage hst
  have := h.look hv (.opened o) none hdown hup ht nofun
  rw [← hst] at this
  exact this

variable {e : Nat}

/-- The re-read that ends a settle. -/
theorem Inv.lookSettling (h : Inv lim w s γ) (hlim : lim.Sound) (hv : γ i = some v)
    (hst : v.stage = .settling e) (he : e ≤ v.clock) (hlanded : s.landed = true) :
    Inv lim w (s.look i) (update γ i (some { v with
      stage := .settled e, look := some (s.word s.now), lookAt := v.clock, slot := none })) := by
  have hk := h.knows i v hv
  obtain ⟨hdown, hup, ht⟩ := hk.at_stage hst
  have hnow : e ≤ s.now := Nat.le_trans he hk.clock
  have hlast := s.look_lastRead i
  refine h.look hv _ none (fun b hb => ?_) (fun f hf ha hw => ?_) ?_ nofun
  · unfold Stage.Down
    rw [hlast]
    exact hdown b hb
  · -- by the end of the settle nothing is in the air
    obtain ⟨d, hd, hle, -⟩ := hup f hf ha hw
    have := State.lt_due hlanded hf hd
    have := hlim.settle
    omega
  · unfold Stage.Timely
    rw [hlast]
    exact ⟨ht.1, ht.2, hnow, fun x hx => (h.records.withdrawal i x hx).2.2.2⟩

theorem Inv.lookInside (h : Inv lim w s γ) (hv : γ i = some v) (hst : v.stage = .inside e)
    (slot : Option Nat) (hslot : ∀ p, slot = some p → s.slots p s.now = none) :
    Inv lim w (s.look i) (update γ i
      (some { v with look := some (s.word s.now), lookAt := v.clock, slot })) := by
  have hk := h.knows i v hv
  have hlast := s.look_lastRead i
  have hle := h.records.lastRead_le_now i
  obtain ⟨hdown, hup, ht⟩ := hk.at_stage hst
  have := h.look hv (.inside e) slot (fun b hb => ?_) hup ?_ hslot
  · rw [← hst] at this
    exact this
  · unfold Stage.Down
    rw [hlast]
    exact ⟨(hdown b hb).1.mono hle, (hdown b hb).2⟩
  · unfold Stage.Timely
    rw [hlast]
    exact ⟨ht.1, ht.2.1, Nat.le_trans ht.2.2.1 hle,
      fun x hx => (h.records.withdrawal i x hx).2.2.2, ht.2.2.2.2⟩

section

variable (hk : Knows lim w s i v)

include hk

/-- A re-read of a holder counts as the one that ended its settle. -/
theorem Knows.settled_of_inside (hst : v.stage = .inside e) :
    Knows lim w s i { v with stage := .settled e } := by
  obtain ⟨hdown, hup, ht⟩ := hk.at_stage hst
  exact { hk with down := hdown, up := hup, timely := ⟨ht.1, ht.2.1, ht.2.2.1, ht.2.2.2.1⟩ }

/-- A candidate that has settled still settles, to its next tick. -/
theorem Knows.settling_of_settled (hR : Records lim w s)
    (hst : v.stage = .settled e ∨ v.stage = .inside e) :
    Knows lim w s i { v with stage := .settling e } := by
  have hle := hR.lastRead_le_now i
  rcases hst with hst | hst
  all_goals
    obtain ⟨hdown, hup, ht⟩ := hk.at_stage hst
    exact { hk with
      down := fun b hb => ⟨(hdown b hb).1.mono hle, (hdown b hb).2⟩
      up := fun f hf ha hw => (hup f hf ha hw).elim
      timely := ⟨ht.1, ht.2.1⟩ }

/-- A candidate whose value no longer stands starts over. -/
theorem Knows.resting_of_settled (hR : Records lim w s) (hst : v.stage = .settled e) :
    Knows lim w s i { v with stage := .resting } := by
  have hle := hR.lastRead_le_now i
  obtain ⟨hdown, hup, -⟩ := hk.at_stage hst
  exact { hk with
    down := fun b hb => (hdown b hb).1.mono hle
    up := fun f hf ha hw => (hup f hf ha hw).elim
    timely := trivial }

/-- What is flushed takes effect within the lag. -/
theorem Knows.reaches_of_synced (hL : Ledger lim w s) (hsynced : v.synced = true) (y : Take) :
    s.Reaches i y (s.now + lim.lag) := by
  refine ⟨fun l hl => ?_, fun f hf ha hw => hk.synced hsynced f hf ha y hw⟩
  have := ((hL.take i y (.inl ⟨l, hl⟩)).landed l hl).2
  omega

end

/-- The read a withdrawal checks its own value with, after a hold. -/
theorem Inv.lookHolding (h : Inv lim w s γ) (hlim : lim.Sound) (hv : γ i = some v)
    (hst : v.stage = .holding e) (he : e ≤ v.clock) (hsynced : v.synced = true)
    (hlanded : s.landed = true) : Inv lim w (s.look i) (update γ i (some { v with
      stage := .checked, look := some (s.word s.now), lookAt := v.clock, slot := none })) := by
  have hk := h.knows i v hv
  obtain ⟨hdown, hup, ht⟩ := hk.at_stage hst
  have hnow : e ≤ s.now := Nat.le_trans he hk.clock
  have hlast := s.look_lastRead i
  have hhold := hlim.lateHold
  refine h.look hv _ none (fun b hb => ?_) (fun f hf ha hw => ?_) ?_ nofun
  · have hland : b.land + lim.lateHold ≤ e + lim.lag := hdown b hb
    unfold Stage.Down
    rw [hlast]
    exact .inr (by show b.land + lim.stall + lim.lag ≤ s.now; omega)
  · obtain ⟨d, hd, hle⟩ := hup f hf ha hw
    have := State.lt_due hlanded hf hd
    omega
  · unfold Stage.Timely
    rw [hlast]
    refine ⟨fun x hx => (h.records.withdrawal i x hx).2.2.2, fun val since hin => ?_, fun _ => ?_,
      fun x hx _ => (h.records.write x hx).2.2.2.1, hk.reaches_of_synced h.ledger hsynced⟩
    · have hnone : s.entered i = none := ht.2
      rw [show s.entered i = some (val, since) from hin] at hnone
      cases hnone
    · exact Nat.le_trans ht.1 hnow

/-- A holder's reads come after the one it entered on. -/
theorem Records.entered_le (h : Records lim w s) {val since : Nat}
    (hin : s.entered i = some (val, since)) : since ≤ s.lastRead i := by
  obtain ⟨x, hx, rfl, rfl, rfl, -⟩ := h.entered i val since hin
  exact (h.check _ _ (.write x hx rfl rfl)).lastRead _ (h.write x hx).1

/-- The same of a holder that releases. -/
theorem Knows.checked_of_inside (hk : Knows lim w s i v) (hR : Records lim w s)
    (hL : Ledger lim w s) (hlim : lim.Sound) (hst : v.stage = .inside e) (hsynced : v.synced = true)
    (hnow : s.lastRead i = s.now) : Knows lim w s i { v with stage := .checked } := by
  obtain ⟨hdown, hup, ht⟩ := hk.at_stage hst
  obtain ⟨-, hstaked, hlast, hwith, val, since, hin, hsince, -⟩ := ht
  refine { hk with
    down := fun b hb => ?_
    up := fun f hf ha hw => (hup f hf ha hw).elim
    timely := ⟨hwith, fun val' since' hin' => ⟨by omega, ?_⟩, fun hnone => ?_, fun x hx _ => ?_,
      ?_⟩ }
  · obtain ⟨hold, hsettle⟩ := hdown b hb
    have := hlim.settle
    rcases hold with hold | hold
    · exact .inl ⟨hold, by show b.land + lim.window + lim.lag ≤ s.lastRead i; omega⟩
    · exact .inr hold
  · exact hR.entered_le hin'
  · rw [hin] at hnone
    cases hnone
  · rw [hnow]
    exact (hR.write x hx).2.2.2.1
  · rw [hnow]
    exact hk.reaches_of_synced hL hsynced

/-- A candidate that has nothing to withdraw starts over. -/
theorem Knows.resting_of_checked (hk : Knows lim w s i v) (hR : Records lim w s)
    (hst : v.stage = .checked) : Knows lim w s i { v with stage := .resting } := by
  have hle := hR.lastRead_le_now i
  obtain ⟨hdown, hup, -⟩ := hk.at_stage hst
  refine { hk with
    down := fun b hb => ?_
    up := fun f hf ha hw => (hup f hf ha hw).elim
    timely := trivial }
  rcases hdown b hb with ⟨h1, -⟩ | h1
  · exact .inl h1
  · exact .inr (by have : b.land + lim.stall + lim.lag ≤ s.lastRead i := h1; omega)

/-! ### Writing -/

/-- A store of candidate `i` goes up; the others do not see it yet. -/
theorem Inv.others_push (h : Inv lim w s γ) (hf : f.author = i)
    (hval : ∀ val r k, f.what = .stake val r k → s.owner val = some i) (stakedAt window : Tid → Nat)
    (entered : Tid → Option (Nat × Nat)) (hstaked : ∀ j, j ≠ i → stakedAt j = s.stakedAt j)
    (hwindow : ∀ j, j ≠ i → window j = s.window j) (hentered : ∀ j, j ≠ i → entered j = s.entered j)
    (j : Tid) (hj : j ≠ i) (v : Facts) (hk : Knows lim w s j v) :
    Knows lim w { s with flying := s.flying ++ [f], stakedAt, window, entered } j v := by
  refine hk.frame h.records { Unseen.refl j s with
    stakedAt := hstaked j hj
    window := hwindow j hj
    entered := hentered j hj
    flying := fun g hg ha _ => ?_
    staked := fun x k hx hk => ?_
    took := fun y hy => took_push_of hy rfl rfl
    reaches := fun y d hd => reaches_push hd rfl rfl fun ha _ => absurd (ha.symm.trans hf) hj }
  · rcases mem_pushed hg with hg | rfl
    · exact hg
    · exact absurd (ha.symm.trans hf) hj
  · rcases staked_push (s := s) hk rfl rfl with hk | ⟨r, hk⟩
    · exact hk
    · rw [hval x r k hk] at hx
      exact absurd (Option.some.inj hx).symm hj

theorem Records.staked_owner (h : Records lim w s) {val k : Nat} (hk : s.Staked val k) :
    ∃ i, s.owner val = some i := by
  rcases hk with ⟨i, b, hb, rfl, -⟩ | ⟨f, hf, r, hw⟩
  · exact ⟨i, (h.bid i b hb).1.owner⟩
  · exact ⟨f.author, (h.stakeAir f hf val r k hw).owner⟩

theorem Inv.nonce (h : Inv lim w s γ) (hv : γ i = some v) {n : Nat} (hn : s.owner n = none) :
    Inv lim w { s with owner := update s.owner n (some i) }
      (update γ i (some { v with own := some n, unused := true })) := by
  have hk := h.knows i v hv
  have hc := h.records.calm_own i hn
  have hframe : ∀ j v, Knows lim w s j v →
      Knows lim w { s with owner := update s.owner n (some i) } j v := fun j v hk =>
    hk.frame h.records { Unseen.refl j s with owner := fun x ho => hc.owner x j ho }
  refine h.move (h.records.calm hc) (h.ledger.quiet { Quiet.refl s with }) ?_
    fun j _ v hk => hframe j v hk
  refine { hframe i v hk with own := fun x hx => ?_, nonce := fun _ x hx k hk => ?_ }
  · cases hx
    exact update_self ..
  · cases hx
    obtain ⟨j, hj⟩ := h.records.staked_owner (k := k) hk
    rw [hn] at hj
    cases hj

/-- What a candidate knows to be free may be taken. -/
theorem Knows.taken (hk : Knows lim w s i v) (hR : Records lim w s) (hfree : v.Free lim w i) :
    (s.word (s.lastRead i) = none ∨ (w = .recovery ∧ s.word (s.lastRead i) = some i) ∨
      ∃ e, s.word (s.lastRead i) = some e ∧ SpentAt lim w s e (s.lastRead i) s.now) ∧
    v.lookAt ≤ s.lastRead i := by
  rcases hfree with h1 | ⟨hw, h1⟩ | ⟨e, h1, h2⟩
  · obtain ⟨h3, h4⟩ := hk.look _ h1
    exact ⟨.inl h3, h4⟩
  · obtain ⟨h3, h4⟩ := hk.look _ h1
    exact ⟨.inr (.inl ⟨hw, h3⟩), h4⟩
  · obtain ⟨h3, h4⟩ := hk.look _ h1
    refine ⟨.inr (.inr ⟨e, h3, ?_⟩), h4⟩
    rcases h2 with ⟨hw, hfailed | hpeer⟩ | ⟨timeout, t, hst, hwatch, hage⟩
    · exact .inl ⟨hw, hk.failed e hfailed⟩
    · -- only peers have staked
      obtain ⟨j, b, hb, rfl, -⟩ := hR.bid_of_word h3
      have := (hR.bid j b hb).1.valid hw
      omega
    · exact .inr ⟨timeout, t, hst, (hk.watch _ _ hwatch).1, Nat.le_trans hage h4⟩

theorem Inv.stake (h : Inv lim w s γ) (hv : γ i = some v) {o mine : Nat} (hst : v.stage = .opened o)
    (hfree : v.Free lim w i) (hown : v.own = some mine) (hunused : w = .lease → v.unused = true)
    (hmine : w = .recovery → mine = i ∧ i < lim.maxPeers) (ho : o ≤ v.lookAt) : Inv lim w { s with
        flying := s.flying ++ [⟨i, .stake mine (s.lastRead i) s.now, none⟩]
        stakedAt := update s.stakedAt i s.now
        window := update s.window i (o + lim.window)
        entered := update s.entered i none }
      (update γ i (some { v with stage := .staked o, unused := false })) := by
  have hk := h.knows i v hv
  have hle := h.records.lastRead_le_now i
  obtain ⟨htaken, hlookAt⟩ := hk.taken h.records hfree
  have hor : o ≤ s.lastRead i := Nat.le_trans ho hlookAt
  have hok : StakeOk lim w s i mine (s.lastRead i) s.now := by
    refine ⟨hk.own mine hown, fun hw => ?_, h.records.lastRead_le i, hle, le_rfl, ?_⟩
    · rw [(hmine hw).1]
      exact (hmine hw).2
    rcases htaken with h1 | ⟨hw, h1⟩ | ⟨e, h1, h2⟩
    · exact .inl h1
    · rw [(hmine hw).1]
      exact .inr (.inl h1)
    · exact .inr (.inr ⟨e, h1, h2⟩)
  have hentered : ∀ j val since, update s.entered i none j = some (val, since) →
      s.entered j = some (val, since) := fun j val since hj => (of_update hj (by simp)).2
  have hfresh : w = .lease → ∀ k, ¬s.Staked mine k := by
    intro hw k hst
    have hused := (hk.nonce hw mine hown k hst).1
    rw [hunused hw] at hused
    cases hused
  refine h.move (h.records.push _ _ _ _ hk.started hk.alive nofun (fun val read issue hw => ?_) nofun
    hentered) (h.ledger.pushStake h.records (hk.own mine hown) hfresh) ?_
    (h.others_push (i := i) rfl (fun val r k hw => ?_) _ _ _
      (fun j hj => update_of_ne hj _ _) (fun j hj => update_of_ne hj _ _)
      (fun j hj => update_of_ne hj _ _))
  · cases hw
    exact hok
  · obtain ⟨hdown, hup, ht⟩ := hk.at_stage hst
    have hstakedAt : update s.stakedAt i s.now i = s.now := update_self ..
    have hwindowAt : update s.window i (o + lim.window) i = o + lim.window :=
      update_self ..
    have henteredAt : update s.entered i none i = none := update_self ..
    refine { hk with
      down := fun b hb => .inl (hdown b hb)
      up := fun f hf ha hw => ?_
      timely := ⟨ht, hwindowAt, Nat.le_of_eq hstakedAt, henteredAt⟩
      nonce := fun hw x hx k hk' => ?_
      synced := fun hs f hf ha y hw => ?_
      took := fun p hp => ?_ }
    · rcases mem_pushed hf with hf | rfl
      · exact .inr (hup f hf ha hw)
      · exact .inl ⟨mine, _, _, rfl, hor⟩
    · -- the value had not been staked before
      rw [show v.own = some x from hx] at hown
      cases hown
      rcases staked_push (s := s) hk' rfl rfl with hk' | ⟨r, hk'⟩
      · exact absurd hk' (hfresh hw k)
      · cases hk'
        exact ⟨rfl, hstakedAt.symm⟩
    · rcases mem_pushed hf with hf | rfl
      · exact hk.synced hs f hf ha y hw
      · cases hw
    · obtain ⟨y, hy, ht⟩ := hk.took p hp
      exact ⟨y, hy, took_push_of ht rfl rfl⟩
  · cases hw
    exact hk.own mine hown

theorem Knows.flush (hk : Knows lim w s i v) {d : Nat} {published : Tid → Nat} (st : Stage)
    (synced : Bool) (hd : d ≤ s.now + lim.lag)
    (hdown : ∀ b, (i, b) ∈ s.bids → st.Down lim { s.flushed i d with published } i b)
    (hup : ∀ f ∈ s.flying, f.author = i → f.what.OnWord →
      st.Up lim { s.flushed i d with published } (f.dueBy d))
    (ht : st.Timely lim { s.flushed i d with published } i) :
    Knows lim w { s.flushed i d with published } i { v with stage := st, synced } := by
  have hc := quiet_flushed s i d published
  refine { hk with
    down := hdown
    up := fun f hf ha hw => ?_
    timely := ht
    nonce := fun hw x hx k hst => hk.nonce hw x hx k (hc.staked hst)
    synced := fun _ f hf ha y _ => ?_
    took := fun p hp => ?_ }
  · obtain ⟨g, hg, hauthor, hwhat, ⟨hne, rfl⟩ | ⟨-, rfl⟩⟩ := State.mem_flushed hf
    · exact absurd ha hne
    · exact hup g hg (hauthor.symm.trans ha) (hwhat ▸ hw)
  · obtain ⟨g, hg, hauthor, hwhat, ⟨hne, rfl⟩ | ⟨-, rfl⟩⟩ := State.mem_flushed hf
    · exact absurd ha hne
    · exact (Store.dueBy_within g d).mono hd
  · obtain ⟨y, hy, ht⟩ := hk.took p hp
    exact ⟨y, hy, hc.took ht⟩

theorem Inv.others_flush (h : Inv lim w s γ) {d : Nat} {published : Tid → Nat}
    (hpublished : ∀ j, j ≠ i → published j = s.published j) (j : Tid) (hj : j ≠ i) (v : Facts)
    (hk : Knows lim w s j v) : Knows lim w { s.flushed i d with published } j v := by
  have hc := quiet_flushed s i d published
  refine hk.frame h.records { Unseen.refl j s with
    published := hpublished j hj
    staked := fun _ _ _ hst => hc.staked hst
    took := fun _ ht => hc.took ht
    reaches := fun _ _ hd => hc.reaches hd
    flying := fun f hf ha _ => ?_ }
  obtain ⟨g, hg, hauthor, -, ⟨-, rfl⟩ | ⟨hi, rfl⟩⟩ := State.mem_flushed hf
  · exact hg
  · exact absurd (ha.symm.trans (hauthor.trans hi)) hj

theorem Inv.flushStaked (h : Inv lim w s γ) (hv : γ i = some v) {o : Nat}
    (hst : v.stage = .staked o) : Inv lim w { s.flushed i (s.now + lim.lag) with
        published := update s.published i s.now }
      (update γ i (some { v with stage := .flushed o s.now })) := by
  have hk := h.knows i v hv
  obtain ⟨hdown, hup, ht⟩ := hk.at_stage hst
  refine h.move (h.records.calm (h.records.calm_flushed i _ (Nat.le_add_right _ _)))
    (h.ledger.quiet (quiet_flushed ..)) (hk.flush _ v.synced le_rfl (fun b hb => ?_) (fun f hf ha hw => ⟨Store.dueBy_within _ _, ?_⟩)
      ⟨ht.1, le_rfl, ht.2.1, update_self .., ht.2.2⟩)
    fun j hj v hk => h.others_flush (fun j hj => update_of_ne hj _ _) j hj v hk
  · have hland := (h.records.bid i b hb).2.2.2
    rcases hdown b hb with h1 | h1
    · exact .inl h1
    · exact .inr ⟨h1, by omega⟩
  · intro val r k hwhat
    rcases hup f hf ha hw with ⟨_, _, _, h1, h2⟩ | ⟨⟨_, _, h1⟩, -⟩
    · rw [show f.what = _ from hwhat] at h1
      cases h1
      exact h2
    · rw [show f.what = _ from hwhat] at h1
      cases h1

theorem Inv.flushClearing (h : Inv lim w s γ) (hv : γ i = some v) (hst : v.stage = .clearing) :
    Inv lim w { s.flushed i (s.now + lim.lag) with published := s.published }
      (update γ i (some { v with stage := .resting })) := by
  have hk := h.knows i v hv
  obtain ⟨hdown, hup, -⟩ := hk.at_stage hst
  exact h.move (h.records.calm (h.records.calm_flushed i _ (Nat.le_add_right _ _)))
    (h.ledger.quiet (quiet_flushed ..)) (hk.flush .resting v.synced le_rfl hdown
      (fun f hf ha hw => ⟨(hup f hf ha hw).1, Store.dueBy_within _ _⟩) trivial)
    fun j hj v hk => h.others_flush (fun _ _ => rfl) j hj v hk

theorem Records.own_bid (h : Records lim w s) {m : Nat} (howner : s.owner m = some i)
    {b : Bid Nat} (hb : (j, b) ∈ s.bids) (hval : b.val = m) : (i, b) ∈ s.bids := by
  subst hval
  obtain rfl := s.owner_unique howner (h.bid j b hb).1.owner
  exact hb

/-- A candidate that finds its own value standing, its stakes aged and its
withdrawals landed, has checked it. -/
theorem Knows.standing (hk : Knows lim w s i v) (hR : Records lim w s) {m : Nat}
    (hlook : v.look = some (some m)) (hown : v.own = some m)
    (hdown : ∀ b, (i, b) ∈ s.bids → WordHistory.Aged lim.pace b (s.lastRead i))
    (hup : ∀ f ∈ s.flying, f.author = i → f.what.OnWord → False)
    (hwith : ∀ x, (i, x) ∈ s.withdrawals → x.land ≤ s.lastRead i) :
    CheckOk lim s m (s.lastRead i) := by
  have howner := hk.own m hown
  refine ⟨(hk.look _ hlook).1, hR.lastRead_le i, fun j b hb hval _ => ?_, fun f hf k' hwhat => ?_,
    fun j x hx hval _ => ?_, fun j hj => ?_⟩
  · exact hdown b (hR.own_bid howner hb hval)
  · have hi := s.owner_unique howner (hR.clearAir f hf m k' hwhat).1
    exact (hup f hf hi.symm (by rw [hwhat]; trivial)).elim
  · subst hval
    obtain rfl := s.owner_unique howner (hR.withdrawal j x hx).1
    exact hwith x hx
  · rw [s.owner_unique howner hj]

theorem Knows.checkOk (hk : Knows lim w s i v) (hR : Records lim w s) {m : Nat}
    (hst : v.stage = .checked) (hlook : v.look = some (some m)) (hown : v.own = some m) :
    CheckOk lim s m (s.lastRead i) := by
  obtain ⟨hdown, hup, ht⟩ := hk.at_stage hst
  exact hk.standing hR hlook hown hdown hup ht.1

/-- A settled value has stood the longer time. -/
theorem Knows.settledOk (hk : Knows lim w s i v) (hR : Records lim w s) (hlim : lim.Sound)
    {e m : Nat} (hst : v.stage = .settled e) (hlook : v.look = some (some m))
    (hown : v.own = some m) : CheckOk lim s m (s.lastRead i) ∧ ∀ j b, (j, b) ∈ s.bids → b.val = m →
      b.land + lim.window + lim.lag ≤ s.lastRead i := by
  obtain ⟨hdown, hup, ht⟩ := hk.at_stage hst
  have hsettle := hlim.settle
  have hlong : ∀ b, (i, b) ∈ s.bids → b.land + lim.window + lim.lag ≤ s.lastRead i := by
    intro b hb
    have := (hdown b hb).2
    have := ht.2.2.1
    omega
  refine ⟨hk.standing hR hlook hown (fun b hb => ?_) hup ht.2.2.2, fun j b hb hval =>
    hlong b (hR.own_bid (hk.own m hown) hb hval)⟩
  rcases (hdown b hb).1 with hold | hold
  · exact .inl ⟨hold, hlong b hb⟩
  · exact .inr hold

/-- A withdrawal is flushed within the stall of its check. -/
theorem Knows.clearBy_le (hk : Knows lim w s i v) (hlim : lim.Sound) (hst : v.stage = .checked) :
    ∃ t, lim.clearBy s i = some t ∧ t ≤ s.lastRead i + lim.stall := by
  obtain ⟨-, -, ht⟩ := hk.at_stage hst
  unfold Limits.clearBy Limits.writeBy
  cases hin : s.entered i with
  | some x =>
    obtain ⟨val, since⟩ := x
    obtain ⟨h1, h2⟩ := ht.2.1 val since hin
    cases hstall : lim.stallFrom with
    | fromCheck bound => exact ⟨_, rfl, by show since + lim.stall ≤ _; omega⟩
    | fromStake => exact ⟨_, rfl, by show s.stakedAt i + lim.settle + lim.stall ≤ _; omega⟩
  | none =>
    have h1 := ht.2.2.1 hin
    cases hstall : lim.stallFrom with
    | fromCheck bound =>
      obtain ⟨t, rfl, hle⟩ := hlim.withdrawal bound hstall
      exact ⟨_, rfl, by show s.lastRead i + t ≤ _; omega⟩
    | fromStake => exact ⟨_, rfl, by show s.stakedAt i + lim.lateHold + lim.stall ≤ _; omega⟩

/-- Under a nonce, a withdrawal is flushed within the stall of the scheduled end of
the settle or the hold. -/
theorem Limits.clearBy_stake (lim : Limits) (hfrom : lim.stallFrom = .fromStake) {t : Nat}
    (ht : lim.clearBy s i = some t) :
    t ≤ s.stakedAt i + max lim.settle lim.lateHold + lim.stall := by
  unfold Limits.clearBy Limits.writeBy at ht
  cases hin : s.entered i with
  | some x =>
    rw [hin, hfrom] at ht
    replace ht : some (s.stakedAt i + lim.settle + lim.stall) = some t := ht
    have := Option.some.inj ht
    omega
  | none =>
    rw [hin, hfrom] at ht
    replace ht : some (s.stakedAt i + lim.lateHold + lim.stall) = some t := ht
    have := Option.some.inj ht
    omega

/-- The stake of the nonce that a candidate finds standing. -/
theorem Knows.stake_of_look (hk : Knows lim w s i v) (hR : Records lim w s) (hw : w = .lease)
    {m : Nat} (hlook : v.look = some (some m)) (hown : v.own = some m) :
    ∃ b, (i, b) ∈ s.bids ∧ b.val = m ∧ b.issue = s.stakedAt i := by
  obtain ⟨j, b, hb, rfl, -⟩ := hR.bid_of_word (hk.look _ hlook).1
  replace hb := hR.own_bid (hk.own _ hown) hb rfl
  exact ⟨b, hb, rfl, (hk.nonce hw _ hown _ (.inl ⟨i, b, hb, rfl, rfl⟩)).2⟩

theorem Inv.clear (h : Inv lim w s γ) (hlim : lim.Sound) (hv : γ i = some v) {m : Nat}
    (hst : v.stage = .checked) (hlook : v.look = some (some m)) (hown : v.own = some m)
    (hby : (lim.clearBy s i).all (s.now ≤ ·) = true) : Inv lim w { s with flying := s.flying ++
        [⟨i, .clear m (s.lastRead i), (lim.clearBy s i).map (· + lim.lag)⟩] }
      (update γ i (some { v with stage := .clearing })) := by
  have hk := h.knows i v hv
  have howner := hk.own m hown
  obtain ⟨t, ht, hle⟩ := hk.clearBy_le hlim hst
  rw [ht] at hby ⊢
  replace hby : s.now ≤ t := by simpa using hby
  have hok := hk.checkOk h.records hst hlook hown
  obtain ⟨hdown, hup, htimely⟩ := hk.at_stage hst
  refine h.move (h.records.push _ s.stakedAt s.window s.entered hk.started hk.alive
    (fun d hd => ?_) nofun (fun val k hw => ?_) (fun _ _ _ he => he))
    (h.ledger.pushPlain _ _ nofun ⟨fun x hx hval => ?_, fun j y hy hval => ?_,
      fun hw hfrom => ?_⟩) ?_
    (h.others_push (i := i) rfl (fun _ _ _ hw => by cases hw) s.stakedAt s.window s.entered
      (fun _ _ => rfl) (fun _ _ => rfl) (fun _ _ => rfl))
  · replace hd : some (t + lim.lag) = some d := hd
    rw [← Option.some.inj hd]
    omega
  · cases hw
    refine ⟨howner, ⟨t + lim.lag, rfl, by omega⟩, hok, fun k' hk' => ?_, fun j x hx hval => ?_,
      fun g hg ha val' k' hw' => ?_⟩
    · exact (h.records.check m k' hk').lastRead i howner
    · obtain ⟨hj, hlt, -⟩ := h.records.withdrawal j x hx
      subst hval
      obtain rfl := s.owner_unique howner hj
      have := htimely.1 x hx
      omega
    · exact hup g hg ha (by rw [hw']; trivial)
  · subst hval
    exact htimely.2.2.2.1 x hx (s.owner_unique (h.records.write x hx).1 howner)
  · obtain ⟨x, hx, rfl, hxval, -⟩ := (h.ledger.take j y hy).confirmed
    have hx' := (h.records.write x hx).1
    rw [hxval, hval] at hx'
    rw [s.owner_unique hx' howner]
    exact htimely.2.2.2.2 y
  · obtain ⟨b, hb, hval, hissue⟩ := hk.stake_of_look h.records hw hlook hown
    have := lim.clearBy_stake hfrom ht
    exact ⟨b, hb, hval, t + lim.lag, rfl, by omega⟩
  · refine { hk with
      down := fun b hb => ?_
      up := fun f hf ha hw => ?_
      timely := trivial
      nonce := fun hw x hx k hst => ?_
      synced := fun hs f hf ha y hw => ?_
      took := fun p hp => ?_ }
    · have hr := h.records.lastRead_le_now i
      rcases hdown b hb with ⟨h1, -⟩ | h1
      · exact .inl h1
      · replace h1 : b.land + lim.stall + lim.lag ≤ s.lastRead i := h1
        exact .inr (by show b.land + lim.stall + lim.lag ≤ s.now; omega)
    · rcases mem_pushed hf with hf | rfl
      · exact (hup f hf ha hw).elim
      · exact ⟨⟨_, _, rfl⟩, _, rfl⟩
    · rcases staked_push (s := s) hst rfl rfl with hst | ⟨r, hst⟩
      · exact hk.nonce hw x hx k hst
      · cases hst
    · rcases mem_pushed hf with hf | rfl
      · exact hk.synced hs f hf ha y hw
      · cases hw
    · obtain ⟨y, hy, htook⟩ := hk.took p hp
      exact ⟨y, hy, took_push_of htook rfl rfl⟩

/-- Where a candidate's withdrawals have all landed by `k`, their checks came
before. -/
theorem Records.cleared_lt (h : Records lim w s) {val k : Nat} (howner : s.owner val = some i)
    (hwith : ∀ x, (i, x) ∈ s.withdrawals → x.land ≤ k)
    (hup : ∀ f ∈ s.flying, f.author = i → f.what.OnWord → False) {k' : Nat}
    (hk : s.Cleared val k') : k' < k := by
  rcases hk with ⟨j, x, hx, rfl, rfl⟩ | ⟨f, hf, hw⟩
  · obtain ⟨hj, hlt, -⟩ := h.withdrawal j x hx
    obtain rfl := s.owner_unique howner hj
    have := hwith x hx
    omega
  · have hi := s.owner_unique howner (h.clearAir f hf val k' hw).1
    exact (hup f hf hi.symm (by rw [hw]; trivial)).elim

/-- Won: the caller starts to write under its claim. -/
theorem Inv.enter (h : Inv lim w s γ) (hlim : lim.Sound) (hv : γ i = some v) {e m : Nat}
    (hst : v.stage = .settled e) (hlook : v.look = some (some m)) (hown : v.own = some m)
    (hby : s.now ≤ lim.writeBy s i (s.lastRead i)) : Inv lim w { s with
        entered := update s.entered i (some (m, s.lastRead i))
        writes := ⟨i, m, s.lastRead i, s.lastRead i, s.window i, s.published i⟩ :: s.writes }
      (update γ i (some { v with stage := .inside e })) := by
  have hk := h.knows i v hv
  obtain ⟨hok, hsettled⟩ := hk.settledOk h.records hlim hst hlook hown
  have hle := h.records.lastRead_le_now i
  obtain ⟨hdown, hup, ht⟩ := hk.at_stage hst
  -- the claim entered just now, or an older one
  have hclaim : ∀ {j val since},
      update s.entered i (some (m, s.lastRead i)) j = some (val, since) →
      s.entered j = some (val, since) ∨ i = j ∧ m = val ∧ s.lastRead i = since := by
    intro j val since hj
    by_cases hji : j = i
    · subst hji
      rw [update_self] at hj
      cases hj
      exact .inr ⟨rfl, rfl, rfl⟩
    · rw [update_of_ne hji] at hj
      exact .inl hj
  refine h.move (h.records.pushWrite ⟨i, m, s.lastRead i, s.lastRead i, s.window i,
    s.published i⟩ _ hk.started hk.alive (hk.own m hown) le_rfl (Nat.le_add_right _ _) hle
    ht.1 (fun j b hb hval _ => hsettled j b hb hval) hok fun j val since hj =>
      (hclaim hj).imp_right fun ⟨hi, hval, hsince⟩ => ⟨hi, hval, hsince, hsince⟩)
    (h.ledger.pushWrite _ _ (fun k hk' => h.records.cleared_lt (hk.own m hown) ht.2.2.2 hup hk')
      (fun hw _ j val since hj => (hclaim hj).imp_right ?_) fun hw hfrom => ?_) ?_
    (fun j hj v hk => ?_)
  · rintro ⟨rfl, rfl, -⟩ k hk'
    exact (hk.nonce hw m hown k hk').2
  · obtain ⟨b, hb, hval, hissue⟩ := hk.stake_of_look h.records hw hlook hown
    unfold Limits.writeBy at hby
    rw [hfrom] at hby
    replace hby : s.now ≤ s.stakedAt i + lim.settle + lim.stall := hby
    exact ⟨b, hb, hval, by show s.lastRead i ≤ _; omega⟩
  · exact { hk with
      down := hdown
      up := hup
      timely := ⟨ht.1, ht.2.1, ht.2.2.1, ht.2.2.2, m, s.lastRead i, update_self .., ht.2.2.1, ht.2.2.2⟩ }
  · exact hk.frame h.records { Unseen.refl j s with
      entered := update_of_ne hj _ _
      writes := fun x hx ha => by
        rcases List.mem_cons.mp hx with rfl | hx
        · exact absurd ha.symm hj
        · exact hx }

/-- A guarded write comes within the stall of the re-read it is made under. -/
theorem Limits.writeBy_le (lim : Limits) {since e : Nat} (he : s.stakedAt i + lim.settle ≤ e)
    (hsince : e ≤ since) : lim.writeBy s i since ≤ since + lim.stall := by
  unfold Limits.writeBy
  cases lim.stallFrom with
  | fromCheck bound => exact le_rfl
  | fromStake =>
    show s.stakedAt i + lim.settle + lim.stall ≤ since + lim.stall
    omega

/-- The bounds on what is written under a claim at this instant. -/
theorem Knows.write_paced (hk : Knows lim w s i v) (hR : Records lim w s) (hL : Ledger lim w s)
    {e val since : Nat} (hst : v.stage = .inside e) (hin : s.entered i = some (val, since)) :
    lim.writeBy s i since ≤ since + lim.stall ∧ (∀ k, s.Cleared val k → k < since) ∧
    (w = .lease → lim.stallFrom = .fromStake → ∃ b, (i, b) ∈ s.bids ∧ b.val = val ∧
      lim.writeBy s i since ≤ b.issue + lim.settle + lim.stall) := by
  have hup := hk.up
  have ht := hk.timely
  rw [hst] at hup ht
  obtain ⟨-, hstaked, -, -, val', since', hin', hsince, hwith⟩ := ht
  rw [hin] at hin'
  cases hin'
  refine ⟨lim.writeBy_le hstaked hsince,
    fun k hk' => hR.cleared_lt (hR.entered_owner hin) hwith hup hk', fun hw hfrom => ?_⟩
  have hn := hL.nonce hw hfrom
  obtain ⟨x, hx, rfl, rfl, -, -⟩ := hR.entered i val since hin
  obtain ⟨b, hb, hval, -⟩ := hn.write x hx
  have hissue := hn.entered _ _ _ hin b.issue (.inl ⟨_, b, hb, hval, rfl⟩)
  refine ⟨b, hb, hval, ?_⟩
  unfold Limits.writeBy
  rw [hfrom]
  show s.stakedAt x.author + lim.settle + lim.stall ≤ _
  omega

theorem Inv.noteWrite (h : Inv lim w s γ) (hv : γ i = some v) {e val since : Nat}
    (hst : v.stage = .inside e) (hin : s.entered i = some (val, since))
    (hby : s.now ≤ lim.writeBy s i since) :
    Inv lim w { s with writes := ⟨i, val, since, s.now, s.window i, s.published i⟩ :: s.writes }
      (update γ i (some v)) := by
  have hk := h.knows i v hv
  obtain ⟨hstall, hclear, hpaced⟩ := hk.write_paced h.records h.ledger hst hin
  obtain ⟨-, -, ht⟩ := hk.at_stage hst
  have hintime := ht.1
  obtain ⟨x, hx, hxi, hxv, hxs, hxt⟩ := h.records.entered i val since hin
  obtain ⟨howner, -, -, hle, -, hsettled⟩ := h.records.write x hx
  have hcheck := h.records.check _ _ (.write x hx rfl rfl)
  rw [hxv, hxi] at howner
  rw [hxv, hxs] at hsettled hcheck
  rw [hxt] at hle
  refine h.move (h.records.pushWrite ⟨i, val, since, s.now, s.window i, s.published i⟩ s.entered
    hk.started hk.alive howner hle (by show s.now ≤ since + lim.stall; omega) le_rfl
    hintime hsettled hcheck (fun _ _ _ he => .inl he))
    (h.ledger.pushWrite _ s.entered hclear (fun _ _ _ _ _ he => .inl he) fun hw hfrom => ?_) ?_
    fun j hj v hk => ?_
  · obtain ⟨b, hb, hval, hle⟩ := hpaced hw hfrom
    exact ⟨b, hb, hval, Nat.le_trans hby hle⟩
  · -- the holder is not on its way to withdraw
    obtain ⟨hdown, hup, -⟩ := hk.at_stage hst
    have ht' : Stage.Timely lim { s with
        writes := ⟨i, val, since, s.now, s.window i, s.published i⟩ :: s.writes } i (.inside e) := ht
    exact { hk with
      down := by rw [hst]; exact hdown
      up := by rw [hst]; exact hup
      timely := by rw [hst]; exact ht' }
  · exact hk.frame h.records { Unseen.refl j s with
      writes := fun y hy ha => by
        rcases List.mem_cons.mp hy with rfl | hy
        · exact absurd ha.symm hj
        · exact hy }

theorem State.guarded_cases {what : Nat → Nat → Option Payload}
    (h : s.guarded lim i what = some s') : ∃ val since, s.entered i = some (val, since) ∧
      s.now ≤ lim.writeBy s i since ∧
      (match what val since with
        | none => s' = { s with
            writes := ⟨i, val, since, s.now, s.window i, s.published i⟩ :: s.writes }
        | some payload => s' = { s with
            writes := ⟨i, val, since, s.now, s.window i, s.published i⟩ :: s.writes
            flying := s.flying ++ [⟨i, payload, some (lim.writeBy s i since + lim.lag)⟩] }) := by
  unfold State.guarded at h
  cases hin : s.entered i with
  | none =>
    rw [hin] at h
    cases h
  | some x =>
    obtain ⟨val, since⟩ := x
    rw [hin] at h
    dsimp only at h
    by_cases hby : s.now ≤ lim.writeBy s i since
    · rw [if_pos hby] at h
      refine ⟨val, since, rfl, hby, ?_⟩
      cases hwhat : what val since with
      | none =>
        rw [hwhat] at h
        exact (Option.some.inj h).symm
      | some payload =>
        rw [hwhat] at h
        exact (Option.some.inj h).symm
    · rw [if_neg hby] at h
      cases h

section

variable (h : Inv lim w s γ)

include h

theorem Inv.guarded (hv : γ i = some v) (hst : v.stage = .inside e)
    (hs : s.guarded lim i (fun _ _ => none) = some s') : Inv lim w s' (update γ i (some v)) := by
  obtain ⟨val, since, hin, hby, rfl⟩ := State.guarded_cases hs
  exact h.noteWrite hv hst hin hby

theorem Inv.pushAside (hv : γ i = some v) (v' : Facts) (what : Payload) {d : Nat}
    (hstake : ∀ val r k, what ≠ .stake val r k) (hclear : ∀ val k, what ≠ .clear val k)
    (hd : s.now ≤ d) (hL : Ledger lim w
      { s with flying := s.flying ++ [⟨i, what, some (d + lim.lag)⟩] })
    (hk' : Knows lim w { s with flying := s.flying ++ [⟨i, what, some (d + lim.lag)⟩] } i v') :
    Inv lim w { s with flying := s.flying ++ [⟨i, what, some (d + lim.lag)⟩] }
      (update γ i (some v')) := by
  have hk := h.knows i v hv
  refine h.move (h.records.push _ s.stakedAt s.window s.entered hk.started hk.alive
    (fun e he => ?_) (fun val r k hw => absurd hw (hstake val r k))
    (fun val k hw => absurd hw (hclear val k)) (fun _ _ _ he => he)) hL hk'
    (h.others_push (i := i) rfl (fun val r k hw => absurd hw (hstake val r k)) s.stakedAt s.window
      s.entered (fun _ _ => rfl) (fun _ _ => rfl) (fun _ _ => rfl))
  rw [← Option.some.inj he]
  omega

/-- Neither the candidate nor anyone else is affected by a store of the scan bound. -/
theorem Inv.storeBound (hv : γ i = some v) {e bound : Nat} (hst : v.stage = .inside e)
    (hs : s.guarded lim i (fun _ _ => some (.bound bound)) = some s') :
    Inv lim w s' (update γ i (some v)) := by
  obtain ⟨val, since, hin, hby, rfl⟩ := State.guarded_cases hs
  have hnoted := h.noteWrite hv hst hin hby
  have hk := hnoted.knows i v (update_self ..)
  have hdone := hnoted.pushAside (update_self ..) v (.bound bound) nofun nofun hby
    (hnoted.ledger.quiet (quiet_pushBound _ i bound _))
    (hk.frame hnoted.records { Unseen.refl i _ with
      flying := fun f hf _ hw => ?_
      staked := fun x k _ hst => (quiet_pushBound _ i bound _).staked hst
      took := fun y hy => took_push_of hy rfl rfl
      reaches := fun y d hd => reaches_push hd rfl rfl nofun })
  · rwa [update_idem] at hdone
  rcases mem_pushed hf with hf | rfl
  · exact hf
  · exact hw.elim

theorem Inv.takeSlot (hv : γ i = some v) {e p : Nat} (hst : v.stage = .inside e)
    (hslot : v.slot = some p)
    (hs : s.guarded lim i (fun val since => some (.slot ⟨p, val, since, s.lastRead i⟩)) = some s') :
    Inv lim w s' (update γ i (some { v with synced := false, took := some p })) := by
  obtain ⟨val, since, hin, hby, rfl⟩ := State.guarded_cases hs
  have hnoted := h.noteWrite hv hst hin hby
  have hk := hnoted.knows i v (update_self ..)
  obtain ⟨hstall, hclear, hpaced⟩ := hk.write_paced hnoted.records hnoted.ledger hst hin
  obtain ⟨-, -, ht⟩ := hk.at_stage hst
  have hdone := hnoted.pushAside (update_self ..) { v with synced := false, took := some p }
    (.slot ⟨p, val, since, s.lastRead i⟩) nofun nofun hby (hnoted.ledger.pushPlain _ _ nofun
    ⟨⟨_, .head _, rfl, rfl, rfl⟩, h.records.entered_le hin, hnoted.records.lastRead_le i,
      hk.slot p hslot, hclear, _, rfl, Nat.add_le_add_right hstall _, fun hw hfrom => ?_⟩)
    { hk with
      up := fun f hf ha hw => ?_
      timely := by rw [hst]; exact ht
      nonce := fun hw x hx k hst => ?_
      synced := nofun
      took := fun q hq => ?_ }
  · rwa [update_idem] at hdone
  · obtain ⟨b, hb, hval, hle⟩ := hpaced hw hfrom
    exact ⟨b, hb, hval, Nat.add_le_add_right hle _⟩
  · rcases mem_pushed hf with hf | rfl
    · exact hk.up f hf ha hw
    · exact hw.elim
  · rcases staked_push (s := { s with writes := _ }) hst rfl rfl with hst | ⟨r, hst⟩
    · exact hk.nonce hw x hx k hst
    · cases hst
  · cases hq
    exact ⟨_, rfl, .inr ⟨_, List.mem_append_right _ (List.mem_singleton_self _), rfl, rfl⟩⟩

/-! ### Beginnings and the world -/

theorem Inv.begin (hs : s.started i = false) (hc : s.crashed i = none) :
    Inv lim w { s with started := update s.started i true }
      (update γ i (some (.start s.now))) := by
  obtain ⟨hbids, hfly, hentered⟩ := h.records.unstarted i hs
  have hstarted : ∀ j, update s.started i true j = false → s.started j = false :=
    fun j hj => (of_update hj (by simp)).2
  refine h.move (h.records.calm (h.records.calm_aside _ s.slots s.returned s.left hstarted))
    (h.ledger.quiet { Quiet.refl s with }) ?_
    fun j hj v hk => hk.frame h.records { Unseen.refl j s with
      started := update_of_ne hj _ _ }
  exact { alive := hc, started := update_self .., down := fun b hb => absurd hb (hbids b),
          up := fun f hf ha _ => absurd ha (hfly f hf), timely := trivial,
          clock := le_rfl, look := nofun, failed := nofun, watch := nofun, own := nofun,
          nonce := nofun, slot := nofun, synced := fun _ f hf ha => absurd ha (hfly f hf),
          took := nofun }

theorem Inv.leave (i : Tid) : Inv lim w { s with left := update s.left i true } γ where
  records := h.records.calm (h.records.calm_aside s.started s.slots s.returned _ fun _ hs => hs)
  ledger := h.ledger.quiet { Quiet.refl s with
    gone := fun j hj => hj.imp_left fun hl => by
      show update s.left i true j = true
      by_cases hji : j = i
      · rw [hji, update_self]
      · rw [update_of_ne hji]
        exact hl }
  knows j v hj := (h.knows j v hj).frame h.records { Unseen.refl j s with }

theorem Inv.vacate {p : Nat} (hread : s.readAt < s.now) (hslot : s.slots p s.now = some j)
    (hgone : s.Gone j) : Inv lim w { s with slots := s.setSlot p none } γ where
  records := h.records.calm
    (h.records.calm_aside s.started (s.setSlot p none) s.returned s.left fun _ hs => hs)
  ledger := h.ledger.vacate hread hslot hgone
  knows j v hj := (h.knows j v hj).frame h.records { Unseen.refl j s with
    slots := fun q t ht => s.setSlot_past (by omega) }

/-- `claimPeerSlot` returns the slot its caller reserved. -/
theorem Inv.answer (hv : γ i = some v) {p : Nat} (hp : v.took = some p) :
    Inv lim w { s with returned := update s.returned i (some p) } γ where
  records := h.records.calm (h.records.calm_aside s.started s.slots _ s.left fun _ hs => hs)
  ledger := h.ledger.answer ((h.knows i v hv).took p hp)
  knows j v hj := (h.knows j v hj).frame h.records { Unseen.refl j s with }

theorem Inv.advance {t : Nat} (hlt : s.now < t)
    (hdue : ∀ f ∈ s.flying, ∀ d, f.due = some d → t ≤ d) :
    Inv lim w { s with now := t } γ where
  records := h.records.advance hlt hdue
  ledger := h.ledger.quiet { Quiet.refl s with now := Nat.le_of_lt hlt }
  knows j v hj := by
    have hk := h.knows j v hj
    exact hk.frame h.records { Unseen.refl j s with now := Nat.le_of_lt hlt }

theorem Inv.die (hi : s.crashed i = none) : Inv lim w { s.flushed i (s.now + lim.lag) with
        crashed := update s.crashed i (some s.now) } (update γ i none) where
  records := h.records.die hi
  ledger := h.ledger.quiet { quiet_flushed s i (s.now + lim.lag) s.published with
    gone := fun j hj => hj.imp_right fun hc => by
      show (update s.crashed i (some s.now) j).isSome = true
      by_cases hji : j = i
      · rw [hji, update_self]
        rfl
      · rw [update_of_ne hji]
        exact hc }
  knows j v hj := by
    obtain ⟨hji, hj⟩ := of_update hj (by simp)
    have hk := h.others_flush (d := s.now + lim.lag) (fun _ _ => rfl) j hji v (h.knows j v hj)
    refine hk.frame (h.records.calm (h.records.calm_flushed i s.published (Nat.le_add_right _ _)))
      { Unseen.refl j (s.flushed i (s.now + lim.lag)) with
        alive := fun _ => (update_of_ne hji _ _).trans hk.alive
        crashed := fun e t he => ?_ }
    show update s.crashed i (some s.now) e = some t
    rw [update_of_ne]
    · exact he
    · rintro rfl
      rw [show s.crashed e = some t from he] at hi
      cases hi

end

/-- A landed stake of the candidate's own keeps what its stage says. -/
theorem Stage.Up.down {val read issue : Nat} (h : st.Up lim s f)
    (hdue : ∀ d, f.due = some d → s.now ≤ d) (hwhat : f.what = .stake val read issue) :
    st.Down lim s i ⟨val, read, issue, s.now⟩ := by
  have hstake : ∀ v k, f.what ≠ .clear v k := by
    intro v k hc
    rw [hwhat] at hc
    cases hc
  cases st with
  | resting => exact absurd h.1.choose_spec.choose_spec (hstake _ _)
  | opened o => exact absurd h.1.choose_spec.choose_spec (hstake _ _)
  | clearing => exact absurd h.1.choose_spec.choose_spec (hstake _ _)
  | staked o =>
    rcases h with ⟨_, _, _, h1, h2⟩ | ⟨⟨_, _, h1⟩, -⟩
    · rw [hwhat] at h1
      cases h1
      exact .inr h2
    · exact absurd h1 (hstake _ _)
  | flushed o t =>
    obtain ⟨⟨d, hd, hle⟩, hr⟩ := h
    have := hdue d hd
    exact .inr ⟨hr val read issue hwhat, by show s.now ≤ t + lim.lag; omega⟩
  | settling e =>
    obtain ⟨d, hd, hle, hr⟩ := h
    have := hdue d hd
    have := hr val read issue hwhat
    exact ⟨.inl (by show s.now ≤ read + lim.window + lim.lag; omega),
      by show s.now + lim.settle ≤ e + lim.lag; omega⟩
  | holding e =>
    obtain ⟨d, hd, hle⟩ := h
    have := hdue d hd
    show s.now + lim.lateHold ≤ e + lim.lag
    omega
  | settled e | inside e | checked => exact h.elim

section Landing

variable {n : Nat} {m : State} (c : Landed n f s m)

include c

/-- But for the stakes and withdrawals on record, a candidate does not see a store land. -/
theorem Landed.unseen (hR : Records lim w s) (j : Tid) :
    Unseen j s { s.landing n m with bids := s.bids, withdrawals := s.withdrawals } := by
  have hread := c.read
  exact { Unseen.refl j s with
    word := fun t ht => c.past (by omega)
    slots := fun p t ht => c.slots_past p t (by omega)
    flying := fun g hg _ _ => List.mem_of_mem_eraseIdx hg
    staked := fun x k _ hk => hk.imp_right fun ⟨g, hg, hrest⟩ => ⟨g, mem_air (m := m) hg, hrest⟩
    took := fun y hy => c.took hy
    reaches := fun y d hd => c.reaches hR hd }

/-- A withdrawal of the candidate's own lands only where no read is relied on. -/
theorem Stage.Timely.land (h : st.Timely lim s i) (hR : Records lim w s)
    (hup : f.author = i → f.what.OnWord → st.Up lim s f) : st.Timely lim (s.landing n m) i := by
  have hother : (f.author = i → ¬f.what.OnWord) → Unseen i s (s.landing n m) := fun hne =>
    { c.unseen hR i with
      bids := fun b hb => ((c.bids i b).mp hb).resolve_right fun ⟨hi, _, hw⟩ =>
        hne hi.symm (by rw [hw]; trivial)
      withdrawals := fun x hx => ((c.withdrawals i x).mp hx).resolve_right fun ⟨hi, _, hw⟩ =>
        hne hi.symm (by rw [hw]; trivial)
      staked := fun _ _ _ hk => c.staked hk }
  cases st with
  | settled e | inside e | checked => exact h.mono (hother hup)
  | _ => exact h

theorem Inv.land (h : Inv lim w s γ) : Inv lim w (s.landing n m) γ where
  records := h.records.land c
  ledger := h.ledger.land c h.records
  knows j v hj := by
    have hk := h.knows j v hj
    refine { hk.frame h.records (c.unseen h.records j) with
      down := fun b hb => ?_
      timely := hk.timely.land c h.records fun ha hw => hk.up f c.mem ha hw
      nonce := fun hw x hx k hst => hk.nonce hw x hx k (c.staked hst) }
    rcases (c.bids j b).mp hb with hb | ⟨rfl, hl, hwhat⟩
    · exact (hk.down b hb).mono le_rfl rfl
    · have hup := hk.up f c.mem rfl (by rw [hwhat]; trivial)
      cases b
      cases hl
      exact (hup.down (h.records.due f c.mem) hwhat).mono le_rfl rfl

end Landing

end Cme.Stake
