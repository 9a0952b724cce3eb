import Cme.Stake.Invariant

/-!
# Stake — the records under each operation

One lemma for each thing a candidate or the world can do to the line.
-/

namespace Cme.Stake

open Function Interleave

variable {lim : Limits} {w : Word} {s s' : State} {i j : Tid}

/-! ### Stores in the air -/

variable {f : Store}

theorem mem_pushed {l : List Store} {g : Store} (h : g ∈ l ++ [f]) : g ∈ l ∨ g = f := by
  rwa [List.mem_append, List.mem_singleton] at h

theorem forall_pushed {l : List Store} {P : Store → Prop} (hl : ∀ g ∈ l, P g) (hf : P f) :
    ∀ g ∈ l ++ [f], P g := fun g hg => by
  rcases mem_pushed hg with hg | rfl
  · exact hl g hg
  · exact hf

theorem Store.Within.mono {d d' : Nat} (h : f.Within d) (hd : d ≤ d') : f.Within d' := by
  obtain ⟨e, he, hle⟩ := h
  exact ⟨e, he, by omega⟩

theorem Store.dueBy_within (f : Store) (d : Nat) : (f.dueBy d).Within d := by
  unfold Store.dueBy Store.Within
  cases f.due with
  | none => exact ⟨d, rfl, Nat.le_refl d⟩
  | some e => exact ⟨min d e, rfl, Nat.min_le_left d e⟩

theorem Store.Within.dueBy {d e : Nat} (h : f.Within e) : (f.dueBy d).Within e := by
  obtain ⟨x, hx, hle⟩ := h
  refine ⟨min d x, ?_, by omega⟩
  unfold Store.dueBy
  rw [hx]
  rfl

theorem Store.dueBy_due {d e t : Nat} (hf : ∀ e, f.due = some e → t ≤ e) (hd : t ≤ d)
    (he : (f.dueBy d).due = some e) : t ≤ e := by
  unfold Store.dueBy at he
  cases hdue : f.due with
  | none =>
    rw [hdue] at he
    replace he : some d = some e := he
    rw [← Option.some.inj he]
    exact hd
  | some x =>
    rw [hdue] at he
    replace he : some (min d x) = some e := he
    have := hf x hdue
    rw [← Option.some.inj he]
    omega

/-- A store after the flush is one before it, due no later. -/
theorem State.mem_flushed {d : Nat} (hf : f ∈ (s.flushed i d).flying) :
    ∃ g ∈ s.flying, f.author = g.author ∧ f.what = g.what ∧
      ((g.author ≠ i ∧ f = g) ∨ (g.author = i ∧ f = g.dueBy d)) := by
  unfold State.flushed at hf
  rw [List.mem_map] at hf
  obtain ⟨g, hg, rfl⟩ := hf
  by_cases hi : g.author = i
  · rw [if_pos hi]
    exact ⟨g, hg, rfl, rfl, .inr ⟨hi, rfl⟩⟩
  · rw [if_neg hi]
    exact ⟨g, hg, rfl, rfl, .inl ⟨hi, rfl⟩⟩

theorem State.flushed_within {d e : Nat} {f g : Store}
    (hfg : (g.author ≠ i ∧ f = g) ∨ (g.author = i ∧ f = g.dueBy d)) (hg : g.Within e) :
    f.Within e := by
  rcases hfg with ⟨-, rfl⟩ | ⟨-, rfl⟩
  · exact hg
  · exact hg.dueBy

/-- Nothing overdue: every store in the air lands after this instant. -/
theorem State.lt_due (h : s.landed = true) (hf : f ∈ s.flying) {d : Nat} (hd : f.due = some d) :
    s.now < d := by
  unfold State.landed at h
  rw [List.all_eq_true] at h
  have hfd := h f hf
  rw [hd] at hfd
  simpa using hfd

/-! ### The records -/

theorem StakeOk.mono {val read issue : Nat} (h : StakeOk lim w s i val read issue)
    (howner : s'.owner val = some i) (hread : s.readAt ≤ s'.readAt) (hnow : s.now ≤ s'.now)
    (hword : ∀ t, t ≤ s.readAt → s'.word t = s.word t)
    (hcrash : ∀ e t, s.crashed e = some t → s'.crashed e = some t) :
    StakeOk lim w s' i val read issue where
  owner := howner
  valid := h.valid
  read_le := Nat.le_trans h.read_le hread
  order := h.order
  issued := Nat.le_trans h.issued hnow
  taken := by
    rw [hword read h.read_le]
    rcases h.taken with h1 | h1 | ⟨e, h1, h2⟩
    · exact .inl h1
    · exact .inr (.inl h1)
    · refine .inr (.inr ⟨e, h1, ?_⟩)
      rcases h2 with ⟨hw, t, ht, hage⟩ | ⟨timeout, t, hst, ht, hage⟩
      · exact .inl ⟨hw, t, hcrash e t ht, hage⟩
      · refine .inr ⟨timeout, t, hst, ?_, hage⟩
        rw [hword t (by have := h.read_le; omega)]
        exact ht

/-- What was checked after a step that adds no check was checked before it. -/
theorem Check.mono {val k : Nat} (h : Check s' val k) (hwrites : ∀ x ∈ s'.writes, x ∈ s.writes)
    (hlanded : ∀ x ∈ s'.withdrawals, x ∈ s.withdrawals)
    (hflying : ∀ f ∈ s'.flying, f.what = .clear val k → ∃ g ∈ s.flying, f.what = g.what) :
    Check s val k := by
  cases h with
  | write x hx h1 h2 => exact .write x (hwrites x hx) h1 h2
  | landed i x hx h1 h2 => exact .landed i x (hlanded _ hx) h1 h2
  | flying f hf h1 =>
    obtain ⟨g, hg, hw⟩ := hflying f hf h1
    exact .flying g hg (hw ▸ h1)

theorem Check.pushed {val k : Nat} {stakedAt window : Tid → Nat} {entered : Tid → Option (Nat × Nat)}
    (hk : Check { s with flying := s.flying ++ [f], stakedAt, window, entered } val k) :
    Check s val k ∨ f.what = .clear val k := by
  cases hk with
  | write x hx h1 h2 => exact .inl (.write x hx h1 h2)
  | landed i x hx h1 h2 => exact .inl (.landed i x hx h1 h2)
  | flying g hg h1 =>
    rcases mem_pushed hg with hg | rfl
    · exact .inl (.flying g hg h1)
    · exact .inr h1

/-- A step that changes neither the word nor what is recorded of it: a read, a
flush, a new nonce. Stores in the air may only become due earlier. -/
structure Calm (s s' : State) : Prop where
  same : s' = { s with
    flying := s'.flying, owner := s'.owner, readAt := s'.readAt, lastRead := s'.lastRead
    published := s'.published, started := s'.started, slots := s'.slots
    returned := s'.returned, left := s'.left }
  readAt : s.readAt ≤ s'.readAt ∧ s'.readAt ≤ s.now
  lastRead : ∀ i, s.lastRead i ≤ s'.lastRead i ∧ s'.lastRead i ≤ s'.readAt
  owner : ∀ v i, s.owner v = some i → s'.owner v = some i
  started : ∀ i, s'.started i = false → s.started i = false
  flying : ∀ f ∈ s'.flying, ∃ g ∈ s.flying, f.author = g.author ∧ f.what = g.what ∧
    (∀ d, g.Within d → f.Within d) ∧ ∀ d, f.due = some d → s.now ≤ d
  oneClear : s'.flying.Pairwise OneClear

section

variable (h : Records lim w s)

include h

theorem Records.bid_of_word {t val : Nat} (ht : s.word t = some val) :
    ∃ i b, (i, b) ∈ s.bids ∧ b.val = val ∧ b.land ≤ t := by
  rcases h.changed 0 t (Nat.zero_le t) (by rw [h.unclaimed, ht]; nofun) with
    ⟨i, b, hb, hval, -, hle⟩ | ⟨hnone, -⟩
  · rw [ht] at hval
    exact ⟨i, b, hb, (Option.some.inj hval).symm, hle⟩
  · rw [ht] at hnone
    cases hnone

theorem Records.check_owner {val k : Nat} (hk : Check s val k) : ∃ i, s.owner val = some i := by
  cases hk with
  | write x hx h1 h2 =>
    subst h1
    exact ⟨_, (h.write x hx).1⟩
  | landed i x hx h1 h2 =>
    subst h1
    exact ⟨_, (h.withdrawal i x hx).1⟩
  | flying f hf h1 => exact ⟨_, (h.clearAir f hf val k h1).1⟩

theorem Records.calm (c : Calm s s') : Records lim w s' := by
  have hmono : ∀ {j v r k}, StakeOk lim w s j v r k → StakeOk lim w s' j v r k := fun hok => by
    rw [c.same]
    exact { hok with
      owner := c.owner _ _ hok.owner
      read_le := Nat.le_trans hok.read_le c.readAt.1 }
  rw [c.same] at hmono ⊢
  exact { h with
    peers := fun hw v => c.owner v v (h.peers hw v)
    readAt_le := c.readAt.2
    lastRead_le := fun i => (c.lastRead i).2
    due := fun f hf d hd => by
      obtain ⟨-, -, -, -, -, hdue⟩ := c.flying f hf
      exact hdue d hd
    stakeAir := fun f hf val read issue hwhat => by
      obtain ⟨g, hg, hauthor, hw, -, -⟩ := c.flying f hf
      rw [hauthor]
      exact hmono (h.stakeAir g hg val read issue (hw ▸ hwhat))
    bid := fun j b hb => ⟨hmono (h.bid j b hb).1, (h.bid j b hb).2⟩
    clearAir := fun f hf val k hwhat => by
      obtain ⟨g, hg, hauthor, hw, hwithin, -⟩ := c.flying f hf
      obtain ⟨h1, h2, h3⟩ := h.clearAir g hg val k (hw ▸ hwhat)
      rw [hauthor]
      exact ⟨c.owner _ _ h1, hwithin _ h2, h3⟩
    withdrawal := fun j x hx => ⟨c.owner _ _ (h.withdrawal j x hx).1, (h.withdrawal j x hx).2⟩
    oneClear := c.oneClear
    write := fun x hx => ⟨c.owner _ _ (h.write x hx).1, (h.write x hx).2⟩
    check := fun val k hk => by
      have hck : Check s val k := hk.mono (fun _ hx => hx) (fun _ hx => hx) fun f hf _ => by
        obtain ⟨g, hg, -, hw, -, -⟩ := c.flying f hf
        exact ⟨g, hg, hw⟩
      have hok := h.check val k hck
      refine { hok with
        read_le := Nat.le_trans hok.read_le c.readAt.1
        later := fun f hf k' hwhat => ?_
        lastRead := fun i hi => ?_ }
      · obtain ⟨g, hg, -, hw, -, -⟩ := c.flying f hf
        exact hok.later g hg k' (hw ▸ hwhat)
      · obtain ⟨j, hj⟩ := h.check_owner hck
        obtain rfl : j = i := Option.some.inj ((c.owner val j hj).symm.trans hi)
        exact Nat.le_trans (hok.lastRead j hj) (c.lastRead j).1
    crash := fun j t ht => by
      have hc := h.crash j t ht
      refine { hc with flying := fun f hf ha => ?_, clear := fun f hf ha val k hwhat => ?_ }
      · obtain ⟨g, hg, hauthor, -, hwithin, -⟩ := c.flying f hf
        exact hwithin _ (hc.flying g hg (hauthor ▸ ha))
      · obtain ⟨g, hg, hauthor, hw, -, -⟩ := c.flying f hf
        exact hc.clear g hg (hauthor ▸ ha) val k (hw ▸ hwhat)
    unstarted := fun j hj => by
      obtain ⟨h1, h2, h3⟩ := h.unstarted j (c.started j hj)
      refine ⟨h1, fun f hf => ?_, h3⟩
      obtain ⟨g, hg, hauthor, -, -, -⟩ := c.flying f hf
      exact hauthor ▸ h2 g hg }

theorem Records.calm_refl : Calm s s where
  same := rfl
  readAt := ⟨le_rfl, h.readAt_le⟩
  lastRead j := ⟨le_rfl, h.lastRead_le j⟩
  owner _ _ ho := ho
  started _ hs := hs
  flying f hf := ⟨f, hf, rfl, rfl, fun _ h => h, h.due f hf⟩
  oneClear := h.oneClear

theorem Records.calm_look (i : Tid) : Calm s (s.look i) := { h.calm_refl with
  same := rfl
  readAt := ⟨h.readAt_le, le_rfl⟩
  lastRead := fun j => by
    have hle := Nat.le_trans (h.lastRead_le j) h.readAt_le
    show s.lastRead j ≤ update s.lastRead i s.now j ∧
      update s.lastRead i s.now j ≤ s.now
    by_cases hj : j = i
    · subst hj
      rw [update_self]
      exact ⟨hle, le_rfl⟩
    · rw [update_of_ne hj]
      exact ⟨le_rfl, hle⟩ }

theorem Records.calm_flushed (i : Tid) (published : Tid → Nat) {d : Nat} (hd : s.now ≤ d) :
    Calm s { s.flushed i d with published } := { h.calm_refl with
  same := rfl
  flying := fun f hf => by
    obtain ⟨g, hg, hauthor, hw, hfg⟩ := State.mem_flushed hf
    refine ⟨g, hg, hauthor, hw, fun e he => State.flushed_within hfg he, fun e he => ?_⟩
    rcases hfg with ⟨-, rfl⟩ | ⟨-, rfl⟩
    · exact h.due f hg e he
    · exact Store.dueBy_due (h.due g hg) hd he
  oneClear := by
    show (s.flying.map _).Pairwise OneClear
    rw [List.pairwise_map]
    refine h.oneClear.imp fun {f g} hfg => ?_
    rintro ⟨v, k, v', k', ha, hf, hg⟩
    refine hfg ⟨v, k, v', k', ?_, ?_, ?_⟩
    · split at ha <;> split at ha <;> exact ha
    · split at hf <;> exact hf
    · split at hg <;> exact hg }

end

variable {n : Nat}

section

variable (h : Records lim w s)

include h

theorem Records.calm_own (i : Tid) (hn : s.owner n = none) :
    Calm s { s with owner := update s.owner n (some i) } := { h.calm_refl with
  same := rfl
  owner := fun v j hv => by
    show update s.owner n (some i) v = some j
    rw [update_of_ne]
    · exact hv
    · rintro rfl
      rw [hn] at hv
      cases hv }

/-- A step that only touches what the procedure does not look at. -/
theorem Records.calm_aside (started : Tid → Bool) (slots : Nat → Nat → Option Tid)
    (returned : Tid → Option Nat) (left : Tid → Bool)
    (hstarted : ∀ i, started i = false → s.started i = false) :
    Calm s { s with started, slots, returned, left } := { h.calm_refl with
  same := rfl
  started := hstarted }

theorem Records.push (f : Store) (stakedAt window : Tid → Nat) (entered : Tid → Option (Nat × Nat))
    (hstarted : s.started f.author = true) (halive : s.crashed f.author = none)
    (hdue : ∀ d, f.due = some d → s.now ≤ d)
    (hstake : ∀ val read issue, f.what = .stake val read issue →
      StakeOk lim w s f.author val read issue)
    (hclear : ∀ val k, f.what = .clear val k → s.owner val = some f.author ∧
      f.Within (k + lim.stall + lim.lag) ∧ CheckOk lim s val k ∧
      (∀ k', Check s val k' → k' ≤ k) ∧
      (∀ i x, (i, x) ∈ s.withdrawals → x.val = val → x.check < k) ∧
      ∀ g ∈ s.flying, g.author = f.author → ∀ val' k', g.what ≠ .clear val' k')
    (hentered : ∀ i val since, entered i = some (val, since) → s.entered i = some (val, since)) :
    Records lim w { s with flying := s.flying ++ [f], stakedAt, window, entered } := { h with
  due := forall_pushed h.due hdue
  stakeAir := forall_pushed
    (fun g hg val read issue hwhat => { h.stakeAir g hg val read issue hwhat with })
    fun val read issue hwhat => { hstake val read issue hwhat with }
  bid := fun j b hb => ⟨{ (h.bid j b hb).1 with }, (h.bid j b hb).2⟩
  clearAir := forall_pushed h.clearAir fun val k hwhat => by
    obtain ⟨h1, h2, -, -, h5, -⟩ := hclear val k hwhat
    exact ⟨h1, h2, h5⟩
  oneClear := by
    show (s.flying ++ [f]).Pairwise OneClear
    rw [List.pairwise_append]
    refine ⟨h.oneClear, List.pairwise_singleton _ _, fun g hg g' hg' => ?_⟩
    rw [List.mem_singleton] at hg'
    subst hg'
    rintro ⟨v, k, v', k', ha, hgw, hfw⟩
    exact (hclear v' k' hfw).2.2.2.2.2 g hg ha v k hgw
  check := fun val k hk => by
    have hok : CheckOk lim s val k := by
      rcases hk.pushed with hk | hw
      · exact h.check val k hk
      · exact (hclear val k hw).2.2.1
    -- a new withdrawal is checked after everything its author checked before
    have hlater : ∀ k', f.what = .clear val k' → k ≤ k' := fun k' hwhat => by
      rcases hk.pushed with hk | hw
      · exact (hclear val k' hwhat).2.2.2.1 k hk
      · rw [hw] at hwhat
        cases hwhat
        exact le_rfl
    exact { hok with later := forall_pushed hok.later hlater }
  crash := fun j t ht => by
    have hne : j ≠ f.author := by
      rintro rfl
      rw [show s.crashed f.author = some t from ht] at halive
      cases halive
    have hc := h.crash j t ht
    exact { hc with
      flying := forall_pushed hc.flying fun ha => absurd ha.symm hne
      clear := forall_pushed hc.clear fun ha => absurd ha.symm hne }
  entered := fun j val since hj => h.entered j val since (hentered j val since hj)
  unstarted := fun j hj => by
    obtain ⟨h1, h2, h3⟩ := h.unstarted j hj
    refine ⟨h1, forall_pushed h2 ?_, ?_⟩
    · rintro rfl
      rw [show s.started f.author = false from hj] at hstarted
      cases hstarted
    · show entered j = none
      cases hj' : entered j with
      | none => rfl
      | some x =>
        have := hentered j x.1 x.2 hj'
        rw [h3] at this
        cases this }

theorem Records.pushWrite (x : Write) (entered : Tid → Option (Nat × Nat))
    (hstarted : s.started x.author = true) (halive : s.crashed x.author = none)
    (howner : s.owner x.val = some x.author) (hsince : x.since ≤ x.time)
    (hstall : x.time ≤ x.since + lim.stall) (hnow : x.time ≤ s.now)
    (hintime : x.published < x.window)
    (hsettled : ∀ i b, (i, b) ∈ s.bids → b.val = x.val → b.land ≤ x.since →
      b.land + lim.window + lim.lag ≤ x.since)
    (hok : CheckOk lim s x.val x.since)
    (hentered : ∀ i val since, entered i = some (val, since) →
      s.entered i = some (val, since) ∨
      (x.author = i ∧ x.val = val ∧ x.since = since ∧ x.time = since)) :
    Records lim w { s with writes := x :: s.writes, entered } := { h with
  stakeAir := fun f hf val read issue hwhat => { h.stakeAir f hf val read issue hwhat with }
  bid := fun j b hb => ⟨{ (h.bid j b hb).1 with }, (h.bid j b hb).2⟩
  write := fun y hy => by
    rcases List.mem_cons.mp hy with rfl | hy
    · exact ⟨howner, hsince, hstall, hnow, hintime, hsettled⟩
    · exact h.write y hy
  check := fun val k hk => by
    have hck : CheckOk lim s val k := by
      cases hk with
      | write y hy h1 h2 =>
        rcases List.mem_cons.mp hy with rfl | hy
        · rw [← h1, ← h2]
          exact hok
        · exact h.check val k (.write y hy h1 h2)
      | landed i x hx h1 h2 => exact h.check val k (.landed i x hx h1 h2)
      | flying f hf h1 => exact h.check val k (.flying f hf h1)
    exact { hck with }
  crash := fun j t ht => by
    have hc := h.crash j t ht
    refine ⟨hc.past, hc.flying, hc.clear, hc.bid, hc.withdrawal, fun y hy ha => ?_⟩
    rcases List.mem_cons.mp hy with rfl | hy
    · rw [ha, show s.crashed j = some t from ht] at halive
      cases halive
    · exact hc.write y hy ha
  entered := fun j val since hj => by
    rcases hentered j val since hj with h1 | h1
    · obtain ⟨y, hy, hrest⟩ := h.entered j val since h1
      exact ⟨y, .tail _ hy, hrest⟩
    · exact ⟨x, .head _, h1⟩
  unstarted := fun j hj => by
    obtain ⟨h1, h2, h3⟩ := h.unstarted j hj
    refine ⟨h1, h2, ?_⟩
    show entered j = none
    cases hj' : entered j with
    | none => rfl
    | some y =>
      rcases hentered j y.1 y.2 hj' with h4 | h4
      · rw [h3] at h4
        cases h4
      · rw [h4.1, show s.started j = false from hj] at hstarted
        cases hstarted }

theorem Records.advance {t : Nat} (hlt : s.now < t)
    (hdue : ∀ f ∈ s.flying, ∀ d, f.due = some d → t ≤ d) : Records lim w { s with now := t } :=
  { h with
  readAt_le := Nat.le_trans h.readAt_le (Nat.le_of_lt hlt)
  due := hdue
  steady := fun t' ht' => by
    show s.word t' = s.word t
    rw [h.steady t (Nat.le_of_lt hlt), h.steady t' (Nat.le_trans (Nat.le_of_lt hlt) ht')]
  stakeAir := fun f hf val read issue hwhat =>
    (h.stakeAir f hf val read issue hwhat).mono (h.stakeAir f hf val read issue hwhat).owner
      le_rfl (Nat.le_of_lt hlt) (fun _ _ => rfl) (fun _ _ hc => hc)
  bid := fun j b hb => by
    obtain ⟨h1, h2, h3, h4⟩ := h.bid j b hb
    exact ⟨h1.mono h1.owner le_rfl (Nat.le_of_lt hlt) (fun _ _ => rfl)
      (fun _ _ hc => hc), h2, h3, Nat.le_trans h4 (Nat.le_of_lt hlt)⟩
  withdrawal := fun j x hx => by
    obtain ⟨h1, h2, h3, h4⟩ := h.withdrawal j x hx
    exact ⟨h1, h2, h3, Nat.le_trans h4 (Nat.le_of_lt hlt)⟩
  write := fun x hx => by
    obtain ⟨h1, h2, h3, h4, h5, h6⟩ := h.write x hx
    exact ⟨h1, h2, h3, Nat.le_trans h4 (Nat.le_of_lt hlt), h5, h6⟩
  check := fun val k hk => by
    have hok : CheckOk lim s val k := by
      exact h.check val k (hk.mono (fun _ h => h) (fun _ h => h) fun g hg _ => ⟨g, hg, rfl⟩)
    exact { hok with }
  crash := fun j t' ht' => by
    have hc := h.crash j t' ht'
    exact ⟨Nat.le_trans hc.past (Nat.le_of_lt hlt), hc.flying, hc.clear, hc.bid, hc.withdrawal,
      hc.write⟩ }

end

/-- An element that was picked out is related to every one that is left. -/
theorem pairwise_of_erase {α : Type} {R : α → α → Prop} (hsymm : ∀ {x y}, R x y → R y x)
    {l : List α} (h : l.Pairwise R) {x y : α} (hx : l[n]? = some x) (hy : y ∈ l.eraseIdx n) :
    R x y := by
  induction l generalizing n with
  | nil => cases hx
  | cons a l ih =>
    rw [List.pairwise_cons] at h
    cases n with
    | zero =>
      rw [List.getElem?_cons_zero] at hx
      cases hx
      exact h.1 y hy
    | succ n =>
      rw [List.getElem?_cons_succ] at hx
      rw [List.eraseIdx_cons_succ] at hy
      rcases List.mem_cons.mp hy with rfl | hy
      · exact hsymm (h.1 x (List.mem_of_getElem? hx))
      · exact ih h.2 hx hy

/-- A store that was picked out of the air was the only withdrawal of its author. -/
theorem oneClear_of_erase {l : List Store} (h : l.Pairwise OneClear) {f g : Store}
    (hf : l[n]? = some f) (hg : g ∈ l.eraseIdx n) : OneClear f g := by
  have hsymm : ∀ {f g : Store}, OneClear f g → OneClear g f := by
    rintro f g hfg ⟨v, k, v', k', ha, hf, hg⟩
    exact hfg ⟨v', k', v, k, ha.symm, hg, hf⟩
  exact pairwise_of_erase hsymm h hf hg

/-! ### Stores land -/

/-- What of `s` is as in `m` after a store has landed. -/
def State.landing (s : State) (n : Nat) (m : State) : State := { s with
  flying := s.flying.eraseIdx n, word := m.word, bids := m.bids, withdrawals := m.withdrawals
  slots := m.slots, takes := m.takes, peerScanBound := m.peerScanBound }

/-- Store `n` in the air lands, with nothing read in this instant: what is new on
record is the store itself. -/
structure Landed (n : Nat) (f : Store) (s m : State) : Prop where
  picked : s.flying[n]? = some f
  read : s.readAt < s.now
  bids : ∀ i b, (i, b) ∈ m.bids ↔ (i, b) ∈ s.bids ∨
    i = f.author ∧ b.land = s.now ∧ f.what = .stake b.val b.read b.issue
  withdrawals : ∀ i x, (i, x) ∈ m.withdrawals ↔ (i, x) ∈ s.withdrawals ∨
    i = f.author ∧ x.land = s.now ∧ f.what = .clear x.val x.check
  takes : ∀ i y l, (i, y, l) ∈ m.takes ↔ (i, y, l) ∈ s.takes ∨
    i = f.author ∧ l = s.now ∧ f.what = .slot y
  word : m.word = s.word ∨ ∃ x, (m.word = fun t => if t < s.now then s.word t else x) ∧
    ((∃ i b, (i, b) ∈ m.bids ∧ x = some b.val ∧ b.land = s.now) ∨
      x = none ∧ ∃ i y, (i, y) ∈ m.withdrawals ∧ y.land = s.now)
  slots_past : ∀ p t, (∀ y, f.what = .slot y → y.slot = p → t < s.now) → m.slots p t = s.slots p t
  slots_now : ∀ y t, f.what = .slot y → s.now ≤ t → m.slots y.slot t = some f.author

theorem landed_land (hf : s.flying[n]? = some f) (hread : s.readAt < s.now) :
    Landed n f s (s.land f) := by
  unfold State.land
  cases hwhat : f.what with
  | stake val read issue =>
    refine ⟨hf, hread, fun i b => ?_, by simp [hwhat], by simp [hwhat],
      .inr ⟨_, rfl, .inl ⟨_, _, .head _, rfl, rfl⟩⟩, fun _ _ _ => rfl, by simp [hwhat]⟩
    obtain ⟨val', read', issue', land⟩ := b
    simp [hwhat]
    tauto
  | clear val check =>
    refine ⟨hf, hread, by simp [hwhat], fun i x => ?_, by simp [hwhat],
      .inr ⟨_, rfl, .inr ⟨rfl, _, _, .head _, rfl⟩⟩, fun _ _ _ => rfl, by simp [hwhat]⟩
    obtain ⟨val', check', land⟩ := x
    simp [hwhat]
    tauto
  | slot y =>
    refine ⟨hf, hread, by simp [hwhat], by simp [hwhat], fun i z l => ?_, .inl rfl,
      fun p t ht => if_neg fun h => ?_, fun z t hz ht => ?_⟩
    · simp [hwhat]
      tauto
    · exact absurd h.2 (Nat.not_le.mpr (ht y hwhat h.1.symm))
    · cases hwhat.symm.trans hz
      exact if_pos ⟨rfl, ht⟩
  | bound b =>
    exact ⟨hf, hread, by simp [hwhat], by simp [hwhat], by simp [hwhat], .inl rfl,
      fun _ _ _ => rfl, by simp [hwhat]⟩

theorem land_eq_landing (s : State) (n : Nat) (f : Store) :
    { s with flying := s.flying.eraseIdx n }.land f = s.landing n (s.land f) := by
  unfold State.land
  split <;> rfl

section Landing

variable {m : State} (c : Landed n f s m)

include c

theorem Landed.mem : f ∈ s.flying := List.mem_of_getElem? c.picked

theorem Landed.past {t : Nat} (ht : t < s.now) : m.word t = s.word t := by
  rcases c.word with hw | ⟨x, hw, -⟩ <;> rw [hw]
  exact if_pos ht

omit c in
theorem mem_air {g : Store} (hg : g ∈ (s.landing n m).flying) : g ∈ s.flying :=
  List.mem_of_mem_eraseIdx hg

/-- What changes the word across this instant is the store itself. -/
theorem Landed.changed (h : Records lim w s) {t₁ t₂ : Nat} (ht : t₁ ≤ t₂)
    (hne : m.word t₁ ≠ m.word t₂) :
    (∃ i b, (i, b) ∈ m.bids ∧ m.word t₂ = some b.val ∧ t₁ < b.land ∧ b.land ≤ t₂) ∨
      (m.word t₂ = none ∧ ∃ i x, (i, x) ∈ m.withdrawals ∧ t₁ < x.land ∧ x.land ≤ t₂) := by
  by_cases hsame : m.word t₁ = s.word t₁ ∧ m.word t₂ = s.word t₂
  · rw [hsame.1, hsame.2] at hne
    rw [hsame.2]
    exact (h.changed t₁ t₂ ht hne).imp
      (fun ⟨i, b, hb, hrest⟩ => ⟨i, b, (c.bids i b).mpr (.inl hb), hrest⟩)
      (.imp_right fun ⟨i, x, hx, hrest⟩ => ⟨i, x, (c.withdrawals i x).mpr (.inl hx), hrest⟩)
  obtain ⟨x, hw, hnew⟩ := c.word.resolve_left fun hw => hsame ⟨by rw [hw], by rw [hw]⟩
  have h₂ : ¬t₂ < s.now := fun h₂ => hsame ⟨c.past (Nat.lt_of_le_of_lt ht h₂), c.past h₂⟩
  have hx : m.word t₂ = x := by
    rw [hw]
    exact if_neg h₂
  have h₁ : t₁ < s.now := by
    by_contra h₁
    rw [hx, hw] at hne
    exact hne (if_neg h₁)
  rw [hx]
  exact hnew.imp (fun ⟨i, b, hb, hv, hl⟩ => ⟨i, b, hb, hv, by omega, by omega⟩)
    (.imp_right fun ⟨i, y, hy, hl⟩ => ⟨i, y, hy, by omega, by omega⟩)

/-- **A store lands.** No check was made in this instant, so each of them is of
the word before it. -/
theorem Records.land (h : Records lim w s) : Records lim w (s.landing n m) := by
  have hmem := c.mem
  have hread := c.read
  have hpast : ∀ t, t ≤ s.readAt → m.word t = s.word t := fun t ht => c.past (by omega)
  have hmono : ∀ {j v r k}, StakeOk lim w s j v r k → StakeOk lim w (s.landing n m) j v r k :=
    fun hok => hok.mono hok.owner le_rfl le_rfl hpast (fun _ _ hc => hc)
  refine { h with
    due := fun g hg => h.due g (mem_air hg)
    unclaimed := (hpast 0 (Nat.zero_le _)).trans h.unclaimed
    steady := fun t ht => ?_
    changed := fun t₁ t₂ ht hne => c.changed h ht hne
    stakeAir := fun g hg v r k hw => hmono (h.stakeAir g (mem_air hg) v r k hw)
    bid := fun j b hb => ?_
    clearAir := fun g hg v k hw => ?_
    withdrawal := fun j x hx => ?_
    oneClear := h.oneClear.sublist (List.eraseIdx_sublist _ _)
    once := fun i x j y hx hy hv hk => ?_
    write := fun x hx => ?_
    check := fun v k hk => ?_
    crash := fun j t ht => ?_
    unstarted := fun j hj => ?_ }
  · show m.word t = m.word s.now
    rcases c.word with hw | ⟨x, hw, -⟩ <;> rw [hw]
    · exact h.steady t ht
    · exact (if_neg (Nat.not_lt.mpr ht)).trans (if_neg (Nat.lt_irrefl _)).symm
  · rcases (c.bids j b).mp hb with hb | ⟨rfl, hl, hwhat⟩
    · exact ⟨hmono (h.bid j b hb).1, (h.bid j b hb).2⟩
    · have hok := h.stakeAir f hmem _ _ _ hwhat
      have hr := hok.read_le
      exact ⟨hmono hok, by omega, hl ▸ hok.issued, Nat.le_of_eq hl⟩
  · obtain ⟨h1, h2, h3⟩ := h.clearAir g (mem_air hg) v k hw
    refine ⟨h1, h2, fun j x hx hv => ?_⟩
    rcases (c.withdrawals j x).mp hx with hx | ⟨rfl, -, hwhat⟩
    · exact h3 j x hx hv
    · -- two withdrawals of one author are never in the air together
      subst hv
      have howner := (h.clearAir f hmem _ _ hwhat).1.symm.trans h1
      exact absurd ⟨_, _, _, _, Option.some.inj howner, hwhat, hw⟩
        (oneClear_of_erase h.oneClear c.picked hg)
  · rcases (c.withdrawals j x).mp hx with hx | ⟨rfl, hl, hwhat⟩
    · exact h.withdrawal j x hx
    · obtain ⟨howner, ⟨d, hd, hle⟩, -⟩ := h.clearAir f hmem _ _ hwhat
      have hnow := h.due f hmem d hd
      have hk := (h.check _ _ (.flying f hmem hwhat)).read_le
      exact ⟨howner, by omega, by omega, Nat.le_of_eq hl⟩
  · -- of two withdrawals of a value the later one was checked later
    rcases (c.withdrawals i x).mp hx with hx | ⟨rfl, hl, hwhat⟩ <;>
      rcases (c.withdrawals j y).mp hy with hy | ⟨rfl, hl', hwhat'⟩
    · exact h.once i x j y hx hy hv hk
    · have := (h.clearAir f hmem _ _ hwhat').2.2 i x hx hv
      omega
    · have := (h.clearAir f hmem _ _ hwhat).2.2 j y hy hv.symm
      omega
    · exact hl.trans hl'.symm
  · obtain ⟨h1, h2, h3, h4, h5, h6⟩ := h.write x hx
    refine ⟨h1, h2, h3, h4, h5, fun j b hb hv hle => ?_⟩
    rcases (c.bids j b).mp hb with hb | ⟨-, hl, -⟩
    · exact h6 j b hb hv hle
    · have := (h.check x.val x.since (.write x hx rfl rfl)).read_le
      omega
  · have hck : Check s v k := by
      cases hk with
      | write x hx h1 h2 => exact .write x hx h1 h2
      | landed i x hx h1 h2 =>
        rcases (c.withdrawals i x).mp hx with hx | ⟨-, -, hwhat⟩
        · exact .landed i x hx h1 h2
        · exact .flying f hmem (by rw [hwhat, h1, h2])
      | flying g hg h1 => exact .flying g (mem_air hg) h1
    have hok := h.check v k hck
    refine ⟨(hpast k hok.read_le).trans hok.stands, hok.read_le, fun j b hb hv hle => ?_,
      fun g hg => hok.later g (mem_air hg), fun j x hx hv hlt => ?_, hok.lastRead⟩
    · rcases (c.bids j b).mp hb with hb | ⟨-, hl, -⟩
      · exact hok.aged j b hb hv hle
      · have := hok.read_le
        omega
    · rcases (c.withdrawals j x).mp hx with hx | ⟨-, -, hwhat⟩
      · exact hok.landed j x hx hv hlt
      · have := hok.later f hmem x.check (hv ▸ hwhat)
        omega
  · -- what the crashed had in the air was due within the lag
    have hc := h.crash j t ht
    have hlag : j = f.author → s.now ≤ t + lim.lag := by
      rintro rfl
      obtain ⟨d, hd, hle⟩ := hc.flying f hmem rfl
      exact Nat.le_trans (h.due f hmem d hd) hle
    refine ⟨hc.past, fun g hg => hc.flying g (mem_air hg), fun g hg => hc.clear g (mem_air hg),
      fun b hb => ?_, fun x hx => ?_, hc.write⟩
    · rcases (c.bids j b).mp hb with hb | ⟨hj, hl, -⟩
      · exact hc.bid b hb
      · exact hl ▸ hlag hj
    · rcases (c.withdrawals j x).mp hx with hx | ⟨hj, hl, hwhat⟩
      · exact hc.withdrawal x hx
      · exact ⟨hl ▸ hlag hj, hc.clear f hmem hj.symm _ _ hwhat⟩
  · obtain ⟨h1, h2, h3⟩ := h.unstarted j hj
    refine ⟨fun b hb => ?_, fun g hg => h2 g (mem_air hg), h3⟩
    rcases (c.bids j b).mp hb with hb | ⟨hj, -⟩
    · exact h1 b hb
    · exact h2 f hmem hj.symm

end Landing

theorem Records.die (h : Records lim w s) (hi : s.crashed i = none) :
    Records lim w { s.flushed i (s.now + lim.lag) with
      crashed := update s.crashed i (some s.now) } := by
  have h' := h.calm (h.calm_flushed i s.published (Nat.le_add_right s.now lim.lag))
  have hkeep : ∀ e t, s.crashed e = some t →
      update s.crashed i (some s.now) e = some t := by
    intro e t he
    rw [update_of_ne]
    · exact he
    · rintro rfl
      rw [hi] at he
      cases he
  have hmono : ∀ {j v r k}, StakeOk lim w (s.flushed i (s.now + lim.lag)) j v r k → StakeOk lim w
      { s.flushed i (s.now + lim.lag) with
        crashed := update s.crashed i (some s.now) } j v r k := fun hok =>
    hok.mono hok.owner le_rfl le_rfl (fun _ _ => rfl) hkeep
  refine { h' with
    stakeAir := fun g hg v r k hw => hmono (h'.stakeAir g hg v r k hw)
    bid := fun j b hb => ⟨hmono (h'.bid j b hb).1, (h'.bid j b hb).2⟩
    check := fun v k hk => ?_
    crash := fun j t ht => ?_ }
  · have hok := h'.check v k (hk.mono (fun _ h => h) (fun _ h => h) fun g hg _ => ⟨g, hg, rfl⟩)
    exact { hok with }
  · replace ht : update s.crashed i (some s.now) j = some t := ht
    by_cases hj : j = i
    · subst hj
      rw [update_self] at ht
      cases ht
      refine ⟨le_rfl, fun g hg ha => ?_, fun g hg ha val k hw => ?_, fun b hb => ?_,
        fun x hx => ?_, fun x hx ha => ?_⟩
      · obtain ⟨g', hg', hauthor, -, ⟨hne, rfl⟩ | ⟨-, rfl⟩⟩ := State.mem_flushed hg
        · exact absurd ha hne
        · exact Store.dueBy_within _ _
      · have := (h'.check val k (.flying g hg hw)).read_le
        exact Nat.le_trans this h.readAt_le
      · have := (h.bid j b hb).2.2.2
        omega
      · have := (h.withdrawal j x hx).2
        constructor <;> omega
      · obtain ⟨-, h1, -, h2, -⟩ := h.write x hx
        omega
    · rw [update_of_ne hj] at ht
      have hc := h'.crash j t ht
      exact { hc with }

end Cme.Stake
