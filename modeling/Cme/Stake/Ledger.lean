import Cme.Stake.Moves

/-!
# Stake — the ledger under each operation

What the values and the member slots were used for. Most steps are `Quiet`: they
put no new stake, withdrawal or reservation on record.
-/

namespace Cme.Stake

open Function Interleave

variable {lim : Limits} {w : Word} {s s' : State} {i j : Tid}

/-! ### Quiet steps -/

structure Quiet (s s' : State) : Prop where
  now : s.now ≤ s'.now
  readAt : s.readAt ≤ s'.readAt
  bids : s'.bids = s.bids
  withdrawals : s'.withdrawals = s.withdrawals
  writes : s'.writes = s.writes
  takes : s'.takes = s.takes
  slots : s'.slots = s.slots
  entered : s'.entered = s.entered
  stakedAt : s'.stakedAt = s.stakedAt
  returned : s'.returned = s.returned
  gone : ∀ i, s.Gone i → s'.Gone i
  flying : ∀ f ∈ s'.flying, f.what.Counts → ∃ g ∈ s.flying, f.author = g.author ∧
    f.what = g.what ∧ ∀ d, g.Within d → f.Within d
  air : ∀ g ∈ s.flying, ∀ y, g.what = .slot y → ∃ f ∈ s'.flying, f.author = g.author ∧
    f.what = .slot y
  oneStake : s.flying.Pairwise OneStake → s'.flying.Pairwise OneStake

theorem Quiet.refl (s : State) : Quiet s s where
  now := le_rfl
  readAt := le_rfl
  bids := rfl
  withdrawals := rfl
  writes := rfl
  takes := rfl
  slots := rfl
  entered := rfl
  stakedAt := rfl
  returned := rfl
  gone _ h := h
  flying f hf _ := ⟨f, hf, rfl, rfl, fun _ h => h⟩
  air g hg _ hw := ⟨g, hg, rfl, hw⟩
  oneStake h := h

variable {val k : Nat}

theorem Quiet.staked (c : Quiet s s') (h : s'.Staked val k) : s.Staked val k := by
  rcases h with ⟨i, b, hb, hrest⟩ | ⟨f, hf, r, hw⟩
  · rw [c.bids] at hb
    exact .inl ⟨i, b, hb, hrest⟩
  · obtain ⟨g, hg, -, hwhat, -⟩ := c.flying f hf (by rw [hw]; trivial)
    exact .inr ⟨g, hg, r, by rw [← hwhat, hw]⟩

theorem Quiet.cleared (c : Quiet s s') (h : s'.Cleared val k) : s.Cleared val k := by
  rcases h with ⟨i, x, hx, hrest⟩ | ⟨f, hf, hw⟩
  · rw [c.withdrawals] at hx
    exact .inl ⟨i, x, hx, hrest⟩
  · obtain ⟨g, hg, -, hwhat, -⟩ := c.flying f hf (by rw [hw]; trivial)
    exact .inr ⟨g, hg, by rw [← hwhat, hw]⟩

variable {y : Take}

theorem Quiet.took_of (c : Quiet s s') (h : s'.Took i y) : s.Took i y := by
  rcases h with ⟨l, hl⟩ | ⟨f, hf, ha, hw⟩
  · rw [c.takes] at hl
    exact .inl ⟨l, hl⟩
  · obtain ⟨g, hg, hauthor, hwhat, -⟩ := c.flying f hf (by rw [hw]; trivial)
    exact .inr ⟨g, hg, by rw [← hauthor, ha], by rw [← hwhat, hw]⟩

theorem Quiet.took (c : Quiet s s') (h : s.Took i y) : s'.Took i y := by
  rcases h with ⟨l, hl⟩ | ⟨g, hg, ha, hw⟩
  · rw [← c.takes] at hl
    exact .inl ⟨l, hl⟩
  · obtain ⟨f, hf, hauthor, hwhat⟩ := c.air g hg y hw
    exact .inr ⟨f, hf, by rw [hauthor, ha], hwhat⟩

theorem Quiet.reaches (c : Quiet s s') {d : Nat} (h : s.Reaches i y d) : s'.Reaches i y d := by
  refine ⟨fun l hl => ?_, fun f hf ha hw => ?_⟩
  · rw [c.takes] at hl
    exact h.1 l hl
  · obtain ⟨g, hg, hauthor, hwhat, hwithin⟩ := c.flying f hf (by rw [hw]; trivial)
    exact hwithin d (h.2 g hg (by rw [← hauthor, ha]) (by rw [← hwhat, hw]))

theorem TakeOk.mono (h : TakeOk lim s i y) (hwrites : ∀ x ∈ s.writes, x ∈ s'.writes)
    (hread : s.readAt ≤ s'.readAt)
    (hslots : ∀ t, t ≤ s.readAt → s'.slots y.slot t = s.slots y.slot t)
    (hlanded : ∀ l, (i, y, l) ∈ s'.takes → y.read < l ∧ l ≤ s'.now)
    (hreach : ∀ d, s.Reaches i y d → s'.Reaches i y d)
    (hcleared : ∀ k, s'.Cleared y.val k → y.since ≤ k →
      s.Cleared y.val k ∨ s'.Reaches i y (k + lim.lag)) :
    TakeOk lim s' i y where
  confirmed := by
    obtain ⟨x, hx, hrest⟩ := h.confirmed
    exact ⟨x, hwrites x hx, hrest⟩
  since_le := h.since_le
  read_le := Nat.le_trans h.read_le hread
  free := (hslots _ h.read_le).trans h.free
  landed := hlanded
  stall := hreach _ h.stall
  release k hk hle := by
    rcases hcleared k hk hle with hk | hk
    · exact hreach _ (h.release k hk hle)
    · exact hk

theorem Nonces.quiet (h : Nonces lim s) (c : Quiet s s') : Nonces lim s' where
  once := by
    rw [c.bids]
    exact h.once
  air f hf val r k hw := by
    obtain ⟨g, hg, -, hwhat, -⟩ := c.flying f hf (by rw [hw]; trivial)
    rw [c.bids]
    exact h.air g hg val r k (by rw [← hwhat, hw])
  airOnce := c.oneStake h.airOnce
  entered i val since hin k hk := by
    rw [c.entered] at hin
    rw [c.stakedAt]
    exact h.entered i val since hin k (c.staked hk)
  write := by
    rw [c.writes, c.bids]
    exact h.write
  withdrawal := by
    rw [c.withdrawals, c.bids]
    exact h.withdrawal
  clearAir f hf val k hw := by
    obtain ⟨g, hg, hauthor, hwhat, hwithin⟩ := c.flying f hf (by rw [hw]; trivial)
    obtain ⟨b, hb, hval, hle⟩ := h.clearAir g hg val k (by rw [← hwhat, hw])
    rw [c.bids, hauthor]
    exact ⟨b, hb, hval, hwithin _ hle⟩
  take i y hy := by
    obtain ⟨b, hb, hval, hle⟩ := h.take i y (c.took_of hy)
    rw [c.bids]
    exact ⟨b, hb, hval, c.reaches hle⟩

theorem State.Keeps.quiet (h : s.Keeps) (c : Quiet s s') : s'.Keeps := by
  unfold State.Keeps
  rw [c.takes, c.slots]
  intro i y l hy r hr hother
  exact (h i y l hy r hr hother).imp_right (c.gone i)

theorem Ledger.quiet (h : Ledger lim w s) (c : Quiet s s') : Ledger lim w s' where
  ended x hx k hk := by
    rw [c.writes] at hx
    exact h.ended x hx k (c.cleared hk)
  nonce hw hfrom := (h.nonce hw hfrom).quiet c
  take i y hy := by
    have hok := h.take i y (c.took_of hy)
    refine hok.mono (fun x hx => by rw [c.writes]; exact hx) c.readAt
      (fun t _ => by rw [c.slots]) (fun l hl => ?_) (fun d hd => c.reaches hd)
      (fun k hk _ => .inl (c.cleared hk))
    rw [c.takes] at hl
    exact ⟨(hok.landed l hl).1, Nat.le_trans (hok.landed l hl).2 c.now⟩
  keeps := h.keeps.quiet c
  slotSteady p t ht := by
    rw [c.slots, h.slotSteady p t (Nat.le_trans c.now ht), h.slotSteady p s'.now c.now]
  returned i p hp := by
    rw [c.returned] at hp
    obtain ⟨y, hy, htook⟩ := h.returned i p hp
    exact ⟨y, hy, c.took htook⟩

theorem quiet_flushed (s : State) (i : Tid) (d : Nat) (published : Tid → Nat) :
    Quiet s { s.flushed i d with published } := { Quiet.refl s with
  flying := fun f hf _ => by
    obtain ⟨g, hg, hauthor, hw, hfg⟩ := State.mem_flushed hf
    exact ⟨g, hg, hauthor, hw, fun e he => State.flushed_within hfg he⟩
  air := fun g hg y hw => by
    refine ⟨_, List.mem_map_of_mem hg, ?_, ?_⟩
    · split <;> rfl
    · split
      · exact hw
      · exact hw
  oneStake := fun h => by
    show (s.flying.map _).Pairwise OneStake
    rw [List.pairwise_map]
    refine h.imp fun {f g} hfg => ?_
    rintro ⟨v, r, k, r', k', hf, hg⟩
    refine hfg ⟨v, r, k, r', k', ?_, ?_⟩
    · split at hf <;> exact hf
    · split at hg <;> exact hg }

/-! ### Stores go up -/

section Push

variable {f : Store}

theorem staked_push {val k : Nat} (h : s'.Staked val k) (hb : s'.bids = s.bids)
    (hf : s'.flying = s.flying ++ [f]) : s.Staked val k ∨ ∃ r, f.what = .stake val r k := by
  rcases h with ⟨i, b, hb', hrest⟩ | ⟨g, hg, r, hw⟩
  · rw [hb] at hb'
    exact .inl (.inl ⟨i, b, hb', hrest⟩)
  · rw [hf] at hg
    rcases mem_pushed hg with hg | rfl
    · exact .inl (.inr ⟨g, hg, r, hw⟩)
    · exact .inr ⟨r, hw⟩

theorem cleared_push {val k : Nat} (h : s'.Cleared val k) (hx : s'.withdrawals = s.withdrawals)
    (hf : s'.flying = s.flying ++ [f]) : s.Cleared val k ∨ f.what = .clear val k := by
  rcases h with ⟨i, x, hx', hrest⟩ | ⟨g, hg, hw⟩
  · rw [hx] at hx'
    exact .inl (.inl ⟨i, x, hx', hrest⟩)
  · rw [hf] at hg
    rcases mem_pushed hg with hg | rfl
    · exact .inl (.inr ⟨g, hg, hw⟩)
    · exact .inr hw

theorem took_push {y : Take} (h : s'.Took i y) (ht : s'.takes = s.takes)
    (hf : s'.flying = s.flying ++ [f]) : s.Took i y ∨ (f.author = i ∧ f.what = .slot y) := by
  rcases h with ⟨l, hl⟩ | ⟨g, hg, hrest⟩
  · rw [ht] at hl
    exact .inl (.inl ⟨l, hl⟩)
  · rw [hf] at hg
    rcases mem_pushed hg with hg | rfl
    · exact .inl (.inr ⟨g, hg, hrest⟩)
    · exact .inr hrest

theorem took_push_of {y : Take} (h : s.Took i y) (ht : s'.takes = s.takes)
    (hf : s'.flying = s.flying ++ [f]) : s'.Took i y := by
  rcases h with ⟨l, hl⟩ | ⟨g, hg, hrest⟩
  · rw [← ht] at hl
    exact .inl ⟨l, hl⟩
  · exact .inr ⟨g, by rw [hf]; exact List.mem_append_left _ hg, hrest⟩

theorem reaches_push {y : Take} {d : Nat} (h : s.Reaches i y d) (ht : s'.takes = s.takes)
    (hf : s'.flying = s.flying ++ [f]) (hnew : f.author = i → f.what = .slot y → f.Within d) :
    s'.Reaches i y d := by
  refine ⟨fun l hl => ?_, fun g hg ha hw => ?_⟩
  · rw [ht] at hl
    exact h.1 l hl
  · rw [hf] at hg
    rcases mem_pushed hg with hg | rfl
    · exact h.2 g hg ha hw
    · exact hnew ha hw

end Push

/-- A reservation that was never made takes effect by any time. -/
theorem reaches_of_took {d : Nat} (h : s.Took i y → s.Reaches i y d) : s.Reaches i y d :=
  ⟨fun l hl => (h (.inl ⟨l, hl⟩)).1 l hl, fun f hf ha hw => (h (.inr ⟨f, hf, ha, hw⟩)).2 f hf ha hw⟩

theorem Records.entered_owner (h : Records lim w s) {val since : Nat}
    (hin : s.entered i = some (val, since)) : s.owner val = some i := by
  obtain ⟨x, hx, rfl, rfl, -, -⟩ := h.entered i val since hin
  exact (h.write x hx).1

/-- A store that stakes no value that is up leaves one stake of each. -/
theorem oneStake_push {f : Store} (h : s.flying.Pairwise OneStake)
    (hfresh : ∀ val r k, f.what = .stake val r k → ∀ k', ¬s.Staked val k') :
    (s.flying ++ [f]).Pairwise OneStake := by
  rw [List.pairwise_append]
  refine ⟨h, List.pairwise_singleton _ _, fun g hg g' hg' => ?_⟩
  rw [List.mem_singleton] at hg'
  subst hg'
  rintro ⟨v, r, k, r', k', hgw, hfw⟩
  exact hfresh v r' k' hfw k (.inr ⟨g, hg, r, hgw⟩)

/-- What a store must keep to when it goes up, by what it writes. -/
def Payload.Fits (lim : Limits) (w : Word) (s : State) (i : Tid) (due : Option Nat) :
    Payload → Prop
  | .stake val _ _ => w = .lease → ∀ k, ¬s.Staked val k
  | .clear val k => (∀ x ∈ s.writes, x.val = val → x.time ≤ k) ∧
      (∀ j y, s.Took j y → y.val = val → s.Reaches j y (k + lim.lag)) ∧
      (w = .lease → lim.stallFrom = .fromStake → ∃ b, (i, b) ∈ s.bids ∧ b.val = val ∧
        ∃ d, due = some d ∧ d ≤ b.issue + max lim.settle lim.lateHold + lim.stall + lim.lag)
  | .slot y => (∃ x ∈ s.writes, x.author = i ∧ x.val = y.val ∧ x.since = y.since) ∧
      y.since ≤ y.read ∧ y.read ≤ s.readAt ∧ s.slots y.slot y.read = none ∧
      (∀ k, s.Cleared y.val k → k < y.since) ∧
      ∃ d, due = some d ∧ d ≤ y.since + lim.stall + lim.lag ∧
        (w = .lease → lim.stallFrom = .fromStake → ∃ b, (i, b) ∈ s.bids ∧ b.val = y.val ∧
          d ≤ b.issue + lim.settle + lim.stall + lim.lag)
  | .bound _ => True

theorem Ledger.push (h : Ledger lim w s) {what : Payload} {due : Option Nat}
    {stakedAt window : Tid → Nat} {entered : Tid → Option (Nat × Nat)}
    (hfits : what.Fits lim w s i due)
    (hentered : ∀ j val since, entered j = some (val, since) →
      s.entered j = some (val, since) ∧ stakedAt j = s.stakedAt j ∧
        ∀ r k, what ≠ .stake val r k) :
    Ledger lim w
      { s with flying := s.flying ++ [⟨i, what, due⟩], stakedAt, window, entered } where
  ended x hx k hk hle := by
    rcases cleared_push (s := s) hk rfl rfl with hk | hk
    · exact h.ended x hx k hk hle
    · obtain rfl : what = _ := hk
      exact hfits.1 x hx rfl
  nonce hw hfrom := by
    have hn := h.nonce hw hfrom
    refine { hn with
      air := fun f hf val r k hwhat => ?_
      airOnce := oneStake_push hn.airOnce fun val r k hwhat => ?_
      entered := fun j val since hj k hk => ?_
      clearAir := fun f hf val k hwhat => ?_
      take := fun j z hz => ?_ }
    · rcases mem_pushed hf with hf | rfl
      · exact hn.air f hf val r k hwhat
      · obtain rfl : what = _ := hwhat
        rintro j b hb rfl
        exact hfits hw _ (.inl ⟨j, b, hb, rfl, rfl⟩)
    · obtain rfl : what = _ := hwhat
      exact hfits hw
    · obtain ⟨hj, hat, hne⟩ := hentered j val since hj
      show k = stakedAt j
      rw [hat]
      rcases staked_push (s := s) hk rfl rfl with hk | ⟨r, hk⟩
      · exact hn.entered j val since hj k hk
      · exact absurd hk (hne r k)
    · rcases mem_pushed hf with hf | rfl
      · exact hn.clearAir f hf val k hwhat
      · obtain rfl : what = _ := hwhat
        exact hfits.2.2 hw hfrom
    · -- a nonce has one stake, so an earlier reservation under it has the same bound
      by_cases hold : s.Took j z
      · obtain ⟨c, hc, hcval, hcle⟩ := hn.take j z hold
        refine ⟨c, hc, hcval, reaches_push hcle rfl rfl fun ha hwhat => ?_⟩
        obtain rfl : i = j := ha
        obtain rfl : what = _ := hwhat
        obtain ⟨-, -, -, -, -, d, hd, -, hpaced⟩ := hfits
        obtain ⟨b, hb, hval, hle⟩ := hpaced hw hfrom
        rw [hn.once i c i b hc hb (hcval.trans hval.symm)]
        exact ⟨d, hd, hle⟩
      · rcases took_push (s := s) hz rfl rfl with hz | ⟨ha, hwhat⟩
        · exact absurd hz hold
        · obtain rfl : i = j := ha
          obtain rfl : what = _ := hwhat
          obtain ⟨-, -, -, -, -, d, hd, -, hpaced⟩ := hfits
          obtain ⟨b, hb, hval, hle⟩ := hpaced hw hfrom
          exact ⟨b, hb, hval, reaches_push
            (reaches_of_took fun htook => absurd htook hold) rfl rfl fun _ _ => ⟨d, hd, hle⟩⟩
  take j z hz := by
    -- the reservation pushed just now, or an older one
    by_cases hnew : i = j ∧ what = .slot z
    · obtain ⟨rfl, rfl⟩ := hnew
      obtain ⟨hconfirmed, hsince, hread, hfree, hclear, d, hd, hstall, -⟩ := hfits
      refine ⟨hconfirmed, hsince, hread, hfree, fun l hl => ?_, ?_, fun k hk hle => ?_⟩
      · exact (h.take i z (.inl ⟨l, hl⟩)).landed l hl
      · exact reaches_push (reaches_of_took fun htook => (h.take i z htook).stall) rfl rfl
          fun _ _ => ⟨d, hd, hstall⟩
      · rcases cleared_push (s := s) hk rfl rfl with hk | hk
        · have := hclear k hk
          omega
        · cases hk
    · have htook := (took_push (s := s) hz rfl rfl).resolve_right hnew
      have hpush : ∀ d, s.Reaches j z d → State.Reaches
          { s with flying := s.flying ++ [⟨i, what, due⟩], stakedAt, window, entered } j z d :=
        fun d hd => reaches_push hd rfl rfl fun ha hwhat => absurd ⟨ha, hwhat⟩ hnew
      have hok := h.take j z htook
      refine hok.mono (fun _ hx => hx) le_rfl (fun _ _ => rfl) hok.landed hpush
        (fun k hk _ => ?_)
      rcases cleared_push (s := s) hk rfl rfl with hk | hk
      · exact .inl hk
      · obtain rfl : what = _ := hk
        exact .inr (hpush _ (hfits.2.1 j z htook rfl))
  keeps := h.keeps
  slotSteady := h.slotSteady
  returned j p hp := by
    obtain ⟨y, hy, htook⟩ := h.returned j p hp
    exact ⟨y, hy, took_push_of htook rfl rfl⟩

theorem Ledger.pushStake (h : Ledger lim w s) (hR : Records lim w s) {mine read issue : Nat}
    {window : Tid → Nat} (howner : s.owner mine = some i)
    (hfresh : w = .lease → ∀ k, ¬s.Staked mine k) : Ledger lim w { s with
      flying := s.flying ++ [⟨i, .stake mine read issue, none⟩]
      stakedAt := update s.stakedAt i issue
      window
      entered := update s.entered i none } := by
  refine h.push hfresh fun j val since hj => ?_
  by_cases hji : j = i
  · rw [hji, update_self] at hj
    cases hj
  rw [update_of_ne hji] at hj
  refine ⟨hj, update_of_ne hji _ _, fun r k hk => ?_⟩
  cases hk
  have := hR.entered_owner hj
  rw [howner] at this
  exact absurd (Option.some.inj this).symm hji

theorem Ledger.pushPlain (h : Ledger lim w s) (what : Payload) (due : Option Nat)
    (hplain : ∀ val r k, what ≠ .stake val r k) (hfits : what.Fits lim w s i due) :
    Ledger lim w { s with flying := s.flying ++ [⟨i, what, due⟩] } :=
  h.push hfits fun _ val _ hj => ⟨hj, rfl, hplain val⟩

theorem quiet_pushBound (s : State) (i : Tid) (bound : Nat) (due : Option Nat) :
    Quiet s { s with flying := s.flying ++ [⟨i, .bound bound, due⟩] } := { Quiet.refl s with
  flying := fun f hf hcounts => by
    rcases mem_pushed hf with hf | rfl
    · exact ⟨f, hf, rfl, rfl, fun _ hd => hd⟩
    · exact hcounts.elim
  air := fun g hg y hw => ⟨g, List.mem_append_left _ hg, rfl, hw⟩
  oneStake := fun h => oneStake_push h nofun }

/-- A guarded write, or the re-read that opens a run of them. -/
theorem Ledger.pushWrite (h : Ledger lim w s) (x : Write) (entered : Tid → Option (Nat × Nat))
    (hclear : ∀ k, s.Cleared x.val k → k < x.since)
    (hentered : w = .lease → lim.stallFrom = .fromStake → ∀ i val since,
      entered i = some (val, since) → s.entered i = some (val, since) ∨
      ∀ k, s.Staked val k → k = s.stakedAt i)
    (hpaced : w = .lease → lim.stallFrom = .fromStake → ∃ b, (x.author, b) ∈ s.bids ∧
      b.val = x.val ∧ x.time ≤ b.issue + lim.settle + lim.stall) :
    Ledger lim w { s with writes := x :: s.writes, entered } := { h with
  ended := fun y hy k hk hle => by
    rcases List.mem_cons.mp hy with rfl | hy
    · have := hclear k hk
      omega
    · exact h.ended y hy k hk hle
  nonce := fun hw hfrom => by
    have hn := h.nonce hw hfrom
    refine { hn with entered := fun i val since hin k hk => ?_, write := fun y hy => ?_ }
    · rcases hentered hw hfrom i val since hin with h1 | h1
      · exact hn.entered i val since h1 k hk
      · exact h1 k hk
    · rcases List.mem_cons.mp hy with rfl | hy
      · exact hpaced hw hfrom
      · exact hn.write y hy
  take := fun i y hy =>
    have hok := h.take i y hy
    hok.mono (fun _ hx => .tail _ hx) le_rfl (fun _ _ => rfl) hok.landed
      (fun _ hd => hd) (fun _ hk _ => .inl hk) }

/-! ### Stores land -/

/-- Two stakes in the air are of different values, so a picked one leaves none of
its value behind. -/
theorem oneStake_of_erase {l : List Store} (h : l.Pairwise OneStake) {n : Nat} {f g : Store}
    (hf : l[n]? = some f) (hg : g ∈ l.eraseIdx n) : OneStake f g := by
  have hsymm : ∀ {f g : Store}, OneStake f g → OneStake g f := by
    rintro f g hfg ⟨v, r, k, r', k', hf, hg⟩
    exact hfg ⟨v, r', k', r, k, hg, hf⟩
  exact pairwise_of_erase hsymm h hf hg

section Land

variable {n : Nat} {f : Store}

theorem mem_or_erased {l : List Store} (hf : l[n]? = some f) {g : Store} (hg : g ∈ l) :
    g = f ∨ g ∈ l.eraseIdx n := by
  obtain ⟨m, hm⟩ := List.mem_iff_getElem?.mp hg
  by_cases hmn : m = n
  · subst hmn
    rw [hf] at hm
    exact .inl (Option.some.inj hm).symm
  · exact .inr (List.mem_eraseIdx_iff_getElem?.mpr ⟨m, hmn, hm⟩)

variable {m : State} (c : Landed n f s m)

include c

theorem Landed.staked {val k : Nat} (h : (s.landing n m).Staked val k) : s.Staked val k := by
  rcases h with ⟨i, b, hb, rfl, rfl⟩ | ⟨g, hg, hrest⟩
  · rcases (c.bids i b).mp hb with hb | ⟨-, -, hwhat⟩
    · exact .inl ⟨i, b, hb, rfl, rfl⟩
    · exact .inr ⟨f, c.mem, b.read, hwhat⟩
  · exact .inr ⟨g, mem_air hg, hrest⟩

theorem Landed.cleared {val k : Nat} (h : (s.landing n m).Cleared val k) : s.Cleared val k := by
  rcases h with ⟨i, x, hx, rfl, rfl⟩ | ⟨g, hg, hw⟩
  · rcases (c.withdrawals i x).mp hx with hx | ⟨-, -, hwhat⟩
    · exact .inl ⟨i, x, hx, rfl, rfl⟩
    · exact .inr ⟨f, c.mem, hwhat⟩
  · exact .inr ⟨g, mem_air hg, hw⟩

theorem Landed.took_of (h : (s.landing n m).Took j y) : s.Took j y := by
  rcases h with ⟨l, hl⟩ | ⟨g, hg, hrest⟩
  · rcases (c.takes j y l).mp hl with hl | ⟨rfl, -, hwhat⟩
    · exact .inl ⟨l, hl⟩
    · exact .inr ⟨f, c.mem, rfl, hwhat⟩
  · exact .inr ⟨g, mem_air hg, hrest⟩

theorem Landed.took (h : s.Took j y) : (s.landing n m).Took j y := by
  rcases h with ⟨l, hl⟩ | ⟨g, hg, rfl, hw⟩
  · exact .inl ⟨l, (c.takes j y l).mpr (.inl hl)⟩
  · rcases mem_or_erased c.picked hg with rfl | hg
    · exact .inl ⟨s.now, (c.takes _ y _).mpr (.inr ⟨rfl, rfl, hw⟩)⟩
    · exact .inr ⟨g, hg, rfl, hw⟩

theorem Landed.reaches (hR : Records lim w s) {d : Nat} (h : s.Reaches j y d) :
    (s.landing n m).Reaches j y d := by
  refine ⟨fun l hl => ?_, fun g hg => h.2 g (mem_air hg)⟩
  rcases (c.takes j y l).mp hl with hl | ⟨rfl, rfl, hwhat⟩
  · exact h.1 l hl
  · obtain ⟨e, he, hle⟩ := h.2 f c.mem rfl hwhat
    exact Nat.le_trans (hR.due f c.mem e he) hle

theorem Nonces.land (hn : Nonces lim s) (hR : Records lim w s) : Nonces lim (s.landing n m) := by
  -- a bid on record stays on record
  have hmore : ∀ {j : Tid} {P : Bid Nat → Prop}, (∃ b, (j, b) ∈ s.bids ∧ P b) →
      ∃ b, (j, b) ∈ m.bids ∧ P b := fun ⟨b, hb, hP⟩ => ⟨b, (c.bids _ b).mpr (.inl hb), hP⟩
  refine {
    once := fun i b j b' hb hb' hv => ?_
    air := fun g hg v r k hw j b hb => ?_
    airOnce := hn.airOnce.sublist (List.eraseIdx_sublist _ _)
    entered := fun j v since hj k hk => hn.entered j v since hj k (c.staked hk)
    write := fun x hx => hmore (hn.write x hx)
    withdrawal := fun j x hx => hmore ?_
    clearAir := fun g hg v k hw => hmore (hn.clearAir g (mem_air hg) v k hw)
    take := fun j y hy => ?_ }
  · rcases (c.bids i b).mp hb with hb | ⟨-, hl, hwhat⟩ <;>
      rcases (c.bids j b').mp hb' with hb' | ⟨-, hl', hwhat'⟩
    · exact hn.once i b j b' hb hb' hv
    · exact absurd hv (hn.air f c.mem _ _ _ hwhat' i b hb)
    · exact absurd hv.symm (hn.air f c.mem _ _ _ hwhat j b' hb')
    · cases b
      cases b'
      cases hwhat.symm.trans hwhat'
      exact congrArg _ (hl.trans hl'.symm)
  · rcases (c.bids j b).mp hb with hb | ⟨-, -, hwhat⟩
    · exact hn.air g (mem_air hg) v r k hw j b hb
    · rintro rfl
      exact oneStake_of_erase hn.airOnce c.picked hg ⟨_, _, _, _, _, hwhat, hw⟩
  · rcases (c.withdrawals j x).mp hx with hx | ⟨rfl, hl, hwhat⟩
    · exact hn.withdrawal j x hx
    · obtain ⟨b, hb, hval, d, hd, hle⟩ := hn.clearAir f c.mem _ _ hwhat
      exact ⟨b, hb, hval, hl ▸ Nat.le_trans (hR.due f c.mem d hd) hle⟩
  · obtain ⟨b, hb, hval, hle⟩ := hn.take j y (c.took_of hy)
    exact hmore ⟨b, hb, hval, c.reaches hR hle⟩

/-- A landing is the last one at its slot. -/
theorem Landed.keeps (h : Ledger lim w s) : (s.landing n m).Keeps := by
  intro j z l hz r hr hother
  rcases (c.takes j z l).mp hz with hz | ⟨rfl, rfl, hwhat⟩
  · by_cases hhere : ∃ y, f.what = .slot y ∧ y.slot = z.slot ∧ s.now ≤ r
    · obtain ⟨y, hwhat, hslot, hnow⟩ := hhere
      by_cases hj : f.author = j
      · exact .inl (hj ▸ hslot ▸ c.slots_now y r hwhat hnow)
      · have hl := ((h.take j z (.inl ⟨l, hz⟩)).landed l hz).2
        have := hother f.author y s.now ((c.takes ..).mpr (.inr ⟨rfl, rfl, hwhat⟩)) hslot hj hl
        omega
    · have hpast : m.slots z.slot r = s.slots z.slot r := c.slots_past _ _ fun y hwhat hslot =>
        Nat.not_le.mp fun hnow => hhere ⟨y, hwhat, hslot, hnow⟩
      exact hpast ▸ h.keeps j z l hz r hr fun i u l' hu =>
        hother i u l' ((c.takes ..).mpr (.inl hu))
  · exact .inl (c.slots_now z r hwhat hr)

theorem Ledger.land (h : Ledger lim w s) (hR : Records lim w s) :
    Ledger lim w (s.landing n m) where
  ended x hx k hk := h.ended x hx k (c.cleared hk)
  nonce hw hfrom := (h.nonce hw hfrom).land c hR
  take j z hz := by
    have hread := c.read
    have hok := h.take j z (c.took_of hz)
    refine hok.mono (fun _ hx => hx) le_rfl (fun t ht => c.slots_past _ _ (by omega))
      (fun l hl => ?_) (fun _ hd => c.reaches hR hd) (fun k hk _ => .inl (c.cleared hk))
    rcases (c.takes j z l).mp hl with hl | ⟨-, rfl, -⟩
    · exact hok.landed l hl
    · exact ⟨Nat.lt_of_le_of_lt hok.read_le hread, le_rfl⟩
  keeps := c.keeps h
  slotSteady p t ht := by
    show m.slots p t = m.slots p s.now
    by_cases hhere : ∃ y, f.what = .slot y ∧ y.slot = p
    · obtain ⟨y, hwhat, rfl⟩ := hhere
      rw [c.slots_now y t hwhat ht, c.slots_now y s.now hwhat le_rfl]
    · have hpast (t : Nat) : m.slots p t = s.slots p t :=
        c.slots_past p t fun y hwhat hslot => absurd ⟨y, hwhat, hslot⟩ hhere
      rw [hpast t, hpast s.now, h.slotSteady p t ht]
  returned j p hp := by
    obtain ⟨y, hy, htook⟩ := h.returned j p hp
    exact ⟨y, hy, c.took htook⟩

end Land

/-! ### Leaves, crashes and answers -/

variable {x : Option Tid}

theorem State.setSlot_past (s : State) {p q t : Nat} (ht : t < s.now) :
    s.setSlot p x q t = s.slots q t := by
  refine if_neg fun h => ?_
  have := h.2
  omega

theorem State.setSlot_now (s : State) {p t : Nat} (ht : s.now ≤ t) :
    s.setSlot p x p t = x := if_pos ⟨rfl, ht⟩

theorem State.setSlot_ne (s : State) {p q t : Nat} (hq : q ≠ p) :
    s.setSlot p x q t = s.slots q t := if_neg fun h => hq h.1

theorem slotSteady_setSlot (h : ∀ p t, s.now ≤ t → s.slots p t = s.slots p s.now) {p : Nat}
    (q t : Nat) (ht : s.now ≤ t) : s.setSlot p x q t = s.setSlot p x q s.now := by
  by_cases hq : q = p
  · subst hq
    rw [s.setSlot_now ht, s.setSlot_now le_rfl]
  · rw [s.setSlot_ne hq, s.setSlot_ne hq]
    exact h q t ht

theorem Ledger.vacate (h : Ledger lim w s) {p : Nat} (hread : s.readAt < s.now)
    (hslot : s.slots p s.now = some j) (hgone : s.Gone j) :
    Ledger lim w { s with slots := s.setSlot p none } where
  ended := h.ended
  nonce hw hfrom := by
    have hn := h.nonce hw hfrom
    exact { hn with }
  take i y hy :=
    have hok := h.take i y hy
    hok.mono (fun _ hx => hx) le_rfl (fun t ht => s.setSlot_past (by omega)) hok.landed
      (fun _ hd => hd) (fun _ hk _ => .inl hk)
  keeps i y l hy r hr hother := by
    show s.setSlot p none y.slot r = some i ∨ s.Gone i
    rcases h.keeps i y l hy r hr hother with h1 | h1
    · by_cases hhere : y.slot = p ∧ s.now ≤ r
      · -- the occupant was the one that is gone
        rw [hhere.1, h.slotSteady p r hhere.2, hslot] at h1
        rw [← Option.some.inj h1]
        exact .inr hgone
      · rw [show s.setSlot p none y.slot r = s.slots y.slot r from if_neg hhere]
        exact .inl h1
    · exact .inr h1
  slotSteady := slotSteady_setSlot h.slotSteady
  returned := h.returned

theorem Ledger.answer (h : Ledger lim w s) {p : Nat} (hp : ∃ y, y.slot = p ∧ s.Took i y) :
    Ledger lim w { s with returned := update s.returned i (some p) } := { h with
  nonce := fun hw hfrom => by
    have hn := h.nonce hw hfrom
    exact { hn with }
  take := fun j y hy =>
    have hok := h.take j y hy
    hok.mono (fun _ hx => hx) le_rfl (fun _ _ => rfl) hok.landed (fun _ hd => hd)
      (fun _ hk _ => .inl hk)
  returned := fun j q hq => by
    replace hq : update s.returned i (some p) j = some q := hq
    by_cases hj : j = i
    · subst hj
      rw [update_self] at hq
      rw [← Option.some.inj hq]
      exact hp
    · rw [update_of_ne hj] at hq
      exact h.returned j q hq }

end Cme.Stake
