import Cme.Stake.Spec

/-!
# Stake — one executor at a time

The history of the claim word obeys the law of a timed last-writer-wins word
(`lawful_history`), so what `Interleave.WordHistory.apart` says of such a word holds
of the claim: two candidates' runs of guarded writes never overlap
(`executors_apart`), and none is made on a stake that was published late.

It takes two bounds beside the ones `config.hpp` states. The clear of a late stake
is flushed within the stall of the check before it: two late stakers that stall
there for longer open the word twice under one settled holder
(`withdrawals_overlap`). And a crashed candidate's value is not taken for free
before the stall and the lag have passed.
-/

namespace Cme.Stake

open Interleave

variable {lim : Limits} {w : Word} {s : State}

/-! ### The history of the word -/

/-- What the records tell of the word. -/
def history (lim : Limits) (w : Word) (s : State) : WordHistory Nat where
  word := s.word
  bids := s.bids.map Prod.snd
  withdrawals := s.withdrawals.map Prod.snd
  confirmed val k := ∃ x ∈ s.writes, x.val = val ∧ x.since = k
  spent e b := (∃ i, (i, b) ∈ s.bids) ∧ SpentAt lim w s e b.read b.issue

theorem check_of_checked {val k : Nat} (h : (history lim w s).Checked val k) : Check s val k := by
  rcases h with ⟨x, hx, h1, h2⟩ | ⟨x, hx, h1, h2⟩
  · exact .write x hx h1 h2
  · obtain ⟨⟨i, y⟩, hy, rfl⟩ := List.mem_map.mp hx
    exact .landed i y hy h1 h2

theorem mem_bids {b : Bid Nat} (h : b ∈ (history lim w s).bids) : ∃ i, (i, b) ∈ s.bids := by
  obtain ⟨⟨i, b⟩, hb, rfl⟩ := List.mem_map.mp h
  exact ⟨i, hb⟩

theorem mem_withdrawals {x : Withdrawal Nat} (h : x ∈ (history lim w s).withdrawals) :
    ∃ i, (i, x) ∈ s.withdrawals := by
  obtain ⟨⟨i, x⟩, hx, rfl⟩ := List.mem_map.mp h
  exact ⟨i, hx⟩

/-- The records make a lawful history, where whoever a stake was made over was past
using its value. -/
theorem lawful_history (hR : Records lim w s)
    (hpast : ∀ e b, (history lim w s).spent e b → (history lim w s).Past lim.pace e b) :
    (history lim w s).Lawful lim.pace where
  changed t₁ t₂ ht hne := by
    rcases hR.changed t₁ t₂ ht hne with ⟨i, b, hb, hrest⟩ | ⟨hnone, i, x, hx, hrest⟩
    · exact .inl ⟨b, List.mem_map.mpr ⟨(i, b), hb, rfl⟩, hrest⟩
    · exact .inr ⟨hnone, x, List.mem_map.mpr ⟨(i, x), hx, rfl⟩, hrest⟩
  taken b hb := by
    obtain ⟨i, hb⟩ := mem_bids hb
    rcases (hR.bid i b hb).1.taken with h1 | h1 | ⟨e, h1, h2⟩
    · exact .inl h1
    · exact .inr (.inl h1)
    · exact .inr (.inr ⟨e, h1, ⟨i, hb⟩, h2⟩)
  past := hpast
  read_lt_land b hb := by
    obtain ⟨i, hb⟩ := mem_bids hb
    exact (hR.bid i b hb).2.1
  issue_le_land b hb := by
    obtain ⟨i, hb⟩ := mem_bids hb
    exact (hR.bid i b hb).2.2.1
  stands v k hk := (hR.check v k (check_of_checked hk)).stands
  aged v k hk b hb hval hle := by
    obtain ⟨i, hb⟩ := mem_bids hb
    exact (hR.check v k (check_of_checked hk)).aged i b hb hval hle
  settled v k hk b hb hval hle := by
    obtain ⟨x, hx, rfl, rfl⟩ := hk
    obtain ⟨i, hb⟩ := mem_bids hb
    exact (hR.write x hx).2.2.2.2.2 i b hb hval hle
  within x hx := by
    obtain ⟨i, hx⟩ := mem_withdrawals hx
    exact (hR.withdrawal i x hx).2.2.1
  check_lt_land x hx := by
    obtain ⟨i, hx⟩ := mem_withdrawals hx
    exact (hR.withdrawal i x hx).2.1
  own_landed v k hk x hx hval hlt := by
    obtain ⟨i, hx⟩ := mem_withdrawals hx
    exact (hR.check v k (check_of_checked hk)).landed i x hx hval hlt
  once x hx y hy hval hcheck := by
    obtain ⟨i, hx⟩ := mem_withdrawals hx
    obtain ⟨j, hy⟩ := mem_withdrawals hy
    exact hR.once i x j y hx hy hval hcheck

variable {x y : Write}

section

variable (hR : Records lim w s)

include hR

theorem since_ne (hx : x ∈ s.writes) (hy : y ∈ s.writes) (hne : x.author ≠ y.author) :
    x.val ≠ y.val ∧ x.since ≠ y.since := by
  have hval : x.val ≠ y.val := by
    intro heq
    have hxo := (hR.write x hx).1
    rw [heq, (hR.write y hy).1] at hxo
    exact hne (Option.some.inj hxo).symm
  refine ⟨hval, fun heq => ?_⟩
  have hxs := (hR.check x.val x.since (.write x hx rfl rfl)).stands
  rw [heq, (hR.check y.val y.since (.write y hy rfl rfl)).stands] at hxs
  exact hval (Option.some.inj hxs).symm

/-- What came between the re-reads of two authors. -/
theorem between (hpast : ∀ e b, (history lim w s).spent e b → (history lim w s).Past lim.pace e b)
    (hx : x ∈ s.writes) (hy : y ∈ s.writes) (hne : x.author ≠ y.author) (hlt : x.since < y.since) :
    x.since + lim.stall + lim.lag < y.since ∨
    (∃ i z, (i, z) ∈ s.withdrawals ∧ z.val = x.val ∧ x.since ≤ z.check ∧
      z.land + lim.lag ≤ y.since) ∨
    ∃ i b, (i, b) ∈ s.bids ∧ s.word b.read = some x.val ∧ SpentAt lim w s x.val b.read b.issue ∧
      b.issue + lim.lag ≤ y.since := by
  have H := lawful_history hR hpast
  rcases H.apart ⟨x, hx, rfl, rfl⟩ (.inl ⟨y, hy, rfl, rfl⟩) (since_ne hR hx hy hne).1 hlt with
    h1 | ⟨z, hz, hval, hcheck, hland⟩ | ⟨b, -, hword, ⟨⟨i, hb⟩, hspent⟩, -, hissue⟩
  · exact .inl h1
  · obtain ⟨i, hz⟩ := mem_withdrawals hz
    exact .inr (.inl ⟨i, z, hz, hval, hcheck, hland⟩)
  · exact .inr (.inr ⟨i, b, hb, hword, hspent, hissue⟩)

/-! ### Schedules -/

/-- The candidate reads the word and is about to stake. -/
def looks (i : Tid) : List (Action Tid Choice Call Env) := .start i (.serve 2) :: steps i 3

/-- It stakes and flushes. -/
def stakes (i : Tid) (nonce : Nat) : List (Action Tid Choice Call Env) :=
  .exec i (.nat nonce) :: steps i 4

/-- The one store in the air lands at `t`. -/
def lands (t : Nat) : List (Action Tid Choice Call Env) := [.env (.advance t), .env (.land 0)]

/-- A candidate whose settle or hold is over reads the word at `t`. -/
def rereads (i : Tid) (t : Nat) : List (Action Tid Choice Call Env) :=
  .env (.advance t) :: steps i 2

/-- It won, and starts to write. -/
def enters (i : Tid) : List (Action Tid Choice Call Env) := .exec i (.nat 1) :: steps i 1

/-- A joiner claims a slot: its nonce lands at `t + 1`, its settle ends at `t + 5`,
its stores land at `t + 6`. Two slots to look at. -/
def joins (i : Tid) (nonce t reads : Nat) : List (Action Tid Choice Call Env) :=
  [.env (.advance t), .start i .claimPeerSlot] ++ steps i 2 ++ [.exec i (.nat 2)] ++ steps i 3 ++
  [.exec i (.nat nonce)] ++ steps i 4 ++ [.env (.advance (t + 1)), .env (.land 0),
    .env (.advance (t + 5))] ++ steps i reads ++
  [.env (.advance (t + 6)), .env (.land 0), .env (.land 0), .env (.land 0)] ++ steps i 1

/-- Two joiners, one after the other. -/
def joinInTurn : List (Action Tid Choice Call Env) := joins 0 10 1 14 ++ joins 1 11 10 14

/-- The constants of `config.hpp`, in milliseconds, for two peers. -/
def milliseconds (stallTimeout : Option Nat) (stallFrom : Stall) : Limits where
  window := 1
  lag := 2
  settle := 5
  lateHold := 54
  stallTimeout := stallTimeout
  acquireDeadline := 5000
  maxPeers := 2
  stall := 50
  stallFrom := stallFrom
  failAge := 1000

/-! ### Without a steal -/

/-- A candidate that has failed is past using its value. -/
theorem past_of_failed (hsteal : lim.stallTimeout = none)
    (hfail : lim.stall + lim.lag ≤ lim.failAge) (e : Nat) (b : Bid Nat)
    (h : (history lim w s).spent e b) : (history lim w s).Past lim.pace e b := by
  rcases h.2 with ⟨hw, t, ht, hage⟩ | ⟨timeout, -, htimeout, -⟩
  swap
  · rw [hsteal] at htimeout
    cases htimeout
  have hc := hR.crash e t ht
  -- a peer's value is its own id
  have hmine : ∀ {i}, s.owner e = some i → i = e := by
    intro i hi
    rw [hR.peers hw e] at hi
    exact (Option.some.inj hi).symm
  refine ⟨fun c hcb hval _ => ?_, fun x hx hval => ?_, fun k hk => ?_⟩
  · obtain ⟨i, hcb⟩ := mem_bids hcb
    obtain rfl := hmine (hval ▸ (hR.bid i c hcb).1.owner)
    have := hc.bid c hcb
    show c.land + lim.stall ≤ b.issue
    omega
  · obtain ⟨i, hx⟩ := mem_withdrawals hx
    obtain rfl := hmine (hval ▸ (hR.withdrawal i x hx).1)
    have := (hc.withdrawal x hx).1
    omega
  · rcases hk with ⟨x, hx, hval, rfl⟩ | ⟨x, hx, hval, rfl⟩
    · have := hc.write x hx (hmine (hval ▸ (hR.write x hx).1))
      omega
    · obtain ⟨i, hx⟩ := mem_withdrawals hx
      obtain rfl := hmine (hval ▸ (hR.withdrawal i x hx).1)
      have := (hc.withdrawal x hx).2
      omega

/-- A live author has made its writes before another finds its value standing. -/
theorem written_before (hL : Ledger lim w s) (hsteal : lim.stallTimeout = none)
    (hfail : lim.stall + lim.lag ≤ lim.failAge) (hx : x ∈ s.writes) (hy : y ∈ s.writes)
    (hne : x.author ≠ y.author) (halive : s.crashed x.author = none) (hlt : x.since < y.since) :
    x.time < y.since := by
  obtain ⟨howner, -, hstall, -⟩ := hR.write x hx
  rcases between hR (past_of_failed hR hsteal hfail) hx hy hne hlt with
    h1 | ⟨i, z, hz, hval, hcheck, hland⟩ | ⟨i, b, -, -, hspent, -⟩
  · omega
  · have := hL.ended x hx z.check (.inl ⟨i, z, hz, hval, rfl⟩) hcheck
    have := (hR.withdrawal i z hz).2.1
    omega
  · rcases hspent with ⟨hw, t, ht, -⟩ | ⟨timeout, -, htimeout, -⟩
    · rw [hR.peers hw x.val] at howner
      rw [Option.some.inj howner, halive] at ht
      cases ht
    · rw [hsteal] at htimeout
      cases htimeout

end

/-- **One executor at a time.** Without a steal, the runs of guarded writes of two
live candidates never overlap, and no write is made on a stake whose publish ended
after its window. -/
theorem executors_apart {c : Config Tid Op Op.Ret State} (hlim : lim.Sound)
    (hsteal : lim.stallTimeout = none) (hfail : lim.stall + lim.lag ≤ lim.failAge)
    (h : (system lim w).Reachable (fresh w) c) :
    (∀ x ∈ c.shared.writes, ∀ y ∈ c.shared.writes, x.author ≠ y.author →
      c.shared.crashed x.author = none → c.shared.crashed y.author = none →
      x.time < y.since ∨ y.time < x.since) ∧
    ∀ x ∈ c.shared.writes, x.published < x.window := by
  obtain ⟨hR, hL⟩ := inv_reachable hlim h
  refine ⟨fun x hx y hy hne hxa hya => ?_, fun x hx => (hR.write x hx).2.2.2.2.1⟩
  rcases Nat.lt_trichotomy x.since y.since with hlt | heq | hgt
  · exact .inl (written_before hR hL hsteal hfail hx hy hne hxa hlt)
  · exact absurd heq (since_ne hR hx hy hne).2
  · exact .inr (written_before hR hL hsteal hfail hy hx hne.symm hya hgt)

theorem executors_apart_joinInTurn :
    ∃ c, (system (milliseconds none (.fromCheck (some 50))) .lease).Reachable (fresh .lease) c ∧
      ∃ x ∈ c.shared.writes, ∃ y ∈ c.shared.writes, x.author ≠ y.author ∧
        x.time < y.since ∧ x.published < x.window := by
  obtain ⟨c, hc, hx, hy, hxa, hya⟩ := System.exists_of_run
    (system (milliseconds none (.fromCheck (some 50))) .lease) (fresh .lease) joinInTurn
    (P := fun c => (⟨0, 10, 6, 6, 2, 1⟩ : Write) ∈ c.shared.writes ∧
      (⟨1, 11, 15, 15, 11, 10⟩ : Write) ∈ c.shared.writes ∧
      c.shared.crashed 0 = none ∧ c.shared.crashed 1 = none) (by decide +kernel)
  have hlim : (milliseconds none (.fromCheck (some 50))).Sound :=
    ⟨by decide, by decide, fun bound hb => by cases hb; exact ⟨50, rfl, by decide⟩⟩
  obtain ⟨hapart, htimely⟩ := executors_apart hlim rfl (by decide) hc
  refine ⟨c, hc, _, hx, _, hy, by decide, ?_, htimely _ hx⟩
  rcases hapart _ hx _ hy (by decide) hxa hya with h | h
  · exact h
  · exact absurd h (by decide)

/-- Two late stakers, 0 and 1, that stall between the check and the clear. Candidate
2 wins after the first clear, and candidate 3 after the second. -/
def lateClears : List (Action Tid Choice Call Env) :=
  .env (.advance 1) :: looks 0 ++ looks 1 ++
  .env (.advance 10) :: stakes 0 10 ++ .env (.land 0) :: rereads 0 64 ++
  .env (.advance 70) :: stakes 1 11 ++ .env (.land 0) :: rereads 1 124 ++
  .env (.advance 130) :: steps 0 2 ++ .env (.land 0) ::
  .env (.advance 131) :: looks 2 ++ stakes 2 12 ++ lands 132 ++ rereads 2 136 ++ enters 2 ++
  .env (.advance 137) :: steps 1 2 ++ .env (.land 0) ::
  .env (.advance 138) :: looks 3 ++ stakes 3 13 ++ lands 139 ++ rereads 3 143 ++ enters 3 ++
  .env (.advance 150) :: .exec 2 (.nat 1) :: steps 2 1

/-- **Late clears open the word under a holder.** With no bound on the time from a
late staker's check to its clear, two live winners write at once. -/
theorem withdrawals_overlap : ∃ lim : Limits, lim.window + 2 * lim.lag ≤ lim.settle ∧
      lim.stall + 2 * lim.lag ≤ lim.lateHold ∧ lim.stallTimeout = none ∧
      lim.stallFrom = .fromCheck none ∧
      ∃ c, (system lim .lease).Reachable (fresh .lease) c ∧
        ∃ x ∈ c.shared.writes, ∃ y ∈ c.shared.writes, x.author ≠ y.author ∧
          c.shared.crashed x.author = none ∧ c.shared.crashed y.author = none ∧
          x.since < y.since ∧ y.since < x.time := by
  obtain ⟨c, hc, hx, hy, hxa, hya⟩ := System.exists_of_run
    (system (milliseconds none (.fromCheck none)) .lease) (fresh .lease) lateClears
    (P := fun c => (⟨2, 12, 136, 150, 132, 131⟩ : Write) ∈ c.shared.writes ∧
      (⟨3, 13, 143, 143, 139, 138⟩ : Write) ∈ c.shared.writes ∧
      c.shared.crashed 2 = none ∧ c.shared.crashed 3 = none) (by decide +kernel)
  exact ⟨milliseconds none (.fromCheck none), by decide, by decide, rfl, rfl, c, hc, _, hx, _, hy,
    by decide, hxa, hya, by decide, by decide⟩

end Cme.Stake
