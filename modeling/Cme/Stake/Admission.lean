import Cme.Stake.Exclusion

/-!
# Stake — every live joiner has its own slot

Under the lease a value that has stood for the timeout is taken over. Each nonce is
staked once, so where a candidate's stalls are bounded from its stake on, all it
writes under that nonce has landed by then (`past_of_stood`). What is left is an
argument about one slot: a reservation lands before the next holder reads the slot,
and stays until its owner is gone (`occupied`), so no two live joiners return one
peer id (`slots_distinct`).

Bounded only from the confirmation on, as `config::lease::WriterStall` is defined,
stalls do not suffice: a joiner may sleep over its re-read until a watcher is about
to take its nonce, find it standing, and reserve beside the new holder
(`slot_shared`).
-/

namespace Cme.Stake

open Interleave

variable {lim : Limits} {s : State} {i j : Tid} {timeout : Nat}

/-- Two joiners reserve under nonces they found standing at different instants. -/
theorem take_since_ne (hR : Records lim .lease s) (hL : Ledger lim .lease s) {y z : Take}
    (hy : s.Took i y) (hz : s.Took j z) (hne : i ≠ j) : y.since ≠ z.since := by
  obtain ⟨x, hx, rfl, -, hxsince⟩ := (hL.take i y hy).confirmed
  obtain ⟨x', hx', rfl, -, hxsince'⟩ := (hL.take j z hz).confirmed
  rw [← hxsince, ← hxsince']
  exact (since_ne hR hx hx' hne).2

section Steal

variable (hfrom : lim.stallFrom = .fromStake) (htimeout : lim.stallTimeout = some timeout)
  (hsettle : lim.settle + lim.stall + lim.lag < timeout)
  (hhold : lim.lateHold + lim.stall + lim.lag < timeout)

include hfrom htimeout

/-- The stake of a nonce that stood its timeout is at least that old. -/
theorem stood (hR : Records lim .lease s) (hL : Ledger lim .lease s) {e read issue : Nat}
    (h : SpentAt lim .lease s e read issue) {b : Bid Nat} (hb : (i, b) ∈ s.bids)
    (hval : b.val = e) : b.land + timeout ≤ read := by
  rcases h with ⟨hw, -⟩ | ⟨timeout', t, htimeout', hword, hage⟩
  · cases hw
  rw [htimeout] at htimeout'
  cases htimeout'
  obtain ⟨k, c, hc, hcval, hland⟩ := hR.bid_of_word hword
  rw [(hL.nonce rfl hfrom).once i b k c hb hc (hval.trans hcval.symm)]
  omega

include hsettle hhold in
/-- A nonce that stood its timeout is past use. -/
theorem past_of_stood (hR : Records lim .lease s) (hL : Ledger lim .lease s) (e : Nat) (b : Bid Nat)
    (h : (history lim .lease s).spent e b) : (history lim .lease s).Past lim.pace e b := by
  have hn := hL.nonce rfl hfrom
  obtain ⟨⟨k, hb⟩, hspent⟩ := h
  have horder := (hR.bid k b hb).1.order
  have hold : ∀ {i c}, (i, c) ∈ s.bids → c.val = e → c.issue + timeout ≤ b.issue := by
    intro i c hc hval
    have := stood hfrom htimeout hR hL hspent hc hval
    have := (hR.bid i c hc).2.2.1
    omega
  refine ⟨fun c hc hval _ => ?_, fun x hx hval => ?_, fun k' hk => ?_⟩
  · obtain ⟨i, hc⟩ := mem_bids hc
    have := stood hfrom htimeout hR hL hspent hc hval
    show c.land + lim.stall ≤ b.issue
    omega
  · obtain ⟨i, hx⟩ := mem_withdrawals hx
    obtain ⟨c, hc, hcval, hle⟩ := hn.withdrawal i x hx
    have := hold hc (hcval.trans hval)
    omega
  · rcases hk with ⟨x, hx, hval, rfl⟩ | ⟨x, hx, hval, rfl⟩
    · obtain ⟨c, hc, hcval, hle⟩ := hn.write x hx
      have := hold hc (hcval.trans hval)
      have := (hR.write x hx).2.1
      omega
    · obtain ⟨i, hx⟩ := mem_withdrawals hx
      obtain ⟨c, hc, hcval, hle⟩ := hn.withdrawal i x hx
      have := hold hc (hcval.trans hval)
      have := (hR.withdrawal i x hx).2.1
      omega

include hsettle hhold

/-- A reservation takes effect before another joiner finds its nonce standing. -/
theorem reaches_before (hR : Records lim .lease s) (hL : Ledger lim .lease s) {y z : Take}
    (hy : s.Took i y) (hz : s.Took j z) (hne : i ≠ j) (hlt : y.since < z.since) :
    ∃ d, s.Reaches i y d ∧ d < z.since := by
  have hoky := hL.take i y hy
  obtain ⟨x, hx, rfl, hxval, hxsince⟩ := hoky.confirmed
  obtain ⟨x', hx', rfl, -, hxsince'⟩ := (hL.take j z hz).confirmed
  rcases between hR (past_of_stood hfrom htimeout hsettle hhold hR hL) hx hx' hne (by omega) with
    h1 | ⟨k, u, hu, hval, hcheck, hland⟩ | ⟨k, b, hb, -, hspent, hissue⟩
  · exact ⟨_, hoky.stall, by omega⟩
  · have hrelease := hoky.release u.check (Or.inl ⟨k, u, hu, hval.trans hxval, rfl⟩) (by omega)
    have := (hR.withdrawal k u hu).2.1
    exact ⟨_, hrelease, by omega⟩
  · obtain ⟨c, hc, hcval, hreach⟩ := (hL.nonce rfl hfrom).take _ y hy
    have := stood hfrom htimeout hR hL hspent hc (hcval.trans hxval.symm)
    have := (hR.bid _ c hc).2.2.1
    have := (hR.bid k b hb).1.order
    exact ⟨_, hreach, by omega⟩

/-- It has landed by then. -/
theorem landed_before (hR : Records lim .lease s) (hL : Ledger lim .lease s) {y z : Take}
    (hy : s.Took i y) (hz : s.Took j z) (hne : i ≠ j) (hlt : y.since < z.since) :
    (∃ l, (i, y, l) ∈ s.takes) ∧ ∀ l, (i, y, l) ∈ s.takes → l < z.since := by
  obtain ⟨d, hreach, hd⟩ := reaches_before hfrom htimeout hsettle hhold hR hL hy hz hne hlt
  refine ⟨?_, fun l hl => Nat.lt_of_le_of_lt (hreach.1 l hl) hd⟩
  rcases hy with hy | ⟨f, hf, ha, hw⟩
  · exact hy
  · -- nothing in the air is due before now
    have hokz := hL.take j z hz
    obtain ⟨e, he, hle⟩ := hreach.2 f hf ha hw
    have := hR.due f hf e he
    have := hokz.since_le
    have := hokz.read_le
    have := hR.readAt_le
    omega

/-- A landed reservation of a live joiner is in its slot from then on. -/
theorem occupied (hR : Records lim .lease s) (hL : Ledger lim .lease s) {y : Take} {l : Nat}
    (hy : (i, y, l) ∈ s.takes) (halive : ¬s.Gone i) {r : Nat} (hr : l ≤ r) :
    s.slots y.slot r = some i := by
  induction r using Nat.strongRecOn with
  | _ r ih =>
  have htook : s.Took i y := Or.inl ⟨l, hy⟩
  refine (hL.keeps i y l hy r hr fun j z l' hz hslot hne hle => ?_).resolve_right halive
  by_contra hlate
  have htook' : s.Took j z := Or.inl ⟨l', hz⟩
  have hoky := hL.take i y htook
  have hokz := hL.take j z htook'
  rcases Nat.lt_trichotomy z.since y.since with hlt | heq | hgt
  · -- an earlier holder's reservation landed before this one's author looked
    have := (landed_before hfrom htimeout hsettle hhold hR hL htook' htook hne hlt).2 l' hz
    have := hoky.since_le
    have := (hoky.landed l hy).1
    omega
  · exact take_since_ne hR hL htook' htook hne heq
  · -- a later holder found this reservation in the slot
    have hl := (landed_before hfrom htimeout hsettle hhold hR hL htook htook' hne.symm hgt).2 l hy
    have hread := hokz.since_le
    have hland := (hokz.landed l' hz).1
    have hfound := ih z.read (by omega) (by omega)
    rw [← hslot, hokz.free] at hfound
    cases hfound

end Steal

/-- **Every live joiner has its own slot.** Where a lease writer stalls at most
`WriterStall` in all from its stake to its last write under it, its scheduled settle
or hold apart, no two calls of `claimPeerSlot` by joiners that are live and have not
left return one peer id. -/
theorem slots_distinct {c : Config Tid Op Op.Ret State} (hlim : lim.Sound)
    (hfrom : lim.stallFrom = .fromStake) (htimeout : lim.stallTimeout = some timeout)
    (hsettle : lim.settle + lim.stall + lim.lag < timeout)
    (hhold : lim.lateHold + lim.stall + lim.lag < timeout)
    (h : (system lim .lease).Reachable (fresh .lease) c) (i j : Tid) (p : Nat)
    (hi : c.shared.returned i = some p) (hj : c.shared.returned j = some p)
    (hilive : c.shared.crashed i = none ∧ c.shared.left i = false)
    (hjlive : c.shared.crashed j = none ∧ c.shared.left j = false) : i = j := by
  obtain ⟨hR, hL⟩ := inv_reachable hlim h
  by_contra hne
  have hstays : ∀ {i}, c.shared.crashed i = none ∧ c.shared.left i = false → ¬c.shared.Gone i := by
    rintro i ⟨hc, hl⟩ (hgone | hgone)
    · rw [hl] at hgone
      cases hgone
    · rw [hc] at hgone
      cases hgone
  -- the later of the two found the earlier one's reservation
  have key : ∀ {i j y z}, i ≠ j → c.shared.Took i y → c.shared.Took j z → y.slot = z.slot →
      ¬c.shared.Gone i → ¬y.since < z.since := by
    intro i j y z hne hy hz hslot halive hlt
    obtain ⟨⟨l, hl⟩, hbefore⟩ := landed_before hfrom htimeout hsettle hhold hR hL hy hz hne hlt
    have hokz := hL.take j z hz
    have hin := occupied hfrom htimeout hsettle hhold hR hL hl halive (r := z.read)
      (by have := hbefore l hl; have := hokz.since_le; omega)
    rw [hslot, hokz.free] at hin
    cases hin
  obtain ⟨y, hy, htooki⟩ := hL.returned i p hi
  obtain ⟨z, hz, htookj⟩ := hL.returned j p hj
  rcases Nat.lt_trichotomy y.since z.since with hlt | heq | hgt
  · exact key hne htooki htookj (hy.trans hz.symm) (hstays hilive) hlt
  · exact take_since_ne hR hL htooki htookj hne heq
  · exact key (Ne.symm hne) htookj htooki (hz.trans hy.symm) (hstays hjlive) hgt

theorem slots_distinct_joinInTurn :
    ∃ c, (system (milliseconds (some 200) .fromStake) .lease).Reachable (fresh .lease) c ∧
      c.shared.returned 0 = some 0 ∧ c.shared.returned 1 = some 1 ∧
      ¬(c.shared.returned 1 = some 0) := by
  obtain ⟨c, hc, hi, hj, hilive, hjlive⟩ := System.exists_of_run
    (system (milliseconds (some 200) .fromStake) .lease) (fresh .lease) joinInTurn
    (P := fun c => c.shared.returned 0 = some 0 ∧ c.shared.returned 1 = some 1 ∧
      (c.shared.crashed 0 = none ∧ c.shared.left 0 = false) ∧
      c.shared.crashed 1 = none ∧ c.shared.left 1 = false) (by decide +kernel)
  refine ⟨c, hc, hi, hj, fun hj' => ?_⟩
  exact absurd (slots_distinct ⟨by decide, by decide, fun _ hb => by cases hb⟩ rfl rfl (by decide)
    (by decide) hc 0 1 0 hi hj' hilive hjlive) (by decide)

/-! ### A sleep before the confirmation -/

/-- Joiner 0 stakes at 1 and sleeps. Joiner 1 watches its nonce from 3 on and takes
the lease over at 203; joiner 0 re-reads at 204, before the new nonce lands. -/
def sleepsOver : List (Action Tid Choice Call Env) :=
  [.env (.advance 1), .start 0 .claimPeerSlot] ++ steps 0 2 ++ [.exec 0 (.nat 2)] ++ steps 0 3 ++
  stakes 0 10 ++ lands 2 ++
  [.env (.advance 3), .start 1 .claimPeerSlot] ++ steps 1 2 ++ [.exec 1 (.nat 3)] ++ steps 1 4 ++
  .env (.advance 203) :: steps 1 6 ++ stakes 1 11 ++
  .env (.advance 204) :: steps 0 5 ++ lands 205 ++
  .env (.advance 208) :: steps 1 7 ++ steps 0 8 ++ steps 1 8

/-- **Two live joiners return one slot**, though each holder writes within
`WriterStall` of its confirmation. -/
theorem slot_shared :
    ∃ lim : Limits, ∃ timeout, lim.Sound ∧ lim.stallFrom = .fromCheck (some lim.stall) ∧
      lim.stallTimeout = some timeout ∧ lim.settle + lim.stall + lim.lag < timeout ∧
      lim.lateHold + lim.stall + lim.lag < timeout ∧
      ∃ c, (system lim .lease).Reachable (fresh .lease) c ∧
        c.shared.returned 0 = some 0 ∧ c.shared.returned 1 = some 0 ∧
        (c.shared.crashed 0 = none ∧ c.shared.left 0 = false) ∧
        c.shared.crashed 1 = none ∧ c.shared.left 1 = false := by
  refine ⟨milliseconds (some 200) (.fromCheck (some 50)), 200, ⟨by decide, by decide, ?_⟩, rfl, rfl,
    by decide, by decide, System.exists_of_run _ _ sleepsOver (by decide +kernel)⟩
  rintro _ ⟨⟩
  exact ⟨50, rfl, by decide⟩

end Cme.Stake
