import Cme.Interleave.Outline
import Cme.Stake.Claim

/-!
# Stake — the invariant

Three layers. `Records` is about what has been written down: every store in the air
and every landed one, and every check, obeys what `WordHistory.Lawful` asks of the
history. `Ledger` is about what was done under the values: guarded writes, and the
member slots reserved. `Facts` is what a candidate knows of its own stores at a point of the
procedure: when its window opened, when its stake was flushed, when its settle or
its hold ends.

The point of `Facts` is one implication. A candidate that reads at or after the end
of its settle or hold has no store in the air, and all its stakes landed long
enough before; so what it finds standing it may use (`Stage.settled`) or clear
(`Stage.checked`).
-/

namespace Cme.Stake

open Interleave

variable {lim : Limits} {w : Word} {s s' : State} {i j : Tid}

def Limits.pace (lim : Limits) : Pace := ⟨lim.window, lim.lag, lim.stall⟩

/-- The inequalities of `config.hpp` the procedure rests on, and a bound on the
withdrawals. -/
structure Limits.Sound (lim : Limits) : Prop where
  settle : lim.window + 2 * lim.lag ≤ lim.settle
  lateHold : lim.stall + 2 * lim.lag ≤ lim.lateHold
  withdrawal : ∀ bound, lim.stallFrom = .fromCheck bound → ∃ t, bound = some t ∧ t ≤ lim.stall

/-! ### Stores and checks -/

/-- The store is due by `d`. -/
def Store.Within (f : Store) (d : Nat) : Prop := ∃ e, f.due = some e ∧ e ≤ d

/-- A stake that counted, or one that has been down for a stall and a lag. -/
def Old (lim : Limits) (b : Bid Nat) (t : Nat) : Prop :=
  b.land ≤ b.read + lim.window + lim.lag ∨ b.land + lim.stall + lim.lag ≤ t

theorem Old.mono {b : Bid Nat} {t t' : Nat} (h : Old lim b t) (ht : t ≤ t') : Old lim b t' := by
  rcases h with h | h
  · exact Or.inl h
  · exact Or.inr (by omega)

/-- Why a value of another candidate was taken for free: its author has failed, or
it stood its whole timeout. -/
def SpentAt (lim : Limits) (w : Word) (s : State) (e read issue : Nat) : Prop :=
  (w = .recovery ∧ ∃ t, s.crashed e = some t ∧ t + lim.failAge ≤ issue) ∨
  ∃ timeout t, lim.stallTimeout = some timeout ∧ s.word t = some e ∧ t + timeout ≤ read

/-- A stake was made on a word that could be taken. -/
structure StakeOk (lim : Limits) (w : Word) (s : State) (i : Tid) (val read issue : Nat) :
    Prop where
  owner : s.owner val = some i
  valid : w = .recovery → val < lim.maxPeers
  read_le : read ≤ s.readAt
  order : read ≤ issue
  issued : issue ≤ s.now
  taken : s.word read = none ∨ s.word read = some val ∨
    ∃ e, s.word read = some e ∧ SpentAt lim w s e read issue

/-- `val` was staked at `issue`. -/
def State.Staked (s : State) (val issue : Nat) : Prop :=
  (∃ i b, (i, b) ∈ s.bids ∧ b.val = val ∧ b.issue = issue) ∨
  ∃ f ∈ s.flying, ∃ read, f.what = .stake val read issue

/-- `val` was withdrawn after a check at `k`. -/
def State.Cleared (s : State) (val k : Nat) : Prop :=
  (∃ i x, (i, x) ∈ s.withdrawals ∧ x.val = val ∧ x.check = k) ∨
  ∃ f ∈ s.flying, f.what = .clear val k

/-- Candidate `i` reserved a slot. -/
def State.Took (s : State) (i : Tid) (y : Take) : Prop :=
  (∃ l, (i, y, l) ∈ s.takes) ∨ ∃ f ∈ s.flying, f.author = i ∧ f.what = .slot y

/-- Its reservation takes effect by `d`. -/
def State.Reaches (s : State) (i : Tid) (y : Take) (d : Nat) : Prop :=
  (∀ l, (i, y, l) ∈ s.takes → l ≤ d) ∧
  ∀ f ∈ s.flying, f.author = i → f.what = .slot y → f.Within d

/-- Candidate `i` is no longer a live member. -/
def State.Gone (s : State) (i : Tid) : Prop := s.left i = true ∨ (s.crashed i).isSome = true

/-- The author of `val` found it standing at `k` and went on to act on it. -/
inductive Check (s : State) (val k : Nat) : Prop where
  | write (x : Write) (hx : x ∈ s.writes) (hval : x.val = val) (hsince : x.since = k)
  | landed (i : Tid) (x : Withdrawal Nat) (hx : (i, x) ∈ s.withdrawals) (hval : x.val = val)
      (hcheck : x.check = k)
  | flying (f : Store) (hf : f ∈ s.flying) (hwhat : f.what = .clear val k)

/-- What such a check is worth. -/
structure CheckOk (lim : Limits) (s : State) (val k : Nat) : Prop where
  stands : s.word k = some val
  read_le : k ≤ s.readAt
  aged : ∀ i b, (i, b) ∈ s.bids → b.val = val → b.land ≤ k → WordHistory.Aged lim.pace b k
  later : ∀ f ∈ s.flying, ∀ k', f.what = .clear val k' → k ≤ k'
  landed : ∀ i x, (i, x) ∈ s.withdrawals → x.val = val → x.check < k → x.land ≤ k
  /-- Its author has read nothing earlier since. -/
  lastRead : ∀ i, s.owner val = some i → k ≤ s.lastRead i

/-- A crashed candidate's stores are down a lag after the crash, and it checks no
more. -/
structure CrashOk (lim : Limits) (s : State) (i : Tid) (t : Nat) : Prop where
  past : t ≤ s.now
  flying : ∀ f ∈ s.flying, f.author = i → f.Within (t + lim.lag)
  clear : ∀ f ∈ s.flying, f.author = i → ∀ val k, f.what = .clear val k → k ≤ t
  bid : ∀ b, (i, b) ∈ s.bids → b.land ≤ t + lim.lag
  withdrawal : ∀ x, (i, x) ∈ s.withdrawals → x.land ≤ t + lim.lag ∧ x.check ≤ t
  write : ∀ x ∈ s.writes, x.author = i → x.since ≤ t

/-- A store in the air is the only withdrawal of its author. -/
def OneClear (f g : Store) : Prop :=
  ¬∃ v k v' k', f.author = g.author ∧ f.what = .clear v k ∧ g.what = .clear v' k'

structure Records (lim : Limits) (w : Word) (s : State) : Prop where
  magic : s.magic = true
  peers : w = .recovery → ∀ v, s.owner v = some v
  readAt_le : s.readAt ≤ s.now
  lastRead_le : ∀ i, s.lastRead i ≤ s.readAt
  due : ∀ f ∈ s.flying, ∀ d, f.due = some d → s.now ≤ d
  unclaimed : s.word 0 = none
  steady : ∀ t, s.now ≤ t → s.word t = s.word s.now
  changed : ∀ t₁ t₂, t₁ ≤ t₂ → s.word t₁ ≠ s.word t₂ →
    (∃ i b, (i, b) ∈ s.bids ∧ s.word t₂ = some b.val ∧ t₁ < b.land ∧ b.land ≤ t₂) ∨
    (s.word t₂ = none ∧ ∃ i x, (i, x) ∈ s.withdrawals ∧ t₁ < x.land ∧ x.land ≤ t₂)
  stakeAir : ∀ f ∈ s.flying, ∀ val read issue, f.what = .stake val read issue →
    StakeOk lim w s f.author val read issue
  bid : ∀ i b, (i, b) ∈ s.bids → StakeOk lim w s i b.val b.read b.issue ∧
    b.read < b.land ∧ b.issue ≤ b.land ∧ b.land ≤ s.now
  clearAir : ∀ f ∈ s.flying, ∀ val k, f.what = .clear val k → s.owner val = some f.author ∧
    f.Within (k + lim.stall + lim.lag) ∧
    ∀ i x, (i, x) ∈ s.withdrawals → x.val = val → x.check < k
  withdrawal : ∀ i x, (i, x) ∈ s.withdrawals → s.owner x.val = some i ∧
    x.check < x.land ∧ x.land ≤ x.check + lim.stall + lim.lag ∧ x.land ≤ s.now
  oneClear : s.flying.Pairwise OneClear
  once : ∀ i x j y, (i, x) ∈ s.withdrawals → (j, y) ∈ s.withdrawals → x.val = y.val →
    x.check = y.check → x.land = y.land
  write : ∀ x ∈ s.writes, s.owner x.val = some x.author ∧ x.since ≤ x.time ∧
    x.time ≤ x.since + lim.stall ∧ x.time ≤ s.now ∧ x.published < x.window ∧
    ∀ i b, (i, b) ∈ s.bids → b.val = x.val → b.land ≤ x.since →
      b.land + lim.window + lim.lag ≤ x.since
  check : ∀ val k, Check s val k → CheckOk lim s val k
  crash : ∀ i t, s.crashed i = some t → CrashOk lim s i t
  entered : ∀ i val since, s.entered i = some (val, since) →
    ∃ x ∈ s.writes, x.author = i ∧ x.val = val ∧ x.since = since ∧ x.time = since
  unstarted : ∀ i, s.started i = false → (∀ b, (i, b) ∉ s.bids) ∧
    (∀ f ∈ s.flying, f.author ≠ i) ∧ s.entered i = none

/-! ### What is done under a value -/

/-- Of two stakes in the air no two are of one value. -/
def OneStake (f g : Store) : Prop :=
  ¬∃ v r k r' k', f.what = .stake v r k ∧ g.what = .stake v r' k'

/-- A nonce is staked once, so what its author does under it is bounded from that
stake on. -/
structure Nonces (lim : Limits) (s : State) : Prop where
  once : ∀ i b j c, (i, b) ∈ s.bids → (j, c) ∈ s.bids → b.val = c.val → b = c
  air : ∀ f ∈ s.flying, ∀ val read issue, f.what = .stake val read issue →
    ∀ i b, (i, b) ∈ s.bids → b.val ≠ val
  airOnce : s.flying.Pairwise OneStake
  entered : ∀ i val since, s.entered i = some (val, since) → ∀ k, s.Staked val k →
    k = s.stakedAt i
  write : ∀ x ∈ s.writes, ∃ b, (x.author, b) ∈ s.bids ∧ b.val = x.val ∧
    x.time ≤ b.issue + lim.settle + lim.stall
  withdrawal : ∀ i x, (i, x) ∈ s.withdrawals → ∃ b, (i, b) ∈ s.bids ∧ b.val = x.val ∧
    x.land ≤ b.issue + max lim.settle lim.lateHold + lim.stall + lim.lag
  clearAir : ∀ f ∈ s.flying, ∀ val k, f.what = .clear val k → ∃ b, (f.author, b) ∈ s.bids ∧
    b.val = val ∧ f.Within (b.issue + max lim.settle lim.lateHold + lim.stall + lim.lag)
  take : ∀ i y, s.Took i y → ∃ b, (i, b) ∈ s.bids ∧ b.val = y.val ∧
    s.Reaches i y (b.issue + lim.settle + lim.stall + lim.lag)

/-- A reservation is made by a holder, of a slot it found free, and takes effect
before its author's release does. -/
structure TakeOk (lim : Limits) (s : State) (i : Tid) (y : Take) : Prop where
  confirmed : ∃ x ∈ s.writes, x.author = i ∧ x.val = y.val ∧ x.since = y.since
  since_le : y.since ≤ y.read
  read_le : y.read ≤ s.readAt
  free : s.slots y.slot y.read = none
  landed : ∀ l, (i, y, l) ∈ s.takes → y.read < l ∧ l ≤ s.now
  stall : s.Reaches i y (y.since + lim.stall + lim.lag)
  release : ∀ k, s.Cleared y.val k → y.since ≤ k → s.Reaches i y (k + lim.lag)

/-- A slot stays with its occupant until another reservation lands on it or the
occupant is gone. -/
def State.Keeps (s : State) : Prop :=
  ∀ i y l, (i, y, l) ∈ s.takes → ∀ r, l ≤ r →
    (∀ j z l', (j, z, l') ∈ s.takes → z.slot = y.slot → j ≠ i → l ≤ l' → r < l') →
    s.slots y.slot r = some i ∨ s.Gone i

/-- What the values and the slots were used for. -/
structure Ledger (lim : Limits) (w : Word) (s : State) : Prop where
  /-- No write comes after its author went to withdraw. -/
  ended : ∀ x ∈ s.writes, ∀ k, s.Cleared x.val k → x.since ≤ k → x.time ≤ k
  nonce : w = .lease → lim.stallFrom = .fromStake → Nonces lim s
  take : ∀ i y, s.Took i y → TakeOk lim s i y
  keeps : s.Keeps
  slotSteady : ∀ p t, s.now ≤ t → s.slots p t = s.slots p s.now
  returned : ∀ i p, s.returned i = some p → ∃ y, y.slot = p ∧ s.Took i y

/-! ### What a candidate knows -/

/-- The points of the procedure that matter. -/
inductive Stage where
  /-- Nothing staked. -/
  | resting
  /-- The stake window opened at `o`. -/
  | opened (o : Nat)
  /-- A stake is written, not flushed. -/
  | staked (o : Nat)
  /-- The stake was flushed at `f`. -/
  | flushed (o f : Nat)
  /-- Staked in time; the settle ends at `e`. -/
  | settling (e : Nat)
  /-- Re-read at or after the end of the settle. -/
  | settled (e : Nat)
  /-- Writing under the claim. -/
  | inside (e : Nat)
  /-- Staked late; the hold ends at `e`. -/
  | holding (e : Nat)
  /-- Read at or after the end of a settle or a hold, on the way to withdraw. -/
  | checked
  /-- A withdrawal is written, not flushed. -/
  | clearing

/-- What holds of each landed stake of the candidate. -/
def Stage.Down (lim : Limits) (s : State) (i : Tid) (b : Bid Nat) : Stage → Prop
  | .resting | .opened _ | .clearing => Old lim b s.now
  | .staked o => Old lim b s.now ∨ o ≤ b.read
  | .flushed o f => Old lim b s.now ∨ (o ≤ b.read ∧ b.land ≤ f + lim.lag)
  | .settling e => Old lim b s.now ∧ b.land + lim.settle ≤ e + lim.lag
  | .settled e | .inside e => Old lim b (s.lastRead i) ∧ b.land + lim.settle ≤ e + lim.lag
  | .holding e => b.land + lim.lateHold ≤ e + lim.lag
  | .checked => WordHistory.Aged lim.pace b (s.lastRead i)

/-- What holds of each store of the candidate to the word that is in the air. -/
def Stage.Up (lim : Limits) (s : State) (f : Store) : Stage → Prop
  | .resting => (∃ v k, f.what = .clear v k) ∧ f.Within (s.now + lim.lag)
  | .opened o => (∃ v k, f.what = .clear v k) ∧ f.Within (o + lim.lag)
  | .staked o => (∃ v r k, f.what = .stake v r k ∧ o ≤ r) ∨
      ((∃ v k, f.what = .clear v k) ∧ f.Within (o + lim.lag))
  | .flushed o t => f.Within (t + lim.lag) ∧ ∀ v r k, f.what = .stake v r k → o ≤ r
  | .settling e => ∃ d, f.due = some d ∧ d + lim.settle ≤ e + lim.lag ∧
      ∀ v r k, f.what = .stake v r k → d ≤ r + lim.window + lim.lag
  | .settled _ | .inside _ | .checked => False
  | .holding e => ∃ d, f.due = some d ∧ d + lim.lateHold ≤ e + lim.lag
  | .clearing => (∃ v k, f.what = .clear v k) ∧ ∃ d, f.due = some d

/-- The instants a stage names. -/
def Stage.Timely (lim : Limits) (s : State) (i : Tid) : Stage → Prop
  | .opened o => o ≤ s.now
  | .staked o => o ≤ s.now ∧ s.window i = o + lim.window ∧ s.stakedAt i ≤ s.now ∧
      s.entered i = none
  | .flushed o f => o ≤ s.now ∧ f ≤ s.now ∧ s.window i = o + lim.window ∧ s.published i = f ∧
      s.stakedAt i ≤ f ∧ s.entered i = none
  | .settling e => s.published i < s.window i ∧ s.stakedAt i + lim.settle ≤ e
  | .settled e => s.published i < s.window i ∧ s.stakedAt i + lim.settle ≤ e ∧
      e ≤ s.lastRead i ∧ ∀ x, (i, x) ∈ s.withdrawals → x.land ≤ s.lastRead i
  | .inside e => s.published i < s.window i ∧ s.stakedAt i + lim.settle ≤ e ∧
      e ≤ s.lastRead i ∧ (∀ x, (i, x) ∈ s.withdrawals → x.land ≤ s.lastRead i) ∧
      ∃ val since, s.entered i = some (val, since) ∧ e ≤ since ∧
        ∀ x, (i, x) ∈ s.withdrawals → x.land ≤ since
  | .holding e => s.stakedAt i + lim.lateHold ≤ e ∧ s.entered i = none
  | .checked => (∀ x, (i, x) ∈ s.withdrawals → x.land ≤ s.lastRead i) ∧
      (∀ val since, s.entered i = some (val, since) →
        s.stakedAt i + lim.settle ≤ s.lastRead i ∧ since ≤ s.lastRead i) ∧
      (s.entered i = none → s.stakedAt i + lim.lateHold ≤ s.lastRead i) ∧
      (∀ x ∈ s.writes, x.author = i → x.time ≤ s.lastRead i) ∧
      ∀ y, s.Reaches i y (s.lastRead i + lim.lag)
  | _ => True

/-- The store writes the claim word. -/
def Payload.OnWord : Payload → Prop
  | .stake .. | .clear .. => True
  | .slot _ | .bound _ => False

/-- It writes the claim word or a member slot. -/
def Payload.Counts : Payload → Prop
  | .bound _ => False
  | _ => True

/-- What a candidate under way knows. -/
structure Facts where
  stage : Stage
  /-- A clock reading. -/
  clock : Nat
  /-- What its last read found. -/
  look : Option Value
  /-- That read came no earlier. -/
  lookAt : Nat
  /-- A candidate it was told has failed. -/
  failed : Option Nat
  /-- A value it saw before, and when. -/
  watch : Option (Value × Nat)
  /-- A value of its own. -/
  own : Option Nat
  /-- That value was never staked. -/
  unused : Bool
  /-- The member slot its last read found free. -/
  slot : Option Nat
  /-- All its reservations are flushed. -/
  synced : Bool
  /-- The member slot it reserved. -/
  took : Option Nat

/-- What a candidate knows when it starts. -/
def Facts.start (now : Nat) : Facts where
  stage := .resting
  clock := now
  look := none
  lookAt := 0
  failed := none
  watch := none
  own := none
  unused := false
  slot := none
  synced := true
  took := none

/-- What the candidate's last read found may be staked over: it is empty, the
candidate's own, a failed candidate's, no candidate's, or it stood its whole
timeout. -/
def Facts.Free (lim : Limits) (w : Word) (i : Tid) (v : Facts) : Prop :=
  v.look = some none ∨ (w = .recovery ∧ v.look = some (some i)) ∨
  ∃ e, v.look = some (some e) ∧ ((w = .recovery ∧ (v.failed = some e ∨ lim.maxPeers ≤ e)) ∨
    ∃ timeout t, lim.stallTimeout = some timeout ∧ v.watch = some (some e, t) ∧
      t + timeout ≤ v.lookAt)

/-- Nothing is known of a candidate that is not under way. -/
abbrev View := Option Facts

structure Knows (lim : Limits) (w : Word) (s : State) (i : Tid) (v : Facts) : Prop where
  alive : s.crashed i = none
  started : s.started i = true
  down : ∀ b, (i, b) ∈ s.bids → v.stage.Down lim s i b
  up : ∀ f ∈ s.flying, f.author = i → f.what.OnWord → v.stage.Up lim s f
  timely : v.stage.Timely lim s i
  clock : v.clock ≤ s.now
  look : ∀ x, v.look = some x → s.word (s.lastRead i) = x ∧ v.lookAt ≤ s.lastRead i
  failed : ∀ e, v.failed = some e → ∃ t, s.crashed e = some t ∧ t + lim.failAge ≤ s.now
  watch : ∀ x t, v.watch = some (x, t) → s.word t = x ∧ t ≤ s.readAt
  own : ∀ x, v.own = some x → s.owner x = some i
  nonce : w = .lease → ∀ x, v.own = some x → ∀ k, s.Staked x k →
    v.unused = false ∧ k = s.stakedAt i
  slot : ∀ p, v.slot = some p → s.slots p (s.lastRead i) = none
  synced : v.synced = true → ∀ f ∈ s.flying, f.author = i → ∀ y, f.what = .slot y →
    f.Within (s.now + lim.lag)
  took : ∀ p, v.took = some p → ∃ y, y.slot = p ∧ s.Took i y

structure Inv (lim : Limits) (w : Word) (s : State) (γ : Tid → View) : Prop where
  records : Records lim w s
  ledger : Ledger lim w s
  knows : ∀ i v, γ i = some v → Knows lim w s i v

end Cme.Stake
