import Cme.Interleave.System
import Cme.Interleave.TimedWord

/-!
# Stake — the claim line and the clock

The shared state of the stake procedure (`core/algo/stake_claim.hpp`) and of the
admission that runs under it (`admission/claim.cpp`), over one claim word.

Time is a number. A step of a candidate takes place at the instant `now`, and the
clock moves only by `Env.advance`. A store is two operations, the write and the
flush; it is in the air (`flying`) until it takes effect (`Env.land`), which may
come before the flush and comes at most `lag` after it: the clock does not pass the
instant a store is due. Within one instant stores land before anything is read, so
every read of one instant finds the same value.

`word t` is what the claim word read as at every instant up to now, and `slots p t`
what member slot `p` did. They and the lists of landed stores and of guarded writes
are history: a candidate reads the present only.

The bounds on how long a candidate may stall are assumptions on the run, not code.
They are in `Limits` beside the constants of `config.hpp`, and an operation past
its bound is not enabled.
-/

namespace Cme.Stake

open Function Interleave

/-- A candidate: a peer at a recovery claim, a joiner at the lease. -/
abbrev Tid := Nat

/-- What the claim field holds; `none` is its empty value (NoPeer, nonce zero). -/
abbrev Value := Option Nat

/-- Which of the two words the procedure runs over. -/
inductive Word where
  | recovery
  | lease
  deriving DecidableEq

/-- How long a candidate may stall between a check and its last write. -/
inductive Stall where
  /-- Guarded writes end within the stall of the re-read; a withdrawal within the
  given time of its check, if any bounds it. -/
  | fromCheck (withdrawal : Option Nat)
  /-- All a candidate stalls from its stake on, its scheduled waits apart. -/
  | fromStake
  deriving DecidableEq

/-- The constants of `config.hpp` and the assumptions on a run. -/
structure Limits where
  /-- config::stake::Window -/
  window : Nat
  /-- config::stake::StoreVisibilityLag -/
  lag : Nat
  /-- config::stake::Settle -/
  settle : Nat
  /-- T_Word::LateHold -/
  lateHold : Nat
  /-- T_Word::StallTimeout -/
  stallTimeout : Option Nat
  /-- config::lease::AcquireDeadline -/
  acquireDeadline : Nat
  maxPeers : Nat
  /-- config::lease::WriterStall, config::recovery::TickStall -/
  stall : Nat
  stallFrom : Stall
  /-- How long a candidate is dead before the failure detector says so. -/
  failAge : Nat

/-- A member slot reserved under value `val`, which the joiner found standing at
`since`; it found the slot free at `read`. -/
structure Take where
  slot : Nat
  val : Nat
  since : Nat
  read : Nat
  deriving DecidableEq

/-- What a store in the air writes. -/
inductive Payload where
  | stake (val read issue : Nat)
  | clear (val check : Nat)
  | slot (take : Take)
  | bound (peerScanBound : Nat)
  deriving DecidableEq

/-- A store that has not taken effect. -/
structure Store where
  author : Tid
  what : Payload
  /-- The last instant at which it takes effect, once that is known. -/
  due : Option Nat
  deriving DecidableEq

/-- A guarded write under value `val`, which its author found standing at `since`.
Of the stake: when its window ended and when its publish finished. -/
structure Write where
  author : Tid
  val : Nat
  since : Nat
  time : Nat
  window : Nat
  published : Nat
  deriving DecidableEq

structure State where
  now : Nat
  /-- When anything was last read. -/
  readAt : Nat
  /-- The line carries its magic. -/
  magic : Bool
  word : Nat → Value
  flying : List Store
  bids : List (Tid × Bid Nat)
  withdrawals : List (Tid × Withdrawal Nat)
  writes : List Write
  /-- Whose value this is: a peer's own id, a joiner's nonces. -/
  owner : Nat → Option Tid
  lastRead : Tid → Nat
  stakedAt : Tid → Nat
  /-- The end of the window of a candidate's stake, and when its publish finished. -/
  window : Tid → Nat
  published : Tid → Nat
  /-- The value under which a candidate writes, and when it found it standing. -/
  entered : Tid → Option (Nat × Nat)
  started : Tid → Bool
  crashed : Tid → Option Nat
  /-- Member slots at every instant; `none` is Status::None. -/
  slots : Nat → Nat → Option Tid
  /-- The reservations that have landed, and when. -/
  takes : List (Tid × Take × Nat)
  /-- The slots whose lines carry their magic. -/
  slotMagic : Nat → Bool
  peerScanBound : Nat
  /-- What `claimPeerSlot` returned. -/
  returned : Tid → Option Nat
  left : Tid → Bool

/-- The atomic operations of a candidate. -/
inductive Op where
  | begin
  | ask
  | clock
  | read
  | hasFailed (recordedRA : Nat)
  | getRandomNonce
  /-- The stake; the end of its window is passed along for the record. -/
  | stake (mine window : Nat)
  | clear (mine : Nat)
  /-- The write-back of what was stored; that of a stake ends its publish. -/
  | flush (publish : Bool)
  | enter (mine : Nat)
  | guardedWrite
  | readSlot (peerId : Nat)
  | takeSlot (peerId : Nat)
  | readBound
  | storeBound (bound : Nat)
  | answer (peerId : Nat)

/-- A member slot as it is read: `none` without its magic. -/
abbrev Op.Ret : Op → Type
  | .ask | .clock | .getRandomNonce | .readBound => Nat
  | .read => Value
  | .hasFailed _ => Bool
  | .readSlot _ => Option (Option Tid)
  | _ => Unit

inductive Choice where
  | any
  | flag (b : Bool)
  | nat (n : Nat)
  deriving Inhabited

/-- The time by which candidate `i` makes its guarded writes under a value it
found standing at `since`. -/
def Limits.writeBy (lim : Limits) (s : State) (i : Tid) (since : Nat) : Nat :=
  match lim.stallFrom with
  | .fromCheck _ => since + lim.stall
  | .fromStake => s.stakedAt i + lim.settle + lim.stall

/-- The time by which candidate `i` flushes a withdrawal. A holder's release is
one of its guarded writes. -/
def Limits.clearBy (lim : Limits) (s : State) (i : Tid) : Option Nat :=
  match s.entered i, lim.stallFrom with
  | some (_, since), _ => some (lim.writeBy s i since)
  | none, .fromCheck withdrawal => withdrawal.map (s.lastRead i + ·)
  | none, .fromStake => some (s.stakedAt i + lim.lateHold + lim.stall)

/-- No store is overdue at this instant. -/
def State.landed (s : State) : Bool :=
  s.flying.all fun f => f.due.all (s.now < ·)

/-- The store is due by `d` at the latest. -/
def Store.dueBy (f : Store) (d : Nat) : Store :=
  { f with due := some (f.due.elim d (min d)) }

/-- The stores of candidate `i` are flushed. -/
def State.flushed (s : State) (i : Tid) (d : Nat) : State :=
  { s with flying := s.flying.map fun f => if f.author = i then f.dueBy d else f }

def State.look (s : State) (i : Tid) : State :=
  { s with readAt := s.now, lastRead := update s.lastRead i s.now }

/-- The holder's guarded write, and the store that it is if it is one, given the
value it writes under and the time it found that standing. -/
def State.guarded (s : State) (lim : Limits) (i : Tid) (what : Nat → Nat → Option Payload) :
    Option State :=
  match s.entered i with
  | none => none
  | some (val, since) =>
    if s.now ≤ lim.writeBy s i since then
      let noted := { s with
        writes := ⟨i, val, since, s.now, s.window i, s.published i⟩ :: s.writes }
      match what val since with
      | none => some noted
      | some payload => some { noted with
          flying := s.flying ++ [⟨i, payload, some (lim.writeBy s i since + lim.lag)⟩] }
    else none

def exec (lim : Limits) (i : Tid) : (o : Op) → Choice → State → Option (o.Ret × State)
  | .begin, _, s =>
    if s.started i = true ∨ (s.crashed i).isSome then none
    else some ((), { s with started := update s.started i true })
  | .ask, .nat n, s => some (n, s)
  | .ask, _, _ => none
  | .clock, _, s => some (s.now, s)
  | .read, _, s =>
    if s.landed then some (if s.magic then s.word s.now else none, s.look i) else none
  -- only a crashed candidate is ever reported
  | .hasFailed recordedRA, .flag b, s =>
    if b then
      match s.crashed recordedRA with
      | none => none
      | some t => if t + lim.failAge ≤ s.now then some (true, s) else none
    else some (false, s)
  | .hasFailed _, _, _ => none
  -- nonces are distinct, and zero is the empty value
  | .getRandomNonce, .nat n, s =>
    if s.owner n = none then some (n, { s with owner := update s.owner n (some i) })
    else none
  | .getRandomNonce, _, _ => none
  | .stake mine window, _, s =>
    some ((), { s with
      flying := s.flying ++ [⟨i, .stake mine (s.lastRead i) s.now, none⟩]
      stakedAt := update s.stakedAt i s.now
      window := update s.window i window
      entered := update s.entered i none })
  | .clear mine, _, s =>
    if (lim.clearBy s i).all (s.now ≤ ·) then
      some ((), { s with flying := s.flying ++
        [⟨i, .clear mine (s.lastRead i), (lim.clearBy s i).map (· + lim.lag)⟩] })
    else none
  | .flush publish, _, s =>
    some ((), { s.flushed i (s.now + lim.lag) with
      published := if publish then update s.published i s.now else s.published })
  | .enter mine, _, s =>
    if s.now ≤ lim.writeBy s i (s.lastRead i) then
      some ((), { s with
        entered := update s.entered i (some (mine, s.lastRead i))
        writes := ⟨i, mine, s.lastRead i, s.lastRead i, s.window i, s.published i⟩ :: s.writes })
    else none
  | .guardedWrite, _, s => (s.guarded lim i fun _ _ => none).map ((), ·)
  | .readSlot peerId, _, s =>
    if s.landed then
      some (if s.slotMagic peerId then some (s.slots peerId s.now) else none, s.look i)
    else none
  | .takeSlot peerId, _, s =>
    (s.guarded lim i fun val since => some (.slot ⟨peerId, val, since, s.lastRead i⟩)).map ((), ·)
  | .readBound, _, s => if s.landed then some (s.peerScanBound, s.look i) else none
  | .storeBound bound, _, s => (s.guarded lim i fun _ _ => some (.bound bound)).map ((), ·)
  | .answer peerId, _, s =>
    some ((), { s with returned := update s.returned i (some peerId) })

/-- What happens outside the candidates. -/
inductive Env where
  | advance (t : Nat)
  | land (n : Nat)
  | die (i : Tid)
  | leave (i : Tid)
  | vacate (peerId : Nat)
  deriving DecidableEq

/-- Slot `p` holds `x` from now on. -/
def State.setSlot (s : State) (p : Nat) (x : Option Tid) : Nat → Nat → Option Tid :=
  fun q t => if q = p ∧ s.now ≤ t then x else s.slots q t

/-- The store takes effect now. -/
def State.land (s : State) (f : Store) : State :=
  match f.what with
  | .stake val read issue => { s with
      word := fun t => if t < s.now then s.word t else some val
      bids := (f.author, ⟨val, read, issue, s.now⟩) :: s.bids }
  | .clear val check => { s with
      word := fun t => if t < s.now then s.word t else none
      withdrawals := (f.author, ⟨val, check, s.now⟩) :: s.withdrawals }
  | .slot take => { s with
      slots := s.setSlot take.slot (some f.author)
      takes := (f.author, take, s.now) :: s.takes }
  | .bound peerScanBound => { s with peerScanBound }

def env (lim : Limits) : Env → State → Option State
  | .advance t, s =>
    if s.now < t ∧ s.flying.all (fun f => f.due.all (t ≤ ·)) then some { s with now := t } else none
  | .land n, s =>
    match s.flying[n]? with
    | none => none
    | some f =>
      if s.readAt < s.now then some ({ s with flying := s.flying.eraseIdx n }.land f) else none
  | .die i, s =>
    if s.crashed i = none then
      some { s.flushed i (s.now + lim.lag) with crashed := update s.crashed i (some s.now) }
    else none
  | .leave i, s =>
    if (s.returned i).isSome then some { s with left := update s.left i true } else none
  -- a slot is set to None for an occupant that left or crashed
  | .vacate peerId, s =>
    match s.slots peerId s.now with
    | none => none
    | some j =>
      if (s.left j = true ∨ (s.crashed j).isSome) ∧ s.readAt < s.now then
        some { s with slots := s.setSlot peerId none }
      else none

def kills : Env → Tid → Bool
  | .die i, j => i = j
  | _, _ => false

end Cme.Stake
