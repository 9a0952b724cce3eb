import Cme.Recovery.Target
import Mathlib.Algebra.Order.Group.Abs
import Mathlib.Algebra.Order.Group.Int
import Mathlib.Data.Int.LeastGreatest

/-!
# Recovery — suspicion through the member cache

`HeartbeatLivenessPolicy::hasFailed` as a watcher asks it: on the member cache of
`core/runtime/local_peer_state.cpp`, which the ring walk and the view itself fill,
and against the watcher's own wall clock.

Every fill is one read of the slot, so along any run an entry holds what some read
showed (`Entry.sound_run`), and a view answers with the stamp that was the last
when its entry was read. What is left is the distance of two clocks
(`isPastDeadWindow_eq_false`, `isPastDeadWindow_eq_true`). Instants are true time,
in nanoseconds.
-/

namespace Cme.Recovery.Suspicion

open Registry (Status)

/-- `config::liveness::DeadWindow`, in nanoseconds. -/
def deadWindow : Int := 500000000

/-- `config::liveness::ClockSkewBound`. -/
def clockSkewBound : Int := 50000000

/-- `config::membership::CacheTTL`. -/
def cacheTTL : Int := 5000

/-- `timing::wall`: the clock's count as an unsigned word. -/
def wall (count : Int) : Nat := (count % 2 ^ 64).toNat

/-! ### The cache -/

/-- A member slot as `loadMemberSnapshot` copies it. -/
structure MemberSlot extends Member where
  isValidMagic : Bool
  participating : DomainBitmap

/-- `MemberView_t`. -/
structure SeenView extends MemberView where
  lastSeenNanos : Nat := 0

/-- `CachedMember_t`. -/
structure CachedMember where
  participating : DomainBitmap := 0
  lastSeenNanos : Nat := 0
  /-- The monotonic clock at the last refresh. -/
  stampNs : Int := -2 ^ 63
  status : Status := .none
  /-- The slot had a valid magic then. -/
  valid : Bool := false

/-- One look at a slot: when it is read, what is read, and the monotonic clock
before the read and when the snapshot is cached. -/
structure Look where
  instant : Int
  member : MemberSlot
  nowNs : Int
  cachedNs : Int

def cacheMemberSnapshot (isValidPeer : Bool) (look : Look) (slot : CachedMember) :
    CachedMember :=
  if isValidPeer then
    { participating := if look.member.isValidMagic then look.member.participating else 0
      lastSeenNanos := if look.member.isValidMagic then look.member.lastSeenNanos else 0
      status := if look.member.isValidMagic then look.member.status else .none
      valid := look.member.isValidMagic
      stampNs := look.cachedNs }
  else slot

/-- The test that lets a view answer from the cache. -/
def CachedMember.isFresh (slot : CachedMember) (nowNs maxAge : Int) : Bool :=
  slot.valid && decide (nowNs - slot.stampNs ≤ maxAge)

/-- The view, and the slot as it leaves it. -/
def getMemberView (isValidPeer : Bool) (maxAge : Int) (look : Look) (slot : CachedMember) :
    SeenView × CachedMember :=
  if isValidPeer then
    if slot.isFresh look.nowNs maxAge then
      ({ active := slot.status == .active
         participating := slot.participating
         lastSeenNanos := slot.lastSeenNanos }, slot)
    else
      -- a miss answers from the read it caches
      ({ active := look.member.isValidMagic && look.member.status == .active
         participating := if look.member.isValidMagic then look.member.participating else 0
         lastSeenNanos := if look.member.isValidMagic then look.member.lastSeenNanos else 0 },
        cacheMemberSnapshot isValidPeer look slot)
  else ({}, slot)

/-- `HeartbeatLivenessPolicy::hasFailed`, the wall clock reading `now`. -/
def hasFailed (isValidPeer : Bool) (now : Nat) (look : Look) (slot : CachedMember) : Bool :=
  if isValidPeer then
    isPastDeadWindow now (getMemberView isValidPeer cacheTTL look slot).1.lastSeenNanos
  else false

/-! ### Two clocks -/

/-- The wall clocks of a target and of its watcher, each true time plus an offset,
and the instants at which the target stamps. -/
structure Pair where
  targetOffset : Int → Int
  watcherOffset : Int → Int
  skew_le : ∀ a b, |targetOffset a - watcherOffset b| ≤ clockSkewBound
  stamps : Set Int

namespace Pair

variable (w : Pair)

def target (instant : Int) : Int := instant + w.targetOffset instant

def watcher (instant : Int) : Int := instant + w.watcherOffset instant

/-- The last stamp up to an instant. -/
def IsLast (instant stamp : Int) : Prop := IsGreatest {s ∈ w.stamps | s ≤ instant} stamp

/-- A stamp is readable as soon as it is written. -/
def Shows (instant : Int) (member : MemberSlot) : Prop :=
  ∀ stamp, w.IsLast instant stamp →
    member.isValidMagic = true ∧ member.lastSeenNanos = wall (w.target stamp)

variable {w}

theorem exists_isLast {instant s : Int} (hs : s ∈ w.stamps) (hle : s ≤ instant) :
    ∃ stamp, w.IsLast instant stamp := by
  obtain ⟨stamp, hstamp, hlast⟩ := Int.exists_greatest_of_bdd
    (P := fun z => z ∈ {s ∈ w.stamps | s ≤ instant}) ⟨instant, fun _ h => h.2⟩ ⟨s, hs, hle⟩
  exact ⟨stamp, hstamp, hlast⟩

/-- The two readings are as far apart as the two instants, give or take the bound. -/
theorem abs_skew_le (a b : Int) :
    b - a - clockSkewBound ≤ w.watcher b - w.target a ∧
      w.watcher b - w.target a ≤ b - a + clockSkewBound := by
  obtain ⟨hlow, hhigh⟩ := abs_le.mp (w.skew_le a b)
  unfold watcher target
  omega

end Pair

theorem deadWindowEffective_eq : deadWindowEffective = deadWindow + clockSkewBound + cacheTTL :=
  rfl

/-- A stamp no older than the window, or a little ahead, at any two counts: the
subtraction of the words is the distance, however the words wrapped. -/
theorem isPastDeadWindow_eq_false {now seen : Int} (hahead : -clockSkewBound ≤ now - seen)
    (hage : now - seen ≤ deadWindowEffective) :
    isPastDeadWindow (wall now) (wall seen) = false := by
  unfold isPastDeadWindow ageAt
  by_cases hle : wall now ≤ wall seen
  · -- a stamp ahead of the clock has no age
    rw [if_pos hle]
  · rw [if_neg hle]
    unfold wall at *
    unfold clockSkewBound deadWindowEffective at *
    simp only [decide_eq_false_iff_not, Int.not_lt]
    rw [Int.bmod_def]
    omega

/-- A stamp older than the window, of a count that a word holds. -/
theorem isPastDeadWindow_eq_true {now seen : Int} (hseen : 0 ≤ seen) (hnow : now < 2 ^ 63)
    (hage : deadWindowEffective < now - seen) : isPastDeadWindow (wall now) (wall seen) = true := by
  unfold isPastDeadWindow ageAt
  unfold deadWindowEffective at *
  have hlt : ¬ wall now ≤ wall seen := by
    unfold wall
    omega
  rw [if_neg hlt]
  unfold wall
  simp only [decide_eq_true_eq]
  rw [Int.bmod_def]
  omega

/-! ### Runs of the cache -/

/-- The watcher's cache slot for the target, and when what it holds was read. -/
structure Entry where
  slot : CachedMember := {}
  readAt : Int := 0

/-- A use of the entry by a thread of the watcher: the ring walk hands a snapshot
in, a view looks for itself. -/
inductive Use where
  | walk (look : Look)
  | view (maxAge : Int) (look : Look)

def Use.look : Use → Look
  | .walk look | .view _ look => look

namespace Entry

variable {w : Pair} {e : Entry}

def use (e : Entry) : Use → Entry
  | .walk look => ⟨cacheMemberSnapshot true look e.slot, look.instant⟩
  | .view maxAge look =>
    ⟨(getMemberView true maxAge look e.slot).2,
      if e.slot.isFresh look.nowNs maxAge then e.readAt else look.instant⟩

/-- When the answer of `hasFailed` was read: with the entry, or now on a miss. -/
def servedAt (e : Entry) (look : Look) : Int :=
  if e.slot.isFresh look.nowNs cacheTTL then e.readAt else look.instant

/-- A valid entry holds the stamp that was the last when it was read. -/
def Sound (w : Pair) (e : Entry) : Prop :=
  e.slot.valid = true → ∀ stamp, w.IsLast e.readAt stamp →
    e.slot.lastSeenNanos = wall (w.target stamp)

theorem sound_cached {look : Look} (h : w.Shows look.instant look.member) (slot : CachedMember) :
    Sound w ⟨cacheMemberSnapshot true look slot, look.instant⟩ := by
  intro _ stamp hstamp
  obtain ⟨hmagic, hseen⟩ := h stamp hstamp
  show (if look.member.isValidMagic then look.member.lastSeenNanos else 0) = _
  rw [if_pos hmagic, hseen]

theorem Sound.use (he : e.Sound w) (u : Use) (h : w.Shows u.look.instant u.look.member) :
    (e.use u).Sound w := by
  cases u with
  | walk look => exact sound_cached h e.slot
  | view maxAge look =>
    cases hfresh : e.slot.isFresh look.nowNs maxAge with
    | true =>
      simp only [Entry.use, getMemberView, hfresh, if_true]
      exact he
    | false =>
      simp only [Entry.use, getMemberView, hfresh, if_true, Bool.false_eq_true, if_false]
      exact sound_cached h e.slot

theorem sound_run (uses : List Use) (h : ∀ u ∈ uses, w.Shows u.look.instant u.look.member) :
    (uses.foldl Entry.use {}).Sound w := by
  suffices hall : ∀ e : Entry, e.Sound w → (uses.foldl Entry.use e).Sound w by
    exact hall {} nofun
  induction uses with
  | nil => exact fun _ he => he
  | cons u uses ih =>
    intro e he
    exact ih (fun u' hu' => h u' (.tail _ hu')) _ (he.use u (h u (.head _)))

/-- `hasFailed` judges the stamp that was the last when its answer was read. -/
theorem Sound.hasFailed (he : e.Sound w) {look : Look} (h : w.Shows look.instant look.member)
    {stamp : Int} (hstamp : w.IsLast (e.servedAt look) stamp) (now : Nat) :
    hasFailed true now look e.slot = isPastDeadWindow now (wall (w.target stamp)) := by
  unfold servedAt at hstamp
  unfold Suspicion.hasFailed getMemberView
  cases hfresh : e.slot.isFresh look.nowNs cacheTTL with
  | true =>
    rw [hfresh] at hstamp
    have hvalid : e.slot.valid = true := by
      unfold CachedMember.isFresh at hfresh
      exact (Bool.and_eq_true_iff.mp hfresh).1
    exact congrArg (isPastDeadWindow now) (he hvalid stamp hstamp)
  | false =>
    rw [hfresh] at hstamp
    obtain ⟨hmagic, hseen⟩ := h stamp hstamp
    simp only [if_true, hmagic, hseen]
    rfl

end Entry

/-- **No false suspicion within the bounds, and no missed one past them.** After
any uses of the cache, where the answer is of a read at most `cacheTTL` old: a
target that stamps in every span of length `deadWindow` up to now has not failed,
wherever its clock stands; one that stamped last more than the bounds ago has. -/
theorem suspicion_within_bounds (w : Pair) (uses : List Use)
    (huses : ∀ u ∈ uses, w.Shows u.look.instant u.look.member) (look : Look)
    (hlook : w.Shows look.instant look.member) (entry : Entry)
    (hentry : entry = uses.foldl Entry.use {})
    (hserved : look.instant - cacheTTL ≤ entry.servedAt look ∧ entry.servedAt look ≤ look.instant) :
    ((∀ ends, look.instant - cacheTTL ≤ ends → ends ≤ look.instant →
        ∃ s ∈ w.stamps, ends - deadWindow ≤ s ∧ s ≤ ends) → ∀ isValidPeer,
      hasFailed isValidPeer (wall (w.watcher look.instant)) look entry.slot = false) ∧
    ∀ last ∈ w.stamps, (∀ s ∈ w.stamps, s ≤ last) →
      last + (deadWindow + 2 * clockSkewBound + 2 * cacheTTL) < look.instant →
      0 ≤ w.target last → w.watcher look.instant < 2 ^ 63 →
      hasFailed true (wall (w.watcher look.instant)) look entry.slot = true := by
  have hsound : entry.Sound w := hentry ▸ Entry.sound_run uses huses
  obtain ⟨hrecent, hpast⟩ := hserved
  constructor
  · intro hspans isValidPeer
    cases isValidPeer with
    | false => rfl
    | true =>
      -- a stamp in the span that ends with the read, and so a last one no earlier
      obtain ⟨s, hs, hlow, hhigh⟩ := hspans _ hrecent hpast
      obtain ⟨stamp, hstamp⟩ := Pair.exists_isLast hs hhigh
      have hle : s ≤ stamp := hstamp.2 ⟨hs, hhigh⟩
      have hread : stamp ≤ entry.servedAt look := hstamp.1.2
      obtain ⟨hahead, hage⟩ := w.abs_skew_le stamp look.instant
      rw [hsound.hasFailed hlook hstamp]
      apply isPastDeadWindow_eq_false
      · omega
      · rw [deadWindowEffective_eq]
        omega
  · intro last hlast hnone hlong hcount hword
    -- the read was later than the last stamp, so it showed that one
    have hstamp : w.IsLast (entry.servedAt look) last := by
      refine ⟨⟨hlast, ?_⟩, fun s hs => hnone s hs.1⟩
      unfold deadWindow clockSkewBound cacheTTL at *
      omega
    obtain ⟨hage, -⟩ := w.abs_skew_le last look.instant
    rw [hsound.hasFailed hlook hstamp]
    apply isPastDeadWindow_eq_true hcount hword
    rw [deadWindowEffective_eq]
    unfold deadWindow clockSkewBound cacheTTL at *
    omega

/-- A target that stamps once, a second in, ahead of its watcher by the bound. -/
def stampedOnce : Pair where
  targetOffset := fun _ => 0
  watcherOffset := fun _ => -50000000
  skew_le := fun _ _ => by decide
  stamps := {1000000000}

def MemberSlot.once : MemberSlot := ⟨⟨.active, 1000000000⟩, true, 0⟩

theorem stampedOnce_shows (instant : Int) : stampedOnce.Shows instant .once := by
  rintro _ ⟨⟨rfl, -⟩, -⟩
  exact ⟨rfl, rfl⟩

/-- Not failed by an entry 3 microseconds old, and failed a second later. -/
theorem suspicion_within_bounds_once :
    hasFailed true (wall 950005000) ⟨1000005000, .once, 5000, 5000⟩
        (cacheMemberSnapshot true ⟨1000002000, .once, 0, 2000⟩ {}) = false ∧
      hasFailed true (wall 1950000000) ⟨2000000000, .once, 5000, 5000⟩ {} = true := by
  constructor
  · refine (suspicion_within_bounds stampedOnce [.walk ⟨1000002000, .once, 0, 2000⟩]
      (fun _ _ => ?_) ⟨1000005000, .once, 5000, 5000⟩ (stampedOnce_shows _) _ rfl
      (by decide)).1 ?_ true
    · obtain rfl := List.mem_singleton.mp ‹_›
      exact stampedOnce_shows _
    · intro ends hlow hhigh
      refine ⟨1000000000, rfl, ?_⟩
      simp only [cacheTTL, deadWindow] at *
      omega
  · exact (suspicion_within_bounds stampedOnce [] nofun ⟨2000000000, .once, 5000, 5000⟩
      (stampedOnce_shows _) _ rfl (by decide)).2 1000000000 rfl (fun _ h => le_of_eq h)
      (by decide) (by decide) (by decide)

end Cme.Recovery.Suspicion
