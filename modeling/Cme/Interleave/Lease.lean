import Mathlib.Logic.Function.Basic

/-!
# Interleave — lending under a claim word

One side (the *keeper*) holds something, the turn, and lends it to the other
side (the *user*) without being asked each time. Two words carry the loan:

* the *permit*, written by the keeper: the turn may be used;
* the *word*, raised by the user to say that it uses the turn.

A user raises the word and then reads the permit; a keeper that wants the turn
back lowers the permit and then reads the word. Each stores its own word before
it reads the other's, so they never both conclude that the turn is theirs.

Beside this quick way a user may ask: it lowers the word and waits for a keeper
to raise it. Answers may be late: a keeper answers whoever is the user by then,
and while it works its lowered word says nothing about the user.

A user and a keeper are places, taken by one thread at a time: that the places
are exclusive is for the program to show. `Lease` is one such place pair with
its words, `Sound` its invariant, and the theorems below are the moves.
-/

namespace Interleave

/-- How far the user is. -/
inductive Claim where
  /-- It uses nothing. -/
  | out
  /-- It has raised the word and not read the permit. -/
  | claimed
  /-- It waits for an answer. -/
  | asking
  /-- It uses the turn. -/
  | inside
  deriving DecidableEq, Repr

/-- What the keeper is doing. -/
inductive Keeper where
  /-- Nobody is there. -/
  | away
  | plain
  /-- It has lowered the word and will answer. -/
  | granting
  /-- So, and the turn is there. -/
  | riding
  /-- So, and the turn is not there. -/
  | buying
  /-- It has lowered the permit. -/
  | revoked
  /-- So, and found the word down. -/
  | dropping
  /-- It has given the turn away with no user about, and the permit is up. -/
  | removing
  deriving DecidableEq, Repr

/-- It will answer, so a lowered word says nothing. -/
def Keeper.answering : Keeper → Bool
  | .granting | .riding | .buying => true
  | _ => false

/-- The keeper has learnt nothing of the turn, and is not about to drop it. -/
def Keeper.resting : Keeper → Bool
  | .away | .plain | .granting => true
  | _ => false

/-- The two places and the words between them. -/
structure Lease where
  claim : Claim
  keeper : Keeper
  word : Bool
  permit : Bool
  turn : Bool
  deriving DecidableEq, Repr

namespace Lease

/-- The user's side after a move of the user. -/
def use (l : Lease) (claim : Claim) (word : Bool) : Lease :=
  { l with claim := claim, word := word }

/-- The keeper's side after a move of the keeper. -/
def keep (l : Lease) (keeper : Keeper) (word permit turn : Bool) : Lease :=
  { l with keeper := keeper, word := word, permit := permit, turn := turn }

/-- What holds between any two moves. -/
structure Sound (l : Lease) : Prop where
  permitted : l.permit = true → l.turn = true ∨ l.keeper = .removing
  inside : l.claim = .inside →
    l.turn = true ∧ (l.word = true ∨ l.keeper.answering = true) ∧ l.keeper ≠ .dropping
  asking : l.claim = .asking → l.word = true → l.turn = true ∧ l.keeper ≠ .dropping
  claimed : l.claim = .claimed → l.permit = true → l.word = true ∨ l.keeper.answering = true
  riding : l.keeper = .riding → l.turn = true
  buying : l.keeper = .buying → l.turn = false
  revoked : l.keeper = .revoked → l.permit = false
  dropping : l.keeper = .dropping → l.permit = false
  removing : l.keeper = .removing → l.claim = .out

variable {l : Lease}

/-- What is to show of a keeper that has learnt nothing and dropped nothing. -/
theorem sound_of_resting (hk : l.keeper.resting = true) (permitted : l.permit = true → l.turn = true)
    (inside : l.claim = .inside → l.turn = true ∧ (l.word = true ∨ l.keeper.answering = true))
    (asking : l.claim = .asking → l.word = true → l.turn = true)
    (claimed : l.claim = .claimed → l.permit = true → l.word = true ∨ l.keeper.answering = true) :
    l.Sound := by
  have hne : ∀ k : Keeper, k.resting = false → l.keeper ≠ k := by
    rintro k hfalse rfl
    cases hk.symm.trans hfalse
  exact
    { permitted := fun hp => .inl (permitted hp)
      inside := fun hc => ⟨(inside hc).1, (inside hc).2, hne _ rfl⟩
      asking := fun hc hw => ⟨asking hc hw, hne _ rfl⟩
      claimed := claimed
      riding := fun h => absurd h (hne _ rfl)
      buying := fun h => absurd h (hne _ rfl)
      revoked := fun h => absurd h (hne _ rfl)
      dropping := fun h => absurd h (hne _ rfl)
      removing := fun h => absurd h (hne _ rfl) }

/-! ### The user's moves -/

section

variable (h : l.Sound)

include h

theorem Sound.claim (hkeeper : l.keeper ≠ .removing) :
    ({ l with claim := .claimed, word := true } : Lease).Sound :=
  { h with
    inside := nofun
    asking := nofun
    claimed := fun _ _ => .inl rfl
    removing := fun hk => absurd hk hkeeper }

theorem Sound.enter (hclaim : l.claim = .claimed) (hpermit : l.permit = true) :
    ({ l with claim := .inside } : Lease).Sound := by
  have hkeeper : l.keeper ≠ .removing := by
    intro hk
    rw [h.removing hk] at hclaim
    cases hclaim
  have hturn : l.turn = true := (h.permitted hpermit).resolve_right hkeeper
  have hdropping : l.keeper ≠ .dropping := by
    intro hk
    rw [h.dropping hk] at hpermit
    cases hpermit
  exact { h with
    inside := fun _ => ⟨hturn, h.claimed hclaim hpermit, hdropping⟩
    asking := nofun
    claimed := nofun
    removing := fun hk => absurd hk hkeeper }

theorem Sound.retract : ({ l with claim := .out, word := false } : Lease).Sound :=
  { h with
    inside := nofun
    asking := nofun
    claimed := nofun
    removing := fun _ => rfl }

theorem Sound.ask (hkeeper : l.keeper ≠ .removing) :
    ({ l with claim := .asking, word := false } : Lease).Sound :=
  { h with
    inside := nofun
    asking := nofun
    claimed := nofun
    removing := fun hk => absurd hk hkeeper }

/-- A waiting user finds the word up. -/
theorem Sound.answered (hclaim : l.claim = .asking) (hword : l.word = true) :
    ({ l with claim := .inside } : Lease).Sound := by
  obtain ⟨hturn, hdropping⟩ := h.asking hclaim hword
  exact { h with
    inside := fun _ => ⟨hturn, .inl hword, hdropping⟩
    asking := nofun
    claimed := nofun
    removing := fun hk => by
      have hout := h.removing hk
      rw [hout] at hclaim
      cases hclaim }

theorem Sound.vanish : ({ l with claim := .out } : Lease).Sound :=
  { h with
    inside := nofun
    asking := nofun
    claimed := nofun
    removing := fun _ => rfl }

/-! ### The keeper's moves -/

/-- A keeper comes, or goes, with nothing under way. -/
theorem Sound.place {k : Keeper} (hk : k = .away ∨ k = .plain) (hl : l.keeper.answering = false)
    (hremoving : l.keeper ≠ .removing) : ({ l with keeper := k } : Lease).Sound := by
  refine sound_of_resting (by rcases hk with rfl | rfl <;> rfl)
    (fun hp => (h.permitted hp).resolve_right hremoving) (fun hc => ?_)
    (fun hc hw => (h.asking hc hw).1) fun hc hp => ?_
  · obtain ⟨hturn, hword, -⟩ := h.inside hc
    rw [hl] at hword
    exact ⟨hturn, .inl (hword.resolve_right (by simp))⟩
  · have hword := h.claimed hc hp
    rw [hl] at hword
    exact .inl (hword.resolve_right (by simp))

/-- The word goes down until the answer. -/
theorem Sound.grant (hkeeper : l.keeper = .plain) :
    ({ l with keeper := .granting, word := false } : Lease).Sound :=
  sound_of_resting rfl (fun hp => (h.permitted hp).resolve_right (by rw [hkeeper]; decide))
    (fun hc => ⟨(h.inside hc).1, .inr rfl⟩) nofun fun _ _ => .inr rfl

/-- An answering keeper learns whether the turn is there, or gets it. -/
theorem Sound.learn (hkeeper : l.keeper.answering = true) {k : Keeper} {turn : Bool}
    (hturn : l.turn = true → turn = true) (hk : k = if turn then .riding else .buying) :
    ({ l with keeper := k, turn := turn } : Lease).Sound := by
  have hl : l.keeper ≠ .removing := by
    intro hr
    rw [hr] at hkeeper
    cases hkeeper
  have hshape : k.answering = true ∧ k ≠ .dropping ∧ k ≠ .revoked ∧ k ≠ .removing := by
    subst hk
    cases turn <;> decide
  obtain ⟨hanswering, hdropping, hrevoked, hremoving⟩ := hshape
  exact
    { permitted := fun hp => .inl (hturn ((h.permitted hp).resolve_right hl))
      inside := fun hc => ⟨hturn (h.inside hc).1, .inr hanswering, hdropping⟩
      asking := fun hc hw => ⟨hturn (h.asking hc hw).1, hdropping⟩
      claimed := fun _ _ => .inr hanswering
      riding := fun hr => by
        replace hr : k = .riding := hr
        show turn = true
        subst hk
        cases turn
        · cases hr
        · rfl
      buying := fun hb => by
        replace hb : k = .buying := hb
        show turn = false
        subst hk
        cases turn
        · rfl
        · cases hb
      revoked := fun hk' => absurd hk' hrevoked
      dropping := fun hk' => absurd hk' hdropping
      removing := fun hk' => absurd hk' hremoving }

/-- The permit goes up once the turn is there. -/
theorem Sound.permit (hkeeper : l.keeper = .riding) : ({ l with permit := true } : Lease).Sound :=
  { h with
    permitted := fun _ => .inl (h.riding hkeeper)
    claimed := fun _ _ => .inr (by rw [hkeeper]; rfl)
    revoked := fun hk => nomatch hkeeper.symm.trans hk
    dropping := fun hk => nomatch hkeeper.symm.trans hk }

/-- The answer is no: there is no turn, so nobody is inside. -/
theorem Sound.refuse (hkeeper : l.keeper = .buying) :
    ({ l with keeper := .plain, word := false } : Lease).Sound := by
  have hturn : l.turn = false := h.buying hkeeper
  have hpermit : l.permit ≠ true := by
    intro hp
    rcases h.permitted hp with ht | hr
    · rw [hturn] at ht
      cases ht
    · rw [hkeeper] at hr
      cases hr
  refine sound_of_resting rfl (fun hp => absurd hp hpermit) (fun hc => ?_) nofun fun _ hp =>
    absurd hp hpermit
  have ht := (h.inside hc).1
  rw [hturn] at ht
  cases ht

theorem Sound.answer (hkeeper : l.keeper = .riding) :
    ({ l with keeper := .plain, word := true } : Lease).Sound :=
  sound_of_resting rfl (fun _ => h.riding hkeeper) (fun _ => ⟨h.riding hkeeper, .inl rfl⟩)
    (fun _ _ => h.riding hkeeper) fun _ _ => .inl rfl

theorem Sound.revoke (hkeeper : l.keeper = .plain) :
    ({ l with keeper := .revoked, permit := false } : Lease).Sound :=
  { permitted := nofun
    inside := fun hc => by
      obtain ⟨hturn, hword, -⟩ := h.inside hc
      rw [hkeeper] at hword
      exact ⟨hturn, .inl (hword.resolve_right (by decide)), nofun⟩
    asking := fun hc hw => ⟨(h.asking hc hw).1, nofun⟩
    claimed := nofun
    riding := nofun
    buying := nofun
    revoked := fun _ => rfl
    dropping := nofun
    removing := nofun }

/-- The word is down after the permit: nobody is inside, and nobody waiting
will be answered by this word. -/
theorem Sound.judge (hkeeper : l.keeper = .revoked) (hword : l.word = false) :
    ({ l with keeper := .dropping } : Lease).Sound :=
  { permitted := fun hp => nomatch (h.revoked hkeeper).symm.trans hp
    inside := fun hc => by
      obtain ⟨-, hw, -⟩ := h.inside hc
      rw [hword, hkeeper] at hw
      rcases hw with hw | hw <;> cases hw
    asking := fun _ hw => nomatch hword.symm.trans hw
    claimed := fun _ hp => nomatch (h.revoked hkeeper).symm.trans hp
    riding := nofun
    buying := nofun
    revoked := nofun
    dropping := fun _ => h.revoked hkeeper
    removing := nofun }

theorem Sound.drop (hkeeper : l.keeper = .dropping) :
    ({ l with keeper := .plain, turn := false } : Lease).Sound :=
  sound_of_resting rfl (fun hp => nomatch (h.dropping hkeeper).symm.trans hp)
    (fun hc => absurd hkeeper (h.inside hc).2.2) (fun hc hw => absurd hkeeper (h.asking hc hw).2)
    fun _ hp => nomatch (h.dropping hkeeper).symm.trans hp

end

/-- With no user about, the turn may go first and the permit after it. -/
theorem sound_removing (hclaim : l.claim = .out) :
    ({ l with keeper := .removing, turn := false } : Lease).Sound :=
  { permitted := fun _ => .inr rfl
    inside := fun hc => nomatch hclaim.symm.trans hc
    asking := fun hc => nomatch hclaim.symm.trans hc
    claimed := fun hc => nomatch hclaim.symm.trans hc
    riding := nofun
    buying := nofun
    revoked := nofun
    dropping := nofun
    removing := fun _ => hclaim }

theorem Sound.removed (h : l.Sound) (hkeeper : l.keeper = .removing) :
    ({ l with keeper := .plain, permit := false } : Lease).Sound := by
  have hclaim := h.removing hkeeper
  exact sound_of_resting rfl nofun (fun hc => nomatch hclaim.symm.trans hc)
    (fun hc => nomatch hclaim.symm.trans hc) nofun

/-- The permit may be lowered at any time. -/
theorem Sound.unpermit (h : l.Sound) : ({ l with permit := false } : Lease).Sound :=
  { h with
    permitted := nofun
    claimed := nofun
    revoked := fun _ => rfl
    dropping := fun _ => rfl }

/-- With no user about, the word may be lowered by anybody. -/
theorem Sound.lower (h : l.Sound) (hclaim : l.claim = .out) :
    ({ l with word := false } : Lease).Sound := by
  have hsame : ({ l with word := false } : Lease) = { l with claim := .out, word := false } := by
    rw [hclaim]
  rw [hsame]
  exact h.retract

end Lease

end Interleave
