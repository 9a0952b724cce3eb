import Cme.Interleave.Outline
import Cme.Tournament.Invariant

/-!
# Tournament — one live peer at the root

The specification of every procedure against the invariant, and what follows
for every run: exclusion at the root, no live announce erased by a scrub, and
no trace of a scrubbed peer.
-/

namespace Cme.Tournament

open Function Interleave

variable {n numDomains : Nat} {s : State n} {p dead : Fin n} {d : DomainId} {ℓ : Nat}

theorem wp_act {i : Tid n} {o : Op n} {Q : Ret o → View n → Prop} {v : View n}
    (h : ∀ s γ, Inv numDomains s γ → s.crashed i.peer = false → γ i = v →
      ∀ ch r s', access i.peer o ch s = some (r, s') →
        ∃ v', Inv numDomains s' (update γ i v') ∧ Q r v') :
    wp (system n numDomains) (Inv numDomains) i (act o) Q v := by
  intro s γ hInv hv ch r s' hx
  replace hx : exec i o ch s = some (r, s') := hx
  unfold exec at hx
  split at hx
  · cases hx
  · rename_i hlive
    exact h s γ hInv (by simpa using hlive) hv ch r s' hx

theorem wp_write {i : Tid n} {o : Op n} {a : Ret o} {f : State n → State n}
    {Q : Ret o → View n → Prop} {v : View n} (ho : ∀ ch s, access i.peer o ch s = some (a, f s))
    (h : ∀ s γ, Inv numDomains s γ → s.crashed i.peer = false → γ i = v →
      ∃ v', Inv numDomains (f s) (update γ i v') ∧ Q a v') :
    wp (system n numDomains) (Inv numDomains) i (act o) Q v := by
  refine wp_act fun s γ hInv hlive hv ch r s' hx => ?_
  obtain ⟨rfl, rfl⟩ := outcome_eq ((ho ch s).symm.trans hx)
  exact h s γ hInv hlive hv

theorem wp_ask {i : Tid n} {o : Op n} {Q : Ret o → View n → Prop} {v : View n}
    (hask : ∀ ch s r s', access i.peer o ch s = some (r, s') → s' = s) (h : ∀ r, Q r v) :
    wp (system n numDomains) (Inv numDomains) i (act o) Q v := by
  refine wp_act fun s γ hInv _ hv ch r s' hx => ⟨v, ?_, h r⟩
  rw [hask ch s r s' hx, ← hv, update_eq_self]
  exact hInv

/-! ### Climbs -/

section Climbs

variable (hd : d < numDomains)
include hd

/-- Where a level's attempt leaves the climb. -/
def afterLevel (ℓ : Nat) (won : Bool) (v : View n) : Prop :=
  v = .climb ⟨if won then ℓ + 1 else ℓ, .out⟩ false

theorem wp_clearMine {x : Standing} (hℓ : ℓ < (bracket n).depth) (hact : x.Active ℓ)
    (htop : ∀ m, ℓ < m → ¬ x.Active m) {Q : Unit → View n → Prop}
    (h : Q () (.climb ⟨ℓ, .out⟩ false)) :
    wp (system n numDomains) (Inv numDomains) (.climber p d) (act (.clearMine (place d p ℓ))) Q
      (.climb x false) := by
  refine wp_write (fun _ _ => rfl) fun s γ hInv hlive hv => ?_
  exact ⟨_, hInv.clearMine hlive hd hv hℓ hact htop, h⟩

theorem wp_getOther (hℓ : ℓ < (bracket n).depth) {Q : PeerId → View n → Prop}
    (h : ∀ owner, Q owner (.climb (if owner = noPeer then ⟨ℓ + 1, .out⟩ else ⟨ℓ, .waiting⟩) false)) :
    wp (system n numDomains) (Inv numDomains) (.climber p d) (act (.getOther (place d p ℓ))) Q
      (.climb ⟨ℓ, .waiting⟩ false) := by
  refine wp_act fun s γ hInv hlive hv ch owner s' hx => ⟨_, ?_, h owner⟩
  obtain ⟨hr, rfl⟩ := outcome_eq hx
  by_cases hidle : owner = noPeer
  · rw [if_pos (hr.trans hidle), if_pos hidle]
    exact hInv.passIdle hlive hd hv hℓ (hr.trans hidle)
  · rw [if_neg (fun heq => hidle (hr.symm.trans heq)), if_neg hidle, ← hv, update_eq_self]
    exact hInv

theorem wp_getTurn (hℓ : ℓ < (bracket n).depth) {Q : Role → View n → Prop}
    (h : ∀ turn, Q turn (.climb
      (if turn ≠ (place d p ℓ).role.other then ⟨ℓ + 1, .out⟩ else ⟨ℓ, .waiting⟩) false)) :
    wp (system n numDomains) (Inv numDomains) (.climber p d) (act (.getTurn (place d p ℓ))) Q
      (.climb ⟨ℓ, .waiting⟩ false) := by
  refine wp_act fun s γ hInv hlive hv ch turn s' hx => ⟨_, ?_, h turn⟩
  obtain ⟨rfl, rfl⟩ := outcome_eq hx
  by_cases hmine : s.turns (place d p ℓ).node ≠ (place d p ℓ).role.other
  · rw [if_pos hmine, if_pos hmine]
    exact hInv.passTurn hlive hd hv hℓ hmine
  · rw [if_neg hmine, if_neg hmine, ← hv, update_eq_self]
    exact hInv

omit hd in
/-- Past the node, whatever the turn says. -/
theorem wp_getTurn_passed {Q : Role → View n → Prop}
    (h : ∀ turn, Q turn (.climb ⟨ℓ + 1, .out⟩ false)) :
    wp (system n numDomains) (Inv numDomains) (.climber p d) (act (.getTurn (place d p ℓ))) Q
      (.climb ⟨ℓ + 1, .out⟩ false) := by
  refine wp_act fun s γ hInv hlive hv ch turn s' hx => ⟨_, ?_, h turn⟩
  obtain ⟨rfl, rfl⟩ := outcome_eq hx
  have hsame : setCell s.standing p d ⟨ℓ + 1, .out⟩ = s.standing :=
    setCell_eq_self (hInv.standing_eq hlive hv)
  rw [← hv, update_eq_self]
  split
  · show Inv numDomains { s with standing := setCell s.standing p d ⟨ℓ + 1, .out⟩ } γ
    rw [hsame]
    exact hInv
  · exact hInv

theorem wp_spinNode (hℓ : ℓ < (bracket n).depth) (turns : Nat) :
    wp (system n numDomains) (Inv numDomains) (.climber p d) (spinNode (place d p ℓ) turns)
      (afterLevel ℓ) (.climb ⟨ℓ, .waiting⟩ false) := by
  induction turns with
  | zero =>
    rw [spinNode, wp_bind]
    exact wp_act fun s γ hInv hlive hv ch r s' hx => by simp [access] at hx
  | succ turns ih =>
    rw [spinNode, wp_bind]
    refine wp_getOther hd hℓ fun owner => ?_
    rw [wp_bind]
    by_cases hidle : owner = noPeer
    · rw [if_pos hidle]
      refine wp_getTurn_passed fun turn => ?_
      rw [if_pos (.inl hidle), wp_pure]
      rfl
    · rw [if_neg hidle]
      refine wp_getTurn hd hℓ fun turn => ?_
      by_cases hmine : turn ≠ (place d p ℓ).role.other
      · rw [if_pos hmine, if_pos (.inr hmine), wp_pure]
        rfl
      · rw [if_neg hmine, if_neg (not_or.mpr ⟨hidle, hmine⟩), wp_bind]
        refine wp_ask (fun ch s r s' hx => ?_) fun expired => ?_
        · cases ch <;> simp_all [access]
        · split
          · refine .bind <| wp_clearMine hd hℓ (.inr ⟨rfl, by simp⟩) (fun m hm => ?_) rfl
            simp [Standing.Active]
            omega
          · exact ih

theorem wp_lockNode (hn : n ≤ noPeer) (hℓ : ℓ < (bracket n).depth) :
    wp (system n numDomains) (Inv numDomains) (.climber p d) (lockNode (place d p ℓ))
      (afterLevel ℓ) (.climb ⟨ℓ, .out⟩ false) := by
  rw [lockNode, wp_bind]
  refine wp_write (fun _ _ => rfl) fun s γ hInv hlive hv => ?_
  refine ⟨_, hInv.announce hn hlive hd hv hℓ, ?_⟩
  refine .bind <| wp_write (fun _ _ => rfl) fun s γ hInv hlive hv => ?_
  refine ⟨_, hInv.yieldTurn hlive hd hv hℓ, ?_⟩
  refine .bind <| wp_ask (fun ch s r s' hx => ?_) fun turns => wp_spinNode hd hℓ turns
  cases ch <;> simp_all [access]

/-- The levels of a climb below `ℓ`, the topmost first. -/
def levelsBelow (p : Fin n) (ℓ : Nat) : List ClimbStep := ((List.range ℓ).map (climbStep p)).reverse

omit hd in
theorem levelsBelow_succ (p : Fin n) (ℓ : Nat) :
    levelsBelow p (ℓ + 1) = climbStep p ℓ :: levelsBelow p ℓ := by
  simp [levelsBelow, List.range_succ]

omit hd in
@[simp] theorem length_levelsBelow (p : Fin n) (ℓ : Nat) : (levelsBelow p ℓ).length = ℓ := by
  simp [levelsBelow]

/-- Back out of the levels won, or release them: top down. -/
theorem wp_unlockNodes (hℓ : ℓ ≤ (bracket n).depth) {Q : Unit → View n → Prop}
    (h : Q () (.climb ⟨0, .out⟩ false)) : wp (system n numDomains) (Inv numDomains) (.climber p d)
      (unlockNodes (treeNodes n) d (levelsBelow p ℓ)) Q (.climb ⟨ℓ, .out⟩ false) := by
  induction ℓ with
  | zero => exact h
  | succ ℓ ih =>
    rw [levelsBelow_succ, unlockNodes, length_levelsBelow, rung_climbStep, wp_bind]
    refine wp_clearMine hd hℓ (.inl (Nat.lt_succ_self ℓ)) (fun m hm => ?_)
      (ih (Nat.le_of_succ_le hℓ))
    simp [Standing.Active]
    omega

/-- **The climb.** It ends at the root, or back at the leaf. -/
theorem wp_climb (hn : n ≤ noPeer) (k : Nat) (hk : ℓ + k = (bracket n).depth) :
    wp (system n numDomains) (Inv numDomains) (.climber p d)
      (climb (treeNodes n) d ((List.range' ℓ k).map (climbStep p)) (levelsBelow p ℓ))
      (fun won v => v = .climb ⟨if won then (bracket n).depth else 0, .out⟩ false)
      (.climb ⟨ℓ, .out⟩ false) := by
  induction k generalizing ℓ with
  | zero =>
    rw [List.range'_zero, List.map_nil, climb, wp_pure, ← hk]
    rfl
  | succ k ih =>
    rw [List.range'_succ, List.map_cons, climb, length_levelsBelow, rung_climbStep]
    refine wp_seq (wp_lockNode hd hn (by omega)) fun won => ?_
    cases won with
    | true =>
      rw [if_pos rfl, if_pos rfl, ← levelsBelow_succ]
      exact ih (by omega)
    | false =>
      rw [if_neg (by simp), if_neg (by simp), wp_bind]
      exact wp_unlockNodes hd (by omega) rfl

end Climbs

/-! ### Scrubs -/

/-- One level of a scrub brings every domain of the list down to it. -/
theorem wp_scrubDomains (hn : n ≤ noPeer) (hℓ : ℓ < (bracket n).depth) (domains : List DomainId)
    {bound : DomainId → Nat} (hbound : ∀ d ∈ domains, bound d ≤ ℓ + 1) {Q : Unit → View n → Prop}
    (h : Q () (.scrub dead (fun d => if d ∈ domains then ℓ else bound d) none)) :
    wp (system n numDomains) (Inv numDomains) (.scrubber p)
      (scrubDomains (treeNodes n) dead ℓ (climbStep dead ℓ) domains) Q
      (.scrub dead bound none) := by
  induction domains generalizing bound with
  | nil => simpa [scrubDomains] using h
  | cons d domains ih =>
    have hd : bound d ≤ ℓ + 1 := hbound d (by simp)
    -- the rest of the list, once this domain is down to the level
    have hrest : wp (system n numDomains) (Inv numDomains) (.scrubber p)
        (scrubDomains (treeNodes n) dead ℓ (climbStep dead ℓ) domains) Q
        (.scrub dead (update bound d ℓ) none) := by
      refine ih (fun d' hd' => ?_) ?_
      · by_cases heq : d' = d
        · rw [heq, update_self]
          exact Nat.le_succ ℓ
        · rw [update_of_ne heq]
          exact hbound d' (List.mem_cons_of_mem d hd')
      · convert h using 2
        funext d'
        by_cases heq : d' = d
        · subst heq
          simp
        · simp [heq]
    rw [scrubDomains, rung_climbStep, wp_bind]
    refine wp_act fun s γ hInv hlive hv ch owner s' hx => ?_
    obtain ⟨rfl, rfl⟩ := outcome_eq hx
    by_cases hact : (s.standing dead d).Active ℓ
    · refine ⟨_, hInv.scrubFound hlive hv hact, ?_⟩
      rw [if_pos ((hInv.names_iff hn hℓ).mpr hact), wp_bind]
      refine wp_write (fun _ _ => rfl) fun s γ hInv hlive hv => ?_
      exact ⟨_, hInv.clearDead hn hlive hv hd hℓ, hrest⟩
    · refine ⟨_, hInv.scrubSkip hlive hv hd hact, ?_⟩
      rw [if_neg (fun heq => hact ((hInv.names_iff hn hℓ).mp heq))]
      exact hrest

/-- The levels from `ℓ` down leave nothing of the crashed peer. -/
theorem wp_scrubLevels (hn : n ≤ noPeer) (hℓ : ℓ ≤ (bracket n).depth) {bound : DomainId → Nat}
    (hbound : ∀ d < numDomains, bound d ≤ ℓ) {Q : Unit → View n → Prop}
    (h : ∀ bound : DomainId → Nat, (∀ d < numDomains, bound d = 0) → Q () (.scrub dead bound none)) :
    wp (system n numDomains) (Inv numDomains) (.scrubber p)
      (scrubLevels (treeNodes n) numDomains dead (levelsBelow dead ℓ)) Q
      (.scrub dead bound none) := by
  induction ℓ generalizing bound with
  | zero => exact h bound fun d hd => Nat.le_zero.mp (hbound d hd)
  | succ ℓ ih =>
    rw [levelsBelow_succ, scrubLevels, length_levelsBelow, wp_bind]
    refine wp_scrubDomains hn hℓ _ (fun d hd => hbound d (List.mem_range.mp hd)) ?_
    refine ih (Nat.le_of_succ_le hℓ) fun d hd => ?_
    rw [if_pos (List.mem_range.mpr hd)]

theorem wp_cleanupCall (hn : n ≤ noPeer) : wp (system n numDomains) (Inv numDomains) (.scrubber p)
      (cleanupCall (treeNodes n) numDomains dead
        ((List.range (bracket n).depth).map (climbStep dead)))
      (fun _ v => v = .idle) .idle := by
  rw [cleanupCall, wp_bind]
  refine wp_act fun s γ hInv hlive hv ch r s' hx => ?_
  obtain ⟨hfree, hx⟩ := of_guard hx
  obtain ⟨-, rfl⟩ := Prod.mk.inj hx
  rw [Bool.and_eq_true] at hfree
  refine ⟨_, hInv.beginScrub hlive hfree.1 hfree.2, ?_⟩
  rw [wp_bind, cleanupDeadPeer]
  refine wp_scrubLevels hn le_rfl (fun d _ => le_rfl) fun bound hbound => ?_
  refine wp_write (fun _ _ => rfl) fun s γ hInv hlive hv => ?_
  exact ⟨.idle, hInv.endScrub hlive hv hbound, rfl⟩

/-! ### Every run -/

/-- What a thread knows between two calls. -/
def Rest : Tid n → View n → Prop
  | .climber _ _, v => v = .climb ⟨0, .out⟩ false ∨ v = .climb ⟨(bracket n).depth, .out⟩ true
  | .scrubber _, v => v = .idle

theorem rest_freshView (i : Tid n) : Rest i (freshView i) := by
  cases i with
  | climber p d => exact .inl rfl
  | scrubber p => rfl

theorem wp_acquireCall (hn : n ≤ noPeer) (hd : d < numDomains) :
    wp (system n numDomains) (Inv numDomains) (.climber p d)
      (acquireCall (treeNodes n) d ((List.range (bracket n).depth).map (climbStep p)))
      (fun _ => Rest (.climber p d)) (.climb ⟨0, .out⟩ false) := by
  have hclimb := wp_climb (p := p) (ℓ := 0) hd hn (bracket n).depth (Nat.zero_add _)
  rw [← List.range_eq_range'] at hclimb
  rw [acquireCall]
  refine wp_seq hclimb fun won => ?_
  cases won with
  | true =>
    rw [if_pos rfl, if_pos rfl]
    refine wp_write (fun _ _ => rfl) fun s γ hInv hlive hv => ?_
    exact ⟨_, hInv.setInside hlive true hv (fun _ => rfl), .inr rfl⟩
  | false => exact .inl rfl

theorem wp_releaseCall (hd : d < numDomains) :
    wp (system n numDomains) (Inv numDomains) (.climber p d)
      (releaseCall (treeNodes n) d ((List.range (bracket n).depth).map (climbStep p)))
      (fun _ => Rest (.climber p d)) (.climb ⟨(bracket n).depth, .out⟩ true) := by
  rw [releaseCall, wp_bind]
  refine wp_write (fun _ _ => rfl) fun s γ hInv hlive hv => ?_
  refine ⟨_, hInv.setInside hlive false hv (fun h => by cases h), ?_⟩
  exact wp_unlockNodes hd le_rfl (.inl rfl)

theorem getNodesPerDomain_some {nodes : Nat} (h : getNodesPerDomain n = some nodes) :
    n ≤ noPeer ∧ nodes = treeNodes n := by
  rw [getNodesPerDomain, Option.map_eq_some_iff] at h
  obtain ⟨leaves, hleaves, rfl⟩ := h
  obtain ⟨hn, rfl⟩ := roundUpPow2_some hleaves
  exact ⟨hn.trans (by decide), rfl⟩

theorem climb_starts {k : Nat → List ClimbStep → Proc n Unit} {code : Proc n Unit}
    (h : (do
      let nodes ← getNodesPerDomain n
      let path ← buildClimbPath n p
      some (k nodes path)) = some code) :
    n ≤ noPeer ∧ k (treeNodes n) ((List.range (bracket n).depth).map (climbStep p)) = code := by
  simp only [Option.bind_eq_bind, Option.bind_eq_some_iff] at h
  obtain ⟨nodes, hnodes, path, hpath, hcode⟩ := h
  obtain ⟨hn, rfl⟩ := getNodesPerDomain_some hnodes
  rw [buildClimbPath_eq p hpath] at hcode
  exact ⟨hn, Option.some.inj hcode⟩

theorem outline (n numDomains : Nat) : Outline (system n numDomains) (Inv numDomains) Rest where
  start := by
    intro i call s γ code hInv hrest hstart
    replace hstart : start numDomains i call s = some code := hstart
    refine ⟨γ i, by rwa [update_eq_self], ?_⟩
    unfold start at hstart
    split at hstart
    · cases hstart
    rename_i hlive
    split at hstart
    · rename_i p d
      split at hstart
      · rename_i hout
        obtain ⟨hn, rfl⟩ := climb_starts hstart
        have hview := hInv.climber p d (by simpa [Tid.peer] using hlive)
        rw [hout.2] at hview
        -- a climber that is not inside rests at the bottom
        rcases hrest with hzero | hroot
        · rw [hzero]
          exact wp_acquireCall hn hout.1
        · rw [hroot] at hview
          exact absurd (View.climb.inj hview).2 (by simp)
      · cases hstart
    · rename_i p d
      split at hstart
      · rename_i hin
        obtain ⟨hn, rfl⟩ := climb_starts hstart
        have hview := hInv.climber p d (by simpa [Tid.peer] using hlive)
        rw [hin.2] at hview
        -- and one that is inside at the root
        rcases hrest with hzero | hroot
        · rw [hzero] at hview
          exact absurd (View.climb.inj hview).2 (by simp)
        · rw [hroot]
          exact wp_releaseCall hin.1
      · cases hstart
    · rename_i p dead
      obtain ⟨hn, rfl⟩ := climb_starts hstart
      replace hrest : γ (.scrubber p) = .idle := hrest
      rw [hrest]
      exact wp_cleanupCall hn
    · cases hstart
  env := by
    intro e s γ s' hInv he
    cases e with
    | crash p =>
      obtain rfl := Option.some.inj he
      exact ⟨γ, hInv.crash p, fun i => by simp [system, kills]⟩
    | occupy p =>
      obtain ⟨hfree, rfl⟩ := of_guard he
      simp only [Bool.and_eq_true] at hfree
      refine ⟨_, hInv.occupy hfree.1.2 hfree.2, fun i => ?_⟩
      by_cases hi : i.peer = p
      · simpa [system, kills, hi] using rest_freshView i
      · simp [system, kills, hi]

theorem inv_initial (n numDomains : Nat) : Inv numDomains (State.initial n) freshView := by
  refine ⟨fun d => ?_, fun p d _ => rfl, fun p d _ hin => by simp [State.initial] at hin,
    fun p d _ => rfl, fun p dead bound seen _ hs => by simp [freshView] at hs,
    fun p hc => by simp [State.initial] at hc, rfl⟩
  have hseats : seats (n := n) (State.initial n).lines d = fun _ => none := by
    funext c
    unfold seats
    split
    · exact named_noPeer
    · rfl
  show (bracket n).Fair (fun _ => ⟨0, .out⟩) _ _
  rw [hseats]
  exact Bracket.Fair.init _

theorem outlined_reachable {c : Config (Tid n) (Op n) Ret (State n)}
    (h : (system n numDomains).Reachable (initial n) c) :
    Outlined (system n numDomains) (Inv numDomains) Rest c :=
  (outline n numDomains).reachable
    (outlined_of_idle (fun _ => rfl) (inv_initial n numDomains) rest_freshView) h

theorem inv_reachable {c : Config (Tid n) (Op n) Ret (State n)}
    (h : (system n numDomains).Reachable (initial n) c) : ∃ γ, Inv numDomains c.shared γ := by
  obtain ⟨γ, hInv, -⟩ := outlined_reachable h
  exact ⟨γ, hInv⟩

/-- Every line of a tree is a seat of its bracket. -/
theorem exists_seat {node : Nat} (hnode : node < treeNodes n) (role : Role) :
    ∃ c, 2 ≤ c ∧ c < 2 ^ ((bracket n).depth + 1) ∧
      nodeOver n d c = d * treeNodes n + node ∧ Role.ofSide (side c) = role := by
  have hpos := Nat.two_pow_pos (bracket n).depth
  unfold treeNodes at hnode
  rw [Nat.pow_succ]
  cases role with
  | peer0 =>
    refine ⟨2 * (node + 1), by omega, by omega, ?_, ?_⟩
    · rw [nodeOver, Nat.mul_div_cancel_left _ (by omega), Nat.add_sub_cancel]
    · have hmod : 2 * (node + 1) % 2 = 0 := by omega
      rw [side, hmod]
      rfl
  | peer1 =>
    refine ⟨2 * (node + 1) + 1, by omega, by omega, ?_, ?_⟩
    · have hhalf : (2 * (node + 1) + 1) / 2 - 1 = node := by omega
      rw [nodeOver, hhalf]
    · have hmod : (2 * (node + 1) + 1) % 2 = 1 := by omega
      rw [side, hmod]
      rfl

/-- A peer that stands nowhere in a tree is written nowhere in it. -/
theorem Inv.not_written {γ : Tid n → View n} (hInv : Inv numDomains s γ) (hn : n ≤ noPeer)
    (hout : s.standing p d = ⟨0, .out⟩) {node : Nat} (hnode : node < treeNodes n)
    (role : Role) : s.lines (d * treeNodes n + node) role ≠ p := by
  intro hline
  obtain ⟨c, hlo, hhi, hc, hrole⟩ := exists_seat (d := d) hnode role
  have hseat : seats (n := n) s.lines d c = some p := by
    rw [seats, if_pos ⟨hlo, hhi⟩, hc, hrole, hline, named_val hn]
  obtain ⟨ℓ, -, -, hact⟩ := (hInv.fair d).active_line p c hseat
  rw [hout] at hact
  simp [Standing.Active] at hact

/-- **The tournament.** In every run of climbs, back-outs, releases, crashes,
scrubs and new occupants, of any number of peers over any number of domains: at
most one live peer is inside a domain's section, no scrub has cleared the
announce of a live peer, and no line of any tree names a peer whose scrub has
finished and with whose id nobody climbed since. -/
theorem tournament_exclusion (n numDomains : Nat) (c : Config (Tid n) (Op n) Ret (State n))
    (h : (system n numDomains).Reachable (initial n) c) :
    (∀ d p q, c.shared.crashed p = false → c.shared.crashed q = false →
      c.shared.inside p d = true → c.shared.inside q d = true → p = q) ∧
    c.shared.erased = false ∧
    (∀ dead, c.shared.clean dead = true → ∀ nodesPerDomain,
      getNodesPerDomain n = some nodesPerDomain → ∀ d, ∀ node < nodesPerDomain, ∀ role,
        c.shared.lines (d * nodesPerDomain + node) role ≠ dead) := by
  obtain ⟨γ, hInv⟩ := inv_reachable h
  refine ⟨fun d p q hp hq hpin hqin => ?_, hInv.erased, fun dead hclean nodes hnodes d node hnode
    role => ?_⟩
  · have hpr := hInv.inside p d hp hpin
    have hqr := hInv.inside q d hq hqin
    exact (hInv.fair d).champion_unique (by rw [hpr]) (by rw [hqr])
  · obtain ⟨hn, rfl⟩ := getNodesPerDomain_some hnodes
    exact hInv.not_written hn (hInv.clean dead hclean d) hnode role

/-- Peer 0 wins the root of the two-peer tree and crashes there. Peer 1 climbs
and waits, scrubs what is left of peer 0, and gets in. -/
def crashAndScrub : List (Action (Tid 2) Choice (Call 2) (Env 2)) :=
  let p : Fin 2 := ⟨0, Nat.zero_lt_two⟩
  let q : Fin 2 := ⟨1, Nat.one_lt_two⟩
  let i : Tid 2 := .climber p 0
  let j : Tid 2 := .climber q 0
  let scrubber : Tid 2 := .scrubber q
  .start i .acquire :: execs i [.any, .any, .nat 1, .any, .any, .any] ++
  .start j .acquire :: execs j [.any, .any, .nat 2, .any, .any, .flag false] ++
  .env (.crash p) :: .start scrubber (.cleanupDeadPeer p) :: steps scrubber 4 ++ steps j 3

theorem tournament_exclusion_crashAndScrub :
    ∃ c, (system 2 1).Reachable (initial 2) c ∧ c.shared.inside 0 0 = true ∧
      c.shared.inside 1 0 = true ∧ c.shared.crashed 0 = true ∧ c.shared.clean 0 = true ∧
      (∀ d p q, c.shared.crashed p = false → c.shared.crashed q = false →
        c.shared.inside p d = true → c.shared.inside q d = true → p = q) ∧
      c.shared.erased = false ∧
      (∀ dead, c.shared.clean dead = true → ∀ nodesPerDomain,
        getNodesPerDomain 2 = some nodesPerDomain → ∀ d, ∀ node < nodesPerDomain, ∀ role,
          c.shared.lines (d * nodesPerDomain + node) role ≠ dead) := by
  obtain ⟨c, hc, hin₀, hin₁, hcrash, hclean⟩ := System.exists_of_run (system 2 1) (initial 2)
    crashAndScrub (P := fun c => c.shared.inside 0 0 = true ∧ c.shared.inside 1 0 = true ∧
      c.shared.crashed 0 = true ∧ c.shared.clean 0 = true) (by decide)
  exact ⟨c, hc, hin₀, hin₁, hcrash, hclean, tournament_exclusion 2 1 c hc⟩

end Cme.Tournament
