import Cme.Daemon.Mirror

/-!
# Daemon — join counts against ledgers

The entry of a domain counts joins (`joined_`), and each connection keeps a set
of the names it is in. They come apart on ordinary messages: a second join on
one connection counts twice and is recorded once (`joined_twice`). In the runs in
which a connection takes part in a domain once at a time, a delete meets no
other connection's name, and creates and joins find the table up to date, the
count of every Live slot is the number of connections that have its name
(`joined_eq_holders`).
-/

namespace Cme.Daemon

open Function Interleave

variable {C : Type} [Fintype C] {lim : Limits} {t : Tid} {s : State}
variable {α : Type} {d : DomainId}

/-! ### One thread alone -/

/-- Nothing is asked of any slot, and no turn is held. -/
structure Still (s : State) : Prop where
  mutex : ∀ d, s.turns.mutex d = .free
  idle : ∀ d, s.turns.state d = .idle
  guard : ∀ d, s.turns.guard d = none
  waiters : ∀ d, s.requests.waiters d = 0

/-- What the events keep. -/
structure Good (lim : Limits) (s : State) (joins : C → JoinLedger) : Prop where
  still : Still s
  tally : Tally lim s.registry s.region joins

variable {Q : Unit → State → Prop}

theorem solo_lockNaming
    (h : Q () { s with registry := { s.registry with naming := some t } }) :
    solo (system lim) t (act .lockNaming) Q s := by
  refine solo.perform fun ch x s' hx => ?_
  obtain ⟨-, rfl⟩ := exec_lockNaming lim hx
  exact h

theorem solo_lockCounting
    (h : Q () { s with turns := { s.turns with
      counting := update s.turns.counting d (some t) } }) :
    solo (system lim) t (act (.lockCounting d)) Q s := by
  refine solo.perform fun ch x s' hx => ?_
  obtain ⟨-, rfl⟩ := exec_lockCounting lim hx
  exact h

theorem solo_tryLockIfIdle (hs : Still s) {Q : Bool → State → Prop}
    (h : ∀ told, Q true { s with turns := { s.turns with
      mutex := update s.turns.mutex d (.held t false)
      told := told } }) :
    solo (system lim) t (tryLockIfIdle d) Q s := by
  have htry : ∀ ch, exec lim t (.tryLock d .tryLockIfIdle) ch s = some (some false,
      { s with turns := { s.turns with
        mutex := update s.turns.mutex d (.held t false)
        told := s.turns.told || (false && Site.tryLockIfIdle == .tryLockIfIdle &&
          s.turns.state d == .lockHeld) } }) := by
    intro ch
    change (execTurns t (.tryLock d .tryLockIfIdle) ch s.turns).map
      (fun x => (x.1, { s with turns := x.2 })) = _
    rw [execTurns, hs.mutex d]
    rfl
  refine solo_next htry (.bind (solo_next (fun _ => rfl) ?_))
  refine amid_then (hs.idle d) (solo_next (fun _ => rfl) ?_)
  refine amid_else ?_ (h _)
  change ¬ decide (s.requests.waiters d > 0) = true
  simp [hs.waiters d]

theorem solo_unlockMutex
    (h : ∀ left, Q () { s with turns := { s.turns with
      mutex := update s.turns.mutex d .free
      left := left } }) :
    solo (system lim) t (act (.unlockMutex d)) Q s := by
  cases t <;> exact solo_step (fun _ => rfl) (h _)

theorem Still.release (hs : Still s) {m : RobustMutex Tid} {told left : Bool} {registry : Registry}
    {region : Region} {expires : DomainId → Nat} {counting : DomainId → Option Tid} : Still { s with
      turns := { s.turns with
        mutex := update (update s.turns.mutex d m) d .free
        expiresAtNanos := expires
        counting := counting
        told := told
        left := left }
      registry := registry
      region := region } where
  mutex d' := by
    by_cases hd : d' = d
    · simp [hd]
    · simp [hd, hs.mutex d']
  idle := hs.idle
  guard := hs.guard
  waiters := hs.waiters

/-- What the region may answer to a call by name: a refusal, that the name is
unknown, or what it does with the domain. -/
theorem solo_byName {x : Text} (o : Op) {Q : Ret o → State → Prop} {refused : RegionError → Ret o}
    {unknown : Ret o} {found : DomainId → Ret o × Region} (hpart : o.part = .region)
    (hexec : ∀ ch, execRegion lim.domainCount o ch s.region = match ch with
      | .refused e => some (refused e, s.region)
      | .any =>
        match s.region.resolve lim.domainCount x with
        | none => some (unknown, s.region)
        | some id => some (found id)
      | _ => none)
    (hrefused : ∀ e, Q (refused e) s) (hunknown : Q unknown s)
    (hfound : ∀ id, s.region.resolve lim.domainCount x = some id →
      Q (found id).1 { s with region := (found id).2 }) : solo (system lim) t (act o) Q s := by
  refine .perform fun ch r s' hx => ?_
  replace hx : exec lim t o ch s = some (r, s') := hx
  rw [exec, hpart] at hx
  simp only [hexec] at hx
  cases ch with
  | refused e =>
    cases hx
    exact hrefused e
  | any =>
    cases hid : s.region.resolve lim.domainCount x <;> rw [hid] at hx <;>
      cases hx
    · exact hunknown
    · exact hfound _ hid
  | _ => cases hx

theorem solo_joinDomain {x : Text} {Q : Except RegionError Handle → State → Prop}
    (herr : ∀ e, Q (.error e) s)
    (hok : ∀ id, s.region.resolve lim.domainCount x = some id →
      Q (.ok ⟨id, s.region.generation id⟩) { s with region := { s.region with
        participates := update s.region.participates id true } }) :
    solo (system lim) t (act (.joinDomain x)) Q s :=
  solo_byName (.joinDomain x) rfl (by rintro ⟨⟩ <;> rfl) herr (herr _) hok

/-! ### Naming -/

section Naming

variable {joins : C → JoinLedger} {x : Text} {n : DomainName}

theorem Tally.setId {r : Registry} {g : Region} (h : Tally lim r g joins) (hx : NulFree x)
    (hn : DomainName.make x = some n) (hd : r.Stands d x) :
    Tally lim { r with ids := update r.ids n (some d) } g joins := by
  have hids : update r.ids n (some d) = r.ids := by
    rw [update_eq_self_iff]
    exact ((h.index x n hx hn d).mpr hd).symm
  rw [hids]
  exact h

/-- A domain of the region claims its slot: it is there already, or the slot
stands for nothing. -/
theorem solo_claim (h : Good lim s joins) {handle : Handle} (hn : DomainName.make x = some n)
    (hg : s.region.name handle.id = some x)
    (hup : UpToDate s.registry s.region)
    {Q : DomainAnswer → State → Prop} (hunusable : Q .nameUnusable s)
    (hserved : ∀ s', Good lim s' joins → s'.region = s.region → s'.registry.Stands handle.id x →
      (∀ d', d' ≠ handle.id → (s'.registry.Live d' ↔ s.registry.Live d') ∧
        s'.registry.text d' = s.registry.text d') → Q .served s') :
    solo (system lim) t (claim lim n handle) Q s := by
  have hx : NulFree x := (h.tally.regionRange _ x hg).2.2
  have htext : n.getText = x := getText_make hx hn
  unfold claim
  split
  · exact hunusable
  rename_i hlt
  refine .bind (amid_isNamed trivial s.shows ?_)
  rw [htext]
  by_cases hl : s.registry.Live handle.id
  · have ht := Option.some.inj ((hup _ hl).symm.trans hg)
    refine amid_then (decide_eq_true ⟨hl, ht⟩) (solo_next (fun _ => rfl) ?_)
    exact hserved _ ⟨{ h.still with },
      h.tally.setId hx hn ⟨hl, ht⟩⟩ rfl ⟨hl, ht⟩ fun d' _ => ⟨Iff.rfl, rfl⟩
  · refine amid_else (fun hb => hl (of_decide_eq_true hb).1) (solo_next (fun _ => rfl) ?_)
    refine amid_else (fun hb => hl (beq_iff_eq.mp hb)) ?_
    refine solo_next (fun _ => rfl) ?_
    refine amid_else (fun hb => h.tally.unbroken handle.id (beq_iff_eq.mp hb)) ?_
    refine solo_next (fun _ => rfl) (solo_next (fun _ => rfl) ?_)
    refine solo_next (fun _ => rfl) ?_
    refine hserved _ ⟨{ h.still with },
      h.tally.publish hx hn (Nat.lt_of_not_le hlt) hl (h.tally.nobody hg hl) fun d' hd' => ?_⟩
      rfl ⟨update_self .., ?_⟩ fun d' hd' => ⟨?_, ?_⟩
    · exact hl (h.tally.regionDistinct d' _ _ (hd'.2 ▸ hup d' hd'.1) hg ▸ hd'.1)
    · change readField (update s.registry.name handle.id n.field handle.id) = x
      rw [update_self]
      exact htext
    · change update s.registry.state handle.id .live d' = .live ↔ _
      rw [update_of_ne hd']
      exact Iff.rfl
    · change readField (update s.registry.name handle.id n.field d') = _
      rw [update_of_ne hd']
      rfl

end Naming

/-! ### A refresh pass -/

section Refresh

variable {joins : C → JoinLedger}

/-- The records of the region, as a walk lists them. -/
def Region.entries (g : Region) (ids : List DomainId) : List DomainEntry :=
  ids.filterMap fun id => (g.name id).map fun name => ⟨name, ⟨id, g.generation id⟩⟩

theorem Region.mem_entries {g : Region} {ids : List DomainId} {entry : DomainEntry}
    (h : entry ∈ g.entries ids) : g.name entry.handle.id = some entry.name := by
  obtain ⟨id, -, he⟩ := List.mem_filterMap.mp h
  obtain ⟨name, hname, rfl⟩ := Option.map_eq_some_iff.mp he
  exact hname

theorem Region.entry_mem {g : Region} {ids : List DomainId} {x : Text} (hd : d ∈ ids)
    (h : g.name d = some x) : ⟨x, ⟨d, g.generation d⟩⟩ ∈ g.entries ids :=
  List.mem_filterMap.mpr ⟨d, hd, by rw [h]; rfl⟩

theorem solo_getDomainEntries (ids : List DomainId)
    {Q : Except RegionError (List DomainEntry) → State → Prop} (herr : ∀ e, Q (.error e) s)
    (hok : Q (.ok (s.region.entries ids)) s) : solo (system lim) t (getDomainEntries ids) Q s := by
  induction ids generalizing Q with
  | nil => exact hok
  | cons id rest ih =>
    refine .bind (solo.perform fun ch r s' hx => ?_)
    replace hx : (execRegion lim.domainCount (.getRecord id) ch s.region).map
        (fun x => (x.1, { s with region := x.2 })) = some (r, s') := hx
    cases ch with
    | refused e =>
      cases hx
      exact herr e
    | any =>
      cases hx
      refine .bind (ih (fun e => herr e) ?_)
      have hcons : s.region.entries (id :: rest) = ((s.region.name id).map fun name =>
          (⟨name, ⟨id, s.region.generation id⟩⟩ : DomainEntry)).toList ++
            s.region.entries rest := by
        rw [Region.entries, List.filterMap_cons]
        cases s.region.name id <;> rfl
      rw [hcons] at hok
      exact hok
    | _ => simp [execRegion] at hx

variable {Q : Unit → State → Prop}

theorem solo_retireSlot (h : Good lim s joins) (hd : s.registry.Live d)
    (hj : s.registry.joined d = 0) (told : Bool)
    (hok : ∀ s', Good lim s' joins → s'.region = s.region →
      (∀ d', s'.registry.Live d' ↔ d' ≠ d ∧ s.registry.Live d') →
      (∀ d', d' ≠ d → s'.registry.text d' = s.registry.text d') → Q () s') :
    solo (system lim) t (retireSlot d) Q { s with turns := { s.turns with
      mutex := update s.turns.mutex d (.held t false)
      told := told } } := by
  obtain ⟨-, n, hn⟩ := h.tally.range d _ ⟨hd, rfl⟩
  have hnobody : ∀ c, s.registry.text d ∉ joins c := by
    rw [← card_holders_eq_zero, ← h.tally.count d _ ⟨hd, rfl⟩]
    exact hj
  have hids : s.registry.ids n = some d :=
    (h.tally.index _ n (nulFree_readField _) hn d).mpr ⟨hd, rfl⟩
  have hjoined : update s.registry.joined d 0 = s.registry.joined := by
    rw [update_eq_self_iff]
    exact hj.symm
  refine solo_next (fun _ => rfl) (solo_next (fun _ => rfl)
    (solo_next (fun _ => rfl) ?_))
  dsimp only
  rw [show DomainName.make (readField (s.registry.name d)) = some n from hn]
  refine solo_next (r := ()) (u := { s with
    turns := { s.turns with
      mutex := update s.turns.mutex d (.held t false)
      told := told }
    registry := { s.registry with
      state := update s.registry.state d .free
      name := update s.registry.name d clearedField
      ids := update s.registry.ids n none } }) (fun ch => ?_) ?_
  · change some ((), _) = some ((), _)
    simp only [hids, if_true]
  have hretired := h.tally.retire ⟨hd, rfl⟩ hn hnobody fun _ _ _ => Iff.rfl
  rw [hjoined] at hretired
  refine solo_unlockMutex fun left => hok _ ⟨h.still.release, hretired⟩ rfl (fun d' => ?_)
    fun d' hd' => ?_
  · change update s.registry.state d .free d' = .live ↔ _
    by_cases hd' : d' = d
    · simp [hd']
    · simp [hd', Registry.Live]
  · change readField (update s.registry.name d clearedField d') = _
    rw [update_of_ne hd']
    rfl

/-- The pass frees the slots that are not confirmed, and no others. -/
theorem solo_retireStale (h : Good lim s joins) {confirmed : List DomainId}
    (hc : ∀ d, s.registry.Live d → s.region.name d = some (s.registry.text d) → d ∈ confirmed)
    (slots : List DomainId)
    (hok : ∀ s', Good lim s' joins → s'.region = s.region →
      (∀ d, s'.registry.Live d → s.registry.Live d ∧ s'.registry.text d = s.registry.text d) →
      (∀ d ∈ slots, s'.registry.Live d → d ∈ confirmed) → Q () s') :
    solo (system lim) t (retireStale confirmed slots) Q s := by
  induction slots generalizing s with
  | nil => exact hok s h rfl (fun d hl => ⟨hl, rfl⟩) fun d hd => by simp at hd
  | cons d rest ih =>
    -- a slot that stays is confirmed, or stands for nothing
    have hnext : (s.registry.Live d → d ∈ confirmed) →
        solo (system lim) t (retireStale confirmed rest) Q s := fun hd =>
      ih h hc fun s' h' hr hl hdone => hok s' h' hr hl fun d' hd' hl' => by
        rcases List.mem_cons.mp hd' with rfl | hd'
        · exact hd (hl d' hl').1
        · exact hdone d' hd' hl'
    refine .bind (amid_isTaken trivial s.shows ?_)
    by_cases hlive : s.registry.Live d
    · refine amid_then (decide_eq_true (by rw [hlive]; decide)) ?_
      split
      · rename_i hmem
        exact hnext fun _ => hmem
      rename_i hmem
      have hj : s.registry.joined d = 0 := by
        by_contra hpos
        exact hmem (hc d hlive (h.tally.backed d (Nat.pos_of_ne_zero hpos)).2)
      refine .bind (solo_tryLockIfIdle h.still fun told => amid_then rfl ?_)
      refine .bind (solo_retireSlot h hlive hj told fun s₁ h₁ hr₁ hl₁ ht₁ => ?_)
      have hback : ∀ d', s₁.registry.Live d' →
          s.registry.Live d' ∧ s₁.registry.text d' = s.registry.text d' := fun d' hl' =>
        ⟨((hl₁ d').mp hl').2, ht₁ d' ((hl₁ d').mp hl').1⟩
      refine ih h₁ (fun d' hl' hn' => ?_) fun s' h' hr hl hdone => ?_
      · rw [hr₁, (hback d' hl').2] at hn'
        exact hc d' (hback d' hl').1 hn'
      · refine hok s' h' (hr.trans hr₁) (fun d' hl' => ?_) fun d' hd' hl' => ?_
        · obtain ⟨hl'', ht''⟩ := hl d' hl'
          exact ⟨(hback d' hl'').1, ht''.trans (hback d' hl'').2⟩
        · rcases List.mem_cons.mp hd' with rfl | hd'
          · exact absurd rfl ((hl₁ d').mp (hl d' hl').1).1
          · exact hdone d' hd' hl'
    · refine amid_else (fun hb => ?_) (hnext fun hl => absurd hl hlive)
      -- a slot that is neither Live nor Broken is Free
      cases hstate : s.registry.state d with
      | free => exact of_decide_eq_true hb hstate
      | live => exact hlive hstate
      | broken => exact h.tally.unbroken d hstate

/-- Claiming what the region has, with the table up to date. -/
theorem solo_claimAll (h : Good lim s joins) (hup : UpToDate s.registry s.region)
    (entries : List DomainEntry)
    (he : ∀ entry ∈ entries, s.region.name entry.handle.id = some entry.name) (hok : ∀ s', Good lim s' joins → Q () s') :
    solo (system lim) t (claimAll lim entries) Q s := by
  induction entries generalizing s with
  | nil => exact hok s h
  | cons entry rest ih =>
    have hg := he entry (.head _)
    have hrest : ∀ e ∈ rest, s.region.name e.handle.id = some e.name := fun e hmem =>
      he e (.tail _ hmem)
    unfold claimAll
    cases hn : DomainName.make entry.name with
    | none => exact ih h hup hrest
    | some n =>
      refine .bind (solo_claim h hn hg hup (ih h hup hrest)
        fun s₁ h₁ hr₁ hst₁ hsame => ih h₁ (fun d' hl' => ?_) ?_)
      · rw [hr₁]
        by_cases hd : d' = entry.handle.id
        · rw [hd, hst₁.2]
          exact hg
        · rw [(hsame d' hd).2]
          exact hup d' ((hsame d' hd).1.mp hl')
      · rw [hr₁]
        exact hrest

theorem mem_dataRange {count d : Nat} (h0 : d ≠ 0) (hlt : d < count) :
    d ∈ (List.range count).drop 1 := by
  obtain ⟨k, rfl⟩ : ∃ k, d = k + 1 := ⟨d - 1, by omega⟩
  rw [List.range_eq_range', List.drop_range', List.mem_range'_1]
  omega

theorem Good.setNaming (h : Good lim s joins) (naming : Option Tid) :
    Good lim { s with registry := { s.registry with naming := naming } } joins :=
  ⟨{ h.still with }, { h.tally with }⟩

theorem solo_refresh (h : Good lim s joins) :
    solo (system lim) t (refresh lim) (fun _ s' => Good lim s' joins) s := by
  refine .bind (solo.perform fun ch b s' hx => ?_)
  replace hx : (execOutside .refreshExpired ch).map (fun x => (x, s)) = some (b, s') := hx
  obtain ⟨x, -, hxs⟩ := Option.map_eq_some_iff.mp hx
  obtain ⟨rfl, rfl⟩ := Prod.mk.inj hxs
  split
  · refine .bind (solo_lockNaming ?_)
    have h₁ := h.setNaming (some t)
    generalize hs₁ : ({ s with registry := { s.registry with naming := some t } } : State) = s₁ at h₁
    refine .bind (solo_getDomainEntries _ (fun e => ?_) ?_)
    · exact solo_step (fun _ => rfl) (h₁.setNaming none)
    refine .bind (amid_confirm trivial s₁.shows _ fun confirmed hc => ?_)
    refine .bind (solo_retireStale h₁ (fun d hl hn => ?_) _
      fun s₂ h₂ hr₂ hl₂ hdone => ?_)
    · obtain ⟨h0, hlt, -⟩ := h₁.tally.regionRange d _ hn
      exact (hc d).mpr ⟨(h₁.tally.range d _ ⟨hl, rfl⟩).1, _,
        Region.entry_mem (mem_dataRange h0 hlt) hn, rfl, .inl ⟨hl, rfl⟩⟩
    refine .bind (solo_claimAll h₂ (fun d hl => ?_) _ (fun entry he => ?_)
      fun s₃ h₃ => solo_step (fun _ => rfl) (h₃.setNaming none))
    · obtain ⟨-, entry, he, rfl, ⟨-, hname⟩ | hbroken⟩ :=
        (hc d).mp (hdone d (List.mem_range.mpr (h₂.tally.range d _ ⟨hl, rfl⟩).1) hl)
      · rw [hr₂, (hl₂ _ hl).2]
        exact (Region.mem_entries he).trans (congrArg some hname.symm)
      · exact absurd hbroken (h₁.tally.unbroken _)
    · rw [hr₂]
      exact Region.mem_entries he
  · exact h

end Refresh

/-! ### The messages -/

section Messages

variable {joins : C → JoinLedger} {x : Text} {n : DomainName} {c : C}

theorem Good.setCounting (h : Good lim s joins) (counting : DomainId → Option Tid) :
    Good lim { s with turns := { s.turns with counting := counting } } joins :=
  ⟨{ h.still with }, h.tally⟩

theorem solo_findNamed (h : Good lim s joins) {Q : Option DomainId → State → Prop}
    (hok : ∀ s', Good lim s' joins → s'.region = s.region → s'.registry.ids = s.registry.ids →
      (∀ d, s'.registry.Live d ↔ s.registry.Live d) →
      (∀ d, s'.registry.text d = s.registry.text d) → Q (s.registry.ids n) s') :
    solo (system lim) t (findNamed n) Q s := by
  refine .bind (solo_lockNaming (solo_next (fun _ => rfl) ?_))
  refine solo_next (fun _ => rfl) ?_
  exact hok _ ((h.setNaming (some t)).setNaming none) rfl rfl (fun _ => Iff.rfl) fun _ => rfl

variable [DecidableEq C]

/-- The ledgers after an answer. -/
def recorded (joins : C → JoinLedger) (c : C) (asked : Command) (held : Text)
    (answer : DomainAnswer) : C → JoinLedger :=
  if answer.code = 0 then Function.update joins c (record asked held (joins c)) else joins

omit [Fintype C] in
theorem recorded_served {asked : Command} :
    recorded joins c asked x .served = update joins c (record asked x (joins c)) := rfl

theorem solo_join (h : Good lim s joins) (hx : NulFree x) (hn : DomainName.make x = some n)
    (hup : UpToDate s.registry s.region) (hc : x ∉ joins c) : solo (system lim) t (join n)
      (fun answer s' => Good lim s' (recorded joins c .joinDomain x answer)) s := by
  refine .bind (solo_findNamed h fun s₁ h₁ hr hids hlive htext => ?_)
  cases hfound : s.registry.ids n with
  | none => exact h₁
  | some d =>
    obtain ⟨hl, rfl⟩ := (h.tally.index x n hx hn d).mp hfound
    refine .bind (solo_lockCounting (.bind (solo_joinDomain (fun e => ?_)
      fun id hid => ?_)))
    · cases e <;> exact solo_next (fun _ => rfl)
        ((h₁.setCounting _).setCounting _)
    -- the slot is up to date, so the join resolves to it
    have hname : s₁.region.name d = some (s₁.registry.text d) := by
      rw [hr, htext d]
      exact hup d hl
    have hd : id = d := by
      rw [getText_make hx hn, ← htext d] at hid
      exact Option.some.inj (hid.symm.trans (h₁.tally.resolve hname))
    subst hd
    refine solo_next (fun _ => rfl) (solo_next (fun _ => rfl) ?_)
    rw [← htext id, solo_pure, recorded_served]
    have ht₂ := h₁.tally.setParticipates id true fun hf => absurd hf (by simp)
    exact ⟨⟨h₁.still.mutex, h₁.still.idle, h₁.still.guard, h₁.still.waiters⟩,
      ht₂.addJoin ⟨(hlive id).mpr hl, rfl⟩ (by rwa [htext id]) (update_self ..) hname⟩

theorem solo_dropJoin (hpos : 0 < s.registry.joined d) {Q : Bool → State → Prop}
    (h : Q true { s with registry := { s.registry with
      joined := update s.registry.joined d (s.registry.joined d - 1) } }) :
    solo (system lim) t (act (.dropJoin d)) Q s := by
  refine solo_step (fun ch => ?_) h
  change (execRegistry t (.dropJoin d) ch s.registry).map
    (fun x => (x.1, { s with registry := x.2 })) = _
  rw [execRegistry, if_neg (by omega)]
  rfl

variable {Q : Unit → State → Prop}

/-- A leave ends the participation in the domain it resolves to, or nothing. -/
theorem solo_leaveByName (hstay : Q () s)
    (hleft : ∀ id, s.region.resolve lim.domainCount x = some id →
      Q () { s with region := { s.region with
        participates := update s.region.participates id false } }) :
    solo (system lim) t (act (.leaveByName x)) Q s :=
  solo_byName (.leaveByName x) rfl (by rintro ⟨⟩ <;> rfl) (fun _ => hstay) hstay hleft

theorem solo_leave (h : Good lim s joins) (hx : NulFree x) (hn : DomainName.make x = some n)
    (hc : x ∈ joins c) : solo (system lim) t (leave n) (fun answer s' => answer = .served ∧
      Good lim s' (update joins c ((joins c).erase x))) s := by
  obtain ⟨d, hl, rfl⟩ := h.tally.held c x hc
  have hids : s.registry.ids n = some d := (h.tally.index _ n hx hn d).mpr ⟨hl, rfl⟩
  refine .bind (solo_findNamed h fun s₁ h₁ hr _ hlive htext => ?_)
  rw [hids]
  rw [← htext d] at hc hx hn ⊢
  replace hl := (hlive d).mpr hl
  have hpos := h₁.tally.joined_pos ⟨hl, rfl⟩ hc
  have hname := (h₁.tally.backed d hpos).2
  refine .bind (solo_lockCounting (.bind ?_))
  refine solo_dropJoin (by exact hpos) (amid_then rfl ?_)
  have htally := h₁.tally.dropJoin ⟨hl, rfl⟩ hc
  refine solo_next (fun _ => rfl) ?_
  by_cases hlast : s₁.registry.joined d - 1 = 0
  · have hkeeps : ¬ (decide (update s₁.registry.joined d (s₁.registry.joined d - 1) d > 0)
        || (s₁.turns.guard d).isSome) = true := by
      rw [update_self, hlast, h₁.still.guard d]
      simp
    refine amid_else hkeeps (.bind (solo_leaveByName ?_ fun id hid => ?_))
    · exact solo_next (fun _ => rfl) ⟨rfl, ⟨h₁.still.mutex, h₁.still.idle,
        h₁.still.guard, h₁.still.waiters⟩, htally⟩
    · have hd : id = d := by
        rw [getText_make hx hn] at hid
        exact Option.some.inj (hid.symm.trans (h₁.tally.resolve hname))
      subst hd
      refine solo_next (fun _ => rfl) ⟨rfl, ⟨h₁.still.mutex, h₁.still.idle,
        h₁.still.guard, h₁.still.waiters⟩, htally.setParticipates id false fun _ => ?_⟩
      simp only [update_self]
      exact hlast
  · have hkeeps : (decide (update s₁.registry.joined d (s₁.registry.joined d - 1) d > 0)
        || (s₁.turns.guard d).isSome) = true := by
      rw [update_self]
      simp only [Bool.or_eq_true, decide_eq_true_eq]
      exact Or.inl (by omega)
    refine amid_then hkeeps (solo_next (fun _ => rfl) ?_)
    exact ⟨rfl, ⟨h₁.still.mutex, h₁.still.idle, h₁.still.guard, h₁.still.waiters⟩, htally⟩

theorem solo_createDomain {Q : Except RegionError Handle → State → Prop}
    (herr : ∀ e, Q (.error e) s)
    (hok : ∀ id, id ≠ controlDomainId → id < lim.domainCount → s.region.name id = none →
      s.region.resolve lim.domainCount x = none →
      Q (.ok ⟨id, s.region.generation id + 1⟩) { s with region := { s.region with
        name := update s.region.name id (some x)
        generation := update s.region.generation id (s.region.generation id + 1)
        participates := update s.region.participates id true } }) :
    solo (system lim) t (act (.createDomain x)) Q s := by
  refine .perform fun ch r s' hx => ?_
  replace hx : (execRegion lim.domainCount (.createDomain x) ch s.region).map
      (fun x => (x.1, { s with region := x.2 })) = some (r, s') := hx
  cases ch with
  | refused e =>
    cases hx
    exact herr e
  | domain slot =>
    cases slot with
    | none => simp [execRegion] at hx
    | some id =>
      rw [execRegion] at hx
      split at hx
      · cases hx
        exact herr _
      · rename_i hres
        split at hx
        · rename_i hid
          cases hx
          exact hok id hid.1 hid.2.1 hid.2.2 (by simpa using hres)
        · simp at hx
  | _ => simp [execRegion] at hx

/-- A create that has its domain: the claim, and the count where it took. -/
theorem solo_finishCreate (h : Good lim s joins) (hn : DomainName.make x = some n)
    (hup : UpToDate s.registry s.region) {created : Handle} (hg : s.region.name created.id = some x)
    (hp : s.region.participates created.id = true) (hc : x ∉ joins c) :
    solo (system lim) t (finishCreate lim n created)
      (fun answer s' => Good lim s' (recorded joins c .createDomain x answer)) s := by
  refine .bind (solo_lockNaming (.bind ?_))
  refine solo_claim (h.setNaming (some t)) hn hg hup ?_ fun s₁ h₁ hr₁ hst₁ _ => ?_
  · refine solo_next (fun _ => rfl) (amid_else (by decide) ?_)
    exact (h.setNaming (some t)).setNaming none
  · refine solo_next (fun _ => rfl) (amid_then rfl ?_)
    refine .bind (solo_lockCounting (solo_next (fun _ => rfl)
      (solo_next (fun _ => rfl) ?_)))
    rw [solo_pure, recorded_served]
    have htally := ((h₁.setNaming none).tally).addJoin hst₁ hc (by rw [hr₁]; exact hp)
      (by rw [hr₁]; exact hg)
    exact ⟨⟨h₁.still.mutex, h₁.still.idle, h₁.still.guard, h₁.still.waiters⟩, htally⟩

theorem solo_create (h : Good lim s joins) (hx : NulFree x) (hn : DomainName.make x = some n)
    (hup : UpToDate s.registry s.region) (hc : x ∉ joins c) : solo (system lim) t (create lim n)
      (fun answer s' => Good lim s' (recorded joins c .createDomain x answer)) s := by
  have htext := getText_make hx hn
  -- where the domain exists already, it is joined
  have hjoin {k : Except RegionError Handle → Proc DomainAnswer}
      (hjoined : ∀ created, k (.ok created) = finishCreate lim n created)
      (hfailed : ∀ e, solo (system lim) t (k (.error e))
        (fun answer s' => Good lim s' (recorded joins c .createDomain x answer)) s) :
      solo (system lim) t (act (.joinDomain n.getText) >>= k)
        (fun answer s' => Good lim s' (recorded joins c .createDomain x answer)) s := by
    refine .bind (solo_joinDomain hfailed fun id hid => ?_)
    · rw [htext] at hid
      rw [hjoined]
      refine solo_finishCreate ?_ hn ?_ ?_ ?_ hc
      · exact ⟨{ h.still with },
          h.tally.setParticipates id true fun hf => absurd hf (by simp)⟩
      · exact hup
      · exact resolve_eq_some hid
      · exact update_self ..
  refine .bind (solo_createDomain (fun e => ?_) fun id h0 hlt hfree hnew => ?_)
  · cases e with
    | domainExists => exact hjoin (fun _ => rfl) fun e => by cases e <;> exact h
    | _ => exact h
  · rw [htext] at hnew ⊢
    have htally := h.tally.addDomain hx h0 hlt hfree hnew
      (update s.region.generation id (s.region.generation id + 1))
      (p := update s.region.participates id true) fun d hd => by
        by_cases hdi : d = id
        · simp [hdi]
        · simpa [hdi] using hd
    refine solo_finishCreate ?_ hn (fun d hl => ?_) ?_ ?_ hc
    · exact ⟨{ h.still with }, htally⟩
    · have hne : d ≠ id := by
        rintro rfl
        rw [hup d hl] at hfree
        simp at hfree
      simpa only [update_of_ne hne] using hup d hl
    · exact update_self ..
    · exact update_self ..

theorem solo_deleteDomain {Q : Except RegionError Unit → State → Prop}
    (herr : ∀ e, Q (.error e) s)
    (hok : ∀ id, s.region.resolve lim.domainCount x = some id →
      Q (.ok ()) { s with region := { s.region with
        name := update s.region.name id none
        participates := update s.region.participates id false } }) :
    solo (system lim) t (act (.deleteDomain x)) Q s :=
  solo_byName (.deleteDomain x) rfl (by rintro ⟨⟩ <;> rfl) herr (herr _) hok

theorem solo_retire (hids : s.registry.ids n = some d)
    (h : ∀ counting, Q () { s with
      turns := { s.turns with counting := counting }
      registry := { s.registry with
        name := update s.registry.name d clearedField
        ids := update s.registry.ids n none
        joined := update s.registry.joined d 0 } }) :
    solo (system lim) t (retire n d) Q s := by
  refine solo_next (fun _ => rfl) (.bind ?_)
  refine solo_step (r := ()) (u := { s with registry := { s.registry with
    name := update s.registry.name d clearedField
    ids := update s.registry.ids n none } }) (fun _ => ?_) ?_
  · change some ((), _) = some ((), _)
    simp only [hids, if_true]
  refine .bind (solo_lockCounting (solo_next (fun _ => rfl) ?_))
  exact solo_step (fun _ => rfl) (h _)

/-- The domain is deleted and its slot retired, or the slot is Live again. -/
theorem solo_removeQuiet (hg : s.turns.guard d = none) (hids : s.registry.ids n = some d)
    {Q : DomainAnswer → State → Prop}
    (hgone : ∀ counting expires region,
      (region = s.region ∨ ∃ id, s.region.resolve lim.domainCount n.getText = some id ∧
        region = { s.region with
          name := update s.region.name id none
          participates := update s.region.participates id false }) →
      Q .served { s with
        turns := { s.turns with counting := counting, expiresAtNanos := expires }
        registry := { s.registry with
          name := update s.registry.name d clearedField
          ids := update s.registry.ids n none
          joined := update s.registry.joined d 0 }
        region := region })
    (hkept : ∀ answer counting expires, answer.code ≠ 0 → Q answer { s with
      turns := { s.turns with counting := counting, expiresAtNanos := expires }
      registry := { s.registry with state := update s.registry.state d .live } }) :
    solo (system lim) t (removeQuiet n d) Q s := by
  have hguard : update s.turns.guard d none = s.turns.guard := by
    rw [update_eq_self_iff]
    exact hg.symm
  refine .bind (solo_lockCounting ?_)
  refine solo_next (r := ()) (u := { s with turns := { s.turns with
    counting := update s.turns.counting d (some t) } }) (fun _ => ?_) ?_
  · change some ((), _) = some ((), _)
    simp only [hguard]
  refine solo_next (fun _ => rfl) (solo_next (fun _ => rfl) ?_)
  refine .bind (solo_deleteDomain (fun e => ?_) fun id hid => ?_)
  · cases e with
    | unknownDomain =>
      refine .bind (solo_retire ?_ fun counting => ?_)
      · exact hids
      · exact hgone _ _ _ (Or.inl rfl)
    | notParticipating => exact solo_next (fun _ => rfl) (hkept _ _ _ (by decide))
    | _ => exact solo_next (fun _ => rfl) (hkept _ _ _ (by decide))
  · refine .bind (solo_retire ?_ fun counting => ?_)
    · exact hids
    · exact hgone _ _ _ (Or.inr ⟨id, hid, rfl⟩)

theorem solo_askTurns {Q : Nat → State → Prop} (h : ∀ turns, Q turns s) :
    solo (system lim) t (act .askTurns) Q s := by
  refine .perform fun ch turns s' hx => ?_
  replace hx : (execOutside .askTurns ch).map (fun x => (x, s)) = some (turns, s') := hx
  obtain ⟨x, -, hxs⟩ := Option.map_eq_some_iff.mp hx
  obtain ⟨rfl, rfl⟩ := Prod.mk.inj hxs
  exact h _

theorem solo_spin : solo (system lim) t (act .spin) Q s := by
  refine .perform fun ch r s' hx => ?_
  replace hx : (execOutside .spin ch).map (fun x => (x, s)) = some (r, s') := hx
  cases ch <;> exact absurd hx (by simp [execOutside])

theorem solo_removeSlot (hs : Still s) (hl : s.registry.Live d) (hids : s.registry.ids n = some d)
    {Q : DomainAnswer → State → Prop}
    (hgone : ∀ s', Still s' →
      s'.registry = { s.registry with
        state := update s.registry.state d .free
        name := update s.registry.name d clearedField
        ids := update s.registry.ids n none
        joined := update s.registry.joined d 0 } →
      (s'.region = s.region ∨ ∃ id, s.region.resolve lim.domainCount n.getText = some id ∧
        s'.region = { s.region with
          name := update s.region.name id none
          participates := update s.region.participates id false }) →
      Q .served s')
    (hkept : ∀ answer s', answer.code ≠ 0 → Still s' → s'.registry = s.registry →
      s'.region = s.region → Q answer s') :
    solo (system lim) t (removeSlot n d) Q s := by
  have hstate : update (update s.registry.state d .free) d .live
      = s.registry.state := by
    rw [update_idem, update_eq_self_iff]
    exact hl.symm
  refine solo_next (fun _ => rfl) (.bind (solo_askTurns fun turns => ?_))
  refine .bind ?_
  cases turns with
  | zero => exact .bind solo_spin
  | succ turns =>
    refine .bind (solo_tryLockIfIdle ?_ fun told => amid_then rfl ?_)
    · exact { hs with }
    refine amid_then rfl (.bind (solo_removeQuiet ?_ ?_ (fun counting expires region hr => ?_)
      fun answer counting expires ha => ?_))
    · exact hs.guard d
    · exact hids
    · refine .bind (solo_unlockMutex fun left => ?_)
      exact hgone _ hs.release rfl hr
    · refine .bind (solo_unlockMutex fun left => ?_)
      refine hkept answer _ ha hs.release ?_ rfl
      simp only [hstate]

theorem solo_remove (h : Good lim s joins) (hx : NulFree x) (hn : DomainName.make x = some n)
    (hc : ∀ c', c' ≠ c → x ∉ joins c') : solo (system lim) t (remove n)
      (fun answer s' => Good lim s' (recorded joins c .deleteDomain x answer)) s := by
  refine .bind (solo_lockNaming (solo_next (fun _ => rfl) ?_))
  have h₁ := h.setNaming (some t)
  cases hfound : s.registry.ids n with
  | none => exact solo_next (fun _ => rfl) (h₁.setNaming none)
  | some d =>
    obtain ⟨hl, rfl⟩ := (h.tally.index x n hx hn d).mp hfound
    refine .bind (solo_lockCounting (solo_next (fun _ => rfl)
      (solo_next (fun _ => rfl) ?_)))
    by_cases hpos : s.registry.joined d = 0
    · refine amid_else ?_ (solo_next (fun _ => rfl) ?_)
      · change ¬ (decide (s.registry.joined d > 0) || (s.turns.guard d).isSome) = true
        simp [hpos, h.still.guard d]
      · exact ((h₁.setCounting _).setCounting _).setNaming none
    · refine amid_then ?_ (.bind (solo_removeSlot ?_ ?_ ?_ (fun s₁ hs₁ hr₁ hg₁ => ?_)
        fun answer s₁ ha hs₁ hr₁ hg₁ => ?_))
      · change (decide (s.registry.joined d > 0) || (s.turns.guard d).isSome) = true
        simp [Nat.pos_of_ne_zero hpos]
      · exact { h.still with }
      · exact hl
      · exact hfound
      · refine solo_next (fun _ => rfl) ?_
        have hgone : ∀ c', s.registry.text d ∉ recorded joins c .deleteDomain
            (s.registry.text d) .served c' := by
          intro c'
          rw [recorded_served]
          by_cases hcc : c' = c
          · simp [hcc, record]
          · rw [update_of_ne hcc]
            exact hc c' hcc
        have hsame : ∀ c' y, y ≠ s.registry.text d → (y ∈ recorded joins c .deleteDomain
            (s.registry.text d) .served c' ↔ y ∈ joins c') := by
          intro c' y hy
          rw [recorded_served]
          by_cases hcc : c' = c
          · simp [hcc, record, hy]
          · rw [update_of_ne hcc]
        have hretired := h₁.tally.retire ⟨hl, rfl⟩ hn hgone hsame
        refine Good.setNaming ⟨hs₁, ?_⟩ none
        rw [hr₁]
        rcases hg₁ with hg₁ | ⟨id, hid, hg₁⟩
        · rw [hg₁]
          exact hretired
        · have hname := (h.tally.backed d (Nat.pos_of_ne_zero hpos)).2
          have hd : id = d := by
            rw [getText_make hx hn] at hid
            exact Option.some.inj (hid.symm.trans (h.tally.resolve hname))
          rw [hg₁]
          refine hretired.removeDomain ?_ fun d' hne => update_of_ne hne ..
          rw [hd]
          exact update_self ..
      · refine solo_next (fun _ => rfl) ?_
        rw [solo_pure, recorded, if_neg ha]
        refine Good.setNaming ⟨hs₁, ?_⟩ none
        rw [hr₁, hg₁]
        exact h₁.tally

/-- The commands the counts follow. -/
def Command.Calm (asked : Command) (x : Text) (c : C) (joins : C → JoinLedger) (s : State) : Prop :=
  match asked with
  | .createDomain | .joinDomain => x ∉ joins c ∧ UpToDate s.registry s.region
  | .leaveDomain => x ∈ joins c
  | .deleteDomain => ∀ c', c' ≠ c → x ∉ joins c'

theorem solo_serveCommand (h : Good lim s joins) (hx : NulFree x) {asked : Command}
    (hcalm : asked.Calm x c joins s) : solo (system lim) t (serveCommand lim asked x)
      (fun answer s' => Good lim s' (recorded joins c asked x answer)) s := by
  cases hn : DomainName.make x with
  | none =>
    rw [serveCommand, hn]
    exact h
  | some n =>
    rw [serveCommand, hn]
    cases asked with
    | createDomain => exact solo_create h hx hn hcalm.2 hcalm.1
    | deleteDomain => exact solo_remove h hx hn hcalm
    | joinDomain => exact solo_join h hx hn hcalm.2 hcalm.1
    | leaveDomain =>
      refine amid_mono (solo_leave h hx hn hcalm) fun answer s' hs' => ?_
      rw [hs'.1, recorded_served]
      exact hs'.2

/-- A closing connection gives back every name it is in. -/
theorem solo_giveBack (h : Good lim s joins) (names : List Text) (hnodup : names.Nodup)
    (hall : names.toFinset = joins c) : solo (system lim) t (giveBack lim names)
      (fun _ s' => Good lim s' (update joins c ∅)) s := by
  -- each leave takes its name off the ledger the rest of the walk is about
  induction names generalizing s joins with
  | nil =>
    have hempty : update joins c ∅ = joins := by
      rw [update_eq_self_iff, ← hall]
      rfl
    rw [hempty]
    exact h
  | cons name rest ih =>
    have hc : name ∈ joins c := by
      rw [← hall]
      simp
    obtain ⟨d, hl, rfl⟩ := h.tally.held c name hc
    obtain ⟨-, n, hn⟩ := h.tally.range d _ ⟨hl, rfl⟩
    obtain ⟨hnew, hrest⟩ := List.nodup_cons.mp hnodup
    refine .bind ?_
    rw [serveCommand, hn]
    refine amid_mono (solo_leave h (nulFree_readField _) hn hc) fun answer s' hs' => ?_
    have hlast : rest.toFinset = update joins c ((joins c).erase (s.registry.text d)) c := by
      rw [update_self, ← hall, List.toFinset_cons,
        Finset.erase_insert (by simpa using hnew)]
    refine amid_mono (ih hs'.2 hrest hlast) fun _ s'' hs'' => ?_
    rwa [update_idem] at hs''

end Messages

/-! ### Whole runs -/

/-- A connection joins or creates a name it is not in while the table is up to
date, leaves one it is in, and deletes one no other connection is in. -/
def Calm : Event C → Node C → Prop
  | .message c asked field, n => asked.Calm (readField field) c n.joins n.daemon
  | _, _ => True

theorem Good.fresh : Good lim (Node.fresh (C := C)).daemon (Node.fresh (C := C)).joins where
  still := ⟨fun _ => rfl, fun _ => rfl, fun _ => rfl, fun _ => rfl⟩
  tally :=
    { count := fun _ _ hd => nomatch hd.1
      unused := fun _ _ => rfl
      unbroken := fun _ hb => nomatch hb
      range := fun _ _ hd => nomatch hd.1
      held := fun _ _ hx => absurd hx (Finset.notMem_empty _)
      distinct := fun _ _ _ hd => nomatch hd.1
      index := fun _ _ _ _ _ => ⟨nofun, fun hl => nomatch hl.1⟩
      backed := fun _ hj => absurd hj (Nat.lt_irrefl 0)
      regionDistinct := fun _ _ _ hn => nomatch hn
      regionRange := fun _ _ hn => nomatch hn }

variable [DecidableEq C]

theorem Good.step {n n' : Node C} {e : Event C} (h : Good lim n.daemon n.joins)
    (hcalm : Calm e n) (hstep : Node.Step lim e n n') : Good lim n'.daemon n'.joins := by
  cases hstep with
  | message hrun => exact hrun.of_solo (solo_serveCommand h (nulFree_readField _) hcalm)
  | disconnect hnodup hall hrun => exact hrun.of_solo (solo_giveBack h _ hnodup hall)
  | refresh hrun => exact hrun.of_solo (solo_refresh h)
  | createElsewhere htext henv =>
    obtain ⟨hid, ⟨⟩⟩ := of_guard henv
    exact ⟨{ h.still with },
      h.tally.addDomain htext hid.1 hid.2.1 hid.2.2.1 hid.2.2.2 _ fun _ hp => hp⟩
  | @deleteElsewhere _ id _ henv =>
    obtain ⟨hid, ⟨⟩⟩ := of_guard henv
    refine ⟨{ h.still with },
      h.tally.removeDomain ?_ fun _ _ => rfl⟩
    by_contra hpos
    have hin := (h.tally.backed id (Nat.pos_of_ne_zero hpos)).1
    rw [hid.2] at hin
    simp at hin

theorem Good.runs {n : Node C} (h : Node.Runs lim Calm Node.fresh n) :
    Good lim n.daemon n.joins := by
  induction h with
  | refl => exact Good.fresh
  | tail _ hlast ih =>
    obtain ⟨e, hcalm, hstep⟩ := hlast
    exact ih.step hcalm hstep

/-- Between the events of a calm run, the count of a Live slot is the number of
connections that are in its name. -/
theorem joined_eq_holders {n : Node C} (h : Node.Runs lim Calm Node.fresh n) {d : DomainId}
    (hd : n.daemon.registry.Live d) :
    n.daemon.registry.joined d = (holders n.joins (n.daemon.registry.text d)).card :=
  (Good.runs h).tally.count d _ ⟨hd, rfl⟩

/-- A create of `x` on a connection, -/
def createX (c : C) : Event C × List Choice :=
  (.message c .createDomain ['x'], .domain (some 1) :: List.replicate 11 .any)

/-- a join of it, -/
def joinX (c : C) : Event C × List Choice := (.message c .joinDomain ['x'], List.replicate 7 .any)

/-- and a leave. -/
def leaveX (c : C) : Event C × List Choice := (.message c .leaveDomain ['x'], List.replicate 7 .any)

/-- One connection creates a domain, another joins it and the first leaves. -/
theorem joined_eq_holders_createX :
    ∃ n : Node Bool, Node.Runs ⟨2, 2⟩ Calm Node.fresh n ∧ n.daemon.registry.Live 1 ∧
      ['x'] ∈ n.joins true ∧ ['x'] ∉ n.joins false ∧
      n.daemon.registry.joined 1 = (holders n.joins (n.daemon.registry.text 1)).card := by
  have hrun : ((Node.fresh : Node Bool).perform ⟨2, 2⟩ (createX false).1 (createX false).2).any
      (fun n₁ => decide (['x'] ∉ n₁.joins true ∧ ∀ d ∈ List.range 2, n₁.daemon.registry.Live d →
          n₁.daemon.region.name d = some (n₁.daemon.registry.text d)) &&
        (n₁.perform ⟨2, 2⟩ (joinX true).1 (joinX true).2).any fun n₂ =>
          decide (['x'] ∈ n₂.joins false) &&
            (n₂.perform ⟨2, 2⟩ (leaveX false).1 (leaveX false).2).any fun n =>
              n.daemon.registry.Live 1 ∧ ['x'] ∈ n.joins true ∧ ['x'] ∉ n.joins false) = true := by
    decide +kernel
  obtain ⟨n₁, hcreate, hrun⟩ := (Option.any_eq_true _ _).mp hrun
  obtain ⟨hfirst, hrun⟩ := Bool.and_eq_true_iff.mp hrun
  obtain ⟨n₂, hjoin, hrun⟩ := (Option.any_eq_true _ _).mp hrun
  obtain ⟨hsecond, hrun⟩ := Bool.and_eq_true_iff.mp hrun
  obtain ⟨n, hleave, hlast⟩ := (Option.any_eq_true _ _).mp hrun
  obtain ⟨hnew, hnamed⟩ := of_decide_eq_true hfirst
  replace hsecond : ['x'] ∈ n₂.joins false := of_decide_eq_true hsecond
  obtain ⟨hl, hin, hout⟩ := of_decide_eq_true hlast
  have h₁ : Node.Runs ⟨2, 2⟩ Calm Node.fresh n₁ :=
    .single ⟨(createX false).1, ⟨Finset.notMem_empty _, fun _ h => nomatch h⟩, .of_perform hcreate⟩
  -- no slot beyond the table is Live
  have hup : UpToDate n₁.daemon.registry n₁.daemon.region := fun d hd =>
    hnamed d (List.mem_range.mpr ((Good.runs h₁).tally.range d _ ⟨hd, rfl⟩).1) hd
  have h₂ : Node.Runs ⟨2, 2⟩ Calm Node.fresh n₂ :=
    h₁.tail ⟨(joinX true).1, ⟨hnew, hup⟩, .of_perform hjoin⟩
  have h₃ : Node.Runs ⟨2, 2⟩ Calm Node.fresh n :=
    h₂.tail ⟨(leaveX false).1, hsecond, .of_perform hleave⟩
  exact ⟨n, h₃, hl, hin, hout, joined_eq_holders h₃ hl⟩

/-- A connection that creates a domain and then joins it is one, counted twice. -/
theorem joined_twice : ∃ n : Node Unit, Node.Runs ⟨2, 2⟩ (fun _ _ => True) Node.fresh n ∧
      n.daemon.registry.Live 1 ∧ n.daemon.registry.joined 1 = 2 ∧
      (holders n.joins (n.daemon.registry.text 1)).card = 1 := by
  have hend : (Node.performAll ⟨2, 2⟩ [createX (), joinX ()] Node.fresh).any (fun n =>
      n.daemon.registry.Live 1 ∧ n.daemon.registry.joined 1 = 2 ∧
        (holders n.joins (n.daemon.registry.text 1)).card = 1) = true := by decide +kernel
  obtain ⟨n, hn, hl⟩ := (Option.any_eq_true _ _).mp hend
  exact ⟨n, .of_performAll hn, of_decide_eq_true hl⟩

end Cme.Daemon
