import Cme.Daemon.Tally
import Cme.Interleave.Amid

/-!
# Daemon — the table after a refresh

A refresh reads the region's listing, confirms the slots that carry what is listed
at their number, frees the others, and claims what is listed. Nothing it does can
fail while the slots are idle, so the table then mirrors the listing, whatever it
was before (`refresh_mirrors_listing`). A slot that carried its listed name stays
as it is all the while.

`Slots` is what the pass reads and writes, and what the others leave alone while
every slot is idle and the naming mutex is held.
-/

namespace Cme.Daemon

open Function Interleave

/-- The words of the slots a refresh goes by. -/
structure Slots where
  mutex : DomainId → RobustMutex Tid
  request : DomainId → RequestState
  waiters : DomainId → Nat
  state : DomainId → SlotState
  name : DomainId → Text

def State.slots (s : State) : Slots :=
  ⟨s.turns.mutex, s.turns.state, s.requests.waiters, s.registry.state, s.registry.name⟩

namespace Slots

/-- Nobody is at the slot. -/
def Idle (v : Slots) (d : DomainId) : Prop :=
  v.mutex d = .free ∧ v.request d = .idle ∧ v.waiters d = 0

/-- The slot stands for a domain of that name. -/
def Named (v : Slots) (d : DomainId) (text : Text) : Prop :=
  v.state d = .live ∧ readField (v.name d) = text

instance (v : Slots) (d : DomainId) (text : Text) : Decidable (v.Named d text) :=
  inferInstanceAs (Decidable (_ ∧ _))

/-- The slots that stay as they are during the pass. -/
def Standing (kept : DomainId → Prop) (text : DomainId → Text) (v : Slots) : Prop :=
  ∀ d, kept d → v.Named d (text d)

def hold (v : Slots) (t : Tid) (d : DomainId) : Slots :=
  { v with mutex := update v.mutex d (.held t false) }

/-- A slot with a new state and a new field. -/
def put (v : Slots) (d : DomainId) (state : SlotState) (field : Text) : Slots :=
  { v with
    state := update v.state d state
    name := update v.name d field }

variable {v : Slots} {d e : DomainId} {kept : DomainId → Prop} {text : DomainId → Text}

theorem Standing.mark (h : v.Standing kept text) (hd : ¬ kept d) (next : SlotState) :
    Standing kept text { v with state := update v.state d next } := by
  intro e he
  have hne : e ≠ d := fun heq => hd (heq ▸ he)
  show update v.state d next e = .live ∧ readField (v.name e) = text e
  rw [update_of_ne hne]
  exact h e he

theorem Standing.rename (h : v.Standing kept text) (hd : ¬ kept d) (field : Text) :
    Standing kept text { v with name := update v.name d field } := by
  intro e he
  have hne : e ≠ d := fun heq => hd (heq ▸ he)
  show v.state e = .live ∧ readField (update v.name d field e) = text e
  rw [update_of_ne hne]
  exact h e he

theorem Standing.put (h : v.Standing kept text) (hd : ¬ kept d) (next : SlotState)
    (field : Text) : (v.put d next field).Standing kept text :=
  (h.mark hd next).rename hd field

theorem release_hold (h : v.Idle d) {t : Tid} :
    update (update v.mutex d (.held t false)) d .free = v.mutex := by
  rw [update_idem, ← h.1, update_eq_self]

end Slots

/-! ### Code that reads the slots -/

section Reads

variable {lim : Limits} {t : Tid} {d : DomainId} {V : Type} {view : State → V} {K : V → Prop}
variable {v : V} {state : DomainId → SlotState} {name : DomainId → Text}

/-- The view shows the states and the names of the slots. -/
def Shows (view : State → V) (v : V) (state : DomainId → SlotState) (name : DomainId → Text) :
    Prop :=
  ∀ s, view s = v → s.registry.state = state ∧ s.registry.name = name

variable (hK : K v) (hv : Shows view v state name)
include hK hv

theorem amid_isExpectedState {expected : SlotState} {Q : Bool → V → Prop}
    (h : Q (state d == expected) v) :
    amid (system lim) view K t (act (.isExpectedState d expected)) Q v := by
  refine amid_step (fun s hs ch r s' hx => ?_) hK h
  cases hx
  rw [(hv s hs).1]
  exact ⟨rfl, hs⟩

theorem amid_getName {Q : Text → V → Prop} (h : Q (readField (name d)) v) :
    amid (system lim) view K t (act (.getName d)) Q v := by
  refine amid_step (fun s hs ch r s' hx => ?_) hK h
  cases hx
  rw [(hv s hs).2]
  exact ⟨rfl, hs⟩

theorem amid_isNamed {x : Text} {Q : Bool → V → Prop}
    (h : Q (decide (state d = .live ∧ readField (name d) = x)) v) :
    amid (system lim) view K t (isNamed d x) Q v := by
  refine .bind (amid_isExpectedState hK hv ?_)
  by_cases hlive : state d = .live
  · refine amid_then (beq_iff_eq.mpr hlive) (.bind (amid_getName hK hv ?_))
    rwa [decide_eq_decide.mpr (and_iff_right hlive), ← beq_eq_decide] at h
  · refine amid_else (by simpa using hlive) ?_
    rwa [decide_eq_false fun hn => hlive hn.1] at h

theorem amid_isTaken {Q : Bool → V → Prop} (h : Q (decide (state d ≠ .free)) v) :
    amid (system lim) view K t (isTaken d) Q v := by
  refine .bind (amid_isExpectedState hK hv ?_)
  cases hstate : state d with
  | live =>
    rw [hstate] at h
    exact amid_then (by decide) h
  | _ =>
    refine amid_else (by decide) (amid_isExpectedState hK hv ?_)
    rw [hstate] at h ⊢
    exact h

/-- The slots confirmed are those that carry what is listed at their number, and the
Broken ones something is listed for. -/
theorem amid_confirm (living : List DomainEntry) {Q : List DomainId → V → Prop}
    (h : ∀ confirmed : List DomainId, (∀ d, d ∈ confirmed ↔ d < lim.maxDomains ∧
      ∃ e ∈ living, e.handle.id = d ∧
        ((state d = .live ∧ readField (name d) = e.name) ∨ state d = .broken)) → Q confirmed v) :
    amid (system lim) view K t (confirm lim living) Q v := by
  induction living generalizing Q with
  | nil => exact h [] (by simp)
  | cons e rest ih =>
    -- what the entry adds to the confirmed slots of the rest
    have hadd : e.handle.id < lim.maxDomains →
        ((state e.handle.id = .live ∧ readField (name e.handle.id) = e.name) ∨
          state e.handle.id = .broken) →
        amid (system lim) view K t (do return e.handle.id :: (← confirm lim rest)) Q v := by
      intro hlt hyes
      refine .bind (ih fun confirmed hc => h _ fun d => ?_)
      rw [List.mem_cons, hc d]
      constructor
      · rintro (rfl | ⟨hd, e', he', hid⟩)
        · exact ⟨hlt, e, .head _, rfl, hyes⟩
        · exact ⟨hd, e', .tail _ he', hid⟩
      · rintro ⟨hd, e', he', hid, hor⟩
        rcases List.mem_cons.mp he' with rfl | he'
        · exact .inl hid.symm
        · exact .inr ⟨hd, e', he', hid, hor⟩
    have hskip : (e.handle.id < lim.maxDomains →
        ¬ ((state e.handle.id = .live ∧ readField (name e.handle.id) = e.name) ∨
          state e.handle.id = .broken)) →
        amid (system lim) view K t (confirm lim rest) Q v := by
      intro hno
      refine ih fun confirmed hc => h _ fun d => ?_
      rw [hc d]
      constructor
      · rintro ⟨hd, e', he', hid⟩
        exact ⟨hd, e', .tail _ he', hid⟩
      · rintro ⟨hd, e', he', hid, hor⟩
        rcases List.mem_cons.mp he' with rfl | he'
        · exact absurd (hid ▸ hor) (hno (hid ▸ hd))
        · exact ⟨hd, e', he', hid, hor⟩
    unfold confirm
    by_cases hlt : e.handle.id < lim.maxDomains
    · refine amid_else (Nat.not_le.mpr hlt) (.bind (amid_isNamed hK hv ?_))
      by_cases hnamed : state e.handle.id = .live ∧ readField (name e.handle.id) = e.name
      · exact amid_then (decide_eq_true hnamed) (hadd hlt (.inl hnamed))
      · refine amid_else (by simpa using hnamed) (.bind (amid_isExpectedState hK hv ?_))
        by_cases hbroken : state e.handle.id = .broken
        · exact amid_then (beq_iff_eq.mpr hbroken) (hadd hlt (.inr hbroken))
        · exact amid_else (by simpa using hbroken) (hskip fun _ => not_or.mpr ⟨hnamed, hbroken⟩)
    · exact amid_then (Nat.not_lt.mp hlt) (hskip fun hlt' => absurd hlt' hlt)

end Reads

theorem State.shows (s : State) : Shows id s s.registry.state s.registry.name := by
  rintro _ rfl
  exact ⟨rfl, rfl⟩

theorem Slots.shows (v : Slots) : Shows State.slots v v.state v.name := by
  rintro s rfl
  exact ⟨rfl, rfl⟩

/-! ### The accesses -/

section Steps

variable {lim : Limits} {t : Tid} {kept : DomainId → Prop} {text : DomainId → Text}
variable {v : Slots} {d : DomainId}

/-- The pass among others that leave the slots alone. -/
abbrev mirroring (lim : Limits) (t : Tid) (kept : DomainId → Prop) (text : DomainId → Text)
    {α : Type} (p : Proc α) (Q : α → Slots → Prop) (v : Slots) : Prop :=
  amid (system lim) State.slots (Slots.Standing kept text) t p Q v

variable {Q : Bool → Slots → Prop}

/-- An access that nothing keeps from taking place and that goes by the slots alone. -/
theorem mirroring_act {o : Op} {Q : Ret o → Slots → Prop} {r : Slots → Ret o} {u : Slots → Slots}
    (hx : ∀ s ch, ((system lim).exec t o ch s).map (fun x => (x.1, x.2.slots)) =
      some (r s.slots, u s.slots))
    (hK : (u v).Standing kept text) (h : Q (r v) (u v)) :
    mirroring lim t kept text (act o) Q v := by
  refine amid_step (fun s hs ch r' s' hx' => ?_) hK h
  have hend := hx s ch
  rw [hx', hs] at hend
  exact Prod.mk.inj (Option.some.inj hend)

theorem mirroring_markState {next : SlotState} {Q : Unit → Slots → Prop} (hK : v.Standing kept text)
    (hd : ¬ kept d) (h : Q () { v with state := update v.state d next }) :
    mirroring lim t kept text (act (.markState d next)) Q v :=
  mirroring_act (r := fun _ => ()) (u := fun v => { v with state := update v.state d next }) (fun _ _ => rfl)
    (hK.mark hd next) h

theorem mirroring_setName {field : Text} {Q : Unit → Slots → Prop} (hK : v.Standing kept text)
    (hd : ¬ kept d) (h : Q () { v with name := update v.name d field }) :
    mirroring lim t kept text (act (.setName d field)) Q v :=
  mirroring_act (r := fun _ => ()) (u := fun v => { v with name := update v.name d field }) (fun _ _ => rfl)
    (hK.rename hd field) h

theorem mirroring_setId {n : DomainName} {Q : Unit → Slots → Prop} (hK : v.Standing kept text)
    (h : Q () v) : mirroring lim t kept text (act (.setId n d)) Q v :=
  mirroring_act (r := fun _ => ()) (u := id) (fun _ _ => rfl) hK h

theorem mirroring_clearId {n : DomainName} {Q : Unit → Slots → Prop} (hK : v.Standing kept text)
    (h : Q () v) : mirroring lim t kept text (act (.clearId n d)) Q v := by
  refine mirroring_act (r := fun _ => ()) (u := id) (fun s _ => ?_) hK h
  -- the binding goes only if it is this slot's; the slots stay either way
  show some ((), State.slots { s with registry := if _ then _ else s.registry }) = some ((), s.slots)
  split
  · rfl
  · rfl

theorem mirroring_unlockNaming {Q : Unit → Slots → Prop} (hK : v.Standing kept text)
    (h : Q () v) : mirroring lim t kept text (act .unlockNaming) Q v :=
  mirroring_act (r := fun _ => ()) (u := id) (fun _ _ => rfl) hK h

theorem mirroring_unlockMutex {Q : Unit → Slots → Prop} (hK : v.Standing kept text)
    (h : Q () { v with mutex := update v.mutex d .free }) :
    mirroring lim t kept text (act (.unlockMutex d)) Q v := by
  refine amid_step (u := { v with mutex := update v.mutex d .free })
    (fun s hs ch r s' hx => ?_) hK h
  cases hx
  subst hs
  cases t <;> exact ⟨rfl, rfl⟩

theorem mirroring_tryLockIfIdle (hK : v.Standing kept text) (hidle : v.Idle d)
    (h : Q true (v.hold t d)) : mirroring lim t kept text (tryLockIfIdle d) Q v := by
  obtain ⟨hmutex, hstate, hwaiters⟩ := hidle
  refine .bind (amid_step (r := some false) (u := v.hold t d)
    (fun s hs ch r s' hx => ?_) hK ?_)
  · have hfree : s.turns.mutex d = .free := by
      rw [← hmutex, ← hs]
      rfl
    replace hx : (execTurns t (.tryLock d .tryLockIfIdle) ch s.turns).map
        (fun x => (x.1, { s with turns := x.2 })) = some (r, s') := hx
    rw [execTurns, hfree] at hx
    cases hx
    subst hs
    exact ⟨rfl, rfl⟩
  -- nobody died at an idle slot, so nothing is recorded
  refine .bind (.bind (amid_step (r := .idle) (u := v.hold t d)
    (fun s hs ch r s' hx => ?_) hK ?_))
  · cases hx
    exact ⟨(congrArg (fun u : Slots => u.request d) hs).trans hstate, hs⟩
  refine amid_then rfl (.bind (amid_step (r := false) (u := v.hold t d)
    (fun s hs ch r s' hx => ?_) hK (amid_else Bool.false_ne_true h)))
  cases hx
  have hnone : s.requests.waiters d = 0 :=
    (congrArg (fun u : Slots => u.waiters d) hs).trans hwaiters
  refine ⟨?_, hs⟩
  rw [hnone]
  rfl

end Steps

/-! ### The listing -/

/-- A record of the region; the session lists it by what its name field reads as. -/
structure Record where
  field : Text
  handle : Handle

def Record.entry (r : Record) : DomainEntry := ⟨readField r.field, r.handle⟩

/-- The entries of the records at these ids. -/
def listing (records : List Record) (ids : List DomainId) : List DomainEntry :=
  ids.filterMap fun id => (records.find? fun r => r.handle.id == id).map Record.entry

/-- The refresh is due, and the region answers with the records. -/
def reads (records : List Record) (_ : Tid) (o : Op) (ch : Choice) (s : State) : Bool :=
  match o, ch with
  | .refreshExpired, .flag due => due
  | .getRecord id, .any =>
    decide (((s.region.name id).map fun name => ⟨name, ⟨id, s.region.generation id⟩⟩) =
      (records.find? fun r => r.handle.id == id).map Record.entry)
  | .getRecord _, _ => false
  | _, _ => true

section Listing

variable {records : List Record} {ids : List DomainId} {e : DomainEntry}

theorem mem_listing (hids : (records.map fun r => r.handle.id).Nodup) :
    e ∈ listing records ids ↔ ∃ r ∈ records, r.handle.id ∈ ids ∧ r.entry = e := by
  rw [listing, List.mem_filterMap]
  constructor
  · rintro ⟨id, hid, hfound⟩
    obtain ⟨r, hr, rfl⟩ := Option.map_eq_some_iff.mp hfound
    obtain rfl : r.handle.id = id := beq_iff_eq.mp (List.find?_some hr :)
    exact ⟨r, List.mem_of_find?_eq_some hr, hid, rfl⟩
  · rintro ⟨r, hr, hid, rfl⟩
    obtain ⟨r', hr'⟩ : ∃ r', (records.find? fun r' => r'.handle.id == r.handle.id) = some r' :=
      Option.isSome_iff_exists.mp (List.find?_isSome.mpr ⟨r, hr, beq_self_eq_true r.handle.id⟩)
    have heq : r'.handle.id = r.handle.id := beq_iff_eq.mp (List.find?_some hr' :)
    have hsame : r' = r := List.inj_on_of_nodup_map hids (List.mem_of_find?_eq_some hr') hr heq
    exact ⟨_, hid, by rw [hr', hsame]; rfl⟩

theorem listing_sublist (records : List Record) (ids : List DomainId) :
    ((listing records ids).map fun e => e.handle.id).Sublist ids := by
  induction ids with
  | nil => exact .slnil
  | cons id rest ih =>
    rw [listing, List.filterMap_cons]
    cases hfound : records.find? fun r => r.handle.id == id with
    | none => exact ih.cons id
    | some r =>
      obtain rfl : r.handle.id = id := beq_iff_eq.mp (List.find?_some hfound :)
      exact ih.cons_cons _

end Listing

/-! ### The pass -/

section Pass

variable {lim : Limits} {t : Tid} {kept : DomainId → Prop} {text : DomainId → Text}
variable {v : Slots} {d : DomainId}

variable {Q : Unit → Slots → Prop}

theorem mirroring_retireSlot (hK : v.Standing kept text) (hd : ¬ kept d) (hidle : v.Idle d)
    (h : Q () (v.put d .free clearedField)) :
    mirroring lim t kept text (retireSlot d) Q (v.hold t d) := by
  have hput : (v.put d .free clearedField).Standing kept text := hK.put hd _ _
  have hunlock : mirroring lim t kept text (act (.unlockMutex d)) Q
      { (v.hold t d).put d .free clearedField with } := by
    refine mirroring_unlockMutex hput ?_
    show Q () { v.put d .free clearedField with
      mutex := update (update v.mutex d (.held t false)) d .free }
    rw [Slots.release_hold hidle]
    exact h
  refine .bind (amid_getName (v := v.hold t d) hK (Slots.shows _) ?_)
  refine .bind (mirroring_markState hK hd ?_)
  refine .bind (mirroring_setName (hK.mark hd .free) hd ?_)
  cases DomainName.make (readField ((v.hold t d).name d)) with
  | none => exact hunlock
  | some retired => exact .bind (mirroring_clearId hput hunlock)

/-- The pass over these slots frees those not confirmed, and leaves the others. -/
theorem mirroring_retireStale {confirmed : List DomainId} (slots : List DomainId)
    (hK : v.Standing kept text) (hkept : ∀ d, kept d → d ∈ confirmed)
    (hslots : ∀ d ∈ slots, d < lim.maxDomains) (hidle : ∀ d < lim.maxDomains, v.Idle d)
    (h : ∀ u : Slots, u.Standing kept text → (∀ d < lim.maxDomains, u.Idle d) →
      (∀ d, u.state d = if d ∈ slots ∧ d ∉ confirmed then .free else v.state d) →
      (∀ d ∈ confirmed, u.name d = v.name d) → Q () u) :
    mirroring lim t kept text (retireStale confirmed slots) Q v := by
  induction slots generalizing v with
  | nil => exact h v hK hidle (by simp) fun _ _ => rfl
  | cons d rest ih =>
    have hrest : ∀ e ∈ rest, e < lim.maxDomains := fun e he => hslots e (.tail _ he)
    -- a slot passed over is confirmed, or stands for nothing
    have hskip : (d ∈ confirmed ∨ v.state d = .free) →
        mirroring lim t kept text (retireStale confirmed rest) Q v := by
      intro hor
      refine ih hK hrest hidle fun u hu hui hstate hname => h u hu hui (fun e => ?_) hname
      rw [hstate e]
      by_cases he : e = d
      · subst he
        rcases hor with hmem | hfree
        · simp [hmem]
        · simp [hfree]
      · simp [he]
    refine .bind (amid_isTaken hK (Slots.shows _) ?_)
    by_cases hfree : v.state d = .free
    · exact amid_else (by simpa using hfree) (hskip (.inr hfree))
    refine amid_then (by simpa using hfree) ?_
    by_cases hmem : d ∈ confirmed
    · exact amid_then hmem (hskip (.inl hmem))
    have hnot : ¬ kept d := fun hk => hmem (hkept d hk)
    have hd : d < lim.maxDomains := hslots d (.head _)
    refine amid_else hmem (.bind (mirroring_tryLockIfIdle hK (hidle d hd) ?_))
    refine amid_then rfl (.bind (mirroring_retireSlot hK hnot (hidle d hd) ?_))
    refine ih (hK.put hnot _ _) hrest hidle fun u hu hui hstate hname => h u hu hui ?_ ?_
    · intro e
      rw [hstate e]
      show (if e ∈ rest ∧ e ∉ confirmed then _ else update v.state d .free e) = _
      by_cases he : e = d
      · subst he
        simp [hmem]
      · simp [he]
    · intro e he
      have hne : e ≠ d := fun heq => hmem (heq ▸ he)
      rw [hname e he]
      show update v.name d clearedField e = v.name e
      rw [update_of_ne hne]

/-- A slot that is not Live under another name carries the name after a claim. -/
theorem mirroring_claim {n : DomainName} {handle : Handle} (hK : v.Standing kept text)
    (hlt : handle.id < lim.maxDomains) (hidle : v.Idle handle.id)
    (hlive : v.state handle.id = .live → readField (v.name handle.id) = n.getText)
    {Q : DomainAnswer → Slots → Prop}
    (hkeep : v.Named handle.id n.getText → Q .served v)
    (hput : (v.put handle.id .live n.field).Standing kept text →
      Q .served (v.put handle.id .live n.field)) :
    mirroring lim t kept text (claim lim n handle) Q v := by
  refine amid_else (Nat.not_le.mpr hlt) (.bind (amid_isNamed hK (Slots.shows _) ?_))
  by_cases hnamed : v.Named handle.id n.getText
  · exact amid_then (decide_eq_true hnamed) (.bind (mirroring_setId hK (hkeep hnamed)))
  have hnotlive : v.state handle.id ≠ .live := fun hl => hnamed ⟨hl, hlive hl⟩
  have hnot : ¬ kept handle.id := fun hk => hnotlive (hK _ hk).1
  -- the name goes in from Free or from Broken
  have hpublish : ∀ state, mirroring lim t kept text (claim.publishName n handle.id) Q
      { v with state := update v.state handle.id state } := by
    intro state
    have hmarked : Slots.Standing kept text
        { v with state := update v.state handle.id state } := hK.mark hnot state
    refine .bind (mirroring_setName hmarked hnot ?_)
    refine .bind (mirroring_markState (hmarked.rename hnot n.field) hnot ?_)
    have hend : update (update v.state handle.id state) handle.id .live =
        update v.state handle.id .live := update_idem _ _ _
    refine .bind (mirroring_setId ((hmarked.rename hnot n.field).mark hnot .live) ?_)
    show Q .served ⟨v.mutex, v.request, v.waiters,
      update (update v.state handle.id state) handle.id .live,
      update v.name handle.id n.field⟩
    rw [hend]
    exact hput (hK.put hnot _ _)
  refine amid_else (fun hyes => hnamed (of_decide_eq_true hyes))
    (.bind (amid_isExpectedState hK (Slots.shows _) ?_))
  refine amid_else (by simpa using hnotlive) (.bind (amid_isExpectedState hK (Slots.shows _) ?_))
  by_cases hbroken : v.state handle.id = .broken
  · refine amid_then (beq_iff_eq.mpr hbroken) (.bind (mirroring_tryLockIfIdle hK hidle ?_))
    refine amid_then rfl (.bind (mirroring_markState hK hnot ?_))
    refine .bind (mirroring_unlockMutex (hK.mark hnot .free) ?_)
    show mirroring lim t kept text (claim.publishName n handle.id) Q
      { v with
        mutex := update (update v.mutex handle.id (.held t false)) handle.id .free
        state := update v.state handle.id .free }
    rw [Slots.release_hold hidle]
    exact hpublish .free
  · refine amid_else (by simpa using hbroken) ?_
    have hsame := hpublish (v.state handle.id)
    rwa [update_eq_self] at hsame

theorem mirroring_claimAll (living : List DomainEntry) (hK : v.Standing kept text)
    (hidle : ∀ d < lim.maxDomains, v.Idle d) (hids : (living.map fun e => e.handle.id).Nodup)
    (hmake : ∀ e ∈ living, ∃ n, DomainName.make e.name = some n ∧ n.getText = e.name)
    (hlive : ∀ e ∈ living, e.handle.id < lim.maxDomains → v.state e.handle.id = .live →
      readField (v.name e.handle.id) = e.name)
    (h : ∀ u : Slots, u.Standing kept text →
      (∀ e ∈ living, e.handle.id < lim.maxDomains → u.Named e.handle.id e.name) →
      (∀ d, (∀ e ∈ living, e.handle.id ≠ d) → u.state d = v.state d ∧ u.name d = v.name d) →
      Q () u) :
    mirroring lim t kept text (claimAll lim living) Q v := by
  induction living generalizing v with
  | nil => exact h v hK (by simp) fun _ _ => ⟨rfl, rfl⟩
  | cons e rest ih =>
    obtain ⟨n, hn, htext⟩ := hmake e (.head _)
    obtain ⟨hfresh, hids'⟩ := List.nodup_cons.mp hids
    have hne : ∀ e' ∈ rest, e'.handle.id ≠ e.handle.id := fun e' he' heq =>
      hfresh (List.mem_map.mpr ⟨e', he', heq⟩)
    -- once this entry's slot carries its name, the rest is claimed beside it
    have hgo : ∀ w : Slots, w.Standing kept text → (∀ d < lim.maxDomains, w.Idle d) →
        (e.handle.id < lim.maxDomains → w.Named e.handle.id e.name) →
        (∀ d, d ≠ e.handle.id → w.state d = v.state d ∧ w.name d = v.name d) →
        mirroring lim t kept text (claimAll lim rest) Q w := by
      intro w hw hwi hnamed hsame
      refine ih hw hwi hids' (fun e' he' => hmake e' (.tail _ he')) ?_ ?_
      · intro e' he' hlt hl
        obtain ⟨hstate, hname⟩ := hsame _ (hne e' he')
        rw [hstate] at hl
        rw [hname]
        exact hlive e' (.tail _ he') hlt hl
      · intro u hu hall hothers
        refine h u hu (fun e' he' hlt => ?_) fun d hd => ?_
        · rcases List.mem_cons.mp he' with rfl | he'
          · obtain ⟨hstate, hname⟩ := hothers _ hne
            unfold Slots.Named
            rw [hstate, hname]
            exact hnamed hlt
          · exact hall e' he' hlt
        · obtain ⟨hstate, hname⟩ := hothers d fun e' he' => hd e' (.tail _ he')
          obtain ⟨hstate', hname'⟩ := hsame d (hd e (.head _)).symm
          exact ⟨hstate.trans hstate', hname.trans hname'⟩
    unfold claimAll
    rw [hn]
    by_cases hlt : e.handle.id < lim.maxDomains
    · refine .bind (mirroring_claim hK hlt (hidle _ hlt) ?_ ?_ ?_)
      · rw [htext]
        exact hlive e (.head _) hlt
      · intro hnamed
        rw [htext] at hnamed
        exact hgo v hK hidle (fun _ => hnamed) fun _ _ => ⟨rfl, rfl⟩
      · intro hput
        refine hgo _ hput hidle (fun _ => ?_) fun d hd => ?_
        · show update v.state e.handle.id .live e.handle.id = .live ∧
            readField (update v.name e.handle.id n.field e.handle.id) = e.name
          rw [update_self, update_self]
          exact ⟨rfl, htext⟩
        · exact ⟨update_of_ne hd _ _, update_of_ne hd _ _⟩
    · refine .bind (amid_then (Nat.not_lt.mp hlt) ?_)
      exact hgo v hK hidle (fun hlt' => absurd hlt' hlt) fun _ _ => ⟨rfl, rfl⟩

/-- The slot is Live under the name the entries have for it. -/
def Slots.Listed (v : Slots) (lim : Limits) (living : List DomainEntry) (d : DomainId) : Prop :=
  d < lim.maxDomains ∧ ∃ e ∈ living, e.handle.id = d ∧ v.Named d e.name

theorem Slots.standing_listed (v : Slots) (lim : Limits) (living : List DomainEntry) :
    v.Standing (v.Listed lim living) fun d => readField (v.name d) :=
  fun _ ⟨_, _, _, _, hnamed⟩ => ⟨hnamed.1, rfl⟩

theorem mirroring_mirror {living : List DomainEntry}
    (hids : (living.map fun e => e.handle.id).Nodup)
    (hmake : ∀ e ∈ living, ∃ n, DomainName.make e.name = some n ∧ n.getText = e.name)
    (hidle : ∀ d < lim.maxDomains, v.Idle d) :
    mirroring lim t (v.Listed lim living) (fun d => readField (v.name d)) (mirror lim living)
      (fun _ u => ∀ d < lim.maxDomains,
        (∀ x, u.Named d x ↔ ∃ e ∈ living, e.handle.id = d ∧ e.name = x) ∧ u.state d ≠ .broken)
      v := by
  have hK := v.standing_listed lim living
  -- two entries of one id are one entry
  have hone : ∀ e ∈ living, ∀ e' ∈ living, e'.handle.id = e.handle.id → e' = e :=
    fun e he e' he' heq => List.inj_on_of_nodup_map hids he' he heq
  refine .bind (amid_confirm hK v.shows living fun confirmed hc => ?_)
  refine .bind (mirroring_retireStale _ hK ?_ (fun d => List.mem_range.mp) hidle ?_)
  · rintro d ⟨hd, e, he, hid, hnamed⟩
    exact (hc d).mpr ⟨hd, e, he, hid, .inl hnamed⟩
  intro u hu hui hstate hname
  have hfreed : ∀ d < lim.maxDomains, d ∉ confirmed → u.state d = .free := by
    intro d hd hmem
    rw [hstate d, if_pos ⟨List.mem_range.mpr hd, hmem⟩]
  refine .bind (mirroring_claimAll living hu hui hids hmake ?_ ?_)
  · intro e he hlt hl
    have hmem : e.handle.id ∈ confirmed := by
      by_contra hno
      exact absurd ((hfreed _ hlt hno).symm.trans hl) (by decide)
    obtain ⟨-, e', he', hid, hor⟩ := (hc _).mp hmem
    obtain rfl := hone e he e' he' hid
    rw [hstate, if_neg fun hout => hout.2 hmem] at hl
    rw [hname _ hmem]
    rcases hor with hnamed | hbroken
    · exact hnamed.2
    · exact absurd (hbroken.symm.trans hl) (by decide)
  · intro w hw hall hothers
    refine mirroring_unlockNaming hw fun d hd => ?_
    by_cases hlisted : ∃ e ∈ living, e.handle.id = d
    · obtain ⟨e, he, rfl⟩ := hlisted
      have hnamed := hall e he hd
      refine ⟨fun x => ⟨fun hx => ⟨e, he, rfl, hnamed.2.symm.trans hx.2⟩, ?_⟩, ?_⟩
      · rintro ⟨e', he', hid, rfl⟩
        rwa [hone e he e' he' hid]
      · rw [hnamed.1]
        decide
    · have hfree : w.state d = .free := by
        rw [(hothers d fun e he hid => hlisted ⟨e, he, hid⟩).1]
        refine hfreed d hd fun hmem => ?_
        obtain ⟨-, e, he, hid, -⟩ := (hc d).mp hmem
        exact hlisted ⟨e, he, hid⟩
      refine ⟨fun x => ⟨fun hx => ?_, ?_⟩, ?_⟩
      · exact absurd (hfree.symm.trans hx.1) (by decide)
      · rintro ⟨e, he, hid, -⟩
        exact absurd ⟨e, he, hid⟩ hlisted
      · rw [hfree]
        decide

end Pass

/-! ### The pass comes to its end -/

section Enabled

variable {lim : Limits} {t : Tid} {records : List Record}

/-- Code that the slots never keep from its next step. -/
abbrev Enabled (lim : Limits) (t : Tid) (records : List Record) {α : Type} (p : Proc α) : Prop :=
  p.Only fun o => ∀ s : State, ∃ s₁ ch r s', s₁.slots = s.slots ∧
    ((system lim).restrict (reads records)).exec t o ch s₁ = some (r, s')

theorem enabled_act {o : Op}
    (h : ∀ s, (((system lim).restrict (reads records)).exec t o .any s).isSome) :
    Enabled lim t records (act o) := by
  refine .perform fun s => ?_
  obtain ⟨⟨r, s'⟩, hx⟩ := Option.isSome_iff_exists.mp (h s)
  exact ⟨s, .any, r, s', rfl, hx⟩

theorem enabled_next {α : Type} {o : Op} {k : Ret o → Proc α}
    (h : ∀ s, (((system lim).restrict (reads records)).exec t o .any s).isSome)
    (hk : ∀ r, Enabled lim t records (k r)) : Enabled lim t records (act o >>= k) :=
  (enabled_act h).bind hk

theorem enabled_tryLockIfIdle (d : DomainId) : Enabled lim t records (tryLockIfIdle d) := by
  refine .bind (.perform fun s => ?_) fun taken => ?_
  · cases hmutex : (s.turns.mutex d).acquire t with
    | none => exact ⟨s, .any, none, s, rfl, System.restrict_exec.mpr ⟨rfl, by
        show (execTurns t (.tryLock d .tryLockIfIdle) .any s.turns).map _ = _
        rw [execTurns, hmutex]
        rfl⟩⟩
    | some told => exact ⟨s, .any, _, _, rfl, System.restrict_exec.mpr ⟨rfl, by
        show (execTurns t (.tryLock d .tryLockIfIdle) .any s.turns).map _ = _
        rw [execTurns, hmutex]
        rfl⟩⟩
  · cases taken with
    | none => exact .pure _
    | some told =>
      have hunlock : Enabled lim t records (do
          act (.unlockMutex d)
          pure false) := enabled_next (fun _ => rfl) fun _ => .pure _
      have hrecord : Enabled lim t records (recordAbandonment d told) :=
        .ite (enabled_act fun _ => rfl) (.pure _)
      refine .bind hrecord fun _ => enabled_next (fun _ => rfl) fun _ => ?_
      refine .ite (enabled_next (fun _ => rfl) fun _ => ?_) hunlock
      exact .ite hunlock (.pure _)

theorem enabled_isNamed (d : DomainId) (x : Text) : Enabled lim t records (isNamed d x) := by
  refine enabled_next (fun _ => rfl) fun _ => .ite ?_ (.pure _)
  exact enabled_next (fun _ => rfl) fun _ => .pure _

theorem enabled_confirm (living : List DomainEntry) : Enabled lim t records (confirm lim living) := by
  induction living with
  | nil => exact .pure _
  | cons e rest ih =>
    have hadd : Enabled lim t records (do return e.handle.id :: (← confirm lim rest)) :=
      .bind ih fun _ => .pure _
    refine .ite ih (.bind (enabled_isNamed _ _) fun _ => .ite hadd ?_)
    exact enabled_next (fun _ => rfl) fun _ => .ite hadd ih

theorem enabled_retireSlot (d : DomainId) : Enabled lim t records (retireSlot d) := by
  have hunlock : Enabled lim t records (act (.unlockMutex d)) := enabled_act fun _ => rfl
  refine enabled_next (fun _ => rfl) fun x => ?_
  refine enabled_next (fun _ => rfl) fun _ => ?_
  refine enabled_next (fun _ => rfl) fun _ => ?_
  cases DomainName.make x with
  | none => exact hunlock
  | some retired => exact enabled_next (fun _ => rfl) fun _ => hunlock

theorem enabled_retireStale (confirmed slots : List DomainId) :
    Enabled lim t records (retireStale confirmed slots) := by
  induction slots with
  | nil => exact .pure _
  | cons d rest ih =>
    have htaken : Enabled lim t records (isTaken d) :=
      enabled_next (fun _ => rfl) fun _ =>
        .ite (.pure _) (enabled_act fun _ => rfl)
    refine .bind htaken fun _ => .ite (.ite ih ?_) ih
    refine .bind (enabled_tryLockIfIdle d) fun _ => .ite ?_ ih
    exact .bind (enabled_retireSlot d) fun _ => ih

theorem enabled_claim (n : DomainName) (handle : Handle) : Enabled lim t records (claim lim n handle) := by
  have hpublish : Enabled lim t records (claim.publishName n handle.id) := by
    refine enabled_next (fun _ => rfl) fun _ => ?_
    refine enabled_next (fun _ => rfl) fun _ => ?_
    exact enabled_next (fun _ => rfl) fun _ => .pure _
  have hrest : Enabled lim t records (claim.takeSlot n handle.id) := by
    refine enabled_next (fun _ => rfl) fun _ => .ite ?_ hpublish
    refine .bind (enabled_tryLockIfIdle _) fun _ => .ite ?_ (.pure _)
    refine enabled_next (fun _ => rfl) fun _ => ?_
    exact enabled_next (fun _ => rfl) fun _ => hpublish
  refine .ite (.pure _) (.bind (enabled_isNamed _ _) fun _ => .ite ?_ ?_)
  · exact enabled_next (fun _ => rfl) fun _ => .pure _
  · refine enabled_next (fun _ => rfl) fun _ => .ite ?_ hrest
    exact enabled_next (fun _ => rfl) fun _ => hrest

theorem enabled_mirror (records : List Record) (living : List DomainEntry) : Enabled lim t records (mirror lim living) := by
  have hclaims : ∀ entries, Enabled lim t records (claimAll lim entries) := by
    intro entries
    induction entries with
    | nil => exact .pure _
    | cons e rest ih =>
      unfold claimAll
      cases DomainName.make e.name with
      | none => exact ih
      | some n => exact .bind (enabled_claim n e.handle) fun _ => ih
  refine .bind (enabled_confirm living) fun confirmed => ?_
  refine .bind (enabled_retireStale confirmed _) fun _ => ?_
  exact .bind (hclaims living) fun _ => enabled_act fun _ => rfl

theorem enabled_getDomainEntries (ids : List DomainId) :
    Enabled lim t records (getDomainEntries ids) := by
  induction ids with
  | nil => exact .pure _
  | cons id rest ih =>
    refine .bind (.perform fun s => ?_) fun record => ?_
    · -- the others have made the region what the records say
      cases hfound : records.find? fun r => r.handle.id == id with
      | none =>
        exact ⟨{ s with region.name := fun _ => none }, .any, _, _, rfl,
          System.restrict_exec.mpr ⟨decide_eq_true (by rw [hfound]; rfl), rfl⟩⟩
      | some r =>
        obtain rfl : r.handle.id = id := beq_iff_eq.mp (List.find?_some hfound :)
        exact ⟨{ s with
          region.name := fun _ => some (readField r.field)
          region.generation := fun _ => r.handle.incarnation }, .any, _, _, rfl,
          System.restrict_exec.mpr ⟨decide_eq_true (by rw [hfound]; rfl), rfl⟩⟩
    · cases record with
      | error e => exact .pure _
      | ok record => exact .bind ih fun entries => by cases entries <;> exact .pure _

/-- Nothing keeps a refresh from its end once nobody has the naming mutex. -/
theorem enabled_refresh (records : List Record) : Enabled lim t records (refresh lim) := by
  refine .bind (.perform fun s => ⟨s, .flag true, true, s, rfl, rfl⟩) fun due => .ite ?_ (.pure _)
  refine .bind (.perform fun s => ⟨{ s with registry.naming := none }, .any, (), _, rfl, rfl⟩)
    fun _ => ?_
  refine .bind (enabled_getDomainEntries _) fun listed => ?_
  cases listed with
  | error e => exact enabled_act fun _ => rfl
  | ok living => exact enabled_mirror records living

end Enabled

/-! ### Results -/

/-- A pass of thread `t` among others that leave the slots alone comes to its end. Then a
slot is Live under a name exactly when a record has the name at its number, and no slot is
Broken; a slot that was Live under its record's name has been so after every step. -/
def Mirrors (lim : Limits) (M : System Tid Op Ret State Choice Call Env) (t : Tid) (pass : Proc Unit)
    (records : List Record) (s : State) : Prop :=
  (∃ l s', M.Among State.slots t pass s l () s') ∧
  ∀ l s', M.Among State.slots t pass s l () s' →
    (∀ d < lim.maxDomains,
      (∀ x, s'.registry.state d = .live ∧ readField (s'.registry.name d) = x ↔
        ∃ r ∈ records, r.handle.id = d ∧ r.entry.name = x) ∧
      s'.registry.state d ≠ .broken) ∧
    ∀ r ∈ records, r.handle.id < lim.maxDomains →
      s.registry.state r.handle.id = .live →
      readField (s.registry.name r.handle.id) = r.entry.name →
      ∀ u ∈ l, u.registry.state r.handle.id = .live ∧
        readField (u.registry.name r.handle.id) = r.entry.name

section Results

variable {lim : Limits} {t : Tid} {records : List Record}
variable {M : System Tid Op Ret State Choice Call Env}

/-- A pass over the entries of the records mirrors them. -/
theorem mirrors_of_amid {s : State} {pass : Proc Unit} {living : List DomainEntry}
    (hrun : ∃ l s', M.Among State.slots t pass s l () s')
    (hl : ∀ e, e ∈ living ↔ ∃ r ∈ records, r.entry = e)
    (h : amid M State.slots
      (Slots.Standing (s.slots.Listed lim living) fun d => readField (s.slots.name d)) t pass
      (fun _ u => ∀ d < lim.maxDomains,
        (∀ x, u.Named d x ↔ ∃ e ∈ living, e.handle.id = d ∧ e.name = x) ∧ u.state d ≠ .broken)
      s.slots) : Mirrors lim M t pass records s := by
  refine ⟨hrun, fun l s' hrun => ?_⟩
  obtain ⟨hthrough, hend⟩ := hrun.of_amid h
  refine ⟨fun d hd => ⟨fun x => ((hend d hd).1 x).trans ?_, (hend d hd).2⟩, ?_⟩
  · constructor
    · rintro ⟨e, he, hid, hname⟩
      obtain ⟨r, hr, rfl⟩ := (hl e).mp he
      exact ⟨r, hr, hid, hname⟩
    · rintro ⟨r, hr, hid, hname⟩
      exact ⟨r.entry, (hl _).mpr ⟨r, hr, rfl⟩, hid, hname⟩
  · intro r hr hlt hlive hname u hu
    have hstands := hthrough u hu r.handle.id
      ⟨hlt, r.entry, (hl _).mpr ⟨r, hr, rfl⟩, rfl, hlive, hname⟩
    exact ⟨hstands.1, hstands.2.trans hname⟩

variable {K : Slots → Prop} {v : Slots}

/-- The region's answer is the listing, at these ids. -/
theorem amid_getDomainEntries (hK : K v) (ids : List DomainId)
    {Q : Except RegionError (List DomainEntry) → Slots → Prop}
    (h : Q (.ok (listing records ids)) v) :
    amid ((system lim).restrict (reads records)) State.slots K t (getDomainEntries ids) Q v := by
  induction ids generalizing Q with
  | nil => exact h
  | cons id rest ih =>
    refine .bind (.perform fun s hs ch r s' hx => ?_)
    obtain ⟨hreads, hx⟩ := System.restrict_exec.mp hx
    cases ch with
    | any =>
      cases hx
      rw [hs, of_decide_eq_true hreads]
      refine ⟨hK, .bind (ih ?_)⟩
      have hcons : listing records (id :: rest) =
          ((records.find? fun r => r.handle.id == id).map Record.entry).toList ++
            listing records rest := by
        rw [listing, List.filterMap_cons]
        cases (records.find? fun r => r.handle.id == id).map Record.entry <;> rfl
      rw [hcons] at h
      exact h
    | _ => cases hreads

/-- A refresh that is due passes over what the region answers. -/
theorem amid_refresh (hK : K v) {Q : Unit → Slots → Prop}
    (h : amid (system lim) State.slots K t
      (mirror lim (listing records ((List.range lim.domainCount).drop 1))) Q v) :
    amid ((system lim).restrict (reads records)) State.slots K t (refresh lim) Q v := by
  refine .bind (.perform fun s hs ch r s' hx => ?_)
  obtain ⟨hreads, hx⟩ := System.restrict_exec.mp hx
  cases ch with
  | flag due =>
    obtain rfl : due = true := hreads
    cases hx
    rw [hs]
    refine ⟨hK, .bind (amid_step (r := ()) (u := v) (fun s hs ch r s' hx => ?_) hK
      (.bind (amid_getDomainEntries hK _ h.restrict)))⟩
    obtain ⟨-, rfl⟩ := exec_lockNaming lim (System.restrict_exec.mp hx).2
    exact ⟨rfl, hs⟩
  | _ => cases hx

/-- For every table and every listing of the region with one entry an id, all of whose
names a slot can hold, in whatever order: the passes over it, with every slot idle
throughout, mirror the listing. So does a refresh that reads it from the region. -/
theorem refresh_mirrors_listing (lim : Limits) (t : Tid) (records : List Record) (s : State)
    (hids : (records.map fun r => r.handle.id).Nodup)
    (hmake : ∀ r ∈ records, (DomainName.make r.entry.name).isSome = true)
    (hidle : ∀ d < lim.maxDomains, s.turns.mutex d = .free ∧ s.turns.state d = .idle ∧
      s.requests.waiters d = 0) :
    Mirrors lim (system lim) t (mirror lim (records.map Record.entry)) records s ∧
    ((∀ r ∈ records, r.handle.id ∈ (List.range lim.domainCount).drop 1) →
      Mirrors lim ((system lim).restrict (reads records)) t (refresh lim) records s) := by
  have hmake' : ∀ e, (∃ r ∈ records, r.entry = e) →
      ∃ n, DomainName.make e.name = some n ∧ n.getText = e.name := by
    rintro e ⟨r, hr, rfl⟩
    obtain ⟨n, hn⟩ := Option.isSome_iff_exists.mp (hmake r hr)
    exact ⟨n, hn, getText_make (nulFree_readField r.field) hn⟩
  constructor
  · have hids' : ((records.map Record.entry).map fun e => e.handle.id).Nodup := by
      rw [List.map_map]
      exact hids
    refine mirrors_of_amid ?_ (fun e => List.mem_map)
      (mirroring_mirror hids' (fun e he => hmake' e (List.mem_map.mp he)) hidle)
    obtain ⟨l, ⟨⟩, s', hrun⟩ := System.exists_among (enabled_mirror records _) s
    exact ⟨l, s', hrun.of_restrict⟩
  · intro hdata
    have hl : ∀ e, e ∈ listing records ((List.range lim.domainCount).drop 1) ↔
        ∃ r ∈ records, r.entry = e := by
      intro e
      rw [mem_listing hids]
      exact exists_congr fun r => and_congr_right fun hr => and_iff_right (hdata r hr)
    have hids' := (listing_sublist records _).nodup
      ((List.nodup_range (n := lim.domainCount)).sublist (List.drop_sublist 1 _))
    refine mirrors_of_amid ?_ hl (amid_refresh (s.slots.standing_listed lim _)
      (mirroring_mirror hids' (fun e he => hmake' e ((hl e).mp he)) hidle))
    obtain ⟨l, ⟨⟩, s', hrun⟩ := System.exists_among (enabled_refresh records) s
    exact ⟨l, s', hrun⟩

end Results

/-- A table with one slot of each kind. -/
def mixedTable : State :=
  { fresh.shared with registry := { fresh.shared.registry with
      state := fun d => if d = 0 then .live else if d = 1 then .broken else .free
      name := fun _ => 'a' :: clearedField.tail } }

/-- The Live slot is not listed and is freed; the Broken and the Free one are claimed. -/
theorem refresh_mirrors_listing_mixed :
    mixedTable.registry.state 0 = .live ∧ mixedTable.registry.state 1 = .broken ∧
      ∃ l s', ((system ⟨3, 3⟩).restrict (reads [⟨['b'], 1, 1⟩, ⟨['a'], 2, 1⟩])).Among State.slots
          .maintainer (refresh ⟨3, 3⟩) mixedTable l () s' ∧
        s'.registry.state 0 ≠ .live ∧
        (s'.registry.state 1 = .live ∧ readField (s'.registry.name 1) = ['b']) ∧
        (s'.registry.state 2 = .live ∧ readField (s'.registry.name 2) = ['a']) := by
  obtain ⟨-, hrefresh⟩ := refresh_mirrors_listing ⟨3, 3⟩ .maintainer
    [⟨['b'], 1, 1⟩, ⟨['a'], 2, 1⟩] mixedTable (by decide) (by decide) fun d _ => ⟨rfl, rfl, rfl⟩
  obtain ⟨⟨l, s', hrun⟩, hall⟩ := hrefresh (by decide)
  obtain ⟨hend, -⟩ := hall l s' hrun
  refine ⟨rfl, rfl, l, s', hrun, fun hlive => ?_, ?_, ?_⟩
  · obtain ⟨r, hr, hid, -⟩ := ((hend 0 (by decide)).1 _).mp ⟨hlive, rfl⟩
    rcases List.mem_cons.mp hr with rfl | hr
    · cases hid
    · rcases List.mem_singleton.mp hr with rfl
      cases hid
  · exact ((hend 1 (by decide)).1 ['b']).mpr ⟨_, .head _, rfl, by decide⟩
  · exact ((hend 2 (by decide)).1 ['a']).mpr
      ⟨_, .tail _ (.head _), rfl, by decide⟩

end Cme.Daemon
