import Cme.Interleave.Alone
import Cme.Registry.Moves

/-!
# Registry — a name from its create to its lookup

A create writes the name into the record's padded field; a lookup and the listing
read the field up to its first NUL. `Created` is what a create that returns a
handle leaves behind: one data slot, the handle's, holds a live domain whose field
is the name's, and no other live slot reads as that name. A name without a NUL
reads back as it was written, so the lookup finds the handle
(`settles_findDataDomainByName`) and the listing has the name for it
(`settles_getDomainEntries`).
-/

namespace Cme.Registry

open Function Interleave Interleave.Prog

/-- One live domain as the listing has it. -/
structure DomainEntry where
  name : Text
  handle : DomainHandle
  deriving DecidableEq, Repr

def listActive : List DomainId → Proc (List DomainEntry)
  | [] => pure []
  | d :: rest => do
    let record ← loadRecord d
    let entries ← listActive rest
    if record.isValidMagic && record.isActive then
      pure ({ name := record.getName, handle := ⟨d, record.generation⟩ } :: entries)
    else pure entries

/-- `Session::getDomainEntries`, the data slots in order. -/
def getDomainEntries (dims : Dims) : Proc (List DomainEntry) := listActive (getDataDomainIdRange dims)

/-! ## The field -/

/-- Up to the first NUL a padded name without one is the name. -/
theorem takeWhile_nameField {name : Text} (h : nul ∉ name) :
    (nameField name).takeWhile (· ≠ nul) = name := by
  have hall : ∀ c ∈ name, decide (c ≠ nul) = true := by
    intro c hc
    exact decide_eq_true fun heq => h (heq ▸ hc)
  rw [nameField, List.takeWhile_append_of_pos hall, List.takeWhile_replicate]
  simp

/-! ## What a lookup sees -/

section

variable {T : Type} [DecidableEq T] {dims : Dims} {rough : Bool} {i : Tid T} {s : State T}

theorem solo_act {o : Op} {Q : Ret o → State T → Prop}
    (h : ∀ ch r s', access i o ch s = some (r, s') → Q r s') :
    solo (system dims rough) i (act o) Q s :=
  .perform fun ch r s' hx => h ch r s' (exec_eq hx).2.2

variable {d : DomainId}

theorem solo_loadRecord {Q : DomainRecord → State T → Prop} (h : Q (s.record d) s) :
    solo (system dims rough) i (loadRecord d) Q s :=
  solo_act fun ch r s' hx => by
    cases hx
    exact h

variable {name : Text}

/-- The duplicate check: nothing found means that no slot answers to the name. -/
theorem solo_findNamedAmong (ids : List DomainId) {Q : Option DomainHandle → State T → Prop}
    (hsome : ∀ h, Q (some h) s)
    (hnone : (∀ d ∈ ids, (s.record d).carries name = false) → Q none s) :
    solo (system dims rough) i (findNamedAmong name ids) Q s := by
  induction ids with
  | nil => exact hnone (by simp)
  | cons d ids ih =>
    refine .bind (solo_loadRecord ?_)
    by_cases hd : (s.record d).carries name = true
    · exact amid_then hd (hsome _)
    · refine amid_else hd (ih fun hrest => hnone ?_)
      intro e he
      rcases List.mem_cons.mp he with rfl | he
      · simpa using hd
      · exact hrest e he

theorem solo_findEmptyAmong (ids : List DomainId) {Q : Option DomainId → State T → Prop}
    (hnone : Q none s)
    (hsome : ∀ d ∈ ids, (s.record d).isValidMagic = true → (s.record d).isActive = false →
      Q (some d) s) :
    solo (system dims rough) i (findEmptyAmong ids) Q s := by
  induction ids with
  | nil => exact hnone
  | cons d ids ih =>
    refine .bind (solo_loadRecord ?_)
    by_cases hd : ((s.record d).isValidMagic && !(s.record d).isActive) = true
    · have hboth := Bool.and_eq_true_iff.mp hd
      exact amid_then hd (hsome d (.head _) hboth.1 (by simpa using hboth.2))
    · exact amid_else hd (ih fun e he => hsome e (.tail _ he))

/-- What a create that returned `h` for `name` leaves. -/
structure Created (dims : Dims) (name : Text) (h : DomainHandle) (s : State T) : Prop where
  slot : h.id ∈ getDataDomainIdRange dims
  record : (s.record h.id).isValidMagic = true ∧ (s.record h.id).isActive = true ∧
    (s.record h.id).name = nameField name ∧ (s.record h.id).generation = h.incarnation
  others : ∀ d ∈ getDataDomainIdRange dims, d ≠ h.id → (s.record d).carries name = false

variable {h : DomainHandle}

omit [DecidableEq T] in
theorem Created.congr {s' : State T} (hc : Created dims name h s) (hrecord : s'.record = s.record) :
    Created dims name h s' :=
  ⟨hc.slot, hrecord ▸ hc.record, hrecord ▸ hc.others⟩

theorem solo_activate (hd : d ∈ getDataDomainIdRange dims)
    (hnone : ∀ e ∈ getDataDomainIdRange dims, (s.record e).carries name = false) :
    solo (system dims rough) i (activate i.1 name d)
      (fun r s' => ∀ h, r = .ok h → Created dims name h s') s := by
  refine .bind (solo_loadRecord ?_)
  by_cases hmagic : (s.record d).isValidMagic = true
  · refine amid_then hmagic (.bind (.bind (solo_act fun ch r s₁ hx₁ => ?_)))
    obtain ⟨-, rfl⟩ := outcome_eq hx₁
    refine solo_act fun ch r s₂ hx₂ => ?_
    obtain ⟨-, rfl⟩ := outcome_eq hx₂
    -- the record is written; what follows leaves the records alone
    refine .bind (solo_act fun ch r s₃ hx₃ => ?_)
    obtain ⟨-, rfl⟩ := outcome_eq hx₃
    refine .bind (.bind (solo_loadRecord ?_))
    refine .bind (solo_act fun ch r s₄ hx₄ => ?_)
    obtain ⟨-, rfl⟩ := outcome_eq hx₄
    rintro h hh
    obtain rfl := CreateResult.ok.inj hh
    refine ⟨hd, ?_, ?_⟩
    · show (update s.record d ((s.record d).reborn i.1 name) d).isValidMagic = true ∧
        (update s.record d ((s.record d).reborn i.1 name) d).isActive = true ∧
        (update s.record d ((s.record d).reborn i.1 name) d).name = nameField name ∧
        (update s.record d ((s.record d).reborn i.1 name) d).generation = _
      rw [update_self]
      exact ⟨hmagic, rfl, rfl, rfl⟩
    · intro e he hne
      show (update s.record d _ e).carries name = false
      rw [update_of_ne hne]
      exact hnone e he
  · exact amid_else hmagic (fun h hh => nomatch hh)

theorem solo_createDomainLocked : solo (system dims rough) i (createDomainLocked dims i.1 name)
      (fun r s' => ∀ h, r = .ok h → Created dims name h s') s := by
  by_cases husable : isUsableName name = true
  · refine amid_then husable (.bind (solo_findNamedAmong _ (fun h => ?_) fun hnone => ?_))
    · exact fun h hh => nomatch hh
    · refine .bind (solo_findEmptyAmong _ (fun h hh => nomatch hh) fun d hd _ _ => ?_)
      exact solo_activate hd hnone
  · exact amid_else husable (fun h hh => nomatch hh)

/-- A create that returns a handle has created what the handle names. -/
theorem solo_peerCreateDomain : solo (system dims rough) i (peerCreateDomain dims i.1 name)
      (fun r s' => ∀ h, r = .ok h → isUsableName name = true ∧ Created dims name h s') s := by
  by_cases husable : isUsableName name = true
  · refine amid_then husable (.bind ?_)
    -- the control section gives the answer of what runs inside it
    refine amid_mono (Q := fun r s' => ∀ h, r = .ok h → Created dims name h s') ?_ ?_
    · refine .bind (solo_act fun ch b s₁ hx₁ => ?_)
      obtain ⟨rfl, rfl⟩ := outcome_eq hx₁
      by_cases hin : (s.member i.1).participating.has controlDomainId = true
      · refine amid_then hin (.bind (solo_act fun ch b s₂ hx₂ => ?_))
        by_cases hlocked : b = true
        · refine amid_then hlocked (.bind (.bind
            (amid_mono solo_createDomainLocked fun r s₃ hr => ?_)))
          cases r with
          | ok h =>
            refine .bind (solo_act fun ch u s₄ hx₄ => ?_)
            obtain ⟨-, rfl⟩ := outcome_eq hx₄
            rintro h' hh'
            obtain rfl := Except.ok.inj hh'
            exact (hr h rfl).congr rfl
          | duplicateName | noFreeSlot | corruptRegion =>
            refine .bind (solo_act fun ch u s₄ hx₄ => ?_)
            exact fun h' hh' => nomatch hh'
        · exact amid_else hlocked (fun h' hh' => nomatch hh')
      · exact amid_else hin (fun h' hh' => nomatch hh')
    · rintro r s' hr
      cases r with
      | ok h =>
        refine .bind (solo_act fun ch u s₄ hx₄ => ?_)
        obtain ⟨-, rfl⟩ := outcome_eq hx₄
        rintro h' hh'
        obtain rfl := Except.ok.inj hh'
        exact ⟨husable, (hr h rfl).congr rfl⟩
      | error e => exact fun h' hh' => nomatch hh'
  · exact amid_else husable (fun h hh => nomatch hh)

/-! ## The lookups after it -/

section

variable (hlive : s.crashed i.1 = false)

include hlive

theorem exec_of_live {o : Op} {ch : Choice} (ho : landsAsLoaded i o ch s = true) :
    exec rough i o ch s = access i o ch s := by
  rw [exec, hlive, ho, Bool.or_true]
  rfl

theorem settles_loadRecord {Q : DomainRecord → State T → Prop} (h : Q (s.record d) s) :
    settles (system dims rough) i (loadRecord d) Q s :=
  settles_step (fun ch => exec_of_live hlive rfl) h

theorem settles_findNamedAmong {ids : List DomainId} (hd : d ∈ ids)
    (hanswers : (s.record d).carries name = true)
    (hothers : ∀ e ∈ ids, e ≠ d → (s.record e).carries name = false) :
    settles (system dims rough) i (findNamedAmong name ids)
      (fun found s' => found = some ⟨d, (s.record d).generation⟩ ∧ s' = s) s := by
  induction ids with
  | nil => exact absurd hd List.not_mem_nil
  | cons e ids ih =>
    refine .bind (settles_loadRecord hlive ?_)
    by_cases he : e = d
    · subst he
      exact settles_then hanswers ⟨rfl, rfl⟩
    · have hno := hothers e (.head _) he
      refine settles_else (fun hyes => Bool.false_ne_true (hno.symm.trans hyes)) (ih ?_ ?_)
      · exact (List.mem_cons.mp hd).resolve_left fun heq => he heq.symm
      · exact fun e' he' => hothers e' (.tail _ he')

/-- The listing has one entry for each live slot, in order. -/
theorem settles_listActive (ids : List DomainId) : settles (system dims rough) i (listActive ids)
      (fun entries s' => entries = ((ids.filter fun d =>
        (s.record d).isValidMagic && (s.record d).isActive).map fun d =>
          ⟨(s.record d).getName, d, (s.record d).generation⟩) ∧ s' = s) s := by
  induction ids with
  | nil => exact ⟨rfl, rfl⟩
  | cons d ids ih =>
    refine .bind (settles_loadRecord hlive (.bind (settles_mono ih ?_)))
    rintro entries s' ⟨rfl, rfl⟩
    by_cases hd : ((s'.record d).isValidMagic && (s'.record d).isActive) = true
    · refine settles_then hd ⟨?_, rfl⟩
      rw [List.filter_cons, if_pos hd, List.map_cons]
    · refine settles_else hd ⟨?_, rfl⟩
      rw [List.filter_cons, if_neg hd]

end

omit [DecidableEq T] in
/-- The created slot answers to its name, if the name can be read back. -/
theorem Created.carries (hc : Created dims name h s) (hname : nul ∉ name) :
    (s.record h.id).carries name = true := by
  obtain ⟨hmagic, hactive, hfield, -⟩ := hc.record
  unfold DomainRecord.carries DomainRecord.getName
  rw [hmagic, hactive, hfield, takeWhile_nameField hname]
  simp

/-- The lookup finds what the create returned. -/
theorem settles_findDataDomainByName (hc : Created dims name h s) (hname : nul ∉ name)
    (hlive : s.crashed i.1 = false) :
    settles (system dims rough) i (findDataDomainByName dims name)
      (fun found s' => found = some h ∧ s' = s) s := by
  refine settles_mono (settles_findNamedAmong hlive hc.slot (hc.carries hname) hc.others) ?_
  rintro found s' ⟨rfl, rfl⟩
  refine ⟨?_, rfl⟩
  rw [hc.record.2.2.2]

/-- The listing has the created slot, under the name it was created with. -/
theorem settles_getDomainEntries (hc : Created dims name h s) (hname : nul ∉ name)
    (hlive : s.crashed i.1 = false) : settles (system dims rough) i (getDomainEntries dims)
      (fun entries s' => (∀ e ∈ entries, e.handle.id = h.id ↔ e = ⟨name, h⟩) ∧
        ⟨name, h⟩ ∈ entries ∧ s' = s) s := by
  obtain ⟨hmagic, hactive, hfield, hgeneration⟩ := hc.record
  have hentry : (⟨(s.record h.id).getName, h.id, (s.record h.id).generation⟩ : DomainEntry) =
      ⟨name, h⟩ := by
    rw [DomainRecord.getName, hfield, takeWhile_nameField hname, hgeneration]
  refine settles_mono (settles_listActive hlive _) ?_
  rintro entries s' ⟨rfl, rfl⟩
  refine ⟨?_, ?_, rfl⟩
  · intro e he
    obtain ⟨d, -, rfl⟩ := List.mem_map.mp he
    refine ⟨fun hid => ?_, fun heq => congrArg (fun e => e.handle.id) heq⟩
    obtain rfl : d = h.id := hid
    exact hentry
  · refine List.mem_map.mpr ⟨h.id, List.mem_filter.mpr ⟨hc.slot, ?_⟩, hentry⟩
    rw [hmagic, hactive]
    rfl

end

end Cme.Registry
