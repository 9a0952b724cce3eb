import Cme.Dispatch.Doorbell
import Cme.Interleave.Outline

/-!
# Dispatch — no request and no wake is lost

Two invariants carry the argument.

* A published request whose bit a ring has raised since is somewhere: its bit is up,
  the pass has taken it, or a worker has it and has still to read the state or to
  answer (`State.Covered`). Every step that takes it from one place puts it in the
  next.
* From the moment the dispatcher reads the doorbell, a bit that its snapshot misses
  was raised by a ring that has yet to knock or has knocked since (`State.Fresh`).
  Only a pass that found nothing at all goes to the idle wait, so a bit that is up
  during that wait is such a bit.
-/

namespace Cme.Dispatch

open Function Interleave

variable {n count : Nat} {R : Type}

/-- Where a request is between its ring and its answer. -/
def State.Covered (s : State n count R) (d : DomainId) : Prop :=
  s.pending.has d = true ∨ s.taken.has d = true ∨
    ∃ w, s.slot w = some d ∨ s.work w = .unread d ∨ s.work w = .requested d

/-- Someone has raised a bit and not knocked, or has knocked since the doorbell was
read as `seen`. -/
def State.Fresh (s : State n count R) (seen : Nat) : Prop :=
  seen < s.doorbell ∨ ∃ i, s.knocking i = true

/-- The dispatcher is not in a wait. -/
def State.Awake (s : State n count R) : Prop := s.waiting = none

/-- The pass has nothing in its hands. -/
def State.Empty (s : State n count R) : Prop := ∀ d, s.taken.has d = false

/-- Where a thread stands: a worker with its work, the dispatcher in its pass. -/
inductive View (n : Nat) where
  | with (work : Work)
  | rest
  /-- It has read the doorbell, and the words of `pending` below `words`. -/
  | scanning (seen words : Nat) (taking : Bits n)
  /-- It has these left to hand over. -/
  | handing (left : List DomainId)
  /-- It waits with something left for the next pass. -/
  | short
  /-- It found nothing that is up. -/
  | idle (seen : Nat)

def Fits (s : State n count R) : View n → Prop
  | .with _ | .rest => s.Empty ∧ s.Awake
  | .scanning seen words taking => s.Empty ∧ s.Awake ∧ seen ≤ s.doorbell ∧
      ∀ d, d / 64 < words → s.pending.has d = true → taking.has d = true ∨ s.Fresh seen
  | .handing left => s.Awake ∧ ∀ d, s.taken.has d = true → d ∈ left
  | .short => s.Empty ∧ ∀ v, s.waiting ≠ some (v, false)
  | .idle seen => s.Empty ∧ seen ≤ s.doorbell ∧
      (∀ d, s.pending.has d = true → s.Fresh seen) ∧ ∀ v, s.waiting = some (v, false) → v = seen

structure Inv (s : State n count R) (γ : Tid count R → View n) : Prop where
  working : ∀ w, γ (.worker w) = .with (s.work w)
  covered : ∀ d, s.state d = .lockRequested → s.rung d = true → s.Covered d
  pass : Fits s (γ .dispatcher)

variable {s s' : State n count R} {γ : Tid count R → View n} {v : View n}

/-! ### Steps beside the pass -/

/-- What the other threads may do to what a pass rests on. -/
structure Beside (s s' : State n count R) : Prop where
  taken : s'.taken = s.taken
  waiting : s'.waiting = s.waiting
  doorbell : s.doorbell ≤ s'.doorbell
  fresh : ∀ seen, seen ≤ s.doorbell → s.Fresh seen → s'.Fresh seen
  pending : ∀ d, s'.pending.has d = true →
    s.pending.has d = true ∨ ∀ seen, seen ≤ s.doorbell → s'.Fresh seen

theorem Beside.of_eq (hpending : s'.pending = s.pending) (htaken : s'.taken = s.taken)
    (hwaiting : s'.waiting = s.waiting) (hdoorbell : s'.doorbell = s.doorbell)
    (hknocking : s'.knocking = s.knocking) : Beside s s' where
  taken := htaken
  waiting := hwaiting
  doorbell := hdoorbell.symm.le
  fresh _ _ h := by
    unfold State.Fresh
    rw [hdoorbell, hknocking]
    exact h
  pending d h := .inl (by rw [← hpending]; exact h)

theorem Fits.beside (h : Fits s v) (hb : Beside s s') : Fits s' v := by
  have hempty : s.Empty → s'.Empty := fun he d => by rw [hb.taken]; exact he d
  have hawake : s.Awake → s'.Awake := fun ha => hb.waiting.trans ha
  cases v with
  | «with» work => exact ⟨hempty h.1, hawake h.2⟩
  | rest => exact ⟨hempty h.1, hawake h.2⟩
  | scanning seen words taking =>
    obtain ⟨he, ha, hseen, hscan⟩ := h
    refine ⟨hempty he, hawake ha, hseen.trans hb.doorbell, fun d hd hup => ?_⟩
    rcases hb.pending d hup with hold | hnew
    · exact (hscan d hd hold).imp id (hb.fresh seen hseen)
    · exact .inr (hnew seen hseen)
  | handing left =>
    refine ⟨hawake h.1, fun d hd => h.2 d ?_⟩
    rw [← hb.taken]
    exact hd
  | short => exact ⟨hempty h.1, fun v => by rw [hb.waiting]; exact h.2 v⟩
  | idle seen =>
    obtain ⟨he, hseen, hidle, hwait⟩ := h
    refine ⟨hempty he, hseen.trans hb.doorbell, fun d hup => ?_, fun v hv => hwait v ?_⟩
    · rcases hb.pending d hup with hold | hnew
      · exact hb.fresh seen hseen (hidle d hold)
      · exact hnew seen hseen
    · rw [← hb.waiting]
      exact hv

variable [DecidableEq R] {i : Tid count R}

/-! ### Requesters -/

omit [DecidableEq R] in
theorem Inv.outer (hI : Inv s γ) (hb : Beside s s') (hwork : s'.work = s.work)
    (hcovered : ∀ d, s'.state d = .lockRequested → s'.rung d = true → s'.Covered d) : Inv s' γ :=
  ⟨fun w => by rw [hwork]; exact hI.working w, hcovered, hI.pass.beside hb⟩

omit [DecidableEq R] in
/-- A state is published: a request starts over, and any other is no request. -/
theorem Inv.publish (hI : Inv s γ) (d : DomainId) (state : RequestState) : Inv { s with
      state := update s.state d state
      rung := if state = .lockRequested then update s.rung d false else s.rung } γ := by
  refine hI.outer (.of_eq rfl rfl rfl rfl rfl) rfl fun e hstate hrung => ?_
  by_cases he : e = d
  · subst he
    have hreq : state = .lockRequested := by simpa using hstate
    replace hrung : (if state = .lockRequested then update s.rung e false
      else s.rung) e = true := hrung
    rw [if_pos hreq, update_self] at hrung
    cases hrung
  · refine hI.covered e ?_ ?_
    · simpa [he] using hstate
    · replace hrung : (if state = .lockRequested then update s.rung d false
        else s.rung) e = true := hrung
      split at hrung
      · simpa [he] using hrung
      · exact hrung

variable {d : DomainId}

/-- A ring raises the bit; its knock is to come. -/
theorem Inv.claimPending (hI : Inv s γ) (hd : d < n) : Inv { s with
      pending := s.pending.set d
      rung := update s.rung d true
      knocking := update s.knocking i true } γ := by
  have hfresh : ∀ seen, State.Fresh { s with
      pending := s.pending.set d
      rung := update s.rung d true
      knocking := update s.knocking i true } seen := fun seen =>
    .inr ⟨i, update_self _ _ _⟩
  refine hI.outer ⟨rfl, rfl, le_rfl, fun seen _ _ => hfresh seen, fun _ _ =>
    .inr fun seen _ => hfresh seen⟩ rfl fun e hstate hrung => ?_
  by_cases he : e = d
  · subst he
    left
    show (s.pending.set e).has e = true
    simp [hd]
  · have hold : s.rung e = true := by simpa [he] using hrung
    refine (hI.covered e hstate hold).imp (fun hup => ?_) id
    show (s.pending.set d).has e = true
    simp [hup]

theorem Inv.knock (hI : Inv s γ) : Inv { s with
      doorbell := s.doorbell + 1
      knocking := update s.knocking i false } γ := by
  refine hI.outer ⟨rfl, rfl, Nat.le_succ _, fun seen hseen _ => .inl ?_, fun d hup =>
    .inl hup⟩ rfl fun d hstate hrung => hI.covered d hstate hrung
  exact Nat.lt_succ_of_le hseen

/-- What a requester does. -/
def Outer : Op n count → Prop
  | .storeRunning _ | .publish _ _ | .knock => True
  | .claimPending d => d < n
  | _ => False

variable {o : Op n count}

theorem exec_outer (ho : Outer o) {ch : Choice count} {r : Ret o} (hI : Inv s γ)
    (hx : exec i o ch s = some (r, s')) : Inv s' γ := by
  cases o <;> first | exact ho.elim | skip
  case storeRunning b =>
    cases hx
    exact hI.outer (.of_eq rfl rfl rfl rfl rfl) rfl hI.covered
  case publish d state =>
    cases hx
    exact hI.publish d state
  case claimPending d =>
    cases hx
    exact hI.claimPending ho
  case knock =>
    cases hx
    exact hI.knock

theorem wp_outer {α : Type} {p : Proc n count α} (hp : p.Only Outer) {Q : α → View n → Prop}
    (h : ∀ a, Q a v) : wp (system n count R) Inv i p Q v := by
  refine wp_only hp (fun o ho s γ ch r s' hI hx => ?_) h
  exact exec_outer ho hI hx

theorem outer_ring (d : DomainId) : (ring d : Proc n count Unit).Only Outer := by
  rw [ring]
  split
  · exact .pure _
  · rename_i hd
    exact .bind (.perform (Nat.lt_of_not_le hd)) fun _ => .perform trivial

/-! ### Workers -/

variable {w : Fin count}

/-- The domains a worker has, handed to it or taken. -/
def With (slot : Option DomainId) (work : Work) (d : DomainId) : Prop :=
  slot = some d ∨ work = .unread d ∨ work = .requested d

/-- A worker's step leaves the requests elsewhere where they are. -/
theorem Inv.serve {old work : Work} (hI : Inv s γ) (hγ : γ (.worker w) = .with old)
    (hb : Beside s s') (hwork : s'.work = update s.work w work) (hpending : s'.pending = s.pending)
    (htaken : s'.taken = s.taken) (hslot : ∀ w', w' ≠ w → s'.slot w' = s.slot w')
    (hmine : ∀ d, s'.state d = .lockRequested → s.state d = .lockRequested ∧
      (s'.rung d = true → s.rung d = true) ∧ (With (s.slot w) old d → With (s'.slot w) work d)) :
    Inv s' (update γ (.worker w) (.with work)) := by
  have hold : s.work w = old := View.with.inj ((hI.working w).symm.trans hγ)
  refine ⟨fun w' => ?_, fun d hstate hrung => ?_, ?_⟩
  · rw [hwork]
    by_cases hw : w' = w
    · subst hw
      rw [update_self, update_self]
    · rw [update_of_ne hw, update_of_ne (by simpa using hw)]
      exact hI.working w'
  · obtain ⟨hstate, hrings, hkeeps⟩ := hmine d hstate
    obtain hup | htook | ⟨w', hw'⟩ := hI.covered d hstate (hrings hrung)
    · exact .inl (by rw [hpending]; exact hup)
    · exact .inr (.inl (by rw [htaken]; exact htook))
    · refine .inr (.inr ⟨w', ?_⟩)
      rw [hwork]
      by_cases hw : w' = w
      · subst hw
        rw [update_self]
        exact hkeeps (hold ▸ hw')
      · rw [hslot w' hw, update_of_ne hw]
        exact hw'
  · rw [update_of_ne (by simp)]
    exact hI.pass.beside hb

theorem wp_exchangeSlot : wp (system n count R) Inv (.worker w) (act (.exchangeSlot w))
    (fun d v => v = .with (d.elim .none .unread)) (.with .none) := by
  intro s γ hI hγ ch r s' hx
  cases hx
  refine ⟨_, hI.serve hγ (.of_eq rfl rfl rfl rfl rfl) rfl rfl rfl
    (fun w' hw => update_of_ne hw _ _) fun d hstate => ⟨hstate, id, fun hmine => ?_⟩, rfl⟩
  have hslot : s.slot w = some d := by simpa [With] using hmine
  simp [With, hslot]

/-- **The one read of the state.** A request that stands is the worker's to answer. -/
theorem wp_getState (d : DomainId) : wp (system n count R) Inv (.worker w) (act (.getState w d))
    (fun state v => v = .with (if state = .lockRequested then .requested d else .settled d))
    (.with (.unread d)) := by
  intro s γ hI hγ ch r s' hx
  cases hx
  refine ⟨_, hI.serve hγ (.of_eq rfl rfl rfl rfl rfl) rfl rfl rfl (fun _ _ => rfl)
    fun e hstate => ⟨hstate, id, fun hmine => ?_⟩, rfl⟩
  obtain hslot | hwork | hwork := hmine
  · exact .inl hslot
  · obtain rfl : d = e := by simpa using hwork
    replace hstate : s.state d = .lockRequested := hstate
    simp [With, hstate]
  · cases hwork

theorem wp_answer (d : DomainId) {state : RequestState} (hne : state ≠ .lockRequested) :
    wp (system n count R) Inv (.worker w) (act (.answer w d state))
      (fun _ v => v = .with (.settled d)) (.with (.requested d)) := by
  intro s γ hI hγ ch r s' hx
  cases hx
  refine ⟨_, hI.serve hγ (.of_eq rfl rfl rfl rfl rfl) rfl rfl rfl (fun _ _ => rfl)
    fun e hstate => ?_, rfl⟩
  have hed : e ≠ d := by
    rintro rfl
    exact hne (by simpa using hstate)
  refine ⟨by simpa [hed] using hstate, id, fun hmine => ?_⟩
  obtain hslot | hwork | hwork := hmine
  · exact .inl hslot
  · cases hwork
  · exact absurd (Work.requested.inj hwork).symm hed

theorem wp_release (d : DomainId) : wp (system n count R) Inv (.worker w) (act (.release w d))
    (fun _ v => v = .with .none) (.with (.settled d)) := by
  intro s γ hI hγ ch r s' hx
  cases hx
  refine ⟨_, hI.serve hγ (.of_eq rfl rfl rfl rfl rfl) rfl rfl rfl (fun _ _ => rfl)
    fun e hstate => ⟨hstate, id, fun hmine => .inl ?_⟩, rfl⟩
  simpa [With] using hmine

theorem wp_read {Q : Ret o → View n → Prop}
    (ho : ∀ (s : State n count R) ch r s', exec i o ch s = some (r, s') → s' = s)
    (hQ : ∀ r, Q r v) :
    wp (system n count R) Inv i (act o) Q v := by
  intro s γ hI hγ ch r s' hx
  obtain rfl := ho s ch r s' hx
  refine ⟨v, ?_, hQ r⟩
  rw [← hγ, update_eq_self]
  exact hI

theorem wp_loadRunning {Q : Bool → View n → Prop} (hQ : ∀ r, Q r v) :
    wp (system n count R) Inv i (act .loadRunning) Q v :=
  wp_read (fun _ _ _ _ hx => (outcome_eq hx).2.symm) hQ

theorem wp_grant (d : DomainId) : wp (system n count R) Inv (.worker w) (grant w d)
    (fun _ v => v = .with (.settled d)) (.with (.requested d)) := by
  rw [grant, wp_bind]
  refine wp_outer (.perform (by trivial)) fun _ => ?_
  refine .bind <| wp_read (fun s ch r s' hx => ?_) fun acquired => ?_
  · cases ch with
    | flag b => exact (outcome_eq hx).2.symm
    | _ => cases hx
  · split
    · exact wp_answer d (by decide)
    · exact wp_answer d (by decide)

theorem wp_runWorker :
    wp (system n count R) Inv (.worker w) (runWorker w) (fun _ v => v = .with .none)
      (.with .none) := by
  rw [runWorker, wp_bind]
  refine wp_loadRunning fun running => ?_
  split
  · refine wp_seq wp_exchangeSlot fun handed => ?_
    cases handed with
    | none => rfl
    | some d =>
      rw [wp_bind, serveLock]
      refine wp_seq (wp_getState d) fun state => ?_
      cases state with
      | lockRequested =>
        refine wp_mono (fun _ v hv => ?_) (wp_grant d)
        subst hv
        exact wp_release d
      | _ => exact wp_release d
  · rfl

/-! ### The dispatcher -/

theorem Inv.turn (hI : Inv s γ) (hwork : s'.work = s.work) (hfits : Fits s' v)
    (hcovered : ∀ d, s'.state d = .lockRequested → s'.rung d = true → s'.Covered d) :
    Inv s' (update γ .dispatcher v) := by
  refine ⟨fun w => ?_, hcovered, ?_⟩
  · rw [hwork, update_of_ne (by simp)]
    exact hI.working w
  · rw [update_self]
    exact hfits

theorem wp_look {Q : Ret o → View n → Prop}
    (h : ∀ (s : State n count R) ch r s', Fits s v → exec .dispatcher o ch s = some (r, s') →
      s' = s ∧ ∃ v', Fits s v' ∧ Q r v') :
    wp (system n count R) Inv .dispatcher (act o) Q v := by
  rintro s γ hI rfl ch r s' hx
  obtain ⟨rfl, v', hfits, hQ⟩ := h s ch r s' hI.pass hx
  exact ⟨v', hI.turn rfl hfits hI.covered, hQ⟩

theorem wp_readDoorbell : wp (system n count R) Inv .dispatcher (act .readDoorbell)
    (fun seen v => v = .scanning seen 0 0) .rest := by
  refine wp_look fun s ch r s' hs hx => ?_
  cases hx
  refine ⟨rfl, .scanning s.doorbell 0 0, ⟨hs.1, hs.2, le_rfl, fun d hd => ?_⟩, rfl⟩
  omega

theorem wp_heldSnapshot (words : List Nat) (held : Bits n) {Q : Bits n → View n → Prop}
    (hQ : ∀ held, Q held v) : wp (system n count R) Inv .dispatcher
      (takeSnapshot (fun word => act (.loadInFlight word)) words held) Q v := by
  induction words generalizing held with
  | nil => exact hQ held
  | cons word rest ih =>
    rw [takeSnapshot, wp_bind]
    refine wp_read (fun s ch r s' hx => ?_) fun standing => ih _
    exact (outcome_eq hx).2.symm

/-- **The snapshot.** What is up in a word when it is read is in the set; what is
raised in it later was not knocked for when the doorbell was read. -/
theorem wp_loadPending (seen word : Nat) (taking : Bits n) :
    wp (system n count R) Inv .dispatcher (act (.loadPending word))
      (fun standing v => v = .scanning seen (word + 1) (taking.setWord word standing))
      (.scanning seen word taking) := by
  refine wp_look fun s ch r s' hs hx => ?_
  cases hx
  obtain ⟨hempty, hawake, hseen, hscan⟩ := hs
  refine ⟨rfl, .scanning seen (word + 1) (taking.setWord word (s.pending.getWord word)),
    ⟨hempty, hawake, hseen, fun d hd hup => ?_⟩, rfl⟩
  by_cases hword : d / 64 = word
  · left
    simp [hword, hup]
  · refine (hscan d (by omega) hup).imp (fun h => ?_) id
    simpa [hword] using h

theorem wp_pendingSnapshot (seen : Nat) (rest : List Nat) (word : Nat) (taking : Bits n)
    (hrest : rest = (List.range (Bits.countWords n)).drop word) (hle : word ≤ Bits.countWords n) :
    wp (system n count R) Inv .dispatcher
      (takeSnapshot (fun word => act (.loadPending word)) rest taking)
      (fun standing v => v = .scanning seen (Bits.countWords n) standing)
      (.scanning seen word taking) := by
  induction rest generalizing word taking with
  | nil =>
    have hlen := congrArg List.length hrest
    simp only [List.length_nil, List.length_drop, List.length_range] at hlen
    obtain rfl : word = Bits.countWords n := by omega
    rfl
  | cons next rest ih =>
    have hlt : word < Bits.countWords n := by
      have hlen := congrArg List.length hrest
      simp only [List.length_cons, List.length_drop, List.length_range] at hlen
      omega
    rw [List.drop_eq_getElem_cons (by simpa using hlt), List.getElem_range] at hrest
    obtain ⟨rfl, hrest⟩ := List.cons.inj hrest
    rw [takeSnapshot]
    refine wp_seq (wp_loadPending seen next taking) fun standing => ?_
    exact ih (next + 1) _ hrest hlt

/-- What one view knows, the other does too. -/
def Leads (n count : Nat) (R : Type) (v v' : View n) : Prop :=
  ∀ s : State n count R, Fits s v → Fits s v'

/-- The bits of one word come down, into the hands of the pass. -/
theorem wp_clearPending (word : Nat) {taking : Bits n}
    (hv : Leads n count R v (.handing taking.toList)) :
    wp (system n count R) Inv .dispatcher (act (.clearPending word taking))
      (fun _ v => v = .handing taking.toList) v := by
  rintro s γ hI rfl ch r s' hx
  cases hx
  obtain ⟨hawake, htaken⟩ := hv s hI.pass
  refine ⟨.handing taking.toList, hI.turn rfl ⟨hawake, fun d hd => ?_⟩
    fun d hstate hrung => ?_, rfl⟩
  · replace hd : (s.taken ||| taking.getWord word).has d = true := hd
    rw [Bits.has_or, Bits.has_getWord, Bool.or_eq_true, Bool.and_eq_true] at hd
    rcases hd with hd | hd
    · exact htaken d hd
    · exact Bits.mem_toList.mpr hd.1
  · obtain hup | htook | hworker := hI.covered d hstate hrung
    · by_cases hmine : (taking.getWord word).has d = true
      · right; left
        show (s.taken ||| taking.getWord word).has d = true
        rw [Bits.has_or, hmine, Bool.or_true]
      · left
        show (s.pending.dropAll (taking.getWord word)).has d = true
        rw [Bits.has_dropAll, hup, Bool.eq_false_of_not_eq_true hmine]
        rfl
    · right; left
      show (s.taken ||| taking.getWord word).has d = true
      rw [Bits.has_or, htook, Bool.true_or]
    · exact .inr (.inr hworker)

theorem wp_dropAll {taking : Bits n} (words : List Nat)
    (hv : Leads n count R v (.handing taking.toList)) :
    wp (system n count R) Inv .dispatcher (dropAll taking words)
      (fun _ v => Leads n count R v (.handing taking.toList)) v := by
  induction words generalizing v with
  | nil => exact hv
  | cons word rest ih =>
    rw [dropAll]
    refine wp_seq (wp_clearPending word hv) fun _ => ?_
    exact ih fun _ h => h

theorem wp_assign (d : DomainId) (rest : List DomainId)
    (hv : Leads n count R v (.handing (d :: rest))) :
    wp (system n count R) Inv .dispatcher (act (.assign d))
      (fun handed v => v = .handing (if handed then rest else d :: rest)) v := by
  rintro s γ hI rfl ch r s' hx
  obtain ⟨hawake, htaken⟩ := hv s hI.pass
  cases ch with
  | seat seat =>
    cases seat with
    | none =>
      cases hx
      exact ⟨.handing (d :: rest), hI.turn rfl ⟨hawake, htaken⟩ hI.covered, rfl⟩
    | some w =>
      obtain ⟨hfree, ⟨⟩⟩ := of_guard hx
      refine ⟨.handing rest, hI.turn rfl ⟨hawake, fun e he => ?_⟩
        fun e hstate hrung => ?_, rfl⟩
      · replace he : (s.taken.clear d).has e = true := he
        rw [Bits.has_clear, Bool.and_eq_true] at he
        have hne : e ≠ d := by simpa using he.2
        exact (List.mem_cons.mp (htaken e he.1)).resolve_left hne
      · obtain hup | htook | ⟨w', hw'⟩ := hI.covered e hstate hrung
        · exact .inl hup
        · by_cases hed : e = d
          · -- the one that is handed over
            subst hed
            exact .inr (.inr ⟨w, .inl (update_self _ _ _)⟩)
          · right; left
            show (s.taken.clear d).has e = true
            simp [htook, hed]
        · refine .inr (.inr ⟨w', ?_⟩)
          rcases hw' with hslot | hwork
          · have hne : w' ≠ w := by
              rintro rfl
              cases hfree.2.symm.trans hslot
            left
            show update s.slot w (some d) w' = some e
            rw [update_of_ne hne, hslot]
          · exact .inr hwork
  | _ => cases hx

theorem wp_putBack (hd : d < n) (rest : List DomainId) :
    wp (system n count R) Inv .dispatcher (act (.putBack d))
      (fun _ v => v = .handing rest) (.handing (d :: rest)) := by
  intro s γ hI hγ ch r s' hx
  cases hx
  have hfits := hI.pass
  rw [hγ] at hfits
  obtain ⟨hawake, htaken⟩ := hfits
  refine ⟨.handing rest, hI.turn rfl ⟨hawake, fun e he => ?_⟩ fun e hstate hrung => ?_, rfl⟩
  · replace he : (s.taken.clear d).has e = true := he
    rw [Bits.has_clear, Bool.and_eq_true] at he
    have hne : e ≠ d := by simpa using he.2
    exact (List.mem_cons.mp (htaken e he.1)).resolve_left hne
  · by_cases hed : e = d
    · subst hed
      left
      show (s.pending.set e).has e = true
      simp [hd]
    · obtain hup | htook | hworker := hI.covered e hstate hrung
      · left
        show (s.pending.set d).has e = true
        simp [hup]
      · right; left
        show (s.taken.clear d).has e = true
        simp [htook, hed]
      · exact .inr (.inr hworker)

/-- The pass ends with empty hands, and notes a hand-over or a refusal of each. -/
theorem wp_handOver (left : List DomainId) (handed deferred : Bool) (hlt : ∀ d ∈ left, d < n)
    (hv : Leads n count R v (.handing left)) :
    wp (system n count R) Inv .dispatcher (handOver left handed deferred)
      (fun out v => Leads n count R v (.handing []) ∧
        (handed = true ∨ deferred = true ∨ left ≠ [] → out.1 = true ∨ out.2 = true)) v := by
  induction left generalizing v handed deferred with
  | nil =>
    refine ⟨hv, fun h => ?_⟩
    obtain h | h | h := h
    · exact .inl h
    · exact .inr h
    · exact absurd rfl h
  | cons d rest ih =>
    have hrest : ∀ e ∈ rest, e < n := fun e he => hlt e (List.mem_cons_of_mem d he)
    rw [handOver]
    refine wp_then (wp_assign d rest hv) fun handed' v hv => ?_
    subst hv
    cases handed' with
    | true =>
      refine wp_mono (fun out v hout => ⟨hout.1, fun _ => hout.2 (.inl rfl)⟩)
        (ih true deferred hrest fun _ h => h)
    | false =>
      rw [if_neg (by decide)]
      refine wp_seq (wp_putBack (hlt d (.head _)) rest) fun _ => ?_
      exact wp_mono (fun out v hout => ⟨hout.1, fun _ => hout.2 (.inr (.inl rfl))⟩)
        (ih handed true hrest fun _ h => h)

theorem wp_spinOnWord (expected turns : Nat) {Q : Bool → View n → Prop} (hQ : ∀ b, Q b v) :
    wp (system n count R) Inv .dispatcher (spinOnWord expected turns) Q v := by
  induction turns with
  | zero => exact hQ false
  | succ turns ih =>
    rw [spinOnWord, wp_bind]
    refine wp_read (fun s ch r s' hx => (outcome_eq hx).2.symm) fun now => ?_
    split
    · exact hQ true
    · exact ih

/-- The short wait of a pass that left something, or the idle wait of one that found
nothing. -/
theorem wp_waitOnWord (seen : Nat) (deferred : Bool)
    (hv : Leads n count R v (if deferred then .rest else .idle seen)) :
    wp (system n count R) Inv .dispatcher (waitOnWord seen deferred) (fun _ v => v = .rest) v := by
  have hmid : wp (system n count R) Inv .dispatcher (do
      let turns ← act .askTurns
      (if ← spinOnWord seen turns then pure () else act .futexWait)
      act .leaveWait) (fun _ v => v = .rest) (if deferred then .short else .idle seen) := by
    refine .bind <| wp_read (fun s ch r s' hx => ?_) fun turns => ?_
    · cases ch with
      | nat turns => exact (outcome_eq hx).2.symm
      | _ => cases hx
    have hleave : wp (system n count R) Inv .dispatcher (act .leaveWait) (fun _ v => v = .rest)
        (if deferred then .short else .idle seen) := by
      intro s γ hI hγ ch r s' hx
      cases hx
      have hempty : s.Empty := by
        have hfits := hI.pass
        rw [hγ] at hfits
        cases deferred with
        | true => exact hfits.1
        | false => exact hfits.1
      exact ⟨.rest, hI.turn rfl ⟨hempty, rfl⟩ hI.covered, rfl⟩
    refine .bind <| wp_spinOnWord seen turns fun moved => ?_
    cases moved with
    | true => exact hleave
    | false =>
      rw [if_neg (by decide), wp_bind]
      exact wp_read (fun s ch r s' hx => (outcome_eq hx).2.symm)
        fun _ => hleave
  rw [waitOnWord, wp_bind]
  rintro s γ hI rfl ch r s' hx
  cases hx
  refine ⟨_, hI.turn rfl ?_ hI.covered, hmid⟩
  have hfits := hv s hI.pass
  cases deferred with
  | true => exact ⟨hfits.1, fun seen hw => (nomatch hw)⟩
  | false =>
    obtain ⟨hempty, hseen, hidle, -⟩ := hfits
    refine ⟨hempty, hseen, hidle, fun v hw => ?_⟩
    have hpair := Option.some.inj hw
    exact (Prod.mk.inj hpair).1.symm

theorem wp_restBeforeNext (seen : Nat) (deferred : Bool)
    (hv : Leads n count R v (if deferred then .rest else .idle seen))
    (hrest : Leads n count R v .rest) :
    wp (system n count R) Inv .dispatcher (restBeforeNext seen deferred)
      (fun _ v => Leads n count R v .rest) v := by
  rw [restBeforeNext, wp_bind]
  refine wp_loadRunning fun running => ?_
  split
  · refine wp_mono (fun _ v hv => ?_) (wp_waitOnWord seen deferred hv)
    subst hv
    exact fun _ h => h
  · exact hrest

theorem div_lt_countWords {n d : Nat} (h : d < n) : d / 64 < Bits.countWords n := by
  unfold Bits.countWords
  omega

omit [DecidableEq R] in
/-- What a pass that found nothing knows. -/
theorem leads_idle {seen : Nat} {standing held : Bits n}
    (hheld : Bits.isEmpty (standing &&& held) = true)
    (htaking : (standing.dropAll held).isEmpty = true) :
    Leads n count R (.scanning seen (Bits.countWords n) standing) (.idle seen) := by
  rintro s ⟨hempty, hawake, hseen, hscan⟩
  refine ⟨hempty, hseen, fun d hup => ?_, fun v hw => (nomatch hawake.symm.trans hw)⟩
  refine (hscan d (div_lt_countWords (Bits.lt_of_has hup)) hup).resolve_left fun hstands => ?_
  have hboth := Bits.isEmpty_iff.mp hheld d
  have hneither := Bits.isEmpty_iff.mp htaking d
  rw [Bits.has_and, hstands, Bool.true_and] at hboth
  rw [Bits.has_dropAll, hstands, hboth] at hneither
  cases hneither

theorem wp_runDispatcher (hv : Leads n count R v .rest) :
    wp (system n count R) Inv .dispatcher runDispatcher
      (fun _ v => Leads n count R v .rest) v := by
  rw [runDispatcher, wp_bind]
  refine wp_look fun s ch r s' hs hx => ?_
  cases hx
  refine ⟨rfl, .rest, hv s hs, ?_⟩
  split
  case isFalse => exact fun _ h => h
  refine wp_seq wp_readDoorbell fun seen => ?_
  refine .bind <| wp_heldSnapshot _ _ fun held => ?_
  refine wp_then (wp_pendingSnapshot seen _ 0 0 rfl (Nat.zero_le _)) fun standing v hstanding => ?_
  subst hstanding
  have hrest : Leads n count R (.scanning seen (Bits.countWords n) standing) .rest :=
    fun s hs => ⟨hs.1, hs.2.1⟩
  dsimp only
  split
  · -- nothing to take: either all that stands is with a worker, or nothing stands
    rename_i htaking
    refine wp_restBeforeNext seen _ ?_ hrest
    cases hheld : Bits.isEmpty (standing &&& held) with
    | false => exact hrest
    | true => exact leads_idle hheld htaking
  · rename_i htaking
    rw [wp_bind]
    have hhands : Leads n count R (.scanning seen (Bits.countWords n) standing)
        (.handing (standing.dropAll held).toList) := fun s hs =>
      ⟨hs.2.1, fun d hd => by rw [hs.1 d] at hd; cases hd⟩
    refine wp_mono (fun _ v hv => ?_) (wp_dropAll _ hhands)
    refine wp_then (wp_handOver _ false _ (fun d hd => Bits.lt_of_has (Bits.mem_toList.mp hd)) hv)
      fun out v hout => ?_
    obtain ⟨hdone, hnoted⟩ := hout
    have hrest : Leads n count R v .rest := fun s hs => by
      obtain ⟨hawake, hnone⟩ := hdone s hs
      exact ⟨fun d => Bool.eq_false_of_not_eq_true fun hd => List.not_mem_nil (hnone d hd), hawake⟩
    obtain ⟨handed, deferred⟩ := out
    cases handed with
    | true => exact hrest
    | false =>
      -- something was to be taken and nothing was: it was all deferred
      have hdeferred : deferred = true := by
        refine (hnoted (.inr (.inr fun hnil => htaking ?_))).resolve_left Bool.false_ne_true
        refine Bits.isEmpty_iff.mpr fun d => Bool.eq_false_of_not_eq_true fun hd => ?_
        have hmem := Bits.mem_toList.mpr hd
        rw [hnil] at hmem
        exact List.not_mem_nil hmem
      subst hdeferred
      exact wp_restBeforeNext seen true hrest hrest

/-! ### Runs -/

/-- Between passes the dispatcher has nothing in its hands, and a worker between turns
nothing to serve. -/
def Rest (n count : Nat) (R : Type) : Tid count R → View n → Prop
  | .dispatcher, v => Leads n count R v .rest
  | .worker _, v => v = .with .none
  | .requester _, _ => True

theorem outline (n count : Nat) (R : Type) [DecidableEq R] :
    Outline (system n count R) Inv (Rest n count R) where
  start i call s γ p hI hrest hp := by
    refine ⟨γ i, by rw [update_eq_self]; exact hI, ?_⟩
    cases i with
    | dispatcher =>
      cases call with
      | pass =>
        cases hp
        exact wp_runDispatcher hrest
      | _ => cases hp
    | worker w =>
      cases call with
      | turn =>
        cases hp
        rw [show γ (.worker w) = .with .none from hrest]
        exact wp_runWorker
      | _ => cases hp
    | requester r =>
      cases call with
      | request d =>
        obtain ⟨-, ⟨⟩⟩ := of_guard hp
        exact wp_outer (.bind (.perform (by trivial)) fun _ => outer_ring d) fun _ => trivial
      | ring d =>
        cases hp
        exact wp_outer (outer_ring d) fun _ => trivial
      | publish d state =>
        obtain ⟨-, ⟨⟩⟩ := of_unless hp
        exact wp_outer (.perform (by trivial)) fun _ => trivial
      | knock =>
        cases hp
        exact wp_outer (.perform (by trivial)) fun _ => trivial
      | stop =>
        cases hp
        exact wp_outer (.bind (.perform (by trivial)) fun _ => .perform (by trivial)) fun _ => trivial
      | _ => cases hp
  env e := nomatch e

omit [DecidableEq R] in
theorem inv_fresh : Inv (fresh n count R).shared
    (fun i => match i with | .worker _ => .with .none | _ => .rest) where
  working _ := rfl
  covered _ h := (nomatch h)
  pass := ⟨fun _ => Bits.has_zero _, rfl⟩

/-- **No request and no wake is lost.** A request whose bit has been raised since it
was published has its bit up, or is in the hands of the pass, or is with a worker
that has yet to read the state or to answer the request it read. While the dispatcher
is in its idle wait, a bit that is up belongs to a doorbell that has moved or to a ring
about to move it. The hands of the pass are empty whenever the dispatcher waits. -/
theorem no_request_lost (n count : Nat) (R : Type) [DecidableEq R]
    {c : Config (Tid count R) (Op n count) Ret (State n count R)}
    (h : (system n count R).Reachable (fresh n count R) c) :
    (∀ d, c.shared.state d = .lockRequested → c.shared.rung d = true → c.shared.Covered d) ∧
    (∀ seen d, c.shared.waiting = some (seen, false) → c.shared.pending.has d = true →
      c.shared.doorbell ≠ seen ∨ ∃ i, c.shared.knocking i = true) ∧
    (c.shared.waiting.isSome = true → c.shared.Empty) := by
  have hidle : Outlined (system n count R) Inv (Rest n count R) (fresh n count R) := by
    refine outlined_of_idle (fun _ => rfl) inv_fresh fun i => ?_
    cases i with
    | dispatcher => exact fun _ h => h
    | worker w => rfl
    | requester r => trivial
  obtain ⟨γ, hI, -⟩ := (outline n count R).reachable hidle h
  have hpass := hI.pass
  have hawake : ∀ {seen : Nat} {b : Bool}, c.shared.waiting = some (seen, b) → ¬ c.shared.Awake :=
    fun hw ha => nomatch ha.symm.trans hw
  refine ⟨hI.covered, fun seen d hwaiting hup => ?_, fun hwaiting => ?_⟩
  · cases hv : γ .dispatcher
    all_goals rw [hv] at hpass
    case idle v =>
      obtain ⟨-, hseen, hidle, hwait⟩ := hpass
      obtain rfl := hwait seen hwaiting
      exact (hidle d hup).imp (fun hlt => Nat.ne_of_gt hlt) id
    case short => exact absurd hwaiting (hpass.2 seen)
    case handing left => exact absurd hpass.1 (hawake hwaiting)
    case scanning seen' words taking => exact absurd hpass.2.1 (hawake hwaiting)
    all_goals exact absurd hpass.2 (hawake hwaiting)
  · obtain ⟨w, hw⟩ := Option.isSome_iff_exists.mp hwaiting
    cases hv : γ .dispatcher
    all_goals rw [hv] at hpass
    case handing left => exact absurd hpass.1 (hawake hw)
    all_goals exact hpass.1

/-- The dispatcher finds nothing and waits; a requester publishes its request for
domain 3 and raises the bit. -/
def requestDuringWait : List (Action (Tid 1 (Fin 1)) (Choice 1) Call Empty) :=
  let i : Tid 1 (Fin 1) := .requester ⟨0, Nat.one_pos⟩
  [.start .dispatcher .pass, .exec .dispatcher .any, .exec .dispatcher .any,
   .exec .dispatcher .any, .exec .dispatcher .any, .exec .dispatcher .any, .exec .dispatcher .any,
   .start i (.request 3), .exec i .any, .exec i .any]

theorem no_request_lost_requestDuringWait :
    ∃ c, (system 64 1 (Fin 1)).Reachable (fresh 64 1 (Fin 1)) c ∧
      c.shared.waiting = some (0, false) ∧ c.shared.state 3 = .lockRequested ∧
      c.shared.Covered 3 ∧ (c.shared.doorbell ≠ 0 ∨ ∃ i, c.shared.knocking i = true) := by
  obtain ⟨c, hc, hwaiting, hstate, hrung, hup⟩ := System.exists_of_run (system 64 1 (Fin 1))
    (fresh 64 1 (Fin 1)) requestDuringWait
    (P := fun c => c.shared.waiting = some (0, false) ∧ c.shared.state 3 = .lockRequested ∧
      c.shared.rung 3 = true ∧ c.shared.pending.has 3 = true) (by decide +kernel)
  obtain ⟨hcovered, hfresh, -⟩ := no_request_lost 64 1 (Fin 1) hc
  exact ⟨c, hc, hwaiting, hstate, hcovered 3 hstate hrung, hfresh 0 3 hwaiting hup⟩

end Cme.Dispatch
