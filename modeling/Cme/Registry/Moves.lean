import Cme.Registry.Invariant

/-!
# Registry — what each write does to the invariant

One lemma for each access that is not quiet and for each step outside the
threads, and with it what the other threads rely on. A write inside a control
section finds nobody else inside (`Inv.outside`), so that there the others rely
on no more than `Out`.
-/

namespace Cme.Registry

open Function Interleave Interleave.Prog

variable {T : Type}
variable {f : Flags} {dims : Dims} {s s' : State T} {μ : Tid T → Mode} {i j : Tid T}

theorem Inv.outside (h : Inv f dims s μ) (hi : (μ i).inside = true) (hj : j ≠ i) :
    (μ j).inside = false := by
  by_contra hin
  have hc := ((h.inside i).mp hi).1
  rw [((h.inside j).mp (by simpa using hin)).1] at hc
  exact hj (Option.some.inj hc)

/-- What the others rely on while one is inside. -/
theorem Inv.rely_inside (h : Inv f dims s μ) (hi : (μ i).inside = true) (hj : j ≠ i)
    (hout : Out f j s s') : (pact f dims).rely j (μ j) s s' :=
  ⟨hout, fun hin => by rw [h.outside hi hj] at hin; exact absurd hin Bool.false_ne_true⟩

/-- The mints of the threads, where one changes its mode and keeps its handle. -/
theorem mint_update [DecidableEq T] (μ : Tid T → Mode) (i : Tid T) (b : Bool) (j : Tid T) :
    (update μ i ⟨b, (μ i).mint⟩ j).mint = (μ j).mint :=
  apply_update_eq Mode.mint (by rfl) j

/-- The others rely on nothing but their own marks in what stands outside records and
member slots. -/
theorem rely_aside {control : Option (Tid T)} {activeDomains : DomainBitmap}
    {unlisted : DomainId → Bool} {returned : List DomainHandle}
    {guards : List (PeerId × DomainHandle)} {users retiring : DomainId → List (Tid T)} {v : Mode}
    (hu : ∀ d, j ∈ s.users d → j ∈ users d) (hr : ∀ d, j ∈ s.retiring d → j ∈ retiring d) :
    (pact f dims).rely j v s
      { s with control, activeDomains, unlisted, returned, guards, users, retiring } :=
  ⟨⟨rfl, hu, hr, fun _ _ ha => ha, fun _ _ _ _ ha => ⟨ha, rfl⟩⟩,
    fun _ => ⟨fun _ => rfl, fun _ _ hb => hb, fun _ ha => ha, rfl⟩⟩

/-! ### The control section -/

/-- A thread that keeps to its side of the section leaves everybody there. -/
theorem inside_update [DecidableEq T] {μ : Tid T → Mode} {i : Tid T} {v : Mode}
    (hv : v.inside = (μ i).inside) (j : Tid T) : (update μ i v j).inside = (μ j).inside :=
  apply_update_eq Mode.inside hv j

theorem Inv.setControl [DecidableEq T] (h : Inv f dims s μ) (i : Tid T) (b : Bool)
    {c : Option (Tid T)} (hc : ∀ j, (update μ i ⟨b, (μ i).mint⟩ j).inside = true ↔
      c = some j ∧ s.crashed j.1 = false) :
    Inv f dims { s with control := c } (update μ i ⟨b, (μ i).mint⟩) :=
  { h with
    inside := hc
    minted := fun j k hk => h.minted j k (by rwa [mint_update] at hk)
    mintedOnce := fun j j' k hk hk' =>
      h.mintedOnce j j' k (by rwa [mint_update] at hk) (by rwa [mint_update] at hk')
    settled := fun hf => { h.settled hf with } }

theorem Inv.lockControl [DecidableEq T] (h : Inv f dims s μ) (hc : s.control = none)
    (hi : s.crashed i.1 = false) :
    Inv f dims { s with control := some i } (update μ i ⟨true, (μ i).mint⟩) := by
  refine h.setControl i true fun j => ?_
  by_cases hji : j = i
  · subst hji
    simp [hi]
  · rw [update_of_ne hji, h.inside j, hc]
    simp [Ne.symm hji]

theorem Inv.unlockControl [DecidableEq T] (h : Inv f dims s μ) (hi : (μ i).inside = true) :
    Inv f dims { s with control := none } (update μ i ⟨false, (μ i).mint⟩) := by
  refine h.setControl i false fun j => ?_
  by_cases hji : j = i
  · simp [hji]
  · simp [update_of_ne hji, h.outside hi hji]

/-! ### Member slots -/

/-- A write to member slots: a bit that is new is the bit of an Active record
that is listed; nobody becomes Active; the peers of Guards keep their bits. -/
structure Seats (f : Flags) (s : State T) (member : PeerId → Member) : Prop where
  fresh : ∀ q d, (member q).isActiveIn d = true → (s.member q).isActiveIn d = true ∨
    (s.record d).isActive = true ∧ (f.listed = true → s.unlisted d = false)
  active : ∀ q, (member q).status = .active → (s.member q).status = .active
  guarded : f.settled = true → ∀ g ∈ s.guards, s.crashed g.1 = false →
    (s.member g.1).isActiveIn g.2.id = true → (member g.1).isActiveIn g.2.id = true
  present : f.settled = true → ∀ p, s.crashed p = false →
    (member p).status = (s.member p).status

theorem Inv.setMember (h : Inv f dims s μ) {member : PeerId → Member}
    (hm : Seats f s member) : Inv f dims { s with member := member } μ :=
  { h with
    joined := fun q d hd hq => (hm.fresh q d hq).elim (h.joined q d hd) And.left
    bound := fun q hq => h.bound q (hm.active q hq)
    unlisted := fun hf q d hd hu => by
      by_contra hq
      rcases hm.fresh q d (by simpa using hq) with hold | hnew
      · rw [h.unlisted hf q d hd hu] at hold
        cases hold
      · rw [show s.unlisted d = false from hnew.2 hf] at hu
        cases hu
    settled := fun hf => { h.settled hf with
      guarded := fun g hg hp =>
        have hs := (h.settled hf).guarded g hg hp
        ⟨hm.guarded hf g hg hp hs.1, hs.2⟩
      present := fun p hp => by
        rw [show (member p).status = (s.member p).status from hm.present hf p hp]
        exact (h.settled hf).present p hp } }

theorem setBit_member (p : PeerId) (d : DomainId) (b : Bool) (q : PeerId) :
    ((s.setBit p d b).member q).status = (s.member q).status :=
  apply_update_eq Member.status (by rfl) q

variable {p q : PeerId} {d d' : DomainId}

theorem setBit_has_ne (b : Bool) (h : ¬ (q = p ∧ d' = d)) :
    ((s.setBit p d b).member q).participating.has d' = (s.member q).participating.has d' := by
  by_cases hq : q = p
  · subst hq
    have hd : d' ≠ d := fun hd => h ⟨rfl, hd⟩
    cases b <;> simp [State.setBit, hd]
  · simp [State.setBit, hq]

theorem setBit_isActiveIn_ne (b : Bool) (h : ¬ (q = p ∧ d' = d)) :
    ((s.setBit p d b).member q).isActiveIn d' = (s.member q).isActiveIn d' := by
  rw [Member.isActiveIn, Member.isActiveIn, setBit_member, setBit_has_ne b h]

theorem setBit_cleared (p : PeerId) (d : DomainId) :
    ((s.setBit p d false).member p).participating.has d = false := by
  simp [State.setBit]

theorem setBit_grows (h : (s.member q).isActiveIn d' = true) :
    ((s.setBit p d true).member q).isActiveIn d' = true := by
  by_cases hq : q = p ∧ d' = d
  · obtain ⟨rfl, rfl⟩ := hq
    rw [Member.isActiveIn_iff] at h ⊢
    exact ⟨by rw [setBit_member]; exact h.1, by simp [State.setBit, h.2]⟩
  · rw [setBit_isActiveIn_ne true hq]
    exact h

variable {d : DomainId}

theorem Inv.setParticipation (h : Inv f dims s μ) {p : PeerId}
    (hactive : (s.record d).isActive = true) (hlisted : f.listed = true → s.unlisted d = false) :
    Inv f dims (s.setBit p d true) μ := by
  refine h.setMember ⟨fun q d' hq => ?_, fun q hq => ?_, fun _ g _ _ hg => setBit_grows hg,
    fun _ q _ => setBit_member p d true q⟩
  · by_cases hqd : q = p ∧ d' = d
    · obtain ⟨rfl, rfl⟩ := hqd
      exact .inr ⟨hactive, hlisted⟩
    · exact .inl ((setBit_isActiveIn_ne true hqd).symm.trans hq)
  · exact (setBit_member p d true q).symm.trans hq

theorem out_setParticipation (p : PeerId) (d : DomainId) (j : Tid T) :
    Out f j s (s.setBit p d true) :=
  ⟨rfl, fun _ hd => hd, fun _ hd => hd, fun _ _ ha => (setBit_member p d true _).trans ha,
    fun _ _ _ _ ha => ⟨setBit_grows ha, rfl⟩⟩

/-- A peer takes its bit back when one of its threads is in a leave or a delete
of the domain, or when the bit is not there anyway. -/
def MayClear (s : State T) (i : Tid T) (d : DomainId) : Prop :=
  i ∈ s.retiring d ∨ (s.member i.1).participating.has d = false

/-- Whoever is in the domain, at a peer that does not retire it, keeps its bit. -/
theorem MayClear.keeps (hmay : MayClear s i d) (hr : ∀ j ∈ s.retiring d', j.1 ≠ q)
    (hin : (s.member q).isActiveIn d' = true) :
    ((s.setBit i.1 d false).member q).isActiveIn d' = true := by
  rwa [setBit_isActiveIn_ne]
  rintro ⟨rfl, rfl⟩
  rcases hmay with hmay | hb
  · exact hr i hmay rfl
  · cases hb.symm.trans (Member.isActiveIn_iff.mp hin).2

theorem Inv.clearParticipation (h : Inv f dims s μ) (hmay : MayClear s i d) :
    Inv f dims (s.setBit i.1 d false) μ := by
  refine h.setMember ⟨fun q d' hq => .inl ?_, fun q hq => ?_, fun hf g hg _ hin => ?_,
    fun _ q _ => setBit_member i.1 d false q⟩
  · by_cases hqd : q = i.1 ∧ d' = d
    · obtain ⟨rfl, rfl⟩ := hqd
      have hb := (Member.isActiveIn_iff.mp hq).2
      have hc : ((s.setBit i.1 d' false).member i.1).participating.has d' = false :=
        setBit_cleared _ _
      cases hc.symm.trans hb
    · exact (setBit_isActiveIn_ne false hqd).symm.trans hq
  · exact (setBit_member i.1 d false q).symm.trans hq
  · exact hmay.keeps ((h.settled hf).unretired g hg) hin

theorem Inv.out_clearParticipation (h : Inv f dims s μ) (hmay : MayClear s i d) (j : Tid T) :
    Out f j s (s.setBit i.1 d false) := by
  refine ⟨rfl, fun _ hd => hd, fun _ hd => hd,
    fun _ _ ha => (setBit_member i.1 d false _).trans ha, fun hf _ d' hu hin => ⟨?_, rfl⟩⟩
  exact hmay.keeps ((h.settled hf).apart d' j hu) hin

/-! ### Records -/

theorem same_storeRecord {e : DomainRecord} (he : e.life = (s.record d).life) :
    Same s (s.storeRecord d e) := by
  have hfresh : (!(s.record d).isActive && e.isActive) = false := by
    rw [isActive_of_life he]
    simp
  rw [State.storeRecord, hfresh]
  exact s.same (life_update _ he) _ _ _

theorem freed_isActive (e : DomainRecord) : e.freed.isActive = false := rfl

theorem storeRecord_record (d : DomainId) (e : DomainRecord) : (s.storeRecord d e).record d = e :=
  update_self ..

theorem storeRecord_freed (d : DomainId) (e : DomainRecord) :
    s.storeRecord d e.freed = { s with record := update s.record d e.freed } := by
  rw [State.storeRecord, freed_isActive, Bool.and_false]
  rfl

theorem Inv.free (h : Inv f dims s μ) {e : DomainRecord} (he : e.life = (s.record d).life)
    (hnone : ∀ q, (s.member q).isActiveIn d = false) : Inv f dims (s.storeRecord d e.freed) μ := by
  have hd : ∀ d', (update s.record d e.freed d').isActive = true → d' ≠ d := by
    rintro d' ha rfl
    rw [update_self, freed_isActive] at ha
    cases ha
  have hgen : ∀ d', (update s.record d e.freed d').generation = (s.record d').generation :=
    apply_update_eq DomainRecord.generation (generation_of_life he : e.generation = _)
  rw [storeRecord_freed]
  refine { h with
    range := fun d' hc ha => ?_
    names := fun d₁ d₂ hc₁ hc₂ ha₁ ha₂ hn => ?_
    joined := fun q d' hc hq => ?_
    handed := fun k hk => (hgen k.id).symm ▸ h.handed k hk
    minted := fun j k hk => ⟨(h.minted j k hk).1, (hgen k.id).symm ▸ (h.minted j k hk).2⟩
    listed := fun hf d' hc ha => ?_
    settled := fun hf => { h.settled hf with guarded := fun g hg hp => ?_ } }
  · simp only [update_of_ne (hd d' ha)] at ha ⊢
    exact h.range d' hc ha
  · simp only [update_of_ne (hd _ ha₁), update_of_ne (hd _ ha₂)] at ha₁ ha₂ hn
    exact h.names d₁ d₂ hc₁ hc₂ ha₁ ha₂ hn
  · have hne : d' ≠ d := by
      rintro rfl
      cases (hnone q).symm.trans hq
    simp only [update_of_ne hne]
    exact h.joined q d' hc hq
  · simp only [update_of_ne (hd d' ha)] at ha
    exact h.listed hf d' hc ha
  · have hs := (h.settled hf).guarded g hg hp
    have hne : g.2.id ≠ d := by
      intro hgd
      rw [hgd, hnone] at hs
      cases hs.1
    simp only [update_of_ne hne]
    exact hs

theorem out_free (e : DomainRecord) (hnone : ∀ q, (s.member q).isActiveIn d = false) (j : Tid T) :
    Out f j s (s.storeRecord d e.freed) := by
  rw [storeRecord_freed]
  refine ⟨rfl, fun _ hd => hd, fun _ hd => hd, fun _ _ ha => ha, fun _ _ d' _ hin => ⟨hin, ?_⟩⟩
  have hne : d' ≠ d := by
    rintro rfl
    cases (hnone _).symm.trans hin
  simp only [update_of_ne hne]

theorem getName_reborn (e : DomainRecord) (p : PeerId) {name : Text} (h : isNulFree name = true) :
    (e.reborn p name).getName = name := by
  have hall : ∀ c ∈ name, decide (c ≠ nul) = true := List.all_eq_true.mp h
  change (name ++ List.replicate (maxNameLen - name.length) nul).takeWhile (· ≠ nul) = name
  rw [List.takeWhile_append_of_pos hall, List.takeWhile_replicate]
  simp

/-- A slot may be born again under the name: it is free, and the name is. -/
structure Vacant (dims : Dims) (s : State T) (d : DomainId) (name : Text) : Prop where
  data : d ≠ controlDomainId
  range : d < dims.numDomains
  magic : (s.record d).isValidMagic = true
  free : (s.record d).isActive = false
  unique : ∀ d', d' ≠ controlDomainId → (s.record d').isActive = true →
    (s.record d').getName ≠ name

theorem storeRecord_reborn (e : DomainRecord) (p : PeerId) (name : Text)
    (hfree : (s.record d).isActive = false) : s.storeRecord d (e.reborn p name) = { s with
      record := update s.record d (e.reborn p name)
      unlisted := update s.unlisted d true } := by
  have ha : (e.reborn p name).isActive = true := rfl
  rw [State.storeRecord, hfree, ha]
  rfl

section

variable (h : Inv f dims s μ)

include h

/-- Bringing a slot to life: the handle of the new incarnation is unheard of. -/
theorem Inv.rebear [DecidableEq T] {e : DomainRecord} {p : PeerId} {name : Text} (hi : (μ i).inside = true)
    (he : e.life = (s.record d).life) (hv : Vacant dims s d name) (hname : isNulFree name = true) :
    Inv f dims (s.storeRecord d (e.reborn p name))
      (update μ i ⟨true, some ⟨d, e.generation + 1⟩⟩) := by
  have hgen : e.generation = (s.record d).generation := generation_of_life he
  -- every handle heard of so far is of an older incarnation
  have hle : ∀ k : DomainHandle, k.incarnation ≤ (s.record k.id).generation →
      k ≠ ⟨d, e.generation + 1⟩ ∧
        k.incarnation ≤ (update s.record d (e.reborn p name) k.id).generation := by
    intro k hk
    refine ⟨fun heq => ?_, ?_⟩
    · rw [heq] at hk
      simp only at hk
      omega
    · by_cases hd : k.id = d
      · rw [hd, update_self]
        change k.incarnation ≤ e.generation + 1
        rw [hd] at hk
        omega
      · rwa [update_of_ne hd]
  have hguard : ∀ d', (s.record d').isActive = true → d' ≠ d := by
    rintro d' ha rfl
    rw [hv.free] at ha
    cases ha
  rw [storeRecord_reborn e p name hv.free]
  refine { h with
    inside := fun j => ?_
    range := fun d' hc ha => ?_
    names := fun d₁ d₂ hc₁ hc₂ ha₁ ha₂ hn => ?_
    joined := fun q d' hc hq => ?_
    handed := fun k hk => (hle k (h.handed k hk)).2
    minted := fun j k hk => ?_
    mintedOnce := fun j j' k hk hk' => ?_
    listed := fun hf d' hc ha => ?_
    unlisted := fun hf q d' hc hu => ?_
    settled := fun hf => { h.settled hf with guarded := fun g hg hp => ?_ } }
  · rw [inside_update hi.symm]
    exact h.inside j
  · by_cases hd : d' = d
    · subst hd
      simp only [update_self]
      exact ⟨hv.range, (isValidMagic_of_life he).trans hv.magic⟩
    · simp only [update_of_ne hd] at ha ⊢
      exact h.range d' hc ha
  · -- the new name is nobody else's
    by_cases h₁ : d₁ = d <;> by_cases h₂ : d₂ = d
    · rw [h₁, h₂]
    · simp only [h₁, update_self, update_of_ne h₂,
        getName_reborn e p hname] at hn ha₂
      exact absurd hn.symm (hv.unique d₂ hc₂ ha₂)
    · simp only [h₂, update_self, update_of_ne h₁,
        getName_reborn e p hname] at hn ha₁
      exact absurd hn (hv.unique d₁ hc₁ ha₁)
    · simp only [update_of_ne h₁, update_of_ne h₂] at hn ha₁ ha₂
      exact h.names d₁ d₂ hc₁ hc₂ ha₁ ha₂ hn
  · have hd := hguard d' (h.joined q d' hc hq)
    simp only [update_of_ne hd]
    exact h.joined q d' hc hq
  · by_cases hj : j = i
    · subst hj
      simp only [update_self, Option.some.injEq] at hk
      subst hk
      refine ⟨fun hmem => (hle _ (h.handed _ hmem)).1 rfl, ?_⟩
      simp only [update_self]
      exact le_rfl
    · rw [update_of_ne hj] at hk
      exact ⟨(h.minted j k hk).1, (hle k (h.minted j k hk).2).2⟩
  · -- the new handle is no older one
    by_cases hj : j = i <;> by_cases hj' : j' = i
    · rw [hj, hj']
    · simp only [hj, update_self, Option.some.injEq] at hk
      rw [update_of_ne hj'] at hk'
      exact absurd hk.symm (hle k (h.minted j' k hk').2).1
    · simp only [hj', update_self, Option.some.injEq] at hk'
      rw [update_of_ne hj] at hk
      exact absurd hk'.symm (hle k (h.minted j k hk).2).1
    · rw [update_of_ne hj] at hk
      rw [update_of_ne hj'] at hk'
      exact h.mintedOnce j j' k hk hk'
  · by_cases hd : d' = d
    · subst hd
      exact .inr (update_self ..)
    · simp only [update_of_ne hd] at ha ⊢
      exact h.listed hf d' hc ha
  · by_cases hd : d' = d
    · subst hd
      by_contra hq
      have ha := h.joined q d' hc (by simpa using hq)
      rw [hv.free] at ha
      exact Bool.false_ne_true ha
    · simp only [update_of_ne hd] at hu
      exact h.unlisted hf q d' hc hu
  · have hs := (h.settled hf).guarded g hg hp
    simp only [update_of_ne (hguard _ hs.2.1)]
    exact hs

theorem Inv.out_rebear (e : DomainRecord) (p : PeerId) (name : Text) (hd : d ≠ controlDomainId)
    (hfree : (s.record d).isActive = false) (j : Tid T) :
    Out f j s (s.storeRecord d (e.reborn p name)) := by
  rw [storeRecord_reborn e p name hfree]
  refine ⟨rfl, fun _ hu => hu, fun _ hr => hr, fun _ _ ha => ha, fun _ _ d' _ hin => ⟨hin, ?_⟩⟩
  have hne : d' ≠ d := by
    rintro rfl
    have ha := h.joined _ d' hd hin
    rw [hfree] at ha
    exact Bool.false_ne_true ha
  simp only [update_of_ne hne]

/-! ### The bitmap -/

theorem Inv.setActiveDomain (d : DomainId) : Inv f dims { s with
      activeDomains := s.activeDomains.set d
      unlisted := update s.unlisted d false } μ := by
  refine { h with
    listed := fun hf d' hc ha => ?_
    unlisted := fun hf q d' hc hu => ?_
    settled := fun hf => { h.settled hf with } }
  · by_cases hd : d' = d
    · subst hd
      have hlt : d' < maxDomains := Nat.lt_of_lt_of_le (h.range d' hc ha).1 dims.numDomains_le
      left
      simp [hlt]
    · refine (h.listed hf d' hc ha).imp (fun hb => ?_) fun hu => ?_
      · simp [hb]
      · simpa [hd] using hu
  · by_cases hd : d' = d
    · subst hd
      simp at hu
    · simp only [update_of_ne hd] at hu
      exact h.unlisted hf q d' hc hu

theorem Inv.clearActiveDomain (hfree : (s.record d).isActive = false) :
    Inv f dims { s with activeDomains := s.activeDomains.clear d } μ := by
  refine { h with
    listed := fun hf d' hc ha => ?_
    settled := fun hf => { h.settled hf with } }
  have hd : d' ≠ d := by
    rintro rfl
    cases hfree.symm.trans ha
  refine (h.listed hf d' hc ha).imp_left fun hb => ?_
  simp [hb, hd]

end

/-! ### History -/

theorem Inv.returnHandle [DecidableEq T] (h : Inv f dims s μ) {k : DomainHandle} (hi : (μ i).mint = some k) :
    Inv f dims { s with returned := k :: s.returned }
      (update μ i ⟨(μ i).inside, none⟩) := by
  have hmint : ∀ j k', (update μ i ⟨(μ i).inside, none⟩ j).mint = some k' →
      j ≠ i ∧ (μ j).mint = some k' := by
    intro j k' hk'
    by_cases hj : j = i
    · subst hj
      simp at hk'
    · rw [update_of_ne hj] at hk'
      exact ⟨hj, hk'⟩
  refine { h with
    inside := fun j => ?_
    handed := fun k' hk' => ?_
    handedOnce := List.nodup_cons.mpr ⟨(h.minted i k hi).1, h.handedOnce⟩
    minted := fun j k' hk' => ?_
    mintedOnce := fun j j' k' hk hk' =>
      h.mintedOnce j j' k' (hmint j k' hk).2 (hmint j' k' hk').2
    settled := fun hf => { h.settled hf with } }
  · rw [inside_update (v := ⟨(μ i).inside, none⟩) rfl]
    exact h.inside j
  · rcases List.mem_cons.mp hk' with rfl | hold
    · exact (h.minted i k' hi).2
    · exact h.handed k' hold
  · obtain ⟨hj, hold⟩ := hmint j k' hk'
    refine ⟨fun hmem => ?_, (h.minted j k' hold).2⟩
    rcases List.mem_cons.mp hmem with rfl | hmem
    · exact hj (h.mintedOnce j i k' hold hi)
    · exact (h.minted j k' hold).1 hmem

theorem Inv.returnGuard (h : Inv f dims s μ) {k : DomainHandle}
    (hk : f.settled = true → i ∈ s.users k.id ∧ (s.member i.1).isActiveIn k.id = true ∧
      (s.record k.id).isActive = true ∧ (s.record k.id).generation = k.incarnation) :
    Inv f dims { s with guards := (i.1, k) :: s.guards } μ :=
  { h with
    settled := fun hf => { h.settled hf with
      guarded := fun g hg hp => by
        rcases List.mem_cons.mp hg with rfl | hold
        · exact (hk hf).2
        · exact (h.settled hf).guarded g hold hp
      unretired := fun g hg j hj => by
        rcases List.mem_cons.mp hg with rfl | hold
        · exact (h.settled hf).apart k.id i (hk hf).1 j hj
        · exact (h.settled hf).unretired g hold j hj } }

theorem Inv.setGuards (h : Inv f dims s μ) {guards : List (PeerId × DomainHandle)}
    (hsub : ∀ g ∈ guards, g ∈ s.guards) : Inv f dims { s with guards := guards } μ :=
  { h with
    settled := fun hf => { h.settled hf with
      guarded := fun g hg => (h.settled hf).guarded g (hsub g hg)
      unretired := fun g hg => (h.settled hf).unretired g (hsub g hg) } }

theorem Inv.setUsers (h : Inv f dims s μ) {users : DomainId → List (Tid T)}
    (hu : f.settled = true → ∀ d, ∀ i ∈ users d, i ∈ s.users d ∨
      ∀ j ∈ s.retiring d, j.1 ≠ i.1) :
    Inv f dims { s with users := users } μ :=
  { h with
    settled := fun hf => { h.settled hf with
      apart := fun d i hi j hj =>
        (hu hf d i hi).elim (fun hold => (h.settled hf).apart d i hold j hj) fun hnew =>
          hnew j hj } }

theorem Inv.setRetiring (h : Inv f dims s μ) {retiring : DomainId → List (Tid T)}
    (hr : f.settled = true → ∀ d, ∀ j ∈ retiring d, j ∈ s.retiring d ∨
      (∀ i ∈ s.users d, j.1 ≠ i.1) ∧ ∀ g ∈ s.guards, g.2.id = d → j.1 ≠ g.1) :
    Inv f dims { s with retiring := retiring } μ :=
  { h with
    settled := fun hf => { h.settled hf with
      unretired := fun g hg j hj =>
        (hr hf _ j hj).elim ((h.settled hf).unretired g hg j) fun hnew => hnew.2 g hg rfl
      apart := fun d i hi j hj =>
        (hr hf d j hj).elim ((h.settled hf).apart d i hi j) fun hnew => hnew.1 i hi } }

variable {marks : DomainId → List (Tid T)}

/-- Tokens of a thread other than the one that writes. -/
theorem mem_erase_ne [DecidableEq T] (hj : j ≠ i) (h : j ∈ marks d') :
    j ∈ update marks d ((marks d).erase i) d' := by
  by_cases hd : d' = d
  · subst hd
    rw [update_self]
    exact (List.mem_erase_of_ne hj).mpr h
  · rwa [update_of_ne hd]

theorem mem_of_erase [DecidableEq T] (h : j ∈ update marks d ((marks d).erase i) d') :
    j ∈ marks d' := by
  by_cases hd : d' = d
  · subst hd
    rw [update_self] at h
    exact List.mem_of_mem_erase h
  · rwa [update_of_ne hd] at h

theorem mem_push (h : j ∈ marks d') : j ∈ update marks d (i :: marks d) d' := by
  by_cases hd : d' = d
  · subst hd
    rw [update_self]
    exact .tail _ h
  · rwa [update_of_ne hd]

theorem mem_of_push (h : j ∈ update marks d (i :: marks d) d') :
    (j = i ∧ d' = d) ∨ j ∈ marks d' := by
  by_cases hd : d' = d
  · subst hd
    rw [update_self] at h
    exact (List.mem_cons.mp h).imp_left fun hj => ⟨hj, rfl⟩
  · rw [update_of_ne hd] at h
    exact .inr h

/-! ### The steps outside the threads -/

/-- A write to a member slot outside the threads takes participation away, and
touches a live member only where peers depart. -/
theorem Inv.setStatus (h : Inv f dims s μ) (p : PeerId) (status : Status) (bits : DomainBitmap)
    (hstatus : status ≠ .active)
    (hbits : ∀ d, bits.has d = true → (s.member p).participating.has d = true)
    (hlive : f.settled = true → s.crashed p = true) : Inv f dims (s.setStatus p status bits) μ ∧
      ∀ j v, (pact f dims).rely j v s (s.setStatus p status bits) := by
  have hne : ∀ q, q ≠ p → (s.setStatus p status bits).member q = s.member q := fun q hq =>
    update_of_ne hq ..
  have hself : (s.setStatus p status bits).member p = ⟨status, bits⟩ := update_self ..
  have hactive : ∀ q, ((s.setStatus p status bits).member q).status = .active → q ≠ p := by
    rintro q hq rfl
    rw [hself] at hq
    exact hstatus hq
  have hlives : ∀ q, f.settled = true → s.crashed q = false → q ≠ p := by
    rintro q hf hq rfl
    cases hq.symm.trans (hlive hf)
  have hin : ∀ q d, ((s.setStatus p status bits).member q).isActiveIn d = true →
      (s.member q).isActiveIn d = true := fun q d hq => by
    rwa [hne q (hactive q (Member.isActiveIn_iff.mp hq).1)] at hq
  refine ⟨h.setMember ⟨fun q d hq => .inl (hin q d hq), fun q hq => ?_,
    fun hf g _ hg hq => ?_, fun hf q hq => ?_⟩, fun j v => ⟨⟨rfl, fun _ h => h, fun _ h => h,
      fun hf hj ha => ?_, fun hf hj d _ ha => ⟨?_, rfl⟩⟩, fun _ => ⟨fun _ => rfl, fun q d hq => ?_,
      fun q hq => ?_, rfl⟩⟩⟩
  · exact (hne q (hactive q hq)) ▸ hq
  · exact (congrArg (Member.isActiveIn · g.2.id) (hne g.1 (hlives _ hf hg))).trans hq
  · exact congrArg Member.status (hne q (hlives q hf hq))
  · rw [hne j.1 (hlives _ hf hj)]
    exact ha
  · rw [hne j.1 (hlives _ hf hj)]
    exact ha
  · by_cases hqp : q = p
    · subst hqp
      rw [hself] at hq
      exact hbits d hq
    · rwa [hne q hqp] at hq
  · rwa [hne q (hactive q hq)] at hq

theorem Inv.crash (h : Inv f dims s μ) (p : PeerId) :
    Inv f dims { s with crashed := update s.crashed p true }
      (fun j => if j.1 = p then .rest else μ j) := by
  have hlive : ∀ q, update s.crashed p true q = false → s.crashed q = false := by
    intro q hq
    by_cases hqp : q = p
    · subst hqp
      simp at hq
    · rwa [update_of_ne hqp] at hq
  have hmint : ∀ j k, (if j.1 = p then Mode.rest else μ j).mint = some k →
      (μ j).mint = some k := by
    intro j k hk
    by_cases hj : j.1 = p
    · rw [if_pos hj] at hk
      simp [Mode.rest] at hk
    · rwa [if_neg hj] at hk
  refine { h with
    inside := fun j => ?_
    minted := fun j k hk => h.minted j k (hmint j k hk)
    mintedOnce := fun j j' k hk hk' => h.mintedOnce j j' k (hmint j k hk) (hmint j' k hk')
    settled := fun hf => { h.settled hf with
      guarded := fun g hg hp => (h.settled hf).guarded g hg (hlive _ hp)
      present := fun q hq => (h.settled hf).present q (hlive q hq) } }
  · by_cases hjp : j.1 = p
    · simp [hjp, Mode.rest]
    · simp only [hjp, if_false, update_of_ne hjp]
      exact h.inside j

theorem Inv.handControl (h : Inv f dims s μ) (hi : s.control = some i)
    (hcrashed : s.crashed i.1 = true) : Inv f dims { s with control := none } μ :=
  { h with
    inside := fun j => by
      rw [h.inside j, hi]
      refine ⟨fun hj => ?_, fun hj => nomatch hj.1⟩
      obtain rfl := Option.some.inj hj.1
      cases hj.2.symm.trans hcrashed
    settled := fun hf => { h.settled hf with } }

end Cme.Registry
