import Cme.Daemon.Ledger
import Mathlib.Data.List.TakeWhile

/-!
# Daemon — the table, the region and the ledgers

The entry of a domain counts joins, each connection keeps the names it is in,
and the region knows which domains this node is in. `Tally` says how the three
agree; the lemmas are the changes a message or a refresh pass makes to them.
-/

namespace Cme.Daemon

open Function Interleave

variable {C : Type} [Fintype C]

/-! ### Names -/

theorem nulFree_readField (field : Text) : NulFree (readField field) := by
  intro ch hch
  simpa using List.mem_takeWhile_imp hch

variable {x : Text}

theorem getText_make {n : DomainName} (hx : NulFree x) (h : DomainName.make x = some n) :
    n.getText = x := by
  rw [DomainName.make] at h
  obtain ⟨-, ⟨⟩⟩ := of_unless h
  have hall : ∀ ch ∈ x, decide (ch ≠ Char.ofNat 0) = true := fun ch hch => by
    simpa using hx ch hch
  rw [DomainName.getText, readField, List.takeWhile_append_of_pos hall, List.takeWhile_replicate]
  simp

/-- Two strings without a NUL that are accepted as one name are one string. -/
theorem make_inj {y : Text} {n m : DomainName} (hx : NulFree x) (hn : DomainName.make x = some n)
    (hy : NulFree y) (hm : DomainName.make y = some m) : m = n ↔ y = x := by
  constructor
  · rintro rfl
    rw [← getText_make hy hm, ← getText_make hx hn]
  · rintro rfl
    exact Option.some.inj (hm.symm.trans hn)

/-! ### Ledgers -/

/-- The connections that are in the domain of that name. -/
def holders (joins : C → JoinLedger) (x : Text) : Finset C :=
  Finset.univ.filter fun c => x ∈ joins c

theorem mem_holders {joins : C → JoinLedger} {c : C} : c ∈ holders joins x ↔ x ∈ joins c := by
  simp [holders]

theorem card_holders_eq_zero {joins : C → JoinLedger} :
    (holders joins x).card = 0 ↔ ∀ c, x ∉ joins c := by
  rw [Finset.card_eq_zero, Finset.eq_empty_iff_forall_notMem]
  exact forall_congr' fun c => not_congr mem_holders

theorem holders_update_of_ne [DecidableEq C] {joins : C → JoinLedger} {c : C} {l : JoinLedger}
    (h : x ∈ l ↔ x ∈ joins c) : holders (update joins c l) x = holders joins x := by
  ext c'
  rw [mem_holders, mem_holders]
  by_cases hc : c' = c
  · subst hc
    rw [update_self]
    exact h
  · rw [update_of_ne hc]

theorem card_holders_insert [DecidableEq C] {joins : C → JoinLedger} {c : C} (hx : x ∉ joins c) :
    (holders (update joins c (insert x (joins c))) x).card =
      (holders joins x).card + 1 := by
  have hset : holders (update joins c (insert x (joins c))) x =
      insert c (holders joins x) := by
    ext c'
    rw [Finset.mem_insert, mem_holders, mem_holders]
    by_cases hc : c' = c
    · subst hc
      simp
    · simp [hc]
  rw [hset, Finset.card_insert_of_notMem (by rwa [mem_holders])]

theorem card_holders_erase [DecidableEq C] {joins : C → JoinLedger} {c : C} (hx : x ∈ joins c) :
    (holders (update joins c ((joins c).erase x)) x).card =
      (holders joins x).card - 1 := by
  have hset : holders (update joins c ((joins c).erase x)) x =
      (holders joins x).erase c := by
    ext c'
    rw [Finset.mem_erase, mem_holders, mem_holders]
    by_cases hc : c' = c
    · subst hc
      simp
    · simp [hc]
  rw [hset, Finset.card_erase_of_mem (mem_holders.mpr hx)]

/-! ### The tally -/

/-- A slot that stands for a domain. -/
def Registry.Live (r : Registry) (d : DomainId) : Prop := r.state d = .live

instance (r : Registry) (d : DomainId) : Decidable (r.Live d) := inferInstanceAs (Decidable (_ = _))

def Registry.text (r : Registry) (d : DomainId) : Text := readField (r.name d)

/-- The slot stands for the domain of that name. -/
def Registry.Stands (r : Registry) (d : DomainId) (x : Text) : Prop := r.Live d ∧ r.text d = x

/-- The table, the region and the ledgers agree. -/
structure Tally (lim : Limits) (r : Registry) (g : Region) (joins : C → JoinLedger) : Prop where
  count : ∀ d x, r.Stands d x → r.joined d = (holders joins x).card
  unused : ∀ d, ¬ r.Live d → r.joined d = 0
  unbroken : ∀ d, r.state d ≠ .broken
  range : ∀ d x, r.Stands d x → d < lim.maxDomains ∧ ∃ n, DomainName.make x = some n
  held : ∀ c, ∀ x ∈ joins c, ∃ d, r.Stands d x
  distinct : ∀ d d' x, r.Stands d x → r.Stands d' x → d = d'
  index : ∀ x n, NulFree x → DomainName.make x = some n → ∀ d, r.ids n = some d ↔ r.Stands d x
  backed : ∀ d, 0 < r.joined d → g.participates d = true ∧ g.name d = some (r.text d)
  regionDistinct : ∀ d d' x, g.name d = some x → g.name d' = some x → d = d'
  regionRange : ∀ d x, g.name d = some x →
    d ≠ controlDomainId ∧ d < lim.domainCount ∧ NulFree x

/-- Every slot that stands for a domain stands for the one the region has there. -/
def UpToDate (r : Registry) (g : Region) : Prop :=
  ∀ d, r.Live d → g.name d = some (r.text d)

section Pure

variable {lim : Limits} {r : Registry} {g g' : Region} {joins : C → JoinLedger} {d : DomainId}
variable {x : Text} {n : DomainName}

variable {id : DomainId}

theorem resolve_eq_some {count : Nat} (h : g.resolve count x = some id) : g.name id = some x := by
  have hp := List.find?_some h
  simp only [decide_eq_true_eq] at hp
  exact hp.2

theorem resolve_eq_none {count : Nat} (h : g.resolve count x = none) (h0 : id ≠ controlDomainId)
    (hlt : id < count) : g.name id ≠ some x := by
  intro hname
  have hp := List.find?_eq_none.mp h id (List.mem_range.mpr hlt)
  simp [h0, hname] at hp

section

variable (h : Tally lim r g joins)

include h

theorem Tally.resolve (hd : g.name d = some x) :
    g.resolve lim.domainCount x = some d := by
  cases hres : g.resolve lim.domainCount x with
  | none =>
    obtain ⟨h0, hlt, -⟩ := h.regionRange d x hd
    exact absurd hd (resolve_eq_none hres h0 hlt)
  | some id => rw [h.regionDistinct id d x (resolve_eq_some hres) hd]

/-- A change of the region that keeps what the counts rest on. -/
theorem Tally.setRegion
    (hb : ∀ d, 0 < r.joined d → g'.participates d = true ∧ g'.name d = some (r.text d))
    (hd : ∀ d d' x, g'.name d = some x → g'.name d' = some x → d = d')
    (hr : ∀ d x, g'.name d = some x → d ≠ controlDomainId ∧ d < lim.domainCount ∧ NulFree x) :
    Tally lim r g' joins :=
  { h with backed := hb, regionDistinct := hd, regionRange := hr }

theorem Tally.setParticipates (id : DomainId) (b : Bool)
    (hb : b = false → r.joined id = 0) :
    Tally lim r { g with participates := update g.participates id b } joins := by
  refine h.setRegion (fun d hd => ⟨?_, (h.backed d hd).2⟩) h.regionDistinct h.regionRange
  by_cases hid : d = id
  · subst hid
    simp only [update_self]
    by_contra hf
    rw [hb (by simpa using hf)] at hd
    exact absurd hd (Nat.lt_irrefl 0)
  · simp only [update_of_ne hid]
    exact (h.backed d hd).1

/-- A new domain, under a name the region does not have. -/
theorem Tally.addDomain (hx : NulFree x) (h0 : id ≠ controlDomainId)
    (hlt : id < lim.domainCount) (hfree : g.name id = none)
    (hnew : g.resolve lim.domainCount x = none) (generation : DomainId → Nat) {p : DomainId → Bool}
    (hp : ∀ d, g.participates d = true → p d = true) : Tally lim r { g with
      name := update g.name id (some x)
      generation := generation
      participates := p } joins := by
  have hname : ∀ d y, update g.name id (some x) d = some y →
      (d = id ∧ y = x) ∨ (d ≠ id ∧ g.name d = some y) := by
    intro d y hy
    by_cases hd : d = id
    · subst hd
      rw [update_self] at hy
      exact .inl ⟨rfl, (Option.some.inj hy).symm⟩
    · rw [update_of_ne hd] at hy
      exact .inr ⟨hd, hy⟩
  have hother : ∀ d, g.name d = some x → False := fun d hd =>
    resolve_eq_none hnew (h.regionRange d x hd).1 (h.regionRange d x hd).2.1 hd
  refine h.setRegion (fun d hd => ⟨hp d (h.backed d hd).1, ?_⟩) (fun d d' y hy hy' => ?_)
    fun d y hy => ?_
  · have hold := (h.backed d hd).2
    have hne : d ≠ id := by
      rintro rfl
      rw [hfree] at hold
      simp at hold
    simpa only [update_of_ne hne] using hold
  · rcases hname d y hy with ⟨rfl, rfl⟩ | ⟨-, hd⟩ <;> rcases hname d' y hy' with ⟨rfl, hy₂⟩ | ⟨-, hd'⟩
    · rfl
    · exact (hother d' hd').elim
    · exact (hother d (hy₂ ▸ hd)).elim
    · exact h.regionDistinct d d' y hd hd'
  · rcases hname d y hy with ⟨rfl, rfl⟩ | ⟨-, hd⟩
    · exact ⟨h0, hlt, hx⟩
    · exact h.regionRange d y hd

theorem Tally.removeDomain (hid : r.joined id = 0) {p : DomainId → Bool}
    (hp : ∀ d, d ≠ id → p d = g.participates d) : Tally lim r { g with
      name := update g.name id none
      participates := p } joins := by
  have hname : ∀ d y, update g.name id none d = some y → g.name d = some y := by
    intro d y hy
    by_cases hd : d = id
    · subst hd
      simp at hy
    · rwa [update_of_ne hd] at hy
  refine h.setRegion (fun d hd => ?_) (fun d d' y hy hy' =>
    h.regionDistinct d d' y (hname d y hy) (hname d' y hy')) fun d y hy =>
      h.regionRange d y (hname d y hy)
  have hne : d ≠ id := by
    rintro rfl
    rw [hid] at hd
    exact absurd hd (Nat.lt_irrefl 0)
  simp only [update_of_ne hne, hp d hne]
  exact h.backed d hd

/-- A slot that stood for nothing stands for a domain no connection is in. -/
theorem Tally.publish (hx : NulFree x) (hn : DomainName.make x = some n)
    (hlt : d < lim.maxDomains) (hd : ¬ r.Live d) (hnone : ∀ c, x ∉ joins c)
    (hother : ∀ d', ¬ r.Stands d' x) : Tally lim { r with
      name := update r.name d n.field
      state := update r.state d .live
      ids := update r.ids n (some d) } g joins := by
  set r' : Registry := { r with
    name := update r.name d n.field
    state := update r.state d .live
    ids := update r.ids n (some d) } with hr'
  have hstands : ∀ d' y, r'.Stands d' y ↔ (d' = d ∧ y = x) ∨ r.Stands d' y := by
    intro d' y
    change update r.state d .live d' = .live ∧ readField (update r.name d n.field d') = y ↔ _
    by_cases hd' : d' = d
    · have htext : readField n.field = x := getText_make hx hn
      simp [hd', htext, Registry.Stands, hd, eq_comm]
    · simp [hd', Registry.Stands, Registry.Live, Registry.text]
  refine { h with
    count := fun d' y hy => ?_
    unused := fun d' hl => h.unused d' fun hl' => hl ((hstands d' _).mpr (.inr ⟨hl', rfl⟩)).1
    unbroken := (forall_update_iff r.state fun _ p => p ≠ .broken).mpr
      ⟨by decide, fun d' _ => h.unbroken d'⟩
    range := fun d' y hy => ?_
    held := fun c y hy => (h.held c y hy).imp fun d' hy => (hstands d' y).mpr (.inr hy)
    distinct := fun d₁ d₂ y h₁ h₂ => ?_
    index := fun y m hy hm d' => ?_
    backed := fun d' hj => ?_ }
  · rcases (hstands d' y).mp hy with ⟨rfl, rfl⟩ | hy
    · rw [card_holders_eq_zero.mpr hnone]
      exact h.unused d' hd
    · exact h.count d' y hy
  · rcases (hstands d' y).mp hy with ⟨rfl, rfl⟩ | hy
    · exact ⟨hlt, n, hn⟩
    · exact h.range d' y hy
  · -- no other slot has the name
    rcases (hstands d₁ y).mp h₁ with ⟨rfl, rfl⟩ | h₁' <;>
      rcases (hstands d₂ _).mp h₂ with ⟨rfl, hy⟩ | h₂'
    · rfl
    · exact absurd h₂' (hother d₂)
    · exact absurd (hy ▸ h₁') (hother d₁)
    · exact h.distinct d₁ d₂ y h₁' h₂'
  · change update r.ids n (some d) m = some d' ↔ _
    rw [hstands]
    by_cases hmn : m = n
    · -- its own entry, and below it those of other names
      rw [hmn, (make_inj hx hn hy hm).mp hmn]
      simp [hother, eq_comm]
    · have hyx : y ≠ x := fun hyx => hmn ((make_inj hx hn hy hm).mpr hyx)
      simpa [hmn, hyx] using h.index y m hy hm d'
  · have hne : d' ≠ d := by
      rintro rfl
      have h0 := h.unused d' hd
      change 0 < r.joined d' at hj
      omega
    change _ ∧ g.name d' = some (readField (update r.name d n.field d'))
    rw [update_of_ne hne]
    exact h.backed d' hj

/-- A slot that stands for a domain no connection is in any more stands for
nothing. -/
theorem Tally.retire {joins' : C → JoinLedger} (hd : r.Stands d x)
    (hn : DomainName.make x = some n) (hj : ∀ c, x ∉ joins' c)
    (hsame : ∀ c y, y ≠ x → (y ∈ joins' c ↔ y ∈ joins c)) : Tally lim { r with
      state := update r.state d .free
      name := update r.name d clearedField
      ids := update r.ids n none
      joined := update r.joined d 0 } g joins' := by
  set r' : Registry := { r with
    state := update r.state d .free
    name := update r.name d clearedField
    ids := update r.ids n none
    joined := update r.joined d 0 } with hr'
  have hx : NulFree x := hd.2 ▸ nulFree_readField _
  -- the slots of the other names are those that stand on
  have hstands : ∀ d' y, r'.Stands d' y ↔ y ≠ x ∧ r.Stands d' y := by
    intro d' y
    change update r.state d .free d' = .live ∧
      readField (update r.name d clearedField d') = y ↔ _
    by_cases hd' : d' = d
    · subst hd'
      simp only [update_self, reduceCtorEq, false_and, false_iff]
      exact fun hy => hy.1 (hy.2.2.symm.trans hd.2)
    · rw [update_of_ne hd', update_of_ne hd']
      refine ⟨fun hy => ⟨?_, hy⟩, And.right⟩
      rintro rfl
      exact hd' (h.distinct d' d y hy hd)
  have hne : ∀ d' y, r'.Stands d' y → d' ≠ d := by
    rintro d' y hy rfl
    have hy := (hstands d' y).mp hy
    exact hy.1 (hy.2.2.symm.trans hd.2)
  refine { h with
    count := fun d' y hy => ?_
    unused := fun d' hl => ?_
    unbroken := (forall_update_iff r.state fun _ p => p ≠ .broken).mpr
      ⟨by decide, fun d' _ => h.unbroken d'⟩
    range := fun d' y hy => h.range d' y ((hstands d' y).mp hy).2
    held := fun c y hy => ?_
    distinct := fun d₁ d₂ y h₁ h₂ =>
      h.distinct d₁ d₂ y ((hstands d₁ y).mp h₁).2 ((hstands d₂ y).mp h₂).2
    index := fun y m hy hm d' => ?_
    backed := fun d' hj' => ?_ }
  · change update r.joined d 0 d' = _
    rw [update_of_ne (hne d' y hy), h.count d' y ((hstands d' y).mp hy).2]
    congr 1
    ext c
    rw [mem_holders, mem_holders]
    exact (hsame c y ((hstands d' y).mp hy).1).symm
  · change update r.joined d 0 d' = 0
    by_cases hd' : d' = d
    · rw [hd', update_self]
    · rw [update_of_ne hd']
      refine h.unused d' fun hl' => hl ?_
      change update r.state d .free d' = .live
      rwa [update_of_ne hd']
  · have hyx : y ≠ x := fun heq => hj c (heq ▸ hy)
    exact (h.held c y ((hsame c y hyx).mp hy)).imp fun d' hy => (hstands d' y).mpr ⟨hyx, hy⟩
  · change update r.ids n none m = some d' ↔ _
    rw [hstands]
    by_cases hmn : m = n
    · simp [hmn, (make_inj hx hn hy hm).mp hmn]
    · have hyx : y ≠ x := fun hyx => hmn ((make_inj hx hn hy hm).mpr hyx)
      simpa [hmn, hyx] using h.index y m hy hm d'
  · change 0 < update r.joined d 0 d' at hj'
    have hd' : d' ≠ d := by
      rintro rfl
      simp at hj'
    rw [update_of_ne hd'] at hj'
    change _ ∧ g.name d' = some (readField (update r.name d clearedField d'))
    rw [update_of_ne hd']
    exact h.backed d' hj'

/-- A connection takes part, or stops, and the count follows. -/
theorem Tally.setJoined [DecidableEq C] {l : JoinLedger} {k : Nat} {c : C}
    (hd : r.Stands d x) (hl : ∀ y, y ≠ x → (y ∈ l ↔ y ∈ joins c))
    (hk : k = (holders (update joins c l) x).card)
    (hb : 0 < k → g.participates d = true ∧ g.name d = some x) :
    Tally lim { r with joined := update r.joined d k } g (update joins c l) := by
  obtain ⟨hlive, rfl⟩ := hd
  refine { h with
    count := fun d' y hy => ?_
    unused := fun d' hd' => ?_
    held := fun c' y hy => ?_
    backed := (forall_update_iff r.joined fun d' j => 0 < j → g.participates d' = true ∧
      g.name d' = some (r.text d')).mpr ⟨hb, fun d' _ => h.backed d'⟩ }
  · change update r.joined d k d' = _
    by_cases hdd : d' = d
    · subst hdd
      rw [update_self, ← hy.2]
      exact hk
    · rw [update_of_ne hdd, h.count d' y hy]
      refine congrArg Finset.card (holders_update_of_ne (hl y fun hyx => hdd ?_)).symm
      exact h.distinct d' d y hy ⟨hlive, hyx.symm⟩
  · have hdd : d' ≠ d := by
      rintro rfl
      exact hd' hlive
    change update r.joined d k d' = 0
    rw [update_of_ne hdd]
    exact h.unused d' hd'
  · by_cases hyx : y = r.text d
    · exact ⟨d, hlive, hyx.symm⟩
    · refine h.held c' y ?_
      by_cases hc : c' = c
      · subst hc
        rw [update_self] at hy
        exact (hl y hyx).mp hy
      · rwa [update_of_ne hc] at hy

theorem Tally.addJoin [DecidableEq C] {c : C} (hd : r.Stands d x)
    (hc : x ∉ joins c) (hp : g.participates d = true) (hg : g.name d = some x) :
    Tally lim { r with joined := update r.joined d (r.joined d + 1) } g
      (update joins c (insert x (joins c))) := by
  refine h.setJoined hd (fun y hy => by simp [hy]) ?_ fun _ => ⟨hp, hg⟩
  rw [card_holders_insert hc, h.count d x hd]

theorem Tally.dropJoin [DecidableEq C] {c : C} (hd : r.Stands d x) (hc : x ∈ joins c) :
    Tally lim { r with joined := update r.joined d (r.joined d - 1) } g
      (update joins c ((joins c).erase x)) := by
  refine h.setJoined hd (fun y hy => by simp [hy]) ?_ fun hk => ?_
  · rw [card_holders_erase hc, h.count d x hd]
  · exact hd.2 ▸ h.backed d (by omega)

/-- A name somebody is in has a count, and so a domain. -/
theorem Tally.joined_pos {c : C} (hd : r.Stands d x) (hc : x ∈ joins c) : 0 < r.joined d := by
  rw [h.count d x hd, Finset.card_pos]
  exact ⟨c, mem_holders.mpr hc⟩

/-- Nobody is in a name the region has at a slot that stands for nothing. -/
theorem Tally.nobody (hg : g.name d = some x) (hd : ¬ r.Live d) (c : C) :
    x ∉ joins c := by
  intro hx
  obtain ⟨d', hl, rfl⟩ := h.held c x hx
  have hback := (h.backed d' (h.joined_pos ⟨hl, rfl⟩ hx)).2
  exact hd (h.regionDistinct d' d _ hback hg ▸ hl)

end

end Pure

end Cme.Daemon
