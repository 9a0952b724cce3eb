import Cme.Layout.Geometry

/-!
# Layout — an observer that follows reformats

`Geometry::rebind`, which an inspector calls before every sample: it reads the
header again and rebuilds the layout, unless the dimensions and the strategy are
those it is bound to. The group count of RequestAgg is a fourth thing the layout
depends on, and the shortcut does not look at it.

`rebinds` is a history of such calls, with the header each of them found. As long
as no two neighbours of the history differ in the group count alone, every
rebind that succeeds leaves what `buildLayout` gives for its header, and one that
fails leaves the geometry unbound (`rebind_agrees_with_bind`). A reformat to
another group count leaves a stale size and a stale profile section
(`stale_after_regroup`).
-/

namespace Cme.Layout

/-- The fields of `Header_t` a bind reads. -/
structure Header where
  magic : Nat
  version : Nat
  strategy : Strategy
  numDomains : Nat
  maxPeers : Nat
  aggregatorGroups : Nat
  deriving DecidableEq, Repr

namespace Header

/-- The ASCII bytes of CMEH. -/
def magicValue : Nat := 0x434D4548

def supportedVersion : Nat := 1

def isFormatted (header : Header) : Bool :=
  header.magic == magicValue && header.version == supportedVersion

/-- What the header says the region was formatted with. -/
def dims (header : Header) (profileEnabled : Bool) : Dims where
  domainCount := header.numDomains
  peerCount := header.maxPeers
  strategy := header.strategy
  aggregatorGroups := header.aggregatorGroups
  profileEnabled := profileEnabled

end Header

/-- The mapping: its address, 0 for none, and its size. -/
structure Mapping where
  base : Nat
  mappedSize : Nat

/-- Bound to a layout, or to none. -/
structure Geometry where
  layout : Option Bases
  deriving DecidableEq, Repr

def maxPeers : Nat := 64

def isValidDomainCount (count : Nat) : Bool := 0 < count && count ≤ maxDomains

def isValidPeerCount (count : Nat) : Bool := 0 < count && count ≤ maxPeers

def isAligned (address : Nat) : Bool := address % cacheLineBytes == 0

/-- The base, every section that is there, and the size. -/
def isLayoutAligned (base : Nat) (l : Bases) : Bool :=
  isAligned base &&
    ([some l.admissionControlBase, some l.peerBoundBase, some l.domainRecordBase,
      some l.membershipBase, some l.recoveryAuthorityAreaBase, l.successorAreaBase,
      l.profileBase].all fun offset => offset.all fun offset => isAligned (base + offset)) &&
    isAligned l.areaSize

def clearLayout : Geometry := { layout := none }

/-- The layout a rebind ends up with: the one it has, when the counts and the
strategy are the same, and otherwise a new one. -/
def chooseLayout (geometry : Geometry) (dims : Dims) : Option Bases :=
  match geometry.layout with
  | none => buildLayout dims
  | some l =>
    if l.domainCount ≠ dims.domainCount ∨ l.peerCount ≠ dims.peerCount ∨
        l.strategy ≠ dims.strategy then
      buildLayout dims
    else some l

/-- One rebind, with the header it finds. No answer where the size is not found. -/
def rebind (profileEnabled : Bool) (memory : Mapping) (header : Header) (geometry : Geometry) :
    Option (Geometry × Bool) :=
  let dims := header.dims profileEnabled
  if memory.base = 0 ∨ !header.isFormatted then some (clearLayout, false)
  else if !isValidDomainCount header.numDomains ∨ !isValidPeerCount header.maxPeers ∨
      header.maxPeers < header.aggregatorGroups then
    some (clearLayout, false)
  else do
    let area ← computeAreaSize dims
    if memory.mappedSize < area then some (clearLayout, false)
    else
      let l ← chooseLayout geometry dims
      if isLayoutAligned memory.base l then some ({ layout := some l }, true)
      else some (clearLayout, false)

/-- What one call of a history found, answered and left. -/
structure Outcome where
  header : Header
  answer : Bool
  geometry : Geometry
  deriving DecidableEq, Repr

/-- A history of rebinds on one geometry, with the headers they find in turn. -/
def rebinds (profileEnabled : Bool) (memory : Mapping) :
    Geometry → List Header → Option (List Outcome)
  | _, [] => some []
  | geometry, header :: headers => do
    let (geometry, answer) ← rebind profileEnabled memory header geometry
    let later ← rebinds profileEnabled memory geometry headers
    some ({ header, answer, geometry } :: later)

/-! ## What the layout depends on -/

/-- A reformat that the shortcut can see, or that changes nothing it cannot see. -/
def KeepsGroups (old new : Header) : Prop :=
  old.numDomains = new.numDomains → old.maxPeers = new.maxPeers → old.strategy = new.strategy →
    old.strategy = .requestAgg →
      getGroupCount old.aggregatorGroups old.numDomains old.maxPeers =
        getGroupCount new.aggregatorGroups new.numDomains new.maxPeers

theorem buildLayout_congr {dims dims' : Dims} (hdomains : dims.domainCount = dims'.domainCount)
    (hpeers : dims.peerCount = dims'.peerCount) (hstrategy : dims.strategy = dims'.strategy)
    (hprofile : dims.profileEnabled = dims'.profileEnabled)
    (hsize : getSuccessorAreaSize dims = getSuccessorAreaSize dims') :
    buildLayout dims = buildLayout dims' := by
  have hlines : getProfileAreaSize dims = getProfileAreaSize dims' := by
    rw [getProfileAreaSize, getProfileAreaSize, hprofile, hpeers]
  rw [buildLayout, buildLayout, hsize, hdomains, hpeers, hstrategy, hprofile, hlines]

variable {profileEnabled : Bool}

/-- Only RequestAgg's tail depends on the group count. -/
theorem getSuccessorAreaSize_congr {old new : Header} (hdomains : old.numDomains = new.numDomains)
    (hpeers : old.maxPeers = new.maxPeers) (hstrategy : old.strategy = new.strategy)
    (hgroups : KeepsGroups old new) : getSuccessorAreaSize (old.dims profileEnabled) =
      getSuccessorAreaSize (new.dims profileEnabled) := by
  have hcount := hgroups hdomains hpeers hstrategy
  unfold getSuccessorAreaSize
  simp only [Header.dims]
  rw [← hstrategy]
  cases h : old.strategy with
  | order => rfl
  | request => simp only [hpeers]
  | requestAgg =>
    simp only [getAggregatorAreaBytes]
    rw [hcount h, hpeers]
  | peterson => simp only [hpeers, hdomains]

/-- A valid peer count has its tree, so its sizes are found. -/
theorem exists_successorAreaSize {header : Header} (hpeers : isValidPeerCount header.maxPeers = true)
    (profileEnabled : Bool) :
    ∃ bytes, getSuccessorAreaSize (header.dims profileEnabled) = some bytes := by
  have hle : header.maxPeers ≤ 64 := by
    rw [isValidPeerCount, Bool.and_eq_true] at hpeers
    exact of_decide_eq_true hpeers.2
  unfold getSuccessorAreaSize
  simp only [Header.dims]
  cases header.strategy with
  | order => exact ⟨_, rfl⟩
  | request => exact ⟨_, rfl⟩
  | requestAgg => exact ⟨_, rfl⟩
  | peterson =>
    have hround : Tournament.roundUpPow2 header.maxPeers = _ :=
      Tournament.roundUpPow2_eq (by omega)
    simp only [getTournamentTreeBytes, Tournament.getNodesPerDomain, hround, Option.map_some]
    exact ⟨_, rfl⟩

/-! ## One rebind -/

/-- What a rebind must leave: the layout of the header it found, or none. -/
def Outcome.Agrees (profileEnabled : Bool) (outcome : Outcome) : Prop :=
  (outcome.answer = true → ∃ l, buildLayout (outcome.header.dims profileEnabled) = some l ∧
    outcome.geometry.layout = some l) ∧
  (outcome.answer = false → outcome.geometry.layout = none)

theorem buildLayout_fields {dims : Dims} {l : Bases} (h : buildLayout dims = some l) :
    l.domainCount = dims.domainCount ∧ l.peerCount = dims.peerCount ∧ l.strategy = dims.strategy := by
  obtain ⟨bytes, -, rfl⟩ := Option.map_eq_some_iff.mp h
  exact ⟨rfl, rfl, rfl⟩

variable {geometry : Geometry}

/-- The shortcut is taken only where the layout is the right one already. -/
theorem chooseLayout_eq {old new : Header}
    (hbound : geometry.layout = buildLayout (old.dims profileEnabled)) (hgroups : KeepsGroups old new) :
    chooseLayout geometry (new.dims profileEnabled) = buildLayout (new.dims profileEnabled) := by
  unfold chooseLayout
  cases hl : geometry.layout with
  | none => rfl
  | some l =>
    simp only
    split
    · rfl
    · next hsame =>
      push Not at hsame
      obtain ⟨hdomains, hpeers, hstrategy⟩ := hsame
      rw [hl] at hbound
      obtain ⟨hd, hp, hs⟩ := buildLayout_fields hbound.symm
      have hdomains' : old.numDomains = new.numDomains := hd.symm.trans hdomains
      have hpeers' : old.maxPeers = new.maxPeers := hp.symm.trans hpeers
      have hstrategy' : old.strategy = new.strategy := hs.symm.trans hstrategy
      rw [hbound]
      exact buildLayout_congr hdomains' hpeers' hstrategy' rfl
        (getSuccessorAreaSize_congr hdomains' hpeers' hstrategy' hgroups)

/-- A valid header has its layout, whichever way it is chosen. -/
theorem exists_chooseLayout (geometry : Geometry) {dims : Dims} {l : Bases} (hl : buildLayout dims = some l) :
    ∃ l', chooseLayout geometry dims = some l' := by
  unfold chooseLayout
  cases geometry.layout with
  | none => exact ⟨l, hl⟩
  | some old =>
    simp only
    split
    · exact ⟨l, hl⟩
    · exact ⟨old, rfl⟩

/-- A rebind returns: it leaves the geometry unbound, or with the layout it chose. -/
theorem rebind_cases (memory : Mapping) (new : Header) (geometry : Geometry) :
    rebind profileEnabled memory new geometry = some (clearLayout, false) ∨
    ∃ l, chooseLayout geometry (new.dims profileEnabled) = some l ∧
      rebind profileEnabled memory new geometry = some ({ layout := some l }, true) := by
  by_cases hready : memory.base = 0 ∨ (!new.isFormatted) = true
  · exact .inl (by rw [rebind, if_pos hready])
  by_cases hvalid : (!isValidDomainCount new.numDomains) = true ∨
      (!isValidPeerCount new.maxPeers) = true ∨ new.maxPeers < new.aggregatorGroups
  · exact .inl (by rw [rebind, if_neg hready, if_pos hvalid])
  -- the counts are valid, so both the size and the layout are found
  have hpeers : isValidPeerCount new.maxPeers = true := by
    push Not at hvalid
    simpa using hvalid.2.1
  obtain ⟨bytes, hbytes⟩ := exists_successorAreaSize hpeers profileEnabled
  obtain ⟨area, harea⟩ : ∃ area, computeAreaSize (new.dims profileEnabled) = some area :=
    ⟨_, by rw [computeAreaSize, hbytes, Option.map_some]⟩
  obtain ⟨fresh, hfresh⟩ : ∃ l, buildLayout (new.dims profileEnabled) = some l :=
    ⟨_, by rw [buildLayout, hbytes, Option.map_some]⟩
  obtain ⟨l, hchoose⟩ := exists_chooseLayout geometry hfresh
  have hunfold : rebind profileEnabled memory new geometry =
      if memory.mappedSize < area then some (clearLayout, false)
      else if isLayoutAligned memory.base l then some ({ layout := some l }, true)
      else some (clearLayout, false) := by
    rw [rebind, if_neg hready, if_neg hvalid, harea, Option.bind_eq_bind, Option.bind_some,
      hchoose, Option.bind_eq_bind, Option.bind_some]
  by_cases hsmall : memory.mappedSize < area
  · exact .inl (by rw [hunfold, if_pos hsmall])
  by_cases haligned : isLayoutAligned memory.base l = true
  · exact .inr ⟨l, hchoose, by rw [hunfold, if_neg hsmall, if_pos haligned]⟩
  · exact .inl (by rw [hunfold, if_neg hsmall, if_neg haligned])

/-! ## A history -/

/-- A rebind that bound the geometry is followed by one that finds the groups kept. -/
def Outcome.KeepsGroups (outcome next : Outcome) : Prop :=
  outcome.answer = true → Layout.KeepsGroups outcome.header next.header

instance : DecidableRel Outcome.KeepsGroups := by
  delta Outcome.KeepsGroups Layout.KeepsGroups
  infer_instance

theorem exists_rebinds (memory : Mapping) (headers : List Header) (geometry : Geometry) :
    ∃ outcomes, rebinds profileEnabled memory geometry headers = some outcomes ∧
      outcomes.map Outcome.header = headers := by
  induction headers generalizing geometry with
  | nil => exact ⟨[], rfl, rfl⟩
  | cons header headers ih =>
    obtain ⟨geometry', answer, hrebind⟩ : ∃ geometry' answer,
        rebind profileEnabled memory header geometry = some (geometry', answer) := by
      rcases rebind_cases memory header geometry with h | ⟨l, -, h⟩ <;> exact ⟨_, _, h⟩
    obtain ⟨later, hrest, hheaders⟩ := ih geometry'
    refine ⟨⟨header, answer, geometry'⟩ :: later, ?_, by rw [List.map_cons, hheaders]⟩
    simp only [rebinds, hrebind, hrest, Option.bind_eq_bind, Option.bind_some]

/-- From a geometry whose next choice is right, along neighbours that keep their groups. -/
theorem rebinds_agree {memory : Mapping} {headers : List Header} {outcomes : List Outcome}
    (hrun : rebinds profileEnabled memory geometry headers = some outcomes)
    (hchain : outcomes.IsChain Outcome.KeepsGroups)
    (hfirst : ∀ header ∈ headers.head?, chooseLayout geometry (header.dims profileEnabled) =
      buildLayout (header.dims profileEnabled)) :
    ∀ outcome ∈ outcomes, outcome.Agrees profileEnabled := by
  induction headers generalizing geometry outcomes with
  | nil =>
    cases hrun
    exact fun _ h => absurd h List.not_mem_nil
  | cons header headers ih =>
    obtain ⟨⟨geometry', answer⟩, hrebind, hrun⟩ := Option.bind_eq_some_iff.mp hrun
    obtain ⟨later, hrest, ⟨⟩⟩ := Option.bind_eq_some_iff.mp hrun
    have hheaders := (exists_rebinds memory headers geometry').elim fun _ h =>
      Option.some.inj (h.1.symm.trans hrest) ▸ h.2
    rw [List.isChain_cons] at hchain
    -- this call agrees, and the next one chooses right
    have hstep : Outcome.Agrees profileEnabled ⟨header, answer, geometry'⟩ ∧
        ∀ next ∈ headers.head?, chooseLayout geometry' (next.dims profileEnabled) =
          buildLayout (next.dims profileEnabled) := by
      rcases rebind_cases memory header geometry with
        hcase | ⟨l, hl, hcase⟩
      all_goals cases hrebind.symm.trans hcase
      · exact ⟨⟨fun h => (by cases h), fun _ => rfl⟩, fun _ _ => rfl⟩
      · have hbuilt := (hfirst header rfl).symm.trans hl
        refine ⟨⟨fun _ => ⟨l, hbuilt, rfl⟩, fun h => (by cases h)⟩, fun next hnext => ?_⟩
        rw [← hheaders, List.head?_map] at hnext
        obtain ⟨outcome, houtcome, rfl⟩ := Option.map_eq_some_iff.mp hnext
        exact chooseLayout_eq hbuilt.symm (hchain.1 outcome houtcome rfl)
    intro outcome hmem
    rcases List.mem_cons.mp hmem with rfl | hmem
    · exact hstep.1
    · exact ih hrest hchain.2 hstep.2 outcome hmem

/-- Every rebind of a history on one geometry returns; one that succeeds leaves
the layout of the header it found, one that fails leaves the geometry unbound.
After no rebind that succeeds does the next find the group count of a RequestAgg region
changed and nothing else. -/
theorem rebind_agrees_with_bind (profileEnabled : Bool) (memory : Mapping) (headers : List Header)
    (hchain : ∀ outcomes, rebinds profileEnabled memory clearLayout headers = some outcomes →
      outcomes.IsChain Outcome.KeepsGroups) :
    ∃ outcomes, rebinds profileEnabled memory clearLayout headers = some outcomes ∧
      outcomes.map Outcome.header = headers ∧
      ∀ outcome ∈ outcomes, outcome.Agrees profileEnabled := by
  obtain ⟨outcomes, hrun, hheaders⟩ := exists_rebinds memory headers clearLayout
  exact ⟨outcomes, hrun, hheaders, rebinds_agree hrun (hchain outcomes hrun) fun _ _ => rfl⟩

/-- A RequestAgg region of eight domains and four peers, formatted with `groups`. -/
def regrouped (groups : Nat) : Header where
  magic := Header.magicValue
  version := Header.supportedVersion
  strategy := .requestAgg
  numDomains := 8
  maxPeers := 4
  aggregatorGroups := groups

/-- A mapping of one megabyte at a page boundary. -/
def megabyte : Mapping := { base := 4096, mappedSize := 2 ^ 20 }

/-- Other dimensions, and then other groups, found after a header that was not ready. -/
def reformats : List Header :=
  [regrouped 1, { regrouped 4 with maxPeers := 6 }, { regrouped 2 with version := 0 },
    { regrouped 1 with version := 0 }, regrouped 2, regrouped 2]

theorem rebind_agrees_with_bind_twice :
    ∃ outcomes, rebinds true megabyte clearLayout reformats = some outcomes ∧
      outcomes.map Outcome.answer = [true, true, false, false, true, true] ∧
      ∀ outcome ∈ outcomes, outcome.Agrees true := by
  have hrun : (rebinds true megabyte clearLayout reformats).any (fun outcomes =>
      outcomes.map Outcome.answer = [true, true, false, false, true, true] ∧
      outcomes.IsChain Outcome.KeepsGroups) = true := by decide +kernel
  obtain ⟨outcomes, hsome, -, hall⟩ := rebind_agrees_with_bind true megabyte reformats
    fun outcomes hsome => (of_decide_eq_true (hsome ▸ hrun)).2
  exact ⟨outcomes, hsome, (of_decide_eq_true (hsome ▸ hrun)).1, hall⟩

/-- What binding afresh gives for it. -/
def freshLayout (groups : Nat) : Option Bases := buildLayout ((regrouped groups).dims true)

/-- The region is formatted again with four groups in place of one. The second
rebind succeeds and keeps the first layout: its size and its profile section are
not the ones `buildLayout` gives for the header. -/
theorem stale_after_regroup : rebinds true megabyte clearLayout [regrouped 1, regrouped 4] =
        some [⟨regrouped 1, true, ⟨freshLayout 1⟩⟩, ⟨regrouped 4, true, ⟨freshLayout 1⟩⟩] ∧
      (freshLayout 1).map Bases.areaSize ≠ (freshLayout 4).map Bases.areaSize ∧
      (freshLayout 1).bind Bases.profileBase ≠ (freshLayout 4).bind Bases.profileBase := by
  decide +kernel

end Cme.Layout
