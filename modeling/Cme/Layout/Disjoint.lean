import Cme.Layout.Geometry

/-!
# Layout — sections and lines apart

The layout counted in lines: each section has a number of lines (`lineCount`) and
starts after the sections before it (`startLine`), and each line the accessors lead
to has an index in its section (`Line.index`). Where the byte arithmetic does not
wrap, the bytes the source computes are these numbers times the line size. The
rest is the general placement of sections and rows: `region_layout`.
-/

namespace Cme.Layout

open Memory Tournament

/-! ### Counted in lines -/

/-- The lines of the strategy's tail. -/
def successorLines (dims : Dims) : Nat :=
  match dims.strategy with
  | .order => 0
  | .request => dims.peerCount
  | .requestAgg => dims.peerCount +
      2 * getGroupCount dims.aggregatorGroups dims.domainCount dims.peerCount
  | .peterson => 3 * ((getNodesPerDomain dims.peerCount).getD 0 * dims.domainCount)

def lineCount (dims : Dims) : Section → Nat
  | .header | .admissionControl | .peerBound => 1
  | .domainRecords => dims.domainCount * (dims.peerCount + 1)
  | .membership | .recoveryAuthority => dims.peerCount
  | .successor => successorLines dims
  | .profile => if dims.profileEnabled then dims.peerCount else 0

/-- The sections in the order they are laid. -/
def sections : List Section :=
  [.header, .admissionControl, .peerBound, .domainRecords, .membership, .recoveryAuthority,
    .successor, .profile]

/-- The first line of a section. -/
def startLine (dims : Dims) : Section → Nat
  | .header => 0
  | .admissionControl => 1
  | .peerBound => 2
  | .domainRecords => 3
  | .membership => 3 + lineCount dims .domainRecords
  | .recoveryAuthority => 3 + lineCount dims .domainRecords + dims.peerCount
  | .successor => 3 + lineCount dims .domainRecords + 2 * dims.peerCount
  | .profile => 3 + lineCount dims .domainRecords + 2 * dims.peerCount + successorLines dims

def totalLines (dims : Dims) : Nat := startLine dims .profile + lineCount dims .profile

/-- The byte arithmetic does not wrap: the record count fits its word, the leaf
count of a tree is found, and all lines together fit a 64-bit size. -/
structure NoOverflow (dims : Dims) : Prop where
  records : dims.peerCount + 1 < 2 ^ 32
  tree : dims.strategy = .peterson → ∃ nodes, getNodesPerDomain dims.peerCount = some nodes
  bytes : cacheLineBytes * totalLines dims < 2 ^ 64

variable {dims : Dims}

/-- A section in lines. -/
def spanOf (dims : Dims) (sec : Section) : Span :=
  ⟨cacheLineBytes * startLine dims sec, cacheLineBytes * lineCount dims sec⟩

/-- The sections are laid one after another. -/
theorem spanOf_place (dims : Dims) : sections.map (spanOf dims) =
      place 0 (sections.map fun sec => cacheLineBytes * lineCount dims sec) := by
  have hlines : ∀ n, cacheLineBytes * n = 64 * n := fun _ => rfl
  simp only [sections, List.map_cons, List.map_nil, place, spanOf, startLine, lineCount, hlines,
    List.cons.injEq, Span.mk.injEq, and_true, true_and]
  omega

theorem sum_sections (dims : Dims) :
    (sections.map fun sec => cacheLineBytes * lineCount dims sec).sum =
      cacheLineBytes * totalLines dims := by
  have hlines : ∀ n, cacheLineBytes * n = 64 * n := fun _ => rfl
  simp only [sections, List.map_cons, List.map_nil, List.sum_cons, List.sum_nil, totalLines,
    startLine, lineCount, hlines]
  omega

theorem mem_sections (sec : Section) : sec ∈ sections := by
  cases sec <;> decide

theorem spanOf_mem (dims : Dims) (sec : Section) :
    spanOf dims sec ∈ place 0 (sections.map fun sec => cacheLineBytes * lineCount dims sec) := by
  rw [← spanOf_place]
  exact List.mem_map_of_mem (mem_sections sec)

theorem spanOf_disjoint {sec sec' : Section} (hne : sec ≠ sec') :
    (spanOf dims sec).Disjoint (spanOf dims sec') := by
  have hpairs := place_pairwise 0 (sections.map fun sec => cacheLineBytes * lineCount dims sec)
  rw [← spanOf_place, List.pairwise_map] at hpairs
  have hsymm : Std.Symm fun sec sec' => (spanOf dims sec).Disjoint (spanOf dims sec') :=
    ⟨fun _ _ hdis => hdis.symm⟩
  exact hpairs.forall (mem_sections sec) (mem_sections sec') hne

theorem spanOf_stop_le (dims : Dims) (sec : Section) :
    (spanOf dims sec).stop ≤ cacheLineBytes * totalLines dims := by
  have hin := (place_within (spanOf_mem dims sec)).2
  rw [sum_sections] at hin
  simpa [Span.stop] using hin

/-! ### The source's numbers -/

section Exact

variable (h : NoOverflow dims)

include h

theorem NoOverflow.total_lt : totalLines dims < 2 ^ 58 := by
  have hbytes := h.bytes
  rw [cacheLineBytes] at hbytes
  omega

omit h in
theorem section_le (dims : Dims) (sec : Section) :
    startLine dims sec + lineCount dims sec ≤ totalLines dims := by
  have hstop := spanOf_stop_le dims sec
  simp only [spanOf, Span.stop, cacheLineBytes] at hstop
  omega

theorem getRecordsPerDomain_eq : getRecordsPerDomain dims.peerCount = dims.peerCount + 1 := by
  have hlt := h.records
  have hgroups : getShadowGroupCount dims.peerCount = dims.peerCount := by
    simp only [getShadowGroupCount, ceilDiv, shadowGroupSize, word32, Nat.div_one]
    omega
  rw [getRecordsPerDomain, hgroups, word32, Nat.mod_eq_of_lt hlt]

theorem getDomainRecordBytes_eq : getDomainRecordBytes dims.domainCount dims.peerCount =
    cacheLineBytes * lineCount dims .domainRecords := by
  have hlt := h.total_lt
  have hsec := section_le dims .domainRecords
  rw [getDomainRecordBytes, getRecordsPerDomain_eq h]
  simp only [lineCount, cacheLineBytes, word64] at hsec ⊢
  omega

theorem getPeerLineBytes_eq :
    getPeerLineBytes dims.peerCount = cacheLineBytes * dims.peerCount := by
  have hlt := h.records
  simp only [getPeerLineBytes, cacheLineBytes, word64]
  omega

theorem getProfileAreaSize_eq :
    getProfileAreaSize dims = cacheLineBytes * lineCount dims .profile := by
  rw [getProfileAreaSize, getPeerLineBytes_eq h, lineCount]
  split
  · rfl
  · rfl

theorem getSuccessorAreaSize_eq :
    getSuccessorAreaSize dims = some (cacheLineBytes * lineCount dims .successor) := by
  have hlt := h.total_lt
  have hsec := section_le dims .successor
  have htree := h.tree
  have hpeers := getPeerLineBytes_eq h
  simp only [lineCount] at hsec
  cases hs : dims.strategy with
  | order => simp only [getSuccessorAreaSize, hs, lineCount, successorLines, Nat.mul_zero]
  | request => simp only [getSuccessorAreaSize, hs, lineCount, successorLines, hpeers]
  | requestAgg =>
    simp only [successorLines, hs] at hsec
    simp only [getSuccessorAreaSize, hs, lineCount, successorLines, getAggregatorAreaBytes, hpeers,
      cacheLineBytes, word64, Option.some.injEq]
    omega
  | peterson =>
    obtain ⟨nodes, hnodes⟩ := htree hs
    have hsmall : nodes < 2 ^ 31 := by
      rw [getNodesPerDomain, Option.map_eq_some_iff] at hnodes
      obtain ⟨leaves, hleaves, rfl⟩ := hnodes
      obtain ⟨hcount, rfl⟩ := roundUpPow2_some hleaves
      have hpow : 2 ^ Nat.clog 2 dims.peerCount ≤ 2 ^ 31 :=
        Nat.pow_le_pow_right (by omega) (Nat.clog_le_of_le_pow hcount)
      omega
    simp only [successorLines, hs, hnodes, Option.getD_some] at hsec
    simp only [getSuccessorAreaSize, hs, lineCount, successorLines, getTournamentTreeBytes, hnodes,
      Option.map_some, Option.getD_some, petersonNodeBytes, cacheLineBytes, word64,
      Option.some.injEq]
    rw [Nat.mod_eq_of_lt (by omega : 3 * 64 * nodes < 2 ^ 64)]
    have hmul : 3 * 64 * nodes * dims.domainCount = 64 * (3 * (nodes * dims.domainCount)) := by ring
    rw [hmul]
    omega

theorem buildLayout_eq : buildLayout dims = some
    { domainCount := dims.domainCount
      peerCount := dims.peerCount
      strategy := dims.strategy
      admissionControlBase := cacheLineBytes * startLine dims .admissionControl
      peerBoundBase := cacheLineBytes * startLine dims .peerBound
      domainRecordBase := cacheLineBytes * startLine dims .domainRecords
      membershipBase := cacheLineBytes * startLine dims .membership
      recoveryAuthorityAreaBase := cacheLineBytes * startLine dims .recoveryAuthority
      successorAreaBase := if lineCount dims .successor ≠ 0
        then some (cacheLineBytes * startLine dims .successor) else none
      profileBase := if dims.profileEnabled
        then some (cacheLineBytes * startLine dims .profile) else none
      areaSize := cacheLineBytes * totalLines dims } := by
  have hlt := h.total_lt
  have htail : lineCount dims .successor = successorLines dims := rfl
  rw [totalLines, startLine] at hlt
  rw [buildLayout, getSuccessorAreaSize_eq h, Option.map_some, getDomainRecordBytes_eq h,
    getRecoveryAuthorityAreaSize, getPeerLineBytes_eq h, getProfileAreaSize_eq h]
  simp only [htail, startLine, totalLines, cacheLineBytes, word64, Option.some.injEq,
    Bases.mk.injEq, true_and]
  -- no sum of the cursor wraps
  refine ⟨by omega, by omega, by omega, by omega, ?_, ?_, by omega⟩
  · refine if_congr (by omega) (congrArg some ?_) rfl
    omega
  · refine if_congr Iff.rfl (congrArg some ?_) rfl
    omega

theorem computeAreaSize_eq : computeAreaSize dims = some (cacheLineBytes * totalLines dims) := by
  have hlt := h.total_lt
  have htail : lineCount dims .successor = successorLines dims := rfl
  rw [totalLines, startLine] at hlt
  rw [computeAreaSize, getSuccessorAreaSize_eq h, Option.map_some, getDomainRecordBytes_eq h,
    getRecoveryAuthorityAreaSize, getPeerLineBytes_eq h, getProfileAreaSize_eq h]
  simp only [htail, startLine, totalLines, cacheLineBytes, word64, Option.some.injEq]
  omega

end Exact

/-! ### The lines -/

namespace Line

/-- A line's place in its section. -/
def index (dims : Dims) : Line → Nat
  | header | admissionControl | peerBound => 0
  | domainRecord d => d * (dims.peerCount + 1) + 0
  | domainRecordShadow d p => d * (dims.peerCount + 1) + (p + 1)
  | memberSlot p | recoveryClaim p | profileSlot p | demand p => p
  | aggregatorRecord g => dims.peerCount + g
  | packedSlot g =>
    dims.peerCount + getGroupCount dims.aggregatorGroups dims.domainCount dims.peerCount + g
  | nodeLine d node part =>
    (d * (getNodesPerDomain dims.peerCount).getD 0 + node) * 3 + part

theorem index_lt {line : Line} (hv : line.Valid dims) :
    line.index dims < lineCount dims line.toSection := by
  cases line with
  | header | admissionControl | peerBound => exact Nat.one_pos
  | domainRecord d => exact cell_lt hv (by omega)
  | domainRecordShadow d p => exact cell_lt hv.1 (Nat.succ_lt_succ hv.2)
  | memberSlot p | recoveryClaim p => exact hv
  | demand p =>
    obtain ⟨hs | hs, hp⟩ := hv
    all_goals simp only [index, toSection, lineCount, successorLines, hs]
    · exact hp
    · exact Nat.lt_add_right _ hp
  | aggregatorRecord g | packedSlot g =>
    obtain ⟨hs, hg⟩ := hv
    simp only [index, toSection, lineCount, successorLines, hs]
    omega
  | nodeLine d node part =>
    obtain ⟨hs, hd, ⟨nodes, hnodes, hnode⟩, hpart⟩ := hv
    simp only [index, toSection, lineCount, successorLines, hs, hnodes, Option.getD_some]
    have hcell := cell_lt hd hnode
    have hcell' := cell_lt hcell hpart
    have hmul : d * nodes = nodes * d := Nat.mul_comm _ _
    have hmul' : dims.domainCount * nodes = nodes * dims.domainCount := Nat.mul_comm _ _
    omega
  | profileSlot p =>
    obtain ⟨hprofile, hp⟩ := hv
    simp only [index, toSection, lineCount, hprofile, if_true]
    exact hp

theorem index_inj {line line' : Line} (hv : line.Valid dims) (hv' : line'.Valid dims)
    (hsec : line.toSection = line'.toSection) (hidx : line.index dims = line'.index dims) :
    line = line' := by
  cases line <;> cases line'
  -- what is left after the sections that differ
  all_goals first
    | rfl
    | (simp only [toSection, reduceCtorEq] at hsec; done)
    | skip
  all_goals simp only [Valid, index] at hv hv' hidx
  case domainRecord.domainRecord =>
    rw [(cell_inj (Nat.succ_pos _) (Nat.succ_pos _) hidx).1]
  case domainRecord.domainRecordShadow p =>
    cases (cell_inj (Nat.succ_pos _) (Nat.succ_lt_succ hv'.2) hidx).2
  case domainRecordShadow.domainRecord =>
    cases (cell_inj (Nat.succ_lt_succ hv.2) (Nat.succ_pos _) hidx).2
  case domainRecordShadow.domainRecordShadow =>
    obtain ⟨rfl, hp⟩ := cell_inj (Nat.succ_lt_succ hv.2) (Nat.succ_lt_succ hv'.2) hidx
    rw [Nat.succ_injective hp]
  case nodeLine.nodeLine =>
    obtain ⟨-, -, ⟨nodes, hnodes, hnode⟩, hpart⟩ := hv
    obtain ⟨-, -, ⟨nodes', hnodes', hnode'⟩, hpart'⟩ := hv'
    cases hnodes.symm.trans hnodes'
    rw [hnodes, Option.getD_some] at hidx
    obtain ⟨hcell, rfl⟩ := cell_inj hpart hpart' hidx
    obtain ⟨rfl, rfl⟩ := cell_inj hnode hnode' hcell
    rfl
  -- one strategy has one kind of tail, and its parts follow one another
  all_goals grind

theorem address_eq {l : Bases} {line : Line} (h : NoOverflow dims) (hl : buildLayout dims = some l)
    (hv : line.Valid dims) : line.address l dims =
      some (cacheLineBytes * (startLine dims line.toSection + line.index dims)) := by
  have hidx := index_lt hv
  have hle := section_le dims line.toSection
  have hlt := h.total_lt
  -- no step of the address arithmetic wraps below the total
  have hslot : ∀ b i, b + i < totalLines dims →
      Bases.getSlot (cacheLineBytes * b) i = cacheLineBytes * (b + i) := by
    intro b i hbi
    simp only [Bases.getSlot, cacheLineBytes, word64]
    omega
  have hcursor : ∀ b n, b + n ≤ totalLines dims →
      word64 (cacheLineBytes * b + cacheLineBytes * n) = cacheLineBytes * (b + n) := by
    intro b n hbn
    simp only [cacheLineBytes, word64]
    omega
  rw [buildLayout_eq h, Option.some.injEq] at hl
  subst hl
  cases line with
  | header => rfl
  | admissionControl => rfl
  | peerBound => rfl
  | domainRecord d =>
    simp only [address, Bases.getDomainRecord, getRecordsPerDomain_eq h]
    simp only [toSection, index] at hidx hle ⊢
    rw [word64, Nat.mod_eq_of_lt (by omega), hslot _ _ (by omega)]
    rfl
  | domainRecordShadow d p =>
    simp only [address, Bases.getDomainRecordShadow, getRecordsPerDomain_eq h, getGroupIndex,
      shadowGroupSize, Nat.div_one]
    simp only [toSection, index] at hidx hle ⊢
    have hword : word64 (word64 (word64 (d * (dims.peerCount + 1)) + 1) + p) =
        d * (dims.peerCount + 1) + (p + 1) := by
      simp only [word64]
      omega
    rw [hword, hslot _ _ (by omega)]
  | memberSlot p | recoveryClaim p =>
    exact congrArg some (hslot _ _ (Nat.lt_of_lt_of_le (Nat.add_lt_add_left hidx _) hle))
  | demand p =>
    have hsome : lineCount dims .successor ≠ 0 := Nat.ne_zero_of_lt hidx
    simp only [address, Bases.getLine, if_pos hsome, Option.map_some]
    exact congrArg some (hslot _ _ (Nat.lt_of_lt_of_le (Nat.add_lt_add_left hidx _) hle))
  | aggregatorRecord g =>
    have hsome : lineCount dims .successor ≠ 0 := Nat.ne_zero_of_lt hidx
    simp only [address, Bases.getRecord, if_pos hsome, Option.map_some, getPeerLineBytes_eq h]
    simp only [toSection, index] at hidx hle ⊢
    rw [hcursor _ _ (by omega), hslot _ _ (by omega), Nat.add_assoc]
  | packedSlot g =>
    have hsome : lineCount dims .successor ≠ 0 := Nat.ne_zero_of_lt hidx
    simp only [address, Bases.getPackedSlot, if_pos hsome, Option.map_some, getPeerLineBytes_eq h]
    simp only [toSection, index] at hidx hle ⊢
    rw [hcursor _ _ (by omega), hslot _ _ (by omega), hslot _ _ (by omega)]
    simp only [Nat.add_assoc]
  | nodeLine d node part =>
    have hsome : lineCount dims .successor ≠ 0 := Nat.ne_zero_of_lt hidx
    obtain ⟨-, -, ⟨nodes, hnodes, -⟩, -⟩ := hv
    simp only [toSection, index, hnodes, Option.getD_some] at hidx hle ⊢
    simp only [address, Bases.getNodeLine, Bases.getTreeBase, if_pos hsome, Option.bind_some,
      hnodes, Option.map_some, petersonNodeBytes, cacheLineBytes, word64, Option.some.injEq]
    omega
  | profileSlot p =>
    simp only [address, Bases.getProfileSlot, if_pos hv.1, Option.map_some]
    exact congrArg some (hslot _ _ (Nat.lt_of_lt_of_le (Nat.add_lt_add_left hidx _) hle))

end Line

/-! ### The region -/

theorem section_eq {l : Bases} {sec : Section} {span : Span} (h : NoOverflow dims)
    (hl : buildLayout dims = some l) (hs : l.section dims sec = some span) :
    span = spanOf dims sec := by
  rw [buildLayout_eq h, Option.some.injEq] at hl
  subst hl
  cases sec
  all_goals simp only [Bases.section] at hs
  case successor =>
    rw [getSuccessorAreaSize_eq h] at hs
    split at hs
    · exact (Option.some.inj hs).symm
    · cases hs
  case profile =>
    rw [getProfileAreaSize_eq h] at hs
    split at hs
    · exact (Option.some.inj hs).symm
    · cases hs
  all_goals
    cases hs
    simp only [spanOf, getDomainRecordBytes_eq h, getRecoveryAuthorityAreaSize,
      getPeerLineBytes_eq h, lineCount, startLine, Nat.mul_zero, Nat.mul_one]

theorem section_of_valid {l : Bases} {line : Line} (h : NoOverflow dims)
    (hl : buildLayout dims = some l) (hv : line.Valid dims) :
    l.section dims line.toSection = some (spanOf dims line.toSection) := by
  have hidx := Line.index_lt hv
  suffices hs : ∃ span, l.section dims line.toSection = some span by
    obtain ⟨span, hs⟩ := hs
    rw [hs, section_eq h hl hs]
  rw [buildLayout_eq h, Option.some.injEq] at hl
  subst hl
  cases line with
  | demand _ | aggregatorRecord _ | packedSlot _ | nodeLine _ _ _ =>
    have hsome : lineCount dims .successor ≠ 0 := Nat.ne_zero_of_lt hidx
    simp only [Line.toSection, Bases.section, if_pos hsome, getSuccessorAreaSize_eq h]
    exact ⟨_, rfl⟩
  | profileSlot _ =>
    simp only [Line.toSection, Bases.section, if_pos hv.1]
    exact ⟨_, rfl⟩
  | _ => exact ⟨_, rfl⟩

/-- A line's bytes. -/
def Line.span (l : Bases) (dims : Dims) (line : Line) : Option Span :=
  (line.address l dims).map (⟨·, cacheLineBytes⟩)

theorem Line.span_eq {l : Bases} {line : Line} (h : NoOverflow dims)
    (hl : buildLayout dims = some l) (hv : line.Valid dims) : line.span l dims =
      some (row (cacheLineBytes * startLine dims line.toSection) cacheLineBytes
        (line.index dims)) := by
  rw [Line.span, Line.address_eq h hl hv, Option.map_some, row, Nat.mul_add]

/-- **The region's layout.** Where the arithmetic does not wrap, the layout is built
and its size is the computed one; the sections are aligned, lie in the area and do
not overlap; and the lines the accessors lead to lie in their sections and do not
overlap. -/
theorem region_layout (dims : Dims) (h : NoOverflow dims) :
    ∃ l, buildLayout dims = some l ∧ computeAreaSize dims = some l.areaSize ∧
      (∀ sec span, l.section dims sec = some span →
        cacheLineBytes ∣ span.base ∧ span.Within ⟨0, l.areaSize⟩) ∧
      (∀ sec sec' span span', sec ≠ sec' → l.section dims sec = some span →
        l.section dims sec' = some span' → span.Disjoint span') ∧
      (∀ line : Line, line.Valid dims → ∃ span bytes,
        l.section dims line.toSection = some span ∧ line.span l dims = some bytes ∧
          bytes.Within span) ∧
      (∀ line line' : Line, line.Valid dims → line'.Valid dims → line ≠ line' →
        ∀ bytes bytes', line.span l dims = some bytes → line'.span l dims = some bytes' →
          bytes.Disjoint bytes') := by
  have hl := buildLayout_eq h
  refine ⟨_, hl, computeAreaSize_eq h, ?_, ?_, ?_, ?_⟩
  · intro sec span hs
    rw [section_eq h hl hs]
    exact ⟨Nat.dvd_mul_right _ _, Nat.zero_le _, by
      have hstop := spanOf_stop_le dims sec
      simpa only [Span.stop, Nat.zero_add] using hstop⟩
  · intro sec sec' span span' hne hs hs'
    rw [section_eq h hl hs, section_eq h hl hs']
    exact spanOf_disjoint hne
  · intro line hv
    exact ⟨_, _, section_of_valid h hl hv, Line.span_eq h hl hv, row_within (Line.index_lt hv)⟩
  · intro line line' hv hv' hne bytes bytes' hb hb'
    obtain rfl := Option.some.inj (hb.symm.trans (Line.span_eq h hl hv))
    obtain rfl := Option.some.inj (hb'.symm.trans (Line.span_eq h hl hv'))
    -- in one section the indices differ; two sections are apart
    by_cases hsec : line.toSection = line'.toSection
    · rw [hsec]
      exact row_disjoint fun hidx => hne (Line.index_inj hv hv' hsec hidx)
    · exact (spanOf_disjoint hsec).of_within (row_within (Line.index_lt hv))
        (row_within (Line.index_lt hv'))

/-- Three peers in two aggregator groups, five domains, and profile lines. -/
def grouped : Dims where
  domainCount := 5
  peerCount := 3
  strategy := .requestAgg
  aggregatorGroups := 2
  profileEnabled := true

theorem region_layout_grouped : ∃ l, buildLayout grouped = some l ∧
    computeAreaSize grouped = some l.areaSize ∧
      ∀ g : Nat, g < 2 → ∃ span bytes, l.section grouped .successor = some span ∧
        (Line.packedSlot g).span l grouped = some bytes ∧ bytes.Within span := by
  have h : NoOverflow grouped :=
    { records := by decide
      tree := by intro hs; cases hs
      bytes := by decide }
  have hgroups : getGroupCount 2 5 3 = 2 := by decide +kernel
  obtain ⟨l, hl, hsize, -, -, hline, -⟩ := region_layout grouped h
  refine ⟨l, hl, hsize, fun g hg => hline (.packedSlot g) ⟨rfl, ?_⟩⟩
  exact Nat.lt_of_lt_of_eq hg hgroups.symm

end Cme.Layout
