import Cme.Config.KeyValue

/-!
# Config — which section a line is filed in

The stack of open sections remembers the lines without a value and forgets the
others. `contentLines` is the text with comments and blank lines removed, and
`storedPath` the path a content line is stored under after the lines before it.

A line whose nearest shallower line opened a map is filed in that map
(`storedPath_of_map`), and one without a shallower line at the top
(`storedPath_of_none`). A line deeper than a scalar finds no frame for the
scalar and goes to whatever section is open around it (`scalar_child_adopted`).
-/

namespace Cme.Config

variable {origin input : Text} {lineNumber : Nat} {state : Parsing} {lines : List Text}

/-! ## The content lines -/

/-- What the lines say, in order, those without content left out. -/
def contentsFrom (origin : Text) (lineNumber : Nat) :
    List Text → Except ParseError (List Content)
  | [] => .ok []
  | line :: lines =>
    match readContent origin (lineNumber + 1) line with
    | .error e => .error e
    | .ok none => contentsFrom origin (lineNumber + 1) lines
    | .ok (some content) => (contentsFrom origin (lineNumber + 1) lines).map (content :: ·)

def contentLines (input origin : Text) : Except ParseError (List Content) :=
  contentsFrom origin 0 (Scan.pieces '\n' input)

/-- The loop after the given content lines. -/
def Parsing.fileAll (state : Parsing) (contents : List Content) : Parsing :=
  contents.foldl Parsing.file state

/-- The path `line` is stored under when it follows `before`. -/
def storedPath (before : List Content) (line : Content) : Text :=
  (Parsing.start.fileAll before).path line

/-- The loop refuses what the lines alone refuse, and otherwise files them in turn. -/
theorem parseLines_eq (origin : Text) (lineNumber : Nat) (state : Parsing) (lines : List Text) :
    parseLines origin lineNumber state lines =
      (contentsFrom origin lineNumber lines).map state.fileAll := by
  induction lines generalizing lineNumber state with
  | nil => rfl
  | cons line lines ih =>
    rw [parseLines, contentsFrom, readLine]
    cases readContent origin (lineNumber + 1) line with
    | error e => rfl
    | ok content =>
      cases content with
      | none => exact ih _ _
      | some content =>
        refine (ih (lineNumber + 1) (state.file content)).trans ?_
        cases contentsFrom origin (lineNumber + 1) lines <;> rfl

theorem parse_eq (input origin : Text) :
    parse input origin = (contentLines input origin).map fun contents =>
      { entries := (Parsing.start.fileAll contents).entries, origin } := by
  rw [parse, parseLines_eq, contentLines]
  cases contentsFrom origin 0 (Scan.pieces '\n' input) <;> rfl

/-! ## The stack below a column -/

variable {line : Content}

theorem Parsing.sections_file_of_blank (h : line.value = []) : (state.file line).sections =
      { column := line.column, pathPrefix := state.path line ++ ".".toList } ::
        state.openAt line.column := by
  rw [Parsing.file, if_pos h]

theorem Parsing.sections_file_of_scalar (h : line.value ≠ []) :
    (state.file line).sections = state.openAt line.column := by
  rw [Parsing.file, if_neg h]

variable {column : Nat}

theorem Parsing.openAt_file_of_le (state : Parsing) (h : column ≤ line.column) :
    (state.file line).openAt column = state.openAt column := by
  have hdown : Scan.unwind Section.column column (state.openAt line.column)
      = state.openAt column := Scan.unwind_unwind h
  by_cases hvalue : line.value = []
  · -- the frame the line opened is itself not below the column
    rw [Parsing.openAt, Parsing.sections_file_of_blank hvalue]
    exact (Scan.unwind_cons_of_le (by exact h)).trans hdown
  · rw [Parsing.openAt, Parsing.sections_file_of_scalar hvalue]
    exact hdown

/-- Lines at or beyond a column change nothing below it. -/
theorem Parsing.openAt_fileAll_of_le {contents : List Content}
    (h : ∀ line ∈ contents, column ≤ line.column) (state : Parsing) :
    (state.fileAll contents).openAt column = state.openAt column := by
  induction contents generalizing state with
  | nil => rfl
  | cons line contents ih =>
    have htail := ih (fun l hl => h l (.tail _ hl)) (state.file line)
    rw [Parsing.fileAll, List.foldl_cons]
    exact htail.trans (state.openAt_file_of_le (h line (.head _)))

theorem Parsing.openAt_file_of_lt (state : Parsing) (hvalue : line.value = [])
    (h : line.column < column) :
    openPrefix ((state.file line).openAt column) = state.path line ++ ".".toList := by
  rw [Parsing.openAt, Parsing.sections_file_of_blank hvalue]
  exact congrArg openPrefix (Scan.unwind_cons_of_lt (by exact h))

/-! ## Where a line goes -/

/-- `parent` is the nearest of the lines `before` that is shallower than
`column`, with the lines before it. -/
def IsNearest (before : List Content) (column : Nat) (earlier : List Content)
    (parent : Content) : Prop :=
  ∃ between, before = earlier ++ parent :: between ∧ parent.column < column ∧
    ∀ line ∈ between, column ≤ line.column

/-- No line has two nearest shallower lines. -/
theorem IsNearest.unique {before earlier earlier' : List Content} {parent parent' : Content}
    (h : IsNearest before column earlier parent) (h' : IsNearest before column earlier' parent') :
    parent = parent' := by
  obtain ⟨between, rfl, hlt, hbetween⟩ := h
  obtain ⟨between', heq, hlt', hbetween'⟩ := h'
  -- the one that comes first has the other, which is shallow too, behind it
  rcases List.append_eq_append_iff.mp heq with ⟨rest, -, hrest⟩ | ⟨rest, -, hrest⟩
  · cases rest with
    | nil => exact (List.cons.inj hrest).1
    | cons first rest =>
      have hmem : parent' ∈ between := by simp [(List.cons.inj hrest).2]
      exact absurd (hbetween parent' hmem) (by omega)
  · cases rest with
    | nil => exact (List.cons.inj hrest).1.symm
    | cons first rest =>
      have hmem : parent ∈ between' := by simp [(List.cons.inj hrest).2]
      exact absurd (hbetween' parent hmem) (by omega)

theorem storedPath_of_map {before earlier : List Content} {line parent : Content}
    (hnear : IsNearest before line.column earlier parent) (hvalue : parent.value = []) :
    storedPath before line = storedPath earlier parent ++ ".".toList ++ line.name := by
  obtain ⟨between, rfl, hlt, hbetween⟩ := hnear
  -- nothing between the parent and the line shows below the line's column
  have hsame : (Parsing.start.fileAll (earlier ++ parent :: between)).openAt line.column
      = ((Parsing.start.fileAll earlier).file parent).openAt line.column := by
    rw [Parsing.fileAll, List.foldl_append, List.foldl_cons]
    exact Parsing.openAt_fileAll_of_le hbetween _
  rw [storedPath, Parsing.path, hsame, Parsing.openAt_file_of_lt _ hvalue hlt]
  rfl

theorem storedPath_of_none {before : List Content}
    (h : ∀ other ∈ before, line.column ≤ other.column) : storedPath before line = line.name := by
  have hsame := Parsing.openAt_fileAll_of_le h Parsing.start
  rw [storedPath, Parsing.path, hsame]
  rfl

/-- The line is filed where the indentation says: its nearest shallower line opened a
map and the line is in it, or there is none and the line is at the top. -/
def FiledUnderParent (before : List Content) (line : Content) : Prop :=
  (∀ earlier parent, IsNearest before line.column earlier parent → parent.value = [] ∧
    storedPath before line = storedPath earlier parent ++ ".".toList ++ line.name) ∧
  ((∀ other ∈ before, line.column ≤ other.column) → storedPath before line = line.name)

/-- In an accepted text a content line is filed where the indentation says exactly when
it is not nested under a scalar line. The configuration is what filing the content
lines in turn leaves. -/
theorem lines_filed_under_their_parent {config : KeyValueConfig}
    (h : parse input origin = .ok config) : ∃ contents, contentLines input origin = .ok contents ∧
      config.entries = (Parsing.start.fileAll contents).entries ∧
      ∀ before line after, contents = before ++ line :: after →
        (FiledUnderParent before line ↔
          ∀ earlier parent, IsNearest before line.column earlier parent → parent.value = []) := by
  rw [parse_eq] at h
  cases hc : contentLines input origin with
  | error e => rw [hc] at h; cases h
  | ok contents =>
    rw [hc] at h
    cases h
    refine ⟨contents, rfl, rfl, fun before line after _ =>
      ⟨fun hfiled earlier parent hnear => (hfiled.1 earlier parent hnear).1, fun hmaps => ?_⟩⟩
    exact ⟨fun earlier parent hnear => ⟨hmaps earlier parent hnear,
      storedPath_of_map hnear (hmaps earlier parent hnear)⟩, storedPath_of_none⟩

/-- Two sections and a comment: every line finds its parent. -/
def nestedText : Text := "area:\n  path: /a # where\n\nlog:\n    path: /b\n".toList

theorem lines_filed_under_their_parent_nested : (∃ config, parse nestedText [] = .ok config) ∧
      storedPath [⟨0, "area".toList, []⟩, ⟨2, "path".toList, "/a".toList⟩, ⟨0, "log".toList, []⟩]
        ⟨4, "path".toList, "/b".toList⟩ = "log.path".toList := by
  have hlines : contentLines nestedText [] = .ok
      ([⟨0, "area".toList, []⟩, ⟨2, "path".toList, "/a".toList⟩, ⟨0, "log".toList, []⟩] ++
        [⟨4, "path".toList, "/b".toList⟩]) := by decide +kernel
  have hparse := parse_eq nestedText []
  rw [hlines] at hparse
  refine ⟨⟨_, hparse⟩, ?_⟩
  obtain ⟨contents, hcontents, -, hfiled⟩ := lines_filed_under_their_parent hparse
  obtain rfl := Except.ok.inj (hlines.symm.trans hcontents)
  -- the nearest shallower line of the last one is `log`, itself at the top
  have hnear : IsNearest [⟨0, "area".toList, []⟩, ⟨2, "path".toList, "/a".toList⟩,
      ⟨0, "log".toList, []⟩] 4 [⟨0, "area".toList, []⟩, ⟨2, "path".toList, "/a".toList⟩]
      ⟨0, "log".toList, []⟩ := ⟨[], rfl, by decide, by simp⟩
  have hmaps := (hfiled _ _ [] rfl).mpr fun _ _ h => hnear.unique h ▸ rfl
  refine (hmaps.1 _ _ hnear).2.trans ?_
  decide +kernel

/-- A line nested under a scalar. -/
def overIndented : Text := "a:\n  b: 1\n      c: 2\n".toList

/-- The text is accepted, the line `c` is nested under the scalar `b`, and its
value is stored beside `b`, as `a.c`. -/
theorem scalar_child_adopted : ∃ config, parse overIndented [] = .ok config ∧
      contentLines overIndented [] = .ok [⟨0, "a".toList, []⟩, ⟨2, "b".toList, "1".toList⟩,
        ⟨6, "c".toList, "2".toList⟩] ∧
      IsNearest [⟨0, "a".toList, []⟩, ⟨2, "b".toList, "1".toList⟩] 6 [⟨0, "a".toList, []⟩]
        ⟨2, "b".toList, "1".toList⟩ ∧
      storedPath [⟨0, "a".toList, []⟩] ⟨2, "b".toList, "1".toList⟩ = "a.b".toList ∧
      storedPath [⟨0, "a".toList, []⟩, ⟨2, "b".toList, "1".toList⟩] ⟨6, "c".toList, "2".toList⟩
        = "a.c".toList ∧
      config.entries "a.c".toList = some "2".toList := by
  have hlines : contentLines overIndented [] = .ok [⟨0, "a".toList, []⟩,
      ⟨2, "b".toList, "1".toList⟩, ⟨6, "c".toList, "2".toList⟩] := by decide +kernel
  have hparse := parse_eq overIndented []
  rw [hlines] at hparse
  refine ⟨_, hparse, hlines, ⟨[], rfl, by decide, by simp⟩, ?_, ?_, ?_⟩ <;> decide +kernel

end Cme.Config
