import Cme.Config.Nesting

/-!
# Config — a written tree is read back

A `Forest` is the members of a map, each a string or a map of its own; `Renders`
says which lines write it: members of one map at one column, children strictly
deeper, blank lines, comment lines and trailing comments anywhere. Reading such
a text gives exactly the paths of the tree (`rendered_text_reads_back`).

The reader is followed line by line (`readContent_leafLine`,
`readContent_mapLine`, `readContent_filler`) and then over the rendering
(`Renders.parseLines`): what is open below the column of a map is the same
before and after its members, whatever they opened in between.
-/

namespace Cme.Config

open Function

/-! ## Trees -/

/-- A character of a key: no blank, quote, hash, colon or dot. -/
def isKeyChar (c : Char) : Bool :=
  !isBlank c && !isQuote c && c != '#' && c != ':' && c != '.'

structure Key where
  text : Text
  ne_nil : text ≠ []
  plain : ∀ c ∈ text, isKeyChar c = true

/-- A string that can stand between double quotes on one line. -/
structure Value where
  text : Text
  unquoted : doubleQuote ∉ text
  oneLine : '\n' ∉ text

/-- The members of a map, in the order they are written. -/
inductive Forest where
  | nil
  | leaf (key : Key) (value : Value) (rest : Forest)
  | map (key : Key) (children rest : Forest)

namespace Forest

def names : Forest → List Text
  | nil => []
  | leaf key _ rest => key.text :: rest.names
  | map key _ rest => key.text :: rest.names

/-- Keys are distinct among siblings, in every map of the tree. -/
def Distinct : Forest → Prop
  | nil => True
  | leaf key _ rest => key.text ∉ rest.names ∧ rest.Distinct
  | map key children rest => key.text ∉ rest.names ∧ children.Distinct ∧ rest.Distinct

/-- The dotted path of every leaf with its value, and of every map with nothing. -/
def entries (pathPrefix : Text) : Forest → List (Text × Text)
  | nil => []
  | leaf key value rest => (pathPrefix ++ key.text, value.text) :: rest.entries pathPrefix
  | map key children rest =>
    (pathPrefix ++ key.text, []) ::
      (children.entries (pathPrefix ++ key.text ++ ".".toList) ++ rest.entries pathPrefix)

end Forest

/-! ## Renderings -/

def IsBlanks (text : Text) : Prop := ∀ c ∈ text, c = ' ' ∨ c = '\t'

instance (text : Text) : Decidable (IsBlanks text) :=
  List.decidableBAll (fun c => c = ' ' ∨ c = '\t') text

/-- What may follow the content of a line: blanks, and after at least one of
them a comment. -/
inductive Remark : Text → Prop where
  | blanks {blanks : Text} (h : IsBlanks blanks) : Remark blanks
  | comment {blanks text : Text} (h : IsBlanks blanks) (hne : blanks ≠ []) (ht : '\n' ∉ text) :
      Remark (blanks ++ '#' :: text)

/-- A line without content: blank, or a comment after any blanks. -/
inductive Filler : Text → Prop where
  | blanks {blanks : Text} (h : IsBlanks blanks) : Filler blanks
  | comment {blanks text : Text} (h : IsBlanks blanks) (ht : '\n' ∉ text) :
      Filler (blanks ++ '#' :: text)

def spaces (column : Nat) : Text := List.replicate column ' '

/-- `key: "value"`. -/
def leafLine (column : Nat) (key : Key) (value : Value) (remark : Text) : Text :=
  spaces column ++ (key.text ++
    ':' :: ' ' :: doubleQuote :: (value.text ++ doubleQuote :: remark))

/-- `key:` with nothing after the colon. -/
def mapLine (column : Nat) (key : Key) (remark : Text) : Text :=
  spaces column ++ (key.text ++ ':' :: remark)

/-- The lines write the members of a map at the column. -/
inductive Renders : Nat → Forest → List Text → Prop where
  | nil {column : Nat} : Renders column .nil []
  | filler {column : Nat} {forest : Forest} {line : Text} {lines : List Text}
      (hline : Filler line) (hlines : Renders column forest lines) :
      Renders column forest (line :: lines)
  | leaf {column : Nat} {key : Key} {value : Value} {rest : Forest} {remark : Text}
      {lines : List Text} (hremark : Remark remark) (hrest : Renders column rest lines) :
      Renders column (.leaf key value rest) (leafLine column key value remark :: lines)
  | map {column inner : Nat} {key : Key} {children rest : Forest} {remark : Text}
      {inside lines : List Text} (hremark : Remark remark) (hdeeper : column < inner)
      (hchildren : Renders inner children inside) (hrest : Renders column rest lines) :
      Renders column (.map key children rest) (mapLine column key remark :: (inside ++ lines))

/-- The text of the lines, with or without the last line break. -/
def Spells (lines : List Text) (text : Text) : Prop :=
  text = Scan.terminated '\n' lines ∨ text ++ ['\n'] = Scan.terminated '\n' lines

/-! ## Characters -/

variable {text : Text}

theorem isBlank_of_isBlanks (h : IsBlanks text) : ∀ c ∈ text, isBlank c = true := by
  intro c hc
  rcases h c hc with rfl | rfl <;> decide

theorem isBlanks_spaces (column : Nat) : IsBlanks (spaces column) := by
  intro c hc
  exact Or.inl (List.eq_of_mem_replicate hc)

/-- Letters that neither open a quote nor can start a comment. -/
def IsQuiet (text : Text) : Prop := ∀ c ∈ text, isQuote c = false ∧ c ≠ '#'

theorem IsBlanks.isQuiet (h : IsBlanks text) : IsQuiet text := by
  intro c hc
  rcases h c hc with rfl | rfl <;> decide

namespace Key

variable (key : Key)

theorem char {c : Char} (h : c ∈ key.text) :
    isBlank c = false ∧ isQuote c = false ∧ c ≠ '#' ∧ c ≠ ':' ∧ c ≠ '.' := by
  have hc := key.plain c h
  simp only [isKeyChar, Bool.and_eq_true, Bool.not_eq_true', bne_iff_ne] at hc
  obtain ⟨⟨⟨⟨hblank, hquote⟩, hhash⟩, hcolon⟩, hdot⟩ := hc
  exact ⟨hblank, hquote, hhash, hcolon, hdot⟩

theorem isQuiet : IsQuiet key.text := by
  intro c hc
  obtain ⟨-, hquote, hhash, -⟩ := key.char hc
  exact ⟨hquote, hhash⟩

theorem not_mem_newline : '\n' ∉ key.text := by
  intro h
  exact absurd (key.char h).1 (by decide)

theorem exists_cons : ∃ c rest, key.text = c :: rest ∧ isBlank c = false := by
  obtain ⟨c, rest, h⟩ := List.exists_cons_of_ne_nil key.ne_nil
  exact ⟨c, rest, h, (key.char (h ▸ .head _)).1⟩

end Key

/-! ## Comments -/

/-- Quiet letters pass, and the last of them is the letter before the rest. -/
theorem stripCommentFrom_quiet (h : IsQuiet text) (previous : Option Char) (rest : Text) :
    stripCommentFrom none previous (text ++ rest) =
      text ++ stripCommentFrom none (text.getLast?.or previous) rest := by
  induction text generalizing previous with
  | nil => rfl
  | cons c text ih =>
    obtain ⟨hquote, hhash⟩ := h c (.head _)
    have ih := ih (fun d hd => h d (.tail _ hd)) (some c)
    rw [List.cons_append, stripCommentFrom]
    simp only [hquote, hhash, Bool.false_eq_true, if_false, false_and]
    rw [ih, List.getLast?_cons]
    cases text.getLast? <;> rfl

/-- A quoted stretch passes up to its closing quote. -/
theorem stripCommentFrom_quoted {quote : Char} (h : quote ∉ text) (previous : Option Char)
    (rest : Text) : stripCommentFrom (some quote) previous (text ++ quote :: rest) =
      text ++ quote :: stripCommentFrom none (some quote) rest := by
  induction text generalizing previous with
  | nil => simp [stripCommentFrom]
  | cons c text ih =>
    have hc : c ≠ quote := fun h' => h (h' ▸ .head _)
    have ih := ih (fun h' => h (.tail _ h')) (some c)
    simp only [List.cons_append, stripCommentFrom, if_neg hc, ih]

theorem stripCommentFrom_blanks {blanks : Text} (h : IsBlanks blanks) (previous : Option Char) :
    stripCommentFrom none previous blanks = blanks := by
  have hpass := stripCommentFrom_quiet h.isQuiet previous []
  rw [List.append_nil] at hpass
  rw [hpass]
  exact List.append_nil blanks

/-- A comment that follows a blank, or starts the line, is cut off. -/
theorem stripCommentFrom_comment {blanks : Text} (h : IsBlanks blanks) (text : Text)
    {previous : Option Char} (hstart : blanks = [] → previous = none) :
    stripCommentFrom none previous (blanks ++ '#' :: text) = blanks := by
  have hbefore : blanks.getLast?.or previous = none ∨ blanks.getLast?.or previous = some ' ' ∨
      blanks.getLast?.or previous = some '\t' := by
    cases hlast : blanks.getLast? with
    | none => exact .inl (hstart (List.getLast?_eq_none_iff.mp hlast))
    | some c =>
      rcases h c (List.mem_of_getLast? hlast) with rfl | rfl
      · exact .inr (.inl rfl)
      · exact .inr (.inr rfl)
  have hhash : isQuote '#' = false := by decide
  rw [stripCommentFrom_quiet h.isQuiet, stripCommentFrom]
  simp only [hhash, Bool.false_eq_true, if_false, true_and, if_pos hbefore, List.append_nil]

/-- A remark leaves its blanks. -/
theorem Remark.stripCommentFrom {remark : Text} (h : Remark remark) (previous : Option Char) :
    ∃ blanks, IsBlanks blanks ∧ stripCommentFrom none previous remark = blanks := by
  cases h with
  | blanks h => exact ⟨remark, h, stripCommentFrom_blanks h _⟩
  | comment h hne _ =>
    exact ⟨_, h, stripCommentFrom_comment h _ (fun h' => absurd h' hne)⟩

/-! ## One line -/

section Line

variable {origin : Text} {lineNumber column : Nat} {key : Key}

/-- A line that is a key at a column, up to its comment, is read as such. -/
theorem readContent_of_stripComment {line after : Text}
    (h : stripComment line = spaces column ++ (key.text ++ ':' :: after)) :
    readContent origin lineNumber line =
      .ok (some { column, name := key.text, value := trim after }) := by
  obtain ⟨c, rest, hkey, hblank⟩ := key.exists_cons
  have hspace : ∀ d ∈ spaces column, (d == ' ') = true := fun d hd => by
    simp [List.eq_of_mem_replicate hd]
  have hc : (c == ' ') = false := by
    rw [beq_eq_false_iff_ne]
    rintro rfl
    exact absurd hblank (by decide)
  have hfirst : (key.text ++ ':' :: after).dropWhile (· == ' ') = key.text ++ ':' :: after := by
    rw [hkey, List.cons_append, List.dropWhile_cons_of_neg (by simp [hc])]
  have hsome : trim (stripComment line) ≠ [] := by
    intro hnil
    have hall := Scan.strip_eq_nil_iff.mp hnil c (by rw [h, hkey]; simp)
    rw [hblank] at hall
    cases hall
  have hindent : readIndent (stripComment line) lineNumber origin = .ok column := by
    have hdrop : (stripComment line).dropWhile (· == ' ') = c :: (rest ++ ':' :: after) := by
      rw [h, List.dropWhile_append_of_pos hspace, hfirst, hkey, List.cons_append]
    have htake : (stripComment line).takeWhile (· == ' ') = spaces column := by
      rw [h, List.takeWhile_append_of_pos hspace, hkey, List.cons_append,
        List.takeWhile_cons_of_neg (by simp [hc]), List.append_nil]
    have htab : c ≠ '\t' := by
      rintro rfl
      exact absurd hblank (by decide)
    rw [readIndent, hdrop]
    simp only [if_neg htab, htake, spaces, List.length_replicate]
  -- the colon is the first one: neither the indentation nor the key has another
  have hbefore : ∀ d ∈ spaces column ++ key.text, (d != ':') = true := by
    intro d hd
    rw [bne_iff_ne]
    rcases List.mem_append.mp hd with hd | hd
    · rw [List.eq_of_mem_replicate hd]
      decide
    · exact (key.char hd).2.2.2.1
  have hassoc : stripComment line = (spaces column ++ key.text) ++ ':' :: after := by
    rw [h, List.append_assoc]
  have hafter : (stripComment line).dropWhile (· != ':') = ':' :: after := by
    rw [hassoc, List.dropWhile_append_of_pos hbefore]
    rfl
  have hname : trim ((stripComment line).takeWhile (· != ':')) = key.text := by
    rw [hassoc, List.takeWhile_append_of_pos hbefore, List.takeWhile_cons_of_neg (by decide)]
    have hpad : trim (spaces column ++ (key.text ++ [])) = key.text :=
      Scan.strip_pad (isBlank_of_isBlanks (isBlanks_spaces column)) (by simp)
        (fun d hd => (key.char (List.mem_of_mem_head? hd)).1)
        (fun d hd => (key.char (List.mem_of_getLast? hd)).1)
    simpa using hpad
  simp only [readContent, if_neg hsome, hindent, hafter, hname, if_neg key.ne_nil]

theorem readContent_leafLine {value : Value} {remark : Text} (h : Remark remark) :
    readContent origin lineNumber (leafLine column key value remark) =
      .ok (some { column, name := key.text,
                  value := doubleQuote :: (value.text ++ [doubleQuote]) }) := by
  obtain ⟨blanks, hblanks, hstrip⟩ := h.stripCommentFrom (some doubleQuote)
  have hbody : stripComment (leafLine column key value remark) = spaces column ++ (key.text ++
      ':' :: ' ' :: doubleQuote :: (value.text ++ doubleQuote :: blanks)) := by
    rw [stripComment, leafLine, stripCommentFrom_quiet (isBlanks_spaces column).isQuiet,
      stripCommentFrom_quiet key.isQuiet]
    -- past the colon and the blank the value is inside quotes
    have hquoted := stripCommentFrom_quoted value.unquoted (some doubleQuote) remark
    rw [hstrip] at hquoted
    simp only [stripCommentFrom, show isQuote ':' = false by decide,
      show isQuote ' ' = false by decide, show isQuote doubleQuote = true by decide,
      show ¬ (':' = '#') by decide, show ¬ (' ' = '#') by decide, Bool.false_eq_true, if_false,
      false_and, if_true, hquoted]
  have hvalue : trim (' ' :: doubleQuote :: (value.text ++ doubleQuote :: blanks))
      = doubleQuote :: (value.text ++ [doubleQuote]) := by
    have hpad : trim ([' '] ++ ((doubleQuote :: (value.text ++ [doubleQuote])) ++ blanks))
        = doubleQuote :: (value.text ++ [doubleQuote]) :=
      Scan.strip_pad (by simp [isBlank]) (isBlank_of_isBlanks hblanks)
        (by rintro a ⟨⟩; decide)
        (by
          intro a ha
          rw [← List.cons_append, List.getLast?_concat] at ha
          cases ha
          decide)
    simpa using hpad
  rw [readContent_of_stripComment hbody, hvalue]

theorem readContent_mapLine {remark : Text} (h : Remark remark) :
    readContent origin lineNumber (mapLine column key remark) =
      .ok (some { column, name := key.text, value := [] }) := by
  obtain ⟨blanks, hblanks, hstrip⟩ := h.stripCommentFrom (some ':')
  have hbody : stripComment (mapLine column key remark)
      = spaces column ++ (key.text ++ ':' :: blanks) := by
    rw [stripComment, mapLine, stripCommentFrom_quiet (isBlanks_spaces column).isQuiet,
      stripCommentFrom_quiet key.isQuiet]
    simp only [stripCommentFrom, show isQuote ':' = false by decide,
      show ¬ (':' = '#') by decide, Bool.false_eq_true, if_false, false_and, hstrip]
  have hvalue : trim blanks = [] := Scan.strip_eq_nil_iff.mpr (isBlank_of_isBlanks hblanks)
  rw [readContent_of_stripComment hbody, hvalue]

theorem readContent_filler {line : Text} (h : Filler line) :
    readContent origin lineNumber line = .ok none := by
  have hblank : ∃ blanks, IsBlanks blanks ∧ stripComment line = blanks := by
    cases h with
    | blanks h => exact ⟨line, h, stripCommentFrom_blanks h none⟩
    | comment h _ => exact ⟨_, h, stripCommentFrom_comment h _ (fun _ => rfl)⟩
  obtain ⟨blanks, hblanks, hstrip⟩ := hblank
  have hnil : trim (stripComment line) = [] := by
    rw [hstrip]
    exact Scan.strip_eq_nil_iff.mpr (isBlank_of_isBlanks hblanks)
  rw [readContent, if_pos hnil]

theorem unquote_quoted (text : Text) : unquote (doubleQuote :: (text ++ [doubleQuote])) = text := by
  have hquoted : 2 ≤ (doubleQuote :: (text ++ [doubleQuote])).length ∧
      (doubleQuote :: (text ++ [doubleQuote])).head? =
        (doubleQuote :: (text ++ [doubleQuote])).getLast? ∧
      (doubleQuote :: (text ++ [doubleQuote])).head?.any isQuote := by
    refine ⟨by simp, ?_, rfl⟩
    rw [← List.cons_append, List.getLast?_concat]
    rfl
  rw [unquote, if_pos hquoted, List.tail_cons, List.dropLast_concat]

end Line

/-! ## Storing -/

/-- The entries after storing a list of them in turn. -/
def Entries.store (stored : Entries) (items : List (Text × Text)) : Entries :=
  items.foldl (fun stored item => update stored item.1 (some item.2)) stored

/-- Under distinct paths what is stored is what was given. -/
theorem Entries.store_eq_some_iff {items : List (Text × Text)} (hnodup : (items.map Prod.fst).Nodup)
    {path value : Text} {stored : Entries} (hfresh : ∀ item ∈ items, stored item.1 = none) :
    stored.store items path = some value ↔
      (path, value) ∈ items ∨ stored path = some value := by
  induction items generalizing stored with
  | nil => simp [Entries.store]
  | cons item items ih =>
    rw [List.map_cons, List.nodup_cons] at hnodup
    have hfirst : stored item.1 = none := hfresh item (.head _)
    have hrest : ∀ other ∈ items, update stored item.1 (some item.2) other.1 = none := by
      intro other hother
      have hne : other.1 ≠ item.1 := fun h => hnodup.1 (h ▸ List.mem_map_of_mem hother)
      rw [update_of_ne hne]
      exact hfresh other (.tail _ hother)
    refine (ih hnodup.2 hrest).trans ?_
    by_cases hpath : path = item.1
    · -- the item at this path is the only one, and nothing was there before
      subst hpath
      have hnone : (item.1, value) ∉ items := fun h =>
        hnodup.1 (List.mem_map.mpr ⟨_, h, rfl⟩)
      rw [update_self, hfirst, List.mem_cons, Prod.ext_iff]
      simp [hnone, eq_comm]
    · have hne : (path, value) ≠ item := fun h => hpath (congrArg Prod.fst h)
      rw [update_of_ne hpath, List.mem_cons, or_iff_right hne]

/-! ## Paths of a tree -/

namespace Forest

variable {forest : Forest}

/-- A path of the tree is the prefix and then a key of the tree, up to the first dot. -/
theorem exists_name_of_mem {pathPrefix : Text} {item : Text × Text}
    (h : item ∈ forest.entries pathPrefix) :
    ∃ tail, item.1 = pathPrefix ++ tail ∧ tail.takeWhile (· != '.') ∈ forest.names := by
  have hkey : ∀ key : Key, key.text.takeWhile (· != '.') = key.text := fun key =>
    List.takeWhile_eq_self_iff.mpr fun c hc => bne_iff_ne.mpr (key.char hc).2.2.2.2
  induction forest generalizing pathPrefix with
  | nil => cases h
  | leaf key value rest ih =>
    rcases List.mem_cons.mp h with rfl | h
    · exact ⟨key.text, rfl, by rw [hkey]; exact .head _⟩
    · obtain ⟨tail, heq, hmem⟩ := ih h
      exact ⟨tail, heq, .tail _ hmem⟩
  | map key children rest ihchildren ihrest =>
    rcases List.mem_cons.mp h with rfl | h
    · exact ⟨key.text, rfl, by rw [hkey]; exact .head _⟩
    rcases List.mem_append.mp h with h | h
    · -- below a child the first name is the child's own key
      obtain ⟨tail, heq, -⟩ := ihchildren h
      refine ⟨key.text ++ '.' :: tail, by simpa using heq, ?_⟩
      rw [List.takeWhile_append_of_pos fun c hc => bne_iff_ne.mpr (key.char hc).2.2.2.2,
        List.takeWhile_cons_of_neg (by decide), List.append_nil]
      exact .head _
    · obtain ⟨tail, heq, hmem⟩ := ihrest h
      exact ⟨tail, heq, .tail _ hmem⟩

/-- No path of the tree starts with a key it does not have. -/
theorem not_mem_paths {key : Key} (h : key.text ∉ forest.names) (pathPrefix : Text) {tail : Text}
    (htail : tail = [] ∨ ∃ rest, tail = '.' :: rest) :
    pathPrefix ++ (key.text ++ tail) ∉ (forest.entries pathPrefix).map Prod.fst := by
  intro hmem
  obtain ⟨item, hitem, heq⟩ := List.mem_map.mp hmem
  obtain ⟨tail', htail', hname⟩ := exists_name_of_mem hitem
  obtain rfl : tail' = key.text ++ tail := List.append_cancel_left (htail'.symm.trans heq)
  have hfirst : (key.text ++ tail).takeWhile (· != '.') = key.text := by
    rw [List.takeWhile_append_of_pos fun c hc => bne_iff_ne.mpr (key.char hc).2.2.2.2]
    rcases htail with rfl | ⟨rest, rfl⟩
    · exact List.append_nil _
    · rw [List.takeWhile_cons_of_neg (by decide), List.append_nil]
  exact h (hfirst ▸ hname)

theorem nodup_paths (h : forest.Distinct) (pathPrefix : Text) :
    ((forest.entries pathPrefix).map Prod.fst).Nodup := by
  induction forest generalizing pathPrefix with
  | nil => exact List.nodup_nil
  | leaf key value rest ih =>
    have hkey := not_mem_paths h.1 pathPrefix (.inl rfl)
    rw [List.append_nil] at hkey
    exact List.nodup_cons.mpr ⟨hkey, ih h.2 _⟩
  | map key children rest ihchildren ihrest =>
    obtain ⟨hname, hchildren, hrest⟩ := h
    have hbelow : ∀ path ∈ (children.entries (pathPrefix ++ key.text ++ ".".toList)).map Prod.fst,
        ∃ tail, path = pathPrefix ++ (key.text ++ '.' :: tail) := by
      intro path hpath
      obtain ⟨item, hitem, rfl⟩ := List.mem_map.mp hpath
      obtain ⟨tail, heq, -⟩ := exists_name_of_mem hitem
      exact ⟨tail, by simpa using heq⟩
    rw [Forest.entries, List.map_cons, List.map_append, List.nodup_cons, List.nodup_append]
    refine ⟨?_, ihchildren hchildren _, ihrest hrest _, ?_⟩
    · intro hmem
      rcases List.mem_append.mp hmem with hmem | hmem
      · obtain ⟨tail, heq⟩ := hbelow _ hmem
        have hlen := congrArg List.length heq
        simp at hlen
      · have hkey := not_mem_paths hname pathPrefix (.inl rfl)
        rw [List.append_nil] at hkey
        exact hkey hmem
    · rintro path hpath other hother rfl
      obtain ⟨tail, rfl⟩ := hbelow _ hpath
      exact not_mem_paths hname pathPrefix (.inr ⟨tail, rfl⟩) hother

end Forest

/-! ## A whole rendering -/

variable {origin : Text} {column : Nat} {forest : Forest} {lines : List Text}

theorem parseLines_append (origin : Text) (lineNumber : Nat) {state state' : Parsing}
    {first : List Text} (h : parseLines origin lineNumber state first = .ok state')
    (second : List Text) : parseLines origin lineNumber state (first ++ second) =
      parseLines origin (lineNumber + first.length) state' second := by
  induction first generalizing lineNumber state with
  | nil => cases h; rfl
  | cons line first ih =>
    rw [List.cons_append, parseLines]
    rw [parseLines] at h
    cases hline : readLine origin (lineNumber + 1) line state with
    | error e => rw [hline] at h; cases h
    | ok next =>
      rw [hline] at h
      rw [List.length_cons, Nat.add_comm first.length 1, ← Nat.add_assoc]
      exact ih _ h

theorem Parsing.openAt_congr {state state' : Parsing} {inner : Nat}
    (h : state'.openAt inner = state.openAt inner) (hle : column ≤ inner) :
    state'.openAt column = state.openAt column := by
  have hdown := congrArg (Scan.unwind Section.column column) h
  rwa [Parsing.openAt, Parsing.openAt, Scan.unwind_unwind hle, Scan.unwind_unwind hle] at hdown

/-- Reading the members of a map stores their entries under what was open at
their column, and leaves that open. -/
theorem Renders.parseLines (h : Renders column forest lines) (origin : Text) (lineNumber : Nat)
    (state : Parsing) : ∃ state', parseLines origin lineNumber state lines = .ok state' ∧
      state'.openAt column = state.openAt column ∧
      state'.entries = state.entries.store (forest.entries (openPrefix (state.openAt column))) := by
  induction h generalizing lineNumber state with
  | nil => exact ⟨state, rfl, rfl, rfl⟩
  | filler hline _ ih =>
    obtain ⟨state', hparse, hopen, hentries⟩ := ih (lineNumber + 1) state
    refine ⟨state', ?_, hopen, hentries⟩
    rw [Config.parseLines, readLine, readContent_filler hline]
    exact hparse
  | @leaf column key value rest remark lines hremark _ ih =>
    let line : Content :=
      { column, name := key.text, value := doubleQuote :: (value.text ++ [doubleQuote]) }
    obtain ⟨state', hparse, hopen, hentries⟩ := ih (lineNumber + 1) (state.file line)
    have hsame : (state.file line).openAt column = state.openAt column :=
      state.openAt_file_of_le le_rfl
    refine ⟨state', ?_, hopen.trans hsame, ?_⟩
    · rw [Config.parseLines, readLine, readContent_leafLine hremark]
      exact hparse
    · rw [hentries, hsame, Parsing.file, unquote_quoted]
      rfl
  | @map column inner key children rest remark inside lines hremark hdeeper _ _ ihchildren ihrest =>
    -- the map's own line opens its frame, which its children see and its siblings do not
    let line : Content := { column, name := key.text, value := [] }
    obtain ⟨within, hinside, hopenInner, hentriesInner⟩ :=
      ihchildren (lineNumber + 1) (state.file line)
    have hinner : openPrefix ((state.file line).openAt inner) = state.path line ++ ".".toList :=
      state.openAt_file_of_lt rfl hdeeper
    have hopenWithin : within.openAt column = state.openAt column :=
      (Parsing.openAt_congr hopenInner (Nat.le_of_lt hdeeper)).trans
        (state.openAt_file_of_le le_rfl)
    obtain ⟨state', hparse, hopen, hentries⟩ := ihrest (lineNumber + 1 + inside.length) within
    refine ⟨state', ?_, hopen.trans hopenWithin, ?_⟩
    · rw [Config.parseLines, readLine, readContent_mapLine hremark]
      exact (parseLines_append origin _ hinside _).trans hparse
    · rw [hentries, hopenWithin, hentriesInner, hinner, Forest.entries, Entries.store,
        Entries.store, Entries.store, List.foldl_cons, List.foldl_append]
      rfl

theorem parseLines_concat_nil (lineNumber : Nat) (state : Parsing) (lines : List Text) :
    parseLines origin lineNumber state (lines ++ [[]]) =
      parseLines origin lineNumber state lines := by
  induction lines generalizing lineNumber state with
  | nil =>
    have hnil : Filler [] := .blanks (fun c hc => absurd hc (by simp))
    simp only [List.nil_append, parseLines, readLine, readContent_filler hnil]
  | cons line lines ih =>
    rw [List.cons_append, parseLines, parseLines]
    cases readLine origin (lineNumber + 1) line state with
    | error e => rfl
    | ok next => exact ih _ _

theorem IsBlanks.not_mem_newline (h : IsBlanks text) : '\n' ∉ text := by
  intro hmem
  rcases h _ hmem with h | h <;> exact absurd h (by decide)

/-- A rendering is cut into its own lines. -/
theorem Renders.not_mem_newline (h : Renders column forest lines) :
    ∀ line ∈ lines, '\n' ∉ line := by
  have hremarks : ∀ {remark : Text}, Remark remark → '\n' ∉ remark := by
    intro remark h
    cases h with
    | blanks h => exact h.not_mem_newline
    | comment h _ ht => simp [h.not_mem_newline, ht]
  have hkeys : ∀ key : Key, '\n' ∉ key.text := Key.not_mem_newline
  have hspaces : ∀ column, '\n' ∉ spaces column := fun c => (isBlanks_spaces c).not_mem_newline
  induction h with
  | nil => simp
  | filler hline _ ih =>
    refine List.forall_mem_cons.mpr ⟨?_, ih⟩
    cases hline with
    | blanks h => exact h.not_mem_newline
    | comment h ht => simp [h.not_mem_newline, ht]
  | @leaf _ key value _ _ _ hremark _ ih =>
    refine List.forall_mem_cons.mpr ⟨?_, ih⟩
    have hquote : '\n' ≠ doubleQuote := by decide
    simp [leafLine, hspaces, hkeys, value.oneLine, hquote, hremarks hremark]
  | map hremark _ _ _ ihchildren ihrest =>
    refine List.forall_mem_cons.mpr ⟨?_, List.forall_mem_append.mpr ⟨ihchildren, ihrest⟩⟩
    simp [mapLine, hspaces, hkeys, hremarks hremark]

theorem parseLines_of_spells (hlines : ∀ line ∈ lines, '\n' ∉ line) (h : Spells lines text)
    (state : Parsing) :
    parseLines origin 0 state (Scan.pieces '\n' text) = parseLines origin 0 state lines := by
  have hcut := Scan.pieces_terminated hlines
  rcases h with rfl | h
  · rw [hcut]
  · rw [← h] at hcut
    have hlast : Scan.pieces '\n' (text ++ ['\n']) = Scan.pieces '\n' text ∨ _ :=
      Scan.pieces_concat_stop text
    rcases hlast with hsame | hadded
    · rw [← hsame, hcut]
    · rw [hcut] at hadded
      rw [hadded, parseLines_concat_nil]

/-- Every text that writes the tree is accepted, and its entries are the paths
of the tree: of every leaf with its value, of every map with nothing. -/
theorem rendered_text_reads_back {text : Text} (hdistinct : forest.Distinct)
    (hrenders : Renders column forest lines) (hspells : Spells lines text) (origin : Text) :
    ∃ config, parse text origin = .ok config ∧
      ∀ path value, config.entries path = some value ↔ (path, value) ∈ forest.entries [] := by
  obtain ⟨state, hparse, -, hentries⟩ :=
    hrenders.parseLines origin 0 Parsing.start
  refine ⟨{ entries := state.entries, origin }, ?_, ?_⟩
  · rw [parse, parseLines_of_spells hrenders.not_mem_newline hspells, hparse]
    rfl
  · intro path value
    have hempty : openPrefix (Parsing.start.openAt column) = [] := rfl
    rw [hentries, hempty]
    refine (Entries.store_eq_some_iff (Forest.nodup_paths hdistinct []) (fun _ _ => rfl)).trans ?_
    exact or_iff_left (fun h => by cases h)

def areaKey : Key := ⟨"area".toList, by decide, List.all_eq_true.mp (by decide)⟩
def pathKey : Key := ⟨"path".toList, by decide, List.all_eq_true.mp (by decide)⟩
def hashValue : Value := ⟨"shm: #0".toList, by decide, by decide⟩

/-- A map of one string that holds a colon, a blank and a hash. -/
def smallForest : Forest := .map areaKey (.leaf pathKey hashValue .nil) .nil

theorem rendered_text_reads_back_small : ∃ config,
      parse "# settings\narea: # a map\n\n   path: \"shm: #0\" # kept".toList [] = .ok config ∧
      ∀ path value, config.entries path = some value ↔
        (path, value) ∈ [("area".toList, []), ("area.path".toList, "shm: #0".toList)] := by
  have hmap : Remark ([' '] ++ '#' :: " a map".toList) :=
    .comment (by decide) (by decide) (by decide)
  have hleaf : Remark ([' '] ++ '#' :: " kept".toList) :=
    .comment (by decide) (by decide) (by decide)
  have hcomment : Filler ([] ++ '#' :: " settings".toList) := .comment (by decide) (by decide)
  have hrenders : Renders 0 smallForest _ :=
    .filler hcomment (.map hmap (show 0 < 3 by decide)
      (.filler (.blanks (show IsBlanks [] by decide)) (.leaf hleaf .nil)) .nil)
  have hdistinct : smallForest.Distinct := ⟨by decide, ⟨by decide, trivial⟩, trivial⟩
  exact rendered_text_reads_back hdistinct hrenders (.inr (by decide)) []

end Cme.Config
