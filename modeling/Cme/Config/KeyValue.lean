import Cme.Text.Scan
import Mathlib.Algebra.Group.Int.Defs
import Mathlib.Algebra.Group.Nat.Defs

/-!
# Config — the settings file

`KeyValueConfig`, the YAML subset the daemon and the test harness read: nested
maps by indentation, `key: value` scalars and inline sequences. `parse` reads a
text line by line with a stack of open sections and files each content line
under the path of the section on top; the getters read what was filed.

A text is the list of its characters. The entries of a configuration are a
function from paths, since nothing here reads them in order.
-/

namespace Cme.Config

abbrev Text := List Char

/-- A refusal, with what it says. -/
structure ParseError where
  what : Text
  deriving DecidableEq, Repr

/-! ## One line -/

def isBlank (c : Char) : Bool := c == ' ' || c == '\t' || c == '\r' || c == '\n'

def trim (text : Text) : Text := Scan.strip isBlank text

def doubleQuote : Char := '\x22'
def singleQuote : Char := '\x27'

def isQuote (c : Char) : Bool := c == doubleQuote || c == singleQuote

def unquote (text : Text) : Text :=
  if 2 ≤ text.length ∧ text.head? = text.getLast? ∧ text.head?.any isQuote then
    text.tail.dropLast
  else text

/-- The loop of `stripComment`: the quote that is open, the letter before, and
the letters from here on. -/
def stripCommentFrom (quote : Option Char) (previous : Option Char) : Text → Text
  | [] => []
  | letter :: rest =>
    match quote with
    | some q =>
      letter :: stripCommentFrom (if letter = q then none else some q) (some letter) rest
    | none =>
      if isQuote letter then letter :: stripCommentFrom (some letter) (some letter) rest
      -- a hash opens a comment only at the start of the line or after a blank
      else if letter = '#' ∧ (previous = none ∨ previous = some ' ' ∨ previous = some '\t') then []
      else letter :: stripCommentFrom none (some letter) rest

def stripComment (line : Text) : Text := stripCommentFrom none none line

/-- `where(line)`: the file and the line a refusal names. -/
def whereLine (origin : Text) (lineNumber : Nat) : Text :=
  origin ++ ":".toList ++ lineNumber.repr.toList ++ ": ".toList

/-- The column the text of the line starts in; a tab there is refused. -/
def readIndent (line : Text) (lineNumber : Nat) (origin : Text) : Except ParseError Nat :=
  match line.dropWhile (· == ' ') with
  | [] => .ok 0
  | c :: _ =>
    if c = '\t' then .error ⟨whereLine origin lineNumber ++ "tab in indentation".toList⟩
    else .ok (line.takeWhile (· == ' ')).length

/-- What a line with content says. -/
structure Content where
  column : Nat
  name : Text
  value : Text
  deriving DecidableEq, Repr

/-- The part of the loop's body that looks at the line alone: nothing for a line
without content, and the three refusals. -/
def readContent (origin : Text) (lineNumber : Nat) (line : Text) :
    Except ParseError (Option Content) :=
  let body := stripComment line
  if trim body = [] then .ok none
  else
    match readIndent body lineNumber origin with
    | .error e => .error e
    | .ok column =>
      match body.dropWhile (· != ':') with
      | [] => .error ⟨whereLine origin lineNumber ++ "not `key: value`".toList⟩
      | _ :: after =>
        let name := trim (body.takeWhile (· != ':'))
        if name = [] then .error ⟨whereLine origin lineNumber ++ "empty key".toList⟩
        else .ok (some { column, name, value := trim after })

/-! ## The loop over the lines -/

/-- `Section_t`: the column its children must exceed, and the prefix they carry. -/
structure Section where
  column : Nat
  pathPrefix : Text
  deriving DecidableEq, Repr

abbrev Entries := Text → Option Text

/-- What the loop carries: the open sections, innermost first, and the entries so far. -/
structure Parsing where
  sections : List Section
  entries : Entries

def Parsing.start : Parsing := { sections := [], entries := fun _ => none }

/-- The prefix of the innermost section. -/
def openPrefix : List Section → Text
  | [] => []
  | innermost :: _ => innermost.pathPrefix

/-- The sections still open at a column. -/
def Parsing.openAt (state : Parsing) (column : Nat) : List Section :=
  Scan.unwind Section.column column state.sections

/-- The path a line is stored under. -/
def Parsing.path (state : Parsing) (line : Content) : Text :=
  openPrefix (state.openAt line.column) ++ line.name

/-- The rest of the loop's body: closes the sections the line is not in, stores
its value, and opens a section when the value is blank. -/
def Parsing.file (state : Parsing) (line : Content) : Parsing where
  sections :=
    if line.value = [] then
      { column := line.column, pathPrefix := state.path line ++ ".".toList } ::
        state.openAt line.column
    else state.openAt line.column
  entries := Function.update state.entries (state.path line) (some (unquote line.value))

def readLine (origin : Text) (lineNumber : Nat) (line : Text) (state : Parsing) :
    Except ParseError Parsing :=
  match readContent origin lineNumber line with
  | .error e => .error e
  | .ok none => .ok state
  | .ok (some content) => .ok (state.file content)

/-- The loop, after `lineNumber` lines. -/
def parseLines (origin : Text) (lineNumber : Nat) (state : Parsing) :
    List Text → Except ParseError Parsing
  | [] => .ok state
  | line :: lines =>
    match readLine origin (lineNumber + 1) line state with
    | .error e => .error e
    | .ok state => parseLines origin (lineNumber + 1) state lines

structure KeyValueConfig where
  entries : Entries
  origin : Text

/-- `parse`, with the lines `std::getline` takes from the input. -/
def parse (input : Text) (origin : Text) : Except ParseError KeyValueConfig :=
  (parseLines origin 0 .start (Scan.pieces '\n' input)).map fun state =>
    { entries := state.entries, origin }

/-! ## Reading what was filed -/

/-- What a getter can throw: a refusal, or what `std::map::at` throws for an absent key. -/
inductive Thrown where
  | parseError (e : ParseError)
  | outOfRange
  deriving DecidableEq, Repr

/-- What `operator>>` leaves behind. -/
structure Extraction where
  value : Nat
  fail : Bool
  eof : Bool
  deriving DecidableEq, Repr

/-- `std::isspace` of the classic locale. -/
def isSpace (c : Char) : Bool :=
  c == ' ' || c == '\t' || c == '\n' || c == '\r' || c == '\x0b' || c == '\x0c'

def numeral (digits : Text) : Nat := digits.foldl (fun n c => 10 * n + (c.toNat - '0'.toNat)) 0

/-- The sign of a field and what follows it. -/
def readSign : Text → Bool × Text
  | '-' :: rest => (true, rest)
  | '+' :: rest => (false, rest)
  | field => (false, field)

/-- Unsigned extraction from a classic-locale stream over the text: leading
blanks are skipped, and the rest is read as `strtoull` reads it, where a minus
sign negates modulo 2⁶⁴ and only a magnitude past 64 bits fails. -/
def extractUnsigned (text : Text) : Extraction :=
  let (negative, field) := readSign (text.dropWhile isSpace)
  let digits := field.takeWhile Char.isDigit
  let eof := (field.dropWhile Char.isDigit).isEmpty
  if digits = [] then { value := 0, fail := true, eof }
  else if 2 ^ 64 ≤ numeral digits then { value := 2 ^ 64 - 1, fail := true, eof }
  else
    { value := if negative then (2 ^ 64 - numeral digits) % 2 ^ 64 else numeral digits
      fail := false
      eof }

/-- A type `get` reads as a number: an unsigned one or a duration's count, by
its value bits. -/
structure NumberType where
  isDuration : Bool
  digits : Nat
  digits_le : digits ≤ 64

/-- `std::numeric_limits<T>::max()`. -/
def NumberType.max (type : NumberType) : Nat := 2 ^ type.digits - 1

namespace KeyValueConfig

def require (config : KeyValueConfig) (key : Text) : Except Thrown Text :=
  match config.entries key with
  | none => .error .outOfRange
  | some text => .ok text

/-- The refusal of a getter: the file, the key, the text and what is wrong with it. -/
def refusal (config : KeyValueConfig) (key raw complaint : Text) : Thrown :=
  .parseError ⟨config.origin ++ ": ".toList ++ key ++ ": `".toList ++ raw ++ complaint⟩

def readWhole (config : KeyValueConfig) (key : Text) (fallback : Nat) : Except Thrown Nat :=
  match config.entries key with
  | none => .ok fallback
  | some raw =>
    if raw = [] then .ok fallback
    else
      let reader := extractUnsigned raw
      if reader.fail ∨ !reader.eof then
        .error (config.refusal key raw "` is not a number".toList)
      else .ok reader.value

/-- `get` at an unsigned type or a duration. A fallback below zero, which only a
duration has, is cast to 64 bits on the way in. -/
def getNumber (config : KeyValueConfig) (type : NumberType) (key : Text) (fallback : Int) :
    Except Thrown Nat := do
  let read ← config.readWhole key (fallback % 2 ^ 64).toNat
  if type.max < read then
    let raw ← config.require key
    throw (config.refusal key raw
      (if type.isDuration then "` is more of them than fit".toList
        else "` does not fit ".toList ++ type.digits.repr.toList ++ " bits".toList))
  else return read

end KeyValueConfig

end Cme.Config
