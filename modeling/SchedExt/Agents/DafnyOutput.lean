import SchedExt.Agents.FileBlocks
import SchedExt.Foundations.Encoding
import SchedExt.Foundations.Scanning

/-!
# Diagnostics in the output of Dafny

The pattern `([^(]+)\((\d+),(\d+)\):\s*(Error|Warning|Info):\s*(.+)` and the two
functions that search the output for it.  The file is all that stands between
the parenthesis and the one before it, or the place where the search went on;
the white space in front of the message gives characters back at the end of the
text only.  The numbers of a match are converted, and `int` raises for more than
4300 digits.
-/

namespace SchedExt.Agents

open Foundations

/-- The words for a level that a pattern knows. -/
inductive Word where
  | error
  | warning
  | info
  deriving DecidableEq

def Word.text : Word → List Char
  | .error => ['E', 'r', 'r', 'o', 'r']
  | .warning => ['W', 'a', 'r', 'n', 'i', 'n', 'g']
  | .info => ['I', 'n', 'f', 'o']

namespace DafnyOutput

/-- `\d` -/
def isDecimal (c : Char) : Bool := (Encoding.decimal c).isSome

/-- `\d+` -/
def number : List Char → Option (List Char × List Char)
  | [] => none
  | c :: text =>
      if isDecimal c then some ((c :: text).takeWhile isDecimal, (c :: text).dropWhile isDecimal)
      else none

/-- `sys.get_int_max_str_digits()` -/
def maxStrDigits : Nat := 4300

/-- `int` of a group of digits; `none` where it raises. -/
def int (group : List Char) : Option Int :=
  if group.length ≤ maxStrDigits then Encoding.readInt group else none

/-- `(Error|Warning|Info):`, with the words in the order of the pattern. -/
def word (words : List Word) (text : List Char) : Option (Word × List Char) :=
  words.findSome? fun word =>
    (FileBlocks.literal (word.text ++ [':']) text).map fun rest => (word, rest)

/-- `.+` -/
def line : List Char → Option (List Char × List Char)
  | [] => none
  | c :: text =>
      if c = '\n' then none
      else some ((c :: text).takeWhile (· ≠ '\n'), (c :: text).dropWhile (· ≠ '\n'))

/-- `\s*(.+)` -/
def message : List Char → Option (List Char × List Char)
  | [] => none
  | c :: text =>
      if Text.isSpace c then (message text).or (line (c :: text)) else line (c :: text)

/-- The groups behind the parenthesis. -/
structure Place where
  line : List Char
  column : List Char
  word : Word
  message : List Char

/-- What stands behind the parenthesis. -/
def place (words : List Word) (text : List Char) : Option (Place × List Char) := do
  let (line, text) ← number text
  let text ← FileBlocks.literal [','] text
  let (column, text) ← number text
  let text ← FileBlocks.literal [')', ':'] text
  let (word, text) ← word words (text.dropWhile Text.isSpace)
  let (message, text) ← message text
  return (⟨line, column, word, message⟩, text)

/-! ## What is behind is shorter -/

theorem length_number {text : List Char} {found : List Char × List Char}
    (read : number text = some found) : found.2.length ≤ text.length := by
  cases text with
  | nil => cases read
  | cons c text =>
      rw [number] at read
      split at read
      · cases read
        exact List.length_dropWhile_le _ (c :: text)
      · cases read

theorem length_word {words : List Word} {text : List Char} {found : Word × List Char}
    (read : word words text = some found) : found.2.length ≤ text.length := by
  obtain ⟨word, _, known⟩ := List.exists_of_findSome?_eq_some read
  obtain ⟨rest, literal, rfl⟩ := Option.map_eq_some_iff.mp known
  have shorter := FileBlocks.length_literal literal
  dsimp only
  omega

theorem length_line {text : List Char} {found : List Char × List Char}
    (read : line text = some found) : found.2.length < text.length := by
  cases text with
  | nil => cases read
  | cons c text =>
      rw [line] at read
      split at read
      · cases read
      · rename_i solid
        obtain rfl := Option.some.inj read
        have shorter := List.length_dropWhile_le (· ≠ '\n') text
        have passes : decide (c ≠ '\n') = true := decide_eq_true solid
        dsimp only
        rw [List.dropWhile_cons, if_pos passes, List.length_cons]
        omega

theorem length_message {text : List Char} {found : List Char × List Char}
    (read : message text = some found) : found.2.length < text.length := by
  induction text with
  | nil => cases read
  | cons c text ih =>
      rw [message] at read
      split at read
      · rcases Option.or_eq_some_iff.mp read with later | ⟨_, here⟩
        · exact (ih later).trans (Nat.lt_succ_self _)
        · exact length_line here
      · exact length_line read

theorem length_place {words : List Word} {text rest : List Char} {found : Place}
    (read : place words text = some (found, rest)) : rest.length < text.length := by
  unfold place at read
  obtain ⟨first, firstEq, afterFirst⟩ := Option.bind_eq_some_iff.mp read
  obtain ⟨comma, commaEq, afterComma⟩ := Option.bind_eq_some_iff.mp afterFirst
  obtain ⟨second, secondEq, afterSecond⟩ := Option.bind_eq_some_iff.mp afterComma
  obtain ⟨colon, colonEq, afterColon⟩ := Option.bind_eq_some_iff.mp afterSecond
  obtain ⟨level, levelEq, afterLevel⟩ := Option.bind_eq_some_iff.mp afterColon
  obtain ⟨body, bodyEq, groups⟩ := Option.bind_eq_some_iff.mp afterLevel
  cases groups
  have numbers := (length_number firstEq).trans' (FileBlocks.length_literal commaEq).le
  have ends := (length_number secondEq).trans' (FileBlocks.length_literal colonEq).le
  have words := length_word levelEq
  have spaces := List.length_dropWhile_le Text.isSpace colon
  have message := length_message bodyEq
  simp only [List.length_cons, List.length_nil] at numbers ends
  omega

/-- The matcher of what stands behind the parenthesis. -/
def placeMatcher (words : List Word) : Matcher Char Place where
  here := place words
  shorter := length_place

/-- The whole pattern. -/
def pattern (words : List Word) : Matcher Char (List Char × Place) :=
  .upTo '(' (placeMatcher words)

end DafnyOutput

/-! ## The two functions -/

inductive DiagnosticLevel where
  | error
  | warning
  | info
  deriving DecidableEq

structure DafnyDiagnostic where
  file : String
  line : Int
  column : Int
  level : DiagnosticLevel
  message : String
  relatedProperty : String := ""
  deriving DecidableEq

/-- `kw in text` -/
def includes (text kw : String) : Bool :=
  text.toList.tails.any fun rest => kw.toList.isPrefixOf rest

/-- `is_proof_failure` -/
def DafnyDiagnostic.isProofFailure (self : DafnyDiagnostic) : Bool :=
  self.level = .error &&
    ["postcondition", "invariant", "assertion", "ensures", "requires"].any fun kw =>
      includes self.message.toLower kw

/-- `level_map.get(word, DiagnosticLevel.INFO)` -/
def levelMap : Word → DiagnosticLevel
  | .error => .error
  | .warning => .warning
  | .info => .info

/-- `str.strip` of a group -/
def stripped (group : List Char) : String := String.ofList (Text.strip id group)

/-- The diagnostic of one match; `none` where a conversion raises. -/
def toDiagnostic (groups : List Char × DafnyOutput.Place) : Option DafnyDiagnostic := do
  let line ← DafnyOutput.int groups.2.line
  let column ← DafnyOutput.int groups.2.column
  return {
    file := stripped groups.1
    line := line
    column := column
    level := levelMap groups.2.word
    message := stripped groups.2.message }

/-- `_parse_dafny_output`; `none` where it raises. -/
def parseDafnyOutput (output : String) : Option (List DafnyDiagnostic) :=
  ((DafnyOutput.pattern [.error, .warning, .info]).findAll output.toList).mapM toDiagnostic

namespace DafnyRunner

/-- The dictionary of one match. -/
structure Entry where
  file : String
  line : Int
  col : Int
  message : String
  deriving DecidableEq

def toEntry (groups : List Char × DafnyOutput.Place) : Option Entry := do
  let line ← DafnyOutput.int groups.2.line
  let col ← DafnyOutput.int groups.2.column
  return {
    file := stripped groups.1
    line := line
    col := col
    message := stripped groups.2.message }

/-- One turn of the loop. -/
def append (lists : List Entry × List Entry) (groups : List Char × DafnyOutput.Place) :
    Option (List Entry × List Entry) := do
  let entry ← toEntry groups
  if groups.2.word = .error then return (lists.1 ++ [entry], lists.2)
  else return (lists.1, lists.2 ++ [entry])

/-- `_parse_diagnostics`: the errors and the warnings; `none` where it raises. -/
def parseDiagnostics (output : String) : Option (List Entry × List Entry) :=
  ((DafnyOutput.pattern [.error, .warning]).findAll output.toList).foldlM append ([], [])

end DafnyRunner

end SchedExt.Agents
