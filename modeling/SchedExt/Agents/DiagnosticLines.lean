import Mathlib.Algebra.BigOperators.Group.List.Basic
import Mathlib.Algebra.Ring.Nat
import SchedExt.Agents.DafnyOutput

/-!
# Diagnostic lines among other output

Whatever stands in front of a diagnostic line goes into its file, back to the
last parenthesis or diagnostic, and a parenthesis of another line that the rest
of the pattern follows makes a diagnostic of its own.  Such a diagnostic takes
in at most one diagnostic line, and then has a longer message than that one, so
what is reported never weighs less than what was to be reported.  A number of a
diagnostic line is converted if `int` takes as many digits.
-/

namespace SchedExt.Agents

open Foundations

/-! ## Lines -/

/-- `FILE(L,C): Error|Warning: MSG` -/
structure DiagnosticLine where
  file : String
  line : Nat
  column : Nat
  word : Word
  message : String
  named : file.toList ≠ []
  unopened : '(' ∉ file.toList
  unclosed : ')' ∉ file.toList
  fileUnbroken : '\n' ∉ file.toList
  fileTrimmed : Text.strip id file.toList = file.toList
  severe : word ≠ .info
  worded : message.toList ≠ []
  unbroken : '\n' ∉ message.toList
  trimmed : Text.strip id message.toList = message.toList

inductive OutputLine where
  | diagnostic (line : DiagnosticLine)
  | other (text : String) (unbroken : '\n' ∉ text.toList)

/-- What stands behind the parenthesis. -/
def DiagnosticLine.located (self : DiagnosticLine) : List Char :=
  Nat.toDigits 10 self.line ++ (',' :: (Nat.toDigits 10 self.column ++
    (')' :: ':' :: ' ' :: (self.word.text ++ (':' :: ' ' :: self.message.toList)))))

def OutputLine.text : OutputLine → List Char
  | .diagnostic line => line.file.toList ++ '(' :: line.located
  | .other text _ => text.toList

/-- The lines behind a first one, each with the line feed in front of it. -/
def following (lines : List OutputLine) : List Char :=
  lines.flatMap fun line => '\n' :: line.text

/-- `"\n".join(lines)` -/
def joined : List OutputLine → List Char
  | [] => []
  | line :: rest => line.text ++ following rest

/-- The numbers have no more digits than `int` takes. -/
def DiagnosticLine.Convertible (self : DiagnosticLine) : Prop :=
  (Nat.toDigits 10 self.line).length ≤ DafnyOutput.maxStrDigits ∧
    (Nat.toDigits 10 self.column).length ≤ DafnyOutput.maxStrDigits

/-- The numbers of all diagnostic lines have no more digits than `int` takes. -/
def Convertible (lines : List OutputLine) : Prop :=
  ∀ line, .diagnostic line ∈ lines → line.Convertible

/-- What a diagnostic line says. -/
def DiagnosticLine.diagnostic (self : DiagnosticLine) : DafnyDiagnostic where
  file := self.file
  line := self.line
  column := self.column
  level := levelMap self.word
  message := self.message

def OutputLine.diagnostic? : OutputLine → Option DafnyDiagnostic
  | .diagnostic line => some line.diagnostic
  | .other _ _ => none

/-- The diagnostics of the diagnostic lines. -/
def diagnostics (lines : List OutputLine) : List DafnyDiagnostic :=
  lines.filterMap OutputLine.diagnostic?

/-- What one match says, with the digits of its numbers. -/
structure Report where
  file : String
  line : List Char
  column : List Char
  word : Word
  message : String
  deriving DecidableEq

def DiagnosticLine.report (self : DiagnosticLine) : Report where
  file := self.file
  line := Nat.toDigits 10 self.line
  column := Nat.toDigits 10 self.column
  word := self.word
  message := self.message

def OutputLine.report? : OutputLine → Option Report
  | .diagnostic line => some line.report
  | .other _ _ => none

/-- The matches of the diagnostic lines. -/
def expected (lines : List OutputLine) : List Report :=
  lines.filterMap OutputLine.report?

/-- What a match says. -/
def report (groups : List Char × DafnyOutput.Place) : Report where
  file := stripped groups.1
  line := groups.2.line
  column := groups.2.column
  word := groups.2.word
  message := stripped groups.2.message

/-- What a search of the text reports. -/
def reported (words : List Word) (text : List Char) : List Report :=
  ((DafnyOutput.pattern words).findAll text).map report

/-! ## Separation -/

/--
What is left in front of the next line when another line is passed, from what
was left in front of it; `none` if a parenthesis makes a diagnostic.
-/
def crossed (words : List Word) : List Char → List Char → List Char → Option (List Char)
  | pending, [], _ => some pending
  | pending, c :: line, behind =>
      if c = '(' then
        if pending ≠ [] ∧ (DafnyOutput.place words (line ++ behind)).isSome then none
        else crossed words [] line behind
      else crossed words (pending ++ [c]) line behind

/--
Only white space is left in front of every diagnostic line, and no parenthesis
of another line makes a diagnostic.
-/
def separated (words : List Word) : List Char → List OutputLine → Bool
  | _, [] => true
  | pending, .diagnostic _ :: rest => pending.all Text.isSpace && separated words ['\n'] rest
  | pending, .other text _ :: rest =>
      match crossed words pending text.toList (following rest) with
      | none => false
      | some left => separated words (left ++ ['\n']) rest

namespace DafnyOutput

variable {words : List Word} {text rest : List Char}

/-- The text ends, or its line does. -/
def Ends (text : List Char) : Prop := ∀ c ∈ text.head?, c = '\n'

theorem ends_following (lines : List OutputLine) : Ends (following lines) := by
  cases lines with
  | nil => exact fun _ impossible => nomatch impossible
  | cons line rest =>
      rintro c ⟨rfl⟩
      rfl

/-- Where two lines end is the same place. -/
theorem line_unique {first second behind after : List Char} (unbroken : '\n' ∉ first)
    (whole : '\n' ∉ second) (ends : Ends behind) (stops : Ends after)
    (same : first ++ behind = second ++ after) : first = second ∧ behind = after := by
  induction first generalizing second with
  | nil =>
      cases second with
      | nil => exact ⟨rfl, same⟩
      | cons c second =>
          rw [List.nil_append, List.cons_append] at same
          have feed : c = '\n' := ends c (by rw [same]; rfl)
          exact absurd (feed ▸ List.mem_cons_self) whole
  | cons c first ih =>
      cases second with
      | nil =>
          rw [List.nil_append, List.cons_append] at same
          have feed : c = '\n' := stops c (by rw [← same]; rfl)
          exact absurd (feed ▸ List.mem_cons_self) unbroken
      | cons other second =>
          rw [List.cons_append, List.cons_append] at same
          obtain ⟨rfl, later⟩ := List.cons.inj same
          obtain ⟨rfl, rfl⟩ := ih (fun member => unbroken (List.mem_cons_of_mem c member))
            (fun member => whole (List.mem_cons_of_mem c member)) later
          exact ⟨rfl, rfl⟩

/-! ## A diagnostic line is matched -/

theorem number_toDigits (n : Nat) (stops : ∀ c ∈ rest.head?, isDecimal c = false) :
    number (Nat.toDigits 10 n ++ rest) = some (Nat.toDigits 10 n, rest) := by
  have all : ∀ c ∈ Nat.toDigits 10 n, isDecimal c = true := by
    intro c member
    have digit := Nat.isDigit_of_mem_toDigits (by decide) (by decide) member
    rw [isDecimal, Encoding.decimal_of_isDigit digit]
    rfl
  have none : rest.takeWhile isDecimal = [] ∧ rest.dropWhile isDecimal = rest := by
    cases rest with
    | nil => exact ⟨rfl, rfl⟩
    | cons c rest =>
        rw [List.takeWhile_cons, List.dropWhile_cons, stops c rfl]
        exact ⟨rfl, rfl⟩
  have taken : (Nat.toDigits 10 n ++ rest).takeWhile isDecimal = Nat.toDigits 10 n := by
    rw [List.takeWhile_append_of_pos all, none.1, List.append_nil]
  have dropped : (Nat.toDigits 10 n ++ rest).dropWhile isDecimal = rest := by
    rw [List.dropWhile_append_of_pos all, none.2]
  obtain ⟨c, more, shown⟩ := List.exists_cons_of_ne_nil (Nat.toDigits_ne_nil (b := 10) (n := n))
  rw [shown] at all taken dropped ⊢
  rw [List.cons_append] at taken dropped ⊢
  rw [number, if_pos (all c List.mem_cons_self), taken, dropped]

theorem int_toDigits (n : Nat) :
    int (Nat.toDigits 10 n) =
      if (Nat.toDigits 10 n).length ≤ maxStrDigits then some (n : Int) else none := by
  rw [int, Encoding.readInt_toDigits]

theorem word_text {known : Word} (listed : known ∈ words) (rest : List Char) :
    word words (known.text ++ ':' :: rest) = some (known, rest) := by
  have matched : FileBlocks.literal (known.text ++ [':']) (known.text ++ ':' :: rest) =
      some rest := by
    have literal := FileBlocks.literal_append (known.text ++ [':']) rest
    rw [List.append_assoc] at literal
    exact literal
  induction words with
  | nil => cases listed
  | cons first words ih =>
      unfold word at ih ⊢
      rw [List.findSome?_cons]
      by_cases same : first = known
      · rw [same, matched]
        rfl
      · have fails : FileBlocks.literal (first.text ++ [':']) (known.text ++ ':' :: rest) =
            none := by
          cases first <;> cases known <;> first | rfl | exact absurd rfl same
        rw [fails]
        exact ih ((List.mem_cons.mp listed).resolve_left (Ne.symm same))

/-- A trimmed text begins with something to see. -/
theorem head_of_trimmed {text : List Char} (trimmed : Text.strip id text = text) :
    ∀ c ∈ text.head?, Text.isSpace c = false := by
  cases text with
  | nil => exact fun _ impossible => nomatch impossible
  | cons c text =>
      rintro first ⟨rfl⟩
      by_contra space
      have passes : Text.isSpace (id c) = true := Bool.not_eq_false _ ▸ space
      have size := congrArg List.length trimmed
      have shorter := (List.rdropWhile_prefix (fun sign => Text.isSpace (id sign))
        (l := (c :: text).dropWhile fun sign => Text.isSpace (id sign))).length_le
      have dropped := List.length_dropWhile_le (fun sign => Text.isSpace (id sign)) text
      rw [Text.strip] at size
      rw [List.dropWhile_cons, if_pos passes] at size shorter
      rw [List.length_cons] at size
      omega

theorem line_append {body : List Char} (nonempty : body ≠ []) (unbroken : '\n' ∉ body)
    (ends : Ends rest) : line (body ++ rest) = some (body, rest) := by
  have passes : ∀ c ∈ body, decide (c ≠ '\n') = true := by
    intro c member
    exact decide_eq_true fun feed => unbroken (feed ▸ member)
  have stops : rest.takeWhile (· ≠ '\n') = [] ∧ rest.dropWhile (· ≠ '\n') = rest := by
    cases rest with
    | nil => exact ⟨rfl, rfl⟩
    | cons c rest =>
        rw [ends c rfl]
        exact ⟨rfl, rfl⟩
  have taken : (body ++ rest).takeWhile (· ≠ '\n') = body := by
    rw [List.takeWhile_append_of_pos passes, stops.1, List.append_nil]
  have dropped : (body ++ rest).dropWhile (· ≠ '\n') = rest := by
    rw [List.dropWhile_append_of_pos passes, stops.2]
  obtain ⟨c, more, rfl⟩ := List.exists_cons_of_ne_nil nonempty
  have other : c ≠ '\n' := fun feed => unbroken (feed ▸ List.mem_cons_self)
  rw [List.cons_append] at taken dropped ⊢
  rw [line, if_neg other, taken, dropped]

theorem message_of_trimmed {body : List Char} (nonempty : body ≠ []) (unbroken : '\n' ∉ body)
    (trimmed : Text.strip id body = body) (ends : Ends rest) :
    message (' ' :: (body ++ rest)) = some (body, rest) := by
  have whole := line_append nonempty unbroken ends
  have first := head_of_trimmed trimmed
  have space : Text.isSpace ' ' = true := by decide
  obtain ⟨c, more, rfl⟩ := List.exists_cons_of_ne_nil nonempty
  have solid := first c rfl
  rw [List.cons_append] at whole ⊢
  rw [message, if_pos space, message, solid, whole]
  rfl

theorem located_append (diagnostic : DiagnosticLine) (rest : List Char) :
    diagnostic.located ++ rest =
      Nat.toDigits 10 diagnostic.line ++ (',' :: (Nat.toDigits 10 diagnostic.column ++
        (')' :: ':' :: ' ' :: (diagnostic.word.text ++
          (':' :: ' ' :: (diagnostic.message.toList ++ rest)))))) := by
  simp only [DiagnosticLine.located, List.append_assoc, List.cons_append]

/-- Behind the parenthesis of a diagnostic line its rest is matched, up to the end of the line. -/
theorem place_located (diagnostic : DiagnosticLine) (listed : diagnostic.word ∈ words)
    (ends : Ends rest) :
    place words (diagnostic.located ++ rest) =
      some (⟨Nat.toDigits 10 diagnostic.line, Nat.toDigits 10 diagnostic.column,
        diagnostic.word, diagnostic.message.toList⟩, rest) := by
  let spoken := ' ' :: (diagnostic.message.toList ++ rest)
  let worded := ' ' :: (diagnostic.word.text ++ ':' :: spoken)
  let placed := Nat.toDigits 10 diagnostic.column ++ (')' :: ':' :: worded)
  have first : number (Nat.toDigits 10 diagnostic.line ++ ',' :: placed) =
      some (Nat.toDigits 10 diagnostic.line, ',' :: placed) :=
    number_toDigits diagnostic.line (by rintro c ⟨rfl⟩; decide)
  have comma : FileBlocks.literal [','] (',' :: placed) = some placed :=
    FileBlocks.literal_append [','] placed
  have second : number placed =
      some (Nat.toDigits 10 diagnostic.column, ')' :: ':' :: worded) :=
    number_toDigits diagnostic.column (by rintro c ⟨rfl⟩; decide)
  have colon : FileBlocks.literal [')', ':'] (')' :: ':' :: worded) = some worded :=
    FileBlocks.literal_append [')', ':'] worded
  have spaced : worded.dropWhile Text.isSpace = diagnostic.word.text ++ ':' :: spoken := by
    dsimp only [worded]
    cases diagnostic.word <;> rfl
  have known : word words (diagnostic.word.text ++ ':' :: spoken) =
      some (diagnostic.word, spoken) := word_text listed spoken
  have body : message spoken = some (diagnostic.message.toList, rest) :=
    message_of_trimmed diagnostic.worded diagnostic.unbroken diagnostic.trimmed ends
  have whole : diagnostic.located ++ rest =
      Nat.toDigits 10 diagnostic.line ++ ',' :: placed := located_append diagnostic rest
  unfold place
  rw [whole, first]
  dsimp only [Option.bind_eq_bind, Option.bind_some]
  rw [comma]
  dsimp only [Option.bind_some]
  rw [second]
  dsimp only [Option.bind_some]
  rw [colon]
  dsimp only [Option.bind_some]
  rw [spaced, known]
  dsimp only [Option.bind_some]
  rw [body]
  rfl

/-! ## What a match takes -/

theorem number_split {group : List Char} (read : number text = some (group, rest)) :
    text = group ++ rest ∧ '(' ∉ group := by
  cases text with
  | nil => cases read
  | cons c text =>
      rw [number] at read
      split at read
      · cases read
        refine ⟨List.takeWhile_append_dropWhile.symm, fun member => ?_⟩
        have digit : isDecimal '(' = true := List.mem_takeWhile_imp member
        exact absurd digit (by decide)
      · cases read

theorem word_split {known : Word} (read : word words text = some (known, rest)) :
    ∃ run, text = run ++ rest ∧ '(' ∉ run := by
  obtain ⟨first, _, matched⟩ := List.exists_of_findSome?_eq_some read
  obtain ⟨after, literal, groups⟩ := Option.map_eq_some_iff.mp matched
  cases groups
  refine ⟨_, FileBlocks.eq_append_of_literal literal, ?_⟩
  cases known <;> decide

theorem line_split {body : List Char} (read : line text = some (body, rest)) :
    text = body ++ rest ∧ '\n' ∉ body ∧ Ends rest := by
  cases text with
  | nil => cases read
  | cons c text =>
      rw [line] at read
      split at read
      · cases read
      · cases read
        refine ⟨List.takeWhile_append_dropWhile.symm, fun member => ?_, fun first found => ?_⟩
        · have passed := List.mem_takeWhile_imp member
          exact of_decide_eq_true passed rfl
        · have stopped := List.head?_dropWhile_not (fun sign => decide (sign ≠ '\n')) (c :: text)
          rw [Option.mem_def.mp found] at stopped
          exact not_not.mp (of_decide_eq_false stopped)

theorem message_split {body : List Char} (read : message text = some (body, rest)) :
    ∃ run, text = run ++ (body ++ rest) ∧ '(' ∉ run ∧ '\n' ∉ body ∧ Ends rest := by
  induction text with
  | nil => cases read
  | cons c text ih =>
      rw [message] at read
      have here (found : line (c :: text) = some (body, rest)) :
          ∃ run, c :: text = run ++ (body ++ rest) ∧ '(' ∉ run ∧ '\n' ∉ body ∧ Ends rest :=
        ⟨[], (line_split found).1, List.not_mem_nil, (line_split found).2⟩
      split at read
      · rename_i space
        rcases Option.or_eq_some_iff.mp read with later | ⟨_, found⟩
        · obtain ⟨run, split, unopened, ends⟩ := ih later
          refine ⟨c :: run, by rw [split, List.cons_append], ?_, ends⟩
          intro member
          rcases List.mem_cons.mp member with same | inRun
          · rw [← same] at space
            exact absurd space (by decide)
          · exact unopened inRun
        · exact here found
      · exact here read

/-- A match has no further parenthesis in front of its message, which is within a line. -/
theorem place_split {found : Place} (read : place words text = some (found, rest)) :
    ∃ head, text = head ++ (found.message ++ rest) ∧ '(' ∉ head ∧ '\n' ∉ found.message ∧
      Ends rest := by
  unfold place at read
  obtain ⟨⟨first, comma⟩, firstEq, afterFirst⟩ := Option.bind_eq_some_iff.mp read
  obtain ⟨second, commaEq, afterComma⟩ := Option.bind_eq_some_iff.mp afterFirst
  obtain ⟨⟨column, colon⟩, secondEq, afterSecond⟩ := Option.bind_eq_some_iff.mp afterComma
  obtain ⟨spaced, colonEq, afterColon⟩ := Option.bind_eq_some_iff.mp afterSecond
  obtain ⟨⟨level, spoken⟩, levelEq, afterLevel⟩ := Option.bind_eq_some_iff.mp afterColon
  obtain ⟨⟨body, behind⟩, bodyEq, groups⟩ := Option.bind_eq_some_iff.mp afterLevel
  cases groups
  obtain ⟨firstSplit, firstOpen⟩ := number_split firstEq
  obtain ⟨secondSplit, secondOpen⟩ := number_split secondEq
  obtain ⟨levelRun, levelSplit, levelOpen⟩ := word_split levelEq
  obtain ⟨bodyRun, bodySplit, bodyOpen, ends⟩ := message_split bodyEq
  have spaces : spaced = spaced.takeWhile Text.isSpace ++ spaced.dropWhile Text.isSpace :=
    List.takeWhile_append_dropWhile.symm
  have spacesOpen : '(' ∉ spaced.takeWhile Text.isSpace := by
    intro member
    have space : Text.isSpace '(' = true := List.mem_takeWhile_imp member
    exact absurd space (by decide)
  refine ⟨first ++ ([','] ++ (column ++ ([')', ':'] ++
    (spaced.takeWhile Text.isSpace ++ (levelRun ++ bodyRun))))), ?_, ?_, ends⟩
  · simp only [List.append_assoc]
    rw [firstSplit, FileBlocks.eq_append_of_literal commaEq, secondSplit,
      FileBlocks.eq_append_of_literal colonEq, ← bodySplit, ← levelSplit, ← spaces]
  · simp only [List.mem_append, not_or]
    exact ⟨firstOpen, by decide, secondOpen, by decide, spacesOpen, levelOpen, bodyOpen⟩

end DafnyOutput

/-! ## Weights -/

/-- How many characters of a text are no white space. -/
def visible (text : List Char) : Nat := text.countP fun c => !Text.isSpace c

/-- One for every diagnostic, and what its message shows. -/
def weight (reports : List Report) : Nat :=
  (reports.map fun report => 1 + visible report.message.toList).sum

theorem visible_append (front back : List Char) :
    visible (front ++ back) = visible front + visible back :=
  List.countP_append

theorem visible_cons {c : Char} (solid : Text.isSpace c = false) (text : List Char) :
    visible (c :: text) = visible text + 1 :=
  List.countP_cons_of_pos (by rw [solid]; rfl)

theorem visible_strip (text : List Char) : visible (Text.strip id text) = visible text :=
  Text.countP_solid_strip text

theorem visible_eq_zero_iff {text : List Char} :
    visible text = 0 ↔ text.all Text.isSpace = true := by
  unfold visible
  rw [List.countP_eq_zero, List.all_eq_true]
  refine forall₂_congr fun c _ => ?_
  cases Text.isSpace c <;> decide

theorem weight_cons (first : Report) (rest : List Report) :
    weight (first :: rest) = 1 + visible first.message.toList + weight rest := by
  unfold weight
  rw [List.map_cons, List.sum_cons]

theorem expected_diagnostic (line : DiagnosticLine) (rest : List OutputLine) :
    expected (.diagnostic line :: rest) = line.report :: expected rest := rfl

theorem expected_other (text : String) (unbroken : '\n' ∉ text.toList)
    (rest : List OutputLine) : expected (.other text unbroken :: rest) = expected rest := rfl

theorem following_cons (line : OutputLine) (rest : List OutputLine) :
    following (line :: rest) = '\n' :: (line.text ++ following rest) := rfl

/-- A text that goes on to the end of a diagnostic line from before its parenthesis. -/
theorem visible_message_lt (line : DiagnosticLine) (front : List Char) :
    visible line.message.toList < visible (front ++ '(' :: line.located) := by
  have ends : ∃ shown, line.located = shown ++ line.message.toList := by
    refine ⟨Nat.toDigits 10 line.line ++ (',' :: (Nat.toDigits 10 line.column ++
      (')' :: ':' :: ' ' :: (line.word.text ++ [':', ' '])))), ?_⟩
    simp only [DiagnosticLine.located, List.append_assoc, List.cons_append, List.nil_append]
  obtain ⟨shown, located⟩ := ends
  rw [located, visible_append, visible_cons (by decide), visible_append]
  omega

namespace DafnyOutput

theorem newline_notMem_located (line : DiagnosticLine) : '\n' ∉ line.located := by
  have digits : ∀ n : Nat, '\n' ∉ Nat.toDigits 10 n := by
    intro n member
    have digit := Nat.isDigit_of_mem_toDigits (by decide) (by decide) member
    exact absurd digit (by decide)
  have word : '\n' ∉ line.word.text := by
    cases line.word <;> decide
  unfold DiagnosticLine.located
  simp only [List.mem_append, List.mem_cons, not_or]
  exact ⟨digits _, by decide, digits _, by decide, by decide, by decide, word, by decide,
    by decide, line.unbroken⟩

/-- The rest of the lines weighs less than a match that ends with the line it is in. -/
theorem consumed_in_line {lines : List OutputLine} {line body behind : List Char}
    (unbroken : '\n' ∉ line) (within : '\n' ∉ body) (ends : Ends behind)
    (same : body ++ behind = line ++ following lines) :
    ∃ later, later.length ≤ lines.length ∧ behind = following later ∧
      weight (expected lines) < 1 + visible body + weight (expected later) := by
  obtain ⟨_, rfl⟩ := line_unique within unbroken ends (ends_following lines) same
  exact ⟨lines, Nat.le_refl _, rfl, by omega⟩

/-- A match that reaches into a diagnostic line, but not with its head, outweighs it. -/
theorem consumed_diagnostic {lines : List OutputLine} {line : DiagnosticLine}
    {head body behind : List Char} (unopened : '(' ∉ head) (within : '\n' ∉ body)
    (ends : Ends behind)
    (same : head ++ (body ++ behind) = (OutputLine.diagnostic line).text ++ following lines) :
    behind = following lines ∧ visible line.message.toList < visible body := by
  have parts : ∃ rest, '\n' ∉ rest ∧
      body ++ behind = rest ++ '(' :: line.located ++ following lines := by
    unfold OutputLine.text at same
    rw [List.append_assoc] at same
    rcases List.append_eq_append_iff.mp same with ⟨rest, file, shared⟩ | ⟨more, split, shared⟩
    · refine ⟨rest, fun member => line.fileUnbroken ?_, ?_⟩
      · rw [file]
        exact List.mem_append_right head member
      · rw [shared, List.append_assoc]
    · cases more with
      | nil => exact ⟨[], List.not_mem_nil, shared.symm⟩
      | cons c more =>
          rw [List.cons_append, List.cons_append] at shared
          have opens := (List.cons.inj shared).1
          refine absurd ?_ unopened
          rw [split, ← opens]
          exact List.mem_append_right _ List.mem_cons_self
  obtain ⟨rest, unbroken, shared⟩ := parts
  have inLine : '\n' ∉ rest ++ '(' :: line.located := by
    rw [List.mem_append, List.mem_cons, not_or, not_or]
    exact ⟨unbroken, by decide, newline_notMem_located line⟩
  obtain ⟨rfl, rfl⟩ := line_unique within inLine ends (ends_following lines) shared
  exact ⟨rfl, visible_message_lt line rest⟩

/--
Lines that a match reaches into: the match ends where one of them does, and
what was to be reported of them up to there weighs less than the match.
-/
theorem consumed {lines : List OutputLine} {front head body behind : List Char}
    (unbroken : '\n' ∉ front) (unopened : '(' ∉ head) (within : '\n' ∉ body)
    (ends : Ends behind) (whole : head ++ (body ++ behind) = front ++ following lines) :
    ∃ later, later.length ≤ lines.length ∧ behind = following later ∧
      weight (expected lines) < 1 + visible body + weight (expected later) := by
  induction lines generalizing front head with
  | nil =>
      rcases List.append_eq_append_iff.mp whole with ⟨rest, split, same⟩ | ⟨more, _, same⟩
      · refine consumed_in_line (fun member => unbroken ?_) within ends same
        rw [split]
        exact List.mem_append_right head member
      · have nothing := (List.append_eq_nil_iff.mp same.symm).2
        exact consumed_in_line List.not_mem_nil within ends nothing
  | cons line lines ih =>
      rcases List.append_eq_append_iff.mp whole with ⟨rest, split, same⟩ | ⟨more, split, same⟩
      · refine consumed_in_line (fun member => unbroken ?_) within ends same
        rw [split]
        exact List.mem_append_right head member
      · cases more with
        | nil => exact consumed_in_line List.not_mem_nil within ends same.symm
        | cons c more =>
            rw [following_cons, List.cons_append] at same
            have onward := (List.cons.inj same).2
            have moreUnopened : '(' ∉ more := by
              intro member
              apply unopened
              rw [split]
              exact List.mem_append_right front (List.mem_cons_of_mem c member)
            cases line with
            | other text textUnbroken =>
                obtain ⟨later, shorter, rest, lighter⟩ :=
                  ih textUnbroken moreUnopened onward.symm
                exact ⟨later, shorter.trans (Nat.le_succ _), rest, lighter⟩
            | diagnostic line =>
                obtain ⟨rest, longer⟩ := consumed_diagnostic moreUnopened within ends onward.symm
                refine ⟨lines, Nat.le_succ _, rest, ?_⟩
                have message : line.report.message = line.message := rfl
                rw [expected_diagnostic, weight_cons, message]
                omega

/-! ## Passing a line -/

variable {lines : List OutputLine} {pending left front : List Char}

/-- A parenthesis that makes no diagnostic is passed. -/
theorem findAll_mark_of_none (unopened : '(' ∉ pending)
    (decided : ¬ (pending ≠ [] ∧ (place words rest).isSome)) :
    (pattern words).findAll (pending ++ '(' :: rest) = (pattern words).findAll rest := by
  have step : (pattern words).findAll (pending ++ '(' :: rest) = _ :=
    Matcher.findAll_upTo_append unopened rest
  by_cases empty : pending = []
  · rw [if_pos empty] at step
    exact step
  · have absent : (placeMatcher words).here rest = none :=
      Option.not_isSome_iff_eq_none.mp fun some => decided ⟨empty, some⟩
    rw [if_neg empty, absent] at step
    exact step

theorem findAll_mark_of_some {found : Place × List Char} (unopened : '(' ∉ pending)
    (started : pending ≠ []) (decided : place words rest = some found) :
    (pattern words).findAll (pending ++ '(' :: rest) =
      (pending, found.1) :: (pattern words).findAll found.2 := by
  have step : (pattern words).findAll (pending ++ '(' :: rest) = _ :=
    Matcher.findAll_upTo_append unopened rest
  have here : (placeMatcher words).here rest = some found := decided
  rw [if_neg started, here] at step
  exact step

theorem notMem_concat {c : Char} (unopened : '(' ∉ pending) (other : ¬ c = '(') :
    '(' ∉ pending ++ [c] := by
  intro member
  rcases List.mem_append.mp member with before | last
  · exact unopened before
  · exact other (List.mem_singleton.mp last).symm

/-- Another line that is passed leaves what is in front of the next one. -/
theorem findAll_of_crossed (unopened : '(' ∉ pending)
    (passed : crossed words pending front rest = some left) :
    '(' ∉ left ∧
      (pattern words).findAll (pending ++ (front ++ rest)) =
        (pattern words).findAll (left ++ rest) := by
  induction front generalizing pending with
  | nil =>
      obtain rfl := Option.some.inj passed
      exact ⟨unopened, rfl⟩
  | cons c front ih =>
      rw [crossed] at passed
      split at passed
      · rename_i opens
        split at passed
        · cases passed
        · rename_i undecided
          obtain ⟨stays, same⟩ := ih List.not_mem_nil passed
          refine ⟨stays, ?_⟩
          rw [opens, List.cons_append, findAll_mark_of_none unopened undecided, ← same]
          rfl
      · rename_i other
        obtain ⟨stays, same⟩ := ih (notMem_concat unopened other) passed
        refine ⟨stays, ?_⟩
        rw [List.append_assoc] at same
        exact same

/-- Another line that is not passed has a parenthesis that makes a diagnostic. -/
theorem findAll_of_not_crossed (unopened : '(' ∉ pending)
    (stopped : crossed words pending front rest = none) :
    ∃ seen inside found, inside <:+ front ∧ place words (inside ++ rest) = some found ∧
      (pattern words).findAll (pending ++ (front ++ rest)) =
        (seen, found.1) :: (pattern words).findAll found.2 := by
  induction front generalizing pending with
  | nil => cases stopped
  | cons c front ih =>
      rw [crossed] at stopped
      split at stopped
      · rename_i opens
        split at stopped
        · rename_i decided
          obtain ⟨found, here⟩ := Option.isSome_iff_exists.mp decided.2
          refine ⟨pending, front, found, List.suffix_cons c front, here, ?_⟩
          rw [opens, List.cons_append, findAll_mark_of_some unopened decided.1 here]
        · rename_i undecided
          obtain ⟨seen, inside, found, suffix, here, same⟩ := ih List.not_mem_nil stopped
          refine ⟨seen, inside, found, suffix.trans (List.suffix_cons c front), here, ?_⟩
          rw [opens, List.cons_append, findAll_mark_of_none unopened undecided, ← same]
          rfl
      · rename_i other
        obtain ⟨seen, inside, found, suffix, here, same⟩ :=
          ih (notMem_concat unopened other) stopped
        refine ⟨seen, inside, found, suffix.trans (List.suffix_cons c front), here, ?_⟩
        rw [List.append_assoc] at same
        exact same

/-- What follows is searched as the lines behind a line feed. -/
theorem findAll_following (unopened : '(' ∉ pending) (lines : List OutputLine) :
    (pattern words).findAll (pending ++ following lines) =
      (pattern words).findAll (pending ++ ['\n'] ++ joined lines) := by
  cases lines with
  | nil =>
      have behind := notMem_concat unopened (by decide : ¬ '\n' = '(')
      have first : (pattern words).findAll pending = [] :=
        Matcher.findAll_upTo_of_notMem unopened
      have second : (pattern words).findAll (pending ++ ['\n']) = [] :=
        Matcher.findAll_upTo_of_notMem behind
      unfold following joined
      rw [List.flatMap_nil, List.append_nil, List.append_nil, first, second]
  | cons line rest =>
      unfold joined
      rw [following_cons, List.append_assoc]
      rfl

/-- A diagnostic line is found, with all that is in front of it in its file. -/
theorem findAll_diagnostic (line : DiagnosticLine) (listed : line.word ∈ words)
    (unopened : '(' ∉ pending) (rest : List OutputLine) :
    (pattern words).findAll (pending ++ joined (.diagnostic line :: rest)) =
      (pending ++ line.file.toList,
          ⟨Nat.toDigits 10 line.line, Nat.toDigits 10 line.column, line.word,
            line.message.toList⟩) ::
        (pattern words).findAll (following rest) := by
  have absent : '(' ∉ pending ++ line.file.toList := by
    rw [List.mem_append, not_or]
    exact ⟨unopened, line.unopened⟩
  have started : pending ++ line.file.toList ≠ [] := fun empty =>
    line.named (List.append_eq_nil_iff.mp empty).2
  have located := place_located line listed (ends_following rest)
  have shape : pending ++ joined (.diagnostic line :: rest) =
      pending ++ line.file.toList ++ '(' :: (line.located ++ following rest) := by
    rw [joined, OutputLine.text]
    simp only [List.append_assoc, List.cons_append]
  rw [shape, findAll_mark_of_some absent started located]

end DafnyOutput

/-! ## What is reported -/

open DafnyOutput

/-- What a search of the lines reports, beside what was to be reported. -/
inductive Outcome (separated : Bool) (found wanted : List Report) : Prop where
  | recovered (apart : separated = true) (same : found = wanted)
  | outweighed (mixed : separated = false) (heavier : weight wanted < weight found)
  | misplaced (mixed : separated = false)
      (differs : found.map Report.file ≠ wanted.map Report.file)
      (words : found.map Report.word = wanted.map Report.word)
      (weights : weight found = weight wanted)

theorem Outcome.weight_le {separated : Bool} {found wanted : List Report}
    (outcome : Outcome separated found wanted) : weight wanted ≤ weight found := by
  cases outcome with
  | recovered apart same => rw [same]
  | outweighed mixed heavier => exact heavier.le
  | misplaced mixed differs words weights => exact weights.ge

/-- A report that may differ in its file comes in front of all others. -/
theorem Outcome.cons {separated blank : Bool} {found wanted : List Report} {first second : Report}
    (outcome : Outcome separated found wanted) (word : first.word = second.word)
    (message : first.message = second.message) (equal : blank = true → first = second)
    (misplaced : blank = false → first.file ≠ second.file) :
    Outcome (blank && separated) (first :: found) (second :: wanted) := by
  have equalWeights (weights : weight found = weight wanted) :
      weight (first :: found) = weight (second :: wanted) := by
    rw [weight_cons, weight_cons, message, weights]
  have equalWords (words : found.map Report.word = wanted.map Report.word) :
      (first :: found).map Report.word = (second :: wanted).map Report.word := by
    rw [List.map_cons, List.map_cons, word, words]
  cases outcome with
  | recovered apart same =>
      cases blank with
      | true => exact .recovered (by rw [apart]; rfl) (by rw [equal rfl, same])
      | false =>
          refine .misplaced rfl ?_ (equalWords (by rw [same])) (equalWeights (by rw [same]))
          exact fun lists => misplaced rfl (List.cons.inj lists).1
  | outweighed mixed heavier =>
      refine .outweighed (by rw [mixed, Bool.and_false]) ?_
      rw [weight_cons, weight_cons, message]
      omega
  | misplaced mixed differs words weights =>
      refine .misplaced (by rw [mixed, Bool.and_false]) ?_ (equalWords words)
        (equalWeights weights)
      exact fun lists => differs (List.cons.inj lists).2

/-- The file of a diagnostic line is found as it is if only white space is in front of it. -/
theorem stripped_file_iff (line : DiagnosticLine) (pending : List Char) :
    stripped (pending ++ line.file.toList) = line.file ↔ pending.all Text.isSpace = true := by
  unfold stripped
  rw [← String.toList_inj, String.toList_ofList]
  constructor
  · intro same
    have shown := congrArg visible same
    rw [visible_strip, visible_append] at shown
    exact visible_eq_zero_iff.mp (by omega)
  · intro blank
    have around := Text.strip_append id (List.all_eq_true.mp blank) (List.forall_mem_nil _)
      line.file.toList
    rw [List.append_nil] at around
    rw [around, line.fileTrimmed]

/-- The report of a diagnostic line with something in front of it. -/
theorem report_diagnostic (line : DiagnosticLine) (pending : List Char) :
    report (pending ++ line.file.toList,
        ⟨Nat.toDigits 10 line.line, Nat.toDigits 10 line.column, line.word,
          line.message.toList⟩) =
      { line.report with file := stripped (pending ++ line.file.toList) } := by
  have message : stripped line.message.toList = line.message := by
    unfold stripped
    rw [line.trimmed, String.ofList_toList]
  unfold report DiagnosticLine.report
  rw [message]

/-- Behind a match or another line the search goes on at the line feed. -/
theorem reported_following (words : List Word) {pending : List Char} (unopened : '(' ∉ pending)
    (lines : List OutputLine) :
    ((pattern words).findAll (pending ++ following lines)).map report =
      reported words (pending ++ ['\n'] ++ joined lines) := by
  rw [reported, findAll_following unopened]

/-- A match in another line outweighs all that it takes in. -/
theorem outweighed_of_not_crossed {words : List Word} {text pending : List Char}
    {rest : List OutputLine} (unopened : '(' ∉ pending) (unbroken : '\n' ∉ text)
    (stopped : crossed words pending text (following rest) = none)
    (ih : ∀ later : List OutputLine, later.length ≤ rest.length →
      weight (expected later) ≤ weight (reported words (['\n'] ++ joined later))) :
    weight (expected rest) <
      weight (reported words (pending ++ (text ++ following rest))) := by
  obtain ⟨seen, inside, ⟨found, behind⟩, suffix, here, matched⟩ :=
    findAll_of_not_crossed unopened stopped
  obtain ⟨head, split, headUnopened, within, ends⟩ := place_split here
  have insideUnbroken : '\n' ∉ inside := fun member => unbroken (suffix.subset member)
  obtain ⟨later, shorter, rfl, lighter⟩ :=
    consumed insideUnbroken headUnopened within ends split.symm
  have onward := reported_following words List.not_mem_nil later
  rw [List.nil_append, List.nil_append] at onward
  have message : visible (report (seen, found)).message.toList = visible found.message := by
    unfold report stripped
    rw [String.toList_ofList, visible_strip]
  have least := ih later shorter
  rw [reported, matched, List.map_cons, weight_cons, message, onward]
  omega

/--
What is reported of lines is what was to be reported of them, or weighs more,
or differs from it in files only; and the first exactly of separated lines.
-/
theorem reported_outcome {words : List Word} (listed : ∀ word, word ≠ .info → word ∈ words)
    (lines : List OutputLine) (pending : List Char) (unopened : '(' ∉ pending) :
    Outcome (separated words pending lines) (reported words (pending ++ joined lines))
      (expected lines) := by
  induction size : lines.length using Nat.strong_induction_on generalizing lines pending with
  | h count ih =>
      cases lines with
      | nil =>
          have nothing : (pattern words).findAll pending = [] :=
            Matcher.findAll_upTo_of_notMem unopened
          refine .recovered rfl ?_
          rw [joined, List.append_nil, reported, nothing]
          rfl
      | cons line rest =>
          have shorter : rest.length < count := by
            rw [← size]
            exact Nat.lt_succ_self _
          have behind : '(' ∉ ['\n'] := by decide
          cases line with
          | diagnostic line =>
              have later := ih rest.length shorter rest ['\n'] behind rfl
              have found := findAll_diagnostic line (listed line.word line.severe) unopened rest
              have onward : (pattern words).findAll (following rest) =
                  (pattern words).findAll (['\n'] ++ joined rest) :=
                findAll_following List.not_mem_nil rest
              rw [reported, found, List.map_cons, report_diagnostic, onward, expected_diagnostic]
              have placed := stripped_file_iff line pending
              refine later.cons rfl rfl (fun blank => ?_) fun mixed same => ?_
              · rw [placed.mpr blank]
                rfl
              · rw [placed.mp same] at mixed
                exact Bool.noConfusion mixed
          | other text unbroken =>
              rw [expected_other, separated]
              cases passed : crossed words pending text.toList (following rest) with
              | some left =>
                  obtain ⟨leftUnopened, same⟩ := findAll_of_crossed unopened passed
                  have later := ih rest.length shorter rest (left ++ ['\n'])
                    (notMem_concat leftUnopened (by decide)) rfl
                  rw [← reported_following words leftUnopened rest, ← same] at later
                  exact later
              | none =>
                  refine .outweighed rfl ?_
                  refine outweighed_of_not_crossed unopened unbroken passed fun later bound => ?_
                  exact (ih later.length (bound.trans_lt shorter) later ['\n'] behind rfl).weight_le

/-! ## Conversions -/

/-- The diagnostic of a report; `none` where a conversion raises. -/
def Report.diagnostic (self : Report) : Option DafnyDiagnostic := do
  let line ← int self.line
  let column ← int self.column
  return {
    file := self.file
    line := line
    column := column
    level := levelMap self.word
    message := self.message }

/-- What the diagnostics of reports weigh. -/
def diagnosticWeight (found : List DafnyDiagnostic) : Nat :=
  (found.map fun diagnostic => 1 + visible diagnostic.message.toList).sum

/-- A conversion keeps all but the digits. -/
theorem Report.eq_of_diagnostic {self : Report} {diagnostic : DafnyDiagnostic}
    (converted : self.diagnostic = some diagnostic) :
    diagnostic.file = self.file ∧ diagnostic.level = levelMap self.word ∧
      diagnostic.message = self.message := by
  obtain ⟨line, _, behind⟩ := Option.bind_eq_some_iff.mp converted
  obtain ⟨column, _, groups⟩ := Option.bind_eq_some_iff.mp behind
  cases groups
  exact ⟨rfl, rfl, rfl⟩

/-- The conversions of a list keep the files, the levels and the weight. -/
theorem converted_keeps {reports : List Report} {found : List DafnyDiagnostic}
    (converted : reports.mapM Report.diagnostic = some found) :
    found.map DafnyDiagnostic.file = reports.map Report.file ∧
      found.map DafnyDiagnostic.level = reports.map (fun report => levelMap report.word) ∧
      diagnosticWeight found = weight reports := by
  induction reports generalizing found with
  | nil =>
      cases converted
      exact ⟨rfl, rfl, rfl⟩
  | cons first rest ih =>
      rw [List.mapM_cons] at converted
      obtain ⟨head, headEq, behind⟩ := Option.bind_eq_some_iff.mp converted
      obtain ⟨tail, tailEq, groups⟩ := Option.bind_eq_some_iff.mp behind
      cases groups
      obtain ⟨file, level, message⟩ := Report.eq_of_diagnostic headEq
      obtain ⟨files, levels, weights⟩ := ih tailEq
      refine ⟨?_, ?_, ?_⟩
      · rw [List.map_cons, List.map_cons, file, files]
      · rw [List.map_cons, List.map_cons, level, levels]
      · rw [weight_cons, ← weights, ← message]
        rfl

theorem report_diagnostic_iff (line : DiagnosticLine) (diagnostic : DafnyDiagnostic) :
    line.report.diagnostic = some diagnostic ↔ line.Convertible ∧ line.diagnostic = diagnostic := by
  unfold Report.diagnostic DiagnosticLine.report DiagnosticLine.Convertible
  rw [int_toDigits, int_toDigits]
  split
  · rename_i first
    split
    · rename_i second
      exact ⟨fun same => ⟨⟨first, second⟩, Option.some.inj same⟩, fun both => congrArg some both.2⟩
    · rename_i longer
      refine ⟨fun impossible => ?_, fun both => absurd both.1.2 longer⟩
      cases impossible
  · rename_i longer
    refine ⟨fun impossible => ?_, fun both => absurd both.1.1 longer⟩
    cases impossible

theorem convertible_cons (line : DiagnosticLine) (rest : List OutputLine) :
    Convertible (.diagnostic line :: rest) ↔ line.Convertible ∧ Convertible rest := by
  unfold Convertible
  constructor
  · intro all
    exact ⟨all line List.mem_cons_self, fun other member =>
      all other (List.mem_cons_of_mem _ member)⟩
  · rintro ⟨here, later⟩ other member
    rcases List.mem_cons.mp member with same | behind
    · cases same
      exact here
    · exact later other behind

theorem convertible_other (text : String) (unbroken : '\n' ∉ text.toList)
    (rest : List OutputLine) : Convertible (.other text unbroken :: rest) ↔ Convertible rest := by
  unfold Convertible
  refine forall_congr' fun line => ?_
  rw [List.mem_cons]
  exact ⟨fun all member => all (Or.inr member), fun all member =>
    all (member.resolve_left (fun impossible => nomatch impossible))⟩

/-- The matches of the diagnostic lines are converted if no number is too long. -/
theorem expected_converted_iff (lines : List OutputLine) (found : List DafnyDiagnostic) :
    (expected lines).mapM Report.diagnostic = some found ↔
      Convertible lines ∧ diagnostics lines = found := by
  induction lines generalizing found with
  | nil =>
      constructor
      · intro converted
        cases converted
        exact ⟨fun _ member => absurd member List.not_mem_nil, rfl⟩
      · rintro ⟨_, rfl⟩
        rfl
  | cons line rest ih =>
      cases line with
      | other text unbroken =>
          rw [expected_other, convertible_other]
          exact ih found
      | diagnostic line =>
          have both : diagnostics (.diagnostic line :: rest) =
              line.diagnostic :: diagnostics rest := rfl
          rw [expected_diagnostic, convertible_cons, both, List.mapM_cons]
          constructor
          · intro converted
            obtain ⟨head, headEq, behind⟩ := Option.bind_eq_some_iff.mp converted
            obtain ⟨tail, tailEq, groups⟩ := Option.bind_eq_some_iff.mp behind
            cases groups
            obtain ⟨here, rfl⟩ := (report_diagnostic_iff line head).mp headEq
            obtain ⟨later, rfl⟩ := (ih tail).mp tailEq
            exact ⟨⟨here, later⟩, rfl⟩
          · rintro ⟨⟨here, later⟩, rfl⟩
            rw [(report_diagnostic_iff line _).mpr ⟨here, rfl⟩, (ih _).mpr ⟨later, rfl⟩]
            rfl

/-- What the diagnostics of the diagnostic lines are made of. -/
theorem diagnostics_keeps (lines : List OutputLine) :
    (diagnostics lines).map DafnyDiagnostic.file = (expected lines).map Report.file ∧
      (diagnostics lines).map DafnyDiagnostic.level =
        (expected lines).map (fun report => levelMap report.word) ∧
      diagnosticWeight (diagnostics lines) = weight (expected lines) := by
  unfold diagnosticWeight weight diagnostics expected
  refine ⟨?_, ?_, congrArg List.sum ?_⟩ <;>
    · rw [List.map_filterMap, List.map_filterMap]
      refine List.filterMap_congr fun line _ => ?_
      cases line <;> rfl

/--
Diagnostics that are like those of the lines are converted exactly when the lines
are separated and convertible, if those alike weigh the same, and have the same
files where they have the same levels.
-/
theorem converted_alike_iff {words : List Word}
    (listed : ∀ word : Word, word ≠ .info → word ∈ words) (lines : List OutputLine)
    {alike : List DafnyDiagnostic → Prop} (itself : alike (diagnostics lines))
    (weighs : ∀ found, alike found →
      diagnosticWeight found = diagnosticWeight (diagnostics lines))
    (names : ∀ found, alike found →
      found.map DafnyDiagnostic.level = (diagnostics lines).map DafnyDiagnostic.level →
        found.map DafnyDiagnostic.file = (diagnostics lines).map DafnyDiagnostic.file) :
    (∃ found, (reported words (joined lines)).mapM Report.diagnostic = some found ∧
        alike found) ↔
      separated words [] lines = true ∧ Convertible lines := by
  have outcome := reported_outcome listed lines [] List.not_mem_nil
  obtain ⟨files, levels, weights⟩ := diagnostics_keeps lines
  rw [List.nil_append] at outcome
  cases outcome with
  | recovered apart same =>
      rw [same]
      constructor
      · rintro ⟨found, converted, _⟩
        exact ⟨apart, ((expected_converted_iff lines found).mp converted).1⟩
      · rintro ⟨_, convertible⟩
        exact ⟨diagnostics lines, (expected_converted_iff lines _).mpr ⟨convertible, rfl⟩, itself⟩
  | outweighed mixed heavier =>
      refine ⟨fun ⟨found, converted, equal⟩ => ?_, fun both => ?_⟩
      · rw [← (converted_keeps converted).2.2, weighs found equal, weights] at heavier
        exact absurd heavier (Nat.lt_irrefl _)
      · rw [mixed] at both
        exact Bool.noConfusion both.1
  | misplaced mixed differs words equal =>
      refine ⟨fun ⟨found, converted, same⟩ => ?_, fun both => ?_⟩
      · obtain ⟨keptFiles, keptLevels, _⟩ := converted_keeps converted
        have alikeWords := congrArg (List.map levelMap) words
        rw [List.map_map, List.map_map] at alikeWords
        have sameFiles := names found same (keptLevels.trans (alikeWords.trans levels.symm))
        exact absurd (keptFiles.symm.trans (sameFiles.trans files)) differs
      · rw [mixed] at both
        exact Bool.noConfusion both.1

/-! ## The two functions -/

/-- `_parse_dafny_output` returns the diagnostics of lines that are separated and convertible. -/
theorem parseDafnyOutput_iff (lines : List OutputLine) :
    parseDafnyOutput (String.ofList (joined lines)) = some (diagnostics lines) ↔
      separated [.error, .warning, .info] [] lines = true ∧ Convertible lines := by
  have listed : ∀ word : Word, word ≠ .info → word ∈ [Word.error, .warning, .info] := by
    rintro (_ | _ | _) _ <;> decide
  have parsed : parseDafnyOutput (String.ofList (joined lines)) =
      (reported [.error, .warning, .info] (joined lines)).mapM Report.diagnostic := by
    rw [parseDafnyOutput, reported, String.toList_ofList, List.mapM_map]
    rfl
  have alike := @converted_alike_iff _ listed lines (fun found => found = diagnostics lines) rfl
    (fun _ same => congrArg diagnosticWeight same) fun _ same _ => congrArg (List.map _) same
  rw [parsed, ← alike, exists_eq_right]

namespace DafnyRunner

def entry (diagnostic : DafnyDiagnostic) : Entry where
  file := diagnostic.file
  line := diagnostic.line
  col := diagnostic.column
  message := diagnostic.message

/-- The errors and the warnings of diagnostics. -/
def parted (found : List DafnyDiagnostic) : List Entry × List Entry :=
  ((found.filter fun diagnostic => diagnostic.level = .error).map entry,
    (found.filter fun diagnostic => diagnostic.level ≠ .error).map entry)

theorem parted_cons (first : DafnyDiagnostic) (rest : List DafnyDiagnostic) :
    parted (first :: rest) =
      if first.level = .error then (entry first :: (parted rest).1, (parted rest).2)
      else ((parted rest).1, entry first :: (parted rest).2) := by
  unfold parted
  by_cases error : first.level = .error
  · simp [error]
  · simp [error]

theorem levelMap_eq_error_iff (word : Word) : levelMap word = .error ↔ word = .error := by
  cases word <;> decide

/-- One turn of the loop appends the entry of the diagnostic that the match is converted to. -/
theorem append_eq (lists : List Entry × List Entry) (groups : List Char × DafnyOutput.Place) :
    append lists groups = (report groups).diagnostic.map fun diagnostic =>
      if diagnostic.level = .error then (lists.1 ++ [entry diagnostic], lists.2)
      else (lists.1, lists.2 ++ [entry diagnostic]) := by
  unfold append toEntry Report.diagnostic report
  cases int groups.2.line with
  | none => rfl
  | some line =>
      cases int groups.2.column with
      | none => rfl
      | some col =>
          dsimp only [Option.bind_eq_bind, Option.bind_some, Option.pure_def, Option.map_some]
          by_cases error : groups.2.word = .error
          · rw [if_pos error, if_pos ((levelMap_eq_error_iff _).mpr error)]
            rfl
          · rw [if_neg error, if_neg (mt (levelMap_eq_error_iff _).mp error)]
            rfl

/-- The loop appends to both lists what the diagnostics are parted into. -/
theorem foldlM_append (groups : List (List Char × DafnyOutput.Place))
    (lists : List Entry × List Entry) :
    groups.foldlM append lists =
      ((groups.map report).mapM Report.diagnostic).map fun found =>
        (lists.1 ++ (parted found).1, lists.2 ++ (parted found).2) := by
  induction groups generalizing lists with
  | nil =>
      have none : parted [] = ([], []) := rfl
      rw [List.foldlM_nil, List.map_nil, List.mapM_nil]
      dsimp only [Option.pure_def, Option.map_some]
      rw [none, List.append_nil, List.append_nil]
  | cons first rest ih =>
      rw [List.foldlM_cons, List.map_cons, List.mapM_cons, append_eq]
      cases (report first).diagnostic with
      | none => rfl
      | some diagnostic =>
          dsimp only [Option.map_some, Option.bind_eq_bind, Option.bind_some]
          rw [ih]
          cases (rest.map report).mapM Report.diagnostic with
          | none => rfl
          | some later =>
              dsimp only [Option.map_some, Option.bind_some, Option.pure_def]
              rw [parted_cons]
              split
              · rw [List.append_assoc]
                rfl
              · rw [List.append_assoc]
                rfl

/-- What the entries of both lists weigh. -/
def entryWeight (lists : List Entry × List Entry) : Nat :=
  ((lists.1 ++ lists.2).map fun entry => 1 + visible entry.message.toList).sum

theorem entryWeight_parted (found : List DafnyDiagnostic) :
    entryWeight (parted found) = diagnosticWeight found := by
  induction found with
  | nil => rfl
  | cons first rest ih =>
      have message : (entry first).message = first.message := rfl
      have split : diagnosticWeight (first :: rest) =
          1 + visible first.message.toList + diagnosticWeight rest := List.sum_cons
      rw [parted_cons, split, ← ih]
      unfold entryWeight
      split
      · rw [List.cons_append, List.map_cons, List.sum_cons, message]
      · simp only [List.map_append, List.map_cons, List.sum_append, List.sum_cons, message]
        omega

/-- Diagnostics with the same levels and files are told apart by the lists they are parted into. -/
theorem files_of_parted {found wanted : List DafnyDiagnostic}
    (levels : found.map DafnyDiagnostic.level = wanted.map DafnyDiagnostic.level)
    (same : parted found = parted wanted) :
    found.map DafnyDiagnostic.file = wanted.map DafnyDiagnostic.file := by
  induction found generalizing wanted with
  | nil =>
      rw [List.map_eq_nil_iff.mp levels.symm]
  | cons first found ih =>
      cases wanted with
      | nil => cases levels
      | cons second wanted =>
          rw [List.map_cons, List.map_cons] at levels
          obtain ⟨level, later⟩ := List.cons.inj levels
          rw [parted_cons, parted_cons, level] at same
          have parts : entry first = entry second ∧ parted found = parted wanted := by
            split at same
            · obtain ⟨errors, warnings⟩ := Prod.mk.inj same
              obtain ⟨head, tail⟩ := List.cons.inj errors
              exact ⟨head, Prod.ext tail warnings⟩
            · obtain ⟨errors, warnings⟩ := Prod.mk.inj same
              obtain ⟨head, tail⟩ := List.cons.inj warnings
              exact ⟨head, Prod.ext errors tail⟩
          have file : first.file = second.file := congrArg Entry.file parts.1
          rw [List.map_cons, List.map_cons, file, ih later parts.2]

/-- `_parse_diagnostics` returns those of lines that are separated and convertible. -/
theorem parseDiagnostics_iff (lines : List OutputLine) :
    parseDiagnostics (String.ofList (joined lines)) = some (parted (diagnostics lines)) ↔
      separated [.error, .warning] [] lines = true ∧ Convertible lines := by
  have listed : ∀ word : Word, word ≠ .info → word ∈ [Word.error, .warning] := by
    rintro (_ | _ | _) severe <;> first | decide | exact absurd rfl severe
  have parsed : parseDiagnostics (String.ofList (joined lines)) =
      ((reported [.error, .warning] (joined lines)).mapM Report.diagnostic).map parted := by
    rw [parseDiagnostics, String.toList_ofList, foldlM_append, reported]
    rfl
  rw [parsed, Option.map_eq_some_iff]
  refine converted_alike_iff listed lines rfl (fun found same => ?_)
    fun found same levels => files_of_parted levels same
  rw [← entryWeight_parted, same, entryWeight_parted]

end DafnyRunner

/--
Each parser returns exactly the diagnostics of lines that are separated for its
pattern, and whose numbers have no more digits than `int` takes.
-/
theorem diagnostics_recovered_iff (lines : List OutputLine) :
    (parseDafnyOutput (String.ofList (joined lines)) = some (diagnostics lines) ↔
      separated [.error, .warning, .info] [] lines = true ∧ Convertible lines) ∧
    (DafnyRunner.parseDiagnostics (String.ofList (joined lines)) =
        some (DafnyRunner.parted (diagnostics lines)) ↔
      separated [.error, .warning] [] lines = true ∧ Convertible lines) :=
  ⟨parseDafnyOutput_iff lines, DafnyRunner.parseDiagnostics_iff lines⟩

/-- `a.dfy(1,2): Error: x` -/
def errorLine : DiagnosticLine where
  file := "a.dfy"
  line := 1
  column := 2
  word := .error
  message := "x"
  named := by decide
  unopened := by decide
  unclosed := by decide
  fileUnbroken := by decide
  fileTrimmed := by decide
  severe := by decide
  worded := by decide
  unbroken := by decide
  trimmed := by decide

/-- The banner of the verifier in front of the diagnostic. -/
def banneredOutput : List OutputLine :=
  [.other "Dafny program verifier" (by decide), .diagnostic errorLine]

theorem banneredOutput_notRecovered :
    parseDafnyOutput (String.ofList (joined banneredOutput)) ≠
        some (diagnostics banneredOutput) ∧
      DafnyRunner.parseDiagnostics (String.ofList (joined banneredOutput)) ≠
        some (DafnyRunner.parted (diagnostics banneredOutput)) := by
  constructor
  · intro recovered
    exact absurd ((parseDafnyOutput_iff banneredOutput).mp recovered).1 (by decide)
  · intro recovered
    exact absurd ((DafnyRunner.parseDiagnostics_iff banneredOutput).mp recovered).1 (by decide)

end SchedExt.Agents
