import SchedExt.Certificate.DafnyLexer

/-!
# Open assumptions of the proof certificate

The certificate counts the lines that begin with `assume` and a space.  The
keywords it does not read and the lines it reads without a keyword decide
whether the count is an upper bound.
-/

namespace SchedExt.Certificate

open Foundations Foundations.Text

structure SpecFile where
  path : String
  content : String
  deriving DecidableEq

/-- `stripped.startswith("assume ")` -/
def startsWithAssume (stripped : List Char) : Bool := "assume ".toList.isPrefixOf stripped

/-- `part in text` -/
def contains (part text : List Char) : Bool := text.tails.any part.isPrefixOf

/-- `f.read_text().splitlines()` -/
def linesOf (content : String) : List (List Char) :=
  splitlines id (readText id '\n' content.toList)

/-- The lines of the report so far and the count, after one numbered line. -/
def scanLine (f : String) (report : List String × Nat) (numbered : List Char × Nat) :
    List String × Nat :=
  let stripped := strip id numbered.1
  let text := String.ofList stripped
  let i := numbered.2
  if startsWithAssume stripped && contains "//".toList stripped then
    (report.1 ++ [s!"- `{f}:{i}`: `{text}`"], report.2 + 1)
  else if startsWithAssume stripped then
    (report.1 ++ [s!"- `{f}:{i}`: `{text}`"], report.2 + 1)
  else report

def scanFile (report : List String × Nat) (file : SpecFile) : List String × Nat :=
  ((linesOf file.content).zipIdx 1).foldl (scanLine file.path) report

/-- The section on assumptions, and `open_assumptions` of the manifest. -/
structure Report where
  assumptions : List String
  openAssumptions : Nat

def discharged : String := "None — all proof obligations discharged."

/-- The part of `generate_report` that scans the specification files. -/
def generateReport (dfyFiles : List SpecFile) : Report :=
  let header := ["", "## Open Assumptions (`assume` statements)", ""]
  let scanned := dfyFiles.foldl scanFile (header, 0)
  let assumeCount := scanned.2
  let last :=
    if assumeCount = 0 then discharged
    else s!"\n**{assumeCount} open assumptions remain.** These must be resolved before deployment."
  { assumptions := scanned.1 ++ [last], openAssumptions := assumeCount }

/-- The report says that nothing is open. -/
def Report.SaysNone (report : Report) : Prop :=
  report.assumptions.getLast? = some discharged

/-- The keywords of all files. -/
def assumeTokens (dfyFiles : List SpecFile) : Nat :=
  (dfyFiles.flatMap fun file => annotate (.code false) file.content.toList).countP Sign.begins

/-! ## The count -/

/-- A line that the scan counts. -/
def counted (line : List Char) : Bool := startsWithAssume (strip id line)

theorem snd_scanLine (f : String) (report : List String × Nat) (numbered : List Char × Nat) :
    (scanLine f report numbered).2 = report.2 + if counted numbered.1 then 1 else 0 := by
  rw [scanLine, counted]
  cases startsWithAssume (strip id numbered.1) with
  | true => cases contains "//".toList (strip id numbered.1) <;> rfl
  | false => rfl

theorem snd_foldl_scanLine (f : String) (numbered : List (List Char × Nat))
    (report : List String × Nat) :
    (numbered.foldl (scanLine f) report).2 =
      report.2 + (numbered.map Prod.fst).countP counted := by
  induction numbered generalizing report with
  | nil => rfl
  | cons head rest ih =>
      rw [List.foldl_cons, ih, snd_scanLine, List.map_cons, List.countP_cons, Nat.add_assoc,
        Nat.add_comm (ite _ _ _)]

theorem snd_foldl_scanFile (dfyFiles : List SpecFile) (report : List String × Nat) :
    (dfyFiles.foldl scanFile report).2 =
      report.2 + (dfyFiles.flatMap fun file => linesOf file.content).countP counted := by
  induction dfyFiles generalizing report with
  | nil => rfl
  | cons file rest ih =>
      rw [List.foldl_cons, ih, scanFile, snd_foldl_scanLine, List.zipIdx_map_fst,
        List.flatMap_cons, List.countP_append, Nat.add_assoc]

theorem openAssumptions_generateReport (dfyFiles : List SpecFile) :
    (generateReport dfyFiles).openAssumptions =
      (dfyFiles.flatMap fun file => linesOf file.content).countP counted := by
  unfold generateReport
  simp only
  rw [snd_foldl_scanFile, Nat.zero_add]

theorem saysNone_iff (dfyFiles : List SpecFile) :
    (generateReport dfyFiles).SaysNone ↔ (generateReport dfyFiles).openAssumptions = 0 := by
  rw [Report.SaysNone, generateReport]
  simp only [List.getLast?_concat, Option.some.injEq]
  constructor
  · intro reported
    by_contra remain
    rw [if_neg remain] at reported
    have first := congrArg (fun text : String => text.toList.head?) reported
    have breaks : (toString "\n**").toList.head? = some '\n' := by decide
    simp only [discharged, String.toList_append, List.head?_append, breaks,
      Option.some_or] at first
    exact absurd first (by decide)
  · intro none
    rw [if_pos none]

/-! ## Keywords by line -/

/-- The lines of the files with their keywords marked. -/
def signedLines (dfyFiles : List SpecFile) : List (List Sign) :=
  dfyFiles.flatMap fun file =>
    splitlines Sign.char
      (readText Sign.char ⟨'\n', false, Bool.noConfusion⟩
        (annotate (.code false) file.content.toList))

theorem map_signedLines (dfyFiles : List SpecFile) :
    (signedLines dfyFiles).map (List.map Sign.char) =
      dfyFiles.flatMap fun file => linesOf file.content := by
  rw [signedLines, List.map_flatMap]
  congr 1
  funext file
  rw [map_splitlines, map_readText Sign.char rfl, map_annotate, linesOf]

theorem countP_flatten_signedLines (dfyFiles : List SpecFile) :
    (signedLines dfyFiles).flatten.countP Sign.begins = assumeTokens dfyFiles := by
  induction dfyFiles with
  | nil => rfl
  | cons file rest ih =>
      rw [signedLines, List.flatMap_cons, List.flatten_append, List.countP_append,
        countP_flatten_splitlines Sign.solid, countP_readText Sign.solid Bool.false_ne_true,
        ← signedLines, ih, assumeTokens, assumeTokens, List.flatMap_cons, List.countP_append]

/-- A counted line whose first word is no keyword. -/
def spurious (line : List Sign) : Bool :=
  counted (line.map Sign.char) && !(strip Sign.char line).head?.any Sign.begins

/-- The signs of a line where the scan does not look for a keyword. -/
def overlooked (line : List Sign) : List Sign :=
  if counted (line.map Sign.char) then (strip Sign.char line).tail else strip Sign.char line

/-- The keywords that do not open a counted line. -/
def missedTokens (dfyFiles : List SpecFile) : Nat :=
  ((signedLines dfyFiles).flatMap overlooked).countP Sign.begins

/-- The counted lines that no keyword opens: those inside a comment or a string. -/
def spuriousLines (dfyFiles : List SpecFile) : Nat :=
  (signedLines dfyFiles).countP spurious

/-- On one line the keywords are those overlooked and the one that opens a counted line. -/
theorem countP_line (line : List Sign) :
    line.countP Sign.begins + (if spurious line then 1 else 0) =
      (overlooked line).countP Sign.begins +
        if counted (line.map Sign.char) then 1 else 0 := by
  rw [← countP_strip Sign.solid line, spurious, overlooked]
  cases counts : counted (line.map Sign.char) with
  | false => rfl
  | true =>
      rw [Bool.true_and, if_pos rfl, if_pos rfl]
      cases stripped : strip Sign.char line with
      | nil =>
          rw [counted, ← map_strip, stripped] at counts
          exact absurd counts (by decide)
      | cons sign rest =>
          rw [List.countP_cons, List.head?_cons, Option.any_some, List.tail_cons]
          cases sign.begins <;> rfl

theorem countP_lines (lines : List (List Sign)) :
    lines.flatten.countP Sign.begins + lines.countP spurious =
      (lines.flatMap overlooked).countP Sign.begins +
        (lines.map (List.map Sign.char)).countP counted := by
  induction lines with
  | nil => rfl
  | cons line rest ih =>
      have here := countP_line line
      rw [List.flatten_cons, List.countP_append, List.countP_cons, List.flatMap_cons,
        List.countP_append, List.map_cons, List.countP_cons]
      omega

/--
The count covers every keyword, and the report says that nothing is open only
when there is none, exactly when as many counted lines are spurious as keywords
are missed.
-/
theorem covers_iff (dfyFiles : List SpecFile) :
    (assumeTokens dfyFiles ≤ (generateReport dfyFiles).openAssumptions ∧
        ((generateReport dfyFiles).SaysNone → assumeTokens dfyFiles = 0)) ↔
      missedTokens dfyFiles ≤ spuriousLines dfyFiles := by
  have balance : assumeTokens dfyFiles + spuriousLines dfyFiles =
      missedTokens dfyFiles + (generateReport dfyFiles).openAssumptions := by
    rw [← countP_flatten_signedLines, openAssumptions_generateReport, ← map_signedLines]
    exact countP_lines (signedLines dfyFiles)
  rw [saysNone_iff]
  omega

/-- An assumption inside the braces of a lemma. -/
def inBraces : List SpecFile :=
  [⟨"specs/properties/fairness.dfy", "lemma Fair() { assume false; }"⟩]

theorem inBraces_not_covered :
    ¬ assumeTokens inBraces ≤ (generateReport inBraces).openAssumptions ∧
      ¬ ((generateReport inBraces).SaysNone → assumeTokens inBraces = 0) := by
  have none : (generateReport inBraces).openAssumptions = 0 := by
    rw [openAssumptions_generateReport]
    decide
  have one : assumeTokens inBraces = 1 := by decide
  rw [saysNone_iff, none, one]
  decide

end SchedExt.Certificate
