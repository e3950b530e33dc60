import SchedExt.Foundations.Text

/-!
# The lexical structure of Dafny

Comments nest, strings are regular or verbatim, and words are the longest runs
of identifier characters.  The lexer reads one character at a time and marks
those where a word `assume` begins in the code.
-/

namespace SchedExt.Certificate

open Foundations

/-- What the lexer is reading; after a symbol of two characters it skips the second. -/
inductive Mode where
  | code (inWord : Bool)
  | lineComment
  | blockComment (depth : Nat)
  | str
  | verbatim
  | charLiteral
  | skip (resume : Mode)
  deriving DecidableEq

/-- `idchar` of the grammar: letters, digits and the three special characters. -/
def isIdChar (c : Char) : Bool := c.isAlphanum || c == '\'' || c == '_' || c == '?'

/-- `nondigit` of the grammar. -/
def isNondigit (c : Char) : Bool := isIdChar c && !c.isDigit

/-- After an apostrophe: an escape or one character, closed by another apostrophe. -/
def closesChar (rest : List Char) : Bool :=
  match rest with
  | '\\' :: _ => true
  | c :: '\'' :: after => !isIdChar c || !after.head?.any isIdChar
  | _ => false

def keyword : List Char := "assume".toList

/-- Whether a keyword begins at a character, and what the lexer reads next. -/
def next : Mode → Char → List Char → Bool × Mode
  | .code inWord, c, rest =>
      if inWord && isIdChar c then (false, .code true)
      else if c == '/' && rest.head? == some '/' then (false, .skip .lineComment)
      else if c == '/' && rest.head? == some '*' then (false, .skip (.blockComment 1))
      else if c == '"' then (false, .str)
      else if c == '@' && rest.head? == some '"' then (false, .skip .verbatim)
      else if c == '\'' && closesChar rest then (false, .charLiteral)
      else if isNondigit c then ((c :: rest).takeWhile isIdChar == keyword, .code true)
      else (false, .code false)
  | .lineComment, c, _ => (false, if c == '\n' then .code false else .lineComment)
  | .blockComment depth, c, rest =>
      if c == '/' && rest.head? == some '*' then (false, .skip (.blockComment (depth + 1)))
      else if c == '*' && rest.head? == some '/' then
        (false, .skip (if depth ≤ 1 then .code false else .blockComment (depth - 1)))
      else (false, .blockComment depth)
  | .str, c, _ =>
      (false, if c == '\\' then .skip .str else if c == '"' then .code false else .str)
  | .verbatim, c, rest =>
      if c == '"' then
        (false, if rest.head? == some '"' then .skip .verbatim else .code false)
      else (false, .verbatim)
  | .charLiteral, c, _ =>
      (false,
        if c == '\\' then .skip .charLiteral
        else if c == '\'' then .code false
        else .charLiteral)
  | .skip resume, _, _ => (false, resume)

/-- A keyword begins with its first letter. -/
theorem eq_of_next {mode : Mode} {c : Char} {rest : List Char}
    (begins : (next mode c rest).1 = true) : c = 'a' := by
  have word : (c :: rest).takeWhile isIdChar = keyword := by
    cases mode with
    | code inWord =>
        rw [next] at begins
        split_ifs at begins
        exact beq_iff_eq.mp begins
    | blockComment depth =>
        rw [next] at begins
        split_ifs at begins
    | verbatim =>
        rw [next] at begins
        split_ifs at begins
    | _ => exact nomatch begins
  rw [List.takeWhile_cons] at word
  split at word
  · exact (List.cons.inj word).1
  · exact nomatch word

/-- A character and whether a keyword begins there, which it does with its first letter only. -/
structure Sign where
  char : Char
  begins : Bool
  first : begins = true → char = 'a'

theorem Sign.solid (sign : Sign) (begins : sign.begins = true) :
    Text.isSpace sign.char = false := by
  rw [sign.first begins]
  decide

def annotate : Mode → List Char → List Sign
  | _, [] => []
  | mode, c :: rest =>
      let read := next mode c rest
      ⟨c, read.1, eq_of_next⟩ :: annotate read.2 rest

theorem map_annotate (mode : Mode) (text : List Char) :
    (annotate mode text).map Sign.char = text := by
  induction text generalizing mode with
  | nil => rfl
  | cons c rest ih => rw [annotate, List.map_cons, ih]

end SchedExt.Certificate
