import Mathlib.Data.List.DropRight

/-!
# Text read line by line

Signs carry a character, and perhaps more.  Reading a text translates its line
ends, splitting it into lines drops the breaks, stripping a line drops the
white space at its ends; what is said of signs that are not space survives.
-/

namespace SchedExt.Foundations.Text

universe u

/-- `str.isspace` of one character. -/
def isSpace (c : Char) : Bool :=
  let code := c.toNat
  (9 ≤ code && code ≤ 13) || (28 ≤ code && code ≤ 32) || code == 0x85 || code == 0xA0 ||
    code == 0x1680 || (0x2000 ≤ code && code ≤ 0x200A) || code == 0x2028 || code == 0x2029 ||
    code == 0x202F || code == 0x205F || code == 0x3000

/-- The characters at which `str.splitlines` breaks. -/
def isLineBreak (c : Char) : Bool :=
  let code := c.toNat
  (10 ≤ code && code ≤ 13) || (28 ≤ code && code ≤ 30) || code == 0x85 || code == 0x2028 ||
    code == 0x2029

theorem isSpace_of_isLineBreak {c : Char} (breaks : isLineBreak c = true) : isSpace c = true := by
  simp only [isLineBreak, isSpace, Bool.or_eq_true, Bool.and_eq_true, decide_eq_true_eq,
    beq_iff_eq] at breaks ⊢
  omega

theorem isSpace_of_isDigit {c : Char} (digit : c.isDigit = true) : isSpace c = false := by
  have range := Char.isDigit_iff_toNat.mp digit
  have low : 48 ≤ c.toNat := range.1
  have high : c.toNat ≤ 57 := range.2
  simp only [isSpace, Bool.or_eq_false_iff, Bool.and_eq_false_iff, decide_eq_false_iff_not,
    beq_eq_false_iff_ne]
  omega

variable {Sign : Type u} (char : Sign → Char)

/-- Whether the text goes on with a line feed. -/
def startsLine (text : List Sign) : Bool := text.head?.map char == some '\n'

/-- The universal newlines of `read_text`. -/
def readText (newline : Sign) : List Sign → List Sign
  | [] => []
  | sign :: rest =>
      if char sign = '\r' then
        if startsLine char rest then readText newline rest else newline :: readText newline rest
      else sign :: readText newline rest

/-- `str.splitlines` -/
def splitlines : List Sign → List (List Sign)
  | [] => []
  | sign :: rest =>
      if char sign = '\r' ∧ startsLine char rest then splitlines rest
      else if isLineBreak (char sign) then [] :: splitlines rest
      else
        match splitlines rest with
        | [] => [[sign]]
        | line :: lines => (sign :: line) :: lines

/-- `str.strip` -/
def strip (line : List Sign) : List Sign :=
  (line.dropWhile fun sign => isSpace (char sign)).rdropWhile fun sign => isSpace (char sign)

/-! ## Line ends -/

/-- What was read has no carriage return. -/
theorem carriage_notMem_readText (text : List Char) : '\r' ∉ readText id '\n' text := by
  induction text with
  | nil => exact List.not_mem_nil
  | cons c rest ih =>
      rw [readText]
      split
      · split
        · exact ih
        · exact List.not_mem_cons_of_ne_of_not_mem (by decide) ih
      · rename_i other
        exact List.not_mem_cons_of_ne_of_not_mem (Ne.symm other) ih

/-- A text is read unchanged exactly when it has no carriage return. -/
theorem readText_eq_self_iff (text : List Char) : readText id '\n' text = text ↔ '\r' ∉ text := by
  constructor
  · intro unchanged
    rw [← unchanged]
    exact carriage_notMem_readText text
  · intro absent
    induction text with
    | nil => rfl
    | cons c rest ih =>
        have other : ¬ id c = '\r' := fun same => absent (same ▸ List.mem_cons_self)
        rw [readText, if_neg other, ih (fun later => absent (List.mem_cons_of_mem c later))]

/-! ## The characters alone -/

theorem startsLine_map (text : List Sign) :
    startsLine id (text.map char) = startsLine char text := by
  cases text <;> rfl

theorem map_readText {newline : Sign} (feeds : char newline = '\n') (text : List Sign) :
    (readText char newline text).map char = readText id '\n' (text.map char) := by
  induction text with
  | nil => rfl
  | cons sign rest ih =>
      rw [List.map_cons, readText, readText, startsLine_map, id_eq, ← ih]
      split
      · split
        · rfl
        · rw [List.map_cons, feeds]
      · rfl

theorem map_splitlines (text : List Sign) :
    (splitlines char text).map (List.map char) = splitlines id (text.map char) := by
  induction text with
  | nil => rfl
  | cons sign rest ih =>
      rw [List.map_cons, splitlines, splitlines, startsLine_map, id_eq, ← ih]
      split
      · rfl
      · split
        · rfl
        · cases splitlines char rest <;> rfl

theorem map_strip (line : List Sign) : (strip char line).map char = strip id (line.map char) := by
  have dropped : ∀ list : List Sign, (list.dropWhile fun sign => isSpace (char sign)).map char =
      (list.map char).dropWhile isSpace := by
    intro list
    rw [List.dropWhile_map]
    rfl
  rw [strip, strip, List.rdropWhile, List.rdropWhile, List.map_reverse, dropped, List.map_reverse,
    dropped]
  rfl

/-! ## White space around a text -/

/-- White space on both sides of a line is stripped with that of the line. -/
theorem strip_append {before after : List Sign}
    (leading : ∀ sign ∈ before, isSpace (char sign) = true)
    (trailing : ∀ sign ∈ after, isSpace (char sign) = true) (line : List Sign) :
    strip char (before ++ (line ++ after)) = strip char line := by
  have backwards : ∀ other ∈ after.reverse, isSpace (char other) = true := fun other member =>
    trailing other (List.mem_reverse.mp member)
  unfold strip
  rw [List.dropWhile_append_of_pos leading, List.dropWhile_append]
  split
  · rename_i empty
    rw [List.dropWhile_eq_nil_iff.mpr trailing, List.isEmpty_iff.mp empty]
  · rw [List.rdropWhile, List.reverse_append, List.dropWhile_append_of_pos backwards]
    rfl

/-- A line without white space is stripped to itself. -/
theorem strip_of_solid {line : List Sign} (solid : ∀ sign ∈ line, isSpace (char sign) = false) :
    strip char line = line := by
  cases line with
  | nil => rfl
  | cons sign rest =>
      have first := solid sign List.mem_cons_self
      unfold strip
      rw [List.dropWhile_cons_of_neg (by rw [first]; exact Bool.false_ne_true)]
      apply List.rdropWhile_eq_self_iff.mpr
      intro nonempty
      rw [solid _ (List.getLast_mem nonempty)]
      exact Bool.false_ne_true

/-- Stripping takes away the white space on both sides of a text that has none. -/
theorem strip_surrounded {before line after : List Sign}
    (leading : ∀ sign ∈ before, isSpace (char sign) = true)
    (solid : ∀ sign ∈ line, isSpace (char sign) = false)
    (trailing : ∀ sign ∈ after, isSpace (char sign) = true) :
    strip char (before ++ (line ++ after)) = line := by
  rw [strip_append char leading trailing, strip_of_solid char solid]

/-! ## Signs that are no space -/

section Marked

variable {char} {marked : Sign → Bool}
variable (solid : ∀ sign, marked sign = true → isSpace (char sign) = false)

include solid

theorem unmarked_of_isSpace {sign : Sign} (space : isSpace (char sign) = true) :
    ¬ marked sign = true := by
  intro mark
  exact Bool.noConfusion (space.symm.trans (solid sign mark))

theorem countP_readText {newline : Sign} (unmarked : ¬ marked newline = true)
    (text : List Sign) : (readText char newline text).countP marked = text.countP marked := by
  induction text with
  | nil => rfl
  | cons sign rest ih =>
      rw [readText]
      split
      · rename_i carriage
        have space : isSpace (char sign) = true := by
          rw [carriage]
          decide
        rw [List.countP_cons_of_neg (unmarked_of_isSpace solid space)]
        split
        · exact ih
        · rw [List.countP_cons_of_neg unmarked, ih]
      · rw [List.countP_cons, List.countP_cons, ih]

theorem countP_flatten_splitlines (text : List Sign) :
    (splitlines char text).flatten.countP marked = text.countP marked := by
  induction text with
  | nil => rfl
  | cons sign rest ih =>
      rw [splitlines]
      split
      · rename_i pair
        have space : isSpace (char sign) = true := by
          rw [pair.1]
          decide
        rw [List.countP_cons_of_neg (unmarked_of_isSpace solid space), ih]
      · split
        · rename_i breaks
          have space := isSpace_of_isLineBreak breaks
          rw [List.countP_cons_of_neg (unmarked_of_isSpace solid space), List.flatten_cons,
            List.nil_append, ih]
        · have joined : (match splitlines char rest with
              | [] => [[sign]]
              | line :: lines => (sign :: line) :: lines).flatten =
              sign :: (splitlines char rest).flatten := by
            cases splitlines char rest <;> rfl
          rw [joined, List.countP_cons, List.countP_cons, ih]

theorem countP_dropWhile_isSpace (line : List Sign) :
    (line.dropWhile fun sign => isSpace (char sign)).countP marked = line.countP marked := by
  induction line with
  | nil => rfl
  | cons sign rest ih =>
      rw [List.dropWhile_cons]
      split
      · rename_i space
        rw [List.countP_cons_of_neg (unmarked_of_isSpace solid space), ih]
      · rfl

theorem countP_strip (line : List Sign) :
    (strip char line).countP marked = line.countP marked := by
  rw [strip, List.rdropWhile, List.countP_reverse, countP_dropWhile_isSpace solid,
    List.countP_reverse, countP_dropWhile_isSpace solid]

end Marked

/-- Stripping keeps every character that is not white space. -/
theorem countP_solid_strip (text : List Char) :
    (strip id text).countP (fun c => !isSpace c) = text.countP fun c => !isSpace c := by
  have solid : ∀ sign : Char, (!isSpace sign) = true → isSpace (id sign) = false := by
    intro sign mark
    exact (Bool.not_eq_true' _).mp mark
  exact countP_strip solid text

end SchedExt.Foundations.Text
