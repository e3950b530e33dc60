import SchedExt.Foundations.Dict
import SchedExt.Foundations.Text

/-!
# File blocks of a response

The pattern `<file\s+path="([^"]+)">\s*\n(.*?)\n\s*</file>` is matched as the
regular-expression engine does: the white space before the content takes as
much as it can and gives line feeds back, the content as little as it can, and
the search goes on behind every match.
-/

namespace SchedExt.Agents

open Foundations

namespace FileBlocks

/-- The rest of a text behind a literal. -/
def literal : List Char → List Char → Option (List Char)
  | [], text => some text
  | _ :: _, [] => none
  | expected :: literals, c :: text => if c = expected then literal literals text else none

/-- `\n\s*</file>` -/
def closing : List Char → Option (List Char)
  | '\n' :: text => literal "</file>".toList (text.dropWhile Text.isSpace)
  | _ => none

/-- `(.*?)\n\s*</file>`: the shortest content that is closed, and what is behind. -/
def content : List Char → Option (List Char × List Char)
  | [] => none
  | c :: text =>
      match closing (c :: text) with
      | some rest => some ([], rest)
      | none => (content text).map fun found => (c :: found.1, found.2)

/-- `\s*\n`: where the content may begin, the last line feed of the white space first. -/
def contentStarts : List Char → List (List Char)
  | [] => []
  | c :: text =>
      if Text.isSpace c then
        contentStarts text ++ (if c = '\n' then [text] else [])
      else []

/-- `<file\s+path="([^"]+)">`: the path and what is behind. -/
def opening (text : List Char) : Option (List Char × List Char) := do
  let gap ← literal "<file".toList text
  guard (gap.head?.any Text.isSpace)
  let quoted ← literal "path=\"".toList (gap.dropWhile Text.isSpace)
  let path := quoted.takeWhile (· ≠ '"')
  guard (!path.isEmpty)
  let rest ← literal "\">".toList (quoted.dropWhile (· ≠ '"'))
  return (path, rest)

/-- A match at the beginning of a text: its two groups, and what is behind. -/
def matchHere (text : List Char) : Option ((List Char × List Char) × List Char) := do
  let (path, rest) ← opening text
  let (body, behind) ← (contentStarts rest).findSome? content
  return ((path, body), behind)

theorem literal_append (literals text : List Char) :
    literal literals (literals ++ text) = some text := by
  induction literals with
  | nil => rfl
  | cons c literals ih =>
      rw [List.cons_append, literal, if_pos rfl]
      exact ih

theorem eq_append_of_literal {literals text rest : List Char}
    (found : literal literals text = some rest) : text = literals ++ rest := by
  induction literals generalizing text with
  | nil => exact Option.some.inj found
  | cons expected literals ih =>
      cases text with
      | nil => cases found
      | cons c text =>
          rw [literal] at found
          split at found
          · rename_i same
            rw [same, ih found, List.cons_append]
          · cases found

theorem literal_eq_none {literals text : List Char} (absent : ¬ literals <+: text) :
    literal literals text = none := by
  cases found : literal literals text with
  | none => rfl
  | some rest => exact absurd ⟨rest, (eq_append_of_literal found).symm⟩ absent

theorem length_literal {literals text rest : List Char}
    (found : literal literals text = some rest) :
    rest.length + literals.length = text.length := by
  rw [eq_append_of_literal found, List.length_append, Nat.add_comm]

theorem suffix_of_closing {text rest : List Char} (found : closing text = some rest) :
    "</file>".toList ++ rest <:+ text := by
  cases text with
  | nil => exact nomatch found
  | cons c after =>
      rw [closing.eq_def] at found
      split at found
      · rename_i feeds
        obtain ⟨-, rfl⟩ := List.cons.inj feeds
        rw [← eq_append_of_literal found]
        exact (List.dropWhile_suffix _).trans (List.suffix_cons c after)
      · exact nomatch found

theorem suffix_of_content {text : List Char} {found : List Char × List Char}
    (closed : content text = some found) : "</file>".toList ++ found.2 <:+ text := by
  induction text generalizing found with
  | nil => exact nomatch closed
  | cons c text ih =>
      rw [content] at closed
      split at closed
      · rename_i rest here
        obtain rfl := Option.some.inj closed
        exact suffix_of_closing here
      · obtain ⟨later, closedLater, rfl⟩ := Option.map_eq_some_iff.mp closed
        exact (ih closedLater).trans (List.suffix_cons c text)

theorem suffix_of_mem_contentStarts {text start : List Char}
    (member : start ∈ contentStarts text) : start <:+ text := by
  induction text with
  | nil => exact nomatch member
  | cons c text ih =>
      rw [contentStarts] at member
      split at member
      · rcases List.mem_append.mp member with later | here
        · exact (ih later).trans (List.suffix_cons c text)
        · split at here
          · obtain rfl := List.mem_singleton.mp here
            exact List.suffix_cons c start
          · exact nomatch here
      · exact nomatch member

theorem suffix_of_opening {text : List Char} {found : List Char × List Char}
    (opens : opening text = some found) : found.1 ++ ("\">".toList ++ found.2) <:+ text := by
  unfold opening at opens
  obtain ⟨gap, gapEq, afterGap⟩ := Option.bind_eq_some_iff.mp opens
  obtain ⟨-, -, spaced⟩ := Option.bind_eq_some_iff.mp afterGap
  obtain ⟨quoted, quotedEq, afterQuote⟩ := Option.bind_eq_some_iff.mp spaced
  obtain ⟨-, -, named⟩ := Option.bind_eq_some_iff.mp afterQuote
  obtain ⟨rest, restEq, groups⟩ := Option.bind_eq_some_iff.mp named
  obtain rfl := Option.some.inj groups
  have gapIn : gap <:+ text := ⟨_, (eq_append_of_literal gapEq).symm⟩
  have quotedIn : quoted <:+ gap.dropWhile Text.isSpace :=
    ⟨_, (eq_append_of_literal quotedEq).symm⟩
  rw [← eq_append_of_literal restEq, List.takeWhile_append_dropWhile]
  exact quotedIn.trans ((List.dropWhile_suffix _).trans gapIn)

/-- A match has its path, and an end tag behind that. -/
theorem suffix_of_matchHere {text : List Char} {found : (List Char × List Char) × List Char}
    (here : matchHere text = some found) :
    ∃ between, found.1.1 ++ (between ++ ("</file>".toList ++ found.2)) <:+ text := by
  unfold matchHere at here
  obtain ⟨⟨path, rest⟩, opens, opened⟩ := Option.bind_eq_some_iff.mp here
  obtain ⟨⟨body, behind⟩, closed, groups⟩ := Option.bind_eq_some_iff.mp opened
  obtain rfl := Option.some.inj groups
  obtain ⟨start, member, ends⟩ := List.exists_of_findSome?_eq_some closed
  obtain ⟨front, split⟩ := (suffix_of_content ends).trans (suffix_of_mem_contentStarts member)
  have within := suffix_of_opening opens
  rw [← split] at within
  refine ⟨"\">".toList ++ front, ?_⟩
  rw [List.append_assoc]
  exact within

theorem length_matchHere {text : List Char} {found : (List Char × List Char) × List Char}
    (here : matchHere text = some found) : found.2.length < text.length := by
  obtain ⟨between, within⟩ := suffix_of_matchHere here
  have shorter := within.length_le
  have tag : "</file>".toList.length = 7 := rfl
  rw [List.length_append, List.length_append, List.length_append, tag] at shorter
  omega

/-- `re.findall` -/
def findAll : List Char → List (List Char × List Char)
  | [] => []
  | c :: text =>
      match _ : matchHere (c :: text) with
      | some found => found.1 :: findAll found.2
      | none => findAll text
termination_by text => text.length
decreasing_by
  · exact length_matchHere (by assumption)
  · exact Nat.lt_succ_self _

theorem findAll_of_matchHere {text : List Char} {found : (List Char × List Char) × List Char}
    (here : matchHere text = some found) : findAll text = found.1 :: findAll found.2 := by
  cases text with
  | nil => exact nomatch here
  | cons c text =>
      rw [findAll]
      split
      · rename_i other same
        obtain rfl := Option.some.inj (same.symm.trans here)
        rfl
      · rename_i none
        exact nomatch none.symm.trans here

end FileBlocks

/-- The matches of a response, every content stripped. -/
def fileBlocks (response : String) : List (String × String) :=
  (FileBlocks.findAll response.toList).map fun groups =>
    (String.ofList groups.1, String.ofList (Text.strip id groups.2))

/-- A response that is one match has its one block. -/
theorem fileBlocks_of_matchHere {response : String} {path content : List Char}
    (here : FileBlocks.matchHere response.toList = some ((path, content), [])) :
    fileBlocks response = [(String.ofList path, String.ofList (Text.strip id content))] := by
  rw [fileBlocks, FileBlocks.findAll_of_matchHere here, FileBlocks.findAll]
  rfl

/-- `_parse_file_blocks` -/
def parseFileBlocks (response : String) : Dict String String :=
  Dict.ofEntries (fileBlocks response)

end SchedExt.Agents
