import Mathlib.Algebra.BigOperators.Group.List.Basic
import Mathlib.Algebra.Order.BigOperators.Group.List
import Mathlib.Algebra.Order.Ring.Nat
import Mathlib.Algebra.Ring.Nat
import Mathlib.Data.List.Perm.Subperm
import SchedExt.Agents.ImplAgent
import SchedExt.Foundations.Occurrence

/-!
# File blocks that were rendered are parsed back

A content is closed at the first line feed behind which only white space stands
in front of the end tag.  Where the content itself is white, the white space in
front of it takes the line feed of the end tag, and the match runs on to a later
end tag if there is one.  Each match uses up an end tag and those of its path,
so a block that ran on leaves too few of them for the others.
-/

namespace SchedExt.Agents

open Foundations
open Occurrence (occurrences)

namespace FileBlocks

def startTag : List Char := ['<', 'f', 'i', 'l', 'e']

def endTag : List Char := ['<', '/', 'f', 'i', 'l', 'e', '>']

/-- Every character is white space. -/
def Blank (text : List Char) : Prop := ∀ c ∈ text, Text.isSpace c = true

instance (text : List Char) : Decidable (Blank text) :=
  List.decidableBAll (fun c : Char => Text.isSpace c = true) text

theorem Blank.nil : Blank [] := List.forall_mem_nil _

theorem blank_iff_dropWhile {text : List Char} :
    Blank text ↔ text.dropWhile Text.isSpace = [] :=
  List.dropWhile_eq_nil_iff.symm

variable {path text rest front back : List Char}

/-! ## The pieces of the pattern -/

/-- No match begins where the tag does not. -/
theorem matchHere_eq_none (absent : ¬ startTag <+: text) : matchHere text = none := by
  have tag : "<file".toList = startTag := rfl
  unfold matchHere opening
  rw [tag, literal_eq_none absent]
  rfl

theorem findAll_cons_of_none {c : Char} (none : matchHere (c :: text) = none) :
    findAll (c :: text) = findAll text := by
  rw [findAll]
  split
  · rename_i found same
    cases same.symm.trans none
  · rfl

/-- Prose is passed up to a tag or the end. -/
theorem findAll_prose {prose : List Char} (free : ¬ startTag <:+: prose)
    (apart : Occurrence.Apart startTag rest) : findAll (prose ++ rest) = findAll rest := by
  induction prose with
  | nil => rfl
  | cons c prose ih =>
      have absent : ¬ startTag <+: c :: prose ++ rest := fun found => free
        (Occurrence.prefix_of_prefix_append (List.cons_ne_nil c prose) apart found).isInfix
      have none := matchHere_eq_none absent
      rw [List.cons_append] at none ⊢
      rw [findAll_cons_of_none none]
      exact ih fun later => free (List.infix_cons later)

/-- The rendering of the tag in front of a content. -/
def openTag (path : List Char) : List Char :=
  "<file path=\"".toList ++ (path ++ "\">".toList)

theorem opening_openTag (nonempty : path ≠ []) (unquoted : '"' ∉ path) (rest : List Char) :
    opening (openTag path ++ rest) = some (path, rest) := by
  have gap : literal "<file".toList (openTag path ++ rest) =
      some (' ' :: ("path=\"".toList ++ (path ++ ("\">".toList ++ rest)))) := by
    unfold openTag
    rw [List.append_assoc, List.append_assoc]
    rfl
  have space : (' ' :: ("path=\"".toList ++ (path ++ ("\">".toList ++ rest)))).dropWhile
      Text.isSpace = "path=\"".toList ++ (path ++ ("\">".toList ++ rest)) := rfl
  have passes : ∀ c ∈ path, decide (c ≠ '"') = true := by
    intro c member
    exact decide_eq_true fun quote => unquoted (quote ▸ member)
  have taken : (path ++ ("\">".toList ++ rest)).takeWhile (· ≠ '"') = path := by
    rw [List.takeWhile_append_of_pos passes]
    exact List.append_nil path
  have dropped : (path ++ ("\">".toList ++ rest)).dropWhile (· ≠ '"') = "\">".toList ++ rest :=
    List.dropWhile_append_of_pos passes
  have named : path.isEmpty = false := List.isEmpty_eq_false_iff.mpr nonempty
  unfold opening
  rw [gap]
  dsimp only [Option.bind_eq_bind, Option.bind_some]
  rw [space, literal_append]
  dsimp only [Option.bind_some]
  rw [taken, dropped, named, literal_append]
  rfl

/-! ## Where a content begins -/

theorem contentStarts_of_solid (solid : ∀ c ∈ text.head?, Text.isSpace c = false) :
    contentStarts text = [] := by
  cases text with
  | nil => rfl
  | cons c text =>
      have first := solid c rfl
      rw [contentStarts, first]
      rfl

/-- White space without a line feed adds no beginning. -/
theorem contentStarts_append_unbroken (blank : Blank back) (unbroken : '\n' ∉ back) :
    contentStarts (back ++ text) = contentStarts text := by
  induction back with
  | nil => rfl
  | cons c back ih =>
      obtain ⟨here, later⟩ := List.forall_mem_cons.mp blank
      have other : c ≠ '\n' := fun same => unbroken (same ▸ List.mem_cons_self)
      rw [List.cons_append, contentStarts, if_pos here, if_neg other, List.append_nil]
      exact ih later fun member => unbroken (List.mem_cons_of_mem c member)

/-- Behind a line feed of the white space is a beginning, tried after the later ones. -/
theorem contentStarts_append_break (blank : Blank front) (text : List Char) :
    ∃ others, contentStarts (front ++ '\n' :: text) = contentStarts text ++ text :: others := by
  induction front with
  | nil =>
      have feed : Text.isSpace '\n' = true := by decide
      refine ⟨[], ?_⟩
      rw [List.nil_append, contentStarts, if_pos feed, if_pos rfl]
  | cons c front ih =>
      obtain ⟨here, later⟩ := List.forall_mem_cons.mp blank
      obtain ⟨others, starts⟩ := ih later
      refine ⟨others ++ (if c = '\n' then [front ++ '\n' :: text] else []), ?_⟩
      rw [List.cons_append, contentStarts, if_pos here, starts, List.append_assoc,
        List.cons_append]

/-- The last line feed of a text that begins with one. -/
theorem exists_last_break (text : List Char) :
    ∃ front back, '\n' :: text = front ++ '\n' :: back ∧ '\n' ∉ back := by
  have member : '\n' ∈ ('\n' :: text).reverse := List.mem_reverse.mpr List.mem_cons_self
  obtain ⟨behind, before, backwards, absent⟩ := List.eq_append_cons_of_mem member
  refine ⟨before.reverse, behind.reverse, ?_, ?_⟩
  · rw [← List.reverse_reverse ('\n' :: text), backwards, List.reverse_append,
      List.reverse_cons, List.append_assoc]
    rfl
  · exact fun inside => absent (List.mem_reverse.mp inside)

/-! ## Where a content is closed -/

theorem closing_of_ne {c : Char} (other : c ≠ '\n') (text : List Char) :
    closing (c :: text) = none := by
  rw [closing.eq_def]
  split
  · rename_i same
    exact absurd (List.cons.inj same).1 other
  · rfl

theorem closing_newline (text : List Char) :
    closing ('\n' :: text) = literal endTag (text.dropWhile Text.isSpace) := rfl

/-- A line feed closes in front of an end tag if only white space stands between. -/
theorem closing_append (free : ¬ endTag <:+: text) (rest : List Char) :
    closing ('\n' :: (text ++ '\n' :: (endTag ++ rest))) =
      if Blank text then some rest else none := by
  have feed : Text.isSpace '\n' = true := by decide
  have solid : (endTag ++ rest).dropWhile Text.isSpace = endTag ++ rest := rfl
  have feeds : ('\n' :: (endTag ++ rest)).dropWhile Text.isSpace = endTag ++ rest := by
    rw [List.dropWhile_cons_of_pos feed]
    exact solid
  rw [closing_newline, List.dropWhile_append, feeds]
  split
  · rename_i blank
    rw [if_pos (blank_iff_dropWhile.mpr (List.isEmpty_iff.mp blank))]
    exact literal_append endTag rest
  · rename_i started
    have nonempty : text.dropWhile Text.isSpace ≠ [] := fun none =>
      started (List.isEmpty_iff.mpr none)
    rw [if_neg fun blank => nonempty (blank_iff_dropWhile.mp blank)]
    apply literal_eq_none
    intro found
    have apart : Occurrence.Apart endTag ('\n' :: (endTag ++ rest)) := .cons (by decide) _
    have within := Occurrence.prefix_of_prefix_append nonempty apart found
    exact free (within.isInfix.trans (List.dropWhile_suffix _).isInfix)

/-- A content is closed where only white space is left of it. -/
theorem content_append (free : ¬ endTag <:+: text) (rest : List Char) :
    ∃ body after, text = body ++ after ∧ Blank after ∧
      content (text ++ '\n' :: (endTag ++ rest)) = some (body, rest) := by
  induction text with
  | nil =>
      have closed : closing ('\n' :: (endTag ++ rest)) = some rest := literal_append endTag rest
      refine ⟨[], [], rfl, Blank.nil, ?_⟩
      rw [List.nil_append, content, closed]
  | cons c text ih =>
      have later : ¬ endTag <:+: text := fun inside => free (List.infix_cons inside)
      by_cases closes : c = '\n' ∧ Blank text
      · obtain ⟨rfl, blank⟩ := closes
        have closed := closing_append later rest
        rw [if_pos blank] at closed
        have all : Blank ('\n' :: text) := List.forall_mem_cons.mpr ⟨by decide, blank⟩
        refine ⟨[], '\n' :: text, rfl, all, ?_⟩
        rw [List.cons_append, content, closed]
      · obtain ⟨body, after, whole, blank, closed⟩ := ih later
        have remains : closing (c :: (text ++ '\n' :: (endTag ++ rest))) = none := by
          by_cases feed : c = '\n'
          · rw [feed, closing_append later, if_neg fun all => closes ⟨feed, all⟩]
          · exact closing_of_ne feed _
        refine ⟨c :: body, after, by rw [whole, List.cons_append], blank, ?_⟩
        rw [List.cons_append, content, remains]
        dsimp only
        rw [closed]
        rfl

/-- Without an end tag no content is closed. -/
theorem content_eq_none (free : ¬ endTag <:+: text) : content text = none := by
  induction text with
  | nil => rfl
  | cons c text ih =>
      have later : ¬ endTag <:+: text := fun inside => free (List.infix_cons inside)
      have remains : closing (c :: text) = none := by
        by_cases feed : c = '\n'
        · rw [feed, closing_newline]
          apply literal_eq_none
          intro found
          exact later (found.isInfix.trans (List.dropWhile_suffix _).isInfix)
        · exact closing_of_ne feed text
      rw [content, remains, ih later]
      rfl

/-- A content is closed if an end tag begins a line. -/
theorem exists_content (text rest : List Char) :
    ∃ found, content (text ++ '\n' :: (endTag ++ rest)) = some found := by
  induction text with
  | nil =>
      have closed : closing ('\n' :: (endTag ++ rest)) = some rest := literal_append endTag rest
      refine ⟨([], rest), ?_⟩
      rw [List.nil_append, content, closed]
  | cons c text ih =>
      obtain ⟨found, later⟩ := ih
      rw [List.cons_append, content]
      cases closing (c :: (text ++ '\n' :: (endTag ++ rest))) with
      | some behind => exact ⟨([], behind), rfl⟩
      | none =>
          refine ⟨(c :: found.1, found.2), ?_⟩
          dsimp only
          rw [later]
          rfl

/-- A content that begins with an end tag goes on to a later one. -/
theorem content_endTag_append (text rest : List Char) :
    ∃ body behind,
      content (endTag ++ (text ++ '\n' :: (endTag ++ rest))) = some ('<' :: body, behind) := by
  obtain ⟨found, later⟩ := exists_content (endTag.tail ++ text) rest
  refine ⟨found.1, found.2, ?_⟩
  rw [List.append_assoc] at later
  change content ('<' :: (endTag.tail ++ (text ++ '\n' :: (endTag ++ rest)))) = _
  rw [content, closing_of_ne (by decide), later]
  rfl

theorem content_endTag_eq_none (free : ¬ endTag <:+: rest) : content (endTag ++ rest) = none := by
  have shorter : ¬ endTag <:+: endTag.tail ++ rest := fun found =>
    free (Occurrence.infix_of_infix_append (by decide) found)
  change content ('<' :: (endTag.tail ++ rest)) = _
  rw [content, closing_of_ne (by decide), content_eq_none shorter]
  rfl

/-! ## One block -/

/-- The rendering of a path and a content, each of its tags beginning a line. -/
def tagged (path content : List Char) : List Char :=
  openTag path ++ '\n' :: (content ++ '\n' :: endTag)

theorem tagged_append (path content rest : List Char) :
    tagged path content ++ rest =
      openTag path ++ ('\n' :: (content ++ '\n' :: (endTag ++ rest))) := by
  unfold tagged
  rw [List.append_assoc, List.cons_append, List.append_assoc, List.cons_append]

/-- A match is made of an opening and of the first beginning whose content is closed. -/
theorem matchHere_openTag {found : List Char × List Char} (nonempty : path ≠ [])
    (unquoted : '"' ∉ path) (closed : (contentStarts rest).findSome? content = some found) :
    matchHere (openTag path ++ rest) = some ((path, found.1), found.2) := by
  unfold matchHere
  rw [opening_openTag nonempty unquoted]
  dsimp only [Option.bind_eq_bind, Option.bind_some]
  rw [closed]
  rfl

/-- What is to see of a text stands behind its leading white space. -/
theorem exists_seen {text : List Char} (visible : ¬ Blank text) :
    ∃ lead seen, text = lead ++ seen ∧ Blank lead ∧ seen ≠ [] ∧
      ∀ c ∈ seen.head?, Text.isSpace c = false := by
  refine ⟨text.takeWhile Text.isSpace, text.dropWhile Text.isSpace, ?_, ?_, ?_, ?_⟩
  · exact List.takeWhile_append_dropWhile.symm
  · exact fun c member => List.mem_takeWhile_imp member
  · exact fun none => visible (blank_iff_dropWhile.mpr none)
  · intro c first
    have stopped := List.head?_dropWhile_not Text.isSpace text
    rw [Option.mem_def.mp first] at stopped
    exact stopped

/-- White space behind a line feed is parted by the last line feed of the two. -/
theorem exists_blank_break {lead : List Char} (spaces : Blank lead) :
    ∃ front back, '\n' :: lead = front ++ '\n' :: back ∧ '\n' ∉ back ∧ Blank front ∧
      Blank back := by
  obtain ⟨front, back, split, unbroken⟩ := exists_last_break lead
  have blanks : Blank (front ++ '\n' :: back) := by
    rw [← split]
    exact List.forall_mem_cons.mpr ⟨by decide, spaces⟩
  refine ⟨front, back, split, unbroken, fun c member => ?_, fun c member => ?_⟩
  · exact blanks c (List.mem_append_left _ member)
  · exact blanks c (List.mem_append_right _ (List.mem_cons_of_mem _ member))

/-- A content with something to see is found, up to white space at its ends. -/
theorem findSome?_content_of_visible {text : List Char} (free : ¬ endTag <:+: text)
    (visible : ¬ Blank text) (rest : List Char) :
    ∃ body, Text.strip id body = Text.strip id text ∧
      (contentStarts ('\n' :: (text ++ '\n' :: (endTag ++ rest)))).findSome? content =
        some (body, rest) := by
  obtain ⟨lead, seen, rfl, spaces, nonempty, first⟩ := exists_seen visible
  obtain ⟨front, back, split, unbroken, blankFront, blankBack⟩ := exists_blank_break spaces
  have solid : ∀ c ∈ (seen ++ '\n' :: (endTag ++ rest)).head?, Text.isSpace c = false := by
    rw [List.head?_append_of_ne_nil _ nonempty]
    exact first
  have shape : '\n' :: ((lead ++ seen) ++ '\n' :: (endTag ++ rest)) =
      front ++ '\n' :: (back ++ (seen ++ '\n' :: (endTag ++ rest))) := by
    rw [List.append_assoc, ← List.cons_append, split, List.append_assoc, List.cons_append]
  have short : ¬ endTag <:+: back ++ seen := by
    intro found
    have outside : '<' ∉ back := fun member => absurd (blankBack _ member) (by decide)
    have inSeen := Occurrence.infix_of_infix_append outside found
    exact free (List.infix_append_of_infix_right inSeen)
  obtain ⟨body, after, ends, blankAfter, closed⟩ := content_append short rest
  obtain ⟨others, starts⟩ :=
    contentStarts_append_break blankFront (back ++ (seen ++ '\n' :: (endTag ++ rest)))
  refine ⟨body, ?_, ?_⟩
  · calc Text.strip id body = Text.strip id ([] ++ (body ++ after)) :=
          (Text.strip_append id Blank.nil blankAfter body).symm
      _ = Text.strip id (back ++ (seen ++ [])) := by
          rw [List.nil_append, ← ends, List.append_nil]
      _ = Text.strip id seen :=
          Text.strip_append id blankBack Blank.nil seen
      _ = Text.strip id (lead ++ (seen ++ [])) :=
          (Text.strip_append id spaces Blank.nil seen).symm
      _ = Text.strip id (lead ++ seen) := by rw [List.append_nil]
  · rw [List.append_assoc] at closed
    rw [shape, starts, contentStarts_append_unbroken blankBack unbroken,
      contentStarts_of_solid solid, List.nil_append, List.findSome?_cons, closed]

/-- White space takes the line feed of the end tag first, and gives it back after that. -/
theorem contentStarts_of_blank {text : List Char} (blank : Blank text) (rest : List Char) :
    ∃ back others, Blank back ∧ contentStarts ('\n' :: (text ++ '\n' :: (endTag ++ rest))) =
      (endTag ++ rest) :: (back ++ '\n' :: (endTag ++ rest)) :: others := by
  obtain ⟨front, back, split, unbroken, blankFront, blankBack⟩ := exists_blank_break blank
  have shape : '\n' :: (text ++ '\n' :: (endTag ++ rest)) =
      front ++ '\n' :: (back ++ '\n' :: (endTag ++ rest)) := by
    rw [← List.cons_append, split, List.append_assoc, List.cons_append]
  have feed : Text.isSpace '\n' = true := by decide
  have solid : ∀ c ∈ (endTag ++ rest).head?, Text.isSpace c = false := by
    rintro c ⟨rfl⟩
    decide
  obtain ⟨others, starts⟩ :=
    contentStarts_append_break blankFront (back ++ '\n' :: (endTag ++ rest))
  refine ⟨back, others, blankBack, ?_⟩
  rw [shape, starts, contentStarts_append_unbroken blankBack unbroken, contentStarts,
    if_pos feed, if_pos rfl, contentStarts_of_solid solid]
  rfl

/-- A white content that no end tag follows is found white. -/
theorem findSome?_content_of_blank {text : List Char} (blank : Blank text)
    (free : ¬ endTag <:+: rest) :
    ∃ body, Blank body ∧
      (contentStarts ('\n' :: (text ++ '\n' :: (endTag ++ rest)))).findSome? content =
        some (body, rest) := by
  obtain ⟨back, others, blankBack, starts⟩ := contentStarts_of_blank blank rest
  have short : ¬ endTag <:+: back := fun found =>
    absurd (blankBack '<' (found.subset (by decide))) (by decide)
  obtain ⟨body, after, ends, _, closed⟩ := content_append short rest
  refine ⟨body, ?_, ?_⟩
  · intro c member
    apply blankBack
    rw [ends]
    exact List.mem_append_left _ member
  · rw [starts, List.findSome?_cons, content_endTag_eq_none free]
    dsimp only
    rw [List.findSome?_cons, closed]

/-- A white content that an end tag follows begins with its own. -/
theorem findSome?_content_of_overrun {text : List Char} (blank : Blank text)
    (more rest : List Char) :
    ∃ body behind, (contentStarts ('\n' :: (text ++ '\n' :: (endTag ++
        (more ++ '\n' :: (endTag ++ rest)))))).findSome? content = some ('<' :: body, behind) := by
  obtain ⟨back, others, _, starts⟩ :=
    contentStarts_of_blank blank (more ++ '\n' :: (endTag ++ rest))
  obtain ⟨body, behind, closed⟩ := content_endTag_append more rest
  refine ⟨body, behind, ?_⟩
  rw [starts, List.findSome?_cons, closed]

/-! ## All blocks -/

/-- A path and a content, and the prose in front of their rendering. -/
structure Block where
  prose : String
  path : String
  content : String

namespace Block

/-- What the parser is to make of the block. -/
def entry (block : Block) : String × String :=
  (block.path, String.ofList (Text.strip id block.content.toList))

end Block

/-- Prose has neither the beginning of a block nor its end. -/
structure Prose (text : String) : Prop where
  unopened : ¬ startTag <:+: text.toList
  unclosed : ¬ endTag <:+: text.toList

/-- What is promised of the blocks and of the prose around them. -/
structure Renderable (blocks : List Block) (last : String) : Prop where
  prose : ∀ block ∈ blocks, Prose block.prose
  named : ∀ block ∈ blocks, block.path.toList ≠ []
  unquoted : ∀ block ∈ blocks, '"' ∉ block.path.toList
  unclosed : ∀ block ∈ blocks, ¬ endTag <:+: block.content.toList
  distinct : (blocks.map Block.path).Nodup
  closing : Prose last

/-- The blocks, each behind its prose, and the prose behind them. -/
def rendered (last : String) : List Block → List Char
  | [] => last.toList
  | block :: rest =>
      block.prose.toList ++
        (tagged block.path.toList block.content.toList ++ rendered last rest)

variable {block next : Block} {blocks : List Block} {last : String}

theorem Renderable.tail (renderable : Renderable (block :: blocks) last) :
    Renderable blocks last where
  prose := fun other member => renderable.prose other (List.mem_cons_of_mem block member)
  named := fun other member => renderable.named other (List.mem_cons_of_mem block member)
  unquoted := fun other member => renderable.unquoted other (List.mem_cons_of_mem block member)
  unclosed := fun other member => renderable.unclosed other (List.mem_cons_of_mem block member)
  distinct := (List.nodup_cons.mp renderable.distinct).2
  closing := renderable.closing

theorem Renderable.perm {blocks other : List Block} (renderable : Renderable blocks last)
    (same : other.Perm blocks) : Renderable other last where
  prose := fun block member => renderable.prose block (same.mem_iff.mp member)
  named := fun block member => renderable.named block (same.mem_iff.mp member)
  unquoted := fun block member => renderable.unquoted block (same.mem_iff.mp member)
  unclosed := fun block member => renderable.unclosed block (same.mem_iff.mp member)
  distinct := (same.map Block.path).nodup_iff.mpr renderable.distinct
  closing := renderable.closing

theorem Renderable.distinct_entries (renderable : Renderable blocks last) :
    ((blocks.map Block.entry).map Prod.fst).Nodup := by
  rw [List.map_map]
  exact renderable.distinct

/-- Behind the prose of a block the search goes on at its tag. -/
theorem findAll_rendered_cons (renderable : Renderable (block :: blocks) last) :
    findAll (rendered last (block :: blocks)) =
      findAll (openTag block.path.toList ++ ('\n' :: (block.content.toList ++
        '\n' :: (endTag ++ rendered last blocks)))) := by
  have free := (renderable.prose block List.mem_cons_self).unopened
  rw [rendered, tagged_append]
  exact findAll_prose free (.cons (by decide) _)

/-- A match at the tag of the first block is the first of all. -/
theorem findAll_rendered_of_found {found : List Char × List Char}
    (renderable : Renderable (block :: blocks) last)
    (closed : (contentStarts ('\n' :: (block.content.toList ++
      '\n' :: (endTag ++ rendered last blocks)))).findSome? content = some found) :
    findAll (rendered last (block :: blocks)) =
      (block.path.toList, found.1) :: findAll found.2 := by
  have here := matchHere_openTag (renderable.named block List.mem_cons_self)
    (renderable.unquoted block List.mem_cons_self) closed
  rw [findAll_rendered_cons renderable, findAll_of_matchHere here]

/-- A block with something to see is found, and the search goes on behind it. -/
theorem findAll_rendered_of_visible (renderable : Renderable (block :: blocks) last)
    (visible : ¬ Blank block.content.toList) :
    ∃ body, Text.strip id body = Text.strip id block.content.toList ∧
      findAll (rendered last (block :: blocks)) =
        (block.path.toList, body) :: findAll (rendered last blocks) := by
  obtain ⟨body, stripped, closed⟩ := findSome?_content_of_visible
    (renderable.unclosed block List.mem_cons_self) visible (rendered last blocks)
  exact ⟨body, stripped, findAll_rendered_of_found renderable closed⟩

/-- Behind the last block there is nothing to find. -/
theorem findAll_last (prose : Prose last) : findAll last.toList = [] := by
  have whole := findAll_prose prose.unopened (Occurrence.Apart.nil startTag)
  rw [List.append_nil, findAll] at whole
  exact whole

theorem strip_of_blank (blank : Blank text) : Text.strip id text = [] := by
  have whole := Text.strip_append id blank Blank.nil []
  rw [List.append_nil, List.append_nil] at whole
  exact whole

/-- The last block is found, white or not. -/
theorem findAll_rendered_last (renderable : Renderable [block] last) :
    ∃ body, Text.strip id body = Text.strip id block.content.toList ∧
      findAll (rendered last [block]) = [(block.path.toList, body)] := by
  by_cases blank : Blank block.content.toList
  · obtain ⟨body, blankBody, closed⟩ :=
      findSome?_content_of_blank blank renderable.closing.unclosed
    refine ⟨body, ?_, ?_⟩
    · rw [strip_of_blank blank, strip_of_blank blankBody]
    · rw [findAll_rendered_of_found renderable closed, findAll_last renderable.closing]
  · obtain ⟨body, stripped, found⟩ := findAll_rendered_of_visible renderable blank
    refine ⟨body, stripped, ?_⟩
    rw [found, rendered, findAll_last renderable.closing]

/-- Every content but the last has something to see. -/
def Visible (blocks : List Block) : Prop :=
  ∀ block ∈ blocks.dropLast, ¬ Blank block.content.toList

/-- Where every content but the last has something to see, every block is found. -/
theorem findAll_rendered (renderable : Renderable blocks last) (visible : Visible blocks) :
    (findAll (rendered last blocks)).map
        (fun groups => (String.ofList groups.1, String.ofList (Text.strip id groups.2))) =
      blocks.map Block.entry := by
  induction blocks with
  | nil =>
      rw [rendered, findAll_last renderable.closing]
      rfl
  | cons block rest ih =>
      cases rest with
      | nil =>
          obtain ⟨body, stripped, found⟩ := findAll_rendered_last renderable
          rw [found, List.map_singleton, List.map_singleton, stripped, String.ofList_toList]
          rfl
      | cons next rest =>
          unfold Visible at visible
          rw [List.dropLast_cons_cons, List.forall_mem_cons] at visible
          obtain ⟨body, stripped, found⟩ :=
            findAll_rendered_of_visible renderable visible.1
          rw [found, List.map_cons, ih renderable.tail visible.2, stripped, String.ofList_toList]
          rfl

/-! ## Blocks that are lost -/

/-- A white content in front of another block begins with its own end tag. -/
theorem findAll_rendered_of_overrun (renderable : Renderable (block :: next :: blocks) last)
    (blank : Blank block.content.toList) :
    ∃ body, (block.path.toList, '<' :: body) ∈
      findAll (rendered last (block :: next :: blocks)) := by
  have whole : rendered last (next :: blocks) =
      next.prose.toList ++ (openTag next.path.toList ++ '\n' :: next.content.toList) ++
        '\n' :: (endTag ++ rendered last blocks) := by
    rw [rendered, tagged_append, List.append_assoc, List.append_assoc, List.cons_append]
  obtain ⟨body, behind, closed⟩ := findSome?_content_of_overrun blank
    (next.prose.toList ++ (openTag next.path.toList ++ '\n' :: next.content.toList))
    (rendered last blocks)
  rw [← whole] at closed
  refine ⟨body, ?_⟩
  rw [findAll_rendered_of_found renderable closed]
  exact List.mem_cons_self

/-- If a content other than the last is white, a white one begins with its own end tag. -/
theorem exists_overrun (renderable : Renderable blocks last) (hidden : ¬ Visible blocks) :
    ∃ block ∈ blocks, Blank block.content.toList ∧
      ∃ body, (block.path.toList, '<' :: body) ∈ findAll (rendered last blocks) := by
  induction blocks with
  | nil => exact absurd (List.forall_mem_nil _) hidden
  | cons block rest ih =>
      cases rest with
      | nil => exact absurd (List.forall_mem_nil _) hidden
      | cons next rest =>
          by_cases blank : Blank block.content.toList
          · exact ⟨block, List.mem_cons_self, blank, findAll_rendered_of_overrun renderable blank⟩
          · have later : ¬ Visible (next :: rest) := by
              intro visible
              apply hidden
              unfold Visible
              rw [List.dropLast_cons_cons, List.forall_mem_cons]
              exact ⟨blank, visible⟩
            obtain ⟨other, member, blankOther, junk, taken⟩ := ih renderable.tail later
            obtain ⟨body, _, found⟩ := findAll_rendered_of_visible renderable blank
            refine ⟨other, List.mem_cons_of_mem block member, blankOther, junk, ?_⟩
            rw [found]
            exact List.mem_cons_of_mem _ taken

/-! ## End tags -/

/-- The end tags of a block: those of its path, and its own. -/
def endTags (path : List Char) : Nat := occurrences endTag path + 1

theorem occurrences_endTag_cons {c : Char} (other : '<' ≠ c) (text : List Char) :
    occurrences endTag (c :: text) = occurrences endTag text :=
  Occurrence.occurrences_append_of_not_mem (mt List.mem_singleton.mp other) text

theorem occurrences_endTag_append (rest : List Char) :
    occurrences endTag (endTag ++ rest) = occurrences endTag rest + 1 :=
  Occurrence.occurrences_self_append (by decide) rest

/-- A match uses up its end tag and those of its path. -/
theorem endTags_add_le {found : (List Char × List Char) × List Char}
    (here : matchHere text = some found) :
    endTags found.1.1 + occurrences endTag found.2 ≤ occurrences endTag text := by
  obtain ⟨between, within⟩ := suffix_of_matchHere here
  have behind : occurrences endTag found.2 + 1 ≤
      occurrences endTag (between ++ (endTag ++ found.2)) := by
    rw [← occurrences_endTag_append]
    exact Occurrence.occurrences_le_of_suffix (List.suffix_append between _)
  calc endTags found.1.1 + occurrences endTag found.2
      = occurrences endTag found.1.1 + (occurrences endTag found.2 + 1) := by
        rw [endTags, Nat.add_assoc, Nat.add_comm 1]
    _ ≤ occurrences endTag found.1.1 + occurrences endTag (between ++ (endTag ++ found.2)) :=
        Nat.add_le_add_left behind _
    _ ≤ occurrences endTag (found.1.1 ++ (between ++ (endTag ++ found.2))) :=
        Occurrence.add_occurrences_le endTag _ _
    _ ≤ occurrences endTag text := Occurrence.occurrences_le_of_suffix within

/-- Matches do not share end tags. -/
theorem sum_endTags_findAll_le (text : List Char) :
    ((findAll text).map fun groups => endTags groups.1).sum ≤ occurrences endTag text := by
  induction text using findAll.induct with
  | case1 =>
      rw [findAll]
      exact Nat.zero_le _
  | case2 c text found here ih =>
      rw [findAll_of_matchHere here, List.map_cons, List.sum_cons]
      exact (Nat.add_le_add_left ih _).trans (endTags_add_le here)
  | case3 c text none ih =>
      rw [findAll_cons_of_none none]
      exact ih.trans (Occurrence.occurrences_le_of_suffix (List.suffix_cons c text))

theorem occurrences_openTag_append (path rest : List Char) :
    occurrences endTag (openTag path ++ rest) =
      occurrences endTag path + occurrences endTag rest := by
  have shape : openTag path ++ rest =
      "<file path=".toList ++ '"' :: (path ++ '"' :: '>' :: rest) := by
    unfold openTag
    rw [List.append_assoc, List.append_assoc]
    rfl
  have quote : '"' ∉ endTag.tail := by decide
  have none : occurrences endTag "<file path=".toList = 0 := by decide
  rw [shape, Occurrence.occurrences_append (.cons quote _), none, Nat.zero_add,
    occurrences_endTag_cons (by decide), Occurrence.occurrences_append (.cons quote _),
    occurrences_endTag_cons (by decide), occurrences_endTag_cons (by decide)]

/-- What was rendered has the end tags of its blocks and no others. -/
theorem occurrences_rendered (renderable : Renderable blocks last) :
    occurrences endTag (rendered last blocks) =
      (blocks.map fun block => endTags block.path.toList).sum := by
  induction blocks with
  | nil => exact Occurrence.occurrences_of_not_infix renderable.closing.unclosed
  | cons block rest ih =>
      have prose := Occurrence.occurrences_of_not_infix
        (renderable.prose block List.mem_cons_self).unclosed
      have content := Occurrence.occurrences_of_not_infix
        (renderable.unclosed block List.mem_cons_self)
      have feed : '\n' ∉ endTag.tail := by decide
      have tag : Occurrence.Apart endTag
          (tagged block.path.toList block.content.toList ++ rendered last rest) :=
        .cons (by decide) _
      rw [rendered, Occurrence.occurrences_append tag, prose, tagged_append,
        occurrences_openTag_append, occurrences_endTag_cons (by decide),
        Occurrence.occurrences_append (.cons feed _), content, occurrences_endTag_cons (by decide),
        occurrences_endTag_append, ih renderable.tail, List.map_cons, List.sum_cons, endTags]
      omega

end FileBlocks

section RoundTrip

open FileBlocks

variable {blocks : List Block} {last : String}

theorem fileBlocks_rendered :
    fileBlocks (String.ofList (rendered last blocks)) =
      (findAll (rendered last blocks)).map fun groups =>
        (String.ofList groups.1, String.ofList (Text.strip id groups.2)) := by
  rw [fileBlocks, String.toList_ofList]

/-- Where every content but the last has something to see, the response is parsed as rendered. -/
theorem parseFileBlocks_of_visible (renderable : Renderable blocks last)
    (visible : Visible blocks) :
    parseFileBlocks (String.ofList (rendered last blocks)) =
      Dict.ofEntries (blocks.map Block.entry) := by
  rw [parseFileBlocks, fileBlocks_rendered, findAll_rendered renderable visible]

/-- What stripping leaves of a text that begins with a visible character. -/
theorem strip_ne_nil {c : Char} (solid : Text.isSpace c = false) (text : List Char) :
    Text.strip id (c :: text) ≠ [] := by
  intro empty
  have kept := Text.countP_solid_strip (c :: text)
  rw [empty, List.countP_nil, List.countP_cons_of_pos (by rw [solid]; rfl)] at kept
  exact absurd kept.symm (Nat.succ_ne_zero _)

/-- The mapping from every path to its stripped content. -/
def Recovered (parsed : Dict String String) (blocks : List Block) : Prop :=
  ∀ path, parsed.get? path = (Dict.ofEntries (blocks.map Block.entry)).get? path

/-- What is recovered is among the matches. -/
theorem subset_fileBlocks_of_recovered {response : String} (renderable : Renderable blocks last)
    (recovered : Recovered (parseFileBlocks response) blocks) :
    blocks.map Block.entry ⊆ fileBlocks response := by
  intro entry member
  apply Dict.mem_of_get?_ofEntries
  have expected := Dict.get?_ofEntries_of_mem renderable.distinct_entries member
  exact (recovered entry.1).trans expected

/-- A content that begins with an end tag is not that of a block with a white one. -/
theorem overrun_not_mem_entries {block : Block} (renderable : Renderable blocks last)
    (member : block ∈ blocks) (blank : Blank block.content.toList) (body : List Char) :
    (block.path, String.ofList (Text.strip id ('<' :: body))) ∉ blocks.map Block.entry := by
  intro inside
  have distinct := renderable.distinct_entries
  have white : (block.path, String.ofList []) ∈ blocks.map Block.entry := by
    rw [← strip_of_blank blank]
    exact List.mem_map_of_mem member
  have same := (Dict.get?_ofEntries_of_mem distinct inside).symm.trans
    (Dict.get?_ofEntries_of_mem distinct white)
  exact strip_ne_nil (by decide) body (String.ofList_injective (Option.some.inj same))

/-- Of the matches of a text there are no more than its end tags allow. -/
theorem sum_endTags_le {entries : List (String × String)} {response : String}
    (within : entries.Subperm (fileBlocks response)) :
    (entries.map fun entry => endTags entry.1.toList).sum ≤
      occurrences endTag response.toList := by
  obtain ⟨part, same, sublist⟩ := within
  calc (entries.map fun entry => endTags entry.1.toList).sum
      = (part.map fun entry => endTags entry.1.toList).sum := (same.map _).sum_eq.symm
    _ ≤ ((fileBlocks response).map fun entry => endTags entry.1.toList).sum :=
        (sublist.map _).sum_le_sum fun _ _ => Nat.zero_le _
    _ = ((findAll response.toList).map fun groups => endTags groups.1).sum := by
        rw [fileBlocks, List.map_map]
        simp only [Function.comp_def, String.toList_ofList]
    _ ≤ occurrences endTag response.toList := sum_endTags_findAll_le _

/-- Where another content is white, the end tags do not suffice for all blocks. -/
theorem visible_of_recovered (renderable : Renderable blocks last)
    (recovered : Recovered (parseFileBlocks (String.ofList (rendered last blocks))) blocks) :
    Visible blocks := by
  by_contra hidden
  obtain ⟨block, member, blank, body, taken⟩ := exists_overrun renderable hidden
  have extra := overrun_not_mem_entries renderable member blank body
  have overrun : (block.path, String.ofList (Text.strip id ('<' :: body))) ∈
      fileBlocks (String.ofList (rendered last blocks)) := by
    rw [fileBlocks_rendered]
    exact List.mem_map.mpr ⟨_, taken, by rw [String.ofList_toList]⟩
  have all := subset_fileBlocks_of_recovered renderable recovered
  have distinct := List.nodup_cons.mpr ⟨extra, renderable.distinct_entries.of_map Prod.fst⟩
  have enough := sum_endTags_le (distinct.subperm (List.cons_subset.mpr ⟨overrun, all⟩))
  rw [String.toList_ofList, occurrences_rendered renderable, List.map_cons, List.sum_cons,
    List.map_map] at enough
  exact absurd enough (Nat.not_le_of_lt (Nat.lt_add_of_pos_left (Nat.succ_pos _)))

/--
Both parsers recover rendered blocks exactly when every content but the last
has something to see.
-/
theorem parseFileBlocks_rendered_iff (renderable : Renderable blocks last) :
    (Recovered (parseFileBlocks (String.ofList (rendered last blocks))) blocks ↔
        Visible blocks) ∧
      ∀ {Text : Type} (workspace : Workspace Text),
        Recovered (ImplAgent.parseBlocks workspace (String.ofList (rendered last blocks))).2
          blocks ↔ Visible blocks := by
  have both : Recovered (parseFileBlocks (String.ofList (rendered last blocks))) blocks ↔
      Visible blocks := by
    constructor
    · exact visible_of_recovered renderable
    · intro visible path
      rw [parseFileBlocks_of_visible renderable visible]
  exact ⟨both, fun _ => both⟩

/-- Two blocks, the second of them with nothing in it. -/
def proofAndStub : List Block :=
  [⟨"Two files:\n", "specs/a.dfy", "lemma A() \x7b \x7d"⟩, ⟨"\n\n", "specs/b.dfy", " "⟩]

theorem renderable_proofAndStub : Renderable proofAndStub "\nDone." where
  prose := by
    refine List.forall_mem_cons.mpr ⟨⟨by decide, by decide⟩, ?_⟩
    exact List.forall_mem_singleton.mpr ⟨by decide, by decide⟩
  named := by decide
  unquoted := by decide
  unclosed := by decide
  distinct := by decide
  closing := ⟨by decide, by decide⟩

theorem proofAndStub_recovered :
    Recovered (parseFileBlocks (String.ofList (rendered "\nDone." proofAndStub))) proofAndStub :=
  (parseFileBlocks_rendered_iff renderable_proofAndStub).1.mpr (by unfold Visible; decide)

/-- The same blocks the other way round. -/
def stubAndProof : List Block :=
  proofAndStub.reverse

theorem stubAndProof_lost :
    Renderable stubAndProof "\nDone." ∧
      ¬ Recovered (parseFileBlocks (String.ofList (rendered "\nDone." stubAndProof)))
        stubAndProof := by
  have renderable := renderable_proofAndStub.perm (List.reverse_perm proofAndStub)
  have hidden : ¬ Visible stubAndProof := by
    unfold Visible
    decide
  exact ⟨renderable, fun recovered => hidden (visible_of_recovered renderable recovered)⟩

end RoundTrip

end SchedExt.Agents
