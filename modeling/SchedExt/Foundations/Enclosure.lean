import Mathlib.Data.List.DropRight
import Mathlib.Data.List.TakeWhile

/-!
# The widest part between two brackets

A greedy search finds the part from the first opening bracket of a text to its
last closing one.  Every bracketed part of the text lies within it.
-/

namespace SchedExt.Foundations.Enclosure

universe u

variable {Sign : Type u} [DecidableEq Sign] (opening closing : Sign)

/-- The first match of an opening bracket, any text and a closing bracket. -/
def widest (text : List Sign) : Option (List Sign) :=
  match text.dropWhile (· ≠ opening) with
  | [] => none
  | sign :: rest =>
      match rest.rdropWhile (· ≠ closing) with
      | [] => none
      | body => some (sign :: body)

/-- A text that begins and ends with the brackets. -/
def Bracketed (text : List Sign) : Prop := ∃ body, text = opening :: (body ++ [closing])

/-- A part from the first opening bracket to the last closing one. -/
structure Widest (text part : List Sign) : Prop where
  bracketed : Bracketed opening closing part
  whole : ∃ before after, text = before ++ (part ++ after) ∧ opening ∉ before ∧ closing ∉ after

variable {opening closing} {text part before after : List Sign}

theorem dropWhile_ne_eq_cons {sign : Sign} {rest : List Sign}
    (found : text.dropWhile (· ≠ opening) = sign :: rest) :
    sign = opening ∧ ∃ before, text = before ++ sign :: rest ∧ opening ∉ before := by
  have stops := List.head?_dropWhile_not (· ≠ opening) text
  rw [found] at stops
  have same : sign = opening := of_not_not (of_decide_eq_false stops)
  refine ⟨same, text.takeWhile (· ≠ opening), ?_, fun member => ?_⟩
  · rw [← found, List.takeWhile_append_dropWhile]
  · have passes := List.mem_takeWhile_imp member
    exact of_decide_eq_true passes rfl

theorem rdropWhile_ne_eq {rest body : List Sign}
    (found : rest.rdropWhile (· ≠ closing) = body) (nonempty : body ≠ []) :
    (∃ inner, body = inner ++ [closing]) ∧ ∃ after, rest = body ++ after ∧ closing ∉ after := by
  have stops := List.rdropWhile_last_not (· ≠ closing) rest (found ▸ nonempty)
  have last : body.getLast nonempty = closing := by
    subst found
    exact of_not_not fun other => stops (decide_eq_true other)
  refine ⟨⟨body.dropLast, ?_⟩, rest.rtakeWhile (· ≠ closing), ?_, fun member => ?_⟩
  · have whole := List.dropLast_append_getLast nonempty
    rw [last] at whole
    exact whole.symm
  · rw [← found, List.rdropWhile_append_rtakeWhile]
  · have passes := List.mem_rtakeWhile_imp member
    exact of_decide_eq_true passes rfl

theorem dropWhile_ne_append (absent : opening ∉ before) (rest : List Sign) :
    (before ++ opening :: rest).dropWhile (· ≠ opening) = opening :: rest := by
  have passes : ∀ sign ∈ before, decide (sign ≠ opening) = true :=
    fun sign member => decide_eq_true fun same => absent (same ▸ member)
  rw [List.dropWhile_append_of_pos passes, List.dropWhile_cons_of_neg]
  exact fun other => of_decide_eq_true other rfl

theorem rdropWhile_ne_append (missing : closing ∉ after) (body : List Sign) :
    ((body ++ [closing]) ++ after).rdropWhile (· ≠ closing) = body ++ [closing] := by
  have absent : closing ∉ after.reverse := fun member => missing (List.mem_reverse.mp member)
  have mirrored := dropWhile_ne_append absent body.reverse
  rw [List.rdropWhile, List.reverse_append, List.reverse_append, List.reverse_singleton,
    List.singleton_append, mirrored, List.reverse_cons, List.reverse_reverse]

/-- The search finds a part exactly when that is the widest. -/
theorem widest_eq_some_iff :
    widest opening closing text = some part ↔ Widest opening closing text part := by
  constructor
  · intro found
    unfold widest at found
    split at found
    · cases found
    · rename_i sign rest opened
      obtain ⟨rfl, before, whole, absent⟩ := dropWhile_ne_eq_cons opened
      split at found
      · cases found
      · rename_i nonempty
        obtain rfl := Option.some.inj found
        obtain ⟨⟨inner, ends⟩, after, splits, missing⟩ := rdropWhile_ne_eq rfl nonempty
        refine ⟨⟨inner, congrArg _ ends⟩, before, after, ?_, absent, missing⟩
        rw [whole, List.cons_append, ← splits]
  · rintro ⟨⟨body, rfl⟩, before, after, rfl, absent, missing⟩
    have opened := dropWhile_ne_append absent (body ++ [closing] ++ after)
    have closed := rdropWhile_ne_append missing body
    unfold widest
    rw [List.cons_append, opened]
    dsimp only
    rw [closed]
    split
    · rename_i empty
      exact absurd empty (List.append_ne_nil_of_right_ne_nil body (List.cons_ne_nil _ _))
    · rfl

theorem exists_widest_cons {rest : List Sign} (closes : closing ∈ rest) :
    ∃ wide, Widest opening closing (opening :: rest) wide := by
  have nonempty : rest.rdropWhile (· ≠ closing) ≠ [] := by
    intro empty
    have passes := List.rdropWhile_eq_nil_iff.mp empty closing closes
    exact of_decide_eq_true passes rfl
  obtain ⟨⟨inner, ends⟩, after, splits, missing⟩ := rdropWhile_ne_eq rfl nonempty
  refine ⟨opening :: rest.rdropWhile (· ≠ closing), ⟨inner, congrArg _ ends⟩, [], after, ?_,
    List.not_mem_nil, missing⟩
  rw [List.nil_append, List.cons_append, ← splits]

/-- Where there is a bracketed part, there is a widest one. -/
theorem exists_widest (bracketed : Bracketed opening closing part)
    (whole : text = before ++ (part ++ after)) : ∃ wide, Widest opening closing text wide := by
  obtain ⟨body, rfl⟩ := bracketed
  subst whole
  have closes (before : List Sign) :
      closing ∈ before ++ (opening :: (body ++ [closing]) ++ after) := by simp
  induction before with
  | nil => exact exists_widest_cons (by simp)
  | cons sign before ih =>
      by_cases opens : sign = opening
      · subst opens
        exact exists_widest_cons (closes before)
      · obtain ⟨wide, found, front, back, splits, absent, missing⟩ := ih
        refine ⟨wide, found, sign :: front, back, congrArg _ splits, fun member => ?_, missing⟩
        rcases List.mem_cons.mp member with here | later
        · exact opens here.symm
        · exact absent later

end SchedExt.Foundations.Enclosure
