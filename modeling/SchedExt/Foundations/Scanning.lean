import Mathlib.Data.List.TakeWhile

/-!
# Searching a text for all matches

A matcher tells what a pattern finds at the beginning of a text.  The search
goes on behind every match, and one sign further where there is none.  A
pattern that begins with a run up to a mark is decided at each mark: the run
reaches back to the mark before, or to where the search went on.
-/

namespace SchedExt.Foundations

universe u v

/-- What a pattern finds at the beginning of a text, and what is behind. -/
structure Matcher (Sign : Type u) (Found : Type v) where
  here : List Sign → Option (Found × List Sign)
  shorter : ∀ {text rest : List Sign} {found : Found},
    here text = some (found, rest) → rest.length < text.length

namespace Matcher

variable {Sign : Type u} {Found : Type v} (self : Matcher Sign Found)

/-- `re.finditer` -/
def findAll : List Sign → List Found
  | [] => []
  | sign :: text =>
      match _ : self.here (sign :: text) with
      | some found => found.1 :: findAll found.2
      | none => findAll text
termination_by text => text.length
decreasing_by
  · exact self.shorter (by assumption)
  · exact Nat.lt_succ_self _

@[simp]
theorem findAll_nil : self.findAll [] = [] := by
  rw [findAll]

variable {self}

theorem findAll_of_here {text rest : List Sign} {found : Found}
    (here : self.here text = some (found, rest)) :
    self.findAll text = found :: self.findAll rest := by
  cases text with
  | nil => exact absurd (self.shorter here) (Nat.not_lt_zero _)
  | cons sign text =>
      rw [findAll]
      split
      · rename_i other same
        cases same.symm.trans here
        rfl
      · rename_i none
        cases none.symm.trans here

theorem findAll_cons_of_none {sign : Sign} {text : List Sign}
    (none : self.here (sign :: text) = none) :
    self.findAll (sign :: text) = self.findAll text := by
  rw [findAll]
  split
  · rename_i found same
    cases same.symm.trans none
  · rfl

/-- What no match begins in is passed. -/
theorem findAll_append_of_none {front back : List Sign}
    (none : ∀ before sign after, front = before ++ sign :: after →
      self.here (sign :: (after ++ back)) = none) :
    self.findAll (front ++ back) = self.findAll back := by
  induction front with
  | nil => rfl
  | cons sign front ih =>
      rw [List.cons_append, findAll_cons_of_none (none [] sign front rfl)]
      refine ih fun before other after split => ?_
      exact none (sign :: before) other after (by rw [split, List.cons_append])

end Matcher

section UpTo

variable {Sign : Type u} {Found : Type v} [DecidableEq Sign]

/-- A run of one sign or more up to a mark, and what the inner pattern finds behind the mark. -/
def Matcher.upTo (mark : Sign) (inner : Matcher Sign Found) :
    Matcher Sign (List Sign × Found) where
  here text :=
    if text.takeWhile (· ≠ mark) = [] then none
    else
      match text.dropWhile (· ≠ mark) with
      | [] => none
      | _ :: behind =>
          (inner.here behind).map fun found => ((text.takeWhile (· ≠ mark), found.1), found.2)
  shorter := by
    intro text rest found matched
    split at matched
    · cases matched
    · split at matched
      · cases matched
      · rename_i other behind dropped
        obtain ⟨inside, innerHere, groups⟩ := Option.map_eq_some_iff.mp matched
        obtain rfl := (Prod.mk.inj groups).2
        have shorter := inner.shorter innerHere
        have whole := List.length_dropWhile_le (· ≠ mark) text
        rw [dropped, List.length_cons] at whole
        omega

variable {mark : Sign} {inner : Matcher Sign Found} {run rest : List Sign}

theorem Matcher.upTo_here (unmarked : mark ∉ run) (started : run ≠ []) (rest : List Sign) :
    (Matcher.upTo mark inner).here (run ++ mark :: rest) =
      (inner.here rest).map fun found => ((run, found.1), found.2) := by
  have passes : ∀ sign ∈ run, decide (sign ≠ mark) = true := by
    intro sign member
    exact decide_eq_true fun same => unmarked (same ▸ member)
  have stops : decide (mark ≠ mark) = false := decide_eq_false fun differs => differs rfl
  have taken : (run ++ mark :: rest).takeWhile (· ≠ mark) = run := by
    rw [List.takeWhile_append_of_pos passes, List.takeWhile_cons, stops]
    exact List.append_nil run
  have dropped : (run ++ mark :: rest).dropWhile (· ≠ mark) = mark :: rest := by
    rw [List.dropWhile_append_of_pos passes, List.dropWhile_cons, stops]
    rfl
  unfold upTo
  dsimp only
  rw [taken, dropped, if_neg started]

theorem Matcher.upTo_here_mark (rest : List Sign) :
    (Matcher.upTo mark inner).here (mark :: rest) = none := by
  have stops : decide (mark ≠ mark) = false := decide_eq_false fun differs => differs rfl
  have taken : (mark :: rest).takeWhile (· ≠ mark) = [] := by
    rw [List.takeWhile_cons, stops]
    rfl
  unfold upTo
  dsimp only
  rw [taken, if_pos rfl]

/-- Without a mark there is nothing to find. -/
theorem Matcher.findAll_upTo_of_notMem (unmarked : mark ∉ run) :
    (Matcher.upTo mark inner).findAll run = [] := by
  have none : ∀ before sign after, run = before ++ sign :: after →
      (Matcher.upTo mark inner).here (sign :: (after ++ [])) = none := by
    intro before sign after split
    have passes : ∀ other ∈ sign :: after, decide (other ≠ mark) = true := by
      intro other member
      refine decide_eq_true fun same => unmarked ?_
      rw [split, ← same]
      exact List.mem_append_right before member
    have dropped : (sign :: after).dropWhile (· ≠ mark) = [] :=
      List.dropWhile_eq_nil_iff.mpr passes
    rw [List.append_nil]
    unfold upTo
    dsimp only
    rw [dropped, ite_self]
  have passed := findAll_append_of_none none
  rw [List.append_nil, findAll_nil] at passed
  exact passed

/-- At a mark the inner pattern decides, if there is anything in front of it. -/
theorem Matcher.findAll_upTo_append (unmarked : mark ∉ run) (rest : List Sign) :
    (Matcher.upTo mark inner).findAll (run ++ mark :: rest) =
      match (if run = [] then none else inner.here rest) with
      | some found => (run, found.1) :: (Matcher.upTo mark inner).findAll found.2
      | none => (Matcher.upTo mark inner).findAll rest := by
  by_cases started : run = []
  · rw [if_pos started, started]
    exact findAll_cons_of_none (upTo_here_mark rest)
  · rw [if_neg started]
    have here : (upTo mark inner).here (run ++ mark :: rest) = _ :=
      upTo_here unmarked started rest
    cases decided : inner.here rest with
    | some found =>
        rw [decided] at here
        exact findAll_of_here here
    | none =>
        have passed : (upTo mark inner).findAll (run ++ mark :: rest) =
            (upTo mark inner).findAll (mark :: rest) := by
          refine findAll_append_of_none fun before sign after split => ?_
          have later : mark ∉ sign :: after := fun member =>
            unmarked (split ▸ List.mem_append_right before member)
          have none : (upTo mark inner).here (sign :: after ++ mark :: rest) = _ :=
            upTo_here later (List.cons_ne_nil sign after) rest
          rw [decided] at none
          exact none
        rw [passed]
        exact findAll_cons_of_none (upTo_here_mark rest)

end UpTo

end SchedExt.Foundations
