import Mathlib.Data.List.Infix

/-!
# Occurrences across a seam

Where two texts meet, a pattern can occur across the seam only if what is
behind it begins with a sign of the pattern that is not its first.  A text
without such a sign at its seams has the occurrences of its parts, and any text
has at least those.
-/

namespace SchedExt.Foundations.Occurrence

universe u

variable {Sign : Type u} {pattern front back : List Sign}

/-- A seam that no occurrence of the pattern crosses. -/
def Apart (pattern back : List Sign) : Prop :=
  ∀ sign ∈ back.head?, sign ∉ pattern.tail

theorem Apart.nil (pattern : List Sign) : Apart pattern [] :=
  fun _ impossible => nomatch impossible

theorem Apart.cons {sign : Sign} (foreign : sign ∉ pattern.tail) (back : List Sign) :
    Apart pattern (sign :: back) := by
  rintro first ⟨rfl⟩
  exact foreign

/-- A seam is crossed by no two nonempty parts of the pattern. -/
theorem Apart.not_prefix {first second : List Sign} (apart : Apart pattern back)
    (whole : pattern = first ++ second) (started : first ≠ []) (unfinished : second ≠ []) :
    ¬ second <+: back := by
  rintro ⟨rest, rfl⟩
  obtain ⟨head, before, rfl⟩ := List.exists_cons_of_ne_nil started
  obtain ⟨sign, behind, rfl⟩ := List.exists_cons_of_ne_nil unfinished
  refine apart sign rfl ?_
  rw [whole]
  exact List.mem_append_right before List.mem_cons_self

/-- A pattern at the beginning of a text that begins with a part is within that part. -/
theorem prefix_of_prefix_append (nonempty : front ≠ []) (apart : Apart pattern back)
    (found : pattern <+: front ++ back) : pattern <+: front := by
  obtain ⟨rest, whole⟩ := found
  rcases List.append_eq_append_iff.mp whole with ⟨later, inside, _⟩ | ⟨later, across, behind⟩
  · exact ⟨later, inside.symm⟩
  · cases later with
    | nil => exact ⟨[], by rw [across, List.append_nil, List.append_nil]⟩
    | cons sign later =>
        have crossing : sign :: later <+: back := ⟨rest, behind.symm⟩
        exact absurd crossing (apart.not_prefix across nonempty (List.cons_ne_nil sign later))

theorem infix_of_infix_cons {head sign : Sign} {tail : List Sign} (other : head ≠ sign)
    (found : head :: tail <:+: sign :: back) : head :: tail <:+: back := by
  rcases List.infix_cons_iff.mp found with ⟨rest, starts⟩ | later
  · exact absurd (List.cons.inj starts).1 other
  · exact later

/-- A text without the first sign of a pattern adds no occurrence in front of another. -/
theorem infix_of_infix_append {head : Sign} {tail : List Sign} (absent : head ∉ front)
    (found : head :: tail <:+: front ++ back) : head :: tail <:+: back := by
  induction front with
  | nil => exact found
  | cons sign front ih =>
      have other : head ≠ sign := fun same => absent (same ▸ List.mem_cons_self)
      exact ih (fun member => absent (List.mem_cons_of_mem sign member))
        (infix_of_infix_cons other found)

/-! ## How often a pattern occurs -/

section Count

variable [DecidableEq Sign]

/-- At how many places of a text the pattern begins. -/
def occurrences (pattern : List Sign) : List Sign → Nat
  | [] => 0
  | sign :: text => (if pattern <+: sign :: text then 1 else 0) + occurrences pattern text

theorem occurrences_of_not_infix {text : List Sign} (free : ¬ pattern <:+: text) :
    occurrences pattern text = 0 := by
  induction text with
  | nil => rfl
  | cons sign text ih =>
      have absent : ¬ pattern <+: sign :: text := fun found => free found.isInfix
      rw [occurrences, if_neg absent, ih fun later => free (List.infix_cons later)]

/-- A text has the occurrences of its parts at least. -/
theorem add_occurrences_le (pattern front back : List Sign) :
    occurrences pattern front + occurrences pattern back ≤
      occurrences pattern (front ++ back) := by
  induction front with
  | nil => exact Nat.le_of_eq (Nat.zero_add _)
  | cons sign front ih =>
      have here : (if pattern <+: sign :: front then 1 else 0) ≤
          if pattern <+: sign :: (front ++ back) then 1 else 0 := by
        split
        · rename_i found
          have longer : pattern <+: sign :: (front ++ back) :=
            found.trans (List.prefix_append (sign :: front) back)
          rw [if_pos longer]
        · exact Nat.zero_le _
      rw [List.cons_append, occurrences, occurrences, Nat.add_assoc]
      exact Nat.add_le_add here ih

theorem occurrences_le_of_suffix {part text : List Sign} (suffix : part <:+ text) :
    occurrences pattern part ≤ occurrences pattern text := by
  obtain ⟨front, rfl⟩ := suffix
  exact (Nat.le_add_left _ _).trans (add_occurrences_le pattern front part)

/-- At a seam that no occurrence crosses the occurrences add up. -/
theorem occurrences_append (apart : Apart pattern back) (front : List Sign) :
    occurrences pattern (front ++ back) =
      occurrences pattern front + occurrences pattern back := by
  induction front with
  | nil => exact (Nat.zero_add _).symm
  | cons sign front ih =>
      have same : pattern <+: sign :: (front ++ back) ↔ pattern <+: sign :: front :=
        ⟨prefix_of_prefix_append (List.cons_ne_nil sign front) apart,
          fun found => found.trans (List.prefix_append (sign :: front) back)⟩
      rw [List.cons_append, occurrences, occurrences, ih, Nat.add_assoc]
      simp only [same]

/-- A text without the first sign of a pattern has none of the occurrences. -/
theorem occurrences_append_of_not_mem {head : Sign} {tail : List Sign} (absent : head ∉ front)
    (back : List Sign) :
    occurrences (head :: tail) (front ++ back) = occurrences (head :: tail) back := by
  induction front with
  | nil => rfl
  | cons sign front ih =>
      have other : ¬ head :: tail <+: sign :: (front ++ back) := by
        rintro ⟨rest, whole⟩
        exact absent ((List.cons.inj whole).1 ▸ List.mem_cons_self)
      rw [List.cons_append, occurrences, if_neg other, Nat.zero_add]
      exact ih fun later => absent (List.mem_cons_of_mem sign later)

/-- A pattern whose first sign does not come again is counted once. -/
theorem occurrences_self_append {head : Sign} {tail : List Sign} (absent : head ∉ tail)
    (back : List Sign) :
    occurrences (head :: tail) (head :: tail ++ back) =
      occurrences (head :: tail) back + 1 := by
  have found : head :: tail <+: head :: (tail ++ back) := List.prefix_append (head :: tail) back
  rw [List.cons_append, occurrences, if_pos found, occurrences_append_of_not_mem absent,
    Nat.add_comm]

end Count

end SchedExt.Foundations.Occurrence
