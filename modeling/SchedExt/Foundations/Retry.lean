import Mathlib.Algebra.BigOperators.Group.List.Basic
import Mathlib.Algebra.Order.BigOperators.Group.List
import Mathlib.Algebra.Ring.Nat
import Mathlib.Data.List.Range

/-!
# Bounded retries

An attempt ends the loop or asks for another one after a wait.  The first
attempt that ends decides; without one the loop runs out.
-/

namespace SchedExt.Foundations

universe u

/-- What one attempt leads to. -/
inductive Attempt (Result : Type u) where
  | ends (result : Result)
  | again (wait : Nat)

def Attempt.wait {Result : Type u} : Attempt Result → Nat
  | .ends _ => 0
  | .again wait => wait

/-- What the loop comes to; without a result it has run out of attempts. -/
structure Retried (Result : Type u) where
  result : Option Result
  attempts : Nat
  waited : Nat

variable {Result : Type u}

/-- The loop, with the attempts that are left and the number of the next one. -/
def retry (attempt : Nat → Attempt Result) : Nat → Nat → Retried Result
  | 0, _ => ⟨none, 0, 0⟩
  | left + 1, number =>
      match attempt number with
      | .ends result => ⟨some result, 1, 0⟩
      | .again wait =>
          let rest := retry attempt left (number + 1)
          ⟨rest.result, rest.attempts + 1, wait + rest.waited⟩

variable {attempt : Nat → Attempt Result} {left number : Nat}

/-- The attempts before a number have asked for another one. -/
def Undecided (attempt : Nat → Attempt Result) (number place : Nat) : Prop :=
  ∀ earlier < place, ∃ wait, attempt (number + earlier) = .again wait

theorem undecided_succ {place wait : Nat} (first : attempt number = .again wait) :
    Undecided attempt number (place + 1) ↔ Undecided attempt (number + 1) place := by
  constructor
  · intro undecided earlier before
    have later := undecided (earlier + 1) (Nat.succ_lt_succ before)
    rwa [← Nat.add_assoc, Nat.add_right_comm] at later
  · intro undecided earlier before
    cases earlier with
    | zero => exact ⟨wait, first⟩
    | succ earlier =>
        have later := undecided earlier (Nat.lt_of_succ_lt_succ before)
        rwa [Nat.add_right_comm, Nat.add_assoc] at later

/-- The first attempt that ends decides, at its number. -/
theorem retry_eq_some_iff {result : Result} {attempts : Nat} :
    ((retry attempt left number).result = some result ∧
        (retry attempt left number).attempts = attempts) ↔
      ∃ place < left, attempts = place + 1 ∧ Undecided attempt number place ∧
        attempt (number + place) = .ends result := by
  induction left generalizing number attempts with
  | zero =>
      refine iff_of_false (fun ends => nomatch ends.1) ?_
      rintro ⟨place, within, -⟩
      exact Nat.not_lt_zero place within
  | succ left ih =>
      rw [retry]
      cases first : attempt number with
      | ends decided =>
          constructor
          · rintro ⟨same, rfl⟩
            obtain rfl : decided = result := Option.some.inj same
            exact ⟨0, Nat.succ_pos left, rfl, fun _ none => absurd none (Nat.not_lt_zero _), first⟩
          · rintro ⟨place, -, rfl, undecided, ends⟩
            cases place with
            | zero =>
                rw [Nat.add_zero, first] at ends
                cases ends
                exact ⟨rfl, rfl⟩
            | succ place =>
                obtain ⟨wait, again⟩ := undecided 0 (Nat.succ_pos place)
                exact nomatch first.symm.trans again
      | again wait =>
          constructor
          · rintro ⟨decided, rfl⟩
            obtain ⟨place, within, count, undecided, ends⟩ := ih.mp ⟨decided, rfl⟩
            refine ⟨place + 1, Nat.succ_lt_succ within, congrArg Nat.succ count,
              (undecided_succ first).mpr undecided, ?_⟩
            rwa [Nat.add_right_comm, Nat.add_assoc] at ends
          · rintro ⟨place, within, rfl, undecided, ends⟩
            cases place with
            | zero =>
                rw [Nat.add_zero, first] at ends
                exact nomatch ends
            | succ place =>
                rw [← Nat.add_assoc, Nat.add_right_comm] at ends
                obtain ⟨decided, count⟩ := ih.mpr ⟨place, Nat.lt_of_succ_lt_succ within, rfl,
                  (undecided_succ first).mp undecided, ends⟩
                exact ⟨decided, congrArg Nat.succ count⟩

theorem attempts_retry_le : (retry attempt left number).attempts ≤ left := by
  induction left generalizing number with
  | zero => exact Nat.le_refl 0
  | succ left ih =>
      rw [retry]
      cases attempt number with
      | ends decided => exact Nat.succ_le_succ (Nat.zero_le left)
      | again wait => exact Nat.succ_le_succ ih

/-- Waits that are bounded number by number are bounded together. -/
theorem waited_retry_le {bound : Nat → Nat}
    (bounded : ∀ place, (attempt place).wait ≤ bound place) :
    (retry attempt left number).waited ≤ ((List.range' number left).map bound).sum := by
  induction left generalizing number with
  | zero => exact Nat.le_refl 0
  | succ left ih =>
      rw [retry, List.range'_succ, List.map_cons, List.sum_cons]
      cases first : attempt number with
      | ends decided => exact Nat.zero_le _
      | again wait =>
          have here := bounded number
          rw [first] at here
          exact Nat.add_le_add here ih

end SchedExt.Foundations
