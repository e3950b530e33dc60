import Mathlib.Data.List.Forall2
import SchedExt.Foundations.Run

/-!
# Simulation of one transition system by another

Every step of the first system is answered by a run of the second, which may be
empty, and the answers to single steps make up an answer to a run.
-/

namespace SchedExt.Foundations

universe u v u' v'

namespace Run

variable {State : Type u} {Event : Type v} {step : State → Event → State → Prop}
variable {start middle state : State} {first second : List (Transition State Event)}

theorem append (earlier : Run step start first middle) (later : Run step middle second state) :
    Run step start (first ++ second) state := by
  induction later with
  | refl =>
      rw [List.append_nil]
      exact earlier
  | tail _ last ih =>
      rw [← List.append_assoc]
      exact .tail ih last

theorem single {event : Event} (taken : step start event state) :
    Run step start [⟨start, event, state⟩] state :=
  .tail .refl taken

end Run

/-- A relation between states under which every step is answered, and the answers it gets. -/
structure Simulation {State : Type u} {Event : Type v} {State' : Type u'} {Event' : Type v'}
    (step : State → Event → State → Prop) (step' : State' → Event' → State' → Prop)
    (related : State → State' → Prop)
    (answers : Transition State Event → List (Transition State' Event') → Prop) : Prop where
  answered : ∀ {before event after before'}, related before before' → step before event after →
    ∃ answer after', Run step' before' answer after' ∧ answers ⟨before, event, after⟩ answer ∧
      related after after'

namespace Simulation

variable {State : Type u} {Event : Type v} {State' : Type u'} {Event' : Type v'}
variable {step : State → Event → State → Prop} {step' : State' → Event' → State' → Prop}
variable {related : State → State' → Prop}
variable {answers : Transition State Event → List (Transition State' Event') → Prop}

/-- A run is answered step by step. -/
theorem run (simulation : Simulation step step' related answers) {start state : State}
    {history : List (Transition State Event)} (taken : Run step start history state)
    {start' : State'} (initially : related start start') :
    ∃ given state', Run step' start' given.flatten state' ∧
      List.Forall₂ answers history given ∧ related state state' := by
  induction taken with
  | refl => exact ⟨[], start', .refl, .nil, initially⟩
  | tail _ last ih =>
      obtain ⟨given, middle, earlier, each, between⟩ := ih
      obtain ⟨answer, state', later, answered, finally'⟩ := simulation.answered between last
      refine ⟨given ++ [answer], state', ?_, ?_, finally'⟩
      · rw [List.flatten_append, List.flatten_singleton]
        exact earlier.append later
      · exact List.rel_append each (.cons answered .nil)

end Simulation

end SchedExt.Foundations
