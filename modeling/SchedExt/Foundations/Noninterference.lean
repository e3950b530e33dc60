import SchedExt.Foundations.Run

/-!
# Noninterference by unwinding

An observer sees a part of the state, supplies some of the events and receives
their outputs.  If foreign events leave its part alone, and its own events act
on that part as a function of it and the input, then what it sees at the end
and all its outputs are determined by its inputs, whatever else happens.
-/

namespace SchedExt.Foundations

universe u v w

/-- An observer of a labelled transition system; events without input are foreign to it. -/
structure Observer (State : Type u) (Event : Type v) (View Input Output : Type w) where
  view : State → View
  input : Event → Option Input
  output : Event → Option Output

namespace Observer

variable {State : Type u} {Event : Type v} {View Input Output : Type w}
variable {observer : Observer State Event View Input Output}
variable {step : State → Event → State → Prop}
variable {start start' state state' : State}
variable {history history' : List (Transition State Event)}

/-- The inputs of the observer, oldest first. -/
def inputs (observer : Observer State Event View Input Output)
    (history : List (Transition State Event)) : List Input :=
  history.filterMap fun taken => observer.input taken.event

/-- The outputs of the events that were the observer's own, oldest first. -/
def outputs (observer : Observer State Event View Input Output)
    (history : List (Transition State Event)) : List Output :=
  history.filterMap fun taken =>
    (observer.input taken.event).bind fun _ => observer.output taken.event

@[simp]
theorem inputs_append (first second : List (Transition State Event)) :
    observer.inputs (first ++ second) = observer.inputs first ++ observer.inputs second :=
  List.filterMap_append

@[simp]
theorem outputs_append (first second : List (Transition State Event)) :
    observer.outputs (first ++ second) = observer.outputs first ++ observer.outputs second :=
  List.filterMap_append

theorem outputs_singleton {taken : Transition State Event} {input : Input}
    (own : observer.input taken.event = some input) :
    observer.outputs [taken] = (observer.output taken.event).toList := by
  rw [outputs, List.filterMap_cons, own, Option.bind_some]
  cases observer.output taken.event with
  | none => rfl
  | some output => rfl

/-- The unwinding conditions of one step and of two steps with equal inputs. -/
structure Isolated (observer : Observer State Event View Input Output)
    (step : State → Event → State → Prop) : Prop where
  respects : ∀ {before event after}, step before event after →
    observer.input event = none → observer.view after = observer.view before
  consistent : ∀ {before event after before' event' after' input},
    step before event after → step before' event' after' →
    observer.input event = some input → observer.input event' = some input →
    observer.view before = observer.view before' →
      observer.view after = observer.view after' ∧
        observer.output event = observer.output event'

namespace Isolated

/-- A run without inputs shows the observer nothing. -/
theorem quiet (isolated : observer.Isolated step) (run : Run step start history state)
    (none : observer.inputs history = []) :
    observer.view state = observer.view start ∧ observer.outputs history = [] := by
  induction run with
  | refl => exact ⟨rfl, rfl⟩
  | @tail history state next event earlier last ih =>
      rw [inputs_append, List.append_eq_nil_iff] at none
      obtain ⟨before, now⟩ := none
      have foreign : observer.input event = .none :=
        List.filterMap_eq_nil_iff.mp now _ List.mem_cons_self
      obtain ⟨unchanged, silent⟩ := ih before
      refine ⟨(isolated.respects last foreign).trans unchanged, ?_⟩
      rw [outputs_append, silent]
      simp [outputs, foreign]

/--
Two runs that start alike for the observer and bring it the same inputs end
alike and bring it the same outputs.
-/
theorem indistinguishable (isolated : observer.Isolated step)
    (first : Run step start history state) (second : Run step start' history' state')
    (starts : observer.view start = observer.view start')
    (same : observer.inputs history = observer.inputs history') :
    observer.view state = observer.view state' ∧
      observer.outputs history = observer.outputs history' := by
  induction first generalizing history' state' with
  | refl =>
      obtain ⟨unchanged, silent⟩ := isolated.quiet second same.symm
      exact ⟨starts.trans unchanged.symm, silent.symm⟩
  | @tail history state next event earlier last ih =>
      rw [inputs_append] at same
      cases own : observer.input event with
      | none =>
          have nothing : observer.inputs [⟨state, event, next⟩] = [] := by
            simp [inputs, own]
          have silent : observer.outputs [⟨state, event, next⟩] = [] := by
            simp [outputs, own]
          rw [nothing, List.append_nil] at same
          obtain ⟨views, outputs⟩ := ih second same
          rw [outputs_append, silent, List.append_nil]
          exact ⟨(isolated.respects last own).trans views, outputs⟩
      | some input =>
          have supplied : observer.inputs [⟨state, event, next⟩] = [input] := by
            simp [inputs, own]
          rw [supplied] at same
          obtain ⟨before, taken, after, rfl, beforeEq, isInput, afterEq⟩ :=
            exists_split_of_filterMap same.symm
          obtain ⟨earlier', last', rest⟩ := second.split
          obtain ⟨views, outputs⟩ := ih earlier' beforeEq.symm
          obtain ⟨unchanged, silent⟩ := isolated.quiet rest afterEq
          obtain ⟨nextViews, answers⟩ := isolated.consistent last last' own isInput views
          refine ⟨nextViews.trans unchanged.symm, ?_⟩
          have lastOutput : observer.outputs [⟨state, event, next⟩] =
              (observer.output event).toList := outputs_singleton own
          rw [List.append_cons before taken after]
          rw [outputs_append, outputs_append, outputs_append, outputs, lastOutput,
            outputs_singleton isInput, answers, silent, List.append_nil]

end Isolated

end Observer

end SchedExt.Foundations
