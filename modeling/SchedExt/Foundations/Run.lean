import Mathlib.Data.List.Induction
import Mathlib.Order.Basic

/-!
# Recorded runs of labelled transition systems

A run keeps every step it takes: the state before, the label observed and the
state after.  History properties are statements about that list, and the
rules of this module reduce each of them to a property of one step.
-/

namespace SchedExt.Foundations

universe u v u' v'

/-- One recorded step of a labelled transition system. -/
structure Transition (State : Type u) (Event : Type v) where
  source : State
  event : Event
  target : State

/--
`Run step start history state` means that the steps recorded in `history`,
oldest first, lead from `start` to `state`.
-/
inductive Run {State : Type u} {Event : Type v}
    (step : State → Event → State → Prop) (start : State) :
    List (Transition State Event) → State → Prop where
  | refl : Run step start [] start
  | tail {history : List (Transition State Event)} {state next : State}
      {event : Event} (earlier : Run step start history state)
      (last : step state event next) :
      Run step start (history ++ [⟨state, event, next⟩]) next

/-- The steps an executable step function takes on a list of events. -/
def trace {State : Type u} {Event : Type v} (perform : State → Event → State) :
    State → List Event → List (Transition State Event)
  | _, [] => []
  | state, event :: rest =>
      ⟨state, event, perform state event⟩ :: trace perform (perform state event) rest

/-- The states of a run, the start first. -/
def states {State : Type u} {Event : Type v} (start : State)
    (history : List (Transition State Event)) : List State :=
  start :: history.map Transition.target

/-- A kept entry splits a list where it splits the kept ones. -/
theorem exists_split_of_filterMap {Entry : Type u} {Kept : Type v} {keep : Entry → Option Kept}
    {entries : List Entry} {front back : List Kept} {kept : Kept}
    (whole : entries.filterMap keep = front ++ kept :: back) :
    ∃ before entry after, entries = before ++ entry :: after ∧
      before.filterMap keep = front ∧ keep entry = some kept ∧ after.filterMap keep = back := by
  obtain ⟨first, second, rfl, frontEq, restEq⟩ := List.filterMap_eq_append_iff.mp whole
  obtain ⟨dropped, entry, after, rfl, none, keeps, afterEq⟩ :=
    List.filterMap_eq_cons_iff.mp restEq
  refine ⟨first ++ dropped, entry, after, (List.append_assoc _ _ _).symm, ?_, keeps, afterEq⟩
  rw [List.filterMap_append, List.filterMap_eq_nil_iff.mpr none, List.append_nil]
  exact frontEq

/-- A history whose events end in an event ends with a step that shows it. -/
theorem exists_concat_of_events {State : Type u} {Event : Type v}
    {history : List (Transition State Event)} {events : List Event} {event : Event}
    (recorded : history.map Transition.event = events ++ [event]) :
    ∃ front source target, history = front ++ [⟨source, event, target⟩] ∧
      front.map Transition.event = events := by
  obtain ⟨front, back, rfl, frontEq, backEq⟩ := List.map_eq_append_iff.mp recorded
  obtain ⟨⟨source, _, target⟩, rfl, rfl⟩ := List.map_eq_singleton_iff.mp backEq
  exact ⟨front, source, target, rfl, frontEq⟩

namespace Run

variable {State : Type u} {Event : Type v}
variable {step : State → Event → State → Prop}
variable {start state : State} {history : List (Transition State Event)}

/-- A property of the start that every step preserves holds at the end. -/
theorem invariant {Invariant : State → Prop}
    (run : Run step start history state) (initial : Invariant start)
    (preserved : ∀ {before event after},
      Invariant before → step before event after → Invariant after) :
    Invariant state := by
  induction run with
  | refl => exact initial
  | tail earlier last ih => exact preserved ih last

/-- Under an inductive invariant, one step relation may replace another. -/
theorem upgrade {stronger : State → Event → State → Prop}
    {Invariant : State → Prop}
    (run : Run step start history state) (initial : Invariant start)
    (preserved : ∀ {before event after},
      Invariant before → step before event after → Invariant after)
    (replace : ∀ {before event after},
      Invariant before → step before event after →
        stronger before event after) :
    Run stronger start history state := by
  induction run with
  | refl => exact .refl
  | tail earlier last ih =>
      exact .tail ih (replace (earlier.invariant initial preserved) last)

/-- A larger step relation has every run of a smaller one. -/
theorem mono {larger : State → Event → State → Prop}
    (run : Run step start history state)
    (weaken : ∀ {before event after},
      step before event after → larger before event after) :
    Run larger start history state := by
  induction run with
  | refl => exact .refl
  | tail _ last ih => exact .tail ih (weaken last)

/-- The last recorded step is a step, taken where the earlier ones ended. -/
theorem of_concat {last : Transition State Event}
    (run : Run step start (history ++ [last]) state) :
    Run step start history last.source ∧
      step last.source last.event last.target ∧ last.target = state := by
  generalize whole : history ++ [last] = recorded at run
  cases run with
  | refl => simp at whole
  | tail earlier final =>
      obtain ⟨rfl, rfl⟩ := List.append_inj' whole rfl |>.imp_right List.singleton_inj.mp
      exact ⟨earlier, final, rfl⟩

/-- A recorded step splits its run into the part before and the part after. -/
theorem split {before after : List (Transition State Event)}
    {middle : Transition State Event}
    (run : Run step start (before ++ middle :: after) state) :
    Run step start before middle.source ∧
      step middle.source middle.event middle.target ∧
      Run step middle.target after state := by
  induction after using List.reverseRecOn generalizing state with
  | nil =>
      obtain ⟨earlier, final, rfl⟩ := run.of_concat
      exact ⟨earlier, final, .refl⟩
  | append_singleton after last ih =>
      rw [← List.cons_append, ← List.append_assoc] at run
      obtain ⟨earlier, final, rfl⟩ := run.of_concat
      obtain ⟨front, taken, back⟩ := ih earlier
      exact ⟨front, taken, .tail back final⟩

/-- The first recorded step is a step from the start. -/
theorem uncons {first : Transition State Event} {rest : List (Transition State Event)}
    (run : Run step start (first :: rest) state) :
    step start first.event first.target ∧ Run step first.target rest state := by
  rw [← List.nil_append (first :: rest)] at run
  obtain ⟨earlier, taken, later⟩ := run.split
  generalize whole : ([] : List (Transition State Event)) = recorded at earlier
  cases earlier with
  | refl => exact ⟨taken, later⟩
  | tail _ _ =>
      exact absurd whole.symm (List.append_ne_nil_of_right_ne_nil _ (List.cons_ne_nil _ _))

/-- An event splits its run into the part before, its step and the part after. -/
theorem split_event {before after : List Event} {event : Event}
    (run : Run step start history state)
    (whole : history.map Transition.event = before ++ event :: after) :
    ∃ front source target back, history = front ++ ⟨source, event, target⟩ :: back ∧
      front.map Transition.event = before ∧ back.map Transition.event = after ∧
        Run step start front source ∧ step source event target ∧ Run step target back state := by
  obtain ⟨front, rest, rfl, frontEq, restEq⟩ := List.map_eq_append_iff.mp whole
  obtain ⟨⟨source, _, target⟩, back, rfl, rfl, backEq⟩ := List.map_eq_cons_iff.mp restEq
  obtain ⟨earlier, last, later⟩ := run.split
  exact ⟨front, source, target, back, rfl, frontEq, backEq, earlier, last, later⟩

/-- What holds of every step holds of every recorded step. -/
theorem forall_step {Claim : Transition State Event → Prop}
    (run : Run step start history state)
    (each : ∀ {before event after}, step before event after →
      Claim ⟨before, event, after⟩) :
    ∀ taken ∈ history, Claim taken := by
  intro taken member
  obtain ⟨before, after, rfl⟩ := List.append_of_mem member
  obtain ⟨_, last, _⟩ := run.split
  exact each last

/-- Every recorded step is a step. -/
theorem steps (run : Run step start history state) :
    ∀ taken ∈ history, step taken.source taken.event taken.target :=
  run.forall_step fun last => last

/-- What every recorded step passes on is passed on by the whole run. -/
theorem carries (Kept : State → Prop) (run : Run step start history state)
    (each : ∀ taken ∈ history, Kept taken.source → Kept taken.target) (initial : Kept start) :
    Kept state := by
  induction run with
  | refl => exact initial
  | tail earlier last ih =>
      have before := ih fun taken member => each taken (List.mem_append_left _ member)
      exact each _ (List.mem_append_right _ List.mem_cons_self) before

/-- What holds at the start and after every step holds of every state of the run. -/
theorem forall_states {Claim : State → Prop} (initial : Claim start)
    (each : ∀ taken ∈ history, Claim taken.target) :
    ∀ reached ∈ states start history, Claim reached := by
  intro reached member
  rcases List.mem_cons.mp member with rfl | later
  · exact initial
  · obtain ⟨taken, inside, rfl⟩ := List.mem_map.mp later
    exact each taken inside

/-- A quantity that no step lowers is in order along the states of a run. -/
theorem pairwise_states {Value : Type u'} [Preorder Value] (value : State → Value)
    (run : Run step start history state)
    (raised : ∀ taken ∈ history, value taken.source ≤ value taken.target) :
    ((states start history).map value).Pairwise (· ≤ ·) ∧
      ∀ reached ∈ states start history, value reached ≤ value state := by
  induction run with
  | refl =>
      refine ⟨List.pairwise_singleton _ _, fun reached member => ?_⟩
      rw [List.mem_singleton.mp member]
  | @tail history state next event earlier last ih =>
      obtain ⟨ordered, below⟩ := ih fun taken member => raised taken (List.mem_append_left _ member)
      have lifted : value state ≤ value next :=
        raised _ (List.mem_append_right _ List.mem_cons_self)
      have whole : states start (history ++ [⟨state, event, next⟩]) =
          states start history ++ [next] := by
        rw [states, List.map_append, ← List.cons_append]
        rfl
      rw [whole]
      refine ⟨?_, fun reached member => ?_⟩
      · rw [List.map_append]
        refine List.pairwise_append.mpr ⟨ordered, List.pairwise_singleton _ _, ?_⟩
        intro earlierValue inside lastValue atEnd
        obtain ⟨reached, member, rfl⟩ := List.mem_map.mp inside
        rw [List.mem_singleton.mp atEnd]
        exact (below reached member).trans lifted
      · rcases List.mem_append.mp member with inside | atEnd
        · exact (below reached inside).trans lifted
        · rw [List.mem_singleton.mp atEnd]

/-- What holds now and did not at the start was last acquired in some step, and kept since. -/
theorem acquired (Kept : State → Prop) (run : Run step start history state)
    (initially : ¬ Kept start) (holds : Kept state) :
    ∃ before taken after, history = before ++ taken :: after ∧
      ¬ Kept taken.source ∧ Kept taken.target ∧
        ∀ later ∈ after, Kept later.source ∧ Kept later.target := by
  induction run with
  | refl => exact absurd holds initially
  | @tail history state next event earlier last ih =>
      by_cases already : Kept state
      · obtain ⟨before, taken, after, rfl, missing, gained, since⟩ := ih already
        refine ⟨before, taken, after ++ [⟨state, event, next⟩], by simp, missing, gained, ?_⟩
        intro later member
        rcases List.mem_append.mp member with inside | atEnd
        · exact since later inside
        · obtain rfl := List.mem_singleton.mp atEnd
          exact ⟨already, holds⟩
      · exact ⟨history, _, [], rfl, already, holds, fun _ member => nomatch member⟩

/-- Every recorded step was taken in a state satisfying the invariant. -/
theorem forall_mem {Invariant : State → Prop}
    {Claim : Transition State Event → Prop}
    (run : Run step start history state) (initial : Invariant start)
    (preserved : ∀ {before event after},
      Invariant before → step before event after → Invariant after)
    (each : ∀ {before event after},
      Invariant before → step before event after →
        Claim ⟨before, event, after⟩) :
    ∀ taken ∈ history, Claim taken := by
  have guarded : Run (fun before event after =>
      Invariant before ∧ step before event after) start history state :=
    run.upgrade initial preserved fun good last => ⟨good, last⟩
  exact guarded.forall_step fun last => each last.1 last.2

/-- A stepwise simulation maps recorded runs to recorded runs. -/
theorem simulate {State' : Type u'} {Event' : Type v'}
    {step' : State' → Event' → State' → Prop}
    (view : State → State') (label : Transition State Event → Event')
    (run : Run step start history state)
    (simulates : ∀ {before event after}, step before event after →
      step' (view before) (label ⟨before, event, after⟩) (view after)) :
    Run step' (view start)
      (history.map fun taken => ⟨view taken.source, label taken, view taken.target⟩)
      (view state) := by
  induction run with
  | refl => exact .refl
  | tail earlier last ih =>
      rw [List.map_append]
      exact .tail ih (simulates last)

/-- A quantity that every step increments counts the recorded steps. -/
theorem counts {count : State → Nat}
    (run : Run step start history state)
    (increments : ∀ {before event after},
      step before event after → count after = count before + 1) :
    count state = count start + history.length := by
  induction run with
  | refl => rfl
  | tail earlier last ih =>
      rw [increments last, ih, List.length_append, List.length_singleton,
        Nat.add_assoc]

/-- A step may also be put in front of a run. -/
theorem cons {next : State} {event : Event} (first : step start event next)
    (rest : Run step next history state) :
    Run step start (⟨start, event, next⟩ :: history) state := by
  induction rest with
  | refl => exact .tail .refl first
  | tail _ last ih => exact .tail ih last

/-- Executing events is a run when every event is allowed where it is executed. -/
theorem of_trace {perform : State → Event → State} {Allowed : State → Event → Prop}
    (sound : ∀ before event, Allowed before event → step before event (perform before event))
    {events : List Event}
    (allowed : ∀ taken ∈ trace perform start events, Allowed taken.source taken.event) :
    Run step start (trace perform start events) (events.foldl perform start) := by
  induction events generalizing start with
  | nil => exact .refl
  | cons event rest ih =>
      obtain ⟨first, later⟩ := List.forall_mem_cons.mp allowed
      exact cons (sound start event first) (ih later)

end Run

end SchedExt.Foundations
