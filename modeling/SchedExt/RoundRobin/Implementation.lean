import SchedExt.Foundations.FifoLog
import SchedExt.Foundations.Simulation
import SchedExt.RoundRobin.Refinement

/-!
# Implementations of the round-robin specification

A system with one first-in first-out queue of its own tasks implements the
specification with one run queue.  An append is answered by `Enqueue`, a
removal by `Dispatch`, whatever leaves the queue alone by no call at all.
-/

namespace SchedExt.RoundRobin

open SchedExt.Domain SchedExt.Foundations
open ConcreteScheduler

/-- The CPU whose run queue stands for the queue of an implementation. -/
def sharedCpu : Nat := 0

/-- One CPU, and nothing queued. -/
def sharedQueue : SchedState where
  runQueues := Finmap.singleton sharedCpu ⟨sharedCpu, []⟩
  allTasks := ∅
  clock := 0
  activeCpus := {sharedCpu}

theorem sharedQueue_init : AbstractScheduler.Init sharedQueue where
  noTasks := rfl
  clockZero := rfl
  someCpu := by decide
  valid := by decide
  emptyQueues cpu known := by
    have member := Finmap.mem_keys.mpr known
    revert cpu
    decide

/-- The records that the specification is to have of the tasks of an implementation. -/
structure Description (Item : Type) where
  record : Item → Task
  valid : ∀ p, ValidTask (record p)
  runnable : ∀ p, (record p).state = .runnable

/-- Tasks as runnable records without affinity, under positive process identifiers. -/
def plainRecords : Description Nat where
  record p := newTask (p + 1)
  valid p := ⟨Nat.succ_pos p, Nat.zero_le _, .inl rfl⟩
  runnable _ := rfl

variable {Item : Type} (description : Description Item)

/-- A record of a task, stamped at some time with a full quantum. -/
def Description.Shows (p : Item) (t : Task) : Prop :=
  ∃ time, t = (description.record p).stamped time

/-- The run queue has a record of every waiting task, in their order. -/
structure Implements (waiting : List Item) (spec : SchedState) : Prop where
  invariant : SchedInvariant spec
  active : sharedCpu ∈ spec.activeCpus
  queued : List.Forall₂ description.Shows waiting (spec.queue sharedCpu).tasks

/-- The calls that answer an action. -/
def Answers : FifoAction Item → List (Transition SchedState Event) → Prop
  | .append p, calls =>
      calls.map Transition.event = [.enqueue (description.record p) sharedCpu]
  | .remove moved, calls =>
      ∃ next, calls.map Transition.event = [.dispatch sharedCpu next] ∧
        Option.Rel description.Shows moved next
  | .keep, calls => calls = []

variable {description}

theorem implements_sharedQueue : Implements description [] sharedQueue where
  invariant := .of_init sharedQueue_init
  active := Finset.mem_singleton_self _
  queued := .nil

/-- The heads of two matching queues match, and so do their tails. -/
theorem rel_head?_tail {shows : Item → Task → Prop} {waiting : List Item} {tasks : List Task}
    (queued : List.Forall₂ shows waiting tasks) :
    Option.Rel shows waiting.head? tasks.head? ∧
      List.Forall₂ shows waiting.tail tasks.tail := by
  cases queued with
  | nil => exact ⟨.none, .nil⟩
  | cons head rest => exact ⟨.some head, rest⟩

namespace Implements

variable {waiting after : List Item} {spec : SchedState}

theorem known (implements : Implements description waiting spec) :
    sharedCpu ∈ spec.runQueues :=
  implements.invariant.valid.mem_of_active implements.active

/-- A task that is appended is enqueued. -/
theorem append (implements : Implements description waiting spec) (p : Item) :
    let spec' := enqueue spec (description.record p) sharedCpu
    Step spec (.enqueue (description.record p) sharedCpu) spec' ∧
      Implements description (waiting ++ [p]) spec' := by
  intro spec'
  have valid := description.valid p
  have taken : Step spec (.enqueue (description.record p) sharedCpu) spec' :=
    ⟨⟨valid, description.runnable p, valid.1, implements.active, implements.known⟩,
      .enqueue spec _ sharedCpu⟩
  refine ⟨taken, implements.invariant.step taken, implements.active, ?_⟩
  rw [enqueue_tasks_self]
  exact List.rel_append implements.queued (.cons ⟨spec.clock, rfl⟩ .nil)

/-- The head that is removed is dispatched. -/
theorem remove (implements : Implements description waiting spec) :
    let spec' := (dispatch spec sharedCpu).2
    Step spec (.dispatch sharedCpu (dispatch spec sharedCpu).1) spec' ∧
      Option.Rel description.Shows waiting.head? (dispatch spec sharedCpu).1 ∧
        Implements description waiting.tail spec' := by
  intro spec'
  obtain ⟨heads, tails⟩ := rel_head?_tail implements.queued
  have taken : Step spec (.dispatch sharedCpu (dispatch spec sharedCpu).1) spec' :=
    ⟨⟨implements.active, implements.known⟩, .dispatch spec sharedCpu⟩
  refine ⟨taken, ?_, implements.invariant.step taken, ?_, ?_⟩
  · rw [dispatch_next]
    exact heads
  · rw [dispatch_activeCpus]
    exact implements.active
  · rw [dispatch_tasks_self]
    exact tails

/-- Every action of the queue is answered. -/
theorem acts {action : FifoAction Item} (implements : Implements description waiting spec)
    (acts : FifoAction.Acts waiting action after) :
    ∃ calls spec', Run Step spec calls spec' ∧ Answers description action calls ∧
      Implements description after spec' := by
  cases acts with
  | append p =>
      obtain ⟨taken, still⟩ := implements.append p
      exact ⟨_, _, .single taken, rfl, still⟩
  | remove =>
      obtain ⟨taken, shown, still⟩ := implements.remove
      exact ⟨_, _, .single taken, ⟨_, rfl, shown⟩, still⟩
  | keep => exact ⟨[], spec, .refl, rfl, implements⟩

end Implements

/-- A system that acts on one queue is simulated by the specification. -/
theorem simulation_of_acts {State Label : Type} {step : State → Label → State → Prop}
    (waiting : State → List Item) (action : Transition State Label → FifoAction Item)
    (acts : ∀ {before label after}, step before label after →
      FifoAction.Acts (waiting before) (action ⟨before, label, after⟩) (waiting after)) :
    Simulation step Step (fun state spec => Implements description (waiting state) spec)
      (fun taken calls => Answers description (action taken) calls) where
  answered implements taken := implements.acts (acts taken)

variable (description)

/-- The calls of the specification that answer the actions of an implementation, one by one. -/
structure Answered (actions : List (FifoAction Item)) (waiting : List Item)
    (calls : List (List (Transition SchedState Event))) (spec : SchedState) : Prop where
  run : Run CheckedStep sharedQueue calls.flatten spec
  each : List.Forall₂ (Answers description) actions calls
  abstract : ∀ call ∈ calls.flatten,
    RefinementProof.AbstractStep (RefinementProof.refMap call.source) call.event
      (RefinementProof.refMap call.target)
  implements : Implements description waiting spec

/-- Every run of such a system from an empty queue is a run of the specification. -/
theorem answered_of_run {State Label : Type} {step : State → Label → State → Prop}
    {start state : State} {history : List (Transition State Label)}
    (waiting : State → List Item) (action : Transition State Label → FifoAction Item)
    (acts : ∀ {before label after}, step before label after →
      FifoAction.Acts (waiting before) (action ⟨before, label, after⟩) (waiting after))
    (run : Run step start history state) (empty : waiting start = []) :
    ∃ calls spec, Answered description (history.map action) (waiting state) calls spec := by
  have simulation : Simulation step Step
      (fun state spec => Implements description (waiting state) spec)
      (fun taken calls => Answers description (action taken) calls) :=
    simulation_of_acts waiting action acts
  have initially : Implements description (waiting start) sharedQueue := by
    rw [empty]
    exact implements_sharedQueue
  obtain ⟨calls, spec, specRun, each, finally'⟩ := simulation.run run initially
  have invariant : SchedInvariant sharedQueue := .of_init sharedQueue_init
  refine ⟨calls, spec, checkedRun sharedQueue_init specRun, ?_, ?_, finally'⟩
  · exact List.forall₂_map_left_iff.mpr each
  · exact specRun.forall_mem invariant SchedInvariant.step RefinementProof.step_refines

end SchedExt.RoundRobin
