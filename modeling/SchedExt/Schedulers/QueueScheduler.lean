import SchedExt.Domain.State

/-!
# Schedulers with one queue for each CPU

What the concrete schedulers have in common: each call inserts a stamped
record into the queue of one CPU or takes the head of one queue, advances the
clock and adds what it inserts to the set of all tasks.  They differ in their
tasks, in what a run queue records and in where an insertion is placed.
-/

namespace SchedExt.Schedulers

open SchedExt.Domain SchedExt.Foundations

/-- A scheduler as a labelled transition system; labels show calls as their callers make them. -/
structure QueueScheduler where
  Task : Type
  RunQueue : Type
  Event : Type
  [taskDecidableEq : DecidableEq Task]
  [runQueueInhabited : Inhabited RunQueue]
  pid : Task → Nat
  cpuAffinity : Task → Finset Nat
  enqueueTime : Task → Nat
  stamped : Task → Nat → Task
  untimed : Task → Task
  tasks : RunQueue → List Task
  untimedQueue : RunQueue → RunQueue
  placement : Placement Task
  accept : Task → RunQueue → RunQueue
  serve : RunQueue → RunQueue
  Init : SchedState Task RunQueue → Prop
  Step : SchedState Task RunQueue → Event → SchedState Task RunQueue → Prop
  label : Event → QueueEvent Nat Task

attribute [instance] QueueScheduler.taskDecidableEq
attribute [instance] QueueScheduler.runQueueInhabited

namespace QueueScheduler

/-- The states of a scheduler. -/
abbrev State (c : QueueScheduler) := SchedState c.Task c.RunQueue

/-- The recorded calls of a run. -/
abbrev History (c : QueueScheduler) := List (Transition c.State c.Event)

/-- A call as an observer of the queues sees it; insertions show the stored record. -/
def observe (c : QueueScheduler) (call : Transition c.State c.Event) : QueueEvent Nat c.Task :=
  match c.label call.event with
  | .put cpu t => .put cpu (c.stamped t call.source.clock)
  | .take cpu next => .take cpu next
  | .tick => .tick

/-- What the calls of a scheduler do. -/
structure Lawful (c : QueueScheduler) : Prop where
  init_empty : ∀ {s : c.State}, c.Init s → ∀ cpu, c.tasks (s.queue cpu) = []
  init_noTasks : ∀ {s : c.State}, c.Init s → s.allTasks = ∅
  pid_stamped : ∀ t clock, c.pid (c.stamped t clock) = c.pid t
  affinity_stamped : ∀ t clock, c.cpuAffinity (c.stamped t clock) = c.cpuAffinity t
  enqueueTime_stamped : ∀ t clock, c.enqueueTime (c.stamped t clock) = clock
  tasks_default : c.tasks default = []
  tasks_accept : ∀ t rq, c.tasks (c.accept t rq) = c.placement.place t (c.tasks rq)
  tasks_serve : ∀ rq, c.tasks (c.serve rq) = (c.tasks rq).tail
  bounded : ∀ {s : c.State} {event s'}, c.Step s event s' →
    (∀ cpu ∈ s.runQueues, cpu < numCpus) ∧ ∀ cpu ∈ s'.runQueues, cpu < numCpus
  clock : ∀ {s : c.State} {event s'}, c.Step s event s' → s'.clock = s.clock + 1
  no_tick : ∀ event, c.label event ≠ .tick
  put : ∀ {s : c.State} {event s' cpu t}, c.Step s event s' → c.label event = .put cpu t →
    cpu ∈ s.runQueues ∧ s'.allTasks = s.allTasks ∪ {c.stamped t s.clock} ∧
      SchedState.QueueChanged s s' cpu (c.accept (c.stamped t s.clock))
  take : ∀ {s : c.State} {event s' cpu next}, c.Step s event s' →
    c.label event = .take cpu next →
      cpu ∈ s.runQueues ∧ s'.allTasks = s.allTasks ∧
        next = (c.tasks (s.queue cpu)).head? ∧ SchedState.QueueChanged s s' cpu c.serve

namespace Lawful

variable {c : QueueScheduler} {start s s' : c.State} {event : c.Event} {history : c.History}

/-- The tasks of a changed queue, with all other queues kept, seen as a family of queues. -/
theorem view_of_changed {cpu : Nat} {change : c.RunQueue → c.RunQueue} {contents : List c.Task}
    (clock : s'.clock = s.clock + 1) (known : cpu ∈ s.runQueues)
    (step : SchedState.QueueChanged s s' cpu change)
    (changed : c.tasks (change (s.queue cpu)) = contents) :
    s'.view c.tasks = ⟨s.clock + 1, Function.update (s.view c.tasks).waiting cpu contents⟩ := by
  refine SchedState.view_of_frame clock ?_ fun different => step.queue_of_ne different
  rw [step.queue_self known]
  exact changed

/-- Every call is a step of a family of queues. -/
theorem queueStep (lawful : c.Lawful) (step : c.Step s event s') :
    Queues.Step c.placement c.enqueueTime (s.view c.tasks) (c.observe ⟨s, event, s'⟩)
      (s'.view c.tasks) := by
  unfold observe
  cases kind : c.label event with
  | put cpu t =>
      obtain ⟨known, _, changed⟩ := lawful.put step kind
      rw [view_of_changed (lawful.clock step) known changed (lawful.tasks_accept _ _)]
      exact .put _ cpu _ (lawful.enqueueTime_stamped t s.clock)
  | take cpu next =>
      obtain ⟨known, _, rfl, changed⟩ := lawful.take step kind
      rw [view_of_changed (lawful.clock step) known changed (lawful.tasks_serve _)]
      exact .take _ cpu
  | tick => exact absurd kind (lawful.no_tick event)

theorem waiting_nil (lawful : c.Lawful) (init : c.Init start) (cpu : Nat) :
    (start.view c.tasks).waiting cpu = [] :=
  lawful.init_empty init cpu

/-- A run of calls is a run of a family of queues. -/
theorem queueRun (lawful : c.Lawful) (run : Run c.Step start history s) :
    Run (Queues.Step c.placement c.enqueueTime) (start.view c.tasks)
      (history.map fun call =>
        ⟨call.source.view c.tasks, c.observe call, call.target.view c.tasks⟩)
      (s.view c.tasks) :=
  run.simulate _ c.observe lawful.queueStep

end Lawful

end QueueScheduler

end SchedExt.Schedulers
