import SchedExt.Foundations.Noninterference
import SchedExt.Schedulers.Concrete

/-!
# CPUs do not interfere

The calls share the clock and the set of all tasks, but nothing of these
enters a run queue except enqueue times, and no call looks at those.  Up to
enqueue times a run queue is therefore determined by the calls on its CPU.
-/

namespace SchedExt.Schedulers

open SchedExt.Domain SchedExt.Foundations

namespace QueueScheduler

variable {c : QueueScheduler} {start s s' : c.State} {history history' : c.History}

/-- Forgetting enqueue times commutes with all that is done to a run queue. -/
structure TimeBlind (c : QueueScheduler) : Prop where
  stamped : ∀ t clock, c.untimed (c.stamped t clock) = c.untimed (c.stamped (c.untimed t) 0)
  accept : ∀ t rq, c.untimedQueue (c.accept t rq) = c.accept (c.untimed t) (c.untimedQueue rq)
  serve : ∀ rq, c.untimedQueue (c.serve rq) = c.serve (c.untimedQueue rq)
  tasks : ∀ rq, c.tasks (c.untimedQueue rq) = (c.tasks rq).map c.untimed

/-- A call on the CPU without the enqueue time of its argument and without its result. -/
def operation (c : QueueScheduler) (cpu : Nat) (event : c.Event) :
    Option (QueueEvent Nat c.Task) :=
  match c.label event with
  | .put target t => if target = cpu then some (.put cpu (c.untimed t)) else none
  | .take target _ => if target = cpu then some (.take cpu none) else none
  | .tick => none

/-- The result of a dispatch on the CPU without its enqueue time. -/
def result (c : QueueScheduler) (cpu : Nat) (event : c.Event) : Option (Option c.Task) :=
  match c.label event with
  | .take target next => if target = cpu then some (next.map c.untimed) else none
  | _ => none

/-- The operations addressed to the CPU, oldest first. -/
def operationsOn (c : QueueScheduler) (cpu : Nat) (events : List c.Event) :
    List (QueueEvent Nat c.Task) :=
  events.filterMap (c.operation cpu)

/-- The results of the dispatches on the CPU, oldest first. -/
def resultsOn (c : QueueScheduler) (cpu : Nat) (events : List c.Event) :
    List (Option c.Task) :=
  events.filterMap (c.result cpu)

/-- The run queue of the CPU without the enqueue times of its tasks. -/
def queueOn (c : QueueScheduler) (cpu : Nat) (s : c.State) : Option c.RunQueue :=
  (s.runQueues.lookup cpu).map c.untimedQueue

/-- What can be seen from a CPU. -/
def observer (c : QueueScheduler) (cpu : Nat) :
    Observer c.State c.Event (Option c.RunQueue) (QueueEvent Nat c.Task) (Option c.Task) where
  view := c.queueOn cpu
  input := c.operation cpu
  output := c.result cpu

theorem operation_eq_some_iff {cpu : Nat} {event : c.Event} {input : QueueEvent Nat c.Task} :
    c.operation cpu event = some input ↔
      (∃ t, c.label event = .put cpu t ∧ input = .put cpu (c.untimed t)) ∨
        ∃ next, c.label event = .take cpu next ∧ input = .take cpu none := by
  unfold operation
  cases c.label event with
  | put target t => grind
  | take target next => grind
  | tick => grind

theorem inputs_observer (cpu : Nat) (history : c.History) :
    (c.observer cpu).inputs history = c.operationsOn cpu (history.map Transition.event) := by
  rw [operationsOn, List.filterMap_map]
  rfl

/-- A call with a result on the CPU is an operation on it. -/
theorem outputs_observer (cpu : Nat) (history : c.History) :
    (c.observer cpu).outputs history = c.resultsOn cpu (history.map Transition.event) := by
  rw [resultsOn, List.filterMap_map, Observer.outputs]
  refine List.filterMap_congr fun taken _ => ?_
  simp only [observer, operation, result, Function.comp]
  cases c.label taken.event with
  | put target t => simp
  | take target next =>
      by_cases own : target = cpu
      · simp [own]
      · simp [own]
  | tick => rfl

theorem queueOn_of_changed {cpu target : Nat} {change : c.RunQueue → c.RunQueue}
    (step : SchedState.QueueChanged s s' target change) (different : cpu ≠ target) :
    c.queueOn cpu s' = c.queueOn cpu s :=
  congrArg (Option.map c.untimedQueue) (step.kept cpu different)

/-- Queues alike but for enqueue times stay so under alike changes. -/
theorem queueOn_congr {u u' : c.State} {cpu : Nat} {change change' : c.RunQueue → c.RunQueue}
    (step : SchedState.QueueChanged s s' cpu change)
    (step' : SchedState.QueueChanged u u' cpu change')
    (alike : ∀ rq rq', c.untimedQueue rq = c.untimedQueue rq' →
      c.untimedQueue (change rq) = c.untimedQueue (change' rq'))
    (views : c.queueOn cpu s = c.queueOn cpu u) :
    c.queueOn cpu s' = c.queueOn cpu u' := by
  rw [queueOn, queueOn] at views ⊢
  rw [step.changed, step'.changed]
  cases first : s.runQueues.lookup cpu with
  | none =>
      cases second : u.runQueues.lookup cpu with
      | none => rfl
      | some rq' => simp [first, second] at views
  | some rq =>
      cases second : u.runQueues.lookup cpu with
      | none => simp [first, second] at views
      | some rq' =>
          rw [first, second] at views
          exact congrArg some (alike rq rq' (Option.some.inj views))

/-- Queues alike but for enqueue times have heads alike but for these. -/
theorem head_congr (blind : c.TimeBlind) {u : c.State} {cpu : Nat}
    (views : c.queueOn cpu s = c.queueOn cpu u) :
    (c.tasks (s.queue cpu)).head?.map c.untimed = (c.tasks (u.queue cpu)).head?.map c.untimed := by
  have heads (rq : c.RunQueue) :
      (c.tasks rq).head?.map c.untimed = (c.tasks (c.untimedQueue rq)).head? := by
    rw [blind.tasks, List.head?_map]
  have queues := congrArg (fun found => found.getD (c.untimedQueue default)) views
  rw [queueOn, queueOn, Option.getD_map, Option.getD_map] at queues
  rw [heads, heads, SchedState.queue, SchedState.queue, queues]

/-- The unwinding conditions hold for every CPU. -/
theorem isolated (lawful : c.Lawful) (blind : c.TimeBlind) (cpu : Nat) :
    (c.observer cpu).Isolated c.Step where
  respects := by
    intro before event after step foreign
    cases kind : c.label event with
    | put target t =>
        have different : cpu ≠ target := by
          rintro rfl
          simp [observer, operation, kind] at foreign
        exact queueOn_of_changed (lawful.put step kind).2.2 different
    | take target next =>
        have different : cpu ≠ target := by
          rintro rfl
          simp [observer, operation, kind] at foreign
        exact queueOn_of_changed (lawful.take step kind).2.2.2 different
    | tick => exact absurd kind (lawful.no_tick event)
  consistent := by
    intro before event after before' event' after' input step step' own own' views
    rcases operation_eq_some_iff.mp own with ⟨t, kind, rfl⟩ | ⟨next, kind, rfl⟩
    · rcases operation_eq_some_iff.mp own' with ⟨t', kind', same⟩ | ⟨next', kind', same⟩
      · have alike : c.untimed t = c.untimed t' := (QueueEvent.put.inj same).2
        refine ⟨queueOn_congr (lawful.put step kind).2.2 (lawful.put step' kind').2.2 ?_ views, ?_⟩
        · intro rq rq' queues
          rw [blind.accept, blind.accept, blind.stamped, blind.stamped t', alike, queues]
        · simp [observer, result, kind, kind']
      · cases same
    · rcases operation_eq_some_iff.mp own' with ⟨t', kind', same⟩ | ⟨next', kind', same⟩
      · cases same
      · obtain ⟨_, _, rfl, changed⟩ := lawful.take step kind
        obtain ⟨_, _, rfl, changed'⟩ := lawful.take step' kind'
        refine ⟨queueOn_congr changed changed' ?_ views, ?_⟩
        · intro rq rq' queues
          rw [blind.serve, blind.serve, queues]
        · simp [observer, result, kind, kind', head_congr blind views]

end QueueScheduler

/-! ## The concrete schedulers -/

theorem roundRobin_timeBlind : RoundRobin.ConcreteScheduler.scheduler.TimeBlind where
  stamped _ _ := rfl
  accept := RoundRobin.RunQueue.untimed_accept
  serve := RoundRobin.RunQueue.untimed_serve
  tasks _ := rfl

theorem fair_timeBlind : Fair.ConcreteScheduler.scheduler.TimeBlind where
  stamped _ _ := rfl
  accept := Fair.RunQueue.untimed_accept
  serve := Fair.RunQueue.untimed_serve
  tasks _ := rfl

theorem Concrete.timeBlind (which : Concrete) : which.scheduler.TimeBlind := by
  cases which with
  | roundRobin => exact roundRobin_timeBlind
  | fair => exact fair_timeBlind

/--
Two runs of a scheduler from one state with the same operations on a CPU, up
to enqueue times, bring that CPU the same results and leave it the same run
queue, up to enqueue times, whatever is done on the other CPUs and when.
-/
theorem cpus_do_not_interfere (which : Concrete) (cpu : Nat)
    {start s s' : which.scheduler.State} {history history' : which.scheduler.History}
    (first : Run which.scheduler.Step start history s)
    (second : Run which.scheduler.Step start history' s')
    (same : which.scheduler.operationsOn cpu (history.map Transition.event) =
      which.scheduler.operationsOn cpu (history'.map Transition.event)) :
    which.scheduler.resultsOn cpu (history.map Transition.event) =
        which.scheduler.resultsOn cpu (history'.map Transition.event) ∧
      which.scheduler.queueOn cpu s = which.scheduler.queueOn cpu s' := by
  have isolated := QueueScheduler.isolated which.lawful which.timeBlind cpu
  rw [← QueueScheduler.inputs_observer, ← QueueScheduler.inputs_observer] at same
  obtain ⟨queues, results⟩ := isolated.indistinguishable first second rfl same
  rw [QueueScheduler.outputs_observer, QueueScheduler.outputs_observer] at results
  exact ⟨results, queues⟩

namespace Isolation

open RoundRobin RoundRobin.ConcreteScheduler

/-- A task enters CPU 0 and is dispatched while another enters CPU 1. -/
def sharedCalls : List Event :=
  [.enqueue (newTask 1) 0, .enqueue (newTask 2) 1, .dispatch 0 (some ((newTask 1).stamped 0))]

/-- The same on CPU 0 after CPU 1 has been used otherwise. -/
def laterCalls : List Event :=
  [.enqueue (newTask 3) 1, .dispatch 1 (some ((newTask 3).stamped 0)), .enqueue (newTask 1) 0,
    .dispatch 0 (some ((newTask 1).stamped 2))]

theorem sharedCalls_run :
    Run CheckedStep twoCpus (trace perform twoCpus sharedCalls)
      (sharedCalls.foldl perform twoCpus) :=
  checkedRun twoCpus_init (Run.of_trace step_perform (by decide))

theorem laterCalls_run :
    Run CheckedStep twoCpus (trace perform twoCpus laterCalls)
      (laterCalls.foldl perform twoCpus) :=
  checkedRun twoCpus_init (Run.of_trace step_perform (by decide))

theorem sharedCalls_laterCalls_agree :
    Concrete.roundRobin.scheduler.resultsOn 0
        ((trace perform twoCpus sharedCalls).map Transition.event) =
      Concrete.roundRobin.scheduler.resultsOn 0
        ((trace perform twoCpus laterCalls).map Transition.event) ∧
      Concrete.roundRobin.scheduler.queueOn 0 (sharedCalls.foldl perform twoCpus) =
        Concrete.roundRobin.scheduler.queueOn 0 (laterCalls.foldl perform twoCpus) :=
  cpus_do_not_interfere .roundRobin 0 sharedCalls_run laterCalls_run rfl

end Isolation

end SchedExt.Schedulers
