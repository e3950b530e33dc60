import SchedExt.Fair.PriorityService
import SchedExt.RoundRobin.Invariant
import SchedExt.Schedulers.QueueScheduler

/-!
# The two concrete schedulers as schedulers with queues

Round robin appends and fair scheduling inserts in order; both take the head.
The steps are the calls that meet every precondition of their methods.
-/

namespace SchedExt.RoundRobin

open SchedExt.Domain SchedExt.Foundations SchedExt.Schedulers

/-- A task without its enqueue time. -/
def Task.untimed (t : Task) : Task :=
  { t with enqueueTime := 0 }

/-- A run queue without the enqueue times of its tasks. -/
def RunQueue.untimed (rq : RunQueue) : RunQueue :=
  { rq with tasks := rq.tasks.map Task.untimed }

/-- What an insertion makes of a run queue. -/
def RunQueue.accept (t : Task) (rq : RunQueue) : RunQueue :=
  { rq with tasks := rq.tasks ++ [t] }

/-- What a dispatch makes of a run queue. -/
def RunQueue.serve (rq : RunQueue) : RunQueue :=
  { rq with tasks := rq.tasks.tail }

theorem RunQueue.serve_of_nil {rq : RunQueue} (empty : rq.tasks = []) : rq.serve = rq := by
  cases rq
  cases empty
  rfl

theorem RunQueue.untimed_accept (t : Task) (rq : RunQueue) :
    (rq.accept t).untimed = rq.untimed.accept t.untimed :=
  congrArg (RunQueue.mk rq.cpu) List.map_append

theorem RunQueue.untimed_serve (rq : RunQueue) : rq.serve.untimed = rq.untimed.serve :=
  congrArg (RunQueue.mk rq.cpu) List.map_tail

namespace ConcreteScheduler

/-- A call as its caller makes it. -/
def Event.label : Event → QueueEvent Nat Task
  | .enqueue t cpu => .put cpu t
  | .dispatch cpu next => .take cpu next
  | .reEnqueue t cpu => .put cpu t

theorem dispatch_changed {s : SchedState} {cpu : Nat} (known : cpu ∈ s.runQueues) :
    SchedState.QueueChanged s (dispatch s cpu).2 cpu RunQueue.serve := by
  cases contents : (s.queue cpu).tasks with
  | nil =>
      rw [dispatch_of_nil contents]
      exact .of_fixed known rfl (RunQueue.serve_of_nil contents)
  | cons chosen remaining =>
      apply SchedState.QueueChanged.of_insert known
      rw [dispatch_of_cons contents, RunQueue.serve, contents, List.tail_cons]

/-- The round-robin scheduler. -/
def scheduler : QueueScheduler where
  Task := Task
  RunQueue := RunQueue
  Event := Event
  pid := Task.pid
  cpuAffinity := Task.cpuAffinity
  enqueueTime := Task.enqueueTime
  stamped := Task.stamped
  untimed := Task.untimed
  tasks := RunQueue.tasks
  untimedQueue := RunQueue.untimed
  placement := Placement.tail
  accept := RunQueue.accept
  serve := RunQueue.serve
  Init := AbstractScheduler.Init
  Step := CheckedStep
  label := Event.label

theorem scheduler_lawful : scheduler.Lawful where
  init_empty := AbstractScheduler.Init.waiting_nil
  init_noTasks := AbstractScheduler.Init.noTasks
  pid_stamped := Task.stamped_pid
  affinity_stamped _ _ := rfl
  enqueueTime_stamped := Task.stamped_enqueueTime
  tasks_default := rfl
  tasks_accept _ _ := rfl
  tasks_serve _ := rfl
  bounded := by
    intro s event s' checked
    have valid := checked.validState
    exact ⟨valid.mem_lt, (checked.step.valid valid).mem_lt⟩
  clock checked := checked.step.queueStep.clock
  no_tick := by
    intro event isTick
    cases event with
    | enqueue t cpu => cases isTick
    | dispatch cpu next => cases isTick
    | reEnqueue t cpu => cases isTick
  put := by
    intro s event s' cpu t checked isPut
    rcases checked.step.cases with ⟨u, target, inserts, _, _, _, known, rfl⟩ | ⟨target, rfl, _⟩
    · have same : (.put target u : QueueEvent Nat Task) = .put cpu t := by
        rcases inserts with rfl | rfl
        · exact isPut
        · exact isPut
      cases same
      exact ⟨known, enqueue_allTasks s t cpu, .of_insert known rfl⟩
    · cases isPut
  take := by
    intro s event s' cpu next checked isTake
    rcases checked.step.cases with ⟨u, target, inserts, _⟩ | ⟨target, rfl, _, known, rfl⟩
    · rcases inserts with rfl | rfl
      · cases isTake
      · cases isTake
    · cases isTake
      exact ⟨known, dispatch_allTasks s cpu, dispatch_next s cpu, dispatch_changed known⟩

end ConcreteScheduler

end SchedExt.RoundRobin

namespace SchedExt.Fair

open SchedExt.Domain SchedExt.Foundations SchedExt.Schedulers

/-- A task without its enqueue time. -/
def Task.untimed (t : Task) : Task :=
  { t with enqueueTime := 0 }

/-- A run queue without the enqueue times of its tasks. -/
def RunQueue.untimed (rq : RunQueue) : RunQueue :=
  { rq with tasks := rq.tasks.map Task.untimed }

/-- What an insertion makes of a run queue. -/
def RunQueue.accept (t : Task) (rq : RunQueue) : RunQueue :=
  { rq with tasks := (Placement.ordered Task.vruntime).place t rq.tasks }

/-- What a dispatch makes of a run queue. -/
def RunQueue.serve (rq : RunQueue) : RunQueue :=
  { rq with
    tasks := rq.tasks.tail
    minVruntime := (rq.tasks.tail.head?.map Task.vruntime).getD rq.minVruntime }

theorem RunQueue.serve_of_nil {rq : RunQueue} (empty : rq.tasks = []) : rq.serve = rq := by
  cases rq
  cases empty
  rfl

theorem RunQueue.untimed_accept (t : Task) (rq : RunQueue) :
    (rq.accept t).untimed = rq.untimed.accept t.untimed := by
  have keeps : ∀ u : Task, u.untimed.vruntime = u.vruntime := fun _ => rfl
  exact congrArg (fun tasks => RunQueue.mk rq.cpu tasks rq.minVruntime)
    (Placement.map_ordered_place keeps t rq.tasks)

theorem RunQueue.untimed_serve (rq : RunQueue) : rq.serve.untimed = rq.untimed.serve := by
  have floor : rq.tasks.tail.head?.map Task.vruntime =
      ((rq.tasks.map Task.untimed).tail.head?).map Task.vruntime := by
    rw [← List.map_tail, List.head?_map, Option.map_map]
    rfl
  rw [RunQueue.serve, RunQueue.serve, RunQueue.untimed, RunQueue.untimed, floor, List.map_tail]

namespace ConcreteScheduler

/-- A call as its caller makes it. -/
def Event.label : Event → QueueEvent Nat Task
  | .enqueue t cpu => .put cpu t
  | .dispatch cpu next => .take cpu next

theorem enqueue_changed {s : SchedState} (t : Task) {cpu : Nat} (known : cpu ∈ s.runQueues) :
    SchedState.QueueChanged s (enqueue s t cpu) cpu (RunQueue.accept (t.stamped s.clock)) := by
  apply SchedState.QueueChanged.of_insert known
  rw [RunQueue.accept, ← sortedInsert_eq_place]
  rfl

theorem dispatch_changed {s : SchedState} {cpu : Nat} (known : cpu ∈ s.runQueues) :
    SchedState.QueueChanged s (dispatch s cpu).2 cpu RunQueue.serve := by
  cases contents : (s.queue cpu).tasks with
  | nil =>
      rw [dispatch_of_nil contents]
      exact .of_fixed known rfl (RunQueue.serve_of_nil contents)
  | cons chosen remaining =>
      apply SchedState.QueueChanged.of_insert known
      rw [RunQueue.serve, contents, List.tail_cons]
      cases remaining with
      | nil => simp only [dispatch, contents]; rfl
      | cons next later => simp only [dispatch, contents]; rfl

/-- The fair scheduler. -/
def scheduler : QueueScheduler where
  Task := Task
  RunQueue := RunQueue
  Event := Event
  pid := Task.pid
  cpuAffinity := Task.cpuAffinity
  enqueueTime := Task.enqueueTime
  stamped := Task.stamped
  untimed := Task.untimed
  tasks := RunQueue.tasks
  untimedQueue := RunQueue.untimed
  placement := Placement.ordered Task.vruntime
  accept := RunQueue.accept
  serve := RunQueue.serve
  Init := EmptyInit
  Step := CheckedStep
  label := Event.label

theorem scheduler_lawful : scheduler.Lawful where
  init_empty := EmptyInit.waiting_nil
  init_noTasks := fun init => init.noTasks
  pid_stamped := Task.stamped_pid
  affinity_stamped _ _ := rfl
  enqueueTime_stamped := Task.stamped_enqueueTime
  tasks_default := rfl
  tasks_accept _ _ := rfl
  tasks_serve _ := rfl
  bounded := by
    intro s event s' checked
    have valid : ValidState s := (requires_iff.mp checked.1).1
    exact ⟨valid.mem_lt, (checked.step.valid valid).mem_lt⟩
  clock checked := checked.step.clock_eq
  no_tick := by
    intro event isTick
    cases event with
    | enqueue t cpu => cases isTick
    | dispatch cpu next => cases isTick
  put := by
    intro s event s' cpu t checked isPut
    rcases checked.step.cases with ⟨u, target, rfl, _, _, known, rfl⟩ | ⟨target, rfl, _⟩
    · cases isPut
      exact ⟨known, enqueue_allTasks s t cpu, enqueue_changed t known⟩
    · cases isPut
  take := by
    intro s event s' cpu next checked isTake
    rcases checked.step.cases with ⟨u, target, rfl, _⟩ | ⟨target, rfl, known, rfl⟩
    · cases isTake
    · cases isTake
      exact ⟨known, dispatch_allTasks s cpu, rfl, dispatch_changed known⟩

end ConcreteScheduler

end SchedExt.Fair

namespace SchedExt.Schedulers

/-- The concrete schedulers of the two specifications. -/
inductive Concrete where
  | roundRobin
  | fair
  deriving DecidableEq

def Concrete.scheduler : Concrete → QueueScheduler
  | .roundRobin => RoundRobin.ConcreteScheduler.scheduler
  | .fair => Fair.ConcreteScheduler.scheduler

theorem Concrete.lawful (which : Concrete) : which.scheduler.Lawful := by
  cases which with
  | roundRobin => exact RoundRobin.ConcreteScheduler.scheduler_lawful
  | fair => exact Fair.ConcreteScheduler.scheduler_lawful

end SchedExt.Schedulers
