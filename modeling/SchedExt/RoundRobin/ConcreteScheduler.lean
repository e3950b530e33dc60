import SchedExt.RoundRobin.AbstractScheduler

/-!
# The concrete round-robin scheduler

The bodies of `Enqueue`, `Dispatch` and `ReEnqueue` with their preconditions,
and runs of calls.  A run is described twice: with callers held only to what
they can supply, and with every precondition of the methods demanded.  Each
call is one step of a family of first-in first-out queues.
-/

namespace SchedExt.RoundRobin.ConcreteScheduler

open SchedExt.Domain SchedExt.Foundations

/-! ## Method bodies -/

/-- Append the task to the tail of the queue. -/
def enqueue (s : SchedState) (t : Task) (targetCpu : Nat) : SchedState :=
  let rq := s.queue targetCpu
  let newTask := { t with enqueueTime := s.clock, remainingSlice := timeQuantum }
  let newTasks := rq.tasks ++ [newTask]
  let newRq := { rq with tasks := newTasks }
  let newRunQueues := s.runQueues.insert targetCpu newRq
  { s with
    runQueues := newRunQueues
    allTasks := s.allTasks ∪ {newTask}
    clock := s.clock + 1 }

/-- Pick the head of the queue, the earliest-enqueued task. -/
def dispatch (s : SchedState) (cpu : Nat) : Option Task × SchedState :=
  let rq := s.queue cpu
  match rq.tasks with
  | [] => (none, { s with clock := s.clock + 1 })
  | chosen :: remaining =>
      let newRq := { rq with tasks := remaining }
      (some chosen,
        { s with
          runQueues := s.runQueues.insert cpu newRq
          clock := s.clock + 1 })

/-- The quantum has expired: the task goes to the tail with a fresh one. -/
def reEnqueue (s : SchedState) (t : Task) (cpu : Nat) : SchedState :=
  let refreshed := { t with enqueueTime := s.clock, remainingSlice := timeQuantum }
  let rq := s.queue cpu
  let newTasks := rq.tasks ++ [refreshed]
  let newRq := { rq with tasks := newTasks }
  { s with
    runQueues := s.runQueues.insert cpu newRq
    allTasks := s.allTasks ∪ {refreshed}
    clock := s.clock + 1 }

/-- The two insertion methods differ in their text only. -/
@[simp]
theorem reEnqueue_eq_enqueue (s : SchedState) (t : Task) (cpu : Nat) :
    reEnqueue s t cpu = enqueue s t cpu := rfl

/-! ## Preconditions -/

/-- The `requires` clauses of `Enqueue`. -/
structure EnqueueRequires (s : SchedState) (t : Task) (targetCpu : Nat) : Prop where
  validState : ValidState s
  validTask : ValidTask t
  runnable : t.state = .runnable
  pidPositive : t.pid > 0
  active : targetCpu ∈ s.activeCpus
  known : targetCpu ∈ s.runQueues
  ordered : FIFOOrdered (s.queue targetCpu).tasks
  appendable : Appendable (s.queue targetCpu).tasks s.clock

/-- The `requires` clauses of `Dispatch`. -/
structure DispatchRequires (s : SchedState) (cpu : Nat) : Prop where
  validState : ValidState s
  active : cpu ∈ s.activeCpus
  known : cpu ∈ s.runQueues
  ordered : FIFOOrdered (s.queue cpu).tasks
  allRunnable : AllRunnable (s.queue cpu).tasks

/-- The `requires` clauses of `ReEnqueue` are those of `Enqueue`. -/
abbrev ReEnqueueRequires := EnqueueRequires

/-! ## Calls and runs -/

/-- A method call with its arguments and, for `Dispatch`, the returned `next`. -/
inductive Event where
  | enqueue (t : Task) (targetCpu : Nat)
  | dispatch (cpu : Nat) (next : Option Task)
  | reEnqueue (t : Task) (cpu : Nat)
  deriving DecidableEq

/-- The CPU a call is addressed to. -/
def Event.cpu : Event → Nat
  | .enqueue _ cpu => cpu
  | .dispatch cpu _ => cpu
  | .reEnqueue _ cpu => cpu

/-- What a caller supplies: a valid runnable task and an active, known CPU. -/
def CallerMeets (s : SchedState) : Event → Prop
  | .enqueue t cpu | .reEnqueue t cpu =>
      ValidTask t ∧ t.state = .runnable ∧ t.pid > 0 ∧ cpu ∈ s.activeCpus ∧ cpu ∈ s.runQueues
  | .dispatch cpu _ => cpu ∈ s.activeCpus ∧ cpu ∈ s.runQueues

instance (s : SchedState) (event : Event) : Decidable (CallerMeets s event) := by
  cases event <;> unfold CallerMeets <;> infer_instance

/-- All `requires` clauses of the called method. -/
def Requires (s : SchedState) : Event → Prop
  | .enqueue t cpu => EnqueueRequires s t cpu
  | .dispatch cpu _ => DispatchRequires s cpu
  | .reEnqueue t cpu => ReEnqueueRequires s t cpu

/-- The called body takes the state before to the state after. -/
inductive Executes : SchedState → Event → SchedState → Prop where
  | enqueue (s : SchedState) (t : Task) (cpu : Nat) :
      Executes s (.enqueue t cpu) (enqueue s t cpu)
  | dispatch (s : SchedState) (cpu : Nat) :
      Executes s (.dispatch cpu (dispatch s cpu).1) (dispatch s cpu).2
  | reEnqueue (s : SchedState) (t : Task) (cpu : Nat) :
      Executes s (.reEnqueue t cpu) (reEnqueue s t cpu)

/-- The state after a call, computed from the call alone. -/
def perform (s : SchedState) : Event → SchedState
  | .enqueue t cpu => enqueue s t cpu
  | .dispatch cpu _ => (dispatch s cpu).2
  | .reEnqueue t cpu => reEnqueue s t cpu

/-- The recorded `next` of a dispatch is the one the body returns. -/
def Answers (s : SchedState) : Event → Prop
  | .dispatch cpu next => next = (dispatch s cpu).1
  | _ => True

instance (s : SchedState) (event : Event) : Decidable (Answers s event) := by
  cases event <;> unfold Answers <;> infer_instance

/-- A call whose caller meets its own obligations. -/
def Step (s : SchedState) (event : Event) (s' : SchedState) : Prop :=
  CallerMeets s event ∧ Executes s event s'

/-- A call that meets every precondition of its method. -/
def CheckedStep (s : SchedState) (event : Event) (s' : SchedState) : Prop :=
  Requires s event ∧ Executes s event s'

theorem CheckedStep.step {s s' : SchedState} {event : Event}
    (checked : CheckedStep s event s') : Step s event s' := by
  refine ⟨?_, checked.2⟩
  have required := checked.1
  cases event with
  | enqueue t cpu =>
      exact ⟨required.validTask, required.runnable, required.pidPositive,
        required.active, required.known⟩
  | dispatch cpu next => exact ⟨required.active, required.known⟩
  | reEnqueue t cpu =>
      exact ⟨required.validTask, required.runnable, required.pidPositive,
        required.active, required.known⟩

theorem CheckedStep.validState {s s' : SchedState} {event : Event}
    (checked : CheckedStep s event s') : ValidState s := by
  have required := checked.1
  cases event with
  | enqueue t cpu => exact required.validState
  | dispatch cpu next => exact required.validState
  | reEnqueue t cpu => exact required.validState

theorem step_perform (s : SchedState) (event : Event)
    (allowed : CallerMeets s event ∧ Answers s event) : Step s event (perform s event) := by
  refine ⟨allowed.1, ?_⟩
  cases event with
  | enqueue t cpu => exact .enqueue s t cpu
  | dispatch cpu next =>
      obtain rfl : next = (dispatch s cpu).1 := allowed.2
      exact .dispatch s cpu
  | reEnqueue t cpu => exact .reEnqueue s t cpu

/--
What a call can do.  Either it inserts a stamped record at the tail of one
queue, or it takes the head of one queue.
-/
theorem Step.cases {s s' : SchedState} {event : Event} (step : Step s event s') :
    (∃ t cpu, (event = .enqueue t cpu ∨ event = .reEnqueue t cpu) ∧
      ValidTask t ∧ t.state = .runnable ∧ cpu ∈ s.activeCpus ∧ cpu ∈ s.runQueues ∧
        s' = enqueue s t cpu) ∨
    ∃ cpu, event = .dispatch cpu (dispatch s cpu).1 ∧
      cpu ∈ s.activeCpus ∧ cpu ∈ s.runQueues ∧ s' = (dispatch s cpu).2 := by
  obtain ⟨meets, executes⟩ := step
  cases executes with
  | enqueue t cpu =>
      obtain ⟨valid, runnable, _, active, known⟩ := meets
      exact Or.inl ⟨t, cpu, Or.inl rfl, valid, runnable, active, known, rfl⟩
  | dispatch cpu => exact Or.inr ⟨cpu, rfl, meets.1, meets.2, rfl⟩
  | reEnqueue t cpu =>
      obtain ⟨valid, runnable, _, active, known⟩ := meets
      exact Or.inl ⟨t, cpu, Or.inr rfl, valid, runnable, active, known,
        reEnqueue_eq_enqueue s t cpu⟩

/-! ## What the bodies compute -/

@[simp]
theorem enqueue_clock (s : SchedState) (t : Task) (cpu : Nat) :
    (enqueue s t cpu).clock = s.clock + 1 := rfl

@[simp]
theorem enqueue_activeCpus (s : SchedState) (t : Task) (cpu : Nat) :
    (enqueue s t cpu).activeCpus = s.activeCpus := rfl

@[simp]
theorem enqueue_allTasks (s : SchedState) (t : Task) (cpu : Nat) :
    (enqueue s t cpu).allTasks = s.allTasks ∪ {t.stamped s.clock} := rfl

theorem mem_enqueue_runQueues {s : SchedState} {t : Task} {cpu other : Nat}
    (known : cpu ∈ s.runQueues) :
    other ∈ (enqueue s t cpu).runQueues ↔ other ∈ s.runQueues :=
  SchedState.mem_insert_iff known

@[simp]
theorem enqueue_tasks_self (s : SchedState) (t : Task) (cpu : Nat) :
    ((enqueue s t cpu).queue cpu).tasks = (s.queue cpu).tasks ++ [t.stamped s.clock] := by
  simp [enqueue, Task.stamped]

theorem enqueue_queue_of_ne (s : SchedState) (t : Task) {cpu other : Nat}
    (different : other ≠ cpu) : (enqueue s t cpu).queue other = s.queue other :=
  SchedState.queue_insert_of_ne s _ _ _ _ different

theorem enqueue_view (s : SchedState) (t : Task) (cpu : Nat) :
    view (enqueue s t cpu) = (view s).put Placement.tail cpu (t.stamped s.clock) :=
  SchedState.view_of_frame (enqueue_clock s t cpu) (enqueue_tasks_self s t cpu)
    (enqueue_queue_of_ne s t)

theorem enqueue_valid {s : SchedState} {t : Task} {cpu : Nat} (valid : ValidState s)
    (known : cpu ∈ s.runQueues) (validTask : ValidTask t) :
    ValidState (enqueue s t cpu) := by
  refine SchedState.Valid.insert valid known ?_ _ _
  intro queued member
  rcases List.mem_append.mp member with old | new
  · exact valid.tasksValid cpu (Finmap.mem_keys.mpr known) queued old
  · rw [List.mem_singleton.mp new]
    exact validTask.stamped s.clock

theorem dispatch_of_nil {s : SchedState} {cpu : Nat} (empty : (s.queue cpu).tasks = []) :
    dispatch s cpu = (none, { s with clock := s.clock + 1 }) := by
  simp only [dispatch, empty]

theorem dispatch_of_cons {s : SchedState} {cpu : Nat} {chosen : Task}
    {remaining : List Task} (contents : (s.queue cpu).tasks = chosen :: remaining) :
    dispatch s cpu =
      (some chosen,
        { s with
          runQueues := s.runQueues.insert cpu { s.queue cpu with tasks := remaining }
          clock := s.clock + 1 }) := by
  simp only [dispatch, contents]

/-- Beyond the run queues a dispatch changes the clock alone. -/
theorem dispatch_frame (s : SchedState) (cpu : Nat) :
    ∃ runQueues, (dispatch s cpu).2 =
      { s with runQueues := runQueues, clock := s.clock + 1 } := by
  cases contents : (s.queue cpu).tasks with
  | nil => exact ⟨s.runQueues, congrArg Prod.snd (dispatch_of_nil contents)⟩
  | cons chosen remaining => exact ⟨_, congrArg Prod.snd (dispatch_of_cons contents)⟩

@[simp]
theorem dispatch_clock (s : SchedState) (cpu : Nat) :
    (dispatch s cpu).2.clock = s.clock + 1 := by
  obtain ⟨runQueues, result⟩ := dispatch_frame s cpu
  rw [result]

@[simp]
theorem dispatch_activeCpus (s : SchedState) (cpu : Nat) :
    (dispatch s cpu).2.activeCpus = s.activeCpus := by
  obtain ⟨runQueues, result⟩ := dispatch_frame s cpu
  rw [result]

@[simp]
theorem dispatch_allTasks (s : SchedState) (cpu : Nat) :
    (dispatch s cpu).2.allTasks = s.allTasks := by
  obtain ⟨runQueues, result⟩ := dispatch_frame s cpu
  rw [result]

/-- The returned task is the head of the queue. -/
theorem dispatch_next (s : SchedState) (cpu : Nat) :
    (dispatch s cpu).1 = (s.queue cpu).tasks.head? := by
  cases contents : (s.queue cpu).tasks with
  | nil => rw [dispatch_of_nil contents, List.head?_nil]
  | cons chosen remaining => rw [dispatch_of_cons contents, List.head?_cons]

theorem mem_dispatch_runQueues {s : SchedState} {cpu other : Nat}
    (known : cpu ∈ s.runQueues) :
    other ∈ (dispatch s cpu).2.runQueues ↔ other ∈ s.runQueues := by
  cases contents : (s.queue cpu).tasks with
  | nil => rw [dispatch_of_nil contents]
  | cons chosen remaining =>
      rw [dispatch_of_cons contents]
      exact SchedState.mem_insert_iff known

theorem dispatch_queue_of_ne (s : SchedState) {cpu other : Nat}
    (different : other ≠ cpu) : (dispatch s cpu).2.queue other = s.queue other := by
  cases contents : (s.queue cpu).tasks with
  | nil =>
      rw [dispatch_of_nil contents]
      rfl
  | cons chosen remaining =>
      rw [dispatch_of_cons contents]
      exact SchedState.queue_insert_of_ne s _ _ _ _ different

theorem dispatch_tasks_self (s : SchedState) (cpu : Nat) :
    ((dispatch s cpu).2.queue cpu).tasks = (s.queue cpu).tasks.tail := by
  cases contents : (s.queue cpu).tasks with
  | nil =>
      rw [dispatch_of_nil contents]
      exact contents
  | cons chosen remaining =>
      rw [dispatch_of_cons contents, SchedState.queue_insert_self, List.tail_cons]

theorem dispatch_view (s : SchedState) (cpu : Nat) :
    view (dispatch s cpu).2 = (view s).take cpu :=
  SchedState.view_of_frame (dispatch_clock s cpu) (dispatch_tasks_self s cpu)
    (dispatch_queue_of_ne s)

theorem dispatch_valid {s : SchedState} {cpu : Nat} (valid : ValidState s)
    (known : cpu ∈ s.runQueues) : ValidState (dispatch s cpu).2 := by
  cases contents : (s.queue cpu).tasks with
  | nil =>
      rw [dispatch_of_nil contents]
      exact SchedState.Valid.of_queues valid _ _
  | cons chosen remaining =>
      rw [dispatch_of_cons contents]
      refine SchedState.Valid.insert valid known ?_ _ _
      intro queued member
      refine valid.tasksValid cpu (Finmap.mem_keys.mpr known) queued ?_
      rw [contents]
      exact List.mem_cons_of_mem chosen member

/-- A call keeps the state valid. -/
theorem Step.valid {s s' : SchedState} {event : Event} (taken : Step s event s')
    (valid : ValidState s) : ValidState s' := by
  rcases taken.cases with ⟨t, cpu, _, validTask, _, _, known, rfl⟩ | ⟨cpu, _, _, known, rfl⟩
  · exact enqueue_valid valid known validTask
  · exact dispatch_valid valid known

/-! ## Calls as steps of a family of queues -/

/-- A call as an observer of the queues sees it; insertions show the stored record. -/
def observe (call : Transition SchedState Event) : QueueEvent Nat Task :=
  match call.event with
  | .enqueue t cpu => .put cpu (t.stamped call.source.clock)
  | .dispatch cpu next => .take cpu next
  | .reEnqueue t cpu => .put cpu (t.stamped call.source.clock)

theorem observe_channel (call : Transition SchedState Event) :
    (observe call).channel? = some call.event.cpu := by
  unfold observe
  cases call.event <;> rfl

/-- Every call is a step of a family of first-in first-out queues. -/
theorem Step.queueStep {s s' : SchedState} {event : Event} (step : Step s event s') :
    QueueStep (view s) (observe ⟨s, event, s'⟩) (view s') := by
  rcases step.cases with ⟨t, cpu, inserts, _, _, _, _, rfl⟩ | ⟨cpu, rfl, _, _, rfl⟩
  · have observed : observe ⟨s, event, enqueue s t cpu⟩ = .put cpu (t.stamped s.clock) := by
      rcases inserts with rfl | rfl <;> rfl
    rw [observed, enqueue_view]
    exact .put _ cpu _ rfl
  · rw [dispatch_view]
    have observed : observe ⟨s, .dispatch cpu (dispatch s cpu).1, (dispatch s cpu).2⟩ =
        .take cpu ((view s).waiting cpu).head? := by
      rw [view_waiting, ← dispatch_next]
      rfl
    rw [observed]
    exact .take _ cpu

/-- A run of calls is a run of a family of first-in first-out queues. -/
theorem queueRun {start s : SchedState} {history : List (Transition SchedState Event)}
    (run : Run Step start history s) :
    Run QueueStep (view start)
      (history.map fun call => ⟨view call.source, observe call, view call.target⟩)
      (view s) :=
  run.simulate view observe fun step => step.queueStep

/-- The records inserted on a CPU, as stored, oldest first. -/
def appended (cpu : Nat) (history : List (Transition SchedState Event)) : List Task :=
  QueueEvent.arrived cpu (history.map observe)

/-- The tasks that `Dispatch` returned on a CPU, oldest first. -/
def returned (cpu : Nat) (history : List (Transition SchedState Event)) : List Task :=
  QueueEvent.served cpu (history.map observe)

end SchedExt.RoundRobin.ConcreteScheduler
