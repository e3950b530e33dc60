import SchedExt.Fair.AbstractScheduler
import SchedExt.Foundations.PriorityPlacement

/-!
# The concrete fair scheduler

The bodies of `SortedInsert`, `Enqueue` and `Dispatch` with their
preconditions, and runs of calls.  The search loop of `SortedInsert` finds the
place of stable insertion by virtual runtime, so that each call is one step of
a family of stable priority queues.
-/

namespace SchedExt.Fair.ConcreteScheduler

open SchedExt.Domain SchedExt.Foundations

/-! ## Sorted insertion -/

/-- The search loop of `SortedInsert`, from a value of `idx` on. -/
def insertionIndex (queue : List Task) (t : Task) (idx : Nat) : Nat :=
  if inside : idx < queue.length then
    if queue[idx].vruntime ≤ t.vruntime then insertionIndex queue t (idx + 1) else idx
  else idx
termination_by queue.length - idx

/-- Sorted insertion, which maintains the virtual runtime order. -/
def sortedInsert (queue : List Task) (t : Task) : List Task :=
  let idx := insertionIndex queue t 0
  queue.take idx ++ [t] ++ queue.drop idx

/-- The `requires` clause of `SortedInsert`. -/
def SortedInsertRequires (queue : List Task) : Prop :=
  ∀ i j (_ : i < j) (bound : j < queue.length), queue[i].vruntime ≤ queue[j].vruntime

/-- The loop passes what is not larger than `t` and stops at what is larger. -/
theorem insertionIndex_append (t : Task) (passed front back : List Task)
    (below : ∀ earlier ∈ front, earlier.vruntime ≤ t.vruntime)
    (above : ∀ next ∈ back.head?, t.vruntime < next.vruntime) :
    insertionIndex (passed ++ (front ++ back)) t passed.length =
      passed.length + front.length := by
  induction front generalizing passed with
  | nil =>
      rw [List.nil_append, insertionIndex]
      cases back with
      | nil => simp
      | cons next rest =>
          have larger : ¬ next.vruntime ≤ t.vruntime := Nat.not_le.mpr (above next rfl)
          simp [larger]
  | cons first rest ih =>
      obtain ⟨passes, later⟩ := List.forall_mem_cons.mp below
      have onward := ih (passed ++ [first]) later
      rw [insertionIndex]
      simp only [List.length_append, List.length_cons, List.length_nil] at onward ⊢
      simp only [List.append_assoc, List.cons_append, List.nil_append] at onward
      rw [dif_pos (by omega)]
      simp only [List.cons_append, List.getElem_append_right (Nat.le_refl passed.length),
        Nat.sub_self, List.getElem_cons_zero]
      rw [if_pos passes, onward]
      omega

/-- `SortedInsert` is stable placement by virtual runtime. -/
theorem sortedInsert_eq_place (queue : List Task) (t : Task) :
    sortedInsert queue t = (Placement.ordered Task.vruntime).place t queue := by
  obtain ⟨front, back, rfl, placed, below, above⟩ :=
    Placement.ordered_place_split Task.vruntime t queue
  have idx := insertionIndex_append t [] front back below above
  rw [List.nil_append, List.length_nil, Nat.zero_add] at idx
  rw [placed, sortedInsert, idx, List.take_left, List.drop_left, List.append_assoc]
  rfl

theorem sortedInsertRequires_iff_pairwise (queue : List Task) :
    SortedInsertRequires queue ↔
      queue.Pairwise fun first second => first.vruntime ≤ second.vruntime := by
  rw [List.pairwise_iff_getElem]
  exact ⟨fun sorted i j _ bound order => sorted i j order bound,
    fun sorted i j order bound => sorted i j (order.trans bound) bound order⟩

/-! ## Method bodies -/

/-- Insert the task sorted by virtual runtime. -/
def enqueue (s : SchedState) (t : Task) (targetCpu : Nat) : SchedState :=
  let rq := s.queue targetCpu
  let newTasks := sortedInsert rq.tasks { t with enqueueTime := s.clock }
  let newRq := { rq with tasks := newTasks }
  let newRunQueues := s.runQueues.insert targetCpu newRq
  { s with
    runQueues := newRunQueues
    allTasks := s.allTasks ∪ {{ t with enqueueTime := s.clock }}
    clock := s.clock + 1 }

/--
Pick the first task, of minimum virtual runtime.  The update of its virtual
runtime is computed but, as in the source, neither returned nor stored.
-/
def dispatch (s : SchedState) (cpu : Nat) : Option Task × SchedState :=
  let rq := s.queue cpu
  match rq.tasks with
  | [] => (none, { s with clock := s.clock + 1 })
  | chosen :: remaining =>
      let delta := deltaVruntime chosen
      let _updated : Task :=
        { chosen with vruntime := chosen.vruntime + delta, state := .running }
      let newRq : RunQueue :=
        { rq with
          tasks := remaining
          minVruntime :=
            if filled : remaining.length > 0 then remaining[0].vruntime else rq.minVruntime }
      (some chosen,
        { s with
          runQueues := s.runQueues.insert cpu newRq
          clock := s.clock + 1 })

/-! ## Preconditions -/

/-- The `requires` clauses of `Enqueue`. -/
structure EnqueueRequires (s : SchedState) (t : Task) (targetCpu : Nat) : Prop where
  validState : ValidState s
  validTask : ValidTask t
  runnable : t.state = .runnable
  active : targetCpu ∈ s.activeCpus
  known : targetCpu ∈ s.runQueues

/-- The `requires` clauses of `Dispatch`. -/
structure DispatchRequires (s : SchedState) (cpu : Nat) : Prop where
  validState : ValidState s
  active : cpu ∈ s.activeCpus
  known : cpu ∈ s.runQueues

/-! ## Calls and runs -/

/-- A method call with its arguments and, for `Dispatch`, the returned `next`. -/
inductive Event where
  | enqueue (t : Task) (targetCpu : Nat)
  | dispatch (cpu : Nat) (next : Option Task)
  deriving DecidableEq

/-- The CPU a call is addressed to. -/
def Event.cpu : Event → Nat
  | .enqueue _ cpu => cpu
  | .dispatch cpu _ => cpu

/-- What a caller supplies: a valid runnable task and an active, known CPU. -/
def CallerMeets (s : SchedState) : Event → Prop
  | .enqueue t cpu =>
      ValidTask t ∧ t.state = .runnable ∧ cpu ∈ s.activeCpus ∧ cpu ∈ s.runQueues
  | .dispatch cpu _ => cpu ∈ s.activeCpus ∧ cpu ∈ s.runQueues

instance (s : SchedState) (event : Event) : Decidable (CallerMeets s event) := by
  cases event <;> unfold CallerMeets <;> infer_instance

/-- All `requires` clauses of the called method. -/
def Requires (s : SchedState) : Event → Prop
  | .enqueue t cpu => EnqueueRequires s t cpu
  | .dispatch cpu _ => DispatchRequires s cpu

theorem requires_iff {s : SchedState} {event : Event} :
    Requires s event ↔ ValidState s ∧ CallerMeets s event := by
  cases event with
  | enqueue t cpu =>
      exact ⟨fun required => ⟨required.validState, required.validTask, required.runnable,
          required.active, required.known⟩,
        fun ⟨valid, validTask, runnable, active, known⟩ =>
          ⟨valid, validTask, runnable, active, known⟩⟩
  | dispatch cpu next =>
      exact ⟨fun required => ⟨required.validState, required.active, required.known⟩,
        fun ⟨valid, active, known⟩ => ⟨valid, active, known⟩⟩

/-- The called body takes the state before to the state after. -/
inductive Executes : SchedState → Event → SchedState → Prop where
  | enqueue (s : SchedState) (t : Task) (cpu : Nat) :
      Executes s (.enqueue t cpu) (enqueue s t cpu)
  | dispatch (s : SchedState) (cpu : Nat) :
      Executes s (.dispatch cpu (dispatch s cpu).1) (dispatch s cpu).2

/-- The state after a call, computed from the call alone. -/
def perform (s : SchedState) : Event → SchedState
  | .enqueue t cpu => enqueue s t cpu
  | .dispatch cpu _ => (dispatch s cpu).2

/-- The recorded `next` of a dispatch is the one the body returns. -/
def Answers (s : SchedState) : Event → Prop
  | .enqueue _ _ => True
  | .dispatch cpu next => next = (dispatch s cpu).1

instance (s : SchedState) (event : Event) : Decidable (Answers s event) := by
  cases event <;> unfold Answers <;> infer_instance

/-- A call whose caller meets its own obligations. -/
def Step (s : SchedState) (event : Event) (s' : SchedState) : Prop :=
  CallerMeets s event ∧ Executes s event s'

/-- A call that meets every precondition of its method. -/
def CheckedStep (s : SchedState) (event : Event) (s' : SchedState) : Prop :=
  Requires s event ∧ Executes s event s'

theorem CheckedStep.step {s s' : SchedState} {event : Event}
    (checked : CheckedStep s event s') : Step s event s' :=
  ⟨(requires_iff.mp checked.1).2, checked.2⟩

theorem executes_perform {s : SchedState} {event : Event} (answers : Answers s event) :
    Executes s event (perform s event) := by
  cases event with
  | enqueue t cpu => exact .enqueue s t cpu
  | dispatch cpu next =>
      obtain rfl : next = (dispatch s cpu).1 := answers
      exact .dispatch s cpu

theorem checkedStep_perform (s : SchedState) (event : Event)
    (allowed : ValidState s ∧ CallerMeets s event ∧ Answers s event) :
    CheckedStep s event (perform s event) :=
  ⟨requires_iff.mpr ⟨allowed.1, allowed.2.1⟩, executes_perform allowed.2.2⟩

/-- The initial condition of a run: `Init` holds and no run queue holds a task. -/
structure EmptyInit (s : SchedState) : Prop extends AbstractScheduler.Init s where
  emptyQueues : ∀ cpu ∈ s.runQueues, (s.queue cpu).tasks = []

theorem EmptyInit.waiting_nil {s : SchedState} (init : EmptyInit s) (cpu : Nat) :
    (s.queue cpu).tasks = [] := by
  by_cases known : cpu ∈ s.runQueues
  · exact init.emptyQueues cpu known
  · rw [SchedState.queue_of_notMem known]
    rfl

/-! ## What the bodies compute -/

@[simp]
theorem enqueue_clock (s : SchedState) (t : Task) (cpu : Nat) :
    (enqueue s t cpu).clock = s.clock + 1 := rfl

@[simp]
theorem enqueue_activeCpus (s : SchedState) (t : Task) (cpu : Nat) :
    (enqueue s t cpu).activeCpus = s.activeCpus := rfl

@[simp]
theorem enqueue_allTasks (s : SchedState) (t : Task) (cpu : Nat) :
    (enqueue s t cpu).allTasks = s.allTasks ∪ {t.stamped s.clock} := rfl

@[simp]
theorem enqueue_tasks_self (s : SchedState) (t : Task) (cpu : Nat) :
    ((enqueue s t cpu).queue cpu).tasks =
      (Placement.ordered Task.vruntime).place (t.stamped s.clock) (s.queue cpu).tasks := by
  rw [← sortedInsert_eq_place]
  simp [enqueue, Task.stamped]

theorem enqueue_lookup_of_ne (s : SchedState) (t : Task) {cpu other : Nat}
    (different : other ≠ cpu) :
    (enqueue s t cpu).runQueues.lookup other = s.runQueues.lookup other :=
  Finmap.lookup_insert_of_ne _ different

theorem enqueue_view (s : SchedState) (t : Task) (cpu : Nat) :
    view (enqueue s t cpu) =
      (view s).put (Placement.ordered Task.vruntime) cpu (t.stamped s.clock) :=
  SchedState.view_of_frame (enqueue_clock s t cpu) (enqueue_tasks_self s t cpu)
    (fun different => SchedState.queue_congr (enqueue_lookup_of_ne s t different))

theorem enqueue_valid {s : SchedState} {t : Task} {cpu : Nat} (valid : ValidState s)
    (known : cpu ∈ s.runQueues) (validTask : ValidTask t) :
    ValidState (enqueue s t cpu) := by
  refine SchedState.Valid.insert valid known ?_ _ _
  intro queued member
  rw [sortedInsert_eq_place, Placement.mem_place] at member
  rcases member with rfl | old
  · exact validTask.stamped s.clock
  · exact valid.tasksValid cpu (Finmap.mem_keys.mpr known) queued old

theorem dispatch_of_nil {s : SchedState} {cpu : Nat} (empty : (s.queue cpu).tasks = []) :
    dispatch s cpu = (none, { s with clock := s.clock + 1 }) := by
  simp only [dispatch, empty]

theorem dispatch_of_cons {s : SchedState} {cpu : Nat} {chosen : Task}
    {remaining : List Task} (contents : (s.queue cpu).tasks = chosen :: remaining) :
    ∃ floor, dispatch s cpu =
      (some chosen,
        { s with
          runQueues := s.runQueues.insert cpu
            { s.queue cpu with tasks := remaining, minVruntime := floor }
          clock := s.clock + 1 }) := by
  refine ⟨if filled : remaining.length > 0 then remaining[0].vruntime
    else (s.queue cpu).minVruntime, ?_⟩
  simp only [dispatch, contents]

/-- Beyond the run queues a dispatch changes the clock alone. -/
theorem dispatch_frame (s : SchedState) (cpu : Nat) :
    ∃ runQueues, (dispatch s cpu).2 =
      { s with runQueues := runQueues, clock := s.clock + 1 } := by
  cases contents : (s.queue cpu).tasks with
  | nil => exact ⟨s.runQueues, congrArg Prod.snd (dispatch_of_nil contents)⟩
  | cons chosen remaining =>
      obtain ⟨floor, result⟩ := dispatch_of_cons contents
      exact ⟨_, congrArg Prod.snd result⟩

@[simp]
theorem dispatch_clock (s : SchedState) (cpu : Nat) :
    (dispatch s cpu).2.clock = s.clock + 1 := by
  obtain ⟨runQueues, result⟩ := dispatch_frame s cpu
  rw [result]

@[simp]
theorem dispatch_allTasks (s : SchedState) (cpu : Nat) :
    (dispatch s cpu).2.allTasks = s.allTasks := by
  obtain ⟨runQueues, result⟩ := dispatch_frame s cpu
  rw [result]

/-- The returned task is the head of the queue. -/
theorem dispatch_next (s : SchedState) (cpu : Nat) :
    (dispatch s cpu).1 = (s.queue cpu).tasks.head? := by
  cases contents : (s.queue cpu).tasks with
  | nil => rw [dispatch_of_nil contents, List.head?_nil]
  | cons chosen remaining =>
      obtain ⟨floor, result⟩ := dispatch_of_cons contents
      rw [result, List.head?_cons]

theorem dispatch_lookup_of_ne (s : SchedState) {cpu other : Nat}
    (different : other ≠ cpu) :
    (dispatch s cpu).2.runQueues.lookup other = s.runQueues.lookup other := by
  cases contents : (s.queue cpu).tasks with
  | nil => rw [dispatch_of_nil contents]
  | cons chosen remaining =>
      obtain ⟨floor, result⟩ := dispatch_of_cons contents
      rw [result]
      exact Finmap.lookup_insert_of_ne _ different

theorem dispatch_tasks_self (s : SchedState) (cpu : Nat) :
    ((dispatch s cpu).2.queue cpu).tasks = (s.queue cpu).tasks.tail := by
  cases contents : (s.queue cpu).tasks with
  | nil =>
      rw [dispatch_of_nil contents]
      exact contents
  | cons chosen remaining =>
      obtain ⟨floor, result⟩ := dispatch_of_cons contents
      rw [result, SchedState.queue_insert_self, List.tail_cons]

theorem dispatch_view (s : SchedState) (cpu : Nat) :
    view (dispatch s cpu).2 = (view s).take cpu :=
  SchedState.view_of_frame (dispatch_clock s cpu) (dispatch_tasks_self s cpu)
    (fun different => SchedState.queue_congr (dispatch_lookup_of_ne s different))

theorem dispatch_valid {s : SchedState} {cpu : Nat} (valid : ValidState s)
    (known : cpu ∈ s.runQueues) : ValidState (dispatch s cpu).2 := by
  cases contents : (s.queue cpu).tasks with
  | nil =>
      rw [dispatch_of_nil contents]
      exact SchedState.Valid.of_queues valid _ _
  | cons chosen remaining =>
      obtain ⟨floor, result⟩ := dispatch_of_cons contents
      rw [result]
      refine SchedState.Valid.insert valid known ?_ _ _
      intro queued member
      refine valid.tasksValid cpu (Finmap.mem_keys.mpr known) queued ?_
      rw [contents]
      exact List.mem_cons_of_mem chosen member

/-! ## Calls as steps of a family of queues -/

/--
What a call can do.  Either it inserts a stamped record into one queue, or it
takes the head of one queue.
-/
theorem Step.cases {s s' : SchedState} {event : Event} (step : Step s event s') :
    (∃ t cpu, event = .enqueue t cpu ∧ ValidTask t ∧ t.state = .runnable ∧
      cpu ∈ s.runQueues ∧ s' = enqueue s t cpu) ∨
    ∃ cpu, event = .dispatch cpu (s.queue cpu).tasks.head? ∧
      cpu ∈ s.runQueues ∧ s' = (dispatch s cpu).2 := by
  obtain ⟨meets, executes⟩ := step
  cases executes with
  | enqueue t cpu => exact Or.inl ⟨t, cpu, rfl, meets.1, meets.2.1, meets.2.2.2, rfl⟩
  | dispatch cpu => exact Or.inr ⟨cpu, by rw [dispatch_next], meets.2, rfl⟩

/-- The recorded `next` of a dispatch is the head of the queue before it. -/
theorem Step.next_eq {s s' : SchedState} {cpu : Nat} {next : Option Task}
    (taken : Step s (.dispatch cpu next) s') : next = (s.queue cpu).tasks.head? := by
  rcases taken.cases with ⟨_, _, impossible, _⟩ | ⟨target, dispatched, _⟩
  · cases impossible
  · cases dispatched
    rfl

theorem Step.clock_eq {s s' : SchedState} {event : Event} (taken : Step s event s') :
    s'.clock = s.clock + 1 := by
  rcases taken.cases with ⟨t, cpu, _, _, _, _, rfl⟩ | ⟨cpu, _, _, rfl⟩
  · exact enqueue_clock s t cpu
  · exact dispatch_clock s cpu

/-- A call leaves the run queue of every other CPU as it was. -/
theorem Step.lookup_of_ne {s s' : SchedState} {event : Event} (taken : Step s event s')
    {other : Nat} (different : other ≠ event.cpu) :
    s'.runQueues.lookup other = s.runQueues.lookup other := by
  rcases taken.cases with ⟨t, cpu, rfl, _, _, _, rfl⟩ | ⟨cpu, rfl, _, rfl⟩
  · exact enqueue_lookup_of_ne s t different
  · exact dispatch_lookup_of_ne s different

theorem Step.valid {s s' : SchedState} {event : Event} (taken : Step s event s')
    (valid : ValidState s) : ValidState s' := by
  rcases taken.cases with ⟨t, cpu, _, validTask, _, known, rfl⟩ | ⟨cpu, _, known, rfl⟩
  · exact enqueue_valid valid known validTask
  · exact dispatch_valid valid known

/-- A call as an observer of the queues sees it; insertions show the stored record. -/
def observe (call : Transition SchedState Event) : QueueEvent Nat Task :=
  match call.event with
  | .enqueue t cpu => .put cpu (t.stamped call.source.clock)
  | .dispatch cpu next => .take cpu next

/-- Every call is a step of a family of stable priority queues. -/
theorem Step.queueStep {s s' : SchedState} {event : Event} (step : Step s event s') :
    Queues.Step (Placement.ordered Task.vruntime) Task.enqueueTime (view s)
      (observe ⟨s, event, s'⟩) (view s') := by
  rcases step.cases with ⟨t, cpu, rfl, _, _, _, rfl⟩ | ⟨cpu, rfl, _, rfl⟩
  · rw [enqueue_view]
    exact .put _ cpu _ rfl
  · rw [dispatch_view]
    exact .take _ cpu

/-- A run of calls is a run of a family of stable priority queues. -/
theorem queueRun {start s : SchedState} {history : List (Transition SchedState Event)}
    (run : Run Step start history s) :
    Run (Queues.Step (Placement.ordered Task.vruntime) Task.enqueueTime) (view start)
      (history.map fun call => ⟨view call.source, observe call, view call.target⟩)
      (view s) :=
  run.simulate view observe fun step => step.queueStep

/-- The records inserted on a CPU, as stored, oldest first. -/
def inserted (cpu : Nat) (history : List (Transition SchedState Event)) : List Task :=
  QueueEvent.arrived cpu (history.map observe)

/-- The tasks that `Dispatch` returned on a CPU, oldest first. -/
def returned (cpu : Nat) (history : List (Transition SchedState Event)) : List Task :=
  QueueEvent.served cpu (history.map observe)

end SchedExt.Fair.ConcreteScheduler
