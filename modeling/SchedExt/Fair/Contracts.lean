import SchedExt.Fair.PriorityService

/-!
# The declared contracts of the fair methods

Both methods keep the state valid, whatever the queues hold.  What they do not
establish in every valid state is the order that `SortedInsert` requires, the
membership of the task as it was passed, and the state of the task returned.
-/

namespace SchedExt.Fair.ConcreteScheduler

open SchedExt.Domain SchedExt.Foundations

/-- What `Enqueue` owes: the precondition of its call and its own `ensures` clauses. -/
structure EnqueueContract (s : SchedState) (t : Task) (targetCpu : Nat) : Prop where
  insertable : SortedInsertRequires (s.queue targetCpu).tasks
  validState : ValidState (enqueue s t targetCpu)
  recorded : t ∈ (enqueue s t targetCpu).allTasks

/-- The `ensures` clauses of `Dispatch`. -/
structure DispatchContract (s : SchedState) (cpu : Nat) : Prop where
  validState : ValidState (dispatch s cpu).2
  validTask : ∀ next, (dispatch s cpu).1 = some next → ValidTask next
  runnable : ∀ next, (dispatch s cpu).1 = some next → next.state = .runnable

variable {s : SchedState} {t : Task} {cpu : Nat}

/-- The task is recorded as it was passed if the stamp changes nothing or it was there. -/
theorem mem_enqueue_allTasks :
    t ∈ (enqueue s t cpu).allTasks ↔ t.enqueueTime = s.clock ∨ t ∈ s.allTasks := by
  rw [enqueue_allTasks, Finset.mem_union, Finset.mem_singleton, or_comm]
  apply or_congr_left
  constructor
  · intro same
    rw [same]
    rfl
  · intro current
    unfold Task.stamped
    rw [← current]

/-- `Enqueue` meets its contract exactly on sorted queues, for tasks that it records as passed. -/
theorem enqueueContract_iff (required : EnqueueRequires s t cpu) :
    EnqueueContract s t cpu ↔
      SortedInsertRequires (s.queue cpu).tasks ∧ (t.enqueueTime = s.clock ∨ t ∈ s.allTasks) := by
  constructor
  · intro met
    exact ⟨met.insertable, mem_enqueue_allTasks.mp met.recorded⟩
  · rintro ⟨sorted, recorded⟩
    exact {
      insertable := sorted
      validState := enqueue_valid required.validState required.known required.validTask
      recorded := mem_enqueue_allTasks.mpr recorded }

/-- `Dispatch` meets its contract exactly when no task that is not runnable is at the head. -/
theorem dispatchContract_iff (required : DispatchRequires s cpu) :
    DispatchContract s cpu ↔
      ∀ head, (s.queue cpu).tasks.head? = some head → head.state = .runnable := by
  constructor
  · intro met head found
    apply met.runnable
    rw [dispatch_next]
    exact found
  · intro runnable
    constructor
    case validState => exact dispatch_valid required.validState required.known
    case validTask =>
        intro next found
        rw [dispatch_next] at found
        exact required.validState.tasksValid cpu (Finmap.mem_keys.mpr required.known) next
          (List.mem_of_head? found)
    case runnable =>
        intro next found
        rw [dispatch_next] at found
        exact runnable next found

/-- The methods meet their contracts exactly where the queue and the task are as they assume. -/
theorem contracts_iff (s : SchedState) (t : Task) (cpu : Nat) :
    (EnqueueRequires s t cpu →
      (EnqueueContract s t cpu ↔
        SortedInsertRequires (s.queue cpu).tasks ∧
          (t.enqueueTime = s.clock ∨ t ∈ s.allTasks))) ∧
    (DispatchRequires s cpu →
      (DispatchContract s cpu ↔
        ∀ head, (s.queue cpu).tasks.head? = some head → head.state = .runnable)) :=
  ⟨enqueueContract_iff, dispatchContract_iff⟩

/-! ## A second task, and a queue with a blocked one -/

/-- The state after the first task has been enqueued. -/
def afterFirst : SchedState :=
  enqueue twoCpus (newTask 1 5) 0

/-- A task that is valid but blocked waits on CPU 0. -/
def blockedHead : SchedState :=
  { twoCpus with
    runQueues := twoCpus.runQueues.insert 0 ⟨0, [{ newTask 1 5 with state := .blocked }], 0⟩ }

theorem afterFirst_enqueueRequires : EnqueueRequires afterFirst (newTask 2 5) 0 where
  validState := enqueue_valid twoCpus_init.valid (by decide) (by decide)
  validTask := by decide
  runnable := rfl
  active := by decide
  known := by decide

theorem blockedHead_dispatchRequires : DispatchRequires blockedHead 0 where
  validState := by decide
  active := by decide
  known := by decide

theorem contracts_iff_afterFirst :
    (EnqueueContract afterFirst (newTask 2 5) 0 ↔
      SortedInsertRequires (afterFirst.queue 0).tasks ∧
        ((newTask 2 5).enqueueTime = afterFirst.clock ∨ newTask 2 5 ∈ afterFirst.allTasks)) ∧
    (DispatchContract blockedHead 0 ↔
      ∀ head, (blockedHead.queue 0).tasks.head? = some head → head.state = .runnable) :=
  ⟨(contracts_iff afterFirst (newTask 2 5) 0).1 afterFirst_enqueueRequires,
    (contracts_iff blockedHead (newTask 2 5) 0).2 blockedHead_dispatchRequires⟩

/-- A task stamped anew is not the task that was passed, and a blocked head is returned. -/
theorem contracts_broken :
    (¬ ∀ s t cpu, EnqueueRequires s t cpu → EnqueueContract s t cpu) ∧
      ¬ ∀ s cpu, DispatchRequires s cpu → DispatchContract s cpu := by
  constructor
  · intro met
    exact absurd (met _ _ _ afterFirst_enqueueRequires).recorded (by decide)
  · intro met
    exact absurd ((met _ _ blockedHead_dispatchRequires).runnable _ rfl) (by decide)

end SchedExt.Fair.ConcreteScheduler
