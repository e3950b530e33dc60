import SchedExt.RoundRobin.Invariant

/-!
# The concrete round-robin scheduler refines the abstract one

The refinement is about the method bodies.  What the bodies do not supply by
themselves, that tasks in the queue are runnable and stamped before the
clock, comes from the invariant.  The same insertion step shows that the
abstract `Enqueue` never excludes an enqueue.
-/

namespace SchedExt.RoundRobin

open SchedExt.Domain SchedExt.Foundations
open ConcreteScheduler

namespace RefinementProof

/-- The refinement mapping: the concrete state is the abstract state. -/
def refMap (cs : SchedState) : SchedState := cs

/-- `EnqueueRefines`, for the body of `Enqueue` and with only the facts it needs. -/
theorem enqueueRefines {s : SchedState} {t : Task} {cpu : Nat} (valid : ValidState s)
    (validTask : ValidTask t) (runnable : t.state = .runnable)
    (active : cpu ∈ s.activeCpus) (appendable : Appendable (s.queue cpu).tasks s.clock) :
    AbstractScheduler.Enqueue (refMap s) (refMap (enqueue s t cpu)) t cpu := by
  have known : cpu ∈ s.runQueues := valid.mem_of_active active
  exact {
    validBefore := valid
    validTask := validTask
    runnable := runnable
    active := active
    known := known
    allTasks := enqueue_allTasks s t cpu
    clock := enqueue_clock s t cpu
    activeCpus := enqueue_activeCpus s t cpu
    knownAfter := (mem_enqueue_runQueues known).mpr known
    appended := enqueue_tasks_self s t cpu
    others := fun _ member different =>
      ⟨(mem_enqueue_runQueues known).mpr member, enqueue_queue_of_ne s t different⟩
    noNewQueues := fun _ member => (mem_enqueue_runQueues known).mp member
    appendable := appendable
    validAfter := enqueue_valid valid known validTask }

/-- `DispatchRefines`, for the body of `Dispatch` and with only the facts it needs. -/
theorem dispatchRefines {s : SchedState} {cpu : Nat} (valid : ValidState s)
    (active : cpu ∈ s.activeCpus) (allRunnable : AllRunnable (s.queue cpu).tasks) :
    AbstractScheduler.Dispatch (refMap s) (refMap (dispatch s cpu).2) cpu
      (dispatch s cpu).1 := by
  have known : cpu ∈ s.runQueues := valid.mem_of_active active
  rw [dispatch_next]
  exact {
    validBefore := valid
    active := active
    known := known
    mustChoose := fun filled => List.isSome_head?.mpr (List.ne_nil_of_length_pos filled)
    mayNotChoose := fun empty =>
      Option.isNone_iff_eq_none.mpr
        (List.head?_eq_none_iff.mpr (List.eq_nil_of_length_eq_zero empty))
    fromQueue := fun t found =>
      have member := List.mem_of_head? found
      ⟨member, (allRunnable_iff_forall_mem _).mp allRunnable t member⟩
    clock := dispatch_clock s cpu
    knownAfter := (mem_dispatch_runQueues known).mpr known
    headRemoved := fun chosen =>
      ⟨List.length_pos_of_ne_nil (List.isSome_head?.mp chosen), dispatch_tasks_self s cpu⟩
    kept := fun nothing => by
      have empty : (s.queue cpu).tasks = [] := by
        simpa using nothing
      rw [refMap, dispatch_tasks_self, refMap, empty]
      rfl
    others := fun _ member different =>
      ⟨(mem_dispatch_runQueues known).mpr member, dispatch_queue_of_ne s different⟩
    noNewQueues := fun _ member => (mem_dispatch_runQueues known).mp member
    validAfter := dispatch_valid valid known }

/-- The abstract action that a call is meant to implement. -/
def AbstractStep (s : SchedState) (event : Event) (s' : SchedState) : Prop :=
  match event with
  | .enqueue t cpu => AbstractScheduler.Enqueue s s' t cpu
  | .dispatch cpu next => AbstractScheduler.Dispatch s s' cpu next
  | .reEnqueue t cpu => AbstractScheduler.Enqueue s s' t cpu

/-- Under the invariant every call is its abstract action. -/
theorem step_refines {s s' : SchedState} {event : Event} (invariant : SchedInvariant s)
    (taken : Step s event s') : AbstractStep (refMap s) event (refMap s') := by
  rcases taken.cases with
    ⟨t, cpu, inserts, validTask, runnable, active, _, rfl⟩ | ⟨cpu, rfl, active, _, rfl⟩
  · have refined := enqueueRefines invariant.valid validTask runnable active
      (invariant.appendable cpu)
    rcases inserts with rfl | rfl
    · exact refined
    · exact refined
  · exact dispatchRefines invariant.valid active (invariant.allRunnable cpu)

/--
Refinement of whole runs: every call of every run from an initial state is,
under the refinement mapping, the matching abstract action.
-/
theorem runs_refine {start s : SchedState} {history : List (Transition SchedState Event)}
    (init : AbstractScheduler.Init start) (run : Run Step start history s) :
    ∀ call ∈ history,
      AbstractStep (refMap call.source) call.event (refMap call.target) :=
  run.forall_mem (SchedInvariant.of_init init) SchedInvariant.step step_refines

theorem firstTurn_refines :
    AbstractStep (refMap afterArrivals) (.dispatch 0 (some ((newTask 1).stamped 0)))
        (refMap (dispatch afterArrivals 0).2) ∧
      AbstractStep (refMap (dispatch afterArrivals 0).2) (.reEnqueue ((newTask 1).stamped 0) 0)
        (refMap afterTurn) := by
  have steps : ∀ call ∈ (trace perform twoCpus firstTurn).drop 3,
      AbstractStep (refMap call.source) call.event (refMap call.target) :=
    fun call member => runs_refine twoCpus_init firstTurn_run call (List.mem_of_mem_drop member)
  obtain ⟨dispatched, later⟩ := List.forall_mem_cons.mp steps
  exact ⟨dispatched, (List.forall_mem_cons.mp later).1⟩

end RefinementProof

namespace AbstractScheduler

/-! ## Safety of all nondeterministic runs -/

/-- What holds of every state that nondeterministic steps can reach. -/
structure AbstractInvariant (s : SchedState) : Prop where
  valid : ValidState s
  safe : SafetyInvariant s
  stamped : (view s).Stamped Task.enqueueTime

namespace AbstractInvariant

theorem of_init {s : SchedState} (init : Init s) : AbstractInvariant s where
  valid := init.valid
  safe cpu _ := by
    rw [init.waiting_nil cpu]
    intro i j _ bound
    cases bound
  stamped := .of_empty init.waiting_nil

theorem step {s s' : SchedState} (invariant : AbstractInvariant s) (next : Next s s') :
    AbstractInvariant s' where
  valid := next.validAfter
  safe := safetyPreserved invariant.safe next
  stamped := by
    obtain ⟨event, queueStep⟩ := next.queueStep
    exact invariant.stamped.step queueStep

theorem of_path {start s : SchedState} (init : Init start)
    (path : Relation.ReflTransGen Next start s) : AbstractInvariant s := by
  induction path with
  | refl => exact of_init init
  | tail _ last ih => exact ih.step last

end AbstractInvariant

/-- Safety of one state, and that its FIFO guard excludes no enqueue. -/
structure SafeAndOpen (s : SchedState) : Prop where
  valid : ValidState s
  safe : SafetyInvariant s
  past : ∀ cpu ∈ s.runQueues, ∀ t ∈ (s.queue cpu).tasks, t.enqueueTime < s.clock
  enqueues : ∀ t, ValidTask t → t.state = .runnable → ∀ cpu ∈ s.activeCpus,
    ∃ s', Enqueue s s' t cpu

/-- Every state reached by any nondeterministic steps is safe and open. -/
theorem next_runs_safe {start s : SchedState} (init : Init start)
    (path : Relation.ReflTransGen Next start s) : SafeAndOpen s := by
  have invariant := AbstractInvariant.of_path init path
  refine ⟨invariant.valid, invariant.safe,
    fun cpu _ t member => invariant.stamped.past cpu t member, ?_⟩
  intro t validTask runnable cpu active
  refine ⟨enqueue s t cpu,
    RefinementProof.enqueueRefines invariant.valid validTask runnable active ?_⟩
  intro last found
  exact (invariant.stamped.past cpu last (List.mem_of_getLast? found)).le

theorem next_runs_safe_enqueued :
    SafeAndOpen (enqueue twoCpus (newTask 1) 0) :=
  next_runs_safe twoCpus_init (.single (Or.inl ⟨newTask 1, 0,
    RefinementProof.enqueueRefines twoCpus_init.valid (by decide) rfl (by decide) (by decide)⟩))

end AbstractScheduler

end SchedExt.RoundRobin
