import SchedExt.RoundRobin.ConcreteScheduler

/-!
# The round-robin invariant

The preconditions of the methods are not inductive by themselves.  What is
inductive is that all queued tasks are valid and runnable and that all
enqueue times, over all CPUs at once, are distinct and lie before the clock.
-/

namespace SchedExt.RoundRobin.ConcreteScheduler

open SchedExt.Domain SchedExt.Foundations

/-- The inductive invariant of all runs from an initial state. -/
structure SchedInvariant (s : SchedState) : Prop where
  valid : ValidState s
  runnable : (view s).AllWaiting fun t => t.state = .runnable
  stamped : (view s).Stamped Task.enqueueTime
  increasing : (view s).Increasing Task.enqueueTime

namespace SchedInvariant

theorem of_init {s : SchedState} (init : AbstractScheduler.Init s) : SchedInvariant s where
  valid := init.valid
  runnable cpu t member := by
    rw [view_waiting, init.waiting_nil cpu] at member
    cases member
  stamped := .of_empty init.waiting_nil
  increasing cpu := by
    rw [view_waiting, init.waiting_nil cpu]
    exact List.Pairwise.nil

theorem step {s s' : SchedState} {event : Event} (invariant : SchedInvariant s)
    (taken : Step s event s') : SchedInvariant s' where
  valid := taken.valid invariant.valid
  runnable := by
    refine invariant.runnable.step taken.queueStep ?_
    intro cpu stored arrives
    rcases taken.cases with ⟨t, target, inserts, _, runnable, _, _, rfl⟩ | ⟨target, rfl, _, _, rfl⟩
    · rcases inserts with rfl | rfl
      · cases arrives
        exact runnable
      · cases arrives
        exact runnable
    · cases arrives
  stamped := invariant.stamped.step taken.queueStep
  increasing := invariant.increasing.step invariant.stamped taken.queueStep

theorem of_run {start s : SchedState} {history : List (Transition SchedState Event)}
    (init : AbstractScheduler.Init start) (run : Run Step start history s) :
    SchedInvariant s :=
  run.invariant (of_init init) step

variable {s : SchedState}

theorem enqueueTime_lt (invariant : SchedInvariant s) {cpu : Nat} {t : Task}
    (member : t ∈ (s.queue cpu).tasks) : t.enqueueTime < s.clock :=
  invariant.stamped.past cpu t member

theorem fifoOrdered (invariant : SchedInvariant s) (cpu : Nat) :
    FIFOOrdered (s.queue cpu).tasks :=
  (fifoOrdered_iff_pairwise _).mpr ((invariant.increasing cpu).imp fun less => less.le)

theorem allRunnable (invariant : SchedInvariant s) (cpu : Nat) :
    AllRunnable (s.queue cpu).tasks :=
  (allRunnable_iff_forall_mem _).mpr (invariant.runnable cpu)

theorem appendable (invariant : SchedInvariant s) (cpu : Nat) :
    Appendable (s.queue cpu).tasks s.clock := by
  intro last found
  exact (invariant.enqueueTime_lt (List.mem_of_getLast? found)).le

/-- Under the invariant, what callers supply is all that the methods require. -/
theorem requires (invariant : SchedInvariant s) {event : Event}
    (meets : CallerMeets s event) : Requires s event := by
  have insertion {t : Task} {cpu : Nat} (supplied : ValidTask t ∧ t.state = .runnable ∧
      t.pid > 0 ∧ cpu ∈ s.activeCpus ∧ cpu ∈ s.runQueues) : EnqueueRequires s t cpu := by
    obtain ⟨validTask, runnable, pidPositive, active, known⟩ := supplied
    exact ⟨invariant.valid, validTask, runnable, pidPositive, active, known,
      invariant.fifoOrdered cpu, invariant.appendable cpu⟩
  cases event with
  | enqueue t cpu => exact insertion meets
  | dispatch cpu next =>
      exact ⟨invariant.valid, meets.1, meets.2, invariant.fifoOrdered cpu,
        invariant.allRunnable cpu⟩
  | reEnqueue t cpu => exact insertion meets

end SchedInvariant

/-- Two queued tasks with one enqueue time are at one position of one queue. -/
def DistinctEnqueueTimes (s : SchedState) : Prop :=
  ∀ (cpu other i j : Nat) (t u : Task), (s.queue cpu).tasks[i]? = some t →
    (s.queue other).tasks[j]? = some u → t.enqueueTime = u.enqueueTime →
      cpu = other ∧ i = j

theorem SchedInvariant.distinctEnqueueTimes {s : SchedState}
    (invariant : SchedInvariant s) : DistinctEnqueueTimes s := by
  intro cpu other i j t u foundT foundU equal
  have sameCpu : cpu = other := by
    by_contra different
    exact invariant.stamped.apart different t (List.mem_of_getElem? foundT)
      u (List.mem_of_getElem? foundU) equal
  subst sameCpu
  refine ⟨rfl, ?_⟩
  obtain ⟨boundI, rfl⟩ := List.getElem?_eq_some_iff.mp foundT
  obtain ⟨boundJ, rfl⟩ := List.getElem?_eq_some_iff.mp foundU
  have increasing := List.pairwise_iff_getElem.mp (invariant.increasing cpu)
  rcases Nat.lt_trichotomy i j with less | same | greater
  · have strict := increasing i j boundI boundJ less
    exact absurd equal strict.ne
  · exact same
  · have strict := increasing j i boundJ boundI greater
    exact absurd equal strict.ne'

/-- Runs whose callers meet their obligations meet every precondition. -/
theorem checkedRun {start s : SchedState} {history : List (Transition SchedState Event)}
    (init : AbstractScheduler.Init start) (run : Run Step start history s) :
    Run CheckedStep start history s :=
  run.upgrade (SchedInvariant.of_init init) SchedInvariant.step
    fun invariant taken => ⟨invariant.requires taken.1, taken.2⟩

/-- What the preconditions of the methods come to in one state. -/
structure PreconditionsHold (s : SchedState) : Prop where
  validState : ValidState s
  ordered : ∀ cpu ∈ s.runQueues, FIFOOrdered (s.queue cpu).tasks
  allRunnable : ∀ cpu ∈ s.runQueues, AllRunnable (s.queue cpu).tasks
  past : ∀ cpu ∈ s.runQueues, ∀ t ∈ (s.queue cpu).tasks, t.enqueueTime < s.clock
  distinct : DistinctEnqueueTimes s
  unblocked : ∀ event, CallerMeets s event → Requires s event

/--
The method preconditions are invariants.  Callers that meet their own
obligations reach only states in which no call is blocked by a precondition.
-/
theorem preconditions_invariant {start s : SchedState}
    {history : List (Transition SchedState Event)}
    (init : AbstractScheduler.Init start) (run : Run Step start history s) :
    PreconditionsHold s := by
  have invariant := SchedInvariant.of_run init run
  exact {
    validState := invariant.valid
    ordered := fun cpu _ => invariant.fifoOrdered cpu
    allRunnable := fun cpu _ => invariant.allRunnable cpu
    past := fun _ _ _ member => invariant.enqueueTime_lt member
    distinct := invariant.distinctEnqueueTimes
    unblocked := fun _ meets => invariant.requires meets }

/-! ## A run on two CPUs -/

/-- Two idle CPUs before any call. -/
def twoCpus : SchedState where
  runQueues := (Finmap.singleton 0 ⟨0, []⟩).insert 1 ⟨1, []⟩
  allTasks := ∅
  clock := 0
  activeCpus := {0, 1}

theorem twoCpus_init : AbstractScheduler.Init twoCpus where
  noTasks := rfl
  clockZero := rfl
  someCpu := by decide
  valid := by decide
  emptyQueues cpu known := by
    have member := Finmap.mem_keys.mpr known
    revert cpu
    decide

/-- A runnable task without affinity, as it enters the scheduler. -/
def newTask (pid : Nat) : Task where
  pid := pid
  state := .runnable
  cpuAffinity := ∅
  enqueueTime := 0
  remainingSlice := 0

/-- Two tasks enter CPU 0 and one CPU 1. -/
def arrivals : List Event :=
  [.enqueue (newTask 1) 0, .enqueue (newTask 2) 0, .enqueue (newTask 3) 1]

/-- The state after the arrivals. -/
def afterArrivals : SchedState :=
  arrivals.foldl perform twoCpus

theorem arrivals_run : Run Step twoCpus (trace perform twoCpus arrivals) afterArrivals :=
  Run.of_trace step_perform (by decide)

/-- The first task has its turn, and is enqueued again. -/
def firstTurn : List Event :=
  arrivals ++ [.dispatch 0 (some ((newTask 1).stamped 0)), .reEnqueue ((newTask 1).stamped 0) 0]

/-- The state after the turn. -/
def afterTurn : SchedState :=
  firstTurn.foldl perform twoCpus

theorem firstTurn_run : Run Step twoCpus (trace perform twoCpus firstTurn) afterTurn :=
  Run.of_trace step_perform (by decide)

theorem preconditions_hold_afterTurn : PreconditionsHold afterTurn :=
  preconditions_invariant twoCpus_init firstTurn_run

end SchedExt.RoundRobin.ConcreteScheduler
