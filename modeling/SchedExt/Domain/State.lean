import Mathlib.Data.Finmap
import SchedExt.Foundations.StampedQueues

/-!
# Scheduler states

The fair and the round-robin specification declare the same task states,
enqueue flags, CPU bound and global state, each over its own tasks and run
queues.  They are declared here once, with tasks and run queues as
parameters, together with the framing facts of a run-queue update.
-/

namespace SchedExt.Domain

open SchedExt.Foundations

/-- `NUM_CPUS` -/
def numCpus : Nat := 128

inductive TaskState where
  | runnable
  | running
  | blocked
  | dead
  deriving DecidableEq, Repr

structure EnqueueFlags where
  wakeup : Bool
  last : Bool
  deriving DecidableEq, Repr

/-- The global scheduler state; both finite maps and finite sets stay finite. -/
structure SchedState (Task RunQueue : Type) where
  runQueues : Finmap fun _ : Nat => RunQueue
  allTasks : Finset Task
  clock : Nat
  activeCpus : Finset Nat

namespace SchedState

variable {Task RunQueue : Type} [Inhabited RunQueue]

/-- `s.run_queues[cpu]`, which the source reads only when `cpu in s.run_queues`. -/
def queue (s : SchedState Task RunQueue) (cpu : Nat) : RunQueue :=
  (s.runQueues.lookup cpu).getD default

/-- The well-formedness predicate `ValidState`, for a task predicate and queue contents. -/
structure Valid (ValidTask : Task → Prop) (tasks : RunQueue → List Task)
    (s : SchedState Task RunQueue) : Prop where
  bounded : ∀ cpu ∈ s.runQueues.keys, cpu < numCpus
  tasksValid : ∀ cpu ∈ s.runQueues.keys, ∀ t ∈ tasks (s.queue cpu), ValidTask t
  backed : s.activeCpus ⊆ s.runQueues.keys

instance (ValidTask : Task → Prop) [DecidablePred ValidTask] (tasks : RunQueue → List Task)
    (s : SchedState Task RunQueue) : Decidable (s.Valid ValidTask tasks) :=
  decidable_of_iff
    ((∀ cpu ∈ s.runQueues.keys, cpu < numCpus) ∧
      (∀ cpu ∈ s.runQueues.keys, ∀ t ∈ tasks (s.queue cpu), ValidTask t) ∧
      s.activeCpus ⊆ s.runQueues.keys)
    ⟨fun parts => ⟨parts.1, parts.2.1, parts.2.2⟩,
      fun valid => ⟨valid.bounded, valid.tasksValid, valid.backed⟩⟩

theorem Valid.mem_of_active {ValidTask : Task → Prop} {tasks : RunQueue → List Task}
    {s : SchedState Task RunQueue} (valid : s.Valid ValidTask tasks)
    {cpu : Nat} (active : cpu ∈ s.activeCpus) : cpu ∈ s.runQueues :=
  Finmap.mem_keys.mp (valid.backed active)

theorem Valid.mem_lt {ValidTask : Task → Prop} {tasks : RunQueue → List Task}
    {s : SchedState Task RunQueue} (valid : s.Valid ValidTask tasks) :
    ∀ cpu ∈ s.runQueues, cpu < numCpus :=
  fun cpu known => valid.bounded cpu (Finmap.mem_keys.mpr known)

theorem queue_of_notMem {s : SchedState Task RunQueue} {cpu : Nat}
    (absent : cpu ∉ s.runQueues) : s.queue cpu = default := by
  rw [queue, Finmap.lookup_eq_none.mpr absent]
  rfl

theorem queue_congr {s s' : SchedState Task RunQueue} {cpu : Nat}
    (same : s'.runQueues.lookup cpu = s.runQueues.lookup cpu) :
    s'.queue cpu = s.queue cpu :=
  congrArg (fun found => found.getD default) same

@[simp]
theorem queue_insert_self (runQueues : Finmap fun _ : Nat => RunQueue)
    (allTasks : Finset Task) (clock : Nat) (activeCpus : Finset Nat)
    (cpu : Nat) (rq : RunQueue) :
    queue ⟨runQueues.insert cpu rq, allTasks, clock, activeCpus⟩ cpu = rq := by
  simp [queue]

/-- A run-queue update leaves the queues of all other CPUs as they were. -/
theorem queue_insert_of_ne (s : SchedState Task RunQueue) (allTasks : Finset Task)
    (clock : Nat) (activeCpus : Finset Nat) {cpu other : Nat} (rq : RunQueue)
    (different : other ≠ cpu) :
    queue ⟨s.runQueues.insert cpu rq, allTasks, clock, activeCpus⟩ other = s.queue other := by
  rw [queue, queue, Finmap.lookup_insert_of_ne _ different]

omit [Inhabited RunQueue] in
/-- Updating the queue of a known CPU adds no CPU. -/
theorem mem_insert_iff {runQueues : Finmap fun _ : Nat => RunQueue} {cpu other : Nat}
    {rq : RunQueue} (known : cpu ∈ runQueues) :
    other ∈ runQueues.insert cpu rq ↔ other ∈ runQueues := by
  rw [Finmap.mem_insert]
  constructor
  · rintro (rfl | old)
    · exact known
    · exact old
  · exact Or.inr

/--
The framing clause of the abstract actions: if every known queue but one is
kept and none is added, the contents of all other CPUs are as before.
-/
theorem queue_eq_of_frame {s s' : SchedState Task RunQueue} {cpu other : Nat}
    (others : ∀ c ∈ s.runQueues, c ≠ cpu → c ∈ s'.runQueues ∧ s'.queue c = s.queue c)
    (noNew : ∀ c ∈ s'.runQueues, c ∈ s.runQueues) (different : other ≠ cpu) :
    s'.queue other = s.queue other := by
  by_cases known : other ∈ s.runQueues
  · exact (others other known different).2
  · rw [queue_of_notMem known, queue_of_notMem fun member => known (noNew other member)]

/-- A valid state stays valid when one known queue receives valid contents. -/
theorem Valid.insert {ValidTask : Task → Prop} {tasks : RunQueue → List Task}
    {s : SchedState Task RunQueue} (valid : s.Valid ValidTask tasks)
    {cpu : Nat} (known : cpu ∈ s.runQueues) {rq : RunQueue}
    (contents : ∀ t ∈ tasks rq, ValidTask t) (allTasks : Finset Task) (clock : Nat) :
    Valid ValidTask tasks ⟨s.runQueues.insert cpu rq, allTasks, clock, s.activeCpus⟩ where
  bounded other member :=
    valid.bounded other
      (Finmap.mem_keys.mpr ((mem_insert_iff known).mp (Finmap.mem_keys.mp member)))
  tasksValid other member := by
    by_cases same : other = cpu
    · subst same
      rw [queue_insert_self]
      exact contents
    · rw [queue_insert_of_ne _ _ _ _ _ same]
      exact valid.tasksValid other
        (Finmap.mem_keys.mpr ((mem_insert_iff known).mp (Finmap.mem_keys.mp member)))
  backed other active :=
    Finmap.mem_keys.mpr ((mem_insert_iff known).mpr (valid.mem_of_active active))

/-- A valid state stays valid when only its clock or its task set changes. -/
theorem Valid.of_queues {ValidTask : Task → Prop} {tasks : RunQueue → List Task}
    {s : SchedState Task RunQueue} (valid : s.Valid ValidTask tasks)
    (allTasks : Finset Task) (clock : Nat) :
    Valid ValidTask tasks ⟨s.runQueues, allTasks, clock, s.activeCpus⟩ :=
  ⟨valid.bounded, valid.tasksValid, valid.backed⟩

/-- The scheduler state as a family of time-stamped queues, one per CPU. -/
def view (tasks : RunQueue → List Task) (s : SchedState Task RunQueue) :
    Queues Nat Task where
  clock := s.clock
  waiting cpu := tasks (s.queue cpu)

/-- The queue of one CPU was changed, if it is known, and no other. -/
structure QueueChanged (s s' : SchedState Task RunQueue) (cpu : Nat)
    (change : RunQueue → RunQueue) : Prop where
  changed : s'.runQueues.lookup cpu = (s.runQueues.lookup cpu).map change
  kept : ∀ other, other ≠ cpu → s'.runQueues.lookup other = s.runQueues.lookup other

theorem QueueChanged.of_insert {s s' : SchedState Task RunQueue} {cpu : Nat}
    {change : RunQueue → RunQueue} (known : cpu ∈ s.runQueues)
    (inserted : s'.runQueues = s.runQueues.insert cpu (change (s.queue cpu))) :
    QueueChanged s s' cpu change where
  changed := by
    obtain ⟨rq, found⟩ := Finmap.mem_iff.mp known
    rw [inserted, Finmap.lookup_insert, queue, found]
    rfl
  kept other different := by
    rw [inserted, Finmap.lookup_insert_of_ne _ different]

theorem QueueChanged.of_fixed {s s' : SchedState Task RunQueue} {cpu : Nat}
    {change : RunQueue → RunQueue} (known : cpu ∈ s.runQueues)
    (same : s'.runQueues = s.runQueues) (fixed : change (s.queue cpu) = s.queue cpu) :
    QueueChanged s s' cpu change where
  changed := by
    obtain ⟨rq, found⟩ := Finmap.mem_iff.mp known
    rw [queue, found] at fixed
    rw [same, found, Option.map_some]
    exact congrArg some fixed.symm
  kept other _ := by
    rw [same]

theorem QueueChanged.queue_self {s s' : SchedState Task RunQueue} {cpu : Nat}
    {change : RunQueue → RunQueue} (step : QueueChanged s s' cpu change)
    (known : cpu ∈ s.runQueues) : s'.queue cpu = change (s.queue cpu) := by
  obtain ⟨rq, found⟩ := Finmap.mem_iff.mp known
  rw [queue, step.changed, queue, found]
  rfl

theorem QueueChanged.queue_of_ne {s s' : SchedState Task RunQueue} {cpu other : Nat}
    {change : RunQueue → RunQueue} (step : QueueChanged s s' cpu change)
    (different : other ≠ cpu) : s'.queue other = s.queue other :=
  queue_congr (step.kept other different)

/-- A step that changes one queue and the clock, seen as a family of queues. -/
theorem view_of_frame {tasks : RunQueue → List Task} {s s' : SchedState Task RunQueue}
    {cpu : Nat} {contents : List Task} (clock : s'.clock = s.clock + 1)
    (changed : tasks (s'.queue cpu) = contents)
    (framed : ∀ {other}, other ≠ cpu → s'.queue other = s.queue other) :
    s'.view tasks =
      ⟨s.clock + 1, Function.update (s.view tasks).waiting cpu contents⟩ := by
  have waiting : (s'.view tasks).waiting =
      Function.update (s.view tasks).waiting cpu contents := by
    funext other
    by_cases same : other = cpu
    · subst same
      rw [Function.update_self]
      exact changed
    · rw [Function.update_of_ne same]
      exact congrArg tasks (framed same)
  exact congr (congrArg Queues.mk clock) waiting

end SchedState

/-- `AffinityRespected`, for the set of CPUs a task is allowed on. -/
def AffinityRespected (cpuAffinity : Finset Nat) (assignedCpu : Nat) : Prop :=
  assignedCpu < numCpus ∧ (cpuAffinity = ∅ ∨ assignedCpu ∈ cpuAffinity)

instance (cpuAffinity : Finset Nat) (assignedCpu : Nat) :
    Decidable (AffinityRespected cpuAffinity assignedCpu) :=
  inferInstanceAs (Decidable (_ ∧ _))

/-- `AllAffinitiesRespected`: every queued task is allowed where it is queued. -/
def SchedState.AllAffinitiesRespected {Task RunQueue : Type} [Inhabited RunQueue]
    (cpuAffinity : Task → Finset Nat) (tasks : RunQueue → List Task)
    (s : SchedState Task RunQueue) : Prop :=
  ∀ cpu ∈ s.runQueues, ∀ t ∈ tasks (s.queue cpu), AffinityRespected (cpuAffinity t) cpu

end SchedExt.Domain
