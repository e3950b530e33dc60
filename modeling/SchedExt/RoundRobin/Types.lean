import SchedExt.Domain.State

/-!
# Round-robin tasks, run queues and FIFO order

Tasks carry no virtual runtime: a run queue is ordered by enqueue time alone,
its head being the next task to dispatch and its tail the last enqueued.
-/

namespace SchedExt.RoundRobin

open SchedExt.Domain

/-- `MAX_TASKS` -/
def maxTasks : Nat := 4096

/-- `TIME_QUANTUM`: 5 ms in nanoseconds. -/
def timeQuantum : Nat := 5000000

structure Task where
  pid : Nat
  state : TaskState
  cpuAffinity : Finset Nat
  enqueueTime : Nat
  remainingSlice : Nat
  deriving DecidableEq

structure RunQueue where
  cpu : Nat
  tasks : List Task
  deriving DecidableEq, Inhabited

abbrev SchedState := Domain.SchedState Task RunQueue

def ValidTask (t : Task) : Prop :=
  t.pid > 0 ∧ t.remainingSlice ≤ timeQuantum ∧
    (t.cpuAffinity = ∅ ∨ ∀ c ∈ t.cpuAffinity, c < numCpus)

instance : DecidablePred ValidTask := fun t => by
  unfold ValidTask
  infer_instance

def ValidState (s : SchedState) : Prop :=
  s.Valid ValidTask RunQueue.tasks

instance (s : SchedState) : Decidable (ValidState s) :=
  inferInstanceAs (Decidable (s.Valid ValidTask RunQueue.tasks))

/-- Tasks are ordered by enqueue time, earliest first. -/
def FIFOOrdered (tasks : List Task) : Prop :=
  ∀ i j (later : i < j) (bound : j < tasks.length),
    tasks[i].enqueueTime ≤ tasks[j].enqueueTime

theorem fifoOrdered_iff_pairwise (tasks : List Task) :
    FIFOOrdered tasks ↔
      tasks.Pairwise fun first second => first.enqueueTime ≤ second.enqueueTime := by
  rw [List.pairwise_iff_getElem]
  exact ⟨fun ordered i j _ bound later => ordered i j later bound,
    fun ordered i j later bound => ordered i j (later.trans bound) bound later⟩

instance (tasks : List Task) : Decidable (FIFOOrdered tasks) :=
  decidable_of_iff _ (fifoOrdered_iff_pairwise tasks).symm

def AllRunnable (tasks : List Task) : Prop :=
  ∀ i (bound : i < tasks.length), tasks[i].state = .runnable

theorem allRunnable_iff_forall_mem (tasks : List Task) :
    AllRunnable tasks ↔ ∀ t ∈ tasks, t.state = .runnable := by
  rw [List.forall_mem_iff_getElem]
  rfl

instance (tasks : List Task) : Decidable (AllRunnable tasks) :=
  decidable_of_iff _ (allRunnable_iff_forall_mem tasks).symm

/-- The clock has reached the enqueue time of the last task of a queue, if any. -/
def Appendable (tasks : List Task) (clock : Nat) : Prop :=
  ∀ last ∈ tasks.getLast?, last.enqueueTime ≤ clock

instance (tasks : List Task) (clock : Nat) : Decidable (Appendable tasks clock) :=
  inferInstanceAs (Decidable (∀ last ∈ tasks.getLast?, last.enqueueTime ≤ clock))

/-- `FIFOPreservedByTailAppend` -/
theorem fifoPreservedByTailAppend {tasks : List Task} {t : Task}
    (ordered : FIFOOrdered tasks) (appendable : Appendable tasks t.enqueueTime) :
    FIFOOrdered (tasks ++ [t]) := by
  rw [fifoOrdered_iff_pairwise] at ordered ⊢
  refine List.pairwise_append.mpr ⟨ordered, List.pairwise_singleton _ _, ?_⟩
  intro old member new newMem
  rw [List.mem_singleton.mp newMem]
  obtain ⟨front, last, rfl⟩ := (List.eq_nil_or_concat' tasks).resolve_left
    (List.ne_nil_of_mem member)
  have reached := appendable last (by simp)
  rcases List.mem_append.mp member with inFront | atLast
  · exact ((List.pairwise_append.mp ordered).2.2 old inFront last (by simp)).trans reached
  · rw [List.mem_singleton.mp atLast]
    exact reached

/-- `FIFOPreservedByHeadRemoval` -/
theorem fifoPreservedByHeadRemoval {tasks : List Task} (ordered : FIFOOrdered tasks) :
    FIFOOrdered tasks.tail := by
  rw [fifoOrdered_iff_pairwise] at ordered ⊢
  exact ordered.tail

/-- The record an enqueue stores: stamped with the clock, with a fresh quantum. -/
def Task.stamped (t : Task) (clock : Nat) : Task :=
  { t with enqueueTime := clock, remainingSlice := timeQuantum }

@[simp]
theorem Task.stamped_enqueueTime (t : Task) (clock : Nat) :
    (t.stamped clock).enqueueTime = clock := rfl

@[simp]
theorem Task.stamped_pid (t : Task) (clock : Nat) : (t.stamped clock).pid = t.pid := rfl

@[simp]
theorem Task.stamped_state (t : Task) (clock : Nat) :
    (t.stamped clock).state = t.state := rfl

theorem ValidTask.stamped {t : Task} (valid : ValidTask t) (clock : Nat) :
    ValidTask (t.stamped clock) :=
  ⟨valid.1, Nat.le_refl _, valid.2.2⟩

/-! ## Affinity -/

/-- A task must never be dispatched to a CPU outside its affinity set. -/
def AffinityRespected (t : Task) (assignedCpu : Nat) : Prop :=
  Domain.AffinityRespected t.cpuAffinity assignedCpu

def AllAffinitiesRespected (s : SchedState) : Prop :=
  s.AllAffinitiesRespected Task.cpuAffinity RunQueue.tasks

end SchedExt.RoundRobin
