import SchedExt.Domain.State

/-!
# Fair tasks, run queues and fairness properties

Tasks carry a virtual runtime and a weight; run queues are sorted by virtual
runtime.  Fairness bounds the divergence of virtual runtimes of equal weight,
and starvation freedom bounds the waiting time of runnable tasks.
-/

namespace SchedExt.Fair

open SchedExt.Domain SchedExt.Foundations

/-- `MAX_WEIGHT` -/
def maxWeight : Nat := 1024

structure Task where
  pid : Nat
  vruntime : Nat
  weight : Nat
  state : TaskState
  cpuAffinity : Finset Nat
  enqueueTime : Nat
  deriving DecidableEq

structure RunQueue where
  cpu : Nat
  tasks : List Task
  minVruntime : Nat
  deriving DecidableEq, Inhabited

abbrev SchedState := Domain.SchedState Task RunQueue

def ValidTask (t : Task) : Prop :=
  t.weight > 0 ∧ t.weight ≤ maxWeight ∧
    (t.cpuAffinity = ∅ ∨ ∀ c ∈ t.cpuAffinity, c < numCpus)

instance : DecidablePred ValidTask := fun t => by
  unfold ValidTask
  infer_instance

def ValidState (s : SchedState) : Prop :=
  s.Valid ValidTask RunQueue.tasks

instance (s : SchedState) : Decidable (ValidState s) :=
  inferInstanceAs (Decidable (s.Valid ValidTask RunQueue.tasks))

/-- A state seen as a family of queues stamped with enqueue times. -/
def view (s : SchedState) : Queues Nat Task :=
  s.view RunQueue.tasks

@[simp]
theorem view_waiting (s : SchedState) (cpu : Nat) :
    (view s).waiting cpu = (s.queue cpu).tasks := rfl

/-- The record an enqueue stores: stamped with the clock. -/
def Task.stamped (t : Task) (clock : Nat) : Task :=
  { t with enqueueTime := clock }

@[simp]
theorem Task.stamped_pid (t : Task) (clock : Nat) : (t.stamped clock).pid = t.pid := rfl

@[simp]
theorem Task.stamped_vruntime (t : Task) (clock : Nat) :
    (t.stamped clock).vruntime = t.vruntime := rfl

@[simp]
theorem Task.stamped_weight (t : Task) (clock : Nat) :
    (t.stamped clock).weight = t.weight := rfl

@[simp]
theorem Task.stamped_state (t : Task) (clock : Nat) :
    (t.stamped clock).state = t.state := rfl

@[simp]
theorem Task.stamped_enqueueTime (t : Task) (clock : Nat) :
    (t.stamped clock).enqueueTime = clock := rfl

theorem ValidTask.stamped {t : Task} (valid : ValidTask t) (clock : Nat) :
    ValidTask (t.stamped clock) := valid

/-! ## Fairness -/

/-- `FAIRNESS_BOUND`: about 10 ms in nanoseconds. -/
def fairnessBound : Nat := 10000000

def absDiff (a b : Nat) : Nat :=
  if a ≥ b then a - b else b - a

/-- Tasks of equal weight have virtual runtimes within the fairness bound. -/
def Fairness (s : SchedState) : Prop :=
  ∀ t1 ∈ s.allTasks, ∀ t2 ∈ s.allTasks,
    (t1.state = .runnable ∨ t1.state = .running) →
    (t2.state = .runnable ∨ t2.state = .running) →
    t1.weight = t2.weight → t1.pid ≠ t2.pid →
    absDiff t1.vruntime t2.vruntime ≤ fairnessBound

/-- Virtual runtimes, scaled by the weight, are within the bound for the greatest weight. -/
def WeightedFairness (s : SchedState) : Prop :=
  ∀ t1 ∈ s.allTasks, ∀ t2 ∈ s.allTasks,
    (t1.state = .runnable ∨ t1.state = .running) →
    (t2.state = .runnable ∨ t2.state = .running) →
    t1.pid ≠ t2.pid →
    absDiff (t1.vruntime * t1.weight) (t2.vruntime * t2.weight) ≤ fairnessBound * maxWeight

/-- The virtual runtime of one tick of 1 ms, for a task of positive weight. -/
def deltaVruntime (t : Task) : Nat :=
  1000000 * 1024 / t.weight

/-- Within the weight limit every tick has positive virtual runtime. -/
theorem deltaVruntime_pos {t : Task} (valid : ValidTask t) : 0 < deltaVruntime t := by
  have bounded : t.weight ≤ 1024 := valid.2.1
  exact Nat.div_pos (by omega) valid.1

/-! ## Starvation freedom -/

/-- `STARVATION_BOUND`: 500 ms in nanoseconds. -/
def starvationBound : Nat := 500000000

/-- Every runnable task has waited less than the starvation bound. -/
def NoStarvation (s : SchedState) : Prop :=
  ∀ t ∈ s.allTasks, t.state = .runnable →
    (s.clock : Int) - t.enqueueTime < starvationBound

/-! ## Affinity -/

/-- A task must never be dispatched to a CPU outside its affinity set. -/
def AffinityRespected (t : Task) (assignedCpu : Nat) : Prop :=
  Domain.AffinityRespected t.cpuAffinity assignedCpu

def AllAffinitiesRespected (s : SchedState) : Prop :=
  s.AllAffinitiesRespected Task.cpuAffinity RunQueue.tasks

end SchedExt.Fair
