import SchedExt.RoundRobin.Types

/-!
# The abstract round-robin scheduler

The nondeterministic specification: an initial condition, the actions
`Enqueue`, `Dispatch` and `Tick` as relations between states, and FIFO order
of every queue as the safety invariant.  Every action is one step of a family
of first-in first-out queues.
-/

namespace SchedExt.RoundRobin

open SchedExt.Domain SchedExt.Foundations

/-- A state seen as a family of queues stamped with enqueue times. -/
def view (s : SchedState) : Queues Nat Task :=
  s.view RunQueue.tasks

@[simp]
theorem view_waiting (s : SchedState) (cpu : Nat) :
    (view s).waiting cpu = (s.queue cpu).tasks := rfl

@[simp]
theorem view_clock (s : SchedState) : (view s).clock = s.clock := rfl

/-- The step relation of the queues a round-robin scheduler implements. -/
abbrev QueueStep :
    Queues Nat Task → QueueEvent Nat Task → Queues Nat Task → Prop :=
  Queues.Step Placement.tail Task.enqueueTime

/-- All run queues are ordered by enqueue time. -/
def FIFOInvariant (s : SchedState) : Prop :=
  ∀ cpu ∈ s.runQueues, FIFOOrdered (s.queue cpu).tasks

namespace AbstractScheduler

structure Init (s : SchedState) : Prop where
  noTasks : s.allTasks = ∅
  clockZero : s.clock = 0
  someCpu : s.activeCpus.card > 0
  valid : ValidState s
  emptyQueues : ∀ cpu ∈ s.runQueues, (s.queue cpu).tasks.length = 0

/-- A task becomes runnable and is appended to the queue of the target CPU. -/
structure Enqueue (s s' : SchedState) (t : Task) (targetCpu : Nat) : Prop where
  validBefore : ValidState s
  validTask : ValidTask t
  runnable : t.state = .runnable
  active : targetCpu ∈ s.activeCpus
  known : targetCpu ∈ s.runQueues
  allTasks : s'.allTasks = s.allTasks ∪ {t.stamped s.clock}
  clock : s'.clock = s.clock + 1
  activeCpus : s'.activeCpus = s.activeCpus
  knownAfter : targetCpu ∈ s'.runQueues
  appended : (s'.queue targetCpu).tasks = (s.queue targetCpu).tasks ++ [t.stamped s.clock]
  others : ∀ c ∈ s.runQueues, c ≠ targetCpu →
    c ∈ s'.runQueues ∧ s'.queue c = s.queue c
  noNewQueues : ∀ c ∈ s'.runQueues, c ∈ s.runQueues
  appendable : Appendable (s.queue targetCpu).tasks s.clock
  validAfter : ValidState s'

/-- Some runnable task of the queue of a CPU is chosen and its head removed. -/
structure Dispatch (s s' : SchedState) (cpu : Nat) (chosen : Option Task) : Prop where
  validBefore : ValidState s
  active : cpu ∈ s.activeCpus
  known : cpu ∈ s.runQueues
  mustChoose : (s.queue cpu).tasks.length > 0 → chosen.isSome
  mayNotChoose : (s.queue cpu).tasks.length = 0 → chosen.isNone
  fromQueue : ∀ t, chosen = some t → t ∈ (s.queue cpu).tasks ∧ t.state = .runnable
  clock : s'.clock = s.clock + 1
  knownAfter : cpu ∈ s'.runQueues
  headRemoved : chosen.isSome → (s.queue cpu).tasks.length > 0 ∧
    (s'.queue cpu).tasks = (s.queue cpu).tasks.tail
  kept : chosen.isNone → (s'.queue cpu).tasks = (s.queue cpu).tasks
  others : ∀ c ∈ s.runQueues, c ≠ cpu → c ∈ s'.runQueues ∧ s'.queue c = s.queue c
  noNewQueues : ∀ c ∈ s'.runQueues, c ∈ s.runQueues
  validAfter : ValidState s'

/-- Time passes and no queue changes. -/
structure Tick (s s' : SchedState) (cpu : Nat) : Prop where
  validBefore : ValidState s
  active : cpu ∈ s.activeCpus
  clock : s'.clock = s.clock + 1
  activeCpus : s'.activeCpus = s.activeCpus
  runQueues : s'.runQueues = s.runQueues
  validAfter : ValidState s'

def Next (s s' : SchedState) : Prop :=
  (∃ t cpu, Enqueue s s' t cpu) ∨ (∃ cpu chosen, Dispatch s s' cpu chosen) ∨
    ∃ cpu, Tick s s' cpu

def SafetyInvariant (s : SchedState) : Prop :=
  FIFOInvariant s

/-! ## Actions as steps of a family of queues -/

theorem Init.waiting_nil {s : SchedState} (init : Init s) (cpu : Nat) :
    (s.queue cpu).tasks = [] := by
  by_cases known : cpu ∈ s.runQueues
  · exact List.eq_nil_of_length_eq_zero (init.emptyQueues cpu known)
  · rw [SchedState.queue_of_notMem known]
    rfl

theorem Enqueue.view {s s' : SchedState} {t : Task} {cpu : Nat}
    (action : Enqueue s s' t cpu) :
    view s' = (view s).put Placement.tail cpu (t.stamped s.clock) :=
  SchedState.view_of_frame action.clock action.appended
    (SchedState.queue_eq_of_frame action.others action.noNewQueues)

/-- Whatever task is chosen, the head of the queue is what leaves it. -/
theorem Dispatch.tasks_tail {s s' : SchedState} {cpu : Nat} {chosen : Option Task}
    (action : Dispatch s s' cpu chosen) :
    (s'.queue cpu).tasks = (s.queue cpu).tasks.tail := by
  cases chosen with
  | some task => exact (action.headRemoved rfl).2
  | none =>
      have empty : ¬ (s.queue cpu).tasks.length > 0 := fun some =>
        Bool.noConfusion (action.mustChoose some)
      rw [action.kept rfl, List.eq_nil_of_length_eq_zero (Nat.eq_zero_of_not_pos empty)]
      rfl

theorem Dispatch.view {s s' : SchedState} {cpu : Nat} {chosen : Option Task}
    (action : Dispatch s s' cpu chosen) : view s' = (view s).take cpu :=
  SchedState.view_of_frame action.clock action.tasks_tail
    (SchedState.queue_eq_of_frame action.others action.noNewQueues)

theorem Tick.view {s s' : SchedState} {cpu : Nat} (action : Tick s s' cpu) :
    view s' = (view s).tick := by
  have contents : (RoundRobin.view s').waiting = (RoundRobin.view s).waiting := by
    funext other
    simp [SchedState.queue, action.runQueues]
  exact congr (congrArg Queues.mk action.clock) contents

/-- Every abstract step is a step of the family of queues. -/
theorem Next.queueStep {s s' : SchedState} (next : Next s s') :
    ∃ event, QueueStep (view s) event (view s') := by
  rcases next with ⟨t, cpu, action⟩ | ⟨cpu, chosen, action⟩ | ⟨cpu, action⟩
  · rw [action.view]
    exact ⟨_, .put _ cpu (t.stamped s.clock) rfl⟩
  · rw [action.view]
    exact ⟨_, .take _ cpu⟩
  · rw [action.view]
    exact ⟨_, .tick _⟩

theorem Next.validAfter {s s' : SchedState} (next : Next s s') : ValidState s' := by
  rcases next with ⟨_, _, action⟩ | ⟨_, _, action⟩ | ⟨_, action⟩
  · exact action.validAfter
  · exact action.validAfter
  · exact action.validAfter

/-! ## FIFO order is preserved -/

/-- `SafetyPreserved`: from any state, not only a reachable one. -/
theorem safetyPreserved {s s' : SchedState} (safe : SafetyInvariant s)
    (next : Next s s') : SafetyInvariant s' := by
  rcases next with ⟨t, cpu, action⟩ | ⟨cpu, chosen, action⟩ | ⟨cpu, action⟩
  · intro other known
    by_cases same : other = cpu
    · subst same
      rw [action.appended]
      exact fifoPreservedByTailAppend (safe other action.known) action.appendable
    · rw [SchedState.queue_eq_of_frame action.others action.noNewQueues same]
      exact safe other (action.noNewQueues other known)
  · intro other known
    by_cases same : other = cpu
    · subst same
      rw [action.tasks_tail]
      exact fifoPreservedByHeadRemoval (safe other action.known)
    · rw [SchedState.queue_eq_of_frame action.others action.noNewQueues same]
      exact safe other (action.noNewQueues other known)
  · intro other known
    rw [action.runQueues] at known
    have kept : s'.queue other = s.queue other := by
      simp [SchedState.queue, action.runQueues]
    rw [kept]
    exact safe other known

end AbstractScheduler

end SchedExt.RoundRobin
