import SchedExt.Fair.ConcreteScheduler

/-!
# Stable priority service

The fair run queues are stable minimum-priority queues on every run.  The
carrying invariant joins strict order by virtual runtime and enqueue time with
distinct enqueue times that lie before the clock, since sorted insertion keeps
the former only for a task stamped later than all that wait.
-/

namespace SchedExt.Fair.ConcreteScheduler

open SchedExt.Domain SchedExt.Foundations

/-- The inductive invariant of all runs from an initial state with empty queues. -/
structure SchedInvariant (s : SchedState) : Prop where
  valid : ValidState s
  validTasks : (view s).AllWaiting ValidTask
  runnable : (view s).AllWaiting fun t => t.state = .runnable
  stamped : (view s).Stamped Task.enqueueTime
  ranked : (view s).Ranked Task.vruntime Task.enqueueTime

variable {start s s' : SchedState} {history : List (Transition SchedState Event)}

/-- Whatever a call inserts was a valid runnable task of its caller. -/
theorem Step.arrival {event : Event} (taken : Step s event s') {cpu : Nat} {stored : Task}
    (arrives : observe ⟨s, event, s'⟩ = .put cpu stored) :
    ValidTask stored ∧ stored.state = .runnable := by
  rcases taken.cases with ⟨t, target, rfl, validTask, runnable, _, rfl⟩ | ⟨target, rfl, _, rfl⟩
  · cases arrives
    exact ⟨validTask.stamped s.clock, runnable⟩
  · cases arrives

namespace SchedInvariant

theorem of_init (init : EmptyInit s) : SchedInvariant s where
  valid := init.valid
  validTasks cpu t member := by
    rw [view_waiting, init.waiting_nil cpu] at member
    cases member
  runnable cpu t member := by
    rw [view_waiting, init.waiting_nil cpu] at member
    cases member
  stamped := .of_empty init.waiting_nil
  ranked cpu := by
    rw [view_waiting, init.waiting_nil cpu]
    exact List.Pairwise.nil

theorem step {event : Event} (invariant : SchedInvariant s) (taken : Step s event s') :
    SchedInvariant s' where
  valid := taken.valid invariant.valid
  validTasks := invariant.validTasks.step taken.queueStep
    fun _ _ arrives => (taken.arrival arrives).1
  runnable := invariant.runnable.step taken.queueStep
    fun _ _ arrives => (taken.arrival arrives).2
  stamped := invariant.stamped.step taken.queueStep
  ranked := invariant.ranked.step invariant.stamped taken.queueStep

theorem of_run (init : EmptyInit start) (run : Run Step start history s) :
    SchedInvariant s :=
  run.invariant (of_init init) step

theorem sortedInsertRequires (invariant : SchedInvariant s) (cpu : Nat) :
    SortedInsertRequires (s.queue cpu).tasks :=
  (sortedInsertRequires_iff_pairwise _).mpr (invariant.ranked cpu).keys

end SchedInvariant

/-- Runs whose callers meet their obligations meet every precondition. -/
theorem checkedRun (init : EmptyInit start) (run : Run Step start history s) :
    Run CheckedStep start history s :=
  run.upgrade (SchedInvariant.of_init init) SchedInvariant.step
    fun invariant taken => ⟨requires_iff.mpr ⟨invariant.valid, taken.1⟩, taken.2⟩

/-! ## The priority queue -/

/--
`next` is the least task of the queue by virtual runtime and, among equals,
by enqueue time; it is `none` only on the empty queue.
-/
structure ServesLeast (queue : List Task) (next : Option Task) : Prop where
  none_empty : next = none → queue = []
  chosen_mem : ∀ chosen, next = some chosen → chosen ∈ queue
  chosen_least : ∀ chosen, next = some chosen → ∀ t ∈ queue,
    t = chosen ∨ chosen.vruntime < t.vruntime ∨
      chosen.vruntime = t.vruntime ∧ chosen.enqueueTime < t.enqueueTime

/-- The head of a ranked queue is its least task. -/
theorem ServesLeast.head {queue : List Task}
    (ranked : RankedList Task.vruntime Task.enqueueTime queue) :
    ServesLeast queue queue.head? where
  none_empty nothing := List.head?_eq_none_iff.mp nothing
  chosen_mem _ found := List.mem_of_head? found
  chosen_least _ found t member :=
    (ranked.head_least found t member).imp_right rank_lt_iff.mp

/-- The fair run queues are stable minimum-priority queues that lose nothing. -/
structure StablePriorityService (history : List (Transition SchedState Event))
    (s : SchedState) : Prop where
  sorted : ∀ cpu, (s.queue cpu).tasks.Pairwise fun first second =>
    first.vruntime < second.vruntime ∨
      first.vruntime = second.vruntime ∧ first.enqueueTime < second.enqueueTime
  requires : ∀ call ∈ history, Requires call.source call.event
  insertable : ∀ call ∈ history, ∀ t cpu, call.event = .enqueue t cpu →
    SortedInsertRequires (call.source.queue cpu).tasks
  queued : ∀ cpu, ∀ t ∈ (s.queue cpu).tasks, ValidTask t ∧ t.state = .runnable
  servesLeast : ∀ call ∈ history, ∀ cpu next, call.event = .dispatch cpu next →
    ServesLeast (call.source.queue cpu).tasks next
  balance : ∀ cpu, (inserted cpu history : Multiset Task) =
    (returned cpu history : Multiset Task) + ((s.queue cpu).tasks : Multiset Task)
  framed : ∀ call ∈ history, ∀ other, other ≠ call.event.cpu →
    call.target.runQueues.lookup other = call.source.runQueues.lookup other

/-- On every CPU the insertions are, in some order, the dispatches and the queue. -/
theorem balance_of_run (empty : ∀ cpu, (start.queue cpu).tasks = [])
    (run : Run Step start history s) (cpu : Nat) :
    (inserted cpu history).Perm (returned cpu history ++ (s.queue cpu).tasks) := by
  have law := Queues.balance (queueRun run) cpu
  rw [Queues.labels_simulate, view_waiting, view_waiting, empty cpu, List.nil_append] at law
  exact law

/-- Every run from an initial state with empty queues serves by stable priority. -/
theorem runs_serve_least (init : EmptyInit start) (run : Run Step start history s) :
    StablePriorityService history s := by
  have invariant := SchedInvariant.of_run init run
  refine {
    sorted := fun cpu => (invariant.ranked cpu).imp rank_lt_iff.mp
    requires := ?_
    insertable := ?_
    queued := fun cpu t member =>
      ⟨invariant.validTasks cpu t member, invariant.runnable cpu t member⟩
    servesLeast := ?_
    balance := fun cpu => ?_
    framed := ?_ }
  · exact (checkedRun init run).forall_step fun taken => taken.1
  · exact run.forall_mem (SchedInvariant.of_init init) SchedInvariant.step
      fun good _ _ cpu _ => good.sortedInsertRequires cpu
  · refine run.forall_mem (SchedInvariant.of_init init) SchedInvariant.step ?_
    rintro before _ after good taken cpu next rfl
    rw [taken.next_eq]
    exact .head (good.ranked cpu)
  · rw [Multiset.coe_add]
    exact Multiset.coe_eq_coe.mpr (balance_of_run init.waiting_nil run cpu)
  · exact run.forall_step fun taken _ different => taken.lookup_of_ne different

/-! ## A run on two CPUs -/

/-- Two idle CPUs before any call. -/
def twoCpus : SchedState where
  runQueues := (Finmap.singleton 0 ⟨0, [], 0⟩).insert 1 ⟨1, [], 0⟩
  allTasks := ∅
  clock := 0
  activeCpus := {0, 1}

theorem twoCpus_init : EmptyInit twoCpus where
  noTasks := rfl
  clockZero := rfl
  someCpu := by decide
  valid := by decide
  emptyQueues cpu known := by
    have member := Finmap.mem_keys.mpr known
    revert cpu
    decide

/-- A runnable task of full weight without affinity, as it enters the scheduler. -/
def newTask (pid vruntime : Nat) : Task where
  pid := pid
  vruntime := vruntime
  weight := maxWeight
  state := .runnable
  cpuAffinity := ∅
  enqueueTime := 0

/-- Two tasks tie on CPU 0, a third overtakes them, and CPU 0 is served. -/
def tiedCalls : List Event :=
  [.enqueue (newTask 1 5) 0, .enqueue (newTask 2 5) 0, .enqueue (newTask 3 4) 0,
    .dispatch 0 (some ((newTask 3 4).stamped 2)), .dispatch 0 (some ((newTask 1 5).stamped 0))]

/-- The state after these calls. -/
def afterTiedCalls : SchedState :=
  tiedCalls.foldl perform twoCpus

theorem tiedCalls_run : Run CheckedStep twoCpus (trace perform twoCpus tiedCalls) afterTiedCalls :=
  Run.of_trace checkedStep_perform (by decide +kernel)

theorem tiedCalls_serve_least :
    StablePriorityService (trace perform twoCpus tiedCalls) afterTiedCalls :=
  runs_serve_least twoCpus_init (tiedCalls_run.mono CheckedStep.step)

end SchedExt.Fair.ConcreteScheduler
