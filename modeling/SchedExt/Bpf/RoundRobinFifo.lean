import Mathlib.Algebra.Ring.Nat
import SchedExt.Bpf.RoundRobinInterleaving
import SchedExt.Bpf.RoundRobinLifecycle

/-!
# The round-robin hooks as a queue

With hooks that are not interrupted the shared dispatch queue is the queue of
the specification: what `rr_enqueue` is called for leaves in the same order
through `rr_dispatch`, recorded times are in order, and the two counters differ
by the number of tasks that wait.
-/

namespace SchedExt.Bpf.RoundRobin

open SchedExt.Foundations
open Interleaving (enqueueTime enqueueTime_stamp_of_ne)

variable {Task : Type} [DecidableEq Task]

/-- The state after a hook call. -/
def performHook (s : State Task) : Event Task → State Task
  | .initTask p allocated => (rrInitTask s p allocated).2
  | .selectCpu p cpu isIdle _ => (rrSelectCpu s p cpu isIdle).2
  | .enqueue p enqFlags now => rrEnqueue s p enqFlags now
  | .dispatch cpu => (rrDispatch s cpu).2
  | .running p _ now => rrRunning s p now
  | .stopping p _ now => rrStopping s p now

/-- The hooks of a task other than `rr_init_task` are called while it is off the shared queue. -/
def OffQueue (s : State Task) (event : Event Task) : Prop :=
  ∀ p, event.task? = some p → (∀ allocated, event ≠ .initTask p allocated) →
    p ∉ s.sharedDsq.tasks

/-- A hook call on any task and CPU, in one step. -/
def HookStep (s : State Task) (event : Event Task) (s' : State Task) : Prop :=
  OffQueue s event ∧ s' = performHook s event

def Event.isInit : Event Task → Bool
  | .initTask _ _ => true
  | _ => false

/-- `rr_init_task` is called for no task after another hook of it. -/
def InitFirst (events : List (Event Task)) : Prop :=
  events.Pairwise fun earlier later =>
    later.isInit = true → earlier.task? = later.task? → earlier.isInit = true

instance (events : List (Event Task)) : Decidable (InitFirst events) :=
  inferInstanceAs (Decidable (List.Pairwise _ _))

/-- The scheduler has been loaded and no hook been called. -/
structure Loaded (s : State Task) : Prop where
  sharedDsq : s.sharedDsq = []
  nrEnqueued : s.nrEnqueued = 0
  nrDispatched : s.nrDispatched = 0

/-- What a call does to the shared queue. -/
def onShared (taken : Transition (State Task) (Event Task)) : FifoAction Task :=
  match taken.event with
  | .enqueue p _ _ => .append p
  | .dispatch cpu => .remove ((rrDispatch taken.source cpu).1.map DsqEntry.task)
  | _ => .keep

/-- The task that a call passes to `rr_enqueue`. -/
def Event.enqueued? : Event Task → Option Task
  | .enqueue p _ _ => some p
  | _ => none

/-- The task that a call of `rr_dispatch` moves to a local queue. -/
def moved? (taken : Transition (State Task) (Event Task)) : Option Task :=
  match taken.event with
  | .dispatch cpu => (rrDispatch taken.source cpu).1.map DsqEntry.task
  | _ => none

/-- The queue of the specification, and the counters that account for it. -/
structure ImplementsQueue (history : List (Transition (State Task) (Event Task)))
    (s : State Task) : Prop where
  fifo : (history.map Transition.event).filterMap Event.enqueued? =
    history.filterMap moved? ++ s.sharedDsq.tasks
  ordered : (s.sharedDsq.tasks.filterMap (enqueueTime s)).Pairwise (· ≤ ·)
  counted : (s.nrEnqueued - s.nrDispatched).toNat = s.sharedDsq.length % 2 ^ 64

variable {start s s' : State Task} {event : Event Task}
variable {history : List (Transition (State Task) (Event Task))}

/-! ## The shared queue and the counters -/

/-- Only `rr_enqueue` and `rr_dispatch` change the shared queue and the counters. -/
theorem performHook_kept (others : onShared ⟨s, event, performHook s event⟩ = .keep) :
    (performHook s event).sharedDsq = s.sharedDsq ∧
      (performHook s event).nrEnqueued = s.nrEnqueued ∧
        (performHook s event).nrDispatched = s.nrDispatched := by
  cases event with
  | initTask p allocated =>
      rw [performHook, rrInitTask]
      split <;> exact ⟨rfl, rfl, rfl⟩
  | selectCpu p cpu isIdle now => cases isIdle <;> exact ⟨rfl, rfl, rfl⟩
  | enqueue p enqFlags now => cases others
  | dispatch cpu => cases others
  | running p cpu now =>
      rw [performHook, rrRunning]
      split <;> exact ⟨rfl, rfl, rfl⟩
  | stopping p runnable now =>
      rw [performHook, rrStopping]
      split <;> exact ⟨rfl, rfl, rfl⟩

omit [DecidableEq Task] in
/-- What `rr_dispatch` leaves and counts. -/
theorem rrDispatch_nrDispatched (s : State Task) (cpu : Nat) :
    (rrDispatch s cpu).2.nrEnqueued = s.nrEnqueued ∧
      s.nrDispatched + UInt64.ofNat s.sharedDsq.length =
        (rrDispatch s cpu).2.nrDispatched +
          UInt64.ofNat (rrDispatch s cpu).2.sharedDsq.length := by
  rw [rrDispatch, Dsq.moveHead]
  cases s.sharedDsq with
  | nil => exact ⟨rfl, rfl⟩
  | cons head rest =>
      refine ⟨rfl, ?_⟩
      simp only [List.head?_cons, List.tail_cons, List.length_cons, UInt64.ofNat_add]
      rw [UInt64.add_comm (UInt64.ofNat rest.length), ← UInt64.add_assoc]
      rfl

namespace HookStep

/-- The shared queue is a first-in first-out queue. -/
theorem queue (step : HookStep s event s') :
    FifoAction.Acts s.sharedDsq.tasks (onShared ⟨s, event, s'⟩) s'.sharedDsq.tasks := by
  obtain ⟨_, rfl⟩ := step
  by_cases others : onShared ⟨s, event, performHook s event⟩ = .keep
  · rw [others, (performHook_kept others).1]
    exact .keep _
  · cases event with
    | enqueue p enqFlags now =>
        simp only [performHook, rrEnqueue, Dsq.tasks_insert]
        exact .append _ p
    | dispatch cpu =>
        simp only [performHook, onShared, rrDispatch_sharedDsq, Dsq.tasks_moveHead,
          rrDispatch_fst, Dsq.task_moveHead]
        exact .remove _
    | initTask p allocated => exact absurd rfl others
    | selectCpu p cpu isIdle now => exact absurd rfl others
    | running p cpu now => exact absurd rfl others
    | stopping p runnable now => exact absurd rfl others

/-- The counters keep differing by the number of waiting tasks. -/
theorem counted (step : HookStep s event s')
    (before : s.nrEnqueued = s.nrDispatched + UInt64.ofNat s.sharedDsq.length) :
    s'.nrEnqueued = s'.nrDispatched + UInt64.ofNat s'.sharedDsq.length := by
  obtain ⟨_, rfl⟩ := step
  by_cases others : onShared ⟨s, event, performHook s event⟩ = .keep
  · obtain ⟨queue, enqueued, dispatched⟩ := performHook_kept others
    rw [queue, enqueued, dispatched]
    exact before
  · cases event with
    | enqueue p enqFlags now =>
        simp only [performHook, rrEnqueue, Dsq.insert, List.length_append, List.length_singleton,
          UInt64.ofNat_add, before, UInt64.add_assoc]
        rfl
    | dispatch cpu =>
        obtain ⟨enqueued, dispatched⟩ := rrDispatch_nrDispatched s cpu
        rw [performHook, enqueued, before, dispatched]
    | initTask p allocated => exact absurd rfl others
    | selectCpu p cpu isIdle now => exact absurd rfl others
    | running p cpu now => exact absurd rfl others
    | stopping p runnable now => exact absurd rfl others

end HookStep

/-- What was enqueued is what was moved followed by what waits. -/
theorem enqueued_eq (run : Run HookStep start history s) (loaded : Loaded start) :
    (history.map Transition.event).filterMap Event.enqueued? =
      history.filterMap moved? ++ s.sharedDsq.tasks := by
  have log := FifoAction.log_simulate (fun s : State Task => s.sharedDsq.tasks) onShared run
    HookStep.queue
  have enqueued : FifoAction.appended (history.map onShared) =
      (history.map Transition.event).filterMap Event.enqueued? := by
    rw [FifoAction.appended, List.filterMap_map, List.filterMap_map]
    refine List.filterMap_congr fun taken _ => ?_
    obtain ⟨source, event, target⟩ := taken
    cases event <;> rfl
  have moved : FifoAction.removed (history.map onShared) = history.filterMap moved? := by
    rw [FifoAction.removed, List.filterMap_map]
    refine List.filterMap_congr fun taken _ => ?_
    obtain ⟨source, event, target⟩ := taken
    cases event <;> rfl
  have empty : start.sharedDsq.tasks = [] := by
    rw [loaded.sharedDsq]
    rfl
  rw [empty, List.nil_append, enqueued, moved] at log
  exact log

/-- The counters differ by the number of waiting tasks, modulo 2^64. -/
theorem counted_of_run (run : Run HookStep start history s) (loaded : Loaded start) :
    (s.nrEnqueued - s.nrDispatched).toNat = s.sharedDsq.length % 2 ^ 64 := by
  have counted : s.nrEnqueued = s.nrDispatched + UInt64.ofNat s.sharedDsq.length := by
    refine run.carries
      (fun s => s.nrEnqueued = s.nrDispatched + UInt64.ofNat s.sharedDsq.length)
      (fun taken member before => (run.steps taken member).counted before) ?_
    rw [loaded.nrEnqueued, loaded.nrDispatched, loaded.sharedDsq]
    rfl
  rw [counted, UInt64.add_comm, UInt64.add_sub_cancel, UInt64.toNat_ofNat']

/-! ## Recorded times -/

/-- The recorded time of a task changes only in a hook of the task. -/
theorem enqueueTime_performHook {q : Task} (other : event.task? ≠ some q) :
    enqueueTime (performHook s event) q = enqueueTime s q := by
  cases event with
  | dispatch cpu => simp [performHook, enqueueTime]
  | selectCpu p cpu isIdle now => simp [performHook, enqueueTime]
  | initTask p allocated =>
      have different : q ≠ p := fun same => other (congrArg some same.symm)
      simp [performHook, enqueueTime, different]
  | enqueue p enqFlags now =>
      have different : q ≠ p := fun same => other (congrArg some same.symm)
      simp [performHook, enqueueTime, different]
  | running p cpu now =>
      have different : q ≠ p := fun same => other (congrArg some same.symm)
      simp [performHook, enqueueTime, different]
  | stopping p runnable now =>
      have different : q ≠ p := fun same => other (congrArg some same.symm)
      simp [performHook, enqueueTime, different]

/-- If a task has a context, `rr_enqueue` records the time of the call. -/
theorem enqueueTime_enqueue {p : Task} {enqFlags now time : UInt64}
    (recorded : enqueueTime (performHook s (.enqueue p enqFlags now)) p = some time) :
    time = now := by
  simp only [performHook, enqueueTime, rrEnqueue_taskCtxMap, Function.update_self,
    Option.map_map, Option.map_eq_some_iff] at recorded
  obtain ⟨_, _, rfl⟩ := recorded
  rfl

/-- A task that waits has been passed to `rr_enqueue`. -/
theorem enqueue_mem_of_queued (run : Run HookStep start history s) (loaded : Loaded start)
    {p : Task} (queued : p ∈ s.sharedDsq.tasks) :
    ∃ enqFlags now, .enqueue p enqFlags now ∈ history.map Transition.event := by
  have member : p ∈ (history.map Transition.event).filterMap Event.enqueued? := by
    rw [enqueued_eq run loaded]
    exact List.mem_append_right _ queued
  obtain ⟨event, inside, enqueues⟩ := List.mem_filterMap.mp member
  cases event with
  | enqueue q enqFlags now =>
      obtain rfl : q = p := Option.some.inj enqueues
      exact ⟨enqFlags, now, inside⟩
  | initTask q allocated => cases enqueues
  | selectCpu q cpu isIdle now => cases enqueues
  | dispatch cpu => cases enqueues
  | running q cpu now => cases enqueues
  | stopping q runnable now => cases enqueues

/-- No hook of a waiting task is called but the one that makes it wait. -/
theorem enqueueTime_of_queued (run : Run HookStep start history s) (loaded : Loaded start)
    (step : HookStep s event s') (initFirst : InitFirst (history.map Transition.event ++ [event]))
    {p : Task} (queued : p ∈ s.sharedDsq.tasks) : enqueueTime s' p = enqueueTime s p := by
  obtain ⟨offQueue, rfl⟩ := step
  refine enqueueTime_performHook fun own => ?_
  by_cases isInit : ∃ allocated, event = .initTask p allocated
  · obtain ⟨allocated, rfl⟩ := isInit
    obtain ⟨enqFlags, now, member⟩ := enqueue_mem_of_queued run loaded queued
    have earlier := (List.pairwise_append.mp initFirst).2.2 _ member _ (List.mem_singleton_self _)
    exact Bool.noConfusion (earlier rfl rfl)
  · exact offQueue p own (fun allocated same => isInit ⟨allocated, same⟩) queued

omit [DecidableEq Task] in
theorem Nondecreasing.of_append {earlier later : List (Event Task)}
    (clock : Nondecreasing (earlier ++ later)) : Nondecreasing earlier := by
  rw [Nondecreasing, List.filterMap_append] at clock
  exact (List.pairwise_append.mp clock).1

omit [DecidableEq Task] in
theorem eq_enqueue_of_onShared {p : Task} (appends : onShared ⟨s, event, s'⟩ = .append p) :
    ∃ enqFlags now, event = .enqueue p enqFlags now := by
  cases event with
  | enqueue q enqFlags now =>
      obtain rfl : q = p := FifoAction.append.inj appends
      exact ⟨enqFlags, now, rfl⟩
  | initTask q allocated => cases appends
  | selectCpu q cpu isIdle now => cases appends
  | dispatch cpu => cases appends
  | running q cpu now => cases appends
  | stopping q runnable now => cases appends

/-- The times recorded for waiting tasks are in order and have been read. -/
structure TimesInOrder (events : List (Event Task)) (s : State Task) : Prop where
  ordered : s.sharedDsq.tasks.Pairwise fun p q =>
    ∀ first, enqueueTime s p = some first → ∀ second, enqueueTime s q = some second →
      first ≤ second
  read : ∀ p ∈ s.sharedDsq.tasks, ∀ time, enqueueTime s p = some time →
    time ∈ events.filterMap Event.time?

/-- A call keeps the recorded times in order if the clock does not run backwards. -/
theorem TimesInOrder.step (times : TimesInOrder (history.map Transition.event) s)
    (run : Run HookStep start history s) (loaded : Loaded start) (step : HookStep s event s')
    (clock : Nondecreasing (history.map Transition.event ++ [event]))
    (initFirst : InitFirst (history.map Transition.event ++ [event])) :
    TimesInOrder (history.map Transition.event ++ [event]) s' := by
  have kept : ∀ p ∈ s.sharedDsq.tasks, enqueueTime s' p = enqueueTime s p :=
    fun p queued => enqueueTime_of_queued run loaded step initFirst queued
  rw [Nondecreasing, List.filterMap_append, List.pairwise_append] at clock
  have atTail {p : Task} {enqFlags now time : UInt64} (enqueues : event = .enqueue p enqFlags now)
      (recorded : enqueueTime s' p = some time) : time = now := by
    subst enqueues
    rw [step.2] at recorded
    exact enqueueTime_enqueue recorded
  constructor
  case ordered =>
      refine step.queue.pairwise ?_ ?_
      · refine times.ordered.imp_of_mem fun {p q} pQueued qQueued inOrder => ?_
        rw [kept p pQueued, kept q qQueued]
        exact inOrder
      · intro p appends other queued first firstEq second secondEq
        obtain ⟨enqFlags, now, enqueues⟩ := eq_enqueue_of_onShared appends
        rw [kept other queued] at firstEq
        obtain rfl := atTail enqueues secondEq
        refine clock.2.2 first (times.read other queued first firstEq) second ?_
        rw [enqueues]
        exact List.mem_singleton_self _
  case read =>
      intro p member time recorded
      rw [List.filterMap_append]
      rcases step.queue.mem member with queued | appends
      · rw [kept p queued] at recorded
        exact List.mem_append_left _ (times.read p queued time recorded)
      · obtain ⟨enqFlags, now, enqueues⟩ := eq_enqueue_of_onShared appends
        obtain rfl := atTail enqueues recorded
        rw [enqueues]
        exact List.mem_append_right _ (List.mem_singleton_self _)

/-- In every run with a clock that does not run backwards the recorded times stay in order. -/
theorem timesInOrder_of_run (run : Run HookStep start history s) (loaded : Loaded start)
    (clock : Nondecreasing (history.map Transition.event))
    (initFirst : InitFirst (history.map Transition.event)) :
    TimesInOrder (history.map Transition.event) s := by
  induction run with
  | refl =>
      have empty : start.sharedDsq.tasks = [] := by
        rw [loaded.sharedDsq]
        rfl
      constructor
      · rw [empty]
        exact .nil
      · intro p member
        rw [empty] at member
        cases member
  | tail earlier last ih =>
      rw [List.map_append] at clock initFirst ⊢
      have before := ih clock.of_append (List.pairwise_append.mp initFirst).1
      exact before.step earlier loaded last clock initFirst

/--
The shared queue of uninterrupted hooks serves in the order of `rr_enqueue`,
its recorded times are in order and its counters account for its length.
-/
theorem implementsQueue_of_run (run : Run HookStep start history s) (loaded : Loaded start)
    (clock : Nondecreasing (history.map Transition.event))
    (initFirst : InitFirst (history.map Transition.event)) : ImplementsQueue history s where
  fifo := enqueued_eq run loaded
  ordered := by
    rw [List.pairwise_filterMap]
    exact (timesInOrder_of_run run loaded clock initFirst).ordered
  counted := counted_of_run run loaded

/-- Nothing is initialised, queued or counted. -/
def idleState : State Nat where
  taskCtxMap := fun _ => none
  sharedDsq := []
  localDsq := fun _ => []
  nrEnqueued := 0
  nrDispatched := 0

/-- Two tasks, one of them without a context, are enqueued, and one is dispatched and stopped. -/
def twoTasks : List (Event Nat) :=
  [.initTask 1 true, .initTask 2 false, .enqueue 1 0 10, .enqueue 2 0 20, .dispatch 0,
    .running 1 0 30, .stopping 1 true 40, .enqueue 1 0 40]

theorem hookStep_performHook (s : State Nat) (event : Event Nat)
    (allowed : event.isInit = true ∨ ∀ p ∈ event.task?, p ∉ s.sharedDsq.tasks) :
    HookStep s event (performHook s event) := by
  refine ⟨fun p own notInit => ?_, rfl⟩
  rcases allowed with isInit | off
  · cases event with
    | initTask q allocated =>
        obtain rfl : q = p := Option.some.inj own
        exact absurd rfl (notInit allocated)
    | selectCpu q cpu isIdle now => cases isInit
    | enqueue q enqFlags now => cases isInit
    | dispatch cpu => cases isInit
    | running q cpu now => cases isInit
    | stopping q runnable now => cases isInit
  · exact off p own

theorem twoTasks_implementsQueue :
    ImplementsQueue (trace performHook idleState twoTasks)
      (twoTasks.foldl performHook idleState) :=
  implementsQueue_of_run (Run.of_trace hookStep_performHook (by decide)) ⟨rfl, rfl, rfl⟩
    (by decide) (by decide)

end SchedExt.Bpf.RoundRobin
