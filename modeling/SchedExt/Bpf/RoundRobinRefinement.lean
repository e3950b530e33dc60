import SchedExt.Bpf.RoundRobinKernel
import SchedExt.RoundRobin.Implementation

/-!
# The round-robin scheduler refines its specification

Under the kernel every call of a hook is one on a queue that no running task is
on.  The shared queue then is the run queue of the specification, an `rr_enqueue`
its `Enqueue` and an `rr_dispatch` its `Dispatch`, on whole runs.
-/

namespace SchedExt.Bpf.RoundRobin

open SchedExt.Foundations
open SchedExt.RoundRobin (Description Answered plainRecords sharedCpu)
open Interleaving (enqueueTime)

variable {Task : Type} [DecidableEq Task]
variable {sys sys' start : Lifecycle Task} {event : Event Task}
variable {history : List (Transition (Lifecycle Task) (Event Task))}

/-! ## The shared queue without the local ones -/

/-- The hooks of a task other than `rr_init_task` find it off the shared queue. -/
theorem Placed.offQueue (placed : Placed sys) (step : KernelStep sys event sys') :
    OffQueue sys.hooks event := by
  intro p own notInit queued
  obtain ⟨⟨calls, _⟩, locally⟩ := step
  have elsewhere (other : sys.phase p ≠ .queued) : False :=
    Locations.absent_iff.mp (placed.absent p other) .shared queued
  cases event with
  | dispatch cpu => cases own
  | initTask q allocated =>
      obtain rfl : q = p := Option.some.inj own
      exact notInit allocated rfl
  | selectCpu q cpu isIdle now =>
      obtain rfl : q = p := Option.some.inj own
      exact elsewhere (by rw [calls]; decide)
  | enqueue q enqFlags now =>
      obtain rfl : q = p := Option.some.inj own
      rcases calls with selected | preempted
      · exact elsewhere (by rw [selected]; decide)
      · exact elsewhere (by rw [preempted]; decide)
  | running q cpu now =>
      obtain rfl : q = p := Option.some.inj own
      obtain ⟨place, settled⟩ := placed.settled q calls
      have here := settled.eq_of_mem locally
      have there : place = .shared := settled.eq_of_mem queued
      exact nomatch there.symm.trans here
  | stopping q runnable now =>
      obtain rfl : q = p := Option.some.inj own
      exact elsewhere (by rw [calls]; decide)

/-- The same contexts, shared queue and counters. -/
def AgreesOffLocal (s t : State Task) : Prop :=
  ∃ localDsq, t = { s with localDsq := localDsq }

theorem agreesOffLocal_perform {t : State Task} (agrees : AgreesOffLocal sys.hooks t)
    (event : Event Task) : AgreesOffLocal (perform sys event).hooks (performHook t event) := by
  obtain ⟨localDsq, rfl⟩ := agrees
  cases event with
  | initTask p allocated =>
      refine ⟨localDsq, ?_⟩
      simp only [perform, performHook, rrInitTask]
      split <;> rfl
  | selectCpu p cpu isIdle now => cases isIdle <;> exact ⟨_, rfl⟩
  | enqueue p enqFlags now => exact ⟨_, rfl⟩
  | dispatch cpu =>
      simp only [perform, performHook, rrDispatch]
      split <;> exact ⟨_, rfl⟩
  | running p cpu now =>
      refine ⟨localDsq, ?_⟩
      simp only [perform, performHook, rrRunning, lookupTaskCtx, State.picked]
      split <;> rfl
  | stopping p runnable now =>
      refine ⟨localDsq, ?_⟩
      simp only [perform, performHook, rrStopping, lookupTaskCtx]
      split <;> rfl

/-- A call as the hooks see it. -/
def onHooks (taken : Transition (Lifecycle Task) (Event Task)) :
    Transition (State Task) (Event Task) :=
  ⟨taken.source.hooks, taken.event, taken.target.hooks⟩

/-- The hook call by itself, on a state that may have other local queues. -/
def ByHooks (taken : Transition (Lifecycle Task) (Event Task))
    (given : List (Transition (State Task) (Event Task))) : Prop :=
  ∃ before, AgreesOffLocal taken.source.hooks before ∧
    given = [⟨before, taken.event, performHook before taken.event⟩]

/-- What the kernel does is what the hooks do to the shared queue. -/
theorem hookSimulation :
    Simulation (@KernelStep Task _) HookStep
      (fun sys s => Placed sys ∧ AgreesOffLocal sys.hooks s) ByHooks where
  answered := by
    rintro before event after s ⟨placed, agrees⟩ step
    have off : OffQueue s event := by
      obtain ⟨localDsq, rfl⟩ := agrees
      exact placed.offQueue step
    refine ⟨_, _, .single ⟨off, rfl⟩, ⟨s, agrees, rfl⟩, placed.step step, ?_⟩
    rw [step.1.2]
    exact agreesOffLocal_perform agrees event

/-! ## The queue of the specification -/

/-- The shared queue is a first-in first-out queue whatever the kernel calls. -/
theorem acts_onShared (placed : Placed sys) (step : KernelStep sys event sys') :
    FifoAction.Acts sys.hooks.sharedDsq.tasks (onShared (onHooks ⟨sys, event, sys'⟩))
      sys'.hooks.sharedDsq.tasks := by
  have hooks : HookStep sys.hooks event (performHook sys.hooks event) :=
    ⟨placed.offQueue step, rfl⟩
  obtain ⟨localDsq, same⟩ := agreesOffLocal_perform ⟨_, rfl⟩ event
  have acts := hooks.queue
  rw [same] at acts
  rw [step.1.2]
  exact acts

omit [DecidableEq Task] in
theorem Booted.loaded (booted : Booted start) : Loaded start.hooks where
  sharedDsq := List.map_eq_nil_iff.mp (booted.empty .shared)
  nrEnqueued := booted.nrEnqueued
  nrDispatched := booted.nrDispatched

/-- The hooks by themselves are called alike and move the same tasks. -/
theorem flatten_byHooks {given : List (List (Transition (State Task) (Event Task)))}
    (each : List.Forall₂ ByHooks history given) :
    given.flatten.map Transition.event = history.map Transition.event ∧
      given.flatten.filterMap moved? = (history.map onHooks).filterMap moved? := by
  induction each with
  | nil => exact ⟨rfl, rfl⟩
  | @cons taken answer history given first _ ih =>
      obtain ⟨before, ⟨localDsq, rfl⟩, rfl⟩ := first
      obtain ⟨events, moves⟩ := ih
      have same : moved? ⟨{ taken.source.hooks with localDsq := localDsq }, taken.event,
          performHook { taken.source.hooks with localDsq := localDsq } taken.event⟩ =
            moved? (onHooks taken) := by
        unfold moved? onHooks
        cases taken.event with
        | dispatch cpu => simp only [rrDispatch_fst]
        | _ => rfl
      rw [List.flatten_cons, List.singleton_append, List.map_cons, List.map_cons, events]
      refine ⟨rfl, ?_⟩
      rw [List.filterMap_cons, List.map_cons, List.filterMap_cons, same, moves]

/-- Under the kernel the shared queue serves in order and is accounted for. -/
theorem kernel_queue_of_run (run : Run KernelStep start history sys) (booted : Booted start)
    (clock : Nondecreasing (history.map Transition.event)) :
    ImplementsQueue (history.map onHooks) sys.hooks := by
  obtain ⟨given, s, hookRun, each, _, localDsq, rfl⟩ :=
    hookSimulation.run run ⟨booted.placed, start.hooks.localDsq, rfl⟩
  obtain ⟨events, moves⟩ := flatten_byHooks each
  have loaded := booted.loaded
  have initFirst := initFirst_of_run run
  rw [← events] at clock initFirst
  have fifo := enqueued_eq hookRun loaded
  rw [events, moves] at fifo
  have counted := counted_of_run hookRun loaded
  have called : (history.map onHooks).map Transition.event = history.map Transition.event :=
    List.map_map
  constructor
  · rw [called]
    exact fifo
  · rw [List.pairwise_filterMap]
    exact (timesInOrder_of_run hookRun loaded clock initFirst).ordered
  · exact counted

/-- A queued entry with its record: the record shows the task, and has its slice. -/
def Records (description : Description Task) (entry : DsqEntry Task)
    (t : SchedExt.RoundRobin.Task) : Prop :=
  description.Shows entry.task t ∧ entry.slice.toNat = t.remainingSlice

omit [DecidableEq Task] in
theorem forall₂_records {description : Description Task} {queue : Dsq Task}
    {tasks : List SchedExt.RoundRobin.Task}
    (queued : List.Forall₂ description.Shows queue.tasks tasks)
    (full : ∀ entry ∈ queue, entry.slice = timeQuantumNs) :
    List.Forall₂ (Records description) queue tasks := by
  have shown : List.Forall₂ (fun entry t => description.Shows entry.task t) queue tasks :=
    List.forall₂_map_left_iff.mp queued
  induction shown with
  | nil => exact .nil
  | @cons entry t queue tasks first _ ih =>
      obtain ⟨slice, later⟩ := List.forall_mem_cons.mp full
      obtain ⟨_, rest⟩ := List.forall₂_cons.mp queued
      refine .cons ⟨first, ?_⟩ (ih rest later)
      obtain ⟨time, rfl⟩ := first
      rw [slice]
      rfl

/--
Every run of the kernel is a run of the specification: call by call an
`rr_enqueue` is its `Enqueue`, an `rr_dispatch` its `Dispatch` of the task that
is moved, any other hook no call, each an action of the abstract scheduler, and
the run queue has the entries of the shared queue with their slices.  The times
and counters of the hooks account for that queue.
-/
theorem kernel_refines_of_run (description : Description Task)
    (run : Run KernelStep start history sys) (booted : Booted start) :
    (∃ calls spec,
      Answered description (history.map fun taken => onShared (onHooks taken))
          sys.hooks.sharedDsq.tasks calls spec ∧
        List.Forall₂ (Records description) sys.hooks.sharedDsq (spec.queue sharedCpu).tasks) ∧
      (Nondecreasing (history.map Transition.event) →
        ImplementsQueue (history.map onHooks) sys.hooks) := by
  refine ⟨?_, fun clock => kernel_queue_of_run run booted clock⟩
  have guarded : Run (fun before event after => Placed before ∧ KernelStep before event after)
      start history sys :=
    run.upgrade booted.placed Placed.step fun placed step => ⟨placed, step⟩
  obtain ⟨calls, spec, answered⟩ :=
    SchedExt.RoundRobin.answered_of_run description (fun sys => sys.hooks.sharedDsq.tasks)
      (fun taken => onShared (onHooks taken)) (fun step => acts_onShared step.1 step.2) guarded
      (booted.empty .shared)
  exact ⟨calls, spec, answered, forall₂_records answered.implements.queued
    (fullSlices_of_run run booted).shared⟩

theorem sharedAndDirect_refines :
    (∃ calls spec,
      Answered plainRecords
          ((trace perform unstarted sharedAndDirect).map fun taken => onShared (onHooks taken))
          (sharedAndDirect.foldl perform unstarted).hooks.sharedDsq.tasks calls spec ∧
        List.Forall₂ (Records plainRecords)
          (sharedAndDirect.foldl perform unstarted).hooks.sharedDsq
          (spec.queue sharedCpu).tasks) ∧
      (Nondecreasing ((trace perform unstarted sharedAndDirect).map Transition.event) →
        ImplementsQueue ((trace perform unstarted sharedAndDirect).map onHooks)
          (sharedAndDirect.foldl perform unstarted).hooks) :=
  kernel_refines_of_run plainRecords sharedAndDirect_run unstarted_booted

end SchedExt.Bpf.RoundRobin
