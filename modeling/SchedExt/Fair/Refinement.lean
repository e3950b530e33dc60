import SchedExt.Fair.Records

/-!
# Refinement of the abstract fair scheduler

Every insertion refines the abstract `Enqueue`.  A dispatch refines the
abstract `Dispatch` only in part: the abstract action must choose a task as
soon as any record of `all_tasks` is runnable, while the body looks at the
queue of one CPU, and no record ever leaves `all_tasks` or ceases to be
runnable there.
-/

namespace SchedExt.Fair.RefinementProof

open SchedExt.Domain SchedExt.Foundations
open ConcreteScheduler

variable {start s s' : SchedState} {history : List (Transition SchedState Event)}

/-- The refinement mapping: the concrete state is the abstract state. -/
def refMap (cs : SchedState) : SchedState := cs

/-- The abstract action that a call is meant to implement. -/
def AbstractStep (s : SchedState) (event : Event) (s' : SchedState) : Prop :=
  match event with
  | .enqueue t _ => ∀ flags, AbstractScheduler.Enqueue s s' t flags
  | .dispatch cpu next => AbstractScheduler.Dispatch s s' cpu next

/-- `EnqueueRefines`, for the body of `Enqueue` and any flags. -/
theorem enqueueRefines {t : Task} {cpu : Nat} (required : EnqueueRequires s t cpu)
    (flags : EnqueueFlags) :
    AbstractScheduler.Enqueue (refMap s) (refMap (enqueue s t cpu)) t flags where
  validBefore := required.validState
  validTask := required.validTask
  runnable := required.runnable
  allTasks := enqueue_allTasks s t cpu
  clock := enqueue_clock s t cpu
  activeCpus := enqueue_activeCpus s t cpu
  validAfter := enqueue_valid required.validState required.known required.validTask

/-- `DispatchRefines`, for the body of `Dispatch` on a queue that holds a task. -/
theorem dispatchRefines {cpu : Nat} (required : DispatchRequires s cpu)
    (queued : ∀ t ∈ (s.queue cpu).tasks, t ∈ s.allTasks ∧ t.state = .runnable)
    (filled : (s.queue cpu).tasks ≠ []) :
    AbstractScheduler.Dispatch (refMap s) (refMap (dispatch s cpu).2) cpu
      (dispatch s cpu).1 := by
  intro _
  rw [dispatch_next]
  exact {
    chooses := List.isSome_head?.mpr filled
    fromTasks := fun t found => queued t (List.mem_of_head? found)
    clock := dispatch_clock s cpu
    validAfter := dispatch_valid required.validState required.known }

/-- A queue without a task cannot be dispatched while some record is runnable. -/
theorem not_dispatch_of_empty {cpu : Nat} (required : DispatchRequires s cpu)
    (empty : (s.queue cpu).tasks = []) {t : Task} (member : t ∈ s.allTasks)
    (runnable : t.state = .runnable) :
    ¬ AbstractScheduler.Dispatch (refMap s) (refMap (dispatch s cpu).2) cpu
      (dispatch s cpu).1 := by
  intro refines
  have conclusion := refines ⟨required.validState, required.active, t, member, runnable⟩
  have chooses := conclusion.chooses
  rw [dispatch_next, empty] at chooses
  cases chooses

/-- The states before a call in which its body implements the abstract action. -/
def RefinesWhen (s : SchedState) : Event → Prop
  | .enqueue _ _ => True
  | .dispatch cpu _ => (s.queue cpu).tasks ≠ [] ∨ s.allTasks = ∅

/--
In every state that a run from empty queues reaches, the next call is the
abstract action it is meant to implement exactly when it inserts a task, finds
a task in its queue, or no task was ever inserted.
-/
theorem steps_refine_iff (init : EmptyInit start) (run : Run CheckedStep start history s)
    {event : Event} (taken : CheckedStep s event s') :
    AbstractStep (refMap s) event (refMap s') ↔ RefinesWhen s event := by
  have steps := run.mono CheckedStep.step
  have recorded := mem_allTasks_iff init.noTasks steps
  obtain ⟨required, executes⟩ := taken
  cases executes with
  | enqueue t cpu => exact ⟨fun _ => trivial, fun _ => enqueueRefines required⟩
  | dispatch cpu =>
      have queued : ∀ t ∈ (s.queue cpu).tasks, t ∈ s.allTasks ∧ t.state = .runnable := by
        intro t member
        have isRecord := mem_records_of_queued init.waiting_nil steps member
        exact ⟨(recorded t).mpr isRecord, (records_good steps t isRecord).2⟩
      constructor
      · intro refines
        by_contra excluded
        obtain ⟨empty, someTask⟩ := not_or.mp excluded
        obtain ⟨t, member⟩ := Finset.nonempty_iff_ne_empty.mpr someTask
        have runnable := (records_good steps t ((recorded t).mp member)).2
        exact not_dispatch_of_empty required (not_not.mp empty) member runnable refines
      · rintro (filled | noTask)
        · exact dispatchRefines required queued filled
        · rintro ⟨_, _, t, member, _⟩
          exact absurd (show t ∈ s.allTasks from member) (noTask ▸ Finset.notMem_empty t)

theorem tiedCalls_refine_iff :
    AbstractStep (refMap afterTiedCalls) (.dispatch 1 none)
        (refMap (perform afterTiedCalls (.dispatch 1 none))) ↔
      RefinesWhen afterTiedCalls (.dispatch 1 none) :=
  steps_refine_iff twoCpus_init tiedCalls_run (checkedStep_perform _ _ (by decide +kernel))

/-- A task waits on CPU 0, and a dispatch on CPU 1 returns nothing. -/
theorem steps_not_refine :
    ¬ ∀ (start s s' : SchedState) (history : List (Transition SchedState Event))
      (event : Event), EmptyInit start → Run CheckedStep start history s →
        CheckedStep s event s' → AbstractStep (refMap s) event (refMap s') := by
  intro refines
  have run : Run CheckedStep twoCpus (trace perform twoCpus [.enqueue (newTask 1 0) 0])
      (perform twoCpus (.enqueue (newTask 1 0) 0)) :=
    Run.of_trace checkedStep_perform (by decide +kernel)
  have idle : CheckedStep (perform twoCpus (.enqueue (newTask 1 0) 0)) (.dispatch 1 none)
      (perform (perform twoCpus (.enqueue (newTask 1 0) 0)) (.dispatch 1 none)) :=
    checkedStep_perform _ _ (by decide +kernel)
  have refined := refines _ _ _ _ _ twoCpus_init run idle
  have conclusion := refined ⟨by decide +kernel, by decide +kernel, (newTask 1 0).stamped 0,
    by decide +kernel, rfl⟩
  exact absurd conclusion.chooses (by decide)

end SchedExt.Fair.RefinementProof
