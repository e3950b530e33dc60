import SchedExt.Bpf.FairDispatch
import SchedExt.RoundRobin.Implementation

/-!
# What the fair hooks implement

Virtual runtimes are charged and never looked at: the global dispatch queue of
the fair scheduler is the run queue of the round-robin specification.
-/

namespace SchedExt.Bpf.Fair

open SchedExt.Foundations
open SchedExt.RoundRobin (Description Answered plainRecords)

variable {Task : Type} [DecidableEq Task] {s start : State Task}
variable {history : List (Transition (State Task) (Call Task))}

/-- The queue has a full slice for every task on it. -/
def DefaultSlices (s : State Task) : Prop :=
  ∀ entry ∈ s.globalDsq, entry.slice = scxSliceDfl

omit [DecidableEq Task] in
theorem sDispatch_queue (s : State Task) : (sDispatch s).2.globalDsq = s.globalDsq.tail := by
  rw [sDispatch]
  cases s.globalDsq <;> rfl

theorem Step.defaultSlices {s' : State Task} {call : Call Task} (step : Step s call s')
    (slices : DefaultSlices s) : DefaultSlices s' := by
  cases step with
  | enqueue p enqFlags allocated now =>
      simp only [sEnqueue, getTaskCtx_eq]
      cases obtained (s.taskCtxMap p) allocated with
      | none => exact slices
      | some ctx =>
          intro entry queued
          rcases List.mem_append.mp queued with earlier | new
          · exact slices entry earlier
          · rw [List.mem_singleton.mp new]
  | dispatch cpu =>
      intro entry queued
      rw [sDispatch_queue] at queued
      exact slices entry (List.mem_of_mem_tail queued)
  | running p allocated weight now =>
      simp only [sRunning, getTaskCtx_eq]
      cases obtained (s.taskCtxMap p) allocated with
      | none => exact slices
      | some ctx => exact slices

/--
Whatever is charged, a run of the fair hooks answers to a run of the
round-robin specification on one CPU: an `s_enqueue` that has a context by an
`Enqueue`, an `s_dispatch` by the `Dispatch` of the task it moves, every other
call by none.
-/
theorem fair_hooks_refine_roundRobin (description : Description Task) (empty : start.globalDsq = [])
    (run : Run Step start history s) :
    DefaultSlices s ∧ ∃ calls spec,
      Answered description (history.map onQueue) s.globalDsq.tasks calls spec := by
  constructor
  · have none : DefaultSlices start := by
      intro entry queued
      rw [empty] at queued
      exact absurd queued List.not_mem_nil
    exact run.invariant none fun slices step => step.defaultSlices slices
  · have waiting : start.globalDsq.tasks = [] := by
      rw [empty]
      rfl
    exact RoundRobin.answered_of_run description (fun s => s.globalDsq.tasks) onQueue
      Step.queue run waiting

theorem chargedFirst_refines :
    DefaultSlices (chargedFirst.foldl perform fresh) ∧ ∃ calls spec,
      Answered plainRecords ((trace perform fresh chargedFirst).map onQueue)
        (chargedFirst.foldl perform fresh).globalDsq.tasks calls spec :=
  fair_hooks_refine_roundRobin plainRecords rfl chargedFirst_run

end SchedExt.Bpf.Fair
