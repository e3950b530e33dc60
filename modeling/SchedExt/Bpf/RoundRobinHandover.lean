import SchedExt.Bpf.RoundRobinConcurrency

/-!
# Tasks in the hands of a CPU

Between the stamp and the insertion of `rr_enqueue` a task is on no dispatch
queue, while other CPUs go on with their hooks.  With the CPUs as further places
every task that waits is in one place, in any interleaving, and so it is on one
dispatch queue whenever no CPU is between the two.
-/

namespace SchedExt.Bpf.RoundRobin.Concurrency

open SchedExt.Foundations
open Locations (Tracked put takeOut moveFirst)

variable {Task : Type} [DecidableEq Task]

/-- The CPUs in their hooks, and the phase in which the kernel keeps each task. -/
structure Kernel (Task : Type) where
  sys : System Task
  phase : Task → Phase

namespace Kernel

def lifecycle (kernel : Kernel Task) : Lifecycle Task := ⟨kernel.sys.hooks, kernel.phase⟩

/-- A hook begins in the order of the lifecycle, on a task that is where it has to be. -/
def Begins (kernel : Kernel Task) : Action Task → Prop
  | .stamp _ p enqFlags now => Calls kernel.lifecycle (.enqueue p enqFlags now)
  | .hook _ event => Calls kernel.lifecycle event ∧ RunsLocally kernel.lifecycle event
  | _ => True

instance (kernel : Kernel Task) (action : Action Task) : Decidable (kernel.Begins action) :=
  match action with
  | .stamp _ p enqFlags now =>
      inferInstanceAs (Decidable (Calls kernel.lifecycle (.enqueue p enqFlags now)))
  | .hook _ event =>
      inferInstanceAs
        (Decidable (Calls kernel.lifecycle event ∧ RunsLocally kernel.lifecycle event))
  | .insert _ _ _ | .countEnqueued _ | .move _ | .countDispatched _ => instDecidableTrue

/-- The kernel takes a task for queued from the moment that it calls `rr_enqueue`. -/
def perform (kernel : Kernel Task) (action : Action Task) : Kernel Task :=
  match action with
  | .stamp _ p _ _ =>
      ⟨Concurrency.perform kernel.sys action, Function.update kernel.phase p .queued⟩
  | .hook cpu event =>
      let after := RoundRobin.perform kernel.lifecycle event
      ⟨kernel.sys.reaches cpu after.hooks .idle, after.phase⟩
  | _ => ⟨Concurrency.perform kernel.sys action, kernel.phase⟩

end Kernel

/-- One of the CPUs takes its next step. -/
def HandoverStep (cpus : Finset Nat) (kernel : Kernel Task) (action : Action Task)
    (kernel' : Kernel Task) : Prop :=
  (action.cpu ∈ cpus ∧ Allowed kernel.sys action ∧ kernel.Begins action) ∧
    kernel' = kernel.perform action

theorem handoverStep_perform (cpus : Finset Nat) (kernel : Kernel Task) (action : Action Task)
    (allowed : action.cpu ∈ cpus ∧ Allowed kernel.sys action ∧ kernel.Begins action) :
    HandoverStep cpus kernel action (kernel.perform action) :=
  ⟨allowed, rfl⟩

/-- The task that a CPU has stamped and not yet inserted. -/
def Progress.held : Progress Task → List Task
  | .stamped p _ => [p]
  | _ => []

/-- The tasks on the dispatch queues, and those in the hands of the CPUs. -/
def System.contents (sys : System Task) : Place ⊕ Nat → List Task :=
  Sum.elim sys.hooks.contents fun cpu => (sys.progress cpu).held

/-- The scheduler has been loaded on an idle machine. -/
structure Kernel.Booted (kernel : Kernel Task) : Prop where
  booted : RoundRobin.Booted kernel.lifecycle
  progress : ∀ cpu, kernel.sys.progress cpu = .idle

variable {cpus : Finset Nat} {kernel kernel' start : Kernel Task} {action : Action Task}
variable {history : List (Transition (Kernel Task) (Action Task))}

/-! ## What one step does to the places -/

omit [DecidableEq Task] in
theorem contents_reaches (sys : System Task) (cpu : Nat) (hooks : State Task)
    (progress : Progress Task) :
    (sys.reaches cpu hooks progress).contents =
      Sum.elim hooks.contents
        (Function.update (fun cpu => (sys.progress cpu).held) cpu progress.held) :=
  congrArg (Sum.elim hooks.contents) (Function.comp_update Progress.held sys.progress cpu progress)

omit [DecidableEq Task] in
/-- A CPU that has the same in hand as before. -/
theorem contents_reaches_of_held (sys : System Task) {cpu : Nat} (hooks : State Task)
    {progress : Progress Task} (same : progress.held = (sys.progress cpu).held) :
    (sys.reaches cpu hooks progress).contents =
      Sum.elim hooks.contents fun cpu => (sys.progress cpu).held := by
  rw [contents_reaches, same, Function.update_eq_self]

/-- A task that is stamped comes into the hands of the CPU. -/
theorem contents_stamp (sys : System Task) {cpu : Nat} (idle : sys.progress cpu = .idle) (p : Task)
    (enqFlags now : UInt64) :
    (perform sys (.stamp cpu p enqFlags now)).contents = put sys.contents (.inr cpu) p := by
  have kept : (rrEnqueueStamp sys.hooks p now).contents = sys.hooks.contents :=
    contents_congr rfl rfl
  have empty : sys.contents (.inr cpu) = [] := congrArg Progress.held idle
  rw [perform, contents_reaches, kept, put, empty, System.contents, Sum.update_elim_inr]
  rfl

/-- From there it is put on the shared queue. -/
theorem contents_insert (sys : System Task) {cpu : Nat} {p : Task} {enqFlags : UInt64}
    (stamped : sys.progress cpu = .stamped p enqFlags) :
    (perform sys (.insert cpu p enqFlags)).contents =
      moveFirst sys.contents (.inr cpu) (.inl .shared) := by
  have only : sys.contents (.inr cpu) = [p] := congrArg Progress.held stamped
  have placed : (rrEnqueuePlace sys.hooks p enqFlags).contents = put sys.hooks.contents .shared p :=
    contents_shared sys.hooks (Dsq.tasks_insert _ _ _ _) rfl
  rw [perform, contents_reaches, placed, Locations.moveFirst_eq_put only, System.contents,
    Sum.update_elim_inr, Locations.put_elim]
  rfl

/-- A dispatch moves between dispatch queues. -/
theorem contents_move (sys : System Task) {cpu : Nat} (idle : sys.progress cpu = .idle) :
    (perform sys (.move cpu)).contents =
      moveFirst sys.contents (.inl .shared) (.inl (.localTo cpu)) := by
  have moved : (rrDispatchMove sys.hooks cpu).2.contents =
      moveFirst sys.hooks.contents .shared (.localTo cpu) := by
    rw [← contents_rrDispatch, rrDispatch_eq]
    generalize rrDispatchMove sys.hooks cpu = after
    obtain ⟨entry, s⟩ := after
    cases entry <;> exact contents_congr rfl rfl
  have nothing : (if sys.hooks.sharedDsq = [] then Progress.idle else .moved).held =
      (sys.progress cpu).held := by
    rw [idle]
    split <;> rfl
  rw [perform_move, contents_reaches_of_held _ _ nothing, moved, System.contents,
    Locations.moveFirst_elim]

omit [DecidableEq Task] in
/-- A CPU that counts has no task in hand. -/
theorem contents_count (sys : System Task) {cpu : Nat} {hooks : State Task}
    (kept : hooks.contents = sys.hooks.contents)
    (inserted : sys.progress cpu = .inserted ∨ sys.progress cpu = .moved) :
    (sys.reaches cpu hooks .idle).contents = sys.contents := by
  have nothing : (Progress.idle : Progress Task).held = (sys.progress cpu).held := by
    rcases inserted with inserted | moved
    · rw [inserted]
      rfl
    · rw [moved]
      rfl
  rw [contents_reaches_of_held _ _ nothing, kept]
  rfl

theorem contentsAfter_elim (contents : Place → List Task) (beside : Nat → List Task)
    (event : Event Task) :
    contentsAfter Sum.inl (Sum.elim contents beside) event =
      Sum.elim (contentsAfter id contents event) beside := by
  cases event with
  | selectCpu p cpu isIdle now =>
      cases isIdle with
      | true => exact Locations.put_elim _ _ _ _
      | false => rfl
  | enqueue p enqFlags now => exact Locations.put_elim _ _ _ _
  | dispatch cpu => exact Locations.moveFirst_elim _ _ _ _
  | running p cpu now => exact Locations.takeOut_elim _ _ _ _
  | initTask p allocated => rfl
  | stopping p runnable now => rfl

theorem contents_hook {cpu : Nat} (idle : kernel.sys.progress cpu = .idle) (event : Event Task) :
    (kernel.perform (.hook cpu event)).sys.contents =
      contentsAfter Sum.inl kernel.sys.contents event := by
  have nothing : (Progress.idle : Progress Task).held = (kernel.sys.progress cpu).held := by
    rw [idle]
  unfold Kernel.perform
  dsimp only
  rw [contents_reaches_of_held _ _ nothing, contents_perform, System.contents, contentsAfter_elim]
  rfl

/-! ## Every task in its place -/

/-- A queued task is in one place, once, and any other task in none. -/
def Kernel.Placed (kernel : Kernel Task) : Prop :=
  Tracked kernel.sys.contents fun p => kernel.phase p = .queued

/-- A step moves a task to its next place, or leaves it where it is. -/
theorem Kernel.Placed.step (placed : kernel.Placed)
    (step : HandoverStep cpus kernel action kernel') : kernel'.Placed := by
  obtain ⟨⟨-, allowed, begins⟩, rfl⟩ := step
  unfold Kernel.Placed
  cases action with
  | stamp cpu p enqFlags now =>
      have outside : kernel.phase p ≠ .queued := by
        rcases begins with selected | preempted
        · exact fun queued => nomatch queued.symm.trans selected
        · exact fun queued => nomatch queued.symm.trans preempted
      change Tracked (Concurrency.perform kernel.sys (.stamp cpu p enqFlags now)).contents _
      rw [contents_stamp _ allowed]
      refine placed.put _ outside (Function.update_self _ _ _) fun other apart => ?_
      unfold Kernel.perform
      dsimp only
      rw [Function.update_of_ne apart]
  | insert cpu p enqFlags =>
      change Tracked (Concurrency.perform kernel.sys (.insert cpu p enqFlags)).contents _
      rw [contents_insert _ allowed]
      exact placed.moveFirst _ _
  | countEnqueued cpu =>
      have kept : (rrEnqueueCount kernel.sys.hooks).contents = kernel.sys.hooks.contents := rfl
      change Tracked (kernel.sys.reaches cpu (rrEnqueueCount kernel.sys.hooks) .idle).contents _
      rw [contents_count _ kept (.inl allowed)]
      exact placed
  | move cpu =>
      change Tracked (Concurrency.perform kernel.sys (.move cpu)).contents _
      rw [contents_move _ allowed]
      exact placed.moveFirst _ _
  | countDispatched cpu =>
      have kept : (rrDispatchCount kernel.sys.hooks).contents = kernel.sys.hooks.contents := rfl
      change Tracked (kernel.sys.reaches cpu (rrDispatchCount kernel.sys.hooks) .idle).contents _
      rw [contents_count _ kept (.inr allowed)]
      exact placed
  | hook cpu event =>
      rw [contents_hook allowed.1]
      refine tracked_after begins.1 (fun p there now is => ?_) placed
      subst is
      exact begins.2

theorem Kernel.Booted.placed (booted : start.Booted) : start.Placed where
  settled p queued := by
    rw [show start.phase p = _ from booted.booted.absent p] at queued
    cases queued
  absent p _ := by
    refine Locations.absent_iff.mpr fun site member => ?_
    cases site with
    | inl place =>
        have empty : start.sys.contents (.inl place) = [] := booted.booted.empty place
        rw [empty] at member
        cases member
    | inr cpu =>
        have empty : start.sys.contents (.inr cpu) = [] :=
          congrArg Progress.held (booted.progress cpu)
        rw [empty] at member
        cases member

/--
However the steps of the hooks of any CPUs come between each other, a task that
waits is on one dispatch queue or in the hands of one CPU, once, and any other
task is nowhere; it is on a dispatch queue while no CPU has a task in hand.
-/
theorem handovers_placed_of_run (run : Run (HandoverStep cpus) start history kernel)
    (booted : start.Booted) :
    (∀ p, kernel.phase p = .queued →
        ∃ site, (kernel.sys.contents site).count p = 1 ∧
          ∀ other, other ≠ site → p ∉ kernel.sys.contents other) ∧
      (∀ p, kernel.phase p ≠ .queued → ∀ site, p ∉ kernel.sys.contents site) ∧
      ((∀ cpu, (kernel.sys.progress cpu).held = []) →
        ∀ p, kernel.phase p = .queued →
          ∃ place, (kernel.sys.hooks.contents place).count p = 1 ∧
            ∀ other, other ≠ place → p ∉ kernel.sys.hooks.contents other) := by
  have placed : kernel.Placed := run.invariant booted.placed Kernel.Placed.step
  exact ⟨fun p queued => placed.unique queued,
    fun p others => Locations.absent_iff.mp (placed.absent p others),
    fun idle p queued => (placed.of_elim idle).unique queued⟩

/-- No hook has been called on any CPU. -/
def Kernel.unstarted : Kernel Nat where
  sys := { hooks := RoundRobin.unstarted.hooks, progress := fun _ => .idle }
  phase := RoundRobin.unstarted.phase

/-- Between the stamp and the insertion of a task another one is enqueued, moved and run. -/
def overtakenInHand : List (Action Nat) :=
  [.hook 0 (.initTask 1 true), .hook 1 (.initTask 2 true), .hook 0 (.selectCpu 1 0 false 5),
    .stamp 0 1 0 10, .hook 1 (.selectCpu 2 1 false 11), .stamp 1 2 0 12, .insert 1 2 0,
    .countEnqueued 1, .move 1, .countDispatched 1, .hook 1 (.running 2 1 14)]

def inHand : Kernel Nat := overtakenInHand.foldl Kernel.perform .unstarted

theorem overtakenInHand_run :
    Run (HandoverStep {0, 1}) .unstarted (trace Kernel.perform .unstarted overtakenInHand)
      inHand :=
  Run.of_trace (handoverStep_perform {0, 1}) (by decide)

theorem overtakenInHand_placed :
    (∀ p, inHand.phase p = .queued →
        ∃ site, (inHand.sys.contents site).count p = 1 ∧
          ∀ other, other ≠ site → p ∉ inHand.sys.contents other) ∧
      (∀ p, inHand.phase p ≠ .queued → ∀ site, p ∉ inHand.sys.contents site) ∧
      ((∀ cpu, (inHand.sys.progress cpu).held = []) →
        ∀ p, inHand.phase p = .queued →
          ∃ place, (inHand.sys.hooks.contents place).count p = 1 ∧
            ∀ other, other ≠ place → p ∉ inHand.sys.hooks.contents other) :=
  handovers_placed_of_run overtakenInHand_run ⟨unstarted_booted, fun _ => rfl⟩

end SchedExt.Bpf.RoundRobin.Concurrency
