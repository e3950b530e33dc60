import Mathlib.Algebra.Order.BigOperators.Group.Finset
import SchedExt.Bpf.RoundRobinRefinement

/-!
# Hooks that run on several CPUs at once

An insertion into the shared queue and the count of it are two steps, and so
are a move from the queue and its count; other CPUs can come between them.  The
queue implements the specification in every interleaving, a hook taking effect
when it inserts or moves.  The counters account for it up to the hooks that have
yet to count.
-/

namespace SchedExt.Bpf.RoundRobin.Concurrency

open SchedExt.Foundations
open SchedExt.RoundRobin (Description Answered plainRecords)

variable {Task : Type} [DecidableEq Task]

/-! ## The steps of the hooks -/

/-- `scx_bpf_dsq_insert` on the shared queue -/
def rrEnqueuePlace (s : State Task) (p : Task) (enqFlags : UInt64) : State Task :=
  { s with sharedDsq := s.sharedDsq.insert p timeQuantumNs enqFlags }

/-- `__sync_fetch_and_add(&nr_enqueued, 1)` -/
def rrEnqueueCount (s : State Task) : State Task :=
  { s with nrEnqueued := s.nrEnqueued + 1 }

/-- `scx_bpf_dsq_move_to_local` -/
def rrDispatchMove (s : State Task) (cpu : Nat) : Option (DsqEntry Task) × State Task :=
  match s.sharedDsq.moveHead with
  | (none, sharedDsq) => (none, { s with sharedDsq := sharedDsq })
  | (some entry, sharedDsq) =>
      (some entry,
        { s with
          sharedDsq := sharedDsq
          localDsq := Function.update s.localDsq cpu (s.localDsq cpu ++ [entry]) })

/-- `__sync_fetch_and_add(&nr_dispatched, 1)` -/
def rrDispatchCount (s : State Task) : State Task :=
  { s with nrDispatched := s.nrDispatched + 1 }

/-- Without interruption the three steps are the hook. -/
theorem rrEnqueue_eq (s : State Task) (p : Task) (enqFlags now : UInt64) :
    rrEnqueue s p enqFlags now =
      rrEnqueueCount (rrEnqueuePlace (rrEnqueueStamp s p now) p enqFlags) := rfl

omit [DecidableEq Task] in
/-- So are the two of the other, the second only if a task was moved. -/
theorem rrDispatch_eq (s : State Task) (cpu : Nat) :
    rrDispatch s cpu =
      match rrDispatchMove s cpu with
      | (none, moved) => (none, moved)
      | (some entry, moved) => (some entry, rrDispatchCount moved) := by
  unfold rrDispatch rrDispatchMove Dsq.moveHead
  cases s.sharedDsq <;> rfl

/-! ## Interleavings -/

/-- How far a CPU is in its hook. -/
inductive Progress (Task : Type) where
  | idle
  | stamped (p : Task) (enqFlags : UInt64)
  | inserted
  | moved
  deriving DecidableEq

structure System (Task : Type) where
  hooks : State Task
  progress : Nat → Progress Task

/-- The steps of the CPUs; a hook that leaves the shared queue alone is one step. -/
inductive Action (Task : Type) where
  | stamp (cpu : Nat) (p : Task) (enqFlags now : UInt64)
  | insert (cpu : Nat) (p : Task) (enqFlags : UInt64)
  | countEnqueued (cpu : Nat)
  | move (cpu : Nat)
  | countDispatched (cpu : Nat)
  | hook (cpu : Nat) (event : Event Task)
  deriving DecidableEq

def Action.cpu : Action Task → Nat
  | .stamp cpu _ _ _ => cpu
  | .insert cpu _ _ => cpu
  | .countEnqueued cpu => cpu
  | .move cpu => cpu
  | .countDispatched cpu => cpu
  | .hook cpu _ => cpu

/-- The hooks that touch the shared queue. -/
def touchesShared : Event Task → Bool
  | .enqueue _ _ _ => true
  | .dispatch _ => true
  | _ => false

/-- A CPU goes through its hook in order. -/
def Allowed (sys : System Task) : Action Task → Prop
  | .stamp cpu _ _ _ => sys.progress cpu = .idle
  | .insert cpu p enqFlags => sys.progress cpu = .stamped p enqFlags
  | .countEnqueued cpu => sys.progress cpu = .inserted
  | .move cpu => sys.progress cpu = .idle
  | .countDispatched cpu => sys.progress cpu = .moved
  | .hook cpu event => sys.progress cpu = .idle ∧ touchesShared event = false

instance (sys : System Task) (action : Action Task) : Decidable (Allowed sys action) := by
  cases action <;> unfold Allowed <;> infer_instance

def System.reaches (sys : System Task) (cpu : Nat) (hooks : State Task)
    (progress : Progress Task) : System Task where
  hooks := hooks
  progress := Function.update sys.progress cpu progress

def perform (sys : System Task) : Action Task → System Task
  | .stamp cpu p enqFlags now =>
      sys.reaches cpu (rrEnqueueStamp sys.hooks p now) (.stamped p enqFlags)
  | .insert cpu p enqFlags => sys.reaches cpu (rrEnqueuePlace sys.hooks p enqFlags) .inserted
  | .countEnqueued cpu => sys.reaches cpu (rrEnqueueCount sys.hooks) .idle
  | .move cpu =>
      match rrDispatchMove sys.hooks cpu with
      | (none, moved) => sys.reaches cpu moved .idle
      | (some _, moved) => sys.reaches cpu moved .moved
  | .countDispatched cpu => sys.reaches cpu (rrDispatchCount sys.hooks) .idle
  | .hook cpu event => sys.reaches cpu (performHook sys.hooks event) .idle

/-- One of the CPUs takes its next step. -/
def Step (cpus : Finset Nat) (sys : System Task) (action : Action Task) (sys' : System Task) :
    Prop :=
  (action.cpu ∈ cpus ∧ Allowed sys action) ∧ sys' = perform sys action

theorem step_perform (cpus : Finset Nat) (sys : System Task) (action : Action Task)
    (allowed : action.cpu ∈ cpus ∧ Allowed sys action) :
    Step cpus sys action (perform sys action) :=
  ⟨allowed, rfl⟩

/-- What a step does to the shared queue. -/
def onShared (taken : Transition (System Task) (Action Task)) : FifoAction Task :=
  match taken.event with
  | .insert _ p _ => .append p
  | .move cpu => .remove ((rrDispatchMove taken.source.hooks cpu).1.map DsqEntry.task)
  | _ => .keep

variable {cpus : Finset Nat} {sys sys' start : System Task} {action : Action Task}
variable {history : List (Transition (System Task) (Action Task))}

/-! ## What one step does -/

omit [DecidableEq Task] in
theorem rrDispatchMove_fst (s : State Task) (cpu : Nat) :
    (rrDispatchMove s cpu).1 = s.sharedDsq.moveHead.1 := by
  unfold rrDispatchMove
  split <;> simp_all

omit [DecidableEq Task] in
theorem rrDispatchMove_snd (s : State Task) (cpu : Nat) :
    (rrDispatchMove s cpu).2.sharedDsq = s.sharedDsq.moveHead.2 ∧
      (rrDispatchMove s cpu).2.nrEnqueued = s.nrEnqueued ∧
        (rrDispatchMove s cpu).2.nrDispatched = s.nrDispatched := by
  unfold rrDispatchMove
  split <;> simp_all

theorem perform_move (sys : System Task) (cpu : Nat) :
    perform sys (.move cpu) =
      sys.reaches cpu (rrDispatchMove sys.hooks cpu).2
        (if sys.hooks.sharedDsq = [] then .idle else .moved) := by
  unfold perform
  cases whole : sys.hooks.sharedDsq with
  | nil => simp [rrDispatchMove, Dsq.moveHead, whole]
  | cons entry rest => simp [rrDispatchMove, Dsq.moveHead, whole]

/-- A hook that leaves the shared queue alone leaves the counters alone. -/
theorem performHook_of_not_touchesShared (s : State Task) {event : Event Task}
    (elsewhere : touchesShared event = false) :
    (performHook s event).sharedDsq = s.sharedDsq ∧
      (performHook s event).nrEnqueued = s.nrEnqueued ∧
        (performHook s event).nrDispatched = s.nrDispatched := by
  refine performHook_kept ?_
  cases event with
  | enqueue p enqFlags now => cases elsewhere
  | dispatch cpu => cases elsewhere
  | _ => rfl

/-- In every interleaving the shared queue is a first-in first-out queue. -/
theorem Step.queue (step : Step cpus sys action sys') :
    FifoAction.Acts sys.hooks.sharedDsq.tasks (onShared ⟨sys, action, sys'⟩)
      sys'.hooks.sharedDsq.tasks := by
  obtain ⟨⟨_, allowed⟩, rfl⟩ := step
  cases action with
  | stamp cpu p enqFlags now => exact .keep _
  | insert cpu p enqFlags =>
      simp only [perform, System.reaches, rrEnqueuePlace, Dsq.tasks_insert]
      exact .append _ p
  | countEnqueued cpu => exact .keep _
  | move cpu =>
      simp only [perform_move, System.reaches, onShared, rrDispatchMove_fst,
        (rrDispatchMove_snd sys.hooks cpu).1, Dsq.task_moveHead, Dsq.tasks_moveHead]
      exact .remove _
  | countDispatched cpu => exact .keep _
  | hook cpu event =>
      simp only [perform, System.reaches, onShared,
        (performHook_of_not_touchesShared sys.hooks allowed.2).1]
      exact .keep _

/-! ## The counters -/

/-- How many of the CPUs are at some point of their hook. -/
def System.count (sys : System Task) (cpus : Finset Nat) (progress : Progress Task) : Nat :=
  (cpus.filter fun cpu => sys.progress cpu = progress).card

/-- One of the CPUs and all the others. -/
theorem count_eq {cpu : Nat} (member : cpu ∈ cpus) (sys : System Task) (progress : Progress Task) :
    sys.count cpus progress =
      sys.count (cpus.erase cpu) progress + if sys.progress cpu = progress then 1 else 0 := by
  rw [System.count, System.count, ← Finset.insert_erase member, Finset.filter_insert,
    Finset.erase_insert_eq_erase, Finset.erase_idem]
  split
  · exact Finset.card_insert_of_notMem (by simp)
  · exact (Nat.add_zero _).symm

/-- The others are where they were. -/
theorem count_reaches (cpu : Nat) (hooks : State Task) (reached progress : Progress Task) :
    (sys.reaches cpu hooks reached).count (cpus.erase cpu) progress =
      sys.count (cpus.erase cpu) progress := by
  refine congrArg Finset.card (Finset.filter_congr fun other inside => ?_)
  have kept : (sys.reaches cpu hooks reached).progress other = sys.progress other :=
    Function.update_of_ne (Finset.ne_of_mem_erase inside) _ _
  rw [kept]

/-- The counters account for the queue, up to the CPUs that have yet to count. -/
def Balanced (s : State Task) (inserted moved : Nat) : Prop :=
  (s.nrEnqueued.toNat + inserted) % 2 ^ 64 =
    (s.nrDispatched.toNat + moved + s.sharedDsq.length) % 2 ^ 64

def Accounted (cpus : Finset Nat) (sys : System Task) : Prop :=
  Balanced sys.hooks (sys.count cpus .inserted) (sys.count cpus .moved)

/-- A CPU that goes on keeps the balance if the hook does for all numbers of the others. -/
theorem Accounted.reaches {cpu : Nat} {before reached : Progress Task} {hooks : State Task}
    (accounted : Accounted cpus sys) (member : cpu ∈ cpus) (here : sys.progress cpu = before)
    (balanced : ∀ inserted moved : Nat,
      Balanced sys.hooks (inserted + if before = .inserted then 1 else 0)
          (moved + if before = .moved then 1 else 0) →
        Balanced hooks (inserted + if reached = .inserted then 1 else 0)
          (moved + if reached = .moved then 1 else 0)) :
    Accounted cpus (sys.reaches cpu hooks reached) := by
  have own : (sys.reaches cpu hooks reached).progress cpu = reached := Function.update_self _ _ _
  unfold Accounted at accounted ⊢
  rw [count_eq member, count_eq member _ .moved, here] at accounted
  rw [count_eq member, count_eq member _ .moved, own, count_reaches, count_reaches]
  exact balanced _ _ accounted

theorem toNat_add_one (counter : UInt64) : (counter + 1).toNat = (counter.toNat + 1) % 2 ^ 64 :=
  UInt64.toNat_add counter 1

/-- A step that counts keeps the balance, and so does one that leaves something to count. -/
theorem Accounted.step (accounted : Accounted cpus sys) (step : Step cpus sys action sys') :
    Accounted cpus sys' := by
  obtain ⟨⟨member, allowed⟩, rfl⟩ := step
  cases action with
  | stamp cpu p enqFlags now => exact accounted.reaches member allowed fun _ _ same => same
  | insert cpu p enqFlags =>
      refine accounted.reaches member allowed fun inserted moved before => ?_
      simp only [Balanced, rrEnqueuePlace, Dsq.insert, List.length_append,
        List.length_singleton, reduceCtorEq, if_false, if_true] at before ⊢
      omega
  | countEnqueued cpu =>
      refine accounted.reaches member allowed fun inserted moved before => ?_
      simp only [Balanced, rrEnqueueCount, toNat_add_one, reduceCtorEq, if_false, if_true]
        at before ⊢
      omega
  | move cpu =>
      obtain ⟨queue, enqueued, dispatched⟩ := rrDispatchMove_snd sys.hooks cpu
      rw [perform_move]
      refine accounted.reaches member allowed fun inserted moved before => ?_
      simp only [Balanced, queue, enqueued, dispatched, Dsq.moveHead, reduceCtorEq, if_false]
        at before ⊢
      cases whole : sys.hooks.sharedDsq with
      | nil => simpa [whole] using before
      | cons entry rest =>
          simp only [whole, List.length_cons, List.tail_cons, reduceCtorEq, if_false, if_true]
            at before ⊢
          omega
  | countDispatched cpu =>
      refine accounted.reaches member allowed fun inserted moved before => ?_
      simp only [Balanced, rrDispatchCount, toNat_add_one, reduceCtorEq, if_false, if_true]
        at before ⊢
      omega
  | hook cpu event =>
      obtain ⟨queue, enqueued, dispatched⟩ := performHook_of_not_touchesShared sys.hooks allowed.2
      refine accounted.reaches member allowed.1 fun inserted moved before => ?_
      simp only [Balanced, queue, enqueued, dispatched]
      exact before

/-- The scheduler has been loaded and no CPU is in a hook. -/
structure Idle (sys : System Task) : Prop where
  loaded : Loaded sys.hooks
  progress : ∀ cpu, sys.progress cpu = .idle

theorem count_eq_zero {progress : Progress Task} (elsewhere : ∀ cpu ∈ cpus,
    sys.progress cpu ≠ progress) : sys.count cpus progress = 0 :=
  Finset.card_eq_zero.mpr (Finset.filter_eq_empty_iff.mpr fun cpu member => elsewhere cpu member)

theorem Idle.accounted (idle : Idle start) (cpus : Finset Nat) : Accounted cpus start := by
  have none (progress : Progress Task) (busy : progress ≠ .idle) :
      start.count cpus progress = 0 := by
    refine count_eq_zero fun cpu _ => ?_
    rw [idle.progress cpu]
    exact busy.symm
  rw [Accounted, Balanced, none _ (by simp), none _ (by simp), idle.loaded.nrEnqueued,
    idle.loaded.nrDispatched, idle.loaded.sharedDsq]
  rfl

theorem accounted_of_run (run : Run (Step cpus) start history sys) (idle : Idle start) :
    Accounted cpus sys :=
  run.invariant (idle.accounted cpus) Accounted.step

/-- Once no CPU has anything left to count, the counters differ by the number of waiting tasks. -/
theorem Accounted.counted (accounted : Accounted cpus sys)
    (done : ∀ cpu ∈ cpus, sys.progress cpu ≠ .inserted ∧ sys.progress cpu ≠ .moved) :
    (sys.hooks.nrEnqueued - sys.hooks.nrDispatched).toNat =
      sys.hooks.sharedDsq.length % 2 ^ 64 := by
  rw [Accounted, Balanced, count_eq_zero fun cpu member => (done cpu member).1,
    count_eq_zero fun cpu member => (done cpu member).2] at accounted
  have below := sys.hooks.nrEnqueued.toNat_lt
  have below' := sys.hooks.nrDispatched.toNat_lt
  rw [UInt64.toNat_sub]
  omega

/--
In every interleaving of the hooks of any CPUs the shared queue implements the
specification, an `rr_enqueue` being its `Enqueue` when it inserts and an
`rr_dispatch` its `Dispatch` when it moves.  The counters account for the queue
up to the CPUs that have yet to count, exactly when there are none.
-/
theorem interleavings_refine (description : Description Task)
    (run : Run (Step cpus) start history sys) (idle : Idle start) :
    (∃ calls spec,
      Answered description (history.map onShared) sys.hooks.sharedDsq.tasks calls spec) ∧
      Balanced sys.hooks (sys.count cpus .inserted) (sys.count cpus .moved) ∧
        ((∀ cpu ∈ cpus, sys.progress cpu ≠ .inserted ∧ sys.progress cpu ≠ .moved) →
          (sys.hooks.nrEnqueued - sys.hooks.nrDispatched).toNat =
            sys.hooks.sharedDsq.length % 2 ^ 64) := by
  have accounted := accounted_of_run run idle
  have empty : start.hooks.sharedDsq.tasks = [] := by
    rw [idle.loaded.sharedDsq]
    rfl
  exact ⟨SchedExt.RoundRobin.answered_of_run description (fun sys => sys.hooks.sharedDsq.tasks)
    onShared Step.queue run empty, accounted, accounted.counted⟩

/-- No CPU is in a hook, and nothing is queued. -/
def quiet : System Nat where
  hooks := idleState
  progress := fun _ => .idle

/-- A task is moved by another CPU, and the move counted, before its insertion is counted. -/
def movedUncounted : List (Action Nat) :=
  [.hook 0 (.initTask 1 true), .stamp 0 1 0 10, .insert 0 1 0, .move 1, .countDispatched 1,
    .stamp 1 2 0 20, .countEnqueued 0, .insert 1 2 0]

theorem movedUncounted_run :
    Run (Step {0, 1}) quiet (trace perform quiet movedUncounted)
      (movedUncounted.foldl perform quiet) :=
  Run.of_trace (step_perform {0, 1}) (by decide)

theorem movedUncounted_refines :
    (∃ calls spec,
      Answered plainRecords ((trace perform quiet movedUncounted).map onShared)
        (movedUncounted.foldl perform quiet).hooks.sharedDsq.tasks calls spec) ∧
      Balanced (movedUncounted.foldl perform quiet).hooks
          ((movedUncounted.foldl perform quiet).count {0, 1} .inserted)
          ((movedUncounted.foldl perform quiet).count {0, 1} .moved) ∧
        ((∀ cpu ∈ ({0, 1} : Finset Nat),
            (movedUncounted.foldl perform quiet).progress cpu ≠ .inserted ∧
              (movedUncounted.foldl perform quiet).progress cpu ≠ .moved) →
          ((movedUncounted.foldl perform quiet).hooks.nrEnqueued -
              (movedUncounted.foldl perform quiet).hooks.nrDispatched).toNat =
            (movedUncounted.foldl perform quiet).hooks.sharedDsq.length % 2 ^ 64) :=
  interleavings_refine plainRecords movedUncounted_run ⟨⟨rfl, rfl, rfl⟩, fun _ => rfl⟩

end SchedExt.Bpf.RoundRobin.Concurrency
