import SchedExt.Bpf.Helpers

/-!
# The hooks of the fair scheduler

`s_enqueue`, `s_dispatch` and `s_running` as functions of the task contexts and
the global dispatch queue, with 64-bit arithmetic as in the source.  Inputs of
a call are what the kernel supplies: the task, its weight, the time and
whether an allocation succeeds.
-/

namespace SchedExt.Bpf.Fair

open SchedExt.Foundations

/-- `NICE_0_WEIGHT` -/
def nice0Weight : UInt32 := 1024

/-- `SCX_SLICE_DFL` -/
def scxSliceDfl : UInt64 := 20000000

/-- `struct task_ctx` -/
structure TaskCtx where
  vruntime : UInt64
  enqueueTime : UInt64
  deriving DecidableEq

structure State (Task : Type) where
  taskCtxMap : TaskStorage Task TaskCtx
  globalDsq : Dsq Task

variable {Task : Type} [DecidableEq Task]

/-! ## Helpers and hooks -/

def getTaskCtx (taskCtxMap : TaskStorage Task TaskCtx) (p : Task) (allocated : Bool) :
    Option TaskCtx × TaskStorage Task TaskCtx :=
  match taskCtxMap.get p with
  | some ctx => (some ctx, taskCtxMap)
  | none => taskCtxMap.getCreate p { vruntime := 0, enqueueTime := 0 } allocated

def calcDeltaVruntime (wallNs : UInt64) (weight : UInt32) : UInt64 :=
  let weight := if weight = 0 then nice0Weight else weight
  wallNs * nice0Weight.toUInt64 / weight.toUInt64

def sEnqueue (s : State Task) (p : Task) (enqFlags : UInt64) (allocated : Bool)
    (now : UInt64) : State Task :=
  match getTaskCtx s.taskCtxMap p allocated with
  | (none, taskCtxMap) => { s with taskCtxMap := taskCtxMap }
  | (some ctx, taskCtxMap) =>
      { taskCtxMap := taskCtxMap.set p { ctx with enqueueTime := now }
        globalDsq := s.globalDsq.insert p scxSliceDfl enqFlags }

def sDispatch (s : State Task) : Option (DsqEntry Task) × State Task :=
  let (moved, globalDsq) := s.globalDsq.moveHead
  (moved, { s with globalDsq := globalDsq })

def sRunning (s : State Task) (p : Task) (allocated : Bool) (weight : UInt32)
    (now : UInt64) : State Task :=
  match getTaskCtx s.taskCtxMap p allocated with
  | (none, taskCtxMap) => { s with taskCtxMap := taskCtxMap }
  | (some ctx, taskCtxMap) =>
      let wallNs := now - ctx.enqueueTime
      let delta := calcDeltaVruntime wallNs weight
      { s with taskCtxMap := taskCtxMap.set p { ctx with vruntime := ctx.vruntime + delta } }

/-! ## Calls and runs -/

/-- A hook call with its inputs and, for `s_dispatch`, the task it moves to the calling CPU. -/
inductive Call (Task : Type) where
  | enqueue (p : Task) (enqFlags : UInt64) (allocated : Bool) (now : UInt64)
  | dispatch (cpu : Nat) (moved : Option Task)
  | running (p : Task) (allocated : Bool) (weight : UInt32) (now : UInt64)
  deriving DecidableEq

/-- The called hook takes the state before to the state after, in one step. -/
inductive Step : State Task → Call Task → State Task → Prop where
  | enqueue (s : State Task) (p : Task) (enqFlags : UInt64) (allocated : Bool) (now : UInt64) :
      Step s (.enqueue p enqFlags allocated now) (sEnqueue s p enqFlags allocated now)
  | dispatch (s : State Task) (cpu : Nat) :
      Step s (.dispatch cpu ((sDispatch s).1.map DsqEntry.task)) (sDispatch s).2
  | running (s : State Task) (p : Task) (allocated : Bool) (weight : UInt32) (now : UInt64) :
      Step s (.running p allocated weight now) (sRunning s p allocated weight now)

/-- The state after a call, computed from the call alone. -/
def perform (s : State Task) : Call Task → State Task
  | .enqueue p enqFlags allocated now => sEnqueue s p enqFlags allocated now
  | .dispatch _ _ => (sDispatch s).2
  | .running p allocated weight now => sRunning s p allocated weight now

/-- The recorded task of a dispatch is the one the hook moves. -/
def Answers (s : State Task) : Call Task → Prop
  | .dispatch _ moved => moved = (sDispatch s).1.map DsqEntry.task
  | _ => True

instance (s : State Task) (call : Call Task) : Decidable (Answers s call) := by
  cases call <;> unfold Answers <;> infer_instance

theorem step_perform (s : State Task) (call : Call Task) (answers : Answers s call) :
    Step s call (perform s call) := by
  cases call with
  | enqueue p enqFlags allocated now => exact .enqueue s p enqFlags allocated now
  | dispatch cpu moved =>
      obtain rfl : moved = (sDispatch s).1.map DsqEntry.task := answers
      exact .dispatch s cpu
  | running p allocated weight now => exact .running s p allocated weight now

/-- The times that the hooks read, in the order of the calls. -/
def Call.time? : Call Task → Option UInt64
  | .enqueue _ _ _ now => some now
  | .dispatch _ _ => none
  | .running _ _ _ now => some now

/-- The clock never runs backwards. -/
def Nondecreasing (calls : List (Call Task)) : Prop :=
  (calls.filterMap Call.time?).Pairwise (· ≤ ·)

instance (calls : List (Call Task)) : Decidable (Nondecreasing calls) :=
  inferInstanceAs (Decidable (List.Pairwise _ _))

/-! ## What the hooks compute -/

/-- The context a call finds or creates for a task. -/
def obtained (ctx : Option TaskCtx) (allocated : Bool) : Option TaskCtx :=
  match ctx with
  | some ctx => some ctx
  | none => if allocated then some { vruntime := 0, enqueueTime := 0 } else none

theorem obtained_isSome_iff {ctx : Option TaskCtx} {allocated : Bool} :
    (obtained ctx allocated).isSome ↔ ctx ≠ none ∨ allocated := by
  cases ctx with
  | none => cases allocated <;> simp [obtained]
  | some ctx => simp [obtained]

theorem getTaskCtx_eq (taskCtxMap : TaskStorage Task TaskCtx) (p : Task) (allocated : Bool) :
    getTaskCtx taskCtxMap p allocated =
      (obtained (taskCtxMap p) allocated,
        Function.update taskCtxMap p (obtained (taskCtxMap p) allocated)) := by
  cases found : taskCtxMap p with
  | some ctx =>
      have same : Function.update taskCtxMap p (some ctx) = taskCtxMap := by
        rw [← found, Function.update_eq_self]
      simp only [getTaskCtx, TaskStorage.get, found, obtained, same]
  | none =>
      have same := TaskStorage.update_none found
      cases allocated with
      | true => simp [getTaskCtx, TaskStorage.get, TaskStorage.getCreate, found, obtained,
          TaskStorage.set]
      | false => simp [getTaskCtx, TaskStorage.get, TaskStorage.getCreate, found, obtained, same]

/-- What a call makes of the context of a task. -/
def Call.onContext (p : Task) (ctx : Option TaskCtx) : Call Task → Option TaskCtx
  | .enqueue q _ allocated now =>
      if q = p then (obtained ctx allocated).map fun ctx => { ctx with enqueueTime := now }
      else ctx
  | .dispatch _ _ => ctx
  | .running q allocated weight now =>
      if q = p then (obtained ctx allocated).map fun ctx =>
        { ctx with
          vruntime := ctx.vruntime + calcDeltaVruntime (now - ctx.enqueueTime) weight }
      else ctx

/-- No call takes a context away. -/
theorem Call.onContext_ne_none {p : Task} {ctx : Option TaskCtx} (found : ctx ≠ none)
    (call : Call Task) : call.onContext p ctx ≠ none := by
  obtain ⟨ctx, rfl⟩ := Option.ne_none_iff_exists'.mp found
  cases call with
  | enqueue q enqFlags allocated now =>
      by_cases same : q = p
      · simp [onContext, same, obtained]
      · simp [onContext, same]
  | dispatch cpu moved => exact found
  | running q allocated weight now =>
      by_cases same : q = p
      · simp [onContext, same, obtained]
      · simp [onContext, same]

/-- What a call does to the global dispatch queue. -/
def onQueue (taken : Transition (State Task) (Call Task)) : FifoAction Task :=
  match taken.event with
  | .enqueue p _ allocated _ =>
      if (obtained (taken.source.taskCtxMap p) allocated).isSome then .append p else .keep
  | .dispatch _ moved => .remove moved
  | .running _ _ _ _ => .keep

variable {s s' start : State Task} {call : Call Task}
variable {history : List (Transition (State Task) (Call Task))}

theorem sEnqueue_taskCtxMap (q : Task) (enqFlags : UInt64) (allocated : Bool) (now : UInt64) :
    (sEnqueue s q enqFlags allocated now).taskCtxMap =
      Function.update s.taskCtxMap q
        ((obtained (s.taskCtxMap q) allocated).map fun ctx => { ctx with enqueueTime := now }) := by
  simp only [sEnqueue, getTaskCtx_eq]
  cases obtained (s.taskCtxMap q) allocated with
  | none => rfl
  | some ctx => exact Function.update_idem _ _ _

theorem sRunning_taskCtxMap (q : Task) (allocated : Bool) (weight : UInt32) (now : UInt64) :
    (sRunning s q allocated weight now).taskCtxMap =
      Function.update s.taskCtxMap q
        ((obtained (s.taskCtxMap q) allocated).map fun ctx =>
          { ctx with
            vruntime := ctx.vruntime + calcDeltaVruntime (now - ctx.enqueueTime) weight }) := by
  simp only [sRunning, getTaskCtx_eq]
  cases obtained (s.taskCtxMap q) allocated with
  | none => rfl
  | some ctx => exact Function.update_idem _ _ _

theorem update_context (taskCtxMap : TaskStorage Task TaskCtx)
    (change : Option TaskCtx → Option TaskCtx) (q p : Task) :
    Function.update taskCtxMap q (change (taskCtxMap q)) p =
      if q = p then change (taskCtxMap p) else taskCtxMap p := by
  by_cases same : q = p
  · rw [if_pos same, same, Function.update_self]
  · rw [if_neg same, Function.update_of_ne (Ne.symm same)]

/-- A call acts on the context of every task by itself. -/
theorem Step.context (step : Step s call s') (p : Task) :
    s'.taskCtxMap p = call.onContext p (s.taskCtxMap p) := by
  cases step with
  | enqueue q enqFlags allocated now =>
      rw [sEnqueue_taskCtxMap]
      exact update_context s.taskCtxMap (fun ctx => (obtained ctx allocated).map _) q p
  | dispatch cpu => rfl
  | running q allocated weight now =>
      rw [sRunning_taskCtxMap]
      exact update_context s.taskCtxMap (fun ctx => (obtained ctx allocated).map _) q p

/-- A call acts on the global dispatch queue as on a first-in first-out queue. -/
theorem Step.queue (step : Step s call s') :
    FifoAction.Acts s.globalDsq.tasks (onQueue ⟨s, call, s'⟩) s'.globalDsq.tasks := by
  cases step with
  | enqueue p enqFlags allocated now =>
      simp only [sEnqueue, getTaskCtx_eq, onQueue]
      cases obtained (s.taskCtxMap p) allocated with
      | none => exact .keep _
      | some ctx =>
          simp only [Option.isSome_some, if_true, Dsq.tasks_insert]
          exact .append _ p
  | dispatch cpu =>
      simp only [sDispatch, onQueue, Dsq.task_moveHead, Dsq.tasks_moveHead]
      exact .remove _
  | running p allocated weight now =>
      simp only [sRunning, getTaskCtx_eq, onQueue]
      cases obtained (s.taskCtxMap p) allocated with
      | none => exact .keep _
      | some ctx => exact .keep _

/-- The context that calls make of a given one for a task. -/
def contextAfter (p : Task) (ctx : Option TaskCtx) (calls : List (Call Task)) : Option TaskCtx :=
  calls.foldl (Call.onContext p) ctx

theorem contextAfter_concat (p : Task) (ctx : Option TaskCtx) (calls : List (Call Task))
    (call : Call Task) :
    contextAfter p ctx (calls ++ [call]) = call.onContext p (contextAfter p ctx calls) := by
  rw [contextAfter, List.foldl_append]
  rfl

theorem contextAfter_ne_none {p : Task} {ctx : Option TaskCtx} (found : ctx ≠ none)
    (calls : List (Call Task)) : contextAfter p ctx calls ≠ none := by
  induction calls generalizing ctx with
  | nil => exact found
  | cons call rest ih => exact ih (call.onContext_ne_none found)

/-- The context of a task is a function of the calls. -/
theorem context_of_run (run : Run Step start history s) (p : Task) :
    s.taskCtxMap p = contextAfter p (start.taskCtxMap p) (history.map Transition.event) := by
  induction run with
  | refl => rfl
  | tail earlier last ih =>
      rw [List.map_append, List.map_singleton, contextAfter_concat, ← ih]
      exact last.context p

/-- No task has a context yet and none is queued. -/
def fresh : State Nat where
  taskCtxMap _ := none
  globalDsq := []

end SchedExt.Bpf.Fair
