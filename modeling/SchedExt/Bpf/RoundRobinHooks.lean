import SchedExt.Bpf.Helpers

/-!
# The hooks of the round-robin scheduler

The hooks as functions of the task contexts, the shared and the local dispatch
queues and the two counters, with 64-bit arithmetic as in the source.
`rr_enqueue` is also split into the two steps that other CPUs can come between.
-/

namespace SchedExt.Bpf.RoundRobin

open SchedExt.Foundations

/-- `TIME_QUANTUM_NS` -/
def timeQuantumNs : UInt64 := 5000000

/-- `ENOMEM` -/
def enomem : Int := 12

/-- `struct task_ctx` -/
structure TaskCtx where
  enqueueTime : UInt64
  remainingSlice : UInt64
  deriving DecidableEq

structure State (Task : Type) where
  taskCtxMap : TaskStorage Task TaskCtx
  sharedDsq : Dsq Task
  localDsq : Nat → Dsq Task
  nrEnqueued : UInt64
  nrDispatched : UInt64

variable {Task : Type} [DecidableEq Task]

/-! ## Hooks -/

def lookupTaskCtx (s : State Task) (p : Task) : Option TaskCtx :=
  s.taskCtxMap.get p

/-- `scx_bpf_select_cpu_dfl` supplies the CPU and whether it is idle. -/
def rrSelectCpu (s : State Task) (p : Task) (cpu : Nat) (isIdle : Bool) : Nat × State Task :=
  if isIdle then
    (cpu,
      { s with
        localDsq := Function.update s.localDsq cpu
          ((s.localDsq cpu).insert p timeQuantumNs 0) })
  else (cpu, s)

def rrEnqueue (s : State Task) (p : Task) (enqFlags now : UInt64) : State Task :=
  let taskCtxMap :=
    match lookupTaskCtx s p with
    | some tctx =>
        s.taskCtxMap.set p { tctx with enqueueTime := now, remainingSlice := timeQuantumNs }
    | none => s.taskCtxMap
  { s with
    taskCtxMap := taskCtxMap
    sharedDsq := s.sharedDsq.insert p timeQuantumNs enqFlags
    nrEnqueued := s.nrEnqueued + 1 }

def rrDispatch (s : State Task) (cpu : Nat) : Option (DsqEntry Task) × State Task :=
  match s.sharedDsq.moveHead with
  | (none, sharedDsq) => (none, { s with sharedDsq := sharedDsq })
  | (some entry, sharedDsq) =>
      (some entry,
        { s with
          sharedDsq := sharedDsq
          localDsq := Function.update s.localDsq cpu (s.localDsq cpu ++ [entry])
          nrDispatched := s.nrDispatched + 1 })

def rrRunning (s : State Task) (p : Task) (now : UInt64) : State Task :=
  match lookupTaskCtx s p with
  | some tctx => { s with taskCtxMap := s.taskCtxMap.set p { tctx with enqueueTime := now } }
  | none => s

def rrStopping (s : State Task) (p : Task) (now : UInt64) : State Task :=
  match lookupTaskCtx s p with
  | none => s
  | some tctx =>
      let used := now - tctx.enqueueTime
      let remainingSlice :=
        if used ≥ tctx.remainingSlice then 0 else tctx.remainingSlice - used
      { s with taskCtxMap := s.taskCtxMap.set p { tctx with remainingSlice := remainingSlice } }

def rrInitTask (s : State Task) (p : Task) (allocated : Bool) : Int × State Task :=
  let tctxInit : TaskCtx := { enqueueTime := 0, remainingSlice := timeQuantumNs }
  match s.taskCtxMap.getCreate p tctxInit allocated with
  | (some _, taskCtxMap) => (0, { s with taskCtxMap := taskCtxMap })
  | (none, taskCtxMap) => (-enomem, { s with taskCtxMap := taskCtxMap })

/-! ## The two steps of an enqueue -/

/-- Reading the clock and writing the context. -/
def rrEnqueueStamp (s : State Task) (p : Task) (now : UInt64) : State Task :=
  { s with
    taskCtxMap :=
      match lookupTaskCtx s p with
      | some tctx =>
          s.taskCtxMap.set p { tctx with enqueueTime := now, remainingSlice := timeQuantumNs }
      | none => s.taskCtxMap }

/-- Inserting at the tail of the shared queue and counting. -/
def rrEnqueueInsert (s : State Task) (p : Task) (enqFlags : UInt64) : State Task :=
  { s with
    sharedDsq := s.sharedDsq.insert p timeQuantumNs enqFlags
    nrEnqueued := s.nrEnqueued + 1 }

/-- Without interruption the two steps are the hook. -/
theorem rrEnqueueInsert_rrEnqueueStamp (s : State Task) (p : Task) (enqFlags now : UInt64) :
    rrEnqueueInsert (rrEnqueueStamp s p now) p enqFlags = rrEnqueue s p enqFlags now := rfl

/-! ## What the hooks compute -/

/-- The context that `rr_enqueue` leaves in place of one. -/
def refreshed (now : UInt64) (tctx : TaskCtx) : TaskCtx :=
  { tctx with enqueueTime := now, remainingSlice := timeQuantumNs }

/-- The context that `rr_running` leaves in place of one. -/
def started (now : UInt64) (tctx : TaskCtx) : TaskCtx :=
  { tctx with enqueueTime := now }

/-- The context that `rr_stopping` leaves in place of one. -/
def stopped (now : UInt64) (tctx : TaskCtx) : TaskCtx :=
  { tctx with
    remainingSlice :=
      if now - tctx.enqueueTime ≥ tctx.remainingSlice then 0
      else tctx.remainingSlice - (now - tctx.enqueueTime) }

omit [DecidableEq Task] in
@[simp]
theorem rrSelectCpu_taskCtxMap (s : State Task) (p : Task) (cpu : Nat) (isIdle : Bool) :
    (rrSelectCpu s p cpu isIdle).2.taskCtxMap = s.taskCtxMap := by
  cases isIdle <;> rfl

omit [DecidableEq Task] in
@[simp]
theorem rrDispatch_taskCtxMap (s : State Task) (cpu : Nat) :
    (rrDispatch s cpu).2.taskCtxMap = s.taskCtxMap := by
  rw [rrDispatch]
  split <;> rfl

omit [DecidableEq Task] in
theorem rrDispatch_fst (s : State Task) (cpu : Nat) :
    (rrDispatch s cpu).1 = s.sharedDsq.moveHead.1 := by
  rw [rrDispatch]
  split <;> simp_all

omit [DecidableEq Task] in
@[simp]
theorem rrDispatch_sharedDsq (s : State Task) (cpu : Nat) :
    (rrDispatch s cpu).2.sharedDsq = s.sharedDsq.moveHead.2 := by
  rw [rrDispatch]
  split <;> simp_all

@[simp]
theorem rrEnqueueStamp_taskCtxMap (s : State Task) (p : Task) (now : UInt64) :
    (rrEnqueueStamp s p now).taskCtxMap =
      Function.update s.taskCtxMap p ((s.taskCtxMap p).map (refreshed now)) := by
  cases found : s.taskCtxMap p with
  | none =>
      rw [Option.map_none, TaskStorage.update_none found]
      simp only [rrEnqueueStamp, lookupTaskCtx, TaskStorage.get, found]
  | some tctx =>
      simp only [rrEnqueueStamp, lookupTaskCtx, TaskStorage.get, found]
      rfl

@[simp]
theorem rrEnqueue_taskCtxMap (s : State Task) (p : Task) (enqFlags now : UInt64) :
    (rrEnqueue s p enqFlags now).taskCtxMap =
      Function.update s.taskCtxMap p ((s.taskCtxMap p).map (refreshed now)) :=
  rrEnqueueStamp_taskCtxMap s p now

@[simp]
theorem rrRunning_taskCtxMap (s : State Task) (p : Task) (now : UInt64) :
    (rrRunning s p now).taskCtxMap =
      Function.update s.taskCtxMap p ((s.taskCtxMap p).map (started now)) := by
  cases found : s.taskCtxMap p with
  | none =>
      rw [Option.map_none, TaskStorage.update_none found]
      simp only [rrRunning, lookupTaskCtx, TaskStorage.get, found]
  | some tctx =>
      simp only [rrRunning, lookupTaskCtx, TaskStorage.get, found]
      rfl

@[simp]
theorem rrStopping_taskCtxMap (s : State Task) (p : Task) (now : UInt64) :
    (rrStopping s p now).taskCtxMap =
      Function.update s.taskCtxMap p ((s.taskCtxMap p).map (stopped now)) := by
  cases found : s.taskCtxMap p with
  | none =>
      rw [Option.map_none, TaskStorage.update_none found]
      simp only [rrStopping, lookupTaskCtx, TaskStorage.get, found]
  | some tctx =>
      simp only [rrStopping, lookupTaskCtx, TaskStorage.get, found]
      rfl

/-- The context that `rr_init_task` leaves: the present one, or a new one if it is allocated. -/
def initialized (allocated : Bool) (tctx : Option TaskCtx) : Option TaskCtx :=
  match tctx with
  | some tctx => some tctx
  | none => if allocated then some { enqueueTime := 0, remainingSlice := timeQuantumNs } else none

@[simp]
theorem rrInitTask_taskCtxMap (s : State Task) (p : Task) (allocated : Bool) :
    (rrInitTask s p allocated).2.taskCtxMap =
      Function.update s.taskCtxMap p (initialized allocated (s.taskCtxMap p)) := by
  cases found : s.taskCtxMap p with
  | none =>
      cases allocated with
      | true =>
          simp only [rrInitTask, TaskStorage.getCreate, found, initialized]
          rfl
      | false =>
          rw [initialized, if_neg Bool.false_ne_true, TaskStorage.update_none found]
          simp [rrInitTask, TaskStorage.getCreate, found]
  | some tctx =>
      have same : Function.update s.taskCtxMap p (some tctx) = s.taskCtxMap := by
        rw [← found, Function.update_eq_self]
      simp only [rrInitTask, TaskStorage.getCreate, found, initialized, same]

/-- `rr_init_task` succeeds exactly when it leaves a context. -/
theorem rrInitTask_eq_zero_iff (s : State Task) (p : Task) (allocated : Bool) :
    (rrInitTask s p allocated).1 = 0 ↔ initialized allocated (s.taskCtxMap p) ≠ none := by
  cases found : s.taskCtxMap p with
  | none =>
      cases allocated with
      | true => simp [rrInitTask, TaskStorage.getCreate, found, initialized]
      | false => simp [rrInitTask, TaskStorage.getCreate, found, initialized, enomem]
  | some tctx => simp [rrInitTask, TaskStorage.getCreate, found, initialized]

end SchedExt.Bpf.RoundRobin
