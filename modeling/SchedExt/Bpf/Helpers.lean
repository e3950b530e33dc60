import Mathlib.Logic.Function.Basic
import SchedExt.Foundations.FifoLog

/-!
# Kernel helpers

Task-local storage and dispatch queues as the documentation of the helpers
describes them.  Whether an allocation succeeds is an input of the caller.
-/

namespace SchedExt.Bpf

open SchedExt.Foundations

variable {Task Ctx : Type}

/-- `BPF_MAP_TYPE_TASK_STORAGE`: the context of each task that has one. -/
abbrev TaskStorage (Task Ctx : Type) := Task → Option Ctx

namespace TaskStorage

/-- `bpf_task_storage_get` without flags, where `none` is the null pointer. -/
def get (storage : TaskStorage Task Ctx) (p : Task) : Option Ctx :=
  storage p

variable [DecidableEq Task]

/-- A write through the pointer to the context of a task. -/
def set (storage : TaskStorage Task Ctx) (p : Task) (ctx : Ctx) : TaskStorage Task Ctx :=
  Function.update storage p (some ctx)

/-- `bpf_task_storage_get` with `BPF_LOCAL_STORAGE_GET_F_CREATE`, whose allocation may fail. -/
def getCreate (storage : TaskStorage Task Ctx) (p : Task) (init : Ctx) (allocated : Bool) :
    Option Ctx × TaskStorage Task Ctx :=
  match storage p with
  | some ctx => (some ctx, storage)
  | none => if allocated then (some init, storage.set p init) else (none, storage)

/-- A missing context stays missing when it is written back. -/
theorem update_none {storage : TaskStorage Task Ctx} {p : Task} (absent : storage p = none) :
    Function.update storage p none = storage := by
  rw [← absent, Function.update_eq_self]

end TaskStorage

/-- A task on a dispatch queue with the arguments it was inserted with. -/
structure DsqEntry (Task : Type) where
  task : Task
  slice : UInt64
  enqFlags : UInt64
  deriving DecidableEq

/-- A dispatch queue, head first. -/
abbrev Dsq (Task : Type) := List (DsqEntry Task)

namespace Dsq

/-- `scx_bpf_dispatch` and `scx_bpf_dsq_insert`: the task is placed at the tail. -/
def insert (dsq : Dsq Task) (p : Task) (slice enqFlags : UInt64) : Dsq Task :=
  dsq ++ [⟨p, slice, enqFlags⟩]

/-- `scx_bpf_consume` and `scx_bpf_dsq_move_to_local`: the head, if any, is moved away. -/
def moveHead (dsq : Dsq Task) : Option (DsqEntry Task) × Dsq Task :=
  (dsq.head?, dsq.tail)

/-- The tasks on a dispatch queue, head first. -/
def tasks (dsq : Dsq Task) : List Task :=
  dsq.map DsqEntry.task

@[simp]
theorem tasks_insert (dsq : Dsq Task) (p : Task) (slice enqFlags : UInt64) :
    (dsq.insert p slice enqFlags).tasks = dsq.tasks ++ [p] :=
  List.map_append

@[simp]
theorem tasks_moveHead (dsq : Dsq Task) : dsq.moveHead.2.tasks = dsq.tasks.tail :=
  List.map_tail

@[simp]
theorem task_moveHead (dsq : Dsq Task) :
    dsq.moveHead.1.map DsqEntry.task = dsq.tasks.head? :=
  List.head?_map.symm

end Dsq

end SchedExt.Bpf
