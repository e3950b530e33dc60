import SchedExt.Bpf.RoundRobinHooks

/-!
# Task contexts along the lifecycle of tasks

The kernel calls the hooks of a task in the order of its lifecycle.
`rr_enqueue` refreshes the context of the task it inserts.  The direct insert
of `rr_select_cpu` leaves the context as the last hooks of the task left it.
-/

namespace SchedExt.Bpf.RoundRobin

open SchedExt.Foundations

/-- Where a task is in its lifecycle. -/
inductive Phase where
  | absent
  | asleep
  | selected
  | queued
  | executing
  | preempted
  deriving DecidableEq

/-- The scheduler with the phase in which the kernel keeps each task. -/
structure Lifecycle (Task : Type) where
  hooks : State Task
  phase : Task → Phase

variable {Task : Type} [DecidableEq Task]

/-- The CPU takes a task from its local dispatch queue. -/
def State.picked (s : State Task) (cpu : Nat) (p : Task) : State Task :=
  { s with
    localDsq := Function.update s.localDsq cpu
      ((s.localDsq cpu).eraseP fun entry => entry.task = p) }

/-- A hook call with its inputs and the time at which it is made. -/
inductive Event (Task : Type) where
  | initTask (p : Task) (allocated : Bool)
  | selectCpu (p : Task) (cpu : Nat) (isIdle : Bool) (now : UInt64)
  | enqueue (p : Task) (enqFlags now : UInt64)
  | dispatch (cpu : Nat)
  | running (p : Task) (cpu : Nat) (now : UInt64)
  | stopping (p : Task) (runnable : Bool) (now : UInt64)
  deriving DecidableEq

/-- The phases in which the kernel makes a call. -/
def Calls (sys : Lifecycle Task) : Event Task → Prop
  | .initTask p _ => sys.phase p = .absent
  | .selectCpu p _ _ _ => sys.phase p = .asleep
  | .enqueue p _ _ => sys.phase p = .selected ∨ sys.phase p = .preempted
  | .dispatch _ => True
  | .running p _ _ => sys.phase p = .queued
  | .stopping p _ _ => sys.phase p = .executing

instance (sys : Lifecycle Task) (event : Event Task) : Decidable (Calls sys event) := by
  cases event <;> unfold Calls <;> infer_instance

/-- The hook is executed and the kernel moves its task to the next phase. -/
def perform (sys : Lifecycle Task) : Event Task → Lifecycle Task
  | .initTask p allocated =>
      let (result, hooks) := rrInitTask sys.hooks p allocated
      { hooks := hooks
        phase := if result = 0 then Function.update sys.phase p .asleep else sys.phase }
  | .selectCpu p cpu isIdle _ =>
      { hooks := (rrSelectCpu sys.hooks p cpu isIdle).2
        phase := Function.update sys.phase p (if isIdle then .queued else .selected) }
  | .enqueue p enqFlags now =>
      { hooks := rrEnqueue sys.hooks p enqFlags now
        phase := Function.update sys.phase p .queued }
  | .dispatch cpu => { sys with hooks := (rrDispatch sys.hooks cpu).2 }
  | .running p cpu now =>
      { hooks := rrRunning (sys.hooks.picked cpu p) p now
        phase := Function.update sys.phase p .executing }
  | .stopping p runnable now =>
      { hooks := rrStopping sys.hooks p now
        phase := Function.update sys.phase p (if runnable then .preempted else .asleep) }

/-- A call in the order of the lifecycle. -/
def Step (sys : Lifecycle Task) (event : Event Task) (sys' : Lifecycle Task) : Prop :=
  Calls sys event ∧ sys' = perform sys event

theorem step_perform (sys : Lifecycle Task) (event : Event Task) (calls : Calls sys event) :
    Step sys event (perform sys event) :=
  ⟨calls, rfl⟩

/-- The time of a call at which the clock is read or a task is inserted. -/
def Event.time? : Event Task → Option UInt64
  | .initTask _ _ => none
  | .selectCpu _ _ _ now => some now
  | .enqueue _ _ now => some now
  | .dispatch _ => none
  | .running _ _ now => some now
  | .stopping _ _ now => some now

/-- The clock never runs backwards. -/
def Nondecreasing (events : List (Event Task)) : Prop :=
  (events.filterMap Event.time?).Pairwise (· ≤ ·)

instance (events : List (Event Task)) : Decidable (Nondecreasing events) :=
  inferInstanceAs (Decidable (List.Pairwise _ _))

/-- The task that a call inserts into a dispatch queue, and when. -/
def Event.inserted? : Event Task → Option (Task × UInt64)
  | .selectCpu p _ true now => some (p, now)
  | .enqueue p _ now => some (p, now)
  | _ => none

/-- A task is inserted with a full slice and the time of the insertion in its context. -/
def InsertsFresh (taken : Transition (Lifecycle Task) (Event Task)) : Prop :=
  ∀ p now, taken.event.inserted? = some (p, now) →
    taken.target.hooks.taskCtxMap p =
      some { enqueueTime := now, remainingSlice := timeQuantumNs }

omit [DecidableEq Task] in
theorem State.localDsq_selectCpu (s : State Task) (p : Task) (cpu : Nat) :
    (rrSelectCpu s p cpu true).2.localDsq cpu = (s.localDsq cpu).insert p timeQuantumNs 0 :=
  Function.update_self _ _ _

omit [DecidableEq Task] in
/-- Tasks are inserted by `rr_enqueue`, and by `rr_select_cpu` on an idle CPU. -/
theorem Event.inserted_cases {event : Event Task} {p : Task} {now : UInt64}
    (inserted : event.inserted? = some (p, now)) :
    (∃ cpu, event = .selectCpu p cpu true now) ∨
      ∃ enqFlags, event = .enqueue p enqFlags now := by
  cases event with
  | selectCpu q cpu isIdle time =>
      cases isIdle with
      | false => cases inserted
      | true =>
          obtain ⟨rfl, rfl⟩ := Prod.mk.inj (Option.some.inj inserted)
          exact .inl ⟨cpu, rfl⟩
  | enqueue q enqFlags time =>
      obtain ⟨rfl, rfl⟩ := Prod.mk.inj (Option.some.inj inserted)
      exact .inr ⟨enqFlags, rfl⟩
  | initTask q allocated => cases inserted
  | dispatch cpu => cases inserted
  | running q cpu time => cases inserted
  | stopping q runnable time => cases inserted

/-- A recorded insertion puts its task at the tail of a queue, with a full slice. -/
theorem perform_inserts {sys : Lifecycle Task} {event : Event Task} {p : Task} {now : UInt64}
    (inserted : event.inserted? = some (p, now)) :
    (∃ cpu, (perform sys event).hooks.localDsq cpu =
        (sys.hooks.localDsq cpu).insert p timeQuantumNs 0) ∨
      ∃ enqFlags, (perform sys event).hooks.sharedDsq =
        sys.hooks.sharedDsq.insert p timeQuantumNs enqFlags := by
  rcases Event.inserted_cases inserted with ⟨cpu, rfl⟩ | ⟨enqFlags, rfl⟩
  · exact Or.inl ⟨cpu, State.localDsq_selectCpu sys.hooks p cpu⟩
  · exact Or.inr ⟨enqFlags, rfl⟩

/-! ## What the calls leave in a context -/

/-- When a task was last stamped, and whether it has used nothing of its slice since its refresh. -/
structure Ledger where
  stamped : UInt64
  unspent : Bool
  deriving DecidableEq

def Event.onLedger (p : Task) (ledger : Ledger) : Event Task → Ledger
  | .initTask q _ => if q = p then { stamped := 0, unspent := true } else ledger
  | .selectCpu _ _ _ _ => ledger
  | .enqueue q _ now => if q = p then { stamped := now, unspent := true } else ledger
  | .dispatch _ => ledger
  | .running q _ now => if q = p then { ledger with stamped := now } else ledger
  | .stopping q _ now =>
      if q = p then { ledger with unspent := ledger.unspent && now == ledger.stamped }
      else ledger

/--
The ledger of a task: it is stamped by `rr_enqueue` and `rr_running`, refreshed
by `rr_init_task` and `rr_enqueue`, and spent by an execution that takes time.
-/
def ledger (p : Task) (events : List (Event Task)) : Ledger :=
  events.foldl (Event.onLedger p) { stamped := 0, unspent := true }

/--
Whenever an idle CPU is found, the task was stamped at that very time and none
of its executions since its last refresh took any time.
-/
def DirectInsertsFresh (history : List (Transition (Lifecycle Task) (Event Task))) : Prop :=
  ∀ front taken back, history = front ++ taken :: back →
    ∀ p cpu now, taken.event = .selectCpu p cpu true now →
      ledger p (front.map Transition.event) = { stamped := now, unspent := true }

/-- A subtraction that stops at zero keeps a quantum only if nothing is taken from all of it. -/
theorem saturating_sub_eq_iff {used slice quantum : UInt64} (bounded : slice ≤ quantum)
    (positive : 0 < quantum) :
    (if used ≥ slice then 0 else slice - used) ≤ quantum ∧
      ((if used ≥ slice then 0 else slice - used) = quantum ↔ slice = quantum ∧ used = 0) := by
  split
  case isTrue exhausted =>
      refine ⟨UInt64.le_of_lt positive, ?_, ?_⟩
      · rintro rfl
        exact absurd positive (UInt64.lt_irrefl _)
      · rintro ⟨rfl, rfl⟩
        exact absurd (UInt64.lt_of_lt_of_le positive exhausted) (UInt64.lt_irrefl _)
  case isFalse remaining =>
      have within : used ≤ slice := UInt64.le_of_lt (UInt64.not_le.mp remaining)
      have smaller : slice - used ≤ slice := UInt64.sub_le within
      refine ⟨UInt64.le_trans smaller bounded, ?_, ?_⟩
      · intro full
        have whole : slice = quantum := UInt64.le_antisymm bounded (full ▸ smaller)
        rw [whole] at full
        exact ⟨whole, (UInt64.sub_right_inj quantum).mp (full.trans (UInt64.sub_zero _).symm)⟩
      · rintro ⟨rfl, rfl⟩
        exact UInt64.sub_zero _

/-- Stopping never fills a slice, and leaves it full only if it was and no time passed. -/
theorem stopped_remainingSlice {tctx : TaskCtx} {now : UInt64}
    (bounded : tctx.remainingSlice ≤ timeQuantumNs) :
    (stopped now tctx).remainingSlice ≤ timeQuantumNs ∧
      ((stopped now tctx).remainingSlice = timeQuantumNs ↔
        tctx.remainingSlice = timeQuantumNs ∧ now = tctx.enqueueTime) := by
  have unused : now = tctx.enqueueTime ↔ now - tctx.enqueueTime = 0 := by
    rw [UInt64.sub_eq_iff_eq_add, UInt64.zero_add]
  rw [unused]
  exact saturating_sub_eq_iff bounded (by decide)

/-- A context agrees with a ledger. -/
structure Agrees (ledger : Ledger) (tctx : TaskCtx) : Prop where
  stamped : tctx.enqueueTime = ledger.stamped
  bounded : tctx.remainingSlice ≤ timeQuantumNs
  full : tctx.remainingSlice = timeQuantumNs ↔ ledger.unspent = true

namespace Agrees

theorem initial :
    Agrees { stamped := 0, unspent := true }
      { enqueueTime := 0, remainingSlice := timeQuantumNs } :=
  ⟨rfl, UInt64.le_refl _, by simp⟩

theorem refresh (now : UInt64) (tctx : TaskCtx) :
    Agrees { stamped := now, unspent := true } (refreshed now tctx) :=
  ⟨rfl, UInt64.le_refl _, by simp [refreshed]⟩

variable {ledger : Ledger} {tctx : TaskCtx}

theorem start (now : UInt64) (agrees : Agrees ledger tctx) :
    Agrees { ledger with stamped := now } (started now tctx) :=
  ⟨rfl, agrees.bounded, agrees.full⟩

theorem stop (now : UInt64) (agrees : Agrees ledger tctx) :
    Agrees { ledger with unspent := ledger.unspent && now == ledger.stamped }
      (stopped now tctx) := by
  obtain ⟨bounded, full⟩ := @stopped_remainingSlice tctx now agrees.bounded
  refine ⟨agrees.stamped, bounded, ?_⟩
  rw [full, agrees.full, agrees.stamped, Bool.and_eq_true, beq_iff_eq]

/-- The ledger tells whether a context is as an insertion at a given time has to leave it. -/
theorem fresh_iff (agrees : Agrees ledger tctx) (now : UInt64) :
    tctx = { enqueueTime := now, remainingSlice := timeQuantumNs } ↔
      ledger = { stamped := now, unspent := true } := by
  rw [TaskCtx.mk.injEq, Ledger.mk.injEq, agrees.stamped, agrees.full]

end Agrees

/-- A task has a context once it is initialised, which agrees with its ledger. -/
structure Tracks (sys : Lifecycle Task) (p : Task) (ledger : Ledger) : Prop where
  absent : sys.phase p = .absent → sys.hooks.taskCtxMap p = none
  present : sys.phase p ≠ .absent →
    ∃ tctx, sys.hooks.taskCtxMap p = some tctx ∧ Agrees ledger tctx

/-- The task that a call is about. -/
def Event.task? : Event Task → Option Task
  | .initTask p _ => some p
  | .selectCpu p _ _ _ => some p
  | .enqueue p _ _ => some p
  | .dispatch _ => none
  | .running p _ _ => some p
  | .stopping p _ _ => some p

/-- A call leaves the phase, the context and the ledger of every other task alone. -/
theorem perform_of_other {sys : Lifecycle Task} {event : Event Task} {p : Task}
    (other : event.task? ≠ some p) (ledger : Ledger) :
    (perform sys event).phase p = sys.phase p ∧
      (perform sys event).hooks.taskCtxMap p = sys.hooks.taskCtxMap p ∧
        event.onLedger p ledger = ledger := by
  cases event with
  | dispatch cpu => exact ⟨rfl, by simp [perform], rfl⟩
  | initTask q allocated =>
      have different : q ≠ p := fun same => other (congrArg some same)
      refine ⟨?_, ?_, if_neg different⟩
      · simp only [perform]
        split
        · exact Function.update_of_ne different.symm _ _
        · rfl
      · simp [perform, different.symm]
  | selectCpu q cpu isIdle now =>
      have different : q ≠ p := fun same => other (congrArg some same)
      exact ⟨Function.update_of_ne different.symm _ _, by simp [perform], rfl⟩
  | enqueue q enqFlags now =>
      have different : q ≠ p := fun same => other (congrArg some same)
      exact ⟨Function.update_of_ne different.symm _ _, by simp [perform, different.symm],
        if_neg different⟩
  | running q cpu now =>
      have different : q ≠ p := fun same => other (congrArg some same)
      exact ⟨Function.update_of_ne different.symm _ _,
        by simp [perform, State.picked, different.symm], if_neg different⟩
  | stopping q runnable now =>
      have different : q ≠ p := fun same => other (congrArg some same)
      exact ⟨Function.update_of_ne different.symm _ _, by simp [perform, different.symm],
        if_neg different⟩

omit [DecidableEq Task] in
theorem initialised_of_enqueue {sys : Lifecycle Task} {p : Task} {enqFlags now : UInt64}
    (calls : Calls sys (.enqueue p enqFlags now)) : sys.phase p ≠ .absent := by
  rcases calls with selected | preempted
  · exact selected ▸ by decide
  · exact preempted ▸ by decide

namespace Tracks

variable {sys sys' : Lifecycle Task} {p : Task} {ledger : Ledger}

omit [DecidableEq Task] in
/-- A task in a phase after its initialisation has a context. -/
theorem context (tracks : Tracks sys p ledger) {phase : Phase} (reached : sys.phase p = phase)
    (initialised : phase ≠ .absent) :
    ∃ tctx, sys.hooks.taskCtxMap p = some tctx ∧ Agrees ledger tctx :=
  tracks.present (reached ▸ initialised)

omit [DecidableEq Task] in
/-- A context that agrees is enough in a phase after the initialisation. -/
theorem of_context {phase : Phase} {tctx : TaskCtx} (reached : sys.phase p = phase)
    (initialised : phase ≠ .absent) (found : sys.hooks.taskCtxMap p = some tctx)
    (agrees : Agrees ledger tctx) :
    Tracks sys p ledger :=
  ⟨fun absent => absurd (reached.symm.trans absent) initialised, fun _ => ⟨tctx, found, agrees⟩⟩

/-- A task is initialised with a fresh context, or stays without one. -/
theorem initTask {allocated : Bool} (tracks : Tracks sys p ledger)
    (calls : Calls sys (.initTask p allocated)) :
    Tracks (perform sys (.initTask p allocated)) p
      (Event.onLedger p ledger (.initTask p allocated)) := by
  have found : sys.hooks.taskCtxMap p = none := tracks.absent calls
  have succeeds := rrInitTask_eq_zero_iff sys.hooks p allocated
  rw [found] at succeeds
  rw [Event.onLedger, if_pos rfl]
  cases allocated with
  | true =>
      have success : (rrInitTask sys.hooks p true).1 = 0 := succeeds.mpr (by simp [initialized])
      have reached : (perform sys (.initTask p true)).phase p = .asleep := by
        simp [perform, success]
      exact of_context reached (by decide) (by simp [perform, found, initialized]) .initial
  | false =>
      have failure : ¬(rrInitTask sys.hooks p false).1 = 0 := by
        rw [succeeds]
        simp [initialized]
      refine ⟨fun _ => by simp [perform, found, initialized], fun present => ?_⟩
      simp only [perform, if_neg failure] at present
      exact absurd calls present

/-- Every call of the lifecycle keeps context and ledger in agreement. -/
theorem step {event : Event Task} (tracks : Tracks sys p ledger) (taken : Step sys event sys') :
    Tracks sys' p (event.onLedger p ledger) := by
  obtain ⟨calls, rfl⟩ := taken
  by_cases own : event.task? = some p
  case neg =>
      obtain ⟨phaseEq, contextEq, ledgerEq⟩ := perform_of_other own ledger
      rw [ledgerEq]
      exact ⟨fun absent => contextEq.trans (tracks.absent (phaseEq ▸ absent)),
        fun present => contextEq ▸ tracks.present (phaseEq ▸ present)⟩
  cases event with
  | dispatch cpu => cases own
  | initTask q allocated =>
      obtain rfl : q = p := Option.some.inj own
      exact tracks.initTask calls
  | selectCpu q cpu isIdle now =>
      obtain rfl : q = p := Option.some.inj own
      obtain ⟨tctx, found, agrees⟩ := tracks.context calls (by decide)
      refine of_context (Function.update_self _ _ _) ?_ (by simp [perform, found]) agrees
      split <;> decide
  | enqueue q enqFlags now =>
      obtain rfl : q = p := Option.some.inj own
      obtain ⟨tctx, found, _⟩ := tracks.present (initialised_of_enqueue calls)
      rw [Event.onLedger, if_pos rfl]
      exact of_context (Function.update_self _ _ _) (by decide) (by simp [perform, found])
        (.refresh now tctx)
  | running q cpu now =>
      obtain rfl : q = p := Option.some.inj own
      obtain ⟨tctx, found, agrees⟩ := tracks.context calls (by decide)
      rw [Event.onLedger, if_pos rfl]
      exact of_context (Function.update_self _ _ _) (by decide)
        (by simp [perform, State.picked, found]) (agrees.start now)
  | stopping q runnable now =>
      obtain rfl : q = p := Option.some.inj own
      obtain ⟨tctx, found, agrees⟩ := tracks.context calls (by decide)
      rw [Event.onLedger, if_pos rfl]
      refine of_context (Function.update_self _ _ _) ?_ (by simp [perform, found])
        (agrees.stop now)
      split <;> decide

end Tracks

/-- The scheduler before any task is initialised. -/
def Unstarted (sys : Lifecycle Task) : Prop :=
  ∀ p, sys.phase p = .absent ∧ sys.hooks.taskCtxMap p = none

/-- In every reachable state the ledger of a task tells what is in its context. -/
theorem tracks_of_run {start sys : Lifecycle Task}
    {history : List (Transition (Lifecycle Task) (Event Task))}
    (run : Run Step start history sys) (unstarted : Unstarted start) (p : Task) :
    Tracks sys p (ledger p (history.map Transition.event)) := by
  induction run with
  | refl => exact ⟨fun _ => (unstarted p).2, fun present => absurd (unstarted p).1 present⟩
  | tail earlier last ih =>
      rw [List.map_append, ledger, List.foldl_append]
      exact ih.step last

/-! ## Insertions -/

/-- `rr_enqueue` always leaves a fresh context. -/
theorem enqueue_fresh {sys : Lifecycle Task} {p : Task} {enqFlags now : UInt64} {balance : Ledger}
    (tracks : Tracks sys p balance) (calls : Calls sys (.enqueue p enqFlags now)) :
    (perform sys (.enqueue p enqFlags now)).hooks.taskCtxMap p =
      some { enqueueTime := now, remainingSlice := timeQuantumNs } := by
  obtain ⟨tctx, found, _⟩ := tracks.present (initialised_of_enqueue calls)
  simp [perform, found, refreshed]

/-- `rr_select_cpu` leaves a fresh context if the ledger says that it was one. -/
theorem selectCpu_fresh_iff {sys : Lifecycle Task} {p : Task} {cpu : Nat} {now : UInt64}
    {balance : Ledger} (tracks : Tracks sys p balance)
    (calls : Calls sys (.selectCpu p cpu true now)) :
    (perform sys (.selectCpu p cpu true now)).hooks.taskCtxMap p =
        some { enqueueTime := now, remainingSlice := timeQuantumNs } ↔
      balance = { stamped := now, unspent := true } := by
  obtain ⟨tctx, found, agrees⟩ := tracks.context calls (by decide)
  rw [← agrees.fresh_iff now]
  simp [perform, found]

/-- A call inserts a fresh task unless it inserts directly and the ledger is not fresh. -/
theorem Step.insertsFresh_iff {sys sys' : Lifecycle Task} {event : Event Task}
    {ledgers : Task → Ledger} (step : Step sys event sys')
    (tracks : ∀ p, Tracks sys p (ledgers p)) :
    InsertsFresh ⟨sys, event, sys'⟩ ↔
      ∀ p cpu now, event = .selectCpu p cpu true now →
        ledgers p = { stamped := now, unspent := true } := by
  obtain ⟨calls, rfl⟩ := step
  constructor
  · rintro inserts p cpu now rfl
    exact (selectCpu_fresh_iff (tracks p) calls).mp (inserts p now rfl)
  · intro direct p now inserted
    rcases Event.inserted_cases inserted with ⟨cpu, rfl⟩ | ⟨enqFlags, rfl⟩
    · exact (selectCpu_fresh_iff (tracks p) calls).mpr (direct p cpu now rfl)
    · exact enqueue_fresh (tracks p) calls

/-- The two insertion paths agree exactly when every direct insert finds a fresh ledger. -/
theorem insertsFresh_iff_directInsertsFresh {start sys : Lifecycle Task}
    {history : List (Transition (Lifecycle Task) (Event Task))}
    (run : Run Step start history sys) (unstarted : Unstarted start) :
    (∀ taken ∈ history, InsertsFresh taken) ↔ DirectInsertsFresh history := by
  constructor
  · rintro fresh front taken back rfl
    obtain ⟨earlier, last, _⟩ := run.split
    exact (last.insertsFresh_iff (tracks_of_run earlier unstarted)).mp
      (fresh taken (List.mem_append_right _ List.mem_cons_self))
  · intro direct taken member
    obtain ⟨front, back, rfl⟩ := List.append_of_mem member
    obtain ⟨earlier, last, _⟩ := run.split
    exact (last.insertsFresh_iff (tracks_of_run earlier unstarted)).mpr
      (direct front taken back rfl)

/-- Nothing is initialised and nothing is queued. -/
def unstarted : Lifecycle Nat where
  hooks :=
    { taskCtxMap := fun _ => none
      sharedDsq := []
      localDsq := fun _ => []
      nrEnqueued := 0
      nrDispatched := 0 }
  phase := fun _ => .absent

/-- A task uses a part of its slice, blocks, and is woken when a CPU is idle. -/
def wokenOnIdle : List (Event Nat) :=
  [.initTask 1 true, .selectCpu 1 0 false 10, .enqueue 1 0 10, .dispatch 0, .running 1 0 20,
    .stopping 1 false 1000020, .selectCpu 1 0 true 2000000]

/-- The state in which the task is woken. -/
def beforeWakeup : Lifecycle Nat :=
  (wokenOnIdle.take 6).foldl perform unstarted

theorem wokenOnIdle_run :
    Run Step unstarted (trace perform unstarted wokenOnIdle)
      (wokenOnIdle.foldl perform unstarted) :=
  Run.of_trace step_perform (by decide)

theorem wokenOnIdle_fresh_iff :
    (∀ taken ∈ trace perform unstarted wokenOnIdle, InsertsFresh taken) ↔
      DirectInsertsFresh (trace perform unstarted wokenOnIdle) :=
  insertsFresh_iff_directInsertsFresh wokenOnIdle_run fun _ => ⟨rfl, rfl⟩

/-- The task is inserted with a full slice, its context with 4000000 ns left and an old time. -/
theorem spent_context_inserted :
    ¬ ∀ (start sys : Lifecycle Nat) (history : List (Transition (Lifecycle Nat) (Event Nat))),
      Unstarted start → Run Step start history sys →
        Nondecreasing (history.map Transition.event) →
          ∀ taken ∈ history, InsertsFresh taken := by
  intro fresh
  have inserts := fresh _ _ _ (fun _ => ⟨rfl, rfl⟩) wokenOnIdle_run (by decide)
    ⟨beforeWakeup, .selectCpu 1 0 true 2000000, perform beforeWakeup (.selectCpu 1 0 true 2000000)⟩
    (by simp [wokenOnIdle, trace, beforeWakeup])
  have found : (perform beforeWakeup (.selectCpu 1 0 true 2000000)).hooks.taskCtxMap 1 =
      some { enqueueTime := 20, remainingSlice := 4000000 } := by
    decide
  exact absurd (found.symm.trans (inserts 1 2000000 rfl)) (by decide)

end SchedExt.Bpf.RoundRobin
