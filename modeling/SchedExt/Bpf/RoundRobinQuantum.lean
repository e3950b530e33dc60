import Mathlib.Data.Int.Order.Lemmas
import SchedExt.Bpf.RoundRobinFifo

/-!
# What is left of a quantum

The context of a task changes in the hooks of the task alone, so a run shows
each task a list of moments.  Stopping subtracts the time since the recorded
one and stops at zero; when executions alternate with their ends, what is left
is the quantum less all the time executed since it was last made full.
-/

namespace SchedExt.Bpf.RoundRobin

open SchedExt.Foundations

variable {Task : Type} [DecidableEq Task]

/-- A hook call in any order and with any reading of the clock. -/
def CallStep (s : State Task) (event : Event Task) (s' : State Task) : Prop :=
  s' = performHook s event

/-- What a hook does to the context of a task that has one. -/
inductive Moment where
  | enqueued (now : UInt64)
  | started (now : UInt64)
  | stopped (now : UInt64)
  deriving DecidableEq

namespace Moment

def act (tctx : TaskCtx) : Moment → TaskCtx
  | enqueued now => RoundRobin.refreshed now tctx
  | started now => RoundRobin.started now tctx
  | stopped now => RoundRobin.stopped now tctx

/-- The reading of the clock. -/
def now : Moment → UInt64
  | enqueued now | started now | stopped now => now

end Moment

/-- The moment that a call is for a task. -/
def Event.moment? (p : Task) : Event Task → Option Moment
  | .enqueue q _ now => if q = p then some (.enqueued now) else none
  | .running q _ now => if q = p then some (.started now) else none
  | .stopping q _ now => if q = p then some (.stopped now) else none
  | _ => none

/-- The moments of a task, oldest first. -/
def moments (p : Task) (history : List (Transition (State Task) (Event Task))) : List Moment :=
  (history.map Transition.event).filterMap (Event.moment? p)

/--
Starts and stops alternate, and no enqueue lies between a start and its stop.
The flag says that an execution has been started.
-/
def Alternates : Bool → List Moment → Prop
  | _, [] => True
  | executing, .enqueued _ :: rest => executing = false ∧ Alternates false rest
  | executing, .started _ :: rest => executing = false ∧ Alternates true rest
  | executing, .stopped _ :: rest => executing = true ∧ Alternates false rest

/-- The clock does not run backwards between the moments. -/
def ClockForward (list : List Moment) : Prop :=
  (list.map Moment.now).Pairwise (· ≤ ·)

/--
The time between starts and stops since the last enqueue, if any, in exact
integers, with the start of the present execution and the time before it.
-/
def executed : Int → Int → List Moment → Int
  | _, total, [] => total
  | since, _, .enqueued _ :: rest => executed since 0 rest
  | _, total, .started now :: rest => executed now.toNat total rest
  | since, total, .stopped now :: rest => executed since (total + (now.toNat - since)) rest

/-- The call makes the quantum of a task full: it creates its context or refreshes it. -/
def Fills (p : Task) (taken : Transition (State Task) (Event Task)) : Prop :=
  taken.target.taskCtxMap p ≠ none ∧
    ((∃ enqFlags now, taken.event = .enqueue p enqFlags now) ∨
      ∃ allocated, taken.event = .initTask p allocated ∧ taken.source.taskCtxMap p = none)

/-! ## The context in one call -/

/-- A context stays in place when one is rewritten. -/
theorem update_map {storage : TaskStorage Task TaskCtx} {p : Task}
    {tctx : TaskCtx} (present : storage p = some tctx) (q : Task) (moment : Moment) :
    Function.update storage q ((storage q).map fun tctx => moment.act tctx) p =
      some ((if q = p then some moment else none).elim tctx fun moment => moment.act tctx) := by
  by_cases same : q = p
  · subst same
    rw [Function.update_self, present, if_pos rfl]
    rfl
  · rw [Function.update_of_ne (Ne.symm same), present, if_neg same]
    rfl

theorem moment?_enqueue (p : Task) (enqFlags now : UInt64) :
    (Event.enqueue p enqFlags now).moment? p = some (.enqueued now) := if_pos rfl

theorem moment?_stopping (p : Task) (runnable : Bool) (now : UInt64) :
    (Event.stopping p runnable now).moment? p = some (.stopped now) := if_pos rfl

/-- A context stays, and changes in the moments of its task. -/
theorem context_performHook {s : State Task} {p : Task} {tctx : TaskCtx} (event : Event Task)
    (present : s.taskCtxMap p = some tctx) :
    (performHook s event).taskCtxMap p =
      some ((event.moment? p).elim tctx fun moment => moment.act tctx) := by
  cases event with
  | initTask q allocated =>
      rw [performHook, rrInitTask_taskCtxMap]
      by_cases same : p = q
      · subst same
        rw [Function.update_self, present]
        rfl
      · rw [Function.update_of_ne same, present]
        rfl
  | selectCpu q cpu isIdle now =>
      rw [performHook, rrSelectCpu_taskCtxMap, present]
      rfl
  | enqueue q enqFlags now =>
      rw [performHook, rrEnqueue_taskCtxMap]
      exact update_map present q (.enqueued now)
  | dispatch cpu =>
      rw [performHook, rrDispatch_taskCtxMap, present]
      rfl
  | running q cpu now =>
      rw [performHook, rrRunning_taskCtxMap]
      exact update_map present q (.started now)
  | stopping q runnable now =>
      rw [performHook, rrStopping_taskCtxMap]
      exact update_map present q (.stopped now)

/-- No context appears where one would be rewritten. -/
theorem update_map_none {storage : TaskStorage Task TaskCtx} {p : Task}
    (absent : storage p = none) (q : Task) (rewrite : TaskCtx → TaskCtx) :
    Function.update storage q ((storage q).map rewrite) p = none := by
  by_cases same : p = q
  · subst same
    rw [Function.update_self, absent]
    rfl
  · rw [Function.update_of_ne same, absent]

/-- A context that was not there has been created, with a full quantum. -/
theorem context_created {s : State Task} {p : Task} {tctx : TaskCtx} {event : Event Task}
    (absent : s.taskCtxMap p = none) (created : (performHook s event).taskCtxMap p = some tctx) :
    tctx.remainingSlice = timeQuantumNs := by
  cases event with
  | initTask q allocated =>
      rw [performHook, rrInitTask_taskCtxMap] at created
      by_cases same : p = q
      · subst same
        rw [Function.update_self, absent, initialized] at created
        split at created
        · obtain rfl := Option.some.inj created
          rfl
        · cases created
      · rw [Function.update_of_ne same, absent] at created
        cases created
  | selectCpu q cpu isIdle now =>
      rw [performHook, rrSelectCpu_taskCtxMap, absent] at created
      cases created
  | enqueue q enqFlags now =>
      rw [performHook, rrEnqueue_taskCtxMap, update_map_none absent] at created
      cases created
  | dispatch cpu =>
      rw [performHook, rrDispatch_taskCtxMap, absent] at created
      cases created
  | running q cpu now =>
      rw [performHook, rrRunning_taskCtxMap, update_map_none absent] at created
      cases created
  | stopping q runnable now =>
      rw [performHook, rrStopping_taskCtxMap, update_map_none absent] at created
      cases created

/-! ## What is left after one moment -/

/-- Stopping subtracts in exact integers, and stops at zero. -/
theorem toNat_stopped (now : UInt64) (tctx : TaskCtx) :
    (stopped now tctx).remainingSlice.toNat =
      tctx.remainingSlice.toNat - (now - tctx.enqueueTime).toNat := by
  unfold stopped
  dsimp only
  split
  · rename_i used
    exact (Nat.sub_eq_zero_of_le (UInt64.le_iff_toNat_le.mp used)).symm
  · rename_i left
    exact UInt64.toNat_sub_of_le _ _ (UInt64.le_of_lt (UInt64.not_le.mp left))

theorem Moment.act_remainingSlice_le {tctx : TaskCtx}
    (bounded : tctx.remainingSlice ≤ timeQuantumNs) (moment : Moment) :
    (moment.act tctx).remainingSlice ≤ timeQuantumNs := by
  cases moment with
  | enqueued now => exact UInt64.le_refl _
  | started now => exact bounded
  | stopped now =>
      apply UInt64.le_iff_toNat_le.mpr
      unfold Moment.act
      rw [toNat_stopped]
      exact Nat.le_trans (Nat.sub_le _ _) (UInt64.le_iff_toNat_le.mp bounded)

/-! ## What is left after many -/

/-- Alternating executions leave the quantum less the time they took. -/
theorem remainingSlice_foldl {executing : Bool} {list : List Moment} {tctx : TaskCtx}
    {since total : Int} (alternates : Alternates executing list) (clock : ClockForward list)
    (recorded : executing = true →
      since = tctx.enqueueTime.toNat ∧ ∀ moment ∈ list, tctx.enqueueTime ≤ moment.now)
    (left : (tctx.remainingSlice.toNat : Int) = max 0 (timeQuantumNs.toNat - total)) :
    ((list.foldl Moment.act tctx).remainingSlice.toNat : Int) =
      max 0 (timeQuantumNs.toNat - executed since total list) := by
  induction list generalizing executing tctx since total with
  | nil => exact left
  | cons moment rest ih =>
      obtain ⟨forward, clockRest⟩ := List.pairwise_cons.mp clock
      rw [List.foldl_cons]
      cases moment with
      | enqueued now =>
          obtain ⟨rfl, onward⟩ := alternates
          exact ih onward clockRest (fun impossible => Bool.noConfusion impossible) rfl
      | started now =>
          obtain ⟨rfl, onward⟩ := alternates
          refine ih onward clockRest (fun _ => ⟨rfl, fun later member => ?_⟩) left
          exact forward later.now (List.mem_map_of_mem member)
      | stopped now =>
          obtain ⟨rfl, onward⟩ := alternates
          obtain ⟨rfl, ordered⟩ := recorded rfl
          refine ih onward clockRest (fun impossible => Bool.noConfusion impossible) ?_
          have elapsed : (now - tctx.enqueueTime).toNat = now.toNat - tctx.enqueueTime.toNat :=
            UInt64.toNat_sub_of_le _ _ (ordered _ List.mem_cons_self)
          have order := UInt64.le_iff_toNat_le.mp (ordered _ List.mem_cons_self)
          unfold Moment.act
          rw [toNat_stopped, elapsed]
          change tctx.enqueueTime.toNat ≤ now.toNat at order
          omega

/-! ## Runs -/

variable {start s : State Task} {history : List (Transition (State Task) (Event Task))}

theorem moments_concat (p : Task) (history : List (Transition (State Task) (Event Task)))
    (taken : Transition (State Task) (Event Task)) :
    moments p (history ++ [taken]) = moments p history ++ (taken.event.moment? p).toList := by
  unfold moments
  rw [List.map_append, List.filterMap_append, List.map_singleton]
  cases shown : taken.event.moment? p with
  | none => rw [List.filterMap_cons_none shown, List.filterMap_nil, Option.toList_none]
  | some moment => rw [List.filterMap_cons_some shown, List.filterMap_nil, Option.toList_some]

/-- The moments of a task are all that happens to its context. -/
theorem context_of_run {p : Task} {tctx : TaskCtx} (run : Run CallStep start history s)
    (present : start.taskCtxMap p = some tctx) :
    s.taskCtxMap p = some ((moments p history).foldl Moment.act tctx) := by
  induction run with
  | refl => exact present
  | @tail history state next event earlier last ih =>
      obtain rfl : next = performHook state event := last
      rw [context_performHook event ih, moments_concat, List.foldl_append]
      cases event.moment? p with
      | none => rfl
      | some moment => rfl

/-- No slice is longer than the quantum. -/
def Bounded (s : State Task) : Prop :=
  ∀ p tctx, s.taskCtxMap p = some tctx → tctx.remainingSlice ≤ timeQuantumNs

theorem Bounded.step {event : Event Task} (bounded : Bounded s) :
    Bounded (performHook s event) := by
  intro p tctx present
  cases before : s.taskCtxMap p with
  | none =>
      rw [context_created before present]
      exact UInt64.le_refl _
  | some earlier =>
      rw [context_performHook event before] at present
      obtain rfl := Option.some.inj present
      have full := bounded p earlier before
      cases event.moment? p with
      | none => exact full
      | some moment => exact moment.act_remainingSlice_le full

/-- A call that makes the quantum full leaves a context with all of it. -/
theorem Fills.remainingSlice {p : Task} {source target : State Task} {event : Event Task}
    (fills : Fills p ⟨source, event, target⟩) (step : CallStep source event target) :
    ∃ tctx, target.taskCtxMap p = some tctx ∧ tctx.remainingSlice = timeQuantumNs := by
  obtain ⟨present, filled⟩ := fills
  obtain rfl : target = performHook source event := step
  obtain ⟨tctx, found⟩ := Option.ne_none_iff_exists'.mp present
  refine ⟨tctx, found, ?_⟩
  cases before : source.taskCtxMap p with
  | none => exact context_created before found
  | some earlier =>
      rcases filled with ⟨enqFlags, now, rfl⟩ | ⟨allocated, rfl, absent⟩
      · have rewritten := context_performHook (.enqueue p enqFlags now) before
        rw [moment?_enqueue] at rewritten
        obtain rfl := Option.some.inj (found.symm.trans rewritten)
        rfl
      · cases before.symm.trans absent

/-- What a run leaves of the quanta of its tasks. -/
structure QuantumAccounted (history : List (Transition (State Task) (Event Task))) : Prop where
  bounded : ∀ taken ∈ history, ∀ p tctx, taken.target.taskCtxMap p = some tctx →
    tctx.remainingSlice ≤ timeQuantumNs
  saturates : ∀ source p runnable now target,
    ⟨source, .stopping p runnable now, target⟩ ∈ history →
      ∀ before, source.taskCtxMap p = some before →
        ∃ after, target.taskCtxMap p = some after ∧
          (after.remainingSlice.toNat : Int) =
            max 0 ((before.remainingSlice.toNat : Int) - (now - before.enqueueTime).toNat)
  accounted : ∀ p before filling between source runnable now target after,
    history = before ++ filling ::
      (between ++ ⟨source, .stopping p runnable now, target⟩ :: after) →
    Fills p filling →
    Alternates false (moments p between ++ [.stopped now]) →
    ClockForward (moments p between ++ [.stopped now]) →
      ∃ tctx, target.taskCtxMap p = some tctx ∧
        (tctx.remainingSlice.toNat : Int) =
          max 0 (timeQuantumNs.toNat - executed 0 0 (moments p between ++ [.stopped now]))

/-- Stopping a task that has a context subtracts the time since the recorded one, down to zero. -/
theorem CallStep.stopped {p : Task} {runnable : Bool} {now : UInt64} {before : TaskCtx}
    {source target : State Task} (step : CallStep source (.stopping p runnable now) target)
    (present : source.taskCtxMap p = some before) :
    ∃ after, target.taskCtxMap p = some after ∧
      (after.remainingSlice.toNat : Int) =
        max 0 ((before.remainingSlice.toNat : Int) - (now - before.enqueueTime).toNat) := by
  obtain rfl : target = performHook source (.stopping p runnable now) := step
  refine ⟨RoundRobin.stopped now before, ?_, ?_⟩
  · rw [context_performHook _ present, moment?_stopping]
    rfl
  · rw [toNat_stopped]
    omega

/-- From a full quantum, alternating executions leave the quantum less the time they took. -/
theorem accounted_of_run {p : Task} {filling : Transition (State Task) (Event Task)}
    {between : List (Transition (State Task) (Event Task))}
    (opening : CallStep filling.source filling.event filling.target) (fills : Fills p filling)
    (run : Run CallStep filling.target between s)
    (alternates : Alternates false (moments p between)) (clock : ClockForward (moments p between)) :
    ∃ tctx, s.taskCtxMap p = some tctx ∧
      (tctx.remainingSlice.toNat : Int) =
        max 0 (timeQuantumNs.toNat - executed 0 0 (moments p between)) := by
  obtain ⟨tctx, present, full⟩ := fills.remainingSlice opening
  refine ⟨_, context_of_run run present, ?_⟩
  have left : (tctx.remainingSlice.toNat : Int) = max 0 (timeQuantumNs.toNat - 0) := by
    rw [full]
    rfl
  exact remainingSlice_foldl alternates clock (fun impossible => Bool.noConfusion impossible) left

/--
After every `rr_stopping` of a task the quantum is what its executions left of
it, whatever the hooks of other tasks did; in any order and with any clock a
slice stays within the quantum and is never subtracted from below zero.
-/
theorem quantumAccounted_of_run (noContexts : ∀ p, start.taskCtxMap p = none)
    (run : Run CallStep start history s) : QuantumAccounted history where
  bounded := by
    have initial : Bounded start := by
      intro p tctx present
      cases (noContexts p).symm.trans present
    refine run.forall_mem initial ?_ ?_
    · rintro before event _ bounded rfl
      exact bounded.step
    · rintro before event _ bounded rfl
      exact bounded.step
  saturates := by
    intro source p runnable now target member before present
    exact CallStep.stopped (run.steps _ member) present
  accounted := by
    intro p before filling between source runnable now target after whole fills alternates clock
    subst whole
    obtain ⟨_, opening, later⟩ := run.split
    obtain ⟨first, last, _⟩ := later.split
    have shown : moments p (between ++ [⟨source, .stopping p runnable now, target⟩]) =
        moments p between ++ [.stopped now] := by
      rw [moments_concat, moment?_stopping, Option.toList_some]
    rw [← shown] at alternates clock ⊢
    exact accounted_of_run opening fills (.tail first last) alternates clock

/-- A task executes twice after an enqueue, the second time beyond its quantum. -/
def twoExecutions : List (Event Nat) :=
  [.initTask 1 true, .initTask 2 true, .enqueue 1 0 10, .running 1 0 30, .running 2 1 35,
    .stopping 1 true 40, .running 1 0 50, .stopping 1 true 6000000]

theorem callStep_performHook (s : State Nat) (event : Event Nat) (_ : True) :
    CallStep s event (performHook s event) := rfl

theorem twoExecutions_quantumAccounted :
    QuantumAccounted (trace performHook idleState twoExecutions) :=
  quantumAccounted_of_run (fun _ => rfl)
    (Run.of_trace callStep_performHook fun _ _ => trivial)

end SchedExt.Bpf.RoundRobin
