import SchedExt.Bpf.RoundRobinHooks

/-!
# Enqueues of several CPUs on the shared queue

All CPUs insert into one queue, and other CPUs can come between the clock read
of an `rr_enqueue` and its insertion.  The queue is in the order of the
recorded times exactly when no enqueue is overtaken by a later one.
-/

namespace SchedExt.Bpf.RoundRobin.Interleaving

open SchedExt.Foundations

/-- The scheduler, the task that each CPU has yet to insert, and the last time that was read. -/
structure System (Task : Type) where
  hooks : State Task
  pending : Nat → Option Task
  clock : UInt64

variable {Task : Type} [DecidableEq Task]

/-- The two steps of `rr_enqueue` and the one of `rr_dispatch`, which shows the task it moves. -/
inductive Event (Task : Type) where
  | stamp (cpu : Nat) (p : Task) (now : UInt64)
  | insert (cpu : Nat) (p : Task) (enqFlags : UInt64)
  | dispatch (cpu : Nat) (moved : Option Task)
  deriving DecidableEq

/--
A CPU executes one hook at a time, and a task is enqueued only while it is
neither on the shared queue nor in the middle of another enqueue.
-/
def Allowed (sys : System Task) : Event Task → Prop
  | .stamp cpu p now =>
      sys.pending cpu = none ∧ (∀ other, sys.pending other ≠ some p) ∧
        p ∉ sys.hooks.sharedDsq.tasks ∧ sys.hooks.taskCtxMap p ≠ none ∧ sys.clock ≤ now
  | .insert cpu p _ => sys.pending cpu = some p
  | .dispatch cpu moved =>
      sys.pending cpu = none ∧ moved = (rrDispatch sys.hooks cpu).1.map DsqEntry.task

def perform (sys : System Task) : Event Task → System Task
  | .stamp cpu p now =>
      { hooks := rrEnqueueStamp sys.hooks p now
        pending := Function.update sys.pending cpu (some p)
        clock := now }
  | .insert cpu p enqFlags =>
      { sys with
        hooks := rrEnqueueInsert sys.hooks p enqFlags
        pending := Function.update sys.pending cpu none }
  | .dispatch cpu _ => { sys with hooks := (rrDispatch sys.hooks cpu).2 }

/-- A step of one CPU. -/
def Step (sys : System Task) (event : Event Task) (sys' : System Task) : Prop :=
  Allowed sys event ∧ sys' = perform sys event

/-- `ctx->enqueue_time` -/
def enqueueTime (s : State Task) (p : Task) : Option UInt64 :=
  (s.taskCtxMap p).map TaskCtx.enqueueTime

/-- The recorded enqueue time of one task is at most that of another. -/
def NotLater (s : State Task) (p q : Task) : Prop :=
  ∃ earlier later, enqueueTime s p = some earlier ∧ enqueueTime s q = some later ∧
    earlier ≤ later

/-- `FIFOOrdered` -/
def FIFOOrdered (s : State Task) : Prop :=
  s.sharedDsq.tasks.Pairwise (NotLater s)

/-- A dispatch moves a task with the least recorded enqueue time. -/
def TakesLeast (taken : Transition (System Task) (Event Task)) : Prop :=
  ∀ cpu p, taken.event = .dispatch cpu (some p) →
    ∀ q ∈ taken.source.hooks.sharedDsq.tasks, NotLater taken.source.hooks p q

/--
When a task is inserted, every other task that was stamped at a later time and
inserted since it was stamped has been dispatched.
-/
def NotOvertaken (events : List (Event Task)) : Prop :=
  ∀ before cpu p now between enqFlags after,
    events = before ++ .stamp cpu p now :: (between ++ .insert cpu p enqFlags :: after) →
      (∀ other time, .stamp other p time ∉ between) →
        ∀ early other q later middle flags late,
          between = early ++ .stamp other q later :: (middle ++ .insert other q flags :: late) →
            now < later → ∃ taker, .dispatch taker (some q) ∈ late

/-! ## What one step does -/

/-- What a step does to the shared queue. -/
def Event.onQueue : Event Task → FifoAction Task
  | .stamp _ _ _ => .keep
  | .insert _ p _ => .append p
  | .dispatch _ moved => .remove moved

variable {sys sys' : System Task} {event : Event Task}

@[simp]
theorem enqueueTime_stamp_self {s : State Task} {p : Task} (present : s.taskCtxMap p ≠ none)
    (now : UInt64) : enqueueTime (rrEnqueueStamp s p now) p = some now := by
  obtain ⟨tctx, found⟩ := Option.ne_none_iff_exists'.mp present
  simp [enqueueTime, found, refreshed]

theorem enqueueTime_stamp_of_ne (s : State Task) {p q : Task} (different : q ≠ p) (now : UInt64) :
    enqueueTime (rrEnqueueStamp s p now) q = enqueueTime s q := by
  simp [enqueueTime, different]

namespace Step

/-- The shared queue is a first-in first-out queue. -/
theorem queue (step : Step sys event sys') :
    FifoAction.Acts sys.hooks.sharedDsq.tasks event.onQueue sys'.hooks.sharedDsq.tasks := by
  obtain ⟨allowed, rfl⟩ := step
  cases event with
  | stamp cpu p now => exact .keep _
  | insert cpu p enqFlags =>
      have appended : (perform sys (.insert cpu p enqFlags)).hooks.sharedDsq.tasks =
          sys.hooks.sharedDsq.tasks ++ [p] := Dsq.tasks_insert _ _ _ _
      rw [appended]
      exact .append _ p
  | dispatch cpu moved =>
      obtain ⟨_, rfl⟩ := allowed
      have removed : (perform sys (.dispatch cpu
          ((rrDispatch sys.hooks cpu).1.map DsqEntry.task))).hooks.sharedDsq.tasks =
            sys.hooks.sharedDsq.tasks.tail := by
        simp [perform]
      rw [removed, rrDispatch_fst, Dsq.task_moveHead]
      exact .remove _

/-- The clock never runs backwards. -/
theorem clock_le (step : Step sys event sys') : sys.clock ≤ sys'.clock := by
  obtain ⟨allowed, rfl⟩ := step
  cases event with
  | stamp cpu p now => exact allowed.2.2.2.2
  | insert cpu p enqFlags => exact UInt64.le_refl _
  | dispatch cpu moved => exact UInt64.le_refl _

/-- Only its own clock reads change the recorded time of a task. -/
theorem enqueueTime_eq (step : Step sys event sys') {q : Task}
    (unstamped : ∀ cpu now, event ≠ .stamp cpu q now) :
    enqueueTime sys'.hooks q = enqueueTime sys.hooks q := by
  obtain ⟨_, rfl⟩ := step
  cases event with
  | stamp cpu p now =>
      have different : q ≠ p := fun same => unstamped cpu now (same ▸ rfl)
      exact enqueueTime_stamp_of_ne sys.hooks different now
  | insert cpu p enqFlags => rfl
  | dispatch cpu moved => simp [perform, enqueueTime]

/-- A task is pending after a step because it was stamped, or was pending and not inserted. -/
theorem pending_cases (step : Step sys event sys') {cpu : Nat} {p : Task}
    (pending : sys'.pending cpu = some p) :
    (∃ now, event = .stamp cpu p now) ∨
      sys.pending cpu = some p ∧ ∀ enqFlags, event ≠ .insert cpu p enqFlags := by
  obtain ⟨allowed, rfl⟩ := step
  cases event with
  | stamp other q now =>
      simp only [perform, Function.update_apply] at pending
      split at pending
      case isTrue own =>
          obtain rfl : q = p := Option.some.inj pending
          exact Or.inl ⟨now, own ▸ rfl⟩
      case isFalse _ => exact Or.inr ⟨pending, fun _ same => nomatch same⟩
  | insert other q enqFlags =>
      simp only [perform, Function.update_apply] at pending
      split at pending
      case isTrue _ => cases pending
      case isFalse different =>
          exact Or.inr ⟨pending, fun _ same => different (Event.insert.inj same).1.symm⟩
  | dispatch other moved => exact Or.inr ⟨pending, fun _ same => nomatch same⟩

/-- A clock read is recorded. -/
theorem enqueueTime_stamp {cpu : Nat} {p : Task} {now : UInt64}
    (step : Step sys (.stamp cpu p now) sys') : enqueueTime sys'.hooks p = some now := by
  obtain ⟨allowed, rfl⟩ := step
  exact enqueueTime_stamp_self allowed.2.2.2.1 now

/-- The clock shows the time that was read last. -/
theorem clock_stamp {cpu : Nat} {p : Task} {now : UInt64}
    (step : Step sys (.stamp cpu p now) sys') : sys'.clock = now := by
  rw [step.2, perform]

end Step

/-- No task is in the middle of two enqueues, or of one and on the queue, or on the queue twice. -/
structure Exclusive (sys : System Task) : Prop where
  single : ∀ {cpu other p}, sys.pending cpu = some p → sys.pending other = some p → cpu = other
  apart : ∀ {cpu p}, sys.pending cpu = some p → p ∉ sys.hooks.sharedDsq.tasks
  nodup : sys.hooks.sharedDsq.tasks.Nodup

omit [DecidableEq Task] in
theorem Event.eq_insert {p : Task} (appends : event.onQueue = .append p) :
    ∃ cpu enqFlags, event = .insert cpu p enqFlags := by
  cases event with
  | stamp cpu q now => cases appends
  | insert cpu q enqFlags =>
      obtain rfl : q = p := FifoAction.append.inj appends
      exact ⟨cpu, enqFlags, rfl⟩
  | dispatch cpu moved => cases appends

omit [DecidableEq Task] in
theorem Event.eq_dispatch {p : Task} (removes : event.onQueue = .remove (some p)) :
    ∃ cpu, event = .dispatch cpu (some p) := by
  cases event with
  | stamp cpu q now => cases removes
  | insert cpu q enqFlags => cases removes
  | dispatch cpu moved =>
      obtain rfl : moved = some p := FifoAction.remove.inj removes
      exact ⟨cpu, rfl⟩

/-- Every step keeps the tasks apart. -/
theorem Exclusive.step (exclusive : Exclusive sys) (step : Step sys event sys') :
    Exclusive sys' where
  single := by
    intro cpu other p here there
    rcases step.pending_cases here with ⟨now, rfl⟩ | ⟨here, _⟩
    · rcases step.pending_cases there with ⟨time, same⟩ | ⟨there, _⟩
      · exact (Event.stamp.inj same).1
      · exact absurd there (step.1.2.1 other)
    · rcases step.pending_cases there with ⟨time, rfl⟩ | ⟨there, _⟩
      · exact absurd here (step.1.2.1 cpu)
      · exact exclusive.single here there
  apart := by
    intro cpu p pending member
    rcases step.queue.mem member with queued | appends
    · rcases step.pending_cases pending with ⟨now, rfl⟩ | ⟨before, _⟩
      · exact step.1.2.2.1 queued
      · exact exclusive.apart before queued
    · obtain ⟨other, enqFlags, rfl⟩ := Event.eq_insert appends
      rcases step.pending_cases pending with ⟨now, stamps⟩ | ⟨before, others⟩
      · cases stamps
      · obtain rfl : cpu = other := exclusive.single before step.1
        exact others enqFlags rfl
  nodup := by
    refine step.queue.nodup exclusive.nodup fun p appends => ?_
    obtain ⟨cpu, enqFlags, rfl⟩ := Event.eq_insert appends
    exact exclusive.apart step.1

/-- The shared queue is empty and no CPU is in the middle of an enqueue. -/
structure Idle (sys : System Task) : Prop where
  queue : sys.hooks.sharedDsq.tasks = []
  pending : ∀ cpu, sys.pending cpu = none

omit [DecidableEq Task] in
theorem Idle.exclusive (idle : Idle sys) : Exclusive sys where
  single := by
    intro cpu other p here _
    rw [idle.pending cpu] at here
    cases here
  apart := by
    intro cpu p here _
    rw [idle.pending cpu] at here
    cases here
  nodup := by
    rw [idle.queue]
    exact List.nodup_nil

/-! ## Where a task has come from -/

variable {start : System Task} {history : List (Transition (System Task) (Event Task))}

/-- In every run from an idle start the tasks are kept apart before each step. -/
theorem exclusive_of_run (run : Run Step start history sys) (idle : Idle start) :
    ∀ taken ∈ history, Exclusive taken.source :=
  run.forall_mem idle.exclusive Exclusive.step fun exclusive _ => exclusive

theorem clock_le_of_run (run : Run Step start history sys) : start.clock ≤ sys.clock :=
  run.carries (start.clock ≤ ·.clock)
    (fun taken member bound => UInt64.le_trans bound (run.steps taken member).clock_le)
    (UInt64.le_refl _)

/-- A recorded time stays until the next clock read for the task. -/
theorem enqueueTime_of_run (run : Run Step start history sys) {p : Task}
    (unstamped : ∀ cpu now, .stamp cpu p now ∉ history.map Transition.event) :
    enqueueTime sys.hooks p = enqueueTime start.hooks p := by
  refine run.carries (fun s => enqueueTime s.hooks p = enqueueTime start.hooks p)
    (fun taken member same => ?_) rfl
  rw [← same]
  refine (run.steps taken member).enqueueTime_eq fun cpu now stamps => unstamped cpu now ?_
  rw [← stamps]
  exact List.mem_map_of_mem member

/-- A task that a CPU has yet to insert was stamped by it, and not again since. -/
theorem stamped_of_pending (run : Run Step start history sys) (idle : Idle start) {cpu : Nat}
    {p : Task} (pending : sys.pending cpu = some p) :
    ∃ before now between,
      history.map Transition.event = before ++ .stamp cpu p now :: between ∧
        (∀ other time, .stamp other p time ∉ between) ∧
          enqueueTime sys.hooks p = some now := by
  have initially : ¬ start.pending cpu = some p := by
    rw [idle.pending cpu]
    simp
  obtain ⟨before, taken, after, rfl, missing, gained, since⟩ :=
    run.acquired (fun s => s.pending cpu = some p) initially pending
  obtain ⟨_, last, rest⟩ := run.split
  rcases last.pending_cases gained with ⟨now, stamps⟩ | ⟨already, _⟩
  · have unstamped (other : Nat) (time : UInt64) :
        .stamp other p time ∉ after.map Transition.event := by
      intro member
      obtain ⟨later, inside, again⟩ := List.mem_map.mp member
      have allowed := (rest.steps later inside).1
      rw [again] at allowed
      exact allowed.2.1 cpu (since later inside).1
    refine ⟨before.map Transition.event, now, after.map Transition.event, ?_, unstamped, ?_⟩
    · rw [List.map_append, List.map_cons, stamps]
    · rw [stamps] at last
      rw [enqueueTime_of_run rest unstamped, last.enqueueTime_stamp]
  · exact absurd already missing

/-- A task on the queue was stamped, then inserted by a CPU, and neither stamped nor moved since. -/
theorem inserted_of_queued (run : Run Step start history sys) (idle : Idle start) {p : Task}
    (queued : p ∈ sys.hooks.sharedDsq.tasks) :
    ∃ before cpu now middle enqFlags since,
      history.map Transition.event =
          before ++ .stamp cpu p now :: (middle ++ .insert cpu p enqFlags :: since) ∧
        (∀ other, .dispatch other (some p) ∉ since) ∧ enqueueTime sys.hooks p = some now := by
  have initially : ¬ p ∈ start.hooks.sharedDsq.tasks := by
    rw [idle.queue]
    exact List.not_mem_nil
  obtain ⟨front, taken, after, rfl, missing, gained, since⟩ :=
    run.acquired (fun s => p ∈ s.hooks.sharedDsq.tasks) initially queued
  obtain ⟨earlier, last, rest⟩ := run.split
  obtain ⟨cpu, enqFlags, inserts⟩ : ∃ cpu enqFlags, taken.event = .insert cpu p enqFlags := by
    rcases last.queue.mem gained with already | appends
    · exact absurd already missing
    · exact Event.eq_insert appends
  rw [inserts] at last
  obtain ⟨before, now, middle, whole, _, recorded⟩ := stamped_of_pending earlier idle last.1
  refine ⟨before, cpu, now, middle, enqFlags, after.map Transition.event, ?_, ?_, ?_⟩
  · rw [List.map_append, List.map_cons, inserts, whole, List.append_assoc, List.cons_append]
  · intro other member
    obtain ⟨later, inside, dispatches⟩ := List.mem_map.mp member
    have exclusive := exclusive_of_run run idle later
      (List.mem_append_right _ (List.mem_cons_of_mem _ inside))
    have acts := (rest.steps later inside).queue
    rw [dispatches] at acts
    exact acts.not_mem_of_removed exclusive.nodup (since later inside).2
  · rw [← recorded, ← last.enqueueTime_eq (fun _ _ same => nomatch same)]
    refine enqueueTime_of_run rest fun other time member => ?_
    obtain ⟨later, inside, stamps⟩ := List.mem_map.mp member
    have allowed := (rest.steps later inside).1
    rw [stamps] at allowed
    exact allowed.2.2.1 (since later inside).1

/-! ## When the queue is in order -/

/-- A task that is on the queue stays there unless it is dispatched. -/
theorem queued_of_run (run : Run Step start history sys) {p : Task}
    (queued : p ∈ start.hooks.sharedDsq.tasks)
    (undispatched : ∀ cpu, .dispatch cpu (some p) ∉ history.map Transition.event) :
    p ∈ sys.hooks.sharedDsq.tasks := by
  refine run.carries (fun s => p ∈ s.hooks.sharedDsq.tasks) (fun taken member before => ?_) queued
  rcases (run.steps taken member).queue.mem_or_removed before with after | removes
  · exact after
  · obtain ⟨cpu, dispatches⟩ := Event.eq_dispatch removes
    refine absurd ?_ (undispatched cpu)
    rw [← dispatches]
    exact List.mem_map_of_mem member

/-- A time that has passed and is at most the one recorded for a task. -/
def RecordedSince (p : Task) (time : UInt64) (sys : System Task) : Prop :=
  ∃ later, enqueueTime sys.hooks p = some later ∧ time ≤ later ∧ time ≤ sys.clock

theorem RecordedSince.step {p : Task} {time : UInt64} (recorded : RecordedSince p time sys)
    (step : Step sys event sys') : RecordedSince p time sys' := by
  obtain ⟨later, found, after, past⟩ := recorded
  have pastNext : time ≤ sys'.clock := UInt64.le_trans past step.clock_le
  by_cases stamps : ∃ cpu now, event = .stamp cpu p now
  · obtain ⟨cpu, now, rfl⟩ := stamps
    exact ⟨now, step.enqueueTime_stamp, UInt64.le_trans past step.1.2.2.2.2, pastNext⟩
  · have same := step.enqueueTime_eq fun cpu now same => stamps ⟨cpu, now, same⟩
    exact ⟨later, same.trans found, after, pastNext⟩

/-- A clock read before another one gives a time that is not later. -/
theorem stamps_ordered {cpu other : Nat} {p q : Task} {time now : UInt64}
    {before middle after : List (Event Task)} (run : Run Step start history sys)
    (whole : history.map Transition.event =
      before ++ .stamp cpu p time :: (middle ++ .stamp other q now :: after)) :
    time ≤ now := by
  obtain ⟨_, _, _, _, _, _, rest, _, first, run⟩ := run.split_event whole
  obtain ⟨_, _, _, _, _, _, _, between, second, _⟩ := run.split_event rest
  rw [← first.clock_stamp]
  exact UInt64.le_trans (clock_le_of_run between) second.1.2.2.2.2

/-- The queue is in order and dispatched in order. -/
def KeepsOrder (history : List (Transition (System Task) (Event Task))) : Prop :=
  ∀ taken ∈ history, FIFOOrdered taken.target.hooks ∧ TakesLeast taken

/-- A step keeps the order if a task is inserted only behind tasks that are not later. -/
theorem FIFOOrdered.step (ordered : FIFOOrdered sys.hooks) (step : Step sys event sys')
    (behind : ∀ cpu p enqFlags, event = .insert cpu p enqFlags →
      ∀ q ∈ sys.hooks.sharedDsq.tasks, NotLater sys.hooks q p) :
    FIFOOrdered sys'.hooks := by
  have kept : sys'.hooks.sharedDsq.tasks.Pairwise (NotLater sys.hooks) := by
    refine step.queue.pairwise ordered fun p appends => ?_
    obtain ⟨cpu, enqFlags, inserts⟩ := Event.eq_insert appends
    exact behind cpu p enqFlags inserts
  have sameTime : ∀ p ∈ sys'.hooks.sharedDsq.tasks,
      enqueueTime sys'.hooks p = enqueueTime sys.hooks p := by
    intro p member
    refine step.enqueueTime_eq fun cpu now stamps => ?_
    rw [stamps] at step
    rcases step.queue.mem member with queued | appends
    · exact step.1.2.2.1 queued
    · cases appends
  refine kept.imp_of_mem fun {p q} pMem qMem notLater => ?_
  rw [NotLater, sameTime p pMem, sameTime q qMem]
  exact notLater

/-- From a queue in order a dispatch takes a task with the least recorded time. -/
theorem FIFOOrdered.takesLeast (ordered : FIFOOrdered sys.hooks) (step : Step sys event sys')
    (recorded : ∀ p ∈ sys.hooks.sharedDsq.tasks, ∃ time, enqueueTime sys.hooks p = some time) :
    TakesLeast ⟨sys, event, sys'⟩ := by
  rintro cpu p rfl q member
  have head : sys.hooks.sharedDsq.tasks.head? = some p := by
    rw [← Dsq.task_moveHead, ← rrDispatch_fst sys.hooks cpu]
    exact step.1.2.symm
  obtain ⟨rest, queue⟩ := List.head?_eq_some_iff.mp head
  rw [FIFOOrdered, queue, List.pairwise_cons] at ordered
  rw [queue] at member
  rcases List.mem_cons.mp member with rfl | later
  · obtain ⟨time, found⟩ := recorded q (queue ▸ List.mem_cons_self)
    exact ⟨time, time, found, found, UInt64.le_refl _⟩
  · exact ordered.1 q later

/-- A task that is inserted without being overtaken is not earlier than the tasks on the queue. -/
theorem notLater_of_notOvertaken (run : Run Step start history sys) (idle : Idle start)
    {cpu : Nat} {p : Task} {enqFlags : UInt64} {after : List (Event Task)}
    (notOvertaken : NotOvertaken
      (history.map Transition.event ++ .insert cpu p enqFlags :: after))
    (exclusive : Exclusive sys) (pending : sys.pending cpu = some p) :
    ∀ q ∈ sys.hooks.sharedDsq.tasks, NotLater sys.hooks q p := by
  intro q queued
  have different : p ≠ q := fun same => exclusive.apart pending (same ▸ queued)
  obtain ⟨before, now, between, whole, unstamped, stamped⟩ := stamped_of_pending run idle pending
  obtain ⟨front, other, time, middle, flags, since, whole', undispatched, stamped'⟩ :=
    inserted_of_queued run idle queued
  refine ⟨time, now, stamped', stamped, ?_⟩
  rcases List.append_eq_append_iff.mp (whole.symm.trans whole') with
    ⟨gap, rfl, split⟩ | ⟨gap, rfl, split⟩
  · cases gap with
    | nil => exact absurd (Event.stamp.inj (List.cons.inj split).1).2.1 different
    | cons first early =>
        obtain ⟨_, rfl⟩ := List.cons.inj split
        rw [whole, List.append_assoc, List.cons_append] at notOvertaken
        by_contra later
        obtain ⟨taker, dispatched⟩ := notOvertaken before cpu p now _ enqFlags after rfl unstamped
          early other q time middle flags since rfl (UInt64.not_le.mp later)
        exact undispatched taker dispatched
  · cases gap with
    | nil => exact absurd (Event.stamp.inj (List.cons.inj split).1).2.1.symm different
    | cons first late =>
        obtain ⟨rfl, _⟩ := List.cons.inj split
        rw [List.append_assoc, List.cons_append] at whole
        exact stamps_ordered run whole

/-- Without overtaking, every state is in order and every dispatch takes the least. -/
theorem keepsOrder_of_notOvertaken (run : Run Step start history sys) (idle : Idle start)
    (notOvertaken : NotOvertaken (history.map Transition.event)) : KeepsOrder history := by
  have step (taken : Transition (System Task) (Event Task)) (member : taken ∈ history)
      (ordered : FIFOOrdered taken.source.hooks) : FIFOOrdered taken.target.hooks := by
    have exclusive := exclusive_of_run run idle taken member
    obtain ⟨front, back, rfl⟩ := List.append_of_mem member
    obtain ⟨earlier, last, _⟩ := run.split
    refine ordered.step last fun cpu p enqFlags inserts => ?_
    rw [List.map_append, List.map_cons, inserts] at notOvertaken
    rw [inserts] at last
    exact notLater_of_notOvertaken earlier idle notOvertaken exclusive last.1
  have initially : FIFOOrdered start.hooks := by
    rw [FIFOOrdered, idle.queue]
    exact .nil
  intro taken member
  obtain ⟨front, back, rfl⟩ := List.append_of_mem member
  obtain ⟨earlier, last, _⟩ := run.split
  have ordered : FIFOOrdered taken.source.hooks :=
    earlier.carries (FIFOOrdered ·.hooks)
      (fun before inside => step before (List.mem_append_left _ inside)) initially
  refine ⟨step taken member ordered, ordered.takesLeast last fun p queued => ?_⟩
  obtain ⟨_, _, time, _, _, _, _, _, recorded⟩ := inserted_of_queued earlier idle queued
  exact ⟨time, recorded⟩

/-- A task that overtakes another one and waits in front of it breaks the order. -/
theorem notOvertaken_of_keepsOrder (run : Run Step start history sys)
    (keepsOrder : KeepsOrder history) : NotOvertaken (history.map Transition.event) := by
  intro before cpu p now between enqFlags after whole unstamped early other q time middle flags
    late split overtakes
  by_contra undispatched
  obtain ⟨_, _, stampedP, history', rfl, _, restEq, _, stampP, rest⟩ := run.split_event whole
  obtain ⟨history'', beforeInsert, inserted, _, rfl, betweenEq, _, run', insertP, _⟩ :=
    rest.split_event restEq
  rw [← betweenEq] at unstamped split
  obtain ⟨_, _, stampedQ, _, _, _, restEq', _, stampQ, rest'⟩ := run'.split_event split
  obtain ⟨_, _, insertedQ, back, _, _, rfl, _, insertQ, run''⟩ := rest'.split_event restEq'
  have recordedP : enqueueTime beforeInsert.hooks p = some now := by
    rw [enqueueTime_of_run run' unstamped, stampP.enqueueTime_stamp]
  obtain ⟨later, recordedQ, after, _⟩ : RecordedSince q time beforeInsert :=
    rest'.invariant ⟨time, stampQ.enqueueTime_stamp, UInt64.le_refl _, by
      rw [stampQ.clock_stamp]
      exact UInt64.le_refl _⟩ RecordedSince.step
  have waits : q ∈ beforeInsert.hooks.sharedDsq.tasks := by
    refine queued_of_run run'' ?_ fun taker dispatched => undispatched ⟨taker, dispatched⟩
    rw [insertQ.queue.eq_append]
    exact List.mem_append_right _ List.mem_cons_self
  have ordered : FIFOOrdered inserted.hooks :=
    (keepsOrder ⟨beforeInsert, .insert cpu p enqFlags, inserted⟩ (by simp)).1
  rw [FIFOOrdered, insertP.queue.eq_append, List.pairwise_append] at ordered
  obtain ⟨first, second, firstEq, secondEq, notLater⟩ := ordered.2.2 q waits p List.mem_cons_self
  rw [insertP.enqueueTime_eq (fun _ _ same => nomatch same)] at firstEq secondEq
  obtain rfl : first = later := Option.some.inj (firstEq.symm.trans recordedQ)
  obtain rfl : second = now := Option.some.inj (secondEq.symm.trans recordedP)
  exact absurd overtakes (UInt64.not_lt.mpr (UInt64.le_trans after notLater))

/--
The shared queue is always in the order of the recorded times, and dispatches
take the least of them, exactly when no enqueue is overtaken.
-/
theorem keepsOrder_iff_notOvertaken (run : Run Step start history sys) (idle : Idle start) :
    KeepsOrder history ↔ NotOvertaken (history.map Transition.event) :=
  ⟨notOvertaken_of_keepsOrder run, keepsOrder_of_notOvertaken run idle⟩

/-- Every task has a context, and nothing is queued or pending. -/
def initialised : System Nat where
  hooks :=
    { taskCtxMap := fun _ => some { enqueueTime := 0, remainingSlice := timeQuantumNs }
      sharedDsq := []
      localDsq := fun _ => []
      nrEnqueued := 0
      nrDispatched := 0 }
  pending := fun _ => none
  clock := 0

theorem initialised_idle : Idle initialised :=
  ⟨rfl, fun _ => rfl⟩

/-- CPU 1 stamps and inserts a task between the two steps of CPU 0. -/
def overtaking : List (Event Nat) :=
  [.stamp 0 1 1, .stamp 1 2 2, .insert 1 2 0, .insert 0 1 0, .dispatch 0 (some 2)]

theorem overtaking_run :
    Run Step initialised (trace perform initialised overtaking)
      (overtaking.foldl perform initialised) := by
  refine Run.of_trace (fun before event allowed => ⟨allowed, rfl⟩) ?_
  simp only [trace, overtaking, List.forall_mem_cons]
  refine ⟨?_, ?_, ?_, ?_, ?_, fun _ member => nomatch member⟩
  · exact ⟨rfl, fun other => by simp [initialised], by decide, by decide, by decide⟩
  · refine ⟨rfl, fun other => ?_, by decide, by decide, by decide⟩
    simp [perform, initialised, Function.update_apply]
  · exact (rfl : _ = _)
  · exact (rfl : _ = _)
  · exact ⟨rfl, rfl⟩

/-- The state before the overtaken task is inserted. -/
def overtaken : System Nat :=
  (overtaking.take 3).foldl perform initialised

theorem overtaking_keepsOrder_iff :
    KeepsOrder (trace perform initialised overtaking) ↔
      NotOvertaken ((trace perform initialised overtaking).map Transition.event) :=
  keepsOrder_iff_notOvertaken overtaking_run initialised_idle

/-- The task stamped at time 2 stands in front of the one stamped at time 1. -/
theorem later_stamp_in_front :
    ¬ ∀ (start sys : System Nat) (history : List (Transition (System Nat) (Event Nat))),
      Idle start → Run Step start history sys → KeepsOrder history := by
  intro keepsOrder
  obtain ⟨ordered, _⟩ := keepsOrder _ _ _ initialised_idle overtaking_run
    ⟨overtaken, .insert 0 1 0, perform overtaken (.insert 0 1 0)⟩
    (by simp [overtaking, trace, overtaken])
  have queue : (perform overtaken (.insert 0 1 0)).hooks.sharedDsq.tasks = [2, 1] := by decide
  rw [FIFOOrdered, queue] at ordered
  obtain ⟨first, second, firstEq, secondEq, notLater⟩ :=
    List.rel_of_pairwise_cons ordered List.mem_cons_self
  obtain rfl : first = 2 := Option.some.inj (firstEq.symm.trans (by decide))
  obtain rfl : second = 1 := Option.some.inj (secondEq.symm.trans (by decide))
  exact absurd notLater (by decide)

end SchedExt.Bpf.RoundRobin.Interleaving
