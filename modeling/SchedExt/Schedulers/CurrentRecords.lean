import SchedExt.Schedulers.Concrete

/-!
# The set of all tasks

Every insertion adds its stamped record to `all_tasks`, and no call replaces or
removes one.  Records carry distinct stamps, so a process has as many of them
as it was inserted: one current record exactly when it was inserted once.
-/

namespace SchedExt.Schedulers

open SchedExt.Domain SchedExt.Foundations

namespace QueueScheduler

variable {c : QueueScheduler} {start s : c.State} {history : c.History}

/-- The process that a call inserts, if any. -/
def enqueuedPid (c : QueueScheduler) (event : c.Event) : Option Nat :=
  match c.label event with
  | .put _ t => some (c.pid t)
  | _ => none

/-- The processes enqueued by the calls, oldest first, as often as they were enqueued. -/
def enqueuedPids (c : QueueScheduler) (events : List c.Event) : List Nat :=
  events.filterMap c.enqueuedPid

/--
Exactly one record in `all_tasks` belongs to each process ever enqueued, and a
queued task of the process is that record.
-/
def CurrentRecords (c : QueueScheduler) (events : List c.Event) (s : c.State) : Prop :=
  ∀ pid ∈ c.enqueuedPids events, ∃ record ∈ s.allTasks, c.pid record = pid ∧
    (∀ t ∈ s.allTasks, c.pid t = pid → t = record) ∧
      ∀ cpu, ∀ t ∈ c.tasks (s.queue cpu), c.pid t = pid → t = record

/-- All records inserted so far, as stored, oldest first. -/
def records (c : QueueScheduler) (history : c.History) : List c.Task :=
  (QueueEvent.arrivals (history.map c.observe)).map Prod.snd

/-- `all_tasks` consists of all inserted records. -/
theorem allTasks_of_run (lawful : c.Lawful) (init : c.Init start)
    (run : Run c.Step start history s) : s.allTasks = (c.records history).toFinset := by
  induction run with
  | refl => exact lawful.init_noTasks init
  | @tail history state next event earlier last ih =>
      rw [records, List.map_append, QueueEvent.arrivals_append, List.map_append,
        List.toFinset_append, ← records, ← ih]
      cases kind : c.label event with
      | put cpu t =>
          have stored : c.observe ⟨state, event, next⟩ = .put cpu (c.stamped t state.clock) := by
            simp only [observe, kind]
          rw [(lawful.put last kind).2.1, List.map_singleton, stored]
          rfl
      | take cpu result =>
          have none : c.observe ⟨state, event, next⟩ = .take cpu result := by
            simp only [observe, kind]
          rw [(lawful.take last kind).2.1, List.map_singleton, none]
          exact (Finset.union_empty _).symm
      | tick => exact absurd kind (lawful.no_tick event)

/-- The records belong to the enqueued processes. -/
theorem pids_records (lawful : c.Lawful) (history : c.History) :
    (c.records history).map c.pid = c.enqueuedPids (history.map Transition.event) := by
  rw [records, List.map_map, QueueEvent.arrivals, List.filterMap_map, List.map_filterMap,
    enqueuedPids, List.filterMap_map]
  refine List.filterMap_congr fun call _ => ?_
  simp only [Function.comp, observe, enqueuedPid]
  cases c.label call.event with
  | put cpu t => simp [lawful.pid_stamped]
  | take cpu next => rfl
  | tick => rfl

/-- No record is inserted twice, since stamps differ. -/
theorem records_nodup (lawful : c.Lawful) (run : Run c.Step start history s) :
    (c.records history).Nodup := by
  have stamps := (Queues.arrivals_stamped (lawful.queueRun run)).1
  rw [Queues.labels_simulate] at stamps
  exact stamps.imp fun less equal =>
    absurd (congrArg c.enqueueTime equal) (Nat.ne_of_lt less)

/-- A queued task is a record. -/
theorem mem_records_of_queued (lawful : c.Lawful) (init : c.Init start)
    (run : Run c.Step start history s) {cpu : Nat} {t : c.Task}
    (member : t ∈ c.tasks (s.queue cpu)) : t ∈ c.records history := by
  have arrives := Queues.put_mem_of_waiting (lawful.waiting_nil init) (lawful.queueRun run)
    member
  rw [Queues.labels_simulate] at arrives
  exact List.mem_map.mpr ⟨(cpu, t), QueueEvent.mem_arrivals.mpr arrives, rfl⟩

theorem currentRecords_iff (lawful : c.Lawful) (init : c.Init start)
    (run : Run c.Step start history s) :
    c.CurrentRecords (history.map Transition.event) s ↔
      (c.enqueuedPids (history.map Transition.event)).Nodup := by
  have recorded (t : c.Task) : t ∈ s.allTasks ↔ t ∈ c.records history := by
    rw [allTasks_of_run lawful init run, List.mem_toFinset]
  rw [← pids_records lawful, List.nodup_map_iff_inj_on (records_nodup lawful run)]
  constructor
  · intro current t tMem u uMem samePid
    have enqueued : c.pid t ∈ c.enqueuedPids (history.map Transition.event) := by
      rw [← pids_records lawful]
      exact List.mem_map_of_mem tMem
    obtain ⟨record, _, _, only, _⟩ := current (c.pid t) enqueued
    exact (only t ((recorded t).mpr tMem) rfl).trans
      (only u ((recorded u).mpr uMem) samePid.symm).symm
  · intro injective pid enqueued
    rw [← pids_records lawful] at enqueued
    obtain ⟨record, recordMem, rfl⟩ := List.mem_map.mp enqueued
    refine ⟨record, (recorded record).mpr recordMem, rfl, ?_, ?_⟩
    · intro t member samePid
      exact injective t ((recorded t).mp member) record recordMem samePid
    · intro cpu t member samePid
      exact injective t (mem_records_of_queued lawful init run member) record recordMem samePid

/-! ## The discipline of callers -/

/-- Whether the process was enqueued and has not been returned since. -/
def isInside (c : QueueScheduler) (pid : Nat) (events : List c.Event) : Bool :=
  events.foldl (fun inside event =>
    match c.label event with
    | .put _ t => inside || c.pid t == pid
    | .take _ (some t) => inside && c.pid t != pid
    | _ => inside) false

/-- The call enqueues no process that was enqueued and has not been returned since. -/
def admits (c : QueueScheduler) (before : List c.Event) (event : c.Event) : Bool :=
  match c.label event with
  | .put _ t => !c.isInside (c.pid t) before
  | _ => true

/-- A process is enqueued only before its first enqueue or after its latest one was answered. -/
def Disciplined (c : QueueScheduler) (events : List c.Event) : Prop :=
  ∀ i (bound : i < events.length), c.admits (events.take i) events[i]

instance (c : QueueScheduler) (events : List c.Event) : Decidable (c.Disciplined events) :=
  inferInstanceAs (Decidable (∀ i (bound : i < events.length), c.admits (events.take i) events[i]))

end QueueScheduler

/--
On a run of either scheduler every enqueued process has exactly one record,
the queued one if it is queued, exactly when no process is enqueued twice.
-/
theorem currentRecords_iff_enqueued_once (which : Concrete) {start s : which.scheduler.State}
    {history : which.scheduler.History} (init : which.scheduler.Init start)
    (run : Run which.scheduler.Step start history s) :
    which.scheduler.CurrentRecords (history.map Transition.event) s ↔
      (which.scheduler.enqueuedPids (history.map Transition.event)).Nodup :=
  QueueScheduler.currentRecords_iff which.lawful init run

open RoundRobin.ConcreteScheduler in
theorem firstTurn_currentRecords_iff :
    Concrete.roundRobin.scheduler.CurrentRecords
        ((trace perform twoCpus firstTurn).map Transition.event) afterTurn ↔
      (Concrete.roundRobin.scheduler.enqueuedPids
        ((trace perform twoCpus firstTurn).map Transition.event)).Nodup :=
  currentRecords_iff_enqueued_once .roundRobin twoCpus_init (checkedRun twoCpus_init firstTurn_run)

namespace CurrentRecords

/-- A round-robin task is enqueued, dispatched and enqueued again. -/
def roundRobinCalls : List RoundRobin.ConcreteScheduler.Event :=
  let t := RoundRobin.ConcreteScheduler.newTask 1
  [.enqueue t 0, .dispatch 0 (some (t.stamped 0)), .reEnqueue (t.stamped 0) 0]

/-- A fair task is enqueued, dispatched and enqueued again. -/
def fairCalls : List Fair.ConcreteScheduler.Event :=
  let t := Fair.ConcreteScheduler.newTask 1 0
  [.enqueue t 0, .dispatch 0 (some (t.stamped 0)), .enqueue (t.stamped 0) 0]

/-- Disciplined calls may leave an outdated record in `all_tasks`. -/
theorem outdated_record_remains :
    (¬ ∀ (start s : RoundRobin.SchedState) (history : Concrete.roundRobin.scheduler.History),
      Concrete.roundRobin.scheduler.Init start →
        Run Concrete.roundRobin.scheduler.Step start history s →
          Concrete.roundRobin.scheduler.Disciplined (history.map Transition.event) →
            Concrete.roundRobin.scheduler.CurrentRecords (history.map Transition.event) s) ∧
    ¬ ∀ (start s : Fair.SchedState) (history : Concrete.fair.scheduler.History),
      Concrete.fair.scheduler.Init start →
        Run Concrete.fair.scheduler.Step start history s →
          Concrete.fair.scheduler.Disciplined (history.map Transition.event) →
            Concrete.fair.scheduler.CurrentRecords (history.map Transition.event) s := by
  constructor
  · open RoundRobin.ConcreteScheduler in
    intro current
    have calls : Run Step twoCpus (trace perform twoCpus roundRobinCalls)
        (roundRobinCalls.foldl perform twoCpus) :=
      Run.of_trace step_perform (by decide)
    have run := checkedRun twoCpus_init calls
    have once := (QueueScheduler.currentRecords_iff scheduler_lawful twoCpus_init run).mp
      (current _ _ _ twoCpus_init run (by decide))
    exact absurd once (by decide)
  · open Fair.ConcreteScheduler in
    intro current
    have run : Run CheckedStep twoCpus (trace perform twoCpus fairCalls)
        (fairCalls.foldl perform twoCpus) :=
      Run.of_trace checkedStep_perform (by decide +kernel)
    have once := (QueueScheduler.currentRecords_iff scheduler_lawful twoCpus_init run).mp
      (current _ _ _ twoCpus_init run (by decide))
    exact absurd once (by decide)

end CurrentRecords

end SchedExt.Schedulers
