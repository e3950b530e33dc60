import SchedExt.Foundations.CyclicService
import SchedExt.RoundRobin.Invariant

/-!
# First-in first-out and equal service

The logs of insertions and dispatches of each CPU determine its queue.  From
the same log equation follows equal time sharing: when every dispatched task
is enqueued again before the next dispatch, the queue is served cyclically.
-/

namespace SchedExt.RoundRobin.ConcreteScheduler

open SchedExt.Domain SchedExt.Foundations

variable {start s s' : SchedState} {history prior : List (Transition SchedState Event)}

/-- On every CPU the insertions are the dispatches followed by the queue. -/
theorem log_of_run (run : Run Step start history s) (cpu : Nat) :
    (start.queue cpu).tasks ++ appended cpu history =
      returned cpu history ++ (s.queue cpu).tasks := by
  have law := Queues.log (queueRun run) cpu
  rw [Queues.labels_simulate] at law
  exact law

theorem log_of_init (init : AbstractScheduler.Init start)
    (run : Run Step start history s) (cpu : Nat) :
    appended cpu history = returned cpu history ++ (s.queue cpu).tasks := by
  have law := log_of_run run cpu
  rw [init.waiting_nil cpu, List.nil_append] at law
  exact law

/-- The recorded `next` of a dispatch is the head of the queue before it. -/
theorem Step.next_eq {cpu : Nat} {next : Option Task}
    (taken : Step s (.dispatch cpu next) s') : next = (s.queue cpu).tasks.head? := by
  rcases taken.cases with ⟨t, target, inserts, _⟩ | ⟨target, dispatched, _⟩
  · rcases inserts with impossible | impossible
    · cases impossible
    · cases impossible
  · cases dispatched
    exact dispatch_next s cpu

/-! ## No loss, no duplication, first-in first-out service -/

/-- The dispatches of each CPU are its insertions in order, without gap or repetition. -/
structure FifoService (history : List (Transition SchedState Event)) (s : SchedState) :
    Prop where
  log : ∀ cpu, appended cpu history = returned cpu history ++ (s.queue cpu).tasks
  none_iff : ∀ before call after cpu next, history = before ++ call :: after →
    call.event = .dispatch cpu next →
      (next = none ↔ appended cpu before = returned cpu before)

/-- Every run from an initial state serves every CPU first-in first-out. -/
theorem runs_serve_fifo (init : AbstractScheduler.Init start)
    (run : Run CheckedStep start history s) : FifoService history s where
  log cpu := log_of_init init (run.mono CheckedStep.step) cpu
  none_iff before call after cpu next whole isDispatch := by
    rw [whole] at run
    obtain ⟨earlier, taken, _⟩ := run.split
    rw [isDispatch] at taken
    rw [taken.step.next_eq, List.head?_eq_none_iff,
      log_of_init init (earlier.mono CheckedStep.step) cpu]
    constructor
    · intro empty
      rw [empty, List.append_nil]
    · intro same
      exact List.append_right_eq_self.mp same

theorem firstTurn_serves_fifo :
    FifoService (trace perform twoCpus firstTurn) afterTurn :=
  runs_serve_fifo twoCpus_init (checkedRun twoCpus_init firstTurn_run)

/-! ## Equal time sharing -/

/--
The calls on one CPU form rounds `Dispatch(cpu); ReEnqueue(t, cpu)` with the
returned task `t`; calls on other CPUs are interleaved anywhere.  The index is
the returned task that is still to be enqueued again.
-/
inductive Rounds (cpu : Nat) : List Event → Option Task → Prop where
  | start : Rounds cpu [] none
  | elsewhere {events : List Event} {pending : Option Task} {event : Event}
      (earlier : Rounds cpu events pending) (other : event.cpu ≠ cpu) :
      Rounds cpu (events ++ [event]) pending
  | dispatch {events : List Event} (next : Option Task)
      (earlier : Rounds cpu events none) :
      Rounds cpu (events ++ [.dispatch cpu next]) next
  | reEnqueue {events : List Event} (t : Task)
      (earlier : Rounds cpu events (some t)) :
      Rounds cpu (events ++ [.reEnqueue t cpu]) none

namespace Rounds

variable {cpu : Nat} {pending : Option Task} {events : List Event}

/-- Rounds of calls are rounds of the queue, up to refreshed timestamps. -/
theorem queueRounds (rounds : Rounds cpu events pending)
    (recorded : history.map Transition.event = events) :
    Queues.Rounds Task.pid cpu (history.map observe) (pending.map Task.pid) := by
  induction rounds generalizing history with
  | start =>
      rw [List.map_eq_nil_iff.mp recorded]
      exact .start
  | elsewhere earlier other ih =>
      obtain ⟨front, source, target, rfl, frontEq⟩ := exists_concat_of_events recorded
      rw [List.map_append]
      refine .elsewhere (ih frontEq) ?_
      rw [observe_channel]
      exact fun same => other (Option.some.inj same)
  | dispatch next earlier ih =>
      obtain ⟨front, source, target, rfl, frontEq⟩ := exists_concat_of_events recorded
      rw [List.map_append]
      exact .take next (ih frontEq)
  | reEnqueue t earlier ih =>
      obtain ⟨front, source, target, rfl, frontEq⟩ := exists_concat_of_events recorded
      rw [List.map_append]
      exact .putBack (t.stamped source.clock) (ih frontEq)

/-- A task to be enqueued again was returned by a dispatch. -/
theorem pending_dispatched (rounds : Rounds cpu events pending) {t : Task}
    (isPending : pending = some t) : Event.dispatch cpu (some t) ∈ events := by
  induction rounds with
  | start => cases isPending
  | elsewhere earlier other ih => exact List.mem_append_left _ (ih isPending)
  | dispatch next earlier ih =>
      subst isPending
      exact List.mem_append_right _ (List.mem_singleton_self _)
  | reEnqueue t earlier ih => cases isPending

/-- A dispatch ends an initial part of the rounds in which nothing is pending. -/
theorem before_dispatch (rounds : Rounds cpu events pending)
    {before after : List Event} {next : Option Task}
    (whole : events = before ++ .dispatch cpu next :: after) : Rounds cpu before none := by
  induction rounds generalizing after with
  | start => simp at whole
  | @elsewhere events pending event earlier other ih =>
      rcases List.eq_nil_or_concat' after with rfl | ⟨rest, last, rfl⟩
      · obtain ⟨_, same⟩ := List.append_inj' whole rfl
        cases same
        exact absurd rfl other
      · rw [← List.cons_append, ← List.append_assoc] at whole
        exact ih (List.append_inj' whole rfl).1
  | dispatch result earlier ih =>
      rcases List.eq_nil_or_concat' after with rfl | ⟨rest, last, rfl⟩
      · obtain ⟨rfl, _⟩ := List.append_inj' whole rfl
        exact earlier
      · rw [← List.cons_append, ← List.append_assoc] at whole
        exact ih (List.append_inj' whole rfl).1
  | reEnqueue t earlier ih =>
      rcases List.eq_nil_or_concat' after with rfl | ⟨rest, last, rfl⟩
      · obtain ⟨_, same⟩ := List.append_inj' whole rfl
        cases same
      · rw [← List.cons_append, ← List.append_assoc] at whole
        exact ih (List.append_inj' whole rfl).1

end Rounds

/-- A CPU on which a task waits is active. -/
def QueuedActive (s : SchedState) : Prop :=
  ∀ cpu, (s.queue cpu).tasks ≠ [] → cpu ∈ s.activeCpus

theorem QueuedActive.step {event : Event} (queued : QueuedActive s)
    (taken : Step s event s') : QueuedActive s' := by
  rcases taken.cases with ⟨t, target, _, _, _, active, _, rfl⟩ | ⟨target, _, active, _, rfl⟩
  · intro cpu filled
    rw [enqueue_activeCpus]
    by_cases same : cpu = target
    · rw [same]
      exact active
    · rw [enqueue_queue_of_ne s t same] at filled
      exact queued cpu filled
  · intro cpu filled
    rw [dispatch_activeCpus]
    by_cases same : cpu = target
    · rw [same]
      exact active
    · rw [dispatch_queue_of_ne s same] at filled
      exact queued cpu filled

theorem Step.activeCpus_eq {event : Event} (taken : Step s event s') :
    s'.activeCpus = s.activeCpus := by
  rcases taken.cases with ⟨t, cpu, _, _, _, _, _, rfl⟩ | ⟨cpu, _, _, _, rfl⟩
  · exact enqueue_activeCpus s t cpu
  · exact dispatch_activeCpus s cpu

theorem activeCpus_of_run (run : Run Step s history s') : s'.activeCpus = s.activeCpus := by
  induction run with
  | refl => rfl
  | tail _ last ih => exact last.activeCpus_eq.trans ih

/-- Every returned task may be passed to `ReEnqueue`. -/
theorem returned_reusable (invariant : SchedInvariant s) (run : Run Step s history s')
    {cpu : Nat} {t : Task} (member : Event.dispatch cpu (some t) ∈ history.map Transition.event) :
    ValidTask t ∧ t.state = .runnable := by
  obtain ⟨call, callMem, isDispatch⟩ := List.mem_map.mp member
  have reusable : ∀ call ∈ history, call.event = .dispatch cpu (some t) →
      ValidTask t ∧ t.state = .runnable := by
    refine run.forall_mem invariant SchedInvariant.step ?_
    rintro before event after good taken rfl
    have inQueue := List.mem_of_head? taken.next_eq.symm
    have known : cpu ∈ before.runQueues := taken.1.2
    exact ⟨good.valid.tasksValid cpu (Finmap.mem_keys.mpr known) t inQueue,
      good.runnable cpu t inQueue⟩
  exact reusable call callMem isDispatch

/-- `served` shares the CPU equally among `pids`, in their order. -/
structure EqualSharing (pids served : List Nat) : Prop where
  kth : ∀ k, k < served.length → served[k]? = pids[k % pids.length]?
  eachTurn : ∀ first, first + pids.length ≤ served.length → ∀ pid ∈ pids,
    ((served.drop first).take pids.length).count pid = 1
  balanced : ∀ m, ∀ p ∈ pids, ∀ q ∈ pids,
    (served.take m).count p ≤ (served.take m).count q + 1

/-- What rounds on a CPU come to: every dispatch finds a task, and sharing is equal. -/
structure RoundsShare (cpu : Nat) (s : SchedState)
    (history : List (Transition SchedState Event)) (pending : Option Task)
    (s' : SchedState) : Prop where
  neverEmpty : ∀ call ∈ history, call.event ≠ .dispatch cpu none
  sharing : EqualSharing ((s.queue cpu).tasks.map Task.pid)
    ((returned cpu history).map Task.pid)
  dispatchable : pending = none → ∀ next, CallerMeets s' (.dispatch cpu next)
  reEnqueueable : ∀ t, pending = some t → CallerMeets s' (.reEnqueue t cpu)

/-- No round finds the queue of its CPU empty. -/
theorem Rounds.never_empty {cpu : Nat} (nonempty : (s.queue cpu).tasks ≠ [])
    (run : Run Step s history s') {pending : Option Task}
    (rounds : Rounds cpu (history.map Transition.event) pending) :
    ∀ call ∈ history, call.event ≠ .dispatch cpu none := by
  intro call member isDispatch
  obtain ⟨before, after, rfl⟩ := List.append_of_mem member
  obtain ⟨earlier, taken, _⟩ := run.split
  rw [isDispatch] at taken
  have whole : (before ++ call :: after).map Transition.event =
      before.map Transition.event ++ .dispatch cpu none :: after.map Transition.event := by
    rw [List.map_append, List.map_cons, isDispatch]
  have idle : Rounds cpu (before.map Transition.event) none := rounds.before_dispatch whole
  have between := idle.queueRounds rfl
  rw [← Queues.labels_simulate] at between
  have length := between.length_waiting (queueRun earlier)
  have empty := List.head?_eq_none_iff.mp taken.next_eq.symm
  rw [view_waiting, view_waiting, empty] at length
  exact nonempty (List.eq_nil_of_length_eq_zero length.symm)

/-- A CPU that tasks wait on is active, and stays so. -/
theorem active_of_nonempty (init : AbstractScheduler.Init start) (reached : Run Step start prior s)
    {cpu : Nat} (nonempty : (s.queue cpu).tasks ≠ []) (run : Run Step s history s') :
    cpu ∈ s'.activeCpus ∧ cpu ∈ s'.runQueues := by
  have active : cpu ∈ s'.activeCpus := by
    rw [activeCpus_of_run run]
    have idle : QueuedActive start := fun other filled =>
      absurd (init.waiting_nil other) filled
    have queued : QueuedActive s := reached.invariant idle QueuedActive.step
    exact queued cpu nonempty
  have ending := run.invariant (SchedInvariant.of_run init reached) SchedInvariant.step
  exact ⟨active, ending.valid.mem_of_active active⟩

/--
Equal time sharing.  From any reachable state in which distinct tasks wait on
a CPU, any number of rounds on it, interleaved with any calls on other CPUs,
returns the waiting tasks over and over in their order; no round is blocked.
-/
theorem rounds_share_equally (init : AbstractScheduler.Init start)
    (reached : Run Step start prior s) {cpu : Nat}
    (nonempty : (s.queue cpu).tasks ≠ [])
    (distinct : ((s.queue cpu).tasks.map Task.pid).Nodup)
    (run : Run Step s history s') {pending : Option Task}
    (rounds : Rounds cpu (history.map Transition.event) pending) :
    RoundsShare cpu s history pending s' := by
  have invariant := SchedInvariant.of_run init reached
  have queueRounds := rounds.queueRounds rfl
  rw [← Queues.labels_simulate] at queueRounds
  have cyclic := queueRounds.cyclic (queueRun run) nonempty
  rw [Queues.labels_simulate] at cyclic
  obtain ⟨active, known⟩ := active_of_nonempty init reached nonempty run
  refine {
    neverEmpty := rounds.never_empty nonempty run
    sharing := {
      kth := cyclic
      eachTurn := fun first fits pid member => cyclic.count_window distinct first fits member
      balanced := fun m p pMem q qMem => (cyclic.take m).count_le distinct pMem qMem }
    dispatchable := fun _ _ => ⟨active, known⟩
    reEnqueueable := ?_ }
  intro t isPending
  obtain ⟨validTask, runnable⟩ :=
    returned_reusable invariant run (rounds.pending_dispatched isPending)
  exact ⟨validTask, runnable, validTask.1, active, known⟩

/-- A round and a half on CPU 0, with a call on CPU 1 in between. -/
def roundCalls : List Event :=
  [.dispatch 0 (some ((newTask 1).stamped 0)), .enqueue (newTask 4) 1,
    .reEnqueue ((newTask 1).stamped 0) 0, .dispatch 0 (some ((newTask 2).stamped 1))]

theorem afterArrivals_rounds_share :
    RoundsShare 0 afterArrivals (trace perform afterArrivals roundCalls)
      (some ((newTask 2).stamped 1)) (roundCalls.foldl perform afterArrivals) :=
  rounds_share_equally twoCpus_init arrivals_run (by decide) (by decide)
    (Run.of_trace step_perform (by decide))
    (@Rounds.dispatch 0 (roundCalls.take 3) _
      (@Rounds.reEnqueue 0 (roundCalls.take 2) _
        (@Rounds.elsewhere 0 (roundCalls.take 1) _ _ (@Rounds.dispatch 0 [] _ .start)
          (by decide))))

end SchedExt.RoundRobin.ConcreteScheduler
