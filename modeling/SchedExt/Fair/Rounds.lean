import SchedExt.Fair.PriorityService
import SchedExt.Foundations.TiedService

/-!
# Rounds of the fair scheduler

`Dispatch` returns a task as it was enqueued, its virtual runtime uncharged.
When the returned task is enqueued again, the tasks of least virtual runtime
share the CPU among themselves, and no other task is ever dispatched.
-/

namespace SchedExt.Fair.ConcreteScheduler

open SchedExt.Domain SchedExt.Foundations

/--
The calls on one CPU form rounds `Dispatch(cpu); Enqueue(t, cpu)` with the
returned task `t`; calls on other CPUs are interleaved anywhere.  The index is
the returned task that is still to be enqueued again.
-/
inductive Rounds (cpu : Nat) : List Event → Option Task → Prop where
  | start : Rounds cpu [] none
  | elsewhere {events : List Event} {pending : Option Task} {event : Event}
      (earlier : Rounds cpu events pending) (other : event.cpu ≠ cpu) :
      Rounds cpu (events ++ [event]) pending
  | dispatch {events : List Event} (next : Option Task)
      (earlier : Rounds cpu events none) :
      Rounds cpu (events ++ [.dispatch cpu next]) next
  | enqueue {events : List Event} (t : Task)
      (earlier : Rounds cpu events (some t)) :
      Rounds cpu (events ++ [.enqueue t cpu]) none

variable {start s s' : SchedState} {cpu : Nat} {pending : Option Task} {events : List Event}
variable {prior history : List (Transition SchedState Event)}

/-- What a round leaves of a task. -/
def lasting (t : Task) : Nat × Nat := (t.pid, t.vruntime)

theorem observe_channel (call : Transition SchedState Event) :
    (observe call).channel? = some call.event.cpu := by
  obtain ⟨source, event, target⟩ := call
  cases event <;> rfl

/-- Rounds of calls are rounds of the queue, up to the times of enqueueing. -/
theorem Rounds.queueRounds (rounds : Rounds cpu events pending)
    (recorded : history.map Transition.event = events) :
    Queues.Rounds lasting cpu (history.map observe) (pending.map lasting) := by
  induction rounds generalizing history with
  | start =>
      rw [List.map_eq_nil_iff.mp recorded]
      exact .start
  | elsewhere earlier other ih =>
      obtain ⟨front, source, target, rfl, frontEq⟩ := exists_concat_of_events recorded
      rw [List.map_append]
      refine .elsewhere (ih frontEq) ?_
      rw [observe_channel]
      exact fun same => other (Option.some.inj same)
  | dispatch next earlier ih =>
      obtain ⟨front, source, target, rfl, frontEq⟩ := exists_concat_of_events recorded
      rw [List.map_append]
      exact .take next (ih frontEq)
  | enqueue t earlier ih =>
      obtain ⟨front, source, target, rfl, frontEq⟩ := exists_concat_of_events recorded
      rw [List.map_append]
      exact .putBack (t.stamped source.clock) (ih frontEq)

/-! ## The least tasks -/

/-- The tasks at the front of a queue that have the virtual runtime of its head. -/
def leastWaiting : List Task → List Task
  | [] => []
  | first :: rest => first :: rest.takeWhile fun t => t.vruntime = first.vruntime

/-- The tasks behind them. -/
def laterWaiting : List Task → List Task
  | [] => []
  | first :: rest => rest.dropWhile fun t => t.vruntime = first.vruntime

theorem least_append_later (queue : List Task) :
    queue = leastWaiting queue ++ laterWaiting queue := by
  cases queue with
  | nil => rfl
  | cons first rest =>
      exact congrArg (List.cons first) List.takeWhile_append_dropWhile.symm

theorem vruntime_leastWaiting {first : Task} {rest : List Task} :
    ∀ t ∈ leastWaiting (first :: rest), t.vruntime = first.vruntime := by
  refine List.forall_mem_cons.mpr ⟨rfl, fun t member => ?_⟩
  have passes := List.mem_takeWhile_imp member
  exact of_decide_eq_true passes

/-- In a sorted queue the tasks behind have larger virtual runtimes. -/
theorem vruntime_laterWaiting {first : Task} {rest : List Task}
    (sorted : (first :: rest).Pairwise fun one other => one.vruntime ≤ other.vruntime) :
    ∀ t ∈ laterWaiting (first :: rest), first.vruntime < t.vruntime := by
  obtain ⟨atMost, restSorted⟩ := List.pairwise_cons.mp sorted
  have kept : (laterWaiting (first :: rest)).Sublist rest := List.dropWhile_sublist _
  have stops := List.head?_dropWhile_not (fun t : Task => decide (t.vruntime = first.vruntime)) rest
  have laterSorted := restSorted.sublist kept
  cases whole : laterWaiting (first :: rest) with
  | nil => exact fun t none => nomatch none
  | cons next later =>
      rw [whole] at laterSorted kept
      rw [laterWaiting] at whole
      rw [whole] at stops
      have apart : next.vruntime ≠ first.vruntime := by simpa using stops
      have above : first.vruntime < next.vruntime :=
        Nat.lt_of_le_of_ne (atMost next (kept.subset List.mem_cons_self)) (Ne.symm apart)
      refine List.forall_mem_cons.mpr ⟨above, fun t member => ?_⟩
      exact Nat.lt_of_lt_of_le above ((List.pairwise_cons.mp laterSorted).1 t member)

/-- What rounds on a CPU come to: the least tasks take turns, and the others wait. -/
structure LeastShare (cpu : Nat) (s : SchedState)
    (history : List (Transition SchedState Event)) (s' : SchedState) : Prop where
  kth : Cyclic ((leastWaiting (s.queue cpu).tasks).map Task.pid)
    ((returned cpu history).map Task.pid)
  starved : ∃ front, (s'.queue cpu).tasks = front ++ laterWaiting (s.queue cpu).tasks ∧
    ∀ t ∈ front, ∀ other ∈ laterWaiting (s.queue cpu).tasks, t.vruntime < other.vruntime
  served : (leastWaiting (s.queue cpu).tasks).length ≤ (returned cpu history).length →
    ((∀ t ∈ (s.queue cpu).tasks, t.pid ∈ (returned cpu history).map Task.pid) ↔
      laterWaiting (s.queue cpu).tasks = [])

/--
From any reachable state in which distinct tasks wait on a CPU, any number of
rounds on it, interleaved with any calls on other CPUs, returns the tasks of
least virtual runtime over and over in their order.  The others stay where they
are: after a whole turn every waiting task has been served exactly when all of
them had the same virtual runtime.
-/
theorem rounds_serve_least_only (init : EmptyInit start) (reached : Run Step start prior s)
    (nonempty : (s.queue cpu).tasks ≠ [])
    (distinct : ((s.queue cpu).tasks.map Task.pid).Nodup)
    (run : Run Step s history s')
    (rounds : Rounds cpu (history.map Transition.event) pending) :
    LeastShare cpu s history s' := by
  have queueRounds := rounds.queueRounds rfl
  rw [← Queues.labels_simulate] at queueRounds
  have sorted := ((SchedInvariant.of_run init reached).ranked cpu).keys
  rw [view_waiting] at sorted
  obtain ⟨first, rest, queue⟩ := List.exists_cons_of_ne_nil nonempty
  have equal := @vruntime_leastWaiting first rest
  have larger := vruntime_laterWaiting (queue ▸ sorted)
  rw [← queue] at equal larger
  have least : leastWaiting (s.queue cpu).tasks ≠ [] := by
    rw [queue]
    exact List.cons_ne_nil _ _
  obtain ⟨cyclic, tied, split, same⟩ := queueRounds.cyclic_least
    (fun same => (Prod.mk.inj same).2) equal larger least (least_append_later _) (queueRun run)
  have kth := cyclic.map Prod.fst
  rw [Queues.labels_simulate, List.map_map, List.map_map] at kth
  refine ⟨kth, ⟨tied, split, fun t front other later => ?_⟩, fun turn => ⟨fun all => ?_, ?_⟩⟩
  · rw [same t front]
    exact larger other later
  · refine List.eq_nil_iff_forall_not_mem.mpr fun t later => ?_
    have whole := least_append_later (s.queue cpu).tasks
    rw [whole, List.map_append] at distinct
    have served := all t (whole ▸ List.mem_append_right _ later)
    exact List.disjoint_of_nodup_append distinct (kth.mem_order served)
      (List.mem_map_of_mem later)
  · intro none t member
    rw [least_append_later (s.queue cpu).tasks, none, List.append_nil] at member
    refine kth.mem_services ?_ (List.mem_map_of_mem member)
    rw [List.length_map, List.length_map]
    exact turn

/-- Two tasks tie on CPU 0, and a third one has run for longer. -/
def threeCalls : List Event :=
  [.enqueue (newTask 1 5) 0, .enqueue (newTask 2 5) 0, .enqueue (newTask 3 9) 0]

def threeWaiting : SchedState :=
  threeCalls.foldl perform twoCpus

theorem threeCalls_run :
    Run CheckedStep twoCpus (trace perform twoCpus threeCalls) threeWaiting :=
  Run.of_trace checkedStep_perform (by decide +kernel)

/-- Two rounds on CPU 0, with a call on CPU 1 in between. -/
def roundCalls : List Event :=
  [.dispatch 0 (some ((newTask 1 5).stamped 0)), .enqueue (newTask 4 0) 1,
    .enqueue ((newTask 1 5).stamped 0) 0, .dispatch 0 (some ((newTask 2 5).stamped 1))]

theorem roundCalls_run : Run CheckedStep threeWaiting (trace perform threeWaiting roundCalls)
    (roundCalls.foldl perform threeWaiting) :=
  Run.of_trace checkedStep_perform (by decide +kernel)

theorem threeWaiting_share_least :
    LeastShare 0 threeWaiting (trace perform threeWaiting roundCalls)
      (roundCalls.foldl perform threeWaiting) :=
  rounds_serve_least_only twoCpus_init (threeCalls_run.mono CheckedStep.step) (by decide +kernel)
    (by decide +kernel) (roundCalls_run.mono CheckedStep.step)
    (@Rounds.dispatch 0 (roundCalls.take 3) (some ((newTask 2 5).stamped 1))
      (@Rounds.enqueue 0 (roundCalls.take 2) ((newTask 1 5).stamped 0)
        (@Rounds.elsewhere 0 (roundCalls.take 1) _ _
          (@Rounds.dispatch 0 [] (some ((newTask 1 5).stamped 0)) .start) (by decide))))

end SchedExt.Fair.ConcreteScheduler
