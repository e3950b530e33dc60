import SchedExt.Schedulers.Concrete

/-!
# CPU affinity on runs

No call looks at the affinity of a task, so whether affinities are respected is
decided by the callers: by what they insert where.
-/

namespace SchedExt.Schedulers

open SchedExt.Domain SchedExt.Foundations

namespace QueueScheduler

variable {c : QueueScheduler} {start s : c.State} {history : c.History}

/-- `AllAffinitiesRespected` of a scheduler. -/
def AllAffinitiesRespected (c : QueueScheduler) (s : c.State) : Prop :=
  s.AllAffinitiesRespected c.cpuAffinity c.tasks

/-- The affinity of the task, if it has one, allows the CPU. -/
def Allows (c : QueueScheduler) (cpu : Nat) (t : c.Task) : Prop :=
  c.cpuAffinity t = ∅ ∨ cpu ∈ c.cpuAffinity t

/-- Affinities are respected in every state reached and by every task that a call returns. -/
structure RespectsAffinities (c : QueueScheduler) (history : c.History) : Prop where
  queued : ∀ call ∈ history, c.AllAffinitiesRespected call.target
  returned : ∀ call ∈ history, ∀ cpu t, c.label call.event = .take cpu (some t) →
    AffinityRespected (c.cpuAffinity t) cpu

/-- Every inserted task is allowed on the CPU whose queue it enters. -/
def InsertedWhereAllowed (c : QueueScheduler) (events : List c.Event) : Prop :=
  ∀ event ∈ events, ∀ cpu t, c.label event = .put cpu t → c.Allows cpu t

theorem allAffinitiesRespected_iff (lawful : c.Lawful)
    (bounded : ∀ cpu ∈ s.runQueues, cpu < numCpus) :
    c.AllAffinitiesRespected s ↔ ∀ cpu, ∀ t ∈ c.tasks (s.queue cpu), c.Allows cpu t := by
  constructor
  · intro respected cpu t member
    by_cases known : cpu ∈ s.runQueues
    · exact (respected cpu known t member).2
    · rw [SchedState.queue_of_notMem known, lawful.tasks_default] at member
      cases member
  · intro allowed cpu known t member
    exact ⟨bounded cpu known, allowed cpu t member⟩

/-- An observed arrival is a stamped insertion. -/
theorem put_mem_observe_iff {cpu : Nat} {t : c.Task} :
    .put cpu t ∈ history.map c.observe ↔
      ∃ call ∈ history, ∃ u, c.label call.event = .put cpu u ∧
        t = c.stamped u call.source.clock := by
  rw [List.mem_map]
  constructor
  · rintro ⟨call, member, shown⟩
    refine ⟨call, member, ?_⟩
    unfold observe at shown
    cases kind : c.label call.event with
    | put target u =>
        rw [kind] at shown
        cases shown
        exact ⟨u, rfl, rfl⟩
    | take target next =>
        rw [kind] at shown
        cases shown
    | tick =>
        rw [kind] at shown
        cases shown
  · rintro ⟨call, member, u, kind, rfl⟩
    refine ⟨call, member, ?_⟩
    unfold observe
    rw [kind]

/-- Observed arrivals are allowed where they arrive exactly when the insertions are. -/
theorem insertedWhereAllowed_iff (lawful : c.Lawful) :
    c.InsertedWhereAllowed (history.map Transition.event) ↔
      ∀ cpu t, .put cpu t ∈ history.map c.observe → c.Allows cpu t := by
  constructor
  · intro allowed cpu t arrives
    obtain ⟨call, member, u, kind, rfl⟩ := put_mem_observe_iff.mp arrives
    rw [Allows, lawful.affinity_stamped]
    exact allowed call.event (List.mem_map_of_mem member) cpu u kind
  · intro allowed event eventMem cpu u kind
    obtain ⟨call, member, rfl⟩ := List.mem_map.mp eventMem
    have arrived := allowed cpu (c.stamped u call.source.clock)
      (put_mem_observe_iff.mpr ⟨call, member, u, kind, rfl⟩)
    rw [Allows, lawful.affinity_stamped] at arrived
    exact arrived

/-- A returned task had been inserted on the CPU that returns it. -/
theorem put_mem_of_returned (lawful : c.Lawful) (init : c.Init start)
    (run : Run c.Step start history s) {call : Transition c.State c.Event}
    (member : call ∈ history) {cpu : Nat} {t : c.Task}
    (returned : c.label call.event = .take cpu (some t)) :
    .put cpu t ∈ history.map c.observe := by
  obtain ⟨before, after, rfl⟩ := List.append_of_mem member
  obtain ⟨earlier, last, _⟩ := run.split
  obtain ⟨_, _, head, _⟩ := lawful.take last returned
  have waits : t ∈ (call.source.view c.tasks).waiting cpu := List.mem_of_head? head.symm
  have arrives := Queues.put_mem_of_waiting (lawful.waiting_nil init)
    (lawful.queueRun earlier) waits
  rw [Queues.labels_simulate] at arrives
  rw [List.map_append]
  exact List.mem_append_left _ arrives

theorem respectsAffinities_iff (lawful : c.Lawful) (init : c.Init start)
    (run : Run c.Step start history s) :
    c.RespectsAffinities history ↔ c.InsertedWhereAllowed (history.map Transition.event) := by
  have bounds : ∀ call ∈ history, (∀ cpu ∈ call.source.runQueues, cpu < numCpus) ∧
      ∀ cpu ∈ call.target.runQueues, cpu < numCpus :=
    fun call member => lawful.bounded (run.steps call member)
  have waiting := Queues.forall_waiting_iff (lawful.waiting_nil init) (lawful.queueRun run)
    c.Allows
  rw [Queues.labels_simulate] at waiting
  rw [insertedWhereAllowed_iff lawful, ← waiting]
  constructor
  · intro respects taken takenMem cpu t member
    obtain ⟨call, callMem, rfl⟩ := List.mem_map.mp takenMem
    exact (allAffinitiesRespected_iff lawful (bounds call callMem).2).mp
      (respects.queued call callMem) cpu t member
  · intro allowed
    refine ⟨?_, ?_⟩
    · intro call callMem
      apply (allAffinitiesRespected_iff lawful (bounds call callMem).2).mpr
      intro cpu t member
      exact allowed _ (List.mem_map_of_mem callMem) cpu t member
    · intro call callMem cpu t returned
      have known := (lawful.take (run.steps call callMem) returned).1
      have inserted := put_mem_of_returned lawful init run callMem returned
      exact ⟨(bounds call callMem).1 cpu known, waiting.mp allowed cpu t inserted⟩

end QueueScheduler

/--
On a run of either scheduler affinities are respected throughout exactly when
every call inserts a task that is allowed where it is inserted.
-/
theorem affinities_respected_iff (which : Concrete) {start s : which.scheduler.State}
    {history : which.scheduler.History} (init : which.scheduler.Init start)
    (run : Run which.scheduler.Step start history s) :
    which.scheduler.RespectsAffinities history ↔
      which.scheduler.InsertedWhereAllowed (history.map Transition.event) :=
  QueueScheduler.respectsAffinities_iff which.lawful init run

open RoundRobin.ConcreteScheduler in
theorem firstTurn_affinities_iff :
    Concrete.roundRobin.scheduler.RespectsAffinities (trace perform twoCpus firstTurn) ↔
      Concrete.roundRobin.scheduler.InsertedWhereAllowed
        ((trace perform twoCpus firstTurn).map Transition.event) :=
  affinities_respected_iff .roundRobin twoCpus_init (checkedRun twoCpus_init firstTurn_run)

namespace Affinity

/-- A round-robin task that is allowed on CPU 1 only is enqueued on CPU 0. -/
def roundRobinCalls : List RoundRobin.ConcreteScheduler.Event :=
  [.enqueue { RoundRobin.ConcreteScheduler.newTask 1 with cpuAffinity := {1} } 0]

/-- A fair task that is allowed on CPU 1 only is enqueued on CPU 0. -/
def fairCalls : List Fair.ConcreteScheduler.Event :=
  [.enqueue { Fair.ConcreteScheduler.newTask 1 0 with cpuAffinity := {1} } 0]

/-- Calls that meet every precondition may queue a task where it is not allowed. -/
theorem misplaced_task_accepted :
    (¬ ∀ (start s : RoundRobin.SchedState) (history : Concrete.roundRobin.scheduler.History),
      Concrete.roundRobin.scheduler.Init start →
        Run Concrete.roundRobin.scheduler.Step start history s →
          Concrete.roundRobin.scheduler.RespectsAffinities history) ∧
    ¬ ∀ (start s : Fair.SchedState) (history : Concrete.fair.scheduler.History),
      Concrete.fair.scheduler.Init start →
        Run Concrete.fair.scheduler.Step start history s →
          Concrete.fair.scheduler.RespectsAffinities history := by
  constructor
  · open RoundRobin.ConcreteScheduler in
    intro respected
    have calls : Run Step twoCpus (trace perform twoCpus roundRobinCalls)
        (roundRobinCalls.foldl perform twoCpus) :=
      Run.of_trace step_perform (by decide)
    have respects := respected _ _ _ twoCpus_init (checkedRun twoCpus_init calls)
    have queued : RoundRobin.AllAffinitiesRespected (roundRobinCalls.foldl perform twoCpus) :=
      respects.queued _ List.mem_cons_self
    have allowed := queued 0 (Finmap.mem_keys.mp (by decide))
      ({ newTask 1 with cpuAffinity := {1} }.stamped 0) (by decide)
    exact absurd allowed.2 (by decide)
  · open Fair.ConcreteScheduler in
    intro respected
    have calls : Run CheckedStep twoCpus (trace perform twoCpus fairCalls)
        (fairCalls.foldl perform twoCpus) :=
      Run.of_trace checkedStep_perform (by decide +kernel)
    have respects := respected _ _ _ twoCpus_init calls
    have queued : Fair.AllAffinitiesRespected (fairCalls.foldl perform twoCpus) :=
      respects.queued _ List.mem_cons_self
    have allowed := queued 0 (Finmap.mem_keys.mp (by decide +kernel))
      ({ newTask 1 0 with cpuAffinity := {1} }.stamped 0) (by decide +kernel)
    exact absurd allowed.2 (by decide)

end Affinity

end SchedExt.Schedulers
