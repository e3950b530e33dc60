import SchedExt.Fair.Records

/-!
# Safety of the fair scheduler

Whether fairness and starvation freedom hold in a reached state is decided by
the calls alone.  Records keep the virtual runtime they came with and stay
runnable in `all_tasks` for ever, so fairness is a matter of the tasks that
callers pass, and starvation freedom of the number of calls since.
-/

namespace SchedExt.Fair.ConcreteScheduler

open SchedExt.Domain SchedExt.Foundations

variable {start s : SchedState} {history : List (Transition SchedState Event)}

/-- A record is an enqueued task, stamped with the number of calls before its own. -/
theorem mem_records_iff (clockZero : start.clock = 0) (run : Run Step start history s)
    (t : Task) :
    t ∈ records history ↔ ∃ before u cpu after,
      history.map Transition.event = before ++ .enqueue u cpu :: after ∧
        t = u.stamped before.length := by
  have clock_eq {front : List (Transition SchedState Event)} {reached : SchedState}
      (earlier : Run Step start front reached) : reached.clock = front.length := by
    rw [earlier.counts fun taken => taken.clock_eq, clockZero, Nat.zero_add]
  constructor
  · intro member
    obtain ⟨⟨source, event, target⟩, callMem, isStored⟩ := List.mem_filterMap.mp member
    obtain ⟨front, back, rfl⟩ := List.append_of_mem callMem
    obtain ⟨earlier, _, _⟩ := run.split
    cases event with
    | enqueue u cpu =>
        obtain rfl : u.stamped source.clock = t := Option.some.inj isStored
        refine ⟨front.map Transition.event, u, cpu, back.map Transition.event, by simp, ?_⟩
        rw [List.length_map, ← clock_eq earlier]
    | dispatch cpu next => cases isStored
  · rintro ⟨before, u, cpu, after, whole, rfl⟩
    obtain ⟨front, source, target, back, rfl, rfl, _, earlier, _⟩ := run.split_event whole
    refine List.mem_filterMap.mpr ⟨_, List.mem_append_right _ List.mem_cons_self, ?_⟩
    rw [List.length_map, ← clock_eq earlier]
    rfl

/-- Enqueued tasks of different processes and equal weight are within the fairness bound. -/
def EnqueuedFair (events : List Event) : Prop :=
  ∀ t1 cpu1 t2 cpu2, .enqueue t1 cpu1 ∈ events → .enqueue t2 cpu2 ∈ events →
    t1.weight = t2.weight → t1.pid ≠ t2.pid →
      absDiff t1.vruntime t2.vruntime ≤ fairnessBound

/-- Fewer calls than the starvation bound are made from any enqueue on. -/
def EnqueuedLately (events : List Event) : Prop :=
  ∀ before t cpu after, events = before ++ .enqueue t cpu :: after →
    after.length + 1 < starvationBound

theorem fairness_iff (init : EmptyInit start) (run : Run Step start history s) :
    Fairness s ↔ EnqueuedFair (history.map Transition.event) := by
  have recorded := mem_allTasks_iff init.noTasks run
  have isRecord := mem_records_iff init.clockZero run
  constructor
  · intro fair t1 cpu1 t2 cpu2 first second sameWeight different
    obtain ⟨before1, after1, whole1⟩ := List.append_of_mem first
    obtain ⟨before2, after2, whole2⟩ := List.append_of_mem second
    have record1 := (isRecord _).mpr ⟨before1, t1, cpu1, after1, whole1, rfl⟩
    have record2 := (isRecord _).mpr ⟨before2, t2, cpu2, after2, whole2, rfl⟩
    exact fair (t1.stamped before1.length) ((recorded _).mpr record1)
      (t2.stamped before2.length) ((recorded _).mpr record2)
      (Or.inl (records_good run _ record1).2) (Or.inl (records_good run _ record2).2)
      sameWeight different
  · intro fair t1 member1 t2 member2 _ _ sameWeight different
    obtain ⟨before1, u1, cpu1, after1, whole1, rfl⟩ := (isRecord _).mp ((recorded _).mp member1)
    obtain ⟨before2, u2, cpu2, after2, whole2, rfl⟩ := (isRecord _).mp ((recorded _).mp member2)
    exact fair u1 cpu1 u2 cpu2 (by simp [whole1]) (by simp [whole2]) sameWeight different

theorem noStarvation_iff (init : EmptyInit start) (run : Run Step start history s) :
    NoStarvation s ↔ EnqueuedLately (history.map Transition.event) := by
  have recorded := mem_allTasks_iff init.noTasks run
  have isRecord := mem_records_iff init.clockZero run
  have clock : s.clock = (history.map Transition.event).length := by
    rw [run.counts fun taken => taken.clock_eq, init.clockZero, Nat.zero_add, List.length_map]
  constructor
  · intro noStarvation before t cpu after whole
    have record := (isRecord _).mpr ⟨before, t, cpu, after, whole, rfl⟩
    have waited := noStarvation _ ((recorded _).mpr record) (records_good run _ record).2
    rw [clock, whole, Task.stamped_enqueueTime, List.length_append, List.length_cons] at waited
    omega
  · intro lately t member _
    obtain ⟨before, u, cpu, after, whole, rfl⟩ := (isRecord _).mp ((recorded _).mp member)
    have short := lately before u cpu after whole
    rw [clock, whole, Task.stamped_enqueueTime, List.length_append, List.length_cons]
    omega

/--
A state reached by a run from empty queues is safe exactly when the enqueued
tasks of equal weight came with virtual runtimes within the fairness bound and
fewer calls than the starvation bound were made from any enqueue on.
-/
theorem safetyInvariant_iff (init : EmptyInit start)
    (run : Run CheckedStep start history s) :
    AbstractScheduler.SafetyInvariant s ↔
      EnqueuedFair (history.map Transition.event) ∧
        EnqueuedLately (history.map Transition.event) := by
  have steps := run.mono CheckedStep.step
  exact and_congr (fairness_iff init steps) (noStarvation_iff init steps)

theorem tiedCalls_safetyInvariant_iff :
    AbstractScheduler.SafetyInvariant afterTiedCalls ↔
      EnqueuedFair ((trace perform twoCpus tiedCalls).map Transition.event) ∧
        EnqueuedLately ((trace perform twoCpus tiedCalls).map Transition.event) :=
  safetyInvariant_iff twoCpus_init tiedCalls_run

/-- Two processes enter with virtual runtimes twice the fairness bound apart. -/
def farApart : List Event :=
  [.enqueue (newTask 1 0) 0, .enqueue (newTask 2 20000000) 0]

theorem farApart_disciplined : Disciplined farApart :=
  @Disciplined.first (farApart.take 1) _ 0
    (@Disciplined.first [] _ 0 .start (by simp [Unseen])) (by simp [Unseen, farApart, newTask])

/-- Disciplined runs may reach an unsafe state. -/
theorem disciplined_run_unsafe :
    ¬ ∀ (start s : SchedState) (history : List (Transition SchedState Event)),
      EmptyInit start → Run CheckedStep start history s →
        Disciplined (history.map Transition.event) →
          AbstractScheduler.SafetyInvariant s := by
  intro safe
  have run : Run CheckedStep twoCpus (trace perform twoCpus farApart)
      (farApart.foldl perform twoCpus) :=
    Run.of_trace checkedStep_perform (by decide +kernel)
  have fair := (safe _ _ _ twoCpus_init run farApart_disciplined).1
  have bounded := fair ((newTask 1 0).stamped 0) (by decide +kernel)
    ((newTask 2 20000000).stamped 1) (by decide +kernel) (Or.inl rfl) (Or.inl rfl) rfl (by decide)
  exact absurd bounded (by decide)

end SchedExt.Fair.ConcreteScheduler
