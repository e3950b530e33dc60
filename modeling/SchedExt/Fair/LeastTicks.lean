import SchedExt.Fair.Preservation
import SchedExt.Foundations.LeastService

/-!
# Always scheduling the least virtual runtime

The steps of `FairnessPreserved` tick a task that has the least virtual runtime
of its weight.  Runs that tick a task with the least of all share the ticks in
inverse proportion to what each is charged.
-/

namespace SchedExt.Fair

open SchedExt.Domain SchedExt.Foundations

/-- A task is runnable or running. -/
def Task.Live (t : Task) : Prop :=
  t.state = .runnable ∨ t.state = .running

instance : DecidablePred Task.Live := fun t =>
  inferInstanceAs (Decidable (t.state = .runnable ∨ t.state = .running))

@[simp]
theorem Task.advanced_pid (t : Task) : t.advanced.pid = t.pid := rfl

@[simp]
theorem Task.advanced_weight (t : Task) : t.advanced.weight = t.weight := rfl

@[simp]
theorem Task.advanced_vruntime (t : Task) :
    t.advanced.vruntime = t.vruntime + deltaVruntime t := rfl

/-- The task after so many ticks. -/
def Task.after (t : Task) (ticks : Nat) : Task :=
  { t with vruntime := t.vruntime + ticks * deltaVruntime t }

@[simp]
theorem Task.after_vruntime (t : Task) (ticks : Nat) :
    (t.after ticks).vruntime = t.vruntime + ticks * deltaVruntime t := rfl

@[simp]
theorem Task.after_weight (t : Task) (ticks : Nat) : (t.after ticks).weight = t.weight := rfl

theorem Task.advanced_iterate (ticks : Nat) (t : Task) :
    Task.advanced^[ticks] t = t.after ticks := by
  induction ticks with
  | zero => simp [Task.after]
  | succ ticks ih =>
      rw [Function.iterate_succ_apply', ih]
      simp only [Task.advanced, Task.after, deltaVruntime, Nat.add_mul, Nat.one_mul, Nat.add_assoc]

/--
A tick for a runnable task that has the least virtual runtime of the runnable
tasks whose weight its own is compared with.
-/
structure TickAmong (compared : Nat → Nat → Prop) (s : SchedState) (scheduled : Task)
    (s' : SchedState) : Prop where
  validBefore : ValidState s
  validAfter : ValidState s'
  known : scheduled ∈ s.allTasks
  validTask : ValidTask scheduled
  runnable : scheduled.state = .runnable
  minimum : ∀ t ∈ s.allTasks, t.state = .runnable → compared scheduled.weight t.weight →
    scheduled.vruntime ≤ t.vruntime
  advanced : s'.allTasks = (s.allTasks \ {scheduled}) ∪ {scheduled.advanced}

/-- A tick for a task that has the least virtual runtime of all. -/
abbrev LeastTick : SchedState → Task → SchedState → Prop :=
  TickAmong fun _ _ => True

/-- The state after a tick for a task, as `FairnessPreserved` describes it. -/
def ticked (s : SchedState) (scheduled : Task) : SchedState :=
  { s with allTasks := (s.allTasks \ {scheduled}) ∪ {scheduled.advanced} }

/-- A task may be ticked: it is valid and runnable, and has the least virtual runtime. -/
def MayTick (s : SchedState) (scheduled : Task) : Prop :=
  ValidState s ∧ scheduled ∈ s.allTasks ∧ ValidTask scheduled ∧ scheduled.state = .runnable ∧
    ∀ t ∈ s.allTasks, t.state = .runnable → scheduled.vruntime ≤ t.vruntime

instance (s : SchedState) (scheduled : Task) : Decidable (MayTick s scheduled) := by
  unfold MayTick
  infer_instance

theorem leastTick_ticked (s : SchedState) (scheduled : Task) (allowed : MayTick s scheduled) :
    LeastTick s scheduled (ticked s scheduled) := by
  obtain ⟨validState, known, validTask, runnable, minimum⟩ := allowed
  exact {
    validBefore := validState
    validAfter := ⟨validState.bounded, validState.tasksValid, validState.backed⟩
    known := known
    validTask := validTask
    runnable := runnable
    minimum := fun t member tRunnable _ => minimum t member tRunnable
    advanced := rfl }

def runnableTasks (s : SchedState) : Finset Task :=
  s.allTasks.filter fun t => t.state = .runnable

theorem mem_runnableTasks {s : SchedState} {t : Task} :
    t ∈ runnableTasks s ↔ t ∈ s.allTasks ∧ t.state = .runnable :=
  Finset.mem_filter

/-- Where a runnable record replaces another one, it does so among the runnable ones. -/
theorem runnableTasks_replaced {s s' : SchedState} {old new : Task}
    (replaced : s'.allTasks = (s.allTasks \ {old}) ∪ {new}) (runnable : new.state = .runnable) :
    runnableTasks s' = (runnableTasks s \ {old}) ∪ {new} := by
  ext t
  rw [mem_replaced, mem_runnableTasks, mem_runnableTasks, replaced, mem_replaced]
  constructor
  · rintro ⟨⟨known, other⟩ | rfl, tRunnable⟩
    · exact Or.inl ⟨⟨known, tRunnable⟩, other⟩
    · exact Or.inr rfl
  · rintro (⟨⟨known, tRunnable⟩, other⟩ | rfl)
    · exact ⟨Or.inl ⟨known, other⟩, tRunnable⟩
    · exact ⟨Or.inr rfl, runnable⟩

/-- How often the records of a process were scheduled. -/
def ticksOf (history : List (Transition SchedState Task)) (pid : Nat) : Nat :=
  (history.map fun taken => taken.event.pid).count pid

section Tick

variable {compared : Nat → Nat → Prop} {s s' : SchedState} {scheduled t : Task}

/-- In a fair state the ticks among tasks of equal weight are those of `FairnessPreserved`. -/
theorem fairnessPreservedRequires_iff :
    FairnessPreservedRequires s s' scheduled ↔
      Fairness s ∧ TickAmong (fun a b => a = b) s scheduled s' := by
  constructor
  · intro required
    exact ⟨required.fair, {
      validBefore := required.validBefore
      validAfter := required.validAfter
      known := required.known
      validTask := required.validTask
      runnable := required.runnable
      minimum := fun t member runnable same => required.minimum t member runnable same.symm
      advanced := required.advanced }⟩
  · rintro ⟨fair, tick⟩
    exact {
      validBefore := tick.validBefore
      validAfter := tick.validAfter
      fair := fair
      known := tick.known
      validTask := tick.validTask
      runnable := tick.runnable
      minimum := fun t member runnable same => tick.minimum t member runnable same.symm
      advanced := tick.advanced }

/-- A task with the least virtual runtime of all has the least of those it is compared with. -/
theorem LeastTick.among (tick : LeastTick s scheduled s') : TickAmong compared s scheduled s' where
  validBefore := tick.validBefore
  validAfter := tick.validAfter
  known := tick.known
  validTask := tick.validTask
  runnable := tick.runnable
  minimum t member runnable _ := tick.minimum t member runnable trivial
  advanced := tick.advanced

theorem TickAmong.mem_iff (tick : TickAmong compared s scheduled s') :
    t ∈ s'.allTasks ↔ (t ∈ s.allTasks ∧ t ≠ scheduled) ∨ t = scheduled.advanced := by
  rw [tick.advanced, mem_replaced]

/-- A tick serves the least of the runnable tasks. -/
theorem LeastTick.servesLeast (tick : LeastTick s scheduled s') :
    ServesLeast Task.vruntime Task.advanced (runnableTasks s) scheduled (runnableTasks s') where
  known := mem_runnableTasks.mpr ⟨tick.known, tick.runnable⟩
  least other member := by
    obtain ⟨known, runnable⟩ := mem_runnableTasks.mp member
    exact tick.minimum other known runnable trivial
  raises := Nat.lt_add_of_pos_right (deltaVruntime_pos tick.validTask)
  replaced := runnableTasks_replaced tick.advanced tick.runnable

/-- A task that is not runnable is left alone. -/
theorem TickAmong.mem_of_not_runnable (tick : TickAmong compared s scheduled s')
    (member : t ∈ s.allTasks) (waits : t.state ≠ .runnable) : t ∈ s'.allTasks := by
  refine tick.mem_iff.mpr (Or.inl ⟨member, ?_⟩)
  rintro rfl
  exact waits tick.runnable

/-- Every record is, but for its virtual runtime, one from before. -/
theorem TickAmong.origin (tick : TickAmong compared s scheduled s') (member : t ∈ s'.allTasks) :
    ∃ old ∈ s.allTasks, old.pid = t.pid ∧ old.weight = t.weight ∧ old.state = t.state := by
  rcases tick.mem_iff.mp member with ⟨known, _⟩ | rfl
  · exact ⟨t, known, rfl, rfl, rfl⟩
  · exact ⟨scheduled, tick.known, rfl, rfl, rfl⟩

end Tick

/-! ## The shares of the runnable tasks -/

section Shares

variable {s s' : SchedState} {history : List (Transition SchedState Task)}

/-- A run of ticks as seen by the runnable tasks. -/
theorem servesLeast_of_run (run : Run LeastTick s history s') :
    Run (ServesLeast Task.vruntime Task.advanced) (runnableTasks s)
      (history.map fun taken =>
        ⟨runnableTasks taken.source, taken.event, runnableTasks taken.target⟩)
      (runnableTasks s') :=
  run.simulate runnableTasks Transition.event LeastTick.servesLeast

theorem servicesOf_runnableTasks (history : List (Transition SchedState Task)) (pid : Nat) :
    servicesOf Task.pid (history.map fun taken =>
      ⟨runnableTasks taken.source, taken.event, runnableTasks taken.target⟩) pid =
        ticksOf history pid := by
  unfold servicesOf ticksOf
  rw [List.map_map]
  rfl

/-- No process has two runnable records. -/
def SingleRunnable (s : SchedState) : Prop :=
  ∀ t ∈ s.allTasks, ∀ u ∈ s.allTasks, t.state = .runnable → u.state = .runnable →
    t.pid = u.pid → t = u

theorem SingleRunnable.injOn (single : SingleRunnable s) :
    Set.InjOn Task.pid (runnableTasks s) := by
  intro t member u other same
  obtain ⟨known, runnable⟩ := mem_runnableTasks.mp (Finset.mem_coe.mp member)
  obtain ⟨otherKnown, otherRunnable⟩ := mem_runnableTasks.mp (Finset.mem_coe.mp other)
  exact single t known u otherKnown runnable otherRunnable same

/--
In every run of ticks each runnable task is charged for exactly its ticks; the
ticks of two tasks differ, in virtual runtime, by no more than the head start of
one and one tick of the other; and nobody goes without a tick for longer than it
takes the others to get ahead.
-/
theorem shares_of_run (single : SingleRunnable s) (run : Run LeastTick s history s') :
    runnableTasks s' = (runnableTasks s).image (fun t => t.after (ticksOf history t.pid)) ∧
    (∀ t ∈ runnableTasks s, ∀ u ∈ runnableTasks s, 0 < ticksOf history t.pid →
      t.vruntime + ticksOf history t.pid * deltaVruntime t ≤
        u.vruntime + ticksOf history u.pid * deltaVruntime u + deltaVruntime t) ∧
    ∀ t ∈ runnableTasks s,
      (∑ u ∈ runnableTasks s, (t.vruntime + 1 - u.vruntime)) < history.length →
        0 < ticksOf history t.pid := by
  have served := servesLeast_of_run run
  refine ⟨?_, ?_, ?_⟩
  · have whole := ServesLeast.items_of_run Task.advanced_pid single.injOn served
    simpa only [servicesOf_runnableTasks, Task.advanced_iterate] using whole
  · intro t member u other ticked
    obtain ⟨before, count⟩ := Nat.exists_eq_add_one_of_ne_zero ticked.ne'
    have last := ServesLeast.last_service_le Task.advanced_pid single.injOn served member other
      ((servicesOf_runnableTasks history t.pid).trans count)
    rw [servicesOf_runnableTasks, Task.advanced_iterate, Task.advanced_iterate] at last
    rw [Task.after_vruntime, Task.after_vruntime] at last
    rw [count, Nat.add_mul, Nat.one_mul]
    omega
  · intro t member long
    have ticked := ServesLeast.services_pos_of_length Task.advanced_pid single.injOn served member
      (long.trans_eq (List.length_map _).symm)
    rwa [servicesOf_runnableTasks] at ticked

end Shares

/-- A task and one of half its weight. -/
def fullAndHalf : SchedState :=
  holding {waitingTask 1 1024 0, waitingTask 2 512 0} 0

/-- Three ticks of the two tasks, two of them for the heavier. -/
def threeTicks : List Task :=
  [waitingTask 1 1024 0, waitingTask 2 512 0, (waitingTask 1 1024 0).advanced]

theorem threeTicks_run : Run LeastTick fullAndHalf (trace ticked fullAndHalf threeTicks)
    (threeTicks.foldl ticked fullAndHalf) :=
  Run.of_trace leastTick_ticked (by decide)

theorem threeTicks_shared :
    runnableTasks (threeTicks.foldl ticked fullAndHalf) =
        {(waitingTask 1 1024 0).after 2, (waitingTask 2 512 0).after 1} ∧
      (waitingTask 1 1024 0).vruntime + 2 * 1000000 ≤
        (waitingTask 2 512 0).vruntime + 1 * 2000000 + 1000000 := by
  obtain ⟨whole, ahead, _⟩ := shares_of_run (by unfold SingleRunnable; decide) threeTicks_run
  exact ⟨whole, ahead (waitingTask 1 1024 0) (by decide) (waitingTask 2 512 0) (by decide)
    (by decide)⟩

end SchedExt.Fair
