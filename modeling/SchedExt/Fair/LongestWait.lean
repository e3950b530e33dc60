import SchedExt.Fair.LeastTicks
import SchedExt.Foundations.OldestFirst
import SchedExt.Foundations.Simulation

/-!
# Always scheduling the longest wait

The runs whose steps are those of `StarvationPreserved`, each for the runnable
task that has waited longest and leaving all other records alone.  None of them
starves a task exactly when, at the start, the budget of every task outlasts one
tick for each of the others that may be scheduled before it.
-/

namespace SchedExt.Fair

open SchedExt.Domain SchedExt.Foundations

/-- A tick schedules a task with the longest wait, whose enqueue time is reset. -/
structure LongestWaitTick (s : SchedState) (scheduled : Task) (s' : SchedState) : Prop where
  validBefore : ValidState s
  validAfter : ValidState s'
  known : scheduled ∈ s.allTasks
  runnable : scheduled.state = .runnable
  longest : ∀ t ∈ s.allTasks, t.state = .runnable → scheduled.enqueueTime ≤ t.enqueueTime
  forward : s.clock ≤ s'.clock
  tick : s'.clock ≤ s.clock + 1000000
  reset : s'.allTasks = (s.allTasks \ {scheduled}) ∪ {scheduled.stamped s'.clock}

/-- The runnable tasks as items that wait. -/
def waiting (s : SchedState) : Waiting Task :=
  ⟨s.clock, runnableTasks s⟩

variable {s s' : SchedState} {scheduled : Task}

/-- With one record for each process the tick is one of `StarvationPreserved`. -/
theorem LongestWaitTick.requires (taken : LongestWaitTick s scheduled s')
    (unstarved : NoStarvation s)
    (single : ∀ t ∈ s.allTasks, ∀ u ∈ s.allTasks, t.pid = u.pid → t = u) :
    StarvationPreservedRequires s s' scheduled where
  validBefore := taken.validBefore
  validAfter := taken.validAfter
  unstarved := unstarved
  known := taken.known
  runnable := taken.runnable
  tick := taken.tick
  reset t member own := by
    rw [taken.reset, mem_replaced] at member
    rcases member with ⟨known, other⟩ | rfl
    · exact absurd (single t known scheduled taken.known own) other
    · rfl
  unchanged t member different := by
    rw [taken.reset, mem_replaced] at member
    rcases member with ⟨known, _⟩ | rfl
    · exact ⟨t, known, rfl, rfl⟩
    · exact absurd rfl different

theorem LongestWaitTick.renewsOldest (taken : LongestWaitTick s scheduled s') :
    RenewsOldest Task.enqueueTime Task.stamped 1000000 (waiting s) scheduled (waiting s') where
  known := mem_runnableTasks.mpr ⟨taken.known, taken.runnable⟩
  oldest other member := by
    obtain ⟨known, runnable⟩ := mem_runnableTasks.mp member
    exact taken.longest other known runnable
  forward := taken.forward
  short := taken.tick
  replaced := runnableTasks_replaced taken.reset taken.runnable

/-- Every step of the waiting tasks is one of a state that they are the runnable tasks of. -/
theorem longestWaitTick_simulates :
    Simulation (RenewsOldest Task.enqueueTime Task.stamped 1000000) LongestWaitTick
      (fun now s => ValidState s ∧ waiting s = now) (fun _ _ => True) where
  answered := by
    rintro before scheduled after s ⟨validState, rfl⟩ step
    obtain ⟨known, runnable⟩ := mem_runnableTasks.mp step.known
    let next : SchedState := { s with
      clock := after.clock
      allTasks := (s.allTasks \ {scheduled}) ∪ {scheduled.stamped after.clock} }
    have validNext : ValidState next :=
      ⟨validState.bounded, validState.tasksValid, validState.backed⟩
    have taken : LongestWaitTick s scheduled next := {
      validBefore := validState
      validAfter := validNext
      known := known
      runnable := runnable
      longest := fun t tKnown tRunnable =>
        step.oldest t (mem_runnableTasks.mpr ⟨tKnown, tRunnable⟩)
      forward := step.forward
      tick := step.short
      reset := rfl }
    refine ⟨_, next, .single taken, trivial, validNext, ?_⟩
    have items : runnableTasks next = after.items := by
      rw [runnableTasks_replaced taken.reset
        (show (scheduled.stamped next.clock).state = .runnable from runnable)]
      exact step.replaced.symm
    exact congrArg (Waiting.mk after.clock) items

theorem noStarvation_iff_inTime :
    NoStarvation s ↔ (waiting s).InTime Task.enqueueTime starvationBound := by
  constructor
  · intro unstarved t member
    obtain ⟨known, runnable⟩ := mem_runnableTasks.mp member
    have short := unstarved t known runnable
    show s.clock < t.enqueueTime + starvationBound
    omega
  · intro inTime t known runnable
    have short : s.clock < t.enqueueTime + starvationBound :=
      inTime t (mem_runnableTasks.mpr ⟨known, runnable⟩)
    omega

/-- The runs starve no task exactly when those of the waiting tasks keep them in time. -/
theorem noStarvation_of_runs_iff_inTime (validState : ValidState s) :
    (∀ history s', Run LongestWaitTick s history s' → NoStarvation s') ↔
      ∀ history now, Run (RenewsOldest Task.enqueueTime Task.stamped 1000000) (waiting s) history
        now → now.InTime Task.enqueueTime starvationBound := by
  constructor
  · intro always history now run
    obtain ⟨_, s', answer, _, _, rfl⟩ := longestWaitTick_simulates.run run ⟨validState, rfl⟩
    exact noStarvation_iff_inTime.mp (always _ s' answer)
  · intro always history s' run
    exact noStarvation_iff_inTime.mpr
      (always _ _ (run.simulate waiting Transition.event LongestWaitTick.renewsOldest))

theorem schedulable_iff_remainingBudget :
    (waiting s).Schedulable Task.enqueueTime 1000000 starvationBound ↔
      ∀ t ∈ runnableTasks s,
        (1000000 * (ahead Task.enqueueTime (runnableTasks s) t).card : Int) <
          remainingBudget t s.clock := by
  refine forall₂_congr fun t _ => ?_
  show s.clock + 1000000 * (ahead Task.enqueueTime (runnableTasks s) t).card <
    t.enqueueTime + starvationBound ↔ _
  unfold remainingBudget
  omega

/--
No run of ticks for the longest wait starves a task exactly when every runnable
task has more budget left than the ticks take that the others, of no later
enqueue time, may be given before it.
-/
theorem noStarvation_of_runs_iff (validState : ValidState s)
    (past : ∀ t ∈ s.allTasks, t.state = .runnable → t.enqueueTime ≤ s.clock) :
    (∀ history s', Run LongestWaitTick s history s' → NoStarvation s') ↔
      ∀ t ∈ runnableTasks s,
        (1000000 * (ahead Task.enqueueTime (runnableTasks s) t).card : Int) <
          remainingBudget t s.clock := by
  have stamped : (waiting s).Stamped Task.enqueueTime := by
    intro t member
    obtain ⟨known, runnable⟩ := mem_runnableTasks.mp member
    exact past t known runnable
  rw [noStarvation_of_runs_iff_inTime validState,
    RenewsOldest.inTime_of_runs_iff Task.stamped_enqueueTime (by decide) stamped]
  exact schedulable_iff_remainingBudget

/-- Three tasks, two of which have as much budget left as two ticks take. -/
def threeLate : SchedState :=
  holding {waitingTask 1 1 0, waitingTask 2 1 0, waitingTask 3 1 1000000} 498000000

theorem threeLate_unstarved :
    remainingBudget (waitingTask 1 1 0) threeLate.clock = 2 * 1000000 ∧
      ∀ history s', Run LongestWaitTick threeLate history s' → NoStarvation s' := by
  refine ⟨by decide, ?_⟩
  exact (noStarvation_of_runs_iff (holding_valid _ _) (by decide)).mpr (by decide)

end SchedExt.Fair
