import SchedExt.Fair.Types

/-!
# When one step preserves fairness and freedom from starvation

Advancing a task keeps fairness exactly when the advance does not carry it
beyond the bound over a task of its weight, and the minimality of the task does
not see to that.  Letting time pass keeps freedom from starvation exactly when
every other task that goes on waiting has more of its budget left than passes.
-/

namespace SchedExt.Fair

open SchedExt.Domain

/-! ## Fairness -/

/-- The task after the tick that it is scheduled for. -/
def Task.advanced (t : Task) : Task :=
  { t with vruntime := t.vruntime + deltaVruntime t }

/-- The `requires` clauses of `FairnessPreserved`, for a valid task. -/
structure FairnessPreservedRequires (s s' : SchedState) (scheduled : Task) : Prop where
  validBefore : ValidState s
  validAfter : ValidState s'
  fair : Fairness s
  known : scheduled ∈ s.allTasks
  validTask : ValidTask scheduled
  runnable : scheduled.state = .runnable
  minimum : ∀ t ∈ s.allTasks, t.state = .runnable → t.weight = scheduled.weight →
    scheduled.vruntime ≤ t.vruntime
  advanced : s'.allTasks = (s.allTasks \ {scheduled}) ∪ {scheduled.advanced}

/-- The advance stays within the bound over every other live task of the weight. -/
def AdvanceFits (s : SchedState) (scheduled : Task) : Prop :=
  ∀ peer ∈ s.allTasks, (peer.state = .runnable ∨ peer.state = .running) →
    peer.weight = scheduled.weight → peer.pid ≠ scheduled.pid →
      scheduled.vruntime + deltaVruntime scheduled ≤ peer.vruntime + fairnessBound

theorem absDiff_comm (a b : Nat) : absDiff a b = absDiff b a := by
  unfold absDiff
  split
  · split
    · omega
    · rfl
  · split
    · rfl
    · omega

theorem absDiff_le_iff {a b bound : Nat} :
    absDiff a b ≤ bound ↔ a ≤ b + bound ∧ b ≤ a + bound := by
  unfold absDiff
  split
  · omega
  · omega

section Advance

variable {s s' : SchedState} {scheduled : Task}

/-- A task after the step is a task before it that was not scheduled, or the advanced one. -/
theorem FairnessPreservedRequires.mem_iff (required : FairnessPreservedRequires s s' scheduled)
    {t : Task} :
    t ∈ s'.allTasks ↔ (t ∈ s.allTasks ∧ t ≠ scheduled) ∨ t = scheduled.advanced := by
  rw [required.advanced, Finset.mem_union, Finset.mem_sdiff, Finset.mem_singleton,
    Finset.mem_singleton]

/-- The advanced task is within the bound of another one if it is not beyond it. -/
theorem FairnessPreservedRequires.absDiff_le (required : FairnessPreservedRequires s s' scheduled)
    (fits : AdvanceFits s scheduled) {peer : Task} (known : peer ∈ s.allTasks)
    (live : peer.state = .runnable ∨ peer.state = .running)
    (sameWeight : peer.weight = scheduled.weight) (different : peer.pid ≠ scheduled.pid) :
    absDiff scheduled.advanced.vruntime peer.vruntime ≤ fairnessBound := by
  have near := required.fair scheduled required.known peer known (Or.inl required.runnable) live
    sameWeight.symm different.symm
  have above := (absDiff_le_iff.mp near).2
  have below := fits peer known live sameWeight different
  apply absDiff_le_iff.mpr
  refine ⟨below, ?_⟩
  show peer.vruntime ≤ scheduled.vruntime + deltaVruntime scheduled + fairnessBound
  omega

/-- Scheduling a task keeps fairness exactly when its advance fits. -/
theorem fairnessPreserved_iff (required : FairnessPreservedRequires s s' scheduled) :
    Fairness s' ↔ AdvanceFits s scheduled := by
  constructor
  · intro fair peer known live sameWeight different
    have notScheduled : peer ≠ scheduled := fun same => different (congrArg Task.pid same)
    have near := fair scheduled.advanced (required.mem_iff.mpr (Or.inr rfl)) peer
      (required.mem_iff.mpr (Or.inl ⟨known, notScheduled⟩)) (Or.inl required.runnable) live
      sameWeight.symm different.symm
    exact (absDiff_le_iff.mp near).1
  · intro fits t1 member1 t2 member2 live1 live2 sameWeight different
    rcases required.mem_iff.mp member1 with ⟨known1, _⟩ | rfl
    · rcases required.mem_iff.mp member2 with ⟨known2, _⟩ | rfl
      · exact required.fair t1 known1 t2 known2 live1 live2 sameWeight different
      · rw [absDiff_comm]
        exact required.absDiff_le fits known1 live1 sameWeight different
    · rcases required.mem_iff.mp member2 with ⟨known2, _⟩ | rfl
      · exact required.absDiff_le fits known2 live2 sameWeight.symm different.symm
      · exact absurd rfl different

/-- A heavy task that no task of its weight is running beside may always be scheduled. -/
theorem advanceFits_of_weight (required : FairnessPreservedRequires s s' scheduled)
    (heavy : 103 ≤ scheduled.weight)
    (alone : ∀ t ∈ s.allTasks, t.state = .running → t.weight = scheduled.weight →
      t.pid = scheduled.pid) : AdvanceFits s scheduled := by
  intro peer known live sameWeight different
  have short : deltaVruntime scheduled ≤ fairnessBound := by
    have scaled : deltaVruntime scheduled ≤ 1000000 * 1024 / 103 :=
      Nat.div_le_div_left heavy (by decide)
    exact Nat.le_trans scaled (by decide)
  rcases live with runnable | running
  · exact Nat.add_le_add (required.minimum peer known runnable sameWeight) short
  · exact absurd (alone peer known running sameWeight) different

end Advance

/-- A state without queues that has some tasks. -/
def holding (tasks : Finset Task) (clock : Nat) : SchedState where
  runQueues := ∅
  allTasks := tasks
  clock := clock
  activeCpus := ∅

theorem holding_valid (tasks : Finset Task) (clock : Nat) : ValidState (holding tasks clock) where
  bounded cpu member := by
    cases Finset.notMem_empty cpu member
  tasksValid cpu member := by
    cases Finset.notMem_empty cpu member
  backed := Finset.empty_subset _

/-- A runnable task without affinity that has not run. -/
def waitingTask (pid weight enqueueTime : Nat) : Task where
  pid := pid
  vruntime := 0
  weight := weight
  state := .runnable
  cpuAffinity := ∅
  enqueueTime := enqueueTime

instance (s : SchedState) : Decidable (Fairness s) := by
  unfold Fairness
  infer_instance

instance (s : SchedState) : Decidable (NoStarvation s) := by
  unfold NoStarvation
  infer_instance

/-- Of two tasks with the least weight either one has the minimum. -/
theorem lightTasks_required :
    FairnessPreservedRequires (holding {waitingTask 1 1 0, waitingTask 2 1 0} 0)
      (holding {waitingTask 2 1 0, (waitingTask 1 1 0).advanced} 0) (waitingTask 1 1 0) where
  validBefore := holding_valid _ _
  validAfter := holding_valid _ _
  fair := by decide
  known := by decide
  validTask := by decide
  runnable := rfl
  minimum := by decide
  advanced := by decide

/-- One tick of the lightest tasks is longer than the fairness bound. -/
theorem fairness_lost : ¬ ∀ (s s' : SchedState) (scheduled : Task),
    FairnessPreservedRequires s s' scheduled → Fairness s' := by
  intro preserved
  exact absurd (preserved _ _ _ lightTasks_required) (by decide)

/-- Two tasks of the greatest weight. -/
theorem heavyTasks_preserved :
    Fairness (holding {waitingTask 2 1024 0, (waitingTask 1 1024 0).advanced} 0) ↔
      AdvanceFits (holding {waitingTask 1 1024 0, waitingTask 2 1024 0} 0)
        (waitingTask 1 1024 0) :=
  fairnessPreserved_iff {
    validBefore := holding_valid _ _
    validAfter := holding_valid _ _
    fair := by decide
    known := by decide
    validTask := by decide
    runnable := rfl
    minimum := by decide
    advanced := by decide }

/-! ## Freedom from starvation -/

/-- `RemainingBudget` -/
def remainingBudget (t : Task) (clock : Nat) : Int :=
  starvationBound - ((clock : Int) - t.enqueueTime)

/-- The `requires` clauses of `StarvationPreserved`. -/
structure StarvationPreservedRequires (s s' : SchedState) (scheduled : Task) : Prop where
  validBefore : ValidState s
  validAfter : ValidState s'
  unstarved : NoStarvation s
  known : scheduled ∈ s.allTasks
  runnable : scheduled.state = .runnable
  tick : s'.clock ≤ s.clock + 1000000
  reset : ∀ t ∈ s'.allTasks, t.pid = scheduled.pid → t.enqueueTime = s'.clock
  unchanged : ∀ t ∈ s'.allTasks, t.pid ≠ scheduled.pid →
    ∃ t' ∈ s.allTasks, t'.pid = t.pid ∧ t.enqueueTime = t'.enqueueTime

/-- A record that another task goes on waiting with has more budget left than time passes. -/
def BudgetLasts (s s' : SchedState) (scheduled : Task) : Prop :=
  ∀ t ∈ s'.allTasks, t.state = .runnable → t.pid ≠ scheduled.pid →
    ∀ t' ∈ s.allTasks, t'.pid = t.pid → t.enqueueTime = t'.enqueueTime →
      (s'.clock : Int) - s.clock < remainingBudget t' s.clock

section Waiting

variable {s s' : SchedState} {scheduled : Task}

/-- A wait stays below the bound if the time that passes is less than what remained. -/
theorem lt_remainingBudget_iff {t t' : Task} {before after : Nat}
    (same : t.enqueueTime = t'.enqueueTime) :
    (after : Int) - before < remainingBudget t' before ↔
      (after : Int) - t.enqueueTime < starvationBound := by
  unfold remainingBudget
  rw [same]
  omega

/-- Scheduling a task keeps freedom from starvation exactly when the budgets last. -/
theorem starvationPreserved_iff (required : StarvationPreservedRequires s s' scheduled) :
    NoStarvation s' ↔ BudgetLasts s s' scheduled := by
  constructor
  · intro unstarved t member runnable _ t' _ _ same
    exact (lt_remainingBudget_iff same).mpr (unstarved t member runnable)
  · intro lasts t member runnable
    by_cases own : t.pid = scheduled.pid
    · rw [required.reset t member own, Int.sub_self]
      decide
    · obtain ⟨t', known, samePid, same⟩ := required.unchanged t member own
      exact (lt_remainingBudget_iff same).mp
        (lasts t member runnable own t' known samePid same)

end Waiting

/-- A task has nearly exhausted its budget when another one is scheduled. -/
theorem lateTask_required :
    StarvationPreservedRequires
      (holding {waitingTask 1 1 0, waitingTask 2 1 0} 499999999)
      (holding {waitingTask 1 1 500999999, waitingTask 2 1 0} 500999999) (waitingTask 1 1 0) where
  validBefore := holding_valid _ _
  validAfter := holding_valid _ _
  unstarved := by decide
  known := by decide
  runnable := rfl
  tick := by decide
  reset := by decide
  unchanged := by decide

/-- One tick takes a waiting task beyond the bound. -/
theorem starvation_reached : ¬ ∀ (s s' : SchedState) (scheduled : Task),
    StarvationPreservedRequires s s' scheduled → NoStarvation s' := by
  intro preserved
  exact absurd (preserved _ _ _ lateTask_required) (by decide)

/-- Another task has just begun to wait. -/
theorem freshTask_preserved :
    NoStarvation (holding {waitingTask 1 1 1000000, waitingTask 2 1 0} 1000000) ↔
      BudgetLasts (holding {waitingTask 1 1 0, waitingTask 2 1 0} 0)
        (holding {waitingTask 1 1 1000000, waitingTask 2 1 0} 1000000) (waitingTask 1 1 0) :=
  starvationPreserved_iff {
    validBefore := holding_valid _ _
    validAfter := holding_valid _ _
    unstarved := by decide
    known := by decide
    runnable := rfl
    tick := by decide
    reset := by decide
    unchanged := by decide }

end SchedExt.Fair
