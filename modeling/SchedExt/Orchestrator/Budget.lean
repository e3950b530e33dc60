import Mathlib.Data.ENat.Lattice
import SchedExt.Orchestrator.Loop

/-!
# The iteration budget

The routing tables applied to the results of the stages, without any budget,
lead to `DONE` after some number of executions or never.  A run with a budget
follows them, and stops one execution short of what its budget allows.
-/

namespace SchedExt.Orchestrator

/-- The stage reached from a stage by the two tables after a number of executions. -/
def stageFrom (agents : Nat → Execution) (stage : Stage) : Nat → Stage
  | 0 => stage
  | count + 1 => stageFrom (fun k => agents (k + 1)) (followedBy (agents 0) stage) count

theorem stageFrom_done (agents : Nat → Execution) (count : Nat) :
    stageFrom agents .done count = .done := by
  induction count generalizing agents with
  | zero => rfl
  | succ count ih => exact ih _

theorem stageFrom_mono {agents : Nat → Execution} {stage : Stage} {first second : Nat}
    (finished : stageFrom agents stage first = .done) (later : first ≤ second) :
    stageFrom agents stage second = .done := by
  induction first generalizing agents stage second with
  | zero =>
      have already : stage = .done := finished
      rw [already]
      exact stageFrom_done agents second
  | succ first ih =>
      obtain ⟨rest, rfl⟩ := Nat.exists_eq_add_of_le' later
      change stageFrom (fun k => agents (k + 1)) (followedBy (agents 0) stage) (rest + first) =
        .done
      exact ih finished (Nat.le_add_left first rest)

/-- The number of executions after which the tables first reach `DONE`. -/
noncomputable def completion (agents : Nat → Execution) : ℕ∞ :=
  ⨅ count : {count : Nat // stageFrom agents .specDrafting count = .done}, (count.val : ℕ∞)

theorem completion_le_iff {agents : Nat → Execution} {count : Nat} :
    completion agents ≤ count ↔ stageFrom agents .specDrafting count = .done := by
  constructor
  · intro within
    by_contra unfinished
    have beyond : ((count + 1 : Nat) : ℕ∞) ≤ completion agents := by
      refine le_iInf fun ⟨other, finished⟩ => ?_
      have later : count < other := by
        by_contra before
        exact unfinished (stageFrom_mono finished (Nat.not_lt.mp before))
      exact_mod_cast later
    have impossible : count + 1 ≤ count := by exact_mod_cast beyond.trans within
    exact Nat.not_succ_le_self count impossible
  · intro finished
    exact iInf_le_of_le ⟨count, finished⟩ le_rfl

variable {agents : Nat → Execution} {self : PipelineState}

/-- A run that reaches `DONE` within its budget executes just the stages on the way. -/
theorem loop_completes {count : Nat}
    (finished : stageFrom agents self.currentStage count = .done)
    (first : ∀ earlier < count, stageFrom agents self.currentStage earlier ≠ .done)
    (left : self.iteration + count < self.maxIterations) :
    (loop agents self).executed.length = count ∧ (loop agents self).returned = .ok true := by
  induction count generalizing agents self with
  | zero =>
      rw [loop_done finished]
      exact ⟨rfl, rfl⟩
  | succ count ih =>
      have unfinished : self.currentStage ≠ .done := first 0 (Nat.succ_pos count)
      rw [loop_moves unfinished (by push_cast at left; omega)]
      have remaining : (afterPass self (agents 0)).iteration + count <
          (afterPass self (agents 0)).maxIterations := by
        change self.iteration + 1 + count < self.maxIterations
        push_cast at left
        omega
      obtain ⟨executed, returned⟩ := ih finished
        (fun earlier before => first (earlier + 1) (Nat.succ_lt_succ before)) remaining
      exact ⟨congrArg (· + 1) executed, returned⟩

/-- A run that has not reached `DONE` one execution before its budget ends exceeds it. -/
theorem loop_exceeds {budget : Nat} (positive : 0 < budget)
    (unfinished : ∀ earlier < budget, stageFrom agents self.currentStage earlier ≠ .done)
    (left : self.iteration + budget = self.maxIterations) :
    (loop agents self).executed.length = budget ∧
      ∃ last, (loop agents self).returned = .error (.exceeded self.maxIterations last) := by
  induction budget generalizing agents self with
  | zero => exact absurd positive (Nat.lt_irrefl 0)
  | succ budget ih =>
      have running : self.currentStage ≠ .done := unfinished 0 positive
      cases budget with
      | zero =>
          rw [loop_exceeded running (by push_cast at left; omega)]
          exact ⟨rfl, _, rfl⟩
      | succ budget =>
          rw [loop_moves running (by push_cast at left; omega)]
          have remaining : (afterPass self (agents 0)).iteration + (budget + 1 : Nat) =
              (afterPass self (agents 0)).maxIterations := by
            change self.iteration + 1 + (budget + 1 : Nat) = self.maxIterations
            push_cast at left ⊢
            omega
          obtain ⟨executed, returned⟩ := ih (Nat.succ_pos budget)
            (fun earlier before => unfinished (earlier + 1) (Nat.succ_lt_succ before)) remaining
          exact ⟨congrArg (· + 1) executed, returned⟩

/--
The budget is exact: a run executes the stages up to completion or as many as
it may, returns when completion is within the budget, and raises otherwise.
-/
structure BudgetExact (agents : Nat → Execution) (maxIterations : Nat) (result : RunResult) :
    Prop where
  executed : (result.executed.length : ℕ∞) = min (completion agents) maxIterations
  returns : result.returned = .ok true ↔ completion agents ≤ maxIterations
  raises : (∃ last, result.returned = .error (.exceeded maxIterations last)) ↔
    (maxIterations : ℕ∞) < completion agents

/-- A run returns when completion takes fewer executions than the budget, and raises otherwise. -/
theorem run_fresh (agents : Nat → Execution) {maxIterations : Nat} (requirementsPath : String)
    (startedAt : Rat) (positive : 1 ≤ maxIterations) :
    let result := run agents (fresh requirementsPath maxIterations startedAt)
    (result.executed.length : ℕ∞) = min (completion agents) maxIterations ∧
      (completion agents < maxIterations ∧ result.returned = .ok true ∨
        maxIterations ≤ completion agents ∧
          ∃ last, result.returned = .error (.exceeded maxIterations last)) := by
  intro result
  rcases lt_or_ge (completion agents) (maxIterations : ℕ∞) with within | beyond
  · obtain ⟨count, complete⟩ := ENat.ne_top_iff_exists.mp within.ne_top
    rw [← complete] at within ⊢
    have left : count < maxIterations := by exact_mod_cast within
    obtain ⟨executed, returned⟩ : result.executed.length = count ∧ result.returned = .ok true := by
      refine loop_completes (completion_le_iff.mp complete.ge)
        (fun earlier before finished => ?_) ?_
      · have sooner : (count : ℕ∞) ≤ earlier := complete ▸ completion_le_iff.mpr finished
        exact Nat.not_lt.mpr (by exact_mod_cast sooner) before
      · change (0 : Int) + count < maxIterations
        omega
    rw [executed, min_eq_left within.le]
    exact ⟨rfl, .inl ⟨within, returned⟩⟩
  · obtain ⟨executed, raised⟩ : result.executed.length = maxIterations ∧
        ∃ last, result.returned = .error (.exceeded maxIterations last) := by
      refine loop_exceeds positive (fun earlier before finished => ?_) ?_
      · have sooner : (maxIterations : ℕ∞) ≤ earlier :=
          beyond.trans (completion_le_iff.mpr finished)
        exact Nat.not_lt.mpr (by exact_mod_cast sooner) before
      · change (0 : Int) + maxIterations = maxIterations
        omega
    rw [executed, min_eq_right beyond]
    exact ⟨rfl, .inr ⟨beyond, raised⟩⟩

/-- The budget is exact unless its last execution is the one that completes the pipeline. -/
theorem budgetExact_iff (agents : Nat → Execution) (maxIterations : Nat)
    (requirementsPath : String) (startedAt : Rat) (positive : 1 ≤ maxIterations) :
    BudgetExact agents maxIterations
        (run agents (fresh requirementsPath maxIterations startedAt)) ↔
      completion agents ≠ maxIterations := by
  obtain ⟨executed, ends⟩ := run_fresh agents requirementsPath startedAt positive
  rcases ends with ⟨within, returned⟩ | ⟨beyond, last, raised⟩
  · refine ⟨fun _ => within.ne, fun _ => ⟨executed, ?_, ?_⟩⟩
    · exact ⟨fun _ => within.le, fun _ => returned⟩
    · rw [returned]
      exact ⟨fun ⟨_, raised⟩ => (nomatch raised), fun more => absurd more within.not_gt⟩
  · constructor
    · intro exact equal
      have returned := exact.returns.mpr equal.le
      exact nomatch raised.symm.trans returned
    · intro apart
      have more := lt_of_le_of_ne beyond apart.symm
      refine ⟨executed, ?_, ?_⟩
      · rw [raised]
        exact ⟨fun returned => (nomatch returned), fun within => absurd within more.not_ge⟩
      · exact ⟨fun _ => more, fun _ => ⟨last, raised⟩⟩

/-- Every stage passes. -/
def allPass : Nat → Execution :=
  fun _ => ⟨.ok { stage := .init, success := true }, 0⟩

theorem completion_allPass : completion allPass = 10 := by
  refine le_antisymm (completion_le_iff.mpr (by decide : _ = _)) ?_
  by_contra sooner
  have early : completion allPass ≤ (9 : Nat) := Order.le_of_lt_add_one (not_le.mp sooner)
  exact absurd (completion_le_iff.mp early) (by decide)

theorem allPass_eleven_budgetExact : BudgetExact allPass 11 (run allPass (fresh "" 11 0)) := by
  refine (budgetExact_iff allPass 11 "" 0 (by decide)).mpr ?_
  rw [completion_allPass]
  decide

/-- With the default budget a pipeline whose ten stages all pass is reported as a failure. -/
theorem allPass_ten_not_budgetExact :
    (∃ last, (run allPass (fresh "" 10 0)).returned = .error (.exceeded 10 last)) ∧
      ¬ BudgetExact allPass 10 (run allPass (fresh "" 10 0)) := by
  obtain ⟨-, ends⟩ := run_fresh allPass "" 0 (by decide : 1 ≤ 10)
  rcases ends with ⟨within, -⟩ | ⟨-, last, raised⟩
  · rw [completion_allPass] at within
    exact absurd within (lt_irrefl _)
  · refine ⟨⟨last, raised⟩, fun exact => ?_⟩
    have returned := exact.returns.mpr completion_allPass.le
    exact nomatch raised.symm.trans returned

end SchedExt.Orchestrator
