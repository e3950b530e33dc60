import Mathlib.Data.List.Range
import SchedExt.Orchestrator.StateMachine

/-!
# The loop of the orchestrator

`run` starts at the first real stage, executes the current stage, advances and
saves, until the pipeline is done or the budget is exhausted.  What the agents
and tools do is a stream: one execution for every stage run, in order.
-/

namespace SchedExt.Orchestrator

/-- What one dispatched stage returns, or the text of what it raises, and how long it takes. -/
structure Execution where
  outcome : Except String StageResult
  duration : Rat

/-- The stages with an agent or a tool of their own. -/
def Stage.dispatched : Stage → Bool
  | .init => false
  | .done => false
  | _ => true

/-- `_run_stage` -/
def runStage (execution : Execution) (stage : Stage) : StageResult :=
  let result :=
    if stage.dispatched then
      match execution.outcome with
      | .ok result => result
      | .error e =>
          { stage := stage
            success := false
            failureKind := some .specInconsistent
            message := "Unhandled exception: " ++ e }
    else
      { stage := stage, success := true, message := "No-op stage" }
  { result with durationSeconds := execution.duration, stage := stage }

/-- One pass of the loop: the current stage is executed and its result processed. -/
def pass (self : PipelineState) (execution : Execution) : PipelineState × Except Raised Stage :=
  advance self (runStage execution self.currentStage)

/-- The stages executed, the states saved, the last state, and what is returned or raised. -/
structure RunResult where
  executed : List Stage
  saved : List PipelineState
  state : PipelineState
  returned : Except Raised Bool

/-- Only a pass that leaves something of the budget moves. -/
theorem lt_of_advance_ok {self moved : PipelineState} {result : StageResult} {next : Stage}
    (moves : advance self result = (moved, .ok next)) :
    self.iteration + 1 < self.maxIterations := by
  by_contra spent
  rw [advance_exceeded (Int.not_lt.mp spent)] at moves
  exact nomatch (Prod.mk.inj moves).2

theorem advance_ok {self moved : PipelineState} {result : StageResult} {next : Stage}
    (moves : advance self result = (moved, .ok next)) :
    nextStage result = some next ∧
      moved = { self with
        history := self.history ++ [result]
        iteration := self.iteration + 1
        currentStage := next } := by
  have left := lt_of_advance_ok moves
  cases follows : nextStage result with
  | some other =>
      rw [advance_moves left follows] at moves
      obtain ⟨movedEq, nextEq⟩ := Prod.mk.inj moves
      cases nextEq
      exact ⟨rfl, movedEq.symm⟩
  | none =>
      rw [advance_ends left follows] at moves
      exact nomatch (Prod.mk.inj moves).2

def loop (agents : Nat → Execution) (self : PipelineState) : RunResult :=
  if self.currentStage = .done then
    ⟨[], [], self, .ok true⟩
  else
    match moves : pass self (agents 0) with
    | (raising, .error raised) => ⟨[self.currentStage], [], raising, .error raised⟩
    | (moved, .ok _) =>
        let rest := loop (fun k => agents (k + 1)) moved
        { rest with
          executed := self.currentStage :: rest.executed
          saved := moved :: rest.saved }
termination_by (self.maxIterations - self.iteration).toNat
decreasing_by
  have left := lt_of_advance_ok moves
  obtain ⟨-, rfl⟩ := advance_ok moves
  change (self.maxIterations - (self.iteration + 1)).toNat < _
  omega

/-- `Orchestrator.run` -/
def run (agents : Nat → Execution) (self : PipelineState) : RunResult :=
  loop agents { self with currentStage := .specDrafting }

/-- The state of a new orchestrator. -/
def fresh (requirementsPath : String) (maxIterations : Int) (startedAt : Rat) : PipelineState :=
  { requirementsPath := requirementsPath, maxIterations := maxIterations, startedAt := startedAt }

variable {agents : Nat → Execution} {self : PipelineState}

/-! ## The passes of the loop -/

theorem loop_done (finished : self.currentStage = .done) :
    loop agents self = ⟨[], [], self, .ok true⟩ := by
  rw [loop, if_pos finished]

theorem loop_step (unfinished : self.currentStage ≠ .done) :
    loop agents self =
      match pass self (agents 0) with
      | (raising, .error raised) => ⟨[self.currentStage], [], raising, .error raised⟩
      | (moved, .ok _) =>
          let rest := loop (fun k => agents (k + 1)) moved
          { rest with
            executed := self.currentStage :: rest.executed
            saved := moved :: rest.saved } := by
  rw [loop, if_neg unfinished]
  split
  · rename_i moves
    rw [moves]
  · rename_i moves
    rw [moves]

theorem loop_exceeded (unfinished : self.currentStage ≠ .done)
    (spent : self.iteration + 1 ≥ self.maxIterations) :
    let result := runStage (agents 0) self.currentStage
    loop agents self =
      ⟨[self.currentStage], [],
        { self with history := self.history ++ [result], iteration := self.iteration + 1 },
        .error (.exceeded self.maxIterations result.failureKind)⟩ := by
  rw [loop_step unfinished, pass, advance_exceeded spent]

/-- The stage that follows the execution of a stage; `DONE` has none and stays. -/
def followedBy (execution : Execution) (stage : Stage) : Stage :=
  (nextStage (runStage execution stage)).getD .done

theorem nextStage_runStage {execution : Execution} {stage : Stage} (unfinished : stage ≠ .done) :
    nextStage (runStage execution stage) = some (followedBy execution stage) := by
  have running : (runStage execution stage).stage ≠ .done := unfinished
  obtain ⟨next, follows⟩ := exists_nextStage running
  rw [followedBy, follows]
  rfl

/-- The state after a pass within the budget. -/
def afterPass (self : PipelineState) (execution : Execution) : PipelineState :=
  { self with
    history := self.history ++ [runStage execution self.currentStage]
    iteration := self.iteration + 1
    currentStage := followedBy execution self.currentStage }

theorem pass_moves (unfinished : self.currentStage ≠ .done)
    (left : self.iteration + 1 < self.maxIterations) (execution : Execution) :
    pass self execution =
      (afterPass self execution, .ok (followedBy execution self.currentStage)) :=
  advance_moves left (nextStage_runStage unfinished)

theorem loop_moves (unfinished : self.currentStage ≠ .done)
    (left : self.iteration + 1 < self.maxIterations) :
    let rest := loop (fun k => agents (k + 1)) (afterPass self (agents 0))
    loop agents self =
      { rest with
        executed := self.currentStage :: rest.executed
        saved := afterPass self (agents 0) :: rest.saved } := by
  rw [loop_step unfinished, pass_moves unfinished left]

end SchedExt.Orchestrator
