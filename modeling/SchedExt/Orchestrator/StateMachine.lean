import Mathlib.Data.Rat.Defs

/-!
# The pipeline state machine

Stages, results of stages and the state of the pipeline.  `advance` records a
result, charges the iteration and moves to the next stage: forward after a
success, to the stage that its kind is routed to after a failure.
-/

namespace SchedExt.Orchestrator

inductive Stage where
  | init
  | specDrafting
  | specReview
  | impl
  | implVerify
  | bpfCompile
  | bpfVerify
  | testTrace
  | testFuzz
  | testPerf
  | report
  | done
  deriving DecidableEq

inductive FailureKind where
  | specInconsistent
  | specIncomplete
  | implUnverified
  | invariantTooWeak
  | bpfCompileError
  | bpfVerifierReject
  | traceMismatch
  | fuzzCrash
  | perfRegression
  | translationBug
  deriving DecidableEq

/-- `FAILURE_ROUTING` -/
def failureRouting : FailureKind → Stage
  | .specInconsistent => .specDrafting
  | .specIncomplete => .specDrafting
  | .implUnverified => .impl
  | .invariantTooWeak => .impl
  | .bpfCompileError => .impl
  | .bpfVerifierReject => .impl
  | .traceMismatch => .impl
  | .fuzzCrash => .specReview
  | .perfRegression => .impl
  | .translationBug => .impl

/-- `FAILURE_ROUTING.get(kind, Stage.SPEC_REVIEW)` -/
def routed : Option FailureKind → Stage
  | some kind => failureRouting kind
  | none => .specReview

/-- `PipelineState.FORWARD`, which has no entry for `DONE`. -/
def forward : Stage → Option Stage
  | .init => some .specDrafting
  | .specDrafting => some .specReview
  | .specReview => some .impl
  | .impl => some .implVerify
  | .implVerify => some .bpfCompile
  | .bpfCompile => some .bpfVerify
  | .bpfVerify => some .testTrace
  | .testTrace => some .testFuzz
  | .testFuzz => some .testPerf
  | .testPerf => some .report
  | .report => some .done
  | .done => none

structure StageResult where
  stage : Stage
  success : Bool
  failureKind : Option FailureKind := none
  message : String := ""
  artifacts : List String := []
  durationSeconds : Rat := 0
  deriving DecidableEq

structure PipelineState where
  currentStage : Stage := .init
  iteration : Int := 0
  maxIterations : Int := 10
  history : List StageResult := []
  requirementsPath : String := ""
  startedAt : Rat
  deriving DecidableEq

/-- The name of a member of `FailureKind`. -/
def FailureKind.name : FailureKind → String
  | .specInconsistent => "SPEC_INCONSISTENT"
  | .specIncomplete => "SPEC_INCOMPLETE"
  | .implUnverified => "IMPL_UNVERIFIED"
  | .invariantTooWeak => "INVARIANT_TOO_WEAK"
  | .bpfCompileError => "BPF_COMPILE_ERROR"
  | .bpfVerifierReject => "BPF_VERIFIER_REJECT"
  | .traceMismatch => "TRACE_MISMATCH"
  | .fuzzCrash => "FUZZ_CRASH"
  | .perfRegression => "PERF_REGRESSION"
  | .translationBug => "TRANSLATION_BUG"

/-- An exception that leaves `advance`. -/
inductive Raised where
  | runtimeError (message : String)
  | keyError (stage : Stage)
  deriving DecidableEq

/-- The exception for an exhausted budget. -/
abbrev Raised.exceeded (maxIterations : Int) (lastFailure : Option FailureKind) : Raised :=
  let kind := match lastFailure with
    | some kind => "FailureKind." ++ kind.name
    | none => "None"
  .runtimeError s!"Pipeline exceeded {maxIterations} iterations. Last failure: {kind}"

/-- The state after `advance`, and the stage it returns or what it raises. -/
def advance (self : PipelineState) (result : StageResult) :
    PipelineState × Except Raised Stage :=
  let self :=
    { self with history := self.history ++ [result], iteration := self.iteration + 1 }
  if self.iteration ≥ self.maxIterations then
    (self, .error (.exceeded self.maxIterations result.failureKind))
  else if result.success then
    match forward result.stage with
    | some next => ({ self with currentStage := next }, .ok next)
    | none => (self, .error (.keyError result.stage))
  else
    let target := routed result.failureKind
    ({ self with currentStage := target }, .ok target)

/-- The stage that follows a result by the two tables alone. -/
def nextStage (result : StageResult) : Option Stage :=
  if result.success then forward result.stage else some (routed result.failureKind)

variable {self : PipelineState} {result : StageResult}

/-! ## What one call does -/

theorem advance_exceeded (spent : self.iteration + 1 ≥ self.maxIterations) :
    advance self result =
      ({ self with history := self.history ++ [result], iteration := self.iteration + 1 },
        .error (.exceeded self.maxIterations result.failureKind)) :=
  if_pos spent

theorem advance_moves (left : self.iteration + 1 < self.maxIterations) {next : Stage}
    (moves : nextStage result = some next) :
    advance self result =
      ({ self with
          history := self.history ++ [result]
          iteration := self.iteration + 1
          currentStage := next }, .ok next) := by
  unfold advance
  simp only [ge_iff_le, if_neg (Int.not_le.mpr left)]
  unfold nextStage at moves
  cases success : result.success with
  | true =>
      rw [success, if_pos rfl] at moves
      rw [if_pos rfl, moves]
  | false =>
      rw [success, if_neg Bool.false_ne_true] at moves
      rw [if_neg Bool.false_ne_true, Option.some.inj moves]

/-- A success of `DONE` has no stage to go to. -/
theorem advance_ends (left : self.iteration + 1 < self.maxIterations)
    (ends : nextStage result = none) :
    advance self result =
      ({ self with history := self.history ++ [result], iteration := self.iteration + 1 },
        .error (.keyError result.stage)) := by
  unfold advance
  simp only [ge_iff_le, if_neg (Int.not_le.mpr left)]
  unfold nextStage at ends
  cases success : result.success with
  | true =>
      rw [success, if_pos rfl] at ends
      rw [if_pos rfl, ends]
  | false =>
      rw [success, if_neg Bool.false_ne_true] at ends
      exact nomatch ends

theorem forward_isSome {stage : Stage} (unfinished : stage ≠ .done) : (forward stage).isSome := by
  cases stage with
  | done => exact absurd rfl unfinished
  | _ => rfl

/-- Every result of a stage other than `DONE` is followed by a stage. -/
theorem exists_nextStage (unfinished : result.stage ≠ .done) :
    ∃ next, nextStage result = some next := by
  unfold nextStage
  split
  · exact Option.isSome_iff_exists.mp (forward_isSome unfinished)
  · exact ⟨_, rfl⟩

end SchedExt.Orchestrator
