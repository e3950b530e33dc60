import SchedExt.Agents.TestAgent

/-!
# The stages without an agent

The orchestrator compiles the module, has it verified, and reports.  The report
has a line for every result in the history and for every artifact in the
manifest, and cannot be made of a failure without a kind.
-/

namespace SchedExt.Orchestrator

open Foundations Agents

/-- What a stage without an agent raises. -/
inductive ToolFault where
  | fileNotFoundError
  | attributeError

/-- `_run_bpf_compile` -/
def runBpfCompile : Verdict → Except ToolFault StageResult
  | .exited returncode _ stderr =>
      if returncode = 0 then
        .ok
          { stage := .bpfCompile
            success := true
            artifacts := ["impl/bpf/sched_ext_fair.bpf.o"] }
      else
        .ok
          { stage := .bpfCompile
            success := false
            failureKind := some .bpfCompileError
            message := truncated stderr 2000 }
  | .notFound => .error .fileNotFoundError
  | .timedOut =>
      .ok
        { stage := .bpfCompile
          success := false
          failureKind := some .bpfCompileError
          message := "Compilation timed out after 60s" }

def verifierTimedOut : StageResult where
  stage := .bpfVerify
  success := false
  failureKind := some .bpfVerifierReject
  message := "BPF verifier timed out"

/-- `_run_bpf_verify`: the program is loaded, and then removed. -/
def runBpfVerify (load remove : Verdict) : Except ToolFault StageResult :=
  match load with
  | .exited returncode _ stderr =>
      match remove with
      | .exited _ _ _ =>
          if returncode = 0 then .ok { stage := .bpfVerify, success := true }
          else
            .ok
              { stage := .bpfVerify
                success := false
                failureKind := some .bpfVerifierReject
                message := truncated stderr 2000 }
      | .notFound => .error .fileNotFoundError
      | .timedOut => .ok verifierTimedOut
  | .notFound => .error .fileNotFoundError
  | .timedOut => .ok verifierTimedOut

/-! ## The report -/

/-- How seconds are written: without decimals, and with one. -/
structure SecondsFormat where
  whole : Rat → String
  tenths : Rat → String

section Report

variable (format : SecondsFormat)

/-- The line of a result. -/
def resultLine (r : StageResult) : Except ToolFault String :=
  let status := if r.success then "PASS" else "FAIL"
  let line := "- [" ++ status ++ "] " ++ r.stage.name ++ " (" ++ format.tenths r.durationSeconds ++
    "s)"
  if r.success then .ok line
  else
    match r.failureKind with
    | some kind => .ok (line ++ " — " ++ kind.value ++ ": " ++ truncated r.message 80)
    | none => .error .attributeError

/-- The line of an artifact. -/
def artifactLine (recorded : ArtifactMetadata) : String :=
  "- `" ++ recorded.path ++ "` (" ++ recorded.kind.value ++ ", v" ++ toString recorded.version ++
    ")"

/-- The artifacts in the order of their creation. -/
def byCreation (manifest : Manifest) : List ArtifactMetadata :=
  manifest.values.mergeSort fun first second => first.createdAt.text ≤ second.createdAt.text

/-- The lines of the report. -/
def reportLines (self : PipelineState) (manifest : Manifest) (time : Rat) :
    Except ToolFault (List String) := do
  let results ← self.history.mapM (resultLine format)
  return [
    "# Verification Report",
    "Requirements: " ++ self.requirementsPath,
    "Iterations: " ++ toString self.iteration,
    "Duration: " ++ format.whole (time - self.startedAt) ++ "s",
    "",
    "## Stage History"] ++ results ++ ["", "## Artifacts Produced"] ++
      (byCreation manifest).map artifactLine

def reportPath : String := "artifacts/reports/verification-report.md"

/-- The call that stores the report. -/
def reportCall (lines : List String) : StoreCall where
  kind := .testReport
  path := reportPath
  content := .str ("\n".intercalate lines)
  createdBy := "orchestrator"

/-- `_generate_report`: what it writes, and the result. -/
def generateReport (self : PipelineState) (manifest : Manifest) (time : Rat) (now : Timestamp) :
    Except ToolFault (List Write × StageResult) := do
  let lines ← reportLines format self manifest time
  return ([.stored now (reportCall lines)],
    { stage := .report
      success := true
      artifacts := [reportPath] })

end Report

/-! ## What the results account for -/

theorem accounts_runBpfCompile {verdict : Verdict} {writes : List Write} {result : StageResult}
    (returns : runBpfCompile verdict = .ok result) : Accounts .bpfCompile writes result := by
  refine ⟨fun fails => ⟨.bpfCompileError, List.mem_singleton_self _, ?_⟩,
    fun _ other => absurd rfl other⟩
  unfold runBpfCompile at returns
  split at returns
  · split at returns
    · cases returns
      exact nomatch fails
    · cases returns
      rfl
  · cases returns
  · cases returns
    rfl

theorem accounts_runBpfVerify {load remove : Verdict} {writes : List Write}
    {result : StageResult} (returns : runBpfVerify load remove = .ok result) :
    Accounts .bpfVerify writes result := by
  unfold runBpfVerify at returns
  split at returns
  · split at returns
    · split at returns
      · cases returns
        exact .passed rfl (List.nil_subset _)
      · cases returns
        exact .failed (List.mem_singleton_self _) rfl rfl
    · cases returns
    · cases returns
      exact .failed (List.mem_singleton_self _) rfl rfl
  · cases returns
  · cases returns
    exact .failed (List.mem_singleton_self _) rfl rfl

theorem accounts_generateReport {format : SecondsFormat} {self : PipelineState}
    {manifest : Manifest} {time : Rat} {now : Timestamp} {writes : List Write}
    {result : StageResult}
    (returns : generateReport format self manifest time now = .ok (writes, result)) :
    Accounts .report writes result := by
  obtain ⟨lines, _, returned⟩ := Json.exists_of_bind_eq_ok returns
  cases returned
  exact .passed rfl (List.Subset.refl _)

end SchedExt.Orchestrator
