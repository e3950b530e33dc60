import SchedExt.Agents.Writes
import SchedExt.Orchestrator.Prerequisites

/-!
# The test agent

One agent runs the trace tests, the fuzzer and the benchmarks.  A failed trace
test is diagnosed from a response; a tool that is not there, and a prompt file
that is not, count as a pass.
-/

namespace SchedExt.Agents

open Foundations Orchestrator

/-- `text[-length:]` -/
def lastCharacters (text : String) (length : Nat) : String :=
  String.ofList (text.toList.drop (text.toList.length - length))

/-- What the test agent raises. -/
inductive TestFault where
  | reading (fault : ReviewFault)
  | unhashable
  | duration

/--
How an execution ends: it returns a result, or a result with a message that is
not a text, or raises.
-/
inductive TestOutcome where
  | returned (result : StageResult)
  | labelled (kind : FailureKind) (message : Json)
  | raised (fault : TestFault)

/-- `FUZZ_DURATION_SECONDS`, if it is a number, and the text of a missing tool. -/
structure FuzzSettings where
  duration : Option Int
  missing : String

inductive TestMode where
  | trace
  | fuzz
  | perf
  | unknown (mode : String)

namespace TestAgent

section Run

variable {Text : Type} (sha256 : ByteArray → String) (codec : JsonCodec Text)
variable (loads : List Char → Except LoadsFault Json) (dumps : Json → String)

/-! ## Traces -/

def minimalTrace : Json :=
  .obj [
    ("name", .str "basic_enqueue_dequeue"),
    ("steps", .arr [
      .obj [
        ("action", .str "Enqueue"),
        ("task", .obj [("pid", .int 1), ("vruntime", .int 0), ("weight", .int 1024)])],
      .obj [("action", .str "Dispatch"), ("cpu", .int 0), ("expected_task_pid", .int 1)]])]

/-- `_export_traces`: what it writes, and whether it succeeds. -/
def exportTraces : Verdict → List Write × Bool
  | .exited returncode _ _ => ([], returncode = 0)
  | _ =>
      ([.direct "tests/traces/fixtures/basic_enqueue_dequeue.json" (dumps minimalTrace)], true)

structure Diagnosis where
  kind : FailureKind
  message : Json

def kindMap : List (String × FailureKind) :=
  [("SPEC_INCOMPLETE", .specIncomplete), ("IMPL_UNVERIFIED", .implUnverified),
    ("TRANSLATION_BUG", .translationBug), ("BPF_VERIFIER_REJECT", .bpfVerifierReject)]

/-- `kind_map.get(kind, TRACE_MISMATCH)`, which raises for a list or a dictionary. -/
def diagnosedKind : Json → Except TestFault FailureKind
  | .str kind => .ok ((kindMap.lookup kind).getD .traceMismatch)
  | .arr _ => .error .unhashable
  | .obj _ => .error .unhashable
  | _ => .ok .traceMismatch

def systemPromptPath : String := "agents/test/prompts/system.md"

def mappingPath : String := "impl/bridge/mapping.md"

/-- The files that the conversation is made of, in the order in which they are read. -/
def promptFiles (workspace : Workspace Text) : List String :=
  systemPromptPath :: [mappingPath].filter workspace.isFile

/-- The diagnosis of a response that names none. -/
def undiagnosed (testOutput : String) : Diagnosis :=
  ⟨.traceMismatch, .str (truncated testOutput 1000)⟩

/-- The diagnosis that a response stands for. -/
def diagnosisOf (response testOutput : String) : Except TestFault Diagnosis :=
  match Enclosure.widest '\x7b' '\x7d' response.toList with
  | none => .ok (undiagnosed testOutput)
  | some group =>
      match loads group with
      | .ok (.obj data) => do
          let kind ← diagnosedKind (VerifyAgent.field data "kind" (.str ""))
          return ⟨kind,
            VerifyAgent.field data "message" (.str (truncated testOutput 1000))⟩
      | .ok _ => .ok (undiagnosed testOutput)
      | .error .jsonDecodeError => .ok (undiagnosed testOutput)
      | .error .raised => .error (.reading .loading)

/-- `Path(path).read_text()` -/
def readText (workspace : Workspace Text) (path : String) : Except TestFault String :=
  match VerifyAgent.readText workspace path with
  | .ok content => .ok content
  | .error fault => .error (.reading fault)

/-- `_diagnose_trace_failure` -/
def diagnoseTraceFailure (env : Environment) (workspace : Workspace Text) (testOutput : String) :
    Except TestFault Diagnosis := do
  let _ ← (promptFiles workspace).mapM (readText workspace)
  diagnosisOf loads (env.responses 0) testOutput

def skipped : TestOutcome :=
  .returned
    { stage := .testTrace
      success := true
      message := "pytest not available, skipped." }

/-- What a failed run of the tests leads to. -/
def diagnosed : Except TestFault Diagnosis → TestOutcome
  | .ok ⟨kind, .str message⟩ =>
      .returned
        { stage := .testTrace
          success := false
          failureKind := some kind
          message := message }
  | .ok ⟨kind, message⟩ => .labelled kind message
  -- The handler of a missing pytest also catches a prompt file that is missing.
  | .error (.reading (.reading (.fileNotFoundError _))) => skipped
  | .error fault => .raised fault

/-- `_run_trace_tests` -/
def runTraceTests (env : Environment) (before : Workspace Text) : List Write × TestOutcome :=
  let (exported, exportOk) := exportTraces dumps (env.verdicts 0)
  if exportOk then
    match env.verdicts 1 with
    | .exited returncode stdout stderr =>
        if returncode = 0 then
          (exported ++
            [.stored (env.clock 0)
              { kind := .testReport
                path := "artifacts/reports/trace-results.xml"
                content := .str stdout
                createdBy := "test_agent" }],
            .returned
              { stage := .testTrace
                success := true
                message := "All trace tests passed."
                artifacts := ["artifacts/reports/trace-results.xml"] })
        else
          (exported, diagnosed (diagnoseTraceFailure loads env
            (before.performAll sha256 codec exported) (stdout ++ stderr)))
    | .notFound => (exported, skipped)
    | .timedOut =>
        (exported, .returned
          { stage := .testTrace
            success := false
            failureKind := some .traceMismatch
            message := "Trace tests timed out (300s)." })
  else
    (exported, .returned
      { stage := .testTrace
        success := false
        failureKind := some .traceMismatch
        message := "Failed to export Dafny traces." })

/-! ## Fuzzing and benchmarks -/

/-- `_run_fuzz_tests` -/
def runFuzzTests (settings : FuzzSettings) (verdict : Verdict) : TestOutcome :=
  match settings.duration with
  | none => .raised .duration
  | some duration =>
      match verdict with
      | .exited returncode stdout stderr =>
          if returncode = 0 then
            .returned
              { stage := .testFuzz
                success := true
                message := s!"Fuzz testing passed ({duration}s, no invariant violations)." }
          else
            .returned
              { stage := .testFuzz
                success := false
                failureKind := some .fuzzCrash
                message := lastCharacters stdout 2000 ++ "\n" ++ lastCharacters stderr 500 }
      | _ =>
          .returned
            { stage := .testFuzz
              success := true
              message := "Fuzz infrastructure not available (" ++ settings.missing ++
                "), skipped." }

/-- `_run_perf_tests` -/
def runPerfTests (now : Timestamp) : Verdict → List Write × TestOutcome
  | .exited returncode stdout _ =>
      if returncode = 0 then
        ([.stored now
          { kind := .perfReport
            path := "artifacts/reports/perf-results.json"
            content := .str stdout
            createdBy := "test_agent" }],
          .returned
            { stage := .testPerf
              success := true
              message := "Performance within budget."
              artifacts := ["artifacts/reports/perf-results.json"] })
      else
        ([], .returned
          { stage := .testPerf
            success := false
            failureKind := some .perfRegression
            message := lastCharacters stdout 1500 })
  | _ =>
      ([], .returned
        { stage := .testPerf
          success := true
          message := "Perf infrastructure not available, skipped." })

/-- `run`: what it writes, and how it ends. -/
def run (mode : TestMode) (settings : FuzzSettings) (env : Environment)
    (pipeline : PipelineState) (before : Workspace Text) : List Write × TestOutcome :=
  match mode with
  | .trace => runTraceTests sha256 codec loads dumps env before
  | .fuzz => ([], runFuzzTests settings (env.verdicts 0))
  | .perf => runPerfTests (env.clock 0) (env.verdicts 0)
  | .unknown mode =>
      ([], .returned
        { stage := pipeline.currentStage
          success := false
          message := "Unknown test mode: " ++ mode })

/-! ## What the results account for -/

variable {sha256 codec loads dumps} {before : Workspace Text} {env : Environment}

theorem diagnosedKind_mem {value : Json} {kind : FailureKind}
    (mapped : diagnosedKind value = .ok kind) : kind ∈ reportedKinds .testTrace := by
  cases value with
  | str name =>
      obtain rfl := Except.ok.inj mapped
      cases found : kindMap.lookup name with
      | none => exact List.mem_cons_self
      | some known =>
          obtain ⟨before, after, whole, -⟩ := List.lookup_eq_some_iff.mp found
          have member : known ∈ kindMap.map Prod.snd := by
            rw [whole, List.map_append]
            exact List.mem_append_right _ List.mem_cons_self
          exact List.mem_cons_of_mem _ member
  | arr items => cases mapped
  | obj fields => cases mapped
  | _ =>
      obtain rfl := Except.ok.inj mapped
      exact List.mem_cons_self

theorem kind_diagnosisOf {response testOutput : String} {diagnosis : Diagnosis}
    (diagnosed : diagnosisOf loads response testOutput = .ok diagnosis) :
    diagnosis.kind ∈ reportedKinds .testTrace := by
  unfold diagnosisOf at diagnosed
  split at diagnosed
  · obtain rfl := Except.ok.inj diagnosed
    exact List.mem_cons_self
  · split at diagnosed
    · obtain ⟨kind, mapped, returned⟩ := Json.exists_of_bind_eq_ok diagnosed
      obtain rfl := Except.ok.inj returned
      exact diagnosedKind_mem mapped
    · obtain rfl := Except.ok.inj diagnosed
      exact List.mem_cons_self
    · obtain rfl := Except.ok.inj diagnosed
      exact List.mem_cons_self
    · cases diagnosed

theorem accounts_diagnosed {workspace : Workspace Text} {testOutput : String}
    {writes : List Write} {result : StageResult}
    (returns : diagnosed (diagnoseTraceFailure loads env workspace testOutput) =
      .returned result) : Accounts .testTrace writes result := by
  cases outcome : diagnoseTraceFailure loads env workspace testOutput with
  | ok diagnosis =>
      obtain ⟨contents, _, diagnosed⟩ := Json.exists_of_bind_eq_ok outcome
      have reported := kind_diagnosisOf diagnosed
      obtain ⟨kind, message⟩ := diagnosis
      rw [outcome] at returns
      cases message with
      | str text =>
          cases returns
          exact .failed reported rfl rfl
      | _ => cases returns
  | error fault =>
      rw [outcome] at returns
      unfold TestAgent.diagnosed at returns
      split at returns
      · rename_i kind message impossible
        cases impossible
      · cases returns
      · cases returns
        exact .passed rfl (List.nil_subset _)
      · cases returns

theorem accounts_runTraceTests {result : StageResult} {writes : List Write}
    (returns : runTraceTests sha256 codec loads dumps env before = (writes, .returned result)) :
    Accounts .testTrace writes result := by
  unfold runTraceTests at returns
  simp only at returns
  split at returns
  · split at returns
    · split at returns
      · cases returns
        refine .passed rfl ?_
        rw [Workspace.registrations_append]
        exact List.subset_append_right _ _
      · obtain ⟨rfl, outcome⟩ := Prod.mk.inj returns
        exact accounts_diagnosed outcome
    · cases returns
      exact .passed rfl (List.nil_subset _)
    · cases returns
      exact .failed List.mem_cons_self rfl rfl
  · cases returns
    exact .failed List.mem_cons_self rfl rfl

theorem accounts_runFuzzTests {settings : FuzzSettings} {verdict : Verdict}
    {writes : List Write} {result : StageResult}
    (returns : runFuzzTests settings verdict = .returned result) :
    Accounts .testFuzz writes result := by
  unfold runFuzzTests at returns
  split at returns
  · cases returns
  · split at returns
    · split at returns
      · cases returns
        exact .passed rfl (List.nil_subset _)
      · cases returns
        exact .failed (List.mem_singleton_self _) rfl rfl
    · cases returns
      exact .passed rfl (List.nil_subset _)

theorem accounts_runPerfTests {now : Timestamp} {verdict : Verdict} {writes : List Write}
    {result : StageResult} (returns : runPerfTests now verdict = (writes, .returned result)) :
    Accounts .testPerf writes result := by
  unfold runPerfTests at returns
  split at returns
  · split at returns
    · cases returns
      exact .passed rfl (List.Subset.refl _)
    · cases returns
      exact .failed (List.mem_singleton_self _) rfl rfl
  · cases returns
    exact .passed rfl (List.nil_subset _)

end Run

end TestAgent

end SchedExt.Agents
