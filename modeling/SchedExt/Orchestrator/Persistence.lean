import SchedExt.Foundations.Json
import SchedExt.Orchestrator.StateMachine

/-!
# Persistence of the pipeline state

`save` writes the state as one JSON document, stages by name and failure kinds
by value; `load` reads such a document back.
-/

namespace SchedExt.Orchestrator

open Foundations

/-- The name of a member of `Stage`. -/
def Stage.name : Stage → String
  | .init => "INIT"
  | .specDrafting => "SPEC_DRAFTING"
  | .specReview => "SPEC_REVIEW"
  | .impl => "IMPL"
  | .implVerify => "IMPL_VERIFY"
  | .bpfCompile => "BPF_COMPILE"
  | .bpfVerify => "BPF_VERIFY"
  | .testTrace => "TEST_TRACE"
  | .testFuzz => "TEST_FUZZ"
  | .testPerf => "TEST_PERF"
  | .report => "REPORT"
  | .done => "DONE"

def stages : List Stage :=
  [.init, .specDrafting, .specReview, .impl, .implVerify, .bpfCompile, .bpfVerify, .testTrace,
    .testFuzz, .testPerf, .report, .done]

/-- `Stage[name]` -/
def Stage.ofName (name : String) : Json.Decoded Stage :=
  match stages.find? fun stage => stage.name == name with
  | some stage => .ok stage
  | none => .error (.keyError name)

/-- The value of a member of `FailureKind`. -/
def FailureKind.value : FailureKind → String
  | .specInconsistent => "spec_inconsistent"
  | .specIncomplete => "spec_incomplete"
  | .implUnverified => "impl_unverified"
  | .invariantTooWeak => "invariant_too_weak"
  | .bpfCompileError => "bpf_compile_error"
  | .bpfVerifierReject => "bpf_verifier_reject"
  | .traceMismatch => "trace_mismatch"
  | .fuzzCrash => "fuzz_crash"
  | .perfRegression => "perf_regression"
  | .translationBug => "translation_bug"

def failureKinds : List FailureKind :=
  [.specInconsistent, .specIncomplete, .implUnverified, .invariantTooWeak, .bpfCompileError,
    .bpfVerifierReject, .traceMismatch, .fuzzCrash, .perfRegression, .translationBug]

/-- `FailureKind(value)` -/
def FailureKind.ofValue (value : String) : Json.Decoded FailureKind :=
  match failureKinds.find? fun kind => kind.value == value with
  | some kind => .ok kind
  | none => .error (.valueError value)

@[simp] theorem Stage.ofName_name (stage : Stage) : Stage.ofName stage.name = .ok stage := by
  cases stage <;> rfl

@[simp] theorem FailureKind.ofValue_value (kind : FailureKind) :
    FailureKind.ofValue kind.value = .ok kind := by
  cases kind <;> rfl

theorem FailureKind.value_truthy (kind : FailureKind) :
    (Json.str kind.value).truthy = true := by
  cases kind <;> rfl

/-! ## One result -/

namespace StageResult

/-- `r.failure_kind.value if r.failure_kind else None` -/
def failureField : Option FailureKind → Json
  | some kind => .str kind.value
  | none => .null

def document (r : StageResult) : Json :=
  .obj [
    ("stage", .str r.stage.name),
    ("success", .bool r.success),
    ("failure_kind", failureField r.failureKind),
    ("message", .str r.message),
    ("artifacts", .strings r.artifacts),
    ("duration_seconds", .float r.durationSeconds)]

/-- `FailureKind(field) if field else None` -/
def readFailureField (field : Json) : Json.Decoded (Option FailureKind) :=
  if field.truthy then do
    let kind ← FailureKind.ofValue (← field.asStr)
    return some kind
  else
    return none

def ofDocument (h : Json) : Json.Decoded StageResult := do
  return {
    stage := ← Stage.ofName (← (← h.item "stage").asStr)
    success := ← (← h.item "success").asBool
    failureKind := ← readFailureField (← h.item "failure_kind")
    message := ← (← h.item "message").asStr
    artifacts := ← (← h.item "artifacts").asStrings
    durationSeconds := ← (← h.item "duration_seconds").asFloat }

@[simp] theorem readFailureField_failureField (failureKind : Option FailureKind) :
    readFailureField (failureField failureKind) = .ok failureKind := by
  cases failureKind with
  | none => rfl
  | some kind =>
      rw [failureField, readFailureField, if_pos kind.value_truthy]
      simp [bind, Except.bind]
      rfl

theorem ofDocument_document (r : StageResult) : ofDocument r.document = .ok r := by
  simp [ofDocument, document, bind, Except.bind]
  rfl

theorem wellFormed_failureField (failureKind : Option FailureKind) :
    (failureField failureKind).WellFormed := by
  cases failureKind with
  | none => exact .null
  | some kind => exact .str _

theorem wellFormed_document (r : StageResult) : r.document.WellFormed := by
  refine .obj (by simp) ?_
  simp only [List.forall_mem_cons]
  refine ⟨.str _, .bool _, wellFormed_failureField _, .str _, .strings _, .float _, ?_⟩
  exact fun _ member => nomatch member

end StageResult

/-! ## The state -/

namespace PipelineState

variable {Text : Type}

def document (self : PipelineState) : Json :=
  .obj [
    ("current_stage", .str self.currentStage.name),
    ("iteration", .int self.iteration),
    ("max_iterations", .int self.maxIterations),
    ("requirements_path", .str self.requirementsPath),
    ("started_at", .float self.startedAt),
    ("history", .arr (self.history.map StageResult.document))]

def ofDocument (data : Json) : Json.Decoded PipelineState := do
  let state : PipelineState := {
    currentStage := ← Stage.ofName (← (← data.item "current_stage").asStr)
    iteration := ← (← data.item "iteration").asInt
    maxIterations := ← (← data.item "max_iterations").asInt
    requirementsPath := ← (← data.item "requirements_path").asStr
    startedAt := ← (← data.item "started_at").asFloat }
  let results ← (← (← data.item "history").items).mapM StageResult.ofDocument
  return { state with history := state.history ++ results }

/-- The text that is left in the file. -/
def save (codec : JsonCodec Text) (self : PipelineState) : Text :=
  codec.dumps self.document

def load (codec : JsonCodec Text) (text : Text) : Json.Decoded PipelineState := do
  let data ← codec.loads text
  ofDocument data

theorem ofDocument_document (self : PipelineState) : ofDocument self.document = .ok self := by
  have history : (self.history.map StageResult.document).mapM StageResult.ofDocument =
      .ok self.history :=
    Json.mapM_map_of_forall self.history fun r _ => r.ofDocument_document
  simp [ofDocument, document, bind, Except.bind, history]
  rfl

theorem wellFormed_document (self : PipelineState) : self.document.WellFormed := by
  refine .obj (by simp) ?_
  simp only [List.forall_mem_cons]
  refine ⟨.str _, .int _, .int _, .str _, .float _, .map_arr fun r _ => r.wellFormed_document, ?_⟩
  exact fun _ member => nomatch member

theorem loads_save (codec : JsonCodec Text) (self : PipelineState) :
    codec.loads (save codec self) = .ok self.document :=
  codec.lossless self.wellFormed_document

theorem load_save (codec : JsonCodec Text) (self : PipelineState) :
    load codec (save codec self) = .ok self := by
  rw [load, loads_save]
  exact self.ofDocument_document

/--
A state is read back as it was saved, and a state that was read back is saved
as the same document.
-/
theorem load_save_lossless (codec : JsonCodec Text) (self : PipelineState) :
    load codec (save codec self) = .ok self ∧
      ∀ loaded, load codec (save codec self) = .ok loaded →
        save codec loaded = save codec self ∧
          codec.loads (save codec loaded) = .ok self.document := by
  refine ⟨load_save codec self, fun loaded read => ?_⟩
  have same : self = loaded := Except.ok.inj ((load_save codec self).symm.trans read)
  rw [← same]
  exact ⟨rfl, loads_save codec self⟩

end PipelineState

end SchedExt.Orchestrator
