import SchedExt.Agents.DafnyOutput
import SchedExt.Agents.StoredText
import SchedExt.Agents.Workspace
import SchedExt.Foundations.Enclosure
import SchedExt.Orchestrator.StateMachine

/-!
# The verification agent

The agent verifies the specification files of the manifest and has them
reviewed.  The review is taken from the widest part of the response in braces;
a response that has none, or whose part is not a document, passes.
-/

namespace SchedExt.Agents

open Foundations Orchestrator

/-- What `json.loads` raises: the error that is caught, or another one. -/
inductive LoadsFault where
  | jsonDecodeError
  | raised

/-- What `run` raises. -/
inductive ReviewFault where
  | reading (fault : LoadFault)
  | loading
  | slicing
  | converting

/-- The fields of a review, as the document has them. -/
structure SpecReviewResult where
  isConsistent : Json
  missingConstraints : Json := .arr []
  suggestions : Json := .arr []

namespace VerifyAgent

section Run

variable {Text : Type} (sha256 : ByteArray → String) (codec : JsonCodec Text)
variable (loads : List Char → Except LoadsFault Json) (str : Json → String)

/-- `_run_dafny_verify` -/
def runDafnyVerify (verdict : Verdict) (paths : List String) : Bool × String :=
  if (paths.filter fun p => endsWith p ".dfy").isEmpty then (true, "No .dfy files to verify.")
  else
    match verdict with
    | .exited returncode stdout stderr => (returncode = 0, stdout ++ "\n" ++ stderr)
    | .notFound => (true, "Dafny not installed, skipping.")
    | .timedOut => (false, "Dafny verification timed out (300s).")

/-- `Path(path).read_text()` -/
def readText (workspace : Workspace Text) (path : String) : Except ReviewFault String :=
  match workspace.session.disk.files path with
  | none => .error (.reading (.fileNotFoundError path))
  | some data =>
      match readTextMode data with
      | none => .error (.reading .unicodeDecodeError)
      | some content => .ok content

def constraintsPath : String := "knowledge/ebpf/verifier_constraints.md"

def systemPromptPath : String := "agents/verify/prompts/system.md"

/-- The files that the conversation is made of, in the order in which they are read. -/
def promptFiles (workspace : Workspace Text) (specPaths : List String) (pipeline : PipelineState) :
    List String :=
  specPaths.filter workspace.isFile ++ [pipeline.requirementsPath] ++
    [constraintsPath].filter workspace.isFile ++ [systemPromptPath]

/-- `data.get(key, default)` -/
def field (fields : List (String × Json)) (key : String) (default : Json) : Json :=
  (fields.lookup key).getD default

/-- The review that a response stands for. -/
def reviewOf (response : String) : Except ReviewFault SpecReviewResult :=
  match Enclosure.widest '\x7b' '\x7d' response.toList with
  | none => .ok { isConsistent := .bool true }
  | some group =>
      match loads group with
      | .ok (.obj data) =>
          .ok
            { isConsistent := field data "is_consistent" (.bool false)
              missingConstraints := field data "missing_constraints" (.arr [])
              suggestions := field data "suggestions" (.arr []) }
      | .ok _ => .ok { isConsistent := .bool true }
      | .error .jsonDecodeError => .ok { isConsistent := .bool true }
      | .error .raised => .error .loading

/-- `_semantic_review` -/
def semanticReview (env : Environment) (workspace : Workspace Text) (specPaths : List String)
    (pipeline : PipelineState) : Except ReviewFault SpecReviewResult := do
  let _ ← (promptFiles workspace specPaths pipeline).mapM (readText workspace)
  reviewOf loads (env.responses 0)

/-- `items[:count]` -/
def slice (items : Json) (count : Nat) : Except ReviewFault (List Json) :=
  match items with
  | .arr items => .ok (items.take count)
  | .str text => .ok ((text.toList.take count).map fun c => .str (String.singleton c))
  | _ => .error .slicing

/-- A remark within a text. -/
def formatted : Json → String
  | .str remark => remark
  | remark => str remark

/-- The lines of a list of remarks. -/
def remarks (items : List Json) : String :=
  "\n".intercalate (items.map fun item => "  - " ++ formatted str item)

def located (d : DafnyDiagnostic) : String :=
  "  " ++ d.file ++ ":" ++ toString d.line ++ ": " ++ d.message

def inconsistent (verifyOutput : String) : Except ReviewFault StageResult :=
  match parseDafnyOutput verifyOutput with
  | none => .error .converting
  | some diagnostics =>
      let proofFailures := diagnostics.filter DafnyDiagnostic.isProofFailure
      let count := proofFailures.length
      .ok
        { stage := .specReview
          success := false
          failureKind := some .specInconsistent
          message := s!"Dafny verification failed with {count} proof errors.\n" ++
            "\n".intercalate ((proofFailures.take 10).map located) }

def incomplete (review : SpecReviewResult) : Except ReviewFault StageResult := do
  let missing ← slice review.missingConstraints 10
  let suggested ← slice review.suggestions 5
  return {
    stage := .specReview
    success := false
    failureKind := some .specIncomplete
    message := "Semantic review found issues:\n" ++ remarks str missing ++
      "\nSuggestions:\n" ++ remarks str suggested }

/-- The specification files of the manifest that are there. -/
def specPaths (workspace : Workspace Text) : List String :=
  ((workspace.listByKind .dafnySpec).map ArtifactMetadata.path).filter workspace.isFile

/-- What a review leads to: a log of the verification, or the remarks. -/
def concluded (now : Timestamp) (before : Workspace Text) (paths : List String)
    (verifyOutput : String) (review : SpecReviewResult) :
    Except ReviewFault (Workspace Text × StageResult) := do
  if review.isConsistent.truthy then
    let count := paths.length
    return (before.store sha256 codec now
        { kind := .dafnyProofLog
          path := "artifacts/proofs/spec_verify.log"
          content := .str verifyOutput
          createdBy := "verify_agent"
          dependsOn := some paths },
      { stage := .specReview
        success := true
        message := s!"Verified {count} spec files. Semantic review passed."
        artifacts := ["artifacts/proofs/spec_verify.log"] })
  else
    let result ← incomplete str review
    return (before, result)

/-- `run` -/
def run (env : Environment) (pipeline : PipelineState) (before : Workspace Text) :
    Except ReviewFault (Workspace Text × StageResult) :=
  if (before.listByKind .dafnySpec).isEmpty then
    .ok (before,
      { stage := .specReview
        success := false
        failureKind := some .specIncomplete
        message := "No Dafny spec files found in artifact store." })
  else
    let paths := specPaths before
    let verified := runDafnyVerify (env.verdicts 0) paths
    if verified.1 then do
      let review ← semanticReview loads env before paths pipeline
      concluded sha256 codec str (env.clock 0) before paths verified.2 review
    else do
      let result ← inconsistent verified.2
      return (before, result)

/-- The execution returns, with a success. -/
def ReportsSuccess (env : Environment) (pipeline : PipelineState) (before : Workspace Text) :
    Prop :=
  ∃ after result, run sha256 codec loads str env pipeline before = .ok (after, result) ∧
    result.success = true

end Run

end VerifyAgent

end SchedExt.Agents
