import SchedExt.Agents.SpecAgent

/-!
# The implementation agent

The agent stores the file blocks of a response, and as long as the verification
fails writes those of up to five more responses over them.  Its parser writes
every block that it finds as well.
-/

namespace SchedExt.Agents

open Foundations Orchestrator

/-- `MAX_LSP_ITERATIONS` -/
def maxLspIterations : Nat := 5

/-- The Dafny files of the three directories that the second stage lists. -/
structure Listing where
  domain : List String
  properties : List String
  refinements : List String

namespace ImplAgent

section Run

variable {Text : Type} (sha256 : ByteArray → String) (codec : JsonCodec Text)

/-- `_parse_file_blocks`, which writes every block; no write of it fails. -/
def parseBlocks (workspace : Workspace Text) (response : String) :
    Workspace Text × Dict String String :=
  (workspace.writeAll (fileBlocks response), parseFileBlocks response)

/-- `_verify_dafny` -/
def verifyDafny (workspace : Workspace Text) (verdict : Verdict) (paths : List String) :
    Bool × String :=
  if (workspace.existing paths).isEmpty then (true, "No .dfy files found.")
  else
    match verdict with
    | .exited returncode stdout stderr => (returncode = 0, stdout ++ "\n" ++ stderr)
    | .notFound => (true, "Dafny not available.")
    | .timedOut => (false, "Verification timed out (600s).")

/-- The kind that a path is registered with. -/
def kindOf (path : String) : ArtifactKind :=
  if endsWith path ".dfy" then .dafnyImpl
  else if endsWith path ".c" || endsWith path ".h" then .cSource
  else .mappingDoc

def storeCall (specs : List String) (path content : String) : StoreCall where
  kind := kindOf path
  path := path
  content := .str content
  createdBy := "impl_agent"
  dependsOn := some specs

/-- One round of the loop: the blocks of a response are parsed, and written once more. -/
def fix (workspace : Workspace Text) (response : String) : Workspace Text :=
  let parsed := parseBlocks workspace response
  parsed.1.writeAll parsed.2.entries

/-- What the loop leaves: whether the verification passed, and the last output. -/
structure Fixed (Text : Type) where
  workspace : Workspace Text
  artifacts : List String
  ok : Bool
  output : String

/-- The loop, with the rounds that are left and the round that is next. -/
def fixLoop (env : Environment) (paths : List String) :
    Nat → Nat → Workspace Text → List String → String → Fixed Text
  | 0, _, workspace, artifacts, output => ⟨workspace, artifacts, false, output⟩
  | rounds + 1, iteration, workspace, artifacts, _ =>
      let verified := verifyDafny workspace (env.verdicts iteration) paths
      if verified.1 then ⟨workspace, artifacts, true, verified.2⟩
      else
        let fixResponse := env.responses (iteration + 1)
        fixLoop env paths rounds (iteration + 1) (fix workspace fixResponse)
          (artifacts ++ (parseFileBlocks fixResponse).keys) verified.2

/-- The paths of the specification files in the manifest. -/
def specFiles (workspace : Workspace Text) : List String :=
  (workspace.listByKind .dafnySpec).map ArtifactMetadata.path

/-- The result that the loop leads to. -/
def concluded (fixed : Fixed Text) (generated : Nat) : Workspace Text × StageResult :=
  if fixed.ok then
    (fixed.workspace,
      { stage := .impl
        success := true
        message := s!"Implementation verified. {generated} files generated."
        artifacts := fixed.artifacts })
  else
    let output := truncated fixed.output 1500
    (fixed.workspace,
      { stage := .impl
        success := false
        failureKind := some .implUnverified
        message :=
          s!"Implementation not verified after {maxLspIterations} fix iterations.\n{output}"
        artifacts := fixed.artifacts })

theorem concluded_fst (fixed : Fixed Text) (generated : Nat) :
    (concluded fixed generated).1 = fixed.workspace := by
  unfold concluded
  split <;> rfl

/-- `_generate_implementation` -/
def generateImplementation (env : Environment) (before : Workspace Text) :
    Workspace Text × StageResult :=
  let specs := specFiles before
  if (specs.filter before.isFile).isEmpty then
    (before,
      { stage := .impl
        success := false
        failureKind := some .specIncomplete
        message := "No spec files found to implement." })
  else
    let (parsed, files) := parseBlocks before (env.responses 0)
    if files.entries.isEmpty then
      (parsed,
        { stage := .impl
          success := false
          failureKind := some .implUnverified
          message := "Impl agent produced no file blocks." })
    else
      let stored := parsed.storeAll sha256 codec (storeCall specs) env.clock 0 files.entries
      let dfyFiles := files.keys.filter fun p => endsWith p ".dfy"
      let fixed := fixLoop env (dfyFiles ++ specs) maxLspIterations 0 stored files.keys ""
      concluded fixed files.entries.length

/-- `_verify_implementation` -/
def verifyImplementation (env : Environment) (listing : Listing) (before : Workspace Text) :
    Workspace Text × StageResult :=
  if listing.refinements.isEmpty then
    (before,
      { stage := .implVerify
        success := false
        failureKind := some .implUnverified
        message := "No refinement files found." })
  else
    let allDfy := listing.domain ++ listing.properties ++ listing.refinements
    let verified := verifyDafny before (env.verdicts 0) allDfy
    if verified.1 then
      (before.store sha256 codec (env.clock 0)
        { kind := .dafnyProofLog
          path := "artifacts/proofs/impl_verify.log"
          content := .str verified.2
          createdBy := "impl_agent" },
        { stage := .implVerify
          success := true
          artifacts := ["artifacts/proofs/impl_verify.log"] })
    else
      (before,
        { stage := .implVerify
          success := false
          failureKind := some .implUnverified
          message := truncated verified.2 2000 })

/-- `run` -/
def run (env : Environment) (listing : Listing) (pipeline : PipelineState)
    (before : Workspace Text) : Workspace Text × StageResult :=
  match pipeline.currentStage with
  | .impl => generateImplementation sha256 codec env before
  | .implVerify => verifyImplementation sha256 codec env listing before
  | stage => (before, { stage := stage, success := true, message := "No-op for impl agent" })

end Run

end ImplAgent

end SchedExt.Agents
