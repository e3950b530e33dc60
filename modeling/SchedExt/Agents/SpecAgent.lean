import SchedExt.Agents.Workspace
import SchedExt.Orchestrator.StateMachine

/-!
# The specification agent

The agent stores the file blocks of a response, verifies them, and on a failure
stores those of one more response.
-/

namespace SchedExt.Agents

open Foundations Orchestrator

/-- `text[:length]` -/
def truncated (text : String) (length : Nat) : String := String.ofList (text.toList.take length)

namespace SpecAgent

section Run

variable {Text : Type} (sha256 : ByteArray → String) (codec : JsonCodec Text)

/-- `_self_verify` -/
def selfVerify (workspace : Workspace Text) (verdict : Verdict) (dfyFiles : List String) :
    Bool × String :=
  if (workspace.existing dfyFiles).isEmpty then (true, "No .dfy files to verify.")
  else
    match verdict with
    | .exited returncode stdout stderr =>
        if returncode = 0 then (true, stdout) else (false, stdout ++ "\n" ++ stderr)
    | .notFound => (true, "Dafny not available, skipped.")
    | .timedOut => (false, "Dafny verification timed out (120s)")

def storeCall (tags : List (String × String)) (path content : String) : StoreCall where
  kind := .dafnySpec
  path := path
  content := .str content
  createdBy := "spec_agent"
  tags := some (Dict.ofEntries tags)

/-- What one self-correction pass leaves: the workspace, the artifacts and the verdict. -/
def correct (env : Environment) (iteration : Int) (stored : Workspace Text)
    (artifacts : List String) (verifyMsg : String) : Workspace Text × List String × Bool × String :=
  let files2 := parseFileBlocks (env.responses 1)
  if files2.entries.isEmpty then (stored, artifacts, false, verifyMsg)
  else
    let tags := [("iteration", toString iteration), ("corrected", "true")]
    let corrected :=
      stored.storeAll sha256 codec (storeCall tags) env.clock artifacts.length files2.entries
    let verified := selfVerify corrected (env.verdicts 1) files2.keys
    (corrected, artifacts ++ files2.keys, verified.1, verified.2)

/-- `run` -/
def run (env : Environment) (pipeline : PipelineState) (before : Workspace Text) :
    Workspace Text × StageResult :=
  let files := parseFileBlocks (env.responses 0)
  if files.entries.isEmpty then
    (before,
      { stage := .specDrafting
        success := false
        failureKind := some .specInconsistent
        message := "Spec agent produced no file blocks in response." })
  else
    let tags := [("iteration", toString pipeline.iteration)]
    let stored := before.storeAll sha256 codec (storeCall tags) env.clock 0 files.entries
    let verified := selfVerify stored (env.verdicts 0) files.keys
    let (after, artifacts, verifyOk, verifyMsg) :=
      if verified.1 then (stored, files.keys, true, verified.2)
      else correct sha256 codec env pipeline.iteration stored files.keys verified.2
    if verifyOk then
      let generated := files.entries.length
      (after,
        { stage := .specDrafting
          success := true
          message := s!"Generated {generated} spec files, all verified."
          artifacts := artifacts })
    else
      (after,
        { stage := .specDrafting
          success := false
          failureKind := some .specInconsistent
          message := truncated verifyMsg 2000
          artifacts := artifacts })

/-! ## Every write is a store -/

variable {sha256} {workspace : Workspace Text}

theorem kept_storeAll (kept : workspace.Kept sha256) (tags : List (String × String))
    (clock : Nat → Timestamp) (count : Nat) (blocks : List (String × String)) :
    (workspace.storeAll sha256 codec (storeCall tags) clock count blocks).Kept sha256 :=
  kept.storeAll (fun _ _ => rfl) fun _ _ => rfl

theorem kept_correct (kept : workspace.Kept sha256) (env : Environment) (iteration : Int)
    (artifacts : List String) (verifyMsg : String) :
    (correct sha256 codec env iteration workspace artifacts verifyMsg).1.Kept sha256 := by
  unfold correct
  simp only
  split
  · exact kept
  · exact kept_storeAll codec kept _ _ _ _

theorem kept_run (kept : workspace.Kept sha256) (env : Environment) (pipeline : PipelineState) :
    (run sha256 codec env pipeline workspace).1.Kept sha256 := by
  unfold run
  simp only
  split
  · exact kept
  · have stored := kept_storeAll codec kept [("iteration", toString pipeline.iteration)] env.clock 0
      (parseFileBlocks (env.responses 0)).entries
    split
    · split
      · exact stored
      · exact stored
    · split
      · exact kept_correct codec stored env _ _ _
      · exact kept_correct codec stored env _ _ _

end Run

end SpecAgent

end SchedExt.Agents
