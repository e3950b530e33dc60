import SchedExt.Orchestrator.Tools

/-!
# The whole pipeline

A process and the artifacts that it works on.  Its stages are those of the
agents and the orchestrator, on whatever responses and verdicts they meet.
An execution may raise, and the process may stop, after any of its writes, or
between registering an artifact and saving the manifest; another process goes on
from the disk.
-/

namespace SchedExt.Orchestrator

open Foundations Agents

/-- The file that has the requirements. -/
def snapshotPath : String := "artifacts/requirements_snapshot.md"

/--
What the code of the pipeline rests on.  A path is reserved that leads to the
manifest or to the saved state.
-/
structure Platform (Text : Type) where
  reserved : String → Prop
  apart : ∀ path ∈ [snapshotPath, reportPath], ¬ reserved path
  sha256 : ByteArray → String
  codec : JsonCodec Text
  loads : List Char → Except LoadsFault Json
  dumps : Json → String
  str : Json → String
  format : SecondsFormat

/-- What one execution meets. -/
structure Encounter where
  env : Environment
  listing : Listing
  settings : FuzzSettings
  time : Rat
  duration : Rat

/-- How the code of a stage ends. -/
inductive Ending where
  | returned (result : StageResult)
  | labelled (kind : FailureKind) (message : Json)
  | raised

def Ending.ofTest : TestOutcome → Ending
  | .returned result => .returned result
  | .labelled kind message => .labelled kind message
  | .raised _ => .raised

def toolEnding (writes : List Write) :
    Except ToolFault StageResult → List Write × Ending
  | .ok result => (writes, .returned result)
  | .error _ => ([], .raised)

/-- A process and the workspace of its store. -/
structure Machine (Text : Type) where
  process : Process Text
  workspace : Workspace Text

section Steps

variable {Text : Type} (platform : Platform Text)

/-- The dispatch of `_run_stage`: what the stage writes, and how its code ends. -/
def dispatch (met : Encounter) (self : PipelineState) (before : Workspace Text) :
    List Write × Ending :=
  let sha256 := platform.sha256
  let codec := platform.codec
  let loads := platform.loads
  let env := met.env
  let tested (mode : TestMode) : List Write × Ending :=
    let ran := TestAgent.run sha256 codec loads platform.dumps mode met.settings env self before
    (ran.1, .ofTest ran.2)
  match self.currentStage with
  | .specDrafting =>
      (SpecAgent.writes sha256 codec env self before,
        .returned (SpecAgent.run sha256 codec env self before).2)
  | .specReview =>
      match VerifyAgent.run sha256 codec loads platform.str env self before with
      | .ok (_, result) =>
          (VerifyAgent.writes sha256 codec loads platform.str env self before, .returned result)
      | .error _ => ([], .raised)
  | .impl =>
      (ImplAgent.writes sha256 codec env met.listing self before,
        .returned (ImplAgent.run sha256 codec env met.listing self before).2)
  | .implVerify =>
      (ImplAgent.writes sha256 codec env met.listing self before,
        .returned (ImplAgent.run sha256 codec env met.listing self before).2)
  | .bpfCompile => toolEnding [] (runBpfCompile (env.verdicts 0))
  | .bpfVerify => toolEnding [] (runBpfVerify (env.verdicts 0) (env.verdicts 1))
  | .testTrace => tested .trace
  | .testFuzz => tested .fuzz
  | .testPerf => tested .perf
  | .report =>
      match generateReport platform.format self before.manifest met.time (env.clock 0) with
      | .ok (writes, result) => (writes, .returned result)
      | .error _ => ([], .raised)
  | stage => ([], .returned { stage := stage, success := true, message := "No-op stage" })

/-- The call that stores the requirements. -/
def snapshotCall (requirements : String) : StoreCall where
  kind := .mappingDoc
  path := snapshotPath
  content := .str requirements
  createdBy := "orchestrator"

/-- The execution writes to a reserved path, or has a result whose message is no text. -/
def Strays (met : Encounter) (before : Machine Text) : Prop :=
  let (writes, ending) := dispatch platform met before.process.state before.workspace
  (∃ write ∈ writes, platform.reserved write.path) ∨
    ∃ kind message, ending = .labelled kind message

inductive MachineEvent where
  | start (requirementsPath : String) (maxIterations : Int) (startedAt : Rat) (now : Timestamp)
  | resume (now : Timestamp)
  | enter (requirements : String) (now : Timestamp)
  | execute (met : Encounter)
  | raise (met : Encounter) (cut : Cut) (text : String)
  | stop (met : Encounter) (cut : Cut)
  | kill
  | external (files : String → Option ByteArray)
  | stray (met : Encounter)
  | tear

/-- Neither does an execution stray, nor is the manifest or the saved state torn. -/
def MachineEvent.Tracked : MachineEvent → Prop
  | .stray _ => False
  | .tear => False
  | _ => True

/-- An artifact was registered, and the manifest not saved for it. -/
def MachineEvent.LeavesUnsaved : MachineEvent → Prop
  | .raise _ cut _ => cut.begun ≠ none
  | .stop _ cut => cut.begun ≠ none
  | _ => False

/--
One step of a machine.  Other programs change neither the manifest nor the saved
state, and a file that is written in part is as if another program had changed
it.  Nothing is known of what is left by an execution that strays, or where a
write of the manifest or of the saved state fails or is cut off.
-/
inductive MachineStep : Machine Text → MachineEvent → Machine Text → Prop where
  | start (before : Machine Text) (requirementsPath : String) (maxIterations : Int)
      (startedAt : Rat) (now : Timestamp) {store : ArtifactStore}
      (opens : ArtifactStore.opened platform.codec now before.workspace.session.disk = .ok store) :
      MachineStep before (.start requirementsPath maxIterations startedAt now)
        ⟨{ before.process with
            state := fresh requirementsPath maxIterations startedAt
            phase := .loaded },
          ⟨{ before.workspace.session with store := store }, []⟩⟩
  | resume {before : Machine Text} {text : Text} {state : PipelineState} {now : Timestamp}
      {store : ArtifactStore}
      (opens : ArtifactStore.opened platform.codec now before.workspace.session.disk = .ok store)
      (present : before.process.file = some text)
      (read : PipelineState.load platform.codec text = .ok state) :
      MachineStep before (.resume now)
        ⟨{ before.process with state := state, phase := .loaded },
          ⟨{ before.workspace.session with store := store }, []⟩⟩
  | enter {before : Machine Text} {requirements : String} {now : Timestamp}
      (loaded : before.process.phase = .loaded)
      (read : VerifyAgent.readText before.workspace before.process.state.requirementsPath =
        .ok requirements) :
      MachineStep before (.enter requirements now)
        ⟨{ before.process with
            state := { before.process.state with currentStage := .specDrafting }
            phase := .running },
          before.workspace.store platform.sha256 platform.codec now (snapshotCall requirements)⟩
  | execute {before : Machine Text} {met : Encounter} {writes : List Write}
      {result : StageResult} (running : before.process.phase = .running)
      (unfinished : before.process.state.currentStage ≠ .done)
      (returns : dispatch platform met before.process.state before.workspace =
        (writes, .returned result))
      (free : ∀ write ∈ writes, ¬ platform.reserved write.path) :
      MachineStep before (.execute met)
        ⟨before.process.executed platform.codec ⟨.ok result, met.duration⟩,
          before.workspace.performAll platform.sha256 platform.codec writes⟩
  | raise {before : Machine Text} {met : Encounter} {cut : Cut} {text : String}
      (running : before.process.phase = .running)
      (unfinished : before.process.state.currentStage ≠ .done)
      (begun : cut.writes <+: (dispatch platform met before.process.state before.workspace).1)
      (free : ∀ write ∈ cut.writes, ¬ platform.reserved write.path) :
      MachineStep before (.raise met cut text)
        ⟨before.process.executed platform.codec ⟨.error text, met.duration⟩,
          before.workspace.cutOff platform.sha256 platform.codec cut⟩
  | stop {before : Machine Text} {met : Encounter} {cut : Cut}
      (running : before.process.phase = .running)
      (unfinished : before.process.state.currentStage ≠ .done)
      (begun : cut.writes <+: (dispatch platform met before.process.state before.workspace).1)
      (free : ∀ write ∈ cut.writes, ¬ platform.reserved write.path) :
      MachineStep before (.stop met cut)
        ⟨{ before.process with phase := .ended },
          before.workspace.cutOff platform.sha256 platform.codec cut⟩
  | kill (before : Machine Text) :
      MachineStep before .kill { before with process := { before.process with phase := .ended } }
  | external (before : Machine Text) (files : String → Option ByteArray) :
      MachineStep before (.external files)
        { before with
          workspace :=
            { before.workspace with
              session :=
                { before.workspace.session with
                  disk := { before.workspace.session.disk with files := files } } } }
  | stray {before after : Machine Text} {met : Encounter}
      (running : before.process.phase = .running)
      (unfinished : before.process.state.currentStage ≠ .done)
      (strays : Strays platform met before) : MachineStep before (.stray met) after
  | tear (before after : Machine Text) : MachineStep before .tear after

/-! ## What executions account for -/

variable {platform} {met : Encounter} {self : PipelineState} {before : Workspace Text}

theorem accounts_toolEnding {stage : Stage} {outcome : Except ToolFault StageResult}
    {writes : List Write} {result : StageResult}
    (each : ∀ result, outcome = .ok result → Accounts stage [] result)
    (returns : toolEnding [] outcome = (writes, .returned result)) :
    Accounts stage writes result := by
  cases outcome with
  | ok returned =>
      cases returns
      exact each _ rfl
  | error fault => cases returns

theorem ofTest_eq_returned {outcome : TestOutcome} {result : StageResult}
    (returns : Ending.ofTest outcome = .returned result) : outcome = .returned result := by
  cases outcome with
  | returned known =>
      cases returns
      rfl
  | labelled kind message => cases returns
  | raised fault => cases returns

/-- The code of every stage accounts for its results. -/
theorem accounts_dispatch {writes : List Write} {result : StageResult}
    (unfinished : self.currentStage ≠ .done) (real : self.currentStage ≠ .init)
    (returns : dispatch platform met self before = (writes, .returned result)) :
    Accounts self.currentStage writes result := by
  unfold dispatch at returns
  cases stage : self.currentStage with
  | init => exact absurd stage real
  | done => exact absurd stage unfinished
  | specDrafting =>
      rw [stage] at returns
      cases returns
      exact SpecAgent.accounts_run met.env self
  | specReview =>
      rw [stage] at returns
      cases reviewed : VerifyAgent.run platform.sha256 platform.codec platform.loads platform.str
          met.env self before with
      | ok outcome =>
          simp only [reviewed] at returns
          cases returns
          exact VerifyAgent.accounts_run reviewed
      | error fault =>
          simp only [reviewed] at returns
          cases returns
  | impl =>
      rw [stage] at returns
      cases returns
      rw [← stage]
      exact ImplAgent.accounts_run met.env met.listing self (.inl stage)
  | implVerify =>
      rw [stage] at returns
      cases returns
      rw [← stage]
      exact ImplAgent.accounts_run met.env met.listing self (.inr stage)
  | bpfCompile =>
      rw [stage] at returns
      exact accounts_toolEnding (fun _ => accounts_runBpfCompile) returns
  | bpfVerify =>
      rw [stage] at returns
      exact accounts_toolEnding (fun _ => accounts_runBpfVerify) returns
  | testTrace =>
      rw [stage] at returns
      obtain ⟨same, returned⟩ := Prod.mk.inj returns
      exact TestAgent.accounts_runTraceTests (Prod.ext same (ofTest_eq_returned returned))
  | testFuzz =>
      rw [stage] at returns
      obtain ⟨same, returned⟩ := Prod.mk.inj returns
      exact TestAgent.accounts_runFuzzTests (ofTest_eq_returned returned)
  | testPerf =>
      rw [stage] at returns
      obtain ⟨same, returned⟩ := Prod.mk.inj returns
      exact TestAgent.accounts_runPerfTests (Prod.ext same (ofTest_eq_returned returned))
  | report =>
      rw [stage] at returns
      cases reported : generateReport platform.format self before.manifest met.time
          (met.env.clock 0) with
      | ok outcome =>
          simp only [reported] at returns
          cases returns
          exact accounts_generateReport reported
      | error fault =>
          simp only [reported] at returns
          cases returns

end Steps

end SchedExt.Orchestrator
