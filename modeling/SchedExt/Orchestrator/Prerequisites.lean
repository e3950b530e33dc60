import SchedExt.Foundations.Run
import SchedExt.Orchestrator.Loop
import SchedExt.Orchestrator.Persistence

/-!
# No stage runs on an unpassed prerequisite

A process starts a pipeline or resumes the saved one, enters its loop and
executes stages.  Failures lead back and never past a stage, so the stages
before the current one have all passed, and last did so in their order.
-/

namespace SchedExt.Orchestrator

open Foundations

/-- The stages of a pipeline in the order of `FORWARD`, from the first real one. -/
def forwardOrder : List Stage :=
  [.specDrafting, .specReview, .impl, .implVerify, .bpfCompile, .bpfVerify, .testTrace,
    .testFuzz, .testPerf, .report]

/-- The value that `auto()` gives a stage. -/
def Stage.value : Stage → Nat
  | .init => 1
  | .specDrafting => 2
  | .specReview => 3
  | .impl => 4
  | .implVerify => 5
  | .bpfCompile => 6
  | .bpfVerify => 7
  | .testTrace => 8
  | .testFuzz => 9
  | .testPerf => 10
  | .report => 11
  | .done => 12

def prerequisites (stage : Stage) : List Stage :=
  forwardOrder.filter fun earlier => earlier.value < stage.value

/-- The kinds that the code of a stage returns when the stage fails. -/
def reportedKinds : Stage → List FailureKind
  | .specDrafting => [.specInconsistent]
  | .specReview => [.specInconsistent, .specIncomplete]
  | .impl => [.specIncomplete, .implUnverified]
  | .implVerify => [.implUnverified]
  | .bpfCompile => [.bpfCompileError]
  | .bpfVerify => [.bpfVerifierReject]
  | .testTrace =>
      [.traceMismatch, .specIncomplete, .implUnverified, .translationBug, .bpfVerifierReject]
  | .testFuzz => [.fuzzCrash]
  | .testPerf => [.perfRegression]
  | _ => []

/-- A stage that fails without raising reports one of its kinds. -/
def Reports (stage : Stage) (execution : Execution) : Prop :=
  ∀ result, execution.outcome = .ok result → result.success = false →
    ∃ kind ∈ reportedKinds stage, result.failureKind = some kind

/-- The latest result of a stage and its place in the history. -/
def latest (stage : Stage) (history : List StageResult) : Option (StageResult × Nat) :=
  (history.zipIdx.filter fun entry => entry.1.stage = stage).getLast?

theorem latest_append (stage : Stage) (history : List StageResult) (result : StageResult) :
    latest stage (history ++ [result]) =
      if result.stage = stage then some (result, history.length) else latest stage history := by
  rw [latest, List.zipIdx_append, List.filter_append]
  by_cases same : result.stage = stage
  · simp [same]
  · simp [same, latest]

theorem latest_lt {stage : Stage} {history : List StageResult} {result : StageResult}
    {place : Nat} (found : latest stage history = some (result, place)) :
    place < history.length := by
  have member := List.mem_of_mem_filter (List.mem_of_getLast? found)
  exact (List.mem_zipIdx' member).1

/-- The stages in order, each with a success as its latest result, later than those before it. -/
structure PassedInOrder (stages : List Stage) (history : List StageResult) : Prop where
  passed : ∀ stage ∈ stages, ∃ result place,
    latest stage history = some (result, place) ∧ result.success = true
  ordered : stages.Pairwise fun earlier later => ∀ first firstPlace second secondPlace,
    latest earlier history = some (first, firstPlace) →
      latest later history = some (second, secondPlace) → firstPlace < secondPlace

namespace PassedInOrder

variable {stages fewer : List Stage} {history : List StageResult} {result : StageResult}

theorem nil : PassedInOrder [] history :=
  ⟨fun _ member => (nomatch member), .nil⟩

theorem sublist (known : PassedInOrder stages history) (smaller : fewer.Sublist stages) :
    PassedInOrder fewer history :=
  ⟨fun stage member => known.passed stage (smaller.subset member), known.ordered.sublist smaller⟩

/-- A result of another stage leaves what has passed. -/
theorem append_other (known : PassedInOrder stages history)
    (other : ∀ stage ∈ stages, result.stage ≠ stage) :
    PassedInOrder stages (history ++ [result]) := by
  have same : ∀ stage ∈ stages, latest stage (history ++ [result]) = latest stage history :=
    fun stage member => by rw [latest_append, if_neg (other stage member)]
  refine ⟨fun stage member => ?_, ?_⟩
  · rw [same stage member]
    exact known.passed stage member
  · refine known.ordered.imp_of_mem fun {earlier later} firstMember secondMember before => ?_
    rw [same earlier firstMember, same later secondMember]
    exact before

/-- A stage that passes comes after those that had. -/
theorem append_passed (known : PassedInOrder stages history)
    (other : ∀ stage ∈ stages, result.stage ≠ stage) (success : result.success = true) :
    PassedInOrder (stages ++ [result.stage]) (history ++ [result]) := by
  have before := known.append_other other
  have last : latest result.stage (history ++ [result]) = some (result, history.length) := by
    rw [latest_append, if_pos rfl]
  refine ⟨fun stage member => ?_, ?_⟩
  · rcases List.mem_append.mp member with earlier | this
    · exact before.passed stage earlier
    · obtain rfl := List.mem_singleton.mp this
      exact ⟨result, history.length, last, success⟩
  · refine List.pairwise_append.mpr ⟨before.ordered, List.pairwise_singleton _ _, ?_⟩
    intro earlier member later this first firstPlace second secondPlace found foundLast
    obtain rfl := List.mem_singleton.mp this
    rw [latest_append, if_neg (other earlier member)] at found
    rw [last] at foundLast
    obtain ⟨-, rfl⟩ := Prod.mk.inj (Option.some.inj foundLast)
    exact latest_lt found

end PassedInOrder

/-! ## Where the tables lead -/

theorem prerequisites_forward {stage next : Stage} (real : stage ≠ .init)
    (follows : forward stage = some next) :
    prerequisites next = prerequisites stage ++ [stage] := by
  cases stage with
  | init => exact absurd rfl real
  | done => exact nomatch follows
  | _ => cases follows; rfl

theorem prerequisites_sublist {target stage : Stage} (back : target.value ≤ stage.value) :
    (prerequisites target).Sublist (prerequisites stage) := by
  refine List.monotone_filter_right _ fun earlier before => ?_
  exact decide_eq_true (Nat.lt_of_lt_of_le (of_decide_eq_true before) back)

theorem ne_of_mem_prerequisites {stage earlier : Stage} (member : earlier ∈ prerequisites stage) :
    stage ≠ earlier := by
  intro same
  have before := of_decide_eq_true (List.mem_filter.mp member).2
  rw [same] at before
  exact Nat.lt_irrefl _ before

/-- A failure leads back to the stage itself or to an earlier one. -/
theorem failureRouting_le {stage : Stage} {kind : FailureKind} (real : stage ≠ .init)
    (reported : kind ∈ reportedKinds stage ∨ kind = .specInconsistent) :
    (failureRouting kind).value ≤ stage.value := by
  rcases reported with own | rfl
  · cases stage <;> simp [reportedKinds] at own <;> rcases own with rfl | rfl | rfl | rfl | rfl <;>
      decide
  · cases stage with
    | init => exact absurd rfl real
    | _ => decide

/-- The kind of a failed execution, raised failures included. -/
theorem failureKind_runStage {stage : Stage} {execution : Execution}
    (reports : Reports stage execution) (fails : (runStage execution stage).success = false) :
    ∃ kind, (runStage execution stage).failureKind = some kind ∧
      (kind ∈ reportedKinds stage ∨ kind = .specInconsistent) := by
  unfold runStage at fails ⊢
  split at fails
  · rename_i dispatched
    rw [if_pos dispatched]
    cases outcome : execution.outcome with
    | ok result =>
        rw [outcome] at fails
        obtain ⟨kind, own, kindEq⟩ := reports result outcome fails
        exact ⟨kind, kindEq, .inl own⟩
    | error e => exact ⟨.specInconsistent, rfl, .inr rfl⟩
  · exact nomatch fails

theorem followedBy_ne_init (execution : Execution) (stage : Stage) :
    followedBy execution stage ≠ .init := by
  rw [followedBy, nextStage]
  split
  · cases (runStage execution stage).stage <;> decide
  · cases (runStage execution stage).failureKind with
    | none => decide
    | some kind => cases kind <;> decide

/-! ## One execution -/

/-- The stages before the current one have passed, each after those before it. -/
def PrerequisitesPassed (self : PipelineState) : Prop :=
  PassedInOrder (prerequisites self.currentStage) self.history

theorem prerequisitesPassed_raising {self : PipelineState} (passed : PrerequisitesPassed self)
    (execution : Execution) :
    PassedInOrder (prerequisites self.currentStage)
      (self.history ++ [runStage execution self.currentStage]) :=
  passed.append_other fun _ member => ne_of_mem_prerequisites member

/-- A move forward adds the stage that passed; a move back forgets some that had. -/
theorem prerequisitesPassed_afterPass {self : PipelineState} {execution : Execution}
    (passed : PrerequisitesPassed self) (real : self.currentStage ≠ .init)
    (unfinished : self.currentStage ≠ .done) (reports : Reports self.currentStage execution) :
    PrerequisitesPassed (afterPass self execution) := by
  have follows : nextStage (runStage execution self.currentStage) =
      some (followedBy execution self.currentStage) := nextStage_runStage unfinished
  change PassedInOrder (prerequisites (followedBy execution self.currentStage))
    (self.history ++ [runStage execution self.currentStage])
  unfold nextStage at follows
  cases success : (runStage execution self.currentStage).success with
  | true =>
      rw [success, if_pos rfl] at follows
      rw [prerequisites_forward real follows]
      exact passed.append_passed (fun _ member => ne_of_mem_prerequisites member) success
  | false =>
      obtain ⟨kind, kindEq, reported⟩ := failureKind_runStage reports success
      rw [success, if_neg Bool.false_ne_true, kindEq] at follows
      rw [← Option.some.inj follows]
      exact (prerequisitesPassed_raising passed execution).sublist
        (prerequisites_sublist (failureRouting_le real reported))

/-! ## Processes -/

variable {Text : Type} {codec : JsonCodec Text}

inductive Phase where
  | loaded
  | running
  | ended
  deriving DecidableEq

/-- The state in memory, how far the process is, and the file that it saves to. -/
structure Process (Text : Type) where
  state : PipelineState
  phase : Phase
  file : Option Text

inductive Event where
  | start (requirementsPath : String) (maxIterations : Int) (startedAt : Rat)
  | resume
  | enter
  | execute (execution : Execution)

/-- A stage is executed; the state is saved unless the pass raises. -/
def Process.executed (codec : JsonCodec Text) (before : Process Text) (execution : Execution) :
    Process Text :=
  match pass before.state execution with
  | (moved, .ok _) => { state := moved, phase := .running, file := some (moved.save codec) }
  | (raising, .error _) => { before with state := raising, phase := .ended }

/-- A process may stop anywhere and another one start, afresh or from the file. -/
inductive Step (codec : JsonCodec Text) : Process Text → Event → Process Text → Prop where
  | start (before : Process Text) (requirementsPath : String) (maxIterations : Int)
      (startedAt : Rat) :
      Step codec before (.start requirementsPath maxIterations startedAt)
        { before with
          state := fresh requirementsPath maxIterations startedAt
          phase := .loaded }
  | resume {before : Process Text} {text : Text} {state : PipelineState}
      (present : before.file = some text) (read : PipelineState.load codec text = .ok state) :
      Step codec before .resume { before with state := state, phase := .loaded }
  | enter {before : Process Text} (loaded : before.phase = .loaded) :
      Step codec before .enter
        { before with
          state := { before.state with currentStage := .specDrafting }
          phase := .running }
  | execute {before : Process Text} {execution : Execution} (running : before.phase = .running)
      (unfinished : before.state.currentStage ≠ .done)
      (reports : Reports before.state.currentStage execution) :
      Step codec before (.execute execution) (before.executed codec execution)

theorem executed_moves {before : Process Text} {execution : Execution}
    (unfinished : before.state.currentStage ≠ .done)
    (left : before.state.iteration + 1 < before.state.maxIterations) :
    before.executed codec execution =
      ⟨afterPass before.state execution, .running,
        some ((afterPass before.state execution).save codec)⟩ := by
  rw [Process.executed, pass_moves unfinished left]

theorem executed_exceeded {before : Process Text} {execution : Execution}
    (spent : before.state.iteration + 1 ≥ before.state.maxIterations) :
    let result := runStage execution before.state.currentStage
    before.executed codec execution =
      ⟨{ before.state with
          history := before.state.history ++ [result]
          iteration := before.state.iteration + 1 }, .ended, before.file⟩ := by
  rw [Process.executed, pass, advance_exceeded spent]

/-- The loop of a process takes it through the states that it saves to the last one. -/
theorem loop_reaches (codec : JsonCodec Text) (agents : Nat → Execution) (self : PipelineState)
    (file : Option Text)
    (reports : ∀ k stage, (loop agents self).executed[k]? = some stage →
      Reports stage (agents k)) :
    ∃ history process, Run (Step codec) ⟨self, .running, file⟩ history process ∧
      process.state = (loop agents self).state ∧
        ∀ saved ∈ (loop agents self).saved, ∃ taken ∈ history, taken.target.state = saved := by
  induction agents, self using loop.induct generalizing file with
  | case1 agents self finished =>
      rw [loop_done finished]
      exact ⟨[], _, .refl, rfl, fun _ member => nomatch member⟩
  | case2 agents self unfinished raising raised raises =>
      have whole : loop agents self = _ := loop_step unfinished
      rw [raises] at whole
      rw [whole] at reports ⊢
      have last : Step codec ⟨self, .running, file⟩ (.execute (agents 0))
          (Process.executed codec ⟨self, .running, file⟩ (agents 0)) :=
        .execute rfl unfinished (reports 0 _ rfl)
      refine ⟨_, _, .tail .refl last, ?_, fun _ member => nomatch member⟩
      rw [Process.executed, raises]
  | case3 agents self unfinished moved next moves ih =>
      have whole : loop agents self = _ := loop_step unfinished
      rw [moves] at whole
      rw [whole] at reports ⊢
      have first : Step codec ⟨self, .running, file⟩ (.execute (agents 0))
          ⟨moved, .running, some (moved.save codec)⟩ := by
        have executed : Process.executed codec ⟨self, .running, file⟩ (agents 0) =
            ⟨moved, .running, some (moved.save codec)⟩ := by
          rw [Process.executed, moves]
        rw [← executed]
        exact .execute rfl unfinished (reports 0 _ rfl)
      obtain ⟨history, process, rest, last, saves⟩ :=
        ih (some (moved.save codec)) fun k stage executed => reports (k + 1) stage executed
      refine ⟨_, process, .cons first rest, last, fun saved member => ?_⟩
      rcases List.mem_cons.mp member with rfl | later
      · exact ⟨_, List.mem_cons_self, rfl⟩
      · obtain ⟨taken, inside, same⟩ := saves saved later
        exact ⟨taken, List.mem_cons_of_mem _ inside, same⟩

/-- So does a run, which enters the loop first. -/
theorem run_reaches (codec : JsonCodec Text) (agents : Nat → Execution) (self : PipelineState)
    (file : Option Text)
    (reports : ∀ k stage, (run agents self).executed[k]? = some stage → Reports stage (agents k)) :
    ∃ history process, Run (Step codec) ⟨self, .loaded, file⟩ history process ∧
      process.state = (run agents self).state ∧
        ∀ saved ∈ (run agents self).saved, ∃ taken ∈ history, taken.target.state = saved := by
  obtain ⟨history, process, rest, last, saves⟩ := loop_reaches codec agents _ file reports
  refine ⟨_, process, .cons (.enter rfl) rest, last, fun saved member => ?_⟩
  obtain ⟨taken, inside, same⟩ := saves saved member
  exact ⟨taken, List.mem_cons_of_mem _ inside, same⟩

/-- What holds of the state in memory and of the one in the file. -/
structure Sound (codec : JsonCodec Text) (process : Process Text) : Prop where
  passed : PrerequisitesPassed process.state
  real : process.phase = .running → process.state.currentStage ≠ .init
  saved : ∀ text, process.file = some text →
    ∃ state, text = PipelineState.save codec state ∧ PrerequisitesPassed state

theorem sound_fresh (requirementsPath : String) (maxIterations : Int) (startedAt : Rat) :
    Sound codec ⟨fresh requirementsPath maxIterations startedAt, .loaded, none⟩ :=
  ⟨.nil, fun running => (nomatch running), fun _ present => nomatch present⟩

theorem sound_step {before after : Process Text} {event : Event} (sound : Sound codec before)
    (step : Step codec before event after) : Sound codec after := by
  cases step with
  | start requirementsPath maxIterations startedAt =>
      exact ⟨.nil, fun running => (nomatch running), sound.saved⟩
  | resume present read =>
      obtain ⟨state, rfl, passed⟩ := sound.saved _ present
      rw [PipelineState.load_save] at read
      obtain rfl := Except.ok.inj read
      exact ⟨passed, fun running => (nomatch running), sound.saved⟩
  | enter loaded => exact ⟨.nil, fun _ => Stage.noConfusion, sound.saved⟩
  | execute running unfinished reports =>
      rename_i execution
      by_cases left : before.state.iteration + 1 < before.state.maxIterations
      · rw [executed_moves unfinished left]
        have passed := prerequisitesPassed_afterPass sound.passed (sound.real running)
          unfinished reports
        refine ⟨passed, fun _ => followedBy_ne_init execution before.state.currentStage, ?_⟩
        intro text present
        exact ⟨_, (Option.some.inj present).symm, passed⟩
      · rw [executed_exceeded (Int.not_lt.mp left)]
        exact ⟨prerequisitesPassed_raising sound.passed execution,
          fun ended => (nomatch ended), sound.saved⟩

/--
In every state that a process reaches the stages before the current one have
passed, in order; when the pipeline is done, all ten stages have.
-/
theorem prerequisitesPassed_of_run (codec : JsonCodec Text) (requirementsPath : String)
    (maxIterations : Int) (startedAt : Rat)
    {history : List (Transition (Process Text) Event)} {process : Process Text}
    (run : Run (Step codec) ⟨fresh requirementsPath maxIterations startedAt, .loaded, none⟩
      history process) :
    PassedInOrder (prerequisites process.state.currentStage) process.state.history ∧
      (process.state.currentStage = .done →
        PassedInOrder forwardOrder process.state.history) := by
  have sound : Sound codec process :=
    run.invariant (sound_fresh requirementsPath maxIterations startedAt) sound_step
  refine ⟨sound.passed, fun finished => ?_⟩
  have passed := sound.passed
  rw [PrerequisitesPassed, finished] at passed
  exact passed

def specDraftingPasses : Execution := ⟨.ok { stage := .specDrafting, success := true }, 0⟩

/-- A draft that passes, and a second process that reads the saved state back. -/
theorem specDraftingPasses_passedInOrder :
    PassedInOrder [.specDrafting] [⟨.specDrafting, true, none, "", [], 0⟩] := by
  have entered : Run (Step JsonCodec.trees) ⟨fresh "" 10 0, .loaded, none⟩ _ _ :=
    .tail .refl (.enter rfl)
  have passes : Reports .specDrafting specDraftingPasses := by
    intro result returns fails
    cases returns
    exact nomatch fails
  have drafted := entered.tail (.execute rfl (by decide) passes)
  have resumed := drafted.tail (.resume rfl (PipelineState.load_save JsonCodec.trees _))
  exact (prerequisitesPassed_of_run JsonCodec.trees "" 10 0 resumed).1

end SchedExt.Orchestrator
