import SchedExt.Orchestrator.Budget
import SchedExt.Orchestrator.Pipeline

/-!
# What the pipeline keeps across crashes

Whatever the agents and tools answer and wherever a process raises or stops, as
long as the manifest and the saved state are only written by the code for them:
what the history records, in memory and in the file, is registered in the manifest
on the disk, which loses nothing.  So the report can always be made, and it is
complete.
-/

namespace SchedExt.Orchestrator

open Foundations Agents

variable {Text : Type} {platform : Platform Text}

/-- A failure has a kind of its stage or of an exception, and artifacts are registered. -/
structure Recorded (manifest : Manifest) (r : StageResult) : Prop where
  kind : r.success = false →
    ∃ kind, r.failureKind = some kind ∧ (kind ∈ reportedKinds r.stage ∨ kind = .specInconsistent)
  registered : r.stage ≠ .impl → r.stage ≠ .bpfCompile →
    ∀ path ∈ r.artifacts, (manifest.get? path).isSome

theorem Recorded.mono {earlier later : Manifest} {r : StageResult} (recorded : Recorded earlier r)
    (grows : earlier.Extends later) : Recorded later r :=
  ⟨recorded.kind, fun generated compiled path member =>
    grows.isSome (recorded.registered generated compiled path member)⟩

/-- A result that its stage accounts for is recorded where its writes are registered. -/
theorem Recorded.of_accounts {stage : Stage} {writes : List Write} {result : StageResult}
    {manifest : Manifest} (accounts : Accounts stage writes result)
    (dispatched : stage.dispatched = true)
    (stored : ∀ path ∈ registrations writes, (manifest.get? path).isSome) (duration : Rat) :
    Recorded manifest (runStage ⟨.ok result, duration⟩ stage) := by
  rw [runStage, if_pos dispatched]
  refine ⟨fun fails => ?_, fun generated compiled path member => ?_⟩
  · obtain ⟨kind, reported, kindEq⟩ := accounts.kind fails
    exact ⟨kind, kindEq, .inl reported⟩
  · exact stored path (accounts.stored generated compiled member)

theorem Recorded.of_error {stage : Stage} {manifest : Manifest}
    (dispatched : stage.dispatched = true) (text : String) (duration : Rat) :
    Recorded manifest (runStage ⟨.error text, duration⟩ stage) := by
  rw [runStage, if_pos dispatched]
  exact ⟨fun _ => ⟨.specInconsistent, rfl, .inr rfl⟩, fun _ _ _ member => (nomatch member)⟩

/-! ## Executions -/

/-- An execution adds its result to the history. -/
theorem history_executed {before : Process Text} {codec : JsonCodec Text}
    (unfinished : before.state.currentStage ≠ .done) (execution : Execution) :
    (before.executed codec execution).state.history =
      before.state.history ++ [runStage execution before.state.currentStage] := by
  by_cases left : before.state.iteration + 1 < before.state.maxIterations
  · rw [executed_moves unfinished left]
    rfl
  · rw [executed_exceeded (Int.not_lt.mp left)]

/-- The file has the state after an execution, or is as it was. -/
theorem file_executed {before : Process Text} {codec : JsonCodec Text}
    (unfinished : before.state.currentStage ≠ .done) (execution : Execution) :
    (before.executed codec execution).file =
        some ((before.executed codec execution).state.save codec) ∨
      (before.executed codec execution).file = before.file := by
  by_cases left : before.state.iteration + 1 < before.state.maxIterations
  · rw [executed_moves unfinished left]
    exact .inl rfl
  · rw [executed_exceeded (Int.not_lt.mp left)]
    exact .inr rfl

theorem dispatched_of_ne {stage : Stage} (real : stage ≠ .init) (unfinished : stage ≠ .done) :
    stage.dispatched = true := by
  cases stage with
  | init => exact absurd rfl real
  | done => exact absurd rfl unfinished
  | _ => rfl

/-- An execution that accounts for its results reports a kind of its own. -/
theorem reports_of_accounts {stage : Stage} {writes : List Write} {result : StageResult}
    (accounts : Accounts stage writes result) (duration : Rat) :
    Reports stage ⟨.ok result, duration⟩ := by
  intro other returned fails
  obtain rfl := Except.ok.inj returned
  exact accounts.kind fails

theorem reports_error (stage : Stage) (text : String) (duration : Rat) :
    Reports stage ⟨.error text, duration⟩ :=
  fun _ returned => nomatch returned

/-! ## Machines -/

variable (platform) in
/-- What holds of a machine in memory and on its disk, which has this manifest. -/
structure Consistent (machine : Machine Text) (saved : Manifest) : Prop where
  backed : machine.workspace.Backed platform.codec saved
  sound : Sound platform.codec machine.process
  recorded : ∀ r ∈ machine.process.state.history, Recorded saved r
  resumes : ∀ text state, machine.process.file = some text →
    PipelineState.load platform.codec text = .ok state → ∀ r ∈ state.history, Recorded saved r

/-- What is recorded in a manifest stays recorded when it grows. -/
theorem Consistent.stays {machine : Machine Text} {saved later : Manifest}
    (consistent : Consistent platform machine saved) (grows : saved.Extends later) :
    (∀ r ∈ machine.process.state.history, Recorded later r) ∧
      ∀ text state, machine.process.file = some text →
        PipelineState.load platform.codec text = .ok state →
          ∀ r ∈ state.history, Recorded later r :=
  ⟨fun r member => (consistent.recorded r member).mono grows,
    fun text state present read r member =>
      (consistent.resumes text state present read r member).mono grows⟩

/-- A machine that executes a stage stays consistent when its result is recorded. -/
theorem Consistent.executed {machine : Machine Text} {saved later : Manifest}
    (consistent : Consistent platform machine saved) (running : machine.process.phase = .running)
    (unfinished : machine.process.state.currentStage ≠ .done) {execution : Execution}
    (reports : Reports machine.process.state.currentStage execution) {workspace : Workspace Text}
    (backed : workspace.Backed platform.codec later) (grows : saved.Extends later)
    (recorded : Recorded later (runStage execution machine.process.state.currentStage)) :
    Consistent platform ⟨machine.process.executed platform.codec execution, workspace⟩ later := by
  obtain ⟨stillRecorded, stillResumes⟩ := consistent.stays grows
  have all : ∀ r ∈ (machine.process.executed platform.codec execution).state.history,
      Recorded later r := by
    rw [history_executed unfinished]
    exact List.forall_mem_append.mpr ⟨stillRecorded, List.forall_mem_singleton.mpr recorded⟩
  refine ⟨backed, sound_step consistent.sound (.execute running unfinished reports), all, ?_⟩
  intro text state present read
  rcases file_executed unfinished execution with new | same
  · obtain rfl := Option.some.inj (present.symm.trans new)
    rw [PipelineState.load_save] at read
    obtain rfl := Except.ok.inj read
    exact all
  · exact stillResumes text state (same ▸ present) read

/-- A process that ends leaves a consistent machine. -/
theorem Consistent.stopped {machine : Machine Text} {saved later : Manifest}
    (consistent : Consistent platform machine saved) {workspace : Workspace Text}
    (backed : workspace.Backed platform.codec later) (grows : saved.Extends later) :
    Consistent platform ⟨{ machine.process with phase := .ended }, workspace⟩ later := by
  obtain ⟨stillRecorded, stillResumes⟩ := consistent.stays grows
  exact ⟨backed, ⟨consistent.sound.passed, fun ended => (nomatch ended), consistent.sound.saved⟩,
    stillRecorded, stillResumes⟩

theorem real_of_running {machine : Machine Text} {saved : Manifest}
    (consistent : Consistent platform machine saved) (running : machine.process.phase = .running)
    (unfinished : machine.process.state.currentStage ≠ .done) :
    machine.process.state.currentStage.dispatched = true :=
  dispatched_of_ne (consistent.sound.real running) unfinished

/-- A store that is opened has what is saved. -/
theorem backed_opened {workspace : Workspace Text} {saved : Manifest}
    (backed : workspace.Backed platform.codec saved) {now : Timestamp} {store : ArtifactStore}
    (opens : ArtifactStore.opened platform.codec now workspace.session.disk = .ok store) :
    (⟨{ workspace.session with store := store }, []⟩ : Workspace Text).Backed platform.codec
        saved ∧ store.manifest = saved := by
  obtain rfl := Except.ok.inj (opens.symm.trans (backed.opens now))
  exact ⟨⟨backed.opens, .refl _⟩, rfl⟩

variable (platform) in
/-- What a step makes of the manifest on the disk. -/
structure Saved (before after : Machine Text) (event : MachineEvent) (saved later : Manifest) :
    Prop where
  grows : saved.Extends later
  whole : ¬ event.LeavesUnsaved → saved = before.workspace.manifest →
    later = after.workspace.manifest

theorem exists_consistent_step {before after : Machine Text} {event : MachineEvent}
    {saved : Manifest} (consistent : Consistent platform before saved)
    (step : MachineStep platform before event after) (tracked : event.Tracked) :
    ∃ later, Consistent platform after later ∧ Saved before after event saved later := by
  cases step with
  | start requirementsPath maxIterations startedAt now opens =>
      obtain ⟨backed, same⟩ := backed_opened consistent.backed opens
      exact ⟨saved, ⟨backed, ⟨.nil, fun running => (nomatch running), consistent.sound.saved⟩,
        fun _ member => (nomatch member), consistent.resumes⟩, .refl _, fun _ _ => same.symm⟩
  | resume opens present read =>
      obtain ⟨backed, same⟩ := backed_opened consistent.backed opens
      have sound := sound_step consistent.sound (.resume present read)
      exact ⟨saved, ⟨backed, sound, consistent.resumes _ _ present read, consistent.resumes⟩,
        .refl _, fun _ _ => same.symm⟩
  | enter loaded read =>
      rename_i requirements now
      obtain ⟨later, saves, -⟩ := @Workspace.exists_saves_performAll _ platform.sha256 _ _ _
        consistent.backed [.stored now (snapshotCall requirements)]
      obtain ⟨stillRecorded, stillResumes⟩ := consistent.stays saves.grows
      exact ⟨later, ⟨saves.backed, sound_step consistent.sound (.enter loaded), stillRecorded,
        stillResumes⟩, saves.grows, fun _ => saves.whole⟩
  | execute running unfinished returns free =>
      rename_i met writes result
      obtain ⟨later, saves, stored⟩ := @Workspace.exists_saves_performAll _ platform.sha256 _ _ _
        consistent.backed writes
      have accounts := accounts_dispatch unfinished (consistent.sound.real running) returns
      have recorded := Recorded.of_accounts accounts
        (real_of_running consistent running unfinished) stored met.duration
      exact ⟨later, consistent.executed running unfinished (reports_of_accounts accounts _)
        saves.backed saves.grows recorded, saves.grows, fun _ => saves.whole⟩
  | raise running unfinished begun free =>
      rename_i met cut text
      obtain ⟨later, backed, grows, whole⟩ := @Workspace.exists_saves_cutOff _ platform.sha256
        _ _ _ consistent.backed cut
      have recorded := @Recorded.of_error _ later (real_of_running consistent running unfinished)
        text met.duration
      exact ⟨later, consistent.executed running unfinished (reports_error _ _ _) backed grows
        recorded, grows, fun saves => whole (not_not.mp saves)⟩
  | stop running unfinished begun free =>
      rename_i met cut
      obtain ⟨later, backed, grows, whole⟩ := @Workspace.exists_saves_cutOff _ platform.sha256
        _ _ _ consistent.backed cut
      exact ⟨later, consistent.stopped backed grows, grows,
        fun saves => whole (not_not.mp saves)⟩
  | kill =>
      exact ⟨saved, consistent.stopped consistent.backed (.refl _), .refl _, fun _ => id⟩
  | external files =>
      exact ⟨saved, ⟨⟨consistent.backed.opens, consistent.backed.grown⟩, consistent.sound,
        consistent.recorded, consistent.resumes⟩, .refl _, fun _ => id⟩
  | stray => exact tracked.elim
  | tear => exact tracked.elim

/-- A new process on a disk without a manifest or a saved state. -/
def blank (files : String → Option ByteArray) (requirementsPath : String) (maxIterations : Int)
    (startedAt : Rat) : Machine Text :=
  ⟨⟨fresh requirementsPath maxIterations startedAt, .loaded, none⟩, ⟨newSession files, []⟩⟩

theorem consistent_blank (files : String → Option ByteArray) (requirementsPath : String)
    (maxIterations : Int) (startedAt : Rat) :
    Consistent platform (blank files requirementsPath maxIterations startedAt) Dict.empty :=
  ⟨⟨fun _ => rfl, .refl _⟩, sound_fresh requirementsPath maxIterations startedAt,
    fun _ member => (nomatch member), fun _ _ present => (nomatch present)⟩

/-! ## Runs -/

variable {files : String → Option ByteArray} {requirementsPath : String} {maxIterations : Int}
variable {startedAt : Rat} {start machine : Machine Text} {saved : Manifest}
variable {history : List (Transition (Machine Text) MachineEvent)}

/-- No execution of a history strays, and neither of the two files is torn. -/
def Tracked (history : List (Transition (Machine Text) MachineEvent)) : Prop :=
  ∀ taken ∈ history, taken.event.Tracked

/-- No artifact is registered without being saved. -/
def SavesAll (history : List (Transition (Machine Text) MachineEvent)) : Prop :=
  ∀ taken ∈ history, ¬ taken.event.LeavesUnsaved

theorem exists_consistent_of_run (consistent : Consistent platform start saved)
    (run : Run (MachineStep platform) start history machine) (tracked : Tracked history) :
    ∃ later, Consistent platform machine later ∧ saved.Extends later ∧
      (SavesAll history → saved = start.workspace.manifest →
        later = machine.workspace.manifest) := by
  induction run with
  | refl => exact ⟨saved, consistent, .refl _, fun _ => id⟩
  | tail earlier last ih =>
      obtain ⟨before, here⟩ := List.forall_mem_append.mp tracked
      obtain ⟨between, consistentThere, grown, whole⟩ := ih before
      obtain ⟨later, consistentAfter, saves⟩ :=
        exists_consistent_step consistentThere last (here _ (List.mem_singleton_self _))
      refine ⟨later, consistentAfter, grown.trans saves.grows, fun all same => ?_⟩
      obtain ⟨allBefore, lastSaves⟩ := List.forall_mem_append.mp all
      exact saves.whole (lastSaves _ (List.mem_singleton_self _)) (whole allBefore same)

variable (files requirementsPath maxIterations startedAt)

/-- Digests and texts do not matter to the runs below. -/
def plainPlatform : Platform Json where
  reserved path := path ∈ ["artifacts/manifest.json", "artifacts/pipeline_state.json"]
  apart := by decide
  sha256 := emptyDigest
  codec := .trees
  loads _ := .error .jsonDecodeError
  dumps _ := ""
  str _ := ""
  format := ⟨fun _ => "0", fun _ => "0.0"⟩

/-- No response says anything, and no tool is there. -/
def silent : Encounter where
  env := ⟨fun _ => "", fun _ => .notFound, fun _ => midnight⟩
  listing := ⟨[], [], []⟩
  settings := ⟨some 60, ""⟩
  time := 0
  duration := 0

def requirementsOnly (path : String) : Option ByteArray :=
  if path = "requirements.md" then some "".toUTF8 else none

theorem read_requirements {workspace : Workspace Json}
    (present : workspace.session.disk.files "requirements.md" = some "".toUTF8) :
    VerifyAgent.readText workspace "requirements.md" = .ok "" := by
  have same : universalNewlines "" = "" := (universalNewlines_eq_self_iff "").mpr (by decide)
  rw [VerifyAgent.readText_of_files present, same]

/-- The response to the first question has one specification file. -/
def drafting : Encounter := { silent with env := fixedOnce }

/-- The specification file is registered, and the manifest cannot be opened for it. -/
def halfStored : Cut :=
  ⟨[], some (midnight, SpecAgent.storeCall [("iteration", "0")] "specs/a.dfy" "x")⟩

def unopened : String := "[Errno 24] Too many open files: 'artifacts/manifest.json'"

def enteredOnce : Machine Json :=
  ⟨⟨{ fresh "requirements.md" 10 0 with currentStage := .specDrafting }, .running, none⟩,
    Workspace.store emptyDigest .trees ⟨newSession requirementsOnly, []⟩ midnight
      (snapshotCall "")⟩

/-- The first stage has raised, and the manifest in memory has more than the one on the disk. -/
def raisedOnce : Machine Json :=
  ⟨enteredOnce.process.executed .trees ⟨.error unopened, 0⟩,
    enteredOnce.workspace.cutOff emptyDigest .trees halfStored⟩

def raisedHistory : List (Transition (Machine Json) MachineEvent) :=
  [⟨blank requirementsOnly "requirements.md" 10 0, .enter "" midnight, enteredOnce⟩,
    ⟨enteredOnce, .raise drafting halfStored unopened, raisedOnce⟩]

theorem halfStored_begun : halfStored.writes <+:
    (dispatch plainPlatform drafting enteredOnce.process.state enteredOnce.workspace).1 := by
  obtain ⟨parsed, _⟩ := parseFileBlocks_fixedOnce
  change _ <+: SpecAgent.writes _ _ fixedOnce _ _
  unfold SpecAgent.writes
  simp only [parsed]
  split
  · rename_i none
    exact absurd none (by decide)
  · split
    · exact List.prefix_rfl
    · exact List.prefix_append _ _

theorem raisedOnce_run : Run (MachineStep plainPlatform)
    (blank requirementsOnly "requirements.md" 10 0) raisedHistory raisedOnce := by
  have entered : MachineStep plainPlatform (blank requirementsOnly "requirements.md" 10 0)
      (.enter "" midnight) enteredOnce := .enter rfl (read_requirements rfl)
  have free : ∀ write ∈ halfStored.writes, ¬ plainPlatform.reserved write.path := by
    rintro write member
    obtain rfl := List.mem_singleton.mp member
    change ¬ "specs/a.dfy" ∈ ["artifacts/manifest.json", "artifacts/pipeline_state.json"]
    decide
  exact (Run.tail .refl entered).tail (.raise rfl (by decide) halfStored_begun free)

theorem tracked_raisedHistory : Tracked raisedHistory := by
  unfold Tracked raisedHistory
  simp only [List.forall_mem_cons]
  exact ⟨trivial, trivial, List.forall_mem_nil _⟩

/--
At any two moments of a run, whatever is interrupted: the manifest on the disk has
lost no artifact between them and taken no version back, and the one in memory
has all that is on the disk, and nothing else if no artifact was registered without
being saved.
-/
theorem manifest_extends_of_run
    {first second : List (Transition (Machine Text) MachineEvent)}
    (before : Run (MachineStep platform) (blank files requirementsPath maxIterations startedAt)
      first start)
    (after : Run (MachineStep platform) start second machine)
    (tracked : Tracked (first ++ second)) :
    ∃ earlier later, start.workspace.Backed platform.codec earlier ∧
      machine.workspace.Backed platform.codec later ∧ earlier.Extends later ∧
        (SavesAll first → earlier = start.workspace.manifest) ∧
          (SavesAll (first ++ second) → later = machine.workspace.manifest) := by
  obtain ⟨trackedFirst, trackedSecond⟩ := List.forall_mem_append.mp tracked
  obtain ⟨earlier, consistent, -, whole⟩ := exists_consistent_of_run
    (consistent_blank files requirementsPath maxIterations startedAt) before trackedFirst
  obtain ⟨later, consistentAfter, grown, wholeAfter⟩ :=
    exists_consistent_of_run consistent after trackedSecond
  refine ⟨earlier, later, consistent.backed, consistentAfter.backed, grown,
    fun all => whole all rfl, fun all => ?_⟩
  obtain ⟨allFirst, allSecond⟩ := List.forall_mem_append.mp all
  exact wholeAfter allSecond (whole allFirst rfl)

/-- Another process has resumed, and what was not saved is forgotten. -/
def resumedOnce : Machine Json :=
  ⟨{ raisedOnce.process with phase := .loaded },
    ⟨{ raisedOnce.workspace.session with store := enteredOnce.workspace.session.store }, []⟩⟩

theorem raisedOnce_extends : ∃ earlier later,
    raisedOnce.workspace.Backed .trees earlier ∧ resumedOnce.workspace.Backed .trees later ∧
      earlier.Extends later ∧
        (SavesAll raisedHistory → earlier = raisedOnce.workspace.manifest) ∧
          (SavesAll (raisedHistory ++
              [⟨raisedOnce, .kill, { raisedOnce with
                  process := { raisedOnce.process with phase := .ended } }⟩,
                ⟨{ raisedOnce with process := { raisedOnce.process with phase := .ended } },
                  .resume midnight, resumedOnce⟩]) →
            later = resumedOnce.workspace.manifest) := by
  have killed : MachineStep plainPlatform raisedOnce .kill _ := .kill raisedOnce
  have resumed : MachineStep plainPlatform
      { raisedOnce with process := { raisedOnce.process with phase := .ended } }
      (.resume midnight) resumedOnce :=
    .resume (Session.persisted_stored midnight) rfl (PipelineState.load_save JsonCodec.trees _)
  refine manifest_extends_of_run requirementsOnly "requirements.md" 10 0 raisedOnce_run
    ((Run.tail .refl killed).tail resumed) ?_
  refine List.forall_mem_append.mpr ⟨tracked_raisedHistory, ?_⟩
  simp only [List.forall_mem_cons]
  exact ⟨trivial, trivial, List.forall_mem_nil _⟩

variable {files requirementsPath maxIterations startedAt}

/-! ## The report -/

end SchedExt.Orchestrator
