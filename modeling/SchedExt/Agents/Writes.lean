import SchedExt.Agents.Integrity
import SchedExt.Agents.VerifyAgent
import SchedExt.Orchestrator.Prerequisites

/-!
# What an agent writes

An execution of an agent is a list of writes, of which an interrupted one has
left the first few.  A write through the store registers its path, and then saves
the manifest; no write takes a path out of the manifest or a version back, and
what is saved is in memory as well.
-/

namespace SchedExt.Agents

open Foundations Orchestrator

/-! ## Manifests that grow -/

/-- Every path is still there, with a version at least as large. -/
def Manifest.Extends (earlier later : Manifest) : Prop :=
  ∀ path known, earlier.get? path = some known →
    ∃ still, later.get? path = some still ∧ known.version ≤ still.version

namespace Manifest.Extends

variable {first second third : Manifest}

theorem refl (manifest : Manifest) : manifest.Extends manifest :=
  fun _ known found => ⟨known, found, Int.le_refl _⟩

theorem trans (earlier : first.Extends second) (later : second.Extends third) :
    first.Extends third := by
  intro path known found
  obtain ⟨between, foundBetween, grown⟩ := earlier path known found
  obtain ⟨still, foundStill, more⟩ := later path between foundBetween
  exact ⟨still, foundStill, Int.le_trans grown more⟩

theorem isSome (grows : first.Extends second) {path : String}
    (registered : (first.get? path).isSome) : (second.get? path).isSome := by
  obtain ⟨known, found⟩ := Option.isSome_iff_exists.mp registered
  obtain ⟨still, foundStill, -⟩ := grows path known found
  exact Option.isSome_iff_exists.mpr ⟨still, foundStill⟩

end Manifest.Extends

/-! ## Lists of writes -/

inductive Write where
  | stored (now : Timestamp) (call : StoreCall)
  | direct (path content : String)

/-- The path of the file that is written. -/
def Write.path : Write → String
  | .stored _ call => call.path
  | .direct path _ => path

/-- The path that a write registers. -/
def Write.registered : Write → Option String
  | .stored _ call => some call.path
  | .direct _ _ => none

/-- The paths that some writes register. -/
def registrations (writes : List Write) : List String :=
  writes.filterMap Write.registered

/--
Where an execution is cut off: some writes are done, and the artifact of another
one may have been registered, but the manifest has not been saved for it.
-/
structure Cut where
  kept : List Write
  begun : Option (Timestamp × StoreCall)

/-- The writes that were begun. -/
def Cut.writes (self : Cut) : List Write :=
  self.kept ++ self.begun.toList.map fun begun => .stored begun.1 begun.2

namespace Workspace

variable {Text : Type} (sha256 : ByteArray → String) (codec : JsonCodec Text)

/-- The manifest in memory. -/
abbrev manifest (self : Workspace Text) : Manifest := self.session.store.manifest

def perform (self : Workspace Text) : Write → Workspace Text
  | .stored now call => self.store sha256 codec now call
  | .direct path content => self.write (path, content)

def performAll (self : Workspace Text) (writes : List Write) : Workspace Text :=
  writes.foldl (perform sha256 codec) self

/-- `self.store.store`, up to `_save_manifest` -/
def register (self : Workspace Text) (now : Timestamp) (call : StoreCall) : Workspace Text where
  session :=
    { store :=
        { manifest := self.manifest.set call.path
            (ArtifactStore.metadata sha256 now call (self.session.store.nextVersion call.path)) }
      disk :=
        { self.session.disk with
          files := Function.update self.session.disk.files call.path
            (some call.content.encoded) } }
  written := self.written ++ [call.path]

/-- The workspace that an execution leaves that is cut off. -/
def cutOff (self : Workspace Text) (cut : Cut) : Workspace Text :=
  match cut.begun with
  | none => self.performAll sha256 codec cut.kept
  | some (now, call) => (self.performAll sha256 codec cut.kept).register sha256 now call

/-- The manifest on the disk is this one, and all of it is in memory. -/
structure Backed (workspace : Workspace Text) (saved : Manifest) : Prop where
  opens : ∀ now, ArtifactStore.opened codec now workspace.session.disk = .ok ⟨saved⟩
  grown : saved.Extends workspace.manifest

/--
The disk keeps what is saved, and what was all of the manifest in memory still is.
-/
structure Saves (before after : Workspace Text) (saved later : Manifest) : Prop where
  backed : after.Backed codec later
  grows : saved.Extends later
  whole : saved = before.manifest → later = after.manifest

/-- The calls of `storeAll`. -/
def stores (call : String → String → StoreCall) (clock : Nat → Timestamp) :
    Nat → List (String × String) → List Write
  | _, [] => []
  | count, block :: rest =>
      .stored (clock count) (call block.1 block.2) :: stores call clock (count + 1) rest

/-- The writes of `writeAll`. -/
def directs (blocks : List (String × String)) : List Write :=
  blocks.map fun block => .direct block.1 block.2

variable {sha256 codec} {self : Workspace Text} {writes more : List Write}

theorem performAll_append :
    self.performAll sha256 codec (writes ++ more) =
      (self.performAll sha256 codec writes).performAll sha256 codec more :=
  List.foldl_append

theorem performAll_stores (call : String → String → StoreCall) (clock : Nat → Timestamp)
    (count : Nat) (blocks : List (String × String)) :
    self.performAll sha256 codec (stores call clock count blocks) =
      self.storeAll sha256 codec call clock count blocks := by
  induction blocks generalizing self count with
  | nil => rfl
  | cons block rest ih => exact ih (count + 1)

theorem performAll_directs (blocks : List (String × String)) :
    self.performAll sha256 codec (directs blocks) = self.writeAll blocks := by
  rw [performAll, directs, List.foldl_map]
  rfl

theorem registrations_stores {call : String → String → StoreCall}
    (paths : ∀ path content, (call path content).path = path) (clock : Nat → Timestamp)
    (count : Nat) (blocks : List (String × String)) :
    registrations (stores call clock count blocks) = blocks.map Prod.fst := by
  induction blocks generalizing count with
  | nil => rfl
  | cons block rest ih =>
      rw [stores, registrations, List.filterMap_cons, Write.registered, ← registrations,
        ih (count + 1), paths, List.map_cons]

theorem registrations_append :
    registrations (writes ++ more) = registrations writes ++ registrations more :=
  List.filterMap_append

/-! ## What writes keep -/

theorem extends_perform (write : Write) :
    self.manifest.Extends (self.perform sha256 codec write).manifest := by
  cases write with
  | direct path content => exact .refl _
  | stored now call =>
      intro path known found
      by_cases same : path = call.path
      · subst same
        refine ⟨_, Session.get?_stored_self, ?_⟩
        change known.version ≤ self.session.store.nextVersion call.path
        rw [ArtifactStore.nextVersion, found]
        exact Int.le_add_one (Int.le_refl _)
      · refine ⟨known, ?_, Int.le_refl _⟩
        exact (Session.get?_stored_of_ne same).trans found

/-- A disk has one manifest. -/
theorem Backed.unique {first second : Manifest} (one : self.Backed codec first)
    (other : self.Backed codec second) : first = second := by
  have same := (one.opens ⟨"now", by decide⟩).symm.trans (other.opens _)
  cases same
  rfl

theorem backed_store (now : Timestamp) (call : StoreCall) :
    (self.store sha256 codec now call).Backed codec (self.store sha256 codec now call).manifest :=
  ⟨Session.persisted_stored, .refl _⟩

/-- An artifact that is registered is not on the disk yet. -/
theorem Backed.register {saved : Manifest} (backed : self.Backed codec saved) (now : Timestamp)
    (call : StoreCall) : (self.register sha256 now call).Backed codec saved :=
  ⟨backed.opens, backed.grown.trans (@extends_perform _ sha256 codec self (.stored now call))⟩

/-- What is stored is saved, whatever is written after it. -/
theorem exists_saves_performAll {saved : Manifest} (backed : self.Backed codec saved)
    (writes : List Write) :
    ∃ later, Saves codec self (self.performAll sha256 codec writes) saved later ∧
      ∀ path ∈ registrations writes, (later.get? path).isSome := by
  induction writes generalizing self saved with
  | nil => exact ⟨saved, ⟨backed, .refl _, id⟩, fun _ member => nomatch member⟩
  | cons write rest ih =>
      cases write with
      | direct path content =>
          have written : (self.write (path, content)).Backed codec saved :=
            ⟨backed.opens, backed.grown⟩
          obtain ⟨later, saves, stored⟩ := ih written
          exact ⟨later, ⟨saves.backed, saves.grows, saves.whole⟩, stored⟩
      | stored now call =>
          obtain ⟨later, saves, stored⟩ := ih (@backed_store _ sha256 codec self now call)
          have grows : saved.Extends (self.store sha256 codec now call).manifest :=
            backed.grown.trans (@extends_perform _ sha256 codec self (.stored now call))
          refine ⟨later, ⟨saves.backed, grows.trans saves.grows, fun _ => saves.whole rfl⟩,
            fun path member => ?_⟩
          rw [registrations, List.filterMap_cons] at member
          rcases List.mem_cons.mp member with rfl | behind
          · have registered :
                ((self.store sha256 codec now call).manifest.get? call.path).isSome := by
              rw [manifest, store, Session.get?_stored_self]
              rfl
            exact saves.grows.isSome registered
          · exact stored path behind

/-- An execution that is cut off between its writes leaves what these have saved. -/
theorem exists_saves_cutOff {saved : Manifest} (backed : self.Backed codec saved) (cut : Cut) :
    ∃ later, (self.cutOff sha256 codec cut).Backed codec later ∧ saved.Extends later ∧
      (cut.begun = none → saved = self.manifest →
        later = (self.cutOff sha256 codec cut).manifest) := by
  obtain ⟨later, saves, -⟩ := @exists_saves_performAll _ sha256 codec self saved backed cut.kept
  unfold cutOff
  cases cut.begun with
  | none => exact ⟨later, saves.backed, saves.grows, fun _ => saves.whole⟩
  | some begun =>
      exact ⟨later, saves.backed.register begun.1 begun.2, saves.grows,
        fun impossible => nomatch impossible⟩

end Workspace

/--
A result as its stage reports it: a failure has a kind of the stage, and the
artifacts were stored, save for the fixes and the object file.
-/
structure Accounts (stage : Stage) (writes : List Write) (result : StageResult) : Prop where
  kind : result.success = false →
    ∃ kind ∈ reportedKinds stage, result.failureKind = some kind
  stored : stage ≠ .impl → stage ≠ .bpfCompile → result.artifacts ⊆ registrations writes

theorem Accounts.passed {stage : Stage} {writes : List Write} {result : StageResult}
    (success : result.success = true) (stored : result.artifacts ⊆ registrations writes) :
    Accounts stage writes result :=
  ⟨fun fails => Bool.noConfusion (success.symm.trans fails), fun _ _ => stored⟩

theorem Accounts.failed {stage : Stage} {writes : List Write} {result : StageResult}
    {kind : FailureKind} (reported : kind ∈ reportedKinds stage)
    (kindEq : result.failureKind = some kind) (none : result.artifacts = []) :
    Accounts stage writes result := by
  refine ⟨fun _ => ⟨kind, reported, kindEq⟩, fun _ _ => ?_⟩
  rw [none]
  exact List.nil_subset _

/-! ## The writes of the agents -/

section Agents

variable {Text : Type} (sha256 : ByteArray → String) (codec : JsonCodec Text)

namespace SpecAgent

/-- What the correction stores. -/
def corrections (env : Environment) (iteration : Int) (artifacts : List String) : List Write :=
  Workspace.stores (storeCall [("iteration", toString iteration), ("corrected", "true")]) env.clock
    artifacts.length (parseFileBlocks (env.responses 1)).entries

/-- What `run` stores. -/
def writes (env : Environment) (pipeline : PipelineState) (before : Workspace Text) :
    List Write :=
  let files := parseFileBlocks (env.responses 0)
  let drafts := Workspace.stores (storeCall [("iteration", toString pipeline.iteration)]) env.clock
    0 files.entries
  if files.entries.isEmpty then []
  else if (selfVerify (before.performAll sha256 codec drafts) (env.verdicts 0) files.keys).1 then
    drafts
  else drafts ++ corrections env pipeline.iteration files.keys

variable {sha256 codec} {workspace before : Workspace Text}

theorem correct_fst (env : Environment) (iteration : Int) (artifacts : List String)
    (verifyMsg : String) :
    (correct sha256 codec env iteration workspace artifacts verifyMsg).1 =
      workspace.performAll sha256 codec (corrections env iteration artifacts) := by
  rw [corrections, Workspace.performAll_stores, correct]
  by_cases none : (parseFileBlocks (env.responses 1)).entries.isEmpty
  · rw [if_pos none, List.isEmpty_iff.mp none]
    rfl
  · rw [if_neg none]

theorem run_fst (env : Environment) (pipeline : PipelineState) :
    (run sha256 codec env pipeline before).1 =
      before.performAll sha256 codec (writes sha256 codec env pipeline before) := by
  unfold run writes
  simp only [Workspace.performAll_stores]
  by_cases none : (parseFileBlocks (env.responses 0)).entries.isEmpty
  · rw [if_pos none, if_pos none]
    rfl
  · rw [if_neg none, if_neg none]
    split <;> rename_i verified
    · split <;> rw [Workspace.performAll_stores]
    · rw [Workspace.performAll_append, Workspace.performAll_stores, ← correct_fst]
      split <;> rfl

theorem artifacts_correct (env : Environment) (iteration : Int) (artifacts : List String)
    (verifyMsg : String) :
    (correct sha256 codec env iteration workspace artifacts verifyMsg).2.1 ⊆
      artifacts ++ registrations (corrections env iteration artifacts) := by
  rw [corrections, Workspace.registrations_stores fun _ _ => rfl, correct]
  by_cases none : (parseFileBlocks (env.responses 1)).entries.isEmpty
  · rw [if_pos none]
    exact List.subset_append_left _ _
  · rw [if_neg none]
    exact List.Subset.refl _

theorem artifacts_run (env : Environment) (pipeline : PipelineState) :
    (run sha256 codec env pipeline before).2.artifacts ⊆
      registrations (writes sha256 codec env pipeline before) := by
  have drafts : registrations (Workspace.stores
      (storeCall [("iteration", toString pipeline.iteration)]) env.clock 0
      (parseFileBlocks (env.responses 0)).entries) = (parseFileBlocks (env.responses 0)).keys :=
    Workspace.registrations_stores (fun _ _ => rfl) _ _ _
  unfold run writes
  simp only
  by_cases none : (parseFileBlocks (env.responses 0)).entries.isEmpty
  · rw [if_pos none]
    exact List.nil_subset _
  · rw [if_neg none, if_neg none, Workspace.performAll_stores]
    split
    · rw [drafts, if_pos rfl]
      exact List.Subset.refl _
    · rw [Workspace.registrations_append, drafts]
      split <;> exact artifacts_correct _ _ _ _

theorem accounts_run (env : Environment) (pipeline : PipelineState) :
    Accounts .specDrafting (writes sha256 codec env pipeline before)
      (run sha256 codec env pipeline before).2 := by
  refine ⟨fun fails => ⟨.specInconsistent, List.mem_singleton_self _, ?_⟩,
    fun _ _ => artifacts_run env pipeline⟩
  revert fails
  unfold run
  simp only
  split
  · exact fun _ => rfl
  · split
    · exact fun fails => nomatch fails
    · split
      · exact fun fails => nomatch fails
      · exact fun _ => rfl

end SpecAgent

namespace ImplAgent

/-- What the rounds of the loop write. -/
def fixWrites (env : Environment) (paths : List String) :
    Nat → Nat → Workspace Text → List Write
  | 0, _, _ => []
  | rounds + 1, iteration, workspace =>
      if (verifyDafny workspace (env.verdicts iteration) paths).1 then []
      else
        Workspace.directs (roundBlocks (env.responses (iteration + 1))) ++
          fixWrites env paths rounds (iteration + 1) (fix workspace (env.responses (iteration + 1)))

/-- What `run` writes in the first of its stages. -/
def generated (env : Environment) (before : Workspace Text) : List Write :=
  let specs := specFiles before
  let parsed := Workspace.directs (fileBlocks (env.responses 0))
  let files := parseFileBlocks (env.responses 0)
  let stores := Workspace.stores (storeCall specs) env.clock 0 files.entries
  if (specs.filter before.isFile).isEmpty then []
  else if files.entries.isEmpty then parsed
  else
    parsed ++ stores ++
      fixWrites env (files.keys.filter (fun p => endsWith p ".dfy") ++ specs) maxLspIterations 0
        (before.performAll sha256 codec (parsed ++ stores))

/-- What `run` writes in the second one. -/
def logged (env : Environment) (listing : Listing) (before : Workspace Text) : List Write :=
  let verified := verifyDafny before (env.verdicts 0)
    (listing.domain ++ listing.properties ++ listing.refinements)
  if listing.refinements.isEmpty then []
  else if verified.1 then
    [.stored (env.clock 0)
      { kind := .dafnyProofLog
        path := "artifacts/proofs/impl_verify.log"
        content := .str verified.2
        createdBy := "impl_agent" }]
  else []

/-- What `run` writes. -/
def writes (env : Environment) (listing : Listing) (pipeline : PipelineState)
    (before : Workspace Text) : List Write :=
  match pipeline.currentStage with
  | .impl => generated sha256 codec env before
  | .implVerify => logged env listing before
  | _ => []

variable {sha256 codec} {workspace before : Workspace Text}

theorem workspace_fixLoop_eq (env : Environment) (paths : List String) (rounds iteration : Nat)
    (artifacts : List String) (output : String) :
    (fixLoop env paths rounds iteration workspace artifacts output).workspace =
      workspace.performAll sha256 codec (fixWrites env paths rounds iteration workspace) := by
  induction rounds generalizing iteration workspace artifacts output with
  | zero => rfl
  | succ rounds ih =>
      rw [fixLoop, fixWrites]
      by_cases verified : (verifyDafny workspace (env.verdicts iteration) paths).1
      · rw [if_pos verified, if_pos verified]
        rfl
      · rw [if_neg verified, if_neg verified, ih, Workspace.performAll_append,
          Workspace.performAll_directs, fix_eq]

theorem generateImplementation_fst (env : Environment) :
    (generateImplementation sha256 codec env before).1 =
      before.performAll sha256 codec (generated sha256 codec env before) := by
  have parsed : (parseBlocks before (env.responses 0)).2 = parseFileBlocks (env.responses 0) := rfl
  unfold generateImplementation generated
  simp only
  split
  · rfl
  · by_cases none : (parseFileBlocks (env.responses 0)).entries.isEmpty
    · rw [if_pos (parsed ▸ none), if_pos none, Workspace.performAll_directs]
      rfl
    · rw [if_neg (parsed ▸ none), if_neg none, concluded_fst, workspace_fixLoop_eq,
        Workspace.performAll_append, Workspace.performAll_append, Workspace.performAll_directs,
        Workspace.performAll_stores]
      rfl

theorem verifyImplementation_fst (env : Environment) (listing : Listing) :
    (verifyImplementation sha256 codec env listing before).1 =
      before.performAll sha256 codec (logged env listing before) := by
  unfold verifyImplementation logged
  simp only
  split
  · rfl
  · split <;> rfl

theorem run_fst (env : Environment) (listing : Listing) (pipeline : PipelineState) :
    (run sha256 codec env listing pipeline before).1 =
      before.performAll sha256 codec (writes sha256 codec env listing pipeline before) := by
  unfold run writes
  cases pipeline.currentStage with
  | impl => exact generateImplementation_fst env
  | implVerify => exact verifyImplementation_fst env listing
  | _ => rfl

theorem accounts_generateImplementation (env : Environment) :
    Accounts .impl (generated sha256 codec env before)
      (generateImplementation sha256 codec env before).2 := by
  refine ⟨fun fails => ?_, fun other => absurd rfl other⟩
  unfold generateImplementation at fails ⊢
  simp only at fails ⊢
  split
  · exact ⟨.specIncomplete, List.mem_cons_self, rfl⟩
  · rename_i specified
    rw [if_neg specified] at fails
    split
    · exact ⟨.implUnverified, List.mem_cons_of_mem _ List.mem_cons_self, rfl⟩
    · rename_i some
      rw [if_neg some] at fails
      unfold concluded at fails ⊢
      split
      · rename_i verified
        rw [if_pos verified] at fails
        exact nomatch fails
      · exact ⟨.implUnverified, List.mem_cons_of_mem _ List.mem_cons_self, rfl⟩

theorem accounts_verifyImplementation (env : Environment) (listing : Listing) :
    Accounts .implVerify (logged env listing before)
      (verifyImplementation sha256 codec env listing before).2 := by
  unfold verifyImplementation logged
  simp only
  split
  · exact .failed (List.mem_singleton_self _) rfl rfl
  · split
    · exact .passed rfl (List.Subset.refl _)
    · exact .failed (List.mem_singleton_self _) rfl rfl

theorem accounts_run (env : Environment) (listing : Listing) (pipeline : PipelineState)
    (ours : pipeline.currentStage = .impl ∨ pipeline.currentStage = .implVerify) :
    Accounts pipeline.currentStage (writes sha256 codec env listing pipeline before)
      (run sha256 codec env listing pipeline before).2 := by
  unfold run writes
  rcases ours with here | here <;> rw [here]
  · exact accounts_generateImplementation env
  · exact accounts_verifyImplementation env listing

end ImplAgent

namespace VerifyAgent

variable (loads : List Char → Except LoadsFault Json) (str : Json → String)

/-- The log of a verification that is reviewed. -/
def log (verifyOutput : String) (paths : List String) : StoreCall where
  kind := .dafnyProofLog
  path := "artifacts/proofs/spec_verify.log"
  content := .str verifyOutput
  createdBy := "verify_agent"
  dependsOn := some paths

/-- What `run` stores, which is nothing unless the review passes. -/
def writes (env : Environment) (pipeline : PipelineState) (before : Workspace Text) :
    List Write :=
  match run sha256 codec loads str env pipeline before with
  | .ok (_, result) =>
      if result.success then
        let paths := specPaths before
        [.stored (env.clock 0) (log (runDafnyVerify (env.verdicts 0) paths).2 paths)]
      else []
  | .error _ => []

variable {loads str} {before : Workspace Text}

/-- A file that holds a text is read as it, with its line ends translated. -/
theorem readText_of_files {path content : String}
    (present : before.session.disk.files path = some content.toUTF8) :
    readText before path = .ok (universalNewlines content) := by
  unfold readText
  rw [present]
  dsimp only
  rw [readTextMode_toUTF8]

theorem inconsistent_cases {verifyOutput : String} {result : StageResult}
    (reported : inconsistent verifyOutput = .ok result) :
    result.success = false ∧ result.failureKind = some .specInconsistent ∧
      result.artifacts = [] := by
  unfold inconsistent at reported
  split at reported
  · cases reported
  · cases reported
    exact ⟨rfl, rfl, rfl⟩

theorem incomplete_cases {review : SpecReviewResult} {result : StageResult}
    (reported : incomplete str review = .ok result) :
    result.success = false ∧ result.failureKind = some .specIncomplete ∧
      result.artifacts = [] := by
  obtain ⟨missing, _, suggesting⟩ := Json.exists_of_bind_eq_ok reported
  obtain ⟨suggested, _, returned⟩ := Json.exists_of_bind_eq_ok suggesting
  obtain rfl := Except.ok.inj returned
  exact ⟨rfl, rfl, rfl⟩

/-- What an execution that returns has done: stored a log and passed, or nothing and failed. -/
inductive Reviewed (env : Environment) (before : Workspace Text) :
    Workspace Text × StageResult → Prop where
  | passed {result : StageResult} (success : result.success = true)
      (logged : result.artifacts = ["artifacts/proofs/spec_verify.log"]) :
      Reviewed env before (before.store sha256 codec (env.clock 0)
        (log (runDafnyVerify (env.verdicts 0) (specPaths before)).2 (specPaths before)), result)
  | failed {result : StageResult} (fails : result.success = false)
      (kind : result.failureKind = some .specInconsistent ∨
        result.failureKind = some .specIncomplete) (none : result.artifacts = []) :
      Reviewed env before (before, result)

variable {sha256 codec}

theorem reviewed_concluded {env : Environment} {review : SpecReviewResult}
    {outcome : Workspace Text × StageResult}
    (returns : concluded sha256 codec str (env.clock 0) before (specPaths before)
      (runDafnyVerify (env.verdicts 0) (specPaths before)).2 review = .ok outcome) :
    Reviewed sha256 codec env before outcome := by
  unfold concluded at returns
  split at returns
  · obtain rfl := Except.ok.inj returns
    exact .passed rfl rfl
  · obtain ⟨result, reported, returned⟩ := Json.exists_of_bind_eq_ok returns
    obtain rfl := Except.ok.inj returned
    obtain ⟨fails, kind, none⟩ := incomplete_cases reported
    exact .failed fails (.inr kind) none

theorem reviewed_run {env : Environment} {pipeline : PipelineState}
    {outcome : Workspace Text × StageResult}
    (returns : run sha256 codec loads str env pipeline before = .ok outcome) :
    Reviewed sha256 codec env before outcome := by
  unfold run at returns
  split at returns
  · obtain rfl := Except.ok.inj returns
    exact .failed rfl (.inr rfl) rfl
  · simp only at returns
    split at returns
    · obtain ⟨review, _, concludes⟩ := Json.exists_of_bind_eq_ok returns
      exact reviewed_concluded concludes
    · obtain ⟨result, reported, returned⟩ := Json.exists_of_bind_eq_ok returns
      obtain rfl := Except.ok.inj returned
      obtain ⟨fails, kind, none⟩ := inconsistent_cases reported
      exact .failed fails (.inl kind) none

theorem run_fst {env : Environment} {pipeline : PipelineState} {after : Workspace Text}
    {result : StageResult}
    (returns : run sha256 codec loads str env pipeline before = .ok (after, result)) :
    after = before.performAll sha256 codec
      (writes sha256 codec loads str env pipeline before) := by
  unfold writes
  rw [returns]
  cases reviewed_run returns with
  | passed success logged =>
      simp only [if_pos success]
      rfl
  | failed fails kind none =>
      simp only [fails]
      rfl

theorem accounts_run {env : Environment} {pipeline : PipelineState} {after : Workspace Text}
    {result : StageResult}
    (returns : run sha256 codec loads str env pipeline before = .ok (after, result)) :
    Accounts .specReview (writes sha256 codec loads str env pipeline before) result := by
  unfold writes
  rw [returns]
  cases reviewed_run returns with
  | passed success logged =>
      refine .passed success ?_
      simp only [if_pos success, logged]
      exact List.Subset.refl _
  | failed fails kind none =>
      rcases kind with inconsistent | incomplete
      · exact .failed List.mem_cons_self inconsistent none
      · exact .failed (List.mem_cons_of_mem _ List.mem_cons_self) incomplete none

end VerifyAgent

end Agents

end SchedExt.Agents
