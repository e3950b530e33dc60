import SchedExt.Agents.Integrity

/-!
# What the specification agent has verified

An execution verifies the files of its first response, and on a failure those
of the correction alone.  Its success means that all it wrote was verified,
except when a correction passes that leaves out a file of the first response.
-/

namespace SchedExt.Agents

open Foundations Orchestrator

/-- The verdict of a verification without errors. -/
def Verdict.passes : Verdict → Bool
  | .exited returncode _ _ => returncode = 0
  | .notFound => false
  | .timedOut => false

theorem Verdict.passes_eq {verdict : Verdict} (installed : verdict ≠ .notFound) :
    verdict.passes = !verdict.fails := by
  cases verdict with
  | exited returncode stdout stderr => simp [Verdict.passes, Verdict.fails]
  | notFound => exact absurd rfl installed
  | timedOut => rfl

/-- One run of `dafny verify`: the files it is given, with what they hold then, and its verdict. -/
structure VerifyCall where
  files : List (String × ByteArray)
  verdict : Verdict

namespace Workspace

variable {Text : Type} (self : Workspace Text)

/-- Paths with what their files hold. -/
def withContents (paths : List String) : List (String × ByteArray) :=
  paths.filterMap fun path => (self.session.disk.files path).map fun data => (path, data)

/-- The calls that a verification of paths makes: none when no Dafny file is among them. -/
def verifyCalls (verdict : Verdict) (paths : List String) : List VerifyCall :=
  if (self.existing paths).isEmpty then []
  else [⟨self.withContents (self.existing paths), verdict⟩]

variable {self} {verdict : Verdict} {paths : List String} {path : String} {data : ByteArray}

theorem mem_withContents :
    (path, data) ∈ self.withContents paths ↔
      path ∈ paths ∧ self.session.disk.files path = some data := by
  unfold withContents
  rw [List.mem_filterMap]
  constructor
  · rintro ⟨other, member, found⟩
    obtain ⟨content, file, same⟩ := Option.map_eq_some_iff.mp found
    obtain ⟨rfl, rfl⟩ := Prod.mk.inj same
    exact ⟨member, file⟩
  · rintro ⟨member, file⟩
    exact ⟨path, member, by rw [file, Option.map_some]⟩

theorem mem_existing :
    path ∈ self.existing paths ↔
      path ∈ paths ∧ self.isFile path = true ∧ endsWith path ".dfy" = true := by
  rw [existing, List.mem_filter, Bool.and_eq_true]

/-- The existing files are given to a call, and nothing else is. -/
theorem mem_map_withContents :
    path ∈ (self.withContents (self.existing paths)).map Prod.fst ↔
      path ∈ self.existing paths := by
  constructor
  · intro given
    obtain ⟨⟨_, data⟩, member, rfl⟩ := List.mem_map.mp given
    exact (mem_withContents.mp member).1
  · intro among
    obtain ⟨data, content⟩ := Option.isSome_iff_exists.mp (mem_existing.mp among).2.1
    exact List.mem_map_of_mem (mem_withContents.mpr ⟨among, content⟩)

/-- Every call of a verification has its verdict. -/
theorem verdict_of_mem {call : VerifyCall} (member : call ∈ self.verifyCalls verdict paths) :
    call.verdict = verdict ∧ call.files = self.withContents (self.existing paths) := by
  unfold verifyCalls at member
  split at member
  · cases member
  · rw [List.mem_singleton.mp member]
    exact ⟨rfl, rfl⟩

/-- A Dafny file that is there is given to the call with what it holds. -/
theorem exists_call (verdict : Verdict) (member : path ∈ paths) (file : self.isFile path = true)
    (dafny : endsWith path ".dfy" = true) :
    ∃ call ∈ self.verifyCalls verdict paths, call.verdict = verdict ∧
      ∃ data, self.session.disk.files path = some data ∧ (path, data) ∈ call.files := by
  have among : path ∈ self.existing paths := mem_existing.mpr ⟨member, file, dafny⟩
  obtain ⟨data, content⟩ := Option.isSome_iff_exists.mp file
  refine ⟨⟨self.withContents (self.existing paths), verdict⟩, ?_, rfl, data, content, ?_⟩
  · unfold verifyCalls
    rw [if_neg (fun empty => List.ne_nil_of_mem among (List.isEmpty_iff.mp empty))]
    exact List.mem_singleton_self _
  · exact mem_withContents.mpr ⟨among, content⟩

end Workspace

namespace SpecAgent

variable {Text : Type} (sha256 : ByteArray → String) (codec : JsonCodec Text)

/-- The paths and contents of the first response. -/
def draft (env : Environment) : Dict String String := parseFileBlocks (env.responses 0)

/-- The paths and contents of the correction. -/
def correction (env : Environment) : Dict String String := parseFileBlocks (env.responses 1)

/-- The workspace once the first response is stored. -/
def drafted (env : Environment) (pipeline : PipelineState) (before : Workspace Text) :
    Workspace Text :=
  before.storeAll sha256 codec (storeCall [("iteration", toString pipeline.iteration)]) env.clock 0
    (draft env).entries

/-- The workspace once the correction is stored, too. -/
def corrected (env : Environment) (pipeline : PipelineState) (before : Workspace Text) :
    Workspace Text :=
  (drafted sha256 codec env pipeline before).storeAll sha256 codec
    (storeCall [("iteration", toString pipeline.iteration), ("corrected", "true")]) env.clock
    (draft env).keys.length (correction env).entries

/-- The calls of `dafny verify` that an execution of `run` makes. -/
def verifyCalls (env : Environment) (pipeline : PipelineState) (before : Workspace Text) :
    List VerifyCall :=
  let stored := drafted sha256 codec env pipeline before
  if (draft env).entries.isEmpty then []
  else
    stored.verifyCalls (env.verdicts 0) (draft env).keys ++
      if (selfVerify stored (env.verdicts 0) (draft env).keys).1 then []
      else if (correction env).entries.isEmpty then []
      else
        (corrected sha256 codec env pipeline before).verifyCalls (env.verdicts 1)
          (correction env).keys

/--
If the execution succeeds, every Dafny file among its artifacts was given to a
call that passed, with the content that it is left with.
-/
def VerifiedAsWritten (env : Environment) (pipeline : PipelineState) (before : Workspace Text) :
    Prop :=
  let after := (run sha256 codec env pipeline before).1
  let result := (run sha256 codec env pipeline before).2
  result.success = true → ∀ path ∈ result.artifacts, endsWith path ".dfy" = true →
    ∃ call ∈ verifyCalls sha256 codec env pipeline before, call.verdict.passes = true ∧
      ∃ data, after.session.disk.files path = some data ∧ (path, data) ∈ call.files

/--
Dafny rejects the first response, the correction passes, and a Dafny file of
the first response is not among those of the correction.
-/
structure CorrectionOmits (env : Environment) : Prop where
  rejected : (env.verdicts 0).fails = true
  answered : (correction env).entries.isEmpty = false
  passed : (∃ path ∈ (correction env).keys, endsWith path ".dfy" = true) →
    (env.verdicts 1).fails = false
  omitted : ∃ path ∈ (draft env).keys, endsWith path ".dfy" = true ∧ path ∉ (correction env).keys

variable {sha256 codec} {env : Environment} {pipeline : PipelineState} {before : Workspace Text}

/-! ## The files on the disk -/

/-- Every path of the blocks that are stored is there. -/
theorem isFile_storeAll {workspace : Workspace Text} {tags : List (String × String)}
    {clock : Nat → Timestamp} {count : Nat} {blocks : Dict String String} {path : String}
    (member : path ∈ blocks.keys) :
    (workspace.storeAll sha256 codec (storeCall tags) clock count blocks.entries).isFile path =
      true := by
  rw [Workspace.isFile, Workspace.files_storeAll (fun _ _ => rfl) (fun _ _ => rfl),
    Dict.ofEntries_entries, Option.isSome_or, Option.isSome_map, Dict.isSome_get?.mpr member]
  rfl

theorem isFile_drafted {path : String} (member : path ∈ (draft env).keys) :
    (drafted sha256 codec env pipeline before).isFile path = true := isFile_storeAll member

theorem isFile_corrected {path : String} (member : path ∈ (correction env).keys) :
    (corrected sha256 codec env pipeline before).isFile path = true := isFile_storeAll member

/-! ## The outcomes of an execution -/

/-- A verification passes when there is nothing to verify or Dafny finds no error. -/
theorem selfVerify_fst {workspace : Workspace Text} {verdict : Verdict}
    (installed : verdict ≠ .notFound) (paths : List String) :
    (selfVerify workspace verdict paths).1 =
      ((workspace.existing paths).isEmpty || verdict.passes) := by
  unfold selfVerify
  split
  · rename_i nothing
    rw [nothing]
    rfl
  · rename_i something
    rw [Bool.eq_false_iff.mpr something, Bool.false_or]
    cases verdict with
    | exited returncode stdout stderr =>
        dsimp only [Verdict.passes]
        split
        · rename_i clean
          exact (decide_eq_true clean).symm
        · rename_i errors
          exact (decide_eq_false errors).symm
    | notFound => exact absurd rfl installed
    | timedOut => rfl

/-- An execution whose first verification passes. -/
theorem run_of_passed (present : (draft env).entries.isEmpty = false)
    (passed : (selfVerify (drafted sha256 codec env pipeline before) (env.verdicts 0)
      (draft env).keys).1 = true) :
    (run sha256 codec env pipeline before).1 = drafted sha256 codec env pipeline before ∧
      (run sha256 codec env pipeline before).2.success = true ∧
      (run sha256 codec env pipeline before).2.artifacts = (draft env).keys := by
  unfold drafted draft at passed
  unfold draft at present
  unfold run drafted draft
  dsimp only
  rw [if_neg (Bool.eq_false_iff.mp present), passed]
  exact ⟨rfl, rfl, rfl⟩

/-- An execution whose correction is verified in its turn. -/
theorem run_of_corrected (present : (draft env).entries.isEmpty = false)
    (rejected : (selfVerify (drafted sha256 codec env pipeline before) (env.verdicts 0)
      (draft env).keys).1 = false)
    (answered : (correction env).entries.isEmpty = false) :
    let result := run sha256 codec env pipeline before
    let verified := (selfVerify (corrected sha256 codec env pipeline before) (env.verdicts 1)
      (correction env).keys).1
    result.1 = corrected sha256 codec env pipeline before ∧ result.2.success = verified ∧
      result.2.artifacts = (draft env).keys ++ (correction env).keys := by
  unfold corrected drafted correction draft at *
  unfold run correct
  dsimp only
  rw [if_neg (Bool.eq_false_iff.mp present), rejected, if_neg Bool.false_ne_true,
    if_neg (Bool.eq_false_iff.mp answered)]
  dsimp only
  split
  · rename_i passed
    exact ⟨rfl, passed.symm, rfl⟩
  · rename_i failed
    exact ⟨rfl, (Bool.eq_false_iff.mpr failed).symm, rfl⟩

/-- An execution that succeeds has its first response or its correction verified. -/
theorem outcome_cases (succeeds : (run sha256 codec env pipeline before).2.success = true) :
    (draft env).entries.isEmpty = false ∧
      ((selfVerify (drafted sha256 codec env pipeline before) (env.verdicts 0)
          (draft env).keys).1 = false → (correction env).entries.isEmpty = false) := by
  unfold run correct at succeeds
  unfold drafted correction draft
  dsimp only at succeeds
  cases present : (parseFileBlocks (env.responses 0)).entries.isEmpty with
  | true =>
      rw [if_pos present] at succeeds
      cases succeeds
  | false =>
      refine ⟨rfl, fun rejected => ?_⟩
      rw [if_neg (Bool.eq_false_iff.mp present), rejected, if_neg Bool.false_ne_true] at succeeds
      cases answered : (parseFileBlocks (env.responses 1)).entries.isEmpty with
      | true =>
          rw [if_pos answered] at succeeds
          cases succeeds
      | false => rfl

/-- With a Dafny file to verify, Dafny decides. -/
theorem selfVerify_of_mem {workspace : Workspace Text} {verdict : Verdict} {paths : List String}
    {path : String} (installed : verdict ≠ .notFound) (member : path ∈ paths)
    (file : workspace.isFile path = true) (dafny : endsWith path ".dfy" = true) :
    (selfVerify workspace verdict paths).1 = verdict.passes := by
  have among : path ∈ workspace.existing paths := Workspace.mem_existing.mpr ⟨member, file, dafny⟩
  have something : (workspace.existing paths).isEmpty = false :=
    Bool.eq_false_iff.mpr fun empty => List.ne_nil_of_mem among (List.isEmpty_iff.mp empty)
  rw [selfVerify_fst installed, something, Bool.false_or]

theorem calls_of_passed (present : (draft env).entries.isEmpty = false)
    (passed : (selfVerify (drafted sha256 codec env pipeline before) (env.verdicts 0)
      (draft env).keys).1 = true) :
    verifyCalls sha256 codec env pipeline before =
      (drafted sha256 codec env pipeline before).verifyCalls (env.verdicts 0) (draft env).keys := by
  unfold verifyCalls
  dsimp only
  rw [if_neg (Bool.eq_false_iff.mp present), if_pos passed, List.append_nil]

theorem calls_of_corrected (present : (draft env).entries.isEmpty = false)
    (rejected : (selfVerify (drafted sha256 codec env pipeline before) (env.verdicts 0)
      (draft env).keys).1 = false)
    (answered : (correction env).entries.isEmpty = false) :
    verifyCalls sha256 codec env pipeline before =
      (drafted sha256 codec env pipeline before).verifyCalls (env.verdicts 0) (draft env).keys ++
        (corrected sha256 codec env pipeline before).verifyCalls (env.verdicts 1)
          (correction env).keys := by
  unfold verifyCalls
  dsimp only
  rw [if_neg (Bool.eq_false_iff.mp present), if_neg (Bool.eq_false_iff.mp rejected),
    if_neg (Bool.eq_false_iff.mp answered)]

/-- Every call is one of the two verifications. -/
theorem call_cases {call : VerifyCall}
    (member : call ∈ verifyCalls sha256 codec env pipeline before) :
    call ∈ (drafted sha256 codec env pipeline before).verifyCalls (env.verdicts 0)
        (draft env).keys ∨
      call ∈ (corrected sha256 codec env pipeline before).verifyCalls (env.verdicts 1)
        (correction env).keys := by
  unfold verifyCalls at member
  dsimp only at member
  split at member
  · cases member
  · refine (List.mem_append.mp member).imp_right fun later => ?_
    split at later
    · cases later
    · split at later
      · cases later
      · exact later

/-! ## What success means -/

namespace CorrectionOmits

theorem draft_present (omits : CorrectionOmits env) : (draft env).entries.isEmpty = false := by
  obtain ⟨path, inDraft, _⟩ := omits.omitted
  refine Bool.eq_false_iff.mpr fun empty => ?_
  rw [Dict.keys, List.isEmpty_iff.mp empty] at inDraft
  cases inDraft

/-- The first verification fails, since a file that the correction omits is in it. -/
theorem draft_rejected (installed : ∀ call, env.verdicts call ≠ .notFound)
    (omits : CorrectionOmits env) :
    (selfVerify (drafted sha256 codec env pipeline before) (env.verdicts 0)
      (draft env).keys).1 = false := by
  obtain ⟨path, inDraft, dafny, _⟩ := omits.omitted
  rw [selfVerify_of_mem (installed 0) inDraft (isFile_drafted inDraft) dafny,
    Verdict.passes_eq (installed 0), omits.rejected]
  rfl

/-- The second verification passes, with or without files to verify. -/
theorem correction_passed (installed : ∀ call, env.verdicts call ≠ .notFound)
    (omits : CorrectionOmits env) :
    (selfVerify (corrected sha256 codec env pipeline before) (env.verdicts 1)
      (correction env).keys).1 = true := by
  rw [selfVerify_fst (installed 1), Bool.or_eq_true, List.isEmpty_iff, or_iff_not_imp_left]
  intro something
  obtain ⟨path, among⟩ := List.exists_mem_of_ne_nil _ something
  obtain ⟨member, _, dafny⟩ := Workspace.mem_existing.mp among
  rw [Verdict.passes_eq (installed 1), omits.passed ⟨path, member, dafny⟩]
  rfl

end CorrectionOmits

/-- A correction that omits a file passes, though no call with the file has. -/
theorem not_verified_of_omits (installed : ∀ call, env.verdicts call ≠ .notFound)
    (omits : CorrectionOmits env) : ¬ VerifiedAsWritten sha256 codec env pipeline before := by
  intro verified
  obtain ⟨path, inDraft, dafny, omitted⟩ := omits.omitted
  obtain ⟨_, success, artifacts⟩ := run_of_corrected omits.draft_present
    (omits.draft_rejected installed) omits.answered
  rw [omits.correction_passed installed] at success
  have among : path ∈ (run sha256 codec env pipeline before).2.artifacts := by
    rw [artifacts]
    exact List.mem_append_left _ inDraft
  obtain ⟨call, member, passes, data, _, given⟩ := verified success path among dafny
  rcases call_cases member with first | second
  · obtain ⟨verdict, _⟩ := Workspace.verdict_of_mem first
    rw [verdict, Verdict.passes_eq (installed 0), omits.rejected] at passes
    cases passes
  · obtain ⟨_, files⟩ := Workspace.verdict_of_mem second
    rw [files] at given
    obtain ⟨existing, _⟩ := Workspace.mem_withContents.mp given
    exact omitted (Workspace.mem_existing.mp existing).1

/-- A Dafny file of a verification that passes is in a call that passes, as it is. -/
theorem exists_passing {workspace : Workspace Text} {verdict : Verdict} {paths : List String}
    {path : String} (installed : verdict ≠ .notFound)
    (passed : (selfVerify workspace verdict paths).1 = true) (member : path ∈ paths)
    (file : workspace.isFile path = true) (dafny : endsWith path ".dfy" = true) :
    ∃ call ∈ workspace.verifyCalls verdict paths, call.verdict.passes = true ∧
      ∃ data, workspace.session.disk.files path = some data ∧ (path, data) ∈ call.files := by
  rw [selfVerify_of_mem installed member file dafny] at passed
  obtain ⟨call, among, rfl, given⟩ :=
    Workspace.exists_call verdict member file dafny
  exact ⟨call, among, passed, given⟩

/-- Without an omission, what succeeds was verified as it was written. -/
theorem verified_of_not_omits (installed : ∀ call, env.verdicts call ≠ .notFound)
    (keeps : ¬ CorrectionOmits env) : VerifiedAsWritten sha256 codec env pipeline before := by
  unfold VerifiedAsWritten
  dsimp only
  intro succeeds path among dafny
  obtain ⟨present, answers⟩ := outcome_cases succeeds
  cases first : (selfVerify (drafted sha256 codec env pipeline before) (env.verdicts 0)
      (draft env).keys).1 with
  | true =>
      obtain ⟨left, _, artifacts⟩ := run_of_passed present first
      rw [artifacts] at among
      rw [left, calls_of_passed present first]
      exact exists_passing (installed 0) first among (isFile_drafted among) dafny
  | false =>
      have answered := answers first
      obtain ⟨left, success, artifacts⟩ := run_of_corrected present first answered
      rw [success] at succeeds
      rw [artifacts, List.mem_append] at among
      have kept : path ∈ (correction env).keys := by
        by_contra omitted
        have inDraft : path ∈ (draft env).keys := among.resolve_right omitted
        rw [selfVerify_of_mem (installed 0) inDraft (isFile_drafted inDraft) dafny,
          Verdict.passes_eq (installed 0), Bool.not_eq_false'] at first
        refine keeps ⟨first, answered, ?_, path, inDraft, dafny, omitted⟩
        rintro ⟨other, member, otherDafny⟩
        rwa [selfVerify_of_mem (installed 1) member (isFile_corrected member) otherDafny,
          Verdict.passes_eq (installed 1), Bool.not_eq_true'] at succeeds
      obtain ⟨call, member, passes, given⟩ :=
        exists_passing (installed 1) succeeds kept (isFile_corrected kept) dafny
      rw [left, calls_of_corrected present first answered]
      exact ⟨call, List.mem_append_right _ member, passes, given⟩

/--
With Dafny installed, the success of an execution means that every Dafny file
that it wrote was verified as it is left, exactly when no correction passes that
leaves a file of the rejected response out.
-/
theorem verifiedAsWritten_iff (installed : ∀ call, env.verdicts call ≠ .notFound) :
    VerifiedAsWritten sha256 codec env pipeline before ↔ ¬ CorrectionOmits env :=
  ⟨fun verified omits => not_verified_of_omits installed omits verified,
    verified_of_not_omits installed⟩

/-! ## A correction that omits a file -/

/-- The first response fails, and another file is sent in its place. -/
def correctedElsewhere : Environment where
  responses
    | 0 => "<file path=\"specs/a.dfy\">\nx\n</file>"
    | _ => "<file path=\"specs/b.dfy\">\ny\n</file>"
  verdicts
    | 0 => .exited 4 "" ""
    | _ => .exited 0 "" ""
  clock := fun _ => midnight

def atSpecDrafting : PipelineState := { currentStage := .specDrafting, startedAt := 0 }

def noFiles : Workspace Json := ⟨newSession fun _ => none, []⟩

theorem fixedOnce_verifiedAsWritten :
    VerifiedAsWritten digestOf .trees fixedOnce atSpecDrafting noFiles := by
  refine (verifiedAsWritten_iff ?_).mpr fun omits => ?_
  · rintro (_ | _) absent
    · cases absent
    · cases absent
  · obtain ⟨path, inDraft, _, omitted⟩ := omits.omitted
    obtain ⟨drafts, corrects⟩ := parseFileBlocks_fixedOnce
    rw [draft, drafts] at inDraft
    rw [correction, corrects] at omitted
    exact omitted inDraft

theorem draft_correctedElsewhere :
    draft correctedElsewhere = Dict.ofEntries [("specs/a.dfy", "x")] := by
  have first : FileBlocks.matchHere (correctedElsewhere.responses 0).toList =
      some (("specs/a.dfy".toList, "x".toList), []) := rfl
  exact congrArg Dict.ofEntries (fileBlocks_of_matchHere first)

theorem correction_correctedElsewhere :
    correction correctedElsewhere = Dict.ofEntries [("specs/b.dfy", "y")] := by
  have second : FileBlocks.matchHere (correctedElsewhere.responses 1).toList =
      some (("specs/b.dfy".toList, "y".toList), []) := rfl
  exact congrArg Dict.ofEntries (fileBlocks_of_matchHere second)

/-- A verdict on the set of the files, whatever their order and repetitions. -/
def OnSets (dafny : List (String × ByteArray) → Verdict) : Prop :=
  ∀ files other, files ⊆ other → other ⊆ files → dafny files = dafny other

/-- A Dafny that finds errors in one of the files only. -/
def rejectsFirst (files : List (String × ByteArray)) : Verdict :=
  if "specs/a.dfy" ∈ files.map Prod.fst then .exited 4 "" "" else .exited 0 "" ""

theorem onSets_rejectsFirst : OnSets rejectsFirst := by
  intro files other inOther inFiles
  have same : "specs/a.dfy" ∈ files.map Prod.fst ↔ "specs/a.dfy" ∈ other.map Prod.fst :=
    ⟨fun member => List.map_subset _ inOther member, fun member => List.map_subset _ inFiles member⟩
  unfold rejectsFirst
  simp only [same]

theorem installed_correctedElsewhere (call : Nat) :
    correctedElsewhere.verdicts call ≠ .notFound := by
  cases call with
  | zero => exact nofun
  | succ call => exact nofun

theorem mem_keys_draft : "specs/a.dfy" ∈ (draft correctedElsewhere).keys := by
  rw [draft_correctedElsewhere]
  exact List.mem_singleton_self _

theorem notMem_keys_correction : "specs/a.dfy" ∉ (correction correctedElsewhere).keys := by
  rw [correction_correctedElsewhere]
  decide

theorem correctedElsewhere_omits : CorrectionOmits correctedElsewhere where
  rejected := rfl
  answered := by
    rw [correction_correctedElsewhere]
    rfl
  passed _ := rfl
  omitted := ⟨"specs/a.dfy", mem_keys_draft, rfl, notMem_keys_correction⟩

/-- The calls have the verdicts of that Dafny. -/
theorem verdict_eq_rejectsFirst {call : VerifyCall}
    (member : call ∈ verifyCalls sha256 codec correctedElsewhere pipeline before) :
    call.verdict = rejectsFirst call.files := by
  unfold rejectsFirst
  rcases call_cases member with first | second
  · obtain ⟨verdict, files⟩ := Workspace.verdict_of_mem first
    rw [verdict, files, if_pos]
    · rfl
    · apply Workspace.mem_map_withContents.mpr
      exact Workspace.mem_existing.mpr ⟨mem_keys_draft, isFile_drafted mem_keys_draft, rfl⟩
  · obtain ⟨verdict, files⟩ := Workspace.verdict_of_mem second
    rw [verdict, files, if_neg]
    · rfl
    · intro given
      have existing := Workspace.mem_map_withContents.mp given
      exact notMem_keys_correction (Workspace.mem_existing.mp existing).1

theorem correctedElsewhere_notVerified :
    ¬ ∀ (dafny : List (String × ByteArray) → Verdict) (env : Environment)
        (pipeline : PipelineState) (before : Workspace Json),
      OnSets dafny → (∀ files, dafny files ≠ .notFound) →
      (∀ call ∈ verifyCalls digestOf .trees env pipeline before,
        call.verdict = dafny call.files) →
      VerifiedAsWritten digestOf .trees env pipeline before := by
  intro verified
  refine not_verified_of_omits installed_correctedElsewhere correctedElsewhere_omits
    (verified rejectsFirst correctedElsewhere atSpecDrafting noFiles onSets_rejectsFirst ?_ ?_)
  · intro files
    unfold rejectsFirst
    split
    · exact nofun
    · exact nofun
  · exact fun call member => verdict_eq_rejectsFirst member

end SpecAgent

end SchedExt.Agents
