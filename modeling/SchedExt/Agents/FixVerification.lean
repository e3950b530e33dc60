import SchedExt.Agents.SelfVerification

/-!
# What the implementation agent has verified

The list of files that the loop verifies is made before its first round.  The
success of an execution means that all it wrote was verified, except when a fix
brings a Dafny file that is not on the list.
-/

namespace SchedExt.Agents.ImplAgent

open Foundations Orchestrator

section Calls

variable {Text : Type} (sha256 : ByteArray → String) (codec : JsonCodec Text)

/-- The calls of `dafny verify` that the loop makes. -/
def loopCalls (env : Environment) (paths : List String) :
    Nat → Nat → Workspace Text → List VerifyCall
  | 0, _, _ => []
  | rounds + 1, iteration, workspace =>
      workspace.verifyCalls (env.verdicts iteration) paths ++
        if (verifyDafny workspace (env.verdicts iteration) paths).1 then []
        else
          loopCalls env paths rounds (iteration + 1)
            (fix workspace (env.responses (iteration + 1)))

/-- The calls of `dafny verify` that an execution of `_generate_implementation` makes. -/
def verifyCalls (env : Environment) (before : Workspace Text) : List VerifyCall :=
  if ((specFiles before).filter before.isFile).isEmpty then []
  else if (parseFileBlocks (env.responses 0)).entries.isEmpty then []
  else
    loopCalls env (verified before env) maxLspIterations 0 (stored sha256 codec before env)

/--
If the execution succeeds, every Dafny file among its artifacts was given to the
last call, which passed, with the content that it is left with.
-/
def VerifiedLast (env : Environment) (before : Workspace Text) : Prop :=
  let after := (generateImplementation sha256 codec env before).1
  let result := (generateImplementation sha256 codec env before).2
  result.success = true → ∀ path ∈ result.artifacts, endsWith path ".dfy" = true →
    ∃ call, (verifyCalls sha256 codec env before).getLast? = some call ∧
      call.verdict.passes = true ∧
        ∃ data, after.session.disk.files path = some data ∧ (path, data) ∈ call.files

/--
Dafny accepts the listed files in one of the rounds, and a fix before it has a
Dafny file that is not listed.
-/
structure FixOverlooked (env : Environment) (before : Workspace Text) : Prop where
  attempts : Attempts before env
  accepted : fixRounds before env < maxLspIterations
  overlooked : ∃ response ∈ List.range' 1 (fixRounds before env),
    ∃ path ∈ (parseFileBlocks (env.responses response)).keys,
      endsWith path ".dfy" = true ∧ path ∉ verified before env

end Calls

variable {Text : Type} {sha256 : ByteArray → String} {codec : JsonCodec Text}
variable {workspace before : Workspace Text} {env : Environment} {paths : List String}

/-! ## The loop -/

/-- The verdicts of the rounds that ask for a fix fail, and the next one does not. -/
theorem fails_askedRounds (env : Environment) {rounds iteration : Nat}
    (accepted : askedRounds env rounds iteration < rounds) :
    (env.verdicts (iteration + askedRounds env rounds iteration)).fails = false := by
  induction rounds generalizing iteration with
  | zero => cases accepted
  | succ rounds ih =>
      unfold askedRounds at accepted ⊢
      cases failed : (env.verdicts iteration).fails with
      | true =>
          rw [failed, if_pos rfl] at accepted
          rw [if_pos rfl, Nat.add_comm _ 1, ← Nat.add_assoc]
          exact ih (Nat.lt_of_succ_lt_succ accepted)
      | false =>
          rw [if_neg Bool.false_ne_true]
          exact failed

/-- What the first rounds of the loop write. -/
def roundsWritten (workspace : Workspace Text) (env : Environment) (iteration count : Nat) :
    Workspace Text :=
  workspace.writeAll ((List.range' (iteration + 1) count).flatMap fun response =>
    roundBlocks (env.responses response))

theorem roundsWritten_succ (workspace : Workspace Text) (env : Environment)
    (iteration count : Nat) :
    roundsWritten (fix workspace (env.responses (iteration + 1))) env (iteration + 1) count =
      roundsWritten workspace env iteration (count + 1) := by
  unfold roundsWritten
  rw [List.range'_succ, List.flatMap_cons, fix_eq, Workspace.writeAll, Workspace.writeAll,
    Workspace.writeAll, List.foldl_append]

/-- Every call of the loop is that of a round, on what the rounds before have written. -/
theorem exists_round {rounds iteration : Nat} (present : workspace.existing paths ≠ [])
    {call : VerifyCall} (member : call ∈ loopCalls env paths rounds iteration workspace) :
    ∃ count ≤ askedRounds env rounds iteration,
      call ∈ (roundsWritten workspace env iteration count).verifyCalls
        (env.verdicts (iteration + count)) paths := by
  induction rounds generalizing iteration workspace with
  | zero => cases member
  | succ rounds ih =>
      unfold loopCalls at member
      unfold askedRounds
      rw [verifyDafny_fst _ present] at member
      rcases List.mem_append.mp member with here | later
      · exact ⟨0, Nat.zero_le _, here⟩
      · cases failed : (env.verdicts iteration).fails with
        | false =>
            rw [failed, Bool.not_false, if_pos rfl] at later
            cases later
        | true =>
            rw [failed, Bool.not_true, if_neg Bool.false_ne_true, fix_eq] at later
            obtain ⟨count, bound, inRound⟩ := ih (existing_writeAll _ present) later
            rw [← fix_eq, roundsWritten_succ] at inRound
            refine ⟨count + 1, ?_, ?_⟩
            · rw [if_pos rfl]
              exact Nat.succ_le_succ bound
            · rw [Nat.add_right_comm] at inRound
              exact inRound

/-- When a round is accepted, its call is the last one. -/
theorem getLast?_loopCalls {rounds iteration : Nat} (present : workspace.existing paths ≠ [])
    (accepted : askedRounds env rounds iteration < rounds) :
    let asked := askedRounds env rounds iteration
    let left := roundsWritten workspace env iteration asked
    (loopCalls env paths rounds iteration workspace).getLast? =
      some ⟨left.withContents (left.existing paths), env.verdicts (iteration + asked)⟩ := by
  induction rounds generalizing iteration workspace with
  | zero => cases accepted
  | succ rounds ih =>
      dsimp only at ih ⊢
      unfold loopCalls
      unfold askedRounds at accepted ⊢
      rw [verifyDafny_fst _ present]
      cases failed : (env.verdicts iteration).fails with
      | false =>
          rw [Bool.not_false, if_pos rfl, if_neg Bool.false_ne_true, List.append_nil,
            Workspace.verifyCalls, if_neg (fun empty => present (List.isEmpty_iff.mp empty))]
          rfl
      | true =>
          rw [failed, if_pos rfl] at accepted
          have later := ih (existing_writeAll (roundBlocks (env.responses (iteration + 1))) present)
            (Nat.lt_of_succ_lt_succ accepted)
          rw [← fix_eq, roundsWritten_succ] at later
          rw [Bool.not_true, if_neg Bool.false_ne_true, if_pos rfl, List.getLast?_append, later,
            Nat.add_right_comm]
          rfl

/-- The loop passes exactly when a round is accepted. -/
theorem ok_fixLoop (rounds iteration : Nat) (artifacts : List String) (output : String)
    (present : workspace.existing paths ≠ []) :
    (fixLoop env paths rounds iteration workspace artifacts output).ok =
      decide (askedRounds env rounds iteration < rounds) := by
  induction rounds generalizing iteration workspace artifacts output with
  | zero => rfl
  | succ rounds ih =>
      rw [fixLoop_succ _ _ _ _ present, askedRounds]
      cases (env.verdicts iteration).fails with
      | false => rfl
      | true =>
          rw [if_pos rfl, if_pos rfl, ih _ _ _ (existing_writeAll _ present), decide_eq_decide,
            Nat.succ_lt_succ_iff]

/-- The loop adds the paths of every fix to the artifacts. -/
theorem artifacts_fixLoop (rounds iteration : Nat) (artifacts : List String) (output : String)
    (present : workspace.existing paths ≠ []) :
    (fixLoop env paths rounds iteration workspace artifacts output).artifacts =
      artifacts ++ (List.range' (iteration + 1) (askedRounds env rounds iteration)).flatMap
        fun response => (parseFileBlocks (env.responses response)).keys := by
  induction rounds generalizing iteration workspace artifacts output with
  | zero => exact (List.append_nil artifacts).symm
  | succ rounds ih =>
      rw [fixLoop_succ _ _ _ _ present, askedRounds]
      cases (env.verdicts iteration).fails with
      | false => exact (List.append_nil artifacts).symm
      | true =>
          rw [if_pos rfl, if_pos rfl, ih _ _ _ (existing_writeAll _ present), List.range'_succ,
            List.flatMap_cons, List.append_assoc]

/-! ## The whole execution -/

theorem generateImplementation_of_attempts (attempts : Attempts before env) :
    generateImplementation sha256 codec env before =
      concluded (fixLoop env (verified before env) maxLspIterations 0
        (stored sha256 codec before env) (parseFileBlocks (env.responses 0)).keys "")
        (parseFileBlocks (env.responses 0)).entries.length := by
  unfold generateImplementation parseBlocks
  dsimp only
  rw [if_neg (Bool.eq_false_iff.mp attempts.1), if_neg (Bool.eq_false_iff.mp attempts.2)]
  rfl

theorem verifyCalls_of_attempts (attempts : Attempts before env) :
    verifyCalls sha256 codec env before =
      loopCalls env (verified before env) maxLspIterations 0 (stored sha256 codec before env) := by
  unfold verifyCalls
  rw [if_neg (Bool.eq_false_iff.mp attempts.1), if_neg (Bool.eq_false_iff.mp attempts.2)]

theorem success_concluded (fixed : Fixed Text) (generated : Nat) :
    (concluded fixed generated).2.success = fixed.ok ∧
      (concluded fixed generated).2.artifacts = fixed.artifacts := by
  unfold concluded
  split
  · rename_i passed
    exact ⟨passed.symm, rfl⟩
  · rename_i failed
    exact ⟨(Bool.eq_false_iff.mpr failed).symm, rfl⟩

/-- An execution that makes no attempt fails. -/
theorem fails_of_not_attempts (idle : ¬ Attempts before env) :
    (generateImplementation sha256 codec env before).2.success = false := by
  unfold generateImplementation parseBlocks
  dsimp only
  split
  · rfl
  · rename_i specs
    split
    · rfl
    · rename_i blocks
      exact absurd ⟨Bool.eq_false_iff.mpr specs, Bool.eq_false_iff.mpr blocks⟩ idle

/-- Every file of the first response is there once it is stored. -/
theorem isFile_stored {path : String} (member : path ∈ (parseFileBlocks (env.responses 0)).keys) :
    (stored sha256 codec before env).isFile path = true := by
  rw [Workspace.isFile, files_stored, Option.isSome_or, Option.isSome_map,
    Dict.isSome_get?.mpr member]
  rfl

/-- A Dafny file of the first response is listed, and there is something to verify. -/
theorem anyVerified_of_mem {path : String}
    (member : path ∈ (parseFileBlocks (env.responses 0)).keys)
    (dafny : endsWith path ".dfy" = true) :
    path ∈ verified before env ∧ anyVerified before env = true := by
  have listed : path ∈ verified before env :=
    List.mem_append_left _ (List.mem_filter.mpr ⟨member, dafny⟩)
  refine ⟨listed, List.any_eq_true.mpr ⟨path, listed, ?_⟩⟩
  rw [Dict.isSome_get?.mpr member, dafny]
  rfl

section Attempted

variable (sha256 codec) (attempts : Attempts before env)

include attempts

/-- With nothing to verify, an execution succeeds with the files of the first response. -/
theorem artifacts_of_nothing (nothing : anyVerified before env = false) :
    (generateImplementation sha256 codec env before).2.artifacts =
      (parseFileBlocks (env.responses 0)).keys := by
  have absent : (stored sha256 codec before env).existing (verified before env) = [] :=
    existing_stored_eq_nil_iff.mpr nothing
  rw [generateImplementation_of_attempts attempts, (success_concluded _ _).2]
  unfold fixLoop verifyDafny maxLspIterations
  dsimp only
  rw [absent]
  rfl

/-- With something to verify, an execution succeeds when a round is accepted. -/
theorem success_of_something (something : anyVerified before env = true) :
    (generateImplementation sha256 codec env before).2.success =
        decide (fixRounds before env < maxLspIterations) ∧
      (generateImplementation sha256 codec env before).2.artifacts =
        (parseFileBlocks (env.responses 0)).keys ++ (List.range' 1 (fixRounds before env)).flatMap
          fun response => (parseFileBlocks (env.responses response)).keys := by
  have present : (stored sha256 codec before env).existing (verified before env) ≠ [] := by
    rw [ne_eq, existing_stored_eq_nil_iff, something]
    exact Bool.noConfusion
  obtain ⟨success, artifacts⟩ := success_concluded
    (fixLoop env (verified before env) maxLspIterations 0 (stored sha256 codec before env)
      (parseFileBlocks (env.responses 0)).keys "")
      (parseFileBlocks (env.responses 0)).entries.length
  rw [generateImplementation_of_attempts attempts, success, artifacts, ok_fixLoop _ _ _ _ present,
    artifacts_fixLoop _ _ _ _ present, fixRounds, something, if_pos rfl]
  exact ⟨rfl, rfl⟩

/-- The last call of an execution that succeeds has the listed files as they are left. -/
theorem getLast?_verifyCalls (something : anyVerified before env = true)
    (accepted : fixRounds before env < maxLspIterations) :
    let after := (generateImplementation sha256 codec env before).1
    (verifyCalls sha256 codec env before).getLast? =
      some ⟨after.withContents (after.existing (verified before env)),
        env.verdicts (fixRounds before env)⟩ := by
  have present : (stored sha256 codec before env).existing (verified before env) ≠ [] := by
    rw [ne_eq, existing_stored_eq_nil_iff, something]
    exact Bool.noConfusion
  have rounds : fixRounds before env = askedRounds env maxLspIterations 0 := by
    rw [fixRounds, something, if_pos rfl]
  have left : (generateImplementation sha256 codec env before).1 =
      roundsWritten (stored sha256 codec before env) env 0 (fixRounds before env) := by
    rw [workspace_generateImplementation attempts]
    rfl
  rw [rounds] at accepted
  dsimp only
  rw [verifyCalls_of_attempts attempts, getLast?_loopCalls present accepted, left, rounds,
    Nat.zero_add]

/-- Every file that an execution wrote is there when it ends. -/
theorem isFile_after {path : String}
    (wrote : path ∈ (parseFileBlocks (env.responses 0)).keys ∨
      ∃ response ∈ List.range' 1 (fixRounds before env),
        path ∈ (parseFileBlocks (env.responses response)).keys) :
    (generateImplementation sha256 codec env before).1.isFile path = true := by
  rw [workspace_generateImplementation attempts, Workspace.isFile, Workspace.files_writeAll,
    Option.isSome_or, Option.isSome_map, Bool.or_eq_true, Dict.isSome_get?_ofEntries]
  rcases wrote with first | ⟨response, asked, fixed⟩
  · exact .inr (isFile_stored first)
  · obtain ⟨block, among, rfl⟩ := List.mem_map.mp fixed
    refine .inl (List.mem_map_of_mem (List.mem_flatMap.mpr ⟨response, asked, ?_⟩))
    exact List.mem_append_right _ among

end Attempted

/-! ## What success means -/

/-- A fix that is overlooked is not among the files of the last call. -/
theorem not_verifiedLast_of_overlooked (fix : FixOverlooked env before) :
    ¬ VerifiedLast sha256 codec env before := by
  intro verifies
  obtain ⟨response, asked, path, fixed, dafny, unlisted⟩ := fix.overlooked
  have something : anyVerified before env = true := by
    by_contra nothing
    rw [fixRounds, if_neg nothing] at asked
    cases asked
  obtain ⟨success, artifacts⟩ :=
    success_of_something sha256 codec fix.attempts something
  rw [decide_eq_true fix.accepted] at success
  have among : path ∈ (generateImplementation sha256 codec env before).2.artifacts := by
    rw [artifacts]
    exact List.mem_append_right _ (List.mem_flatMap.mpr ⟨response, asked, fixed⟩)
  obtain ⟨call, last, _, data, _, given⟩ := verifies success path among dafny
  rw [getLast?_verifyCalls sha256 codec fix.attempts something fix.accepted] at last
  obtain rfl := Option.some.inj last
  obtain ⟨existing, _⟩ := Workspace.mem_withContents.mp given
  exact unlisted (Workspace.mem_existing.mp existing).1

/-- When no fix is overlooked, the last call of an execution that succeeds has all it wrote. -/
theorem verifiedLast_of_not_overlooked (installed : ∀ call, env.verdicts call ≠ .notFound)
    (listed : ¬ FixOverlooked env before) : VerifiedLast sha256 codec env before := by
  unfold VerifiedLast
  dsimp only
  intro succeeds path among dafny
  have attempts : Attempts before env := by
    by_contra idle
    rw [fails_of_not_attempts idle] at succeeds
    cases succeeds
  cases something : anyVerified before env with
  | false =>
      rw [artifacts_of_nothing sha256 codec attempts something] at among
      rw [(anyVerified_of_mem among dafny).2] at something
      cases something
  | true =>
      obtain ⟨success, artifacts⟩ := success_of_something sha256 codec attempts something
      have accepted : fixRounds before env < maxLspIterations :=
        of_decide_eq_true (success.symm.trans succeeds)
      rw [artifacts, List.mem_append, List.mem_flatMap] at among
      have inList : path ∈ verified before env := by
        rcases among with first | ⟨response, asked, fixed⟩
        · exact (anyVerified_of_mem first dafny).1
        · by_contra unlisted
          exact listed ⟨attempts, accepted, response, asked, path, fixed, dafny, unlisted⟩
      have file := isFile_after sha256 codec attempts among
      obtain ⟨data, content⟩ := Option.isSome_iff_exists.mp file
      have last := getLast?_verifyCalls sha256 codec attempts something accepted
      refine ⟨_, last, ?_, data, content, ?_⟩
      · have rounds : fixRounds before env = askedRounds env maxLspIterations 0 := by
          rw [fixRounds, something, if_pos rfl]
        have passes := fails_askedRounds env (rounds ▸ accepted)
        rw [Nat.zero_add, ← rounds] at passes
        rw [Verdict.passes_eq (installed _), passes]
        rfl
      · exact Workspace.mem_withContents.mpr
          ⟨Workspace.mem_existing.mpr ⟨inList, file, dafny⟩, content⟩

/--
With Dafny installed, the success of an execution means that every Dafny file
that it wrote was in the last call as it is left, and the call passed, exactly
when no round is accepted behind a fix that is not on the list.
-/
theorem verifiedLast_iff (installed : ∀ call, env.verdicts call ≠ .notFound) :
    VerifiedLast sha256 codec env before ↔ ¬ FixOverlooked env before :=
  ⟨fun verifies overlooked => not_verifiedLast_of_overlooked overlooked verifies,
    verifiedLast_of_not_overlooked installed⟩

/-! ## A fix that adds a file -/

theorem fixedOnce_verifiedLast : VerifiedLast digestOf .trees fixedOnce drafted := by
  refine (verifiedLast_iff ?_).mpr fun overlooks => ?_
  · rintro (_ | _) absent
    · cases absent
    · cases absent
  · obtain ⟨parsed, fixes⟩ := parseFileBlocks_fixedOnce
    obtain ⟨response, asked, path, fixed, _, unlisted⟩ := overlooks.overlooked
    rw [fixRounds_fixedOnce] at asked
    obtain rfl := List.mem_singleton.mp asked
    rw [fixes] at fixed
    obtain rfl := List.mem_singleton.mp fixed
    rw [verified, parsed] at unlisted
    exact unlisted List.mem_cons_self

/-- The first fix adds a file and the second one corrects that of the first response. -/
def fixAdds : Environment where
  responses
    | 0 => "<file path=\"specs/a.dfy\">\nx\n</file>"
    | 1 => "<file path=\"specs/b.dfy\">\ny\n</file>"
    | _ => "<file path=\"specs/a.dfy\">\ny\n</file>"
  verdicts
    | 0 => .exited 4 "" ""
    | 1 => .exited 4 "" ""
    | _ => .exited 0 "" ""
  clock := fun _ => midnight

/-- A Dafny that finds an error in the content of the first response. -/
def rejectsContent (files : List (String × ByteArray)) : Verdict :=
  if ∃ file ∈ files, file.1 = "specs/a.dfy" ∧ file.2.data.toList = [120] then .exited 4 "" ""
  else .exited 0 "" ""

theorem onSets_rejectsContent : SpecAgent.OnSets rejectsContent := by
  intro files other inOther inFiles
  have same : (∃ file ∈ files, file.1 = "specs/a.dfy" ∧ file.2.data.toList = [120]) ↔
      ∃ file ∈ other, file.1 = "specs/a.dfy" ∧ file.2.data.toList = [120] :=
    ⟨fun ⟨file, member, wrong⟩ => ⟨file, inOther member, wrong⟩,
      fun ⟨file, member, wrong⟩ => ⟨file, inFiles member, wrong⟩⟩
  unfold rejectsContent
  simp only [same]

theorem fileBlocks_fixAdds :
    fileBlocks (fixAdds.responses 0) = [("specs/a.dfy", "x")] ∧
      fileBlocks (fixAdds.responses 1) = [("specs/b.dfy", "y")] ∧
        fileBlocks (fixAdds.responses 2) = [("specs/a.dfy", "y")] := by
  have first : FileBlocks.matchHere (fixAdds.responses 0).toList =
      some (("specs/a.dfy".toList, "x".toList), []) := rfl
  have second : FileBlocks.matchHere (fixAdds.responses 1).toList =
      some (("specs/b.dfy".toList, "y".toList), []) := rfl
  have third : FileBlocks.matchHere (fixAdds.responses 2).toList =
      some (("specs/a.dfy".toList, "y".toList), []) := rfl
  exact ⟨fileBlocks_of_matchHere first, fileBlocks_of_matchHere second,
    fileBlocks_of_matchHere third⟩

theorem parseFileBlocks_fixAdds :
    parseFileBlocks (fixAdds.responses 0) = Dict.ofEntries [("specs/a.dfy", "x")] ∧
      parseFileBlocks (fixAdds.responses 1) = Dict.ofEntries [("specs/b.dfy", "y")] ∧
        parseFileBlocks (fixAdds.responses 2) = Dict.ofEntries [("specs/a.dfy", "y")] := by
  obtain ⟨first, second, third⟩ := fileBlocks_fixAdds
  exact ⟨congrArg Dict.ofEntries first, congrArg Dict.ofEntries second,
    congrArg Dict.ofEntries third⟩

theorem verified_fixAdds : verified drafted fixAdds = ["specs/a.dfy", "specs/s.dfy"] := by
  rw [verified, parseFileBlocks_fixAdds.1]
  rfl

theorem anyVerified_fixAdds : anyVerified drafted fixAdds = true := by
  rw [anyVerified, verified_fixAdds, parseFileBlocks_fixAdds.1]
  rfl

theorem fixRounds_fixAdds : fixRounds drafted fixAdds = 2 := by
  rw [fixRounds, anyVerified_fixAdds]
  rfl

theorem attempts_fixAdds : Attempts drafted fixAdds := by
  refine ⟨rfl, ?_⟩
  rw [parseFileBlocks_fixAdds.1]
  rfl

theorem overlooked_fixAdds : FixOverlooked fixAdds drafted where
  attempts := attempts_fixAdds
  accepted := by
    rw [fixRounds_fixAdds]
    decide
  overlooked := by
    rw [fixRounds_fixAdds, verified_fixAdds]
    refine ⟨1, by decide, "specs/b.dfy", ?_, rfl, by decide⟩
    rw [parseFileBlocks_fixAdds.2.1]
    exact List.mem_singleton_self _

/-- The file of the first response has its content until the second fix. -/
theorem files_fixAdds {count : Nat} (bound : count ≤ 2) :
    (roundsWritten (stored digestOf .trees drafted fixAdds) fixAdds 0
        count).session.disk.files "specs/a.dfy" =
      some (if count < 2 then "x".toUTF8 else "y".toUTF8) := by
  obtain ⟨first, second, third⟩ := parseFileBlocks_fixAdds
  obtain ⟨_, secondBlocks, thirdBlocks⟩ := fileBlocks_fixAdds
  rw [roundsWritten, Workspace.files_writeAll, files_stored, first]
  match count, bound with
  | 0, _ => rfl
  | 1, _ =>
      change ((Dict.ofEntries (roundBlocks (fixAdds.responses 1) ++ [])).get? _ |>.map _).or _ = _
      rw [roundBlocks, second, secondBlocks]
      rfl
  | 2, _ =>
      change ((Dict.ofEntries (roundBlocks (fixAdds.responses 1) ++
        (roundBlocks (fixAdds.responses 2) ++ []))).get? _ |>.map _).or _ = _
      rw [roundBlocks, roundBlocks, second, third, secondBlocks, thirdBlocks]
      rfl

/-- The calls have the verdicts of that Dafny. -/
theorem verdict_eq_rejectsContent {call : VerifyCall}
    (member : call ∈ verifyCalls digestOf .trees fixAdds drafted) :
    call.verdict = rejectsContent call.files := by
  have present : (stored digestOf .trees drafted fixAdds).existing (verified drafted fixAdds) ≠
      [] := by
    rw [ne_eq, existing_stored_eq_nil_iff, anyVerified_fixAdds]
    exact Bool.noConfusion
  rw [verifyCalls_of_attempts attempts_fixAdds] at member
  obtain ⟨count, bound, inRound⟩ := exists_round present member
  replace bound : count ≤ 2 := bound
  obtain ⟨verdict, files⟩ := Workspace.verdict_of_mem inRound
  have content := files_fixAdds bound
  rw [verdict, files, Nat.zero_add, rejectsContent]
  by_cases early : count < 2
  · rw [if_pos early] at content
    have there : (roundsWritten (stored digestOf .trees drafted fixAdds) fixAdds 0
        count).isFile "specs/a.dfy" = true := Option.isSome_iff_exists.mpr ⟨_, content⟩
    have listed : "specs/a.dfy" ∈ verified drafted fixAdds := by
      rw [verified_fixAdds]
      exact List.mem_cons_self
    rw [if_pos ⟨("specs/a.dfy", "x".toUTF8), Workspace.mem_withContents.mpr
      ⟨Workspace.mem_existing.mpr ⟨listed, there, rfl⟩, content⟩, rfl, rfl⟩]
    match count, early with
    | 0, _ => rfl
    | 1, _ => rfl
  · rw [if_neg early] at content
    rw [if_neg]
    · obtain rfl : count = 2 := Nat.le_antisymm bound (Nat.not_lt.mp early)
      rfl
    · rintro ⟨⟨path, data⟩, given, rfl, wrong⟩
      obtain rfl := Option.some.inj ((Workspace.mem_withContents.mp given).2.symm.trans content)
      exact absurd wrong (by decide)

theorem fixAdds_not_verifiedLast :
    ¬ ∀ (dafny : List (String × ByteArray) → Verdict) (env : Environment)
        (before : Workspace Json),
      SpecAgent.OnSets dafny → (∀ files, dafny files ≠ .notFound) →
      (∀ call ∈ verifyCalls digestOf .trees env before, call.verdict = dafny call.files) →
      VerifiedLast digestOf .trees env before := by
  intro verifies
  refine not_verifiedLast_of_overlooked overlooked_fixAdds
    (verifies rejectsContent fixAdds drafted onSets_rejectsContent ?_ ?_)
  · intro files
    unfold rejectsContent
    split
    · exact nofun
    · exact nofun
  · exact fun call member => verdict_eq_rejectsContent member

end SchedExt.Agents.ImplAgent
