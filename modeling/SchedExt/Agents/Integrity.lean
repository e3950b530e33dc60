import SchedExt.Agents.ImplAgent
import SchedExt.Foundations.Run

/-!
# Integrity of the manifest

Every write of the specification agent is a store.  The implementation agent
writes its fixes directly, so its manifest stays true only when the last fix of
every path has the digest that the path is registered with.
-/

namespace SchedExt.Agents

open Foundations Orchestrator

namespace ImplAgent

/-- The rounds that ask for a fix, of those that are left. -/
def askedRounds (env : Environment) : Nat → Nat → Nat
  | 0, _ => 0
  | rounds + 1, iteration =>
      if (env.verdicts iteration).fails then askedRounds env rounds (iteration + 1) + 1 else 0

section Inputs

variable {Text : Type} (sha256 : ByteArray → String) (before : Workspace Text) (env : Environment)

/-- There are specification files to implement, and the response has file blocks. -/
def Attempts : Prop :=
  ((specFiles before).filter before.isFile).isEmpty = false ∧
    (parseFileBlocks (env.responses 0)).entries.isEmpty = false

/-- The Dafny files that the agent verifies. -/
def verified : List String :=
  ((parseFileBlocks (env.responses 0)).keys.filter fun p => endsWith p ".dfy") ++ specFiles before

/-- Whether any of them is there once the response is stored. -/
def anyVerified : Bool :=
  (verified before env).any fun path =>
    (((parseFileBlocks (env.responses 0)).get? path).isSome || before.isFile path) &&
      endsWith path ".dfy"

/-- The number of responses that the agent takes fixes from. -/
def fixRounds : Nat :=
  if anyVerified before env then askedRounds env maxLspIterations 0 else 0

/-- The last fix of every path. -/
def fixes : Dict String String :=
  Dict.ofEntries ((List.range' 1 (fixRounds before env)).flatMap fun response =>
    fileBlocks (env.responses response))

/-- The digest that a path is registered with once the response is stored. -/
def registeredDigest (path : String) : Option String :=
  (((parseFileBlocks (env.responses 0)).get? path).map fun content =>
    sha256 content.toUTF8).or (before.digest path)

/-- Every path that is fixed is registered with the digest of its last fix. -/
def FixesRegistered : Prop :=
  ∀ path content, (fixes before env).get? path = some content →
    registeredDigest sha256 before env path = some (sha256 content.toUTF8)

end Inputs

variable {Text : Type} {sha256 : ByteArray → String} {codec : JsonCodec Text}
variable {workspace before : Workspace Text} {env : Environment} {paths : List String}

/-! ## The loop -/

/-- What one round writes. -/
def roundBlocks (response : String) : List (String × String) :=
  fileBlocks response ++ (parseFileBlocks response).entries

theorem fix_eq (response : String) :
    fix workspace response = workspace.writeAll (roundBlocks response) := by
  rw [fix, parseBlocks, roundBlocks, Workspace.writeAll, Workspace.writeAll, Workspace.writeAll,
    List.foldl_append]

theorem verifyDafny_fst (verdict : Verdict) (present : workspace.existing paths ≠ []) :
    (verifyDafny workspace verdict paths).1 = !verdict.fails := by
  cases verdict with
  | exited returncode stdout stderr => simp [verifyDafny, present, Verdict.fails]
  | notFound => simp [verifyDafny, present, Verdict.fails]
  | timedOut => simp [verifyDafny, present, Verdict.fails]

theorem existing_writeAll (blocks : List (String × String))
    (present : workspace.existing paths ≠ []) :
    (workspace.writeAll blocks).existing paths ≠ [] := by
  obtain ⟨path, member⟩ := List.exists_mem_of_ne_nil _ present
  obtain ⟨among, holds⟩ := List.mem_filter.mp member
  obtain ⟨file, suffix⟩ := Bool.and_eq_true_iff.mp holds
  refine List.ne_nil_of_mem (List.mem_filter.mpr ⟨among, Bool.and_eq_true_iff.mpr ⟨?_, suffix⟩⟩)
  rw [Workspace.isFile, Workspace.files_writeAll, Option.isSome_or, Bool.or_eq_true]
  exact .inr file

/-- While there is something to verify, a round ends the loop or takes a fix. -/
theorem fixLoop_succ (rounds iteration : Nat) (artifacts : List String) (output : String)
    (present : workspace.existing paths ≠ []) :
    fixLoop env paths (rounds + 1) iteration workspace artifacts output =
      if (env.verdicts iteration).fails then
        fixLoop env paths rounds (iteration + 1)
          (workspace.writeAll (roundBlocks (env.responses (iteration + 1))))
          (artifacts ++ (parseFileBlocks (env.responses (iteration + 1))).keys)
          (verifyDafny workspace (env.verdicts iteration) paths).2
      else
        ⟨workspace, artifacts, true, (verifyDafny workspace (env.verdicts iteration) paths).2⟩ := by
  rw [fixLoop]
  dsimp only
  rw [verifyDafny_fst _ present, fix_eq]
  cases (env.verdicts iteration).fails with
  | false => rfl
  | true => rfl

/-- While there is something to verify, the loop writes the rounds that it asks for. -/
theorem workspace_fixLoop (rounds iteration : Nat) (artifacts : List String) (output : String)
    (present : workspace.existing paths ≠ []) :
    (fixLoop env paths rounds iteration workspace artifacts output).workspace =
      workspace.writeAll ((List.range' (iteration + 1) (askedRounds env rounds iteration)).flatMap
        fun response => roundBlocks (env.responses response)) := by
  induction rounds generalizing iteration workspace artifacts output with
  | zero => rfl
  | succ rounds ih =>
      rw [fixLoop_succ _ _ _ _ present, askedRounds]
      cases (env.verdicts iteration).fails with
      | false => rfl
      | true =>
          rw [if_pos rfl, if_pos rfl, ih _ _ _ (existing_writeAll _ present), List.range'_succ,
            List.flatMap_cons]
          rw [Workspace.writeAll, Workspace.writeAll, Workspace.writeAll, List.foldl_append]

/-- With nothing to verify, the loop passes at once. -/
theorem workspace_fixLoop_of_nil (rounds iteration : Nat) (artifacts : List String)
    (output : String) (absent : workspace.existing paths = []) :
    (fixLoop env paths rounds iteration workspace artifacts output).workspace = workspace := by
  cases rounds with
  | zero => rfl
  | succ rounds => simp [fixLoop, verifyDafny, absent]

/-! ## The whole execution -/

/-- The workspace once the response is stored. -/
def stored (sha256 : ByteArray → String) (codec : JsonCodec Text) (before : Workspace Text)
    (env : Environment) : Workspace Text :=
  (before.writeAll (fileBlocks (env.responses 0))).storeAll sha256 codec
    (storeCall (specFiles before)) env.clock 0 (parseFileBlocks (env.responses 0)).entries

theorem get?_entries_parseFileBlocks (response path : String) :
    (Dict.ofEntries (parseFileBlocks response).entries).get? path =
      (parseFileBlocks response).get? path := by
  rw [Dict.ofEntries_entries]

theorem digest_stored (path : String) :
    (stored sha256 codec before env).digest path = registeredDigest sha256 before env path := by
  rw [stored, Workspace.digest_storeAll (fun _ _ => rfl) (fun _ _ => rfl),
    get?_entries_parseFileBlocks, Workspace.digest_writeAll, registeredDigest]

theorem files_stored (path : String) :
    (stored sha256 codec before env).session.disk.files path =
      (((parseFileBlocks (env.responses 0)).get? path).map String.toUTF8).or
        (before.session.disk.files path) := by
  rw [stored, Workspace.files_storeAll (fun _ _ => rfl) (fun _ _ => rfl),
    get?_entries_parseFileBlocks, Workspace.files_writeAll, ← parseFileBlocks, ← Option.or_assoc,
    Option.or_self]

theorem mem_written_stored {path : String} :
    path ∈ (stored sha256 codec before env).written ↔
      path ∈ before.written ∨ ((parseFileBlocks (env.responses 0)).get? path).isSome := by
  rw [stored, Workspace.written_storeAll (fun _ _ => rfl), Workspace.written_writeAll,
    List.mem_append, List.mem_append, ← Dict.isSome_get?_ofEntries,
    ← Dict.isSome_get?_ofEntries, get?_entries_parseFileBlocks, ← parseFileBlocks, or_assoc,
    or_self]

theorem existing_stored_eq_nil_iff :
    (stored sha256 codec before env).existing (verified before env) = [] ↔
      anyVerified before env = false := by
  rw [Workspace.existing, List.filter_eq_nil_iff, anyVerified, List.any_eq_false]
  refine forall₂_congr fun path _ => not_congr ?_
  rw [Workspace.isFile, files_stored, Option.isSome_or, Option.isSome_map, Workspace.isFile]

/-- What all rounds write. -/
def writtenBlocks (before : Workspace Text) (env : Environment) : List (String × String) :=
  (List.range' 1 (fixRounds before env)).flatMap fun response =>
    roundBlocks (env.responses response)

theorem get?_writtenBlocks (path : String) :
    (Dict.ofEntries (writtenBlocks before env)).get? path = (fixes before env).get? path := by
  rw [writtenBlocks, fixes]
  induction List.range' 1 (fixRounds before env) with
  | nil => rfl
  | cons response rest ih =>
      rw [List.flatMap_cons, List.flatMap_cons, Dict.get?_ofEntries_append,
        Dict.get?_ofEntries_append, ih, roundBlocks, Dict.get?_ofEntries_append,
        get?_entries_parseFileBlocks, ← parseFileBlocks, Option.or_self]

/-- An execution stores its first response, and writes its fixes over it. -/
theorem workspace_generateImplementation (attempts : Attempts before env) :
    (generateImplementation sha256 codec env before).1 =
      (stored sha256 codec before env).writeAll (writtenBlocks before env) := by
  obtain ⟨specs, blocks⟩ := attempts
  have loop : ∀ artifacts output,
      (fixLoop env (verified before env) maxLspIterations 0 (stored sha256 codec before env)
        artifacts output).workspace =
        (stored sha256 codec before env).writeAll (writtenBlocks before env) := by
    intro artifacts output
    cases any : anyVerified before env with
    | true =>
        have present : (stored sha256 codec before env).existing (verified before env) ≠ [] := by
          rw [ne_eq, existing_stored_eq_nil_iff, any]
          decide
        rw [workspace_fixLoop _ _ _ _ present, writtenBlocks, fixRounds, any]
        rfl
    | false =>
        rw [workspace_fixLoop_of_nil _ _ _ _ (existing_stored_eq_nil_iff.mpr any), writtenBlocks,
          fixRounds, any]
        rfl
  unfold generateImplementation
  simp only [specs, Bool.false_eq_true, if_false, parseBlocks, blocks, concluded_fst]
  exact loop _ _

theorem fileBlocks_eq_nil {response : String}
    (empty : (parseFileBlocks response).entries.isEmpty = true) : fileBlocks response = [] := by
  cases blocks : fileBlocks response with
  | nil => rfl
  | cons block rest =>
      have known : ((parseFileBlocks response).get? block.1).isSome := by
        rw [parseFileBlocks, Dict.isSome_get?_ofEntries, blocks]
        exact List.mem_cons_self
      rw [Dict.get?, List.isEmpty_iff.mp empty] at known
      exact nomatch known

/-- An execution without specification files or file blocks writes nothing. -/
theorem workspace_generateImplementation_of_not (idle : ¬ Attempts before env) :
    (generateImplementation sha256 codec env before).1 = before := by
  unfold generateImplementation
  simp only
  split
  · rfl
  · rename_i specs
    unfold parseBlocks
    simp only
    split
    · rename_i empty
      rw [fileBlocks_eq_nil empty]
      rfl
    · rename_i blocks
      exact absurd ⟨Bool.eq_false_iff.mpr specs, Bool.eq_false_iff.mpr blocks⟩ idle

/-- Where the manifest is kept, it has the digest of the last fix of every path. -/
theorem fixesRegistered_of_kept (attempts : Attempts before env)
    (kept : (generateImplementation sha256 codec env before).1.Kept sha256) :
    FixesRegistered sha256 before env := by
  rw [workspace_generateImplementation attempts] at kept
  intro path content fixed
  have member : path ∈ ((stored sha256 codec before env).writeAll
      (writtenBlocks before env)).written := by
    rw [Workspace.written_writeAll, List.mem_append, ← Dict.isSome_get?_ofEntries,
      get?_writtenBlocks, fixed]
    exact .inr rfl
  have known := Workspace.isSome_digest.mpr (kept.registered path member)
  obtain ⟨digest, digestEq⟩ := Option.isSome_iff_exists.mp known
  obtain ⟨data, file, same⟩ := kept.intact path digest digestEq
  rw [Workspace.files_writeAll, get?_writtenBlocks, fixed] at file
  rw [Workspace.digest_writeAll, digest_stored] at digestEq
  rw [digestEq, same, ← Option.some.inj file]

/-- A file is as its last fix, the response or the execution before left it. -/
theorem intact_of_fixesRegistered (intact : before.Intact sha256) (attempts : Attempts before env)
    (registered : FixesRegistered sha256 before env) :
    (generateImplementation sha256 codec env before).1.Intact sha256 := by
  rw [workspace_generateImplementation attempts]
  intro path digest known
  rw [Workspace.digest_writeAll, digest_stored] at known
  rw [Workspace.files_writeAll, get?_writtenBlocks]
  cases fixed : (fixes before env).get? path with
  | some content =>
      rw [registered path content fixed] at known
      exact ⟨content.toUTF8, rfl, (Option.some.inj known).symm⟩
  | none =>
      unfold registeredDigest at known
      rw [Option.map_none, Option.none_or, files_stored]
      cases first : (parseFileBlocks (env.responses 0)).get? path with
      | some content =>
          rw [first] at known
          exact ⟨content.toUTF8, rfl, (Option.some.inj known).symm⟩
      | none =>
          rw [first] at known
          exact intact path digest known

/-- A path is written with the response, which stores it, or with a fix. -/
theorem registered_of_fixesRegistered (nothing : before.written = [])
    (attempts : Attempts before env) (registered : FixesRegistered sha256 before env) :
    (generateImplementation sha256 codec env before).1.Registered := by
  rw [workspace_generateImplementation attempts]
  intro path member
  rw [← Workspace.isSome_digest, Workspace.digest_writeAll, digest_stored]
  rw [Workspace.written_writeAll, List.mem_append, mem_written_stored, nothing,
    ← Dict.isSome_get?_ofEntries, get?_writtenBlocks] at member
  rcases member with (never | first) | fixed
  · exact nomatch never
  · rw [registeredDigest, Option.isSome_or, Option.isSome_map, first]
    rfl
  · obtain ⟨content, fixedEq⟩ := Option.isSome_iff_exists.mp fixed
    rw [registered path content fixedEq]
    rfl

/-- Of an execution on an intact workspace, the fixes alone decide whether it is kept. -/
theorem kept_generateImplementation_iff (intact : before.Intact sha256)
    (nothing : before.written = []) (attempts : Attempts before env) :
    (generateImplementation sha256 codec env before).1.Kept sha256 ↔
      FixesRegistered sha256 before env := by
  constructor
  · exact fixesRegistered_of_kept attempts
  · intro registered
    exact ⟨intact_of_fixesRegistered intact attempts registered,
      registered_of_fixesRegistered nothing attempts registered⟩

/-- The call that stores the output of a verification. -/
def logCall (path content : String) : StoreCall where
  kind := .dafnyProofLog
  path := path
  content := .str content
  createdBy := "impl_agent"

theorem kept_verifyImplementation (kept : before.Kept sha256) (listing : Listing) :
    (verifyImplementation sha256 codec env listing before).1.Kept sha256 := by
  unfold verifyImplementation
  simp only
  split
  · exact kept
  · split
    · have logged : ((before.storeAll sha256 codec logCall env.clock 0
          [("artifacts/proofs/impl_verify.log",
            (verifyDafny before (env.verdicts 0)
              (listing.domain ++ listing.properties ++ listing.refinements)).2)]).Kept sha256) :=
        kept.storeAll (fun _ _ => rfl) fun _ _ => rfl
      exact logged
    · exact kept

end ImplAgent

/-! ## Runs of executions -/

/-- An execution of one of the two agents. -/
inductive AgentEvent where
  | spec (env : Environment) (pipeline : PipelineState)
  | impl (env : Environment) (listing : Listing) (pipeline : PipelineState)

variable {Text : Type} (sha256 : ByteArray → String) (codec : JsonCodec Text)

/-- One execution, which records its own writes. -/
def performExecution (before : Workspace Text) : AgentEvent → Workspace Text
  | .spec env pipeline =>
      (SpecAgent.run sha256 codec env pipeline { before with written := [] }).1
  | .impl env listing pipeline =>
      (ImplAgent.run sha256 codec env listing pipeline { before with written := [] }).1

inductive AgentStep : Workspace Text → AgentEvent → Workspace Text → Prop where
  | execute (before : Workspace Text) (event : AgentEvent) :
      AgentStep before event (performExecution sha256 codec before event)

/-- The fixes that an execution takes, if any, are registered. -/
def Meets (before : Workspace Text) : AgentEvent → Prop
  | .spec _ _ => True
  | .impl env _ pipeline =>
      pipeline.currentStage = .impl → ImplAgent.Attempts before env →
        ImplAgent.FixesRegistered sha256 before env

variable {sha256 codec}

theorem kept_performExecution_iff {before : Workspace Text} (intact : before.Intact sha256)
    (event : AgentEvent) :
    (performExecution sha256 codec before event).Kept sha256 ↔ Meets sha256 before event := by
  have begun : Workspace.Kept sha256 { before with written := [] } :=
    ⟨intact, fun _ member => nomatch member⟩
  cases event with
  | spec env pipeline =>
      exact ⟨fun _ => trivial, fun _ => SpecAgent.kept_run codec begun env pipeline⟩
  | impl env listing pipeline =>
      rw [performExecution, ImplAgent.run]
      split
      · rename_i stage
        by_cases attempts : ImplAgent.Attempts { before with written := [] } env
        · refine (ImplAgent.kept_generateImplementation_iff begun.intact rfl attempts).trans ?_
          exact ⟨fun registered _ _ => registered, fun meets => meets stage attempts⟩
        · rw [ImplAgent.workspace_generateImplementation_of_not attempts]
          exact ⟨fun _ _ here => absurd here attempts, fun _ => begun⟩
      · rename_i stage
        refine ⟨fun _ here => ?_, fun _ => ImplAgent.kept_verifyImplementation begun listing⟩
        exact nomatch stage.symm.trans here
      · rename_i other _
        exact ⟨fun _ here => absurd here other, fun _ => begun⟩

theorem intact_of_run {start state : Workspace Text}
    {history : List (Transition (Workspace Text) AgentEvent)}
    (run : Run (AgentStep sha256 codec) start history state) (intact : start.Intact sha256)
    (kept : ∀ taken ∈ history, taken.target.Kept sha256) : state.Intact sha256 := by
  cases run with
  | refl => exact intact
  | tail earlier last =>
      exact (kept _ (List.mem_append_right _ (List.mem_singleton_self _))).intact

/--
In a run of executions that begins intact, the manifest stays intact and has
every path written after each of them exactly when every execution registers
the fixes that it takes.
-/
theorem kept_of_run_iff {start state : Workspace Text}
    {history : List (Transition (Workspace Text) AgentEvent)}
    (run : Run (AgentStep sha256 codec) start history state) (intact : start.Intact sha256) :
    (∀ taken ∈ history, taken.target.Kept sha256) ↔
      ∀ taken ∈ history, Meets sha256 taken.source taken.event := by
  induction run with
  | refl => exact ⟨fun _ _ never => (nomatch never), fun _ _ never => (nomatch never)⟩
  | tail earlier last ih =>
      obtain ⟨before, event⟩ := last
      rw [List.forall_mem_append, List.forall_mem_append, ih]
      refine and_congr_right fun met => ?_
      rw [List.forall_mem_singleton, List.forall_mem_singleton]
      exact kept_performExecution_iff (intact_of_run earlier intact (ih.mpr met)) _

/-! ## A fix that is not registered -/

/-- The digests of the contents that the executions below write. -/
def digestOf (data : ByteArray) : String :=
  if data.data.toList = [120] then
    "2d711642b726b04401627ca9fbac32f5c8530fb1903cc4db02258717921a4881"
  else if data.data.toList = [121] then
    "a1fce4363854ff888cff4b8e7875d600c2682390412a8cf79b37d0b11148b0fa"
  else emptyDigest data

/-- One specification file, which is empty, is stored. -/
def drafted : Workspace Json :=
  Workspace.storeAll digestOf .trees (SpecAgent.storeCall []) (fun _ => midnight) 0
    [("specs/s.dfy", "")] ⟨newSession fun _ => none, []⟩

def atImpl : PipelineState := { currentStage := .impl, startedAt := 0 }

/-- The first response and its fix fail, and the second fix sends the first response again. -/
def fixedBack : Environment where
  responses
    | 1 => "<file path=\"specs/a.dfy\">\ny\n</file>"
    | _ => "<file path=\"specs/a.dfy\">\nx\n</file>"
  verdicts
    | 0 => .exited 4 "" ""
    | 1 => .exited 4 "" ""
    | _ => .exited 0 "" ""
  clock := fun _ => midnight

/-- The first response fails, and its fix is verified. -/
def fixedOnce : Environment where
  responses
    | 0 => "<file path=\"specs/a.dfy\">\nx\n</file>"
    | _ => "<file path=\"specs/a.dfy\">\ny\n</file>"
  verdicts
    | 0 => .exited 1 "" ""
    | _ => .exited 0 "" ""
  clock := fun _ => midnight

theorem intact_drafted : drafted.Intact digestOf :=
  Workspace.Intact.storeAll (fun _ _ => rfl) (fun _ _ => rfl) fun _ _ known => nomatch known

theorem fileBlocks_fixedBack :
    fileBlocks (fixedBack.responses 0) = [("specs/a.dfy", "x")] ∧
      fileBlocks (fixedBack.responses 1) = [("specs/a.dfy", "y")] ∧
      fileBlocks (fixedBack.responses 2) = [("specs/a.dfy", "x")] := by
  have first : FileBlocks.matchHere (fixedBack.responses 0).toList =
      some (("specs/a.dfy".toList, "x".toList), []) := rfl
  have second : FileBlocks.matchHere (fixedBack.responses 1).toList =
      some (("specs/a.dfy".toList, "y".toList), []) := rfl
  exact ⟨fileBlocks_of_matchHere first, fileBlocks_of_matchHere second,
    fileBlocks_of_matchHere first⟩

theorem fixedBack_kept :
    (performExecution digestOf .trees drafted
      (.impl fixedBack ⟨[], [], []⟩ atImpl)).Kept digestOf := by
  have run : Run (AgentStep digestOf .trees) drafted _ _ :=
    .tail .refl (.execute drafted (.impl fixedBack ⟨[], [], []⟩ atImpl))
  refine (kept_of_run_iff run intact_drafted).mpr (fun taken member => ?_) _
    (List.mem_singleton_self _)
  obtain rfl := List.mem_singleton.mp member
  intro _ _ path content fixed
  obtain ⟨first, second, third⟩ := fileBlocks_fixedBack
  have parsed : parseFileBlocks (fixedBack.responses 0) =
      Dict.ofEntries [("specs/a.dfy", "x")] := congrArg Dict.ofEntries first
  have rounds : ImplAgent.fixRounds drafted fixedBack = 2 := by
    rw [ImplAgent.fixRounds, ImplAgent.anyVerified, ImplAgent.verified, parsed]
    rfl
  have fixes : ImplAgent.fixes drafted fixedBack = Dict.ofEntries [("specs/a.dfy", "x")] := by
    rw [ImplAgent.fixes, rounds]
    change Dict.ofEntries
      (fileBlocks (fixedBack.responses 1) ++ (fileBlocks (fixedBack.responses 2) ++ [])) = _
    rw [second, third]
    rfl
  rw [fixes] at fixed
  rw [ImplAgent.registeredDigest, parsed, fixed]
  rfl

theorem fileBlocks_fixedOnce :
    fileBlocks (fixedOnce.responses 0) = [("specs/a.dfy", "x")] ∧
      fileBlocks (fixedOnce.responses 1) = [("specs/a.dfy", "y")] := by
  have first : FileBlocks.matchHere (fixedOnce.responses 0).toList =
      some (("specs/a.dfy".toList, "x".toList), []) := rfl
  have second : FileBlocks.matchHere (fixedOnce.responses 1).toList =
      some (("specs/a.dfy".toList, "y".toList), []) := rfl
  exact ⟨fileBlocks_of_matchHere first, fileBlocks_of_matchHere second⟩

theorem parseFileBlocks_fixedOnce :
    parseFileBlocks (fixedOnce.responses 0) = Dict.ofEntries [("specs/a.dfy", "x")] ∧
      parseFileBlocks (fixedOnce.responses 1) = Dict.ofEntries [("specs/a.dfy", "y")] :=
  ⟨congrArg Dict.ofEntries fileBlocks_fixedOnce.1, congrArg Dict.ofEntries fileBlocks_fixedOnce.2⟩

theorem fixRounds_fixedOnce : ImplAgent.fixRounds drafted fixedOnce = 1 := by
  rw [ImplAgent.fixRounds, ImplAgent.anyVerified, ImplAgent.verified, parseFileBlocks_fixedOnce.1]
  rfl

theorem fixedOnce_not_kept :
    drafted.Intact digestOf ∧
      ¬ (performExecution digestOf .trees drafted
        (.impl fixedOnce ⟨[], [], []⟩ atImpl)).Kept digestOf := by
  refine ⟨intact_drafted, fun kept => ?_⟩
  obtain ⟨parsed, _⟩ := parseFileBlocks_fixedOnce
  have attempts : ImplAgent.Attempts drafted fixedOnce := by
    refine ⟨rfl, ?_⟩
    rw [parsed]
    rfl
  have registered := (kept_performExecution_iff intact_drafted _).mp kept rfl attempts
  have fixed : (ImplAgent.fixes drafted fixedOnce).get? "specs/a.dfy" = some "y" := by
    rw [ImplAgent.fixes, fixRounds_fixedOnce]
    change (Dict.ofEntries (fileBlocks (fixedOnce.responses 1) ++ [])).get? "specs/a.dfy" = _
    rw [fileBlocks_fixedOnce.2]
    rfl
  have digests := registered "specs/a.dfy" "y" fixed
  rw [ImplAgent.registeredDigest, parsed] at digests
  exact absurd digests (by decide)

end SchedExt.Agents
