import SchedExt.Agents.ArtifactStore
import SchedExt.Agents.FileBlocks

/-!
# The workspace of an agent

Agents write files through the artifact store or directly, and both are
recorded.  A workspace is intact when every digest of the manifest is that of
the file on the disk.
-/

namespace SchedExt.Agents

open Foundations

/-- A session, and the paths written since an execution began. -/
structure Workspace (Text : Type) where
  session : Session Text
  written : List String

/-- `path.endswith(suffix)` -/
def endsWith (path suffix : String) : Bool := suffix.toList.isSuffixOf path.toList

/-- The outcome of one subprocess that runs `dafny verify`. -/
inductive Verdict where
  | exited (returncode : Int) (stdout stderr : String)
  | notFound
  | timedOut

/-- A verdict after which the agent asks for a fix. -/
def Verdict.fails : Verdict → Bool
  | .exited returncode _ _ => returncode ≠ 0
  | .notFound => false
  | .timedOut => true

/-- What an execution meets: the responses, the verdicts and the times of its calls, in order. -/
structure Environment where
  responses : Nat → String
  verdicts : Nat → Verdict
  clock : Nat → Timestamp

section Operations

variable {Text : Type} (sha256 : ByteArray → String) (codec : JsonCodec Text)

namespace Workspace

/-- `Path(path).exists()` -/
def isFile (self : Workspace Text) (path : String) : Bool :=
  (self.session.disk.files path).isSome

/-- The existing Dafny files among some paths. -/
def existing (self : Workspace Text) (paths : List String) : List String :=
  paths.filter fun path => self.isFile path && endsWith path ".dfy"

/-- `list_by_kind` -/
def listByKind (self : Workspace Text) (kind : ArtifactKind) : List ArtifactMetadata :=
  self.session.store.manifest.values.filter fun m => m.kind = kind

/-- `self.store.store` -/
def store (self : Workspace Text) (now : Timestamp) (call : StoreCall) : Workspace Text where
  session := (self.session.stored sha256 codec now call).1
  written := self.written ++ [call.path]

/--
`Path(path).write_text(content)`, where it does not fail: no path written is a
directory, has a NUL, or goes through a file.
-/
def write (self : Workspace Text) (block : String × String) : Workspace Text where
  session :=
    { self.session with
      disk :=
        { self.session.disk with
          files := Function.update self.session.disk.files block.1 (some block.2.toUTF8) } }
  written := self.written ++ [block.1]

/-- Blocks that are written one after the other. -/
def writeAll (self : Workspace Text) (blocks : List (String × String)) : Workspace Text :=
  blocks.foldl write self

/-- Blocks that are stored one after the other, each in a call of its own. -/
def storeAll (call : String → String → StoreCall) (clock : Nat → Timestamp) :
    Nat → List (String × String) → Workspace Text → Workspace Text
  | _, [], self => self
  | count, block :: rest, self =>
      storeAll call clock (count + 1) rest
        (self.store sha256 codec (clock count) (call block.1 block.2))

/-- The digest that the manifest has for a path. -/
def digest (self : Workspace Text) (path : String) : Option String :=
  (self.session.store.manifest.get? path).map ArtifactMetadata.sha256

/-- Every digest of the manifest is that of the file. -/
def Intact (self : Workspace Text) : Prop :=
  ∀ path digest, self.digest path = some digest →
    ∃ data, self.session.disk.files path = some data ∧ digest = sha256 data

/-- Every path written is in the manifest. -/
def Registered (self : Workspace Text) : Prop :=
  ∀ path ∈ self.written, (self.session.store.manifest.get? path).isSome

/-- Intact, with every path written in the manifest. -/
structure Kept (workspace : Workspace Text) : Prop where
  intact : workspace.Intact sha256
  registered : workspace.Registered

variable {sha256 codec} {self : Workspace Text} {blocks : List (String × String)} {path : String}

theorem isSome_digest :
    (self.digest path).isSome ↔ (self.session.store.manifest.get? path).isSome := by
  rw [digest, Option.isSome_map]

/-! ## One call -/

theorem digest_store (now : Timestamp) (call : StoreCall) (path : String) :
    (self.store sha256 codec now call).digest path =
      if call.path = path then some (sha256 call.content.encoded) else self.digest path := by
  rw [digest, store]
  split
  · rename_i same
    rw [← same, Session.get?_stored_self]
    rfl
  · rename_i apart
    rw [Session.get?_stored_of_ne (Ne.symm apart), digest]

theorem files_update (files : String → Option ByteArray) (path other : String) (data : ByteArray) :
    Function.update files path (some data) other =
      if path = other then some data else files other :=
  (Function.update_apply files path (some data) other).trans (if_congr eq_comm rfl rfl)

theorem files_store (now : Timestamp) (call : StoreCall) (path : String) :
    (self.store sha256 codec now call).session.disk.files path =
      if call.path = path then some call.content.encoded else self.session.disk.files path :=
  files_update _ _ _ _

theorem files_write (block : String × String) (path : String) :
    (self.write block).session.disk.files path =
      if block.1 = path then some block.2.toUTF8 else self.session.disk.files path :=
  files_update _ _ _ _

/-! ## Direct writes -/

theorem store_writeAll : (self.writeAll blocks).session.store = self.session.store := by
  induction blocks generalizing self with
  | nil => rfl
  | cons block rest ih => exact ih

theorem digest_writeAll : (self.writeAll blocks).digest path = self.digest path := by
  rw [digest, digest, store_writeAll]

theorem written_writeAll :
    (self.writeAll blocks).written = self.written ++ blocks.map Prod.fst := by
  induction blocks generalizing self with
  | nil => exact (List.append_nil _).symm
  | cons block rest ih =>
      rw [writeAll, List.foldl_cons, ← writeAll, ih, List.map_cons]
      exact List.append_assoc _ [block.1] _

/-- The last block of a path is what its file holds. -/
theorem files_writeAll :
    (self.writeAll blocks).session.disk.files path =
      (((Dict.ofEntries blocks).get? path).map String.toUTF8).or
        (self.session.disk.files path) := by
  induction blocks generalizing self with
  | nil => rfl
  | cons block rest ih =>
      rw [writeAll, List.foldl_cons, ← writeAll, ih, files_write, Dict.or_get?_ofEntries_cons]

/-! ## Stores -/

section Stores

variable {call : String → String → StoreCall} {clock : Nat → Timestamp} {count : Nat}
variable (paths : ∀ path content, (call path content).path = path)
variable (contents : ∀ path content, (call path content).content = .str content)

include paths

theorem written_storeAll :
    (storeAll sha256 codec call clock count blocks self).written =
      self.written ++ blocks.map Prod.fst := by
  induction blocks generalizing self count with
  | nil => exact (List.append_nil _).symm
  | cons block rest ih =>
      rw [storeAll, ih, List.map_cons, store, paths]
      exact List.append_assoc _ [block.1] _

include contents

/-- The last block of a path is what the manifest has the digest of. -/
theorem digest_storeAll :
    (storeAll sha256 codec call clock count blocks self).digest path =
      (((Dict.ofEntries blocks).get? path).map fun content => sha256 content.toUTF8).or
        (self.digest path) := by
  induction blocks generalizing self count with
  | nil => rfl
  | cons block rest ih =>
      rw [storeAll, ih, digest_store, paths, contents, Dict.or_get?_ofEntries_cons]
      rfl

/-- The last block of a path is what its file holds. -/
theorem files_storeAll :
    (storeAll sha256 codec call clock count blocks self).session.disk.files path =
      (((Dict.ofEntries blocks).get? path).map String.toUTF8).or
        (self.session.disk.files path) := by
  induction blocks generalizing self count with
  | nil => rfl
  | cons block rest ih =>
      rw [storeAll, ih, files_store, paths, contents, Dict.or_get?_ofEntries_cons]
      rfl

/-- Stores keep a workspace intact. -/
theorem Intact.storeAll (intact : self.Intact sha256) :
    (storeAll sha256 codec call clock count blocks self).Intact sha256 := by
  intro path digest known
  rw [digest_storeAll paths contents] at known
  rw [files_storeAll paths contents]
  cases stored : (Dict.ofEntries blocks).get? path with
  | some content =>
      rw [stored] at known
      exact ⟨content.toUTF8, rfl, (Option.some.inj known).symm⟩
  | none =>
      rw [stored] at known
      exact intact path digest known

/-- Stores register what they write. -/
theorem Registered.storeAll (registered : self.Registered) :
    (storeAll sha256 codec call clock count blocks self).Registered := by
  intro path member
  rw [written_storeAll paths] at member
  rw [← isSome_digest, digest_storeAll paths contents, Option.isSome_or, Bool.or_eq_true,
    Option.isSome_map, Dict.isSome_get?_ofEntries]
  rcases List.mem_append.mp member with before | here
  · exact .inr (isSome_digest.mpr (registered path before))
  · exact .inl here

theorem Kept.storeAll (kept : self.Kept sha256) :
    (storeAll sha256 codec call clock count blocks self).Kept sha256 :=
  ⟨kept.intact.storeAll paths contents, kept.registered.storeAll paths contents⟩

end Stores

end Workspace

end Operations

end SchedExt.Agents
