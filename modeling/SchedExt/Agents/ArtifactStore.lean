import SchedExt.Foundations.Dict
import SchedExt.Foundations.Json
import SchedExt.Foundations.Run

/-!
# The artifact store

`store` writes a file and registers it in the manifest, which is written to the
disk as a JSON document after every call and read back when a store is opened.
-/

namespace SchedExt.Agents

open Foundations

inductive ArtifactKind where
  | dafnySpec
  | dafnyImpl
  | dafnyProofLog
  | cSource
  | bpfObject
  | traceJson
  | testReport
  | perfReport
  | mappingDoc
  | counterexample
  deriving DecidableEq

namespace ArtifactKind

def value : ArtifactKind → String
  | .dafnySpec => "dafny_spec"
  | .dafnyImpl => "dafny_impl"
  | .dafnyProofLog => "dafny_proof_log"
  | .cSource => "c_source"
  | .bpfObject => "bpf_object"
  | .traceJson => "trace_json"
  | .testReport => "test_report"
  | .perfReport => "perf_report"
  | .mappingDoc => "mapping_doc"
  | .counterexample => "counterexample"

def all : List ArtifactKind :=
  [.dafnySpec, .dafnyImpl, .dafnyProofLog, .cSource, .bpfObject, .traceJson, .testReport,
    .perfReport, .mappingDoc, .counterexample]

/-- `ArtifactKind(value)` -/
def ofValue (value : String) : Json.Decoded ArtifactKind :=
  match all.find? fun kind => kind.value == value with
  | some kind => .ok kind
  | none => .error (.valueError value)

@[simp] theorem ofValue_value (kind : ArtifactKind) : ofValue kind.value = .ok kind := by
  cases kind <;> rfl

end ArtifactKind

/-- `datetime.now(timezone.utc).isoformat()`, which is never empty. -/
structure Timestamp where
  text : String
  nonempty : text ≠ ""
  deriving DecidableEq

structure ArtifactMetadata where
  kind : ArtifactKind
  path : String
  createdBy : String
  createdAt : Timestamp
  sha256 : String
  dependsOn : List String
  tags : Dict String String
  version : Int
  deriving DecidableEq

/-- `__post_init__` -/
def postInit (createdAt : String) (now : Timestamp) : Timestamp :=
  if given : createdAt ≠ "" then ⟨createdAt, given⟩ else now

@[simp] theorem postInit_text (createdAt now : Timestamp) :
    postInit createdAt.text now = createdAt :=
  dif_pos createdAt.nonempty

namespace ArtifactMetadata

/-- `asdict(meta)`, the kind by its value -/
def document (self : ArtifactMetadata) : Json :=
  .obj [
    ("kind", .str self.kind.value),
    ("path", .str self.path),
    ("created_by", .str self.createdBy),
    ("created_at", .str self.createdAt.text),
    ("sha256", .str self.sha256),
    ("depends_on", .strings self.dependsOn),
    ("tags", .obj (self.tags.entries.map fun tag => (tag.1, .str tag.2))),
    ("version", .int self.version)]

def parameters : List String :=
  ["kind", "path", "created_by", "created_at", "sha256", "depends_on", "tags", "version"]

/-- A keyword argument without a default. -/
def required (entry : Json) (key : String) : Json.Decoded Json :=
  match entry.item key with
  | .ok value => .ok value
  | .error _ => .error .typeError

/-- A keyword argument with a default. -/
def optional {Value : Type} (entry : Json) (key : String) (default : Value)
    (read : Json → Json.Decoded Value) : Json.Decoded Value :=
  match entry.item key with
  | .ok value => read value
  | .error _ => .ok default

def readTag (tag : String × Json) : Json.Decoded (String × String) := do
  return (tag.1, ← tag.2.asStr)

def readTags (field : Json) : Json.Decoded (Dict String String) := do
  let tags ← (← field.fields).mapM readTag
  return Dict.ofEntries tags

/-- The kind is looked up by its value, and the entry passed as keyword arguments. -/
def ofDocument (now : Timestamp) (entry : Json) : Json.Decoded ArtifactMetadata := do
  let kind ← ArtifactKind.ofValue (← (← entry.item "kind").asStr)
  if (← entry.fields).any fun field => !parameters.contains field.1 then
    throw .typeError
  return {
    kind := kind
    path := ← (← required entry "path").asStr
    createdBy := ← (← required entry "created_by").asStr
    createdAt := postInit (← optional entry "created_at" "" Json.asStr) now
    sha256 := ← optional entry "sha256" "" Json.asStr
    dependsOn := ← optional entry "depends_on" [] Json.asStrings
    tags := ← optional entry "tags" Dict.empty readTags
    version := ← optional entry "version" 1 Json.asInt }

theorem readTags_entries (tags : Dict String String) :
    readTags (.obj (tags.entries.map fun tag => (tag.1, .str tag.2))) = .ok tags := by
  have each : (tags.entries.map fun tag => (tag.1, Json.str tag.2)).mapM readTag =
      .ok tags.entries :=
    Json.mapM_map_of_forall tags.entries fun _ _ => rfl
  simp only [readTags, Json.fields_obj, bind, Except.bind, each, Dict.ofEntries_entries]
  rfl

theorem ofDocument_document (now : Timestamp) (self : ArtifactMetadata) :
    ofDocument now self.document = .ok self := by
  have tags := readTags_entries self.tags
  simp [ofDocument, document, bind, Except.bind, required, optional, tags, parameters]
  rfl

theorem wellFormed_document (self : ArtifactMetadata) : self.document.WellFormed := by
  refine .obj (by simp) ?_
  simp only [List.forall_mem_cons]
  refine ⟨.str _, .str _, .str _, .str _, .str _, .strings _,
    .map_obj self.tags.distinct fun _ _ => .str _, .int _, ?_⟩
  exact fun _ member => nomatch member

end ArtifactMetadata

/-! ## The manifest -/

abbrev Manifest := Dict String ArtifactMetadata

namespace Manifest

variable {Text : Type}

def document (manifest : Manifest) : Json :=
  .obj (manifest.entries.map fun entry => (entry.1, entry.2.document))

def readEntry (now : Timestamp) (entry : String × Json) :
    Json.Decoded (String × ArtifactMetadata) := do
  return (entry.1, ← ArtifactMetadata.ofDocument now entry.2)

/-- `_load_manifest` -/
def load (codec : JsonCodec Text) (now : Timestamp) : Option Text → Json.Decoded Manifest
  | none => .ok Dict.empty
  | some text => do
      let data ← codec.loads text
      let entries ← (← data.fields).mapM (readEntry now)
      return Dict.ofEntries entries

/-- `_save_manifest` -/
def save (codec : JsonCodec Text) (manifest : Manifest) : Text :=
  codec.dumps manifest.document

theorem load_save (codec : JsonCodec Text) (now : Timestamp) (manifest : Manifest) :
    load codec now (some (save codec manifest)) = .ok manifest := by
  have wellFormed : manifest.document.WellFormed :=
    .map_obj manifest.distinct fun entry _ => entry.2.wellFormed_document
  have each : (manifest.entries.map fun entry => (entry.1, entry.2.document)).mapM
      (readEntry now) = .ok manifest.entries := by
    refine Json.mapM_map_of_forall manifest.entries fun entry _ => ?_
    rw [readEntry, ArtifactMetadata.ofDocument_document]
    rfl
  rw [load, save, codec.lossless wellFormed]
  simp only [document, Json.fields_obj, bind, Except.bind, each, Dict.ofEntries_entries]
  rfl

end Manifest

/-! ## The store -/

structure Disk (Text : Type) where
  files : String → Option ByteArray
  manifestFile : Option Text

structure ArtifactStore where
  manifest : Manifest

inductive Content where
  | str (text : String)
  | bytes (data : ByteArray)

def Content.encoded : Content → ByteArray
  | .str text => text.toUTF8
  | .bytes data => data

/-- The arguments of one call of `store`. -/
structure StoreCall where
  kind : ArtifactKind
  path : String
  content : Content
  createdBy : String
  dependsOn : Option (List String) := none
  tags : Option (Dict String String) := none

/-- A store and the disk that it is opened on. -/
structure Session (Text : Type) where
  store : ArtifactStore
  disk : Disk Text

section Store

variable {Text : Type} (sha256 : ByteArray → String) (codec : JsonCodec Text)

namespace ArtifactStore

/-- `ArtifactStore(root)` -/
def opened (now : Timestamp) (disk : Disk Text) : Json.Decoded ArtifactStore := do
  return { manifest := ← Manifest.load codec now disk.manifestFile }

/-- The metadata that a call registers. -/
def metadata (now : Timestamp) (call : StoreCall) (version : Int) : ArtifactMetadata where
  kind := call.kind
  path := call.path
  createdBy := call.createdBy
  createdAt := postInit "" now
  sha256 := sha256 call.content.encoded
  dependsOn := call.dependsOn.getD []
  tags := call.tags.getD Dict.empty
  version := version

/-- `1`, or one more than the version that the path has. -/
def nextVersion (self : ArtifactStore) (path : String) : Int :=
  match self.manifest.get? path with
  | some known => known.version + 1
  | none => 1

end ArtifactStore

namespace Session

/-- `store` -/
def stored (before : Session Text) (now : Timestamp) (call : StoreCall) :
    Session Text × ArtifactMetadata :=
  let files := Function.update before.disk.files call.path (some call.content.encoded)
  let recorded := ArtifactStore.metadata sha256 now call (before.store.nextVersion call.path)
  let manifest := before.store.manifest.set call.path recorded
  ({ store := { manifest := manifest }
     disk := { files := files, manifestFile := some (Manifest.save codec manifest) } }, recorded)

variable {sha256 codec} {before : Session Text} {now : Timestamp} {call : StoreCall}

theorem get?_stored_self :
    (before.stored sha256 codec now call).1.store.manifest.get? call.path =
      some (ArtifactStore.metadata sha256 now call (before.store.nextVersion call.path)) :=
  Dict.get?_set_self _ _ _

theorem get?_stored_of_ne {other : String} (apart : other ≠ call.path) :
    (before.stored sha256 codec now call).1.store.manifest.get? other =
      before.store.manifest.get? other :=
  Dict.get?_set_of_ne _ apart _

/-- The manifest on the disk is the one in memory. -/
def Persisted (codec : JsonCodec Text) (session : Session Text) : Prop :=
  ∀ now, ArtifactStore.opened codec now session.disk = .ok session.store

theorem persisted_stored : Persisted codec (before.stored sha256 codec now call).1 := by
  intro later
  change ((do return { manifest := ← Manifest.load codec later (some _) }) :
    Json.Decoded ArtifactStore) = _
  rw [Manifest.load_save]
  rfl

end Session

/-! ## Histories of calls -/

inductive StoreEvent where
  | store (call : StoreCall) (now : Timestamp)
  | reopen (now : Timestamp)

/-- A call, or a store that is dropped and opened again on the same disk. -/
inductive StoreStep : Session Text → StoreEvent → Session Text → Prop where
  | store (before : Session Text) (call : StoreCall) (now : Timestamp) :
      StoreStep before (.store call now) (before.stored sha256 codec now call).1
  | reopen {before : Session Text} {now : Timestamp} {store : ArtifactStore}
      (opens : ArtifactStore.opened codec now before.disk = .ok store) :
      StoreStep before (.reopen now) { before with store := store }

/-- A store on a disk without a manifest. -/
def newSession (files : String → Option ByteArray) : Session Text :=
  ⟨⟨Dict.empty⟩, ⟨files, none⟩⟩

/-- The call that an event makes for a path. -/
def StoreEvent.callFor (path : String) : StoreEvent → Option (StoreCall × Timestamp)
  | .store call now => if call.path = path then some (call, now) else none
  | .reopen _ => none

def callsFor (path : String) (history : List (Transition (Session Text) StoreEvent)) :
    List (StoreCall × Timestamp) :=
  history.filterMap fun taken => taken.event.callFor path

/-- What the manifest has for a path: its last call, and as version how many there were. -/
def lastRecorded (calls : List (StoreCall × Timestamp)) : Option ArtifactMetadata :=
  calls.getLast?.map fun last => ArtifactStore.metadata sha256 last.2 last.1 calls.length

variable {sha256 codec} {files : String → Option ByteArray}
variable {history : List (Transition (Session Text) StoreEvent)} {session : Session Text}

theorem persisted_of_run (run : Run (StoreStep sha256 codec) (newSession files) history session) :
    session.Persisted codec := by
  refine run.invariant (fun _ => rfl) fun {before event after} persisted step => ?_
  cases step with
  | store call now => exact Session.persisted_stored
  | reopen opens =>
      obtain rfl := Except.ok.inj (opens.symm.trans (persisted _))
      exact persisted

theorem lastRecorded_append (calls : List (StoreCall × Timestamp)) (call : StoreCall)
    (now : Timestamp) :
    lastRecorded sha256 (calls ++ [(call, now)]) =
      some (ArtifactStore.metadata sha256 now call (calls.length + 1)) := by
  rw [lastRecorded, List.getLast?_concat, List.length_append]
  rfl

/-- The next version of a path is one more than the calls made for it. -/
theorem nextVersion_eq {store : ArtifactStore} {path : String}
    {calls : List (StoreCall × Timestamp)}
    (known : store.manifest.get? path = lastRecorded sha256 calls) :
    store.nextVersion path = calls.length + 1 := by
  rw [ArtifactStore.nextVersion, known]
  cases calls using List.reverseRecOn with
  | nil => rfl
  | append_singleton calls last =>
      rw [lastRecorded_append, List.length_append]
      rfl

/-- One step keeps the manifest at what the calls so far have recorded. -/
theorem recorded_step {before after : Session Text} {event : StoreEvent}
    (recorded : ∀ path, before.store.manifest.get? path =
      lastRecorded sha256 (callsFor path history))
    (persisted : before.Persisted codec) (step : StoreStep sha256 codec before event after)
    (path : String) :
    after.store.manifest.get? path =
      lastRecorded sha256 (callsFor path (history ++ [⟨before, event, after⟩])) := by
  rw [callsFor, List.filterMap_append, ← callsFor]
  cases step with
  | store call now =>
      by_cases same : call.path = path
      · subst same
        rw [Session.get?_stored_self, nextVersion_eq (recorded call.path)]
        simp only [List.filterMap_cons, StoreEvent.callFor, if_pos, List.filterMap_nil]
        rw [lastRecorded_append]
      · rw [Session.get?_stored_of_ne (Ne.symm same), recorded path]
        simp only [List.filterMap_cons, StoreEvent.callFor, if_neg same, List.filterMap_nil,
          List.append_nil]
  | reopen opens =>
      obtain rfl := Except.ok.inj (opens.symm.trans (persisted _))
      simp only [List.filterMap_cons, StoreEvent.callFor, List.filterMap_nil, List.append_nil]
      exact recorded path

theorem recorded_of_run (run : Run (StoreStep sha256 codec) (newSession files) history session)
    (path : String) :
    session.store.manifest.get? path = lastRecorded sha256 (callsFor path history) := by
  induction run generalizing path with
  | refl => rfl
  | tail earlier last ih => exact recorded_step ih (persisted_of_run earlier) last path

variable (sha256 codec files)

/--
After any calls, with the store opened again between any two: the manifest has
for every path its last call with the number of calls as version, no call
touched another path, and a store that is opened has the same manifest.
-/
theorem manifest_of_run (run : Run (StoreStep sha256 codec) (newSession files) history session) :
    (∀ path, session.store.manifest.get? path =
        lastRecorded sha256 (callsFor path history)) ∧
      (∀ taken ∈ history, ∀ call now, taken.event = .store call now →
        ∀ other, other ≠ call.path →
          taken.target.store.manifest.get? other = taken.source.store.manifest.get? other) ∧
      ∀ now, ArtifactStore.opened codec now session.disk = .ok session.store := by
  refine ⟨recorded_of_run run, fun taken member call now event other apart => ?_,
    persisted_of_run run⟩
  have step := run.steps taken member
  rw [event] at step
  cases targetEq : taken.target with
  | mk store disk =>
      rw [targetEq] at step
      cases step
      exact Session.get?_stored_of_ne apart

end Store

/-- The digest of the empty content. -/
def emptyDigest : ByteArray → String :=
  fun _ => "e3b0c44298fc1c149afbf4c8996fb92427ae41e4649b934ca495991b7852b855"

def snapshot : StoreCall :=
  { kind := .mappingDoc
    path := "artifacts/requirements_snapshot.md"
    content := .str ""
    createdBy := "orchestrator" }

def midnight : Timestamp := ⟨"2025-01-01T00:00:00+00:00", by decide⟩

/-- The snapshot is stored, the store opened again, and the snapshot stored once more. -/
theorem snapshot_twice_version :
    let first := ((newSession fun _ => none).stored emptyDigest .trees midnight snapshot).1
    (first.stored emptyDigest .trees midnight snapshot).1.store.manifest.get? snapshot.path =
      some (ArtifactStore.metadata emptyDigest midnight snapshot 2) := by
  intro first
  have once : Run (StoreStep emptyDigest .trees) (newSession fun _ => none) _ first :=
    .tail .refl (.store _ snapshot midnight)
  have reopened : Run (StoreStep emptyDigest .trees) (newSession fun _ => none) _ first :=
    once.tail (.reopen (Session.persisted_stored midnight))
  have twice := reopened.tail (.store _ snapshot midnight)
  exact (manifest_of_run emptyDigest .trees (fun _ => none) twice).1 snapshot.path

end SchedExt.Agents
