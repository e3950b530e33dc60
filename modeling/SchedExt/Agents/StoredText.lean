import SchedExt.Agents.ArtifactStore
import SchedExt.Foundations.Text

/-!
# Stored text, read back

`store` writes a text as its bytes and digests these; `load` reads in text
mode, which translates line ends.  The manifest is written after the content,
so a path that leads to the manifest holds the manifest when it is read.
-/

namespace SchedExt.Agents

open Foundations

/-- The universal newlines of text mode. -/
def universalNewlines (text : String) : String :=
  String.ofList (Text.readText id '\n' text.toList)

/-- `read_text` of a file with these bytes; `none` where they are not UTF-8. -/
def readTextMode (data : ByteArray) : Option String :=
  (String.fromUTF8? data).map universalNewlines

theorem universalNewlines_eq_self_iff (text : String) :
    universalNewlines text = text ↔ '\r' ∉ text.toList := by
  rw [← Text.readText_eq_self_iff, ← String.toList_inj, universalNewlines, String.toList_ofList]

/-- A text that was written is read back with its line ends translated. -/
theorem readTextMode_toUTF8 (text : String) :
    readTextMode text.toUTF8 = some (universalNewlines text) := by
  have valid : text.toUTF8.IsValidUTF8 := text.isValidUTF8
  have whole : String.fromUTF8 _ valid = text := String.toByteArray_inj.mp rfl
  rw [readTextMode, String.fromUTF8?, dif_pos valid, whole, Option.map_some]

/-- The paths that the file system leads to the manifest, and the characters of its document. -/
structure ManifestPlace (Text : Type) where
  named : String → Bool
  characters : Text → String

/-- What `load` raises. -/
inductive LoadFault where
  | fileNotFoundError (message : String)
  | unicodeDecodeError
  deriving DecidableEq

section Load

variable {Text : Type} (place : ManifestPlace Text)

/-- The bytes that a path leads to. -/
def Disk.data (disk : Disk Text) (path : String) : Option ByteArray :=
  if place.named path then disk.manifestFile.map fun text => (place.characters text).toUTF8
  else disk.files path

/-- `load` -/
def Session.load (self : Session Text) (path : String) :
    Except LoadFault (String × ArtifactMetadata) :=
  match self.store.manifest.get? path with
  | none => .error (.fileNotFoundError ("Artifact not in manifest: " ++ path))
  | some recorded =>
      match self.disk.data place path with
      | none => .error (.fileNotFoundError path)
      | some data =>
          match readTextMode data with
          | none => .error .unicodeDecodeError
          | some content => .ok (content, recorded)

variable (sha256 : ByteArray → String) (codec : JsonCodec Text)
variable (before : Session Text) (now : Timestamp) (call : StoreCall) (content : String)

/-- The call with a text as its content. -/
def StoreCall.withText (call : StoreCall) (content : String) : StoreCall :=
  { call with content := .str content }

/-- The characters that the manifest has once the call has registered this digest. -/
def registeredText (digest : String) : String :=
  let recorded := ArtifactStore.metadata (fun _ => digest) now call
    (before.store.nextVersion call.path)
  place.characters (Manifest.save codec (before.store.manifest.set call.path recorded))

/-- The text that is read after a text was stored. -/
def readBack : String :=
  if place.named call.path then
    universalNewlines (registeredText place codec before now call (sha256 content.toUTF8))
  else universalNewlines content

/-- Right after it was stored the text is loaded as it was, and has the digest returned. -/
def LoadedBack : Prop :=
  let (after, recorded) := before.stored sha256 codec now (call.withText content)
  ∃ text registered, after.load place call.path = .ok (text, registered) ∧ text = content ∧
    sha256 text.toUTF8 = recorded.sha256

/-- What `load` returns after `store` of a text. -/
theorem load_stored :
    (before.stored sha256 codec now (call.withText content)).1.load place call.path =
      .ok (readBack place sha256 codec before now call content,
        (before.stored sha256 codec now (call.withText content)).2) := by
  have registered : (before.stored sha256 codec now (call.withText content)).1.store.manifest.get?
      call.path = some (before.stored sha256 codec now (call.withText content)).2 :=
    Session.get?_stored_self
  have data : (before.stored sha256 codec now (call.withText content)).1.disk.data place call.path =
      some (if place.named call.path then
        (registeredText place codec before now call (sha256 content.toUTF8)).toUTF8
        else content.toUTF8) := by
    unfold Disk.data
    split
    · rfl
    · exact Function.update_self ..
  have decoded : readTextMode (if place.named call.path then
        (registeredText place codec before now call (sha256 content.toUTF8)).toUTF8
        else content.toUTF8) =
      some (readBack place sha256 codec before now call content) := by
    unfold readBack
    split
    · exact readTextMode_toUTF8 _
    · exact readTextMode_toUTF8 content
  unfold Session.load
  rw [registered]
  dsimp only
  rw [data]
  dsimp only
  rw [decoded]

/--
A stored text is loaded back exactly when it has no carriage return and its path
does not lead to the manifest; there it would have to be the text of the
manifest that registers its own digest, a fixed point of the digest.
-/
theorem loadedBack_iff :
    LoadedBack place sha256 codec before now call content ↔
      if place.named call.path then
        universalNewlines (registeredText place codec before now call (sha256 content.toUTF8)) =
          content
      else '\r' ∉ content.toList := by
  have same : LoadedBack place sha256 codec before now call content ↔
      readBack place sha256 codec before now call content = content := by
    unfold LoadedBack
    dsimp only
    rw [load_stored]
    constructor
    · rintro ⟨text, registered, loaded, unchanged, _⟩
      exact (congrArg Prod.fst (Except.ok.inj loaded)).trans unchanged
    · intro unchanged
      exact ⟨content, _, by rw [unchanged], rfl, rfl⟩
  rw [same]
  unfold readBack
  split
  · exact Iff.rfl
  · exact universalNewlines_eq_self_iff content

end Load

/-- A root without links, where one path leads to the manifest. -/
def plainRoot : ManifestPlace Json where
  named path := path == "artifacts/manifest.json"
  characters _ := "\x7b\x7d"

theorem carriage_notLoadedBack :
    ¬ LoadedBack plainRoot emptyDigest .trees (newSession fun _ => none) midnight snapshot
      "a\r\n" := by
  rw [loadedBack_iff]
  decide

end SchedExt.Agents
