import Mathlib.Data.List.MinMax
import Mathlib.Data.String.Basic
import SchedExt.Agents.Workspace

/-!
# The artifacts of a kind

A call of `store` is in force until a later call for its path.  The queries
answer with the calls in force, of which `latest_of_kind` takes the last when
the clock that stamps them does not go back.
-/

namespace SchedExt.Agents

open Foundations

/-- The greatest of the members of a list that is in order is its last. -/
theorem argmax_eq_getLast? {Item Key : Type} [DecidableEq Item] [LinearOrder Key]
    {key : Item → Key}
    {items ordered : List Item} (ascending : ordered.Pairwise fun first second =>
      key first < key second) (members : ∀ item, item ∈ items ↔ item ∈ ordered) :
    items.argmax key = ordered.getLast? := by
  cases ordered using List.reverseRecOn with
  | nil =>
      have none : items = [] :=
        List.eq_nil_iff_forall_not_mem.mpr fun item member => nomatch (members item).mp member
      rw [none]
      rfl
  | append_singleton front last =>
      obtain ⟨-, -, before⟩ := List.pairwise_append.mp ascending
      have below : ∀ item ∈ items, key item < key last ∨ item = last := by
        intro item member
        rcases List.mem_append.mp ((members item).mp member) with earlier | latest
        · exact .inl (before item earlier last (List.mem_singleton_self last))
        · exact .inr (List.mem_singleton.mp latest)
      rw [List.getLast?_concat, List.argmax_eq_some_iff]
      refine ⟨(members last).mpr (List.mem_append_right _ (List.mem_singleton_self last)),
        fun item member => ?_, fun item member atLeast => ?_⟩
      · rcases below item member with less | rfl
        · exact less.le
        · exact le_rfl
      · rcases below item member with less | rfl
        · exact absurd atLeast less.not_ge
        · exact le_rfl

/-! ## The calls in force -/

/-- The calls that no later call for their path follows. -/
def inForce : List (StoreCall × Timestamp) → List (StoreCall × Timestamp)
  | [] => []
  | call :: rest =>
      if rest.any fun later => later.1.path = call.1.path then inForce rest
      else call :: inForce rest

theorem inForce_sublist (calls : List (StoreCall × Timestamp)) : (inForce calls).Sublist calls := by
  induction calls with
  | nil => exact .slnil
  | cons call rest ih =>
      rw [inForce]
      split
      · exact ih.cons call
      · exact ih.cons_cons call

/-- A call is in force when it is the last one for its path. -/
theorem mem_inForce {call : StoreCall × Timestamp} {calls : List (StoreCall × Timestamp)} :
    call ∈ inForce calls ↔
      (calls.filter fun other => other.1.path = call.1.path).getLast? = some call := by
  induction calls with
  | nil => exact ⟨fun impossible => (nomatch impossible), fun impossible => nomatch impossible⟩
  | cons head rest ih =>
      by_cases same : head.1.path = call.1.path
      · have kept : ((head :: rest).filter fun other => other.1.path = call.1.path) =
            head :: rest.filter fun other => other.1.path = call.1.path :=
          List.filter_cons_of_pos (decide_eq_true same)
        rw [kept, List.getLast?_cons, inForce, same]
        split
        · rename_i later
          obtain ⟨other, member, path⟩ := List.any_eq_true.mp later
          have filtered : other ∈ rest.filter fun other => other.1.path = call.1.path :=
            List.mem_filter.mpr ⟨member, path⟩
          obtain ⟨last, lastEq⟩ := Option.isSome_iff_exists.mp
            (List.getLast?_isSome.mpr (List.ne_nil_of_mem filtered))
          rw [ih, lastEq]
          rfl
        · rename_i latest
          have none : (rest.filter fun other => other.1.path = call.1.path) = [] :=
            List.filter_eq_nil_iff.mpr fun other member path =>
              latest (List.any_eq_true.mpr ⟨other, member, path⟩)
          rw [List.mem_cons, ih, none]
          constructor
          · rintro (rfl | impossible)
            · rfl
            · exact nomatch impossible
          · exact fun last => .inl (Option.some.inj last).symm
      · have dropped : ((head :: rest).filter fun other => other.1.path = call.1.path) =
            rest.filter fun other => other.1.path = call.1.path :=
          List.filter_cons_of_neg (by simpa using same)
        rw [dropped, ← ih, inForce]
        split
        · exact Iff.rfl
        · rw [List.mem_cons, or_iff_right]
          rintro rfl
          exact same rfl

section Runs

variable {Text : Type}

/-- `latest_of_kind` -/
def Workspace.latestOfKind (self : Workspace Text) (kind : ArtifactKind) :
    Option ArtifactMetadata :=
  (self.listByKind kind).argmax fun m => m.createdAt.text

def StoreEvent.call? : StoreEvent → Option (StoreCall × Timestamp)
  | .store call now => some (call, now)
  | .reopen _ => none

/-- The calls of a history, oldest first. -/
def storeCalls (history : List (Transition (Session Text) StoreEvent)) :
    List (StoreCall × Timestamp) :=
  history.filterMap fun taken => taken.event.call?

theorem callsFor_eq (path : String) (history : List (Transition (Session Text) StoreEvent)) :
    callsFor path history = (storeCalls history).filter fun call => call.1.path = path := by
  rw [storeCalls, List.filter_filterMap, callsFor]
  refine List.filterMap_congr fun taken _ => ?_
  cases taken.event with
  | reopen now => rfl
  | store call now =>
      rw [StoreEvent.callFor, StoreEvent.call?, Option.filter_some]
      exact if_congr decide_eq_true_iff.symm rfl rfl

/-- What a call in force has recorded. -/
def recordOf (sha256 : ByteArray → String) (history : List (Transition (Session Text) StoreEvent))
    (call : StoreCall × Timestamp) : ArtifactMetadata :=
  ArtifactStore.metadata sha256 call.2 call.1 (callsFor call.1.path history).length

/-- The records of the calls in force, in the order of the calls. -/
def recordsInForce (sha256 : ByteArray → String)
    (history : List (Transition (Session Text) StoreEvent)) : List ArtifactMetadata :=
  (inForce (storeCalls history)).map (recordOf sha256 history)

variable {sha256 : ByteArray → String} {codec : JsonCodec Text}
variable {files : String → Option ByteArray} {session : Session Text}
variable {history : List (Transition (Session Text) StoreEvent)}

/-- An entry of the manifest is the record of a call in force for its path. -/
theorem exists_call_of_entry
    (run : Run (StoreStep sha256 codec) (newSession files) history session)
    {entry : String × ArtifactMetadata} (member : entry ∈ session.store.manifest.entries) :
    ∃ call ∈ inForce (storeCalls history), call.1.path = entry.1 ∧
      recordOf sha256 history call = entry.2 := by
  obtain ⟨path, m⟩ := entry
  have found := Dict.get?_eq_some_iff.mpr member
  rw [recorded_of_run run, lastRecorded, Option.map_eq_some_iff] at found
  obtain ⟨last, lastEq, rfl⟩ := found
  have stored : last.1.path = path := by
    have inside := List.mem_of_getLast? lastEq
    rw [callsFor_eq] at inside
    exact of_decide_eq_true (List.mem_filter.mp inside).2
  subst stored
  refine ⟨last, mem_inForce.mpr ?_, rfl, rfl⟩
  rw [← callsFor_eq]
  exact lastEq

/-- The manifest has the records in force, and no others. -/
theorem mem_values_iff (run : Run (StoreStep sha256 codec) (newSession files) history session)
    (m : ArtifactMetadata) :
    m ∈ session.store.manifest.values ↔ m ∈ recordsInForce sha256 history := by
  constructor
  · intro member
    obtain ⟨entry, inside, rfl⟩ := List.mem_map.mp member
    obtain ⟨call, force, -, same⟩ := exists_call_of_entry run inside
    exact List.mem_map.mpr ⟨call, force, same⟩
  · intro member
    obtain ⟨call, force, rfl⟩ := List.mem_map.mp member
    have last := mem_inForce.mp force
    rw [← callsFor_eq] at last
    have found : session.store.manifest.get? call.1.path =
        some (recordOf sha256 history call) := by
      rw [recorded_of_run run, lastRecorded, last]
      rfl
    exact List.mem_map_of_mem (Dict.get?_eq_some_iff.mp found)

theorem paths_values (run : Run (StoreStep sha256 codec) (newSession files) history session) :
    session.store.manifest.values.map ArtifactMetadata.path = session.store.manifest.keys := by
  rw [Dict.values, List.map_map, Dict.keys]
  refine List.map_congr_left fun entry member => ?_
  obtain ⟨call, -, path, same⟩ := exists_call_of_entry run member
  rw [Function.comp_apply, ← same, ← path]
  rfl

/-- The clock moves on between any two calls. -/
def Ascending (history : List (Transition (Session Text) StoreEvent)) : Prop :=
  (storeCalls history).Pairwise fun first second => first.2.text < second.2.text

instance (history : List (Transition (Session Text) StoreEvent)) :
    Decidable (Ascending history) :=
  inferInstanceAs (Decidable (List.Pairwise _ _))

theorem text_createdAt_recordOf (call : StoreCall × Timestamp) :
    (recordOf sha256 history call).createdAt.text = call.2.text := by
  have now : postInit "" call.2 = call.2 := dif_neg (not_not.mpr rfl)
  exact congrArg Timestamp.text now

theorem Ascending.recordsInForce (ascending : Ascending history) :
    (recordsInForce sha256 history).Pairwise fun first second =>
      first.createdAt.text < second.createdAt.text := by
  refine List.pairwise_map.mpr ((ascending.sublist (inForce_sublist _)).imp ?_)
  intro first second before
  rw [text_createdAt_recordOf, text_createdAt_recordOf]
  exact before

variable (sha256 codec files)

/--
After any calls, with the store opened again between any two: the artifacts of
a kind are the calls of the kind that are in force, each once, and the latest
is the last of these if the clock has moved on between any two calls.
-/
theorem kindQueries_of_run
    (run : Run (StoreStep sha256 codec) (newSession files) history session)
    (written : List String) (kind : ArtifactKind) :
    let listed := (⟨session, written⟩ : Workspace Text).listByKind kind
    let force := (recordsInForce sha256 history).filter fun m => m.kind = kind
    (∀ m, m ∈ listed ↔ m ∈ force) ∧ (listed.map ArtifactMetadata.path).Nodup ∧
      (Ascending history →
        (⟨session, written⟩ : Workspace Text).latestOfKind kind = force.getLast?) := by
  intro listed force
  have members : ∀ m, m ∈ listed ↔ m ∈ force := by
    intro m
    simp only [listed, force, Workspace.listByKind, List.mem_filter, mem_values_iff run]
  refine ⟨members, ?_, fun ascending => ?_⟩
  · refine (List.filter_sublist.map ArtifactMetadata.path).nodup ?_
    exact (paths_values run).symm ▸ session.store.manifest.distinct
  · exact argmax_eq_getLast? (ascending.recordsInForce.sublist List.filter_sublist) members

end Runs

/-! ## A path that changes its kind -/

def oneSecond : Timestamp := ⟨"2025-01-01T00:00:01+00:00", by decide⟩

def twoSeconds : Timestamp := ⟨"2025-01-01T00:00:02+00:00", by decide⟩

def mapping : StoreCall :=
  { kind := .mappingDoc
    path := "impl/bridge/mapping.md"
    content := .str ""
    createdBy := "impl" }

/-- The mapping is stored as a test report, after which the snapshot is the latest again. -/
theorem snapshot_latest :
    let snapshots := ((newSession fun _ => none).stored emptyDigest .trees midnight snapshot).1
    let mappings := (snapshots.stored emptyDigest .trees oneSecond mapping).1
    let reports :=
      (mappings.stored emptyDigest .trees twoSeconds { mapping with kind := .testReport }).1
    (⟨reports, []⟩ : Workspace Json).latestOfKind .mappingDoc =
      some (ArtifactStore.metadata emptyDigest midnight snapshot 1) := by
  intro snapshots mappings reports
  have run : Run (StoreStep emptyDigest .trees) (newSession fun _ => none) _ reports :=
    ((Run.tail .refl (.store _ snapshot midnight)).tail (.store _ mapping oneSecond)).tail
      (.store _ { mapping with kind := .testReport } twoSeconds)
  obtain ⟨-, -, latest⟩ :=
    kindQueries_of_run emptyDigest .trees (fun _ => none) run [] .mappingDoc
  rw [latest (by decide)]
  rfl

end SchedExt.Agents
