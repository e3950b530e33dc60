import Mathlib.Algebra.BigOperators.Group.List.Basic
import Mathlib.Algebra.Ring.Nat
import SchedExt.Lsp.Synchronization

/-!
# What the calls of a session read

The calls of a session read one stream, each from where the one before has
stopped, as long as no read is cut off inside a message.  A call on a file
returns what is published for the file while it reads; what is published for it
while another call reads is returned by none.
-/

namespace SchedExt.Lsp

open Foundations

/-- The messages that an event reads at most. -/
def SessionEvent.reads : SessionEvent → Nat
  | .enter _ _ => 2
  | .file _ _ times _ => times.length
  | .withheld => 0
  | .exit => 1

/-- No read of the event times out inside a message. -/
def SessionEvent.ReadsWhole : SessionEvent → Prop
  | .file _ _ _ lost => lost = .nothing
  | _ => True

/-- The diagnostics that some messages publish for a document. -/
def publishedFor (uri : String) (messages : List Json) : List Diagnostic :=
  (messages.filterMap (published? uri)).flatten

section Readings

variable (dumps : Json → List Char) (loads : List UInt8 → Json.Decoded Json)

/-- What a call on a file returns or raises. -/
def ClientSession.diagnostics (self : ClientSession) (call : FileCall) (started : Rat)
    (times : List Rat) (lost : Loss) : Except CollectFault (List Diagnostic) :=
  match call with
  | .check uri content => (self.client.checkFile dumps loads uri content started times lost).1
  | .update uri newContent =>
      (self.client.updateFile dumps loads uri newContent started times lost).1

/-- What the requests of an event return or raise. -/
def ClientSession.replies (self : ClientSession) (event : SessionEvent) :
    List (Except Fault (Option Json)) :=
  (self.client.perform dumps loads (self.calls dumps loads event)).1.map Prod.snd

/--
An event has read a part of the stream: the requests return its messages, and
a call on a file what is published for the file in it.
-/
def Reads (taken : Transition ClientSession SessionEvent) (part : List Json) : Prop :=
  match taken.event with
  | .file call started times lost =>
      taken.source.diagnostics dumps loads call started times lost =
        .ok (publishedFor call.uri part)
  | event => taken.source.replies dumps loads event = part.map fun msg => .ok (some msg)

/-- What a step returns for a file. -/
def returnedOn (uri : String) (taken : Transition ClientSession SessionEvent) : List Diagnostic :=
  match taken.event with
  | .file call started times lost =>
      if call.uri = uri then
        match taken.source.diagnostics dumps loads call started times lost with
        | .ok diagnostics => diagnostics
        | .error _ => []
      else []
  | _ => []

/-- What the calls on a file return, one after the other. -/
def returnedFor (uri : String) (history : List (Transition ClientSession SessionEvent)) :
    List Diagnostic :=
  history.flatMap (returnedOn dumps loads uri)

variable {dumps loads}
variable {stdout : List UInt8} {state : ClientSession} {messages : List Json}
variable {history : List (Transition ClientSession SessionEvent)}

/-! ## One step -/

/-- The loop reads as many messages as it begins reads, or fewer. -/
theorem exists_carries_drop (uri : String) (deadline : Rat) {times : List Rat} {process : Process}
    (carried : Carries loads process.stdout messages) (enough : times.length ≤ messages.length)
    (prescribed : ∀ msg ∈ messages, Prescribed msg) :
    ∃ count ≤ times.length,
      Carries loads (collectDiagnostics loads uri deadline .nothing times process).2.stdout
        (messages.drop count) := by
  induction times generalizing process messages with
  | nil => exact ⟨0, Nat.le_refl 0, carried⟩
  | cons time times ih =>
      by_cases early : time < deadline
      · generalize stream : process.stdout = bytes at carried
        cases carried with
        | nil => cases enough
        | cons framed carried =>
            obtain ⟨here, there⟩ := List.forall_mem_cons.mp prescribed
            obtain ⟨after, left, turn⟩ :=
              collectDiagnostics_cons uri .nothing times early framed stream here
            rw [← left] at carried
            obtain ⟨count, few, later⟩ := ih carried (Nat.le_of_succ_le_succ enough) there
            rw [turn]
            split
            · exact ⟨count + 1, Nat.succ_le_succ few, later⟩
            · split
              · exact ⟨count + 1, Nat.succ_le_succ few, later⟩
              · exact ⟨1, Nat.succ_le_succ (Nat.zero_le _), carried⟩
      · rw [collectDiagnostics, if_neg early]
        exact ⟨0, Nat.zero_le _, carried⟩

/-- The loop of a call on a file returns what is published in the part it reads. -/
theorem exists_part_gather (uri : String) (started : Rat) {times : List Rat} {process : Process}
    (carried : Carries loads process.stdout messages) (enough : times.length ≤ messages.length)
    (prescribed : ∀ msg ∈ messages, Prescribed msg) :
    ∃ part rest, messages = part ++ rest ∧ part.length ≤ times.length ∧
      Carries loads (gather loads uri started times .nothing process).2.stdout rest ∧
      (gather loads uri started times .nothing process).1 = .ok (publishedFor uri part) := by
  obtain ⟨part, rest, collects⟩ := exists_collects uri (started + 300) carried enough prescribed
  obtain ⟨count, few, left⟩ := exists_carries_drop uri (started + 300) carried enough prescribed
  obtain rfl := collects.left.unique left
  refine ⟨part, messages.drop count, collects.splits, ?_, left, ?_⟩
  · have lengths := congrArg List.length collects.splits
    rw [List.length_append, List.length_drop] at lengths
    omega
  · unfold gather
    dsimp only
    rw [collects.returned]
    exact congrArg Except.ok (foldl_append_eq _ [])

theorem exists_part_file {before : ClientSession} (call : FileCall) (started : Rat)
    {times : List Rat} (carried : Carries loads before.client.process.stdout messages)
    (enough : times.length ≤ messages.length) (prescribed : ∀ msg ∈ messages, Prescribed msg) :
    ∃ part rest, messages = part ++ rest ∧ part.length ≤ times.length ∧
      Carries loads
        (before.perform dumps loads (.file call started times .nothing)).client.process.stdout
        rest ∧
      before.diagnostics dumps loads call started times .nothing =
        .ok (publishedFor call.uri part) := by
  cases call with
  | check uri content =>
      exact @exists_part_gather loads messages uri started times
        (before.client.perform dumps loads [didOpen uri content]).2.process carried enough
        prescribed
  | update uri newContent =>
      exact @exists_part_gather loads messages uri started times
        (before.client.perform dumps loads [didChange uri newContent]).2.process carried enough
        prescribed

/-- Requests read one message each. -/
theorem exists_part_perform {self : DafnyLSPClient} (calls : List Call)
    (carried : Carries loads self.process.stdout messages)
    (enough : (methods calls).length ≤ messages.length) :
    ∃ part rest, messages = part ++ rest ∧ part.length ≤ (methods calls).length ∧
      Carries loads (self.perform dumps loads calls).2.process.stdout rest ∧
      (self.perform dumps loads calls).1.map Prod.snd = part.map fun msg => .ok (some msg) :=
  ⟨messages.take (methods calls).length, messages.drop (methods calls).length,
    (List.take_append_drop _ _).symm, List.length_take_le _ _,
    DafnyLSPClient.carries_perform calls carried enough,
    DafnyLSPClient.replies_perform calls carried enough⟩

/-- A step reads a part, and leaves what comes after. -/
theorem exists_part {before : ClientSession} (event : SessionEvent)
    (carried : Carries loads before.client.process.stdout messages)
    (enough : event.reads ≤ messages.length) (prescribed : ∀ msg ∈ messages, Prescribed msg)
    (whole : event.ReadsWhole) :
    ∃ part rest, messages = part ++ rest ∧ part.length ≤ event.reads ∧
      Carries loads (before.perform dumps loads event).client.process.stdout rest ∧
      Reads dumps loads ⟨before, event, before.perform dumps loads event⟩ part := by
  cases event with
  | enter processId rootUri =>
      have calls := @ClientSession.calls_enter dumps loads messages before processId rootUri
        carried enough
      obtain ⟨part, rest, splits, few, left, replies⟩ :=
        @exists_part_perform dumps loads messages before.client (aenter processId rootUri) carried
          enough
      refine ⟨part, rest, splits, few, ?_, ?_⟩
      · unfold ClientSession.perform
        dsimp only
        rw [calls]
        exact left
      · unfold Reads ClientSession.replies
        dsimp only
        rw [calls]
        exact replies
  | file call started times lost =>
      obtain rfl : lost = .nothing := whole
      exact exists_part_file call started carried enough prescribed
  | withheld => exact ⟨[], messages, rfl, Nat.le_refl 0, carried, rfl⟩
  | exit => exact exists_part_perform aexit carried enough

/-! ## Whole sessions -/

theorem returnedOn_of_reads {taken : Transition ClientSession SessionEvent} {part : List Json}
    (reads : Reads dumps loads taken part) (uri : String) :
    returnedOn dumps loads uri taken =
      if taken.event.file?.map FileCall.uri = some uri then publishedFor uri part else [] := by
  obtain ⟨source, event, target⟩ := taken
  cases event with
  | enter processId rootUri => rfl
  | file call started times lost =>
      have named : (SessionEvent.file call started times lost).file?.map FileCall.uri = some uri ↔
          call.uri = uri := ⟨Option.some.inj, congrArg some⟩
      unfold Reads at reads
      unfold returnedOn
      dsimp only at reads ⊢
      rw [reads]
      by_cases same : call.uri = uri
      · rw [if_pos same, if_pos (named.mpr same), same]
      · rw [if_neg same, if_neg fun own => same (named.mp own)]
  | withheld => rfl
  | exit => rfl

theorem publishedFor_append (uri : String) (first second : List Json) :
    publishedFor uri (first ++ second) = publishedFor uri first ++ publishedFor uri second := by
  rw [publishedFor, List.filterMap_append, List.flatten_append]
  rfl

/-- Of two parts nothing is lost exactly when nothing is lost of either. -/
theorem append_eq_append_iff_of_sublist {Entry : Type} {first second whole rest : List Entry}
    (front : first.Sublist whole) (back : second.Sublist rest) :
    first ++ second = whole ++ rest ↔ first = whole ∧ second = rest := by
  constructor
  · intro same
    have lengths := congrArg List.length same
    rw [List.length_append, List.length_append] at lengths
    have shorter := front.length_le
    have fewer := back.length_le
    exact ⟨front.eq_of_length (by omega), back.eq_of_length (by omega)⟩
  · rintro ⟨rfl, rfl⟩
    rfl

/-- What is returned for a file is published for it, and what others read of that is lost. -/
theorem returnedFor_of_reads {parts : List (List Json)}
    (reads : List.Forall₂ (Reads dumps loads) history parts) (uri : String) :
    (returnedFor dumps loads uri history).Sublist (publishedFor uri parts.flatten) ∧
      (returnedFor dumps loads uri history = publishedFor uri parts.flatten ↔
        ∀ pair ∈ history.zip parts, pair.1.event.file?.map FileCall.uri ≠ some uri →
          publishedFor uri pair.2 = []) := by
  induction reads with
  | nil => exact ⟨List.Sublist.refl _, iff_of_true rfl fun _ impossible => nomatch impossible⟩
  | @cons taken part history parts here later ih =>
      have first : (returnedOn dumps loads uri taken).Sublist (publishedFor uri part) := by
        rw [returnedOn_of_reads here]
        split
        · exact List.Sublist.refl _
        · exact List.nil_sublist _
      have whole : returnedOn dumps loads uri taken = publishedFor uri part ↔
          (taken.event.file?.map FileCall.uri ≠ some uri → publishedFor uri part = []) := by
        rw [returnedOn_of_reads here]
        split
        · rename_i own
          exact iff_of_true rfl fun other => absurd own other
        · rename_i other
          exact eq_comm.trans ⟨fun none _ => none, fun none => none other⟩
      rw [List.flatten_cons, publishedFor_append, List.zip_cons_cons, List.forall_mem_cons,
        ← whole, ← ih.2]
      exact ⟨first.append ih.1, append_eq_append_iff_of_sublist first ih.1⟩

/-- Every step of a session reads a part of its own. -/
theorem exists_parts_of_run (run : Run (SessionStep dumps loads) (.begun stdout) history state)
    (carried : Carries loads stdout messages) (prescribed : ∀ msg ∈ messages, Prescribed msg)
    (enough : (history.map fun taken => taken.event.reads).sum ≤ messages.length)
    (whole : ∀ taken ∈ history, taken.event.ReadsWhole) :
    ∃ parts rest, messages = parts.flatten ++ rest ∧
      parts.flatten.length ≤ (history.map fun taken => taken.event.reads).sum ∧
      Carries loads state.client.process.stdout rest ∧
      List.Forall₂ (Reads dumps loads) history parts := by
  induction run with
  | refl => exact ⟨[], messages, rfl, Nat.le_refl 0, carried, .nil⟩
  | @tail history state next event earlier last ih =>
      rw [List.map_append, List.sum_append, List.map_singleton, List.sum_singleton] at enough ⊢
      dsimp only at enough ⊢
      obtain ⟨earlierWhole, lastWhole⟩ := List.forall_mem_append.mp whole
      obtain ⟨parts, rest, splits, few, left, reads⟩ :=
        ih (Nat.le_of_add_right_le enough) earlierWhole
      obtain ⟨-, rfl⟩ := last
      have lengths := congrArg List.length splits
      rw [List.length_append] at lengths
      have remaining : event.reads ≤ rest.length := by omega
      have known : ∀ msg ∈ rest, Prescribed msg := fun msg member =>
        prescribed msg (splits ▸ List.mem_append_right _ member)
      obtain ⟨part, more, next, short, after, here⟩ :=
        exists_part event left remaining known (lastWhole _ List.mem_cons_self)
      refine ⟨parts ++ [part], more, ?_, ?_, after, ?_⟩
      · rw [splits, next, List.flatten_append, List.flatten_singleton, List.append_assoc]
      · rw [List.flatten_append, List.flatten_singleton, List.length_append]
        exact Nat.add_le_add few short
      · exact List.rel_append reads (.cons here .nil)

/--
While the server has enough messages as the protocol prescribes them, and no read
times out inside one of them, the calls of a session read one part of its stream
each, in order and without a gap: a request returns one message, whatever it is,
and a call on a file what its part publishes for the file.  All calls on a file
together return what is published for it, no diagnostic twice, and all of that
exactly when no other call reads any.
-/
theorem readings_of_run (run : Run (SessionStep dumps loads) (.begun stdout) history state)
    (carried : Carries loads stdout messages) (prescribed : ∀ msg ∈ messages, Prescribed msg)
    (enough : (history.map fun taken => taken.event.reads).sum ≤ messages.length)
    (whole : ∀ taken ∈ history, taken.event.ReadsWhole) :
    ∃ parts rest, messages = parts.flatten ++ rest ∧
      Carries loads state.client.process.stdout rest ∧
      List.Forall₂ (Reads dumps loads) history parts ∧
      ∀ uri, (returnedFor dumps loads uri history).Sublist (publishedFor uri parts.flatten) ∧
        (returnedFor dumps loads uri history = publishedFor uri parts.flatten ↔
          ∀ pair ∈ history.zip parts, pair.1.event.file?.map FileCall.uri ≠ some uri →
            publishedFor uri pair.2 = []) := by
  obtain ⟨parts, rest, splits, -, left, reads⟩ :=
    exists_parts_of_run run carried prescribed enough whole
  exact ⟨parts, rest, splits, left, reads, returnedFor_of_reads reads⟩

end Readings

/-! ## A notification that comes late -/

/-- The file is proved, then not, and the second notification comes after the call on it. -/
def lateMessages : List Json := [result 1, result 2, notice [], notice [unproved]]

def lateLoads : List UInt8 → Json.Decoded Json := exchangeLoads lateMessages

def late : ClientSession := .begun (lateMessages.flatMap (frame exchangeDumps))

def lateEvents : List SessionEvent :=
  [.enter 7 "file:///", .file (.check "file:///a.dfy" "a") 0 [1] .nothing, .withheld, .exit]

def lateHistory : List (Transition ClientSession SessionEvent) :=
  trace (ClientSession.perform exchangeDumps lateLoads) late lateEvents

set_option maxRecDepth 2000 in
theorem carries_late : Carries lateLoads late.client.process.stdout lateMessages := by
  have distinct : (lateMessages.map fun msg =>
      Encoding.encode (exchangeDumps msg)).Nodup := by decide +kernel
  have plain : ∀ text ∈ lateMessages.map exchangeDumps, Encoding.Ascii text := by decide +kernel
  exact carries_frames fun msg member => framed_frame
    (exchangeLoads_exchangeDumps distinct member) (plain _ (List.mem_map_of_mem member))

theorem prescribed_late : ∀ msg ∈ lateMessages, Prescribed msg := by
  have answer (id : Int) : Prescribed (result id) := .inl ⟨_, rfl, rfl⟩
  have proved : Prescribed (notice []) := prescribed_notice fun _ impossible => nomatch impossible
  have failed : Prescribed (notice [unproved]) :=
    prescribed_notice (List.forall_mem_singleton.mpr isDiagnostic_unproved)
  unfold lateMessages
  simp only [List.forall_mem_cons]
  exact ⟨answer 1, answer 2, proved, failed, fun _ impossible => absurd impossible List.not_mem_nil⟩

theorem late_run : Run (SessionStep exchangeDumps lateLoads) late lateHistory
    (lateEvents.foldl (ClientSession.perform exchangeDumps lateLoads) late) := by
  have entered := @ClientSession.phase_enter exchangeDumps lateLoads _ late 7 "file:///"
    carries_late (Nat.le_add_left 2 2)
  refine @Run.of_trace _ _ _ _ _ ClientSession.Allows (fun _ _ allowed => ⟨allowed, rfl⟩) _ ?_
  unfold lateEvents
  simp only [trace, List.forall_mem_cons]
  have checked := (@ClientSession.phase_file exchangeDumps lateLoads _
    (.check "file:///a.dfy" "a") 0 [1] .nothing).trans entered
  have idle := (@ClientSession.phase_withheld exchangeDumps lateLoads _).trans checked
  exact ⟨rfl, entered, checked, idle,
    fun _ impossible => absurd impossible List.not_mem_nil⟩

theorem late_readsWhole : ∀ taken ∈ lateHistory, taken.event.ReadsWhole := by
  unfold lateHistory lateEvents
  simp only [trace, List.forall_mem_cons]
  exact ⟨trivial, rfl, trivial, trivial, fun _ impossible => absurd impossible List.not_mem_nil⟩

theorem late_readings :
    ∃ parts rest, lateMessages = parts.flatten ++ rest ∧
      Carries lateLoads (lateEvents.foldl (ClientSession.perform exchangeDumps lateLoads)
        late).client.process.stdout rest ∧
      List.Forall₂ (Reads exchangeDumps lateLoads) lateHistory parts ∧
      ∀ uri, (returnedFor exchangeDumps lateLoads uri lateHistory).Sublist
          (publishedFor uri parts.flatten) ∧
        (returnedFor exchangeDumps lateLoads uri lateHistory = publishedFor uri parts.flatten ↔
          ∀ pair ∈ lateHistory.zip parts, pair.1.event.file?.map FileCall.uri ≠ some uri →
            publishedFor uri pair.2 = []) :=
  readings_of_run late_run carries_late prescribed_late (by decide) late_readsWhole

end SchedExt.Lsp
