import SchedExt.Foundations.Dict
import SchedExt.Lsp.FinalDiagnostics
import SchedExt.Lsp.Responses
import SchedExt.Lsp.Session

/-!
# The documents of a session

A server that follows the notifications of a session has the text that was
given last; whether they are in the order that the protocol asks for depends on
the calls.
-/

namespace SchedExt.Lsp

open Foundations

/-! ## What a server makes of the messages -/

structure Document where
  version : Int
  text : String
  deriving DecidableEq

/-- A notification that opens or changes a document. -/
structure Notice where
  opens : Bool
  uri : String
  document : Document

/-- A text that a message has. -/
def textAt (key : String) (value : Json) : Option String :=
  match get? key value with
  | some (.str text) => some text
  | _ => none

def versionAt (value : Json) : Option Int :=
  match get? "version" value with
  | some (.int version) => some version
  | _ => none

/-- The last of the changes, each of which has the whole text. -/
def changedText (params : Json) : Option String :=
  match get? "contentChanges" params with
  | some (.arr changes) => changes.getLast?.bind (textAt "text")
  | _ => none

def notice? (msg : Json) : Option Notice := do
  let params ← get? "params" msg
  let document ← get? "textDocument" params
  let uri ← textAt "uri" document
  let version ← versionAt document
  match ← textAt "method" msg with
  | "textDocument/didOpen" => return ⟨true, uri, ⟨version, ← textAt "text" document⟩⟩
  | "textDocument/didChange" => return ⟨false, uri, ⟨version, ← changedText params⟩⟩
  | _ => none

def documents (notices : List Notice) : Dict String Document :=
  Dict.ofEntries (notices.map fun notice => (notice.uri, notice.document))

/-- A document is opened once, and every change of it has a larger version. -/
def Notice.Follows (known : Dict String Document) (notice : Notice) : Prop :=
  if notice.opens then known.get? notice.uri = none
  else ∃ document, known.get? notice.uri = some document ∧
    document.version < notice.document.version

def Orderly (notices : List Notice) : Prop :=
  ∀ before notice after, notices = before ++ notice :: after → notice.Follows (documents before)

def FileCall.notice : FileCall → Notice
  | .check uri content => ⟨true, uri, ⟨1, content⟩⟩
  | .update uri newContent => ⟨false, uri, ⟨2, newContent⟩⟩

theorem notice?_file (requestId : Int) (call : FileCall) :
    notice? (call.call.message requestId) = some call.notice := by
  cases call <;> rfl

/-- Of the calls of an event those on files are notices. -/
theorem notices_calls {dumps : Json → List Char} {loads : List UInt8 → Json.Decoded Json}
    (self : ClientSession) (event : SessionEvent) (requestId : Int) :
    (written requestId (self.calls dumps loads event)).filterMap notice? =
      event.file?.toList.map FileCall.notice := by
  cases event with
  | enter processId rootUri =>
      unfold ClientSession.calls
      dsimp only
      split <;> rfl
  | file call started times lost =>
      rw [ClientSession.calls, written, List.filterMap_cons, notice?_file]
      rfl
  | withheld => rfl
  | exit => rfl

/-- The calls on files in a history that have notified the server. -/
def fileCalls (history : List (Transition ClientSession SessionEvent)) : List FileCall :=
  history.filterMap fun taken => taken.event.file?

/-- The calls on one file. -/
def callsOn (uri : String) (calls : List FileCall) : List FileCall :=
  calls.filter fun call => call.uri = uri

theorem notices_sent {dumps : Json → List Char} {loads : List UInt8 → Json.Decoded Json}
    (history : List (Transition ClientSession SessionEvent)) :
    (sent dumps loads history).filterMap notice? = (fileCalls history).map FileCall.notice := by
  have general : ∀ requestId,
      (written requestId (history.flatMap fun taken =>
        taken.source.calls dumps loads taken.event)).filterMap notice? =
          (fileCalls history).map FileCall.notice := by
    induction history with
    | nil => exact fun _ => rfl
    | cons taken rest ih =>
        intro requestId
        rw [List.flatMap_cons, written_append, List.filterMap_append, notices_calls, ih, fileCalls,
          fileCalls, List.filterMap_cons]
        cases taken.event.file? with
        | none => rfl
        | some call => rfl
  exact general 0

theorem documents_concat (notices : List Notice) (notice : Notice) :
    documents (notices ++ [notice]) = (documents notices).set notice.uri notice.document := by
  rw [documents, List.map_append, List.map_singleton, Dict.ofEntries_concat]
  rfl

theorem callsOn_concat (uri : String) (calls : List FileCall) (call : FileCall) :
    callsOn uri (calls ++ [call]) =
      callsOn uri calls ++ if call.uri = uri then [call] else [] := by
  rw [callsOn, List.filter_append, List.filter_singleton]
  by_cases same : call.uri = uri
  · simp [same, callsOn]
  · simp [same, callsOn]

/-- A server has the text of the last call on a file. -/
theorem get?_documents (calls : List FileCall) (uri : String) :
    (documents (calls.map FileCall.notice)).get? uri =
      (callsOn uri calls).getLast?.map fun call => call.notice.document := by
  induction calls using List.reverseRecOn with
  | nil => rfl
  | append_singleton calls call ih =>
      have named : call.notice.uri = call.uri := by
        cases call <;> rfl
      rw [List.map_append, List.map_singleton, documents_concat, callsOn_concat, named]
      by_cases same : call.uri = uri
      · rw [if_pos same, same, Dict.get?_set_self, List.getLast?_concat]
        rfl
      · rw [if_neg same, Dict.get?_set_of_ne _ (Ne.symm same), ih, List.append_nil]

theorem orderly_concat (notices : List Notice) (notice : Notice) :
    Orderly (notices ++ [notice]) ↔ Orderly notices ∧ notice.Follows (documents notices) := by
  constructor
  · intro orderly
    refine ⟨fun before earlier after whole => ?_, orderly notices notice [] rfl⟩
    refine orderly before earlier (after ++ [notice]) ?_
    rw [whole, List.append_assoc]
    rfl
  · rintro ⟨orderly, follows⟩ before last after whole
    cases after using List.reverseRecOn with
    | nil =>
        obtain ⟨rfl, same⟩ := List.append_inj' whole rfl
        cases same
        exact follows
    | append_singleton after final =>
        rw [← List.cons_append, ← List.append_assoc] at whole
        obtain ⟨rfl, -⟩ := List.append_inj' whole rfl
        exact orderly before last after rfl

/-- The orders of the calls on a file, of which an update is `true`. -/
def orders : List (List Bool) := [[], [false], [false, true]]

theorem mem_orders_concat {known : List Bool} {updates : Bool} :
    known ++ [updates] ∈ orders ↔
      known ∈ orders ∧ if updates then known.getLast? = some false else known = [] := by
  match known with
  | [] => cases updates <;> decide
  | [first] => cases first <;> cases updates <;> decide
  | first :: second :: rest =>
      refine iff_of_false (fun member => ?_) ?_
      · simp [orders] at member
      · rintro ⟨member, next⟩
        simp only [orders, List.mem_cons, List.cons.injEq, reduceCtorEq, and_false,
          List.not_mem_nil, or_false, false_or] at member
        obtain ⟨rfl, rfl, rfl⟩ := member
        cases updates <;> simp at next

/-- A file is checked first and once, and then updated at most once. -/
def CheckedThenUpdated (calls : List FileCall) : Prop :=
  ∀ uri, (callsOn uri calls).map FileCall.updates ∈ orders

theorem checkedThenUpdated_concat (calls : List FileCall) (call : FileCall) :
    CheckedThenUpdated (calls ++ [call]) ↔ CheckedThenUpdated calls ∧
      if call.updates then ((callsOn call.uri calls).map FileCall.updates).getLast? = some false
      else (callsOn call.uri calls).map FileCall.updates = [] := by
  have own : (callsOn call.uri (calls ++ [call])).map FileCall.updates =
      (callsOn call.uri calls).map FileCall.updates ++ [call.updates] := by
    rw [callsOn_concat, if_pos rfl, List.map_append, List.map_singleton]
  have others : ∀ uri, call.uri ≠ uri → callsOn uri (calls ++ [call]) = callsOn uri calls := by
    intro uri apart
    rw [callsOn_concat, if_neg apart, List.append_nil]
  constructor
  · intro whole
    have here := whole call.uri
    rw [own, mem_orders_concat] at here
    refine ⟨fun uri => ?_, here.2⟩
    by_cases same : call.uri = uri
    · rw [← same]
      exact here.1
    · rw [← others uri same]
      exact whole uri
  · rintro ⟨before, next⟩ uri
    by_cases same : call.uri = uri
    · rw [← same, own, mem_orders_concat]
      exact ⟨before call.uri, next⟩
    · rw [others uri same]
      exact before uri

theorem follows_iff (calls : List FileCall) (call : FileCall) :
    call.notice.Follows (documents (calls.map FileCall.notice)) ↔
      if call.updates then ((callsOn call.uri calls).map FileCall.updates).getLast? = some false
      else (callsOn call.uri calls).map FileCall.updates = [] := by
  cases call with
  | check uri content =>
      change (documents _).get? uri = none ↔ (callsOn uri calls).map FileCall.updates = []
      rw [get?_documents, Option.map_eq_none_iff, List.getLast?_eq_none_iff, List.map_eq_nil_iff]
  | update uri newContent =>
      change (∃ document, (documents _).get? uri = some document ∧ document.version < 2) ↔
        ((callsOn uri calls).map FileCall.updates).getLast? = some false
      rw [get?_documents, List.getLast?_map]
      cases (callsOn uri calls).getLast? with
      | none => simp
      | some last => cases last <;> simp [FileCall.notice, FileCall.updates]

/-- The notices of some calls are in order when each file is updated at most once. -/
theorem orderly_notices_iff (calls : List FileCall) :
    Orderly (calls.map FileCall.notice) ↔ CheckedThenUpdated calls := by
  induction calls using List.reverseRecOn with
  | nil =>
      refine iff_of_true (fun before notice after whole => ?_) fun _ => by simp [callsOn, orders]
      exact absurd whole.symm (List.append_ne_nil_of_right_ne_nil _ (List.cons_ne_nil _ _))
  | append_singleton calls call ih =>
      rw [List.map_append, List.map_singleton, orderly_concat, ih, follows_iff,
        checkedThenUpdated_concat]

/-! ## Whole sessions -/

section Sessions

variable {dumps : Json → List Char} {loads : List UInt8 → Json.Decoded Json}
variable {stdout : List UInt8} {state : ClientSession}
variable {history : List (Transition ClientSession SessionEvent)}

/--
Whatever the server answers, and whatever is raised: a server that reads what
was written reads the messages of the session and nothing else, and then has for
every file the text of the last call on it that has notified the server.  The
session opens each file once, and changes it under growing versions, exactly when
each file is checked before all else, once, and updated at most once.
-/
theorem documents_of_run (run : Run (SessionStep dumps loads) (.begun stdout) history state) :
    ((∀ msg ∈ sent dumps loads history,
        loads (Encoding.encode (dumps msg)) = .ok msg ∧ Encoding.Ascii (dumps msg)) →
      ∀ server : Process,
        (readMessages loads (sent dumps loads history).length).run
            { server with stdout := state.client.process.stdin } =
          (.ok (sent dumps loads history), { server with stdout := [] })) ∧
      (∀ uri, (documents ((sent dumps loads history).filterMap notice?)).get? uri =
        (callsOn uri (fileCalls history)).getLast?.map fun call => call.notice.document) ∧
      (Orderly ((sent dumps loads history).filterMap notice?) ↔
        CheckedThenUpdated (fileCalls history)) := by
  refine ⟨fun readable server => ?_, fun uri => ?_, ?_⟩
  · have read := run_readMessages (fun msg member => (readable msg member).1)
      (fun msg member => (readable msg member).2) server []
    rw [List.append_nil, ← (written_of_run run).1] at read
    exact read
  · rw [notices_sent, get?_documents]
  · rw [notices_sent, orderly_notices_iff]

end Sessions

/-! ## A file that is updated twice -/

def requestHead (id : Char) (method : String) : List Char :=
  "\x7b\"jsonrpc\": \"2.0\", \"id\": ".toList ++ id :: ", \"method\": \"".toList ++
    method.toList ++ "\", \"params\": \x7b".toList

def fileHead (method : String) : List Char :=
  "\x7b\"jsonrpc\": \"2.0\", \"method\": \"textDocument/".toList ++ method.toList ++
    "\", \"params\": \x7b".toList ++ fileText

/-- `json.dumps` of the requests of a session, which is in the root directory. -/
def requestDumps (id : Int) (method : String) : List Char :=
  if id = 1 then requestHead '1' method ++
    "\"processId\": 7, \"capabilities\": \x7b\x7d, \"rootUri\": \"file:///\"\x7d\x7d".toList
  else requestHead (if id = 2 then '2' else '3') method ++ "\x7d\x7d".toList

/-- `json.dumps` of the notices of a session on one file. -/
def documentDumps (opens : Bool) (text : String) : List Char :=
  if opens then fileHead "didOpen" ++
    "\"languageId\": \"dafny\", \"version\": 1, \"text\": \"".toList ++ text.toList ++
      "\"\x7d\x7d\x7d".toList
  else fileHead "didChange" ++
    "\"version\": 2\x7d, \"contentChanges\": [\x7b\"text\": \"".toList ++ text.toList ++
      "\"\x7d]\x7d\x7d".toList

/-- `json.dumps` of what the client writes in a session, and the server. -/
def exchangeDumps (msg : Json) : List Char :=
  match get? "id" msg, textAt "method" msg, notice? msg with
  | some (.int id), some method, _ => requestDumps id method
  | some (.int id), none, _ => resultText (if id = 1 then '1' else '2')
  | _, _, some ⟨opens, _, document⟩ => documentDumps opens document.text
  | _, _, none => noticeDumps msg

/-- `json.loads` of the texts of known messages. -/
def exchangeLoads (known : List Json) (body : List UInt8) : Json.Decoded Json :=
  match known.find? fun msg => Encoding.encode (exchangeDumps msg) = body with
  | some msg => .ok msg
  | none => .error (.valueError "Expecting value")

/-- Texts that differ are read back. -/
theorem exchangeLoads_exchangeDumps {known : List Json} {msg : Json}
    (distinct : (known.map fun msg => Encoding.encode (exchangeDumps msg)).Nodup)
    (member : msg ∈ known) :
    exchangeLoads known (Encoding.encode (exchangeDumps msg)) = .ok msg := by
  have found : known.find? (fun other =>
      Encoding.encode (exchangeDumps other) = Encoding.encode (exchangeDumps msg)) = some msg := by
    obtain ⟨before, after, whole⟩ := List.append_of_mem member
    rw [whole, List.map_append, List.map_cons] at distinct
    have apart := (List.nodup_middle.mp distinct).notMem
    refine List.find?_eq_some_iff_append.mpr
      ⟨decide_eq_true rfl, before, after, whole, fun other earlier => ?_⟩
    refine Bool.not_eq_true' _ |>.mpr (decide_eq_false fun same => apart ?_)
    exact List.mem_append_left _ (List.mem_map.mpr ⟨other, earlier, same⟩)
  rw [exchangeLoads, found]

def editedFile : List FileCall :=
  [.check "file:///a.dfy" "a", .update "file:///a.dfy" "b", .update "file:///a.dfy" "c"]

def editedMessages : List Json :=
  written 0 (aenter 7 "file:///" ++ editedFile.map FileCall.call)

def editedLoads : List UInt8 → Json.Decoded Json :=
  exchangeLoads (editedMessages ++ [result 1, result 2])

theorem editedLoads_exchangeDumps {msg : Json}
    (member : msg ∈ editedMessages ++ [result 1, result 2]) :
    editedLoads (Encoding.encode (exchangeDumps msg)) = .ok msg ∧
      Encoding.Ascii (exchangeDumps msg) := by
  have distinct : ((editedMessages ++ [result 1, result 2]).map fun msg =>
      Encoding.encode (exchangeDumps msg)).Nodup := by decide +kernel
  have plain : ∀ text ∈ (editedMessages ++ [result 1, result 2]).map exchangeDumps,
      Encoding.Ascii text := by decide +kernel
  exact ⟨exchangeLoads_exchangeDumps distinct member, plain _ (List.mem_map_of_mem member)⟩

/-- The session, to which the server answers twice. -/
def editing : ClientSession := .begun ([result 1, result 2].flatMap (frame exchangeDumps))

theorem carries_editing :
    Carries editedLoads editing.client.process.stdout [result 1, result 2] :=
  carries_frames fun msg member => by
    obtain ⟨inverts, ascii⟩ :=
      editedLoads_exchangeDumps (List.mem_append_right editedMessages member)
    exact framed_frame inverts ascii

theorem calls_editing :
    editing.calls exchangeDumps editedLoads (.enter 7 "file:///") = aenter 7 "file:///" :=
  ClientSession.calls_enter _ _ carries_editing (Nat.le_refl 2)

/-- The server closes its pipe after two answers, so the first call raises where it reads. -/
def editedEvents : List SessionEvent :=
  [.enter 7 "file:///", .file (.check "file:///a.dfy" "a") 0 [1] .nothing, .withheld,
    .file (.update "file:///a.dfy" "b") 0 [] .nothing,
    .file (.update "file:///a.dfy" "c") 0 [] .nothing]

def editedHistory : List (Transition ClientSession SessionEvent) :=
  trace (ClientSession.perform exchangeDumps editedLoads) editing editedEvents

theorem editing_run : Run (SessionStep exchangeDumps editedLoads) editing editedHistory
    (editedEvents.foldl (ClientSession.perform exchangeDumps editedLoads) editing) := by
  have entered := @ClientSession.phase_enter exchangeDumps editedLoads _ editing 7 "file:///"
    carries_editing (Nat.le_refl 2)
  have kept {self : ClientSession} (call : FileCall) (times : List Rat)
      (running : self.phase = .running) :
      (self.perform exchangeDumps editedLoads (.file call 0 times .nothing)).phase = .running :=
    (self.phase_file call 0 times .nothing).trans running
  have idle {self : ClientSession} (running : self.phase = .running) :
      (self.perform exchangeDumps editedLoads .withheld).phase = .running :=
    self.phase_withheld.trans running
  have caught := kept (.check "file:///a.dfy" "a") [1] entered
  refine @Run.of_trace _ _ _ _ _ ClientSession.Allows (fun _ _ allowed => ⟨allowed, rfl⟩) _ ?_
  unfold editedEvents
  simp only [trace, List.forall_mem_cons]
  exact ⟨rfl, entered, caught, idle caught, kept _ _ (idle caught),
    fun _ impossible => absurd impossible List.not_mem_nil⟩

theorem sent_editing : sent exchangeDumps editedLoads editedHistory = editedMessages := by
  unfold sent editedHistory editedEvents
  simp only [trace, List.flatMap_cons, List.flatMap_nil]
  rw [calls_editing]
  rfl

/-- Both updates have version 2. -/
theorem editing_documents :
    (readMessages editedLoads 5).run ⟨[],
        (editedEvents.foldl (ClientSession.perform exchangeDumps editedLoads)
          editing).client.process.stdin⟩ = (.ok editedMessages, ⟨[], []⟩) ∧
      (documents (editedMessages.filterMap notice?)).get? "file:///a.dfy" = some ⟨2, "c"⟩ ∧
      ¬ Orderly (editedMessages.filterMap notice?) := by
  obtain ⟨read, known, order⟩ := documents_of_run editing_run
  rw [sent_editing] at read known order
  refine ⟨?_, known "file:///a.dfy", fun orderly => ?_⟩
  · exact read (fun msg member =>
      editedLoads_exchangeDumps (List.mem_append_left _ member)) ⟨[], []⟩
  · exact absurd (order.mp orderly "file:///a.dfy") (by decide)

end SchedExt.Lsp
