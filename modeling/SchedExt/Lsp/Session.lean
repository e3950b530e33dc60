import SchedExt.Foundations.Run
import SchedExt.Lsp.Diagnostics

/-!
# Sessions of the client

A session writes the requests of its beginning and its end, and a notification
for every file that is checked or updated.  What it writes depends on the calls
alone, save that a request of its beginning that raises ends the session, and a
call whose file cannot be read or written raises before it writes.
-/

namespace SchedExt.Lsp

open Foundations

/-! ## What calls write -/

/-- What a call writes after some requests. -/
def Call.message (requestId : Int) : Call → Json
  | .send method params => .obj [
      ("jsonrpc", .str "2.0"), ("id", .int (requestId + 1)), ("method", .str method),
      ("params", params)]
  | .notify method params => .obj [
      ("jsonrpc", .str "2.0"), ("method", .str method), ("params", params)]

/-- The id of the last request once a call is made. -/
def Call.lastId (requestId : Int) : Call → Int
  | .send _ _ => requestId + 1
  | .notify _ _ => requestId

def written (requestId : Int) : List Call → List Json
  | [] => []
  | call :: rest => call.message requestId :: written (call.lastId requestId) rest

def lastId (requestId : Int) (calls : List Call) : Int := calls.foldl Call.lastId requestId

theorem written_append (requestId : Int) (first second : List Call) :
    written requestId (first ++ second) =
      written requestId first ++ written (lastId requestId first) second := by
  induction first generalizing requestId with
  | nil => rfl
  | cons call rest ih =>
      rw [List.cons_append, written, ih, written, List.cons_append]
      rfl

/-- A coroutine that writes nothing. -/
def OnlyReads {Value : Type} (call : Client Value) : Prop :=
  ∀ process, (call.run process).2.stdin = process.stdin

theorem OnlyReads.bind {Value Next : Type} {call : Client Value} {next : Value → Client Next}
    (first : OnlyReads call) (later : ∀ value, OnlyReads (next value)) :
    OnlyReads (call >>= next) := by
  intro process
  have here := first process
  cases ran : call.run process with
  | mk result after =>
      rw [ran] at here
      cases result with
      | error fault =>
          rw [Client.run_bind_error ran]
          exact here
      | ok value =>
          rw [Client.run_bind ran]
          exact (later value after).trans here

theorem OnlyReads.ofExcept {Value : Type} (result : Except Fault Value) :
    OnlyReads (ofExcept result : Client Value) := by
  intro process
  cases result <;> rfl

theorem OnlyReads.readexactly (count : Int) : OnlyReads (readexactly count) := by
  intro process
  unfold Lsp.readexactly
  split
  · rfl
  · rw [Client.run_bind (Client.run_get process)]
    split <;> rfl

section Calls

variable {dumps : Json → List Char} {loads : List UInt8 → Json.Decoded Json}

theorem OnlyReads.readMessage : OnlyReads (readMessage loads) :=
  .bind (fun _ => rfl) fun _ => .bind (.ofExcept _) fun _ => .bind (fun _ => rfl) fun _ =>
    .bind (.readexactly _) fun _ => .ofExcept _

namespace DafnyLSPClient

variable {self : DafnyLSPClient}

theorem stdin_send (method : String) (params : Json) :
    (self.send dumps loads method params).2.process.stdin =
      self.process.stdin ++ frame dumps ((Call.send method params).message self.requestId) := by
  unfold send writeMessage
  dsimp only
  rw [Client.run_bind (Client.run_modify _ self.process), if_pos rfl]
  exact OnlyReads.bind .readMessage (fun _ _ => rfl) _

/-- Whatever the server answers, the calls write their messages. -/
theorem perform_writes (calls : List Call) :
    (self.perform dumps loads calls).2.process.stdin =
        self.process.stdin ++ (written self.requestId calls).flatMap (frame dumps) ∧
      (self.perform dumps loads calls).2.requestId = lastId self.requestId calls := by
  induction calls generalizing self with
  | nil => exact ⟨(List.append_nil _).symm, rfl⟩
  | cons call rest ih =>
      cases call with
      | send method params =>
          obtain ⟨stdin, requestId⟩ := @ih (self.send dumps loads method params).2
          refine ⟨?_, requestId⟩
          rw [written, List.flatMap_cons, ← List.append_assoc, ← @stdin_send dumps loads self]
          exact stdin
      | notify method params =>
          obtain ⟨stdin, requestId⟩ := @ih (self.notify dumps loads method params)
          refine ⟨?_, requestId⟩
          rw [written, List.flatMap_cons, ← List.append_assoc]
          exact stdin

end DafnyLSPClient

theorem stdin_without (process : Process) (lost : Loss) :
    (process.without lost).stdin = process.stdin := by
  cases lost <;> rfl

theorem stdin_collectDiagnostics (uri : String) (deadline : Rat) (lost : Loss)
    (times : List Rat) (process : Process) :
    (collectDiagnostics loads uri deadline lost times process).2.stdin = process.stdin := by
  induction times generalizing process with
  | nil => exact stdin_without process lost
  | cons time times ih =>
      rw [collectDiagnostics]
      split
      · have reads := @OnlyReads.readMessage loads process
        cases ran : (readMessage loads).run process with
        | mk result after =>
            rw [ran] at reads
            have later := (ih after).trans reads
            split
            · rename_i same
              cases same
              exact reads
            · rename_i same
              cases same
              split
              · exact reads
              · exact later
              · split
                · exact later
                · exact reads
            · rename_i same
              cases same
              exact reads
      · rfl

end Calls

/-! ## Sessions -/

/-- A call of `check_file` on a file with some content, or of `update_file`. -/
inductive FileCall where
  | check (uri content : String)
  | update (uri newContent : String)

namespace FileCall

def uri : FileCall → String
  | .check uri _ => uri
  | .update uri _ => uri

def updates : FileCall → Bool
  | .check _ _ => false
  | .update _ _ => true

def call : FileCall → Call
  | .check uri content => didOpen uri content
  | .update uri newContent => didChange uri newContent

end FileCall

/-- Before `__aenter__`, in the body, and once `__aexit__` is called or `__aenter__` has raised. -/
inductive SessionPhase where
  | fresh
  | running
  | closed
  deriving DecidableEq

structure ClientSession where
  client : DafnyLSPClient
  phase : SessionPhase

/--
A call on a file that notifies the server has the times at which its reads begin,
and what is lost if the last one times out; the file of one that is withheld
could not be read or written.
-/
inductive SessionEvent where
  | enter (processId : Int) (rootUri : String)
  | file (call : FileCall) (started : Rat) (times : List Rat) (lost : Loss)
  | withheld
  | exit

def SessionEvent.file? : SessionEvent → Option FileCall
  | .file call _ _ _ => some call
  | _ => none

section Sessions

variable (dumps : Json → List Char) (loads : List UInt8 → Json.Decoded Json)

namespace ClientSession

/-- Nothing is written, and the server will answer with some bytes. -/
def begun (stdout : List UInt8) : ClientSession := ⟨⟨⟨[], stdout⟩, 0⟩, .fresh⟩

/-- Every request has returned. -/
def returned (replies : List DafnyLSPClient.Reply) : Bool :=
  replies.all fun reply => reply.2.isOk

/-- The calls that are made; `__aenter__` ends with the first that raises. -/
def calls (self : ClientSession) : SessionEvent → List Call
  | .enter processId rootUri =>
      let first := (aenter processId rootUri).take 1
      if returned (self.client.perform dumps loads first).1 then aenter processId rootUri
      else first
  | .file call _ _ _ => [call.call]
  | .withheld => []
  | .exit => aexit

def perform (self : ClientSession) (event : SessionEvent) : ClientSession :=
  match event with
  | .enter _ _ =>
      let (replies, client) := self.client.perform dumps loads (self.calls dumps loads event)
      ⟨client, if returned replies then .running else .closed⟩
  | .file (.check uri content) started times lost =>
      let (_, process) := self.client.checkFile dumps loads uri content started times lost
      { self with client := { self.client with process := process } }
  | .file (.update uri newContent) started times lost =>
      let (_, process) := self.client.updateFile dumps loads uri newContent started times lost
      { self with client := { self.client with process := process } }
  | .withheld => self
  | .exit => ⟨(self.client.perform dumps loads aexit).2, .closed⟩

/-- The events that a phase allows; the body may go on after a call that has raised. -/
def Allows (self : ClientSession) : SessionEvent → Prop
  | .enter _ _ => self.phase = .fresh
  | .file _ _ _ _ => self.phase = .running
  | .withheld => self.phase = .running
  | .exit => self.phase = .running

end ClientSession

def SessionStep (before : ClientSession) (event : SessionEvent) (after : ClientSession) : Prop :=
  before.Allows event ∧ after = before.perform dumps loads event

/-- The messages of a history. -/
def sent (history : List (Transition ClientSession SessionEvent)) : List Json :=
  written 0 (history.flatMap fun taken => taken.source.calls dumps loads taken.event)

variable {dumps loads}
variable {stdout : List UInt8} {state : ClientSession}
variable {history : List (Transition ClientSession SessionEvent)}

theorem ClientSession.perform_writes (before : ClientSession) (event : SessionEvent) :
    (before.perform dumps loads event).client.process.stdin =
        before.client.process.stdin ++
          (written before.client.requestId (before.calls dumps loads event)).flatMap
            (frame dumps) ∧
      (before.perform dumps loads event).client.requestId =
        lastId before.client.requestId (before.calls dumps loads event) := by
  cases event with
  | enter processId rootUri => exact DafnyLSPClient.perform_writes _
  | file call started times lost =>
      cases call with
      | check uri content =>
          have opened := @DafnyLSPClient.perform_writes dumps loads before.client
            [didOpen uri content]
          exact ⟨(stdin_collectDiagnostics uri (started + 300) lost times _).trans opened.1, rfl⟩
      | update uri newContent =>
          have changed := @DafnyLSPClient.perform_writes dumps loads before.client
            [didChange uri newContent]
          exact ⟨(stdin_collectDiagnostics uri (started + 300) lost times _).trans changed.1, rfl⟩
  | withheld => exact ⟨(List.append_nil _).symm, rfl⟩
  | exit => exact DafnyLSPClient.perform_writes _

/-- The body goes on after a call on a file. -/
theorem ClientSession.phase_file (before : ClientSession) (call : FileCall) (started : Rat)
    (times : List Rat) (lost : Loss) :
    (before.perform dumps loads (.file call started times lost)).phase = before.phase := by
  cases call <;> rfl

theorem ClientSession.phase_withheld (before : ClientSession) :
    (before.perform dumps loads .withheld).phase = before.phase := rfl

theorem written_of_run (run : Run (SessionStep dumps loads) (.begun stdout) history state) :
    state.client.process.stdin = (sent dumps loads history).flatMap (frame dumps) ∧
      state.client.requestId =
        lastId 0 (history.flatMap fun taken => taken.source.calls dumps loads taken.event) := by
  induction run with
  | refl => exact ⟨rfl, rfl⟩
  | @tail history state next event earlier last ih =>
      obtain ⟨-, rfl⟩ := last
      obtain ⟨stdin, requestId⟩ := ih
      obtain ⟨more, later⟩ := @ClientSession.perform_writes dumps loads state event
      rw [sent, List.flatMap_append, written_append, List.flatMap_append, List.flatMap_singleton,
        ← requestId]
      refine ⟨more.trans ?_, later.trans ?_⟩
      · rw [stdin]
        rfl
      · rw [requestId, lastId, lastId, lastId, List.foldl_append]

end Sessions

/-! ## What the requests return -/

section Replies

variable {dumps : Json → List Char} {loads : List UInt8 → Json.Decoded Json}
variable {self : DafnyLSPClient} {messages : List Json}

/-- Requests return the messages that come first, one each. -/
theorem DafnyLSPClient.replies_perform (calls : List Call)
    (carried : Carries loads self.process.stdout messages)
    (enough : (methods calls).length ≤ messages.length) :
    (self.perform dumps loads calls).1.map Prod.snd =
      (messages.take (methods calls).length).map fun msg => .ok (some msg) := by
  induction calls generalizing self messages with
  | nil => rfl
  | cons call rest ih =>
      cases call with
      | notify method params => exact ih carried enough
      | send method params =>
          generalize stream : self.process.stdout = bytes at carried
          cases carried with
          | nil => cases enough
          | cons framed carried =>
              obtain ⟨reply, left⟩ := @send_of_framed dumps loads self _ _ _ framed stream method
                params
              rw [← left] at carried
              have later := ih carried (Nat.le_of_succ_le_succ enough)
              rw [perform]
              dsimp only
              rw [List.map_cons, later, reply]
              rfl

theorem returned_of_carries (calls : List Call)
    (carried : Carries loads self.process.stdout messages)
    (enough : (methods calls).length ≤ messages.length) :
    ClientSession.returned (self.perform dumps loads calls).1 = true := by
  refine List.all_eq_true.mpr fun reply member => ?_
  have inside : reply.2 ∈ (self.perform dumps loads calls).1.map Prod.snd :=
    List.mem_map_of_mem member
  rw [DafnyLSPClient.replies_perform calls carried enough] at inside
  obtain ⟨msg, -, same⟩ := List.mem_map.mp inside
  rw [← same]
  rfl

/-- With two messages to read, `__aenter__` makes both of its requests. -/
theorem ClientSession.calls_enter {before : ClientSession} (processId : Int) (rootUri : String)
    (carried : Carries loads before.client.process.stdout messages)
    (enough : 2 ≤ messages.length) :
    before.calls dumps loads (.enter processId rootUri) = aenter processId rootUri := by
  have first := @returned_of_carries dumps loads before.client messages
    ((aenter processId rootUri).take 1) carried (Nat.le_of_succ_le enough)
  unfold ClientSession.calls
  dsimp only
  rw [if_pos first]

theorem ClientSession.phase_enter {before : ClientSession} (processId : Int) (rootUri : String)
    (carried : Carries loads before.client.process.stdout messages)
    (enough : 2 ≤ messages.length) :
    (before.perform dumps loads (.enter processId rootUri)).phase = .running := by
  have both := @returned_of_carries dumps loads before.client messages (aenter processId rootUri)
    carried enough
  unfold ClientSession.perform
  dsimp only
  rw [calls_enter processId rootUri carried enough, if_pos both]

end Replies

end SchedExt.Lsp
