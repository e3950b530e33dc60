import SchedExt.Lsp.Framing

/-!
# The client of the language server

A request is written with an id of its own, and the next message of the server
is returned for it.  A notification is only written.
-/

namespace SchedExt.Lsp

open Foundations

/-- `document.get(key)` of an object -/
def get? (key : String) : Json → Option Json
  | .obj fields => fields.lookup key
  | _ => none

/-- The pipes of a session and the id of its last request. -/
structure DafnyLSPClient where
  process : Process
  requestId : Int

/-- A call that writes a message. -/
inductive Call where
  | send (method : String) (params : Json)
  | notify (method : String) (params : Json)

/-- The methods of the requests among some calls. -/
def methods : List Call → List String
  | [] => []
  | .send method _ :: rest => method :: methods rest
  | .notify _ _ :: rest => methods rest

/-- The calls of `__aenter__` -/
def aenter (processId : Int) (rootUri : String) : List Call :=
  [.send "initialize" (.obj [
      ("processId", .int processId), ("capabilities", .obj []), ("rootUri", .str rootUri)]),
    .send "initialized" (.obj [])]

/-- The calls of `__aexit__` -/
def aexit : List Call := [.send "shutdown" (.obj [])]

/-- The calls of a whole session, with those of its body. -/
def session (processId : Int) (rootUri : String) (body : List Call) : List Call :=
  aenter processId rootUri ++ body ++ aexit

namespace DafnyLSPClient

section Calls

variable (dumps : Json → List Char) (loads : List UInt8 → Json.Decoded Json)

/-- The id of a request, and what the call for it returned or raised. -/
abbrev Reply := Int × Except Fault (Option Json)

/-- `_send` -/
def send (self : DafnyLSPClient) (method : String) (params : Json) : Reply × DafnyLSPClient :=
  let requestId := self.requestId + 1
  let msg := .obj [
    ("jsonrpc", .str "2.0"), ("id", .int requestId), ("method", .str method), ("params", params)]
  let (returned, process) := (writeMessage dumps loads msg true).run self.process
  ((requestId, returned), ⟨process, requestId⟩)

/-- `_notify` -/
def notify (self : DafnyLSPClient) (method : String) (params : Json) : DafnyLSPClient :=
  let msg := .obj [("jsonrpc", .str "2.0"), ("method", .str method), ("params", params)]
  { self with process := ((writeMessage dumps loads msg false).run self.process).2 }

/-- Calls that are made one after the other. -/
def perform (self : DafnyLSPClient) : List Call → List Reply × DafnyLSPClient
  | [] => ([], self)
  | .send method params :: rest =>
      let (reply, after) := self.send dumps loads method params
      let (replies, last) := after.perform rest
      (reply :: replies, last)
  | .notify method params :: rest => (self.notify dumps loads method params).perform rest

end Calls

end DafnyLSPClient

/-- `msg.get("method") == "textDocument/publishDiagnostics"` -/
def publishes (msg : Json) : Bool :=
  match get? "method" msg with
  | some (.str method) => method == "textDocument/publishDiagnostics"
  | _ => false

/-! ## The stream of the server -/

/-- Bytes that are read as one message, whatever follows them. -/
def Framed (loads : List UInt8 → Json.Decoded Json) (bytes : List UInt8) (msg : Json) : Prop :=
  ∀ (process : Process) (rest : List UInt8),
    (readMessage loads).run { process with stdout := bytes ++ rest } =
      (.ok msg, { process with stdout := rest })

/-- Bytes that are a sequence of messages. -/
inductive Carries (loads : List UInt8 → Json.Decoded Json) : List UInt8 → List Json → Prop where
  | nil : Carries loads [] []
  | cons {bytes rest : List UInt8} {msg : Json} {later : List Json}
      (framed : Framed loads bytes msg) (carried : Carries loads rest later) :
      Carries loads (bytes ++ rest) (msg :: later)

section Frames

variable {dumps : Json → List Char} {loads : List UInt8 → Json.Decoded Json}

theorem framed_frame {msg : Json} (inverts : loads (Encoding.encode (dumps msg)) = .ok msg)
    (ascii : Encoding.Ascii (dumps msg)) : Framed loads (frame dumps msg) msg :=
  fun process rest => run_readMessage inverts ascii process rest

theorem carries_frames {messages : List Json}
    (framed : ∀ msg ∈ messages, Framed loads (frame dumps msg) msg) :
    Carries loads (messages.flatMap (frame dumps)) messages := by
  induction messages with
  | nil => exact .nil
  | cons msg later ih =>
      obtain ⟨here, there⟩ := List.forall_mem_cons.mp framed
      rw [List.flatMap_cons]
      exact .cons here (ih there)

theorem not_framed_nil {msg : Json} : ¬ Framed loads [] msg := by
  intro framed
  have read := framed ⟨[], []⟩ []
  cases read

/-- Bytes are one sequence of messages only. -/
theorem Carries.unique {bytes : List UInt8} {first second : List Json}
    (one : Carries loads bytes first) (other : Carries loads bytes second) : first = second := by
  induction one generalizing second with
  | nil =>
      generalize empty : ([] : List UInt8) = nothing at other
      cases other with
      | nil => rfl
      | cons framed _ =>
          obtain ⟨rfl, _⟩ := List.append_eq_nil_iff.mp empty.symm
          exact absurd framed not_framed_nil
  | cons framed carried ih =>
      rename_i front back msg later
      generalize whole : front ++ back = bytes at other
      cases other with
      | nil =>
          obtain ⟨rfl, _⟩ := List.append_eq_nil_iff.mp whole
          exact absurd framed not_framed_nil
      | cons framed' carried' =>
          rename_i front' back' msg' later'
          have read := framed ⟨[], []⟩ back
          rw [whole, framed' ⟨[], []⟩ back'] at read
          obtain ⟨rfl, rfl⟩ : msg' = msg ∧ back' = back := by
            injection read with messages processes
            injection messages with same
            injection processes with _ streams
            exact ⟨same, streams⟩
          rw [ih carried']

end Frames

/-! ## What a request reads -/

namespace DafnyLSPClient

variable {dumps : Json → List Char} {loads : List UInt8 → Json.Decoded Json}
variable {self : DafnyLSPClient}

theorem requestId_send (method : String) (params : Json) :
    (self.send dumps loads method params).2.requestId = self.requestId + 1 := rfl

/-- A request returns the message that comes first, and leaves the others. -/
theorem send_of_framed {bytes rest : List UInt8} {msg : Json} (framed : Framed loads bytes msg)
    (first : self.process.stdout = bytes ++ rest) (method : String) (params : Json) :
    (self.send dumps loads method params).1 = (self.requestId + 1, .ok (some msg)) ∧
      (self.send dumps loads method params).2.process.stdout = rest := by
  have read (process : Process) (here : process.stdout = bytes ++ rest) :
      (readMessage loads).run process = (.ok msg, { process with stdout := rest }) := by
    rw [← framed process rest, ← here]
  unfold send
  dsimp only
  rw [run_writeMessage_response _ (read _ first)]
  exact ⟨rfl, rfl⟩

/-- With nothing to read, a request returns no message. -/
theorem send_of_nil (nothing : self.process.stdout = []) (method : String) (params : Json) :
    (self.send dumps loads method params).1 = (self.requestId + 1, .error .indexError) := by
  unfold send
  dsimp only
  rw [run_writeMessage_closed _ nothing]

/-- The `n`-th request returns the `n`-th message. -/
theorem replies_iff {messages : List Json} (calls : List Call)
    (carried : Carries loads self.process.stdout messages) :
    (∀ reply ∈ (self.perform dumps loads calls).1,
        ∃ msg, reply.2 = .ok (some msg) ∧ get? "id" msg = some (.int reply.1)) ↔
      ∀ request < (methods calls).length, ∃ msg, messages[request]? = some msg ∧
        get? "id" msg = some (.int (self.requestId + 1 + request)) := by
  induction calls generalizing self messages with
  | nil => exact iff_of_true (fun _ member => nomatch member) fun _ short => nomatch short
  | cons call rest ih =>
      cases call with
      | notify method params => exact ih carried
      | send method params =>
          rw [perform, methods, List.length_cons, Nat.forall_lt_succ_left]
          dsimp only
          rw [List.forall_mem_cons]
          generalize stream : self.process.stdout = bytes at carried
          cases carried with
          | nil =>
              rw [send_of_nil stream]
              refine iff_of_false ?_ ?_
              · rintro ⟨⟨msg, impossible, _⟩, _⟩
                cases impossible
              · rintro ⟨⟨msg, impossible, _⟩, _⟩
                cases impossible
          | cons framed carried =>
              rename_i front back msg later
              obtain ⟨reply, left⟩ := send_of_framed framed stream method params
              rw [← left] at carried
              rw [ih carried, reply, requestId_send]
              have here : (∃ response, (Except.ok (some msg) : Except Fault (Option Json)) =
                    .ok (some response) ∧ get? "id" response = some (.int (self.requestId + 1))) ↔
                  ∃ response, (msg :: later)[0]? = some response ∧
                    get? "id" response = some (.int (self.requestId + 1 + (0 : Nat))) := by
                rw [Int.natCast_zero, Int.add_zero]
                simp only [Except.ok.injEq, Option.some.injEq, List.getElem?_cons_zero]
              refine and_congr here (forall_congr' fun request => ?_)
              rw [List.getElem?_cons_succ, Int.natCast_succ, Int.add_right_comm, Int.add_assoc]

/-- As many messages are read as requests are sent. -/
theorem carries_perform {messages : List Json} (calls : List Call)
    (carried : Carries loads self.process.stdout messages)
    (enough : (methods calls).length ≤ messages.length) :
    Carries loads (self.perform dumps loads calls).2.process.stdout
      (messages.drop (methods calls).length) := by
  induction calls generalizing self messages with
  | nil => exact carried
  | cons call rest ih =>
      cases call with
      | notify method params => exact ih carried enough
      | send method params =>
          generalize stream : self.process.stdout = bytes at carried
          cases carried with
          | nil => cases enough
          | cons framed carried =>
              obtain ⟨_, left⟩ := send_of_framed framed stream method params
              rw [← left] at carried
              exact ih carried (Nat.le_of_succ_le_succ enough)

end DafnyLSPClient

end SchedExt.Lsp
