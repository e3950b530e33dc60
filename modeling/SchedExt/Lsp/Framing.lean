import SchedExt.Foundations.Encoding
import SchedExt.Foundations.Json
import SchedExt.Foundations.Text

/-!
# Messages to and from the language server

A message is written as a header and a body.  The header announces the number
of characters of the body, and the reader takes as many bytes; the two agree on
ASCII bodies, so a stream of messages is read back message by message.
-/

namespace SchedExt.Lsp

open Foundations

/-- An exception raised while a message is read. -/
inductive Fault where
  | unicodeDecodeError
  | indexError
  | valueError
  | incompleteReadError (received : List UInt8) (expected : Int)
  | document (fault : Json.Fault)

/-- The pipes of the server: what was written to it, and what it has still to be read. -/
structure Process where
  stdin : List UInt8
  stdout : List UInt8

/-- A coroutine of the client. -/
abbrev Client := ExceptT Fault (StateM Process)

namespace Client

variable {Value Next : Type}

/-- What a coroutine returns or raises, and the pipes after it. -/
def run (call : Client Value) (process : Process) : Except Fault Value × Process :=
  StateT.run (ExceptT.run call) process

theorem run_pure (value : Value) (process : Process) :
    run (pure value) process = (.ok value, process) := rfl

theorem run_get (process : Process) : run get process = (.ok process, process) := rfl

theorem run_set (process after : Process) : run (set after) process = (.ok (), after) := rfl

theorem run_modify (change : Process → Process) (process : Process) :
    run (modify change) process = (.ok (), change process) := rfl

theorem run_ofExcept (value : Value) (process : Process) :
    run (ofExcept (.ok value : Except Fault Value)) process = (.ok value, process) := rfl

/-- A coroutine goes on with what the first call returned. -/
theorem run_bind {call : Client Value} {process after : Process} {value : Value}
    (first : run call process = (.ok value, after)) (next : Value → Client Next) :
    run (call >>= next) process = run (next value) after := by
  unfold run at first ⊢
  rw [ExceptT.run_bind, StateT.run_bind, first]
  rfl

/-- A coroutine ends with what the first call raised. -/
theorem run_bind_error {call : Client Value} {process after : Process} {fault : Fault}
    (first : run call process = (.error fault, after)) (next : Value → Client Next) :
    run (call >>= next) process = (.error fault, after) := by
  unfold run at first ⊢
  rw [ExceptT.run_bind, StateT.run_bind, first]
  rfl

end Client

/-- `readline` -/
def readline : Client (List UInt8) :=
  modifyGet fun process =>
    let (line, rest) := Encoding.takeLine process.stdout
    (line, { process with stdout := rest })

/-- `readexactly` -/
def readexactly (count : Int) : Client (List UInt8) := do
  if count < 0 then
    throw .valueError
  else
    let process ← get
    if process.stdout.length < count then
      set { process with stdout := [] }
      throw (.incompleteReadError process.stdout count)
    else
      set { process with stdout := process.stdout.drop count.toNat }
      return process.stdout.take count.toNat

/-- `int(header.decode().split(":")[1].strip())` -/
def contentLength (header : List UInt8) : Except Fault Int :=
  match Encoding.decode header with
  | none => .error .unicodeDecodeError
  | some text =>
      match (text.splitOn ':')[1]? with
      | none => .error .indexError
      | some field =>
          match Encoding.readInt (Text.strip id field) with
          | none => .error .valueError
          | some length => .ok length

section Messages

variable (dumps : Json → List Char) (loads : List UInt8 → Json.Decoded Json)

/-- `_read_message` -/
def readMessage : Client Json := do
  let header ← readline
  let length ← ofExcept (contentLength header)
  let _ ← readline
  let body ← readexactly length
  ofExcept ((loads body).mapError .document)

/-- `(header + body).encode()` -/
def frame (msg : Json) : List UInt8 :=
  let body := dumps msg
  let header := "Content-Length: ".toList ++ Nat.toDigits 10 body.length ++ "\r\n\r\n".toList
  Encoding.encode (header ++ body)

/-- `_write_message` -/
def writeMessage (msg : Json) (expectResponse : Bool) : Client (Option Json) := do
  modify fun process => { process with stdin := process.stdin ++ frame dumps msg }
  if expectResponse then
    let response ← readMessage loads
    return some response
  else
    return none

/-- Messages written one after the other, none of them with a response. -/
def writeMessages : List Json → Client Unit
  | [] => return ()
  | msg :: rest => do
      let _ ← writeMessage dumps loads msg false
      writeMessages rest

/-- Messages read one after the other. -/
def readMessages : Nat → Client (List Json)
  | 0 => return []
  | count + 1 => do
      let msg ← readMessage loads
      let rest ← readMessages count
      return msg :: rest

variable {dumps loads}

/-! ## The header -/

theorem run_readline (process : Process) :
    readline.run process = (.ok (Encoding.takeLine process.stdout).1,
      { process with stdout := (Encoding.takeLine process.stdout).2 }) := rfl

/-- As many bytes as are asked for, when they are there. -/
theorem run_readexactly (process : Process) (body rest : List UInt8) :
    (readexactly body.length).run { process with stdout := body ++ rest } =
      (.ok body, { process with stdout := rest }) := by
  have enough : ¬ ((body ++ rest).length : Int) < body.length := by
    rw [List.length_append]
    omega
  unfold readexactly
  rw [if_neg (Int.not_lt.mpr (Int.natCast_nonneg _)), Client.run_bind (Client.run_get _),
    if_neg enough, Client.run_bind (Client.run_set _ _), Client.run_pure, Int.toNat_natCast,
    List.take_left, List.drop_left]

/-- The line that announces the length of a body, without its line feed. -/
def announcement (length : Nat) : List Char :=
  "Content-Length: ".toList ++ Nat.toDigits 10 length ++ ['\r']

theorem isDigit_of_mem {c : Char} {length : Nat} (member : c ∈ Nat.toDigits 10 length) :
    c.isDigit = true :=
  Nat.isDigit_of_mem_toDigits (by decide) (by decide) member

theorem ascii_announcement (length : Nat) : Encoding.Ascii (announcement length) := by
  apply Encoding.Ascii.append
  · apply Encoding.Ascii.append
    · decide
    · intro c member
      have range := Char.isDigit_iff_toNat.mp (isDigit_of_mem member)
      exact Nat.lt_of_le_of_lt range.2 (by decide)
  · decide

theorem not_mem_digits {c : Char} (apart : c.isDigit = false) (length : Nat) :
    c ∉ Nat.toDigits 10 length := by
  intro member
  rw [isDigit_of_mem member] at apart
  exact Bool.noConfusion apart

theorem newline_not_mem_announcement (length : Nat) : '\n' ∉ announcement length := by
  intro member
  rcases List.mem_append.mp member with inFront | inEnd
  · rcases List.mem_append.mp inFront with inName | inDigits
    · exact absurd inName (by decide)
    · exact not_mem_digits (by decide) length inDigits
  · exact absurd inEnd (by decide)

/-- A header announces the length it was written with. -/
theorem contentLength_announcement (length : Nat) :
    contentLength (Encoding.encode (announcement length ++ ['\n'])) = .ok (length : Int) := by
  have parts : (announcement length ++ ['\n']).splitOn ':' =
      ["Content-Length".toList, [' '] ++ (Nat.toDigits 10 length ++ ['\r', '\n'])] := by
    have shape : announcement length ++ ['\n'] = "Content-Length".toList ++
        ':' :: ([' '] ++ (Nat.toDigits 10 length ++ ['\r', '\n'])) := by
      unfold announcement
      rw [List.append_assoc, List.append_assoc]
      rfl
    have colonFree : ':' ∉ [' '] ++ (Nat.toDigits 10 length ++ ['\r', '\n']) := by
      intro member
      rcases List.mem_append.mp member with inFront | inRest
      · exact absurd inFront (by decide)
      · rcases List.mem_append.mp inRest with inDigits | inEnd
        · exact not_mem_digits (by decide) length inDigits
        · exact absurd inEnd (by decide)
    rw [shape, List.splitOn_append_cons_self_of_not_mem (by decide),
      List.splitOn_eq_singleton colonFree]
  have stripped : Text.strip id ([' '] ++ (Nat.toDigits 10 length ++ ['\r', '\n'])) =
      Nat.toDigits 10 length := by
    apply Text.strip_surrounded
    · exact List.all_eq_true.mp rfl
    · exact fun c member => Text.isSpace_of_isDigit (isDigit_of_mem member)
    · exact List.all_eq_true.mp rfl
  unfold contentLength
  rw [Encoding.decode_encode]
  dsimp only
  rw [parts]
  dsimp only [List.getElem?_cons_succ, List.getElem?_cons_zero]
  rw [stripped, Encoding.readInt_toDigits]

/-! ## One message -/

/-- A frame is a line with the length, an empty line and the body. -/
theorem frame_eq (msg : Json) : frame dumps msg =
    Encoding.encode (announcement (dumps msg).length ++ ['\n']) ++
      (Encoding.encode (['\r'] ++ ['\n']) ++ Encoding.encode (dumps msg)) := by
  have ends : "\r\n\r\n".toList = ['\r'] ++ (['\n'] ++ (['\r'] ++ ['\n'])) := rfl
  unfold frame announcement
  dsimp only
  rw [← Encoding.encode_append, ← Encoding.encode_append, ends]
  simp only [List.append_assoc]

/-- A message is read back from its frame, and nothing else is read. -/
theorem run_readMessage {msg : Json} (inverts : loads (Encoding.encode (dumps msg)) = .ok msg)
    (ascii : Encoding.Ascii (dumps msg)) (process : Process) (rest : List UInt8) :
    (readMessage loads).run { process with stdout := frame dumps msg ++ rest } =
      (.ok msg, { process with stdout := rest }) := by
  have header := Encoding.takeLine_encode (ascii_announcement (dumps msg).length)
    (newline_not_mem_announcement _)
    (Encoding.encode (['\r'] ++ ['\n']) ++ (Encoding.encode (dumps msg) ++ rest))
  have plain : Encoding.Ascii ['\r'] := by decide
  have blank := Encoding.takeLine_encode plain (by decide) (Encoding.encode (dumps msg) ++ rest)
  unfold readMessage
  rw [frame_eq, List.append_assoc, List.append_assoc, Client.run_bind (run_readline _)]
  dsimp only
  rw [header]
  dsimp only
  rw [contentLength_announcement, Client.run_bind (Client.run_ofExcept _ _),
    Client.run_bind (run_readline _)]
  dsimp only
  rw [blank, ← Encoding.length_encode ascii, Client.run_bind (run_readexactly _ _ _), inverts]
  rfl

theorem run_writeMessage (msg : Json) (process : Process) :
    (writeMessage dumps loads msg false).run process =
      (.ok none, { process with stdin := process.stdin ++ frame dumps msg }) := rfl

/-- A message with a response is written, and what is read next is the response. -/
theorem run_writeMessage_response {process after : Process} {response : Json} (msg : Json)
    (read : (readMessage loads).run { process with stdin := process.stdin ++ frame dumps msg } =
      (.ok response, after)) :
    (writeMessage dumps loads msg true).run process = (.ok (some response), after) := by
  unfold writeMessage
  rw [Client.run_bind (Client.run_modify _ process), if_pos rfl, Client.run_bind read,
    Client.run_pure]

/-- A server that has nothing to be read has closed its pipe. -/
theorem run_writeMessage_closed {process : Process} (msg : Json) (closed : process.stdout = []) :
    ((writeMessage dumps loads msg true).run process).1 = .error .indexError := by
  have read : (readMessage loads).run
      { process with stdin := process.stdin ++ frame dumps msg } =
      (.error .indexError, { process with stdin := process.stdin ++ frame dumps msg }) := by
    rw [closed]
    rfl
  unfold writeMessage
  rw [Client.run_bind (Client.run_modify _ process), if_pos rfl, Client.run_bind_error read]

/-! ## A stream of messages -/

theorem run_writeMessages (messages : List Json) (process : Process) :
    (writeMessages dumps loads messages).run process =
      (.ok (), { process with stdin := process.stdin ++ messages.flatMap (frame dumps) }) := by
  induction messages generalizing process with
  | nil =>
      rw [List.flatMap_nil, List.append_nil]
      rfl
  | cons msg rest ih =>
      rw [writeMessages, Client.run_bind (run_writeMessage _ _), ih, List.flatMap_cons,
        List.append_assoc]

theorem run_readMessages {messages : List Json}
    (inverts : ∀ msg ∈ messages, loads (Encoding.encode (dumps msg)) = .ok msg)
    (ascii : ∀ msg ∈ messages, Encoding.Ascii (dumps msg))
    (process : Process) (rest : List UInt8) :
    (readMessages loads messages.length).run
        { process with stdout := messages.flatMap (frame dumps) ++ rest } =
      (.ok messages, { process with stdout := rest }) := by
  induction messages with
  | nil => rfl
  | cons msg later ih =>
      obtain ⟨inverted, invertedLater⟩ := List.forall_mem_cons.mp inverts
      obtain ⟨plain, plainLater⟩ := List.forall_mem_cons.mp ascii
      rw [List.flatMap_cons, List.append_assoc, List.length_cons, readMessages,
        Client.run_bind (run_readMessage inverted plain _ _),
        Client.run_bind (ih invertedLater plainLater), Client.run_pure]

/--
Messages that are written one after the other are read back, in order, from
exactly the bytes that were written, whatever follows them.
-/
theorem readMessages_of_writeMessages (messages : List Json)
    (inverts : ∀ msg ∈ messages, loads (Encoding.encode (dumps msg)) = .ok msg)
    (ascii : ∀ msg ∈ messages, Encoding.Ascii (dumps msg))
    (client server : Process) (rest : List UInt8) :
    ∃ sent,
      (writeMessages dumps loads messages).run client =
        (.ok (), { client with stdin := client.stdin ++ sent }) ∧
      (readMessages loads messages.length).run { server with stdout := sent ++ rest } =
        (.ok messages, { server with stdout := rest }) :=
  ⟨messages.flatMap (frame dumps), run_writeMessages messages client,
    run_readMessages inverts ascii server rest⟩

end Messages

/-! ## A notification with text outside ASCII -/

def opened : Json :=
  .obj [("method", .str "textDocument/didOpen"), ("text", .str "lemma é ✓")]

def openedText : List Char :=
  "\x7b\"method\": \"textDocument/didOpen\", \"text\": \"lemma \\u00e9 \\u2713\"\x7d".toList

/-- `json.dumps` of the notification and of `None`. -/
def sampleDumps : Json → List Char
  | .null => "null".toList
  | _ => openedText

/-- `json.loads` of the two texts. -/
def sampleLoads (body : List UInt8) : Json.Decoded Json :=
  if body = Encoding.encode "null".toList then .ok .null
  else if body = Encoding.encode openedText then .ok opened
  else .error (.valueError "Expecting value")

theorem readMessages_of_writeMessages_opened :
    ∃ sent,
      (writeMessages sampleDumps sampleLoads [opened, .null, opened]).run ⟨[], []⟩ =
        (.ok (), ⟨[] ++ sent, []⟩) ∧
      (readMessages sampleLoads 3).run ⟨[], sent ++ [67, 10]⟩ =
        (.ok [opened, .null, opened], ⟨[], [67, 10]⟩) := by
  have plain : Encoding.Ascii openedText ∧ Encoding.Ascii "null".toList := by decide
  have apart : Encoding.encode openedText ≠ Encoding.encode "null".toList := by decide
  have read : sampleLoads (Encoding.encode openedText) = .ok opened := by
    rw [sampleLoads, if_neg apart, if_pos rfl]
  have readNull : sampleLoads (Encoding.encode "null".toList) = .ok .null := if_pos rfl
  exact readMessages_of_writeMessages [opened, .null, opened]
    (by simpa only [List.forall_mem_cons, List.not_mem_nil] using
      ⟨read, readNull, read, fun _ => False.elim⟩)
    (by simpa only [List.forall_mem_cons, List.not_mem_nil] using
      ⟨plain.1, plain.2, plain.1, fun _ => False.elim⟩) ⟨[], []⟩ ⟨[], []⟩ [67, 10]

end SchedExt.Lsp
