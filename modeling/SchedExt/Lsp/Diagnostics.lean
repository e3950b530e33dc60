import SchedExt.Lsp.Client

/-!
# The diagnostics of a document

The client reads messages until a batch of the document has no error, or a read
times out, or the deadline has passed.  What the two callers return is every
batch that was read.  A read that times out inside a message has taken the lines
of its header, which are lost.
-/

namespace SchedExt.Lsp

open Foundations

inductive Severity where
  | error
  | warning
  | info
  | hint
  deriving DecidableEq

/-- The number that a document stands for in a comparison. -/
def number : Json → Option Rat
  | .int value => some value
  | .float value => some value
  | .bool value => some (if value then 1 else 0)
  | _ => none

/-- `Severity(value)` -/
def Severity.ofValue (value : Json) : Json.Decoded Severity :=
  if number value = some 1 then .ok .error
  else if number value = some 2 then .ok .warning
  else if number value = some 3 then .ok .info
  else if number value = some 4 then .ok .hint
  else .error (.valueError "is not a valid Severity")

/-- A diagnostic, with the values as the server wrote them. -/
structure Diagnostic where
  file : String
  line : Json
  col : Json
  endLine : Json
  endCol : Json
  severity : Severity
  message : Json
  source : String := "dafny"

/-- What is raised while a message is taken for a notification. -/
inductive CollectFault where
  | reading (fault : Fault)
  | attributeError
  | document (fault : Json.Fault)

/-- `for value in document` -/
def iterated : Json → Json.Decoded (List Json)
  | .arr items => .ok items
  | .obj fields => .ok (fields.map fun field => .str field.1)
  | .str text => .ok (text.toList.map fun c => .str (String.singleton c))
  | _ => .error .typeError

/-- `document["range"][place][key]` -/
def position (d : Json) (place key : String) : Json.Decoded Json := do
  let range ← d.item "range"
  let position ← range.item place
  position.item key

/-- The diagnostic that a document of a notification stands for. -/
def diagnostic (uri : String) (d : Json) : Json.Decoded Diagnostic := do
  return {
    file := uri
    line := ← position d "start" "line"
    col := ← position d "start" "character"
    endLine := ← position d "end" "line"
    endCol := ← position d "end" "character"
    severity := ← Severity.ofValue ((get? "severity" d).getD (.int 1))
    message := ← d.item "message" }

/-- `document == text` -/
def isText (text : String) : Json → Bool
  | .str value => value == text
  | _ => false

/-- The batch that a notification has for a document. -/
def batchOf (uri : String) (msg : Json) : Json.Decoded (Option (List Diagnostic)) :=
  if publishes msg then do
    let params ← msg.item "params"
    if isText uri (← params.item "uri") then
      let items ← iterated (← (← msg.item "params").item "diagnostics")
      return some (← items.mapM (diagnostic uri))
    else return none
  else .ok none

/-- `any(d.severity == Severity.ERROR for d in batch)` -/
def anyError (batch : List Diagnostic) : Bool := batch.any fun d => d.severity = .error

/-- What a read has taken when it times out; the empty line comes behind the header. -/
inductive Loss where
  | nothing
  | header
  | emptyLine
  deriving DecidableEq

/-- The pipes once a read that is cancelled has taken something. -/
def Process.without (self : Process) : Loss → Process
  | .nothing => self
  | .header => { self with stdout := (Encoding.takeLine self.stdout).2 }
  | .emptyLine =>
      { self with stdout := (Encoding.takeLine (Encoding.takeLine self.stdout).2).2 }

section Collect

variable (loads : List UInt8 → Json.Decoded Json) (uri : String) (deadline : Rat) (lost : Loss)

/--
`_collect_diagnostics`, with the times at which the reads begin that return a
message; the read after them times out.
-/
def collectDiagnostics : List Rat → Process → Except CollectFault (List (List Diagnostic)) × Process
  | [], process => (.ok [], process.without lost)
  | time :: times, process =>
      if time < deadline then
        match (readMessage loads).run process with
        | (.error fault, after) => (.error (.reading fault), after)
        | (.ok (.obj fields), after) =>
            match batchOf uri (.obj fields) with
            | .error fault => (.error (.document fault), after)
            | .ok none => collectDiagnostics times after
            | .ok (some batch) =>
                if anyError batch then
                  let (collected, last) := collectDiagnostics times after
                  (collected.map fun batches => batch :: batches, last)
                else (.ok [batch], after)
        | (.ok _, after) => (.error .attributeError, after)
      else (.ok [], process)

end Collect

section Files

variable (dumps : Json → List Char) (loads : List UInt8 → Json.Decoded Json)

def didOpen (uri content : String) : Call :=
  .notify "textDocument/didOpen" (.obj [
    ("textDocument", .obj [
      ("uri", .str uri), ("languageId", .str "dafny"), ("version", .int 1),
      ("text", .str content)])])

def didChange (uri newContent : String) : Call :=
  .notify "textDocument/didChange" (.obj [
    ("textDocument", .obj [("uri", .str uri), ("version", .int 2)]),
    ("contentChanges", .arr [.obj [("text", .str newContent)]])])

/-- The loop of both callers, which begins at a time and has 300 seconds. -/
def gather (uri : String) (started : Rat) (times : List Rat) (lost : Loss)
    (process : Process) : Except CollectFault (List Diagnostic) × Process :=
  let (collected, last) := collectDiagnostics loads uri (started + 300) lost times process
  (collected.map fun batches =>
    batches.foldl (fun diagnostics batch => diagnostics ++ batch) [], last)

namespace DafnyLSPClient

/-- `check_file` of a file with this content -/
def checkFile (self : DafnyLSPClient) (uri content : String) (started : Rat) (times : List Rat)
    (lost : Loss) : Except CollectFault (List Diagnostic) × Process :=
  let opened := (self.perform dumps loads [didOpen uri content]).2
  gather loads uri started times lost opened.process

/-- `update_file` -/
def updateFile (self : DafnyLSPClient) (uri newContent : String) (started : Rat)
    (times : List Rat) (lost : Loss) : Except CollectFault (List Diagnostic) × Process :=
  let changed := (self.perform dumps loads [didChange uri newContent]).2
  gather loads uri started times lost changed.process

end DafnyLSPClient

end Files

end SchedExt.Lsp
