import SchedExt.Lsp.Diagnostics

/-!
# The final diagnostics

Every notification for a document replaces the one before, but the callers
return all batches that were read.  As only a batch with an error is followed
by another read, they return the last one exactly when it is the only one.  A
read that is cut off changes nothing of what they return.
-/

namespace SchedExt.Lsp

open Foundations

/-! ## The notifications of the protocol -/

/-- A document of a notification has a range, a message, and a severity if any. -/
structure IsDiagnostic (item : Json) : Prop where
  located : ∀ place ∈ ["start", "end"], ∀ key ∈ ["line", "character"],
    ∃ value, position item place key = .ok value
  graded : get? "severity" item = none ∨
    ∃ level, 1 ≤ level ∧ level ≤ 4 ∧ get? "severity" item = some (.int level)
  worded : ∃ text, item.item "message" = .ok text

/-- A notification with the diagnostics of a document. -/
structure Publication (uri : String) (items : List Json) (msg : Json) : Prop where
  shaped : ∃ fields params, msg = .obj fields ∧
    fields.lookup "method" = some (.str "textDocument/publishDiagnostics") ∧
    fields.lookup "params" = some (.obj params) ∧ params.lookup "uri" = some (.str uri) ∧
    params.lookup "diagnostics" = some (.arr items)
  diagnosed : ∀ item ∈ items, IsDiagnostic item

/-- A message as the protocol prescribes it. -/
def Prescribed (msg : Json) : Prop :=
  (∃ fields, msg = .obj fields ∧ publishes msg = false) ∨ ∃ uri items, Publication uri items msg

/-- The diagnostics that a message publishes for a document. -/
def published? (uri : String) (msg : Json) : Option (List Diagnostic) :=
  match batchOf uri msg with
  | .ok batch => batch
  | .error _ => none

/-- The diagnostics that a document is left with. -/
def finalDiagnostics (uri : String) (messages : List Json) : List Diagnostic :=
  ((messages.filterMap (published? uri)).getLast?).getD []

/-- The messages whose reads begin in front of the deadline. -/
def arrived (deadline : Rat) (times : List Rat) (messages : List Json) : List Json :=
  messages.take (times.takeWhile (· < deadline)).length

/-- The first batch has no error, or there is no other. -/
def Settled (batches : List (List Diagnostic)) : Prop :=
  ∀ first later, batches = first :: later → anyError first = false ∨ later = []

/--
What is returned are the diagnostics that the document is left with by the
messages that were read, behind which these pipes are, with an error exactly if
these have one.
-/
def FinalReported (loads : List UInt8 → Json.Decoded Json) (uri : String) (messages : List Json)
    (returned : Except CollectFault (List Diagnostic)) (behind : Process) : Prop :=
  ∃ read rest diagnostics, messages = read ++ rest ∧ Carries loads behind.stdout rest ∧
    returned = .ok diagnostics ∧ diagnostics = finalDiagnostics uri read ∧
    anyError diagnostics = anyError (finalDiagnostics uri read)

variable {dumps : Json → List Char} {loads : List UInt8 → Json.Decoded Json}
variable {uri : String} {messages : List Json} {deadline : Rat} {times : List Rat}

/-! ## What a message is taken for -/

theorem Severity.exists_ofValue {level : Int} (least : 1 ≤ level) (greatest : level ≤ 4) :
    ∃ severity, Severity.ofValue (.int level) = .ok severity := by
  have levels : level = 1 ∨ level = 2 ∨ level = 3 ∨ level = 4 := by omega
  rcases levels with rfl | rfl | rfl | rfl
  · exact ⟨.error, rfl⟩
  · exact ⟨.warning, rfl⟩
  · exact ⟨.info, rfl⟩
  · exact ⟨.hint, rfl⟩

theorem IsDiagnostic.exists_severity {item : Json} (prescribed : IsDiagnostic item) :
    ∃ severity, Severity.ofValue ((get? "severity" item).getD (.int 1)) = .ok severity := by
  rcases prescribed.graded with absent | ⟨level, least, greatest, present⟩
  · rw [absent]
    exact ⟨.error, rfl⟩
  · rw [present]
    exact Severity.exists_ofValue least greatest

theorem IsDiagnostic.exists_diagnostic {item : Json} (prescribed : IsDiagnostic item) :
    ∃ d, diagnostic uri item = .ok d := by
  have start : "start" ∈ ["start", "end"] := List.mem_cons_self
  have stop : "end" ∈ ["start", "end"] := List.mem_cons_of_mem _ List.mem_cons_self
  have line : "line" ∈ ["line", "character"] := List.mem_cons_self
  have column : "character" ∈ ["line", "character"] := List.mem_cons_of_mem _ List.mem_cons_self
  obtain ⟨startLine, first⟩ := prescribed.located _ start _ line
  obtain ⟨startColumn, second⟩ := prescribed.located _ start _ column
  obtain ⟨endLine, third⟩ := prescribed.located _ stop _ line
  obtain ⟨endColumn, fourth⟩ := prescribed.located _ stop _ column
  obtain ⟨severity, graded⟩ := prescribed.exists_severity
  obtain ⟨text, worded⟩ := prescribed.worded
  unfold diagnostic
  rw [first, second, third, fourth, graded, worded]
  exact ⟨_, rfl⟩

theorem item_of_lookup {fields : List (String × Json)} {key : String} {value : Json}
    (known : fields.lookup key = some value) : (Json.obj fields).item key = .ok value := by
  rw [Json.item, known]

/-- A notification is taken for the batch of its document. -/
theorem Publication.exists_batchOf {other : String} {items : List Json} {msg : Json}
    (publication : Publication other items msg) :
    ∃ fields batch, msg = .obj fields ∧ batchOf uri (.obj fields) = .ok batch := by
  obtain ⟨fields, params, rfl, method, inside, named, listed⟩ := publication.shaped
  have readable : ∃ batch, items.mapM (diagnostic uri) = .ok batch :=
    Json.exists_mapM_iff.mpr fun item member =>
      (publication.diagnosed item member).exists_diagnostic
  obtain ⟨batch, read⟩ := readable
  have publishing : publishes (.obj fields) = true := by
    rw [publishes, get?, method]
    rfl
  refine ⟨fields, if isText uri (.str other) then some batch else none, rfl, ?_⟩
  unfold batchOf
  rw [if_pos publishing, item_of_lookup inside]
  dsimp only [bind, Except.bind]
  rw [item_of_lookup named]
  dsimp only
  split
  · rw [item_of_lookup listed]
    dsimp only [iterated]
    rw [read]
    rfl
  · rfl

/-- A prescribed message is taken for what it publishes. -/
theorem Prescribed.batchOf_eq {msg : Json} (prescribed : Prescribed msg) :
    ∃ fields, msg = .obj fields ∧ batchOf uri (.obj fields) = .ok (published? uri msg) := by
  have taken : ∃ fields batch, msg = .obj fields ∧ batchOf uri (.obj fields) = .ok batch := by
    rcases prescribed with ⟨fields, rfl, silent⟩ | ⟨other, items, publication⟩
    · refine ⟨fields, none, rfl, ?_⟩
      rw [batchOf, if_neg (Bool.eq_false_iff.mp silent)]
    · exact publication.exists_batchOf
  obtain ⟨fields, batch, rfl, read⟩ := taken
  exact ⟨fields, rfl, by rw [published?, read]⟩

/-! ## What the loop reads -/

/-- A batch with an error is followed by another. -/
def yielded : List (List Diagnostic) → List (List Diagnostic)
  | [] => []
  | batch :: later => if anyError batch then batch :: yielded later else [batch]

theorem arrived_cons {time : Rat} (early : time < deadline) (msg : Json) :
    arrived deadline (time :: times) (msg :: messages) =
      msg :: arrived deadline times messages := by
  rw [arrived, List.takeWhile_cons, if_pos (decide_eq_true early), List.length_cons,
    List.take_succ_cons, arrived]

/--
The loop reads the first part of some messages, leaves the other, and yields
the batches of the first, which are those that a batch with an error leads to.
-/
structure Collects (loads : List UInt8 → Json.Decoded Json) (uri : String) (deadline : Rat)
    (times : List Rat) (messages : List Json)
    (collected : Except CollectFault (List (List Diagnostic)) × Process)
    (read rest : List Json) : Prop where
  splits : messages = read ++ rest
  left : Carries loads collected.2.stdout rest
  returned : collected.1 = .ok (read.filterMap (published? uri))
  batches : read.filterMap (published? uri) =
    yielded ((arrived deadline times messages).filterMap (published? uri))

namespace Collects

variable {process after : Process} {time : Rat} {msg : Json} {read rest : List Json}
variable {collected : Except CollectFault (List (List Diagnostic)) × Process}

/-- A message of something else is passed over. -/
theorem skip (early : time < deadline) (foreign : published? uri msg = none)
    (later : Collects loads uri deadline times messages collected read rest) :
    Collects loads uri deadline (time :: times) (msg :: messages) collected (msg :: read)
      rest := by
  constructor
  · exact congrArg _ later.splits
  · exact later.left
  · rw [List.filterMap_cons_none foreign]
    exact later.returned
  · rw [arrived_cons early, List.filterMap_cons_none foreign, List.filterMap_cons_none foreign]
    exact later.batches

/-- A batch with an error is yielded in front of what is read later. -/
theorem more {batch : List Diagnostic} (early : time < deadline)
    (publishes : published? uri msg = some batch) (errors : anyError batch = true)
    (later : Collects loads uri deadline times messages collected read rest) :
    Collects loads uri deadline (time :: times) (msg :: messages)
      (collected.1.map fun batches => batch :: batches, collected.2) (msg :: read) rest := by
  constructor
  · exact congrArg _ later.splits
  · exact later.left
  · rw [List.filterMap_cons_some publishes, later.returned]
    rfl
  · rw [arrived_cons early, List.filterMap_cons_some publishes,
      List.filterMap_cons_some publishes, yielded, if_pos errors, later.batches]

/-- A batch without an error is the last one. -/
theorem last {batch : List Diagnostic} (early : time < deadline)
    (publishes : published? uri msg = some batch) (clean : ¬ anyError batch = true)
    (carried : Carries loads after.stdout messages) :
    Collects loads uri deadline (time :: times) (msg :: messages) (.ok [batch], after) [msg]
      messages := by
  constructor
  · rfl
  · exact carried
  · rw [List.filterMap_cons_some publishes]
    rfl
  · rw [arrived_cons early, List.filterMap_cons_some publishes,
      List.filterMap_cons_some publishes, yielded, if_neg clean]
    rfl

/-- Nothing is read from the deadline on. -/
theorem late (passed : ¬ time < deadline) (carried : Carries loads process.stdout messages) :
    Collects loads uri deadline (time :: times) messages (.ok [], process) [] messages := by
  have stops : ¬ decide (time < deadline) = true := fun held => passed (of_decide_eq_true held)
  constructor
  · rfl
  · exact carried
  · rfl
  · rw [arrived, List.takeWhile_cons, if_neg stops]
    rfl

end Collects

/-- What is lost by the read that times out is not among what is yielded. -/
theorem collectDiagnostics_fst (uri : String) (deadline : Rat) (lost other : Loss)
    (times : List Rat) (process : Process) :
    (collectDiagnostics loads uri deadline lost times process).1 =
      (collectDiagnostics loads uri deadline other times process).1 := by
  induction times generalizing process with
  | nil => rfl
  | cons time times ih =>
      rw [collectDiagnostics, collectDiagnostics]
      split
      · split
        · rfl
        · rename_i fields after _
          split
          · rfl
          · exact ih after
          · split
            · dsimp only
              rw [ih after]
            · rfl
        · rfl
      · rfl

/-- One turn of the loop. -/
theorem collectDiagnostics_cons (uri : String) (lost : Loss) (times : List Rat)
    {process : Process}
    {bytes rest : List UInt8} {msg : Json} {time : Rat} (early : time < deadline)
    (framed : Framed loads bytes msg) (stream : process.stdout = bytes ++ rest)
    (prescribed : Prescribed msg) :
    ∃ after : Process, after.stdout = rest ∧
      collectDiagnostics loads uri deadline lost (time :: times) process =
        match published? uri msg with
        | none => collectDiagnostics loads uri deadline lost times after
        | some batch =>
            if anyError batch then
              ((collectDiagnostics loads uri deadline lost times after).1.map fun batches =>
                batch :: batches, (collectDiagnostics loads uri deadline lost times after).2)
            else (.ok [batch], after) := by
  have read : (readMessage loads).run process = (.ok msg, { process with stdout := rest }) := by
    rw [← framed process rest, ← stream]
  obtain ⟨fields, rfl, taken⟩ := prescribed.batchOf_eq
  refine ⟨{ process with stdout := rest }, rfl, ?_⟩
  rw [collectDiagnostics, if_pos early, read]
  dsimp only
  rw [taken]
  cases published? uri (.obj fields) with
  | none => rfl
  | some batch => rfl

/--
The loop reads a part of the messages, and yields the batches of that part, if
no message is cut off.
-/
theorem exists_collects (uri : String) (deadline : Rat) {process : Process}
    (carried : Carries loads process.stdout messages) (enough : times.length ≤ messages.length)
    (prescribed : ∀ msg ∈ messages, Prescribed msg) :
    ∃ read rest, Collects loads uri deadline times messages
      (collectDiagnostics loads uri deadline .nothing times process) read rest := by
  induction times generalizing process messages with
  | nil => exact ⟨[], messages, rfl, carried, rfl, rfl⟩
  | cons time times ih =>
      by_cases early : time < deadline
      · generalize stream : process.stdout = bytes at carried
        cases carried with
        | nil => cases enough
        | cons framed carried =>
            obtain ⟨here, there⟩ := List.forall_mem_cons.mp prescribed
            obtain ⟨after, left, turn⟩ :=
              collectDiagnostics_cons uri .nothing times early framed stream here
            rw [← left] at carried
            obtain ⟨read, rest, later⟩ := ih carried (Nat.le_of_succ_le_succ enough) there
            rw [turn]
            split
            · rename_i foreign
              exact ⟨_, _, later.skip early foreign⟩
            · rename_i batch publishes
              split
              · rename_i errors
                exact ⟨_, _, later.more early publishes errors⟩
              · rename_i clean
                exact ⟨_, _, Collects.last early publishes clean carried⟩
      · rw [collectDiagnostics, if_neg early]
        exact ⟨_, _, Collects.late early carried⟩

/-! ## What is returned -/

theorem foldl_append_eq (batches : List (List Diagnostic)) (start : List Diagnostic) :
    batches.foldl (fun diagnostics batch => diagnostics ++ batch) start =
      start ++ batches.flatten := by
  induction batches generalizing start with
  | nil => exact (List.append_nil start).symm
  | cons batch later ih => rw [List.foldl_cons, ih, List.flatten_cons, List.append_assoc]

theorem yielded_ne_nil (batch : List Diagnostic) (later : List (List Diagnostic)) :
    yielded (batch :: later) ≠ [] := by
  rw [yielded]
  split
  · exact List.cons_ne_nil _ _
  · exact List.cons_ne_nil _ _

/-- The last part of a list of lists is no longer than all of them together. -/
theorem length_getLast_le {batches : List (List Diagnostic)} :
    (batches.getLast?.getD []).length ≤ batches.flatten.length := by
  induction batches with
  | nil => exact Nat.le_refl 0
  | cons batch later ih =>
      rw [List.flatten_cons, List.length_append]
      cases later with
      | nil => exact Nat.le_add_right _ _
      | cons next later =>
          rw [List.getLast?_cons_cons]
          omega

theorem length_pos_of_anyError {batch : List Diagnostic} (errors : anyError batch = true) :
    0 < batch.length := by
  obtain ⟨d, member, _⟩ := List.any_eq_true.mp errors
  exact List.length_pos_of_mem member

/-- A batch with something in it is not the last one with others behind it. -/
theorem flatten_cons_ne {batch : List Diagnostic} {later : List (List Diagnostic)}
    (nonempty : 0 < batch.length) (others : later ≠ []) :
    (batch :: later).flatten ≠ (batch :: later).getLast?.getD [] := by
  obtain ⟨next, rest, rfl⟩ := List.exists_cons_of_ne_nil others
  intro same
  have lengths := congrArg List.length same
  rw [List.flatten_cons, List.length_append, List.getLast?_cons_cons] at lengths
  have shorter : ((next :: rest).getLast?.getD []).length ≤ (next :: rest).flatten.length :=
    length_getLast_le
  omega

theorem settled_cons_iff {batch : List Diagnostic} {later : List (List Diagnostic)} :
    Settled (batch :: later) ↔ anyError batch = false ∨ later = [] := by
  constructor
  · intro settled
    exact settled batch later rfl
  · rintro settled _ _ ⟨rfl, rfl⟩
    exact settled

/-- All batches together are the last one exactly when they are settled at once. -/
theorem flatten_yielded_iff (batches : List (List Diagnostic)) :
    (yielded batches).flatten = (yielded batches).getLast?.getD [] ↔ Settled batches := by
  cases batches with
  | nil => exact iff_of_true rfl fun _ _ impossible => nomatch impossible
  | cons batch later =>
      rw [settled_cons_iff, yielded]
      split
      · rename_i errors
        cases later with
        | nil => exact iff_of_true (List.append_nil batch) (.inr rfl)
        | cons next later =>
            refine iff_of_false ?_ ?_
            · exact flatten_cons_ne (length_pos_of_anyError errors) (yielded_ne_nil next later)
            · rintro (clean | none)
              · rw [errors] at clean
                cases clean
              · cases none
      · rename_i clean
        exact iff_of_true (List.append_nil batch) (.inl (Bool.eq_false_iff.mpr clean))

/-- The loop of the callers, after bytes that are messages of the protocol. -/
theorem finalReported_gather_iff {process : Process} {started : Rat} {lost : Loss}
    (carried : Carries loads process.stdout messages) (enough : times.length ≤ messages.length)
    (prescribed : ∀ msg ∈ messages, Prescribed msg) :
    FinalReported loads uri messages (gather loads uri started times lost process).1
        (gather loads uri started times .nothing process).2 ↔
      Settled ((arrived (started + 300) times messages).filterMap (published? uri)) := by
  obtain ⟨read, rest, collects⟩ := exists_collects uri (started + 300) carried enough prescribed
  have returned : (gather loads uri started times lost process).1 =
      .ok (read.filterMap (published? uri)).flatten := by
    unfold gather
    dsimp only
    rw [collectDiagnostics_fst uri (started + 300) lost .nothing, collects.returned]
    dsimp only [Except.map]
    rw [foldl_append_eq, List.nil_append]
  rw [← flatten_yielded_iff, ← collects.batches]
  constructor
  · rintro ⟨read', rest', diagnostics, splits, left, returned', same, _⟩
    obtain rfl := left.unique collects.left
    obtain rfl := List.append_cancel_right (splits.symm.trans collects.splits)
    rw [← Except.ok.inj (returned'.symm.trans returned)]
    exact same
  · intro same
    exact ⟨read, rest, _, collects.splits, collects.left, returned, same,
      congrArg anyError same⟩

section Callers

variable {self : DafnyLSPClient} {started : Rat} {lost : Loss}
variable (carried : Carries loads self.process.stdout messages)
variable (enough : times.length ≤ messages.length) (prescribed : ∀ msg ∈ messages, Prescribed msg)

include carried enough prescribed

theorem finalReported_checkFile_iff {content : String} :
    FinalReported loads uri messages (self.checkFile dumps loads uri content started times lost).1
        (self.checkFile dumps loads uri content started times .nothing).2 ↔
      Settled ((arrived (started + 300) times messages).filterMap (published? uri)) :=
  finalReported_gather_iff carried enough prescribed

theorem finalReported_updateFile_iff {newContent : String} :
    FinalReported loads uri messages
        (self.updateFile dumps loads uri newContent started times lost).1
        (self.updateFile dumps loads uri newContent started times .nothing).2 ↔
      Settled ((arrived (started + 300) times messages).filterMap (published? uri)) :=
  finalReported_gather_iff carried enough prescribed

/--
Both callers return the diagnostics that a document is left with by the messages
that were read, exactly when the first notification for it that arrives has no
error, or no other one arrives.  The messages that were read end where the read
that times out begins, whatever that one has lost.
-/
theorem finalReported_iff (content newContent : String) (lost : Loss) :
    (FinalReported loads uri messages
          (self.checkFile dumps loads uri content started times lost).1
          (self.checkFile dumps loads uri content started times .nothing).2 ↔
        Settled ((arrived (started + 300) times messages).filterMap (published? uri))) ∧
      (FinalReported loads uri messages
          (self.updateFile dumps loads uri newContent started times lost).1
          (self.updateFile dumps loads uri newContent started times .nothing).2 ↔
        Settled ((arrived (started + 300) times messages).filterMap (published? uri))) :=
  ⟨finalReported_checkFile_iff carried enough prescribed,
    finalReported_updateFile_iff carried enough prescribed⟩

end Callers

/-! ## A proof that fails first -/

def origin : Json := .obj [("line", .int 0), ("character", .int 0)]

/-- A diagnostic without a severity, which counts as an error. -/
def unproved : Json :=
  .obj [("range", .obj [("start", origin), ("end", origin)]), ("message", .str "unproved")]

/-- The notification of the server for one file. -/
def notice (items : List Json) : Json :=
  .obj [("method", .str "textDocument/publishDiagnostics"),
    ("params", .obj [("uri", .str "file:///a.dfy"), ("diagnostics", .arr items)])]

def originText : List Char := "\x7b\"line\": 0, \"character\": 0\x7d".toList

def unprovedText : List Char :=
  "\x7b\"range\": \x7b\"start\": ".toList ++ originText ++ ", \"end\": ".toList ++ originText ++
    "\x7d, \"message\": \"unproved\"\x7d".toList

def noticeText (items : List Char) : List Char :=
  "\x7b\"method\": \"textDocument/publishDiagnostics\", \"params\": \x7b\"uri\": ".toList ++
    "\"file:///a.dfy\", \"diagnostics\": [".toList ++ items ++ "]\x7d\x7d".toList

def fileText : List Char := "\"textDocument\": \x7b\"uri\": \"file:///a.dfy\", ".toList

def didOpenText : List Char :=
  "\x7b\"jsonrpc\": \"2.0\", \"method\": \"textDocument/didOpen\", \"params\": \x7b".toList ++
    fileText ++ "\"languageId\": \"dafny\", \"version\": 1, \"text\": \"\"\x7d\x7d\x7d".toList

def didChangeText : List Char :=
  "\x7b\"jsonrpc\": \"2.0\", \"method\": \"textDocument/didChange\", \"params\": \x7b".toList ++
    fileText ++ "\"version\": 2\x7d, \"contentChanges\": [\x7b\"text\": \"\"\x7d]\x7d\x7d".toList

/-- `json.dumps` of the two notifications of the server, and of the two of the client. -/
def noticeDumps (msg : Json) : List Char :=
  if publishes msg then
    match (get? "params" msg).bind (get? "diagnostics") with
    | some (.arr []) => noticeText []
    | _ => noticeText unprovedText
  else if ((get? "params" msg).bind (get? "contentChanges")).isNone then didOpenText
  else didChangeText

/-- `json.loads` of the two notifications of the server. -/
def noticeLoads (body : List UInt8) : Json.Decoded Json :=
  if body = Encoding.encode (noticeText []) then .ok (notice [])
  else if body = Encoding.encode (noticeText unprovedText) then .ok (notice [unproved])
  else .error (.valueError "Expecting value")

set_option maxRecDepth 2000 in
theorem framed_notice {msg : Json} (member : msg ∈ [notice [unproved], notice []]) :
    Framed noticeLoads (frame noticeDumps msg) msg := by
  have plain : Encoding.Ascii (noticeText []) ∧
      Encoding.Ascii (noticeText unprovedText) := by decide
  have apart : Encoding.encode (noticeText unprovedText) ≠
      Encoding.encode (noticeText []) := by decide
  have failing : noticeLoads (Encoding.encode (noticeText unprovedText)) =
      .ok (notice [unproved]) := by
    rw [noticeLoads, if_neg apart, if_pos rfl]
  simp only [List.mem_cons, List.not_mem_nil, or_false] at member
  rcases member with rfl | rfl
  · exact framed_frame failing plain.2
  · exact framed_frame (if_pos rfl) plain.1

theorem isDiagnostic_unproved : IsDiagnostic unproved := by
  refine ⟨?_, .inl rfl, _, rfl⟩
  simp only [List.forall_mem_cons, List.not_mem_nil]
  have none {Thing : Type} {claim : Thing → Prop} : ∀ thing : Thing, False → claim thing :=
    fun _ => False.elim
  exact ⟨⟨⟨_, rfl⟩, ⟨_, rfl⟩, none⟩, ⟨⟨_, rfl⟩, ⟨_, rfl⟩, none⟩, none⟩

theorem prescribed_notice {items : List Json} (diagnosed : ∀ item ∈ items, IsDiagnostic item) :
    Prescribed (notice items) :=
  .inr ⟨_, items, ⟨_, _, rfl, rfl, rfl, rfl, rfl⟩, diagnosed⟩

/-- A client whose server has published these lists of diagnostics. -/
def listening (lists : List (List Json)) : DafnyLSPClient :=
  ⟨⟨[], (lists.map notice).flatMap (frame noticeDumps)⟩, 2⟩

theorem listening_spec {lists : List (List Json)}
    (known : ∀ items ∈ lists, items = [unproved] ∨ items = []) :
    Carries noticeLoads (listening lists).process.stdout (lists.map notice) ∧
      ∀ msg ∈ lists.map notice, Prescribed msg := by
  constructor
  · apply carries_frames
    intro msg member
    obtain ⟨items, inside, rfl⟩ := List.mem_map.mp member
    rcases known items inside with rfl | rfl
    · exact framed_notice List.mem_cons_self
    · exact framed_notice (List.mem_cons_of_mem _ List.mem_cons_self)
  · intro msg member
    obtain ⟨items, inside, rfl⟩ := List.mem_map.mp member
    rcases known items inside with rfl | rfl
    · exact prescribed_notice (List.forall_mem_singleton.mpr isDiagnostic_unproved)
    · exact prescribed_notice fun _ impossible => nomatch impossible

theorem arrived_pair (first second : Json) :
    arrived (0 + 300) [1, 2] [first, second] = [first, second] := by
  have early : (1 : Rat) < 0 + 300 ∧ (2 : Rat) < 0 + 300 := by decide +kernel
  rw [arrived_cons early.1, arrived_cons early.2]
  rfl

theorem provedAtOnce_finalReported :
    let checked := (listening [[], [unproved]]).checkFile noticeDumps noticeLoads
      "file:///a.dfy" "" 0 [1, 2]
    FinalReported noticeLoads "file:///a.dfy" [notice [], notice [unproved]]
      (checked .header).1 (checked .nothing).2 := by
  obtain ⟨carried, prescribed⟩ := @listening_spec [[], [unproved]] (by simp)
  have enough : [(1 : Rat), 2].length ≤ ([[], [unproved]].map notice).length := Nat.le_refl 2
  intro checked
  refine (finalReported_iff carried enough prescribed "" "" .header).1.mpr ?_
  change Settled ((arrived (0 + 300) [1, 2] [notice [], notice [unproved]]).filterMap _)
  rw [arrived_pair]
  rintro first later ⟨rfl, _⟩
  exact .inl rfl

/-- The proof fails, and succeeds a second later. -/
theorem provedLater_not_finalReported :
    Carries noticeLoads (listening [[unproved], []]).process.stdout
        [notice [unproved], notice []] ∧
      (∀ msg ∈ [notice [unproved], notice []], Prescribed msg) ∧
      let checked := (listening [[unproved], []]).checkFile noticeDumps noticeLoads
        "file:///a.dfy" "" 0 [1, 2] .nothing
      ¬ FinalReported noticeLoads "file:///a.dfy" [notice [unproved], notice []] checked.1
        checked.2 := by
  obtain ⟨carried, prescribed⟩ := @listening_spec [[unproved], []] (by simp)
  have enough : [(1 : Rat), 2].length ≤ ([[unproved], []].map notice).length := Nat.le_refl 2
  refine ⟨carried, prescribed, fun reported => ?_⟩
  have settled := (finalReported_checkFile_iff carried enough prescribed).mp reported
  change Settled ((arrived (0 + 300) [1, 2] [notice [unproved], notice []]).filterMap _) at settled
  rw [arrived_pair] at settled
  rcases settled _ _ rfl with clean | alone
  · cases clean
  · cases alone

end SchedExt.Lsp
