import SchedExt.Lsp.Client

/-!
# Requests and their responses

A client reads one message for every request, whatever that message is.  So it
has the response of each request exactly when the server writes nothing in
front of a response but the responses of earlier requests.
-/

namespace SchedExt.Lsp

open Foundations

/-! ## The stream of the server -/

/-- A message of the server that answers nothing. -/
def IsNotification (msg : Json) : Prop :=
  ∃ fields, msg = .obj fields ∧ fields.lookup "id" = none

/-- A message of the server that answers the request with an id. -/
def IsResponse (id : Int) (msg : Json) : Prop :=
  ∃ fields, msg = .obj fields ∧ fields.lookup "id" = some (.int id) ∧
    fields.lookup "method" = none

section Streams

variable (answers : String → Bool) (first : Int) (methods : List String) (messages : List Json)

/-- The message at a place answers a request, by its position among the requests. -/
def ResponseAt (request place : Nat) : Prop :=
  ∃ msg, messages[place]? = some msg ∧ IsResponse (first + request) msg

/--
The messages are notifications and one response to each request that the
protocol answers.  A request reads one message, so those read before a request
was sent do not answer it.
-/
structure Conforming : Prop where
  kinds : ∀ msg ∈ messages, IsNotification msg ∨
    ∃ (request : Nat) (method : String), methods[request]? = some method ∧
      answers method = true ∧ IsResponse (first + request) msg
  answered : ∀ (request : Nat) (method : String), methods[request]? = some method →
    answers method = true → ∃ place ≥ request, ResponseAt first messages request place ∧
      ∀ other, ResponseAt first messages request other → other = place

/--
The protocol answers every request, and nothing stands in front of a response
but the responses of earlier requests.
-/
structure Prompt : Prop where
  known : ∀ method ∈ methods, answers method = true
  ordered : ∀ request place, ResponseAt first messages request place →
    ∀ earlier < place, ∃ previous < request, ResponseAt first messages previous earlier

end Streams

section Sessions

variable (dumps : Json → List Char) (loads : List UInt8 → Json.Decoded Json)

/--
Every request returns the message with its own id, and the diagnostics that the
server published are still to be read.
-/
structure Matched (client : DafnyLSPClient) (calls : List Call) (messages : List Json) :
    Prop where
  replies : ∀ reply ∈ (client.perform dumps loads calls).1,
    ∃ msg, reply.2 = .ok (some msg) ∧ get? "id" msg = some (.int reply.1)
  kept : ∃ rest, Carries loads (client.perform dumps loads calls).2.process.stdout rest ∧
    rest.filter publishes = messages.filter publishes

end Sessions

variable {answers : String → Bool} {first : Int} {messages : List Json} {requested : List String}

/-! ## What stands at a place -/

theorem IsResponse.get? {id : Int} {msg : Json} (response : IsResponse id msg) :
    get? "id" msg = some (.int id) := by
  obtain ⟨fields, rfl, known, _⟩ := response
  exact known

theorem ResponseAt.unique {request other place : Nat}
    (here : ResponseAt first messages request place)
    (there : ResponseAt first messages other place) : request = other := by
  obtain ⟨msg, found, response⟩ := here
  obtain ⟨msg', found', response'⟩ := there
  obtain rfl := Option.some.inj (found.symm.trans found')
  have ids := response.get?.symm.trans response'.get?
  have same : first + request = first + other := Json.int.inj (Option.some.inj ids)
  omega

theorem responseAt_zero {msg : Json} {later : List Json} {request : Nat} :
    ResponseAt first (msg :: later) request 0 ↔ IsResponse (first + request) msg := by
  constructor
  · rintro ⟨here, found, response⟩
    rw [Option.some.inj found]
    exact response
  · exact fun response => ⟨msg, rfl, response⟩

theorem responseAt_succ {msg : Json} {later : List Json} {request place : Nat} :
    ResponseAt first (msg :: later) request (place + 1) ↔
      ResponseAt first later request place := Iff.rfl

theorem not_responseAt_nil {request place : Nat} : ¬ ResponseAt first [] request place := by
  rintro ⟨msg, found, _⟩
  cases found

/-- A response of a conforming stream answers one of the requests. -/
theorem Conforming.of_id (conforming : Conforming answers first requested messages)
    {place : Nat} {msg : Json} {id : Json} (found : messages[place]? = some msg)
    (identified : get? "id" msg = some id) :
    ∃ (request : Nat) (method : String), requested[request]? = some method ∧
      answers method = true ∧ IsResponse (first + request) msg := by
  rcases conforming.kinds msg (List.mem_of_getElem? found) with notification | response
  · obtain ⟨fields, rfl, unidentified⟩ := notification
    rw [Lsp.get?, unidentified] at identified
    cases identified
  · exact response

theorem Conforming.sent_of_responseAt (conforming : Conforming answers first requested messages)
    {request place : Nat} (response : ResponseAt first messages request place) :
    ∃ method, requested[request]? = some method ∧ answers method = true := by
  obtain ⟨msg, found, here⟩ := response
  obtain ⟨other, method, sent, answered, there⟩ := conforming.of_id found here.get?
  obtain rfl := ResponseAt.unique ⟨msg, found, here⟩ ⟨msg, found, there⟩
  exact ⟨method, sent, answered⟩

/-- Each response stands at the place of its request exactly when the stream is prompt. -/
theorem Conforming.prompt_iff (conforming : Conforming answers first requested messages) :
    (∀ request < requested.length, ResponseAt first messages request request) ↔
      Prompt answers first requested messages := by
  constructor
  · intro placed
    constructor
    · intro method member
      obtain ⟨request, found⟩ := List.mem_iff_getElem?.mp member
      have short : request < requested.length := (List.getElem?_eq_some_iff.mp found).1
      obtain ⟨other, sent, answered⟩ := conforming.sent_of_responseAt (placed request short)
      obtain rfl := Option.some.inj (found.symm.trans sent)
      exact answered
    · intro request place response earlier before
      obtain ⟨method, sent, answered⟩ := conforming.sent_of_responseAt response
      have short : request < requested.length := (List.getElem?_eq_some_iff.mp sent).1
      obtain ⟨only, _, _, unique⟩ := conforming.answered request method sent answered
      have same : place = request :=
        (unique place response).trans (unique request (placed request short)).symm
      subst same
      exact ⟨earlier, before, placed earlier (before.trans short)⟩
  · intro prompt request
    induction request using Nat.strong_induction_on with
    | _ request ih =>
        intro short
        have sent : requested[request]? = some requested[request] := List.getElem?_eq_getElem short
        have answered := prompt.known _ (List.getElem_mem short)
        obtain ⟨place, later, response, _⟩ := conforming.answered request _ sent answered
        rcases later.eq_or_lt with rfl | behind
        · exact response
        · obtain ⟨previous, before, taken⟩ := prompt.ordered request place response request behind
          obtain ⟨method, sent', answered'⟩ := conforming.sent_of_responseAt taken
          obtain ⟨_, _, _, unique⟩ := conforming.answered previous method sent' answered'
          have placed := ih previous before (before.trans short)
          have same : request = previous :=
            (unique request taken).trans (unique previous placed).symm
          exact absurd same before.ne'

variable {dumps : Json → List Char} {loads : List UInt8 → Json.Decoded Json}
variable {self : DafnyLSPClient} {calls : List Call}

/-- A message with an id is at the place of the request with the id exactly as its response. -/
theorem Conforming.responseAt_iff (conforming : Conforming answers first requested messages)
    {request : Nat} :
    (∃ msg, messages[request]? = some msg ∧ get? "id" msg = some (.int (first + request))) ↔
      ResponseAt first messages request request := by
  constructor
  · rintro ⟨msg, found, identified⟩
    obtain ⟨other, method, _, _, response⟩ := conforming.of_id found identified
    have ids := response.get?.symm.trans identified
    have same : first + other = first + request := Json.int.inj (Option.some.inj ids)
    exact ⟨msg, found, same ▸ response⟩
  · rintro ⟨msg, found, response⟩
    exact ⟨msg, found, response.get?⟩

/-- A response publishes nothing. -/
theorem IsResponse.not_publishes {id : Int} {msg : Json} (response : IsResponse id msg) :
    publishes msg = false := by
  obtain ⟨fields, rfl, _, plain⟩ := response
  rw [publishes, Lsp.get?, plain]

/-- With every response at its place, no notification is taken for one. -/
theorem filter_take_of_placed {count : Nat}
    (placed : ∀ request < count, ResponseAt first messages request request) :
    (messages.take count).filter publishes = [] := by
  apply List.filter_eq_nil_iff.mpr
  intro msg member
  obtain ⟨place, short, found⟩ := List.mem_take_iff_getElem.mp member
  obtain ⟨response, here, answers⟩ := placed place (lt_of_lt_of_le short (Nat.min_le_left _ _))
  obtain rfl := Option.some.inj (here.symm.trans (List.getElem?_eq_some_iff.mpr ⟨_, found⟩))
  exact Bool.eq_false_iff.mp answers.not_publishes

/-- Whoever has the response of every request has been answered promptly. -/
theorem Matched.prompt (carried : Carries loads self.process.stdout messages)
    (conforming : Conforming answers (self.requestId + 1) (methods calls) messages)
    (matched : Matched dumps loads self calls messages) :
    Prompt answers (self.requestId + 1) (methods calls) messages := by
  apply conforming.prompt_iff.mp
  intro request short
  apply conforming.responseAt_iff.mp
  exact (DafnyLSPClient.replies_iff calls carried).mp matched.replies request short

/-- A client that is answered promptly has the response of every request. -/
theorem Prompt.matched (carried : Carries loads self.process.stdout messages)
    (conforming : Conforming answers (self.requestId + 1) (methods calls) messages)
    (prompt : Prompt answers (self.requestId + 1) (methods calls) messages) :
    Matched dumps loads self calls messages := by
  have placed := conforming.prompt_iff.mpr prompt
  have enough : (methods calls).length ≤ messages.length := by
    by_contra few
    obtain ⟨msg, found, _⟩ := placed messages.length (Nat.lt_of_not_le few)
    rw [List.getElem?_length] at found
    cases found
  constructor
  · apply (DafnyLSPClient.replies_iff calls carried).mpr
    exact fun request short => conforming.responseAt_iff.mpr (placed request short)
  · refine ⟨_, DafnyLSPClient.carries_perform calls carried enough, ?_⟩
    conv_rhs => rw [← List.take_append_drop (methods calls).length messages]
    rw [List.filter_append, filter_take_of_placed placed, List.nil_append]

/-- A session sends a notification as a request, so the response to it never comes. -/
theorem session_not_matched {processId : Int} {rootUri : String} {body : List Call}
    (silent : answers "initialized" = false)
    (carried : Carries loads self.process.stdout messages)
    (conforming : Conforming answers (self.requestId + 1)
      (methods (session processId rootUri body)) messages) :
    ¬ Matched dumps loads self (session processId rootUri body) messages := by
  intro matched
  have sent : "initialized" ∈ methods (session processId rootUri body) :=
    List.mem_cons_of_mem _ List.mem_cons_self
  have known := (matched.prompt carried conforming).known "initialized" sent
  rw [silent] at known
  cases known

/--
Every request returns its own response, and no published diagnostics are lost,
exactly when the server answers promptly.
-/
theorem matched_iff (carried : Carries loads self.process.stdout messages)
    (conforming : Conforming answers (self.requestId + 1) (methods calls) messages) :
    Matched dumps loads self calls messages ↔
      Prompt answers (self.requestId + 1) (methods calls) messages :=
  ⟨Matched.prompt carried conforming, Prompt.matched carried conforming⟩

/-! ## A session of two requests -/

def result (id : Int) : Json := .obj [("jsonrpc", .str "2.0"), ("id", .int id), ("result", .null)]

def published : Json :=
  .obj [("jsonrpc", .str "2.0"), ("method", .str "textDocument/publishDiagnostics")]

def resultText (digit : Char) : List Char :=
  "\x7b\"jsonrpc\": \"2.0\", \"id\": ".toList ++ digit :: ", \"result\": null\x7d".toList

def publishedText : List Char :=
  "\x7b\"jsonrpc\": \"2.0\", \"method\": \"textDocument/publishDiagnostics\"\x7d".toList

def sessionCalls : List Call := [.send "initialize" .null, .send "shutdown" .null]

def requestText (digit : Char) (method : String) : List Char :=
  "\x7b\"jsonrpc\": \"2.0\", \"id\": ".toList ++ digit :: ", \"method\": \"".toList ++
    method.toList ++ "\", \"params\": null\x7d".toList

/-- `json.dumps` of the messages of the session. -/
def sessionDumps (msg : Json) : List Char :=
  match get? "id" msg, get? "method" msg with
  | some (.int 1), none => resultText '1'
  | some (.int _), none => resultText '2'
  | some (.int 1), some _ => requestText '1' "initialize"
  | some (.int _), some _ => requestText '2' "shutdown"
  | _, _ => publishedText

/-- `json.loads` of the messages of the server. -/
def sessionLoads (body : List UInt8) : Json.Decoded Json :=
  if body = Encoding.encode (resultText '1') then .ok (result 1)
  else if body = Encoding.encode (resultText '2') then .ok (result 2)
  else if body = Encoding.encode publishedText then .ok published
  else .error (.valueError "Expecting value")

theorem framed_session {msg : Json} (member : msg ∈ [result 1, result 2, published]) :
    Framed sessionLoads (frame sessionDumps msg) msg := by
  have plain : Encoding.Ascii (resultText '1') ∧ Encoding.Ascii (resultText '2') ∧
      Encoding.Ascii publishedText := by decide
  have second : sessionLoads (Encoding.encode (resultText '2')) = .ok (result 2) := by
    have apart : Encoding.encode (resultText '2') ≠ Encoding.encode (resultText '1') := by decide
    rw [sessionLoads, if_neg apart, if_pos rfl]
  have third : sessionLoads (Encoding.encode publishedText) = .ok published := by
    have apart : Encoding.encode publishedText ≠ Encoding.encode (resultText '1') ∧
        Encoding.encode publishedText ≠ Encoding.encode (resultText '2') := by decide
    rw [sessionLoads, if_neg apart.1, if_neg apart.2, if_pos rfl]
  simp only [List.mem_cons, List.not_mem_nil, or_false] at member
  rcases member with rfl | rfl | rfl
  · exact framed_frame (if_pos rfl) plain.1
  · exact framed_frame second plain.2.1
  · exact framed_frame third plain.2.2

theorem isResponse_result {id other : Int} : IsResponse id (result other) ↔ id = other := by
  constructor
  · intro response
    exact (Json.int.inj (Option.some.inj response.get?)).symm
  · rintro rfl
    exact ⟨_, rfl, rfl, rfl⟩

theorem not_isResponse_published {id : Int} : ¬ IsResponse id published := by
  intro response
  exact nomatch response.get?

/-- Whether a method is one that the protocol has a response to. -/
def answered (method : String) : Bool := method != "initialized"

/-- A client whose server has written these messages. -/
def connected (messages : List Json) : DafnyLSPClient :=
  ⟨⟨[], messages.flatMap (frame sessionDumps)⟩, 0⟩

/-- The second response is behind the first, and there is nothing else but notifications. -/
theorem conforming_session {messages : List Json} {second : Nat}
    (members : ∀ msg ∈ messages, msg ∈ [result 1, result 2, published]) (behind : 1 ≤ second)
    (placed : ∀ request place, ResponseAt 1 messages request place ↔
      request = 0 ∧ place = 0 ∨ request = 1 ∧ place = second) :
    Conforming answered 1 (methods sessionCalls) messages := by
  constructor
  · intro msg member
    have known := members msg member
    simp only [List.mem_cons, List.not_mem_nil, or_false] at known
    rcases known with rfl | rfl | rfl
    · exact .inr ⟨0, "initialize", rfl, rfl, isResponse_result.mpr rfl⟩
    · exact .inr ⟨1, "shutdown", rfl, rfl, isResponse_result.mpr rfl⟩
    · exact .inl ⟨_, rfl, rfl⟩
  · intro request method sent _
    have short : request < 2 := (List.getElem?_eq_some_iff.mp sent).1
    have either : request = 0 ∨ request = 1 := by omega
    rcases either with rfl | rfl
    · refine ⟨0, Nat.le_refl 0, (placed 0 0).mpr (.inl ⟨rfl, rfl⟩), fun other there => ?_⟩
      rcases (placed 0 other).mp there with ⟨_, here⟩ | ⟨impossible, _⟩
      · exact here
      · cases impossible
    · refine ⟨second, behind, (placed 1 second).mpr (.inr ⟨rfl, rfl⟩), fun other there => ?_⟩
      rcases (placed 1 other).mp there with ⟨impossible, _⟩ | ⟨_, here⟩
      · cases impossible
      · exact here

def inOrder : List Json := [result 1, result 2, published]

theorem responseAt_inOrder (request place : Nat) : ResponseAt 1 inOrder request place ↔
    request = 0 ∧ place = 0 ∨ request = 1 ∧ place = 1 := by
  unfold inOrder
  rcases place with _ | _ | _ | place
  · rw [responseAt_zero, isResponse_result]
    omega
  · rw [responseAt_succ, responseAt_zero, isResponse_result]
    omega
  · rw [responseAt_succ, responseAt_succ, responseAt_zero]
    exact iff_of_false not_isResponse_published (by omega)
  · rw [responseAt_succ, responseAt_succ, responseAt_succ]
    exact iff_of_false not_responseAt_nil (by omega)

theorem inOrder_matched :
    Matched sessionDumps sessionLoads (connected inOrder) sessionCalls inOrder := by
  have carried : Carries sessionLoads (connected inOrder).process.stdout inOrder :=
    carries_frames fun msg member => framed_session member
  have conforming : Conforming answered 1 (methods sessionCalls) inOrder :=
    conforming_session (fun _ member => member) (Nat.le_refl 1) responseAt_inOrder
  refine (matched_iff carried conforming).mpr ⟨by decide, ?_⟩
  intro request place response earlier before
  rcases (responseAt_inOrder request place).mp response with ⟨_, rfl⟩ | ⟨rfl, rfl⟩
  · cases before
  · obtain rfl := Nat.lt_one_iff.mp before
    exact ⟨0, Nat.one_pos, (responseAt_inOrder 0 0).mpr (.inl ⟨rfl, rfl⟩)⟩

/-- Diagnostics are published while the client waits for the second response. -/
def crossed : List Json := [result 1, published, result 2]

theorem responseAt_crossed (request place : Nat) : ResponseAt 1 crossed request place ↔
    request = 0 ∧ place = 0 ∨ request = 1 ∧ place = 2 := by
  unfold crossed
  rcases place with _ | _ | _ | place
  · rw [responseAt_zero, isResponse_result]
    omega
  · rw [responseAt_succ, responseAt_zero]
    exact iff_of_false not_isResponse_published (by omega)
  · rw [responseAt_succ, responseAt_succ, responseAt_zero, isResponse_result]
    omega
  · rw [responseAt_succ, responseAt_succ, responseAt_succ]
    exact iff_of_false not_responseAt_nil (by omega)

theorem crossed_not_matched :
    Carries sessionLoads (connected crossed).process.stdout crossed ∧
      Conforming answered 1 (methods sessionCalls) crossed ∧
      ¬ Matched sessionDumps sessionLoads (connected crossed) sessionCalls crossed := by
  have members : ∀ msg ∈ crossed, msg ∈ [result 1, result 2, published] := by
    simp only [crossed, List.forall_mem_cons]
    exact ⟨List.mem_cons_self, List.mem_cons_of_mem _ (List.mem_cons_of_mem _ List.mem_cons_self),
      List.mem_cons_of_mem _ List.mem_cons_self, fun _ impossible => nomatch impossible⟩
  have carried : Carries sessionLoads (connected crossed).process.stdout crossed :=
    carries_frames fun msg member => framed_session (members msg member)
  have conforming : Conforming answered 1 (methods sessionCalls) crossed :=
    conforming_session members (Nat.le_succ 1) responseAt_crossed
  refine ⟨carried, conforming, fun matched => ?_⟩
  have prompt := matched.prompt carried conforming
  have last : ResponseAt 1 crossed 1 2 := (responseAt_crossed 1 2).mpr (.inr ⟨rfl, rfl⟩)
  obtain ⟨previous, _, between⟩ := prompt.ordered 1 2 last 1 Nat.one_lt_two
  rcases (responseAt_crossed previous 1).mp between with ⟨_, impossible⟩ | ⟨_, impossible⟩
  · cases impossible
  · cases impossible

end SchedExt.Lsp
