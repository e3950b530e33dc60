import SchedExt.Foundations.Retry
import SchedExt.Foundations.Run

/-!
# Conversations with the model

A conversation grows by what an agent asks and by the answer to it.  A call is
repeated a few times; what it sends is made once, before the first attempt, and
the domain knowledge goes with the first question only.
-/

namespace SchedExt.Agents

open Foundations

inductive Role where
  | user
  | assistant
  deriving DecidableEq

structure Message where
  role : Role
  content : String
  deriving DecidableEq

structure Conversation where
  systemPrompt : String
  messages : List Message := []
  knowledgeContext : String := ""

namespace Conversation

/-- `add_user` -/
def addUser (self : Conversation) (content : String) : Conversation :=
  { self with messages := self.messages ++ [⟨.user, content⟩] }

/-- `add_assistant` -/
def addAssistant (self : Conversation) (content : String) : Conversation :=
  { self with messages := self.messages ++ [⟨.assistant, content⟩] }

/-- A question after the domain knowledge. -/
def informed (knowledge content : String) : String :=
  "<domain_knowledge>\n" ++ knowledge ++ "\n</domain_knowledge>\n\n" ++ content

/-- `to_api_messages` -/
def toApiMessages (self : Conversation) : List Message :=
  if self.knowledgeContext ≠ "" ∧ self.messages.length ≤ 1 then
    ⟨.user, informed self.knowledgeContext ((self.messages.head?.map Message.content).getD "")⟩ ::
      self.messages.drop 1
  else self.messages

end Conversation

/-- How the service replies to one attempt. -/
inductive Reply where
  | response (inputTokens outputTokens : Nat) (content : List String)
  | rateLimitError
  | apiError

/-- What `complete` raises. -/
inductive CompletionFault where
  | apiError
  | indexError
  | runtimeError
  deriving DecidableEq

structure LLMClient where
  totalInputTokens : Nat
  totalOutputTokens : Nat

/-- `range(3)` -/
def maxAttempts : Nat := 3

/-- A usage of tokens, and the response to it, if the third attempt does not raise. -/
abbrev Answer := Option (Nat × Nat × List String)

/-- One attempt of `complete`: the seconds slept, or how it ends. -/
def attemptOf (reply : Reply) (attempt : Nat) : Attempt Answer :=
  match reply with
  | .response inputTokens outputTokens content =>
      .ends (some (inputTokens, outputTokens, content))
  | .rateLimitError => .again (2 ^ attempt * 5)
  | .apiError => if attempt = 2 then .ends none else .again 2

/-- The loop of a call. -/
def retried (replies : Nat → Reply) : Retried Answer :=
  retry (fun attempt => attemptOf (replies attempt) attempt) maxAttempts 0

/-- What `complete` leaves and returns or raises, and what it has sent and slept. -/
structure Completion where
  client : LLMClient
  conversation : Conversation
  outcome : Except CompletionFault String
  sent : List Message
  attempts : Nat
  slept : Nat

/-- What becomes of the client and the conversation, and what is returned or raised. -/
def LLMClient.ended (self : LLMClient) (conversation : Conversation) :
    Option Answer → LLMClient × Conversation × Except CompletionFault String
  | none => (self, conversation, .error .runtimeError)
  | some none => (self, conversation, .error .apiError)
  | some (some (inputTokens, outputTokens, content)) =>
      let counted : LLMClient :=
        ⟨self.totalInputTokens + inputTokens, self.totalOutputTokens + outputTokens⟩
      match content with
      | [] => (counted, conversation, .error .indexError)
      | text :: _ => (counted, conversation.addAssistant text, .ok text)

/-- `complete` -/
def LLMClient.complete (self : LLMClient) (conversation : Conversation) (replies : Nat → Reply) :
    Completion :=
  let messages := conversation.toApiMessages
  let loop := retried replies
  let (client, conversation, outcome) := self.ended conversation loop.result
  ⟨client, conversation, outcome, messages, loop.attempts, loop.waited⟩

variable {self : LLMClient} {conversation : Conversation} {replies : Nat → Reply}

/-! ## One call -/

/-- A reply that the loop goes on after. -/
def Reply.repeats (reply : Reply) (attempt : Nat) : Prop :=
  reply = .rateLimitError ∨ reply = .apiError ∧ attempt ≠ 2

theorem repeats_iff {reply : Reply} {attempt : Nat} :
    (∃ wait, attemptOf reply attempt = .again wait) ↔ reply.repeats attempt := by
  cases reply with
  | response inputTokens outputTokens content => simp [attemptOf, Reply.repeats]
  | rateLimitError => simp [attemptOf, Reply.repeats]
  | apiError => by_cases last : attempt = 2 <;> simp [attemptOf, Reply.repeats, last]

theorem wait_attemptOf_le (reply : Reply) (attempt : Nat) :
    (attemptOf reply attempt).wait ≤ 2 ^ attempt * 5 := by
  have positive : 1 ≤ 2 ^ attempt := Nat.one_le_two_pow
  cases reply with
  | response inputTokens outputTokens content => exact Nat.zero_le _
  | rateLimitError => exact Nat.le_refl _
  | apiError =>
      by_cases last : attempt = 2
      · simp [attemptOf, last, Attempt.wait]
      · simp only [attemptOf, if_neg last, Attempt.wait]
        omega

/-- The tokens that a call is charged. -/
def usage (replies : Nat → Reply) : Nat × Nat :=
  match (retried replies).result with
  | some (some (inputTokens, outputTokens, _)) => (inputTokens, outputTokens)
  | _ => (0, 0)

theorem complete_slept_le : (self.complete conversation replies).slept ≤ 35 := by
  have bounded := @waited_retry_le _ (fun attempt => attemptOf (replies attempt) attempt)
    maxAttempts 0 (fun attempt => 2 ^ attempt * 5) fun attempt => wait_attemptOf_le _ attempt
  exact bounded.trans (by decide)

/-- A call is charged for the response it gets. -/
theorem complete_client :
    (self.complete conversation replies).client =
      ⟨self.totalInputTokens + (usage replies).1, self.totalOutputTokens + (usage replies).2⟩ := by
  unfold LLMClient.complete usage
  dsimp only
  match (retried replies).result with
  | none => rfl
  | some none => rfl
  | some (some (_, _, [])) => rfl
  | some (some (_, _, _ :: _)) => rfl

/-- The conversation has the text that a call returns, and nothing of one that raises. -/
theorem complete_conversation :
    (self.complete conversation replies).conversation =
      match (self.complete conversation replies).outcome with
      | .ok text => conversation.addAssistant text
      | .error _ => conversation := by
  unfold LLMClient.complete
  dsimp only
  match (retried replies).result with
  | none => rfl
  | some none => rfl
  | some (some (_, _, [])) => rfl
  | some (some (_, _, _ :: _)) => rfl

theorem outcome_eq_ok_iff {text : String} :
    (self.complete conversation replies).outcome = .ok text ↔
      ∃ inputTokens outputTokens rest,
        (retried replies).result = some (some (inputTokens, outputTokens, text :: rest)) := by
  unfold LLMClient.complete
  dsimp only
  match (retried replies).result with
  | none => simp [LLMClient.ended]
  | some none => simp [LLMClient.ended]
  | some (some (_, _, [])) => simp [LLMClient.ended]
  | some (some (_, _, _ :: _)) => simp [LLMClient.ended]

theorem attemptOf_eq_ends_iff {reply : Reply} {attempt inputTokens outputTokens : Nat}
    {content : List String} :
    attemptOf reply attempt = .ends (some (inputTokens, outputTokens, content)) ↔
      reply = .response inputTokens outputTokens content := by
  cases reply with
  | response _ _ _ => simp [attemptOf]
  | rateLimitError => simp [attemptOf]
  | apiError => by_cases last : attempt = 2 <;> simp [attemptOf, last]

/-- The first response that comes within three attempts has this text first. -/
def InTime (replies : Nat → Reply) (text : String) : Prop :=
  ∃ attempt < maxAttempts, (∀ earlier < attempt, (replies earlier).repeats earlier) ∧
    ∃ inputTokens outputTokens rest,
      replies attempt = .response inputTokens outputTokens (text :: rest)

theorem complete_eq_ok_iff {text : String} :
    (self.complete conversation replies).outcome = .ok text ↔ InTime replies text := by
  have undecided (attempt : Nat) :
      Undecided (fun attempt => attemptOf (replies attempt) attempt) 0 attempt ↔
        ∀ earlier < attempt, (replies earlier).repeats earlier := by
    simp only [Undecided, Nat.zero_add, repeats_iff]
  rw [outcome_eq_ok_iff]
  constructor
  · rintro ⟨inputTokens, outputTokens, rest, ended⟩
    obtain ⟨attempt, within, -, before, ends⟩ := retry_eq_some_iff.mp ⟨ended, rfl⟩
    rw [Nat.zero_add] at ends
    exact ⟨attempt, within, (undecided attempt).mp before, inputTokens, outputTokens, rest,
      attemptOf_eq_ends_iff.mp ends⟩
  · rintro ⟨attempt, within, before, inputTokens, outputTokens, rest, response⟩
    refine ⟨inputTokens, outputTokens, rest, ?_⟩
    refine (retry_eq_some_iff.mpr ⟨attempt, within, rfl, (undecided attempt).mpr before, ?_⟩).1
    rw [Nat.zero_add]
    exact attemptOf_eq_ends_iff.mpr response

/-! ## Dialogues -/

/-- A client in a conversation. -/
structure Dialogue where
  client : LLMClient
  conversation : Conversation

/-- What is asked, and how the service replies to the attempts of the call. -/
structure Question where
  content : String
  replies : Nat → Reply

/-- The call that a question leads to. -/
def Dialogue.call (self : Dialogue) (question : Question) : Completion :=
  self.client.complete (self.conversation.addUser question.content) question.replies

/-- A question is added to the conversation, and the conversation completed. -/
def Dialogue.asked (self : Dialogue) (question : Question) : Dialogue where
  client := (self.call question).client
  conversation := (self.call question).conversation

/-- A question may also follow a call that has raised. -/
inductive DialogueStep : Dialogue → Question → Dialogue → Prop where
  | ask {before : Dialogue} (question : Question) :
      DialogueStep before question (before.asked question)

abbrev Taken := Transition Dialogue Question

/-- The call of a step. -/
def callOf (taken : Taken) : Completion := taken.source.call taken.event

/-- The messages that a step leaves in the conversation. -/
def exchange (taken : Taken) : List Message :=
  ⟨.user, taken.event.content⟩ ::
    match (callOf taken).outcome with
    | .ok text => [⟨.assistant, text⟩]
    | .error _ => []

def transcript (history : List Taken) : List Message := history.flatMap exchange

/-- The step has got its answer. -/
def Answers (taken : Taken) : Prop := ∃ text, (callOf taken).outcome = .ok text

/-- Roles take turns, from the user on. -/
def Alternates (messages : List Message) : Prop :=
  ∀ place message, messages[place]? = some message →
    message.role = if place % 2 = 0 then .user else .assistant

theorem alternates_singleton {first : Message} (user : first.role = .user) :
    Alternates [first] := by
  intro place message found
  rw [List.getElem?_singleton] at found
  split at found
  · rename_i here
    cases found
    rw [here]
    exact user
  · cases found

theorem alternates_pair {first second : Message} {rest : List Message} :
    Alternates (first :: second :: rest) ↔
      first.role = .user ∧ second.role = .assistant ∧ Alternates rest := by
  constructor
  · intro alternates
    refine ⟨alternates 0 first rfl, alternates 1 second rfl, fun place message found => ?_⟩
    have turn := alternates (place + 2) message found
    rwa [Nat.add_mod_right] at turn
  · rintro ⟨user, assistant, later⟩ place message found
    match place with
    | 0 =>
        cases found
        exact user
    | 1 =>
        cases found
        exact assistant
    | place + 2 =>
        rw [Nat.add_mod_right]
        exact later place message found

/-- A question without an answer has another one behind it. -/
theorem not_alternates_users {first second : Message} {rest : List Message}
    (user : second.role = .user) : ¬ Alternates (first :: second :: rest) := by
  intro alternates
  have assistant := (alternates_pair.mp alternates).2.1
  rw [user] at assistant
  cases assistant

theorem transcript_cons (taken : Taken) (rest : List Taken) :
    transcript (taken :: rest) = exchange taken ++ transcript rest :=
  List.flatMap_cons

/-- A new question makes turns with all that came before exactly if that was answered. -/
theorem alternates_transcript_iff (history : List Taken) (content : String) :
    Alternates (transcript history ++ [⟨.user, content⟩]) ↔
      ∀ taken ∈ history, Answers taken := by
  induction history with
  | nil => exact iff_of_true (alternates_singleton rfl) (List.forall_mem_nil _)
  | cons taken rest ih =>
      rw [transcript_cons, List.append_assoc, exchange, List.forall_mem_cons, ← ih]
      cases outcome : (callOf taken).outcome with
      | ok text =>
          have answers : Answers taken := ⟨text, outcome⟩
          exact alternates_pair.trans
            ⟨fun turns => ⟨answers, turns.2.2⟩, fun both => ⟨rfl, rfl, both.2⟩⟩
      | error fault =>
          refine iff_of_false ?_ ?_
          · cases rest with
            | nil => exact not_alternates_users rfl
            | cons next later =>
                rw [transcript_cons, exchange]
                exact not_alternates_users rfl
          · rintro ⟨⟨text, answered⟩, _⟩
            cases outcome.symm.trans answered

theorem transcript_eq_nil_iff (history : List Taken) : transcript history = [] ↔ history = [] := by
  cases history with
  | nil => exact iff_of_true rfl rfl
  | cons taken rest =>
      rw [transcript_cons, exchange]
      exact iff_of_false (List.cons_ne_nil _ _) (List.cons_ne_nil _ _)

/-- What a run has made of a conversation that was new. -/
structure Conducted (opening : Dialogue) (history : List Taken) (dialogue : Dialogue) : Prop where
  messages : dialogue.conversation.messages = transcript history
  knowledge : dialogue.conversation.knowledgeContext = opening.conversation.knowledgeContext
  prompt : dialogue.conversation.systemPrompt = opening.conversation.systemPrompt

theorem exchange_eq (taken : Taken) :
    (callOf taken).conversation.messages =
      taken.source.conversation.messages ++ exchange taken := by
  have grows : (callOf taken).conversation = _ := complete_conversation
  rw [grows, ← Dialogue.call, ← callOf, exchange]
  cases (callOf taken).outcome with
  | ok text => exact List.append_assoc _ _ _
  | error fault => rfl

theorem knowledge_call (dialogue : Dialogue) (question : Question) :
    (dialogue.call question).conversation.knowledgeContext =
        dialogue.conversation.knowledgeContext ∧
      (dialogue.call question).conversation.systemPrompt =
        dialogue.conversation.systemPrompt := by
  have grows : (dialogue.call question).conversation = _ := complete_conversation
  rw [grows]
  split <;> exact ⟨rfl, rfl⟩

theorem conducted_step {opening before after : Dialogue} {history : List Taken}
    {question : Question} (conducted : Conducted opening history before)
    (step : DialogueStep before question after) :
    Conducted opening (history ++ [⟨before, question, after⟩]) after := by
  cases step with
  | ask =>
      obtain ⟨knowledge, prompt⟩ := knowledge_call before question
      refine ⟨?_, knowledge.trans conducted.knowledge, prompt.trans conducted.prompt⟩
      rw [transcript, List.flatMap_append, ← transcript, ← conducted.messages,
        List.flatMap_singleton]
      exact exchange_eq ⟨before, question, _⟩

theorem conducted_of_run {opening dialogue : Dialogue} {history : List Taken}
    (fresh : opening.conversation.messages = []) (run : Run DialogueStep opening history dialogue) :
    Conducted opening history dialogue := by
  induction run with
  | refl => exact ⟨fresh, rfl, rfl⟩
  | tail earlier last ih => exact conducted_step ih last

/-- What is sent with a question: the knowledge goes with the first one only. -/
def requested (knowledge : String) (before : List Taken) (content : String) : List Message :=
  if before = [] ∧ knowledge ≠ "" then [⟨.user, Conversation.informed knowledge content⟩]
  else transcript before ++ [⟨.user, content⟩]

/-- One call of a dialogue: what it sends, how long it may take, and when it is answered. -/
structure Call (knowledge : String) (before : List Taken) (taken : Taken) : Prop where
  sent : (callOf taken).sent = requested knowledge before taken.event.content
  asks : (callOf taken).sent.getLast?.map Message.role = some .user
  alternates : Alternates (callOf taken).sent ↔ ∀ earlier ∈ before, Answers earlier
  attempts : (callOf taken).attempts ≤ maxAttempts
  slept : (callOf taken).slept ≤ 35
  answers : ∀ text, (callOf taken).outcome = .ok text ↔ InTime taken.event.replies text

/-- A request is made of the questions asked and the answers given so far. -/
theorem toApiMessages_addUser {conversation : Conversation} {before : List Taken}
    (messages : conversation.messages = transcript before) (content : String) :
    (conversation.addUser content).toApiMessages =
      requested conversation.knowledgeContext before content := by
  have first : (conversation.addUser content).messages.length ≤ 1 ↔ before = [] := by
    rw [Conversation.addUser, messages, List.length_append, List.length_singleton,
      ← transcript_eq_nil_iff, ← List.length_eq_zero_iff]
    omega
  unfold Conversation.toApiMessages requested
  by_cases informs : before = [] ∧ conversation.knowledgeContext ≠ ""
  · obtain ⟨rfl, knowledge⟩ := informs
    rw [if_pos ⟨knowledge, first.mpr rfl⟩, if_pos ⟨rfl, knowledge⟩, Conversation.addUser, messages]
    rfl
  · rw [if_neg fun sends => informs ⟨first.mp sends.2, sends.1⟩, if_neg informs,
      Conversation.addUser, messages]

theorem alternates_requested_iff (knowledge : String) (before : List Taken) (content : String) :
    Alternates (requested knowledge before content) ↔ ∀ earlier ∈ before, Answers earlier := by
  unfold requested
  split
  · rename_i informs
    rw [informs.1]
    exact iff_of_true (alternates_singleton rfl) (List.forall_mem_nil _)
  · exact alternates_transcript_iff before content

theorem getLast_requested (knowledge : String) (before : List Taken) (content : String) :
    (requested knowledge before content).getLast?.map Message.role = some .user := by
  unfold requested
  split
  · rfl
  · rw [List.getLast?_concat]
    rfl

theorem client_of_run {opening dialogue : Dialogue} {history : List Taken}
    (run : Run DialogueStep opening history dialogue) :
    dialogue.client =
      ⟨opening.client.totalInputTokens +
          (history.map fun taken => (usage taken.event.replies).1).sum,
        opening.client.totalOutputTokens +
          (history.map fun taken => (usage taken.event.replies).2).sum⟩ := by
  induction run with
  | refl => rfl
  | tail earlier last ih =>
      cases last with
      | ask =>
          rw [List.map_append, List.sum_append, List.map_append, List.sum_append, ← Nat.add_assoc,
            ← Nat.add_assoc]
          change (LLMClient.complete _ _ _).client = _
          rw [complete_client, ih]
          simp

/--
In a conversation that was new, each call sends all questions so far with the
answers there were, the new one last, and the domain knowledge in the first
request alone; the roles take turns exactly if every earlier call was answered.
It makes at most three attempts, sleeps for at most 35 seconds, and returns the
text of the response that comes within its attempts.  The conversation keeps
the questions and the answers, and the client is charged for the responses.
-/
theorem dialogue_of_run {opening dialogue : Dialogue} {history : List Taken}
    (fresh : opening.conversation.messages = [])
    (run : Run DialogueStep opening history dialogue) :
    (∀ before taken after, history = before ++ taken :: after →
      Call opening.conversation.knowledgeContext before taken) ∧
      dialogue.conversation.messages = transcript history ∧
        dialogue.client =
          ⟨opening.client.totalInputTokens +
              (history.map fun taken => (usage taken.event.replies).1).sum,
            opening.client.totalOutputTokens +
              (history.map fun taken => (usage taken.event.replies).2).sum⟩ := by
  refine ⟨?_, (conducted_of_run fresh run).messages, client_of_run run⟩
  rintro before taken after rfl
  obtain ⟨earlier, last, -⟩ := run.split
  have conducted := conducted_of_run fresh earlier
  have sent : (callOf taken).sent =
      requested opening.conversation.knowledgeContext before taken.event.content := by
    rw [← conducted.knowledge]
    exact toApiMessages_addUser conducted.messages taken.event.content
  refine ⟨sent, ?_, ?_, attempts_retry_le, complete_slept_le, fun text => complete_eq_ok_iff⟩
  · rw [sent]
    exact getLast_requested _ _ _
  · rw [sent]
    exact alternates_requested_iff _ _ _

/-- A conversation about some facts. -/
def informedOpening : Dialogue := ⟨⟨0, 0⟩, ⟨"", [], "facts"⟩⟩

/-- The service is busy at first, and then fails and draws a text. -/
def draft : Question where
  content := "Specify."
  replies
    | 0 => .rateLimitError
    | 1 => .apiError
    | _ => .response 7 5 ["spec"]

/-- The service never replies. -/
def correction : Question := ⟨"Fix it.", fun _ => .rateLimitError⟩

/-- The service replies at once. -/
def insistence : Question := ⟨"Fix it now.", fun _ => .response 9 3 ["fixed"]⟩

/-- A question is asked after a call that raised, and two of the user follow each other. -/
theorem drafted_of_run :
    let drafted := informedOpening.asked draft
    let corrected := drafted.asked correction
    let insisted := corrected.asked insistence
    let history : List Taken :=
      [⟨informedOpening, draft, drafted⟩, ⟨drafted, correction, corrected⟩,
        ⟨corrected, insistence, insisted⟩]
    ((∀ before taken after, history = before ++ taken :: after → Call "facts" before taken) ∧
      insisted.conversation.messages = transcript history ∧
        insisted.client =
          ⟨0 + (history.map fun taken => (usage taken.event.replies).1).sum,
            0 + (history.map fun taken => (usage taken.event.replies).2).sum⟩) ∧
      transcript history =
        [⟨.user, "Specify."⟩, ⟨.assistant, "spec"⟩, ⟨.user, "Fix it."⟩, ⟨.user, "Fix it now."⟩,
          ⟨.assistant, "fixed"⟩] := by
  intro drafted corrected insisted history
  have first : Run DialogueStep informedOpening _ drafted := .tail .refl (.ask draft)
  have second : Run DialogueStep informedOpening _ corrected := first.tail (.ask correction)
  have third : Run DialogueStep informedOpening history insisted := second.tail (.ask insistence)
  exact ⟨dialogue_of_run rfl third, by decide⟩

end SchedExt.Agents
