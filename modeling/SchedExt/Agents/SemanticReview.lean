import SchedExt.Agents.Integrity
import SchedExt.Agents.VerifyAgent

/-!
# A negative review

A response with one review, which is negative, is a failure of the execution
as long as the braces of the response enclose nothing but one document.
-/

namespace SchedExt.Agents

open Foundations Orchestrator

/--
The reader of documents: it rejects every text that is not exactly one value,
and a text that begins with a brace is no other value than an object.
-/
structure ReadsValues (jsonValue : List Char → Option Json)
    (loads : List Char → Except LoadsFault Json) : Prop where
  rejects : ∀ text, jsonValue text = none → loads text = .error .jsonDecodeError
  accepts : ∀ text value, jsonValue text = some value →
    loads text = .ok value ∨ loads text = .error .raised
  objects : ∀ body value, jsonValue ('\x7b' :: body) = some value → ∃ data, value = .obj data

namespace VerifyAgent

section Reviews

variable (jsonValue : List Char → Option Json)

/-- A part of a response that is an object with the field `is_consistent`. -/
structure ReviewAt (response before object : List Char) (consistent : Json) : Prop where
  whole : ∃ after, response = before ++ (object ++ after)
  bracketed : Enclosure.Bracketed '\x7b' '\x7d' object
  reviews : ∃ data, jsonValue object = some (.obj data) ∧
    data.lookup "is_consistent" = some consistent

/-- The response has exactly one review, and that is negative. -/
structure NegativeReview (response : List Char) : Prop where
  present : ∃ before object, ReviewAt jsonValue response before object (.bool false)
  unique : ∀ {before object consistent before' object' consistent'},
    ReviewAt jsonValue response before object consistent →
    ReviewAt jsonValue response before' object' consistent' → before = before' ∧ object = object'

/-- The part from the first opening brace to the last closing one is one value. -/
def EnclosesValue (response : List Char) : Prop :=
  ∃ part value, Enclosure.Widest '\x7b' '\x7d' response part ∧ jsonValue part = some value

end Reviews

/-- There are specifications to review, and every file of the conversation can be read. -/
structure Prompted {Text : Type} (before : Workspace Text) (pipeline : PipelineState) : Prop where
  specified : before.listByKind .dafnySpec ≠ []
  readable : ∀ path ∈ promptFiles before (specPaths before) pipeline,
    ∃ content, readText before path = .ok content

variable {Text : Type} {sha256 : ByteArray → String} {codec : JsonCodec Text}
variable {jsonValue : List Char → Option Json} {loads : List Char → Except LoadsFault Json}
variable {str : Json → String} {env : Environment} {pipeline : PipelineState}
variable {before : Workspace Text}

/-! ## The execution -/

/-- What `_semantic_review` returns, it takes from the response. -/
theorem semanticReview_eq_ok_iff {paths : List String} {review : SpecReviewResult} :
    semanticReview loads env before paths pipeline = .ok review ↔
      (∀ path ∈ promptFiles before paths pipeline, ∃ content, readText before path = .ok content) ∧
        reviewOf loads (env.responses 0) = .ok review := by
  rw [← Json.exists_mapM_iff]
  unfold semanticReview
  cases read : (promptFiles before paths pipeline).mapM (readText before) with
  | error fault =>
      constructor
      · intro impossible
        cases impossible
      · rintro ⟨⟨contents, impossible⟩, _⟩
        cases impossible
  | ok contents =>
      constructor
      · intro reviewed
        exact ⟨⟨contents, rfl⟩, reviewed⟩
      · exact And.right

/-- A review that does not pass is reported as a failure, if at all. -/
theorem success_incomplete {review : SpecReviewResult} {result : StageResult}
    (reported : incomplete str review = .ok result) : result.success = false := by
  unfold incomplete at reported
  cases missing : slice review.missingConstraints 10 with
  | error fault =>
      rw [missing] at reported
      cases reported
  | ok missing' =>
      rw [missing] at reported
      cases suggested : slice review.suggestions 5 with
      | error fault =>
          rw [suggested] at reported
          cases reported
      | ok suggested' =>
          rw [suggested] at reported
          cases reported
          rfl

/-- A review leads to a success exactly when it passes. -/
theorem success_concluded_iff {now : Timestamp} {paths : List String} {verifyOutput : String}
    {review : SpecReviewResult} :
    (∃ after result, concluded sha256 codec str now before paths verifyOutput review =
        .ok (after, result) ∧ result.success = true) ↔ review.isConsistent.truthy = true := by
  unfold concluded
  split
  · rename_i passes
    exact iff_of_true ⟨_, _, rfl, rfl⟩ passes
  · rename_i negative
    refine iff_of_false ?_ negative
    rintro ⟨after, result, returned, success⟩
    cases reported : incomplete str review with
    | error fault =>
        rw [reported] at returned
        cases returned
    | ok failure =>
        rw [reported] at returned
        cases returned
        rw [success_incomplete reported] at success
        cases success

/-- A success is a review that passes, after every file of the conversation was read. -/
theorem reportsSuccess_iff
    (dafny : (runDafnyVerify (env.verdicts 0) (specPaths before)).1 = true) :
    ReportsSuccess sha256 codec loads str env pipeline before ↔ Prompted before pipeline ∧
      ∃ review, reviewOf loads (env.responses 0) = .ok review ∧
        review.isConsistent.truthy = true := by
  unfold ReportsSuccess run
  split
  · rename_i unspecified
    refine iff_of_false ?_ ?_
    · rintro ⟨after, result, returned, success⟩
      cases returned
      cases success
    · rintro ⟨prompted, _⟩
      exact prompted.specified (List.isEmpty_iff.mp unspecified)
  · rename_i specified
    dsimp only
    rw [if_pos dafny]
    constructor
    · rintro ⟨after, result, returned, success⟩
      cases reviewed : semanticReview loads env before (specPaths before) pipeline with
      | error fault =>
          rw [reviewed] at returned
          cases returned
      | ok review =>
          rw [reviewed] at returned
          obtain ⟨readable, taken⟩ := semanticReview_eq_ok_iff.mp reviewed
          have present := fun empty => specified (List.isEmpty_iff.mpr empty)
          exact ⟨⟨present, readable⟩, review, taken,
            success_concluded_iff.mp ⟨after, result, returned, success⟩⟩
    · rintro ⟨prompted, review, taken, passes⟩
      rw [semanticReview_eq_ok_iff.mpr ⟨prompted.readable, taken⟩]
      exact success_concluded_iff.mpr passes

/-! ## The review -/

/-- The one review of a response is negative. -/
theorem NegativeReview.eq_false {response before object : List Char} {consistent : Json}
    (negative : NegativeReview jsonValue response)
    (review : ReviewAt jsonValue response before object consistent) : consistent = .bool false := by
  obtain ⟨first, found, negated⟩ := negative.present
  obtain ⟨_, rfl⟩ := negative.unique review negated
  obtain ⟨data, value, known⟩ := review.reviews
  obtain ⟨data', value', known'⟩ := negated.reviews
  obtain rfl := Json.obj.inj (Option.some.inj (value.symm.trans value'))
  exact Option.some.inj (known.symm.trans known')

/-- A value in braces with the field is a review, and without it the default is negative. -/
theorem NegativeReview.field_eq_false {response before part after : List Char}
    {data : List (String × Json)} (negative : NegativeReview jsonValue response)
    (whole : response = before ++ (part ++ after))
    (bracketed : Enclosure.Bracketed '\x7b' '\x7d' part)
    (value : jsonValue part = some (.obj data)) :
    field data "is_consistent" (.bool false) = .bool false := by
  unfold field
  cases known : data.lookup "is_consistent" with
  | none => rfl
  | some consistent =>
      have review : ReviewAt jsonValue response before part consistent :=
        ⟨⟨after, whole⟩, bracketed, data, value, known⟩
      exact negative.eq_false review

/-- A negative review passes exactly where the braces enclose something else than one value. -/
theorem passes_iff {response : String} (reads : ReadsValues jsonValue loads)
    (negative : NegativeReview jsonValue response.toList) :
    (∃ review, reviewOf loads response = .ok review ∧ review.isConsistent.truthy = true) ↔
      ¬ EnclosesValue jsonValue response.toList := by
  obtain ⟨first, object, ⟨⟨rest, whole⟩, bracketed, _⟩⟩ := negative.present
  obtain ⟨part, widest⟩ := Enclosure.exists_widest bracketed whole
  have only {other : List Char} (found : Enclosure.Widest '\x7b' '\x7d' response.toList other) :
      other = part :=
    Option.some.inj ((Enclosure.widest_eq_some_iff.mpr found).symm.trans
      (Enclosure.widest_eq_some_iff.mpr widest))
  obtain ⟨body, shape⟩ := widest.bracketed
  obtain ⟨front, back, splits, _⟩ := widest.whole
  unfold reviewOf
  rw [Enclosure.widest_eq_some_iff.mpr widest]
  dsimp only
  cases value : jsonValue part with
  | none =>
      rw [reads.rejects part value]
      refine iff_of_true ⟨_, rfl, rfl⟩ ?_
      rintro ⟨other, document, found, known⟩
      rw [only found, value] at known
      cases known
  | some document =>
      refine iff_of_false ?_ (not_not_intro ⟨part, document, widest, value⟩)
      rintro ⟨review, taken, passes⟩
      have braced : jsonValue ('\x7b' :: (body ++ ['\x7d'])) = some document := by
        rw [← shape]
        exact value
      obtain ⟨data, rfl⟩ := reads.objects _ document braced
      rcases reads.accepts part _ value with loaded | raised
      · rw [loaded] at taken
        cases taken
        rw [negative.field_eq_false splits ⟨body, shape⟩ value] at passes
        cases passes
      · rw [raised] at taken
        cases taken

/--
After a run of Dafny that succeeds, a negative review is not reported as a success
exactly when there was nothing to review, or a file could not be read, or the
part of the response from its first opening brace to its last closing one is one value.
-/
theorem negativeReview_rejected_iff (reads : ReadsValues jsonValue loads)
    (negative : NegativeReview jsonValue (env.responses 0).toList)
    (dafny : (runDafnyVerify (env.verdicts 0) (specPaths before)).1 = true) :
    ¬ ReportsSuccess sha256 codec loads str env pipeline before ↔
      ¬ Prompted before pipeline ∨ EnclosesValue jsonValue (env.responses 0).toList := by
  rw [reportsSuccess_iff dafny, passes_iff reads negative, not_and_or, not_not]

/-! ## Two responses -/

/-- The text of a review that is negative. -/
def objection : List Char := "\x7b\"is_consistent\": false\x7d".toList

/-- The values among the texts in braces of the two responses. -/
def objectionValue (text : List Char) : Option Json :=
  if text = objection then some (.obj [("is_consistent", .bool false)]) else none

def objectionLoads (text : List Char) : Except LoadsFault Json :=
  match objectionValue text with
  | some value => .ok value
  | none => .error .jsonDecodeError

theorem objectionLoads_reads : ReadsValues objectionValue objectionLoads where
  rejects text unknown := by rw [objectionLoads, unknown]
  accepts text value known := .inl (by rw [objectionLoads, known])
  objects body value known := by
    unfold objectionValue at known
    split at known
    · exact ⟨_, (Option.some.inj known).symm⟩
    · cases known

/-- The objection is in a text once, so it is the only review there. -/
theorem negativeReview_of_once {response before after : List Char}
    (whole : response = before ++ (objection ++ after))
    (once : ∀ place ≤ response.length, objection <+: response.drop place →
      place = before.length) : NegativeReview objectionValue response := by
  have located {front object : List Char} {consistent : Json}
      (review : ReviewAt objectionValue response front object consistent) :
      object = objection ∧ front = before := by
    obtain ⟨⟨back, splits⟩, _, data, value, _⟩ := review
    have same : object = objection := by
      unfold objectionValue at value
      split at value
      · assumption
      · cases value
    subst same
    have here : objection <+: response.drop front.length :=
      ⟨back, by rw [splits, List.drop_left]⟩
    have short : front.length ≤ response.length := by
      rw [splits, List.length_append]
      exact Nat.le_add_right _ _
    have place := once front.length short here
    exact ⟨rfl, List.append_inj_left (splits.symm.trans whole) place⟩
  have bracketed : Enclosure.Bracketed '\x7b' '\x7d' objection :=
    ⟨"\"is_consistent\": false".toList, rfl⟩
  refine ⟨⟨before, objection, ⟨after, whole⟩, bracketed, _, if_pos rfl, rfl⟩, ?_⟩
  intro first object _ second object' _ one other
  obtain ⟨rfl, rfl⟩ := located one
  obtain ⟨rfl, rfl⟩ := located other
  exact ⟨rfl, rfl⟩

/-- One specification file is stored, and the requirements and the prompt are there. -/
def reviewable : Workspace Json :=
  drafted.writeAll [("requirements.md", ""), (systemPromptPath, "")]

def atReview : PipelineState :=
  { currentStage := .specReview, requirementsPath := "requirements.md", startedAt := 0 }

/-- Dafny finds no error, and the review is this response. -/
def reviewedWith (response : String) : Environment where
  responses := fun _ => response
  verdicts := fun _ => .exited 0 "" ""
  clock := fun _ => midnight

theorem readText_reviewable {path : String}
    (empty : reviewable.session.disk.files path = some "".toUTF8) :
    ∃ content, readText reviewable path = .ok content := by
  refine ⟨universalNewlines "", ?_⟩
  unfold readText
  rw [empty]
  dsimp only
  rw [readTextMode_toUTF8]

theorem prompted_reviewable : Prompted reviewable atReview := by
  have paths : promptFiles reviewable (specPaths reviewable) atReview =
      ["specs/s.dfy", "requirements.md", systemPromptPath] := by decide
  have specified : reviewable.listByKind .dafnySpec ≠ [] := by decide
  refine ⟨specified, ?_⟩
  rw [paths, List.forall_mem_cons, List.forall_mem_cons, List.forall_mem_singleton]
  exact ⟨readText_reviewable rfl, readText_reviewable rfl, readText_reviewable rfl⟩

def fenced : String := "```json\n\x7b\"is_consistent\": false\x7d\n```"

theorem fenced_rejected :
    ¬ ReportsSuccess digestOf .trees objectionLoads (fun _ => "") (reviewedWith fenced) atReview
      reviewable := by
  have whole : fenced.toList = "```json\n".toList ++ (objection ++ "\n```".toList) := rfl
  have negative : NegativeReview objectionValue fenced.toList :=
    negativeReview_of_once whole (by decide)
  have encloses : EnclosesValue objectionValue fenced.toList :=
    ⟨objection, _, Enclosure.widest_eq_some_iff.mp rfl, if_pos rfl⟩
  exact (negativeReview_rejected_iff objectionLoads_reads negative rfl).mpr (.inr encloses)

def bracedProse : String := "S is \x7b1\x7d. \x7b\"is_consistent\": false\x7d"

theorem bracedProse_approved :
    ReadsValues objectionValue objectionLoads ∧
      NegativeReview objectionValue ((reviewedWith bracedProse).responses 0).toList ∧
      (runDafnyVerify ((reviewedWith bracedProse).verdicts 0) (specPaths reviewable)).1 = true ∧
      ReportsSuccess digestOf .trees objectionLoads (fun _ => "") (reviewedWith bracedProse)
        atReview reviewable := by
  have whole : bracedProse.toList = "S is \x7b1\x7d. ".toList ++ (objection ++ []) := rfl
  have negative : NegativeReview objectionValue bracedProse.toList :=
    negativeReview_of_once whole (by decide)
  have review : reviewOf objectionLoads bracedProse = .ok { isConsistent := .bool true } := rfl
  exact ⟨objectionLoads_reads, negative, rfl,
    (reportsSuccess_iff rfl).mpr ⟨prompted_reviewable, _, review, rfl⟩⟩

end VerifyAgent

end SchedExt.Agents
