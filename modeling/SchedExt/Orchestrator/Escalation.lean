import SchedExt.Orchestrator.Router

/-!
# What the router counts

The router is to count the failures that were routed to a stage, and counts
those of the stage itself.  The two agree where every failure is routed to the
stage that failed, and the router answers as if it counted the former exactly
where both counts are on the same side of the limit.
-/

namespace SchedExt.Orchestrator.FailureRouter

/-- The failed results whose kind the table routes to a stage. -/
def routedCount (target : Stage) (history : List StageResult) : Nat :=
  history.countP fun r =>
    !r.success && r.failureKind.any fun kind => decide (failureRouting kind = target)

/-- After every failed result the pipeline went on at the stage that the table names. -/
def RoutedByTable (history : List StageResult) : Prop :=
  history.IsChain fun r next => r.success = false → next.stage = routed r.failureKind

instance (history : List StageResult) : Decidable (RoutedByTable history) :=
  inferInstanceAs (Decidable (List.IsChain _ _))

/-- The escalation of a target that has been routed to too often, or else the target. -/
def routeByTarget (target : Stage) (history : List StageResult) : Stage :=
  if maxSameRouteCount ≤ routedCount target history then escalate target else target

variable {pipeline : PipelineState} {kind : FailureKind}

/-- Two decisions between different stages agree where their conditions do. -/
theorem ite_eq_ite_iff_of_ne {first second : Prop} [Decidable first] [Decidable second]
    {escalation target : Stage} (apart : escalation ≠ target) :
    (if first then escalation else target) = (if second then escalation else target) ↔
      (first ↔ second) := by
  by_cases one : first
  · by_cases two : second
    · rw [if_pos one, if_pos two]
      exact iff_of_true rfl (iff_of_true one two)
    · rw [if_pos one, if_neg two]
      exact iff_of_false apart fun same => two (same.mp one)
  · by_cases two : second
    · rw [if_neg one, if_pos two]
      exact iff_of_false apart.symm fun same => one (same.mpr two)
    · rw [if_neg one, if_neg two]
      exact iff_of_true rfl (iff_of_false one two)

/-- The router escalates by the other count where the two decide alike, or nothing is changed. -/
theorem route_eq_routeByTarget_iff :
    route pipeline kind = routeByTarget (failureRouting kind) pipeline.history ↔
      failureRouting kind = .specDrafting ∨
        (maxSameRouteCount ≤ routeCount (failureRouting kind) pipeline.history ↔
          maxSameRouteCount ≤ routedCount (failureRouting kind) pipeline.history) := by
  unfold route routeByTarget
  by_cases fixed : failureRouting kind = .specDrafting
  · have same : escalate (failureRouting kind) = failureRouting kind :=
      escalate_routed_eq_iff.mpr fixed
    refine iff_of_true ?_ (.inl fixed)
    dsimp only [routed]
    rw [same, ite_self, ite_self]
  · have apart : escalate (failureRouting kind) ≠ failureRouting kind :=
      fun same => fixed (escalate_routed_eq_iff.mp same)
    exact (ite_eq_ite_iff_of_ne apart).trans (or_iff_right fixed).symm

/-- Which of two different stages is answered tells whether the answer was escalated. -/
theorem route_eq_escalate_iff (apart : failureRouting kind ≠ .specDrafting) :
    route pipeline kind = escalate (failureRouting kind) ↔
      maxSameRouteCount ≤ routeCount (failureRouting kind) pipeline.history := by
  have differs : escalate (failureRouting kind) ≠ failureRouting kind :=
    fun same => apart (escalate_routed_eq_iff.mp same)
  constructor
  · intro escalated
    by_contra fresh
    exact differs (escalated.symm.trans (route_of_lt (Nat.not_le.mp fresh)))
  · exact route_of_ge

/--
For every history: the router answers by the failures routed to the target
exactly where the target is the first stage or both counts decide alike.  The
escalation tells the two answers apart only where the target is another stage.
-/
theorem route_escalates_iff (pipeline : PipelineState) (kind : FailureKind) :
    let target := failureRouting kind
    let failedAt := routeCount target pipeline.history
    let routedTo := routedCount target pipeline.history
    (route pipeline kind = (if maxSameRouteCount ≤ routedTo then escalate target else target) ↔
        target = .specDrafting ∨
          (maxSameRouteCount ≤ failedAt ↔ maxSameRouteCount ≤ routedTo)) ∧
      ((route pipeline kind = escalate target ↔ maxSameRouteCount ≤ routedTo) ∧
          (¬ maxSameRouteCount ≤ routedTo → route pipeline kind = target) ↔
        (target = .specDrafting → maxSameRouteCount ≤ routedTo) ∧
          (target ≠ .specDrafting →
            (maxSameRouteCount ≤ failedAt ↔ maxSameRouteCount ≤ routedTo))) := by
  intro target failedAt routedTo
  refine ⟨route_eq_routeByTarget_iff, ?_⟩
  by_cases fixed : target = .specDrafting
  · have unchanged : route pipeline kind = target := route_eq_routed_iff.mpr (.inl fixed)
    have same : escalate target = target := escalate_routed_eq_iff.mpr fixed
    rw [same]
    constructor
    · rintro ⟨reached, -⟩
      exact ⟨fun _ => reached.mp unchanged, fun apart => absurd fixed apart⟩
    · rintro ⟨reached, -⟩
      exact ⟨iff_of_true unchanged (reached fixed), fun _ => unchanged⟩
  · have escalates : route pipeline kind = escalate target ↔ maxSameRouteCount ≤ failedAt :=
      route_eq_escalate_iff fixed
    constructor
    · rintro ⟨counted, -⟩
      exact ⟨fun impossible => absurd impossible fixed, fun _ => escalates.symm.trans counted⟩
    · rintro ⟨-, alike⟩
      refine ⟨escalates.trans (alike fixed), fun fresh => ?_⟩
      exact route_of_lt (Nat.not_le.mp fun stuck => fresh ((alike fixed).mp stuck))

/-- Where the failures of the target are those routed to it, the router counts what it is to. -/
theorem route_eq_routeByTarget_of_own
    (own : ∀ r ∈ pipeline.history, r.success = false →
      (r.failureKind.any fun cause => decide (failureRouting cause = failureRouting kind)) =
        decide (r.stage = failureRouting kind)) :
    route pipeline kind = routeByTarget (failureRouting kind) pipeline.history := by
  have counts : routedCount (failureRouting kind) pipeline.history =
      routeCount (failureRouting kind) pipeline.history := by
    refine List.countP_congr fun r member => ?_
    cases succeeds : r.success with
    | true => exact Iff.rfl
    | false => rw [own r member succeeds]
  apply route_eq_routeByTarget_iff.mpr
  rw [counts]
  exact .inr Iff.rfl

/-! ## A stage that fails and another that is routed to -/

/-- Three verifications fail, and each failure is routed to the implementation. -/
def threeVerifyFailures : PipelineState :=
  [⟨.specDrafting, true, none, "", [], 0⟩, ⟨.specReview, true, none, "", [], 0⟩,
    ⟨.impl, true, none, "", [], 0⟩, ⟨.implVerify, false, some .implUnverified, "", [], 0⟩,
    ⟨.impl, true, none, "", [], 0⟩, ⟨.implVerify, false, some .implUnverified, "", [], 0⟩,
    ⟨.impl, true, none, "", [], 0⟩, ⟨.implVerify, false, some .implUnverified, "", [], 0⟩].foldl
    (fun self result => (advance self result).1) { currentStage := .specDrafting, startedAt := 0 }

/-- The failures of a stage are not those routed to it. -/
theorem threeVerifyFailures_notEscalated : ¬ ∀ (pipeline : PipelineState) (kind : FailureKind),
    RoutedByTable pipeline.history →
      (route pipeline kind = escalate (failureRouting kind) ↔
          maxSameRouteCount ≤ routedCount (failureRouting kind) pipeline.history) ∧
        (¬ maxSameRouteCount ≤ routedCount (failureRouting kind) pipeline.history →
          route pipeline kind = failureRouting kind) := by
  intro escalates
  have answered := (escalates threeVerifyFailures .implUnverified (by decide)).1
  exact absurd (answered.mpr (by decide)) (by decide)

end SchedExt.Orchestrator.FailureRouter
