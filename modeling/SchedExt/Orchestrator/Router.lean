import Mathlib.Data.List.Count
import SchedExt.Orchestrator.StateMachine

/-!
# The failure router

`route` answers where a failure goes from the history of the pipeline: to the
stage that its kind is routed to, or to an earlier one when that stage has
itself failed three times.  The transition of the state machine reads the
routing table alone.
-/

namespace SchedExt.Orchestrator

/-- `MAX_SAME_ROUTE_COUNT` -/
def maxSameRouteCount : Nat := 3

namespace FailureRouter

/-- `_escalate` -/
def escalate : Stage → Stage
  | .impl => .specReview
  | .implVerify => .specDrafting
  | .bpfCompile => .impl
  | .bpfVerify => .impl
  | .testTrace => .specReview
  | .testFuzz => .specDrafting
  | .testPerf => .impl
  | _ => .specDrafting

/-- The failed results of a stage. -/
def routeCount (target : Stage) (history : List StageResult) : Nat :=
  history.countP fun r => !r.success && decide (r.stage = target)

def route (pipeline : PipelineState) (kind : FailureKind) : Stage :=
  let defaultTarget := routed (some kind)
  if routeCount defaultTarget pipeline.history ≥ maxSameRouteCount then
    escalate defaultTarget
  else
    defaultTarget

variable {self : PipelineState} {result : StageResult} {kind : FailureKind}

/-- Of the stages that failures are routed to, only the first is escalated to itself. -/
theorem escalate_routed_eq_iff :
    escalate (routed (some kind)) = routed (some kind) ↔ routed (some kind) = .specDrafting := by
  cases kind <;> decide

theorem route_of_lt
    (fresh : routeCount (routed (some kind)) self.history < maxSameRouteCount) :
    route self kind = routed (some kind) :=
  if_neg (Nat.not_le.mpr fresh)

theorem route_of_ge
    (stuck : maxSameRouteCount ≤ routeCount (routed (some kind)) self.history) :
    route self kind = escalate (routed (some kind)) :=
  if_pos stuck

/-- The router keeps to the table exactly when it does not escalate elsewhere. -/
theorem route_eq_routed_iff :
    route self kind = routed (some kind) ↔
      routed (some kind) = .specDrafting ∨
        routeCount (routed (some kind)) self.history < maxSameRouteCount := by
  by_cases fresh : routeCount (routed (some kind)) self.history < maxSameRouteCount
  · rw [route_of_lt fresh]
    exact ⟨fun _ => .inr fresh, fun _ => rfl⟩
  · rw [route_of_ge (Nat.not_lt.mp fresh), escalate_routed_eq_iff]
    exact ⟨.inl, fun either => either.resolve_right fresh⟩

/-- A failure within the budget goes where the table says, its result recorded. -/
theorem advance_failed (fails : result.success = false) (kindEq : result.failureKind = some kind)
    (left : self.iteration + 1 < self.maxIterations) :
    (advance self result).2 = .ok (routed (some kind)) ∧
      (advance self result).1.history = self.history ++ [result] := by
  have moves : nextStage result = some (routed (some kind)) := by
    rw [nextStage, if_neg (Bool.eq_false_iff.mp fails), kindEq]
  rw [advance_moves left moves]
  exact ⟨rfl, rfl⟩

/--
A failure goes where the router says exactly while its target has failed fewer
than three times or is the first stage; that it is moreover not sent to a
target that has failed three times holds exactly in the first of these cases.
-/
theorem advance_eq_route_iff (self : PipelineState) (result : StageResult) (kind : FailureKind)
    (fails : result.success = false) (kindEq : result.failureKind = some kind)
    (left : self.iteration + 1 < self.maxIterations) :
    let moved := advance self result
    let target := failureRouting kind
    (moved.2 = .ok (route moved.1 kind) ↔
        target = .specDrafting ∨
          routeCount target (self.history ++ [result]) < maxSameRouteCount) ∧
      (moved.2 = .ok (route moved.1 kind) ∧
          (maxSameRouteCount ≤ routeCount target (self.history ++ [result]) →
            moved.2 ≠ .ok target) ↔
        routeCount target (self.history ++ [result]) < maxSameRouteCount) := by
  intro moved target
  obtain ⟨next, recorded⟩ := advance_failed fails kindEq left
  have agrees : moved.2 = .ok (route moved.1 kind) ↔
      target = .specDrafting ∨
        routeCount target (self.history ++ [result]) < maxSameRouteCount := by
    rw [← recorded, next, Except.ok.injEq, eq_comm]
    exact route_eq_routed_iff
  refine ⟨agrees, ?_⟩
  rw [agrees]
  constructor
  · rintro ⟨-, apart⟩
    by_contra stuck
    exact apart (Nat.not_lt.mp stuck) next
  · intro fresh
    exact ⟨.inr fresh, fun stuck => absurd fresh (Nat.not_lt.mpr stuck)⟩

def implFails : StageResult :=
  { stage := .impl, success := false, failureKind := some .implUnverified }

/-- A fresh pipeline whose implementation has failed twice. -/
def twoImplFailures : PipelineState :=
  [⟨.specDrafting, true, none, "", [], 0⟩, ⟨.specReview, true, none, "", [], 0⟩, implFails,
    implFails].foldl (fun self result => (advance self result).1)
    { currentStage := .specDrafting, startedAt := 0 }

theorem implFails_agrees :
    ((advance ⟨.impl, 2, 10, [], "", 0⟩ implFails).2 =
      .ok (route (advance ⟨.impl, 2, 10, [], "", 0⟩ implFails).1 .implUnverified)) := by
  have both := advance_eq_route_iff ⟨.impl, 2, 10, [], "", 0⟩ implFails .implUnverified
    rfl rfl (by decide)
  exact both.1.mpr (.inr (by decide))

/-- The third failure goes to the implementation again, and the router escalates it. -/
theorem twoImplFailures_differs :
    let moved := advance twoImplFailures implFails
    moved.2 = .ok .impl ∧ route moved.1 .implUnverified = .specReview ∧
      moved.2 ≠ .ok (route moved.1 .implUnverified) := by
  decide

end FailureRouter

end SchedExt.Orchestrator
