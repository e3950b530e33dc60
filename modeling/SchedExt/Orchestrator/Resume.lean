import SchedExt.Orchestrator.Budget
import SchedExt.Orchestrator.Persistence

/-!
# Resuming a pipeline

A pipeline that stops right after a save is continued from the file.  The loop
continues from the saved state as if it had not stopped; `run` enters the loop
at the first real stage, and so continues it only from a state that is there.
-/

namespace SchedExt.Orchestrator

open Foundations

variable {Text : Type}

/-- `--resume` -/
def resume (codec : JsonCodec Text) (agents : Nat → Execution) (text : Text) :
    Json.Decoded RunResult := do
  let state ← PipelineState.load codec text
  return run agents state

/-- The resumed run does what the whole one did after its first saves. -/
structure Continues (whole : RunResult) (saves : Nat) (resumed : RunResult) : Prop where
  executed : resumed.executed = whole.executed.drop saves
  currentStage : resumed.state.currentStage = whole.state.currentStage
  iteration : resumed.state.iteration = whole.state.iteration
  history : resumed.state.history = whole.state.history
  returned : resumed.returned = whole.returned

variable {agents : Nat → Execution} {self saved : PipelineState}

theorem resume_save (codec : JsonCodec Text) (agents : Nat → Execution) (self : PipelineState) :
    resume codec agents (self.save codec) = .ok (run agents self) := by
  rw [resume, PipelineState.load_save]
  rfl

/-- A loop that saves has passed its first stage. -/
theorem moves_of_saved {place : Nat} (crash : (loop agents self).saved[place]? = some saved) :
    self.currentStage ≠ .done ∧ self.iteration + 1 < self.maxIterations := by
  by_cases finished : self.currentStage = .done
  · rw [loop_done finished] at crash
    exact nomatch crash
  · refine ⟨finished, ?_⟩
    by_contra spent
    rw [loop_exceeded finished (Int.not_lt.mp spent)] at crash
    exact nomatch crash

/-- After a save the loop goes on as from the saved state. -/
theorem continues_loop {place : Nat} (crash : (loop agents self).saved[place]? = some saved) :
    Continues (loop agents self) (place + 1) (loop (fun k => agents (k + (place + 1))) saved) := by
  induction place generalizing agents self with
  | zero =>
      obtain ⟨unfinished, left⟩ := moves_of_saved crash
      rw [loop_moves unfinished left] at crash ⊢
      obtain rfl := Option.some.inj crash
      exact ⟨rfl, rfl, rfl, rfl, rfl⟩
  | succ place ih =>
      obtain ⟨unfinished, left⟩ := moves_of_saved crash
      rw [loop_moves unfinished left] at crash ⊢
      have rest := ih crash
      exact ⟨rest.executed, rest.currentStage, rest.iteration, rest.history, rest.returned⟩

theorem loop_executed_head (unfinished : self.currentStage ≠ .done) :
    (loop agents self).executed.head? = some self.currentStage := by
  by_cases left : self.iteration + 1 < self.maxIterations
  · rw [loop_moves unfinished left]
    rfl
  · rw [loop_exceeded unfinished (Int.not_lt.mp left)]
    rfl

/-- A run executes the first real stage before any other. -/
theorem run_executed_head (agents : Nat → Execution) (self : PipelineState) :
    (run agents self).executed.head? = some .specDrafting :=
  loop_executed_head Stage.noConfusion

/-- A run resumed from a save continues the whole run from the first real stage and no other. -/
theorem continues_run_iff {place : Nat} (crash : (run agents self).saved[place]? = some saved) :
    Continues (run agents self) (place + 1) (run (fun k => agents (k + (place + 1))) saved) ↔
      saved.currentStage = .specDrafting := by
  have rest := continues_loop crash
  constructor
  · intro continues
    have first := run_executed_head (fun k => agents (k + (place + 1))) saved
    rw [continues.executed, run, ← rest.executed] at first
    by_cases finished : saved.currentStage = .done
    · rw [loop_done finished] at first
      exact nomatch first
    · rw [loop_executed_head finished] at first
      exact Option.some.inj first
  · intro first
    have same : { saved with currentStage := .specDrafting } = saved := by
      rw [← first]
    rw [run, run, same]
    exact rest

/--
A pipeline that stops right after a save and is resumed, with agents that go on
as they would have, continues the whole run exactly when the saved state is at
the first real stage.
-/
theorem resume_continues_iff (codec : JsonCodec Text) (agents : Nat → Execution)
    (self saved : PipelineState) (place : Nat)
    (crash : (run agents self).saved[place]? = some saved) :
    (∃ resumed, resume codec (fun k => agents (k + (place + 1))) (saved.save codec) = .ok resumed ∧
        Continues (run agents self) (place + 1) resumed) ↔
      saved.currentStage = .specDrafting := by
  rw [← continues_run_iff crash]
  constructor
  · rintro ⟨resumed, read, continues⟩
    rw [resume_save] at read
    obtain rfl := Except.ok.inj read
    exact continues
  · intro continues
    exact ⟨_, resume_save codec _ saved, continues⟩

def reviewFails : Execution :=
  ⟨.ok { stage := .specReview, success := false, failureKind := some .specInconsistent }, 0⟩

/-- The review sends every draft back. -/
def alwaysRedrafts : Nat → Execution :=
  fun count => if count % 2 = 0 then allPass 0 else reviewFails

theorem alwaysRedrafts_continues :
    ∃ resumed, resume JsonCodec.trees (fun k => alwaysRedrafts (k + 2))
        ((afterPass (afterPass { fresh "" 10 0 with currentStage := .specDrafting } (allPass 0))
          reviewFails).save JsonCodec.trees) = .ok resumed ∧
      Continues (run alwaysRedrafts (fresh "" 10 0)) 2 resumed := by
  refine (resume_continues_iff JsonCodec.trees alwaysRedrafts (fresh "" 10 0) _ 1 ?_).mpr rfl
  rw [run, loop_moves (by decide) (by decide), loop_moves (by decide) (by decide)]
  rfl

/-- A pipeline that stops after its first stage passed drafts the specification again. -/
theorem allPass_not_continues :
    ∃ saved, (run allPass (fresh "" 11 0)).saved[0]? = some saved ∧
      saved.currentStage = .specReview ∧
        ∀ resumed, resume JsonCodec.trees (fun k => allPass (k + 1))
            (saved.save JsonCodec.trees) = .ok resumed →
          ¬ Continues (run allPass (fresh "" 11 0)) 1 resumed := by
  have crash : (run allPass (fresh "" 11 0)).saved[0]? =
      some (afterPass { fresh "" 11 0 with currentStage := .specDrafting } (allPass 0)) := by
    rw [run, loop_moves (by decide) (by decide)]
    rfl
  refine ⟨_, crash, rfl, fun resumed read continues => ?_⟩
  rw [resume_save] at read
  obtain rfl := Except.ok.inj read
  exact Stage.noConfusion ((continues_run_iff crash).mp continues)

end SchedExt.Orchestrator
