import Mathlib.Data.Finset.Max
import SchedExt.Fair.LeastTicks

/-!
# Which bounds on scaled virtual runtimes the ticks keep

Both fairness properties bound the scaled virtual runtimes of some pairs of live
tasks.  Every run of ticks keeps such a bound exactly when whoever is compared
with a runnable task is runnable too, on the same scale, and not so near that one
tick is too much.  All virtual runtimes grow together and without end, so any
other pair drifts apart.
-/

namespace SchedExt.Fair

open SchedExt.Domain SchedExt.Foundations

section Scaled

variable (compared : Nat → Nat → Prop) (scale : Nat → Nat) (bound : Nat)

/-- Live tasks of compared weights have scaled virtual runtimes within the bound. -/
def Balanced (s : SchedState) : Prop :=
  ∀ t1 ∈ s.allTasks, ∀ t2 ∈ s.allTasks, t1.Live → t2.Live → compared t1.weight t2.weight →
    t1.pid ≠ t2.pid →
      absDiff (t1.vruntime * scale t1.weight) (t2.vruntime * scale t2.weight) ≤ bound

/-- Whoever is compared with a runnable task is runnable, and on the same scale. -/
def Matched (s : SchedState) : Prop :=
  ∀ t1 ∈ s.allTasks, ∀ t2 ∈ s.allTasks, t1.state = .runnable → t2.Live →
    compared t1.weight t2.weight → t1.pid ≠ t2.pid →
      t2.state = .runnable ∧ scale t2.weight = scale t1.weight

/-- Beside the distance of the two tasks, the bound leaves room for one tick of the first. -/
def Spaced (s : SchedState) : Prop :=
  ∀ t1 ∈ s.allTasks, ∀ t2 ∈ s.allTasks, t1.state = .runnable → t2.state = .runnable →
    compared t1.weight t2.weight → t1.pid ≠ t2.pid →
      deltaVruntime t1 * scale t1.weight ≤
        absDiff (t1.vruntime * scale t1.weight) (t2.vruntime * scale t2.weight) + bound

/-- What the ticks have to find to keep a bound. -/
structure Steady (s : SchedState) : Prop where
  balanced : Balanced compared scale bound s
  matched : Matched compared scale s
  spaced : Spaced compared scale bound s

/-- A symmetric comparison under which a weight is determined by its scale. -/
structure Comparison : Prop where
  symmetric : ∀ {a b}, compared a b → compared b a
  determined : ∀ {a b}, compared a b → scale a = scale b → a = b
  positive : ∀ {weight}, 0 < weight → 0 < scale weight

variable {compared scale bound} {s s' : SchedState} {scheduled : Task}
variable {history : List (Transition SchedState Task)}

/-! ### What the ticks keep -/

theorem absDiff_of_le {a b : Nat} (order : a ≤ b) : absDiff a b = b - a := by
  unfold absDiff
  split <;> omega

/-- Charging the lower value swaps its distance for what the charge exceeds it by. -/
theorem absDiff_charged {low high charge : Nat} (order : low ≤ high)
    (near : absDiff low high ≤ bound) (room : charge ≤ absDiff low high + bound) :
    absDiff (low + charge) high ≤ bound ∧ charge ≤ absDiff (low + charge) high + bound := by
  rw [absDiff_of_le order] at near room
  rcases Nat.le_total (low + charge) high with below | beyond
  · rw [absDiff_of_le below]
    omega
  · rw [absDiff_comm, absDiff_of_le beyond]
    omega

theorem TickAmong.matched (tick : TickAmong compared s scheduled s')
    (matched : Matched compared scale s) : Matched compared scale s' := by
  intro t1 member1 t2 member2 runnable live areCompared different
  obtain ⟨old1, known1, samePid1, sameWeight1, sameState1⟩ := tick.origin member1
  obtain ⟨old2, known2, samePid2, sameWeight2, sameState2⟩ := tick.origin member2
  rw [← sameWeight1, ← sameWeight2, ← sameState2]
  rw [← sameState1] at runnable
  rw [Task.Live, ← sameState2] at live
  rw [← sameWeight1, ← sameWeight2] at areCompared
  rw [← samePid1, ← samePid2] at different
  exact matched old1 known1 old2 known2 runnable live areCompared different

/-- The advanced task is as near to whoever it is compared with as before, and has as much room. -/
theorem TickAmong.advanced_steady (tick : TickAmong compared s scheduled s')
    (steady : Steady compared scale bound s) {peer : Task} (known : peer ∈ s.allTasks)
    (live : peer.Live) (areCompared : compared scheduled.weight peer.weight)
    (different : scheduled.pid ≠ peer.pid) :
    absDiff (scheduled.advanced.vruntime * scale scheduled.weight)
        (peer.vruntime * scale peer.weight) ≤ bound ∧
      deltaVruntime scheduled * scale scheduled.weight ≤
        absDiff (scheduled.advanced.vruntime * scale scheduled.weight)
          (peer.vruntime * scale peer.weight) + bound := by
  obtain ⟨runnable, sameScale⟩ :=
    steady.matched scheduled tick.known peer known tick.runnable live areCompared different
  have near := steady.balanced scheduled tick.known peer known (Or.inl tick.runnable) live
    areCompared different
  have room := steady.spaced scheduled tick.known peer known tick.runnable runnable areCompared
    different
  have least := Nat.mul_le_mul_right (scale scheduled.weight)
    (tick.minimum peer known runnable areCompared)
  rw [sameScale] at near room ⊢
  rw [Task.advanced_vruntime, Nat.add_mul]
  exact absDiff_charged least near room

theorem TickAmong.balanced (tick : TickAmong compared s scheduled s')
    (comparison : Comparison compared scale) (steady : Steady compared scale bound s) :
    Balanced compared scale bound s' := by
  intro t1 member1 t2 member2 live1 live2 areCompared different
  rcases tick.mem_iff.mp member1 with ⟨known1, _⟩ | rfl
  · rcases tick.mem_iff.mp member2 with ⟨known2, _⟩ | rfl
    · exact steady.balanced t1 known1 t2 known2 live1 live2 areCompared different
    · rw [absDiff_comm]
      exact (tick.advanced_steady steady known1 live1 (comparison.symmetric areCompared)
        different.symm).1
  · rcases tick.mem_iff.mp member2 with ⟨known2, _⟩ | rfl
    · exact (tick.advanced_steady steady known2 live2 areCompared different).1
    · exact absurd rfl different

theorem TickAmong.spaced (tick : TickAmong compared s scheduled s')
    (comparison : Comparison compared scale) (steady : Steady compared scale bound s) :
    Spaced compared scale bound s' := by
  intro t1 member1 t2 member2 runnable1 runnable2 areCompared different
  rcases tick.mem_iff.mp member1 with ⟨known1, _⟩ | rfl
  · rcases tick.mem_iff.mp member2 with ⟨known2, _⟩ | rfl
    · exact steady.spaced t1 known1 t2 known2 runnable1 runnable2 areCompared different
    · -- the two tasks have one weight, so a tick charges both of them the same
      have sameScale := (steady.matched t1 known1 scheduled tick.known runnable1
        (Or.inl tick.runnable) areCompared different).2
      have sameWeight : t1.weight = scheduled.weight :=
        comparison.determined areCompared sameScale.symm
      have room := (tick.advanced_steady steady known1 (Or.inl runnable1)
        (comparison.symmetric areCompared) different.symm).2
      rw [absDiff_comm, deltaVruntime, sameWeight]
      rw [sameWeight] at room
      exact room
  · rcases tick.mem_iff.mp member2 with ⟨known2, _⟩ | rfl
    · exact (tick.advanced_steady steady known2 (Or.inl runnable2) areCompared different).2
    · exact absurd rfl different

theorem steady_of_run (comparison : Comparison compared scale)
    (steady : Steady compared scale bound s) (run : Run (TickAmong compared) s history s') :
    Steady compared scale bound s' :=
  run.invariant steady fun before tick =>
    ⟨tick.balanced comparison before, tick.matched before.matched,
      tick.spaced comparison before⟩

/-! ### What drifts apart -/

/-- Every runnable task is valid. -/
def RunnableValid (s : SchedState) : Prop :=
  ∀ t ∈ s.allTasks, t.state = .runnable → ValidTask t

theorem LeastTick.runnableValid (tick : LeastTick s scheduled s') (valid : RunnableValid s) :
    RunnableValid s' := by
  intro t member runnable
  rcases tick.mem_iff.mp member with ⟨known, _⟩ | rfl
  · exact valid t known runnable
  · exact tick.validTask

/-- While a task is runnable, some task can be ticked. -/
theorem exists_leastTick (validState : ValidState s) (valid : RunnableValid s)
    (some : (runnableTasks s).Nonempty) :
    ∃ scheduled s', LeastTick s scheduled s' := by
  obtain ⟨scheduled, member, least⟩ :=
    Finset.exists_min_image (runnableTasks s) Task.vruntime some
  obtain ⟨known, runnable⟩ := mem_runnableTasks.mp member
  exact ⟨scheduled, ticked s scheduled, leastTick_ticked s scheduled
    ⟨validState, known, valid scheduled known runnable, runnable,
      fun t tKnown tRunnable => least t (mem_runnableTasks.mpr ⟨tKnown, tRunnable⟩)⟩⟩

/-- While a task is runnable, there are runs of every length. -/
theorem exists_run_of_length (validState : ValidState s) (valid : RunnableValid s)
    (some : (runnableTasks s).Nonempty) (length : Nat) :
    ∃ history s', Run LeastTick s history s' ∧ history.length = length := by
  suffices whole : ∃ history s', Run LeastTick s history s' ∧ history.length = length ∧
      ValidState s' ∧ RunnableValid s' ∧ (runnableTasks s').Nonempty by
    obtain ⟨history, s', run, steps, _⟩ := whole
    exact ⟨history, s', run, steps⟩
  induction length with
  | zero => exact ⟨[], s, .refl, rfl, validState, valid, some⟩
  | succ length ih =>
      obtain ⟨history, s', run, steps, stateNow, tasksNow, someNow⟩ := ih
      obtain ⟨scheduled, next, tick⟩ := exists_leastTick stateNow tasksNow someNow
      refine ⟨_, next, run.tail tick, ?_, tick.validAfter, tick.runnableValid tasksNow, ?_⟩
      · rw [List.length_append, List.length_singleton, steps]
      · exact ⟨scheduled.advanced,
          mem_runnableTasks.mpr ⟨tick.mem_iff.mpr (Or.inr rfl), tick.runnable⟩⟩

/-- Some run takes all runnable tasks beyond any virtual runtime. -/
theorem exists_run_beyond (validState : ValidState s) (valid : RunnableValid s)
    (some : (runnableTasks s).Nonempty) (target : Nat) :
    ∃ history s', Run LeastTick s history s' ∧ ∀ t ∈ runnableTasks s', target ≤ t.vruntime := by
  obtain ⟨history, s', run, steps⟩ := exists_run_of_length validState valid some
    (shortfall Task.vruntime target (runnableTasks s) + 1)
  refine ⟨history, s', run, ServesLeast.beyond_of_length (servesLeast_of_run run) ?_⟩
  rw [List.length_map, steps]
  exact Nat.lt_succ_self _

/-- A runnable task is at the end where some ticks have taken it. -/
theorem exists_after_of_run (run : Run LeastTick s history s') {t : Task}
    (known : t ∈ s.allTasks) (runnable : t.state = .runnable) :
    ∃ ticks, t.after ticks ∈ runnableTasks s' := by
  obtain ⟨ticks, member⟩ := ServesLeast.exists_iterate_of_run (servesLeast_of_run run)
    (mem_runnableTasks.mpr ⟨known, runnable⟩)
  rw [Task.advanced_iterate] at member
  exact ⟨ticks, member⟩

theorem mem_of_run_of_not_runnable (run : Run LeastTick s history s') {t : Task}
    (known : t ∈ s.allTasks) (waits : t.state ≠ .runnable) : t ∈ s'.allTasks := by
  induction run with
  | refl => exact known
  | tail _ last ih => exact last.mem_of_not_runnable ih waits

/-- In all runs the virtual runtimes of the runnable tasks stay within one gap. -/
theorem exists_gap (s : SchedState) : ∃ gap, ∀ {history s'}, Run LeastTick s history s' →
    Within Task.vruntime gap (runnableTasks s') := by
  refine ⟨(runnableTasks s).sup Task.vruntime + 1000000 * 1024, fun run => ?_⟩
  refine ServesLeast.within_of_run (servesLeast_of_run run) ?_ ?_
  · intro t
    have charged : deltaVruntime t ≤ 1000000 * 1024 := Nat.div_le_self _ _
    rw [Task.advanced_vruntime]
    omega
  · intro t member u _
    have most : t.vruntime ≤ (runnableTasks s).sup Task.vruntime := Finset.le_sup member
    omega

/-- On a larger scale what is nearly as far is far ahead. -/
theorem lt_absDiff_of_scales {v1 v2 small large gap : Nat} (less : small < large)
    (near : v1 ≤ v2 + gap) (far : gap * small + bound < v2) :
    bound < absDiff (v1 * small) (v2 * large) := by
  have first : v1 * small ≤ v2 * small + gap * small := by
    rw [← Nat.add_mul]
    exact Nat.mul_le_mul_right small near
  have second : v2 * small + v2 ≤ v2 * large := Nat.mul_le_mul_left v2 less
  have ahead : ¬ absDiff (v1 * small) (v2 * large) ≤ bound := by
    rw [absDiff_le_iff]
    omega
  exact Nat.lt_of_not_le ahead

/-- A runnable task leaves behind one that it is compared with and that is running. -/
theorem exists_unbalanced_of_running (comparison : Comparison compared scale)
    (validState : ValidState s) (valid : RunnableValid s) {t1 t2 : Task}
    (known1 : t1 ∈ s.allTasks) (known2 : t2 ∈ s.allTasks) (runnable : t1.state = .runnable)
    (running : t2.state = .running) (areCompared : compared t1.weight t2.weight)
    (different : t1.pid ≠ t2.pid) :
    ∃ history s', Run LeastTick s history s' ∧ ¬ Balanced compared scale bound s' := by
  obtain ⟨history, s', run, far⟩ := exists_run_beyond validState valid
    ⟨t1, mem_runnableTasks.mpr ⟨known1, runnable⟩⟩ (t2.vruntime * scale t2.weight + bound + 1)
  refine ⟨history, s', run, fun balanced => ?_⟩
  obtain ⟨ticks, member⟩ := exists_after_of_run run known1 runnable
  have stays := mem_of_run_of_not_runnable run known2
    (fun same => by rw [running] at same; cases same)
  have near := balanced _ (mem_runnableTasks.mp member).1 t2 stays (Or.inl runnable)
    (Or.inr running) areCompared different
  have above := (absDiff_le_iff.mp near).1
  have ahead := far _ member
  have scaled := Nat.le_mul_of_pos_right (t1.after ticks).vruntime
    (comparison.positive (valid t1 known1 runnable).1)
  rw [Task.after_weight] at above
  omega

/-- Runnable tasks on different scales drift apart. -/
theorem exists_unbalanced_of_scales (validState : ValidState s) (valid : RunnableValid s)
    {t1 t2 : Task} (known1 : t1 ∈ s.allTasks) (known2 : t2 ∈ s.allTasks)
    (runnable1 : t1.state = .runnable) (runnable2 : t2.state = .runnable)
    (areCompared : compared t1.weight t2.weight) (different : t1.pid ≠ t2.pid)
    (less : scale t1.weight ≠ scale t2.weight) :
    ∃ history s', Run LeastTick s history s' ∧ ¬ Balanced compared scale bound s' := by
  obtain ⟨gap, within⟩ := exists_gap s
  obtain ⟨history, s', run, far⟩ := exists_run_beyond validState valid
    ⟨t1, mem_runnableTasks.mpr ⟨known1, runnable1⟩⟩
    (gap * scale t1.weight + gap * scale t2.weight + bound + 1)
  refine ⟨history, s', run, fun balanced => ?_⟩
  obtain ⟨ticks1, member1⟩ := exists_after_of_run run known1 runnable1
  obtain ⟨ticks2, member2⟩ := exists_after_of_run run known2 runnable2
  have near := balanced _ (mem_runnableTasks.mp member1).1 _ (mem_runnableTasks.mp member2).1
    (Or.inl runnable1) (Or.inl runnable2) areCompared different
  rw [Task.after_weight, Task.after_weight] at near
  have far1 := far _ member1
  have far2 := far _ member2
  rcases Nat.lt_or_gt_of_ne less with smaller | larger
  · exact absurd near (Nat.not_le_of_lt
      (lt_absDiff_of_scales smaller (within run _ member1 _ member2) (by omega)))
  · rw [absDiff_comm] at near
    exact absurd near (Nat.not_le_of_lt
      (lt_absDiff_of_scales larger (within run _ member2 _ member1) (by omega)))

/-- A tick takes a task too far from one that it was too near to. -/
theorem LeastTick.unbalanced_of_near (tick : LeastTick s scheduled s') {peer : Task}
    (known : peer ∈ s.allTasks) (runnable : peer.state = .runnable)
    (areCompared : compared scheduled.weight peer.weight) (different : scheduled.pid ≠ peer.pid)
    (sameScale : scale peer.weight = scale scheduled.weight)
    (near : absDiff (scheduled.vruntime * scale scheduled.weight)
      (peer.vruntime * scale peer.weight) + bound <
        deltaVruntime scheduled * scale scheduled.weight) :
    ¬ Balanced compared scale bound s' := by
  intro balanced
  have stays : peer ∈ s'.allTasks :=
    tick.mem_iff.mpr (Or.inl ⟨known, fun same => different (congrArg Task.pid same).symm⟩)
  have still := balanced scheduled.advanced (tick.mem_iff.mpr (Or.inr rfl)) peer stays
    (Or.inl tick.runnable) (Or.inl runnable) areCompared different
  have least := Nat.mul_le_mul_right (scale scheduled.weight)
    (tick.minimum peer known runnable trivial)
  have below := (absDiff_le_iff.mp still).1
  rw [sameScale, absDiff_of_le least] at near
  rw [Task.advanced_vruntime, Task.advanced_weight, Nat.add_mul, sameScale] at below
  omega

/-- Tasks that are too near for a tick of one of them do not stay until one is ticked. -/
theorem exists_unbalanced_of_near (comparison : Comparison compared scale)
    (validState : ValidState s) (valid : RunnableValid s) {t1 t2 : Task}
    (known1 : t1 ∈ s.allTasks) (known2 : t2 ∈ s.allTasks)
    (runnable1 : t1.state = .runnable) (runnable2 : t2.state = .runnable)
    (areCompared : compared t1.weight t2.weight) (different : t1.pid ≠ t2.pid)
    (sameScale : scale t2.weight = scale t1.weight)
    (near : absDiff (t1.vruntime * scale t1.weight) (t2.vruntime * scale t2.weight) + bound <
      deltaVruntime t1 * scale t1.weight) :
    ∃ history s', Run LeastTick s history s' ∧ ¬ Balanced compared scale bound s' := by
  by_contra always
  have kept : ∀ {history s'}, Run LeastTick s history s' →
      Balanced compared scale bound s' :=
    fun run => by_contra fun lost => always ⟨_, _, run, lost⟩
  have sameWeight := comparison.determined areCompared sameScale.symm
  -- the first tick of one of them would part them by more than the bound
  have untouched : ∀ {history s'}, Run LeastTick s history s' →
      t1 ∈ s'.allTasks ∧ t2 ∈ s'.allTasks := by
    intro history s' run
    induction run with
    | refl => exact ⟨known1, known2⟩
    | tail earlier last ih =>
        obtain ⟨here1, here2⟩ := ih
        have balanced := kept (earlier.tail last)
        refine ⟨last.mem_iff.mpr (Or.inl ⟨here1, ?_⟩), last.mem_iff.mpr (Or.inl ⟨here2, ?_⟩)⟩
        · rintro rfl
          exact last.unbalanced_of_near here2 runnable2 areCompared different sameScale near
            balanced
        · rintro rfl
          rw [absDiff_comm, deltaVruntime, sameWeight] at near
          exact last.unbalanced_of_near here1 runnable1 (comparison.symmetric areCompared)
            different.symm sameScale.symm (by rw [sameWeight]; exact near) balanced
  obtain ⟨history, s', run, beyond⟩ := exists_run_beyond validState valid
    ⟨t1, mem_runnableTasks.mpr ⟨known1, runnable1⟩⟩ (t1.vruntime + 1)
  have ahead := beyond t1 (mem_runnableTasks.mpr ⟨(untouched run).1, runnable1⟩)
  exact Nat.not_succ_le_self _ ahead

/-- If least ticks keep the bound, the tasks are steady. -/
theorem steady_of_leastTicks (comparison : Comparison compared scale)
    (validState : ValidState s) (valid : RunnableValid s)
    (always : ∀ history s', Run LeastTick s history s' → Balanced compared scale bound s') :
    Steady compared scale bound s := by
  have matched : Matched compared scale s := by
    intro t1 known1 t2 known2 runnable live areCompared different
    have peerRunnable : t2.state = .runnable := by
      rcases live with peerRunnable | running
      · exact peerRunnable
      · obtain ⟨history, s', run, lost⟩ := exists_unbalanced_of_running comparison validState
          valid known1 known2 runnable running areCompared different
        exact absurd (always history s' run) lost
    refine ⟨peerRunnable, ?_⟩
    by_contra apart
    obtain ⟨history, s', run, lost⟩ := exists_unbalanced_of_scales validState valid known1
      known2 runnable peerRunnable areCompared different fun same => apart same.symm
    exact lost (always history s' run)
  refine ⟨always [] s .refl, matched, ?_⟩
  intro t1 known1 t2 known2 runnable1 runnable2 areCompared different
  by_contra near
  have sameScale :=
    (matched t1 known1 t2 known2 runnable1 (Or.inl runnable2) areCompared different).2
  obtain ⟨history, s', run, lost⟩ := exists_unbalanced_of_near comparison validState valid
    known1 known2 runnable1 runnable2 areCompared different sameScale (Nat.lt_of_not_le near)
  exact lost (always history s' run)

/-- Every run of ticks keeps the bound exactly when the tasks are steady. -/
theorem balanced_of_runs_iff (comparison : Comparison compared scale)
    (validState : ValidState s) (valid : RunnableValid s) :
    (∀ history s', Run (TickAmong compared) s history s' → Balanced compared scale bound s') ↔
      Steady compared scale bound s := by
  constructor
  · intro always
    exact steady_of_leastTicks comparison validState valid fun history s' run =>
      always history s' (run.mono LeastTick.among)
  · intro steady history s' run
    exact (steady_of_run comparison steady run).balanced

end Scaled

/-! ## The two fairness properties -/

variable {s : SchedState}

theorem fairness_iff_balanced :
    Fairness s ↔ Balanced (fun a b => a = b) (fun _ => 1) fairnessBound s := by
  simp only [Fairness, Balanced, Task.Live, Nat.mul_one]

theorem weightedFairness_iff_balanced :
    WeightedFairness s ↔
      Balanced (fun _ _ => True) (fun weight => weight) (fairnessBound * maxWeight) s := by
  simp only [WeightedFairness, Balanced, Task.Live, true_implies]

theorem sameWeight_comparison : Comparison (fun a b => a = b) (fun _ => 1) where
  symmetric same := same.symm
  determined same _ := same
  positive _ := Nat.one_pos

theorem byWeight_comparison : Comparison (fun _ _ => True) (fun weight => weight) where
  symmetric _ := trivial
  determined _ same := same
  positive := id

/--
Every run of the ticks of `FairnessPreserved` keeps fairness exactly when it holds
at first, nobody of the weight of a runnable task is running, and any two of
equal weight are so far apart that a tick of one fits beside the other.
-/
theorem fairness_of_runs_iff (validState : ValidState s) (valid : RunnableValid s) :
    (∀ history s', Run (TickAmong fun a b => a = b) s history s' → Fairness s') ↔
      Fairness s ∧ ∀ t1 ∈ s.allTasks, ∀ t2 ∈ s.allTasks, t1.state = .runnable → t2.Live →
        t1.weight = t2.weight → t1.pid ≠ t2.pid →
          t2.state = .runnable ∧
            deltaVruntime t1 ≤ absDiff t1.vruntime t2.vruntime + fairnessBound := by
  simp only [fairness_iff_balanced]
  rw [balanced_of_runs_iff sameWeight_comparison validState valid]
  constructor
  · rintro ⟨balanced, matched, spaced⟩
    refine ⟨balanced, ?_⟩
    intro t1 known1 t2 known2 runnable live same different
    have peerRunnable := (matched t1 known1 t2 known2 runnable live same different).1
    have room := spaced t1 known1 t2 known2 runnable peerRunnable same different
    rw [Nat.mul_one, Nat.mul_one, Nat.mul_one] at room
    exact ⟨peerRunnable, room⟩
  · rintro ⟨balanced, apart⟩
    refine ⟨balanced, ?_, ?_⟩
    · intro t1 known1 t2 known2 runnable live same different
      exact ⟨(apart t1 known1 t2 known2 runnable live same different).1, rfl⟩
    · intro t1 known1 t2 known2 runnable1 runnable2 same different
      rw [Nat.mul_one, Nat.mul_one, Nat.mul_one]
      exact (apart t1 known1 t2 known2 runnable1 (Or.inl runnable2) same different).2

/-- Two light tasks, the second of which is ahead by half the fairness bound. -/
def lightApart : SchedState :=
  holding {waitingTask 1 102 0, { waitingTask 2 102 0 with vruntime := 5000000 }} 0

/-- A tick charges these tasks more than the bound, but they take turns. -/
theorem lightApart_fair :
    fairnessBound < deltaVruntime (waitingTask 1 102 0) ∧
      ∀ history s', Run (TickAmong fun a b => a = b) lightApart history s' → Fairness s' := by
  refine ⟨by decide, ?_⟩
  exact (fairness_of_runs_iff (holding_valid _ _) (by unfold RunnableValid; decide)).mpr
    (by decide)

/-- On the scale of its weight a tick charges no task more than the bound. -/
theorem deltaVruntime_mul_le (t : Task) :
    deltaVruntime t * t.weight ≤ fairnessBound * maxWeight :=
  (Nat.div_mul_le_self _ _).trans (by decide)

/--
Every run of least ticks keeps weighted fairness exactly when it holds at first
and whoever competes with a runnable task is runnable and has the same weight.
-/
theorem weightedFairness_of_runs_iff (validState : ValidState s) (valid : RunnableValid s) :
    (∀ history s', Run LeastTick s history s' → WeightedFairness s') ↔
      WeightedFairness s ∧ ∀ t1 ∈ s.allTasks, ∀ t2 ∈ s.allTasks, t1.state = .runnable →
        t2.Live → t1.pid ≠ t2.pid → t2.state = .runnable ∧ t2.weight = t1.weight := by
  simp only [weightedFairness_iff_balanced]
  rw [balanced_of_runs_iff byWeight_comparison validState valid]
  constructor
  · rintro ⟨balanced, matched, _⟩
    refine ⟨balanced, ?_⟩
    intro t1 known1 t2 known2 runnable live different
    exact matched t1 known1 t2 known2 runnable live trivial different
  · rintro ⟨balanced, alike⟩
    refine ⟨balanced, ?_, ?_⟩
    · intro t1 known1 t2 known2 runnable live _ different
      exact alike t1 known1 t2 known2 runnable live different
    · intro t1 _ t2 _ _ _ _ _
      exact (deltaVruntime_mul_le t1).trans (Nat.le_add_left _ _)

instance (s : SchedState) : Decidable (WeightedFairness s) := by
  unfold WeightedFairness
  infer_instance

/-- Tasks of different weights start equal and lose weighted fairness in some run. -/
theorem fullAndHalf_unfair :
    ¬ ∀ history s', Run LeastTick fullAndHalf history s' → WeightedFairness s' := by
  intro always
  have alike := (weightedFairness_of_runs_iff (holding_valid _ _)
    (by unfold RunnableValid; decide)).mp always
  exact absurd alike (by decide)

end SchedExt.Fair
