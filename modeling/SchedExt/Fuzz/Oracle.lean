import SchedExt.Fair.Types
import SchedExt.Foundations.Run
import SchedExt.Fuzz.Simulator

/-!
# The fuzz oracle and the specification

The tasks of the simulator are the records of a specification state.  The
checker is silent exactly when the virtual runtimes are fair and no task has
waited more than the starvation bound; the specification asks for less.
-/

namespace SchedExt.Fuzz

open Domain Foundations

inductive Step : FuzzState → FuzzEvent → FuzzState → Prop where
  | apply (before : FuzzState) {event : FuzzEvent} (shaped : event.Shaped) :
      Step before event (applyEvent before event)

/-- No tasks at time zero. -/
def emptyState (activeCpus : Finset Nat) : FuzzState :=
  ⟨Dict.empty, 0, ∅, activeCpus⟩

/-- A task of the simulator is runnable, with a weight that the specification allows. -/
structure Sound (task : FuzzTask) : Prop where
  runnable : task.state = .runnable
  positive : 1 ≤ task.weight
  bounded : task.weight ≤ 1024

/-- Every task of the state is sound. -/
def TasksSound (state : FuzzState) : Prop :=
  ∀ entry ∈ state.tasks.entries, Sound entry.2

theorem mem_entries_of_mem_runnable {state : FuzzState} {entry : Nat × FuzzTask}
    (member : entry ∈ state.runnable) : entry ∈ state.tasks.entries :=
  List.mem_of_mem_filter member

theorem TasksSound.mem_runnable {state : FuzzState} (sound : TasksSound state)
    {entry : Nat × FuzzTask} (member : entry ∈ state.tasks.entries) : entry ∈ state.runnable :=
  List.mem_filter.mpr ⟨member, decide_eq_true (sound entry member).runnable⟩

theorem TasksSound.dispatched {state : FuzzState} (sound : TasksSound state) :
    TasksSound state.dispatched := by
  unfold FuzzState.dispatched
  split
  · exact sound
  · rename_i pid task chosen
    have member := mem_entries_of_mem_runnable (List.argmin_mem chosen)
    have known := sound _ member
    exact Dict.forall_set sound ⟨known.runnable, known.positive, known.bounded⟩

theorem TasksSound.step {before after : FuzzState} {event : FuzzEvent}
    (sound : TasksSound before) (step : Step before event after) : TasksSound after := by
  cases step with
  | apply shaped =>
      cases event with
      | enqueue pid vruntime weight flags =>
          exact Dict.forall_set sound ⟨rfl, shaped.2.1, shaped.2.2⟩
      | dispatch cpu =>
          have advanced : TasksSound { before with clock := before.clock + 1000000 } := sound
          exact advanced.dispatched
      | taskDead pid =>
          unfold applyEvent
          simp only
          split
          · exact fun entry member => sound entry (List.mem_of_mem_filter member)
          · exact sound
      | _ => exact sound

/-- The record of a task; the simulator knows no affinities. -/
def record (affinity : Nat → Finset Nat) (entry : Nat × FuzzTask) : Fair.Task where
  pid := entry.1
  vruntime := entry.2.vruntime
  weight := entry.2.weight
  state := entry.2.state
  cpuAffinity := affinity entry.1
  enqueueTime := entry.2.enqueueTime

/-- A specification state with one record for every task, and the same clock. -/
structure Corresponds (state : FuzzState) (s : Fair.SchedState) : Prop where
  records : ∃ affinity, ∀ t, t ∈ s.allTasks ↔ t ∈ state.tasks.entries.map (record affinity)
  clock : s.clock = state.clock

variable {state : FuzzState} {s : Fair.SchedState}

theorem absDiff_le_iff {first second bound : Nat} :
    Fair.absDiff first second ≤ bound ↔ first ≤ second + bound ∧ second ≤ first + bound := by
  unfold Fair.absDiff
  split <;> omega

theorem fairness_iff (sound : TasksSound state) (corresponds : Corresponds state s) :
    Fair.Fairness s ↔ WithinBound state.runnable := by
  obtain ⟨affinity, records⟩ := corresponds.records
  have recorded : ∀ entry ∈ state.tasks.entries, record affinity entry ∈ s.allTasks :=
    fun entry member => (records _).mpr (List.mem_map_of_mem member)
  constructor
  · intro fair first firstMember second secondMember same
    have firstIn := mem_entries_of_mem_runnable firstMember
    have secondIn := mem_entries_of_mem_runnable secondMember
    by_cases pid : first.1 = second.1
    · have once : first = second :=
        List.inj_on_of_nodup_map state.tasks.distinct firstIn secondIn pid
      rw [once]
      exact Nat.le_add_right _ _
    · have within := fair _ (recorded _ firstIn) _ (recorded _ secondIn)
        (.inl (sound _ firstIn).runnable) (.inl (sound _ secondIn).runnable) same pid
      exact (absDiff_le_iff.mp within).1
  · intro within t1 t1Member t2 t2Member _ _ same _
    obtain ⟨first, firstIn, rfl⟩ := List.mem_map.mp ((records t1).mp t1Member)
    obtain ⟨second, secondIn, rfl⟩ := List.mem_map.mp ((records t2).mp t2Member)
    have above := within _ (sound.mem_runnable firstIn) _ (sound.mem_runnable secondIn) same
    have below := within _ (sound.mem_runnable secondIn) _ (sound.mem_runnable firstIn) same.symm
    exact absDiff_le_iff.mpr ⟨above, below⟩

theorem noStarvation_iff (sound : TasksSound state) (corresponds : Corresponds state s) :
    Fair.NoStarvation s ↔ ∀ entry ∈ state.runnable, entry.2.wait state.clock < 500000000 := by
  obtain ⟨affinity, records⟩ := corresponds.records
  constructor
  · intro served entry member
    have entryIn := mem_entries_of_mem_runnable member
    have wait := served _ ((records _).mpr (List.mem_map_of_mem entryIn)) (sound _ entryIn).runnable
    rw [corresponds.clock] at wait
    exact wait
  · intro served t member _
    obtain ⟨entry, entryIn, rfl⟩ := List.mem_map.mp ((records t).mp member)
    rw [corresponds.clock]
    exact served entry (sound.mem_runnable entryIn)

theorem tasksSound_of_run {activeCpus : Finset Nat}
    {history : List (Transition FuzzState FuzzEvent)}
    (run : Run Step (emptyState activeCpus) history state) : TasksSound state :=
  run.invariant (fun _ member => nomatch member) TasksSound.step

/-- Every reached state has a valid specification state, whose tasks are valid too. -/
theorem exists_corresponds (sound : TasksSound state) :
    ∃ s, Corresponds state s ∧ Fair.ValidState s ∧ ∀ t ∈ s.allTasks, Fair.ValidTask t := by
  refine ⟨⟨∅, (state.tasks.entries.map (record fun _ => ∅)).toFinset, state.clock, ∅⟩,
    ⟨⟨fun _ => ∅, fun t => List.mem_toFinset⟩, rfl⟩,
    ⟨fun _ member => absurd member (Finset.notMem_empty _),
      fun _ member => absurd member (Finset.notMem_empty _), Finset.empty_subset _⟩, ?_⟩
  intro t member
  obtain ⟨entry, entryIn, rfl⟩ := List.mem_map.mp (List.mem_toFinset.mp member)
  exact ⟨(sound entry entryIn).positive, (sound entry entryIn).bounded, .inl rfl⟩

/-- No task has waited more than the bound, and one has waited exactly as long. -/
def LongestWaitAtBound (state : FuzzState) : Prop :=
  (∀ entry ∈ state.runnable, entry.2.wait state.clock ≤ 500000000) ∧
    ∃ entry ∈ state.runnable, entry.2.wait state.clock = 500000000

/--
In every reached state the checker agrees with the specification unless the
virtual runtimes are fair and the longest wait is exactly the starvation bound.
-/
theorem checkInvariants_agrees_iff {activeCpus : Finset Nat}
    {history : List (Transition FuzzState FuzzEvent)} {state : FuzzState} {s : Fair.SchedState}
    (run : Run Step (emptyState activeCpus) history state) (corresponds : Corresponds state s) :
    (checkInvariants state = [] ↔ Fair.Fairness s ∧ Fair.NoStarvation s) ↔
      ¬ (WithinBound state.runnable ∧ LongestWaitAtBound state) := by
  have sound := tasksSound_of_run run
  rw [checkInvariants_eq_nil_iff, fairness_iff sound corresponds,
    noStarvation_iff sound corresponds]
  constructor
  · rintro agrees ⟨within, allowed, entry, member, exactly⟩
    have less := (agrees.mp ⟨within, allowed⟩).2 entry member
    exact absurd exactly less.ne
  · intro apart
    constructor
    · rintro ⟨within, allowed⟩
      refine ⟨within, fun entry member => lt_of_le_of_ne (allowed entry member) fun exactly => ?_⟩
      exact apart ⟨within, allowed, entry, member, exactly⟩
    · rintro ⟨within, served⟩
      exact ⟨within, fun entry member => (served entry member).le⟩

/-! ## One task that is never dispatched -/

/-- Ticks only advance the clock. -/
theorem run_ticks {start : FuzzState} {history : List (Transition FuzzState FuzzEvent)}
    (run : Run Step start history state) (count : Nat) :
    ∃ longer, Run Step start longer { state with clock := state.clock + count * 1000000 } := by
  induction count with
  | zero => exact ⟨history, by simpa using run⟩
  | succ count ih =>
      obtain ⟨earlier, soFar⟩ := ih
      have ticks : Step { state with clock := state.clock + count * 1000000 } (.tick 0) _ :=
        .apply _ trivial
      rw [Nat.succ_mul, ← Nat.add_assoc]
      exact ⟨_, soFar.tail ticks⟩

def loneEnqueue : FuzzEvent := .enqueue 1 0 1024 ⟨true, false⟩

/-- The state after one enqueue. -/
def enqueued : FuzzState := applyEvent (emptyState ∅) loneEnqueue

theorem run_enqueued : ∃ history, Run Step (emptyState ∅) history enqueued :=
  ⟨_, .tail .refl (.apply _ (by decide : (1 : Nat) ≤ 1 ∧ 1 ≤ 1024 ∧ 1024 ≤ 1024))⟩

theorem enqueued_agrees :
    checkInvariants enqueued = [] ↔
      Fair.Fairness ⟨∅, {⟨1, 0, 1024, .runnable, ∅, 1000000⟩}, 1000000, ∅⟩ ∧
        Fair.NoStarvation ⟨∅, {⟨1, 0, 1024, .runnable, ∅, 1000000⟩}, 1000000, ∅⟩ := by
  obtain ⟨history, run⟩ := run_enqueued
  refine (checkInvariants_agrees_iff run ⟨⟨fun _ => ∅, fun t => ?_⟩, rfl⟩).mpr ?_
  · change t ∈ ({_} : Finset Fair.Task) ↔ t ∈ [_]
    rw [Finset.mem_singleton, List.mem_singleton]
    rfl
  · rintro ⟨-, -, entry, member, exactly⟩
    obtain rfl := List.mem_singleton.mp (mem_entries_of_mem_runnable member)
    exact absurd exactly (by decide)

/-- After 500 ticks the checker is silent and the specification violated. -/
theorem enqueued_ticks_differs :
    ∃ history state s, Run Step (emptyState ∅) history state ∧ Corresponds state s ∧
      checkInvariants state = [] ∧ Fair.Fairness s ∧ ¬ Fair.NoStarvation s := by
  obtain ⟨history, run⟩ := run_enqueued
  obtain ⟨longer, waited⟩ := run_ticks run 500
  have sound := tasksSound_of_run waited
  obtain ⟨s, corresponds, -, -⟩ := exists_corresponds sound
  have member : ((1, ⟨0, 1024, .runnable, 1000000⟩) : Nat × FuzzTask) ∈
      FuzzState.runnable { enqueued with clock := enqueued.clock + 500 * 1000000 } :=
    sound.mem_runnable List.mem_cons_self
  have only : ∀ entry ∈
      FuzzState.runnable { enqueued with clock := enqueued.clock + 500 * 1000000 },
      entry = (1, ⟨0, 1024, .runnable, 1000000⟩) :=
    fun entry inside => List.mem_singleton.mp (mem_entries_of_mem_runnable inside)
  have within : WithinBound
      (FuzzState.runnable { enqueued with clock := enqueued.clock + 500 * 1000000 }) := by
    intro first firstMember second secondMember _
    rw [only first firstMember, only second secondMember]
    decide
  refine ⟨longer, _, s, waited, corresponds, checkInvariants_eq_nil_iff.mpr ⟨within, ?_⟩,
    (fairness_iff sound corresponds).mpr within, fun served => ?_⟩
  · intro entry inside
    rw [only entry inside]
    decide
  · have less := (noStarvation_iff sound corresponds).mp served _ member
    exact absurd less (by decide)

end SchedExt.Fuzz
