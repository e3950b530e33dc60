import SchedExt.Fair.PriorityService

/-!
# The floor of a run queue

A dispatch raises `min_vruntime` to the new head, and an enqueue leaves it.
The floor is therefore monotone, and below all that is queued, exactly in the
runs in which no task is enqueued below the floor of its queue.
-/

namespace SchedExt.Fair.ConcreteScheduler

open SchedExt.Domain SchedExt.Foundations

/-- The floor of every queue never decreases and is below every queued task. -/
structure MonotoneFloor (start : SchedState) (history : List (Transition SchedState Event)) :
    Prop where
  monotone : ∀ cpu,
    ((states start history).map fun s => (s.queue cpu).minVruntime).Pairwise (· ≤ ·)
  floor : ∀ s ∈ states start history, ∀ cpu, ∀ t ∈ (s.queue cpu).tasks,
    (s.queue cpu).minVruntime ≤ t.vruntime

/-- No task is enqueued with a virtual runtime below the floor of the queue. -/
def EnqueuesAboveFloor (history : List (Transition SchedState Event)) : Prop :=
  ∀ call ∈ history, ∀ t cpu, call.event = .enqueue t cpu →
    (call.source.queue cpu).minVruntime ≤ t.vruntime

/-- In one state: the floor of every queue is below every queued task. -/
def Floored (s : SchedState) : Prop :=
  ∀ cpu, ∀ t ∈ (s.queue cpu).tasks, (s.queue cpu).minVruntime ≤ t.vruntime

variable {start s s' : SchedState} {history : List (Transition SchedState Event)}

/-! ## One call -/

theorem enqueue_minVruntime (s : SchedState) (t : Task) (cpu other : Nat) :
    ((enqueue s t cpu).queue other).minVruntime = (s.queue other).minVruntime := by
  by_cases same : other = cpu
  · subst same
    unfold enqueue
    dsimp only
    rw [SchedState.queue_insert_self]
  · rw [SchedState.queue_congr (enqueue_lookup_of_ne s t same)]

theorem mem_enqueue_tasks {s : SchedState} {t queued : Task} {cpu : Nat} :
    queued ∈ ((enqueue s t cpu).queue cpu).tasks ↔
      queued = t.stamped s.clock ∨ queued ∈ (s.queue cpu).tasks := by
  rw [enqueue_tasks_self, Placement.mem_place]

/-- The floor after a dispatch is the new head, or the old floor when no task is left. -/
theorem dispatch_minVruntime (s : SchedState) (cpu : Nat) :
    ((dispatch s cpu).2.queue cpu).minVruntime =
      ((s.queue cpu).tasks.tail.head?.map Task.vruntime).getD (s.queue cpu).minVruntime := by
  unfold dispatch
  dsimp only
  cases contents : (s.queue cpu).tasks with
  | nil => rfl
  | cons chosen remaining =>
      dsimp only
      rw [SchedState.queue_insert_self]
      cases remaining with
      | nil => rfl
      | cons head rest => rfl

/-- A call keeps the floor below the queued tasks unless it enqueues a task below it. -/
theorem Step.floored {event : Event} (taken : Step s event s') (invariant : SchedInvariant s)
    (floored : Floored s)
    (above : ∀ t cpu, event = .enqueue t cpu → (s.queue cpu).minVruntime ≤ t.vruntime) :
    Floored s' := by
  intro cpu queued member
  rcases taken.cases with ⟨t, target, rfl, _, _, _, rfl⟩ | ⟨target, _, _, rfl⟩
  · rw [enqueue_minVruntime]
    by_cases same : cpu = target
    · subst same
      rcases mem_enqueue_tasks.mp member with rfl | old
      · exact above t cpu rfl
      · exact floored cpu queued old
    · rw [SchedState.queue_congr (enqueue_lookup_of_ne s t same)] at member
      exact floored cpu queued member
  · by_cases same : cpu = target
    · subst same
      have sorted := (invariant.ranked cpu).keys.tail
      rw [dispatch_tasks_self] at member
      rw [dispatch_minVruntime]
      change ((s.queue cpu).tasks.tail).Pairwise _ at sorted
      cases left : (s.queue cpu).tasks.tail with
      | nil =>
          rw [left] at member
          cases member
      | cons head rest =>
          rw [left] at member sorted
          rcases List.mem_cons.mp member with rfl | behind
          · exact Nat.le_refl _
          · exact (List.pairwise_cons.mp sorted).1 queued behind
    · rw [SchedState.queue_congr (dispatch_lookup_of_ne s same)] at member ⊢
      exact floored cpu queued member

/-- A call never lowers a floor that is below the queued tasks. -/
theorem Step.floor_le {event : Event} (taken : Step s event s') (floored : Floored s)
    (cpu : Nat) : (s.queue cpu).minVruntime ≤ (s'.queue cpu).minVruntime := by
  rcases taken.cases with ⟨t, target, rfl, _, _, _, rfl⟩ | ⟨target, _, _, rfl⟩
  · rw [enqueue_minVruntime]
  · by_cases same : cpu = target
    · subst same
      rw [dispatch_minVruntime]
      cases found : (s.queue cpu).tasks.tail.head? with
      | none => exact Nat.le_refl _
      | some head =>
          exact floored cpu head (List.mem_of_mem_tail (List.mem_of_head? found))
    · rw [SchedState.queue_congr (dispatch_lookup_of_ne s same)]

/-! ## Runs -/

theorem floored_of_run (init : EmptyInit start) (run : Run Step start history s)
    (above : EnqueuesAboveFloor history) : Floored s := by
  induction run with
  | refl =>
      intro cpu t member
      rw [init.waiting_nil cpu] at member
      cases member
  | tail earlier last ih =>
      have before := ih fun call member => above call (List.mem_append_left _ member)
      exact last.floored (.of_run init earlier) before
        (above _ (List.mem_append_right _ List.mem_cons_self))

/-- A floor that stays below the queued tasks shows that they were enqueued above it. -/
theorem enqueuesAboveFloor_of_monotone (run : Run Step start history s)
    (kept : MonotoneFloor start history) : EnqueuesAboveFloor history := by
  intro call member t cpu isEnqueue
  have taken := run.steps call member
  have inStates : call.target ∈ states start history :=
    List.mem_cons_of_mem _ (List.mem_map_of_mem member)
  rw [isEnqueue] at taken
  rcases taken.cases with ⟨u, target, enqueued, _, _, _, result⟩ | ⟨target, impossible, _⟩
  · obtain ⟨rfl, rfl⟩ := Event.enqueue.inj enqueued
    have below := kept.floor call.target inStates cpu (t.stamped call.source.clock) (by
      rw [result]
      exact mem_enqueue_tasks.mpr (Or.inl rfl))
    rw [result, enqueue_minVruntime] at below
    exact below
  · cases impossible

/-- Enqueued above the floor, the tasks of every state of the run stay above it. -/
theorem floored_along (init : EmptyInit start) (run : Run Step start history s)
    (above : EnqueuesAboveFloor history) :
    ∀ call ∈ history, Floored call.source ∧ Floored call.target := by
  intro call member
  obtain ⟨before, after, rfl⟩ := List.append_of_mem member
  obtain ⟨earlier, last, _⟩ := run.split
  have source := floored_of_run init earlier fun call inside =>
    above call (List.mem_append_left _ inside)
  exact ⟨source, last.floored (.of_run init earlier) source (above call member)⟩

/--
`min_vruntime` is a monotone floor of a run exactly when no call of the run
enqueues a task below the floor of its queue.
-/
theorem monotoneFloor_iff (init : EmptyInit start) (run : Run Step start history s) :
    MonotoneFloor start history ↔ EnqueuesAboveFloor history := by
  constructor
  · exact enqueuesAboveFloor_of_monotone run
  · intro above
    have along := floored_along init run above
    constructor
    case monotone =>
        intro cpu
        apply And.left
        apply run.pairwise_states fun s => (s.queue cpu).minVruntime
        intro call member
        exact (run.steps call member).floor_le (along call member).1 cpu
    case floor =>
        apply Run.forall_states
        · intro cpu t member
          rw [init.waiting_nil cpu] at member
          cases member
        · exact fun call member => (along call member).2

theorem tiedCalls_monotoneFloor :
    MonotoneFloor twoCpus (trace perform twoCpus tiedCalls) ↔
      EnqueuesAboveFloor (trace perform twoCpus tiedCalls) :=
  monotoneFloor_iff twoCpus_init (tiedCalls_run.mono CheckedStep.step)

/-- Two tasks arrive below a floor that a dispatch has raised. -/
def lateArrivals : List Event :=
  [.enqueue (newTask 1 5) 0, .enqueue (newTask 2 7) 0,
    .dispatch 0 (some ((newTask 1 5).stamped 0)), .enqueue (newTask 3 4) 0,
    .enqueue (newTask 4 5) 0, .dispatch 0 (some ((newTask 3 4).stamped 3))]

theorem lateArrivals_run :
    Run CheckedStep twoCpus (trace perform twoCpus lateArrivals)
      (lateArrivals.foldl perform twoCpus) :=
  Run.of_trace checkedStep_perform (by decide +kernel)

/-- The next dispatch lowers the floor from 7 to 5. -/
theorem floor_lowered : ¬ ∀ (start : SchedState)
    (history : List (Transition SchedState Event)) (s : SchedState), EmptyInit start →
      (∀ cpu ∈ start.runQueues.keys, (start.queue cpu).minVruntime = 0) →
        Run Step start history s → MonotoneFloor start history := by
  intro monotone
  have kept := monotone twoCpus _ _ twoCpus_init (by decide)
    (lateArrivals_run.mono CheckedStep.step)
  exact absurd (kept.monotone 0) (by decide +kernel)

end SchedExt.Fair.ConcreteScheduler
