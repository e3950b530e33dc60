import SchedExt.RoundRobin.Choice

/-!
# Waiting times of the abstract round-robin scheduler

Every action advances the clock by one, and a position is gained only by a
dispatch on the same CPU.  How long a queued task has waited is therefore the
number of actions since its enqueue, and its position the number of enqueues
before it less the number of dispatches.
-/

namespace SchedExt.RoundRobin

open SchedExt.Domain SchedExt.Foundations

/-- `NoStarvation`: waiting times are bounded in proportion to queue positions. -/
def NoStarvation (s : SchedState) : Prop :=
  ∀ cpu ∈ s.runQueues, ∀ i (bound : i < (s.queue cpu).tasks.length),
    ((s.queue cpu).tasks[i]).state = .runnable →
      (s.clock : Int) - ((s.queue cpu).tasks[i]).enqueueTime <
        (i + 1) * timeQuantum * maxTasks

namespace AbstractScheduler

/-- The action is an enqueue on the CPU. -/
def Action.enqueuesOn (cpu : Nat) : Action → Bool
  | .enqueue _ target => target == cpu
  | _ => false

/-- The action is a dispatch of some task on the CPU. -/
def Action.servesOn (cpu : Nat) : Action → Bool
  | .dispatch target chosen => target == cpu && chosen.isSome
  | _ => false

/--
Fewer actions follow every enqueue than the bound at the position its task has
come to: the number of earlier enqueues on the CPU that no dispatch answered.
-/
def ServedInTime (actions : List Action) : Prop :=
  ∀ before t cpu after i, actions = before ++ .enqueue t cpu :: after →
    before.countP (Action.enqueuesOn cpu) = actions.countP (Action.servesOn cpu) + i →
      after.length + 1 < (i + 1) * timeQuantum * maxTasks

variable {start s : SchedState} {history : List (Transition SchedState Action)}

theorem Acts.clock {s' : SchedState} {action : Action} (acts : Acts s action s') :
    s'.clock = s.clock + 1 :=
  acts.queueStep.clock

/-- The clock counts the actions. -/
theorem clock_eq_length (init : Init start) (run : Run Acts start history s) :
    s.clock = history.length := by
  have counted : s.clock = start.clock + history.length := run.counts Acts.clock
  rw [counted, init.clockZero, Nat.zero_add]

/-- As many records were appended as there were enqueues on the CPU. -/
theorem length_appendedTo (cpu : Nat) (history : List (Transition SchedState Action)) :
    (appendedTo cpu history).length =
      (history.map Transition.event).countP (Action.enqueuesOn cpu) := by
  rw [appendedTo, QueueEvent.arrived, List.filterMap_map, List.length_filterMap_eq_countP,
    List.countP_map]
  refine List.countP_congr fun taken _ => ?_
  obtain ⟨source, action, target⟩ := taken
  cases action with
  | enqueue t other => simp [shown, Action.enqueuesOn]
  | dispatch other chosen => simp [shown, Action.enqueuesOn]
  | tick other => simp [shown, Action.enqueuesOn]

/-- Some task is chosen exactly where some task waits. -/
theorem Dispatch.isSome_iff {s' : SchedState} {cpu : Nat} {chosen : Option Task}
    (acts : Dispatch s s' cpu chosen) :
    chosen.isSome ↔ (s.queue cpu).tasks ≠ [] := by
  constructor
  · intro some
    exact List.ne_nil_of_length_pos (acts.headRemoved some).1
  · intro filled
    exact acts.mustChoose (List.length_pos_of_ne_nil filled)

/-- As many records were removed as there were dispatches of some task on the CPU. -/
theorem length_removedFrom (run : Run Acts start history s) (cpu : Nat) :
    (removedFrom cpu history).length =
      (history.map Transition.event).countP (Action.servesOn cpu) := by
  rw [removedFrom, QueueEvent.served, List.filterMap_map, List.length_filterMap_eq_countP,
    List.countP_map]
  refine List.countP_congr fun taken member => ?_
  have acts := run.steps taken member
  obtain ⟨source, action, target⟩ := taken
  cases action with
  | enqueue t other => simp [shown, Action.servesOn]
  | dispatch other chosen =>
      have chosenIff := Dispatch.isSome_iff acts
      by_cases onCpu : other = cpu
      · simp [shown, Action.servesOn, onCpu, chosenIff]
      · simp [shown, Action.servesOn, onCpu]
  | tick other => simp [shown, Action.servesOn]

/--
The task at a position of a queue is the one enqueued there when that many
enqueues more than dispatches of the whole run had been made.
-/
theorem getElem?_queue_iff (init : Init start) (run : Run Acts start history s)
    {cpu i : Nat} {t : Task} :
    (s.queue cpu).tasks[i]? = some t ↔
      ∃ before u after, history.map Transition.event = before ++ .enqueue u cpu :: after ∧
        t = u.stamped before.length ∧
        before.countP (Action.enqueuesOn cpu) =
          (history.map Transition.event).countP (Action.servesOn cpu) + i := by
  have position : (s.queue cpu).tasks[i]? =
      (appendedTo cpu history)[(removedFrom cpu history).length + i]? := by
    rw [appendedTo_eq init run, List.getElem?_append_right (Nat.le_add_right _ _),
      Nat.add_sub_cancel_left]
  rw [position, length_removedFrom run, appendedTo, QueueEvent.arrived, List.filterMap_map,
    getElem?_filterMap_iff]
  constructor
  · rintro ⟨before, ⟨source, action, target⟩, after, rfl, keeps, count⟩
    obtain ⟨earlier, _, _⟩ := run.split
    cases action with
    | enqueue u other =>
        simp only [Function.comp, shown, Option.ite_none_right_eq_some,
          Option.some.injEq] at keeps
        obtain ⟨rfl, rfl⟩ := keeps
        refine ⟨before.map Transition.event, u, after.map Transition.event, by simp, ?_, ?_⟩
        · rw [List.length_map, clock_eq_length init earlier]
        · rw [← length_appendedTo, appendedTo, QueueEvent.arrived, List.filterMap_map]
          exact count
    | dispatch other chosen => cases keeps
    | tick other => cases keeps
  · rintro ⟨before, u, after, whole, rfl, count⟩
    obtain ⟨early, source, target, late, rfl, rfl, rfl, earlier, _⟩ := run.split_event whole
    have clock : source.clock = early.length := clock_eq_length init earlier
    refine ⟨early, ⟨source, .enqueue u cpu, target⟩, late, rfl, ?_, ?_⟩
    · simp [shown, clock]
    · rw [← count, ← length_appendedTo, appendedTo, QueueEvent.arrived, List.filterMap_map]

theorem runnable_of_enqueue (run : Run Acts start history s) {t : Task} {cpu : Nat}
    (member : .enqueue t cpu ∈ history.map Transition.event) : t.state = .runnable := by
  have each : ∀ taken ∈ history, ∀ t cpu, taken.event = .enqueue t cpu →
      t.state = .runnable := by
    refine run.forall_step ?_
    intro before event after acts t cpu isEnqueue
    obtain rfl : event = .enqueue t cpu := isEnqueue
    exact Enqueue.runnable acts
  obtain ⟨taken, takenMem, isEnqueue⟩ := List.mem_map.mp member
  exact each taken takenMem t cpu isEnqueue

/-- An enqueued task has waited for as many actions as have been taken since, its own included. -/
theorem waited_eq (init : Init start) (run : Run Acts start history s) {t : Task} {cpu : Nat}
    {before after : List Action}
    (whole : history.map Transition.event = before ++ .enqueue t cpu :: after) :
    (s.clock : Int) - (t.stamped before.length).enqueueTime = (after.length + 1 : Nat) := by
  have clock : s.clock = before.length + (after.length + 1) := by
    rw [clock_eq_length init run, ← List.length_map Transition.event, whole,
      List.length_append, List.length_cons]
  rw [Task.stamped_enqueueTime, clock]
  push_cast
  exact add_sub_cancel_left _ _

/--
A state that nondeterministic actions reach is free of starvation exactly when
few enough actions followed every enqueue still unanswered.
-/
theorem noStarvation_iff_servedInTime (init : Init start) (run : Run Acts start history s) :
    NoStarvation s ↔ ServedInTime (history.map Transition.event) := by
  constructor
  · intro bounded before t cpu after i whole count
    have found : (s.queue cpu).tasks[i]? = some (t.stamped before.length) :=
      (getElem?_queue_iff init run).mpr ⟨before, t, after, whole, rfl, count⟩
    obtain ⟨bound, same⟩ := List.getElem?_eq_some_iff.mp found
    have known : cpu ∈ s.runQueues := by
      by_contra absent
      rw [SchedState.queue_of_notMem absent] at bound
      exact Nat.not_lt_zero i bound
    have runnable : t.state = .runnable := by
      apply runnable_of_enqueue run
      rw [whole]
      exact List.mem_append_right _ List.mem_cons_self
    have waited := bounded cpu known i bound
    rw [same] at waited
    have inTime := waited runnable
    rw [waited_eq init run whole] at inTime
    exact_mod_cast inTime
  · intro served cpu _ i bound _
    obtain ⟨before, t, after, whole, stamped, count⟩ :=
      (getElem?_queue_iff init run).mp (List.getElem?_eq_getElem bound)
    rw [stamped, waited_eq init run whole]
    exact_mod_cast served before t cpu after i whole count

open ConcreteScheduler in
theorem firstTurn_noStarvation_iff :
    NoStarvation afterTurn ↔
      ServedInTime ((ofCalls (trace perform twoCpus firstTurn)).map Transition.event) :=
  noStarvation_iff_servedInTime twoCpus_init (run_ofCalls twoCpus_init firstTurn_run)

/-! ## Ticks alone starve a queued task -/

/-- An active CPU may tick any number of times. -/
theorem ticks_path {cpu : Nat} (valid : ValidState s) (active : cpu ∈ s.activeCpus)
    (count : Nat) :
    Relation.ReflTransGen Next s { s with clock := s.clock + count } := by
  induction count with
  | zero => exact .refl
  | succ count ih =>
      refine ih.tail (Or.inr (Or.inr ⟨cpu, ?_⟩))
      exact {
        validBefore := SchedState.Valid.of_queues valid _ _
        active := active
        clock := rfl
        activeCpus := rfl
        runQueues := rfl
        validAfter := SchedState.Valid.of_queues valid _ _ }

open ConcreteScheduler in
/-- One task is enqueued and then only time passes. -/
theorem ticking_starves :
    ¬ ∀ start s : SchedState, Init start → Relation.ReflTransGen Next start s →
      NoStarvation s := by
  intro bounded
  have enqueued : Next twoCpus (enqueue twoCpus (newTask 1) 0) :=
    Or.inl ⟨newTask 1, 0, RefinementProof.enqueueRefines twoCpus_init.valid (by decide) rfl
      (by decide) (by decide)⟩
  have path := (Relation.ReflTransGen.single enqueued).trans
    (ticks_path enqueued.validAfter (by decide : 0 ∈ _) (timeQuantum * maxTasks))
  have late := bounded _ _ twoCpus_init path 0 (Finmap.mem_keys.mp (by decide)) 0 (by decide) rfl
  exact absurd late (by decide)

end AbstractScheduler

end SchedExt.RoundRobin
