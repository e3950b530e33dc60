import Mathlib.Data.Multiset.Basic
import SchedExt.RoundRobin.Refinement

/-!
# What the abstract round-robin dispatch chooses

The abstract `Dispatch` constrains the chosen task and the removed one apart
from each other: the former may be any runnable task of the queue, the latter
is the head.  Only where both coincide is the chosen task the one that leaves.
-/

namespace SchedExt.RoundRobin

open SchedExt.Domain SchedExt.Foundations

/-- `DispatchReturnsHead`: the dispatched task is the runnable head of the queue. -/
def DispatchReturnsHead (rq : RunQueue) (dispatched : Task) : Prop :=
  ∃ _ : rq.tasks.length > 0, dispatched = rq.tasks[0] ∧ dispatched.state = .runnable

theorem dispatchReturnsHead_iff (rq : RunQueue) (dispatched : Task) :
    DispatchReturnsHead rq dispatched ↔
      rq.tasks.head? = some dispatched ∧ dispatched.state = .runnable := by
  rw [DispatchReturnsHead]
  cases rq.tasks with
  | nil => simp
  | cons head rest => simp [eq_comm]

namespace AbstractScheduler

/-! ## Runs of named actions -/

/-- A disjunct of `Next` with its existentially quantified arguments. -/
inductive Action where
  | enqueue (t : Task) (targetCpu : Nat)
  | dispatch (cpu : Nat) (chosen : Option Task)
  | tick (cpu : Nat)
  deriving DecidableEq

/-- The action leads from the state before to the state after. -/
def Acts (s : SchedState) : Action → SchedState → Prop
  | .enqueue t cpu, s' => Enqueue s s' t cpu
  | .dispatch cpu chosen, s' => Dispatch s s' cpu chosen
  | .tick cpu, s' => Tick s s' cpu

theorem next_iff_acts (s s' : SchedState) : Next s s' ↔ ∃ action, Acts s action s' := by
  constructor
  · rintro (⟨t, cpu, acts⟩ | ⟨cpu, chosen, acts⟩ | ⟨cpu, acts⟩)
    · exact ⟨.enqueue t cpu, acts⟩
    · exact ⟨.dispatch cpu chosen, acts⟩
    · exact ⟨.tick cpu, acts⟩
  · rintro ⟨action, acts⟩
    cases action with
    | enqueue t cpu => exact Or.inl ⟨t, cpu, acts⟩
    | dispatch cpu chosen => exact Or.inr (Or.inl ⟨cpu, chosen, acts⟩)
    | tick cpu => exact Or.inr (Or.inr ⟨cpu, acts⟩)

/-- The states that nondeterministic steps reach are those that runs of actions end in. -/
theorem reachable_iff_run {start s : SchedState} :
    Relation.ReflTransGen Next start s ↔ ∃ history, Run Acts start history s := by
  constructor
  · intro path
    induction path with
    | refl => exact ⟨[], .refl⟩
    | tail _ last ih =>
        obtain ⟨history, earlier⟩ := ih
        obtain ⟨action, acts⟩ := (next_iff_acts _ _).mp last
        exact ⟨_, .tail earlier acts⟩
  · rintro ⟨history, run⟩
    induction run with
    | refl => exact .refl
    | tail _ last ih => exact ih.tail ((next_iff_acts _ _).mpr ⟨_, last⟩)

/-- An action as an observer of the queues sees it: a dispatch removes the head. -/
def shown (taken : Transition SchedState Action) : QueueEvent Nat Task :=
  match taken.event with
  | .enqueue t cpu => .put cpu (t.stamped taken.source.clock)
  | .dispatch cpu _ => .take cpu (taken.source.queue cpu).tasks.head?
  | .tick _ => .tick

variable {start s s' : SchedState} {history : List (Transition SchedState Action)}
variable {action : Action}

/-- Every action is a step of the family of queues. -/
theorem Acts.queueStep (acts : Acts s action s') :
    QueueStep (view s) (shown ⟨s, action, s'⟩) (view s') := by
  cases action with
  | enqueue t cpu =>
      have after := Enqueue.view acts
      rw [after]
      exact .put _ cpu (t.stamped s.clock) rfl
  | dispatch cpu chosen =>
      have after := Dispatch.view acts
      rw [after]
      exact .take _ cpu
  | tick cpu =>
      have after := Tick.view acts
      rw [after]
      exact .tick _

theorem queueRun (run : Run Acts start history s) :
    Run QueueStep (view start)
      (history.map fun taken => ⟨view taken.source, shown taken, view taken.target⟩)
      (view s) :=
  run.simulate view shown fun acts => acts.queueStep

/-- The records appended to the queue of a CPU, oldest first. -/
def appendedTo (cpu : Nat) (history : List (Transition SchedState Action)) : List Task :=
  QueueEvent.arrived cpu (history.map shown)

/-- The records removed from the queue of a CPU, oldest first. -/
def removedFrom (cpu : Nat) (history : List (Transition SchedState Action)) : List Task :=
  QueueEvent.served cpu (history.map shown)

/-- The tasks chosen by the dispatches on a CPU, oldest first. -/
def chosenOn (cpu : Nat) (history : List (Transition SchedState Action)) : List Task :=
  history.filterMap fun taken =>
    match taken.event with
    | .dispatch target chosen => if target = cpu then chosen else none
    | _ => none

/-- What was appended is what was removed followed by what waits. -/
theorem appendedTo_eq (init : Init start) (run : Run Acts start history s) (cpu : Nat) :
    appendedTo cpu history = removedFrom cpu history ++ (s.queue cpu).tasks := by
  have law := Queues.log (queueRun run) cpu
  rw [Queues.labels_simulate, view_waiting, view_waiting, init.waiting_nil cpu,
    List.nil_append] at law
  exact law

theorem appendedTo_nodup (run : Run Acts start history s) (cpu : Nat) :
    (appendedTo cpu history).Nodup := by
  have distinct := Queues.arrived_nodup (queueRun run) cpu
  rw [Queues.labels_simulate] at distinct
  exact distinct

theorem enqueueTime_lt_of_appended (run : Run Acts start history s) {cpu : Nat} {t : Task}
    (member : t ∈ appendedTo cpu history) : t.enqueueTime < s.clock := by
  have past := (Queues.arrivals_stamped (queueRun run)).2
  rw [Queues.labels_simulate] at past
  exact past t ((QueueEvent.arrived_sublist cpu _).mem member)

/-! ## The chosen and the removed task -/

/--
The chosen task is the one that left the queue, and it is one of least enqueue
time if the queue was ordered.
-/
structure ChosenLeaves (s s' : SchedState) (cpu : Nat) (t : Task) : Prop where
  leaves : ((s.queue cpu).tasks : Multiset Task) =
    ((s'.queue cpu).tasks : Multiset Task) + {t}
  least : FIFOOrdered (s.queue cpu).tasks →
    ∀ u ∈ (s.queue cpu).tasks, t.enqueueTime ≤ u.enqueueTime

theorem Dispatch.chosenLeaves_iff {cpu : Nat} {t : Task}
    (acts : Dispatch s s' cpu (some t)) :
    ChosenLeaves s s' cpu t ↔ DispatchReturnsHead (s.queue cpu) t := by
  rw [dispatchReturnsHead_iff]
  obtain ⟨member, runnable⟩ := acts.fromQueue t rfl
  obtain ⟨head, rest, contents⟩ := List.exists_cons_of_ne_nil (List.ne_nil_of_mem member)
  have removed := acts.tasks_tail
  rw [contents, List.tail_cons] at removed
  rw [contents, List.head?_cons, Option.some.injEq]
  constructor
  · intro leaves
    have balance := leaves.leaves
    rw [contents, removed, ← Multiset.cons_coe, add_comm, Multiset.singleton_add] at balance
    exact ⟨(Multiset.cons_inj_left _).mp balance, runnable⟩
  · rintro ⟨rfl, _⟩
    refine ⟨?_, ?_⟩
    · rw [contents, removed, ← Multiset.cons_coe, add_comm, Multiset.singleton_add]
    · rw [contents, fifoOrdered_iff_pairwise, List.pairwise_cons]
      rintro ⟨first, _⟩ u uMem
      rcases List.mem_cons.mp uMem with rfl | later
      · exact Nat.le_refl _
      · exact first u later

/-- Every dispatch of the run chooses the head of its queue. -/
def ChoosesHeads (history : List (Transition SchedState Action)) : Prop :=
  ∀ taken ∈ history, ∀ cpu t, taken.event = .dispatch cpu (some t) →
    DispatchReturnsHead (taken.source.queue cpu) t

/-- Every appended task instance is chosen at most once and waits unless it is chosen. -/
def EachChosenOnce (history : List (Transition SchedState Action)) (s : SchedState) : Prop :=
  ∀ cpu, ∀ t ∈ appendedTo cpu history, (chosenOn cpu history).count t ≤ 1 ∧
    (t ∈ chosenOn cpu history ∨ t ∈ (s.queue cpu).tasks)

/-- Where all dispatches choose heads, the chosen tasks are the removed ones. -/
theorem chosenOn_eq_removedFrom (run : Run Acts start history s)
    (heads : ChoosesHeads history) (cpu : Nat) :
    chosenOn cpu history = removedFrom cpu history := by
  rw [removedFrom, QueueEvent.served, List.filterMap_map]
  refine List.filterMap_congr fun taken member => ?_
  have acts := run.steps taken member
  have choosesHead := heads taken member
  obtain ⟨source, action, target⟩ := taken
  cases action with
  | enqueue t other => rfl
  | dispatch other chosen =>
      have same : chosen = (source.queue other).tasks.head? := by
        cases chosen with
        | some t =>
            exact ((dispatchReturnsHead_iff _ t).mp (choosesHead other t rfl)).1.symm
        | none =>
            have empty : ¬ (source.queue other).tasks.length > 0 := fun filled =>
              Bool.noConfusion (acts.mustChoose filled)
            rw [List.eq_nil_of_length_eq_zero (Nat.eq_zero_of_not_pos empty)]
            rfl
      rw [same]
      rfl
  | tick other => rfl

/-- Where all dispatches choose heads, the chosen tasks and the queue are what was appended. -/
theorem appendedTo_eq_chosenOn (init : Init start) (run : Run Acts start history s)
    (heads : ChoosesHeads history) (cpu : Nat) :
    appendedTo cpu history = chosenOn cpu history ++ (s.queue cpu).tasks := by
  rw [appendedTo_eq init run, chosenOn_eq_removedFrom run heads]

theorem eachChosenOnce_of_heads (init : Init start) (run : Run Acts start history s)
    (heads : ChoosesHeads history) : EachChosenOnce history s := by
  intro cpu t member
  have distinct := appendedTo_nodup run cpu
  rw [appendedTo_eq_chosenOn init run heads cpu] at member distinct
  exact ⟨List.nodup_iff_count_le_one.mp (List.nodup_append.mp distinct).1 t,
    List.mem_append.mp member⟩

theorem chosenOn_concat (cpu : Nat) (history : List (Transition SchedState Action))
    (last : Transition SchedState Action) :
    chosenOn cpu (history ++ [last]) = chosenOn cpu history ++ chosenOn cpu [last] :=
  List.filterMap_append

theorem eq_of_mem_chosenOn_singleton {cpu : Nat} {t : Task}
    {last : Transition SchedState Action} (member : t ∈ chosenOn cpu [last]) :
    last.event = .dispatch cpu (some t) := by
  obtain ⟨taken, takenMem, shows⟩ := List.mem_filterMap.mp member
  obtain rfl := List.mem_singleton.mp takenMem
  cases event : taken.event with
  | enqueue u other => simp [event] at shows
  | dispatch other chosen =>
      simp only [event, Option.ite_none_right_eq_some] at shows
      obtain ⟨rfl, rfl⟩ := shows
      rfl
  | tick other => simp [event] at shows

/-- What was appended stays appended. -/
theorem mem_appendedTo_append {cpu : Nat} {t : Task} (member : t ∈ appendedTo cpu history)
    (later : List (Transition SchedState Action)) : t ∈ appendedTo cpu (history ++ later) := by
  rw [appendedTo, List.map_append, QueueEvent.arrived_append]
  exact List.mem_append_left _ member

/-- As long as heads are chosen, the head of a queue is appended once and not yet chosen. -/
theorem head_pending (init : Init start) (run : Run Acts start history s)
    (heads : ChoosesHeads history) {cpu : Nat} {head : Task} {rest : List Task}
    (contents : (s.queue cpu).tasks = head :: rest) :
    head ∈ appendedTo cpu history ∧ head ∉ chosenOn cpu history ∧ head ∉ rest := by
  have whole := appendedTo_eq_chosenOn init run heads cpu
  have distinct := appendedTo_nodup run cpu
  rw [contents] at whole
  rw [whole] at distinct ⊢
  refine ⟨List.mem_append_right _ List.mem_cons_self, fun chosen => ?_, ?_⟩
  · exact (List.nodup_append.mp distinct).2.2 head chosen head List.mem_cons_self rfl
  · exact (List.nodup_cons.mp (List.nodup_append.mp distinct).2.1).1

/-- An instance that was lost or chosen twice stays so. -/
theorem EachChosenOnce.earlier {next : SchedState} (earlier : Run Acts start history s)
    (acts : Acts s action next)
    (once : EachChosenOnce (history ++ [⟨s, action, next⟩]) next) :
    EachChosenOnce history s := by
  intro cpu t member
  obtain ⟨count, found⟩ := once cpu t (mem_appendedTo_append member _)
  rw [chosenOn_concat] at count found
  refine ⟨((List.sublist_append_left _ _).count_le t).trans count, ?_⟩
  rcases found with chosen | waits
  · rcases List.mem_append.mp chosen with before | now
    · exact Or.inl before
    · obtain rfl : action = .dispatch cpu (some t) := eq_of_mem_chosenOn_singleton now
      exact Or.inr (acts.fromQueue t rfl).1
  · have source : (_ ∧ t.enqueueTime = s.clock) ∨ t ∈ (s.queue cpu).tasks :=
      acts.queueStep.mem_waiting waits
    rcases source with ⟨_, now⟩ | old
    · have past := enqueueTime_lt_of_appended earlier member
      exact absurd now (Nat.ne_of_lt past)
    · exact Or.inr old

theorem heads_of_eachChosenOnce (init : Init start) (run : Run Acts start history s)
    (once : EachChosenOnce history s) : ChoosesHeads history := by
  induction run with
  | refl =>
      intro taken member
      cases member
  | @tail history s next action earlier acts ih =>
      have heads := ih (once.earlier earlier acts)
      intro taken member cpu t isDispatch
      rcases List.mem_append.mp member with before | last
      · exact heads taken before cpu t isDispatch
      · obtain rfl := List.mem_singleton.mp last
        obtain rfl : action = .dispatch cpu (some t) := isDispatch
        obtain ⟨inQueue, runnable⟩ := acts.fromQueue t rfl
        obtain ⟨head, rest, contents⟩ :=
          List.exists_cons_of_ne_nil (List.ne_nil_of_mem inQueue)
        obtain ⟨appended, notChosen, notWaiting⟩ := head_pending init earlier heads contents
        have isHead : head = t := by
          rcases (once cpu head (mem_appendedTo_append appended _)).2 with chosen | waits
          · rw [chosenOn_concat] at chosen
            have now := (List.mem_append.mp chosen).resolve_left notChosen
            have same := eq_of_mem_chosenOn_singleton now
            exact (Option.some.inj (Action.dispatch.inj same).2).symm
          · rw [Dispatch.tasks_tail acts, contents] at waits
            exact absurd waits notWaiting
        refine (dispatchReturnsHead_iff _ t).mpr ⟨?_, runnable⟩
        rw [contents, isHead]
        rfl

/-! ## Any runnable queued task may be chosen -/

/-- The choice can be exchanged for any other runnable task of the queue. -/
theorem Dispatch.exchange {cpu : Nat} {t u : Task} (acts : Dispatch s s' cpu (some t))
    (member : u ∈ (s.queue cpu).tasks) (runnable : u.state = .runnable) :
    Dispatch s s' cpu (some u) :=
  { acts with
    mustChoose := fun _ => rfl
    mayNotChoose := fun empty =>
      absurd (List.eq_nil_of_length_eq_zero empty) (List.ne_nil_of_mem member)
    fromQueue := fun _ same => by
      cases same
      exact ⟨member, runnable⟩
    headRemoved := fun _ => acts.headRemoved rfl
    kept := fun nothing => Bool.noConfusion nothing }

/--
A chosen task is the one that leaves exactly when it is the head of its queue,
and along a run every instance is chosen at most once and never lost exactly
when every dispatch of the run chooses a head.
-/
theorem chosen_leaves_iff_head (init : Init start) (run : Run Acts start history s) :
    (∀ (source target : SchedState) (cpu : Nat) (t : Task),
      Dispatch source target cpu (some t) →
        (ChosenLeaves source target cpu t ↔ DispatchReturnsHead (source.queue cpu) t)) ∧
    (EachChosenOnce history s ↔ ChoosesHeads history) :=
  ⟨fun _ _ _ _ acts => acts.chosenLeaves_iff,
    ⟨heads_of_eachChosenOnce init run, eachChosenOnce_of_heads init run⟩⟩

/-! ## Concrete runs choose heads -/

/-- The action a call implements. -/
def Action.ofCall : ConcreteScheduler.Event → Action
  | .enqueue t cpu => .enqueue t cpu
  | .dispatch cpu next => .dispatch cpu next
  | .reEnqueue t cpu => .enqueue t cpu

/-- A run of calls as a run of named actions. -/
def ofCalls (calls : List (Transition SchedState ConcreteScheduler.Event)) :
    List (Transition SchedState Action) :=
  calls.map fun call => ⟨call.source, .ofCall call.event, call.target⟩

theorem run_ofCalls {calls : List (Transition SchedState ConcreteScheduler.Event)}
    (init : Init start) (run : Run ConcreteScheduler.Step start calls s) :
    Run Acts start (ofCalls calls) s := by
  have refined : Run RefinementProof.AbstractStep start calls s :=
    run.upgrade (ConcreteScheduler.SchedInvariant.of_init init)
      ConcreteScheduler.SchedInvariant.step RefinementProof.step_refines
  refine refined.simulate id (fun call => Action.ofCall call.event) ?_
  intro before event after step
  cases event with
  | enqueue t cpu => exact step
  | dispatch cpu next => exact step
  | reEnqueue t cpu => exact step

/-- What a run of calls returns is always the head of a queue. -/
theorem choosesHeads_ofCalls {calls : List (Transition SchedState ConcreteScheduler.Event)}
    (init : Init start) (run : Run ConcreteScheduler.Step start calls s) :
    ChoosesHeads (ofCalls calls) := by
  have heads : ∀ call ∈ calls, ∀ cpu t, Action.ofCall call.event = .dispatch cpu (some t) →
      DispatchReturnsHead (call.source.queue cpu) t := by
    refine run.forall_mem (ConcreteScheduler.SchedInvariant.of_init init)
      ConcreteScheduler.SchedInvariant.step ?_
    intro before event after invariant step cpu t isDispatch
    rcases step.cases with ⟨u, other, inserts, _⟩ | ⟨other, rfl, _⟩
    · rcases inserts with rfl | rfl
      · cases isDispatch
      · cases isDispatch
    · obtain ⟨rfl, found⟩ := Action.dispatch.inj isDispatch
      rw [ConcreteScheduler.dispatch_next] at found
      exact (dispatchReturnsHead_iff _ t).mpr
        ⟨found, invariant.runnable other t (List.mem_of_head? found)⟩
  intro taken member cpu t isDispatch
  obtain ⟨call, callMem, rfl⟩ := List.mem_map.mp member
  exact heads call callMem cpu t isDispatch

/-- So the concrete scheduler neither loses nor repeats a task instance. -/
theorem eachChosenOnce_ofCalls
    {calls : List (Transition SchedState ConcreteScheduler.Event)}
    (init : Init start) (run : Run ConcreteScheduler.Step start calls s) :
    EachChosenOnce (ofCalls calls) s :=
  eachChosenOnce_of_heads init (run_ofCalls init run) (choosesHeads_ofCalls init run)

open ConcreteScheduler in
theorem firstTurn_chosen_leave :
    (∀ (source target : SchedState) (cpu : Nat) (t : Task),
      Dispatch source target cpu (some t) →
        (ChosenLeaves source target cpu t ↔ DispatchReturnsHead (source.queue cpu) t)) ∧
    (EachChosenOnce (ofCalls (trace perform twoCpus firstTurn)) afterTurn ↔
      ChoosesHeads (ofCalls (trace perform twoCpus firstTurn))) :=
  chosen_leaves_iff_head twoCpus_init (run_ofCalls twoCpus_init firstTurn_run)

open ConcreteScheduler in
/-- The task behind the head of CPU 0 is chosen, and the head removed is never chosen. -/
theorem second_chosen_head_lost :
    Dispatch afterArrivals (dispatch afterArrivals 0).2 0 (some ((newTask 2).stamped 1)) ∧
    ¬ ChosenLeaves afterArrivals (dispatch afterArrivals 0).2 0 ((newTask 2).stamped 1) ∧
    ∃ history, Run Acts twoCpus history (dispatch afterArrivals 0).2 ∧
      ¬ EachChosenOnce history (dispatch afterArrivals 0).2 := by
  have invariant := SchedInvariant.of_run twoCpus_init arrivals_run
  have headChosen : Dispatch afterArrivals (dispatch afterArrivals 0).2 0
      (some ((newTask 1).stamped 0)) :=
    RefinementProof.dispatchRefines invariant.valid (by decide) (invariant.allRunnable 0)
  have acts : Dispatch afterArrivals (dispatch afterArrivals 0).2 0
      (some ((newTask 2).stamped 1)) :=
    headChosen.exchange (by decide) rfl
  have notHead : ¬ DispatchReturnsHead (afterArrivals.queue 0) ((newTask 2).stamped 1) := by
    rw [dispatchReturnsHead_iff]
    decide
  have last : Acts afterArrivals (.dispatch 0 (some ((newTask 2).stamped 1)))
      (dispatch afterArrivals 0).2 := acts
  have run := (run_ofCalls twoCpus_init arrivals_run).tail last
  refine ⟨acts, fun leaves => notHead (acts.chosenLeaves_iff.mp leaves), _, run, ?_⟩
  intro once
  have heads := heads_of_eachChosenOnce twoCpus_init run once
  exact notHead (heads _ (List.mem_append_right _ List.mem_cons_self) 0 _ rfl)

end AbstractScheduler

end SchedExt.RoundRobin
