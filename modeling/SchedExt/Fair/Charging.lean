import SchedExt.Fair.Records

/-!
# Charging of virtual runtime

`Dispatch` computes an update of the chosen task and drops it, so a process
that is enqueued as its dispatch returned it keeps the virtual runtime it
entered with, however often it is served.
-/

namespace SchedExt.Fair.ConcreteScheduler

open SchedExt.Domain SchedExt.Foundations

variable {start s : SchedState} {history : List (Transition SchedState Event)}

/-- No task was enqueued before: none is recorded and none waits. -/
structure Untouched (s : SchedState) : Prop where
  noTasks : s.allTasks = ∅
  emptyQueues : ∀ cpu, (s.queue cpu).tasks = []

theorem EmptyInit.untouched (init : EmptyInit s) : Untouched s :=
  ⟨init.noTasks, init.waiting_nil⟩

/-- The records with which a process was queued, oldest first. -/
def queuedAs (pid : Nat) (history : List (Transition SchedState Event)) : List Task :=
  (records history).filter fun t => t.pid = pid

/-- Any two records of one process agree in virtual runtime and weight. -/
def KeysConstant (recorded : List Task) : Prop :=
  ∀ t ∈ recorded, ∀ u ∈ recorded, t.pid = u.pid →
    t.vruntime = u.vruntime ∧ t.weight = u.weight

/-- A record that agrees with the earlier ones of its process may be added. -/
theorem KeysConstant.concat {recorded : List Task} {last : Task}
    (constant : KeysConstant recorded)
    (agrees : ∀ t ∈ recorded, t.pid = last.pid →
      t.vruntime = last.vruntime ∧ t.weight = last.weight) :
    KeysConstant (recorded ++ [last]) := by
  intro t tMem u uMem samePid
  rcases List.mem_append.mp tMem with tOld | tLast
  · rcases List.mem_append.mp uMem with uOld | uLast
    · exact constant t tOld u uOld samePid
    · obtain rfl := List.mem_singleton.mp uLast
      exact agrees t tOld samePid
  · obtain rfl := List.mem_singleton.mp tLast
    rcases List.mem_append.mp uMem with uOld | uLast
    · obtain ⟨sameVruntime, sameWeight⟩ := agrees u uOld samePid.symm
      exact ⟨sameVruntime.symm, sameWeight.symm⟩
    · obtain rfl := List.mem_singleton.mp uLast
      exact ⟨rfl, rfl⟩

theorem KeysConstant.of_append {front back : List Task}
    (constant : KeysConstant (front ++ back)) : KeysConstant front :=
  fun t tMem u uMem =>
    constant t (List.mem_append_left back tMem) u (List.mem_append_left back uMem)

/-- No record of a process carries a tick more than another one. -/
theorem KeysConstant.uncharged {recorded : List Task} (constant : KeysConstant recorded)
    {t chosen : Task} (tMem : t ∈ recorded) (chosenMem : chosen ∈ recorded)
    (validTask : ValidTask chosen) (samePid : t.pid = chosen.pid) :
    t.vruntime ≠ chosen.vruntime + deltaVruntime chosen := by
  have positive := deltaVruntime_pos validTask
  have same := (constant t tMem chosen chosenMem samePid).1
  omega

/-- In a disciplined run no dispatch changes what a process is enqueued with. -/
theorem keysConstant_of_run (untouched : Untouched start) (run : Run Step start history s)
    {events : List Event} (disciplined : Disciplined events)
    (recorded : history.map Transition.event = events) : KeysConstant (records history) := by
  induction disciplined generalizing history s with
  | start =>
      rw [List.map_eq_nil_iff.mp recorded]
      intro t member
      cases member
  | @first events t cpu earlier unseen ih =>
      obtain ⟨front, source, target, rfl, rfl⟩ := exists_concat_of_events recorded
      rw [records_concat]
      refine (ih run.of_concat.1 rfl).concat ?_
      intro u member samePid
      obtain ⟨v, other, clock, enqueued, rfl⟩ := enqueue_mem_of_mem_records member
      exact absurd samePid (unseen v other enqueued)
  | @again events t cpu earlier latest ih =>
      obtain ⟨front, source, target, rfl, rfl⟩ := exists_concat_of_events recorded
      rw [records_concat]
      have constant := ih run.of_concat.1 rfl
      refine constant.concat ?_
      intro u member samePid
      obtain ⟨other, returned⟩ := dispatch_mem_of_lastReturned latest
      exact constant u member t
        (mem_records_of_returned untouched.emptyQueues run.of_concat.1 returned) samePid
  | dispatch cpu next earlier ih =>
      obtain ⟨front, source, target, rfl, rfl⟩ := exists_concat_of_events recorded
      rw [records_concat]
      exact (List.append_nil (records front)).symm ▸ ih run.of_concat.1 rfl

/--
The update computed for the task a dispatch chooses is carried into the
returned task or into some record of the state after it.
-/
def ChargeCarried (call : Transition SchedState Event) : Prop :=
  match call.event with
  | .enqueue _ _ => True
  | .dispatch cpu next =>
      ∀ chosen ∈ (call.source.queue cpu).tasks.head?, ∃ t,
        (next = some t ∨ t ∈ call.target.allTasks ∨
          ∃ other, t ∈ (call.target.queue other).tasks) ∧
        t.pid = chosen.pid ∧ t.vruntime = chosen.vruntime + deltaVruntime chosen

/-- The calls that choose no task and so compute no update. -/
def NothingToCharge (s : SchedState) : Event → Prop
  | .enqueue _ _ => True
  | .dispatch cpu _ => (s.queue cpu).tasks = []

/-- Where the last call of a disciplined run chooses a task, its update is dropped. -/
theorem chargeCarried_iff {earlier : List (Transition SchedState Event)}
    {call : Transition SchedState Event} (untouched : Untouched start)
    (run : Run Step start (earlier ++ [call]) s)
    (constant : KeysConstant (records (earlier ++ [call]))) :
    ChargeCarried call ↔ NothingToCharge call.source call.event := by
  obtain ⟨before, taken, rfl⟩ := run.of_concat
  obtain ⟨source, event, target⟩ := call
  cases event with
  | enqueue t cpu => exact ⟨fun _ => trivial, fun _ => trivial⟩
  | dispatch cpu next =>
      constructor
      · intro carried
        by_contra filled
        obtain ⟨chosen, found⟩ := Option.isSome_iff_exists.mp (List.isSome_head?.mpr filled)
        have waits := mem_records_of_queued untouched.emptyQueues before
          (List.mem_of_head? found)
        have chosenMem := List.mem_append_left (stored ⟨source, .dispatch cpu next, target⟩).toList
          waits
        rw [← records_concat] at chosenMem
        obtain ⟨t, carrier, samePid, charged⟩ := carried chosen found
        have validTask := (records_good run chosen chosenMem).1
        refine constant.uncharged ?_ chosenMem validTask samePid charged
        rcases carrier with isNext | inTasks | ⟨other, inQueue⟩
        · have returned := taken.next_eq
          rw [isNext, found] at returned
          exact Option.some.inj returned ▸ chosenMem
        · exact (mem_allTasks_iff untouched.noTasks run t).mp inTasks
        · exact mem_records_of_queued untouched.emptyQueues run inQueue
      · intro empty chosen found
        rw [show (source.queue cpu).tasks = [] from empty] at found
        cases found

/--
In a disciplined run a process is queued for the k-th time, counted from 0,
with a charge of k ticks exactly when k is 0, and a call carries the update of
virtual runtime exactly when there is none to carry.
-/
theorem charged_iff (untouched : Untouched start) (run : Run CheckedStep start history s)
    (disciplined : Disciplined (history.map Transition.event)) :
    (∀ pid k first queued, (queuedAs pid history)[0]? = some first →
      (queuedAs pid history)[k]? = some queued →
        (queued.vruntime = first.vruntime + k * deltaVruntime first ↔ k = 0)) ∧
    ∀ call ∈ history, ChargeCarried call ↔ NothingToCharge call.source call.event := by
  have steps := run.mono CheckedStep.step
  have constant := keysConstant_of_run untouched steps disciplined rfl
  constructor
  · intro pid k first queued atZero atK
    obtain ⟨firstMem, firstPid⟩ := List.mem_filter.mp (List.mem_of_getElem? atZero)
    obtain ⟨queuedMem, queuedPid⟩ := List.mem_filter.mp (List.mem_of_getElem? atK)
    have samePid : queued.pid = first.pid :=
      (of_decide_eq_true queuedPid).trans (of_decide_eq_true firstPid).symm
    have positive := deltaVruntime_pos (records_good steps first firstMem).1
    rw [(constant queued queuedMem first firstMem samePid).1, left_eq_add,
      Nat.mul_eq_zero, or_iff_left positive.ne']
  · intro call member
    obtain ⟨before, after, rfl⟩ := List.append_of_mem member
    obtain ⟨earlier, taken, _⟩ := steps.split
    rw [List.append_cons, records, List.filterMap_append] at constant
    exact chargeCarried_iff untouched (.tail earlier taken) constant.of_append

/-- A process is dispatched and enqueued again as it was returned. -/
def servedTwice : List Event :=
  [.enqueue (newTask 1 0) 0, .dispatch 0 (some ((newTask 1 0).stamped 0)),
    .enqueue ((newTask 1 0).stamped 0) 0]

theorem servedTwice_run : Run CheckedStep twoCpus (trace perform twoCpus servedTwice)
    (servedTwice.foldl perform twoCpus) :=
  Run.of_trace checkedStep_perform (by decide +kernel)

theorem servedTwice_disciplined :
    Disciplined ((trace perform twoCpus servedTwice).map Transition.event) :=
  @Disciplined.again (servedTwice.take 2) _ 0
    (@Disciplined.dispatch (servedTwice.take 1) 0 _
      (@Disciplined.first [] _ 0 .start (by simp [Unseen]))) rfl

theorem servedTwice_charged_iff :
    (∀ pid k first queued,
      (queuedAs pid (trace perform twoCpus servedTwice))[0]? = some first →
        (queuedAs pid (trace perform twoCpus servedTwice))[k]? = some queued →
          (queued.vruntime = first.vruntime + k * deltaVruntime first ↔ k = 0)) ∧
    ∀ call ∈ trace perform twoCpus servedTwice,
      ChargeCarried call ↔ NothingToCharge call.source call.event :=
  charged_iff twoCpus_init.untouched servedTwice_run servedTwice_disciplined

/-- The second time the process is queued, one tick of virtual runtime is missing. -/
theorem servedTwice_uncharged :
    ¬ ∀ (start s : SchedState) (history : List (Transition SchedState Event)),
      Untouched start → Run CheckedStep start history s →
        Disciplined (history.map Transition.event) →
          ∀ pid k first queued, (queuedAs pid history)[0]? = some first →
            (queuedAs pid history)[k]? = some queued →
              queued.vruntime = first.vruntime + k * deltaVruntime first := by
  intro charged
  have missing := charged twoCpus _ _ twoCpus_init.untouched servedTwice_run
    servedTwice_disciplined 1 1 ((newTask 1 0).stamped 0) ((newTask 1 0).stamped 2)
    (by decide +kernel) (by decide +kernel)
  exact absurd missing (by decide)

end SchedExt.Fair.ConcreteScheduler
