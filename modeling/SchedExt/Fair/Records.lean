import SchedExt.Fair.PriorityService

/-!
# What becomes of inserted records

Every insertion adds one stamped record to `all_tasks`, and no call removes
or changes one.  Queued and returned tasks are such records.  The callers of
the charging and safety properties follow a discipline: a process enters once
and is afterwards only enqueued as its latest dispatch returned it.
-/

namespace SchedExt.Fair.ConcreteScheduler

open SchedExt.Domain SchedExt.Foundations

variable {start s s' : SchedState} {history : List (Transition SchedState Event)}

/-- The record that a call inserts, as stored. -/
def stored (call : Transition SchedState Event) : Option Task :=
  match call.event with
  | .enqueue t _ => some (t.stamped call.source.clock)
  | .dispatch _ _ => none

/-- All records inserted so far, on any CPU, oldest first. -/
def records (history : List (Transition SchedState Event)) : List Task :=
  history.filterMap stored

theorem records_concat (history : List (Transition SchedState Event))
    (last : Transition SchedState Event) :
    records (history ++ [last]) = records history ++ (stored last).toList := by
  rw [records, List.filterMap_append, List.filterMap_cons]
  cases stored last <;> rfl

/-- `all_tasks` consists of all inserted records. -/
theorem allTasks_of_run (run : Run Step start history s) :
    s.allTasks = start.allTasks ∪ (records history).toFinset := by
  induction run with
  | refl => exact (Finset.union_empty _).symm
  | tail earlier last ih =>
      rw [records_concat, List.toFinset_append, ← Finset.union_assoc, ← ih]
      rcases last.cases with ⟨t, cpu, rfl, _, _, _, rfl⟩ | ⟨cpu, rfl, _, rfl⟩
      · exact enqueue_allTasks _ t cpu
      · exact (dispatch_allTasks _ cpu).trans (Finset.union_empty _).symm

theorem mem_allTasks_iff (empty : start.allTasks = ∅) (run : Run Step start history s)
    (t : Task) : t ∈ s.allTasks ↔ t ∈ records history := by
  rw [allTasks_of_run run, empty, Finset.empty_union, List.mem_toFinset]

/-- Every record is a valid runnable task. -/
theorem records_good (run : Run Step start history s) :
    ∀ t ∈ records history, ValidTask t ∧ t.state = .runnable := by
  intro t member
  obtain ⟨call, callMem, isStored⟩ := List.mem_filterMap.mp member
  have good : ∀ call ∈ history, ∀ t, stored call = some t →
      ValidTask t ∧ t.state = .runnable := by
    refine run.forall_step ?_
    intro before event after taken t isStored
    rcases taken.cases with ⟨u, cpu, rfl, validTask, runnable, _, _⟩ | ⟨cpu, rfl, _, _⟩
    · cases isStored
      exact ⟨validTask.stamped before.clock, runnable⟩
    · cases isStored
  exact good call callMem t isStored

/-- A record is an enqueued task with some stamp. -/
theorem enqueue_mem_of_mem_records {t : Task} (member : t ∈ records history) :
    ∃ u cpu clock, .enqueue u cpu ∈ history.map Transition.event ∧ t = u.stamped clock := by
  obtain ⟨⟨source, event, target⟩, callMem, isStored⟩ := List.mem_filterMap.mp member
  cases event with
  | enqueue u cpu =>
      cases isStored
      exact ⟨u, cpu, source.clock, List.mem_map.mpr ⟨_, callMem, rfl⟩, rfl⟩
  | dispatch cpu next => cases isStored

/-- What is inserted on one CPU is a record. -/
theorem mem_records_of_inserted {cpu : Nat} {t : Task} (member : t ∈ inserted cpu history) :
    t ∈ records history := by
  obtain ⟨call, callMem, shown⟩ := List.mem_map.mp (QueueEvent.mem_arrived.mp member)
  refine List.mem_filterMap.mpr ⟨call, callMem, ?_⟩
  obtain ⟨source, event, target⟩ := call
  cases event with
  | enqueue u other =>
      cases shown
      rfl
  | dispatch other next => cases shown

/-- A queued task is a record. -/
theorem mem_records_of_queued (empty : ∀ cpu, (start.queue cpu).tasks = [])
    (run : Run Step start history s) {cpu : Nat} {t : Task}
    (member : t ∈ (s.queue cpu).tasks) : t ∈ records history :=
  mem_records_of_inserted ((balance_of_run empty run cpu).mem_iff.mpr
    (List.mem_append_right _ member))

/-- A task returned by a dispatch is a record. -/
theorem mem_records_of_returned (empty : ∀ cpu, (start.queue cpu).tasks = [])
    (run : Run Step start history s) {cpu : Nat} {t : Task}
    (member : Event.dispatch cpu (some t) ∈ history.map Transition.event) :
    t ∈ records history := by
  obtain ⟨⟨source, event, target⟩, callMem, rfl⟩ := List.mem_map.mp member
  refine mem_records_of_inserted ((balance_of_run empty run cpu).mem_iff.mpr
    (List.mem_append_left _ (QueueEvent.mem_served.mpr ?_)))
  exact List.mem_map.mpr ⟨_, callMem, rfl⟩

/-! ## The discipline of callers -/

/-- What the latest dispatch of a process returned, if it was dispatched at all. -/
def lastReturned (pid : Nat) (events : List Event) : Option Task :=
  (events.filterMap fun
    | .dispatch _ (some t) => if t.pid = pid then some t else none
    | _ => none).getLast?

/-- No task of this process has been enqueued. -/
def Unseen (pid : Nat) (events : List Event) : Prop :=
  ∀ t cpu, .enqueue t cpu ∈ events → t.pid ≠ pid

/--
Every enqueued task either is the first of its process or is the very task
that the latest dispatch of its process returned.
-/
inductive Disciplined : List Event → Prop where
  | start : Disciplined []
  | first {events : List Event} {t : Task} (cpu : Nat) (earlier : Disciplined events)
      (unseen : Unseen t.pid events) : Disciplined (events ++ [.enqueue t cpu])
  | again {events : List Event} {t : Task} (cpu : Nat) (earlier : Disciplined events)
      (latest : lastReturned t.pid events = some t) :
      Disciplined (events ++ [.enqueue t cpu])
  | dispatch {events : List Event} (cpu : Nat) (next : Option Task)
      (earlier : Disciplined events) : Disciplined (events ++ [.dispatch cpu next])

/-- What was last returned for a process was returned by a dispatch. -/
theorem dispatch_mem_of_lastReturned {pid : Nat} {events : List Event} {t : Task}
    (latest : lastReturned pid events = some t) :
    ∃ cpu, .dispatch cpu (some t) ∈ events := by
  obtain ⟨event, member, shown⟩ := List.mem_filterMap.mp (List.mem_of_getLast? latest)
  cases event with
  | enqueue u cpu => cases shown
  | dispatch cpu next =>
      cases next with
      | none => cases shown
      | some u =>
          simp only [Option.ite_none_right_eq_some, Option.some.injEq] at shown
          obtain ⟨_, rfl⟩ := shown
          exact ⟨cpu, member⟩

end SchedExt.Fair.ConcreteScheduler
