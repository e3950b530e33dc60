import SchedExt.RoundRobin.Service

/-!
# Queue positions as a ranking

The position of a process in a queue is that of its first task.  Enqueues and
calls on other CPUs leave it alone, and every dispatch on its own CPU lowers it
by one until it returns the task, so the position counts the dispatches that
come first.
-/

namespace SchedExt.RoundRobin

open SchedExt.Domain SchedExt.Foundations

/-- `QueuePositionHelper`; a process that is not found has the length as its position. -/
def queuePositionHelper : List Task → Nat → Nat → Nat
  | [], _, idx => idx
  | head :: rest, pid, idx =>
      if head.pid = pid then idx else queuePositionHelper rest pid (idx + 1)

/-- `QueuePosition` -/
def queuePosition (rq : RunQueue) (pid : Nat) : Nat :=
  queuePositionHelper rq.tasks pid 0

/-- The process has a task in the queue. -/
def Occurs (rq : RunQueue) (pid : Nat) : Prop :=
  pid ∈ rq.tasks.map Task.pid

instance (rq : RunQueue) (pid : Nat) : Decidable (Occurs rq pid) :=
  inferInstanceAs (Decidable (pid ∈ rq.tasks.map Task.pid))

section Positions

variable {rq rq' : RunQueue} {pid : Nat}

theorem queuePositionHelper_add (tasks : List Task) (pid idx : Nat) :
    queuePositionHelper tasks pid idx = queuePositionHelper tasks pid 0 + idx := by
  induction tasks generalizing idx with
  | nil => exact (Nat.zero_add idx).symm
  | cons head rest ih =>
      unfold queuePositionHelper
      split
      · exact (Nat.zero_add idx).symm
      · rw [ih (idx + 1), ih (0 + 1)]
        omega

/-- A process that occurs keeps its position when tasks are appended. -/
theorem queuePositionHelper_append {tasks : List Task} {pid : Nat}
    (occurs : pid ∈ tasks.map Task.pid) (added : List Task) (idx : Nat) :
    queuePositionHelper (tasks ++ added) pid idx = queuePositionHelper tasks pid idx := by
  induction tasks generalizing idx with
  | nil => cases occurs
  | cons head rest ih =>
      rw [List.cons_append]
      unfold queuePositionHelper
      split
      · rfl
      · rename_i apart
        exact ih ((List.mem_cons.mp occurs).resolve_left (Ne.symm apart)) (idx + 1)

/-- The position of a process that occurs is that of its first task. -/
theorem queuePosition_eq_zero_iff (occurs : Occurs rq pid) :
    queuePosition rq pid = 0 ↔ ∃ t, rq.tasks.head? = some t ∧ t.pid = pid := by
  unfold Occurs at occurs
  unfold queuePosition
  cases contents : rq.tasks with
  | nil =>
      rw [contents] at occurs
      cases occurs
  | cons head rest =>
      rw [queuePositionHelper]
      split
      · rename_i same
        exact iff_of_true rfl ⟨head, rfl, same⟩
      · rename_i apart
        rw [queuePositionHelper_add]
        refine iff_of_false (Nat.succ_ne_zero _) ?_
        rintro ⟨t, isHead, same⟩
        obtain rfl := Option.some.inj isHead
        exact apart same

/-- When the head is another process, the rest of the queue is one position nearer. -/
theorem occurs_tail (occurs : Occurs rq pid) (waits : 0 < queuePosition rq pid)
    (tail : rq'.tasks = rq.tasks.tail) :
    Occurs rq' pid ∧ queuePosition rq' pid = queuePosition rq pid - 1 := by
  unfold Occurs at occurs ⊢
  unfold queuePosition at waits ⊢
  rw [tail]
  cases contents : rq.tasks with
  | nil =>
      rw [contents] at occurs
      cases occurs
  | cons head rest =>
      rw [contents] at occurs waits
      unfold queuePositionHelper at waits
      rw [queuePositionHelper]
      split at waits
      · exact absurd waits (Nat.lt_irrefl 0)
      · rename_i apart
        rw [if_neg apart, queuePositionHelper_add rest pid (0 + 1)]
        exact ⟨(List.mem_cons.mp occurs).resolve_left (Ne.symm apart), rfl⟩

theorem occurs_append (occurs : Occurs rq pid) {added : List Task}
    (appended : rq'.tasks = rq.tasks ++ added) :
    Occurs rq' pid ∧ queuePosition rq' pid = queuePosition rq pid := by
  unfold Occurs queuePosition
  rw [appended, List.map_append]
  exact ⟨List.mem_append_left _ occurs, queuePositionHelper_append occurs added 0⟩

end Positions

namespace ConcreteScheduler

variable {s s' : SchedState} {history : List (Transition SchedState Event)} {cpu pid : Nat}

/-! ## One call -/

/-- A call that is no dispatch on the CPU keeps the position. -/
theorem Step.position_kept {event : Event} (occurs : Occurs (s.queue cpu) pid)
    (taken : Step s event s') (other : ∀ next, event ≠ .dispatch cpu next) :
    Occurs (s'.queue cpu) pid ∧
      queuePosition (s'.queue cpu) pid = queuePosition (s.queue cpu) pid := by
  rcases taken.cases with ⟨t, target, _, _, _, _, _, rfl⟩ | ⟨target, dispatched, _, _, rfl⟩
  · by_cases same : cpu = target
    · subst same
      exact occurs_append occurs (enqueue_tasks_self s t cpu)
    · rw [enqueue_queue_of_ne s t same]
      exact ⟨occurs, rfl⟩
  · have apart : cpu ≠ target := by
      rintro rfl
      exact other _ dispatched
    rw [dispatch_queue_of_ne s apart]
    exact ⟨occurs, rfl⟩

/-- A dispatch leaves the tail of its queue. -/
theorem Step.dispatched_tail {next : Option Task} (taken : Step s (.dispatch cpu next) s') :
    (s'.queue cpu).tasks = (s.queue cpu).tasks.tail := by
  rcases taken.cases with ⟨t, target, inserts, _⟩ | ⟨target, dispatched, _, _, rfl⟩
  · rcases inserts with impossible | impossible
    · cases impossible
    · cases impossible
  · cases dispatched
    exact dispatch_tasks_self s cpu

/-- A dispatch on the CPU returns the process or brings it one position nearer. -/
theorem Step.position_served {next : Option Task} (occurs : Occurs (s.queue cpu) pid)
    (taken : Step s (.dispatch cpu next) s') :
    queuePosition (s.queue cpu) pid = 0 ↔ ∃ t, next = some t ∧ t.pid = pid := by
  rw [queuePosition_eq_zero_iff occurs, taken.next_eq]

/-! ## Runs -/

/-- What a call returned, if it is a dispatch on the CPU. -/
def Event.result? (cpu : Nat) : Event → Option (Option Task)
  | .dispatch target next => if target = cpu then some next else none
  | _ => none

/-- What the dispatches on a CPU returned, oldest first. -/
def results (cpu : Nat) (history : List (Transition SchedState Event)) : List (Option Task) :=
  (history.map Transition.event).filterMap (Event.result? cpu)

theorem Event.result?_eq_some_iff {event : Event} {next : Option Task} :
    event.result? cpu = some next ↔ event = .dispatch cpu next := by
  cases event with
  | enqueue t target => exact iff_of_false (nomatch ·) (nomatch ·)
  | dispatch target result =>
      show (if target = cpu then some result else none) = some next ↔ _
      split
      · rename_i same
        rw [same, Option.some.injEq, Event.dispatch.injEq, and_iff_right rfl]
      · rename_i apart
        exact iff_of_false (nomatch ·) fun same => apart (Event.dispatch.inj same).1
  | reEnqueue t target => exact iff_of_false (nomatch ·) (nomatch ·)

/-- As many dispatches as the position return other processes, and the next one returns it. -/
theorem results_of_run (occurs : Occurs (s.queue cpu) pid) (run : Run Step s history s')
    {i : Nat} {next : Option Task} (found : (results cpu history)[i]? = some next) :
    (i < queuePosition (s.queue cpu) pid → ∀ t, next = some t → t.pid ≠ pid) ∧
      (i = queuePosition (s.queue cpu) pid → ∃ t, next = some t ∧ t.pid = pid) := by
  induction history generalizing s i with
  | nil => cases found
  | cons call rest ih =>
      obtain ⟨taken, later⟩ := run.uncons
      unfold results at found
      rw [List.map_cons] at found
      cases shown : call.event.result? cpu with
      | none =>
          rw [List.filterMap_cons_none shown] at found
          have other : ∀ result, call.event ≠ .dispatch cpu result := by
            intro result isDispatch
            rw [Event.result?_eq_some_iff.mpr isDispatch] at shown
            cases shown
          obtain ⟨still, same⟩ := taken.position_kept occurs other
          rw [← same]
          exact ih still later found
      | some result =>
          rw [List.filterMap_cons_some shown] at found
          have isDispatch := Event.result?_eq_some_iff.mp shown
          rw [isDispatch] at taken
          have served := taken.position_served occurs
          cases i with
          | zero =>
              obtain rfl : result = next := Option.some.inj found
              refine ⟨?_, fun first => served.mp first.symm⟩
              intro waits t returned same
              exact waits.ne' (served.mpr ⟨t, returned, same⟩)
          | succ i =>
              by_cases first : queuePosition (s.queue cpu) pid = 0
              · rw [first]
                exact ⟨fun impossible => absurd impossible (Nat.not_lt_zero _),
                  fun impossible => absurd impossible (Nat.succ_ne_zero i)⟩
              · have waits := Nat.pos_of_ne_zero first
                obtain ⟨still, nearer⟩ := occurs_tail occurs waits taken.dispatched_tail
                have onward := ih still later found
                rw [nearer] at onward
                exact ⟨fun less => onward.1 (Nat.lt_sub_of_add_lt less),
                  fun same => onward.2 (Nat.eq_sub_of_add_eq same)⟩

/-- The position ranks a process on a CPU: what every call and every run does to it. -/
structure Ranks (cpu pid : Nat) (s : SchedState) : Prop where
  kept : ∀ event s', Step s event s' → (∀ next, event ≠ .dispatch cpu next) →
    Occurs (s'.queue cpu) pid ∧
      queuePosition (s'.queue cpu) pid = queuePosition (s.queue cpu) pid
  nearer : ∀ next s', Step s (.dispatch cpu next) s' → 0 < queuePosition (s.queue cpu) pid →
    Occurs (s'.queue cpu) pid ∧
      queuePosition (s'.queue cpu) pid = queuePosition (s.queue cpu) pid - 1
  served : ∀ next s', Step s (.dispatch cpu next) s' → queuePosition (s.queue cpu) pid = 0 →
    ∃ t, next = some t ∧ t.pid = pid
  scheduled : ∀ history s', Run Step s history s' →
    ∀ i next, (results cpu history)[i]? = some next →
      (i < queuePosition (s.queue cpu) pid → ∀ t, next = some t → t.pid ≠ pid) ∧
        (i = queuePosition (s.queue cpu) pid → ∃ t, next = some t ∧ t.pid = pid)

/--
In every state, reached or not, the position of a queued process counts the
dispatches on its CPU until one returns it, whatever other calls are between.
-/
theorem queuePosition_ranks (occurs : Occurs (s.queue cpu) pid) : Ranks cpu pid s where
  kept _ _ taken other := taken.position_kept occurs other
  nearer _ _ taken waits := occurs_tail occurs waits taken.dispatched_tail
  served _ _ taken first := (taken.position_served occurs).mp first
  scheduled _ _ run _ _ found := results_of_run occurs run found

/-- The second task waits for one dispatch, and calls on both CPUs go on. -/
theorem queuePosition_ranks_afterArrivals :
    Ranks 0 2 (enqueue afterArrivals (newTask 2) 0) ∧
      queuePosition ((enqueue afterArrivals (newTask 2) 0).queue 0) 2 = 1 :=
  ⟨queuePosition_ranks (by decide), by decide⟩

end ConcreteScheduler

end SchedExt.RoundRobin
