import SchedExt.Bpf.RoundRobinFifo
import SchedExt.Foundations.Locations

/-!
# Tasks on the dispatch queues

The kernel calls the hooks in the order of the lifecycle and runs on a CPU only
what is on its local dispatch queue.  A task that waits is then on one dispatch
queue, once, and any other task on none, which is all that the shared queue
needs to implement the specification.
-/

namespace SchedExt.Bpf.RoundRobin

open SchedExt.Foundations
open Locations (Tracked put takeOut moveFirst)

/-- The dispatch queues. -/
inductive Place where
  | shared
  | localTo (cpu : Nat)
  deriving DecidableEq

variable {Task : Type}

/-- The tasks on each of the dispatch queues. -/
def State.contents (s : State Task) : Place → List Task
  | .shared => s.sharedDsq.tasks
  | .localTo cpu => (s.localDsq cpu).tasks

variable [DecidableEq Task]

/-- A CPU runs what is on its local dispatch queue. -/
def RunsLocally (sys : Lifecycle Task) : Event Task → Prop
  | .running p cpu _ => p ∈ sys.hooks.contents (.localTo cpu)
  | _ => True

instance (sys : Lifecycle Task) (event : Event Task) : Decidable (RunsLocally sys event) :=
  match event with
  | .running p cpu _ => List.instDecidableMemOfLawfulBEq p (sys.hooks.contents (.localTo cpu))
  | .initTask _ _ | .selectCpu _ _ _ _ | .enqueue _ _ _ | .dispatch _ | .stopping _ _ _ =>
      instDecidableTrue

/-- A call in the order of the lifecycle, on a task that is where it has to be. -/
def KernelStep (sys : Lifecycle Task) (event : Event Task) (sys' : Lifecycle Task) : Prop :=
  Step sys event sys' ∧ RunsLocally sys event

theorem kernelStep_perform (sys : Lifecycle Task) (event : Event Task)
    (calls : Calls sys event ∧ RunsLocally sys event) :
    KernelStep sys event (perform sys event) :=
  ⟨⟨calls.1, rfl⟩, calls.2⟩

/-- Nothing is initialised, queued or counted. -/
structure Booted (sys : Lifecycle Task) : Prop where
  absent : ∀ p, sys.phase p = .absent
  taskCtxMap : ∀ p, sys.hooks.taskCtxMap p = none
  empty : ∀ place, sys.hooks.contents place = []
  nrEnqueued : sys.hooks.nrEnqueued = 0
  nrDispatched : sys.hooks.nrDispatched = 0

/-- A queued task is on one dispatch queue, once, and any other task on none. -/
def Placed (sys : Lifecycle Task) : Prop :=
  Tracked sys.hooks.contents fun p => sys.phase p = .queued

/-! ## What the hooks do to the dispatch queues -/

section Contents

variable {s s' : State Task}

omit [DecidableEq Task] in
/-- The shared queue has new contents, and no other. -/
theorem contents_shared (s : State Task) {after : List Task} (changed : s'.sharedDsq.tasks = after)
    (kept : s'.localDsq = s.localDsq) :
    s'.contents = Function.update s.contents .shared after := by
  funext place
  cases place with
  | shared =>
      rw [Function.update_self]
      exact changed
  | localTo cpu =>
      rw [Function.update_of_ne Place.noConfusion]
      exact congrArg (fun queues => (queues cpu).tasks) kept

omit [DecidableEq Task] in
/-- The local queue of one CPU has new contents, and no other. -/
theorem contents_local (s : State Task) {cpu : Nat} {after : Dsq Task}
    (kept : s'.sharedDsq = s.sharedDsq)
    (changed : s'.localDsq = Function.update s.localDsq cpu after) :
    s'.contents = Function.update s.contents (.localTo cpu) after.tasks := by
  funext place
  cases place with
  | shared =>
      rw [Function.update_of_ne Place.noConfusion]
      exact congrArg Dsq.tasks kept
  | localTo other =>
      by_cases same : other = cpu
      · subst same
        rw [Function.update_self, State.contents, changed, Function.update_self]
      · have apart : Place.localTo other ≠ .localTo cpu := fun equal =>
          same (Place.localTo.inj equal)
        rw [Function.update_of_ne apart, State.contents, changed, Function.update_of_ne same]
        rfl

omit [DecidableEq Task] in
theorem contents_congr (shared : s'.sharedDsq = s.sharedDsq) (locals : s'.localDsq = s.localDsq) :
    s'.contents = s.contents := by
  funext place
  cases place with
  | shared => exact congrArg Dsq.tasks shared
  | localTo cpu => exact congrArg (fun queues => (queues cpu).tasks) locals

theorem contents_rrEnqueue (s : State Task) (p : Task) (enqFlags now : UInt64) :
    (rrEnqueue s p enqFlags now).contents = put s.contents .shared p :=
  contents_shared s (Dsq.tasks_insert _ _ _ _) rfl

omit [DecidableEq Task] in
theorem contents_rrSelectCpu (s : State Task) (p : Task) (cpu : Nat) (isIdle : Bool) :
    (rrSelectCpu s p cpu isIdle).2.contents =
      if isIdle then put s.contents (.localTo cpu) p else s.contents := by
  cases isIdle with
  | true =>
      have inserted : (rrSelectCpu s p cpu true).2.contents = _ := contents_local s rfl rfl
      rw [Dsq.tasks_insert] at inserted
      exact inserted
  | false => rfl

omit [DecidableEq Task] in
theorem rrDispatch_of_cons {entry : DsqEntry Task} {rest : Dsq Task}
    (whole : s.sharedDsq = entry :: rest) (cpu : Nat) :
    (rrDispatch s cpu).2 =
      { s with
        sharedDsq := rest
        localDsq := Function.update s.localDsq cpu (s.localDsq cpu ++ [entry])
        nrDispatched := s.nrDispatched + 1 } := by
  rw [rrDispatch, whole]
  rfl

omit [DecidableEq Task] in
theorem contents_rrDispatch (s : State Task) (cpu : Nat) :
    (rrDispatch s cpu).2.contents = moveFirst s.contents .shared (.localTo cpu) := by
  cases whole : s.sharedDsq with
  | nil =>
      have empty : s.contents .shared = [] := by
        rw [State.contents, whole]
        rfl
      rw [Locations.moveFirst_of_nil empty, rrDispatch, Dsq.moveHead, whole]
      exact contents_congr whole.symm rfl
  | cons entry rest =>
      have filled : s.contents .shared = entry.task :: Dsq.tasks rest := by
        rw [State.contents, whole]
        rfl
      have taken : ({ s with sharedDsq := rest } : State Task).contents =
          Function.update s.contents .shared (Dsq.tasks rest) := contents_shared s rfl rfl
      have moved : (rrDispatch s cpu).2.contents =
          Function.update ({ s with sharedDsq := rest } : State Task).contents (.localTo cpu)
            (Dsq.tasks (s.localDsq cpu ++ [entry])) := by
        rw [rrDispatch_of_cons whole]
        exact contents_local { s with sharedDsq := rest } rfl rfl
      rw [Locations.moveFirst_eq_put filled, ← taken, moved]
      exact congrArg (Function.update _ _) List.map_append

theorem contents_picked (s : State Task) (cpu : Nat) (p : Task) :
    (s.picked cpu p).contents = takeOut s.contents (.localTo cpu) p := by
  have erased : Dsq.tasks ((s.localDsq cpu).eraseP fun entry => entry.task = p) =
      (s.contents (.localTo cpu)).erase p := by
    rw [State.contents, Dsq.tasks, Dsq.tasks, List.erase_eq_eraseP, List.eraseP_map]
    refine congrArg (List.map DsqEntry.task) (congrFun (congrArg List.eraseP ?_) _)
    funext entry
    exact decide_eq_decide.mpr eq_comm
  rw [takeOut, ← erased]
  exact contents_local s rfl rfl

end Contents

/-! ## What the kernel does to the dispatch queues -/

variable {sys sys' start : Lifecycle Task} {event : Event Task}
variable {history : List (Transition (Lifecycle Task) (Event Task))}

/-- The contents of the dispatch queues, which are among some places, after a call. -/
def contentsAfter {Site : Type} [DecidableEq Site] (queue : Place → Site)
    (contents : Site → List Task) : Event Task → Site → List Task
  | .selectCpu p cpu isIdle _ => if isIdle then put contents (queue (.localTo cpu)) p else contents
  | .enqueue p _ _ => put contents (queue .shared) p
  | .dispatch cpu => moveFirst contents (queue .shared) (queue (.localTo cpu))
  | .running p cpu _ => takeOut contents (queue (.localTo cpu)) p
  | _ => contents

theorem contents_rrRunning (s : State Task) (p : Task) (now : UInt64) :
    (rrRunning s p now).contents = s.contents := by
  rw [rrRunning]
  split <;> rfl

theorem contents_rrStopping (s : State Task) (p : Task) (now : UInt64) :
    (rrStopping s p now).contents = s.contents := by
  rw [rrStopping]
  split <;> rfl

theorem contents_rrInitTask (s : State Task) (p : Task) (allocated : Bool) :
    (rrInitTask s p allocated).2.contents = s.contents := by
  rw [rrInitTask]
  split <;> rfl

theorem contents_perform (sys : Lifecycle Task) (event : Event Task) :
    (perform sys event).hooks.contents = contentsAfter id sys.hooks.contents event := by
  cases event with
  | initTask p allocated => exact contents_rrInitTask sys.hooks p allocated
  | selectCpu p cpu isIdle now => exact contents_rrSelectCpu sys.hooks p cpu isIdle
  | enqueue p enqFlags now => exact contents_rrEnqueue sys.hooks p enqFlags now
  | dispatch cpu => exact contents_rrDispatch sys.hooks cpu
  | running p cpu now => exact (contents_rrRunning _ p now).trans (contents_picked _ cpu p)
  | stopping p runnable now => exact contents_rrStopping sys.hooks p now

/-- A call leaves the phase of every other task alone. -/
theorem phase_of_other {p : Task} (other : event.task? ≠ some p) :
    (perform sys event).phase p = sys.phase p :=
  (perform_of_other other { stamped := 0, unspent := true }).1

/-- The phase in which a call leaves its task; that of `rr_init_task` depends on the allocation. -/
def Event.reaches : Event Task → Option Phase
  | .initTask _ _ => none
  | .selectCpu _ _ isIdle _ => some (if isIdle then .queued else .selected)
  | .enqueue _ _ _ => some .queued
  | .dispatch _ => none
  | .running _ _ _ => some .executing
  | .stopping _ runnable _ => some (if runnable then .preempted else .asleep)

theorem phase_own {p : Task} {phase : Phase} (own : event.task? = some p)
    (reaches : event.reaches = some phase) : (perform sys event).phase p = phase := by
  cases event with
  | initTask q allocated => cases reaches
  | dispatch cpu => cases own
  | selectCpu q cpu isIdle now =>
      obtain rfl : q = p := Option.some.inj own
      exact (Function.update_self _ _ _).trans (Option.some.inj reaches)
  | enqueue q enqFlags now =>
      obtain rfl : q = p := Option.some.inj own
      exact (Function.update_self _ _ _).trans (Option.some.inj reaches)
  | running q cpu now =>
      obtain rfl : q = p := Option.some.inj own
      exact (Function.update_self _ _ _).trans (Option.some.inj reaches)
  | stopping q runnable now =>
      obtain rfl : q = p := Option.some.inj own
      exact (Function.update_self _ _ _).trans (Option.some.inj reaches)

omit [DecidableEq Task] in
theorem isInit_or_reaches {p : Task} (own : event.task? = some p) :
    event.isInit = true ∨ ∃ phase, event.reaches = some phase := by
  cases event with
  | dispatch cpu => cases own
  | initTask q allocated => exact .inl rfl
  | selectCpu q cpu isIdle now => exact .inr ⟨_, rfl⟩
  | enqueue q enqFlags now => exact .inr ⟨_, rfl⟩
  | running q cpu now => exact .inr ⟨_, rfl⟩
  | stopping q runnable now => exact .inr ⟨_, rfl⟩

omit [DecidableEq Task] in
theorem ne_absent_of_reaches {phase : Phase} (reaches : event.reaches = some phase) :
    phase ≠ .absent := by
  cases event with
  | initTask q allocated => cases reaches
  | dispatch cpu => cases reaches
  | selectCpu q cpu isIdle now => cases isIdle <;> cases reaches <;> decide
  | enqueue q enqFlags now => cases reaches; decide
  | running q cpu now => cases reaches; decide
  | stopping q runnable now => cases runnable <;> cases reaches <;> decide

/-- Wherever the tasks are that are queued, a call keeps them there or takes its own in or out. -/
theorem tracked_after {Site : Type} [DecidableEq Site] {queue : Place → Site}
    {contents : Site → List Task} (calls : Calls sys event)
    (locally : ∀ p cpu now, event = .running p cpu now → p ∈ contents (queue (.localTo cpu)))
    (tracked : Tracked contents fun p => sys.phase p = .queued) :
    Tracked (contentsAfter queue contents event) fun p =>
      (perform sys event).phase p = .queued := by
  have others {q : Task} (own : event.task? = some q) (p : Task) (apart : p ≠ q) :
      (perform sys event).phase p = .queued ↔ sys.phase p = .queued := by
    rw [phase_of_other fun same => apart (Option.some.inj (same.symm.trans own))]
  -- A call that leaves its task outside, where it was, leaves every task as it was.
  have outside {q : Task} (own : event.task? = some q) (before : sys.phase q ≠ .queued)
      (after : (perform sys event).phase q ≠ .queued) :
      Tracked contents fun p => (perform sys event).phase p = .queued := by
    refine tracked.congr fun p => ?_
    by_cases same : p = q
    · subst same
      exact iff_of_false after before
    · exact others own p same
  cases event with
  | initTask q allocated =>
      refine outside rfl (by rw [calls]; decide) ?_
      simp only [perform]
      split
      · rw [Function.update_self]
        decide
      · rw [calls]
        decide
  | selectCpu q cpu isIdle now =>
      have before : sys.phase q ≠ .queued := by
        rw [calls]
        decide
      cases isIdle with
      | true => exact tracked.put _ before (phase_own rfl rfl) (others rfl)
      | false =>
          refine outside rfl before ?_
          rw [phase_own rfl rfl]
          decide
  | enqueue q enqFlags now =>
      refine tracked.put _ ?_ (phase_own rfl rfl) (others rfl)
      rcases calls with selected | preempted
      · rw [selected]
        decide
      · rw [preempted]
        decide
  | dispatch cpu => exact tracked.moveFirst _ _
  | running q cpu now =>
      refine tracked.takeOut (locally q cpu now rfl) ?_ (others rfl)
      rw [phase_own rfl rfl]
      decide
  | stopping q runnable now =>
      refine outside rfl (by rw [calls]; decide) ?_
      rw [phase_own rfl rfl]
      cases runnable <;> decide

/-- A call keeps every task where it has to be. -/
theorem Placed.step (placed : Placed sys) (step : KernelStep sys event sys') : Placed sys' := by
  obtain ⟨⟨calls, rfl⟩, locally⟩ := step
  rw [Placed, contents_perform]
  refine tracked_after calls (fun p cpu now is => ?_) placed
  subst is
  exact locally

theorem Booted.placed (booted : Booted start) : Placed start where
  settled p queued := by
    rw [booted.absent p] at queued
    cases queued
  absent p _ := by
    refine Locations.absent_iff.mpr fun place member => ?_
    rw [booted.empty place] at member
    cases member

theorem placed_of_run (run : Run KernelStep start history sys) (booted : Booted start) :
    Placed sys :=
  run.invariant booted.placed Placed.step

/-- A call of another hook of a task leaves it initialised, and so does any call afterwards. -/
theorem initialised_step {p : Task} (calls : Calls sys event)
    (initialised : sys.phase p ≠ .absent ∨ event.task? = some p ∧ event.isInit = false) :
    (perform sys event).phase p ≠ .absent := by
  by_cases own : event.task? = some p
  · rcases isInit_or_reaches own with isInit | ⟨phase, reaches⟩
    · rcases initialised with before | ⟨_, notInit⟩
      · cases event with
        | initTask q allocated =>
            obtain rfl : q = p := Option.some.inj own
            exact absurd calls before
        | selectCpu q cpu isIdle now => cases isInit
        | enqueue q enqFlags now => cases isInit
        | dispatch cpu => cases isInit
        | running q cpu now => cases isInit
        | stopping q runnable now => cases isInit
      · exact absurd (isInit.symm.trans notInit) Bool.noConfusion
    · rw [phase_own own reaches]
      exact ne_absent_of_reaches reaches
  · rw [phase_of_other own]
    exact initialised.resolve_right fun called => own called.1

theorem initialised_of_run (run : Run KernelStep start history sys) {p : Task}
    (called : ∃ event ∈ history.map Transition.event, event.task? = some p ∧
      event.isInit = false) : sys.phase p ≠ .absent := by
  induction run with
  | refl =>
      obtain ⟨event, member, _⟩ := called
      cases member
  | tail earlier last ih =>
      obtain ⟨⟨calls, rfl⟩, _⟩ := last
      refine initialised_step calls ?_
      obtain ⟨event, member, other⟩ := called
      rw [List.map_append] at member
      rcases List.mem_append.mp member with before | atEnd
      · exact .inl (ih ⟨event, before, other⟩)
      · rw [List.mem_singleton.mp atEnd] at other
        exact .inr other

/-- `rr_init_task` is called first. -/
theorem initFirst_of_run (run : Run KernelStep start history sys) :
    InitFirst (history.map Transition.event) := by
  induction run with
  | refl => exact .nil
  | @tail history before after last earlier step ih =>
      rw [List.map_append]
      refine List.pairwise_append.mpr ⟨ih, List.pairwise_singleton _ _, ?_⟩
      intro event member later atEnd isInit same
      obtain rfl := List.mem_singleton.mp atEnd
      by_contra notInit
      cases later with
      | initTask p allocated =>
          exact initialised_of_run earlier ⟨event, member, same, eq_false_of_ne_true notInit⟩
            step.1.1
      | selectCpu p cpu isIdle now => cases isInit
      | enqueue p enqFlags now => cases isInit
      | dispatch cpu => cases isInit
      | running p cpu now => cases isInit
      | stopping p runnable now => cases isInit

/-! ## Slices -/

/-- Every entry of a dispatch queue has the full quantum. -/
structure FullSlices (s : State Task) : Prop where
  shared : ∀ entry ∈ s.sharedDsq, entry.slice = timeQuantumNs
  locals : ∀ cpu, ∀ entry ∈ s.localDsq cpu, entry.slice = timeQuantumNs

namespace FullSlices

variable {s s' : State Task}

omit [DecidableEq Task] in
theorem congr (full : FullSlices s) (shared : s'.sharedDsq = s.sharedDsq)
    (locals : s'.localDsq = s.localDsq) : FullSlices s' := by
  constructor
  · rw [shared]
    exact full.shared
  · rw [locals]
    exact full.locals

omit [DecidableEq Task] in
/-- A queue with new entries has full slices if they have. -/
theorem update_local (full : FullSlices s) {cpu : Nat} {after : Dsq Task}
    (slices : ∀ entry ∈ after, entry.slice = timeQuantumNs)
    (other : Nat) : ∀ entry ∈ Function.update s.localDsq cpu after other,
      entry.slice = timeQuantumNs := by
  by_cases same : other = cpu
  · subst same
    rw [Function.update_self]
    exact slices
  · rw [Function.update_of_ne same]
    exact full.locals other

omit [DecidableEq Task] in
theorem append {queue : Dsq Task} {added : DsqEntry Task}
    (slices : ∀ entry ∈ queue, entry.slice = timeQuantumNs) (slice : added.slice = timeQuantumNs) :
    ∀ entry ∈ queue ++ [added], entry.slice = timeQuantumNs := by
  intro entry member
  rcases List.mem_append.mp member with old | new
  · exact slices entry old
  · rw [List.mem_singleton.mp new]
    exact slice

/-- A call keeps all slices full. -/
theorem perform {sys : Lifecycle Task} (full : FullSlices sys.hooks) (event : Event Task) :
    FullSlices (RoundRobin.perform sys event).hooks := by
  cases event with
  | initTask p allocated =>
      simp only [RoundRobin.perform, rrInitTask]
      split <;> exact full.congr rfl rfl
  | selectCpu p cpu isIdle now =>
      cases isIdle with
      | true => exact ⟨full.shared, full.update_local (append (full.locals cpu) rfl)⟩
      | false => exact full
  | enqueue p enqFlags now => exact ⟨append full.shared rfl, full.locals⟩
  | dispatch cpu =>
      cases whole : sys.hooks.sharedDsq with
      | nil =>
          simp only [RoundRobin.perform, rrDispatch, Dsq.moveHead, whole]
          exact full.congr whole.symm rfl
      | cons entry rest =>
          have slices := full.shared
          rw [whole] at slices
          obtain ⟨first, later⟩ := List.forall_mem_cons.mp slices
          simp only [RoundRobin.perform, rrDispatch_of_cons whole]
          exact ⟨later, full.update_local (append (full.locals cpu) first)⟩
  | running p cpu now =>
      have picked : FullSlices (sys.hooks.picked cpu p) :=
        ⟨full.shared, full.update_local fun entry member =>
          full.locals cpu entry (List.mem_of_mem_eraseP member)⟩
      simp only [RoundRobin.perform, rrRunning]
      split <;> exact picked.congr rfl rfl
  | stopping p runnable now =>
      simp only [RoundRobin.perform, rrStopping]
      split <;> exact full.congr rfl rfl

end FullSlices

omit [DecidableEq Task] in
theorem Booted.fullSlices (booted : Booted start) : FullSlices start.hooks where
  shared := by
    have empty : start.hooks.sharedDsq.tasks = [] := booted.empty .shared
    rw [List.map_eq_nil_iff.mp empty]
    exact fun entry member => nomatch member
  locals cpu := by
    have empty : (start.hooks.localDsq cpu).tasks = [] := booted.empty (.localTo cpu)
    rw [List.map_eq_nil_iff.mp empty]
    exact fun entry member => nomatch member

theorem fullSlices_of_run (run : Run KernelStep start history sys) (booted : Booted start) :
    FullSlices sys.hooks := by
  refine run.carries (fun sys => FullSlices sys.hooks) (fun taken member full => ?_)
    booted.fullSlices
  rw [(run.steps taken member).1.2]
  exact full.perform taken.event

/--
In every state that the kernel reaches a task that waits is on exactly one
dispatch queue, exactly once, any other task is on none, and each entry of a
queue has the full quantum.
-/
theorem kernel_placed_of_run (run : Run KernelStep start history sys) (booted : Booted start) :
    (∀ p, sys.phase p = .queued →
        ∃ place, (sys.hooks.contents place).count p = 1 ∧
          ∀ other, other ≠ place → p ∉ sys.hooks.contents other) ∧
      (∀ p, sys.phase p ≠ .queued → ∀ place, p ∉ sys.hooks.contents place) ∧
        FullSlices sys.hooks := by
  have placed := placed_of_run run booted
  exact ⟨fun p queued => placed.unique queued,
    fun p others => Locations.absent_iff.mp (placed.absent p others), fullSlices_of_run run booted⟩

/-- The scheduler has been loaded on an idle machine. -/
theorem unstarted_booted : Booted unstarted where
  absent _ := rfl
  taskCtxMap _ := rfl
  empty place := by cases place <;> rfl
  nrEnqueued := rfl
  nrDispatched := rfl

/-- One task goes through the shared queue and returns to it, another runs on an idle CPU. -/
def sharedAndDirect : List (Event Nat) :=
  [.initTask 1 true, .initTask 2 true, .selectCpu 1 0 false 10, .enqueue 1 0 10,
    .selectCpu 2 1 true 12, .running 2 1 13, .dispatch 0, .running 1 0 20, .stopping 1 true 30,
    .enqueue 1 0 30, .stopping 2 false 40]

theorem sharedAndDirect_run :
    Run KernelStep unstarted (trace perform unstarted sharedAndDirect)
      (sharedAndDirect.foldl perform unstarted) :=
  Run.of_trace kernelStep_perform (by decide)

theorem sharedAndDirect_placed :
    (∀ p, (sharedAndDirect.foldl perform unstarted).phase p = .queued →
        ∃ place, ((sharedAndDirect.foldl perform unstarted).hooks.contents place).count p = 1 ∧
          ∀ other, other ≠ place →
            p ∉ (sharedAndDirect.foldl perform unstarted).hooks.contents other) ∧
      (∀ p, (sharedAndDirect.foldl perform unstarted).phase p ≠ .queued →
        ∀ place, p ∉ (sharedAndDirect.foldl perform unstarted).hooks.contents place) ∧
        FullSlices (sharedAndDirect.foldl perform unstarted).hooks :=
  kernel_placed_of_run sharedAndDirect_run unstarted_booted

end SchedExt.Bpf.RoundRobin
