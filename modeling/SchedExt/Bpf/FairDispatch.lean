import SchedExt.Bpf.FairHooks

/-!
# What the fair hooks keep and in which order they serve it

The global dispatch queue is first-in first-out.  A task passed to `s_enqueue`
reaches it only if a context is found or created for it, and leaves it in the
order of arrival, whatever virtual runtime it has by then.
-/

namespace SchedExt.Bpf.Fair

open SchedExt.Foundations

variable {Task : Type} [DecidableEq Task]
variable {s s' start : State Task} {call : Call Task}
variable {history : List (Transition (State Task) (Call Task))}

def Call.passed? : Call Task → Option Task
  | .enqueue p _ _ _ => some p
  | .dispatch _ _ => none
  | .running _ _ _ _ => none

def Call.moved? : Call Task → Option Task
  | .enqueue _ _ _ _ => none
  | .dispatch _ moved => moved
  | .running _ _ _ _ => none

/-- The tasks passed to `s_enqueue`, oldest first. -/
def passed (calls : List (Call Task)) : List Task :=
  calls.filterMap Call.passed?

/-- The tasks moved by `s_dispatch`, oldest first. -/
def moved (calls : List (Call Task)) : List Task :=
  calls.filterMap Call.moved?

/-- The tasks that `s_enqueue` put on the global dispatch queue, oldest first. -/
def accepted (history : List (Transition (State Task) (Call Task))) : List Task :=
  FifoAction.appended (history.map onQueue)

omit [DecidableEq Task] in
theorem removed?_onQueue (taken : Transition (State Task) (Call Task)) :
    (onQueue taken).removed? = taken.event.moved? := by
  obtain ⟨source, call, target⟩ := taken
  cases call with
  | enqueue p enqFlags allocated now =>
      by_cases found : (obtained (source.taskCtxMap p) allocated).isSome
      · simp [onQueue, found, FifoAction.removed?, Call.moved?]
      · simp [onQueue, found, FifoAction.removed?, Call.moved?]
  | dispatch cpu moved => rfl
  | running p allocated weight now => rfl

omit [DecidableEq Task] in
/-- A call appends what it is passed, or nothing if an `s_enqueue` obtains no context. -/
theorem appended?_onQueue_of_enqueue {source target : State Task} {p : Task}
    {enqFlags : UInt64} {allocated : Bool} {now : UInt64} :
    (onQueue ⟨source, .enqueue p enqFlags allocated now, target⟩).appended? =
      if source.taskCtxMap p ≠ none ∨ allocated = true then some p else none := by
  by_cases found : (obtained (source.taskCtxMap p) allocated).isSome
  · rw [if_pos (obtained_isSome_iff.mp found)]
    simp [onQueue, found, FifoAction.appended?]
  · rw [if_neg fun obtains => found (obtained_isSome_iff.mpr obtains)]
    simp [onQueue, found, FifoAction.appended?]

/-- What was put on the queue is what was moved followed by what is on it. -/
theorem accepted_eq (empty : start.globalDsq = []) (run : Run Step start history s) :
    accepted history = moved (history.map Transition.event) ++ s.globalDsq.tasks := by
  have law := FifoAction.log_simulate (fun s => s.globalDsq.tasks) onQueue run Step.queue
  have removed : FifoAction.removed (history.map onQueue) =
      moved (history.map Transition.event) := by
    rw [FifoAction.removed, moved, List.filterMap_map, List.filterMap_map]
    exact List.filterMap_congr fun taken _ => removed?_onQueue taken
  rw [removed, empty] at law
  exact law

/-! ## Conservation -/

/-- Every `s_enqueue` finds a context of its task or succeeds in allocating one. -/
def EveryEnqueueObtains (history : List (Transition (State Task) (Call Task))) : Prop :=
  ∀ taken ∈ history, ∀ p enqFlags allocated now,
    taken.event = .enqueue p enqFlags allocated now →
      taken.source.taskCtxMap p ≠ none ∨ allocated = true

omit [DecidableEq Task] in
/-- The tasks passed were put on the queue exactly when every `s_enqueue` has a context. -/
theorem passed_eq_accepted_iff (history : List (Transition (State Task) (Call Task))) :
    passed (history.map Transition.event) = accepted history ↔ EveryEnqueueObtains history := by
  rw [passed, accepted, FifoAction.appended, List.filterMap_map, List.filterMap_map,
    FifoAction.filterMap_eq_iff]
  · constructor
    · rintro same ⟨source, call, target⟩ member p enqFlags allocated now rfl
      have kept := same _ member
      rw [Function.comp, Function.comp, appended?_onQueue_of_enqueue] at kept
      by_contra none
      rw [if_neg none] at kept
      cases kept
    · rintro obtains ⟨source, call, target⟩ member
      cases call with
      | enqueue p enqFlags allocated now =>
          rw [Function.comp, Function.comp, appended?_onQueue_of_enqueue,
            if_pos (obtains _ member p enqFlags allocated now rfl)]
          rfl
      | dispatch cpu moved => rfl
      | running p allocated weight now => rfl
  · rintro ⟨source, call, target⟩ _
    cases call with
    | enqueue p enqFlags allocated now =>
        rw [Function.comp, Function.comp, appended?_onQueue_of_enqueue]
        by_cases obtains : source.taskCtxMap p ≠ none ∨ allocated = true
        · rw [if_pos obtains]
          exact Or.inr rfl
        · rw [if_neg obtains]
          exact Or.inl rfl
    | dispatch cpu moved => exact Or.inl rfl
    | running p allocated weight now => exact Or.inl rfl

/--
The tasks passed to `s_enqueue` are those that `s_dispatch` moved followed by
those on the global dispatch queue exactly when no allocation of a missing
context failed.
-/
theorem conserved_iff_contexts_obtained (empty : start.globalDsq = [])
    (run : Run Step start history s) :
    passed (history.map Transition.event) =
        moved (history.map Transition.event) ++ s.globalDsq.tasks ↔
      EveryEnqueueObtains history := by
  rw [← accepted_eq empty run]
  exact passed_eq_accepted_iff history

/-- Two tasks enter, of which the second finds no memory, and one is dispatched. -/
def failedAllocation : List (Call Nat) :=
  [.enqueue 1 0 true 1, .enqueue 2 0 false 2, .dispatch 0 (some 1)]

theorem failedAllocation_run :
    Run Step fresh (trace perform fresh failedAllocation) (failedAllocation.foldl perform fresh) :=
  Run.of_trace step_perform (by decide)

theorem failedAllocation_conserved_iff :
    passed ((trace perform fresh failedAllocation).map Transition.event) =
        moved ((trace perform fresh failedAllocation).map Transition.event) ++
          (failedAllocation.foldl perform fresh).globalDsq.tasks ↔
      EveryEnqueueObtains (trace perform fresh failedAllocation) :=
  conserved_iff_contexts_obtained rfl failedAllocation_run

/-- A task whose context cannot be allocated is neither queued nor moved. -/
theorem task_lost :
    ¬ ∀ (start s : State Nat) (history : List (Transition (State Nat) (Call Nat))),
      start.globalDsq = [] → Run Step start history s →
        passed (history.map Transition.event) =
          moved (history.map Transition.event) ++ s.globalDsq.tasks := by
  intro conserved
  exact absurd (conserved _ _ _ rfl failedAllocation_run) (by decide)

/-! ## Order of service -/

/-- The moved task has a virtual runtime at most that of any task on the queue. -/
def MovesLeast (taken : Transition (State Task) (Call Task)) : Prop :=
  ∀ cpu p, taken.event = .dispatch cpu (some p) →
    ∃ ctx, taken.source.taskCtxMap p = some ctx ∧
      ∀ q ∈ taken.source.globalDsq.tasks, ∃ other, taken.source.taskCtxMap q = some other ∧
        ctx.vruntime ≤ other.vruntime

/-- The tasks put on the queue and not yet moved, in the order in which they were put there. -/
def waiting (history : List (Transition (State Task) (Call Task))) : List Task :=
  (accepted history).drop (moved (history.map Transition.event)).length

/--
Whenever `s_dispatch` is called, what the calls so far have charged the waiting
task that was enqueued first is at most what they have charged any other.
-/
def EarliestChargedLeast (start : State Task)
    (history : List (Transition (State Task) (Call Task))) : Prop :=
  ∀ before taken after, history = before ++ taken :: after →
    ∀ cpu moved, taken.event = .dispatch cpu moved →
      ∀ first rest, waiting before = first :: rest → ∀ q ∈ rest,
        ∀ ctx ∈ contextAfter first (start.taskCtxMap first) (before.map Transition.event),
          ∀ other ∈ contextAfter q (start.taskCtxMap q) (before.map Transition.event),
            ctx.vruntime ≤ other.vruntime

theorem waiting_eq (empty : start.globalDsq = []) (run : Run Step start history s) :
    waiting history = s.globalDsq.tasks := by
  rw [waiting, accepted_eq empty run, List.drop_left]

/-- Whatever is on the queue has a context. -/
theorem context_of_queued (empty : start.globalDsq = []) (run : Run Step start history s) :
    ∀ p ∈ s.globalDsq.tasks, s.taskCtxMap p ≠ none := by
  induction run with
  | refl =>
      intro p member
      rw [empty] at member
      cases member
  | tail earlier last ih =>
      intro p member
      rw [last.context p]
      rcases last.queue.mem member with old | appended
      · exact Call.onContext_ne_none (ih p old) _
      · rename_i before after call
        cases call with
        | enqueue q enqFlags allocated now =>
            by_cases found : (obtained (before.taskCtxMap q) allocated).isSome
            · simp only [onQueue, found, if_true] at appended
              obtain rfl := FifoAction.append.inj appended
              simp [Call.onContext, Option.isSome_iff_ne_none.mp found]
            · simp [onQueue, found] at appended
        | dispatch cpu moved => cases appended
        | running q allocated weight now => cases appended

/-- `s_dispatch` moves the head of the queue. -/
theorem Step.moved_eq {cpu : Nat} {moved : Option Task} (step : Step s (.dispatch cpu moved) s') :
    moved = s.globalDsq.tasks.head? := by
  cases step with
  | dispatch => exact Dsq.task_moveHead s.globalDsq

/-- A dispatch moves the least task if the head of the queue is behind no other task. -/
theorem Step.movesLeast_iff {cpu : Nat} {moved : Option Task}
    (step : Step s (.dispatch cpu moved) s')
    (contexts : ∀ p ∈ s.globalDsq.tasks, s.taskCtxMap p ≠ none) :
    MovesLeast ⟨s, .dispatch cpu moved, s'⟩ ↔
      ∀ first rest, s.globalDsq.tasks = first :: rest → ∀ q ∈ rest,
        ∀ ctx ∈ s.taskCtxMap first, ∀ other ∈ s.taskCtxMap q, ctx.vruntime ≤ other.vruntime := by
  constructor
  · intro least first rest queue q member ctx ctxMem other otherMem
    have head : moved = some first := by
      rw [step.moved_eq, queue]
      rfl
    obtain ⟨ctx', ctxEq, others⟩ := least cpu first (congrArg _ head)
    obtain ⟨other', otherEq, atMost⟩ := others q (queue ▸ List.mem_cons_of_mem first member)
    obtain rfl : ctx' = ctx := Option.some.inj (ctxEq.symm.trans ctxMem)
    obtain rfl : other' = other := Option.some.inj (otherEq.symm.trans otherMem)
    exact atMost
  · rintro charged _ p ⟨rfl⟩
    obtain ⟨rest, queue⟩ : ∃ rest, s.globalDsq.tasks = p :: rest :=
      List.head?_eq_some_iff.mp step.moved_eq.symm
    obtain ⟨ctx, ctxEq⟩ := Option.ne_none_iff_exists'.mp (contexts p (queue ▸ List.mem_cons_self))
    refine ⟨ctx, ctxEq, fun q queued => ?_⟩
    obtain ⟨other, otherEq⟩ := Option.ne_none_iff_exists'.mp (contexts q queued)
    refine ⟨other, otherEq, ?_⟩
    rw [queue] at queued
    rcases List.mem_cons.mp queued with rfl | behind
    · obtain rfl : ctx = other := Option.some.inj (ctxEq.symm.trans otherEq)
      exact UInt64.le_refl _
    · exact charged p rest queue q behind ctx ctxEq other otherEq

/--
Every task that `s_dispatch` moves has least virtual runtime exactly when at
each dispatch the waiting task enqueued first has been charged the least.
-/
theorem moves_least_iff_earliest_charged_least (empty : start.globalDsq = [])
    (run : Run Step start history s) :
    (∀ taken ∈ history, MovesLeast taken) ↔ EarliestChargedLeast start history := by
  constructor
  · rintro least before ⟨source, call, target⟩ after rfl cpu moved rfl first rest queue q member
    obtain ⟨earlier, last, _⟩ := run.split
    rw [waiting_eq empty earlier] at queue
    rw [← context_of_run earlier, ← context_of_run earlier]
    exact (last.movesLeast_iff (context_of_queued empty earlier)).mp
      (least _ (List.mem_append_right _ List.mem_cons_self)) first rest queue q member
  · rintro charged ⟨source, call, target⟩ member cpu p rfl
    obtain ⟨before, after, rfl⟩ := List.append_of_mem member
    obtain ⟨earlier, last, _⟩ := run.split
    refine (last.movesLeast_iff (context_of_queued empty earlier)).mpr ?_ cpu p rfl
    intro first rest queue q behind
    rw [context_of_run earlier, context_of_run earlier]
    rw [← waiting_eq empty earlier] at queue
    exact charged before _ after rfl cpu _ rfl first rest queue q behind

/-- A task that has waited and run is enqueued again before a new one, and one is dispatched. -/
def chargedFirst : List (Call Nat) :=
  [.enqueue 1 0 true 1, .dispatch 0 (some 1), .running 1 true 1024 1001,
    .enqueue 1 0 true 2000, .enqueue 2 0 true 2001, .dispatch 0 (some 1)]

/-- The state before the last of these calls. -/
def beforeLastDispatch : State Nat :=
  (chargedFirst.take 5).foldl perform fresh

theorem chargedFirst_run :
    Run Step fresh (trace perform fresh chargedFirst) (chargedFirst.foldl perform fresh) :=
  Run.of_trace step_perform (by decide)

theorem chargedFirst_moves_least_iff :
    (∀ taken ∈ trace perform fresh chargedFirst, MovesLeast taken) ↔
      EarliestChargedLeast fresh (trace perform fresh chargedFirst) :=
  moves_least_iff_earliest_charged_least rfl chargedFirst_run

/-- The queue serves the task charged 1000 before the one charged nothing. -/
theorem larger_vruntime_moved :
    ¬ ∀ (start s : State Nat) (history : List (Transition (State Nat) (Call Nat))),
      start.globalDsq = [] → Run Step start history s →
        Nondecreasing (history.map Transition.event) →
          ∀ taken ∈ history, MovesLeast taken := by
  intro least
  have moves := least _ _ _ rfl chargedFirst_run (by decide)
    ⟨beforeLastDispatch, .dispatch 0 (some 1), perform beforeLastDispatch (.dispatch 0 (some 1))⟩
    (by simp [chargedFirst, trace, beforeLastDispatch])
  obtain ⟨ctx, ctxEq, others⟩ := moves 0 1 rfl
  obtain ⟨other, otherEq, atMost⟩ := others 2 (by decide)
  obtain rfl : ctx = ⟨1000, 2000⟩ := Option.some.inj (ctxEq.symm.trans (by decide))
  obtain rfl : other = ⟨0, 2001⟩ := Option.some.inj (otherEq.symm.trans (by decide))
  exact absurd atMost (by decide)

end SchedExt.Bpf.Fair
