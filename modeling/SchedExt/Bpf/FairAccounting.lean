import Mathlib.Algebra.BigOperators.Group.List.Basic
import Mathlib.Algebra.Ring.Nat
import Mathlib.Data.List.Chain
import SchedExt.Bpf.FairHooks

/-!
# What the fair hooks charge

`s_running` charges the time since the last `s_enqueue`, and no hook is called
when an execution ends.  The virtual runtime of a task is therefore the
weighted sum of its waiting times, and the times it ran for do not enter.
-/

namespace SchedExt.Bpf.Fair

open SchedExt.Foundations

/-- One lifecycle of a task: enqueued, set running, and the end of that execution. -/
structure Round where
  enqueued : UInt64
  ran : UInt64
  ended : UInt64
  deriving DecidableEq

namespace Round

/-- The weighted time between `s_enqueue` and `s_running`. -/
def waitCharge (weight : UInt32) (round : Round) : Nat :=
  (round.ran.toNat - round.enqueued.toNat) * nice0Weight.toNat / weight.toNat

/-- The weighted time between `s_running` and the end of the execution. -/
def executionCharge (weight : UInt32) (round : Round) : Nat :=
  (round.ended.toNat - round.ran.toNat) * nice0Weight.toNat / weight.toNat

end Round

/-- The times of each lifecycle are in order, and lifecycles follow each other. -/
structure InOrder (rounds : List Round) : Prop where
  within : ∀ round ∈ rounds, round.enqueued ≤ round.ran ∧ round.ran ≤ round.ended
  between : rounds.IsChain fun earlier later => earlier.ended ≤ later.enqueued

instance (rounds : List Round) : Decidable (InOrder rounds) :=
  decidable_of_iff
    ((∀ round ∈ rounds, round.enqueued ≤ round.ran ∧ round.ran ≤ round.ended) ∧
      rounds.IsChain fun earlier later => earlier.ended ≤ later.enqueued)
    ⟨fun parts => ⟨parts.1, parts.2⟩, fun ordered => ⟨ordered.within, ordered.between⟩⟩

/-- No charge and no virtual runtime exceeds 64 bits. -/
structure NoOverflow (weight : UInt32) (rounds : List Round) : Prop where
  charges : ∀ round ∈ rounds,
    (round.ran.toNat - round.enqueued.toNat) * nice0Weight.toNat < 2 ^ 64
  total : (rounds.map (Round.waitCharge weight)).sum < 2 ^ 64

/-- What a call does to the context of a task that has one. -/
inductive Moment where
  | enqueued (now : UInt64)
  | ran (weight : UInt32) (now : UInt64)
  deriving DecidableEq

def Moment.act (ctx : TaskCtx) : Moment → TaskCtx
  | .enqueued now => { ctx with enqueueTime := now }
  | .ran weight now =>
      { ctx with vruntime := ctx.vruntime + calcDeltaVruntime (now - ctx.enqueueTime) weight }

def Moment.isRan : Moment → Bool
  | .enqueued _ => false
  | .ran _ _ => true

/-- The moments of one lifecycle after another. -/
def lifecycles (weight : UInt32) (rounds : List Round) : List Moment :=
  rounds.flatMap fun round => [.enqueued round.enqueued, .ran weight round.ran]

/-! ## Charges of a sequence of lifecycles -/

theorem toNat_calcDeltaVruntime {wallNs : UInt64} {weight : UInt32} (nonzero : weight ≠ 0)
    (fits : wallNs.toNat * nice0Weight.toNat < 2 ^ 64) :
    (calcDeltaVruntime wallNs weight).toNat =
      wallNs.toNat * nice0Weight.toNat / weight.toNat := by
  rw [calcDeltaVruntime, if_neg nonzero, UInt64.toNat_div, UInt64.toNat_mul,
    UInt32.toNat_toUInt64, UInt32.toNat_toUInt64, Nat.mod_eq_of_lt fits]

/-- One lifecycle adds the charge for waiting. -/
theorem vruntime_round {ctx : TaskCtx} {weight : UInt32} {round : Round} (nonzero : weight ≠ 0)
    (ordered : round.enqueued ≤ round.ran)
    (fits : (round.ran.toNat - round.enqueued.toNat) * nice0Weight.toNat < 2 ^ 64)
    (bounded : ctx.vruntime.toNat + round.waitCharge weight < 2 ^ 64) :
    (([.enqueued round.enqueued, .ran weight round.ran] : List Moment).foldl
        Moment.act ctx).vruntime.toNat =
      ctx.vruntime.toNat + round.waitCharge weight := by
  have waited : (round.ran - round.enqueued).toNat = round.ran.toNat - round.enqueued.toNat :=
    UInt64.toNat_sub_of_le _ _ ordered
  have charge : (calcDeltaVruntime (round.ran - round.enqueued) weight).toNat =
      round.waitCharge weight := by
    rw [toNat_calcDeltaVruntime nonzero (waited ▸ fits), waited, Round.waitCharge]
  simp only [List.foldl_cons, List.foldl_nil, Moment.act]
  rw [UInt64.toNat_add, charge, Nat.mod_eq_of_lt bounded]

/-- Lifecycles add the charges for waiting. -/
theorem vruntime_lifecycles {weight : UInt32} {rounds : List Round} {ctx : TaskCtx}
    (nonzero : weight ≠ 0) (ordered : ∀ round ∈ rounds, round.enqueued ≤ round.ran)
    (fits : ∀ round ∈ rounds,
      (round.ran.toNat - round.enqueued.toNat) * nice0Weight.toNat < 2 ^ 64)
    (bounded : ctx.vruntime.toNat + (rounds.map (Round.waitCharge weight)).sum < 2 ^ 64) :
    ((lifecycles weight rounds).foldl Moment.act ctx).vruntime.toNat =
      ctx.vruntime.toNat + (rounds.map (Round.waitCharge weight)).sum := by
  induction rounds generalizing ctx with
  | nil => rfl
  | cons first rest ih =>
      obtain ⟨firstOrdered, restOrdered⟩ := List.forall_mem_cons.mp ordered
      obtain ⟨firstFits, restFits⟩ := List.forall_mem_cons.mp fits
      rw [List.map_cons, List.sum_cons, ← Nat.add_assoc] at bounded ⊢
      have atFirst : ctx.vruntime.toNat + first.waitCharge weight < 2 ^ 64 :=
        Nat.lt_of_le_of_lt (Nat.le_add_right _ _) bounded
      have charged := vruntime_round nonzero firstOrdered firstFits atFirst
      rw [lifecycles, List.flatMap_cons, List.foldl_append, ← lifecycles]
      rw [← charged] at bounded ⊢
      exact ih restOrdered restFits bounded

/--
Running totals of two charges agree, the first one entry ahead, exactly when
the first charge is nothing at first and afterwards what the second one was.
-/
theorem totals_agree_iff {Entry : Type} (ahead behind : Entry → Nat) (entries : List Entry) :
    (∀ done last rest, entries = done ++ last :: rest →
      ((done ++ [last]).map ahead).sum = (done.map behind).sum) ↔
    (∀ first rest, entries = first :: rest → ahead first = 0) ∧
      ∀ done earlier later rest, entries = done ++ earlier :: later :: rest →
        ahead later = behind earlier := by
  constructor
  · intro agree
    refine ⟨?_, ?_⟩
    · intro first rest whole
      simpa using agree [] first rest whole
    · intro done earlier later rest whole
      have before := agree done earlier (later :: rest) whole
      have after := agree (done ++ [earlier]) later rest (by simp [whole])
      rw [List.map_append, List.sum_append, before, List.map_append, List.sum_append] at after
      simpa using after
  · rintro ⟨start, next⟩ done last rest whole
    induction done using List.reverseRecOn generalizing last rest with
    | nil => simpa using start last rest whole
    | append_singleton done earlier ih =>
        rw [List.append_assoc, List.singleton_append] at whole
        have before := ih earlier (last :: rest) whole
        have now := next done earlier last rest whole
        rw [List.map_append, List.sum_append, before, List.map_append, List.sum_append]
        simpa using now

@[simp]
theorem lifecycles_cons (weight : UInt32) (first : Round) (rest : List Round) :
    lifecycles weight (first :: rest) =
      .enqueued first.enqueued :: .ran weight first.ran :: lifecycles weight rest := rfl

theorem lifecycles_concat (weight : UInt32) (done : List Round) (last : Round) :
    lifecycles weight (done ++ [last]) =
      lifecycles weight done ++ [.enqueued last.enqueued, .ran weight last.ran] :=
  List.flatMap_append

/-- Each `s_running` among lifecycles ends the second half of one of them. -/
theorem lifecycles_split {weight other : UInt32} {now : UInt64} {rounds : List Round}
    {pre post : List Moment} (whole : lifecycles weight rounds = pre ++ .ran other now :: post) :
    ∃ done last rest, rounds = done ++ last :: rest ∧
      pre = lifecycles weight done ++ [.enqueued last.enqueued] ∧ now = last.ran := by
  induction rounds generalizing pre with
  | nil => cases pre <;> cases whole
  | cons first rest ih =>
      rw [lifecycles_cons] at whole
      match pre with
      | [] => cases whole
      | [moment] =>
          cases whole
          exact ⟨[], first, rest, rfl, rfl, rfl⟩
      | moment :: next :: later =>
          rw [List.cons_append, List.cons_append, List.cons.injEq, List.cons.injEq] at whole
          obtain ⟨rfl, rfl, tail⟩ := whole
          obtain ⟨done, last, remaining, rfl, rfl, rfl⟩ := ih tail
          exact ⟨first :: done, last, remaining, rfl, rfl, rfl⟩

theorem countP_isRan_lifecycles (weight : UInt32) (rounds : List Round) :
    (lifecycles weight rounds).countP Moment.isRan = rounds.length := by
  induction rounds with
  | nil => rfl
  | cons first rest ih =>
      rw [lifecycles_cons, List.countP_cons_of_neg Bool.false_ne_true,
        List.countP_cons_of_pos rfl, ih, List.length_cons]

/-! ## Calls on one task among others -/

variable {Task : Type} [DecidableEq Task] {s start : State Task} {p : Task}
variable {call : Call Task} {calls : List (Call Task)} {ctx : Option TaskCtx}
variable {history : List (Transition (State Task) (Call Task))}

/-- The moment that a call is in the life of a task, if it is a call on it. -/
def Call.moment? (p : Task) : Call Task → Option Moment
  | .enqueue q _ _ now => if q = p then some (.enqueued now) else none
  | .dispatch _ _ => none
  | .running q _ weight now => if q = p then some (.ran weight now) else none

/-- The moments in the life of a task, oldest first. -/
def moments (p : Task) (calls : List (Call Task)) : List Moment :=
  calls.filterMap (Call.moment? p)

/-- A call on the task would succeed in allocating its context. -/
def Call.allocates (p : Task) : Call Task → Prop
  | .enqueue q _ allocated _ => q = p → allocated = true
  | .dispatch _ _ => True
  | .running q allocated _ _ => q = p → allocated = true

/-- The context in which a task without one starts. -/
def zeroCtx : TaskCtx := { vruntime := 0, enqueueTime := 0 }

/-- The task starts at virtual runtime 0, in a context that it has or that is allocated. -/
structure StartsAtZero (p : Task) (ctx : Option TaskCtx) (calls : List (Call Task)) : Prop where
  zero : (ctx.getD zeroCtx).vruntime = 0
  allocated : ctx ≠ none ∨ ∀ call ∈ calls, call.allocates p

theorem Call.onContext_of_foreign (foreign : call.moment? p = none) :
    call.onContext p ctx = ctx := by
  cases call with
  | enqueue q enqFlags allocated now =>
      have other : ¬ q = p := fun same => by simp [moment?, same] at foreign
      simp [onContext, other]
  | dispatch cpu moved => rfl
  | running q allocated weight now =>
      have other : ¬ q = p := fun same => by simp [moment?, same] at foreign
      simp [onContext, other]

theorem Call.onContext_of_moment {moment : Moment} (own : call.moment? p = some moment)
    (ready : ctx ≠ none ∨ call.allocates p) :
    call.onContext p ctx = some (moment.act (ctx.getD zeroCtx)) := by
  have found {allocated : Bool} (has : ctx ≠ none ∨ allocated = true) :
      obtained ctx allocated = some (ctx.getD zeroCtx) := by
    cases ctx with
    | some ctx => rfl
    | none =>
        rw [has.resolve_left (fun absent => absent rfl)]
        rfl
  cases call with
  | enqueue q enqFlags allocated now =>
      simp only [moment?, Option.ite_none_right_eq_some, Option.some.injEq] at own
      obtain ⟨rfl, rfl⟩ := own
      simp [onContext, found (ready.imp_right fun allocates => allocates rfl), Moment.act]
  | dispatch cpu moved => cases own
  | running q allocated weight now =>
      simp only [moment?, Option.ite_none_right_eq_some, Option.some.injEq] at own
      obtain ⟨rfl, rfl⟩ := own
      simp [onContext, found (ready.imp_right fun allocates => allocates rfl), Moment.act]

/-- Only the moments in the life of a task enter its context. -/
theorem contextAfter_getD (ready : ctx ≠ none ∨ ∀ call ∈ calls, call.allocates p) :
    (contextAfter p ctx calls).getD zeroCtx =
      (moments p calls).foldl Moment.act (ctx.getD zeroCtx) := by
  induction calls generalizing ctx with
  | nil => rfl
  | cons call rest ih =>
      rw [contextAfter, List.foldl_cons, ← contextAfter, moments]
      cases own : call.moment? p with
      | none =>
          rw [Call.onContext_of_foreign own, List.filterMap_cons_none own]
          exact ih (ready.imp_right fun all other member =>
            all other (List.mem_cons_of_mem _ member))
      | some moment =>
          rw [Call.onContext_of_moment own (ready.imp_right fun all => all _ List.mem_cons_self),
            List.filterMap_cons_some own, List.foldl_cons]
          exact ih (Or.inl (Option.some_ne_none _))

/-! ## Virtual runtime and execution time -/

/-- How often the task was set running, which is how many of its executions are over by then. -/
def executions (p : Task) (calls : List (Call Task)) : Nat :=
  (moments p calls).countP Moment.isRan

/--
Right after each `s_running` of the task its virtual runtime is the weighted
time of its executions completed before.
-/
def MeasuresExecution (p : Task) (weight : UInt32) (rounds : List Round)
    (history : List (Transition (State Task) (Call Task))) : Prop :=
  ∀ front taken back, history = front ++ taken :: back →
    ∀ allocated now, taken.event = .running p allocated weight now →
      ∃ ctx, taken.target.taskCtxMap p = some ctx ∧
        ctx.vruntime.toNat = ((rounds.take (executions p (front.map Transition.event))).map
          (Round.executionCharge weight)).sum

/--
The first wait is charged nothing, and every later wait is charged as much as
the execution before it.
-/
def WaitsLikeExecutions (weight : UInt32) (rounds : List Round) : Prop :=
  (∀ first rest, rounds = first :: rest → first.waitCharge weight = 0) ∧
    ∀ done earlier later rest, rounds = done ++ earlier :: later :: rest →
      later.waitCharge weight = earlier.executionCharge weight

theorem Call.eq_of_ran {weight : UInt32} {now : UInt64}
    (own : call.moment? p = some (.ran weight now)) :
    ∃ allocated, call = .running p allocated weight now := by
  cases call with
  | enqueue q enqFlags allocated time =>
      simp only [moment?, Option.ite_none_right_eq_some, Option.some.injEq] at own
      cases own.2
  | dispatch cpu moved => cases own
  | running q allocated weight' time =>
      simp only [moment?, Option.ite_none_right_eq_some, Option.some.injEq] at own
      obtain ⟨rfl, same⟩ := own
      cases same
      exact ⟨allocated, rfl⟩

theorem lifecycles_append_cons (weight : UInt32) (done : List Round) (last : Round)
    (rest : List Round) :
    lifecycles weight (done ++ last :: rest) =
      (lifecycles weight done ++ [.enqueued last.enqueued]) ++
        .ran weight last.ran :: lifecycles weight rest := by
  rw [lifecycles, List.flatMap_append, ← lifecycles, ← lifecycles, lifecycles_cons,
    List.append_assoc, List.singleton_append]

theorem exists_split_of_running {weight : UInt32} {now : UInt64} {pre post : List Moment}
    (whole : moments p (history.map Transition.event) = pre ++ .ran weight now :: post) :
    ∃ front taken back, history = front ++ taken :: back ∧
      moments p (front.map Transition.event) = pre ∧
        taken.event.moment? p = some (.ran weight now) ∧
          moments p (back.map Transition.event) = post := by
  rw [moments, List.filterMap_map] at whole
  obtain ⟨front, taken, back, split, before, own, after⟩ := exists_split_of_filterMap whole
  refine ⟨front, taken, back, split, ?_, own, ?_⟩
  · rw [moments, List.filterMap_map]
    exact before
  · rw [moments, List.filterMap_map]
    exact after

theorem executions_of_lifecycles {weight : UInt32} {done : List Round} {now : UInt64}
    (before : moments p calls = lifecycles weight done ++ [.enqueued now]) :
    executions p calls = done.length := by
  rw [executions, before, List.countP_append, countP_isRan_lifecycles]
  rfl

theorem InOrder.waits_prefix {done rest : List Round} {last : Round}
    (ordered : InOrder (done ++ last :: rest)) :
    ∀ round ∈ done ++ [last], round.enqueued ≤ round.ran := by
  intro round member
  refine (ordered.within round ?_).1
  rw [List.append_cons]
  exact List.mem_append_left _ member

theorem NoOverflow.of_prefix {weight : UInt32} {done rest : List Round} {last : Round}
    (noOverflow : NoOverflow weight (done ++ last :: rest)) :
    NoOverflow weight (done ++ [last]) := by
  rw [List.append_cons] at noOverflow
  refine ⟨fun round member => noOverflow.charges round (List.mem_append_left _ member), ?_⟩
  have total := noOverflow.total
  rw [List.map_append, List.sum_append] at total
  exact Nat.lt_of_le_of_lt (Nat.le_add_right _ _) total

/-- A moment in the life of a task leaves what the moments up to it make of the first context. -/
theorem context_after_moment {front back : List (Transition (State Task) (Call Task))}
    {taken : Transition (State Task) (Call Task)} {moment : Moment}
    (run : Run Step start (front ++ taken :: back) s)
    (starts : StartsAtZero p (start.taskCtxMap p)
      ((front ++ taken :: back).map Transition.event))
    (own : taken.event.moment? p = some moment) :
    taken.target.taskCtxMap p =
      some (moment.act ((moments p (front.map Transition.event)).foldl Moment.act
        ((start.taskCtxMap p).getD zeroCtx))) := by
  obtain ⟨earlier, step, _⟩ := run.split
  have source := context_of_run earlier p
  have readyBefore : start.taskCtxMap p ≠ none ∨
      ∀ call ∈ front.map Transition.event, call.allocates p := by
    refine starts.allocated.imp_right fun all call member => all call ?_
    rw [List.map_append]
    exact List.mem_append_left _ member
  have ready : taken.source.taskCtxMap p ≠ none ∨ taken.event.allocates p := by
    rcases starts.allocated with present | all
    · rw [source]
      exact Or.inl (contextAfter_ne_none present _)
    · exact Or.inr (all _ (by simp))
  rw [step.context p, Call.onContext_of_moment own ready, source, contextAfter_getD readyBefore]

/-- Right after an `s_running` the virtual runtime is the weighted time waited so far. -/
theorem vruntime_of_running {front back : List (Transition (State Task) (Call Task))}
    {taken : Transition (State Task) (Call Task)} {weight : UInt32} {done : List Round}
    {last : Round} {allocated : Bool}
    (run : Run Step start (front ++ taken :: back) s) (nonzero : weight ≠ 0)
    (starts : StartsAtZero p (start.taskCtxMap p)
      ((front ++ taken :: back).map Transition.event))
    (ordered : ∀ round ∈ done ++ [last], round.enqueued ≤ round.ran)
    (noOverflow : NoOverflow weight (done ++ [last]))
    (isRunning : taken.event = .running p allocated weight last.ran)
    (before : moments p (front.map Transition.event) =
      lifecycles weight done ++ [.enqueued last.enqueued]) :
    ∃ ctx, taken.target.taskCtxMap p = some ctx ∧
      ctx.vruntime.toNat = ((done ++ [last]).map (Round.waitCharge weight)).sum := by
  have own : taken.event.moment? p = some (.ran weight last.ran) := by
    rw [isRunning, Call.moment?, if_pos rfl]
  have target := context_after_moment run starts own
  rw [before] at target
  refine ⟨_, target, ?_⟩
  have whole : ((lifecycles weight (done ++ [last])).foldl Moment.act
      ((start.taskCtxMap p).getD zeroCtx)).vruntime.toNat =
        ((start.taskCtxMap p).getD zeroCtx).vruntime.toNat +
          ((done ++ [last]).map (Round.waitCharge weight)).sum := by
    apply vruntime_lifecycles nonzero ordered noOverflow.charges
    rw [starts.zero, UInt64.toNat_zero, Nat.zero_add]
    exact noOverflow.total
  rw [starts.zero, UInt64.toNat_zero, Nat.zero_add, lifecycles_concat] at whole
  rw [← whole, List.foldl_append, List.foldl_append]
  rfl

/--
The virtual runtime of a task measures the time it executed exactly when its
first wait is charged nothing and each later wait as the execution before it.
-/
theorem measuresExecution_iff {weight : UInt32} {rounds : List Round}
    (run : Run Step start history s) (nonzero : weight ≠ 0)
    (starts : StartsAtZero p (start.taskCtxMap p) (history.map Transition.event))
    (ordered : InOrder rounds) (noOverflow : NoOverflow weight rounds)
    (follows : moments p (history.map Transition.event) = lifecycles weight rounds) :
    MeasuresExecution p weight rounds history ↔ WaitsLikeExecutions weight rounds := by
  rw [WaitsLikeExecutions, ← totals_agree_iff]
  constructor
  · rintro measures done last rest rfl
    rw [lifecycles_append_cons] at follows
    obtain ⟨front, taken, back, rfl, before, own, _⟩ := exists_split_of_running follows
    obtain ⟨allocated, isRunning⟩ := Call.eq_of_ran own
    obtain ⟨ctx, found, measured⟩ := measures front taken back rfl allocated last.ran isRunning
    obtain ⟨ctx', found', waited⟩ := vruntime_of_running run nonzero starts
      (ordered.waits_prefix) noOverflow.of_prefix isRunning before
    obtain rfl : ctx = ctx' := Option.some.inj (found.symm.trans found')
    rw [executions_of_lifecycles before, List.take_left, waited] at measured
    exact measured
  · rintro agree front taken back rfl allocated now isRunning
    have own : taken.event.moment? p = some (.ran weight now) := by
      rw [isRunning, Call.moment?, if_pos rfl]
    rw [List.map_append, List.map_cons, moments, List.filterMap_append,
      List.filterMap_cons_some own, ← moments] at follows
    obtain ⟨done, last, rest, rfl, before, rfl⟩ := lifecycles_split follows.symm
    obtain ⟨ctx, found, waited⟩ := vruntime_of_running run nonzero starts
      (ordered.waits_prefix) noOverflow.of_prefix isRunning before
    refine ⟨ctx, found, ?_⟩
    rw [executions_of_lifecycles before, List.take_left, waited]
    exact agree done last rest rfl

/-- A task waits 1000 ns, executes 500 ns, waits 1000 ns again and executes. -/
def twoRounds : List Round :=
  [⟨1, 1001, 1501⟩, ⟨2000, 3000, 4000⟩]

/-- The calls of these rounds. -/
def twoRoundCalls : List (Call Nat) :=
  [.enqueue 1 0 true 1, .dispatch 0 (some 1), .running 1 true 1024 1001,
    .enqueue 1 0 true 2000, .dispatch 0 (some 1), .running 1 true 1024 3000]

theorem twoRounds_run :
    Run Step fresh (trace perform fresh twoRoundCalls) (twoRoundCalls.foldl perform fresh) :=
  Run.of_trace step_perform (by decide)

theorem twoRounds_starts :
    StartsAtZero 1 (fresh.taskCtxMap 1)
      ((trace perform fresh twoRoundCalls).map Transition.event) where
  zero := rfl
  allocated := Or.inr (by simp [twoRoundCalls, trace, Call.allocates])

theorem twoRounds_noOverflow : NoOverflow 1024 twoRounds where
  charges := by decide
  total := by decide

theorem twoRounds_measuresExecution_iff :
    MeasuresExecution 1 1024 twoRounds (trace perform fresh twoRoundCalls) ↔
      WaitsLikeExecutions 1024 twoRounds :=
  measuresExecution_iff twoRounds_run (by decide) twoRounds_starts (by decide)
    twoRounds_noOverflow (by decide)

/-- The virtual runtime after the first `s_running` is 1000 although nothing has executed. -/
theorem wait_charged :
    ¬ ∀ (start s : State Nat) (history : List (Transition (State Nat) (Call Nat))) (p : Nat)
      (weight : UInt32) (rounds : List Round),
      Run Step start history s → weight ≠ 0 →
        StartsAtZero p (start.taskCtxMap p) (history.map Transition.event) →
          InOrder rounds → NoOverflow weight rounds →
            moments p (history.map Transition.event) = lifecycles weight rounds →
              MeasuresExecution p weight rounds history := by
  intro measures
  have measured := measures _ _ _ 1 1024 twoRounds twoRounds_run (by decide) twoRounds_starts
    (by decide) twoRounds_noOverflow (by decide)
  obtain ⟨ctx, found, charged⟩ :=
    measured ((trace perform fresh twoRoundCalls).take 2) _ _ rfl true 1001 rfl
  obtain rfl : ctx = ⟨1000, 1⟩ := Option.some.inj (found.symm.trans (by decide))
  exact absurd charged (by decide)

end SchedExt.Bpf.Fair
