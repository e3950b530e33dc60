import Mathlib.Data.Int.Order.Lemmas
import SchedExt.Bpf.FairHooks

/-!
# The increment of the virtual runtime in 64 bits

`calc_delta_vruntime` multiplies in 64 bits before it divides, so it is exact
for durations below 2⁵⁴ and for no other.  Along a run the duration of an
`s_running` is the time since the last enqueue, or since the clock was zero
where the hook itself creates the context.
-/

namespace SchedExt.Bpf.Fair

open SchedExt.Foundations

variable {Task : Type} [DecidableEq Task]
variable {s start : State Task} {p : Task}
variable {history : List (Transition (State Task) (Call Task))}

/-! ## The division of a wrapped product -/

/-- The weight by which a duration is divided. -/
def divisor (weight : UInt32) : Nat :=
  (if weight = 0 then nice0Weight else weight).toNat

theorem divisor_pos (weight : UInt32) : 0 < divisor weight := by
  unfold divisor
  split
  · exact Nat.zero_lt_succ 1023
  · rename_i nonzero
    exact Nat.pos_of_ne_zero fun zero => nonzero (UInt32.toNat_inj.mp zero)

theorem divisor_le (weight : UInt32) : divisor weight ≤ 2 ^ 32 :=
  (UInt32.toNat_lt _).le

/-- Reducing a dividend changes the quotient unless there was nothing to reduce. -/
theorem mod_div_eq_div_iff {dividend divisor modulus : Nat} (positive : 0 < divisor)
    (fits : divisor ≤ modulus) :
    dividend % modulus / divisor = dividend / divisor ↔ dividend < modulus := by
  constructor
  · intro same
    by_contra large
    have reduced : dividend % modulus + divisor ≤ dividend := by
      have parts := Nat.mod_add_div dividend modulus
      have counted := Nat.div_pos (Nat.not_lt.mp large) (positive.trans_le fits)
      have quotient := Nat.le_mul_of_pos_right modulus counted
      omega
    have less : (dividend % modulus + divisor) / divisor ≤ dividend / divisor :=
      Nat.div_le_div_right reduced
    rw [Nat.add_div_right _ positive] at less
    omega
  · intro small
    rw [Nat.mod_eq_of_lt small]

theorem toNat_calcDeltaVruntime_eq (wallNs : UInt64) (weight : UInt32) :
    (calcDeltaVruntime wallNs weight).toNat = wallNs.toNat * 1024 % 2 ^ 64 / divisor weight := by
  unfold calcDeltaVruntime divisor
  dsimp only
  rw [UInt64.toNat_div, UInt64.toNat_mul, UInt32.toNat_toUInt64]
  rfl

/-- The result is the exact quotient exactly for durations below 2⁵⁴. -/
theorem calcDeltaVruntime_exact_iff (wallNs : UInt64) (weight : UInt32) :
    (calcDeltaVruntime wallNs weight).toNat = wallNs.toNat * 1024 / divisor weight ↔
      wallNs.toNat < 2 ^ 54 := by
  have fits : divisor weight ≤ 2 ^ 64 := (divisor_le weight).trans (by decide)
  rw [toNat_calcDeltaVruntime_eq, mod_div_eq_div_iff (divisor_pos weight) fits]
  omega

/-- Longer durations are charged at least as much, for durations up to a limit. -/
def MonotoneUpTo (limit : UInt64) (weight : UInt32) : Prop :=
  ∀ shorter longer : UInt64, shorter ≤ longer → longer ≤ limit →
    calcDeltaVruntime shorter weight ≤ calcDeltaVruntime longer weight

/-- At each weight the first decrease is at 2⁵⁴. -/
theorem monotoneUpTo_iff (limit : UInt64) (weight : UInt32) :
    MonotoneUpTo limit weight ↔ limit.toNat < 2 ^ 54 := by
  constructor
  · intro monotone
    by_contra large
    have reached : (2 ^ 54 : UInt64) ≤ limit := UInt64.le_iff_toNat_le.mpr (Nat.not_lt.mp large)
    have kept := UInt64.le_iff_toNat_le.mp (monotone (2 ^ 54 - 1) (2 ^ 54) (by decide) reached)
    rw [toNat_calcDeltaVruntime_eq, toNat_calcDeltaVruntime_eq] at kept
    have wrapped : (2 ^ 54 : UInt64).toNat * 1024 % 2 ^ 64 = 0 := by decide
    have whole : (2 ^ 54 - 1 : UInt64).toNat * 1024 % 2 ^ 64 = 2 ^ 64 - 1024 := by decide
    rw [wrapped, whole, Nat.zero_div] at kept
    have small : divisor weight ≤ 2 ^ 64 - 1024 := (divisor_le weight).trans (by decide)
    have positive := Nat.div_pos small (divisor_pos weight)
    omega
  · intro small shorter longer order within
    rw [UInt64.le_iff_toNat_le] at order within ⊢
    rw [(calcDeltaVruntime_exact_iff shorter weight).mpr (by omega),
      (calcDeltaVruntime_exact_iff longer weight).mpr (by omega)]
    exact Nat.div_le_div_right (Nat.mul_le_mul_right 1024 order)

/-- A heavier task is charged at most as much, for every duration. -/
theorem calcDeltaVruntime_antitone (wallNs : UInt64) {lighter heavier : UInt32}
    (positive : 0 < lighter) (order : lighter ≤ heavier) :
    calcDeltaVruntime wallNs heavier ≤ calcDeltaVruntime wallNs lighter := by
  have heavierPositive : 0 < heavier := UInt32.lt_of_lt_of_le positive order
  have divisors : divisor lighter ≤ divisor heavier := by
    unfold divisor
    rw [if_neg (UInt32.ne_of_lt positive).symm, if_neg (UInt32.ne_of_lt heavierPositive).symm]
    exact UInt32.le_iff_toNat_le.mp order
  rw [UInt64.le_iff_toNat_le, toNat_calcDeltaVruntime_eq, toNat_calcDeltaVruntime_eq]
  exact Nat.div_le_div_left divisors (divisor_pos lighter)

/-! ## Increments along a run -/

/-- The increment in unbounded integers. -/
def exactIncrement (enqueueTime now : UInt64) (weight : UInt32) : Int :=
  ((now.toNat : Int) - enqueueTime.toNat) * nice0Weight.toNat / divisor weight

/-- At a time not before the enqueue time the charge is exact within 2⁵⁴ ns of it. -/
theorem charge_exact_iff {enqueueTime now : UInt64} (past : enqueueTime.toNat ≤ now.toNat)
    (weight : UInt32) :
    ((calcDeltaVruntime (now - enqueueTime) weight).toNat : Int) =
        exactIncrement enqueueTime now weight ↔
      now.toNat < enqueueTime.toNat + 2 ^ 54 := by
  have duration : (now - enqueueTime).toNat = now.toNat - enqueueTime.toNat :=
    UInt64.toNat_sub_of_le _ _ (UInt64.le_iff_toNat_le.mpr past)
  have quotient : exactIncrement enqueueTime now weight =
      ((now - enqueueTime).toNat * 1024 / divisor weight : Nat) := by
    unfold exactIncrement
    rw [duration, Int.natCast_ediv, Int.natCast_mul, Int.natCast_sub past]
    rfl
  rw [quotient, Int.natCast_inj, calcDeltaVruntime_exact_iff, duration]
  omega

/-- What `s_running` adds to the virtual runtime of the task is the exact increment. -/
def AddsExactly (p : Task) (taken : Transition (State Task) (Call Task)) : Prop :=
  ∀ allocated weight now, taken.event = .running p allocated weight now →
    ∀ ctx after, obtained (taken.source.taskCtxMap p) allocated = some ctx →
      taken.target.taskCtxMap p = some after →
        ((after.vruntime - ctx.vruntime).toNat : Int) = exactIncrement ctx.enqueueTime now weight

/-- An `s_running` of the task comes less than 2⁵⁴ ns after the recorded enqueue time. -/
def RunsSoon (p : Task) (taken : Transition (State Task) (Call Task)) : Prop :=
  ∀ allocated weight now, taken.event = .running p allocated weight now →
    ∀ ctx, obtained (taken.source.taskCtxMap p) allocated = some ctx →
      now.toNat < ctx.enqueueTime.toNat + 2 ^ 54

theorem obtained_cases {ctx : Option TaskCtx} {allocated : Bool} {found : TaskCtx}
    (obtains : obtained ctx allocated = some found) :
    ctx = some found ∨ found.enqueueTime = 0 := by
  cases ctx with
  | some present => exact Or.inl obtains
  | none =>
      unfold obtained at obtains
      dsimp only at obtains
      split at obtains
      · cases obtains
        exact Or.inr rfl
      · cases obtains

/-- A call keeps the enqueue time, writes the time that it reads, or starts at zero. -/
theorem Call.enqueueTime_cases {ctx : Option TaskCtx} {call : Call Task} {after : TaskCtx}
    (written : call.onContext p ctx = some after) :
    after.enqueueTime = 0 ∨ call.time? = some after.enqueueTime ∨
      ∃ old, ctx = some old ∧ old.enqueueTime = after.enqueueTime := by
  cases call with
  | dispatch cpu moved => exact Or.inr (Or.inr ⟨after, written, rfl⟩)
  | enqueue q enqFlags allocated now =>
      unfold Call.onContext at written
      dsimp only at written
      split at written
      · obtain ⟨old, _, rfl⟩ := Option.map_eq_some_iff.mp written
        exact Or.inr (Or.inl rfl)
      · exact Or.inr (Or.inr ⟨after, written, rfl⟩)
  | running q allocated weight now =>
      unfold Call.onContext at written
      dsimp only at written
      split at written
      · obtain ⟨old, obtains, rfl⟩ := Option.map_eq_some_iff.mp written
        rcases obtained_cases obtains with present | zero
        · exact Or.inr (Or.inr ⟨old, present, rfl⟩)
        · exact Or.inl zero
      · exact Or.inr (Or.inr ⟨after, written, rfl⟩)

/-- The recorded enqueue time is zero or a time that a hook has read. -/
theorem enqueueTime_read {calls : List (Call Task)} {ctx : TaskCtx}
    (found : contextAfter p none calls = some ctx) :
    ctx.enqueueTime = 0 ∨ ctx.enqueueTime ∈ calls.filterMap Call.time? := by
  induction calls using List.reverseRecOn generalizing ctx with
  | nil => cases found
  | append_singleton calls call ih =>
      rw [contextAfter_concat] at found
      rw [List.filterMap_append, List.mem_append]
      rcases call.enqueueTime_cases found with zero | read | ⟨old, before, same⟩
      · exact Or.inl zero
      · exact Or.inr (Or.inr (List.mem_filterMap.mpr ⟨call, List.mem_singleton.mpr rfl, read⟩))
      · rw [← same]
        exact (ih before).imp_right Or.inl

/-- The clock is not behind the enqueue time that an `s_running` finds. -/
theorem enqueueTime_le {taken : Transition (State Task) (Call Task)}
    (run : Run Step start history s) (unknown : start.taskCtxMap p = none)
    (clock : Nondecreasing (history.map Transition.event)) (member : taken ∈ history)
    {allocated : Bool} {weight : UInt32} {now : UInt64} {ctx : TaskCtx}
    (called : taken.event = .running p allocated weight now)
    (obtains : obtained (taken.source.taskCtxMap p) allocated = some ctx) :
    ctx.enqueueTime.toNat ≤ now.toNat := by
  obtain ⟨front, back, rfl⟩ := List.append_of_mem member
  obtain ⟨earlier, _, _⟩ := run.split
  have bounded : ctx.enqueueTime = 0 ∨
      ctx.enqueueTime ∈ (front.map Transition.event).filterMap Call.time? := by
    rcases obtained_cases obtains with present | zero
    · rw [context_of_run earlier p, unknown] at present
      exact enqueueTime_read present
    · exact Or.inl zero
  rcases bounded with zero | read
  · rw [zero]
    exact Nat.zero_le _
  · unfold Nondecreasing at clock
    rw [List.map_append, List.filterMap_append, List.map_cons, called] at clock
    have reads : now ∈ (Call.running p allocated weight now ::
        back.map Transition.event).filterMap Call.time? :=
      List.mem_filterMap.mpr ⟨_, List.mem_cons_self .., rfl⟩
    exact UInt64.le_iff_toNat_le.mp ((List.pairwise_append.mp clock).2.2 _ read now reads)

/-- What one `s_running` adds is exact exactly when it runs soon enough. -/
theorem addsExactly_iff {taken : Transition (State Task) (Call Task)}
    (step : Step taken.source taken.event taken.target)
    (ordered : ∀ allocated weight now, taken.event = .running p allocated weight now →
      ∀ ctx, obtained (taken.source.taskCtxMap p) allocated = some ctx →
        ctx.enqueueTime.toNat ≤ now.toNat) :
    AddsExactly p taken ↔ RunsSoon p taken := by
  unfold AddsExactly RunsSoon
  refine forall_congr' fun allocated => forall_congr' fun weight => forall_congr' fun now =>
    forall_congr' fun called => forall_congr' fun ctx => ?_
  have context := step.context p
  rw [called] at context
  unfold Call.onContext at context
  dsimp only at context
  rw [if_pos rfl] at context
  have each (obtains : obtained (taken.source.taskCtxMap p) allocated = some ctx) :
      (∀ after, taken.target.taskCtxMap p = some after →
        ((after.vruntime - ctx.vruntime).toNat : Int) =
          exactIncrement ctx.enqueueTime now weight) ↔
        now.toNat < ctx.enqueueTime.toNat + 2 ^ 54 := by
    have past := ordered allocated weight now called ctx obtains
    rw [obtains, Option.map_some] at context
    rw [← charge_exact_iff past weight]
    constructor
    · intro adds
      have added := adds _ context
      rw [UInt64.add_comm, UInt64.add_sub_cancel] at added
      exact added
    · intro charged after found
      rw [context] at found
      obtain rfl := Option.some.inj found
      rw [UInt64.add_comm, UInt64.add_sub_cancel]
      exact charged
  constructor
  · intro adds obtains
    exact (each obtains).mp fun after found => adds after obtains found
  · intro soon after obtains found
    exact (each obtains).mpr (soon obtains) after found

/--
In a run of a task without a context the increments are exact exactly when every
`s_running` comes soon enough.  Durations are charged monotonically up to a limit
exactly when no duration within it is too long, weights antitonically throughout.
-/
theorem incrementsExact_iff (run : Run Step start history s)
    (unknown : start.taskCtxMap p = none)
    (clock : Nondecreasing (history.map Transition.event)) :
    ((∀ taken ∈ history, AddsExactly p taken) ↔ ∀ taken ∈ history, RunsSoon p taken) ∧
    (∀ limit weight, MonotoneUpTo limit weight ↔ limit.toNat < 2 ^ 54) ∧
    ∀ wallNs (lighter heavier : UInt32), 0 < lighter → lighter ≤ heavier →
      calcDeltaVruntime wallNs heavier ≤ calcDeltaVruntime wallNs lighter := by
  refine ⟨forall₂_congr fun taken member => ?_, monotoneUpTo_iff, fun wallNs lighter heavier =>
    calcDeltaVruntime_antitone wallNs⟩
  exact addsExactly_iff (run.steps taken member) fun _ _ _ called _ obtains =>
    enqueueTime_le run unknown clock member called obtains

/-- The task runs 1000 ns after its enqueue, and again at the same weight of zero. -/
def soonCalls : List (Call Nat) :=
  [.enqueue 1 0 true 5, .running 1 true 1024 1005, .enqueue 1 0 true 2000, .running 1 true 0 2007]

theorem soonCalls_exact :
    ((∀ taken ∈ trace perform fresh soonCalls, AddsExactly 1 taken) ↔
      ∀ taken ∈ trace perform fresh soonCalls, RunsSoon 1 taken) ∧
    (∀ limit weight, MonotoneUpTo limit weight ↔ limit.toNat < 2 ^ 54) ∧
    ∀ wallNs (lighter heavier : UInt32), 0 < lighter → lighter ≤ heavier →
      calcDeltaVruntime wallNs heavier ≤ calcDeltaVruntime wallNs lighter :=
  incrementsExact_iff (Run.of_trace step_perform (by decide)) rfl (by decide)

/-- The first call on the task sets it running when the clock is at 2⁵⁴ ns. -/
def lateCalls : List (Call Nat) :=
  [.running 1 true 1024 18014398509481984]

theorem lateCalls_notExact :
    Run Step fresh (trace perform fresh lateCalls) (lateCalls.foldl perform fresh) ∧
      Nondecreasing ((trace perform fresh lateCalls).map Transition.event) ∧
      ¬ ∀ taken ∈ trace perform fresh lateCalls, AddsExactly 1 taken := by
  have run : Run Step fresh (trace perform fresh lateCalls) (lateCalls.foldl perform fresh) :=
    Run.of_trace step_perform (by decide)
  refine ⟨run, by decide, ?_⟩
  intro adds
  have added := adds _ (List.mem_singleton.mpr rfl) true 1024 18014398509481984 rfl _ _ rfl rfl
  revert added
  decide

end SchedExt.Bpf.Fair
