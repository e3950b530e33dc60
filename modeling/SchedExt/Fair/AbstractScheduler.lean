import Mathlib.Data.Fintype.EquivFin
import SchedExt.Fair.Types

/-!
# The abstract fair scheduler

The nondeterministic specification.  In its `Dispatch` an unparenthesised
implication follows three conjuncts and so takes all of them as its premise:
where the premise fails, the action admits every successor state.
-/

namespace SchedExt.Fair.AbstractScheduler

open SchedExt.Domain

structure Init (s : SchedState) : Prop where
  noTasks : s.allTasks = ∅
  clockZero : s.clock = 0
  someCpu : s.activeCpus.card > 0
  valid : ValidState s

/-- A task becomes runnable and is added to the scheduler; the flags are not used. -/
structure Enqueue (s s' : SchedState) (t : Task) (flags : EnqueueFlags) : Prop where
  validBefore : ValidState s
  validTask : ValidTask t
  runnable : t.state = .runnable
  allTasks : s'.allTasks = s.allTasks ∪ {t.stamped s.clock}
  clock : s'.clock = s.clock + 1
  activeCpus : s'.activeCpus = s.activeCpus
  validAfter : ValidState s'

/-- What stands before the implication of `Dispatch`. -/
def DispatchPremise (s : SchedState) (cpu : Nat) : Prop :=
  ValidState s ∧ cpu ∈ s.activeCpus ∧ ∃ t ∈ s.allTasks, t.state = .runnable

/-- What stands after the implication of `Dispatch`. -/
structure DispatchConclusion (s s' : SchedState) (chosen : Option Task) : Prop where
  chooses : chosen.isSome
  fromTasks : ∀ t, chosen = some t → t ∈ s.allTasks ∧ t.state = .runnable
  clock : s'.clock = s.clock + 1
  validAfter : ValidState s'

/-- `Dispatch`, where `&&` binds more tightly than `==>`. -/
def Dispatch (s s' : SchedState) (cpu : Nat) (chosen : Option Task) : Prop :=
  DispatchPremise s cpu → DispatchConclusion s s' chosen

/-- Time advances. -/
structure Tick (s s' : SchedState) (cpu : Nat) : Prop where
  validBefore : ValidState s
  active : cpu ∈ s.activeCpus
  clock : s'.clock = s.clock + 1
  activeCpus : s'.activeCpus = s.activeCpus
  validAfter : ValidState s'

def Next (s s' : SchedState) : Prop :=
  (∃ t f, Enqueue s s' t f) ∨ (∃ cpu chosen, Dispatch s s' cpu chosen) ∨
    ∃ cpu, Tick s s' cpu

def SafetyInvariant (s : SchedState) : Prop :=
  Fairness s ∧ NoStarvation s

/-! ## What the transition relation constrains -/

/-- A disjunct of `Next` with its existentially quantified arguments. -/
inductive Action where
  | enqueue (t : Task) (flags : EnqueueFlags)
  | dispatch (cpu : Nat) (chosen : Option Task)
  | tick (cpu : Nat)

def Action.Holds (s s' : SchedState) : Action → Prop
  | .enqueue t flags => Enqueue s s' t flags
  | .dispatch cpu chosen => Dispatch s s' cpu chosen
  | .tick cpu => Tick s s' cpu

/-- What every step is meant to satisfy. -/
structure Constrained (s s' : SchedState) : Prop where
  validBefore : ValidState s
  validAfter : ValidState s'
  clock : s'.clock = s.clock + 1

/-- The states before the step in which a disjunct constrains the state after it. -/
def Action.Guarded (s : SchedState) : Action → Prop
  | .enqueue _ _ => True
  | .dispatch cpu _ => DispatchPremise s cpu
  | .tick _ => True

theorem next_iff_action (s s' : SchedState) :
    Next s s' ↔ ∃ action : Action, action.Holds s s' := by
  constructor
  · rintro (⟨t, f, holds⟩ | ⟨cpu, chosen, holds⟩ | ⟨cpu, holds⟩)
    · exact ⟨.enqueue t f, holds⟩
    · exact ⟨.dispatch cpu chosen, holds⟩
    · exact ⟨.tick cpu, holds⟩
  · rintro ⟨action, holds⟩
    cases action with
    | enqueue t f => exact Or.inl ⟨t, f, holds⟩
    | dispatch cpu chosen => exact Or.inr (Or.inl ⟨cpu, chosen, holds⟩)
    | tick cpu => exact Or.inr (Or.inr ⟨cpu, holds⟩)

/-- No step leads from a state to itself in the intended sense. -/
theorem not_constrained_self (s : SchedState) : ¬ Constrained s s := fun constrained =>
  Nat.succ_ne_self s.clock constrained.clock.symm

theorem Action.constrains_iff (s : SchedState) (action : Action) :
    (∀ s', action.Holds s s' → Constrained s s') ↔ action.Guarded s := by
  cases action with
  | enqueue t flags =>
      exact ⟨fun _ => trivial, fun _ s' holds =>
        ⟨holds.validBefore, holds.validAfter, holds.clock⟩⟩
  | dispatch cpu chosen =>
      constructor
      · intro constrains
        by_contra unguarded
        exact not_constrained_self s (constrains s fun premise => absurd premise unguarded)
      · intro guarded s' holds
        have conclusion := holds guarded
        exact ⟨guarded.1, conclusion.validAfter, conclusion.clock⟩
  | tick cpu =>
      exact ⟨fun _ => trivial, fun _ s' holds =>
        ⟨holds.validBefore, holds.validAfter, holds.clock⟩⟩

/-- On an inactive CPU `Dispatch` admits every successor of every state. -/
theorem next_of_inactive {s : SchedState} (cpu : Nat) (inactive : cpu ∉ s.activeCpus)
    (s' : SchedState) : Next s s' :=
  (next_iff_action s s').mpr
    ⟨.dispatch cpu none, fun premise => absurd premise.2.1 inactive⟩

/--
A disjunct of `Next` constrains its steps exactly in the states that meet the
premise of `Dispatch`, if it is one.  As some CPU is always inactive, `Next`
itself constrains the steps from no state at all.
-/
theorem next_constrains_iff_guarded (s : SchedState) :
    (∀ action : Action, (∀ s', action.Holds s s' → Constrained s s') ↔ action.Guarded s) ∧
      ¬ ∀ s', Next s s' → Constrained s s' := by
  refine ⟨Action.constrains_iff s, ?_⟩
  intro constrains
  obtain ⟨cpu, inactive⟩ := Infinite.exists_notMem_finset s.activeCpus
  exact not_constrained_self s (constrains s (next_of_inactive cpu inactive s))

/-- One idle CPU before any call. -/
def oneCpu : SchedState where
  runQueues := Finmap.singleton 0 ⟨0, [], 0⟩
  allTasks := ∅
  clock := 0
  activeCpus := {0}

/-- From one idle CPU the clock may jump, by a dispatch on a CPU that is not there. -/
theorem next_unconstrained_oneCpu :
    ¬ ∀ s s' : SchedState, Next s s' → Constrained s s' := by
  intro constrains
  have jump : Next oneCpu { oneCpu with clock := 7 } :=
    next_of_inactive 1 (by decide) _
  have one := (constrains _ _ jump).clock
  exact absurd one (by decide)

end SchedExt.Fair.AbstractScheduler
