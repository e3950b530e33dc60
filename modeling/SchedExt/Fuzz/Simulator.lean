import Mathlib.Data.Finset.Basic
import Mathlib.Data.List.MinMax
import SchedExt.Domain.State
import SchedExt.Foundations.Dict

/-!
# The simulated scheduler of the fuzzer

Events update a dictionary of tasks and a clock that advances by 1 ms with
every event.  The checker groups the virtual runtimes of the runnable tasks by
weight, compares the extremes of every group, and looks at every waiting time.
-/

namespace SchedExt.Fuzz

open Domain Foundations

structure FuzzTask where
  vruntime : Nat
  weight : Nat
  state : TaskState
  enqueueTime : Nat
  deriving DecidableEq

structure FuzzState where
  tasks : Dict Nat FuzzTask
  clock : Nat
  activePids : Finset Nat
  activeCpus : Finset Nat

inductive FuzzEvent where
  | enqueue (pid vruntime weight : Nat) (flags : EnqueueFlags)
  | dispatch (cpu : Nat)
  | tick (cpu : Nat)
  | taskDead (pid : Nat)
  | cpuOffline (cpu : Nat)
  | cpuOnline (cpu : Nat)
  deriving DecidableEq

/-- The values that `generate_event` draws. -/
def FuzzEvent.Shaped : FuzzEvent → Prop
  | .enqueue pid _ weight _ => 1 ≤ pid ∧ 1 ≤ weight ∧ weight ≤ 1024
  | .taskDead pid => 1 ≤ pid
  | _ => True

/-- The runnable tasks, in the order of the dictionary. -/
def FuzzState.runnable (state : FuzzState) : List (Nat × FuzzTask) :=
  state.tasks.entries.filter fun entry => entry.2.state = .runnable

/-- The runnable task of least virtual runtime is charged and requeued. -/
def FuzzState.dispatched (state : FuzzState) : FuzzState :=
  match state.runnable.argmin fun entry => entry.2.vruntime with
  | none => state
  | some (pid, task) =>
      let delta := 1000000 * 1024 / max task.weight 1
      let charged :=
        { task with vruntime := task.vruntime + delta, enqueueTime := state.clock }
      { state with tasks := state.tasks.set pid charged }

/-- `_apply_event` -/
def applyEvent (state : FuzzState) (event : FuzzEvent) : FuzzState :=
  let state := { state with clock := state.clock + 1000000 }
  match event with
  | .enqueue pid vruntime weight _ =>
      { state with
        tasks := state.tasks.set pid
          { vruntime := vruntime
            weight := weight
            state := .runnable
            enqueueTime := state.clock }
        activePids := insert pid state.activePids }
  | .dispatch _ => state.dispatched
  | .tick _ => state
  | .taskDead pid =>
      if pid ≠ 0 ∧ state.tasks.contains pid then
        { state with
          tasks := state.tasks.erase pid
          activePids := state.activePids.erase pid }
      else state
  | .cpuOffline cpu => { state with activeCpus := state.activeCpus.erase cpu }
  | .cpuOnline cpu => { state with activeCpus := insert cpu state.activeCpus }

/-! ## The checker -/

/-- `vruntimes_by_weight` -/
def vruntimesByWeight (runnable : List (Nat × FuzzTask)) : Dict Nat (List Nat) :=
  runnable.foldl (fun groups entry =>
    let vruntimes := (groups.get? entry.2.weight).getD []
    groups.set entry.2.weight (vruntimes ++ [entry.2.vruntime])) Dict.empty

def maximum (vruntimes : List Nat) : Nat := vruntimes.max?.getD 0

def minimum (vruntimes : List Nat) : Nat := vruntimes.min?.getD 0

def checkGroup (group : Nat × List Nat) : Option String :=
  let divergence := maximum group.2 - minimum group.2
  if group.2.length ≥ 2 ∧ divergence > 10000000 then
    some s!"Fairness violated: weight={group.1}, max_divergence={divergence}ns > 10ms"
  else none

def checkFairness (runnable : List (Nat × FuzzTask)) : List String :=
  if runnable.length ≥ 2 then
    (vruntimesByWeight runnable).entries.filterMap checkGroup
  else []

def FuzzTask.wait (task : FuzzTask) (clock : Nat) : Int := clock - task.enqueueTime

def checkWait (clock : Nat) (entry : Nat × FuzzTask) : Option String :=
  let wait := entry.2.wait clock
  if wait > 500000000 then
    some s!"Starvation: pid={entry.1} waiting {wait}ns > 500ms"
  else none

def checkInvariants (state : FuzzState) : List String :=
  checkFairness state.runnable ++ state.runnable.filterMap (checkWait state.clock)

/-! ## What the checker reports -/

/-- The virtual runtimes of the tasks of a weight. -/
def vruntimesOf (weight : Nat) (runnable : List (Nat × FuzzTask)) : List Nat :=
  (runnable.filter fun entry => entry.2.weight = weight).map fun entry => entry.2.vruntime

theorem mem_vruntimesOf {weight vruntime : Nat} {runnable : List (Nat × FuzzTask)} :
    vruntime ∈ vruntimesOf weight runnable ↔
      ∃ entry ∈ runnable, entry.2.weight = weight ∧ entry.2.vruntime = vruntime := by
  simp [vruntimesOf, and_assoc]

/-- Every group holds the virtual runtimes of its weight. -/
theorem get?_vruntimesByWeight (weight : Nat) (runnable : List (Nat × FuzzTask)) :
    (vruntimesByWeight runnable).get? weight =
      if vruntimesOf weight runnable = [] then none else some (vruntimesOf weight runnable) := by
  induction runnable using List.reverseRecOn with
  | nil => rfl
  | append_singleton front entry ih =>
      have added : vruntimesByWeight (front ++ [entry]) =
          (vruntimesByWeight front).set entry.2.weight
            (((vruntimesByWeight front).get? entry.2.weight).getD [] ++ [entry.2.vruntime]) := by
        rw [vruntimesByWeight, List.foldl_append]
        rfl
      have whole : vruntimesOf weight (front ++ [entry]) = vruntimesOf weight front ++
          if entry.2.weight = weight then [entry.2.vruntime] else [] := by
        rw [vruntimesOf, List.filter_append, List.map_append]
        by_cases same : entry.2.weight = weight
        · simp [vruntimesOf, same]
        · simp [vruntimesOf, same]
      rw [added, whole]
      by_cases same : entry.2.weight = weight
      · have present : vruntimesOf weight front ++ [entry.2.vruntime] ≠ [] :=
          List.append_ne_nil_of_right_ne_nil _ (List.cons_ne_nil _ _)
        rw [if_pos same, same, Dict.get?_set_self, ih, if_neg present]
        by_cases absent : vruntimesOf weight front = []
        · rw [if_pos absent, absent]
          rfl
        · rw [if_neg absent]
          rfl
      · rw [if_neg same, List.append_nil, Dict.get?_set_of_ne _ (Ne.symm same), ih]

theorem divergence_le_iff {vruntimes : List Nat} (present : vruntimes ≠ []) (bound : Nat) :
    maximum vruntimes - minimum vruntimes ≤ bound ↔
      ∀ first ∈ vruntimes, ∀ second ∈ vruntimes, first ≤ second + bound := by
  obtain ⟨greatest, maxEq⟩ := Option.isSome_iff_exists.mp
    (Option.isSome_iff_ne_none.mpr fun none => present (List.max?_eq_none_iff.mp none))
  obtain ⟨least, minEq⟩ := Option.isSome_iff_exists.mp
    (Option.isSome_iff_ne_none.mpr fun none => present (List.min?_eq_none_iff.mp none))
  obtain ⟨greatestMember, above⟩ := List.max?_eq_some_iff.mp maxEq
  obtain ⟨leastMember, below⟩ := List.min?_eq_some_iff.mp minEq
  rw [maximum, minimum, maxEq, minEq, Option.getD_some, Option.getD_some, Nat.sub_le_iff_le_add']
  constructor
  · intro within first firstMember second secondMember
    exact (above first firstMember).trans (within.trans
      (Nat.add_le_add_right (below second secondMember) bound))
  · intro each
    exact each greatest greatestMember least leastMember

/-- The groups are the virtual runtimes of the weights that occur. -/
theorem mem_vruntimesByWeight {group : Nat × List Nat} {runnable : List (Nat × FuzzTask)} :
    group ∈ (vruntimesByWeight runnable).entries ↔
      group.2 = vruntimesOf group.1 runnable ∧ group.2 ≠ [] := by
  obtain ⟨weight, vruntimes⟩ := group
  rw [← Dict.get?_eq_some_iff, get?_vruntimesByWeight]
  constructor
  · intro known
    split at known
    · cases known
    · rename_i present
      obtain rfl := Option.some.inj known
      exact ⟨rfl, present⟩
  · intro ⟨whole, present⟩
    change vruntimes = vruntimesOf weight runnable at whole
    rw [← whole]
    exact if_neg present

/-- A group is not reported when its virtual runtimes are within the bound of each other. -/
theorem checkGroup_eq_none_iff {group : Nat × List Nat} (present : group.2 ≠ []) :
    checkGroup group = none ↔
      ∀ first ∈ group.2, ∀ second ∈ group.2, first ≤ second + 10000000 := by
  unfold checkGroup
  dsimp only
  by_cases many : 2 ≤ group.2.length
  · rw [← divergence_le_iff present]
    constructor
    · intro silent
      by_contra beyond
      rw [if_pos ⟨many, Nat.lt_of_not_le beyond⟩] at silent
      cases silent
    · intro within
      exact if_neg fun reported => Nat.not_lt.mpr within reported.2
  · obtain ⟨only, whole⟩ : ∃ only, group.2 = [only] := by
      refine List.length_eq_one_iff.mp (Nat.le_antisymm (by omega) ?_)
      exact List.length_pos_of_ne_nil present
    refine iff_of_true (if_neg fun reported => many reported.1) ?_
    intro first firstIn second secondIn
    rw [whole, List.mem_singleton] at firstIn secondIn
    rw [firstIn, secondIn]
    exact Nat.le_add_right _ _

/-- Virtual runtimes of equal weight are within the bound of each other. -/
def WithinBound (runnable : List (Nat × FuzzTask)) : Prop :=
  ∀ first ∈ runnable, ∀ second ∈ runnable, first.2.weight = second.2.weight →
    first.2.vruntime ≤ second.2.vruntime + 10000000

theorem checkFairness_eq_nil_iff {runnable : List (Nat × FuzzTask)} :
    checkFairness runnable = [] ↔ WithinBound runnable := by
  unfold checkFairness
  split
  · rw [List.filterMap_eq_nil_iff]
    constructor
    · intro silent first firstMember second secondMember same
      have firstIn : first.2.vruntime ∈ vruntimesOf second.2.weight runnable :=
        mem_vruntimesOf.mpr ⟨first, firstMember, same, rfl⟩
      have secondIn : second.2.vruntime ∈ vruntimesOf second.2.weight runnable :=
        mem_vruntimesOf.mpr ⟨second, secondMember, rfl, rfl⟩
      have present := List.ne_nil_of_mem firstIn
      have unreported := silent (second.2.weight, vruntimesOf second.2.weight runnable)
        (mem_vruntimesByWeight.mpr ⟨rfl, present⟩)
      exact (checkGroup_eq_none_iff present).mp unreported _ firstIn _ secondIn
    · intro within group member
      obtain ⟨whole, present⟩ := mem_vruntimesByWeight.mp member
      apply (checkGroup_eq_none_iff present).mpr
      rw [whole]
      intro first firstIn second secondIn
      obtain ⟨one, oneMember, oneWeight, rfl⟩ := mem_vruntimesOf.mp firstIn
      obtain ⟨other, otherMember, otherWeight, rfl⟩ := mem_vruntimesOf.mp secondIn
      exact within one oneMember other otherMember (oneWeight.trans otherWeight.symm)
  · rename_i few
    refine iff_of_true rfl fun first firstMember second secondMember _ => ?_
    have alone : runnable.length ≤ 1 := Nat.le_of_lt_succ (Nat.not_le.mp few)
    obtain ⟨only, rfl⟩ : ∃ only, runnable = [only] :=
      List.length_eq_one_iff.mp (Nat.le_antisymm alone (List.length_pos_of_mem firstMember))
    rw [List.mem_singleton.mp firstMember, List.mem_singleton.mp secondMember]
    exact Nat.le_add_right _ _

theorem checkWait_eq_none_iff {clock : Nat} {entry : Nat × FuzzTask} :
    checkWait clock entry = none ↔ entry.2.wait clock ≤ 500000000 := by
  unfold checkWait
  constructor
  · intro silent
    by_contra longer
    rw [if_pos (Int.lt_of_not_ge longer)] at silent
    exact nomatch silent
  · intro within
    exact if_neg (Int.not_lt.mpr within)

theorem checkInvariants_eq_nil_iff {state : FuzzState} :
    checkInvariants state = [] ↔
      WithinBound state.runnable ∧
        ∀ entry ∈ state.runnable, entry.2.wait state.clock ≤ 500000000 := by
  rw [checkInvariants, List.append_eq_nil_iff, checkFairness_eq_nil_iff,
    List.filterMap_eq_nil_iff]
  exact and_congr_right fun _ => forall₂_congr fun _ _ => checkWait_eq_none_iff

end SchedExt.Fuzz
