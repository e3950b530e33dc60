import Mathlib.Data.Finset.Sort
import SchedExt.Fuzz.Simulator

/-!
# The events that the fuzzer draws

A draw is a number of the random generator: an index of `random.choice`, the
value of `random.randint`, or the outcome of a comparison.  A draw outside of
its range is none that the generator can give.
-/

namespace SchedExt.Fuzz

open Domain Foundations

/-- The keys of the weights that `__post_init__` provides. -/
def eventNames : List String :=
  ["enqueue", "dispatch", "tick", "task_dead", "cpu_offline", "cpu_online"]

/-- `FuzzConfig`, of `event_weights` the keys. -/
structure FuzzConfig where
  maxTasks : Nat := 50
  maxCpus : Nat := 8
  maxWeight : Nat := 1024
  minWeight : Nat := 1
  events : List String := eventNames

/-- `random.randint(low, high)` -/
def randint (low high : Nat) : List Nat → Option (Nat × List Nat)
  | [] => none
  | value :: draws => if low ≤ value ∧ value ≤ high then some (value, draws) else none

/-- `random.choice(options)` -/
def choice {α : Type} (options : List α) : List Nat → Option (α × List Nat)
  | [] => none
  | index :: draws => options[index]?.map fun option => (option, draws)

/-- `sorted(set(range(max_cpus)) - active_cpus)` -/
def offlineCpus (config : FuzzConfig) (activeCpus : Finset Nat) : List Nat :=
  (Finset.range config.maxCpus \ activeCpus).sort

def generateEnqueue (config : FuzzConfig) (draws : List Nat) : Option (FuzzEvent × List Nat) := do
  let (pid, draws) ← randint 1 (config.maxTasks * 10) draws
  let (vruntime, draws) ← randint 0 100000000 draws
  let (weight, draws) ← randint config.minWeight config.maxWeight draws
  let (wakeup, draws) ← choice [true, false] draws
  -- The comparison `random.random() < 0.1` has either outcome.
  let (last, draws) ← choice [true, false] draws
  return (.enqueue pid vruntime weight ⟨wakeup, last⟩, draws)

/-- `generate_event`; a death is drawn again when no task is active. -/
def generateEvent (config : FuzzConfig) (activePids activeCpus : Finset Nat) :
    List Nat → Option (FuzzEvent × List Nat)
  | [] => none
  | index :: draws =>
      match config.events[index]? with
      | none => none
      | some "enqueue" => generateEnqueue config draws
      | some "dispatch" =>
          if activeCpus = ∅ then some (.tick 0, draws)
          else (choice activeCpus.sort draws).map (Prod.map .dispatch id)
      | some "tick" =>
          if activeCpus = ∅ then some (.tick 0, draws)
          else (choice activeCpus.sort draws).map (Prod.map .tick id)
      | some "task_dead" =>
          if activePids = ∅ then generateEvent config activePids activeCpus draws
          else (choice activePids.sort draws).map (Prod.map .taskDead id)
      | some "cpu_offline" =>
          if activeCpus.card ≤ 1 then some (.tick (activeCpus.sort.head?.getD 0), draws)
          else (choice activeCpus.sort draws).map (Prod.map .cpuOffline id)
      | some "cpu_online" =>
          if offlineCpus config activeCpus = [] then some (.tick 0, draws)
          else (choice (offlineCpus config activeCpus) draws).map (Prod.map .cpuOnline id)
      | some _ => some (.tick 0, draws)

/-- The events that fit the tasks and the processors that are active. -/
def Fitting (config : FuzzConfig) (activePids activeCpus : Finset Nat) : FuzzEvent → Prop
  | .enqueue pid vruntime weight _ =>
      (1 ≤ pid ∧ pid ≤ config.maxTasks * 10) ∧ vruntime ≤ 100000000 ∧
        config.minWeight ≤ weight ∧ weight ≤ config.maxWeight
  | .dispatch cpu => cpu ∈ activeCpus
  | .tick cpu => cpu ∈ activeCpus
  | .taskDead pid => pid ∈ activePids
  | .cpuOffline cpu => cpu ∈ activeCpus ∧ 1 < activeCpus.card
  | .cpuOnline cpu => cpu < config.maxCpus ∧ cpu ∉ activeCpus

variable {config : FuzzConfig} {activePids activeCpus : Finset Nat}

theorem randint_eq_some_iff {low high value : Nat} {draws rest : List Nat} :
    randint low high draws = some (value, rest) ↔
      draws = value :: rest ∧ low ≤ value ∧ value ≤ high := by
  cases draws with
  | nil => exact ⟨fun impossible => (nomatch impossible), fun impossible => nomatch impossible.1⟩
  | cons first draws =>
      rw [randint, List.cons.injEq]
      constructor
      · intro drawn
        split at drawn
        · rename_i within
          obtain ⟨rfl, rfl⟩ := Prod.mk.inj (Option.some.inj drawn)
          exact ⟨⟨rfl, rfl⟩, within⟩
        · exact nomatch drawn
      · rintro ⟨⟨rfl, rfl⟩, within⟩
        exact if_pos within

theorem choice_eq_some_iff {α : Type} {options : List α} {option : α} {draws rest : List Nat} :
    choice options draws = some (option, rest) ↔
      ∃ index, draws = index :: rest ∧ options[index]? = some option := by
  cases draws with
  | nil =>
      exact ⟨fun impossible => (nomatch impossible), fun ⟨_, impossible, _⟩ => nomatch impossible⟩
  | cons first draws =>
      rw [choice, Option.map_eq_some_iff]
      constructor
      · rintro ⟨chosen, found, same⟩
        obtain ⟨rfl, rfl⟩ := Prod.mk.inj same
        exact ⟨first, rfl, found⟩
      · rintro ⟨index, same, found⟩
        obtain ⟨rfl, rfl⟩ := List.cons.inj same
        exact ⟨option, found, rfl⟩

theorem choice_map_eq_some {options : List Nat} {draws rest : List Nat} {event : FuzzEvent}
    {make : Nat → FuzzEvent}
    (drawn : (choice options draws).map (Prod.map make id) = some (event, rest)) :
    ∃ option ∈ options, event = make option := by
  obtain ⟨⟨option, left⟩, chosen, same⟩ := Option.map_eq_some_iff.mp drawn
  obtain ⟨index, -, found⟩ := choice_eq_some_iff.mp chosen
  exact ⟨option, List.mem_of_getElem? found, (Prod.mk.inj same).1.symm⟩

theorem generateEnqueue_fitting {draws rest : List Nat} {event : FuzzEvent}
    (drawn : generateEnqueue config draws = some (event, rest)) :
    Fitting config activePids activeCpus event := by
  rw [generateEnqueue, Option.bind_eq_bind, Option.bind_eq_some_iff] at drawn
  obtain ⟨⟨pid, draws⟩, pidDrawn, drawn⟩ := drawn
  obtain ⟨⟨vruntime, draws⟩, vruntimeDrawn, drawn⟩ := Option.bind_eq_some_iff.mp drawn
  obtain ⟨⟨weight, draws⟩, weightDrawn, drawn⟩ := Option.bind_eq_some_iff.mp drawn
  obtain ⟨⟨wakeup, draws⟩, -, drawn⟩ := Option.bind_eq_some_iff.mp drawn
  obtain ⟨⟨last, draws⟩, -, drawn⟩ := Option.bind_eq_some_iff.mp drawn
  obtain ⟨rfl, -⟩ := Prod.mk.inj (Option.some.inj drawn)
  exact ⟨(randint_eq_some_iff.mp pidDrawn).2, (randint_eq_some_iff.mp vruntimeDrawn).2.2,
    (randint_eq_some_iff.mp weightDrawn).2⟩

theorem mem_offlineCpus {cpu : Nat} :
    cpu ∈ offlineCpus config activeCpus ↔ cpu < config.maxCpus ∧ cpu ∉ activeCpus := by
  rw [offlineCpus, Finset.mem_sort, Finset.mem_sdiff, Finset.mem_range]

/-- A drawn event fits, or is the tick of processor 0 that stands for an unusable draw. -/
theorem generateEvent_fitting {draws rest : List Nat} {event : FuzzEvent}
    (drawn : generateEvent config activePids activeCpus draws = some (event, rest)) :
    Fitting config activePids activeCpus event ∨ event = .tick 0 ∧
      (activeCpus = ∅ ∨ offlineCpus config activeCpus = [] ∨
        ∃ name ∈ config.events, name ∉ eventNames) := by
  fun_induction generateEvent config activePids activeCpus draws with
  | case1 => exact nomatch drawn
  | case2 => exact nomatch drawn
  | case3 => exact .inl (generateEnqueue_fitting drawn)
  | case4 _ _ _ none =>
      obtain ⟨rfl, -⟩ := Prod.mk.inj (Option.some.inj drawn)
      exact .inr ⟨rfl, .inl none⟩
  | case5 =>
      obtain ⟨cpu, member, rfl⟩ := choice_map_eq_some drawn
      exact .inl ((Finset.mem_sort _).mp member)
  | case6 _ _ _ none =>
      obtain ⟨rfl, -⟩ := Prod.mk.inj (Option.some.inj drawn)
      exact .inr ⟨rfl, .inl none⟩
  | case7 =>
      obtain ⟨cpu, member, rfl⟩ := choice_map_eq_some drawn
      exact .inl ((Finset.mem_sort _).mp member)
  | case8 _ _ _ _ ih => exact ih drawn
  | case9 =>
      obtain ⟨pid, member, rfl⟩ := choice_map_eq_some drawn
      exact .inl ((Finset.mem_sort _).mp member)
  | case10 =>
      obtain ⟨rfl, -⟩ := Prod.mk.inj (Option.some.inj drawn)
      by_cases none : activeCpus = ∅
      · refine .inr ⟨?_, .inl none⟩
        rw [none, Finset.sort_empty]
        rfl
      · obtain ⟨cpu, active⟩ := Finset.nonempty_iff_ne_empty.mpr none
        obtain ⟨least, others, sorted⟩ := List.exists_cons_of_ne_nil
          (List.ne_nil_of_mem ((Finset.mem_sort (· ≤ ·)).mpr active))
        have member : least ∈ activeCpus.sort := sorted ▸ List.mem_cons_self
        rw [sorted]
        exact .inl ((Finset.mem_sort _).mp member)
  | case11 _ _ _ several =>
      obtain ⟨cpu, member, rfl⟩ := choice_map_eq_some drawn
      exact .inl ⟨(Finset.mem_sort _).mp member, Nat.lt_of_not_le several⟩
  | case12 _ _ _ none =>
      obtain ⟨rfl, -⟩ := Prod.mk.inj (Option.some.inj drawn)
      exact .inr ⟨rfl, .inr (.inl none)⟩
  | case13 =>
      obtain ⟨cpu, member, rfl⟩ := choice_map_eq_some drawn
      exact .inl (mem_offlineCpus.mp member)
  | case14 _ _ name notEnqueue notDispatch notTick notDead notOffline notOnline found =>
      obtain ⟨rfl, -⟩ := Prod.mk.inj (Option.some.inj drawn)
      refine .inr ⟨rfl, .inr (.inr ⟨name, List.mem_of_getElem? found, ?_⟩)⟩
      simpa [eventNames] using
        ⟨notEnqueue, notDispatch, notTick, notDead, notOffline, notOnline⟩

theorem exists_draw {option : Nat} {options : List Nat} (member : option ∈ options)
    (make : Nat → FuzzEvent) :
    ∃ draws, (choice options draws).map (Prod.map make id) = some (make option, []) := by
  obtain ⟨index, found⟩ := List.getElem?_of_mem member
  refine ⟨[index], ?_⟩
  rw [choice_eq_some_iff.mpr ⟨index, rfl, found⟩]
  rfl

theorem exists_draws_enqueue {pid vruntime weight : Nat} {flags : EnqueueFlags}
    (fitting : Fitting config activePids activeCpus (.enqueue pid vruntime weight flags)) :
    ∃ draws, generateEnqueue config draws = some (.enqueue pid vruntime weight flags, []) := by
  obtain ⟨pidIn, vruntimeIn, weightIn⟩ := fitting
  have outcome : ∀ flag : Bool, ∃ index, [true, false][index]? = some flag
    | true => ⟨0, rfl⟩
    | false => ⟨1, rfl⟩
  obtain ⟨wakeup, wakeupChosen⟩ := outcome flags.wakeup
  obtain ⟨last, lastChosen⟩ := outcome flags.last
  refine ⟨[pid, vruntime, weight, wakeup, last], ?_⟩
  refine Option.bind_eq_some_iff.mpr ⟨_, randint_eq_some_iff.mpr ⟨rfl, pidIn⟩, ?_⟩
  refine Option.bind_eq_some_iff.mpr
    ⟨_, randint_eq_some_iff.mpr ⟨rfl, Nat.zero_le _, vruntimeIn⟩, ?_⟩
  refine Option.bind_eq_some_iff.mpr ⟨_, randint_eq_some_iff.mpr ⟨rfl, weightIn⟩, ?_⟩
  refine Option.bind_eq_some_iff.mpr ⟨_, choice_eq_some_iff.mpr ⟨_, rfl, wakeupChosen⟩, ?_⟩
  exact Option.bind_eq_some_iff.mpr ⟨_, choice_eq_some_iff.mpr ⟨_, rfl, lastChosen⟩, rfl⟩

/-- Every event that fits is drawn, when no name of an event is missing. -/
theorem exists_draws_of_fitting {event : FuzzEvent}
    (named : ∀ name ∈ eventNames, name ∈ config.events)
    (fitting : Fitting config activePids activeCpus event) :
    ∃ draws, generateEvent config activePids activeCpus draws = some (event, []) := by
  have position : ∀ name ∈ eventNames, ∃ index, config.events[index]? = some name :=
    fun name member => List.getElem?_of_mem (named name member)
  cases event with
  | enqueue pid vruntime weight flags =>
      obtain ⟨index, found⟩ := position "enqueue" (by decide)
      obtain ⟨draws, drawn⟩ := exists_draws_enqueue fitting
      refine ⟨index :: draws, ?_⟩
      rw [generateEvent, found]
      exact drawn
  | dispatch cpu =>
      obtain ⟨index, found⟩ := position "dispatch" (by decide)
      obtain ⟨draws, drawn⟩ := exists_draw ((Finset.mem_sort (· ≤ ·)).mpr fitting) .dispatch
      refine ⟨index :: draws, ?_⟩
      rw [generateEvent, found]
      exact (if_neg (Finset.ne_empty_of_mem fitting)).trans drawn
  | tick cpu =>
      obtain ⟨index, found⟩ := position "tick" (by decide)
      obtain ⟨draws, drawn⟩ := exists_draw ((Finset.mem_sort (· ≤ ·)).mpr fitting) .tick
      refine ⟨index :: draws, ?_⟩
      rw [generateEvent, found]
      exact (if_neg (Finset.ne_empty_of_mem fitting)).trans drawn
  | taskDead pid =>
      obtain ⟨index, found⟩ := position "task_dead" (by decide)
      obtain ⟨draws, drawn⟩ := exists_draw ((Finset.mem_sort (· ≤ ·)).mpr fitting) .taskDead
      refine ⟨index :: draws, ?_⟩
      rw [generateEvent, found]
      exact (if_neg (Finset.ne_empty_of_mem fitting)).trans drawn
  | cpuOffline cpu =>
      obtain ⟨index, found⟩ := position "cpu_offline" (by decide)
      obtain ⟨active, several⟩ := fitting
      obtain ⟨draws, drawn⟩ := exists_draw ((Finset.mem_sort (· ≤ ·)).mpr active) .cpuOffline
      refine ⟨index :: draws, ?_⟩
      rw [generateEvent, found]
      exact (if_neg (Nat.not_le_of_lt several)).trans drawn
  | cpuOnline cpu =>
      obtain ⟨index, found⟩ := position "cpu_online" (by decide)
      have member : cpu ∈ offlineCpus config activeCpus := mem_offlineCpus.mpr fitting
      obtain ⟨draws, drawn⟩ := exists_draw member .cpuOnline
      refine ⟨index :: draws, ?_⟩
      rw [generateEvent, found]
      exact (if_neg (List.ne_nil_of_mem member)).trans drawn

end SchedExt.Fuzz
