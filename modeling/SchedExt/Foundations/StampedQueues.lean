import Mathlib.Data.List.Perm.Basic
import Mathlib.Logic.Function.Basic
import SchedExt.Foundations.Run

/-!
# Families of time-stamped queues

A family of queues serves many channels under one clock.  An arriving item is
stamped with the current time and placed among those waiting on its channel;
a service request takes the head of its channel.  Every step advances the
clock.  Where an item is placed is a parameter, required only to neither lose
nor duplicate items.
-/

namespace SchedExt.Foundations

universe u v

variable {Channel : Type u} {Item : Type v}

/-- What an observer sees of one step of a family of queues. -/
inductive QueueEvent (Channel : Type u) (Item : Type v) where
  | put (channel : Channel) (item : Item)
  | take (channel : Channel) (result : Option Item)
  | tick

namespace QueueEvent

/-- The channel a step is addressed to; the passing of time has none. -/
def channel? : QueueEvent Channel Item → Option Channel
  | .put channel _ => some channel
  | .take channel _ => some channel
  | .tick => none

end QueueEvent

/-- Where an arriving item is placed among those already waiting. -/
structure Placement (Item : Type v) where
  place : Item → List Item → List Item
  perm : ∀ item waiting, (place item waiting).Perm (item :: waiting)

namespace Placement

/-- First-in first-out placement: an arriving item goes to the tail. -/
def tail : Placement Item where
  place item waiting := waiting ++ [item]
  perm item waiting := List.perm_append_singleton item waiting

@[simp]
theorem tail_place (item : Item) (waiting : List Item) :
    tail.place item waiting = waiting ++ [item] := rfl

theorem mem_place (placement : Placement Item) {item other : Item}
    {waiting : List Item} :
    other ∈ placement.place item waiting ↔ other = item ∨ other ∈ waiting := by
  rw [(placement.perm item waiting).mem_iff, List.mem_cons]

end Placement

/-- The clock and, for every channel, the waiting items in service order. -/
structure Queues (Channel : Type u) (Item : Type v) where
  clock : Nat
  waiting : Channel → List Item

namespace Queues

variable [DecidableEq Channel]

/-- An item arrives on one channel and is placed among those waiting there. -/
def put (placement : Placement Item) (queues : Queues Channel Item)
    (channel : Channel) (item : Item) : Queues Channel Item where
  clock := queues.clock + 1
  waiting := Function.update queues.waiting channel
    (placement.place item (queues.waiting channel))

/-- The head of one channel leaves; an empty channel stays empty. -/
def take (queues : Queues Channel Item) (channel : Channel) :
    Queues Channel Item where
  clock := queues.clock + 1
  waiting := Function.update queues.waiting channel
    (queues.waiting channel).tail

/-- Only the clock moves. -/
def tick (queues : Queues Channel Item) : Queues Channel Item where
  clock := queues.clock + 1
  waiting := queues.waiting

@[simp]
theorem put_waiting_self (placement : Placement Item) (queues : Queues Channel Item)
    (channel : Channel) (item : Item) :
    (queues.put placement channel item).waiting channel =
      placement.place item (queues.waiting channel) :=
  Function.update_self _ _ _

theorem put_waiting_of_ne (placement : Placement Item) (queues : Queues Channel Item)
    {channel target : Channel} (different : channel ≠ target) (item : Item) :
    (queues.put placement target item).waiting channel = queues.waiting channel :=
  Function.update_of_ne different _ _

@[simp]
theorem take_waiting_self (queues : Queues Channel Item) (channel : Channel) :
    (queues.take channel).waiting channel = (queues.waiting channel).tail :=
  Function.update_self _ _ _

theorem take_waiting_of_ne (queues : Queues Channel Item)
    {channel target : Channel} (different : channel ≠ target) :
    (queues.take target).waiting channel = queues.waiting channel :=
  Function.update_of_ne different _ _

/-- The steps of a family of queues whose items carry the stamp `stamp`. -/
inductive Step (placement : Placement Item) (stamp : Item → Nat) :
    Queues Channel Item → QueueEvent Channel Item → Queues Channel Item → Prop where
  | put (queues : Queues Channel Item) (channel : Channel) (item : Item)
      (stamped : stamp item = queues.clock) :
      Step placement stamp queues (.put channel item)
        (queues.put placement channel item)
  | take (queues : Queues Channel Item) (channel : Channel) :
      Step placement stamp queues
        (.take channel (queues.waiting channel).head?) (queues.take channel)
  | tick (queues : Queues Channel Item) :
      Step placement stamp queues .tick queues.tick

variable {placement : Placement Item} {stamp : Item → Nat}
variable {queues after : Queues Channel Item}
variable {event : QueueEvent Channel Item}

/--
What a step does at one channel: nothing, unless it is addressed there; else
it places an arrival stamped with the clock, or it takes the head.
-/
theorem Step.at_channel (step : Step placement stamp queues event after)
    (channel : Channel) :
    (event.channel? ≠ some channel ∧ after.waiting channel = queues.waiting channel) ∨
    (∃ item, event = .put channel item ∧ stamp item = queues.clock ∧
      after.waiting channel = placement.place item (queues.waiting channel)) ∨
    (event = .take channel (queues.waiting channel).head? ∧
      after.waiting channel = (queues.waiting channel).tail) := by
  cases step with
  | put target item now =>
      rcases eq_or_ne channel target with rfl | different
      · exact Or.inr (Or.inl ⟨item, rfl, now, put_waiting_self _ _ _ _⟩)
      · exact Or.inl ⟨fun same => different (Option.some.inj same).symm,
          put_waiting_of_ne _ _ different item⟩
  | take target =>
      rcases eq_or_ne channel target with rfl | different
      · exact Or.inr (Or.inr ⟨rfl, take_waiting_self _ _⟩)
      · exact Or.inl ⟨fun same => different (Option.some.inj same).symm,
          take_waiting_of_ne _ different⟩
  | tick => exact Or.inl ⟨Option.some_ne_none channel |>.symm, rfl⟩

/-- Waiting items after a step: the new arrival or an old one. -/
theorem Step.mem_waiting
    (step : Step placement stamp queues event after)
    {channel : Channel} {item : Item} (member : item ∈ after.waiting channel) :
    event = .put channel item ∧ stamp item = queues.clock ∨
      item ∈ queues.waiting channel := by
  rcases step.at_channel channel with ⟨_, kept⟩ | ⟨arrival, rfl, now, placed⟩ | ⟨_, taken⟩
  · rw [kept] at member
    exact Or.inr member
  · rw [placed, placement.mem_place] at member
    rcases member with rfl | old
    · exact Or.inl ⟨rfl, now⟩
    · exact Or.inr old
  · rw [taken] at member
    exact Or.inr (List.mem_of_mem_tail member)

theorem Step.clock (step : Step placement stamp queues event after) :
    after.clock = queues.clock + 1 := by
  cases step <;> rfl

/-! ## Items with a lasting property -/

/-- Every waiting item, on any channel, has the property. -/
def AllWaiting (Property : Item → Prop) (queues : Queues Channel Item) : Prop :=
  ∀ channel, ∀ item ∈ queues.waiting channel, Property item

theorem AllWaiting.step {Property : Item → Prop}
    (all : queues.AllWaiting Property)
    (step : Step placement stamp queues event after)
    (arrives : ∀ channel item, event = .put channel item → Property item) :
    after.AllWaiting Property := by
  intro channel item member
  rcases step.mem_waiting member with ⟨arrival, _⟩ | waiting
  · exact arrives channel item arrival
  · exact all channel item waiting

/-! ## Stamps -/

/--
Every waiting stamp lies before the clock, and no two waiting items, on one
channel or on two, carry the same stamp.
-/
structure Stamped (stamp : Item → Nat) (queues : Queues Channel Item) : Prop where
  past : queues.AllWaiting fun item => stamp item < queues.clock
  distinct : ∀ channel,
    (queues.waiting channel).Pairwise fun first second => stamp first ≠ stamp second
  apart : ∀ {channel other}, channel ≠ other →
    ∀ first ∈ queues.waiting channel, ∀ second ∈ queues.waiting other,
      stamp first ≠ stamp second

omit [DecidableEq Channel] in
/-- A family with nothing waiting is stamped. -/
theorem Stamped.of_empty (empty : ∀ channel, queues.waiting channel = []) :
    queues.Stamped stamp where
  past channel item member := by simp [empty] at member
  distinct channel := by simp [empty]
  apart _ first member := by simp [empty] at member

/-- Arrivals carry the present time, which no waiting item does. -/
theorem Stamped.step (stamped : queues.Stamped stamp)
    (step : Step placement stamp queues event after) : after.Stamped stamp where
  past channel item member := by
    rw [step.clock]
    rcases step.mem_waiting member with ⟨_, now⟩ | waiting
    · exact Nat.lt_succ_of_le (Nat.le_of_eq now)
    · exact Nat.lt_succ_of_lt (stamped.past channel item waiting)
  distinct channel := by
    rcases step.at_channel channel with ⟨_, kept⟩ | ⟨arrival, _, now, placed⟩ | ⟨_, taken⟩
    · rw [kept]
      exact stamped.distinct channel
    · rw [placed, (placement.perm arrival _).pairwise_iff (fun unequal => Ne.symm unequal),
        List.pairwise_cons]
      refine ⟨fun waiting member => ?_, stamped.distinct channel⟩
      have earlier := stamped.past channel waiting member
      omega
    · rw [taken]
      exact (stamped.distinct channel).tail
  apart {channel other} different first firstMem second secondMem := by
    rcases step.mem_waiting firstMem with ⟨firstArrives, firstNow⟩ | firstOld
    · rcases step.mem_waiting secondMem with ⟨secondArrives, _⟩ | secondOld
      · rw [firstArrives] at secondArrives
        exact absurd (QueueEvent.put.inj secondArrives).1 different
      · have earlier := stamped.past other second secondOld
        omega
    · rcases step.mem_waiting secondMem with ⟨_, secondNow⟩ | secondOld
      · have earlier := stamped.past channel first firstOld
        omega
      · exact stamped.apart different first firstOld second secondOld

/-! ## First-in first-out order -/

/-- On every channel the stamps strictly increase from head to tail. -/
def Increasing (stamp : Item → Nat) (queues : Queues Channel Item) : Prop :=
  ∀ channel,
    (queues.waiting channel).Pairwise fun first second => stamp first < stamp second

/-- Tail placement keeps stamps increasing, since arrivals carry the latest. -/
theorem Increasing.step (increasing : queues.Increasing stamp)
    (stamped : queues.Stamped stamp)
    (step : Step Placement.tail stamp queues event after) :
    after.Increasing stamp := by
  intro channel
  rcases step.at_channel channel with ⟨_, kept⟩ | ⟨arrival, _, now, placed⟩ | ⟨_, taken⟩
  · rw [kept]
    exact increasing channel
  · rw [placed, Placement.tail_place, List.pairwise_append]
    refine ⟨increasing channel, List.pairwise_singleton _ _, ?_⟩
    intro waiting member last lastMem
    rw [List.mem_singleton.mp lastMem, now]
    exact stamped.past channel waiting member
  · rw [taken]
    exact (increasing channel).tail

end Queues

/-! ## Logs of arrivals and services -/

/-- An entry of a filtered list stands where that many kept entries precede it. -/
theorem getElem?_filterMap_iff {Entry : Type u} {Kept : Type v} {keep : Entry → Option Kept}
    {entries : List Entry} {position : Nat} {kept : Kept} :
    (entries.filterMap keep)[position]? = some kept ↔
      ∃ before entry after, entries = before ++ entry :: after ∧ keep entry = some kept ∧
        (before.filterMap keep).length = position := by
  constructor
  · intro found
    obtain ⟨bound, same⟩ := List.getElem?_eq_some_iff.mp found
    have whole := List.take_append_drop position (entries.filterMap keep)
    rw [List.drop_eq_getElem_cons bound, same] at whole
    obtain ⟨before, entry, after, split, front, keeps, _⟩ :=
      exists_split_of_filterMap whole.symm
    refine ⟨before, entry, after, split, keeps, ?_⟩
    rw [front, List.length_take, Nat.min_eq_left (Nat.le_of_lt bound)]
  · rintro ⟨before, entry, after, whole, keeps, rfl⟩
    rw [whole, List.filterMap_append, List.filterMap_cons_some keeps,
      List.getElem?_append_right (Nat.le_refl _), Nat.sub_self, List.getElem?_cons_zero]

namespace QueueEvent

variable [DecidableEq Channel]

/-- The items that arrived on one channel, oldest first. -/
def arrived (channel : Channel) (events : List (QueueEvent Channel Item)) : List Item :=
  events.filterMap fun
    | .put target item => if target = channel then some item else none
    | _ => none

/-- The items taken from one channel, oldest first. -/
def served (channel : Channel) (events : List (QueueEvent Channel Item)) : List Item :=
  events.filterMap fun
    | .take target result => if target = channel then result else none
    | _ => none

@[simp]
theorem arrived_nil (channel : Channel) :
    arrived channel ([] : List (QueueEvent Channel Item)) = [] := rfl

@[simp]
theorem served_nil (channel : Channel) :
    served channel ([] : List (QueueEvent Channel Item)) = [] := rfl

@[simp]
theorem arrived_append (channel : Channel)
    (first second : List (QueueEvent Channel Item)) :
    arrived channel (first ++ second) = arrived channel first ++ arrived channel second :=
  List.filterMap_append

@[simp]
theorem served_append (channel : Channel)
    (first second : List (QueueEvent Channel Item)) :
    served channel (first ++ second) = served channel first ++ served channel second :=
  List.filterMap_append

theorem mem_arrived {channel : Channel} {item : Item}
    {events : List (QueueEvent Channel Item)} :
    item ∈ arrived channel events ↔ .put channel item ∈ events := by
  rw [arrived, List.mem_filterMap]
  constructor
  · rintro ⟨event, member, shown⟩
    cases event with
    | put target other =>
        simp only [Option.ite_none_right_eq_some, Option.some.injEq] at shown
        obtain ⟨rfl, rfl⟩ := shown
        exact member
    | take target result => cases shown
    | tick => cases shown
  · intro member
    exact ⟨_, member, if_pos rfl⟩

theorem mem_served {channel : Channel} {item : Item}
    {events : List (QueueEvent Channel Item)} :
    item ∈ served channel events ↔ .take channel (some item) ∈ events := by
  rw [served, List.mem_filterMap]
  constructor
  · rintro ⟨event, member, shown⟩
    cases event with
    | put target other => cases shown
    | take target result =>
        simp only [Option.ite_none_right_eq_some] at shown
        obtain ⟨rfl, rfl⟩ := shown
        exact member
    | tick => cases shown
  · intro member
    exact ⟨_, member, if_pos rfl⟩

theorem arrived_put_self (channel : Channel) (item : Item) :
    arrived channel [.put channel item] = [item] := by
  simp [arrived]

theorem served_take_self (channel : Channel) (result : Option Item) :
    served channel [.take channel result] = result.toList := by
  cases result <;> simp [served]

theorem arrived_of_ne {channel : Channel} {event : QueueEvent Channel Item}
    (other : event.channel? ≠ some channel) : arrived channel [event] = [] := by
  cases event with
  | put target item =>
      have different : target ≠ channel := fun same => other (congrArg some same)
      simp [arrived, different]
  | take target result => rfl
  | tick => rfl

theorem served_of_ne {channel : Channel} {event : QueueEvent Channel Item}
    (other : event.channel? ≠ some channel) : served channel [event] = [] := by
  cases event with
  | put target item => rfl
  | take target result =>
      have different : target ≠ channel := fun same => other (congrArg some same)
      simp [served, different]
  | tick => rfl

/-- Everything that arrived, with the channel it arrived on, oldest first. -/
def arrivals (events : List (QueueEvent Channel Item)) : List (Channel × Item) :=
  events.filterMap fun
    | .put channel item => some (channel, item)
    | _ => none

omit [DecidableEq Channel] in
@[simp]
theorem arrivals_append (first second : List (QueueEvent Channel Item)) :
    arrivals (first ++ second) = arrivals first ++ arrivals second :=
  List.filterMap_append

omit [DecidableEq Channel] in
theorem mem_arrivals {channel : Channel} {item : Item}
    {events : List (QueueEvent Channel Item)} :
    (channel, item) ∈ arrivals events ↔ .put channel item ∈ events := by
  rw [arrivals, List.mem_filterMap]
  constructor
  · rintro ⟨event, member, shown⟩
    cases event with
    | put target other =>
        cases shown
        exact member
    | take target result => cases shown
    | tick => cases shown
  · intro member
    exact ⟨_, member, rfl⟩

/-- What arrived on one channel arrived, in the same order. -/
theorem arrived_sublist (channel : Channel) (events : List (QueueEvent Channel Item)) :
    (arrived channel events).Sublist ((arrivals events).map Prod.snd) := by
  induction events with
  | nil => exact .slnil
  | cons event rest ih =>
      cases event with
      | put target item =>
          rcases eq_or_ne target channel with rfl | different
          · simpa [arrived, arrivals] using ih
          · simpa [arrived, arrivals, different] using ih.cons item
      | take target result => exact ih
      | tick => exact ih

end QueueEvent

namespace Queues

open QueueEvent

variable [DecidableEq Channel]
variable {placement : Placement Item} {stamp : Item → Nat}
variable {queues start final after : Queues Channel Item}
variable {event : QueueEvent Channel Item}
variable {history : List (Transition (Queues Channel Item) (QueueEvent Channel Item))}

/-- The labels of a recorded run, oldest first. -/
abbrev labels
    (history : List (Transition (Queues Channel Item) (QueueEvent Channel Item))) :
    List (QueueEvent Channel Item) :=
  history.map Transition.event

omit [DecidableEq Channel] in
/-- The labels of a simulating run are the observations of the simulated one. -/
theorem labels_simulate {State : Type u} {Event : Type v}
    (view : State → Queues Channel Item)
    (observe : Transition State Event → QueueEvent Channel Item)
    (history : List (Transition State Event)) :
    labels (history.map fun taken =>
      ⟨view taken.source, observe taken, view taken.target⟩) = history.map observe := by
  rw [labels, List.map_map]
  rfl

/-- One step balances arrivals against services and waiting items. -/
theorem Step.balance (step : Step placement stamp queues event after)
    (channel : Channel) :
    (queues.waiting channel ++ arrived channel [event]).Perm
      (served channel [event] ++ after.waiting channel) := by
  rcases step.at_channel channel with ⟨elsewhere, kept⟩ | ⟨item, rfl, _, placed⟩ | ⟨rfl, taken⟩
  · rw [arrived_of_ne elsewhere, served_of_ne elsewhere, kept, List.append_nil,
      List.nil_append]
  · rw [arrived_put_self, placed]
    exact (List.perm_append_singleton item _).trans (placement.perm item _).symm
  · rw [served_take_self, taken]
    cases queues.waiting channel with
    | nil => exact .refl _
    | cons head rest => exact .of_eq (List.append_nil _)

/-- Nothing is lost or duplicated: what waited or arrived is served or waits. -/
theorem balance (run : Run (Step placement stamp) start history final)
    (channel : Channel) :
    (start.waiting channel ++ arrived channel (labels history)).Perm
      (served channel (labels history) ++ final.waiting channel) := by
  induction run with
  | refl => simp
  | @tail history middle next event earlier last ih =>
      have balanced := last.balance channel
      simp only [labels, List.map_append, List.map_cons, List.map_nil, arrived_append,
        served_append]
      rw [← List.append_assoc, List.append_assoc (served channel _)]
      refine (ih.append_right _).trans ?_
      rw [List.append_assoc]
      exact balanced.append_left _

/-- Whatever waits arrived, when nothing waited at the start. -/
theorem put_mem_of_waiting (empty : ∀ channel, start.waiting channel = [])
    (run : Run (Step placement stamp) start history final)
    {channel : Channel} {item : Item} (member : item ∈ final.waiting channel) :
    .put channel item ∈ labels history := by
  have balanced := balance run channel
  rw [empty channel, List.nil_append] at balanced
  exact mem_arrived.mp (balanced.mem_iff.mpr (List.mem_append_right _ member))

/-- An arriving item waits right after the step. -/
theorem Step.arrival_waits (step : Step placement stamp queues event after)
    {channel : Channel} {item : Item} (arrives : event = .put channel item) :
    item ∈ after.waiting channel := by
  cases step with
  | put target arrival now =>
      cases arrives
      rw [put_waiting_self, placement.mem_place]
      exact Or.inl rfl
  | take target => cases arrives
  | tick => cases arrives

/--
A property of items on channels holds of all that waits after any step exactly
when it holds of all arrivals.
-/
theorem forall_waiting_iff (empty : ∀ channel, start.waiting channel = [])
    (run : Run (Step placement stamp) start history final)
    (Property : Channel → Item → Prop) :
    (∀ taken ∈ history, ∀ channel, ∀ item ∈ taken.target.waiting channel,
      Property channel item) ↔
    ∀ channel item, .put channel item ∈ labels history → Property channel item := by
  constructor
  · intro waiting channel item arrives
    obtain ⟨taken, member, isPut⟩ := List.mem_map.mp arrives
    refine waiting taken member channel item ?_
    exact (run.steps taken member).arrival_waits isPut
  · intro arrived taken member channel item waits
    obtain ⟨before, after, rfl⟩ := List.append_of_mem member
    obtain ⟨earlier, last, _⟩ := run.split
    refine arrived channel item ?_
    have arrives := put_mem_of_waiting empty (.tail earlier last) waits
    rw [labels, List.map_append] at arrives ⊢
    rcases List.mem_append.mp arrives with old | new
    · exact List.mem_append_left _ old
    · rw [List.map_singleton, List.mem_singleton] at new
      rw [List.map_cons, new]
      exact List.mem_append_right _ List.mem_cons_self

/-- A step brings no arrival, or one stamped with the clock. -/
theorem Step.arrivals_cases (step : Step placement stamp queues event after) :
    arrivals [event] = [] ∨
      ∃ channel item, arrivals [event] = [(channel, item)] ∧ stamp item = queues.clock := by
  cases step with
  | put channel item now => exact Or.inr ⟨channel, item, rfl, now⟩
  | take channel => exact Or.inl rfl
  | tick => exact Or.inl rfl

/-- Arrivals carry strictly increasing stamps, all before the clock. -/
theorem arrivals_stamped (run : Run (Step placement stamp) start history final) :
    ((arrivals (labels history)).map Prod.snd).Pairwise
        (fun first second => stamp first < stamp second) ∧
      ∀ item ∈ (arrivals (labels history)).map Prod.snd, stamp item < final.clock := by
  induction run with
  | refl => simp [labels, arrivals]
  | @tail history middle next event earlier last ih =>
      obtain ⟨increasing, past⟩ := ih
      rw [labels, List.map_append, arrivals_append, List.map_append, List.map_singleton,
        last.clock]
      rcases last.arrivals_cases with none | ⟨channel, item, one, now⟩
      · rw [none, List.map_nil, List.append_nil]
        exact ⟨increasing, fun old member => Nat.lt_succ_of_lt (past old member)⟩
      · rw [one, List.map_singleton]
        refine ⟨List.pairwise_append.mpr ⟨increasing, List.pairwise_singleton _ _, ?_⟩, ?_⟩
        · intro old oldMem new newMem
          rw [List.mem_singleton.mp newMem, now]
          exact past old oldMem
        · intro stamped member
          rcases List.mem_append.mp member with old | new
          · exact Nat.lt_succ_of_lt (past stamped old)
          · rw [List.mem_singleton.mp new, now]
            exact Nat.lt_succ_self _

/-- No item arrives twice on a channel. -/
theorem arrived_nodup (run : Run (Step placement stamp) start history final)
    (channel : Channel) : (arrived channel (labels history)).Nodup :=
  ((arrivals_stamped run).1.sublist (arrived_sublist channel _)).imp
    fun less equal => absurd (congrArg stamp equal) (Nat.ne_of_lt less)

/-- One step of tail placement extends the log equation at its end. -/
theorem Step.log (step : Step Placement.tail stamp queues event after)
    (channel : Channel) :
    queues.waiting channel ++ arrived channel [event] =
      served channel [event] ++ after.waiting channel := by
  rcases step.at_channel channel with ⟨elsewhere, kept⟩ | ⟨item, rfl, _, placed⟩ | ⟨rfl, taken⟩
  · rw [arrived_of_ne elsewhere, served_of_ne elsewhere, kept, List.append_nil,
      List.nil_append]
  · rw [arrived_put_self, placed]
    rfl
  · rw [served_take_self, taken]
    cases queues.waiting channel with
    | nil => rfl
    | cons head rest => exact List.append_nil _

/--
First-in first-out service: what waited at the start followed by all
arrivals is what was served followed by what still waits, in this order.
-/
theorem log (run : Run (Step Placement.tail stamp) start history final)
    (channel : Channel) :
    start.waiting channel ++ arrived channel (labels history) =
      served channel (labels history) ++ final.waiting channel := by
  induction run with
  | refl => simp
  | @tail history middle next event earlier last ih =>
      have extended := last.log channel
      simp only [labels, List.map_append, List.map_cons, List.map_nil, arrived_append,
        served_append]
      rw [← List.append_assoc, ih, List.append_assoc, extended, List.append_assoc]

end Queues

end SchedExt.Foundations
