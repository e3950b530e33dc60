import Mathlib.Data.List.Rotate
import SchedExt.Foundations.StampedQueues

/-!
# Cyclic service of a first-in first-out channel

When every item taken from a channel is put back before the next is taken,
the channel serves its items in the order in which they first waited, over
and over.  The argument needs only the log equation of tail placement: the
arrivals repeat the services, so each service is the one a whole turn ago.
-/

namespace SchedExt.Foundations

universe u v w

variable {Channel : Type u} {Item : Type v} {Label : Type w}

/-- `services` repeats `order` from its beginning, and may stop anywhere. -/
def Cyclic (order services : List Label) : Prop :=
  ∀ index, index < services.length → services[index]? = order[index % order.length]?

namespace Cyclic

variable {order services : List Label}

/-- An initial part of cyclic service is cyclic service. -/
theorem take (cyclic : Cyclic order services) (count : Nat) :
    Cyclic order (services.take count) := by
  intro index bound
  rw [List.length_take] at bound
  rw [List.getElem?_take_of_lt (by omega)]
  exact cyclic index (by omega)

/-- Cyclic service starts over after one whole turn. -/
theorem drop_turn (cyclic : Cyclic order services) :
    Cyclic order (services.drop order.length) := by
  intro index bound
  rw [List.length_drop] at bound
  rw [List.getElem?_drop, cyclic _ (by omega), Nat.add_mod_left]

/-- Any whole turn of consecutive services is a rotation of the order. -/
theorem window (cyclic : Cyclic order services) {first : Nat}
    (fits : first + order.length ≤ services.length) :
    (services.drop first).take order.length = order.rotate first := by
  apply List.ext_getElem?
  intro index
  by_cases bound : index < order.length
  · rw [List.getElem?_take_of_lt bound, List.getElem?_drop, cyclic _ (by omega),
      List.getElem?_rotate bound, Nat.add_comm index first]
  · rw [List.getElem?_eq_none, List.getElem?_eq_none]
    · rw [List.length_rotate]
      omega
    · rw [List.length_take]
      omega

/-- Less than one turn of cyclic service is an initial part of the order. -/
theorem eq_take (cyclic : Cyclic order services)
    (short : services.length ≤ order.length) :
    services = order.take services.length := by
  apply List.ext_getElem?
  intro index
  by_cases bound : index < services.length
  · rw [cyclic index bound, Nat.mod_eq_of_lt (by omega), List.getElem?_take_of_lt bound]
  · rw [List.getElem?_eq_none (by omega), List.getElem?_eq_none]
    rw [List.length_take]
    omega

section Counting

variable [DecidableEq Label]

/-- In every whole turn each label of a duplicate-free order is served once. -/
theorem count_window (cyclic : Cyclic order services) (distinct : order.Nodup)
    (first : Nat) (fits : first + order.length ≤ services.length)
    {label : Label} (member : label ∈ order) :
    ((services.drop first).take order.length).count label = 1 := by
  rw [cyclic.window fits, (List.rotate_perm order first).count_eq]
  exact List.count_eq_one_of_mem distinct member

/-- At any moment two labels have been served equally often, up to one. -/
theorem count_le (cyclic : Cyclic order services) (distinct : order.Nodup)
    {label other : Label} (member : label ∈ order) (otherMember : other ∈ order) :
    services.count label ≤ services.count other + 1 := by
  induction length : services.length using Nat.strongRecOn generalizing services with
  | ind size ih =>
      by_cases short : services.length ≤ order.length
      · rw [cyclic.eq_take short]
        have once := List.nodup_iff_count_le_one.mp
          (distinct.sublist (List.take_sublist services.length order)) label
        omega
      · have positive : 0 < order.length := List.length_pos_of_mem member
        have shorter := ih (services.drop order.length).length
          (by rw [List.length_drop]; omega) cyclic.drop_turn rfl
        have turn (wanted : Label) (inOrder : wanted ∈ order) :
            services.count wanted = 1 + (services.drop order.length).count wanted := by
          have window := cyclic.count_window distinct 0 (by omega) inOrder
          rw [List.drop_zero] at window
          rw [← window, ← List.count_append, List.take_append_drop]
        rw [turn label member, turn other otherMember]
        omega

end Counting

/--
The log equation forces cyclic service: arrivals that repeat an initial part
of the services make every service the one a whole turn earlier.
-/
theorem of_log {arrivals waiting : List Label} (nonempty : order ≠ [])
    (repeated : arrivals <+: services)
    (log : order ++ arrivals = services ++ waiting) : Cyclic order services := by
  have positive : 0 < order.length := List.length_pos_iff.mpr nonempty
  have lengths := congrArg List.length log
  have shorter := repeated.length_le
  simp only [List.length_append] at lengths
  intro index
  induction index using Nat.strongRecOn with
  | ind index ih =>
      intro bound
      have here : services[index]? = (order ++ arrivals)[index]? := by
        rw [log, List.getElem?_append_left bound]
      rw [here]
      by_cases firstTurn : index < order.length
      · rw [List.getElem?_append_left firstTurn, Nat.mod_eq_of_lt firstTurn]
      · have turned : index - order.length < arrivals.length := by omega
        have copied : arrivals[index - order.length]? = services[index - order.length]? := by
          rw [List.prefix_iff_getElem?.mp repeated _ turned, List.getElem?_eq_getElem turned]
        rw [List.getElem?_append_right (by omega), copied,
          ih (index - order.length) (by omega) (by omega),
          ← Nat.mod_eq_sub_mod (by omega)]

end Cyclic

namespace Queues

open QueueEvent

/--
The steps addressed to one channel form rounds: an item is taken, and before
the next is taken one with its label is put back.  Steps addressed elsewhere
are interleaved freely.  The index is the label still to be put back.
-/
inductive Rounds (label : Item → Label) (channel : Channel) :
    List (QueueEvent Channel Item) → Option Label → Prop where
  | start : Rounds label channel [] none
  | elsewhere {events : List (QueueEvent Channel Item)} {pending : Option Label}
      {event : QueueEvent Channel Item} (earlier : Rounds label channel events pending)
      (other : event.channel? ≠ some channel) :
      Rounds label channel (events ++ [event]) pending
  | take {events : List (QueueEvent Channel Item)} (result : Option Item)
      (earlier : Rounds label channel events none) :
      Rounds label channel (events ++ [.take channel result]) (result.map label)
  | putBack {events : List (QueueEvent Channel Item)} (item : Item)
      (earlier : Rounds label channel events (some (label item))) :
      Rounds label channel (events ++ [.put channel item]) none

variable [DecidableEq Channel] {label : Item → Label} {channel : Channel}
variable {pending : Option Label} {stamp : Item → Nat}
variable {start final : Queues Channel Item}
variable {history : List (Transition (Queues Channel Item) (QueueEvent Channel Item))}

/-- During rounds the services are the arrivals and the label not yet put back. -/
theorem Rounds.served_eq {events : List (QueueEvent Channel Item)}
    (rounds : Rounds label channel events pending) :
    (served channel events).map label =
      (arrived channel events).map label ++ pending.toList := by
  induction rounds with
  | start => rfl
  | elsewhere earlier other ih =>
      rw [served_append, arrived_append, served_of_ne other, arrived_of_ne other,
        List.append_nil, List.append_nil]
      exact ih
  | take result earlier ih =>
      rw [served_append, arrived_append, served_take_self, List.map_append, ih]
      cases result <;> simp [arrived]
  | putBack item earlier ih =>
      rw [served_append, arrived_append, arrived_put_self, List.map_append, ih]
      simp [served]

/-- Rounds on a channel serve its items cyclically. -/
theorem Rounds.cyclic (rounds : Rounds label channel (labels history) pending)
    (run : Run (Step Placement.tail stamp) start history final)
    (nonempty : start.waiting channel ≠ []) :
    Cyclic ((start.waiting channel).map label)
      ((served channel (labels history)).map label) := by
  have law := congrArg (List.map label) (log run channel)
  rw [List.map_append, List.map_append] at law
  refine Cyclic.of_log (by simpa using nonempty) ?_ law
  rw [rounds.served_eq]
  exact List.prefix_append _ _

/-- Between rounds as many items wait on the channel as at the start. -/
theorem Rounds.length_waiting (rounds : Rounds label channel (labels history) none)
    (run : Run (Step Placement.tail stamp) start history final) :
    (final.waiting channel).length = (start.waiting channel).length := by
  have law := congrArg List.length (log run channel)
  have even := congrArg List.length rounds.served_eq
  simp only [List.length_append, List.length_map, Option.toList_none,
    List.append_nil] at law even
  omega

end Queues

end SchedExt.Foundations
