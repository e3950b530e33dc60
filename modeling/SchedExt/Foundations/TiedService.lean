import SchedExt.Foundations.CyclicService
import SchedExt.Foundations.PriorityPlacement

/-!
# Rounds on a priority channel

Items that are put back with the key that they had are placed behind those of
equal key and before those of larger key.  So rounds on a channel serve its
least items over and over, and no other ever.
-/

namespace SchedExt.Foundations

universe u v w x

/-- Cyclic service of labels is cyclic service of what they show. -/
theorem Cyclic.map {Label : Type w} {Shown : Type x} {order services : List Label}
    (cyclic : Cyclic order services) (shown : Label → Shown) :
    Cyclic (order.map shown) (services.map shown) := by
  intro index bound
  rw [List.length_map] at bound
  rw [List.getElem?_map, List.getElem?_map, List.length_map, cyclic index bound]

/-- Only labels of the order are served. -/
theorem Cyclic.mem_order {Label : Type w} {order services : List Label}
    (cyclic : Cyclic order services) {label : Label} (served : label ∈ services) :
    label ∈ order := by
  obtain ⟨index, bound, rfl⟩ := List.getElem_of_mem served
  have here := cyclic index bound
  rw [List.getElem?_eq_getElem bound] at here
  exact List.mem_of_getElem? here.symm

/-- A whole turn serves every label of the order. -/
theorem Cyclic.mem_services {Label : Type w} {order services : List Label}
    (cyclic : Cyclic order services) (turn : order.length ≤ services.length) {label : Label}
    (member : label ∈ order) : label ∈ services := by
  obtain ⟨index, bound, rfl⟩ := List.getElem_of_mem member
  have here := cyclic index (Nat.lt_of_lt_of_le bound turn)
  rw [Nat.mod_eq_of_lt bound, List.getElem?_eq_getElem bound] at here
  exact List.mem_of_getElem? here

namespace Queues

open QueueEvent

variable {Channel : Type u} {Item : Type v} {Label : Type w} {Key : Type x} [LinearOrder Key]
variable [DecidableEq Channel] {label : Item → Label} {key : Item → Key} {stamp : Item → Nat}
variable {channel : Channel} {pending : Option Label} {events : List (QueueEvent Channel Item)}
variable {start final : Queues Channel Item}
variable {history : List (Transition (Queues Channel Item) (QueueEvent Channel Item))}

omit [DecidableEq Channel] in
/-- The last event of rounds is elsewhere, takes an item, or puts back the pending one. -/
theorem Rounds.concat_cases {event : QueueEvent Channel Item}
    (rounds : Rounds label channel (events ++ [event]) pending) :
    (event.channel? ≠ some channel ∧ Rounds label channel events pending) ∨
    (∃ result, event = .take channel result ∧ pending = result.map label ∧
      Rounds label channel events none) ∨
    ∃ item, event = .put channel item ∧ pending = none ∧
      Rounds label channel events (some (label item)) := by
  generalize whole : events ++ [event] = all at rounds
  cases rounds with
  | start => exact absurd whole (List.append_ne_nil_of_right_ne_nil _ (List.cons_ne_nil _ _))
  | elsewhere earlier other =>
      obtain ⟨rfl, same⟩ := List.append_inj' whole rfl
      cases same
      exact .inl ⟨other, earlier⟩
  | take result earlier =>
      obtain ⟨rfl, same⟩ := List.append_inj' whole rfl
      cases same
      exact .inr (.inl ⟨result, rfl, rfl, earlier⟩)
  | putBack item earlier =>
      obtain ⟨rfl, same⟩ := List.append_inj' whole rfl
      cases same
      exact .inr (.inr ⟨item, rfl, rfl, earlier⟩)

/-- An item of the least key is placed between those of that key and those of larger ones. -/
theorem ordered_place_between {item : Item} {tied greater : List Item}
    (equal : ∀ other ∈ tied, key other = key item)
    (larger : ∀ other ∈ greater, key item < key other) :
    (Placement.ordered key).place item (tied ++ greater) = tied ++ item :: greater := by
  induction tied with
  | nil =>
      cases greater with
      | nil => rfl
      | cons next rest => exact if_pos (larger next List.mem_cons_self)
  | cons first rest ih =>
      have here := equal first List.mem_cons_self
      have later := ih fun other member => equal other (List.mem_cons_of_mem _ member)
      change (if key item < key first then _ else first :: (Placement.ordered key).place item _) = _
      rw [if_neg (not_lt.mpr here.le)]
      exact congrArg (List.cons first) later

variable (label key) in
/-- The channel has some items of one key, in the order of the rounds, before the larger ones. -/
structure Tied (front greater : List Item) (least : Key)
    (events : List (QueueEvent Channel Item)) (channel : Channel) (pending : Option Label)
    (tied waiting : List Item) : Prop where
  split : waiting = tied ++ greater
  equal : ∀ item ∈ tied, key item = least
  log : front.map label ++ (arrived channel events).map label =
    (served channel events).map label ++ tied.map label
  out : ∀ taken, pending = some taken → ∃ item, label item = taken ∧ key item = least

omit [DecidableEq Channel] in
theorem Rounds.pending_of_nil (rounds : Rounds label channel [] pending) : pending = none := by
  generalize whole : ([] : List (QueueEvent Channel Item)) = all at rounds
  cases rounds with
  | start => rfl
  | elsewhere earlier other =>
      exact absurd whole.symm (List.append_ne_nil_of_right_ne_nil _ (List.cons_ne_nil _ _))
  | take result earlier =>
      exact absurd whole.symm (List.append_ne_nil_of_right_ne_nil _ (List.cons_ne_nil _ _))
  | putBack item earlier =>
      exact absurd whole.symm (List.append_ne_nil_of_right_ne_nil _ (List.cons_ne_nil _ _))

section Steps

variable {front greater tied waiting : List Item} {least : Key}

omit [LinearOrder Key] in
/-- Between rounds some of the items wait. -/
theorem Tied.ne_nil (tiedHere : Tied label key front greater least events channel none tied waiting)
    (nonempty : front ≠ []) (rounds : Rounds label channel events none) : tied ≠ [] := by
  rintro rfl
  have lengths := congrArg List.length tiedHere.log
  rw [rounds.served_eq] at lengths
  simp only [List.length_append, List.length_map, Option.toList_none, List.map_nil,
    List.append_nil] at lengths
  exact nonempty (List.eq_nil_of_length_eq_zero (by omega))

omit [LinearOrder Key] in
theorem Tied.elsewhere {event : QueueEvent Channel Item}
    (tiedHere : Tied label key front greater least events channel pending tied waiting)
    (other : event.channel? ≠ some channel) :
    Tied label key front greater least (events ++ [event]) channel pending tied waiting where
  split := tiedHere.split
  equal := tiedHere.equal
  log := by
    rw [arrived_append, served_append, arrived_of_ne other, served_of_ne other, List.append_nil,
      List.append_nil]
    exact tiedHere.log
  out := tiedHere.out

omit [LinearOrder Key] in
/-- The head that is taken is one of the tied items. -/
theorem Tied.take (tiedHere : Tied label key front greater least events channel none tied waiting)
    (nonempty : tied ≠ []) :
    Tied label key front greater least (events ++ [.take channel waiting.head?]) channel
      (waiting.head?.map label) tied.tail waiting.tail := by
  cases tied with
  | nil => exact absurd rfl nonempty
  | cons first rest =>
      obtain ⟨rfl, equal, log, -⟩ := tiedHere
      refine ⟨rfl, fun item member => equal item (List.mem_cons_of_mem _ member), ?_, ?_⟩
      · rw [arrived_append, served_append, served_take_self, List.map_append, List.map_append,
          ← List.append_assoc, log]
        simp [arrived]
      · rintro taken same
        cases same
        exact ⟨first, rfl, equal first List.mem_cons_self⟩

/-- An item that is put back goes behind the tied ones. -/
theorem Tied.putBack {item : Item}
    (tiedHere : Tied label key front greater least events channel (some (label item)) tied waiting)
    (keyed : ∀ {first second}, label first = label second → key first = key second)
    (larger : ∀ item ∈ greater, least < key item) :
    Tied label key front greater least (events ++ [.put channel item]) channel none
      (tied ++ [item]) ((Placement.ordered key).place item waiting) := by
  obtain ⟨rfl, equal, log, out⟩ := tiedHere
  obtain ⟨other, sameLabel, otherKey⟩ := out _ rfl
  have here : key item = least := (keyed sameLabel).symm.trans otherKey
  refine ⟨?_, ?_, ?_, fun taken none => nomatch none⟩
  · rw [ordered_place_between (fun other member => (equal other member).trans here.symm)
      (fun other member => here ▸ larger other member), List.append_assoc]
    rfl
  · refine List.forall_mem_append.mpr ⟨equal, List.forall_mem_singleton.mpr here⟩
  · rw [arrived_append, served_append, arrived_put_self, List.map_append, List.map_append,
      ← List.append_assoc, log]
    simp [served]

end Steps

/-- Rounds keep the least items apart from the larger ones, which stay as they are. -/
theorem tied_of_run {front greater : List Item} {least : Key}
    (keyed : ∀ {first second}, label first = label second → key first = key second)
    (equal : ∀ item ∈ front, key item = least) (larger : ∀ item ∈ greater, least < key item)
    (nonempty : front ≠ []) (split : start.waiting channel = front ++ greater)
    (run : Run (Step (Placement.ordered key) stamp) start history final)
    (rounds : Rounds label channel (labels history) pending) :
    ∃ tied, Tied label key front greater least (labels history) channel pending tied
      (final.waiting channel) := by
  induction run generalizing pending with
  | refl =>
      refine ⟨front, split, equal, List.append_nil _, fun taken out => ?_⟩
      rw [rounds.pending_of_nil] at out
      cases out
  | tail earlier last ih =>
      rw [labels, List.map_append, List.map_singleton] at rounds ⊢
      rcases rounds.concat_cases with ⟨other, before⟩ | ⟨result, rfl, rfl, before⟩ |
        ⟨item, rfl, rfl, before⟩
      · obtain ⟨tied, tiedHere⟩ := ih before
        rcases last.at_channel channel with ⟨_, kept⟩ | ⟨item, rfl, _⟩ | ⟨rfl, _⟩
        · rw [kept]
          exact ⟨tied, tiedHere.elsewhere other⟩
        · exact absurd rfl other
        · exact absurd rfl other
      · obtain ⟨tied, tiedHere⟩ := ih before
        cases last with
        | take =>
            rw [take_waiting_self]
            exact ⟨_, tiedHere.take (tiedHere.ne_nil nonempty before)⟩
      · obtain ⟨tied, tiedHere⟩ := ih before
        cases last with
        | put _ _ now =>
            rw [put_waiting_self]
            exact ⟨_, tiedHere.putBack keyed larger⟩

/-- Rounds serve the least items cyclically, and leave the larger ones where they are. -/
theorem Rounds.cyclic_least {front greater : List Item} {least : Key}
    (keyed : ∀ {first second}, label first = label second → key first = key second)
    (equal : ∀ item ∈ front, key item = least) (larger : ∀ item ∈ greater, least < key item)
    (nonempty : front ≠ []) (split : start.waiting channel = front ++ greater)
    (run : Run (Step (Placement.ordered key) stamp) start history final)
    (rounds : Rounds label channel (labels history) pending) :
    Cyclic (front.map label) ((served channel (labels history)).map label) ∧
      ∃ tied, final.waiting channel = tied ++ greater ∧ ∀ item ∈ tied, key item = least := by
  obtain ⟨tied, tiedHere⟩ := tied_of_run keyed equal larger nonempty split run rounds
  refine ⟨Cyclic.of_log (fun empty => nonempty (List.map_eq_nil_iff.mp empty)) ?_ tiedHere.log,
    tied, tiedHere.split, tiedHere.equal⟩
  rw [rounds.served_eq]
  exact List.prefix_append _ _

end Queues

end SchedExt.Foundations
