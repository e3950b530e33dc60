import Mathlib.Data.List.Nodup
import SchedExt.Foundations.Run

/-!
# Logs of one first-in first-out queue

A queue without a clock: items are appended at the tail and removed from the
head.  What was appended is what was removed followed by what is left.
-/

namespace SchedExt.Foundations

universe u v

/-- What one step does to a queue; a removal shows the item removed, if any. -/
inductive FifoAction (Item : Type u) where
  | append (item : Item)
  | remove (result : Option Item)
  | keep

namespace FifoAction

variable {Item : Type u}

/-- The actions of a first-in first-out queue. -/
inductive Acts : List Item → FifoAction Item → List Item → Prop where
  | append (queue : List Item) (item : Item) : Acts queue (.append item) (queue ++ [item])
  | remove (queue : List Item) : Acts queue (.remove queue.head?) queue.tail
  | keep (queue : List Item) : Acts queue .keep queue

theorem Acts.eq_append {queue after : List Item} {item : Item}
    (acts : Acts queue (.append item) after) : after = queue ++ [item] := by
  cases acts
  rfl

/-- What is there after a step was there before or has been appended. -/
theorem Acts.mem {queue after : List Item} {action : FifoAction Item}
    (acts : Acts queue action after) {item : Item} (member : item ∈ after) :
    item ∈ queue ∨ action = .append item := by
  cases acts with
  | append added =>
      rcases List.mem_append.mp member with old | new
      · exact Or.inl old
      · rw [List.mem_singleton.mp new]
        exact Or.inr rfl
  | remove => exact Or.inl (List.mem_of_mem_tail member)
  | keep => exact Or.inl member

/-- What is not there after a step was not there before or has been removed. -/
theorem Acts.mem_or_removed {queue after : List Item} {action : FifoAction Item}
    (acts : Acts queue action after) {item : Item} (member : item ∈ queue) :
    item ∈ after ∨ action = .remove (some item) := by
  cases acts with
  | append added => exact Or.inl (List.mem_append_left _ member)
  | remove =>
      cases queue with
      | nil => cases member
      | cons head rest =>
          rcases List.mem_cons.mp member with rfl | behind
          · exact Or.inr rfl
          · exact Or.inl behind
  | keep => exact Or.inl member

/-- An item that is there once is gone when it has been removed. -/
theorem Acts.not_mem_of_removed {queue after : List Item} {item : Item}
    (acts : Acts queue (.remove (some item)) after) (nodup : queue.Nodup) : item ∉ after := by
  generalize shown : FifoAction.remove (some item) = action at acts
  cases acts with
  | append => cases shown
  | keep => cases shown
  | remove =>
      cases queue with
      | nil => cases shown
      | cons head rest =>
          obtain rfl : item = head := Option.some.inj (FifoAction.remove.inj shown)
          exact (List.nodup_cons.mp nodup).1

/-- Items stay distinct when only what is not there is appended. -/
theorem Acts.nodup {queue after : List Item} {action : FifoAction Item}
    (acts : Acts queue action after) (nodup : queue.Nodup)
    (absent : ∀ item, action = .append item → item ∉ queue) : after.Nodup := by
  cases acts with
  | append added =>
      exact List.nodup_append_comm.mp (List.nodup_cons.mpr ⟨absent added rfl, nodup⟩)
  | remove => exact nodup.tail
  | keep => exact nodup

/-- An order of the queue is kept when nothing is appended that has to stand earlier. -/
theorem Acts.pairwise {queue after : List Item} {action : FifoAction Item}
    {order : Item → Item → Prop} (acts : Acts queue action after) (ordered : queue.Pairwise order)
    (atTail : ∀ item, action = .append item → ∀ other ∈ queue, order other item) :
    after.Pairwise order := by
  cases acts with
  | append added =>
      refine List.pairwise_append.mpr ⟨ordered, List.pairwise_singleton _ _, ?_⟩
      intro other member item appended
      rw [List.mem_singleton.mp appended]
      exact atTail added rfl other member
  | remove => exact ordered.tail
  | keep => exact ordered

def appended? : FifoAction Item → Option Item
  | .append item => some item
  | _ => none

def removed? : FifoAction Item → Option Item
  | .remove result => result
  | _ => none

/-- The items appended, oldest first. -/
def appended (actions : List (FifoAction Item)) : List Item :=
  actions.filterMap appended?

/-- The items removed, oldest first. -/
def removed (actions : List (FifoAction Item)) : List Item :=
  actions.filterMap removed?

/-- What was there and what was appended is what was removed and what is left. -/
theorem log {start final : List Item} {history : List (Transition (List Item) (FifoAction Item))}
    (run : Run Acts start history final) :
    start ++ appended (history.map Transition.event) =
      removed (history.map Transition.event) ++ final := by
  induction run with
  | refl => exact List.append_nil start
  | @tail history queue next action earlier last ih =>
      rw [appended, removed, List.map_append, List.filterMap_append, List.filterMap_append,
        ← List.append_assoc, ← appended, ← removed, ih, List.append_assoc, List.append_assoc]
      refine congrArg _ ?_
      cases last with
      | append item => rfl
      | remove =>
          cases queue with
          | nil => rfl
          | cons head rest => exact List.append_nil _
      | keep => exact List.append_nil _

/-- One step at a time, a system whose steps act on a queue keeps its log. -/
theorem log_simulate {State : Type u} {Event : Type v} {step : State → Event → State → Prop}
    {start final : State} {history : List (Transition State Event)} (queue : State → List Item)
    (action : Transition State Event → FifoAction Item) (run : Run step start history final)
    (acts : ∀ {before event after}, step before event after →
      Acts (queue before) (action ⟨before, event, after⟩) (queue after)) :
    queue start ++ appended (history.map action) =
      removed (history.map action) ++ queue final := by
  have simulated := log (run.simulate queue action acts)
  rw [List.map_map] at simulated
  exact simulated

/-- Two filters, one of which keeps less, agree on a list when they agree on each entry. -/
theorem filterMap_eq_iff {Entry : Type v} {all fewer : Entry → Option Item}
    {entries : List Entry}
    (less : ∀ entry ∈ entries, fewer entry = none ∨ fewer entry = all entry) :
    entries.filterMap all = entries.filterMap fewer ↔
      ∀ entry ∈ entries, all entry = fewer entry := by
  refine ⟨?_, List.filterMap_congr⟩
  induction entries with
  | nil =>
      intro _ entry member
      cases member
  | cons first rest ih =>
      intro same
      obtain ⟨atFirst, later⟩ := List.forall_mem_cons.mp less
      rw [List.forall_mem_cons]
      rcases atFirst with dropped | kept
      · cases whole : all first with
        | none =>
            rw [List.filterMap_cons_none whole, List.filterMap_cons_none dropped] at same
            exact ⟨dropped.symm, ih later same⟩
        | some item =>
            rw [List.filterMap_cons_some whole, List.filterMap_cons_none dropped] at same
            have shorter : (rest.filterMap fewer).length ≤ (rest.filterMap all).length := by
              rw [List.length_filterMap_eq_countP, List.length_filterMap_eq_countP]
              refine List.countP_mono_left fun entry member isSome => ?_
              rcases later entry member with none | equal
              · rw [none] at isSome
                cases isSome
              · rw [← equal]
                exact isSome
            have longer := congrArg List.length same
            rw [List.length_cons] at longer
            exact absurd shorter (Nat.not_le.mpr (longer ▸ Nat.lt_succ_self _))
      · refine ⟨kept.symm, ih later ?_⟩
        cases whole : all first with
        | none =>
            rw [List.filterMap_cons_none whole, List.filterMap_cons_none (kept.trans whole)] at same
            exact same
        | some item =>
            rw [List.filterMap_cons_some whole, List.filterMap_cons_some (kept.trans whole)] at same
            exact (List.cons.inj same).2

end FifoAction

end SchedExt.Foundations
