import Mathlib.Algebra.Group.Pi.Basic
import Mathlib.Algebra.Ring.Nat
import Mathlib.Data.List.Basic
import Mathlib.Data.Sum.Basic

/-!
# Items in one of many places

Lists indexed by places, into which items are put at the end, from which they
are taken, and between which the first one is moved.  An item is settled at a
place when it is there once and nowhere else.  The operations keep every item
that has to be inside settled, and every other one out.
-/

namespace SchedExt.Foundations.Locations

universe u v

variable {Place : Type u} {Item : Type v} [DecidableEq Place] [DecidableEq Item]

/-- How often an item is in each place. -/
def occurrences (contents : Place → List Item) (item : Item) : Place → Nat :=
  fun place => (contents place).count item

/-- The item is in this place, once, and in no other. -/
def Settled (contents : Place → List Item) (item : Item) (place : Place) : Prop :=
  occurrences contents item = Pi.single place 1

/-- The item is in no place. -/
def Absent (contents : Place → List Item) (item : Item) : Prop :=
  occurrences contents item = 0

def put (contents : Place → List Item) (place : Place) (item : Item) : Place → List Item :=
  Function.update contents place (contents place ++ [item])

def takeOut (contents : Place → List Item) (place : Place) (item : Item) : Place → List Item :=
  Function.update contents place ((contents place).erase item)

/-- The first item of one place, if any, goes to the end of another. -/
def moveFirst (contents : Place → List Item) (source target : Place) : Place → List Item :=
  match contents source with
  | [] => contents
  | item :: rest => put (Function.update contents source rest) target item

variable {contents : Place → List Item} {place other : Place} {item moved : Item}

/-! ## What is said by the numbers -/

omit [DecidableEq Place] in
theorem absent_iff : Absent contents item ↔ ∀ place, item ∉ contents place := by
  rw [Absent, funext_iff]
  exact forall_congr' fun place => List.count_eq_zero

omit [DecidableEq Place] in
theorem occurrences_pos : 0 < occurrences contents item place ↔ item ∈ contents place :=
  List.count_pos_iff

/-- A number that is one at a single place is at least one there only. -/
theorem eq_of_single_eq_add {counts : Place → Nat}
    (same : Pi.single place 1 = counts + Pi.single other 1) : place = other ∧ counts = 0 := by
  have here : place = other := by
    by_contra apart
    have there := congrFun same other
    rw [Pi.single_eq_of_ne (Ne.symm apart), Pi.add_apply, Pi.single_eq_same] at there
    exact Nat.succ_ne_zero _ there.symm
  subst here
  refine ⟨rfl, funext fun there => ?_⟩
  have pointwise := congrFun same there
  rw [Pi.add_apply] at pointwise
  exact Nat.add_eq_right.mp pointwise.symm

theorem Settled.mem (settled : Settled contents item place) : item ∈ contents place := by
  rw [← occurrences_pos, settled, Pi.single_eq_same]
  exact Nat.one_pos

/-- Wherever a settled item is found is its place. -/
theorem Settled.eq_of_mem (settled : Settled contents item place) (found : item ∈ contents other) :
    place = other := by
  by_contra apart
  rw [← occurrences_pos, settled, Pi.single_eq_of_ne (Ne.symm apart)] at found
  exact Nat.lt_irrefl 0 found

theorem Settled.count_eq_one (settled : Settled contents item place) :
    (contents place).count item = 1 := by
  have here := congrFun settled place
  rw [Pi.single_eq_same] at here
  exact here

/-! ## What the operations do to the numbers -/

theorem occurrences_update (contents : Place → List Item) (place : Place) (after : List Item)
    (item : Item) :
    occurrences (Function.update contents place after) item =
      Function.update (occurrences contents item) place (after.count item) := by
  funext there
  by_cases same : there = place
  · subst same
    simp [occurrences]
  · simp [occurrences, same]

theorem occurrences_put (contents : Place → List Item) (place : Place) (moved item : Item) :
    occurrences (put contents place moved) item =
      occurrences contents item + if moved = item then Pi.single place 1 else 0 := by
  rw [put, occurrences_update, List.count_append]
  funext there
  by_cases same : there = place
  · subst same
    by_cases own : moved = item
    · simp [occurrences, own]
    · simp [occurrences, own]
  · by_cases own : moved = item
    · simp [own, same]
    · simp [own, same]

theorem occurrences_takeOut (found : moved ∈ contents place) (item : Item) :
    occurrences contents item =
      occurrences (takeOut contents place moved) item +
        if moved = item then Pi.single place 1 else 0 := by
  rw [takeOut, occurrences_update]
  funext there
  by_cases same : there = place
  · subst same
    by_cases own : moved = item
    · subst own
      have positive : 0 < (contents there).count moved := List.count_pos_iff.mpr found
      simp only [occurrences, if_pos, Pi.add_apply, Function.update_self, List.count_erase_self,
        Pi.single_eq_same]
      omega
    · simp [occurrences, own, List.count_erase_of_ne (Ne.symm own)]
  · by_cases own : moved = item
    · simp [own, same]
    · simp [own, same]

omit [DecidableEq Item] in
theorem moveFirst_eq_put {rest : List Item} (whole : contents place = moved :: rest) :
    moveFirst contents place other =
      put (Function.update contents place rest) other moved := by
  rw [moveFirst, whole]

/-- The first item is taken from its place and put at the end of the other. -/
theorem moveFirst_of_cons {rest : List Item} (whole : contents place = moved :: rest) :
    moveFirst contents place other = put (takeOut contents place moved) other moved := by
  rw [moveFirst_eq_put whole, takeOut, whole, List.erase_cons_head]

omit [DecidableEq Item] in
theorem moveFirst_of_nil (whole : contents place = []) :
    moveFirst contents place other = contents := by
  rw [moveFirst, whole]

section Beside

variable {Other : Type*} [DecidableEq Other] (contents : Place → List Item)
variable (beside : Other → List Item)

omit [DecidableEq Item] in
/-- What happens at one of some places leaves those beside them alone. -/
theorem put_elim (place : Place) (item : Item) :
    put (Sum.elim contents beside) (.inl place) item =
      Sum.elim (put contents place item) beside :=
  Sum.update_elim_inl

theorem takeOut_elim (place : Place) (item : Item) :
    takeOut (Sum.elim contents beside) (.inl place) item =
      Sum.elim (takeOut contents place item) beside :=
  Sum.update_elim_inl

omit [DecidableEq Item] in
theorem moveFirst_elim (source target : Place) :
    moveFirst (Sum.elim contents beside) (.inl source) (.inl target) =
      Sum.elim (moveFirst contents source target) beside := by
  unfold moveFirst
  dsimp only [Sum.elim_inl]
  cases contents source with
  | nil => rfl
  | cons item rest =>
      dsimp only
      rw [Sum.update_elim_inl, put_elim]

end Beside

/-! ## What becomes of an item -/

theorem Absent.put (absent : Absent contents item) (place : Place) :
    Settled (put contents place item) item place := by
  rw [Settled, occurrences_put, if_pos rfl, absent, zero_add]

theorem occurrences_put_of_ne (apart : moved ≠ item) (place : Place) :
    occurrences (put contents place moved) item = occurrences contents item := by
  rw [occurrences_put, if_neg apart, add_zero]

theorem Settled.takeOut (settled : Settled contents item place)
    (found : item ∈ contents other) : Absent (takeOut contents other item) item := by
  have same := occurrences_takeOut found item
  rw [if_pos rfl, settled] at same
  exact (eq_of_single_eq_add same).2

theorem occurrences_takeOut_of_ne (found : moved ∈ contents place) (apart : moved ≠ item) :
    occurrences (Locations.takeOut contents place moved) item = occurrences contents item := by
  rw [occurrences_takeOut found item, if_neg apart, add_zero]

/-- A settled item stays settled when first items are moved. -/
theorem Settled.moveFirst (settled : Settled contents item place) (source target : Place) :
    ∃ there, Settled (moveFirst contents source target) item there := by
  cases whole : contents source with
  | nil =>
      rw [moveFirst_of_nil whole]
      exact ⟨place, settled⟩
  | cons moved rest =>
      have found : moved ∈ contents source := by
        rw [whole]
        exact List.mem_cons_self
      rw [moveFirst_of_cons whole]
      by_cases own : moved = item
      · subst own
        exact ⟨target, (settled.takeOut found).put target⟩
      · refine ⟨place, ?_⟩
        rw [Settled, occurrences_put_of_ne own, occurrences_takeOut_of_ne found own]
        exact settled

/-- An item that is nowhere is not moved. -/
theorem Absent.moveFirst (absent : Absent contents item) (source target : Place) :
    Absent (moveFirst contents source target) item := by
  cases whole : contents source with
  | nil =>
      rw [moveFirst_of_nil whole]
      exact absent
  | cons moved rest =>
      have found : moved ∈ contents source := by
        rw [whole]
        exact List.mem_cons_self
      have apart : moved ≠ item := by
        rintro rfl
        exact absent_iff.mp absent source found
      rw [moveFirst_of_cons whole, Absent, occurrences_put_of_ne apart,
        occurrences_takeOut_of_ne found apart]
      exact absent

/-! ## What becomes of all items -/

/-- The items that are inside are in one place each, once, and the others in none. -/
structure Tracked (contents : Place → List Item) (inside : Item → Prop) : Prop where
  settled : ∀ item, inside item → ∃ place, Settled contents item place
  absent : ∀ item, ¬ inside item → Absent contents item

namespace Tracked

variable {inside later : Item → Prop}

theorem congr (tracked : Tracked contents inside) (same : ∀ item, later item ↔ inside item) :
    Tracked contents later where
  settled item now := tracked.settled item ((same item).mp now)
  absent item out := tracked.absent item fun before => out ((same item).mpr before)

theorem moveFirst (tracked : Tracked contents inside) (source target : Place) :
    Tracked (moveFirst contents source target) inside where
  settled item now := by
    obtain ⟨place, settled⟩ := tracked.settled item now
    exact settled.moveFirst source target
  absent item out := (tracked.absent item out).moveFirst source target

/-- An item that was outside may be put anywhere. -/
theorem put (tracked : Tracked contents inside) (place : Place) (outside : ¬ inside item)
    (enters : later item) (others : ∀ other, other ≠ item → (later other ↔ inside other)) :
    Tracked (put contents place item) later where
  settled other now := by
    by_cases same : other = item
    · subst same
      exact ⟨place, (tracked.absent other outside).put place⟩
    · obtain ⟨there, settled⟩ := tracked.settled other ((others other same).mp now)
      exact ⟨there, (occurrences_put_of_ne (Ne.symm same) place).trans settled⟩
  absent other out := by
    have apart : other ≠ item := by
      rintro rfl
      exact out enters
    have before := tracked.absent other fun now => out ((others other apart).mpr now)
    exact (occurrences_put_of_ne (Ne.symm apart) place).trans before

/-- An item that is found is outside once it is taken. -/
theorem takeOut (tracked : Tracked contents inside) (found : item ∈ contents place)
    (leaves : ¬ later item) (others : ∀ other, other ≠ item → (later other ↔ inside other)) :
    Tracked (takeOut contents place item) later where
  settled other now := by
    have apart : other ≠ item := by
      rintro rfl
      exact leaves now
    obtain ⟨there, settled⟩ := tracked.settled other ((others other apart).mp now)
    exact ⟨there, (occurrences_takeOut_of_ne found (Ne.symm apart)).trans settled⟩
  absent other out := by
    by_cases same : other = item
    · subst same
      by_cases before : inside other
      · obtain ⟨there, settled⟩ := tracked.settled other before
        exact settled.takeOut found
      · exact absurd found (absent_iff.mp (tracked.absent other before) place)
    · have before := tracked.absent other fun now => out ((others other same).mpr now)
      exact (occurrences_takeOut_of_ne found (Ne.symm same)).trans before

/-- With nothing in the places beside them, some places have all items. -/
theorem of_elim {Other : Type*} [DecidableEq Other] {beside : Other → List Item}
    (tracked : Tracked (Sum.elim contents beside) inside) (empty : ∀ other, beside other = []) :
    Tracked contents inside where
  settled item now := by
    obtain ⟨site, settled⟩ := tracked.settled item now
    cases site with
    | inl place =>
        refine ⟨place, funext fun there => (congrFun settled (.inl there)).trans ?_⟩
        by_cases same : there = place
        · rw [same, Pi.single_eq_same, Pi.single_eq_same]
        · rw [Pi.single_eq_of_ne same, Pi.single_eq_of_ne fun equal => same (Sum.inl.inj equal)]
    | inr other =>
        have inside : item ∈ beside other := settled.mem
        rw [empty other] at inside
        cases inside
  absent item out := by
    have nowhere := absent_iff.mp (tracked.absent item out)
    exact absent_iff.mpr fun place => nowhere (.inl place)

/-- Items that are tracked are in no place twice, and in no two places. -/
theorem unique (tracked : Tracked contents inside) (now : inside item) :
    ∃ place, (contents place).count item = 1 ∧ ∀ other, other ≠ place → item ∉ contents other := by
  obtain ⟨place, settled⟩ := tracked.settled item now
  exact ⟨place, settled.count_eq_one, fun other apart found => apart (settled.eq_of_mem found).symm⟩

end Tracked

end SchedExt.Foundations.Locations
