import Mathlib.Data.Finset.Max
import SchedExt.Foundations.LeastService

/-!
# Serving the oldest item

Every step serves an item with the oldest stamp and stamps it anew, and time
passes by no more than a period.  All items wait less than a limit in every run
exactly when, at the start, each would do so if everything that may be served
before it took a whole period.
-/

namespace SchedExt.Foundations

universe u

/-- Items that wait, and the time. -/
structure Waiting (Item : Type u) where
  clock : Nat
  items : Finset Item

variable {Item : Type u} [DecidableEq Item]

/-- An item with the oldest stamp is replaced by one stamped with the time after the step. -/
structure RenewsOldest (stamp : Item → Nat) (renew : Item → Nat → Item) (period : Nat)
    (before : Waiting Item) (served : Item) (after : Waiting Item) : Prop where
  known : served ∈ before.items
  oldest : ∀ other ∈ before.items, stamp served ≤ stamp other
  forward : before.clock ≤ after.clock
  short : after.clock ≤ before.clock + period
  replaced : after.items = (before.items \ {served}) ∪ {renew served after.clock}

/-- The other items that may be served before an item. -/
def ahead (stamp : Item → Nat) (items : Finset Item) (item : Item) : Finset Item :=
  items.filter fun other => other ≠ item ∧ stamp other ≤ stamp item

namespace Waiting

/-- No stamp is in the future. -/
def Stamped (stamp : Item → Nat) (waiting : Waiting Item) : Prop :=
  ∀ item ∈ waiting.items, stamp item ≤ waiting.clock

/-- Every item has waited less than the limit. -/
def InTime (stamp : Item → Nat) (limit : Nat) (waiting : Waiting Item) : Prop :=
  ∀ item ∈ waiting.items, waiting.clock < stamp item + limit

/-- Every item would wait less than the limit if all that may go first took a period each. -/
def Schedulable (stamp : Item → Nat) (period limit : Nat) (waiting : Waiting Item) : Prop :=
  ∀ item ∈ waiting.items,
    waiting.clock + period * (ahead stamp waiting.items item).card < stamp item + limit

end Waiting

namespace RenewsOldest

open Waiting

variable {stamp : Item → Nat} {renew : Item → Nat → Item} {period limit : Nat}
variable {before after start final : Waiting Item} {served item other : Item}
variable {history : List (Transition (Waiting Item) Item)}

theorem mem_ahead {items : Finset Item} :
    other ∈ ahead stamp items item ↔ other ∈ items ∧ other ≠ item ∧ stamp other ≤ stamp item :=
  Finset.mem_filter

theorem card_ahead_lt {items : Finset Item} (member : item ∈ items) :
    (ahead stamp items item).card < items.card := by
  refine Finset.card_lt_card (Finset.ssubset_iff_of_subset (Finset.filter_subset _ _) |>.mpr ?_)
  exact ⟨item, member, fun inside => (mem_ahead.mp inside).2.1 rfl⟩

theorem mem_iff (step : RenewsOldest stamp renew period before served after) :
    item ∈ after.items ↔
      (item ∈ before.items ∧ item ≠ served) ∨ item = renew served after.clock := by
  rw [step.replaced, mem_replaced]

/-- The items do not become more. -/
theorem card_le (step : RenewsOldest stamp renew period before served after) :
    after.items.card ≤ before.items.card := by
  rw [step.replaced]
  refine (Finset.card_union_le _ _).trans ?_
  rw [Finset.card_sdiff_of_subset (Finset.singleton_subset_iff.mpr step.known),
    Finset.card_singleton, Finset.card_singleton]
  have some : 0 < before.items.card := Finset.card_pos.mpr ⟨served, step.known⟩
  omega

section Renewed

variable (renewed : ∀ item clock, stamp (renew item clock) = clock)

include renewed

theorem stamped (step : RenewsOldest stamp renew period before served after)
    (past : Stamped stamp before) : Stamped stamp after := by
  intro item member
  rcases step.mem_iff.mp member with ⟨old, _⟩ | rfl
  · exact (past item old).trans step.forward
  · exact (renewed served after.clock).le

/-- Of what may go before an item, a step removes what it serves. -/
theorem ahead_after (step : RenewsOldest stamp renew period before served after)
    (earlier : stamp item < after.clock) :
    ahead stamp after.items item = (ahead stamp before.items item).erase served := by
  ext other
  rw [Finset.mem_erase, mem_ahead, mem_ahead, step.mem_iff]
  constructor
  · rintro ⟨⟨old, unserved⟩ | rfl, different, first⟩
    · exact ⟨unserved, old, different, first⟩
    · rw [renewed] at first
      exact absurd first (Nat.not_le_of_lt earlier)
  · rintro ⟨unserved, old, different, first⟩
    exact ⟨Or.inl ⟨old, unserved⟩, different, first⟩

end Renewed

/-! ## Sufficiency -/

/-- The latest item has all others ahead, so they fit into the limit. -/
theorem period_mul_card_lt (past : Stamped stamp before)
    (schedulable : Schedulable stamp period limit before) (member : item ∈ before.items) :
    period * (before.items.card - 1) < limit := by
  obtain ⟨latest, known, last⟩ := Finset.exists_max_image before.items stamp ⟨item, member⟩
  have whole : ahead stamp before.items latest = before.items.erase latest := by
    ext other
    rw [mem_ahead, Finset.mem_erase]
    exact ⟨fun inside => ⟨inside.2.1, inside.1⟩,
      fun inside => ⟨inside.2, inside.1, last other inside.2⟩⟩
  have fits := schedulable latest known
  have stampPast := past latest known
  rw [whole, Finset.card_erase_of_mem known] at fits
  omega

theorem schedulable (renewed : ∀ item clock, stamp (renew item clock) = clock)
    (step : RenewsOldest stamp renew period before served after) (past : Stamped stamp before)
    (fits : Schedulable stamp period limit before) : Schedulable stamp period limit after := by
  intro item member
  rcases Nat.lt_or_ge (stamp item) after.clock with earlier | fresh
  · -- the item was there before the step, and what the step served was ahead of it
    have old : item ∈ before.items ∧ item ≠ served := by
      rcases step.mem_iff.mp member with old | rfl
      · exact old
      · exact absurd (renewed served after.clock) (Nat.ne_of_lt earlier)
    have first : served ∈ ahead stamp before.items item :=
      mem_ahead.mpr ⟨step.known, old.2.symm, step.oldest item old.1⟩
    have room := fits item old.1
    rw [step.ahead_after renewed earlier]
    rw [← Finset.card_erase_add_one first, Nat.mul_add, Nat.mul_one] at room
    have short := step.short
    omega
  · have others := period_mul_card_lt past fits step.known
    have fewer : (ahead stamp after.items item).card < after.items.card := card_ahead_lt member
    have most : (ahead stamp after.items item).card ≤ before.items.card - 1 := by
      have noMore := step.card_le
      omega
    have longest := Nat.mul_le_mul_left period most
    omega

theorem inTime_of_run (renewed : ∀ item clock, stamp (renew item clock) = clock)
    (past : Stamped stamp start) (fits : Schedulable stamp period limit start)
    (run : Run (RenewsOldest stamp renew period) start history final) :
    InTime stamp limit final := by
  have kept : Stamped stamp final ∧ Schedulable stamp period limit final := by
    induction run with
    | refl => exact ⟨past, fits⟩
    | tail _ last ih => exact ⟨last.stamped renewed ih.1, last.schedulable renewed ih.1 ih.2⟩
  intro item member
  exact (Nat.le_add_right _ _).trans_lt (kept.2 item member)

/-! ## Necessity -/

/-- The oldest of what may go before an item is the oldest of all. -/
theorem exists_oldest_ahead {items : Finset Item} (some : (ahead stamp items item).Nonempty) :
    ∃ oldest ∈ ahead stamp items item, ∀ other ∈ items, stamp oldest ≤ stamp other := by
  obtain ⟨oldest, inside, least⟩ := Finset.exists_min_image _ stamp some
  have first := (mem_ahead.mp inside).2.2
  refine ⟨oldest, inside, fun other member => ?_⟩
  by_cases same : other = item
  · rw [same]
    exact first
  · rcases Nat.le_total (stamp other) (stamp item) with before | after
    · exact least other (mem_ahead.mpr ⟨member, same, before⟩)
    · exact first.trans after

/-- Serving all that may go first for a whole period each makes an item late. -/
theorem exists_late (renewed : ∀ item clock, stamp (renew item clock) = clock)
    (positive : 0 < period) (past : Stamped stamp start) (member : item ∈ start.items)
    (count : Nat) (others : (ahead stamp start.items item).card = count)
    (late : stamp item + limit ≤ start.clock + period * count) :
    ∃ history final, Run (RenewsOldest stamp renew period) start history final ∧
      ¬ InTime stamp limit final := by
  induction count generalizing start with
  | zero =>
      refine ⟨[], start, .refl, fun inTime => ?_⟩
      exact absurd (inTime item member) (Nat.not_lt_of_le late)
  | succ count ih =>
      have some : (ahead stamp start.items item).Nonempty := by
        rw [← Finset.card_pos, others]
        exact Nat.succ_pos count
      obtain ⟨oldest, inside, least⟩ := exists_oldest_ahead some
      obtain ⟨known, different, _⟩ := mem_ahead.mp inside
      have step : RenewsOldest stamp renew period start oldest
          ⟨start.clock + period,
            (start.items \ {oldest}) ∪ {renew oldest (start.clock + period)}⟩ :=
        ⟨known, least, Nat.le_add_right _ _, Nat.le_refl _, rfl⟩
      have earlier : stamp item < start.clock + period :=
        (past item member).trans_lt (Nat.lt_add_of_pos_right positive)
      obtain ⟨history, final, run, lost⟩ := ih (step.stamped renewed past)
        (step.mem_iff.mpr (Or.inl ⟨member, different.symm⟩))
        (by rw [step.ahead_after renewed earlier, Finset.card_erase_of_mem inside, others]
            rfl)
        (by rw [Nat.mul_add, Nat.mul_one] at late
            show stamp item + limit ≤ start.clock + period + period * count
            omega)
      exact ⟨_, final, run.cons step, lost⟩

/-- All items stay in time in every run exactly when they are schedulable at the start. -/
theorem inTime_of_runs_iff (renewed : ∀ item clock, stamp (renew item clock) = clock)
    (positive : 0 < period) (past : Stamped stamp start) :
    (∀ history final, Run (RenewsOldest stamp renew period) start history final →
      InTime stamp limit final) ↔ Schedulable stamp period limit start := by
  constructor
  · intro always item member
    by_contra late
    obtain ⟨history, final, run, lost⟩ := exists_late renewed positive past member _ rfl
      (Nat.le_of_not_lt late)
    exact lost (always history final run)
  · intro fits history final run
    exact inTime_of_run renewed past fits run

end RenewsOldest

end SchedExt.Foundations
