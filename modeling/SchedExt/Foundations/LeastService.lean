import Mathlib.Algebra.Order.BigOperators.Group.Finset
import SchedExt.Foundations.Run

/-!
# Serving the least item

Every step raises one of the items that have made the least progress.  Then no
item gets ahead of another by more than one raise, each is served after
finitely many steps, and all of them pass every bound.
-/

namespace SchedExt.Foundations

universe u v

variable {Item : Type u} {Owner : Type v} [DecidableEq Item]

theorem mem_replaced {items : Finset Item} {old new item : Item} :
    item ∈ (items \ {old}) ∪ {new} ↔ (item ∈ items ∧ item ≠ old) ∨ item = new := by
  rw [Finset.mem_union, Finset.mem_sdiff, Finset.mem_singleton, Finset.mem_singleton]

/-- An item of the least progress is replaced by the raised one. -/
structure ServesLeast (progress : Item → Nat) (raised : Item → Item)
    (before : Finset Item) (served : Item) (after : Finset Item) : Prop where
  known : served ∈ before
  least : ∀ other ∈ before, progress served ≤ progress other
  raises : progress served < progress (raised served)
  replaced : after = (before \ {served}) ∪ {raised served}

/-- How much progress the items lack in total to reach a bound. -/
def shortfall (progress : Item → Nat) (bound : Nat) (items : Finset Item) : Nat :=
  ∑ item ∈ items, (bound - progress item)

/-- No item is ahead of another by more than the gap. -/
def Within (progress : Item → Nat) (gap : Nat) (items : Finset Item) : Prop :=
  ∀ item ∈ items, ∀ other ∈ items, progress item ≤ progress other + gap

/-- How often an owner's items were served. -/
def servicesOf [DecidableEq Owner] (owner : Item → Owner)
    (history : List (Transition (Finset Item) Item)) (one : Owner) : Nat :=
  (history.map fun taken => owner taken.event).count one

namespace ServesLeast

variable {progress : Item → Nat} {raised : Item → Item}
variable {before after start final : Finset Item} {served item : Item}
variable {history : List (Transition (Finset Item) Item)}

theorem mem_iff (step : ServesLeast progress raised before served after) :
    item ∈ after ↔ (item ∈ before ∧ item ≠ served) ∨ item = raised served := by
  rw [step.replaced, mem_replaced]

/-- No item is lost: it stays, or its raised form takes its place. -/
theorem stays (step : ServesLeast progress raised before served after) (member : item ∈ before) :
    item ∈ after ∨ raised item ∈ after := by
  by_cases same : item = served
  · exact Or.inr (step.mem_iff.mpr (Or.inr (congrArg raised same)))
  · exact Or.inl (step.mem_iff.mpr (Or.inl ⟨member, same⟩))

/-- Every item is at the end as it was, raised some number of times. -/
theorem exists_iterate_of_run (run : Run (ServesLeast progress raised) start history final)
    (member : item ∈ start) : ∃ count, raised^[count] item ∈ final := by
  induction run with
  | refl => exact ⟨0, member⟩
  | tail earlier last ih =>
      obtain ⟨count, inside⟩ := ih
      rcases last.stays inside with same | next
      · exact ⟨count, same⟩
      · refine ⟨count + 1, ?_⟩
        rw [Function.iterate_succ_apply']
        exact next

/-! ## No item gets ahead by more than one raise -/

/-- The raise of a least item keeps a gap that it does not exceed. -/
theorem within (step : ServesLeast progress raised before served after) {gap : Nat}
    (small : progress (raised served) ≤ progress served + gap)
    (near : Within progress gap before) : Within progress gap after := by
  intro item member other otherMember
  have below := step.raises.le
  rcases step.mem_iff.mp member with ⟨old, _⟩ | rfl
  · rcases step.mem_iff.mp otherMember with ⟨otherOld, _⟩ | rfl
    · exact near item old other otherOld
    · exact (near item old served step.known).trans (Nat.add_le_add_right below gap)
  · rcases step.mem_iff.mp otherMember with ⟨otherOld, _⟩ | rfl
    · exact small.trans (Nat.add_le_add_right (step.least other otherOld) gap)
    · exact Nat.le_add_right _ _

/-- A gap that no raise exceeds is never exceeded between two items. -/
theorem within_of_run (run : Run (ServesLeast progress raised) start history final) {gap : Nat}
    (small : ∀ item, progress (raised item) ≤ progress item + gap)
    (initially : Within progress gap start) : Within progress gap final :=
  run.invariant initially fun near step => step.within (small _) near

/-! ## All items pass every bound -/

/-- Raising an item that is below a bound lowers the shortfall. -/
theorem shortfall_lt (step : ServesLeast progress raised before served after) {bound : Nat}
    (below : progress served < bound) :
    shortfall progress bound after < shortfall progress bound before := by
  have raises := step.raises
  have split : bound - progress served + shortfall progress bound (before.erase served) =
      shortfall progress bound before :=
    Finset.add_sum_erase before (fun item => bound - progress item) step.known
  rw [step.replaced, ← Finset.erase_eq, Finset.union_comm, ← Finset.insert_eq]
  by_cases merged : raised served ∈ before.erase served
  · rw [Finset.insert_eq_of_mem merged]
    omega
  · have grown : shortfall progress bound (insert (raised served) (before.erase served)) =
        bound - progress (raised served) + shortfall progress bound (before.erase served) :=
      Finset.sum_insert merged
    omega

/-- Items that are beyond a bound stay beyond it. -/
theorem beyond (step : ServesLeast progress raised before served after) {bound : Nat}
    (reached : ∀ item ∈ before, bound ≤ progress item) :
    ∀ item ∈ after, bound ≤ progress item := by
  intro item member
  rcases step.mem_iff.mp member with ⟨old, _⟩ | rfl
  · exact reached item old
  · exact (reached served step.known).trans step.raises.le

/-- Until all items are beyond a bound, every step uses up some of the shortfall. -/
theorem beyond_or_length_le (run : Run (ServesLeast progress raised) start history final)
    (bound : Nat) :
    (∀ item ∈ final, bound ≤ progress item) ∨
      history.length + shortfall progress bound final ≤ shortfall progress bound start := by
  induction run with
  | refl => exact Or.inr (Nat.zero_add _).le
  | @tail history state next event earlier last ih =>
      rcases ih with reached | lacking
      · exact Or.inl (last.beyond reached)
      · by_cases below : progress event < bound
        · right
          have less := last.shortfall_lt below
          rw [List.length_append, List.length_singleton]
          omega
        · left
          exact last.beyond fun item member =>
            (Nat.le_of_not_lt below).trans (last.least item member)

/-- More steps than the shortfall take all items beyond the bound. -/
theorem beyond_of_length (run : Run (ServesLeast progress raised) start history final)
    {bound : Nat} (long : shortfall progress bound start < history.length) :
    ∀ item ∈ final, bound ≤ progress item := by
  rcases beyond_or_length_le run bound with reached | lacking
  · exact reached
  · omega

/-! ## Services of owners -/

section Owners

variable [DecidableEq Owner] {owner : Item → Owner}

omit [DecidableEq Item] [DecidableEq Owner] in
theorem owner_iterate (owned : ∀ item, owner (raised item) = owner item) (count : Nat)
    (item : Item) : owner (raised^[count] item) = owner item := by
  induction count with
  | zero => rfl
  | succ count ih =>
      rw [Function.iterate_succ_apply', owned, ih]

omit [DecidableEq Item] in
theorem servicesOf_concat (history : List (Transition (Finset Item) Item))
    (last : Transition (Finset Item) Item) (one : Owner) :
    servicesOf owner (history ++ [last]) one =
      servicesOf owner history one + if owner last.event = one then 1 else 0 := by
  unfold servicesOf
  rw [List.map_append, List.count_append, List.map_singleton, List.count_singleton]
  simp only [beq_iff_eq]

/-- With one item for each owner, every item was raised as often as its owner was served. -/
theorem items_of_run (owned : ∀ item, owner (raised item) = owner item)
    (single : Set.InjOn owner start)
    (run : Run (ServesLeast progress raised) start history final) :
    final = start.image fun item => raised^[servicesOf owner history (owner item)] item := by
  induction run with
  | refl => exact Finset.image_id.symm
  | @tail history state next event earlier last ih =>
      obtain ⟨chosen, chosenMember, rfl⟩ := Finset.mem_image.mp (ih ▸ last.known)
      ext item
      rw [last.mem_iff, ih, Finset.mem_image, Finset.mem_image]
      simp only [servicesOf_concat, owner_iterate owned]
      constructor
      · rintro (⟨⟨source, member, rfl⟩, other⟩ | rfl)
        · refine ⟨source, member, ?_⟩
          have different : owner chosen ≠ owner source := by
            intro same
            rw [single chosenMember member same] at other
            exact other rfl
          rw [if_neg different, Nat.add_zero]
        · refine ⟨chosen, chosenMember, ?_⟩
          rw [if_pos rfl, Function.iterate_succ_apply']
      · rintro ⟨source, member, rfl⟩
        by_cases same : owner chosen = owner source
        · right
          rw [if_pos same, Function.iterate_succ_apply', single chosenMember member same]
        · left
          rw [if_neg same, Nat.add_zero]
          refine ⟨⟨source, member, rfl⟩, fun equal => same ?_⟩
          have owners := congrArg owner equal
          rw [owner_iterate owned, owner_iterate owned] at owners
          exact owners.symm

/-- The present form of an item of the start. -/
theorem present_of_run (owned : ∀ item, owner (raised item) = owner item)
    (single : Set.InjOn owner start)
    (run : Run (ServesLeast progress raised) start history final) (member : item ∈ start) :
    raised^[servicesOf owner history (owner item)] item ∈ final := by
  have whole := items_of_run owned single run
  rw [whole]
  exact Finset.mem_image_of_mem _ member

/-- An owner's item that is served is the present form of its item of the start. -/
theorem served_eq_present (owned : ∀ item, owner (raised item) = owner item)
    (single : Set.InjOn owner start)
    (run : Run (ServesLeast progress raised) start history before)
    (step : ServesLeast progress raised before served after) (member : item ∈ start)
    (same : owner served = owner item) :
    served = raised^[servicesOf owner history (owner item)] item := by
  obtain ⟨chosen, chosenMember, rfl⟩ :=
    Finset.mem_image.mp (items_of_run owned single run ▸ step.known)
  rw [owner_iterate owned] at same
  rw [single chosenMember member same]

/-- Right before its last service an item was not ahead of what any other is now. -/
theorem last_service_le (owned : ∀ item, owner (raised item) = owner item)
    (single : Set.InjOn owner start)
    (run : Run (ServesLeast progress raised) start history final) {other : Item}
    (member : item ∈ start) (otherMember : other ∈ start) {count : Nat}
    (services : servicesOf owner history (owner item) = count + 1) :
    progress (raised^[count] item) ≤
      progress (raised^[servicesOf owner history (owner other)] other) := by
  induction run with
  | refl => exact absurd services (Nat.zero_ne_add_one count)
  | @tail history state next event earlier last ih =>
      have forward : progress (raised^[servicesOf owner history (owner other)] other) ≤
          progress (raised^[servicesOf owner (history ++ [⟨state, event, next⟩])
            (owner other)] other) := by
        rw [servicesOf_concat]
        by_cases same : owner event = owner other
        · rw [if_pos same, Function.iterate_succ_apply',
            ← served_eq_present owned single earlier last otherMember same]
          exact last.raises.le
        · rw [if_neg same, Nat.add_zero]
      rw [servicesOf_concat] at services
      refine Nat.le_trans ?_ forward
      by_cases same : owner event = owner item
      · rw [if_pos same] at services
        have now := served_eq_present owned single earlier last member same
        rw [← Nat.add_right_cancel services, ← now]
        exact last.least _ (present_of_run owned single earlier otherMember)
      · rw [if_neg same, Nat.add_zero] at services
        exact ih services

/-- More steps than all items lack to get ahead of one of them include a service of it. -/
theorem services_pos_of_length (owned : ∀ item, owner (raised item) = owner item)
    (single : Set.InjOn owner start)
    (run : Run (ServesLeast progress raised) start history final) (member : item ∈ start)
    (long : shortfall progress (progress item + 1) start < history.length) :
    0 < servicesOf owner history (owner item) := by
  have reached := beyond_of_length run long _ (present_of_run owned single run member)
  by_contra none
  rw [Nat.eq_zero_of_not_pos none] at reached
  exact Nat.not_succ_le_self _ reached

end Owners

end ServesLeast

end SchedExt.Foundations
