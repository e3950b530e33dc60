import Mathlib.Data.List.Sort
import Mathlib.Data.List.TakeWhile
import Mathlib.Data.Prod.Lex
import SchedExt.Foundations.StampedQueues

/-!
# Stable placement by priority

An arriving item is placed before the first waiting item of strictly larger
key, hence after every waiting item of equal key.  On stamped queues this
keeps each channel strictly sorted by the pair of key and stamp, so the head
is the least key and, among equals, the earliest arrival.
-/

namespace SchedExt.Foundations

universe u v w

variable {Channel : Type u} {Item : Type v} {Key : Type w} [LinearOrder Key]

namespace Placement

/-- Stable placement by increasing key. -/
def ordered (key : Item → Key) : Placement Item where
  place := List.orderedInsert fun first second => key first < key second
  perm item waiting := List.perm_orderedInsert _ item waiting

/-- A map that keeps keys commutes with placement. -/
theorem map_ordered_place {Item' : Type v} {key : Item → Key} {key' : Item' → Key}
    {transform : Item → Item'} (keeps : ∀ item, key' (transform item) = key item)
    (item : Item) (waiting : List Item) :
    ((ordered key).place item waiting).map transform =
      (ordered key').place (transform item) (waiting.map transform) := by
  apply List.map_orderedInsert
  · intro other _
    rw [keeps, keeps]
  · intro other _
    rw [keeps, keeps]

/-- The arrival splits the waiting items at the first strictly larger key. -/
theorem ordered_place_split (key : Item → Key) (item : Item) (waiting : List Item) :
    ∃ front back, waiting = front ++ back ∧
      (ordered key).place item waiting = front ++ item :: back ∧
      (∀ earlier ∈ front, key earlier ≤ key item) ∧
      ∀ next ∈ back.head?, key item < key next := by
  let passes : Item → Bool := fun other => decide ¬key item < key other
  refine ⟨waiting.takeWhile passes, waiting.dropWhile passes,
    List.takeWhile_append_dropWhile.symm, List.orderedInsert_eq_take_drop _ item waiting,
    ?_, ?_⟩
  · intro earlier member
    have passed := List.mem_takeWhile_imp member
    exact not_lt.mp (of_decide_eq_true passed)
  · intro next found
    have stopped := List.head?_dropWhile_not passes waiting
    rw [Option.mem_def.mp found] at stopped
    simpa [passes] using stopped

end Placement

/-- Service rank: the key first, the stamp among equal keys. -/
def rank (key : Item → Key) (stamp : Item → Nat) (item : Item) : Key ×ₗ Nat :=
  toLex (key item, stamp item)

theorem rank_lt_iff {key : Item → Key} {stamp : Item → Nat} {first second : Item} :
    rank key stamp first < rank key stamp second ↔
      key first < key second ∨ key first = key second ∧ stamp first < stamp second :=
  Prod.Lex.toLex_lt_toLex

theorem key_le_of_rank_lt {key : Item → Key} {stamp : Item → Nat} {first second : Item}
    (less : rank key stamp first < rank key stamp second) : key first ≤ key second := by
  rcases rank_lt_iff.mp less with smaller | ⟨equal, _⟩
  · exact smaller.le
  · exact equal.le

/-- A list is ranked when it is strictly sorted by service rank. -/
def RankedList (key : Item → Key) (stamp : Item → Nat) (waiting : List Item) : Prop :=
  waiting.Pairwise fun first second => rank key stamp first < rank key stamp second

/-- A ranked list is in particular sorted by key. -/
theorem RankedList.keys {key : Item → Key} {stamp : Item → Nat} {waiting : List Item}
    (ranked : RankedList key stamp waiting) :
    waiting.Pairwise fun first second => key first ≤ key second :=
  ranked.imp key_le_of_rank_lt

/-- The head of a ranked list has the strictly least rank. -/
theorem RankedList.head_least {key : Item → Key} {stamp : Item → Nat}
    {waiting : List Item} (ranked : RankedList key stamp waiting)
    {head : Item} (found : waiting.head? = some head) :
    ∀ item ∈ waiting, item = head ∨ rank key stamp head < rank key stamp item := by
  cases waiting with
  | nil => cases found
  | cons first rest =>
      cases found
      intro item member
      rcases List.mem_cons.mp member with equal | later
      · exact Or.inl equal
      · exact Or.inr ((List.pairwise_cons.mp ranked).1 item later)

/-- Placing a later-stamped item by key keeps a list ranked. -/
theorem RankedList.place {key : Item → Key} {stamp : Item → Nat} {item : Item}
    {waiting : List Item} (ranked : RankedList key stamp waiting)
    (latest : ∀ earlier ∈ waiting, stamp earlier < stamp item) :
    RankedList key stamp ((Placement.ordered key).place item waiting) := by
  obtain ⟨front, back, rfl, placed, below, above⟩ :=
    Placement.ordered_place_split key item waiting
  rw [placed]
  obtain ⟨frontRanked, backRanked, across⟩ := List.pairwise_append.mp ranked
  have backAbove : ∀ later ∈ back, rank key stamp item < rank key stamp later := by
    cases back with
    | nil => simp
    | cons next rest =>
        have first : rank key stamp item < rank key stamp next :=
          rank_lt_iff.mpr (Or.inl (above next rfl))
        intro later member
        rcases List.mem_cons.mp member with rfl | inRest
        · exact first
        · exact first.trans ((List.pairwise_cons.mp backRanked).1 later inRest)
  have frontBelow : ∀ earlier ∈ front, rank key stamp earlier < rank key stamp item := by
    intro earlier member
    have older := latest earlier (List.mem_append_left back member)
    rcases (below earlier member).lt_or_eq with smaller | equal
    · exact rank_lt_iff.mpr (Or.inl smaller)
    · exact rank_lt_iff.mpr (Or.inr ⟨equal, older⟩)
  refine List.pairwise_append.mpr
    ⟨frontRanked, List.pairwise_cons.mpr ⟨backAbove, backRanked⟩, ?_⟩
  intro earlier earlierMem later laterMem
  rcases List.mem_cons.mp laterMem with rfl | inBack
  · exact frontBelow earlier earlierMem
  · exact across earlier earlierMem later inBack

namespace Queues

variable [DecidableEq Channel] {key : Item → Key} {stamp : Item → Nat}
variable {queues after : Queues Channel Item} {event : QueueEvent Channel Item}

/-- Every channel is strictly sorted by service rank. -/
def Ranked (key : Item → Key) (stamp : Item → Nat) (queues : Queues Channel Item) : Prop :=
  ∀ channel, RankedList key stamp (queues.waiting channel)

/-- Stable placement keeps every channel strictly sorted by service rank. -/
theorem Ranked.step (ranked : queues.Ranked key stamp) (stamped : queues.Stamped stamp)
    (step : Step (Placement.ordered key) stamp queues event after) :
    after.Ranked key stamp := by
  intro channel
  rcases step.at_channel channel with ⟨_, kept⟩ | ⟨item, _, now, placed⟩ | ⟨_, taken⟩
  · rw [kept]
    exact ranked channel
  · rw [placed]
    refine (ranked channel).place fun earlier member => ?_
    rw [now]
    exact stamped.past channel earlier member
  · rw [taken]
    exact List.Pairwise.tail (ranked channel)

end Queues

end SchedExt.Foundations
