import Mathlib.Data.List.Induction
import Mathlib.Data.List.Nodup

/-!
# Dictionaries in insertion order

A dictionary is a list of entries with distinct keys.  Assigning to a key that
is there replaces its value in place; assigning to another appends an entry.
-/

namespace SchedExt.Foundations

universe u v w

structure Dict (Key : Type u) (Value : Type v) where
  entries : List (Key × Value)
  distinct : (entries.map Prod.fst).Nodup

namespace Dict

variable {Key : Type u} {Value : Type v}

@[ext] theorem ext {first second : Dict Key Value} (same : first.entries = second.entries) :
    first = second := by
  cases first
  cases second
  obtain rfl : _ = _ := same
  rfl

instance [DecidableEq Key] [DecidableEq Value] : DecidableEq (Dict Key Value) :=
  fun first second => decidable_of_iff (first.entries = second.entries)
    ⟨ext, congrArg entries⟩

def empty : Dict Key Value := ⟨[], .nil⟩

def keys (self : Dict Key Value) : List Key := self.entries.map Prod.fst

def values (self : Dict Key Value) : List Value := self.entries.map Prod.snd

variable [DecidableEq Key]

def get? (self : Dict Key Value) (key : Key) : Option Value :=
  self.entries.lookup key

def contains (self : Dict Key Value) (key : Key) : Bool := (self.get? key).isSome

/-- The entries after an assignment. -/
def assign (key : Key) (value : Value) : List (Key × Value) → List (Key × Value)
  | [] => [(key, value)]
  | entry :: rest =>
      if entry.1 = key then (key, value) :: rest else entry :: assign key value rest

theorem assign_of_not_mem {key : Key} {entries : List (Key × Value)}
    (absent : key ∉ entries.map Prod.fst) (value : Value) :
    assign key value entries = entries ++ [(key, value)] := by
  induction entries with
  | nil => rfl
  | cons entry rest ih =>
      rw [List.map_cons, List.mem_cons, not_or] at absent
      rw [assign, if_neg (Ne.symm absent.1), ih absent.2]
      rfl

theorem keys_assign (key : Key) (value : Value) (entries : List (Key × Value)) :
    (assign key value entries).map Prod.fst =
      if key ∈ entries.map Prod.fst then entries.map Prod.fst
      else entries.map Prod.fst ++ [key] := by
  by_cases present : key ∈ entries.map Prod.fst
  · rw [if_pos present]
    induction entries with
    | nil => exact nomatch present
    | cons entry rest ih =>
        rw [assign]
        split
        · rename_i same
          rw [List.map_cons, List.map_cons, same]
        · rename_i apart
          have later := (List.mem_cons.mp present).resolve_left (Ne.symm apart)
          rw [List.map_cons, List.map_cons, ih later]
  · rw [if_neg present, assign_of_not_mem present, List.map_append]
    rfl

/-- `self[key] = value` -/
def set (self : Dict Key Value) (key : Key) (value : Value) : Dict Key Value where
  entries := assign key value self.entries
  distinct := by
    rw [keys_assign]
    split
    · exact self.distinct
    · rename_i absent
      exact List.nodup_append.mpr ⟨self.distinct, List.nodup_singleton key,
        fun _ member _ this same => absent (List.mem_singleton.mp this ▸ same ▸ member)⟩

/-- `del self[key]` -/
def erase (self : Dict Key Value) (key : Key) : Dict Key Value where
  entries := self.entries.filter fun entry => entry.1 ≠ key
  distinct := (List.filter_sublist.map Prod.fst).nodup self.distinct

/-- The dictionary of entries that are assigned one after the other. -/
def ofEntries (entries : List (Key × Value)) : Dict Key Value :=
  entries.foldl (fun self entry => self.set entry.1 entry.2) empty

@[simp] theorem get?_empty (key : Key) : (empty : Dict Key Value).get? key = none := rfl

theorem lookup_assign_self (key : Key) (value : Value) (entries : List (Key × Value)) :
    (assign key value entries).lookup key = some value := by
  induction entries with
  | nil => rw [assign, List.lookup_cons, beq_self_eq_true]
  | cons entry rest ih =>
      rw [assign]
      split
      · rw [List.lookup_cons, beq_self_eq_true]
      · rename_i apart
        rw [List.lookup_cons, beq_eq_false_iff_ne.mpr (Ne.symm apart)]
        exact ih

theorem lookup_assign_of_ne {key other : Key} (apart : other ≠ key) (value : Value)
    (entries : List (Key × Value)) :
    (assign key value entries).lookup other = entries.lookup other := by
  induction entries with
  | nil => rw [assign, List.lookup_cons, beq_eq_false_iff_ne.mpr apart]
  | cons entry rest ih =>
      rw [assign]
      split
      · rename_i same
        rw [List.lookup_cons, List.lookup_cons, same, beq_eq_false_iff_ne.mpr apart]
      · rw [List.lookup_cons, List.lookup_cons, ih]

theorem get?_eq_none {self : Dict Key Value} {key : Key} (absent : key ∉ self.keys) :
    self.get? key = none := by
  refine List.lookup_eq_none_iff.mpr fun entry member => ?_
  rw [bne_iff_ne]
  rintro rfl
  exact absent (List.mem_map_of_mem member)

@[simp] theorem get?_set_self (self : Dict Key Value) (key : Key) (value : Value) :
    (self.set key value).get? key = some value :=
  lookup_assign_self key value self.entries

theorem get?_set_of_ne (self : Dict Key Value) {key other : Key} (apart : other ≠ key)
    (value : Value) : (self.set key value).get? other = self.get? other :=
  lookup_assign_of_ne apart value self.entries

/-- What holds of every entry and of the assigned one holds of every entry afterwards. -/
theorem forall_set {self : Dict Key Value} {Holds : Key × Value → Prop} {key : Key} {value : Value}
    (each : ∀ entry ∈ self.entries, Holds entry) (assigned : Holds (key, value)) :
    ∀ entry ∈ (self.set key value).entries, Holds entry := by
  have general : ∀ entries : List (Key × Value), (∀ entry ∈ entries, Holds entry) →
      ∀ entry ∈ assign key value entries, Holds entry := by
    intro entries each
    induction entries with
    | nil => exact List.forall_mem_singleton.mpr assigned
    | cons head rest ih =>
        obtain ⟨here, later⟩ := List.forall_mem_cons.mp each
        rw [assign]
        split
        · exact List.forall_mem_cons.mpr ⟨assigned, later⟩
        · exact List.forall_mem_cons.mpr ⟨here, ih later⟩
  exact general self.entries each

theorem lookup_eq_some_of_mem {key : Key} {value : Value} {entries : List (Key × Value)}
    (distinct : (entries.map Prod.fst).Nodup) (member : (key, value) ∈ entries) :
    entries.lookup key = some value := by
  induction entries with
  | nil => exact nomatch member
  | cons entry rest ih =>
      obtain ⟨fresh, restDistinct⟩ := List.nodup_cons.mp distinct
      rcases List.mem_cons.mp member with rfl | later
      · rw [List.lookup_cons, beq_self_eq_true]
      · have apart : key ≠ entry.1 := by
          rintro rfl
          exact fresh (List.mem_map.mpr ⟨_, later, rfl⟩)
        rw [List.lookup_cons, beq_eq_false_iff_ne.mpr apart]
        exact ih restDistinct later

theorem get?_eq_some_iff {self : Dict Key Value} {key : Key} {value : Value} :
    self.get? key = some value ↔ (key, value) ∈ self.entries := by
  constructor
  · intro found
    obtain ⟨before, after, whole, -⟩ := List.lookup_eq_some_iff.mp found
    rw [whole]
    exact List.mem_append_right _ List.mem_cons_self
  · exact lookup_eq_some_of_mem self.distinct

/-- Assigning the entries of a dictionary one after the other gives it back. -/
theorem ofEntries_entries (self : Dict Key Value) : ofEntries self.entries = self := by
  have general : ∀ (front : Dict Key Value) (back : List (Key × Value)),
      ((front.entries ++ back).map Prod.fst).Nodup →
        (back.foldl (fun self entry => self.set entry.1 entry.2) front).entries =
          front.entries ++ back := by
    intro front back distinct
    induction back generalizing front with
    | nil => rw [List.foldl_nil, List.append_nil]
    | cons entry rest ih =>
        have absent : entry.1 ∉ front.entries.map Prod.fst := by
          rw [List.map_append, List.nodup_append] at distinct
          exact fun member => distinct.2.2 _ member _ List.mem_cons_self rfl
        have added : (front.set entry.1 entry.2).entries = front.entries ++ [entry] :=
          assign_of_not_mem absent entry.2
        rw [List.foldl_cons, ih _ (by rw [added, List.append_assoc]; exact distinct), added,
          List.append_assoc]
        rfl
  exact ext (general empty self.entries self.distinct)

/-- Entries with distinct keys are all found. -/
theorem get?_ofEntries_of_mem {entries : List (Key × Value)} {key : Key} {value : Value}
    (distinct : (entries.map Prod.fst).Nodup) (member : (key, value) ∈ entries) :
    (ofEntries entries).get? key = some value := by
  have whole : ofEntries entries = ⟨entries, distinct⟩ := ofEntries_entries ⟨entries, distinct⟩
  rw [whole]
  exact get?_eq_some_iff.mpr member

theorem ofEntries_concat (front : List (Key × Value)) (entry : Key × Value) :
    ofEntries (front ++ [entry]) = (ofEntries front).set entry.1 entry.2 := by
  rw [ofEntries, List.foldl_append]
  rfl

/-- A later entry of a key wins over an earlier one. -/
theorem get?_ofEntries_cons (entry : Key × Value) (rest : List (Key × Value)) (key : Key) :
    (ofEntries (entry :: rest)).get? key =
      ((ofEntries rest).get? key).or (if entry.1 = key then some entry.2 else none) := by
  induction rest using List.reverseRecOn with
  | nil =>
      have single : ofEntries [entry] = empty.set entry.1 entry.2 := rfl
      have none : (ofEntries ([] : List (Key × Value))).get? key = none := rfl
      rw [single, none, Option.none_or]
      split
      · rename_i same
        rw [← same, get?_set_self]
      · rename_i apart
        rw [get?_set_of_ne _ (Ne.symm apart), get?_empty]
  | append_singleton front last ih =>
      rw [← List.cons_append, ofEntries_concat, ofEntries_concat]
      by_cases same : key = last.1
      · rw [same, get?_set_self, get?_set_self, Option.some_or]
      · rw [get?_set_of_ne _ same, get?_set_of_ne _ same, ih]

/-- What is found was assigned. -/
theorem mem_of_get?_ofEntries {entries : List (Key × Value)} {key : Key} {value : Value}
    (found : (ofEntries entries).get? key = some value) : (key, value) ∈ entries := by
  induction entries with
  | nil => exact nomatch found
  | cons entry rest ih =>
      rw [get?_ofEntries_cons, Option.or_eq_some_iff] at found
      rcases found with later | ⟨-, here⟩
      · exact List.mem_cons_of_mem entry (ih later)
      · split at here
        · rename_i same
          obtain rfl := Option.some.inj here
          exact same ▸ List.mem_cons_self
        · exact nomatch here

/-- What the entries of a key leave of an older value. -/
theorem or_get?_ofEntries_cons {Seen : Type w} (seen : Value → Seen) (older : Option Seen)
    (entry : Key × Value) (rest : List (Key × Value)) (key : Key) :
    (((ofEntries (entry :: rest)).get? key).map seen).or older =
      (((ofEntries rest).get? key).map seen).or
        (if entry.1 = key then some (seen entry.2) else older) := by
  rw [get?_ofEntries_cons]
  cases (ofEntries rest).get? key with
  | some value => rfl
  | none =>
      rw [Option.none_or, Option.map_none, Option.none_or]
      split
      · rfl
      · rfl

theorem get?_ofEntries_append (front back : List (Key × Value)) (key : Key) :
    (ofEntries (front ++ back)).get? key =
      ((ofEntries back).get? key).or ((ofEntries front).get? key) := by
  induction front with
  | nil =>
      have none : (ofEntries ([] : List (Key × Value))).get? key = none := rfl
      rw [none, Option.or_none]
      rfl
  | cons entry rest ih =>
      rw [List.cons_append, get?_ofEntries_cons, get?_ofEntries_cons, ih, Option.or_assoc]

/-- The keys of a dictionary are those of the entries that it was made from. -/
theorem isSome_get?_ofEntries (entries : List (Key × Value)) (key : Key) :
    ((ofEntries entries).get? key).isSome ↔ key ∈ entries.map Prod.fst := by
  induction entries with
  | nil => exact ⟨fun impossible => (nomatch impossible), fun impossible => nomatch impossible⟩
  | cons entry rest ih =>
      rw [get?_ofEntries_cons, Option.isSome_or, Bool.or_eq_true, ih, List.map_cons,
        List.mem_cons, or_comm]
      refine or_congr_left ?_
      by_cases same : entry.1 = key
      · rw [if_pos same]
        exact ⟨fun _ => same.symm, fun _ => rfl⟩
      · rw [if_neg same]
        exact ⟨fun impossible => (nomatch impossible), fun equal => absurd equal.symm same⟩

theorem isSome_get? {self : Dict Key Value} {key : Key} :
    (self.get? key).isSome ↔ key ∈ self.keys := by
  rw [keys, ← isSome_get?_ofEntries, ofEntries_entries]

theorem mem_keys_set {self : Dict Key Value} {key other : Key} {value : Value} :
    other ∈ (self.set key value).keys ↔ other = key ∨ other ∈ self.keys := by
  have assigned : (self.set key value).keys =
      if key ∈ self.keys then self.keys else self.keys ++ [key] :=
    keys_assign key value self.entries
  rw [assigned]
  split
  · rename_i present
    exact ⟨.inr, fun either => either.elim (fun same => same ▸ present) id⟩
  · rw [List.mem_append, List.mem_singleton, or_comm]

theorem mem_keys_erase {self : Dict Key Value} {key other : Key} :
    other ∈ (self.erase key).keys ↔ other ≠ key ∧ other ∈ self.keys := by
  constructor
  · intro kept
    obtain ⟨entry, member, rfl⟩ := List.mem_map.mp kept
    obtain ⟨present, apart⟩ := List.mem_filter.mp member
    exact ⟨of_decide_eq_true apart, List.mem_map_of_mem present⟩
  · rintro ⟨apart, member⟩
    obtain ⟨entry, present, rfl⟩ := List.mem_map.mp member
    exact List.mem_map_of_mem (List.mem_filter.mpr ⟨present, decide_eq_true apart⟩)

end Dict

end SchedExt.Foundations
