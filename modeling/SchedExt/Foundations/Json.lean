import Mathlib.Data.List.Basic
import Mathlib.Data.Rat.Defs

/-!
# JSON documents and their codecs

A document is a tree; an object is the list of its fields in the order written.
Documents whose objects have distinct keys are those that a dictionary can
hold, and a codec is lossless on them.  Readers take a document apart and fail
with the exception that indexing or conversion would raise.
-/

namespace SchedExt.Foundations

universe u

inductive Json where
  | null
  | bool (value : Bool)
  | int (value : Int)
  | float (value : Rat)
  | str (value : String)
  | arr (items : List Json)
  | obj (fields : List (String × Json))

namespace Json

/-- Every object of the document has distinct keys. -/
inductive WellFormed : Json → Prop where
  | null : WellFormed .null
  | bool (value : Bool) : WellFormed (.bool value)
  | int (value : Int) : WellFormed (.int value)
  | float (value : Rat) : WellFormed (.float value)
  | str (value : String) : WellFormed (.str value)
  | arr {items : List Json} (each : ∀ item ∈ items, WellFormed item) : WellFormed (.arr items)
  | obj {fields : List (String × Json)} (distinct : (fields.map Prod.fst).Nodup)
      (each : ∀ field ∈ fields, WellFormed field.2) : WellFormed (.obj fields)

/-- An exception raised while a document is read. -/
inductive Fault where
  | keyError (key : String)
  | valueError (value : String)
  | typeError
  deriving DecidableEq

abbrev Decoded (Value : Type u) := Except Fault Value

/-- `document[key]` -/
def item (key : String) : Json → Decoded Json
  | .obj fields =>
      match fields.lookup key with
      | some value => .ok value
      | none => .error (.keyError key)
  | _ => .error .typeError

/-- `document.items()` -/
def fields : Json → Decoded (List (String × Json))
  | .obj fields => .ok fields
  | _ => .error .typeError

def items : Json → Decoded (List Json)
  | .arr items => .ok items
  | _ => .error .typeError

def asBool : Json → Decoded Bool
  | .bool value => .ok value
  | _ => .error .typeError

def asInt : Json → Decoded Int
  | .int value => .ok value
  | _ => .error .typeError

def asFloat : Json → Decoded Rat
  | .float value => .ok value
  | _ => .error .typeError

def asStr : Json → Decoded String
  | .str value => .ok value
  | _ => .error .typeError

/-- The truth value of the object that a document decodes to. -/
def truthy : Json → Bool
  | .null => false
  | .bool value => value
  | .int value => value != 0
  | .float value => value != 0
  | .str value => value != ""
  | .arr items => !items.isEmpty
  | .obj fields => !fields.isEmpty

@[simp] theorem item_cons_self (key : String) (value : Json) (rest : List (String × Json)) :
    (Json.obj ((key, value) :: rest)).item key = .ok value := by
  rw [item, List.lookup_cons, beq_self_eq_true]

@[simp] theorem item_cons_of_ne {key other : String} (apart : key ≠ other) (value : Json)
    (rest : List (String × Json)) :
    (Json.obj ((other, value) :: rest)).item key = (Json.obj rest).item key := by
  rw [item, item, List.lookup_cons, beq_eq_false_iff_ne.mpr apart]

@[simp] theorem items_arr (list : List Json) : (Json.arr list).items = .ok list := rfl
@[simp] theorem fields_obj (entries : List (String × Json)) :
    (Json.obj entries).fields = .ok entries := rfl
@[simp] theorem asBool_bool (value : Bool) : (Json.bool value).asBool = .ok value := rfl
@[simp] theorem asInt_int (value : Int) : (Json.int value).asInt = .ok value := rfl
@[simp] theorem asFloat_float (value : Rat) : (Json.float value).asFloat = .ok value := rfl
@[simp] theorem asStr_str (value : String) : (Json.str value).asStr = .ok value := rfl

/-! ## Lists -/

/-- Items that each survive the round trip survive it together. -/
theorem mapM_map_of_forall {Value Coded : Type} {encode : Value → Coded}
    {decode : Coded → Decoded Value} (values : List Value)
    (each : ∀ value ∈ values, decode (encode value) = .ok value) :
    (values.map encode).mapM decode = .ok values := by
  induction values with
  | nil => rfl
  | cons value rest ih =>
      obtain ⟨here, later⟩ := List.forall_mem_cons.mp each
      rw [List.map_cons, List.mapM_cons, here, ih later]
      rfl

/-- A sequence that returns has returned from its first part. -/
theorem exists_of_bind_eq_ok {Value Result Failure : Type} {first : Except Failure Value}
    {next : Value → Except Failure Result} {result : Result}
    (returns : (first >>= next) = .ok result) :
    ∃ value, first = .ok value ∧ next value = .ok result := by
  cases first with
  | error fault => cases returns
  | ok value => exact ⟨value, rfl, returns⟩

/-- All values can be read exactly when each of them can. -/
theorem exists_mapM_iff {Value Result Failure : Type} {read : Value → Except Failure Result}
    {values : List Value} :
    (∃ results, values.mapM read = .ok results) ↔
      ∀ value ∈ values, ∃ result, read value = .ok result := by
  induction values with
  | nil => exact iff_of_true ⟨[], rfl⟩ fun _ member => nomatch member
  | cons value rest ih =>
      rw [List.forall_mem_cons, ← ih, List.mapM_cons]
      cases here : read value with
      | error fault => simp [bind, Except.bind]
      | ok result =>
          cases later : rest.mapM read with
          | error fault => simp [bind, Except.bind]
          | ok results => simp [bind, Except.bind, pure, Except.pure]

theorem WellFormed.map_arr {Value : Type} {encode : Value → Json} {values : List Value}
    (each : ∀ value ∈ values, (encode value).WellFormed) :
    (Json.arr (values.map encode)).WellFormed := by
  refine .arr fun document member => ?_
  obtain ⟨value, inside, rfl⟩ := List.mem_map.mp member
  exact each value inside

/-- An object whose keys are distinct, each with a value encoded in the same way. -/
theorem WellFormed.map_obj {Value : Type} {encode : Value → Json} {entries : List (String × Value)}
    (distinct : (entries.map Prod.fst).Nodup)
    (each : ∀ entry ∈ entries, (encode entry.2).WellFormed) :
    (Json.obj (entries.map fun entry => (entry.1, encode entry.2))).WellFormed := by
  refine .obj ?_ fun field member => ?_
  · rw [List.map_map]
    exact distinct
  · obtain ⟨entry, inside, rfl⟩ := List.mem_map.mp member
    exact each entry inside

def strings (values : List String) : Json := .arr (values.map .str)

def asStrings (document : Json) : Decoded (List String) := do
  let items ← document.items
  items.mapM asStr

@[simp] theorem asStrings_strings (values : List String) :
    (strings values).asStrings = .ok values :=
  mapM_map_of_forall values fun _ _ => rfl

theorem WellFormed.strings (values : List String) : (Json.strings values).WellFormed :=
  .map_arr fun value _ => .str value

end Json

/-! ## Codecs -/

/-- A pair of `dumps` and `loads` that loses nothing of a document with distinct keys. -/
structure JsonCodec (Text : Type u) where
  dumps : Json → Text
  loads : Text → Except Json.Fault Json
  lossless : ∀ {document : Json}, document.WellFormed → loads (dumps document) = .ok document

/-- The codec that stands for its text by the tree. -/
def JsonCodec.trees : JsonCodec Json where
  dumps := id
  loads := .ok
  lossless := fun _ => rfl

end SchedExt.Foundations
