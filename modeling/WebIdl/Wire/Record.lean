import WebIdl.Json.Parser

/-!
# WebIdl.Wire.Record

Records in a JSON tree. A record is an object with the record's keys, or an array
with its fields in order. A key that the record does not know is passed over; one
that it knows may occur once. Fields that an array leaves out at its end are absent.

Readers are given `room`, the number of containers that may still be opened around
a value. What is passed over needs no room.
-/

namespace WebIdl.Wire

/-- How deep containers may be nested in a tree. -/
def maxDepth : Nat := 127

/-- The value of a key in an object that holds the key at most once. -/
def fieldOf (fields : List (String × Json)) (key : String) : Option (Option Json) :=
  match fields.filter (·.1 == key) with
  | [] => some none
  | [(_, value)] => some (some value)
  | _ => none

/-- The fields of a record in the order of its keys, each present or absent. -/
def fieldsOf (keys : List String) : Json → Option (List (Option Json))
  | .object fields => keys.mapM (fieldOf fields)
  | .array items =>
    if items.length ≤ keys.length then
      some (items.map some ++ List.replicate (keys.length - items.length) none)
    else none
  | .null | .bool _ | .number _ | .string _ => none

/-- Whether the keys of an object are among those of a record. -/
def onlyKeys (keys : List String) : Json → Bool
  | .object fields => fields.all fun (key, _) => keys.contains key
  | _ => true

/-- Whether a value that is kept as a whole fits in the room there is. -/
def storable (room : Nat) (value : Json) : Bool :=
  value.depth ≤ room && value.finite

/-- A string. -/
def string? : Json → Option String
  | .string text => some text
  | _ => none

/-- A truth value. -/
def bool? : Json → Option Bool
  | .bool value => some value
  | _ => none

/-- A list of what `item?` reads. -/
def list? {α : Type} (room : Nat) (item? : Nat → Json → Option α) : Json → Option (List α)
  | .array items =>
    match room with
    | 0 => none
    | room + 1 => items.mapM (item? room)
  | _ => none

/-- A field that has to be there. -/
def required {α : Type} (read? : Json → Option α) : Option Json → Option α
  | some value => read? value
  | none => none

/-- A field that stands for `default` when it is absent. -/
def withDefault {α : Type} (default : α) (read? : Json → Option α) : Option Json → Option α
  | some value => read? value
  | none => some default

/-- A field that may be absent or null. -/
def optional {α : Type} (read? : Json → Option α) : Option Json → Option (Option α)
  | none => some none
  | some .null => some none
  | some value => (read? value).map some

end WebIdl.Wire
