import WebIdl.Json.Number

/-!
# WebIdl.Json.Basic

JSON values as they are written: an object keeps its fields in order, repeated keys
included, and a number keeps its spelling.
-/

namespace WebIdl

/-- A JSON value. -/
inductive Json where
  | null
  | bool (value : Bool)
  | number (spelling : String)
  | string (value : String)
  | array (items : List Json)
  | object (fields : List (String × Json))
deriving Repr

namespace Json

mutual

/-- How deep arrays and objects are nested; zero for a scalar. -/
def depth : Json → Nat
  | .array items => depthItems items + 1
  | .object fields => depthFields fields + 1
  | .null | .bool _ | .number _ | .string _ => 0

/-- The greatest depth of the items. -/
def depthItems : List Json → Nat
  | [] => 0
  | item :: items => max item.depth (depthItems items)

/-- The greatest depth of the fields' values. -/
def depthFields : List (String × Json) → Nat
  | [] => 0
  | (_, value) :: fields => max value.depth (depthFields fields)

end

mutual

/-- Whether every number of the value fits in binary64. -/
def finite : Json → Bool
  | .number spelling => Number.fits spelling
  | .array items => finiteItems items
  | .object fields => finiteFields fields
  | .null | .bool _ | .string _ => true

/-- Whether every number of the items fits in binary64. -/
def finiteItems : List Json → Bool
  | [] => true
  | item :: items => item.finite && finiteItems items

/-- Whether every number of the fields fits in binary64. -/
def finiteFields : List (String × Json) → Bool
  | [] => true
  | (_, value) :: fields => value.finite && finiteFields fields

end

end Json

end WebIdl
