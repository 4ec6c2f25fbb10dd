import WebIdl.Wire.NodeRecord

/-!
# WebIdl.Wire.Tree

From JSON to nodes, types and literals. The elements of a tree are taken one after
another: each is read and made a node before the next one is looked at, so the first
fault of the text is the one that is reported.
-/

namespace WebIdl.Wire

/-- What a readable record makes, or the failure that says why there is nothing. -/
def interpret {ρ α : Type} (record? : Option ρ) (meaning : ρ → Except ShapeError α) :
    Except Error α :=
  match record? with
  | none => .error .unreadableInput
  | some record =>
    match meaning record with
    | .ok value => .ok value
    | .error cause => .error (.malformedInput cause)

/-- The node an element of a tree stands for. -/
def nodeOf (value : Json) : Except Error Node :=
  interpret (nodeRecord? (maxDepth - 1) value) NodeRecord.toNode

/-- The nodes of a tree. -/
def nodesOf (elements : Json.Elements) : Except Error (List Node) := do
  let nodes ← elements.items.mapM nodeOf
  if elements.complete then return nodes else throw .unreadableInput

/-- The nodes of a tree given as text. -/
def nodesOfText (text : String) : Except Error (List Node) :=
  nodesOf (Json.elements text)

/-- The nodes of a tree given as a value. -/
def nodesOfJson (value : Json) : Except Error (List Node) :=
  nodesOf (Json.elementsOf value)

/-- The type a value stands for. -/
def typeOfJson (value : Json) : Except Error IdlType :=
  interpret (typeRecord? maxDepth value) TypeRecord.toType

/-- The literal a value stands for. -/
def literalOfJson (value : Json) : Except Error Literal :=
  interpret (literalRecord? maxDepth value) LiteralRecord.toLiteral

/-- The arguments a value stands for. -/
def argumentsOfJson (value : Json) : Except Error (List Argument) :=
  interpret (list? maxDepth argumentRecord? value) toArguments

end WebIdl.Wire
