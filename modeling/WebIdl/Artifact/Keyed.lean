import WebIdl.Artifact.Contract

/-!
# WebIdl.Artifact.Keyed

Container protocols in terms of what a definition declares: keyed access, counting,
conversion to a string, and the iterator that follows from counting and indexed access.
-/

namespace WebIdl.Artifact

open WebIdl.Code
open WebIdl.Text (joinWith quote)

/-- The operations that integer keys and string keys lead to. -/
structure Route where
  indexed : Option String
  named : Option String
deriving Repr, DecidableEq

/-- A call of a method on the object itself, with the code around it. -/
def selfCall (before method after : String) : Stmt :=
  .line [.text before, .self method, .text after]

/-- What is done with a key of the kind that a test tells, if there is an operation. -/
def Route.branch (test : String) (method : Option String) (body : String → List Stmt) :
    List Stmt :=
  match method with
  | some method => [.control ("if (" ++ test ++ "($offset))") (body method)]
  | none => []

/-- What is done with an integer key, and what with a string key. -/
def Route.branches (route : Route) (body : String → List Stmt) : List Stmt :=
  Route.branch "is_int" route.indexed body ++ Route.branch "is_string" route.named body

namespace Target

/-- The operations of a definition for the roles of integer keys and of string keys. -/
def route (t : Target) (caps : Capabilities) (indexed named : SpecialKind) :
    Except Error Route := do
  let indexed ← t.registry.method? caps indexed
  let named ← t.registry.method? caps named
  return { indexed, named }

/-- Where a key goes that no operation takes: to the parent if it has keyed access, and
else to the hook. -/
def fallback (inherited : Bool) (before method args : String) : Stmt :=
  if inherited then .line [.text before, .parent method, .text ("(" ++ args ++ ");")]
  else .line [.text before, .self Identifier.undefinedKey, .text "($offset);"]

/-- The statements that tell whether a key is there. -/
def existsBody (inherited : Bool) (method : String) (getters : Route) (count : Option String) :
    List Stmt :=
  let indexed := Route.branch "is_int" getters.indexed fun item =>
    match count with
    | some count => [selfCall "return $offset >= 0 && $offset < " count "();"]
    | none => [selfCall "return " item "($offset) !== null;"]
  let named := Route.branch "is_string" getters.named fun item =>
    [selfCall "return " item "($offset) !== null;"]
  let otherwise :=
    if inherited then .line [.text "return ", .parent method, .text "($offset);"]
    else .plain "return false;"
  indexed ++ named ++ [otherwise]

/-- Keyed access that leads integer keys to indexed operations and string keys to named
ones. -/
def keyedItems (t : Target) (caps : Capabilities) (inherited : Bool) :
    Except Error (List Item) := do
  let getters ← t.route caps .indexedGetter .namedGetter
  let setters ← t.route caps .indexedSetter .namedSetter
  let deleters ← t.route caps .indexedDeleter .namedDeleter
  let count ← if caps.counts then (do return some (← t.structuralName .count)) else pure none
  let existsName ← t.structuralName .exists
  let getName ← t.structuralName .get
  let setName ← t.structuralName .set
  let unsetName ← t.structuralName .unset
  return [
    defined (plainSig existsName [offsetParam] "bool")
      (existsBody inherited existsName getters count),
    defined (plainSig getName [offsetParam] "mixed")
      (getters.branches (fun method => [selfCall "return " method "($offset);"]) ++
        [fallback inherited "return " getName "$offset"]),
    defined (plainSig setName [offsetParam, valueParam] "void")
      (setters.branches (fun method =>
        [selfCall "" method "($offset, $value);", .plain "return;"]) ++
        [fallback inherited "" setName "$offset, $value"]),
    defined (plainSig unsetName [offsetParam] "void")
      (deleters.branches (fun method => [selfCall "" method "($offset);", .plain "return;"]) ++
        [fallback inherited "" unsetName "$offset"])]

/-- Counting by the integer attribute `length`. -/
def countItems (t : Target) (caps : Capabilities) : Except Error (List Item) := do
  match ← t.registry.countGetter? caps with
  | none => return []
  | some getter =>
    let name ← t.structuralName .count
    return [defined (plainSig name [] "int") [selfCall "return " getter "();"]]

/-- Conversion to a string by the stringifier. -/
def stringifierItems (t : Target) (caps : Capabilities) : Except Error (List Item) := do
  match ← t.registry.method? caps .stringifier with
  | none => return []
  | some method =>
    return [defined (plainSig "__toString" [] "string") [selfCall "return " method "();"]]

/-- Iteration over the items up to the count. -/
def iteratorItems (t : Target) (caps : Capabilities) : Draft (List Item) := do
  let item ← t.registry.method? caps .indexedGetter
  let value ← t.registry.firstIndexedResult? (t.registry.surface t.definition)
  match item, value with
  | some item, some value =>
    let count ← t.structuralName .count
    let name ← t.structuralName .iterator
    let sig ← t.iterator name none value
    return [defined sig [
      selfCall "$length = " count "();",
      .control "for ($index = 0; $index < $length; $index++)"
        [selfCall "yield " item "($index);"]]]
  | _, _ => return []

/-- Keyed access that reads the fields of a dictionary and writes none. -/
def fieldItems (t : Target) (fields : List OwnedField) : Except Error (List Item) := do
  let getters ← fields.mapM fun f => do
    return (quote f.decl.name, ← t.registry.nameOf f.owner.name .getter f.decl.name)
  let existsName ← t.structuralName .exists
  let getName ← t.structuralName .get
  let setName ← t.structuralName .set
  let unsetName ← t.structuralName .unset
  let keys := joinWith ", " (getters.map (·.1))
  let existsStmts := if getters.isEmpty then [.plain "return false;"] else
    [.matching "return match ($offset)"
      [selfCall (keys ++ " => ") getName "($offset) !== null,", .plain "default => false,"]]
  let undefinedField := quote ("Undefined field %s of " ++ t.name)
  let failure := "default => throw new \\OutOfBoundsException(sprintf(" ++ undefinedField ++
    ", var_export($offset, true))),"
  let readOnly : Stmt :=
    .plain ("throw new \\LogicException(" ++ quote (t.name ++ " is read-only") ++ ");")
  return [
    defined (plainSig existsName [offsetParam] "bool") existsStmts,
    defined (plainSig getName [offsetParam] "mixed")
      [.matching "return match ($offset)"
        (getters.map (fun (key, getter) => selfCall (key ++ " => ") getter "(),") ++
          [.plain failure])],
    defined (plainSig setName [offsetParam, valueParam] "void") [readOnly],
    defined (plainSig unsetName [offsetParam] "void") [readOnly]]

end Target

end WebIdl.Artifact
