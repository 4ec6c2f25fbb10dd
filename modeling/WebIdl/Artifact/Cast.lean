import WebIdl.Artifact.Contract

/-!
# WebIdl.Artifact.Cast

Making an object out of the loose form that is accepted for it: an array for a
dictionary, a callable for a callback. The object is of an anonymous class that
implements the contract.
-/

namespace WebIdl.Artifact

open WebIdl.Code
open WebIdl.Text (joinWith quote)

/-- A definition that a dictionary inherits from, with all fields it has itself. -/
structure Snapshot where
  ancestor : Definition
  fields : List OwnedField
deriving Repr

/-- The fields of a dictionary and of all it inherits from, the outermost first. -/
def chainFields (chain : List Definition) : List OwnedField :=
  chain.reverse.flatMap fun d => fieldsIn d.ownMembers

/-- What a dictionary inherits from, nearest first, each with its own chain's fields. -/
def snapshots (fields : List OwnedField) : List Definition → List Snapshot
  | [] => []
  | ancestor :: above =>
    { ancestor
      fields := fields.filter fun f => (ancestor :: above).any (·.name == f.owner.name) } ::
    snapshots fields above

/-- The test for an object of a class. -/
def ifInstance (name : String) (body : List Stmt) : Stmt :=
  .control ("if ($value instanceof " ++ name ++ ")") body

/-- The defaults of the fields that have one other than null. -/
def defaultLines : List OwnedField → Except Error (List Stmt)
  | [] => .ok []
  | f :: fs =>
    match f.decl.default with
    | some default =>
      if f.mayBeAbsent then defaultLines fs
      else do
        let value ← literalText default
        let others ← defaultLines fs
        return .plain (quote f.decl.name ++ " => " ++ value ++ ",") :: others
    | none => defaultLines fs

namespace Target

/-- The statement that casts the value of a field, if its type is a definition that has
a cast. -/
def conversion (t : Target) (f : OwnedField) : Draft (List Stmt) := do
  match ← t.registry.definitionOf f.decl.type with
  | none => return []
  | some d =>
    if d.isInterface || d.isMixin then return []
    else do
      let cls ← t.classRef d.name
      let cast ← t.registry.nameOf d.name .cast ""
      let entry := "$value[" ++ quote f.decl.name ++ "]"
      return [.control ("if (isset(" ++ entry ++ "))")
        [.plain (entry ++ " = " ++ cls ++ "::" ++ cast ++ "(" ++ entry ++ ");")]]

/-- The lines that read the fields of an ancestor's object. -/
def snapshotLines (t : Target) (fields : List OwnedField) : Except Error (List Stmt) :=
  fields.mapM fun f => do
    let getter ← t.registry.nameOf f.owner.name .getter f.decl.name
    return .line [.text (quote f.decl.name ++ " => "), .value getter, .text "(),"]

/-- The statement that turns an object of an ancestor back into an array. -/
def snapshotStmt (t : Target) (snapshot : Snapshot) : Except Error Stmt := do
  let lines ← t.snapshotLines snapshot.fields
  let cls := t.qualified .contract snapshot.ancestor.name
  let body :=
    if lines.isEmpty then [.plain "$value = [];"]
    else
      [.braced [.text "$value = array_filter(["]
        "], static fn (mixed $field): bool => $field !== null);" lines]
  return ifInstance cls body

/-- The statement that insists on the fields that are required. -/
def requiredStmts (t : Target) (fields : List OwnedField) : List Stmt :=
  let required := (fields.filter (·.decl.required)).map fun f => quote f.decl.name
  let missing := quote ("Missing required field \"%s\" of " ++ t.name)
  if required.isEmpty then []
  else
    [.control ("foreach ([" ++ joinWith ", " required ++ "] as $field)")
      [.control "if (!array_key_exists($field, $value))"
        [.plain ("throw new \\InvalidArgumentException(sprintf(" ++ missing ++ ", $field));")]]]

/-- The method of an anonymous class that reads a field. -/
def fieldRoutine (t : Target) (f : OwnedField) : Draft Routine := do
  let sig ← t.fieldGetter f
  let entry := "return $this->fields[" ++ quote f.decl.name ++ "]"
  return { sig, body := [.plain (if f.mayBeAbsent then entry ++ " ?? null;" else entry ++ ";")] }

/-- The cast of a dictionary: an object is taken as it is, and an array is checked and
completed first. An object of what the dictionary inherits from counts as an array. -/
def dictionaryCast (t : Target) (fields : List OwnedField) (inherited : List Snapshot) :
    Draft Item := do
  let own := t.qualified .contract t.name
  let top := match inherited.getLast? with
    | some snapshot => t.qualified .contract snapshot.ancestor.name
    | none => own
  let sig ← t.castSig (top ++ "|array") own
  let defaults ← defaultLines fields
  let conversions := (← fields.mapM t.conversion).flatten
  let branches ← (inherited.mapM t.snapshotStmt : Except Error (List Stmt))
  let methods ← fields.mapM t.fieldRoutine
  let completion := if defaults.isEmpty then [] else
    [.braced [.text "$value += ["] "];" defaults]
  let constructorSig : MethodSig := {
    name := "__construct"
    params := [Param.make "fields" { binding := "array", doc := "array<string, mixed>" }] }
  return .method {
    sig
    body := .factory
      ([ifInstance own [.plain "return $value;"]] ++ branches ++ t.requiredStmts fields ++
        completion ++ conversions)
      { argument := "$value"
        contract := own
        usedTrait := t.qualified .defaults t.name
        constructorDoc := constructorSig.docLines
        constructorParam := "private array $fields"
        methods } }

/-- The cast of a callback: a callable is wrapped in an object whose method `called` calls
it. The `others` are not implemented. -/
def callableCast (t : Target) (called : Option MethodSig) (others : List MethodSig) :
    Except Error Item := do
  let own := t.qualified .contract t.name
  let sig ← t.castSig (own ++ "|callable") own
  let taken := ifInstance own [.plain "return $value;"]
  match called with
  | none =>
    let message := quote (t.name ++ " has no operation to call")
    return defined sig [taken, .plain ("throw new \\InvalidArgumentException(" ++ message ++ ");")]
  | some called =>
    let call := "($this->callable)(" ++ called.forwardArgs ++ ")"
    return .method {
      sig
      body := .factory [taken]
        { argument := "\\Closure::fromCallable($value)"
          contract := own
          usedTrait := t.qualified .defaults t.name
          constructorParam := "private \\Closure $callable"
          methods := { sig := called, body := [called.returning [.text call]] } ::
            others.map fun sig => { sig, body := [notImplemented t.name sig.name] } } }

end Target

end WebIdl.Artifact
