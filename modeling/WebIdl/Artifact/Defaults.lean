import WebIdl.Artifact.Cast
import WebIdl.Artifact.Keyed
import WebIdl.Artifact.Reflected

/-!
# WebIdl.Artifact.Defaults

The defaults of a definition: a trait with all that follows from the declarations.
Properties lead to accessors, extended attributes and container protocols are
implemented, and loose forms can be cast.
-/

namespace WebIdl.Artifact

open WebIdl.Code
open WebIdl.Text (quote)

/-- Whether a definition has defaults. An interface without a parent always has, for the
hooks; a mixin has if one of its methods implements itself. -/
def hasDefaults (r : Registry) (d : Definition) : Except Error Bool :=
  match d.kind with
  | .enum _ => .ok false
  | .dictionary => .ok true
  | .callback _ => .ok true
  | .callbackInterface => .ok true
  | .interface =>
    if d.isRoot then .ok true
    else do
      let caps ← Capabilities.of r.toCatalog d
      if caps.keyed then return true
      else return !(instanceAttributes (r.surface d)).isEmpty
  | .mixin => do
    let caps ← Capabilities.of r.toCatalog d
    if caps.keyed then return true
    else (instanceAttributes (r.surface d)).anyM r.coversSetter

/-- The signature of the hook for reading a property that does not exist. -/
def getMissingSig : MethodSig :=
  plainSig Identifier.getMissing [plainParam "name" "string"] "mixed"

/-- The signature of the hook for writing a property that does not exist. -/
def setMissingSig : MethodSig :=
  plainSig Identifier.setMissing [plainParam "name" "string", valueParam] "void"

/-- The signature of the hook for a key that is not there. -/
def undefinedKeySig : MethodSig :=
  plainSig Identifier.undefinedKey [offsetParam] "mixed"

/-- The hooks of an interface without a parent, which fail. -/
def rootHooks : List Item :=
  let thrown := fun (exception message args : String) =>
    [Stmt.plain ("throw new \\" ++ exception ++ "(sprintf(" ++ quote message ++ ", " ++ args ++
      "));")]
  [Target.defined getMissingSig
    (thrown "Error" "Undefined property: %s::$%s" "static::class, $name"),
   Target.defined setMissingSig
    (thrown "Error" "Cannot create dynamic property %s::$%s" "static::class, $name"),
   Target.defined undefinedKeySig
    (thrown "OutOfBoundsException" "Undefined key %s on %s"
      "var_export($offset, true), static::class")]

/-- A method that the using class or its parents have to bring. -/
def abstractItem (sig : MethodSig) : Item :=
  .method { sig, modifiers := "abstract public", body := .declared }

/-- The hooks that a trait relies on and does not bring. -/
def abstractHooks (properties key : Bool) : List Item :=
  (if properties then [abstractItem getMissingSig, abstractItem setMissingSig] else []) ++
  (if key then [abstractItem undefinedKeySig] else [])

namespace Target

/-- Reading properties: those that are declared, and then the hook or the parent. -/
def propertyGet (t : Target) (properties : List OwnedAttribute) (root : Bool) :
    Except Error Item := do
  let arms ← properties.mapM fun a => do
    let getter ← t.registry.nameOf a.owner.name .getter a.decl.name
    return selfCall (quote a.decl.name ++ " => ") getter "(),"
  let otherwise : Stmt :=
    if root then selfCall "default => " Identifier.getMissing "($name),"
    else .line [.text "default => ", .parent "__get", .text "($name),"]
  return defined (plainSig "__get" [plainParam "name" "string"] "mixed")
    [.matching "return match ($name)" (arms ++ [otherwise])]

/-- What writing a declared property does; one without a setter cannot be written. -/
def propertySetArm (t : Target) (a : OwnedAttribute) : Stmt :=
  let key := quote a.decl.name ++ " => "
  match t.registry.name? a.owner.name .setter a.decl.name with
  | some setter => selfCall key setter "($value),"
  | none =>
    let message := quote ("Cannot modify readonly property %s::$" ++ a.decl.name)
    .plain (key ++ "throw new \\Error(sprintf(" ++ message ++ ", static::class)),")

/-- Writing properties: those that are declared, and then the hook or the parent. -/
def propertySet (t : Target) (properties : List OwnedAttribute) (root : Bool) : Item :=
  let otherwise : Stmt :=
    if root then selfCall "default => " Identifier.setMissing "($name, $value),"
    else .line [.text "default => ", .parent "__set", .text "($name, $value),"]
  defined (plainSig "__set" [plainParam "name" "string", valueParam] "void")
    [.matching "match ($name)" (properties.map t.propertySetArm ++ [otherwise])]

/-- Whether one of the definitions that a definition inherits from has keyed access. -/
def inheritsKeyed (t : Target) : Except Error Bool := do
  let keyed ← (t.registry.ancestors t.definition).mapM fun ancestor => do
    return (← Capabilities.of t.registry.toCatalog ancestor).keyed
  return keyed.any id

/-- The defaults of an interface or a mixin. -/
def interfaceDefaults (t : Target) : Draft (List Item) := do
  let caps ← Capabilities.of t.registry.toCatalog t.definition
  let root := t.definition.isInterface && t.definition.isRoot
  let properties := instanceAttributes (t.registry.surface t.definition)
  let intercepts := t.definition.isInterface && (root || !properties.isEmpty)
  let interception ←
    if intercepts then (do
      return [← t.propertyGet properties root, t.propertySet properties root])
    else pure []
  let hooks :=
    if root then rootHooks else abstractHooks intercepts caps.keyed
  let accessors := (← properties.mapM t.attributeItems).flatten
  let keyed ← if caps.keyed then (do t.keyedItems caps (← t.inheritsKeyed)) else pure []
  let count ← t.countItems caps
  let stringifier ← t.stringifierItems caps
  let iterator ← if caps.derivesIterator then t.iteratorItems caps else pure []
  return interception ++ hooks ++ accessors ++ keyed ++ count ++ stringifier ++ iterator

/-- The defaults of a dictionary. -/
def dictionaryDefaults (t : Target) : Draft (List Item) := do
  let ancestors := t.registry.ancestors t.definition
  let fields := chainFields (t.definition :: ancestors)
  let cast ← t.dictionaryCast fields (snapshots fields ancestors)
  return cast :: (← t.fieldItems fields)

/-- The defaults of a callback. -/
def callbackDefaults (t : Target) (signature : Signature) : Draft (List Item) := do
  let invoke ← t.invokeSig [signature]
  return [← t.callableCast (some invoke) []]

/-- The defaults of a callback interface: calling it calls its first operation. -/
def callbackInterfaceDefaults (t : Target) : Draft (List Item) := do
  let operations := regularOperations t.definition
  let sigs := (← operations.mapM t.operationSig?).filterMap id
  let cast ← t.callableCast sigs.head? sigs.tail
  match sigs, operations with
  | called :: _, first :: _ =>
    let sig ← t.invokeSig first.overloads
    let call := [Piece.self called.name, .text ("(" ++ sig.forwardArgs ++ ")")]
    return [cast, defined sig [sig.returning call]]
  | _, _ => return [cast]

/-- The trait with the defaults of a definition. -/
def defaults (t : Target) : Draft (Option ClassDecl) := do
  if ← hasDefaults t.registry t.definition then
    let items ← match t.definition.kind with
      | .interface => t.interfaceDefaults
      | .mixin => t.interfaceDefaults
      | .dictionary => t.dictionaryDefaults
      | .callback signature => t.callbackDefaults signature
      | .callbackInterface => t.callbackInterfaceDefaults
      | .enum _ => pure []
    return some { head := "trait " ++ t.name, items }
  else return none

end Target

end WebIdl.Artifact
