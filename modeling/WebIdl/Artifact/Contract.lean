import WebIdl.Accessor
import WebIdl.Artifact.Target

/-!
# WebIdl.Artifact.Contract

The contract of a definition: an interface with the signatures of its members, or the
class of an enumeration.
-/

namespace WebIdl.Artifact

open WebIdl.Code
open WebIdl.Text (joinWith quote)

namespace Target

/-- What a constant contributes to the contract. -/
def contractConstant (t : Target) (owner : Definition) (decl : Constant) :
    Draft (List Item) := do
  let name ← t.registry.nameOf owner.name .constant decl.name
  let value ← literalText decl.value
  return [.constants [(name, value)]]

/-- What an attribute contributes to the contract. -/
def contractAttribute (t : Target) (a : OwnedAttribute) : Draft (List Item) := do
  let getter ← t.registry.nameOf a.owner.name .getter a.decl.name
  let getterSig ← t.getter getter a.decl.type a.isStatic
  match t.registry.name? a.owner.name .setter a.decl.name with
  | none => return [declared getterSig]
  | some setter =>
    let type := match ← t.registry.forward? a with
      | some forward => forward.type
      | none => a.decl.type
    let setterSig ← t.setter setter type a.isStatic
    return [declared getterSig, declared setterSig]

/-- The getter of a dictionary field. -/
def fieldGetter (t : Target) (f : OwnedField) : Draft MethodSig := do
  let getter ← t.registry.nameOf f.owner.name .getter f.decl.name
  let sig ← t.getter getter f.decl.type false
  return if f.mayBeAbsent then sig.orNull else sig

/-- The method of an operation, if it has one. -/
def operationSig? (t : Target) (g : OperationGroup) : Draft (Option MethodSig) := do
  match ← t.registry.operationName? g with
  | none => return none
  | some name => return some (← t.operation name g.overloads g.isStatic)

/-- The iterator of an `iterable` declaration. -/
def iterableSig (t : Target) (owner : Definition) (decl : Iterable) : Draft MethodSig := do
  let name ← t.registry.nameOf owner.name .iterator ""
  t.iterator name decl.key decl.value

/-- What a feature contributes to the contract. -/
def contractItems (t : Target) : Feature → Draft (List Item)
  | .constant owner decl => t.contractConstant owner decl
  | .attribute decl => t.contractAttribute decl
  | .field decl => do return [declared (← t.fieldGetter decl)]
  | .operation group => do return (← t.operationSig? group).toList.map declared
  | .iterable owner decl => do return [declared (← t.iterableSig owner decl)]
  | .constructors _ _ => return []

/-- What the members of the definition itself contribute to the contract. -/
def contractMembers (t : Target) : Draft (List Item) := do
  return (← (Feature.ofMembers t.definition.ownMembers).mapM t.contractItems).flatten

/-- The contract of the parent. -/
def parentContract (t : Target) : List String :=
  t.definition.parent.toList.map (t.qualified .contract)

/-- An interface that extends others. -/
def interfaceDecl (t : Target) (extended : List String) (items : List Item) : ClassDecl where
  head :=
    if extended.isEmpty then "interface " ++ t.name
    else "interface " ++ t.name ++ " extends " ++ joinWith ", " extended
  items

/-- The method that makes an object of the definition out of what it accepts. -/
def castSig (t : Target) (accepted result : String) : Except Error MethodSig := do
  let name ← t.structuralName .cast
  return { plainSig name [plainParam "value" accepted] result with isStatic := true }

/-- The host interfaces that follow from capabilities. -/
def protocols (caps : Capabilities) : List String :=
  (if caps.keyed then ["\\ArrayAccess"] else []) ++
  (if caps.counts then ["\\Countable"] else []) ++
  (if caps.iterates then ["\\IteratorAggregate"] else []) ++
  (if caps.stringifies then ["\\Stringable"] else [])

/-- The iterator that follows from the indexed getter. -/
def derivedIterator (t : Target) : Draft (List Item) := do
  match ← t.registry.firstIndexedResult? (t.registry.surface t.definition) with
  | none => return []
  | some value => return [declared (← t.iterator (← t.structuralName .iterator) none value)]

/-- The contract of an interface or a mixin. -/
def interfaceContract (t : Target) : Draft ClassDecl := do
  let caps ← Capabilities.of t.registry.toCatalog t.definition
  let included := (t.registry.included t.name).map (t.qualified .contract)
  let members ← t.contractMembers
  let iterator ← if caps.derivesIterator then t.derivedIterator else pure []
  return t.interfaceDecl (t.parentContract ++ included ++ protocols caps) (members ++ iterator)

/-- The accessors that a dictionary without a parent declares. -/
def offsetSigs (t : Target) : Except Error (List MethodSig) := do
  let key := Param.make "offset" { binding := "mixed", doc := "string" }
  let existsName ← t.structuralName .exists
  let getName ← t.structuralName .get
  let setName ← t.structuralName .set
  let unsetName ← t.structuralName .unset
  return [plainSig existsName [key] "bool", plainSig getName [key] "mixed",
    plainSig setName [key, valueParam] "void", plainSig unsetName [key] "void"]

/-- The contract of a dictionary. -/
def dictionaryContract (t : Target) : Draft ClassDecl := do
  let root := t.definition.isRoot
  let members ← t.contractMembers
  let offsets ← if root then (do return (← t.offsetSigs).map declared) else pure []
  let accepted := match (t.registry.ancestors t.definition).getLast? with
    | some top => t.qualified .contract top.name ++ "|array"
    | none => "self|array"
  let cast ← t.castSig accepted "self"
  let extended := t.parentContract ++ (if root then ["\\ArrayAccess"] else [])
  return t.interfaceDecl extended (members ++ offsets ++ [declared cast])

/-- The method that calls a callback. -/
def invokeSig (t : Target) (overloads : List Signature) : Draft MethodSig := do
  t.operation (← t.structuralName .invoke) overloads false

/-- The contract of a callback. -/
def callbackContract (t : Target) (signature : Signature) : Draft ClassDecl := do
  let invoke ← t.invokeSig [signature]
  let cast ← t.castSig "self|callable" "self"
  return t.interfaceDecl [] [declared invoke, declared cast]

/-- The contract of a callback interface, whose first operation is what is called. -/
def callbackInterfaceContract (t : Target) : Draft ClassDecl := do
  let members ← t.contractMembers
  let invoke ← match regularOperations t.definition with
    | [] => pure []
    | first :: _ => do pure [declared (← t.invokeSig first.overloads)]
  let cast ← t.castSig "self|callable" "self"
  return t.interfaceDecl [] (members ++ invoke ++ [declared cast])

/-- The constants of an enumeration with their values. -/
def enumConstants (t : Target) (values : List String) : Except Error (List (String × String)) :=
  values.mapM fun value => do
    return (← t.registry.nameOf t.name .enumValue value, value)

/-- The arms of an enumeration's `cast`: what is accepted, and the failure. -/
def enumArms (t : Target) (constants : List (String × String)) : List Stmt :=
  let accepted := constants.map fun (name, _) => "self::" ++ name
  let message := quote ("\"%s\" is not a valid value for enumeration " ++ t.name)
  (if accepted.isEmpty then [] else [.plain (joinWith ", " accepted ++ " => $value,")]) ++
  [.plain ("default => throw new \\ValueError(sprintf(" ++ message ++ ", $value)),")]

/-- The class of an enumeration. -/
def enumContract (t : Target) (values : List String) : Draft ClassDecl := do
  let constants ← t.enumConstants values
  let cast ← t.castSig "string" "string"
  return {
    head := "final class " ++ t.name
    items := [
      .constants (constants.map fun (name, value) => (name, quote value)),
      .sealedConstructor,
      defined cast [.matching "return match ($value)" (t.enumArms constants)]] }

/-- The contract of a definition. -/
def contract (t : Target) : Draft ClassDecl :=
  match t.definition.kind with
  | .interface => t.interfaceContract
  | .mixin => t.interfaceContract
  | .dictionary => t.dictionaryContract
  | .callback signature => t.callbackContract signature
  | .callbackInterface => t.callbackInterfaceContract
  | .enum values => t.enumContract values

end Target

end WebIdl.Artifact
