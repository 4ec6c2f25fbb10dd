import WebIdl.Artifact.Defaults

/-!
# WebIdl.Artifact.Scaffold

The scaffold of a definition: a class that implements the contract with the help of the
defaults, and has a method to be implemented for everything else.
-/

namespace WebIdl.Artifact

open WebIdl.Code

namespace Target

/-- The methods of an attribute that do not implement themselves. -/
def scaffoldAttribute (t : Target) (a : OwnedAttribute) : Draft (List Item) := do
  let getter ←
    if (← t.registry.coversGetter a) || t.registry.inheritsAccessor a .getter then pure []
    else (do
      let name ← t.registry.nameOf a.owner.name .getter a.decl.name
      return [t.stub (← t.getter name a.decl.type a.isStatic)])
  match t.registry.name? a.owner.name .setter a.decl.name with
  | none => return getter
  | some name =>
    if (← t.registry.coversSetter a) || t.registry.inheritsAccessor a .setter then return getter
    else return getter ++ [t.stub (← t.setter name a.decl.type a.isStatic)]

/-- What a feature contributes to the scaffold. -/
def scaffoldItems (t : Target) : Feature → Draft (List Item)
  | .constant _ _ => return []
  | .attribute decl => t.scaffoldAttribute decl
  | .field decl => do return [t.stub (← t.fieldGetter decl)]
  | .operation group => do return (← t.operationSig? group).toList.map t.stub
  | .iterable owner decl => do return [t.stub (← t.iterableSig owner decl)]
  | .constructors _ overloads => do return [t.stub (← t.constructor overloads)]

/-- The head of the scaffold: a trait for a mixin, and a class for everything else. -/
def scaffoldHead (t : Target) : String :=
  if t.definition.isMixin then "trait " ++ t.name
  else
    let parent := match t.definition.parent with
      | some parent => " extends " ++ t.qualified .scaffold parent
      | none => ""
    "class " ++ t.name ++ parent ++ " implements " ++ t.qualified .contract t.name

/-- The scaffold of some members. -/
def scaffoldOf (t : Target) (members : List SurfaceMember) : Draft ClassDecl := do
  let uses ←
    if ← hasDefaults t.registry t.definition then
      pure [Item.usedTrait (t.qualified .defaults t.name)]
    else pure []
  let items ← (Feature.ofMembers members).mapM t.scaffoldItems
  return { head := t.scaffoldHead, items := uses ++ items.flatten }

/-- The scaffold of a definition. The fields that a dictionary inherits belong to the
scaffold of its parent. -/
def scaffold (t : Target) : Draft (Option ClassDecl) :=
  match t.definition.kind with
  | .callback _ => return none
  | .enum _ => return none
  | .dictionary => do return some (← t.scaffoldOf t.definition.ownMembers)
  | .interface | .mixin | .callbackInterface => do
    return some (← t.scaffoldOf (t.registry.surface t.definition))

end Target

end WebIdl.Artifact
