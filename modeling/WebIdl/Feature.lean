import WebIdl.Catalog.Basic

/-!
# WebIdl.Feature

What a list of members amounts to. Overloads of an operation belong together, and so do
the constructors of a definition; such a group stands where its first member stands.
-/

namespace WebIdl

/-- An attribute with the definition that declares it. -/
structure OwnedAttribute where
  owner : Definition
  decl : Attribute
  attrs : ExtAttrs
deriving Repr

/-- Whether the attribute belongs to the class and not to its objects. -/
def OwnedAttribute.isStatic (a : OwnedAttribute) : Bool :=
  a.decl.special == .static

/-- A dictionary field with the definition that declares it. -/
structure OwnedField where
  owner : Definition
  decl : Field
deriving Repr

/-- Whether the field can be missing once defaults are applied. -/
def OwnedField.mayBeAbsent (f : OwnedField) : Bool :=
  !f.decl.required && (f.decl.default == none || f.decl.default == some .null)

/-- All overloads of an operation. An operation without a name stands alone. -/
structure OperationGroup where
  owner : Definition
  name : Option String
  special : OperationSpecial
  overloads : List Signature
deriving Repr

/-- Whether the operation belongs to the class and not to its objects. -/
def OperationGroup.isStatic (g : OperationGroup) : Bool :=
  g.special == .static

/-- What one or more members amount to. -/
inductive Feature where
  | constant (owner : Definition) (decl : Constant)
  | attribute (decl : OwnedAttribute)
  | field (decl : OwnedField)
  | operation (group : OperationGroup)
  | iterable (owner : Definition) (decl : Iterable)
  | constructors (owner : Definition) (overloads : List (List Argument))
deriving Repr

namespace Feature

/-- The signature of a member that declares a named operation of an owner. -/
def overload? (owner name : String) (item : SurfaceMember) : Option Signature :=
  match item.member.kind with
  | .operation decl =>
    if item.owner.name == owner && decl.name == some name then some decl.signature else none
  | _ => none

/-- The arguments of a member that declares a constructor of an owner. -/
def constructor? (owner : String) (item : SurfaceMember) : Option (List Argument) :=
  match item.member.kind with
  | .constructor arguments => if item.owner.name == owner then some arguments else none
  | _ => none

/-- The features of some members, when the operations and constructors of the listed
owners have had their turn. -/
def ofMembersAfter (operations : List (String × String)) (constructors : List String) :
    List SurfaceMember → List Feature
  | [] => []
  | item :: rest =>
    let owner := item.owner
    match item.member.kind with
    | .constant decl => .constant owner decl :: ofMembersAfter operations constructors rest
    | .attribute decl =>
      .attribute { owner, decl, attrs := item.member.attrs } ::
        ofMembersAfter operations constructors rest
    | .field decl => .field { owner, decl } :: ofMembersAfter operations constructors rest
    | .iterable decl => .iterable owner decl :: ofMembersAfter operations constructors rest
    | .operation { name := none, signature, special } =>
      .operation { owner, name := none, special, overloads := [signature] } ::
        ofMembersAfter operations constructors rest
    | .operation { name := some name, signature, special } =>
      if operations.contains (owner.name, name) then ofMembersAfter operations constructors rest
      else
        let overloads := signature :: rest.filterMap (overload? owner.name name)
        .operation { owner, name := some name, special, overloads } ::
          ofMembersAfter ((owner.name, name) :: operations) constructors rest
    | .constructor arguments =>
      if constructors.contains owner.name then ofMembersAfter operations constructors rest
      else
        .constructors owner (arguments :: rest.filterMap (constructor? owner.name)) ::
          ofMembersAfter operations (owner.name :: constructors) rest

/-- The features of some members. -/
def ofMembers (items : List SurfaceMember) : List Feature :=
  ofMembersAfter [] [] items

end Feature

/-- The attributes among some members that belong to objects. -/
def instanceAttributes (items : List SurfaceMember) : List OwnedAttribute :=
  (Feature.ofMembers items).filterMap fun
    | .attribute decl => if decl.isStatic then none else some decl
    | _ => none

/-- The fields among some members. -/
def fieldsIn (items : List SurfaceMember) : List OwnedField :=
  (Feature.ofMembers items).filterMap fun
    | .field decl => some decl
    | _ => none

/-- The operations of a definition that have a name and no special role. -/
def regularOperations (d : Definition) : List OperationGroup :=
  (Feature.ofMembers d.ownMembers).filterMap fun
    | .operation group =>
      if group.name.isSome && group.special == .none then some group else none
    | _ => none

end WebIdl
