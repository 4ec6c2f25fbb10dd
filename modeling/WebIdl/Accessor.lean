import WebIdl.Feature
import WebIdl.Registry

/-!
# WebIdl.Accessor

How the accessors of an attribute can be implemented without anybody writing them: by
reflecting a content attribute, by forwarding to an attribute of another object, or by
inheriting them.
-/

namespace WebIdl

/-- How an attribute reflects the content attribute of a name. -/
inductive Reflection where
  /-- Text, which reads as empty when it is absent and may not be null. -/
  | string (content : String) (nullable : Bool)
  /-- Presence. -/
  | boolean (content : String)
  /-- A number, zero when it is absent or no number. -/
  | integer (content : String)
  /-- A keyword of an enumeration, with the values for a bad one and for none. -/
  | enum (content : String) (values : List String) (invalid missing : String)
deriving Repr, DecidableEq

/-- Where the setter of a `[PutForwards]` attribute writes to. -/
structure Forward where
  /-- The setter of the target attribute. -/
  setter : String
  /-- The type of the target attribute. -/
  type : IdlType
deriving Repr

namespace Registry

/-- How an attribute reflects, if it does and its type can. -/
def reflection? (r : Registry) (a : OwnedAttribute) : Except Error (Option Reflection) :=
  match a.attrs.get? "Reflect" with
  | none => .ok none
  | some reflect =>
    if a.isStatic then .ok none
    else do
      let content := reflect.word?.getD (Text.lowerAscii a.decl.name)
      let type ← r.resolve a.decl.type
      match type.name? with
      | none => return none
      | some name =>
        match Primitive.ofName? name with
        | some .string => return some (.string content type.nullable)
        | some .boolean => return if type.nullable then none else some (.boolean content)
        | some .integer => return if type.nullable then none else some (.integer content)
        | some _ => return none
        | none =>
          match r.get? name with
          | some d =>
            if d.isEnum && !type.nullable then
              let invalid := (a.attrs.word? "ReflectInvalid").getD ""
              let missing := (a.attrs.word? "ReflectMissing").getD ""
              return some (.enum content d.enumValues invalid missing)
            else return none
          | none => return none

/-- The type of the first attribute of a name on a definition, its mixins, or its
ancestors and theirs. -/
def attributeType? (r : Registry) (d : Definition) (name : String) : Option IdlType :=
  ((d :: r.ancestors d).flatMap r.surface).findSome? fun item =>
    match item.member.kind with
    | .attribute decl => if decl.name == name then some decl.type else none
    | _ => none

/-- Where an attribute forwards to. -/
def forward? (r : Registry) (a : OwnedAttribute) : Except Error (Option Forward) :=
  match a.attrs.word? "PutForwards" with
  | none => .ok none
  | some target => do
    let type ← r.resolve a.decl.type
    match type.name? with
    | none =>
      throw (.unsupportedType (.forwardsToNoInterface a.owner.name a.decl.name))
    | some name =>
      let d ← r.definition name
      match r.attributeType? d target, r.findName d.name .setter target with
      | some type, some (_, setter) => return some { setter, type }
      | _, _ => throw (.missingName d.name NameCategory.setter.text target)

/-- Whether the getter of an attribute implements itself. -/
def coversGetter (r : Registry) (a : OwnedAttribute) : Except Error Bool := do
  return (← r.reflection? a).isSome

/-- Whether the setter of an attribute implements itself. -/
def coversSetter (r : Registry) (a : OwnedAttribute) : Except Error Bool := do
  match ← r.reflection? a with
  | some _ => return true
  | none => return (← r.forward? a).isSome

/-- Whether an `inherit` attribute has the accessor that its ancestors have for it. -/
def inheritsAccessor (r : Registry) (a : OwnedAttribute) (category : NameCategory) : Bool :=
  match a.decl.special, a.owner.parent, r.name? a.owner.name category a.decl.name with
  | .inherit, some parent, some own =>
    (r.findName parent category a.decl.name).map (·.2) == some own
  | _, _, _ => false

/-- The method of an operation; an operation without a name and a role has none. -/
def operationName? (r : Registry) (g : OperationGroup) : Except Error (Option String) :=
  match g.name with
  | some name => do return some (← r.nameOf g.owner.name .operation name)
  | none =>
    match g.overloads with
    | [] => .ok none
    | signature :: _ => do
      match ← r.specialKind g.special signature with
      | some kind => return some (← r.nameOf g.owner.name .special kind.key)
      | none => return none

/-- The result of a member that is an indexed getter. -/
def indexedResult? (r : Registry) (item : SurfaceMember) : Except Error (Option IdlType) :=
  match item.member.kind with
  | .operation decl => do
    if (← r.specialKind decl.special decl.signature) == some .indexedGetter then
      return some decl.signature.result
    else return none
  | _ => .ok none

/-- The result of the first indexed getter among some members. -/
def firstIndexedResult? (r : Registry) : List SurfaceMember → Except Error (Option IdlType)
  | [] => .ok none
  | item :: rest => do
    match ← r.indexedResult? item with
    | some type => return some type
    | none => r.firstIndexedResult? rest

end Registry

end WebIdl
