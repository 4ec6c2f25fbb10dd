import WebIdl.Catalog.Typedef

/-!
# WebIdl.Capability

Which container protocols a definition supports. They follow from the special
operations, the `length` attribute and the `iterable` declaration on its surface.
-/

namespace WebIdl

/-- The role that a special operation plays. -/
inductive SpecialKind where
  | indexedGetter
  | namedGetter
  | indexedSetter
  | namedSetter
  | indexedDeleter
  | namedDeleter
  | stringifier
deriving Repr, DecidableEq

namespace SpecialKind

/-- All roles. -/
def all : List SpecialKind :=
  [.indexedGetter, .namedGetter, .indexedSetter, .namedSetter, .indexedDeleter, .namedDeleter,
   .stringifier]

/-- The key of an operation that plays the role without a name of its own. -/
def key : SpecialKind → String
  | .indexedGetter => "indexed-getter"
  | .namedGetter => "named-getter"
  | .indexedSetter => "indexed-setter"
  | .namedSetter => "named-setter"
  | .indexedDeleter => "indexed-deleter"
  | .namedDeleter => "named-deleter"
  | .stringifier => "stringifier"

/-- The method name wanted for an operation without a name of its own. -/
def defaultName : SpecialKind → String
  | .indexedGetter => "item"
  | .namedGetter => "namedItem"
  | .indexedSetter => "setItem"
  | .namedSetter => "setNamedItem"
  | .indexedDeleter => "removeItem"
  | .namedDeleter => "removeNamedItem"
  | .stringifier => "toString"

/-- The role of a qualifier, given whether the first argument is an integer. -/
def ofSpecial? : OperationSpecial → (indexed : Bool) → Option SpecialKind
  | .getter, true => some .indexedGetter
  | .getter, false => some .namedGetter
  | .setter, true => some .indexedSetter
  | .setter, false => some .namedSetter
  | .deleter, true => some .indexedDeleter
  | .deleter, false => some .namedDeleter
  | .stringifier, _ => some .stringifier
  | .none, _ => none
  | .static, _ => none

end SpecialKind

/-- The role of an operation. Its first argument is looked at for every operation,
special or not, so a typedef cycle there is always found. -/
def Catalog.specialKind (c : Catalog) (special : OperationSpecial) (signature : Signature) :
    Except Error (Option SpecialKind) := do
  let indexed ← match signature.arguments.head? with
    | some argument => c.isInteger argument.type
    | none => pure false
  return SpecialKind.ofSpecial? special indexed

/-- What implements a role. -/
inductive SpecialSource where
  /-- An operation without a name; its method name is made up. -/
  | unnamed (owner : String)
  | operation (owner name : String)
  /-- The getter of a `stringifier attribute`. -/
  | attribute (owner name : String)
deriving Repr, DecidableEq

/-- An `iterable` declaration and who declares it. -/
structure OwnedIterable where
  owner : String
  decl : Iterable
deriving Repr

/-- The container protocols of one definition. The first declaration of each counts. -/
structure Capabilities where
  specials : List (SpecialKind × SpecialSource) := []
  /-- Owner and name of the integer attribute `length`. -/
  count : Option (String × String) := none
  iterable : Option OwnedIterable := none
deriving Repr

namespace Capabilities

/-- What plays a role. -/
def special? (caps : Capabilities) (kind : SpecialKind) : Option SpecialSource :=
  caps.specials.lookup kind

/-- Note what plays a role, unless something does. -/
def noteSpecial (caps : Capabilities) (kind : SpecialKind) (source : SpecialSource) :
    Capabilities :=
  if (caps.special? kind).isSome then caps
  else { caps with specials := caps.specials ++ [(kind, source)] }

/-- Note what an attribute contributes. -/
def noteAttribute (c : Catalog) (caps : Capabilities) (owner : String) (decl : Attribute) :
    Except Error Capabilities := do
  let caps :=
    if decl.special == .stringifier then
      caps.noteSpecial .stringifier (.attribute owner decl.name)
    else caps
  if decl.name == "length" && caps.count.isNone then
    if ← c.isInteger decl.type then return { caps with count := some (owner, decl.name) }
  return caps

/-- Note what an operation contributes. -/
def noteOperation (c : Catalog) (caps : Capabilities) (owner : String) (decl : Operation) :
    Except Error Capabilities := do
  match ← c.specialKind decl.special decl.signature with
  | none => return caps
  | some kind =>
    match decl.name with
    | some name => return caps.noteSpecial kind (.operation owner name)
    | none => return caps.noteSpecial kind (.unnamed owner)

/-- Note what a member contributes. -/
def note (c : Catalog) (caps : Capabilities) (item : SurfaceMember) :
    Except Error Capabilities :=
  match item.member.kind with
  | .operation decl => caps.noteOperation c item.owner.name decl
  | .attribute decl => caps.noteAttribute c item.owner.name decl
  | .iterable decl =>
    .ok { caps with iterable := caps.iterable.or (some ⟨item.owner.name, decl⟩) }
  | .field _ => .ok caps
  | .constant _ => .ok caps
  | .constructor _ => .ok caps

/-- The capabilities of a definition, from its surface. -/
def of (c : Catalog) (d : Definition) : Except Error Capabilities :=
  (c.surface d).foldlM (note c) {}

/-- Whether something plays a role. -/
def hasSpecial (caps : Capabilities) (kind : SpecialKind) : Bool :=
  (caps.special? kind).isSome

/-- Whether there is an integer `length`. -/
def counts (caps : Capabilities) : Bool :=
  caps.count.isSome

/-- Whether an iterable is declared. -/
def declaresIterable (caps : Capabilities) : Bool :=
  caps.iterable.isSome

/-- Whether there is a stringifier. -/
def stringifies (caps : Capabilities) : Bool :=
  caps.hasSpecial .stringifier

/-- Whether keyed access applies: some role is played, or there is a `length`. -/
def keyed (caps : Capabilities) : Bool :=
  !caps.specials.isEmpty || caps.counts

/-- Whether an iterator follows from the indexed getter and the `length`. -/
def derivesIterator (caps : Capabilities) : Bool :=
  caps.hasSpecial .indexedGetter && caps.counts && !caps.declaresIterable

/-- Whether there is an iterator, declared or derived. -/
def iterates (caps : Capabilities) : Bool :=
  caps.declaresIterable || caps.derivesIterator

end Capabilities

end WebIdl
