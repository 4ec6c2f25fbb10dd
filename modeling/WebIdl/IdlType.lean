import WebIdl.ExtAttr

/-!
# WebIdl.IdlType

Types as they are written: a name, a union of types, or a generic applied to types.
Every node says for itself whether `?` follows it and which extended attributes it
carries.
-/

namespace WebIdl

/-- The type constructors of the language. -/
inductive Generic where
  | sequence
  | frozenArray
  | observableArray
  | record
  | promise
deriving Repr, DecidableEq

namespace Generic

/-- The word the constructor is written with. -/
def keyword : Generic → String
  | .sequence => "sequence"
  | .frozenArray => "FrozenArray"
  | .observableArray => "ObservableArray"
  | .record => "record"
  | .promise => "Promise"

/-- All constructors. -/
def all : List Generic :=
  [.sequence, .frozenArray, .observableArray, .record, .promise]

/-- The constructor a word stands for. -/
def ofKeyword? (word : String) : Option Generic :=
  all.find? (·.keyword == word)

/-- How many types the constructor takes. -/
def arity : Generic → Nat
  | .record => 2
  | .sequence | .frozenArray | .observableArray | .promise => 1

end Generic

/-- Built-in types, by what they are in the generated code. -/
inductive Primitive where
  | integer
  | float
  | string
  | boolean
  | undefined
  | any
  | object
deriving Repr, DecidableEq

/-- The built-in type of a name. Names of several words have single spaces. -/
def Primitive.ofName? (name : String) : Option Primitive :=
  if ["byte", "octet", "short", "unsigned short", "long", "unsigned long", "long long",
      "unsigned long long"].contains name then some .integer
  else if ["float", "unrestricted float", "double", "unrestricted double"].contains name then
    some .float
  else if ["DOMString", "ByteString", "USVString"].contains name then some .string
  else if name == "boolean" then some .boolean
  else if name == "undefined" || name == "void" then some .undefined
  else if name == "any" then some .any
  else if name == "object" then some .object
  else none

/-- A type. -/
inductive IdlType where
  /-- A primitive, a typedef or a definition: `long`, `DOMString`, `Node`. -/
  | named (name : String) (nullable : Bool) (attrs : ExtAttrs)
  /-- `(A or B or C)` -/
  | union (members : List IdlType) (nullable : Bool) (attrs : ExtAttrs)
  /-- `sequence<T>`, `record<K, V>`, `Promise<T>` -/
  | generic (head : Generic) (args : List IdlType) (nullable : Bool) (attrs : ExtAttrs)
deriving Repr

namespace IdlType

/-- Whether `?` follows the type. -/
def nullable : IdlType → Bool
  | .named _ nullable _ => nullable
  | .union _ nullable _ => nullable
  | .generic _ _ nullable _ => nullable

/-- The extended attributes of the type itself. -/
def attrs : IdlType → ExtAttrs
  | .named _ _ attrs => attrs
  | .union _ _ attrs => attrs
  | .generic _ _ _ attrs => attrs

/-- The name, if the type is one. -/
def name? : IdlType → Option String
  | .named name _ _ => some name
  | .union .. => none
  | .generic .. => none

/-- A name without `?` and attributes. -/
def ofName (name : String) : IdlType :=
  .named name false {}

/-- The same type, wrapped by a node with a `?` and attributes of its own: it is
nullable if either is, and the attributes of the wrapper come after its own. -/
def wrap (ty : IdlType) (nullable : Bool) (attrs : ExtAttrs) : IdlType :=
  match ty with
  | .named name own ownAttrs => .named name (own || nullable) (ownAttrs.merge attrs)
  | .union members own ownAttrs => .union members (own || nullable) (ownAttrs.merge attrs)
  | .generic head args own ownAttrs =>
    .generic head args (own || nullable) (ownAttrs.merge attrs)

end IdlType

end WebIdl
