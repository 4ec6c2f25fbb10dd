import WebIdl.IdlType

/-!
# WebIdl.Definition

Definitions, their members, and the nodes a source file consists of.
-/

namespace WebIdl

/-- A constant value or a default value. A number keeps its spelling. -/
inductive Literal where
  | number (spelling : String)
  | boolean (value : Bool)
  | null
  | string (text : String)
  | infinity (negative : Bool)
  | nan
  /-- `[]` -/
  | emptySequence
  /-- An empty pair of braces. -/
  | emptyDictionary
deriving Repr, DecidableEq

/-- One argument of an operation, a constructor or a callback. -/
structure Argument where
  name : String
  type : IdlType
  optional : Bool := false
  variadic : Bool := false
  default : Option Literal := none
  attrs : ExtAttrs := {}
deriving Repr

/-- What a call takes and returns. -/
structure Signature where
  result : IdlType
  arguments : List Argument
deriving Repr

/-- Qualifier of an attribute. -/
inductive AttributeSpecial where
  | none
  | static
  | stringifier
  | inherit
deriving Repr, DecidableEq

/-- Qualifier of an operation. -/
inductive OperationSpecial where
  | none
  | static
  | getter
  | setter
  | deleter
  | stringifier
deriving Repr, DecidableEq

/-- `attribute T name;` -/
structure Attribute where
  name : String
  type : IdlType
  readonly : Bool := false
  special : AttributeSpecial := .none
deriving Repr

/-- `T name;` in a dictionary. -/
structure Field where
  name : String
  type : IdlType
  required : Bool := false
  default : Option Literal := none
deriving Repr

/-- `T name(arguments);`. A special operation may have no name. -/
structure Operation where
  name : Option String
  signature : Signature
  special : OperationSpecial := .none
deriving Repr

/-- `const T NAME = value;` -/
structure Constant where
  name : String
  type : IdlType
  value : Literal
deriving Repr

/-- `iterable<V>` or `iterable<K, V>`. -/
structure Iterable where
  key : Option IdlType
  value : IdlType
  isAsync : Bool
deriving Repr

/-- What a member declares. -/
inductive MemberKind where
  | attribute (decl : Attribute)
  | field (decl : Field)
  | operation (decl : Operation)
  | constant (decl : Constant)
  | iterable (decl : Iterable)
  | constructor (arguments : List Argument)
deriving Repr

/-- A member of a definition, with the comments written before it. -/
structure Member where
  kind : MemberKind
  attrs : ExtAttrs := {}
  comments : List String := []
deriving Repr

/-- The word in a comment that marks a member as kept for old consumers only. -/
def legacyMarker : String := "@legacy"

/-- Whether `part` occurs in a text. -/
def occursIn (part : List Char) : List Char → Bool
  | [] => part.isEmpty
  | c :: cs => part.isPrefixOf (c :: cs) || occursIn part cs

/-- The name the member is declared with. -/
def Member.name? (member : Member) : Option String :=
  match member.kind with
  | .attribute decl => some decl.name
  | .field decl => some decl.name
  | .operation decl => decl.name
  | .constant decl => some decl.name
  | .iterable _ => none
  | .constructor _ => none

/-- Whether a comment marks the member as legacy. -/
def Member.isLegacy (member : Member) : Bool :=
  member.comments.any fun comment => occursIn legacyMarker.toList comment.toList

/-- What is defined. -/
inductive DefinitionKind where
  | interface
  | mixin
  | dictionary
  | enum (values : List String)
  | callback (signature : Signature)
  | callbackInterface
deriving Repr

/-- The words a definition starts with. -/
def DefinitionKind.keyword : DefinitionKind → String
  | .interface => "interface"
  | .mixin => "interface mixin"
  | .dictionary => "dictionary"
  | .enum _ => "enum"
  | .callback _ => "callback"
  | .callbackInterface => "callback interface"

/-- A definition. A partial one adds its members to the definition of its name. -/
structure Definition where
  name : String
  kind : DefinitionKind
  members : List Member := []
  parent : Option String := none
  isPartial : Bool := false
  attrs : ExtAttrs := {}
deriving Repr

namespace Definition

/-- Whether the definition is an enumeration. -/
def isEnum (d : Definition) : Bool :=
  match d.kind with
  | .enum _ => true
  | _ => false

/-- Whether the definition is a dictionary. -/
def isDictionary (d : Definition) : Bool :=
  match d.kind with
  | .dictionary => true
  | _ => false

/-- Whether the definition is an interface mixin. -/
def isMixin (d : Definition) : Bool :=
  match d.kind with
  | .mixin => true
  | _ => false

/-- Whether the definition is an interface. -/
def isInterface (d : Definition) : Bool :=
  match d.kind with
  | .interface => true
  | _ => false

/-- Whether the definition inherits from nothing. -/
def isRoot (d : Definition) : Bool :=
  d.parent.isNone

/-- The values of an enumeration; none for any other kind. -/
def enumValues (d : Definition) : List String :=
  match d.kind with
  | .enum values => values
  | _ => []

end Definition

/-- A top-level node of a source file. -/
inductive Node where
  | definition (decl : Definition)
  /-- `Target includes Mixin;` -/
  | includes (target mixin : String)
  /-- `typedef Type Name;` -/
  | typedef (name : String) (type : IdlType)
deriving Repr

end WebIdl
