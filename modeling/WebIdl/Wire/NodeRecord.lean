import WebIdl.Definition
import WebIdl.Wire.TypeRecord

/-!
# WebIdl.Wire.NodeRecord

Literals, arguments, members and nodes as the JSON tree spells them, and what they
stand for. A record is read as a whole before anything is made of it: a tree whose
records cannot be read is unreadable, one whose records make no sense is malformed.
-/

namespace WebIdl.Wire

/-! ## Literals -/

/-- The value of a literal record. The items of a list do not matter. -/
inductive Scalar where
  | bool (value : Bool)
  | text (value : String)
  | list
deriving Repr, DecidableEq

/-- A literal record. -/
structure LiteralRecord where
  kind : String
  value : Option Scalar := none
  negative : Bool := false
deriving Repr, DecidableEq

/-- The literal a record stands for. -/
def LiteralRecord.toLiteral (record : LiteralRecord) : Except ShapeError Literal :=
  match record.kind, record.value with
  | "number", some (.text spelling) => .ok (.number spelling)
  | "boolean", some (.bool value) => .ok (.boolean value)
  | "null", _ => .ok .null
  | "string", some (.text text) => .ok (.string text)
  | "Infinity", _ => .ok (.infinity record.negative)
  | "NaN", _ => .ok .nan
  | "sequence", none => .ok .emptySequence
  | "sequence", some .list => .ok .emptySequence
  | "dictionary", _ => .ok .emptyDictionary
  | kind, _ => .error (.unknownLiteral kind)

/-- The value of a literal record. -/
def scalar? (room : Nat) (value : Json) : Option Scalar :=
  if storable room value then
    match value with
    | .bool value => some (.bool value)
    | .string text => some (.text text)
    | .array _ => some .list
    | .null | .number _ | .object _ => none
  else none

/-- A literal record. -/
def literalRecord? (room : Nat) (value : Json) : Option LiteralRecord :=
  match room with
  | 0 => none
  | room + 1 =>
    match fieldsOf ["type", "value", "negative"] value with
    | some [kind, value, negative] => do
      let kind ← required string? kind
      let value ← optional (scalar? room) value
      let negative ← withDefault false bool? negative
      return { kind, value, negative }
    | _ => none

/-! ## Arguments -/

/-- An argument record. -/
structure ArgumentRecord where
  name : String
  type : TypeRecord
  optional : Bool := false
  variadic : Bool := false
  default : Option LiteralRecord := none
  attrs : List AttrRecord := []
deriving Repr

/-- The literal that an optional record stands for. -/
def toLiteral? : Option LiteralRecord → Except ShapeError (Option Literal)
  | none => .ok none
  | some record => do return some (← record.toLiteral)

/-- The argument a record stands for. -/
def ArgumentRecord.toArgument (record : ArgumentRecord) : Except ShapeError Argument := do
  let type ← record.type.toType
  let default ← toLiteral? record.default
  return {
    name := record.name
    type
    optional := record.optional
    variadic := record.variadic
    default
    attrs := toExtAttrs record.attrs }

/-- The arguments a list of records stands for. -/
def toArguments (records : List ArgumentRecord) : Except ShapeError (List Argument) :=
  records.mapM ArgumentRecord.toArgument

/-- An argument record. -/
def argumentRecord? (room : Nat) (value : Json) : Option ArgumentRecord :=
  match room with
  | 0 => none
  | room + 1 =>
    match fieldsOf ["name", "idlType", "optional", "variadic", "default", "extAttrs"] value with
    | some [name, type, isOptional, variadic, default, attrs] => do
      let name ← required string? name
      let type ← required (typeRecord? room) type
      let isOptional ← withDefault false bool? isOptional
      let variadic ← withDefault false bool? variadic
      let default ← optional (literalRecord? room) default
      let attrs ← attrRecords? room attrs
      return { name, type, optional := isOptional, variadic, default, attrs }
    | _ => none

/-- The argument records of a node; none if the field is absent. -/
def argumentRecords? (room : Nat) (field : Option Json) : Option (List ArgumentRecord) :=
  withDefault [] (list? room argumentRecord?) field

/-! ## Members -/

/-- The types of a member: one, or a list of them. -/
inductive TypeField where
  | one (type : TypeRecord)
  | many (types : List TypeRecord)
deriving Repr

/-- A member record. -/
structure MemberRecord where
  kind : String
  name : Option String := none
  type : Option TypeField := none
  readonly : Bool := false
  required : Bool := false
  special : String := ""
  arguments : List ArgumentRecord := []
  default : Option LiteralRecord := none
  value : Option LiteralRecord := none
  isAsync : Bool := false
  attrs : List AttrRecord := []
  comments : List String := []
deriving Repr

/-- A name that has to be there and not be empty. -/
def MemberRecord.requiredName (record : MemberRecord) (node : String) :
    Except ShapeError String :=
  match record.name with
  | some name => if name == "" then .error (.missingField node "name") else .ok name
  | none => .error (.missingField node "name")

/-- The one type of a member. -/
def MemberRecord.oneType (record : MemberRecord) (node : String) : Except ShapeError IdlType :=
  match record.type with
  | some (.one type) => type.toType
  | some (.many _) => .error (.type (.listForOne node))
  | none => .error (.missingField node "idlType")

/-- The attribute a record stands for. -/
def MemberRecord.toAttribute (record : MemberRecord) : Except ShapeError Attribute := do
  let name ← record.requiredName "attribute"
  let type ← record.oneType "attribute"
  let special ← match record.special with
    | "" => pure AttributeSpecial.none
    | "static" => pure AttributeSpecial.static
    | "stringifier" => pure AttributeSpecial.stringifier
    | "inherit" => pure AttributeSpecial.inherit
    | other => throw (ShapeError.unknownSpecial "attribute" other)
  return { name, type, readonly := record.readonly, special }

/-- The dictionary field a record stands for. -/
def MemberRecord.toField (record : MemberRecord) : Except ShapeError Field := do
  let name ← record.requiredName "field"
  let type ← record.oneType "field"
  let default ← toLiteral? record.default
  return { name, type, required := record.required, default }

/-- The operation a record stands for. A stringifier may leave out its type, which
is then a string; a name that is empty is no name. -/
def MemberRecord.toOperation (record : MemberRecord) : Except ShapeError Operation := do
  let special ← match record.special with
    | "" => pure OperationSpecial.none
    | "static" => pure OperationSpecial.static
    | "getter" => pure OperationSpecial.getter
    | "setter" => pure OperationSpecial.setter
    | "deleter" => pure OperationSpecial.deleter
    | "stringifier" => pure OperationSpecial.stringifier
    | other => throw (ShapeError.unknownSpecial "operation" other)
  let result ←
    if record.type.isNone && special == OperationSpecial.stringifier then
      pure (IdlType.ofName "DOMString")
    else record.oneType "operation"
  let arguments ← toArguments record.arguments
  return {
    name := record.name.filter (· != "")
    signature := { result, arguments }
    special }

/-- The constant a record stands for. -/
def MemberRecord.toConstant (record : MemberRecord) : Except ShapeError Constant := do
  let name ← record.requiredName "const"
  let type ← record.oneType "const"
  match record.value with
  | none => throw (.missingField "const" "value")
  | some value => return { name, type, value := ← value.toLiteral }

/-- The iterable a record stands for: a value type, or a key and a value type. -/
def MemberRecord.toIterable (record : MemberRecord) : Except ShapeError Iterable := do
  let types := match record.type with
    | some (.many types) => types
    | some (.one type) => [type]
    | none => []
  let isAsync := record.isAsync || record.kind == "async_iterable"
  match types with
  | [value] => return { key := none, value := ← value.toType, isAsync }
  | [key, value] =>
    let key ← key.toType
    let value ← value.toType
    return { key := some key, value, isAsync }
  | _ => throw (.type (.iterableArguments types.length))

/-- What a member record declares. -/
def MemberRecord.toKind (record : MemberRecord) : Except ShapeError MemberKind :=
  match record.kind with
  | "attribute" => return .attribute (← record.toAttribute)
  | "field" => return .field (← record.toField)
  | "operation" => return .operation (← record.toOperation)
  | "const" => return .constant (← record.toConstant)
  | "iterable" | "async_iterable" => return .iterable (← record.toIterable)
  | "constructor" => return .constructor (← toArguments record.arguments)
  | other => throw (.unknownMember other)

/-- The member a record stands for. -/
def MemberRecord.toMember (record : MemberRecord) : Except ShapeError Member := do
  let kind ← record.toKind
  return { kind, attrs := toExtAttrs record.attrs, comments := record.comments }

/-- The types of a member. An array is one type record written as an array if it can
be, and else a list of types. -/
def typeField? (room : Nat) (value : Json) : Option TypeField :=
  if storable room value then
    match typeRecord? room value with
    | some type => some (.one type)
    | none => (list? room typeRecord? value).map .many
  else none

/-- The keys of a member record. -/
def memberKeys : List String :=
  ["type", "name", "idlType", "readonly", "required", "special", "arguments", "default",
   "value", "async", "extAttrs", "comments"]

/-- A member record. -/
def memberRecord? (room : Nat) (value : Json) : Option MemberRecord :=
  match room with
  | 0 => none
  | room + 1 =>
    match fieldsOf memberKeys value with
    | some [kind, name, type, readonly, isRequired, special, arguments, default, value, isAsync,
        attrs, comments] => do
      let kind ← required string? kind
      let name ← optional string? name
      let type ← optional (typeField? room) type
      let readonly ← withDefault false bool? readonly
      let isRequired ← withDefault false bool? isRequired
      let special ← withDefault "" string? special
      let arguments ← argumentRecords? room arguments
      let default ← optional (literalRecord? room) default
      let value ← optional (literalRecord? room) value
      let isAsync ← withDefault false bool? isAsync
      let attrs ← attrRecords? room attrs
      let comments ← withDefault [] (list? room fun _ => string?) comments
      return {
        kind, name, type, readonly, required := isRequired, special, arguments, default, value,
        isAsync, attrs, comments }
    | _ => none

/-! ## Nodes -/

/-- A node record. -/
structure NodeRecord where
  kind : String
  name : Option String := none
  inheritance : Option String := none
  isPartial : Bool := false
  members : List MemberRecord := []
  values : List String := []
  type : Option TypeRecord := none
  arguments : List ArgumentRecord := []
  target : Option String := none
  includes : Option String := none
  attrs : List AttrRecord := []
deriving Repr

/-- A field that a node of this kind has to have. -/
def present {α : Type} (node field : String) : Option α → Except ShapeError α
  | some value => .ok value
  | none => .error (.missingField node field)

/-- The kind of definition a record stands for. -/
def NodeRecord.toKind (record : NodeRecord) : Except ShapeError DefinitionKind :=
  match record.kind with
  | "interface" => .ok .interface
  | "interface mixin" => .ok .mixin
  | "dictionary" => .ok .dictionary
  | "callback interface" => .ok .callbackInterface
  | "enum" => .ok (.enum record.values)
  | "callback" => do
    let type ← present "callback" "idlType" record.type
    let result ← type.toType
    let arguments ← toArguments record.arguments
    return .callback { result, arguments }
  | other => .error (.unknownDefinition other)

/-- The definition a record stands for. A parent that is empty is no parent. -/
def NodeRecord.toDefinition (record : NodeRecord) : Except ShapeError Definition := do
  let kind ← record.toKind
  let name ← present "definition" "name" record.name
  let members ← record.members.mapM MemberRecord.toMember
  return {
    name
    kind
    members
    parent := record.inheritance.filter (· != "")
    isPartial := record.isPartial
    attrs := toExtAttrs record.attrs }

/-- The node a record stands for. -/
def NodeRecord.toNode (record : NodeRecord) : Except ShapeError Node :=
  match record.kind with
  | "includes" => do
    let target ← present "includes" "target" record.target
    let mixin ← present "includes" "includes" record.includes
    return .includes target mixin
  | "typedef" => do
    let name ← present "typedef" "name" record.name
    let type ← present "typedef" "idlType" record.type
    return .typedef name (← type.toType)
  | _ => return .definition (← record.toDefinition)

/-- A value of an enumeration. -/
def enumValue? (room : Nat) (value : Json) : Option String :=
  match room with
  | 0 => none
  | _ + 1 =>
    match fieldsOf ["value"] value with
    | some [text] => required string? text
    | _ => none

/-- The keys of a node record. -/
def nodeKeys : List String :=
  ["type", "name", "inheritance", "partial", "members", "values", "idlType", "arguments",
   "target", "includes", "extAttrs"]

/-- A node record. -/
def nodeRecord? (room : Nat) (value : Json) : Option NodeRecord :=
  match room with
  | 0 => none
  | room + 1 =>
    match fieldsOf nodeKeys value with
    | some [kind, name, inheritance, isPartial, members, values, type, arguments, target, includes,
        attrs] => do
      let kind ← required string? kind
      let name ← optional string? name
      let inheritance ← optional string? inheritance
      let isPartial ← withDefault false bool? isPartial
      let members ← withDefault [] (list? room memberRecord?) members
      let values ← withDefault [] (list? room enumValue?) values
      let type ← optional (typeRecord? room) type
      let arguments ← argumentRecords? room arguments
      let target ← optional string? target
      let includes ← optional string? includes
      let attrs ← attrRecords? room attrs
      return {
        kind, name, inheritance, isPartial, members, values, type, arguments, target, includes,
        attrs }
    | _ => none

end WebIdl.Wire
