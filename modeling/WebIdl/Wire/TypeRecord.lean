import WebIdl.Error
import WebIdl.Wire.Record

/-!
# WebIdl.Wire.TypeRecord

Types and extended attributes as the JSON tree spells them, and the types they
stand for. A type record has either a name or a list of nested records as its
payload; what the payload means hangs on two more fields, and most combinations of
the three mean nothing.
-/

namespace WebIdl.Wire

/-- Right-hand side of an extended attribute. -/
inductive RhsValue where
  | one (text : String)
  | list (items : List String)
deriving Repr, DecidableEq

/-- An extended attribute: its name, and the kind and value of its right-hand side. -/
structure AttrRecord where
  name : String
  rhs : Option (String × RhsValue)
deriving Repr, DecidableEq

/-- The text without the double quotes at both its ends. -/
def trimQuotes (s : String) : String :=
  let isQuote := fun c : Char => c == '"'
  String.ofList (((s.toList.dropWhile isQuote).reverse.dropWhile isQuote).reverse)

/-- The extended attribute a record stands for. -/
def AttrRecord.toExtAttr (record : AttrRecord) : ExtAttr where
  name := record.name
  value := record.rhs.map fun
    | ("string", .one text) => .string (trimQuotes text)
    | (_, .one text) => .identifier text
    | (_, .list items) => .list items

/-- The extended attributes a list of records stands for. -/
def toExtAttrs (records : List AttrRecord) : ExtAttrs :=
  ⟨records.map AttrRecord.toExtAttr⟩

/-- What a type record says beside its payload. -/
structure TypeHead where
  generic : String := ""
  nullable : Bool := false
  union : Bool := false
  attrs : List AttrRecord := []
deriving Repr, DecidableEq

/-- A type record. -/
inductive TypeRecord where
  | ofName (head : TypeHead) (name : String)
  | ofNested (head : TypeHead) (types : List TypeRecord)
deriving Repr

/-! ## The type a record stands for -/

mutual

/-- The type a record stands for. A list of one record, with nothing said about it,
only adds nullability and attributes to what it holds. -/
def TypeRecord.toType : TypeRecord → Except ShapeError IdlType
  | .ofName head name =>
    if head.union || head.generic != "" then
      .error (.type (.namePayload head.union head.generic name))
    else if name == "" then .error (.type .emptyName)
    else .ok (.named name head.nullable (toExtAttrs head.attrs))
  | .ofNested head types =>
    if head.generic == "" then
      if head.union then
        if types.length < 2 then .error (.type (.shortUnion types.length))
        else do
          let members ← toTypes types
          return .union members head.nullable (toExtAttrs head.attrs)
      else if types.length == 1 then do
        let inner ← toTypes types
        match inner with
        | [type] => return type.wrap head.nullable (toExtAttrs head.attrs)
        | _ => throw (.type (.nestedPayload head.union head.generic types.length))
      else .error (.type (.nestedPayload head.union head.generic types.length))
    else if head.union then
      .error (.type (.nestedPayload head.union head.generic types.length))
    else
      match Generic.ofKeyword? head.generic with
      | none => .error (.unknownGeneric head.generic)
      | some generic =>
        if types.length != generic.arity then
          .error (.type (.wrongArity generic types.length))
        else do
          let args ← toTypes types
          return .generic generic args head.nullable (toExtAttrs head.attrs)

/-- The types a list of records stands for; the first failure counts. -/
def toTypes : List TypeRecord → Except ShapeError (List IdlType)
  | [] => .ok []
  | record :: records => do
    let type ← record.toType
    let types ← toTypes records
    return type :: types

end

/-! ## Reading records -/

/-- An item of a list on a right-hand side. -/
def rhsItem? (room : Nat) (value : Json) : Option String :=
  match room with
  | 0 => none
  | _ + 1 =>
    match fieldsOf ["value"] value with
    | some [text] => required string? text
    | _ => none

/-- The value of a right-hand side. -/
def rhsValue? (room : Nat) (value : Json) : Option RhsValue :=
  if storable room value then
    match value with
    | .string text => some (.one text)
    | _ => (list? room rhsItem? value).map .list
  else none

/-- A right-hand side. -/
def rhs? (room : Nat) (value : Json) : Option (String × RhsValue) :=
  match room with
  | 0 => none
  | room + 1 =>
    match fieldsOf ["type", "value"] value with
    | some [kind, value] => do
      let kind ← required string? kind
      let value ← required (rhsValue? room) value
      return (kind, value)
    | _ => none

/-- An extended attribute. -/
def attrRecord? (room : Nat) (value : Json) : Option AttrRecord :=
  match room with
  | 0 => none
  | room + 1 =>
    match fieldsOf ["name", "rhs"] value with
    | some [name, rhs] => do
      let name ← required string? name
      let rhs ← optional (rhs? room) rhs
      return { name, rhs }
    | _ => none

/-- The extended attributes of a node; none if the field is absent. -/
def attrRecords? (room : Nat) (field : Option Json) : Option (List AttrRecord) :=
  withDefault [] (list? room attrRecord?) field

/-- The keys of a type record. -/
def typeKeys : List String :=
  ["generic", "nullable", "union", "idlType", "extAttrs"]

/-- A type record. -/
def typeRecord? : Nat → Json → Option TypeRecord
  | 0, _ => none
  | room + 1, value =>
    match fieldsOf typeKeys value with
    | some [generic, nullable, union, some payload, attrs] => do
      let generic ← withDefault "" string? generic
      let nullable ← withDefault false bool? nullable
      let union ← withDefault false bool? union
      let attrs ← attrRecords? room attrs
      let head : TypeHead := { generic, nullable, union, attrs }
      guard (storable room payload)
      match payload, room with
      | .string name, _ => return .ofName head name
      | .array items, room + 1 => return .ofNested head (← items.mapM (typeRecord? room))
      | _, _ => none
    | _ => none

end WebIdl.Wire
