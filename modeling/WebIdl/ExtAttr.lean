/-!
# WebIdl.ExtAttr

Extended attributes: `[Reflect]`, `[PutForwards=href]`, `[Exposed=(Window,Worker)]`.
-/

namespace WebIdl

/-- Right-hand side of an extended attribute. -/
inductive ExtAttrValue where
  /-- `[PutForwards=href]` -/
  | identifier (name : String)
  /-- `[ReflectMissing="auto"]`, held without its quotes. -/
  | string (text : String)
  /-- `[Exposed=(Window,Worker)]` -/
  | list (names : List String)
deriving Repr, DecidableEq

/-- One extended attribute. -/
structure ExtAttr where
  name : String
  value : Option ExtAttrValue := none
deriving Repr, DecidableEq

/-- The right-hand side where it is one word: an identifier or a string. -/
def ExtAttr.word? (attr : ExtAttr) : Option String :=
  match attr.value with
  | some (.identifier name) => some name
  | some (.string text) => some text
  | some (.list _) => none
  | none => none

/-- The extended attributes of a node, in the order they are written. -/
structure ExtAttrs where
  list : List ExtAttr := []
deriving Repr, DecidableEq

namespace ExtAttrs

/-- The first attribute of a name. -/
def get? (attrs : ExtAttrs) (name : String) : Option ExtAttr :=
  attrs.list.find? (·.name == name)

/-- Whether an attribute of a name is present. -/
def has (attrs : ExtAttrs) (name : String) : Bool :=
  (attrs.get? name).isSome

/-- The one-word right-hand side of an attribute. -/
def word? (attrs : ExtAttrs) (name : String) : Option String :=
  (attrs.get? name).bind ExtAttr.word?

/-- Add an attribute at the end, unless its name is present. -/
def add (attrs : ExtAttrs) (attr : ExtAttr) : ExtAttrs :=
  if attrs.has attr.name then attrs else ⟨attrs.list ++ [attr]⟩

/-- Add those attributes of `other` whose names are not present. -/
def merge (attrs other : ExtAttrs) : ExtAttrs :=
  other.list.foldl add attrs

/-- Whether there are no attributes. -/
def isEmpty (attrs : ExtAttrs) : Bool :=
  attrs.list.isEmpty

end ExtAttrs

end WebIdl
