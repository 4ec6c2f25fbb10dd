import WebIdl.Catalog.Typedef

/-!
# WebIdl.Catalog.TypeTree

Types with every typedef replaced and every name looked up. A leaf of the tree is a
built-in type, a definition, a name that is neither, or a fault on the way to one.

A typedef that occurs inside its own body, behind a union or a generic, has no finite
tree; it is entered as often as there are typedefs, and then becomes a fault.
-/

namespace WebIdl

/-- The attribute that lets null stand for an empty string wherever one is written. -/
def legacyNull : String := "LegacyNullToEmptyString"

/-- How a type takes null: always, or only where it is written to. -/
structure NullMarks where
  nullable : Bool := false
  nullOnInput : Bool := false
deriving Repr, DecidableEq

/-- The marks of a type with a nullability and attributes. -/
def NullMarks.of (nullable : Bool) (attrs : ExtAttrs) : NullMarks where
  nullable
  nullOnInput := attrs.has legacyNull

/-- A type with every typedef replaced and every name looked up. -/
inductive TypeTree where
  | primitive (primitive : Primitive) (marks : NullMarks)
  | definition (definition : Definition) (marks : NullMarks)
  | unknown (name : String)
  | fault (error : Error)
  | union (members : List TypeTree) (marks : NullMarks)
  | generic (head : Generic) (args : List TypeTree) (marks : NullMarks)
deriving Repr

mutual

/-- The tree of a type, given the trees of names with a nullability and attributes. -/
def IdlType.toTree (ofName : String → Bool → ExtAttrs → TypeTree) : IdlType → TypeTree
  | .named name nullable attrs => ofName name nullable attrs
  | .union members nullable attrs => .union (toTrees ofName members) (.of nullable attrs)
  | .generic head args nullable attrs =>
    .generic head (toTrees ofName args) (.of nullable attrs)

/-- The trees of some types. -/
def toTrees (ofName : String → Bool → ExtAttrs → TypeTree) : List IdlType → List TypeTree
  | [] => []
  | type :: types => type.toTree ofName :: toTrees ofName types

end

namespace Catalog

/-- The leaf of a name that is no typedef. -/
def leaf (c : Catalog) (name : String) (marks : NullMarks) : TypeTree :=
  match Primitive.ofName? name with
  | some primitive => .primitive primitive marks
  | none =>
    match c.get? name with
    | some d => .definition d marks
    | none => .unknown name

/-- The tree of a name, where typedefs are entered inside of one another at most `depth`
times. -/
def nameTree (c : Catalog) : (depth : Nat) → String → Bool → ExtAttrs → TypeTree
  | depth, name, nullable, attrs =>
    match c.typedef? name with
    | none => c.leaf name (.of nullable attrs)
    | some target =>
      match depth with
      | 0 => .fault (.unsupportedType (.typedefInsideItself name))
      | depth + 1 =>
        match c.follow [name] (.named name nullable attrs) target with
        | .error error => .fault error
        | .ok resolved => resolved.toTree (c.nameTree depth)

/-- The tree of a type. Typedefs that do not contain themselves are never nested deeper
than there are typedefs. -/
def tree (c : Catalog) (type : IdlType) : TypeTree :=
  type.toTree (c.nameTree c.typedefs.length)

end Catalog

end WebIdl
