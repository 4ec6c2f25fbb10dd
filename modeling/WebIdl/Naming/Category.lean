/-!
# WebIdl.Naming.Category

What a generated name stands for.
-/

namespace WebIdl

/-- What a generated name stands for. The first eight occur at most once in a
definition; an enumeration value, a special operation and a member have a key. -/
inductive NameCategory where
  | exists
  | get
  | set
  | unset
  | invoke
  | cast
  | iterator
  | count
  | enumValue
  | special
  | constant
  | getter
  | setter
  | operation
deriving Repr, DecidableEq

namespace NameCategory

/-- All categories in order. -/
def all : List NameCategory :=
  [.exists, .get, .set, .unset, .invoke, .cast, .iterator, .count, .enumValue, .special,
   .constant, .getter, .setter, .operation]

/-- The place of a category in the order. -/
def rank : NameCategory → Nat
  | .exists => 0
  | .get => 1
  | .set => 2
  | .unset => 3
  | .invoke => 4
  | .cast => 5
  | .iterator => 6
  | .count => 7
  | .enumValue => 8
  | .special => 9
  | .constant => 10
  | .getter => 11
  | .setter => 12
  | .operation => 13

/-- The method that a structural category stands for; no other category has one. -/
def structuralName? : NameCategory → Option String
  | .exists => some "offsetExists"
  | .get => some "offsetGet"
  | .set => some "offsetSet"
  | .unset => some "offsetUnset"
  | .invoke => some "invoke"
  | .cast => some "cast"
  | .iterator => some "getIterator"
  | .count => some "count"
  | .enumValue => none
  | .special => none
  | .constant => none
  | .getter => none
  | .setter => none
  | .operation => none

/-- Whether the category stands for a protocol method and not for a member. -/
def isStructural (category : NameCategory) : Bool :=
  category.structuralName?.isSome

/-- The host interface that fixes the name of the method, which then cannot change. -/
def protocol? : NameCategory → Option String
  | .exists => some "\\ArrayAccess"
  | .get => some "\\ArrayAccess"
  | .set => some "\\ArrayAccess"
  | .unset => some "\\ArrayAccess"
  | .iterator => some "\\IteratorAggregate"
  | .count => some "\\Countable"
  | .invoke => none
  | .cast => none
  | .enumValue => none
  | .special => none
  | .constant => none
  | .getter => none
  | .setter => none
  | .operation => none

/-- The category in words. -/
def text : NameCategory → String
  | .exists => "exists"
  | .get => "get"
  | .set => "set"
  | .unset => "unset"
  | .invoke => "invoke"
  | .cast => "cast"
  | .iterator => "iterator"
  | .count => "count"
  | .enumValue => "enum value"
  | .special => "special operation"
  | .constant => "constant"
  | .getter => "getter"
  | .setter => "setter"
  | .operation => "operation"

/-- The category that a text names. -/
def ofText? (s : String) : Option NameCategory :=
  all.find? (·.text == s)

end NameCategory

end WebIdl
