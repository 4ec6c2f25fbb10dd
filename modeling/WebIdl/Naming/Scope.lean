import WebIdl.Error
import WebIdl.Naming.Identifier
import WebIdl.Naming.NameMap

/-!
# WebIdl.Naming.Scope

The identifiers in use while the names of one definition are chosen. Identifiers are
compared without regard to the case of ASCII letters.

A wanted name that is taken becomes `_1_name`, `_2_name` and so on, except that a name
introduced by an included mixin may not be taken at all: a definition may go around
what it inherits, but not around what it includes.
-/

namespace WebIdl

/-- Who holds an identifier. -/
inductive Occupant where
  | builtin
  | own (category : NameCategory)
  /-- Reached through the parent. -/
  | inherited (category : NameCategory)
  /-- Reached through an included mixin. -/
  | included (category : NameCategory) (mixin : String)
deriving Repr, DecidableEq

/-- The category of the name that holds an identifier. -/
def Occupant.category? : Occupant → Option NameCategory
  | .builtin => none
  | .own category => some category
  | .inherited category => some category
  | .included category _ => some category

/-- The identifiers in use while the names of one definition are chosen. -/
structure Scope where
  definition : String
  /-- Identifiers in lower case, with who holds them. -/
  used : List (String × Occupant)
  /-- Names of structural categories, own or reached through mixins. -/
  structural : List (NameCategory × String) := []
  /-- The names chosen so far. -/
  table : NameTable := {}
deriving Repr

namespace Scope

/-- Only the reserved names are in use. -/
def start (definition : String) : Scope where
  definition
  used := Identifier.reserved.map fun name => (Text.lowerAscii name, .builtin)

/-- Who holds an identifier. -/
def occupant? (scope : Scope) (ident : String) : Option Occupant :=
  scope.used.lookup (Text.lowerAscii ident)

/-- Whether an identifier is in use. -/
def isUsed (scope : Scope) (ident : String) : Bool :=
  (scope.occupant? ident).isSome

/-- The name of a structural category. -/
def structural? (scope : Scope) (category : NameCategory) : Option String :=
  scope.structural.lookup category

/-- Hand an identifier to an occupant. -/
def occupy (scope : Scope) (ident : String) (occupant : Occupant) : Scope :=
  { scope with used := (Text.lowerAscii ident, occupant) :: scope.used }

/-- Remember the name of a structural category, unless there is one. -/
def noteStructural (scope : Scope) (category : NameCategory) (ident : String) : Scope :=
  if category.isStructural && (scope.structural? category).isNone then
    { scope with structural := (category, ident) :: scope.structural }
  else scope

/-- Take over a name that `origin` introduced. Two names of one structural category
stand for the same method; any other meeting of names is a conflict. -/
def fold (scope : Scope) (included : Bool) (origin : String) (reservation : Reservation) :
    Except Error Scope :=
  let category := reservation.category
  match scope.occupant? reservation.ident with
  | none =>
    let occupant := if included then .included category origin else .inherited category
    .ok ((scope.occupy reservation.ident occupant).noteStructural category reservation.ident)
  | some occupant =>
    if occupant.category? == some category && category.isStructural then .ok scope
    else .error (.mixinConflict scope.definition origin reservation.ident)

/-- The spelling of a wanted name that has `attempt` in front of it. -/
def numbered (desired : String) (attempt : Nat) : String :=
  "_" ++ toString attempt ++ "_" ++ desired

/-- The first attempt from `attempt` on that is not in use, trying `tries` of them. -/
def firstFree (scope : Scope) (desired : String) : (tries attempt : Nat) → String
  | 0, attempt => numbered desired attempt
  | tries + 1, attempt =>
    if scope.isUsed (numbered desired attempt) then scope.firstFree desired tries (attempt + 1)
    else numbered desired attempt

/-- The spelling of a wanted name that is free. There are fewer identifiers in use than
attempts, so one attempt succeeds. -/
def free (scope : Scope) (desired : String) : Except Error String :=
  match scope.occupant? desired with
  | none => .ok desired
  | some (.included _ mixin) => .error (.mixinConflict scope.definition mixin desired)
  | some _ => .ok (scope.firstFree desired scope.used.length 1)

/-- Set the identifier of a category and key without introducing it. -/
def adopt (scope : Scope) (category : NameCategory) (key ident : String) : Scope :=
  { scope with table := scope.table.put { category, key, ident } }

/-- Introduce an identifier for a category and key. -/
def introduce (scope : Scope) (category : NameCategory) (key ident : String) : Scope :=
  let scope := (scope.occupy ident (.own category)).noteStructural category ident
  let scope := scope.adopt category key ident
  { scope with
    table := { scope.table with
      introduced := scope.table.introduced ++ [{ category, ident }] } }

/-- Reserve a name for a category and key, unless they have one. -/
def reserve (scope : Scope) (category : NameCategory) (key desired : String) :
    Except Error Scope :=
  if (scope.table.get? category key).isSome then .ok scope
  else do
    let ident ← scope.free desired
    return scope.introduce category key ident

/-- Reserve the name of a structural category, or share the one that is reached through
mixins. A name that a host interface fixes has to be free. -/
def reserveStructural (scope : Scope) (category : NameCategory) : Except Error Scope :=
  match scope.structural? category with
  | some ident => .ok (scope.adopt category "" ident)
  | none =>
    match category.structuralName? with
    | none => .ok scope
    | some desired =>
      match category.protocol? with
      | some protocol =>
        if scope.isUsed desired then
          .error (.protocolConflict scope.definition protocol desired)
        else scope.reserve category "" desired
      | none => scope.reserve category "" desired

end Scope

end WebIdl
