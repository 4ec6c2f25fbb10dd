import WebIdl.Definition
import WebIdl.Error
import WebIdl.Walk

/-!
# WebIdl.Catalog.Basic

The definitions of a source file with what they inherit and include, before any
generated name is chosen.

The graph of a catalog has an edge from a definition to its parent and to each mixin
it includes. `reach` walks along all of these edges, `surface` along includes only,
`ancestors` along parents only; none needs the graph to be free of cycles.
-/

namespace WebIdl

/-- A member together with the definition that declares it. -/
structure SurfaceMember where
  owner : Definition
  member : Member
deriving Repr

/-- Definitions, typedefs and includes, each in a fixed order. -/
structure Catalog where
  /-- In the order of their names in lower case, then of their names. -/
  definitions : List Definition
  /-- In the order of their names. -/
  typedefs : List (String × IdlType)
  /-- The mixins every definition includes, in the order of their names. -/
  includes : List (String × List String)
deriving Repr

/-- The members of a definition, each with the definition. -/
def Definition.ownMembers (d : Definition) : List SurfaceMember :=
  d.members.map fun member => { owner := d, member }

namespace Catalog

/-- The definition of a name. -/
def get? (c : Catalog) (name : String) : Option Definition :=
  c.definitions.find? (·.name == name)

/-- The definition of a name that has to exist. -/
def definition (c : Catalog) (name : String) : Except Error Definition :=
  match c.get? name with
  | some d => .ok d
  | none => .error (.unknownDefinition name)

/-- The type a typedef stands for. -/
def typedef? (c : Catalog) (name : String) : Option IdlType :=
  c.typedefs.lookup name

/-- The mixins a definition includes. -/
def included (c : Catalog) (name : String) : List String :=
  (c.includes.lookup name).getD []

/-- The parent of a definition, if it has one. -/
def parents (c : Catalog) (name : String) : List String :=
  match c.get? name with
  | some d => d.parent.toList
  | none => []

/-- The parent of a definition followed by the mixins it includes. -/
def mixins (c : Catalog) (name : String) : List String :=
  c.parents name ++ c.included name

/-- A walk along the edges `next` that never meets what was seen. -/
def walk (c : Catalog) (next : String → List String) (seen stack : List String) : List String :=
  visit (fun name => (c.get? name).isSome) next c.definitions.length seen stack

/-- All that is inherited or included from the stack on. -/
def reach (c : Catalog) (seen stack : List String) : List String :=
  c.walk c.mixins seen stack

/-- The definitions of a list of names. -/
def definitionsOf (c : Catalog) (names : List String) : List Definition :=
  names.filterMap c.get?

/-- The chain of definitions that a definition inherits from, nearest first. -/
def ancestors (c : Catalog) (d : Definition) : List Definition :=
  c.definitionsOf (c.walk c.parents [] d.parent.toList)

/-- The members of a definition followed by those of every mixin it includes,
directly or not, each mixin once. What is inherited does not belong to the surface. -/
def surface (c : Catalog) (d : Definition) : List SurfaceMember :=
  (d :: c.definitionsOf (c.walk c.included [d.name] (c.included d.name))).flatMap
    Definition.ownMembers

end Catalog

end WebIdl
