import WebIdl.Catalog.Ingest
import WebIdl.Naming.Resolver

/-!
# WebIdl.Registry

A catalog together with the names chosen for it.
-/

namespace WebIdl

/-- A catalog together with the names of all its definitions. -/
structure Registry extends Catalog where
  names : NameMap
deriving Repr

namespace Registry

/-- The registry of a list of nodes. -/
def build (options : IngestOptions) (nodes : List Node) : Except Error Registry := do
  let catalog ← Catalog.ofNodes options nodes
  let resolver ← Resolver.resolveAll catalog
  return { catalog with names := resolver.map }

/-- The identifier of a category and key in a definition. -/
def name? (r : Registry) (definition : String) (category : NameCategory) (key : String) :
    Option String :=
  r.names.get? definition category key

/-- The identifier of a category and key that has to exist. -/
def nameOf (r : Registry) (definition : String) (category : NameCategory) (key : String) :
    Except Error String :=
  match r.name? definition category key with
  | some ident => .ok ident
  | none => .error (.missingName definition category.text key)

/-- The first identifier of a category and key on a definition, or on what it inherits
or includes, with the definition that has it. -/
def findName (r : Registry) (definition : String) (category : NameCategory) (key : String) :
    Option (String × String) :=
  r.toCatalog.findName r.names [definition] category key

/-- The method that implements a role. -/
def specialMethod (r : Registry) (kind : SpecialKind) : SpecialSource → Except Error String
  | .unnamed owner => r.nameOf owner .special kind.key
  | .operation owner name => r.nameOf owner .operation name
  | .attribute owner name => r.nameOf owner .getter name

/-- The method that implements a role, if something plays it. -/
def method? (r : Registry) (caps : Capabilities) (kind : SpecialKind) :
    Except Error (Option String) :=
  match caps.special? kind with
  | none => .ok none
  | some source => do return some (← r.specialMethod kind source)

/-- The getter of the integer attribute `length`, if there is one. -/
def countGetter? (r : Registry) (caps : Capabilities) : Except Error (Option String) :=
  match caps.count with
  | none => .ok none
  | some (owner, name) => do return some (← r.nameOf owner .getter name)

end Registry

end WebIdl
