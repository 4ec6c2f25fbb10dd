import WebIdl.Catalog.Basic
import WebIdl.Ordered
import WebIdl.Text.Case

/-!
# WebIdl.Catalog.Ingest

From nodes to a catalog: partial definitions are merged into the one of their name,
references are checked, and everything is put in order.

Nodes are taken in the order of the source, so the first node that is at fault is the
one reported; references are checked afterwards, includes first and parents second.
-/

namespace WebIdl

/-- What may be left out of a catalog. -/
structure IngestOptions where
  /-- Leave out the members that a comment marks as legacy. -/
  dropLegacy : Bool := false
deriving Repr, DecidableEq

/-- A catalog under construction, everything in the order of the source. -/
structure Intake where
  definitions : List Definition := []
  typedefs : List (String × IdlType) := []
  edges : List (String × String) := []
deriving Repr

namespace Intake

/-- Whether there is a definition of a name. -/
def defines (intake : Intake) (name : String) : Bool :=
  intake.definitions.any (·.name == name)

/-- Add members at the end of the definition of a name. -/
def extend (intake : Intake) (name : String) (members : List Member) : Intake :=
  { intake with
    definitions := intake.definitions.map fun d =>
      if d.name == name then { d with members := d.members ++ members } else d }

/-- A definition without the members that the options leave out. -/
def select (options : IngestOptions) (d : Definition) : Definition :=
  if options.dropLegacy then { d with members := d.members.filter fun m => !m.isLegacy } else d

/-- Take in a definition, which merges into an earlier one if it is partial. -/
def addDefinition (intake : Intake) (d : Definition) : Except Error Intake :=
  if d.isPartial then
    if intake.defines d.name then .ok (intake.extend d.name d.members)
    else .error (.partialWithoutMain d.name)
  else if intake.defines d.name then .error (.duplicateDefinition d.name)
  else .ok { intake with definitions := intake.definitions ++ [d] }

/-- Take in one node. -/
def addNode (options : IngestOptions) (intake : Intake) : Node → Except Error Intake
  | .includes target mixin => .ok { intake with edges := intake.edges ++ [(target, mixin)] }
  | .typedef name type =>
    if (intake.typedefs.lookup name).isSome then .error (.duplicateTypedef name)
    else .ok { intake with typedefs := intake.typedefs ++ [(name, type)] }
  | .definition d => intake.addDefinition (select options d)

/-- Take in all nodes. -/
def ofNodes (options : IngestOptions) (nodes : List Node) : Except Error Intake :=
  nodes.foldlM (addNode options) {}

/-- Both ends of an edge have to be defined. -/
def checkEdge (intake : Intake) (edge : String × String) : Except Error Unit :=
  if !intake.defines edge.1 then .error (.unknownIncludesTarget edge.1 edge.2)
  else if !intake.defines edge.2 then .error (.unknownMixin edge.1 edge.2)
  else .ok ()

/-- The parent of a definition has to be defined. -/
def checkParent (intake : Intake) (d : Definition) : Except Error Unit :=
  match d.parent with
  | some parent =>
    if intake.defines parent then .ok () else .error (.unknownMixin d.name parent)
  | none => .ok ()

/-- The mixins that a definition includes, in order, each once. -/
def includedBy (intake : Intake) (name : String) : List String :=
  Ordered.ofList compare
    (intake.edges.filterMap fun edge => if edge.1 == name then some edge.2 else none)

/-- The definitions by their names in lower case, then by their names. -/
def sorted (intake : Intake) : List Definition :=
  (Ordered.ofList (fun a b => Ordered.comparePairs a.1 b.1)
    (intake.definitions.map fun d => ((Text.lowercase d.name, d.name), d))).map (·.2)

/-- The finished catalog. -/
def finish (intake : Intake) : Catalog where
  definitions := intake.sorted
  typedefs := Ordered.ofList (fun a b => compare a.1 b.1) intake.typedefs
  includes := intake.sorted.map fun d => (d.name, intake.includedBy d.name)

end Intake

/-- The catalog of a list of nodes. -/
def Catalog.ofNodes (options : IngestOptions) (nodes : List Node) : Except Error Catalog := do
  let intake ← Intake.ofNodes options nodes
  intake.edges.forM intake.checkEdge
  intake.definitions.forM intake.checkParent
  return intake.finish

end WebIdl
