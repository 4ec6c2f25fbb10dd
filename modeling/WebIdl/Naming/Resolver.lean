import WebIdl.Capability
import WebIdl.Naming.Scope

/-!
# WebIdl.Naming.Resolver

Choosing the names of every definition. A definition is resolved once, after all it
inherits or includes:

1. the names introduced by whatever it reaches are folded into its scope, what it
   reaches through its parent first;
2. the structural names that its kind needs are requested;
3. the names of its members are requested, in a fixed order of priority.

An attribute that is declared `inherit` takes over the accessor names that its
ancestors have for it.
-/

namespace WebIdl

/-- A name that a definition asks for. -/
inductive NameRequest where
  | structural (category : NameCategory)
  | own (category : NameCategory) (key desired : String)
  /-- An accessor that an ancestor may have a name for. -/
  | inheriting (category : NameCategory) (key desired : String)
deriving Repr, DecidableEq

namespace NameRequest

/-- The four accessors of keyed access. -/
def offsets : List NameRequest :=
  [.structural .exists, .structural .get, .structural .set, .structural .unset]

/-- The requests that a definition makes for its kind. -/
def ofKind (c : Catalog) (d : Definition) : Except Error (List NameRequest) :=
  match d.kind with
  | .dictionary => .ok (offsets ++ [.structural .cast])
  | .callback _ => .ok [.structural .invoke, .structural .cast]
  | .callbackInterface => .ok [.structural .invoke, .structural .cast]
  | .enum values =>
    .ok (.structural .cast :: values.map fun value =>
      .own .enumValue value (Identifier.constantName value))
  | .interface | .mixin => do
    let caps ← Capabilities.of c d
    return if caps.keyed then offsets else []

/-- The request of an operation without a name. -/
def ofUnnamed (c : Catalog) (member : Member) : Except Error (Option NameRequest) :=
  match member.kind with
  | .operation { name := none, signature, special } => do
    match ← c.specialKind special signature with
    | some kind => return some (.own .special kind.key kind.defaultName)
    | none => return none
  | _ => .ok none

/-- The request of a constant. -/
def ofConstant (member : Member) : Option NameRequest :=
  match member.kind with
  | .constant decl => some (.own .constant decl.name decl.name)
  | _ => none

/-- The requests of an attribute or a field. -/
def ofAccessors (member : Member) : List NameRequest :=
  match member.kind with
  | .attribute decl =>
    let request := if decl.special == .inherit then inheriting else own
    let getter := request .getter decl.name (Identifier.getterName decl.name)
    let setter := request .setter decl.name (Identifier.setterName decl.name)
    if !decl.readonly || member.attrs.has "PutForwards" then [getter, setter] else [getter]
  | .field decl => [.own .getter decl.name (Identifier.getterName decl.name)]
  | _ => []

/-- The request of an operation with a name. -/
def ofNamed (member : Member) : Option NameRequest :=
  match member.kind with
  | .operation { name := some name, .. } => some (.own .operation name name)
  | _ => none

/-- The requests that a definition makes for its members: iteration and count, then
operations without a name, constants, accessors, and operations with a name. -/
def ofMembers (c : Catalog) (d : Definition) : Except Error (List NameRequest) := do
  let caps ← Capabilities.of c d
  let iterator := if caps.iterates then [.structural .iterator] else []
  let count := if caps.counts then [.structural .count] else []
  let unnamed ← d.members.mapM (ofUnnamed c)
  return iterator ++ count ++ unnamed.filterMap id ++ d.members.filterMap ofConstant ++
    d.members.flatMap ofAccessors ++ d.members.filterMap ofNamed

end NameRequest

/-- The first identifier of a category and key on the walk from a definition. -/
def Catalog.findName (c : Catalog) (map : NameMap) (stack : List String)
    (category : NameCategory) (key : String) : Option (String × String) :=
  (c.reach [] stack).findSome? fun name =>
    (map.get? name category key).map fun ident => (name, ident)

/-- Grant a request. -/
def Scope.grant (c : Catalog) (map : NameMap) (d : Definition) (scope : Scope) :
    NameRequest → Except Error Scope
  | .structural category => scope.reserveStructural category
  | .own category key desired => scope.reserve category key desired
  | .inheriting category key desired =>
    match c.findName map d.parent.toList category key with
    | some (_, ident) => .ok (scope.adopt category key ident)
    | none => scope.reserve category key desired

/-- Fold all that one definition introduced. -/
def Scope.foldAll (map : NameMap) (included : Bool) (scope : Scope) (origin : String) :
    Except Error Scope :=
  (map.reservations origin).foldlM (fun scope => scope.fold included origin) scope

/-- Fold all that a definition reaches, what it reaches through its parent first. -/
def Scope.foldMixins (c : Catalog) (map : NameMap) (d : Definition) (scope : Scope) :
    Except Error Scope := do
  let above := c.reach [d.name] d.parent.toList
  let beside := c.reach (d.name :: above) (c.included d.name)
  let scope ← above.foldlM (Scope.foldAll map false) scope
  beside.foldlM (Scope.foldAll map true) scope

/-- The names of a definition, given the names of all it reaches. -/
def NameTable.of (c : Catalog) (map : NameMap) (d : Definition) : Except Error NameTable := do
  let scope ← (Scope.start d.name).foldMixins c map d
  let scope ← (← NameRequest.ofKind c d).foldlM (Scope.grant c map d) scope
  let scope ← (← NameRequest.ofMembers c d).foldlM (Scope.grant c map d) scope
  return scope.table

/-- What has been resolved so far, and how many definitions that took. -/
structure Resolver where
  map : NameMap := {}
  passes : Nat := 0
deriving Repr

namespace Resolver

/-- The names of the definitions of a catalog. -/
def definitionNames (c : Catalog) : List String :=
  c.definitions.map (·.name)

/-- A definition that is found is listed. -/
theorem mem_definitionNames {c : Catalog} {name : String} {d : Definition}
    (h : c.get? name = some d) : name ∈ definitionNames c := by
  have member := List.mem_of_find?_eq_some h
  have same : d.name = name := by simpa using List.find?_some h
  exact List.mem_map.mpr ⟨d, member, same⟩

/-- Resolve a definition and all it reaches, as far as they are not resolved yet.
`path` holds the definitions being resolved, outermost first; coming back to one of
them is a cycle. -/
def resolveFrom (c : Catalog) (path : List String) (resolver : Resolver) (name : String) :
    Except Error Resolver :=
  if (resolver.map.table? name).isSome then .ok resolver
  else if _fresh : path.contains name then
    .error (.mixinCycle (path.dropWhile (· != name) ++ [name]))
  else
    match _known : c.get? name with
    | none => .error (.unknownDefinition name)
    | some d => do
      let resolver ← (c.mixins name).foldlM
        (fun resolver mixin => resolveFrom c (path ++ [name]) resolver mixin) resolver
      let table ← NameTable.of c resolver.map d
      return { map := resolver.map.insert name table, passes := resolver.passes + 1 }
termination_by unseen (definitionNames c) path
decreasing_by
  have fresh : path.contains name = false := by simpa using _fresh
  have same : unseen (definitionNames c) (path ++ [name]) =
      unseen (definitionNames c) (name :: path) := by
    simp [unseen, Bool.or_comm]
  rw [same]
  exact unseen_cons_lt (mem_definitionNames _known) fresh

/-- The identifiers that a definition introduces, which is resolved first if needed. -/
def resolve (c : Catalog) (resolver : Resolver) (name : String) :
    Except Error (List String × Resolver) := do
  let resolver ← resolveFrom c [] resolver name
  return ((resolver.map.introduced? name).getD [], resolver)

/-- Resolve all definitions of a catalog. -/
def resolveAll (c : Catalog) : Except Error Resolver :=
  c.definitions.foldlM (fun resolver d => resolveFrom c [] resolver d.name) {}

end Resolver

end WebIdl
