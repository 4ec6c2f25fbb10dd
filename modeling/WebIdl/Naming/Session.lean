import WebIdl.Naming.Resolver

/-!
# WebIdl.Naming.Session

Requests for the names of definitions, made one after another. What is resolved for one
request serves all later ones. A request that fails leaves behind what it had resolved
until then and the definitions that it was still resolving.
-/

namespace WebIdl

namespace Resolver

/-- Where resolving stopped. -/
structure Stop where
  error : Error
  /-- What was resolved by then. -/
  resolver : Resolver
  /-- The definitions being resolved then, outermost first. -/
  inProgress : List String
deriving Repr

/-- Resolve a definition as `resolveFrom` does, and tell where that stopped. A definition
counts as a pass before its names are chosen, whether that succeeds or not. -/
def resolveOrStop (c : Catalog) (path : List String) (resolver : Resolver) (name : String) :
    Except Stop Resolver :=
  if (resolver.map.table? name).isSome then .ok resolver
  else if _fresh : path.contains name then
    .error ⟨.mixinCycle (path.dropWhile (· != name) ++ [name]), resolver, path⟩
  else
    match _known : c.get? name with
    | none => .error ⟨.unknownDefinition name, resolver, path⟩
    | some d => do
      let resolver ← (c.mixins name).foldlM
        (fun resolver mixin => resolveOrStop c (path ++ [name]) resolver mixin) resolver
      let passes := resolver.passes + 1
      match NameTable.of c resolver.map d with
      | .error e => .error ⟨e, { resolver with passes }, path⟩
      | .ok table => return { map := resolver.map.insert name table, passes }
termination_by unseen (definitionNames c) path
decreasing_by
  have fresh : path.contains name = false := by simpa using _fresh
  have same : unseen (definitionNames c) (path ++ [name]) =
      unseen (definitionNames c) (name :: path) := by
    simp [unseen, Bool.or_comm]
  rw [same]
  exact unseen_cons_lt (mem_definitionNames _known) fresh

end Resolver

/-- A resolver between two requests. -/
structure Session extends Resolver where
  /-- The definitions being resolved, outermost first. There are some only after a request
  that failed on the way. -/
  inProgress : List String := []
deriving Repr

namespace Session

/-- The identifiers that a definition introduces, which is resolved first if needed, and
the session after that. -/
def resolve (c : Catalog) (session : Session) (name : String) :
    Except Error (List String) × Session :=
  match session.resolveOrStop c session.inProgress name with
  | .ok resolver =>
    (.ok ((resolver.map.introduced? name).getD []),
      { resolver with inProgress := session.inProgress })
  | .error stop => (.error stop.error, { stop.resolver with inProgress := stop.inProgress })

/-- A new session after some requests. -/
def after (c : Catalog) (names : List String) : Session :=
  names.foldl (fun session name => (session.resolve c name).2) {}

end Session

end WebIdl
