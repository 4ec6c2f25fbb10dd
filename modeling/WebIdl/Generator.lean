import WebIdl.Artifact.Scaffold
import WebIdl.Config
import WebIdl.Wire.Tree

/-!
# WebIdl.Generator

From nodes and a configuration to files.
-/

namespace WebIdl

open WebIdl.Code
open WebIdl.Artifact

/-- The class that a definition has of a kind, if it has one. -/
def Artifact.Target.decl (t : Target) : ArtifactKind → Draft (Option ClassDecl)
  | .contract => do return some (← t.contract)
  | .defaults => t.defaults
  | .scaffold => t.scaffold

/-- The file that a definition has of a kind, if it has one. -/
def Registry.file? (r : Registry) (root name : String) (kind : ArtifactKind) :
    Except Error (Option File) := do
  let definition ← r.definition name
  let target : Target := { registry := r, root, definition }
  let (decl, imports) := (target.decl kind).run.run { own := definition.name }
  return (← decl).map fun decl => { kind, root, imports, decl }

/-- A registry and a configuration that is valid. -/
structure Generator where
  registry : Registry
  config : Config
deriving Repr

/-- All files by their paths, and how many files were not needed. -/
structure GeneratedSet where
  files : List (String × String) := []
  skipped : Nat := 0
deriving Repr, DecidableEq

namespace GeneratedSet

/-- Put a file at a path, in the place of the one that is there. -/
def insert (set : GeneratedSet) (path text : String) : GeneratedSet :=
  let others := set.files.filter fun file => file.1 != path
  { set with files := Ordered.insert (fun a b => compare a.1 b.1) (path, text) others }

/-- The text of a definition's file of a kind. -/
def get? (set : GeneratedSet) (kind : ArtifactKind) (name : String) : Option String :=
  set.files.lookup (kind.path name)

/-- How many files there are. -/
def size (set : GeneratedSet) : Nat :=
  set.files.length

end GeneratedSet

namespace Generator

/-- The generator of some nodes. -/
def ofNodes (config : Config) (nodes : List Node) : Except Error Generator := do
  config.validate
  let registry ← Registry.build config.ingestOptions nodes
  return { registry, config }

/-- The text of a definition's file of a kind; none if it needs no such file. -/
def generate (g : Generator) (name : String) (kind : ArtifactKind) :
    Except Error (Option String) := do
  return (← g.registry.file? g.config.root name kind).map File.text

/-- Every definition with every kind, in order. -/
def pairs (g : Generator) : List (String × ArtifactKind) :=
  g.registry.definitions.flatMap fun d => ArtifactKind.all.map fun kind => (d.name, kind)

/-- Add the file of a definition and a kind. -/
def addPair (g : Generator) (set : GeneratedSet) (pair : String × ArtifactKind) :
    Except Error GeneratedSet := do
  match ← g.generate pair.1 pair.2 with
  | some text => return set.insert (pair.2.path pair.1) text
  | none => return { set with skipped := set.skipped + 1 }

/-- All files of all definitions. -/
def generateAll (g : Generator) : Except Error GeneratedSet :=
  g.pairs.foldlM g.addPair {}

end Generator

end WebIdl
