import WebIdl.Code.Imports
import WebIdl.Code.Method

/-!
# WebIdl.Code.File

The files that are generated: which kinds there are, where they belong, and how a class
is laid out in one.
-/

namespace WebIdl.Code

open WebIdl.Text (LineBuffer)

/-- The kinds of files that a definition can have. -/
inductive ArtifactKind where
  /-- An interface with signatures only, or the class of an enumeration. -/
  | contract
  /-- A trait with the behaviour that follows from the declarations. -/
  | defaults
  /-- A class with methods that are to be implemented. -/
  | scaffold
deriving Repr, DecidableEq

namespace ArtifactKind

/-- All kinds. -/
def all : List ArtifactKind :=
  [.contract, .defaults, .scaffold]

/-- The directory of the files of a kind. -/
def directory : ArtifactKind → String
  | .contract => "Contract"
  | .defaults => "Defaults"
  | .scaffold => "Scaffold"

/-- The kind of a directory. -/
def ofDirectory? (name : String) : Option ArtifactKind :=
  all.find? (·.directory == name)

/-- The namespace of the files of a kind. -/
def space (kind : ArtifactKind) (root : String) : String :=
  match kind with
  | .contract => root
  | .defaults => root ++ "\\Defaults"
  | .scaffold => root ++ "\\Scaffold"

/-- The fully qualified name of what a definition has of a kind. -/
def qualify (kind : ArtifactKind) (root name : String) : String :=
  "\\" ++ kind.space root ++ "\\" ++ name

/-- The path of a definition's file of a kind. -/
def path (kind : ArtifactKind) (name : String) : String :=
  kind.directory ++ "/" ++ name ++ ".php"

end ArtifactKind

/-- What stands in the body of a class. -/
inductive Item where
  /-- Constants with the code of their values. -/
  | constants (list : List (String × String))
  | usedTrait (name : String)
  /-- A constructor that nobody can call. -/
  | sealedConstructor
  | method (decl : Method)
deriving Repr

/-- Write what stands in the body of a class, and a blank line after it. -/
def Item.write (buf : LineBuffer) : Item → LineBuffer
  | .constants list =>
    (buf.writeLines (list.map fun (name, value) =>
      "public const " ++ name ++ " = " ++ value ++ ";")).blank
  | .usedTrait name => (buf.line ("use " ++ name ++ ";")).blank
  | .sealedConstructor => (buf.block "private function __construct()" id).blank
  | .method decl => decl.write buf

/-- A class, an interface or a trait. -/
structure ClassDecl where
  head : String
  items : List Item
deriving Repr

/-- Write a class. -/
def ClassDecl.write (buf : LineBuffer) (decl : ClassDecl) : LineBuffer :=
  let buf := ((buf.line decl.head).line "\x7b").indent
  (decl.items.foldl Item.write buf).dedent.line "\x7d"

/-- The methods that a class declares or defines, in order. -/
def ClassDecl.methods (decl : ClassDecl) : List Method :=
  decl.items.filterMap fun
    | .method decl => some decl
    | _ => none

/-- The start of a file: its namespace, and a place for its imports. -/
def preamble (kind : ArtifactKind) (root : String) : LineBuffer :=
  let buf := (({} : LineBuffer).line "<?php").blank
  let buf := (buf.line "declare(strict_types=1);").blank
  let buf := (buf.line ("namespace " ++ kind.space root ++ ";")).blank
  buf.mark

/-- The text of a file once its imports are known. -/
def finishFile (buf : LineBuffer) (root : String) (imports : Imports) : String :=
  (buf.fill 0 (imports.lines root)).render

/-- A generated file. -/
structure File where
  kind : ArtifactKind
  root : String
  imports : Imports
  decl : ClassDecl
deriving Repr

/-- The text of a file. -/
def File.text (file : File) : String :=
  finishFile (file.decl.write (preamble file.kind file.root)) file.root file.imports

end WebIdl.Code
