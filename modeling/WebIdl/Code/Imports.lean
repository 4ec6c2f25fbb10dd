import WebIdl.Code.TypeText
import WebIdl.Ordered
import WebIdl.Text.Ascii

/-!
# WebIdl.Code.Imports

The definitions that a file refers to by their bare names, in the order of their names
without regard to the case of ASCII letters.
-/

namespace WebIdl.Code

/-- Why a definition is mentioned. -/
inductive Access where
  /-- In the place of a type, where an enumeration is a string and needs no import. -/
  | type
  /-- As a class, whatever it is. -/
  | cast
deriving Repr, DecidableEq

/-- The imports of the file of a definition, which never imports itself. -/
structure Imports where
  own : String
  /-- Names in lower case with the names. -/
  names : List (String × String) := []
deriving Repr, DecidableEq

namespace Imports

/-- Import a definition. -/
def noteName (imports : Imports) (name : String) : Imports :=
  if name == imports.own then imports
  else
    { imports with
      names := Ordered.insert Ordered.comparePairs (Text.lowerAscii name, name) imports.names }

/-- Import a definition if the way it is mentioned needs it. -/
def note (imports : Imports) (reference : Reference) (access : Access) : Imports :=
  if reference.isEnum && access == .type then imports else imports.noteName reference.name

/-- The import statements. -/
def lines (imports : Imports) (root : String) : List String :=
  imports.names.map fun (_, name) => "use " ++ root ++ "\\" ++ name ++ ";"

end Imports

end WebIdl.Code
