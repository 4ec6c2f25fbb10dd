import WebIdl.Text.Ascii
import WebIdl.Text.Case

/-!
# WebIdl.Naming.Identifier

Spellings that are wanted for generated names, and the names that none may take.
-/

namespace WebIdl.Identifier

/-- The constant name of an enumeration value: ASCII letters in upper case and digits,
an underscore for everything else and before a leading digit. -/
def constantName (value : String) : String :=
  match value.toList with
  | [] => "EMPTY"
  | c :: cs =>
    let lead := if Text.isDigit c then ['_'] else []
    let letter := fun c : Char =>
      if Text.isLetter c || Text.isDigit c then c.toUpper else '_'
    String.ofList (lead ++ (c :: cs).map letter)

/-- The wanted name of an attribute's getter. -/
def getterName (name : String) : String :=
  "get" ++ Text.capitalize name

/-- The wanted name of an attribute's setter. -/
def setterName (name : String) : String :=
  "set" ++ Text.capitalize name

/-- The hook for reading a property that does not exist. -/
def getMissing : String := "getMissingProperty"

/-- The hook for writing a property that does not exist. -/
def setMissing : String := "setMissingProperty"

/-- The hook for a key that is not there. -/
def undefinedKey : String := "undefinedKey"

/-- Names no generated member may take: the host's magic methods, the class-name
constant, and the hooks. -/
def reserved : List String :=
  ["__construct", "__destruct", "__call", "__callStatic", "__get", "__set", "__isset",
   "__unset", "__sleep", "__wakeup", "__serialize", "__unserialize", "__toString",
   "__invoke", "__set_state", "__clone", "__debugInfo", "class", getMissing, setMissing,
   undefinedKey]

end WebIdl.Identifier
