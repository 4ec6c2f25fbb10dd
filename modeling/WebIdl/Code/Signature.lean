import WebIdl.Text.LineBuffer
import WebIdl.Text.Split

/-!
# WebIdl.Code.Signature

Method signatures. Every type is there twice: as the binding that the signature shows and
as the documentation that a comment shows when the binding says less.
-/

namespace WebIdl.Code

open WebIdl.Text (joinWith split startsWith)

/-- The two renderings of a type. -/
structure TypePair where
  binding : String
  doc : String
deriving Repr, DecidableEq

/-- One rendering that serves as both. -/
def TypePair.same (text : String) : TypePair :=
  ⟨text, text⟩

/-- A signature type that takes null as well. -/
def nullableBinding (binding : String) : String :=
  if binding == "mixed" || binding == "null" || startsWith '?' binding ||
      (split '|' binding).contains "null" then binding
  else if binding.toList.contains '|' then binding ++ "|null"
  else "?" ++ binding

/-- A documentation type that takes null as well. -/
def nullableDoc (doc : String) : String :=
  if (split '|' doc).any fun part => part == "null" || part == "mixed" then doc
  else doc ++ "|null"

/-- A type that takes null as well. -/
def TypePair.orNull (type : TypePair) : TypePair :=
  ⟨nullableBinding type.binding, nullableDoc type.doc⟩

/-- Whether the documentation repeats the binding, reading `?T` as `T|null`. -/
def TypePair.agrees (type : TypePair) : Bool :=
  type.binding == type.doc ||
    match type.binding.toList with
    | '?' :: inner => inner ++ "|null".toList == type.doc.toList
    | _ => false

/-- A method parameter. -/
structure Param where
  /-- The name of the variable without its dollar sign. -/
  name : String
  type : TypePair
  /-- The default value as code. -/
  default : Option String := none
  variadic : Bool := false
deriving Repr, DecidableEq

namespace Param

/-- The name of a variable; `this` cannot be a parameter. -/
def safeName (name : String) : String :=
  if name == "this" then "this_" else name

/-- A parameter that has to be given. -/
def make (name : String) (type : TypePair) : Param :=
  { name := safeName name, type }

/-- A parameter that may be left out. If it is null then, its type takes null. -/
def withDefault (param : Param) (default : String) : Param :=
  { param with
    type := if default == "null" then param.type.orNull else param.type
    default := some default }

/-- The variable as an argument of a call. -/
def variableText (param : Param) : String :=
  (if param.variadic then "..." else "") ++ "$" ++ param.name

/-- The parameter in a signature. -/
def text (param : Param) : String :=
  let default := match param.default with
    | some default => " = " ++ default
    | none => ""
  param.type.binding ++ " " ++ param.variableText ++ default

/-- The parameter in a comment. -/
def docLine (param : Param) : String :=
  "@param " ++ param.type.doc ++ " " ++ param.variableText

end Param

/-- A method signature. A constructor has no result. -/
structure MethodSig where
  name : String
  params : List Param := []
  result : Option TypePair := none
  isStatic : Bool := false
deriving Repr, DecidableEq

namespace MethodSig

/-- Whether a call has a value. -/
def returnsValue (sig : MethodSig) : Bool :=
  match sig.result with
  | some type => type.binding != "void" && type.binding != "never"
  | none => false

/-- The signature as code, after some modifiers. -/
def declaration (sig : MethodSig) (modifiers : String) : String :=
  let isStatic := if sig.isStatic then "static " else ""
  let params := joinWith ", " (sig.params.map Param.text)
  let result := match sig.result with
    | some type => ": " ++ type.binding
    | none => ""
  modifiers ++ " " ++ isStatic ++ "function " ++ sig.name ++ "(" ++ params ++ ")" ++ result

/-- A comment line for every type whose binding says less than its documentation. -/
def docLines (sig : MethodSig) : List String :=
  let params := (sig.params.filter fun param => !param.type.agrees).map Param.docLine
  let result := match sig.result with
    | some type => if type.agrees then [] else ["@return " ++ type.doc]
    | none => []
  params ++ result

/-- The parameters as the arguments of a call. -/
def forwardArgs (sig : MethodSig) : String :=
  joinWith ", " (sig.params.map Param.variableText)

/-- The same signature with a result that may be null. -/
def orNull (sig : MethodSig) : MethodSig :=
  { sig with result := sig.result.map TypePair.orNull }

end MethodSig

/-- A comment of some lines; no lines, no comment. -/
def docBlock (lines : List String) : List String :=
  if lines.isEmpty then []
  else ["/**"] ++ lines.map (" * " ++ ·) ++ [" */"]

end WebIdl.Code
