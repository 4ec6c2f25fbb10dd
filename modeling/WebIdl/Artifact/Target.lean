import WebIdl.Code.File
import WebIdl.Code.LiteralText
import WebIdl.Code.Overload
import WebIdl.Registry

/-!
# WebIdl.Artifact.Target

What a file is generated for, and how its signatures are made. Whoever mentions a type
has its definitions imported, so the imports are threaded through everything that makes
a signature.
-/

namespace WebIdl.Artifact

open WebIdl.Code

/-- What a file is generated for. -/
structure Target where
  registry : Registry
  /-- The root namespace. -/
  root : String
  definition : Definition
deriving Repr

/-- Code in the making: it collects imports, and it may fail. What was imported before a
failure stays imported. -/
abbrev Draft := ExceptT Error (StateM Imports)

namespace Target

/-- The name of the definition. -/
def name (t : Target) : String :=
  t.definition.name

/-- The fully qualified name of what a definition has of a kind. -/
def qualified (t : Target) (kind : ArtifactKind) (name : String) : String :=
  kind.qualify t.root name

/-- The identifier of a category of the definition itself. -/
def structuralName (t : Target) (category : NameCategory) : Except Error String :=
  t.registry.nameOf t.name category ""

/-- Both renderings of a type, whose definitions are imported. -/
def type (t : Target) (type : IdlType) (position : Position) : Draft TypePair := do
  let ctx : TypeContext := { root := t.root, definition := t.name, position }
  let binding ← binding t.registry.toCatalog ctx type
  let doc ← documentation t.registry.toCatalog ctx type
  let found ← references t.registry.toCatalog type
  modify fun imports => found.foldl (fun imports reference => imports.note reference .type) imports
  return { binding, doc }

/-- The name of a definition as a class, which is imported. -/
def classRef (t : Target) (name : String) : Draft String :=
  if name == t.name then return t.qualified .contract name
  else do
    modify fun imports => imports.noteName name
    return name

/-- The parameter of an argument. -/
def param (t : Target) (argument : Argument) : Draft Param := do
  let param := Param.make argument.name (← t.type argument.type .argument)
  if argument.variadic then return { param with variadic := true }
  else if argument.optional then
    match argument.default with
    | some literal => return param.withDefault (← literalText literal)
    | none => return param.withDefault "null"
  else return param

/-- The parameters of some arguments. -/
def params (t : Target) (arguments : List Argument) : Draft (List Param) :=
  arguments.mapM t.param

/-- The method of one overload. -/
def overload (t : Target) (name : String) (isStatic : Bool) (signature : Signature) :
    Draft MethodSig := do
  let result ← t.type signature.result .result
  let params ← t.params signature.arguments
  return { name, params, result := some result, isStatic }

/-- One method for all overloads of an operation. -/
def operation (t : Target) (name : String) (overloads : List Signature) (isStatic : Bool) :
    Draft MethodSig := do
  return mergeOverloads name (← overloads.mapM (t.overload name isStatic))

/-- One constructor for all overloads. -/
def constructor (t : Target) (overloads : List (List Argument)) : Draft MethodSig := do
  let sigs ← overloads.mapM fun arguments => do
    return ({ name := "__construct", params := ← t.params arguments } : MethodSig)
  return mergeOverloads "__construct" sigs

/-- The getter of an attribute or a field. -/
def getter (t : Target) (name : String) (type : IdlType) (isStatic : Bool) :
    Draft MethodSig := do
  return { name, result := some (← t.type type .result), isStatic }

/-- The setter of an attribute. -/
def setter (t : Target) (name : String) (type : IdlType) (isStatic : Bool) :
    Draft MethodSig := do
  let value := Param.make "value" (← t.type type .setter)
  return { name, params := [value], result := some (.same "void"), isStatic }

/-- The method that gives an iterator, documented with what it iterates over. -/
def iterator (t : Target) (name : String) (key : Option IdlType) (value : IdlType) :
    Draft MethodSig := do
  let key ← match key with
    | some key => do pure (← t.type key .result).doc
    | none => pure "int"
  let value := (← t.type value .result).doc
  let doc := "\\Iterator<" ++ key ++ ", " ++ value ++ ">"
  return { name, result := some { binding := "\\Iterator", doc } }

/-- A method that is declared only. -/
def declared (sig : MethodSig) : Item :=
  .method { sig, body := .declared }

/-- A method with a body. -/
def defined (sig : MethodSig) (body : List Stmt) : Item :=
  .method { sig, body := .code body }

/-- A method that is to be implemented. -/
def stub (t : Target) (sig : MethodSig) : Item :=
  defined sig [notImplemented t.name sig.name]

end Target

/-- A parameter whose two renderings are the same. -/
def plainParam (name type : String) : Param :=
  Param.make name (.same type)

/-- A parameter for a key of keyed access. -/
def offsetParam : Param :=
  plainParam "offset" "mixed"

/-- A parameter for a value of any type. -/
def valueParam : Param :=
  plainParam "value" "mixed"

/-- A method from parts whose two renderings are the same. -/
def plainSig (name : String) (params : List Param) (result : String) : MethodSig :=
  { name, params, result := some (.same result) }

end WebIdl.Artifact
