import WebIdl.Catalog.TypeTree

/-!
# WebIdl.Code.TypeText

Types in the generated code. Each type has two renderings: the binding, which stands in
a signature, and the documentation, which stands in a comment and can say more.

A rendering is a list of alternatives and whether null is one more of them.
-/

namespace WebIdl.Code

open WebIdl.Text (joinWith)

/-- Where a type stands. -/
inductive Position where
  /-- What a method returns. -/
  | result
  /-- The parameter of an attribute's setter. -/
  | setter
  | argument
  /-- A constant, or a dictionary field that is read by its key. -/
  | field
deriving Repr, DecidableEq

/-- Whether a value is written to the position by a caller. -/
def Position.isInput : Position → Bool
  | .setter => true
  | .argument => true
  | .result => false
  | .field => false

/-- Which of the two renderings is meant. -/
inductive Fidelity where
  | binding
  | documentation
deriving Repr, DecidableEq

/-- Where and for what a type is rendered: the position, the definition whose file it is
in, and the root namespace. -/
structure TypeContext where
  root : String
  definition : String
  position : Position
deriving Repr, DecidableEq

/-- Whether null is an alternative at a position. -/
def isNullable (marks : NullMarks) (position : Position) : Bool :=
  marks.nullable || (position.isInput && marks.nullOnInput)

/-- The word for `undefined`, which is no value as a result and null anywhere else. -/
def undefinedWord : Position → String
  | .result => "void"
  | .setter => "null"
  | .argument => "null"
  | .field => "null"

/-- The word for a built-in type that has one wherever it stands. -/
def scalarWord : Primitive → String
  | .integer => "int"
  | .float => "float"
  | .string => "string"
  | .boolean => "bool"
  | .object => "object"
  | .any => "mixed"
  | .undefined => "null"

/-- What is taken in place of a definition, except as a result. -/
def alternate (kind : DefinitionKind) (position : Position) (fidelity : Fidelity) :
    Option String :=
  if position == .result then none
  else
    match kind, fidelity with
    | .dictionary, .binding => some "array"
    | .dictionary, .documentation => some "array<string, mixed>"
    | .callback _, _ => some "callable"
    | .callbackInterface, _ => some "callable"
    | _, _ => none

/-- The name of a definition: fully qualified in the definition's own file, and else
the imported name. -/
def qualify (ctx : TypeContext) (name : String) : String :=
  if name == ctx.definition then "\\" ++ ctx.root ++ "\\" ++ name else name

/-- The name of a definition and what is taken in its place. -/
def definitionParts (ctx : TypeContext) (fidelity : Fidelity) (d : Definition) : List String :=
  qualify ctx d.name :: (alternate d.kind ctx.position fidelity).toList

/-- A signature type of some alternatives, where a single one takes null by `?`. -/
def bindingText (parts : List String) (nullable : Bool) : String :=
  match parts, nullable with
  | [part], true => "?" ++ part
  | _, true => joinWith "|" parts ++ "|null"
  | _, false => joinWith "|" parts

/-- The signature type of a tree. -/
def bindingOf (ctx : TypeContext) : TypeTree → Except Error String
  | .unknown name => .error (.unknownType name)
  | .fault error => .error error
  | .union _ _ => .ok "mixed"
  | .generic .promise _ _ => .ok "mixed"
  | .generic _ _ marks => .ok (bindingText ["array"] (isNullable marks ctx.position))
  | .primitive .any _ => .ok "mixed"
  | .primitive .undefined _ => .ok (undefinedWord ctx.position)
  | .primitive primitive marks =>
    .ok (bindingText [scalarWord primitive] (isNullable marks ctx.position))
  | .definition d marks =>
    let nullable := isNullable marks ctx.position
    if d.isEnum then .ok (bindingText ["string"] nullable)
    else .ok (bindingText (definitionParts ctx .binding d) nullable)

/-- A documentation type before it is written: its alternatives, and whether null is one
more. -/
structure Alternatives where
  parts : List String
  nullable : Bool
deriving Repr, DecidableEq

namespace Alternatives

/-- One alternative. -/
def one (part : String) (nullable : Bool) : Alternatives :=
  ⟨[part], nullable⟩

/-- Add the alternatives of a union's branch that are new. -/
def addBranch (all branch : Alternatives) : Alternatives where
  parts := branch.parts.foldl
    (fun parts part => if parts.contains part then parts else parts ++ [part]) all.parts
  nullable := all.nullable || branch.nullable

/-- The alternatives with bars between them, null last unless it is among them. -/
def text (alternatives : Alternatives) : String :=
  let hasNull := alternatives.parts.any fun part => part == "null" || part == "void"
  joinWith "|" alternatives.parts ++ (if alternatives.nullable && !hasNull then "|null" else "")

end Alternatives

mutual

/-- The documentation type of a tree. `top` tells whether the tree stands alone and not
inside of another one. -/
def alternativesOf (ctx : TypeContext) (top : Bool) : TypeTree → Except Error Alternatives
  | .unknown name => .error (.unknownType name)
  | .fault error => .error error
  | .primitive .any _ => .ok (.one "mixed" true)
  | .primitive .undefined _ =>
    .ok (.one (undefinedWord (if top then ctx.position else .field)) false)
  | .primitive primitive marks =>
    .ok (.one (scalarWord primitive) (isNullable marks ctx.position))
  | .definition d marks =>
    let nullable := isNullable marks ctx.position
    if d.isEnum then .ok (.one ("\\" ++ ctx.root ++ "\\" ++ d.name ++ "::*") nullable)
    else .ok ⟨definitionParts ctx .documentation d, nullable⟩
  | .union members marks => do
    let branches ← branchesOf ctx members
    return branches.foldl .addBranch ⟨[], isNullable marks ctx.position⟩
  | .generic .promise _ marks => .ok (.one "mixed" (isNullable marks ctx.position))
  | .generic head args marks =>
    if args.length != head.arity then
      .error (.unsupportedType (.wrongArity head args.length))
    else do
      let inner := joinWith ", " ((← branchesOf ctx args).map Alternatives.text)
      let container := if head == .record then "array<" else "list<"
      return .one (container ++ inner ++ ">") (isNullable marks ctx.position)

/-- The documentation types of the trees inside of another one. -/
def branchesOf (ctx : TypeContext) : List TypeTree → Except Error (List Alternatives)
  | [] => .ok []
  | tree :: trees => do
    let branch ← alternativesOf ctx false tree
    let branches ← branchesOf ctx trees
    return branch :: branches

end

/-- The documentation type of a tree that stands alone. -/
def documentationOf (ctx : TypeContext) (tree : TypeTree) : Except Error String := do
  return (← alternativesOf ctx true tree).text

/-! ## References -/

/-- A definition that a type mentions. -/
structure Reference where
  name : String
  isEnum : Bool
deriving Repr, DecidableEq

mutual

/-- Add the definitions that a tree mentions, in the order they are met, each once. -/
def collect (found : List Reference) : TypeTree → Except Error (List Reference)
  | .unknown name => .error (.unknownType name)
  | .fault error => .error error
  | .primitive _ _ => .ok found
  | .definition d _ =>
    let reference : Reference := ⟨d.name, d.isEnum⟩
    .ok (if found.contains reference then found else found ++ [reference])
  | .union members _ => collectAll found members
  | .generic _ args _ => collectAll found args

/-- Add the definitions that a list of trees mentions. -/
def collectAll (found : List Reference) : List TypeTree → Except Error (List Reference)
  | [] => .ok found
  | tree :: trees => do
    let found ← collect found tree
    collectAll found trees

end

/-! ## Types of a catalog -/

/-- The signature type of a type. -/
def binding (c : Catalog) (ctx : TypeContext) (type : IdlType) : Except Error String :=
  bindingOf ctx (c.tree type)

/-- The documentation type of a type. -/
def documentation (c : Catalog) (ctx : TypeContext) (type : IdlType) : Except Error String :=
  documentationOf ctx (c.tree type)

/-- The definitions that a type mentions. -/
def references (c : Catalog) (type : IdlType) : Except Error (List Reference) :=
  collect [] (c.tree type)

end WebIdl.Code
