import WebIdl.Code.Signature
import WebIdl.Text.Quoted

/-!
# WebIdl.Code.Method

Methods and classes as data. A statement keeps apart the methods that it calls, so what a
class calls and what it defines can be read off before it is written.
-/

namespace WebIdl.Code

open WebIdl.Text (LineBuffer quote)

/-- A piece of a line of code. -/
inductive Piece where
  | text (fragment : String)
  /-- `$this->m` for a generated method. -/
  | self (method : String)
  /-- `$this->m` for a method that the host class brings. -/
  | host (method : String)
  /-- `parent::m` -/
  | parent (method : String)
  /-- `$value->m` -/
  | value (method : String)
deriving Repr, DecidableEq

/-- The code of a piece. -/
def Piece.code : Piece → String
  | .text fragment => fragment
  | .self method => "$this->" ++ method
  | .host method => "$this->" ++ method
  | .parent method => "parent::" ++ method
  | .value method => "$value->" ++ method

/-- The code of a line. -/
def lineCode (pieces : List Piece) : String :=
  String.join (pieces.map Piece.code)

/-- A statement. -/
inductive Stmt where
  | line (pieces : List Piece)
  | blank
  /-- Statements between an opening and a closing line. -/
  | braced (opening : List Piece) (closing : String) (body : List Stmt)
deriving Repr

namespace Stmt

/-- A line that calls no method. -/
def plain (text : String) : Stmt :=
  .line [.text text]

/-- A control structure: its head and the statements it governs. -/
def control (head : String) (body : List Stmt) : Stmt :=
  .braced [.text (head ++ " \x7b")] "\x7d" body

/-- A `match` expression as a statement. -/
def matching (head : String) (arms : List Stmt) : Stmt :=
  .braced [.text (head ++ " \x7b")] "\x7d;" arms

mutual

/-- Write a statement. -/
def write (buf : LineBuffer) : Stmt → LineBuffer
  | .line pieces => buf.line (lineCode pieces)
  | .blank => buf.blank
  | .braced opening closing body =>
    buf.braced (lineCode opening) closing fun buf => writeAll buf body

/-- Write statements. -/
def writeAll (buf : LineBuffer) : List Stmt → LineBuffer
  | [] => buf
  | stmt :: stmts => writeAll (stmt.write buf) stmts

end

mutual

/-- The pieces of a statement, in order. -/
def pieces : Stmt → List Piece
  | .line pieces => pieces
  | .blank => []
  | .braced opening _ body => opening ++ piecesAll body

/-- The pieces of some statements, in order. -/
def piecesAll : List Stmt → List Piece
  | [] => []
  | stmt :: stmts => stmt.pieces ++ piecesAll stmts

end

end Stmt

/-- A method with a body of statements. -/
structure Routine where
  sig : MethodSig
  body : List Stmt
deriving Repr

/-- A class without a name that wraps a value: what it is made from, what it implements,
the trait it uses, its constructor, and its methods. -/
structure AnonymousClass where
  argument : String
  contract : String
  usedTrait : String
  constructorDoc : List String := []
  constructorParam : String
  methods : List Routine
deriving Repr

/-- The body of a method. -/
inductive Body where
  /-- No body: the method is only declared. -/
  | declared
  | code (stmts : List Stmt)
  /-- Statements that end in a new object of an anonymous class. -/
  | factory (stmts : List Stmt) (result : AnonymousClass)
deriving Repr

/-- A method. -/
structure Method where
  sig : MethodSig
  modifiers : String := "public"
  body : Body
deriving Repr

/-- Write the comment of a signature. -/
def MethodSig.writeDoc (sig : MethodSig) (buf : LineBuffer) : LineBuffer :=
  buf.writeLines (docBlock sig.docLines)

/-- Write a method whose body is written by `body`. -/
def MethodSig.define (sig : MethodSig) (modifiers : String) (body : LineBuffer → LineBuffer)
    (buf : LineBuffer) : LineBuffer :=
  let buf := ((sig.writeDoc buf).line (sig.declaration modifiers)).line "\x7b"
  ((body buf.indent).dedent.line "\x7d").blank

/-- Write a method of an anonymous class. -/
def Routine.write (buf : LineBuffer) (routine : Routine) : LineBuffer :=
  routine.sig.define "public" (fun buf => Stmt.writeAll buf routine.body) buf

/-- Write the statement that makes an object of an anonymous class. -/
def AnonymousClass.write (buf : LineBuffer) (cls : AnonymousClass) : LineBuffer :=
  let head := "return new class (" ++ cls.argument ++ ") implements " ++ cls.contract ++ " \x7b"
  let buf := (buf.blank.line head).indent
  let buf := (buf.line ("use " ++ cls.usedTrait ++ ";")).blank
  let buf := buf.writeLines (docBlock cls.constructorDoc)
  let buf := buf.block ("public function __construct(" ++ cls.constructorParam ++ ")") id
  let buf := cls.methods.foldl Routine.write buf.blank
  buf.dedent.line "\x7d;"

/-- Write a method. -/
def Method.write (buf : LineBuffer) (method : Method) : LineBuffer :=
  match method.body with
  | .declared =>
    ((method.sig.writeDoc buf).line (method.sig.declaration method.modifiers ++ ";")).blank
  | .code stmts =>
    method.sig.define method.modifiers (fun buf => Stmt.writeAll buf stmts) buf
  | .factory stmts cls =>
    method.sig.define method.modifiers (fun buf => cls.write (Stmt.writeAll buf stmts)) buf

/-- The statement of a method that is not implemented yet. -/
def notImplemented (definition method : String) : Stmt :=
  let message := quote ("Not implemented: " ++ definition ++ "::" ++ method)
  .plain ("throw new \\BadMethodCallException(" ++ message ++ ");")

/-- Code that has to be a statement if it has no value, and is returned if it has. -/
def MethodSig.returning (sig : MethodSig) (call : List Piece) : Stmt :=
  if sig.returnsValue then .line ([.text "return "] ++ call ++ [.text ";"])
  else .line (call ++ [.text ";"])

end WebIdl.Code
