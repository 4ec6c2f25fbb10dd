import WebIdl.Definition
import WebIdl.Error
import WebIdl.Text.Quoted

/-!
# WebIdl.Code.LiteralText

Literals in the generated code. A number is copied as it is spelled, once it is known to
be spelled as a number.
-/

namespace WebIdl.Code

open WebIdl.Text (isDigit isHexDigit quote)

/-- What follows an optional sign. -/
def afterSign : List Char → List Char
  | '+' :: rest => rest
  | '-' :: rest => rest
  | cs => cs

/-- Digits, of which there is at least one. -/
def areDigits (cs : List Char) : Bool :=
  !cs.isEmpty && cs.all isDigit

/-- Nothing, or an exponent: its mark, an optional sign and digits. -/
def isExponent : List Char → Bool
  | [] => true
  | mark :: rest => (mark == 'e' || mark == 'E') && areDigits (afterSign rest)

/-- Digits with at most one point among them, then an optional exponent. -/
def isDecimal (cs : List Char) : Bool :=
  let (whole, rest) := cs.span isDigit
  match rest with
  | '.' :: rest =>
    let (fraction, rest) := rest.span isDigit
    !(whole.isEmpty && fraction.isEmpty) && isExponent rest
  | _ => !whole.isEmpty && isExponent rest

/-- A number without its sign: `0x` and digits in base sixteen, or a decimal number. -/
def isMagnitude : List Char → Bool
  | '0' :: 'x' :: rest => !rest.isEmpty && rest.all isHexDigit
  | '0' :: 'X' :: rest => !rest.isEmpty && rest.all isHexDigit
  | cs => isDecimal cs

/-- Whether a text is spelled as a number. -/
def isNumeral (spelling : String) : Bool :=
  match spelling.toList with
  | '-' :: rest => isMagnitude rest
  | cs => isMagnitude cs

/-- The code of a literal. -/
def literalText : Literal → Except Error String
  | .number spelling =>
    if isNumeral spelling then .ok spelling else .error (.unsupportedLiteral spelling)
  | .boolean true => .ok "true"
  | .boolean false => .ok "false"
  | .null => .ok "null"
  | .string text => .ok (quote text)
  | .infinity false => .ok "INF"
  | .infinity true => .ok "-INF"
  | .nan => .ok "NAN"
  | .emptySequence => .ok "[]"
  | .emptyDictionary => .ok "[]"

end WebIdl.Code
