/-!
# WebIdl.Text.Quoted

Single-quoted literals. A backslash stands before every backslash and every quote
of the text; a reader takes the character after a backslash for itself when it is
one of the two, and the first quote without a backslash ends the literal.
-/

namespace WebIdl.Text.Quoted

/-- The quote that opens and closes a literal. -/
def mark : Char := Char.ofNat 39

/-- The characters a backslash has to announce. -/
def needsEscape (c : Char) : Bool :=
  c == '\\' || c == mark

/-- The text between the quotes. -/
def escape : List Char → List Char
  | [] => []
  | c :: cs => if needsEscape c then '\\' :: c :: escape cs else c :: escape cs

/-- Read up to the quote that ends the literal, giving the text and what follows.
A backslash before any other character stands for itself. -/
def unescape : List Char → Option (List Char × List Char)
  | [] => none
  | c :: cs =>
    if c == mark then some ([], cs)
    else if c == '\\' then
      match cs with
      | d :: ds =>
        if needsEscape d then (unescape ds).map fun (text, rest) => (d :: text, rest)
        else (unescape (d :: ds)).map fun (text, rest) => (c :: text, rest)
      | [] => none
    else (unescape cs).map fun (text, rest) => (c :: text, rest)

end WebIdl.Text.Quoted

namespace WebIdl.Text

/-- The literal of a text. -/
def quote (s : String) : String :=
  String.ofList (Quoted.mark :: Quoted.escape s.toList ++ [Quoted.mark])

/-- Read a literal from the front of a text, giving its value and what follows. -/
def unquote? : List Char → Option (List Char × List Char)
  | [] => none
  | c :: cs => if c == Quoted.mark then Quoted.unescape cs else none

end WebIdl.Text
