/-!
# WebIdl.Text.Ascii

Comparison that ignores the case of ASCII letters, as method lookup in the
generated code does, and the ASCII character classes that identifiers are made of.
-/

namespace WebIdl.Text

/-- ASCII letters in lower case, every other character as it is. -/
def lowerAscii (s : String) : String :=
  String.ofList (s.toList.map Char.toLower)

/-- Equality up to the case of ASCII letters. -/
def sameIgnoringCase (a b : String) : Bool :=
  lowerAscii a == lowerAscii b

/-- `0` to `9`. -/
def isDigit (c : Char) : Bool :=
  '0' ≤ c && c ≤ '9'

/-- `A` to `Z` and `a` to `z`. -/
def isLetter (c : Char) : Bool :=
  ('a' ≤ c && c ≤ 'z') || ('A' ≤ c && c ≤ 'Z')

/-- A digit in base sixteen. -/
def isHexDigit (c : Char) : Bool :=
  isDigit c || ('a' ≤ c && c ≤ 'f') || ('A' ≤ c && c ≤ 'F')

/-- What an identifier may start with. -/
def isIdentStart (c : Char) : Bool :=
  c == '_' || isLetter c

/-- What an identifier may go on with. -/
def isIdentRest (c : Char) : Bool :=
  isIdentStart c || isDigit c

/-- A letter or underscore, then letters, digits and underscores. -/
def isIdentifier (s : String) : Bool :=
  match s.toList with
  | [] => false
  | c :: cs => isIdentStart c && cs.all isIdentRest

/-- A text is lowered character by character. -/
theorem toList_lowerAscii (s : String) : (lowerAscii s).toList = s.toList.map Char.toLower := by
  simp [lowerAscii]

/-- Two texts are the same but for case if they are so in lower case. -/
theorem sameIgnoringCase_iff {a b : String} :
    sameIgnoringCase a b = true ↔ lowerAscii a = lowerAscii b := by
  simp [sameIgnoringCase]

end WebIdl.Text
