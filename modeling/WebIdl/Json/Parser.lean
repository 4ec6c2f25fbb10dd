import WebIdl.Json.Basic

/-!
# WebIdl.Json.Parser

Reading JSON text. `Json.parse` reads one value with nothing but white space around
it. `Json.elements` reads a top-level array and keeps what it read before a fault,
so that what the first elements say can be judged before the fault is.

Every step takes at least one character, so as many steps as there are characters
are always enough.
-/

namespace WebIdl.Json

/-- White space between tokens. -/
def isSpace (c : Char) : Bool :=
  c == ' ' || c == '\n' || c == '\t' || c == '\r'

/-- What follows the white space at the front. -/
def skipSpace (cs : List Char) : List Char :=
  cs.dropWhile isSpace

/-- The value of a digit in base sixteen. -/
def hexValue (c : Char) : Option Nat :=
  if '0' ≤ c && c ≤ '9' then some (c.toNat - '0'.toNat)
  else if 'a' ≤ c && c ≤ 'f' then some (c.toNat - 'a'.toNat + 10)
  else if 'A' ≤ c && c ≤ 'F' then some (c.toNat - 'A'.toNat + 10)
  else none

/-- The value of four digits in base sixteen. -/
def hexUnit (a b c d : Char) : Option Nat := do
  return (← hexValue a) * 4096 + (← hexValue b) * 256 + (← hexValue c) * 16 + (← hexValue d)

/-- The character a one-letter escape stands for. -/
def shortEscape (c : Char) : Option Char :=
  if c == '"' || c == '\\' || c == '/' then some c
  else if c == 'b' then some (Char.ofNat 8)
  else if c == 'f' then some (Char.ofNat 12)
  else if c == 'n' then some '\n'
  else if c == 'r' then some '\r'
  else if c == 't' then some '\t'
  else none

/-- Whether a code unit is the first half of a surrogate pair. -/
def isHighSurrogate (unit : Nat) : Bool :=
  0xD800 ≤ unit && unit < 0xDC00

/-- Whether a code unit is the second half of a surrogate pair. -/
def isLowSurrogate (unit : Nat) : Bool :=
  0xDC00 ≤ unit && unit < 0xE000

/-- The rest of a string after its opening quote, and what follows the closing one. -/
def scanString : List Char → Option (List Char × List Char)
  | [] => none
  | c :: cs =>
    if c == '"' then some ([], cs)
    else if c == '\\' then
      match cs with
      | [] => none
      | e :: es =>
        if e == 'u' then
          match es with
          | h1 :: h2 :: h3 :: h4 :: rest =>
            match hexUnit h1 h2 h3 h4 with
            | none => none
            | some unit =>
              if isHighSurrogate unit then
                match rest with
                | '\\' :: 'u' :: l1 :: l2 :: l3 :: l4 :: rest =>
                  match hexUnit l1 l2 l3 l4 with
                  | none => none
                  | some low =>
                    if isLowSurrogate low then
                      let code := 0x10000 + (unit - 0xD800) * 0x400 + (low - 0xDC00)
                      (scanString rest).map fun (text, rest) => (Char.ofNat code :: text, rest)
                    else none
                | _ => none
              else if isLowSurrogate unit then none
              else (scanString rest).map fun (text, rest) => (Char.ofNat unit :: text, rest)
          | _ => none
        else
          match shortEscape e with
          | none => none
          | some plain => (scanString es).map fun (text, rest) => (plain :: text, rest)
    else if c.toNat < 0x20 then none
    else (scanString cs).map fun (text, rest) => (c :: text, rest)

/-- What follows an expected word. -/
def expect (word : List Char) (cs : List Char) : Option (List Char) :=
  if word.isPrefixOf cs then some (cs.drop word.length) else none

mutual

/-- One value at the front of the text, and what follows it. -/
def scanValue : Nat → List Char → Option (Json × List Char)
  | 0, _ => none
  | fuel + 1, cs =>
    match skipSpace cs with
    | [] => none
    | c :: rest =>
      if c == '"' then
        (scanString rest).map fun (text, rest) => (.string (String.ofList text), rest)
      else if c == '[' then
        match skipSpace rest with
        | ']' :: rest => some (.array [], rest)
        | rest => (scanItems fuel rest).map fun (items, rest) => (.array items, rest)
      else if c == '\x7b' then
        match skipSpace rest with
        | '\x7d' :: rest => some (.object [], rest)
        | rest => (scanFields fuel rest).map fun (fields, rest) => (.object fields, rest)
      else if c == 'n' then (expect "ull".toList rest).map fun rest => (.null, rest)
      else if c == 't' then (expect "rue".toList rest).map fun rest => (.bool true, rest)
      else if c == 'f' then (expect "alse".toList rest).map fun rest => (.bool false, rest)
      else (Number.scan (c :: rest)).map fun (text, rest) => (.number (String.ofList text), rest)

/-- The items of an array that has some, up to its closing bracket. -/
def scanItems : Nat → List Char → Option (List Json × List Char)
  | 0, _ => none
  | fuel + 1, cs =>
    match scanValue fuel cs with
    | none => none
    | some (item, rest) =>
      match skipSpace rest with
      | ']' :: rest => some ([item], rest)
      | ',' :: rest => (scanItems fuel rest).map fun (items, rest) => (item :: items, rest)
      | _ => none

/-- The fields of an object that has some, up to its closing brace. -/
def scanFields : Nat → List Char → Option (List (String × Json) × List Char)
  | 0, _ => none
  | fuel + 1, cs =>
    match skipSpace cs with
    | '"' :: rest =>
      match scanString rest with
      | none => none
      | some (key, rest) =>
        match skipSpace rest with
        | ':' :: rest =>
          match scanValue fuel rest with
          | none => none
          | some (value, rest) =>
            let field := (String.ofList key, value)
            match skipSpace rest with
            | '\x7d' :: rest => some ([field], rest)
            | ',' :: rest =>
              (scanFields fuel rest).map fun (fields, rest) => (field :: fields, rest)
            | _ => none
        | _ => none
    | _ => none

end

/-- The value a text holds, if the text is one JSON value. -/
def parse (text : String) : Option Json :=
  let cs := text.toList
  match scanValue (cs.length + 1) cs with
  | some (value, rest) => if (skipSpace rest).isEmpty then some value else none
  | none => none

/-- The elements of a top-level array up to the first fault. -/
structure Elements where
  items : List Json
  /-- Whether the text is well formed from its first character to its last. -/
  complete : Bool
deriving Repr

/-- The elements from one that has to be there on. -/
def elementsFrom (size : Nat) : Nat → List Char → Elements
  | 0, _ => ⟨[], false⟩
  | fuel + 1, cs =>
    match scanValue size cs with
    | none => ⟨[], false⟩
    | some (item, rest) =>
      match skipSpace rest with
      | ']' :: rest => ⟨[item], (skipSpace rest).isEmpty⟩
      | ',' :: rest =>
        let others := elementsFrom size fuel rest
        ⟨item :: others.items, others.complete⟩
      | _ => ⟨[item], false⟩

/-- The elements of a text that should be an array. -/
def elements (text : String) : Elements :=
  let cs := text.toList
  match skipSpace cs with
  | '[' :: rest =>
    match skipSpace rest with
    | ']' :: rest => ⟨[], (skipSpace rest).isEmpty⟩
    | rest => elementsFrom (cs.length + 1) (cs.length + 1) rest
  | _ => ⟨[], false⟩

/-- The elements of a value that should be an array. -/
def elementsOf : Json → Elements
  | .array items => ⟨items, true⟩
  | _ => ⟨[], false⟩

end WebIdl.Json
