import WebIdl.Text.Ascii

/-!
# WebIdl.Json.Number

JSON numbers by their spelling: an optional minus sign, an integer part without
superfluous zeros, an optional fraction and an optional exponent. Also which of
them stay finite when they are evaluated in binary64.

A number is evaluated as a significand times a power of ten. The significand has 64
bits, so it holds the first digits only; each factor is rounded to binary64, and so is
their product.
-/

namespace WebIdl.Json.Number

open WebIdl.Text (isDigit)

/-- The digits at the front, and what follows them. -/
def digits (cs : List Char) : List Char × List Char :=
  cs.span isDigit

/-- The digits at the front, of which there is at least one. -/
def digits1 (cs : List Char) : Option (List Char × List Char) :=
  match digits cs with
  | ([], _) => none
  | found => some found

/-- The integer part: a zero, or digits that do not start with one. -/
def integerPart (cs : List Char) : Option (List Char × List Char) :=
  match cs with
  | '0' :: rest => some (['0'], rest)
  | _ => digits1 cs

/-- The fraction with its point; empty if there is none. -/
def fractionPart (cs : List Char) : Option (List Char × List Char) :=
  match cs with
  | '.' :: rest => (digits1 rest).map fun (ds, rest) => ('.' :: ds, rest)
  | _ => some ([], cs)

/-- The exponent with its mark; empty if there is none. -/
def exponentPart (cs : List Char) : Option (List Char × List Char) :=
  match cs with
  | [] => some ([], [])
  | mark :: rest =>
    if mark == 'e' || mark == 'E' then
      match rest with
      | '+' :: rest => (digits1 rest).map fun (ds, rest) => (mark :: '+' :: ds, rest)
      | '-' :: rest => (digits1 rest).map fun (ds, rest) => (mark :: '-' :: ds, rest)
      | _ => (digits1 rest).map fun (ds, rest) => (mark :: ds, rest)
    else some ([], cs)

/-- The number at the front, and what follows it. -/
def scan (cs : List Char) : Option (List Char × List Char) := do
  let (sign, cs) := match cs with
    | '-' :: rest => (['-'], rest)
    | _ => ([], cs)
  let (whole, cs) ← integerPart cs
  let (fraction, cs) ← fractionPart cs
  let (exponent, cs) ← exponentPart cs
  return (sign ++ whole ++ fraction ++ exponent, cs)

/-- The value of a row of decimal digits. -/
def natOfDigits (ds : List Char) : Nat :=
  ds.foldl (fun n d => n * 10 + (d.toNat - '0'.toNat)) 0

/-- The written exponent, zero if there is none. -/
def exponentOf (cs : List Char) : Int :=
  match cs with
  | _ :: '-' :: ds => - Int.ofNat (natOfDigits ds)
  | _ :: '+' :: ds => Int.ofNat (natOfDigits ds)
  | _ :: ds => Int.ofNat (natOfDigits ds)
  | [] => 0

/-- The greatest significand. -/
def maxSignificand : Nat := Nat.pow 2 64 - 1

/-- Append digits to a significand as long as it does not grow too great, giving the
digits that are left. -/
def absorb (significand : Nat) : List Char → Nat × List Char
  | [] => (significand, [])
  | d :: ds =>
    let next := significand * 10 + (d.toNat - '0'.toNat)
    if next ≤ maxSignificand then absorb next ds else (significand, d :: ds)

/-- The significand of a spelling without its sign, and the power of ten it is multiplied
by. Every digit of the integer part that is left out is worth one power, every digit of
the fraction that is not costs one. -/
def parts (unsigned : List Char) : Nat × Int :=
  let (whole, rest) := digits unsigned
  let (fraction, rest) := match rest with
    | '.' :: rest => digits rest
    | _ => ([], rest)
  let (significand, wholeLeft) := absorb 0 whole
  let (significand, fractionLeft) := absorb significand fraction
  let shift : Int := Int.ofNat wholeLeft.length + Int.ofNat fractionLeft.length -
    Int.ofNat fraction.length
  (significand, exponentOf rest + shift)

/-- The nearest number of at most 53 bits, followed by zeros; halfway between two, the
one whose last bit is zero. -/
def nearest (n : Nat) : Nat :=
  let unit := Nat.pow 2 (Nat.log2 n - 52)
  let lower := n / unit
  let excess := n % unit
  if 2 * excess > unit || (2 * excess == unit && lower % 2 == 1) then (lower + 1) * unit
  else lower * unit

/-- The least product that rounds to an infinity of binary64. -/
def overflow : Nat := Nat.pow 2 1024 - Nat.pow 2 970

/-- Whether a spelling stays finite. Powers above `10 ^ 308` are infinite themselves, and
dividing by a power never is. -/
def fits (spelling : String) : Bool :=
  let (significand, exponent) := parts (spelling.toList.dropWhile (· == '-'))
  if significand == 0 || exponent < 0 then true
  else if exponent > 308 then false
  else nearest significand * nearest (Nat.pow 10 exponent.toNat) < overflow

/-- The value of a spelling made of digits only. -/
def toNat? (spelling : String) : Option Nat :=
  let cs := spelling.toList
  if cs.all isDigit && !cs.isEmpty then some (natOfDigits cs) else none

end WebIdl.Json.Number
