/-!
# WebIdl.Text.Split

Cutting a text at a separator. Every cut removes one separator, so joining the
pieces with it gives the text back.
-/

namespace WebIdl.Text

/-- Put a character in front of the first piece. -/
def consHead (c : Char) : List (List Char) → List (List Char)
  | [] => [[c]]
  | piece :: pieces => (c :: piece) :: pieces

/-- Cut at every `sep`. -/
def splitChars (sep : Char) : List Char → List (List Char)
  | [] => [[]]
  | c :: cs => if c == sep then [] :: splitChars sep cs else consHead c (splitChars sep cs)

/-- Cut at every `|` that stands outside of angle brackets, `depth` of which are
open. A closing bracket too many is ignored. -/
def splitBars (depth : Nat) : List Char → List (List Char)
  | [] => [[]]
  | c :: cs =>
    if c == '|' && depth == 0 then [] :: splitBars depth cs
    else if c == '<' then consHead c (splitBars (depth + 1) cs)
    else if c == '>' then consHead c (splitBars (depth - 1) cs)
    else consHead c (splitBars depth cs)

/-- The pieces of a text between the occurrences of `sep`. -/
def split (sep : Char) (s : String) : List String :=
  (splitChars sep s.toList).map String.ofList

/-- The alternatives of a type expression: its pieces between the bars that stand
outside of angle brackets. -/
def splitTopLevel (s : String) : List String :=
  (splitBars 0 s.toList).map String.ofList

/-- The pieces one after another with `sep` between them. -/
def joinWith (sep : String) (pieces : List String) : String :=
  sep.intercalate pieces

theorem consHead_ne_nil (c : Char) (pieces : List (List Char)) : consHead c pieces ≠ [] := by
  cases pieces <;> simp [consHead]

/-- Cutting leaves at least one piece. -/
theorem splitChars_ne_nil (sep : Char) (cs : List Char) : splitChars sep cs ≠ [] := by
  cases cs with
  | nil => simp [splitChars]
  | cons c cs =>
    simp only [splitChars]
    split <;> simp [consHead_ne_nil]

theorem splitBars_ne_nil (depth : Nat) (cs : List Char) : splitBars depth cs ≠ [] := by
  cases cs with
  | nil => simp [splitBars]
  | cons c cs =>
    simp only [splitBars]
    repeat' split
    all_goals simp [consHead_ne_nil]

/-- A character in front of the first piece is in front of the joined text. -/
theorem intercalate_consHead {sep : List Char} {pieces : List (List Char)} (c : Char)
    (nonempty : pieces ≠ []) :
    sep.intercalate (consHead c pieces) = c :: sep.intercalate pieces := by
  match pieces with
  | [] => exact absurd rfl nonempty
  | [piece] => simp [consHead, List.intercalate]
  | piece :: next :: pieces => simp [consHead, List.intercalate, List.intersperse]

/-- An empty piece in front puts a separator there. -/
theorem intercalate_nil_cons {sep : List Char} {pieces : List (List Char)}
    (nonempty : pieces ≠ []) :
    sep.intercalate ([] :: pieces) = sep ++ sep.intercalate pieces := by
  match pieces with
  | [] => exact absurd rfl nonempty
  | piece :: pieces => simp [List.intercalate, List.intersperse]

/-- Cutting at bars loses nothing but the bars. -/
theorem intercalate_splitBars (depth : Nat) (cs : List Char) :
    ['|'].intercalate (splitBars depth cs) = cs := by
  induction cs generalizing depth with
  | nil => rfl
  | cons c cs ih =>
    simp only [splitBars]
    split
    · next bar =>
      simp only [Bool.and_eq_true, beq_iff_eq] at bar
      rw [intercalate_nil_cons (splitBars_ne_nil depth cs), ih, bar.1]
      rfl
    · split
      · rw [intercalate_consHead c (splitBars_ne_nil _ cs), ih]
      · split <;> rw [intercalate_consHead c (splitBars_ne_nil _ cs), ih]

end WebIdl.Text
