import WebIdl.Artifact.Target
import WebIdl.Proofs.Split

/-!
# WebIdl.Proofs.Matching

How the `match` expressions of generated code are read.

A quoted text is read back as the text (`Text.unquote?_quote`), and an arm as its patterns and
its result (`Arm.read?_code`), whatever the texts in it are.  What an expression does with a
string is then a matter of its arms: the first one with a pattern for the string counts
(`resultFor?`), and the one for everything else if there is none (`fallback?`).
-/

namespace WebIdl

/-! ## literals -/

namespace Text

/-- An escaped text is read back up to the closing quote. -/
theorem Quoted.unescape_escape (cs rest : List Char) :
    unescape (escape cs ++ mark :: rest) = some (cs, rest) := by
  induction cs with
  | nil =>
      rw [escape, List.nil_append, unescape.eq_def]
      simp
  | cons c cs ih =>
      rw [escape]
      split
      next hc =>
        have hslash : ('\\' == mark) = false := by decide
        rw [List.cons_append, List.cons_append, unescape.eq_def]
        simp [hslash, hc, ih]
      next hc =>
        obtain ⟨hslash, hmark⟩ : c ≠ '\\' ∧ c ≠ mark := by simpa [needsEscape] using hc
        rw [List.cons_append, unescape.eq_def]
        simp [hslash, hmark, ih]

/-- The literal of a text is read as the text, whatever follows it. -/
theorem unquote?_quote (s : String) (rest : List Char) :
    unquote? ((quote s).toList ++ rest) = some (s.toList, rest) := by
  simp [quote, unquote?, Quoted.unescape_escape]

end Text

namespace Code

open WebIdl.Text (joinWith quote)

/-- The value of code that is one literal. -/
def literalValue? (code : String) : Option String :=
  match Text.unquote? code.toList with
  | some (text, []) => some (String.ofList text)
  | _ => none

@[simp] theorem literalValue?_quote (s : String) : literalValue? (quote s) = some s := by
  have hread := Text.unquote?_quote s []
  rw [List.append_nil] at hread
  simp [literalValue?, hread]

/-! ## arms -/

/-- What an arm is for: a literal, or a word that stands for a constant or everything else. -/
inductive Pattern where
  | literal (text : String)
  | word (name : String)
deriving Repr, DecidableEq

/-- What words are made of: what identifiers are made of, and colons. -/
def isWordChar (c : Char) : Bool :=
  Text.isIdentRest c || c == ':'

namespace Pattern

/-- The code of a pattern. -/
def code : Pattern → String
  | .literal text => quote text
  | .word name => name

/-- A word is a word. -/
def Readable : Pattern → Prop
  | .literal _ => True
  | .word name => name ≠ "" ∧ ∀ c ∈ name.toList, isWordChar c = true

/-- The pattern at the front of some code, and what follows it. -/
def read? (cs : List Char) : Option (Pattern × List Char) :=
  match Text.unquote? cs with
  | some (text, rest) => some (.literal (String.ofList text), rest)
  | none =>
    match cs.takeWhile isWordChar with
    | [] => none
    | c :: more => some (.word (String.ofList (c :: more)), cs.dropWhile isWordChar)

/-- A pattern is read as it was written if no word goes on after it. -/
theorem read?_code {pattern : Pattern} (h : pattern.Readable) {c : Char} (rest : List Char)
    (hc : isWordChar c = false) :
    read? (pattern.code.toList ++ c :: rest) = some (pattern, c :: rest) := by
  cases pattern with
  | literal text => simp [read?, code, Text.unquote?_quote]
  | word name =>
      obtain ⟨hne, hword⟩ := h
      obtain ⟨first, more, hname⟩ := List.exists_cons_of_ne_nil
        (fun hnil => hne (String.toList_eq_nil_iff.mp hnil))
      have hfirst : ¬ (first == Text.Quoted.mark) = true := by
        intro hmark
        have hmarked := hword first (by simp [hname])
        rw [beq_iff_eq.mp hmark] at hmarked
        exact absurd hmarked (by decide)
      have htake : (name.toList ++ c :: rest).takeWhile isWordChar = name.toList := by
        rw [List.takeWhile_append_of_pos hword, List.takeWhile_cons_of_neg (by simp [hc]),
          List.append_nil]
      have hdrop : (name.toList ++ c :: rest).dropWhile isWordChar = c :: rest := by
        rw [List.dropWhile_append_of_pos hword, List.dropWhile_cons_of_neg (by simp [hc])]
      have hnone : Text.unquote? (name.toList ++ c :: rest) = none := by
        rw [hname, List.cons_append, Text.unquote?, if_neg hfirst]
      rw [read?, code, hnone, htake, hdrop, hname]
      dsimp only
      rw [← hname, String.ofList_toList]

end Pattern

/-- An arm of a `match` expression. -/
structure Arm where
  patterns : List Pattern
  result : String
deriving Repr, DecidableEq

/-- The patterns at the front of an arm, and what follows the arrow. -/
def readPatterns? : (fuel : Nat) → List Char → Option (List Pattern × List Char)
  | 0, _ => none
  | fuel + 1, cs =>
    match Pattern.read? cs with
    | some (pattern, ',' :: ' ' :: rest) =>
      (readPatterns? fuel rest).map fun (patterns, result) => (pattern :: patterns, result)
    | some (pattern, ' ' :: '=' :: '>' :: ' ' :: rest) => some ([pattern], rest)
    | _ => none

/-- Patterns are read back up to the arrow. -/
theorem readPatterns?_code {patterns : List Pattern} (hne : patterns ≠ [])
    (h : ∀ pattern ∈ patterns, pattern.Readable) {fuel : Nat} (hfuel : patterns.length ≤ fuel)
    (rest : List Char) :
    readPatterns? fuel ((joinWith ", " (patterns.map Pattern.code)).toList ++
      (" => ".toList ++ rest)) = some (patterns, rest) := by
  induction patterns generalizing fuel with
  | nil => exact absurd rfl hne
  | cons pattern patterns ih =>
      obtain ⟨hpattern, hothers⟩ := List.forall_mem_cons.mp h
      obtain ⟨fuel, rfl⟩ : ∃ n, fuel = n + 1 := ⟨fuel - 1, by simp at hfuel; omega⟩
      cases patterns with
      | nil =>
          rw [List.map_singleton, Text.joinWith_singleton, readPatterns?]
          simp [Pattern.read?_code hpattern (c := ' ') ('=' :: '>' :: ' ' :: rest) (by decide)]
      | cons next patterns =>
          have hless : (next :: patterns).length ≤ fuel := by simpa using hfuel
          have ih := ih (by simp) hothers hless
          rw [List.map_cons, Text.joinWith_cons (by simp), String.toList_append,
            String.toList_append, List.append_assoc, List.append_assoc, readPatterns?]
          generalize (joinWith ", " ((next :: patterns).map Pattern.code)).toList ++
            (" => ".toList ++ rest) = more at ih ⊢
          have hread := Pattern.read?_code hpattern (c := ',') (' ' :: more) (by decide)
          simp only [String.reduceToList, List.cons_append, List.nil_append, hread, ih]
          rfl

namespace Arm

/-- The code of an arm. -/
def code (arm : Arm) : String :=
  joinWith ", " (arm.patterns.map Pattern.code) ++ " => " ++ arm.result ++ ","

/-- An arm has patterns, and they are readable. -/
structure Readable (arm : Arm) : Prop where
  nonempty : arm.patterns ≠ []
  patterns : ∀ pattern ∈ arm.patterns, pattern.Readable

/-- The arm on a line. There are no more patterns than characters. -/
def read? (line : String) : Option Arm :=
  match readPatterns? line.length line.toList with
  | none => none
  | some (patterns, cs) =>
    if cs.getLast? = some ',' then some { patterns, result := String.ofList cs.dropLast } else none

/-- There is at most one pattern more than characters. -/
theorem length_patterns_le (pieces : List String) :
    pieces.length ≤ (joinWith ", " pieces).length + 1 := by
  induction pieces with
  | nil => simp
  | cons piece pieces ih =>
      cases pieces with
      | nil => simp
      | cons next pieces =>
          have hsep : ", ".length = 2 := rfl
          rw [Text.joinWith_cons (by simp), String.length_append, String.length_append,
            List.length_cons, hsep]
          omega

/-- An arm is read as it was written. -/
theorem read?_code {arm : Arm} (h : arm.Readable) : read? arm.code = some arm := by
  have hchars : arm.code.toList = (joinWith ", " (arm.patterns.map Pattern.code)).toList ++
      (" => ".toList ++ (arm.result.toList ++ [','])) := by
    simp [code]
  have hfuel : arm.patterns.length ≤ arm.code.length := by
    have hle := length_patterns_le (arm.patterns.map Pattern.code)
    rw [List.length_map] at hle
    have hcomma : ",".length = 1 := rfl
    rw [code, String.length_append, hcomma, String.length_append, String.length_append]
    omega
  rw [read?, hchars, readPatterns?_code h.nonempty h.patterns hfuel]
  simp

end Arm

/-! ## expressions -/

/-- The arm that a statement is. -/
def Stmt.arm? : Stmt → Option Arm
  | .line [.text code] => Arm.read? code
  | _ => none

/-- The arms of a `match` expression with a head. -/
def Stmt.arms? (head : String) : Stmt → Option (List Arm)
  | .braced [.text opening] _ body =>
    if opening == head ++ " \x7b" then body.mapM Stmt.arm? else none
  | _ => none

/-- The arms of an expression are read as they were written. -/
theorem Stmt.arms?_matching (head : String) {arms : List Arm} (h : ∀ arm ∈ arms, arm.Readable) :
    (Stmt.matching head (arms.map fun arm => .plain arm.code)).arms? head = some arms := by
  have hread : (arms.map fun arm => Stmt.plain arm.code).mapM Stmt.arm? = some arms := by
    induction arms with
    | nil => rfl
    | cons arm arms ih =>
        obtain ⟨harm, hothers⟩ := List.forall_mem_cons.mp h
        have hfirst : (Stmt.plain arm.code).arm? = some arm := Arm.read?_code harm
        rw [List.map_cons, List.mapM_cons, hfirst, ih hothers]
        rfl
  simp [Stmt.matching, arms?, hread]

/-- The string that a pattern stands for, where words may stand for constants. -/
def Pattern.value? (constant? : String → Option String) : Pattern → Option String
  | .literal text => some text
  | .word name => constant? name

/-- The result of the first arm that has a pattern for a string. -/
def resultFor? (constant? : String → Option String) (arms : List Arm) (s : String) :
    Option String :=
  (arms.find? fun arm => arm.patterns.any (·.value? constant? == some s)).map (·.result)

/-- The result of the arm for everything else. -/
def fallback? (arms : List Arm) : Option String :=
  (arms.find? (·.patterns == [.word "default"])).map (·.result)

end Code

end WebIdl
