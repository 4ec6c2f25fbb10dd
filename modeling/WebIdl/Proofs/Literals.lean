import WebIdl.Proofs.Matching
import WebIdl.Proofs.Scope
import WebIdl.Proofs.Spelling

/-!
# WebIdl.Proofs.Literals

What the code of a literal is read as.

A number is copied if it is accepted, and what is accepted is spelled out as an expression
(`isNumeral_iff`): a sign, then a number in base sixteen, or digits with a fraction and an
exponent or without.  These are the numeric tokens of WebIDL and one family more, digits after
a zero of which one is not octal (`magnitudes_eq`).  Tokens are numeric literals of PHP, and
the others are not:

* `number_is_copied_iff`: which numbers are copied, and which of them can be read.

How quoted texts are read is given by rules (`Text.Quoted.Reads`), which leave no choice:

* `quoted_texts_are_read_back`: a quoted text is read as the text, whatever follows it.
-/

namespace WebIdl

/-! ## quoted texts -/

namespace Text

namespace Quoted

/-- How code is read after the quote that opens a literal, with the text that it stands for and
what follows.  A backslash before a backslash or a quote announces it, any other backslash
stands for itself, and the first quote that is not announced ends the literal. -/
inductive Reads : List Char → List Char → List Char → Prop
  | ends (rest : List Char) : Reads (mark :: rest) [] rest
  | backslash {code text rest : List Char} (h : Reads code text rest) :
      Reads ('\\' :: '\\' :: code) ('\\' :: text) rest
  | announced {code text rest : List Char} (h : Reads code text rest) :
      Reads ('\\' :: mark :: code) (mark :: text) rest
  | itself {c : Char} {code text rest : List Char} (hslash : c ≠ '\\') (hmark : c ≠ mark)
      (h : Reads (c :: code) text rest) : Reads ('\\' :: c :: code) ('\\' :: text) rest
  | plain {c : Char} {code text rest : List Char} (hslash : c ≠ '\\') (hmark : c ≠ mark)
      (h : Reads code text rest) : Reads (c :: code) (c :: text) rest

theorem needsEscape_iff {c : Char} : needsEscape c = true ↔ c = '\\' ∨ c = mark := by
  simp [needsEscape]

/-- Reading follows the rules. -/
theorem reads_iff {code text rest : List Char} :
    Reads code text rest ↔ unescape code = some (text, rest) := by
  have hslash : ('\\' == mark) = false := by decide
  constructor
  · intro h
    induction h with
    | ends rest =>
        rw [unescape.eq_def]
        simp
    | backslash h ih =>
        rw [unescape.eq_def]
        simp [hslash, needsEscape, ih]
    | announced h ih =>
        rw [unescape.eq_def]
        simp [hslash, needsEscape, ih]
    | itself hc hmark h ih =>
        rw [unescape.eq_def]
        simp [hslash, needsEscape, hc, hmark, ih]
    | plain hc hmark h ih =>
        rw [unescape.eq_def]
        simp [hc, hmark, ih]
  · intro h
    fun_induction unescape code generalizing text rest with
    | case1 => cases h
    | case2 c cs hmark =>
        obtain ⟨rfl, rfl⟩ := Prod.mk.inj (Option.some.inj h)
        rw [beq_iff_eq.mp hmark]
        exact Reads.ends cs
    | case3 c hmark hc d ds hneeds ih =>
        obtain ⟨⟨text, rest⟩, hinside, heq⟩ := Option.map_eq_some_iff.mp h
        obtain ⟨rfl, rfl⟩ := Prod.mk.inj heq
        rw [beq_iff_eq.mp hc]
        rcases needsEscape_iff.mp hneeds with rfl | rfl
        · exact Reads.backslash (ih hinside)
        · exact Reads.announced (ih hinside)
    | case4 c hmark hc d ds hneeds ih =>
        obtain ⟨⟨text, rest⟩, hinside, heq⟩ := Option.map_eq_some_iff.mp h
        obtain ⟨rfl, rfl⟩ := Prod.mk.inj heq
        obtain ⟨hd, hdmark⟩ := not_or.mp (mt needsEscape_iff.mpr hneeds)
        rw [beq_iff_eq.mp hc]
        exact Reads.itself hd hdmark (ih hinside)
    | case5 => cases h
    | case6 c cs hmark hc ih =>
        obtain ⟨⟨text, rest⟩, hinside, heq⟩ := Option.map_eq_some_iff.mp h
        obtain ⟨rfl, rfl⟩ := Prod.mk.inj heq
        exact Reads.plain (by simpa using hc) (by simpa using hmark) (ih hinside)

end Quoted

/-- How a literal at the front of some code is read. -/
def ReadsLiteral (code text rest : List Char) : Prop :=
  ∃ inside, code = Quoted.mark :: inside ∧ Quoted.Reads inside text rest

/-- Reading a literal follows the rules. -/
theorem readsLiteral_iff {code text rest : List Char} :
    ReadsLiteral code text rest ↔ unquote? code = some (text, rest) := by
  constructor
  · rintro ⟨inside, rfl, h⟩
    rw [unquote?, if_pos (beq_self_eq_true _)]
    exact Quoted.reads_iff.mp h
  · intro h
    cases code with
    | nil => cases h
    | cons c inside =>
        rw [unquote?] at h
        split at h
        next hmark => exact ⟨inside, by rw [beq_iff_eq.mp hmark], Quoted.reads_iff.mpr h⟩
        next => cases h

/-- A quoted text is read as the text only, and reading stops right behind it. -/
theorem readsLiteral_quote (s : String) (rest text rest' : List Char) :
    ReadsLiteral ((quote s).toList ++ rest) text rest' ↔ text = s.toList ∧ rest' = rest := by
  rw [readsLiteral_iff, unquote?_quote, Option.some.injEq, Prod.mk.injEq]
  simp only [eq_comm]

/-- No two texts are quoted alike. -/
theorem quote_injective : Function.Injective quote := by
  intro s s' h
  have hread := (readsLiteral_quote s [] s.toList []).mpr ⟨rfl, rfl⟩
  rw [h, readsLiteral_quote] at hread
  exact String.toList_inj.mp hread.1

end Text

namespace Code

open WebIdl.Spelling
open WebIdl.Text (isDigit isHexDigit quote ReadsLiteral)
open RegularExpression (char)

/-- **Quoted texts are read back.**  A quoted text is read as the text, and reading stops right
behind it, whatever follows; so no two texts are quoted alike.  String literals are quoted the
same way as all other texts. -/
theorem quoted_texts_are_read_back :
    (∀ (s : String) (rest text rest' : List Char),
      ReadsLiteral ((quote s).toList ++ rest) text rest' ↔ text = s.toList ∧ rest' = rest) ∧
    Function.Injective quote ∧
    ∀ s, literalText (.string s) = .ok (quote s) :=
  ⟨Text.readsLiteral_quote, Text.quote_injective, fun _ => rfl⟩

/-! ## numbers of WebIDL -/

namespace Numeral

def digit : RegularExpression Char := oneOf "0123456789"
def octalDigit : RegularExpression Char := oneOf "01234567"
def hexDigit : RegularExpression Char := oneOf "0123456789ABCDEFabcdef"

/-- An exponent: `[eE][+-]?[0-9]+`. -/
def exponent : RegularExpression Char :=
  oneOf "eE" * (maybe (oneOf "+-") * repeated digit)

/-- A number in base sixteen: `0[xX][0-9A-Fa-f]+`. -/
def hexNumber : RegularExpression Char :=
  char '0' * (oneOf "xX" * repeated hexDigit)

/-- An integer: `[1-9][0-9]*|0[xX][0-9A-Fa-f]+|0[0-7]*`. -/
def integer : RegularExpression Char :=
  oneOf "123456789" * digit.star + hexNumber + char '0' * octalDigit.star

/-- Digits around a point: `[0-9]+\.[0-9]*|[0-9]*\.[0-9]+`. -/
def pointed : RegularExpression Char :=
  repeated digit * (char '.' * digit.star) + digit.star * (char '.' * repeated digit)

/-- A decimal: `([0-9]+\.[0-9]*|[0-9]*\.[0-9]+)([eE][+-]?[0-9]+)?|[0-9]+[eE][+-]?[0-9]+`. -/
def decimal : RegularExpression Char :=
  pointed * maybe exponent + repeated digit * exponent

/-- The numeric tokens of WebIDL: integers and decimals, with a minus sign or without one. -/
def token : RegularExpression Char :=
  signed (integer + decimal)

/-- Digits after a zero, of which one is not octal: `0[0-9]*[89][0-9]*`. -/
def strayOctal : RegularExpression Char :=
  char '0' * (digit.star * (oneOf "89" * digit.star))

/-! ## what is accepted -/

/-- Digits in base sixteen are ASCII characters. -/
theorem ascii_of_isHexDigit {c : Char} (h : isHexDigit c = true) : c.toNat < 128 := by
  have hle : c.toNat ≤ '9'.toNat ∨ c.toNat ≤ 'f'.toNat ∨ c.toNat ≤ 'F'.toNat := by
    simp only [isHexDigit, isDigit, Bool.or_eq_true, Bool.and_eq_true, decide_eq_true_eq] at h
    rcases h with (⟨-, h⟩ | ⟨-, h⟩) | ⟨-, h⟩
    · exact Or.inl h
    · exact Or.inr (Or.inl h)
    · exact Or.inr (Or.inr h)
  have hlast : '9'.toNat < 128 ∧ 'f'.toNat < 128 ∧ 'F'.toNat < 128 := by decide
  omega

/-- A class of ASCII characters is given by a list of them. -/
theorem class_iff {p : Char → Bool} {chars : String} (hascii : ∀ c, p c = true → c.toNat < 128)
    (hlisted : ∀ n : Fin 128, p (Char.ofNat n) = true → Char.ofNat n ∈ chars.toList)
    (hchars : chars.toList.all p = true) {c : Char} : p c = true ↔ c ∈ chars.toList := by
  constructor
  · intro h
    exact Scope.of_ascii (P := fun c => p c = true → c ∈ chars.toList) hlisted (hascii c h) h
  · exact List.all_eq_true.mp hchars c

theorem isHexDigit_iff {c : Char} : isHexDigit c = true ↔ c ∈ "0123456789ABCDEFabcdef".toList :=
  class_iff (fun _ => ascii_of_isHexDigit) (by decide +kernel) (by decide +kernel)

theorem isDigit_iff {c : Char} : isDigit c = true ↔ c ∈ "0123456789".toList :=
  class_iff (fun _ h => ascii_of_isHexDigit (by simp [isHexDigit, h])) (by decide +kernel)
    (by decide +kernel)

theorem mem_digits {w : List Char} :
    w ∈ digit.star.matches' ↔ ∀ c ∈ w, isDigit c = true := by
  simp only [digit, mem_star_oneOf, isDigit_iff]

theorem mem_repeated_digit {w : List Char} :
    w ∈ (repeated digit).matches' ↔ w ≠ [] ∧ ∀ c ∈ w, isDigit c = true := by
  simp only [digit, mem_repeated_oneOf, isDigit_iff]

/-- What is taken for digits are digits, one or more. -/
theorem areDigits_iff {w : List Char} : areDigits w = true ↔ w ∈ (repeated digit).matches' := by
  simp [areDigits, mem_repeated_digit]

theorem areDigits_afterSign_iff {w : List Char} :
    areDigits (afterSign w) = true ↔ w ∈ (maybe (oneOf "+-") * repeated digit).matches' := by
  rw [areDigits_iff, mem_mul]
  constructor
  · intro h
    unfold afterSign at h
    split at h
    next rest => exact ⟨['+'], by decide, rest, h, rfl⟩
    next rest => exact ⟨['-'], by decide, rest, h, rfl⟩
    next => exact ⟨[], by decide, w, h, rfl⟩
  · rintro ⟨u, hu, v, hv, rfl⟩
    rcases mem_maybe.mp hu with rfl | hu
    · -- digits do not start with a sign
      obtain ⟨hne, hdigits⟩ := mem_repeated_digit.mp hv
      obtain ⟨c, v, rfl⟩ := List.exists_cons_of_ne_nil hne
      have hc := hdigits c List.mem_cons_self
      have hplus : c ≠ '+' := by rintro rfl; exact absurd hc (by decide)
      have hminus : c ≠ '-' := by rintro rfl; exact absurd hc (by decide)
      simpa [afterSign, hplus, hminus] using hv
    · obtain ⟨c, hc, rfl⟩ := mem_oneOf.mp hu
      simp only [String.reduceToList, List.mem_cons, List.not_mem_nil, or_false] at hc
      rcases hc with rfl | rfl
      · exact hv
      · exact hv

/-- What is taken for an exponent is one, or nothing. -/
theorem isExponent_iff {w : List Char} :
    isExponent w = true ↔ w ∈ (maybe exponent).matches' := by
  rw [mem_maybe, exponent, mem_oneOf_mul]
  cases w with
  | nil => simp [isExponent]
  | cons mark rest =>
      have hmark : mark = 'e' ∨ mark = 'E' ↔ mark ∈ "eE".toList := by simp
      rw [isExponent, Bool.and_eq_true, areDigits_afterSign_iff, Bool.or_eq_true, beq_iff_eq,
        beq_iff_eq, hmark]
      constructor
      · rintro ⟨hmark, hrest⟩
        exact Or.inr ⟨mark, hmark, rest, hrest, rfl⟩
      · rintro (hnil | ⟨c, hc, v, hv, heq⟩)
        · cases hnil
        · obtain ⟨rfl, rfl⟩ := List.cons.inj heq
          exact ⟨hc, hv⟩

/-- Digits with a fraction or without one, then an exponent or none. -/
def decimalNumber : RegularExpression Char :=
  (repeated digit + pointed) * maybe exponent

/-- An exponent goes on neither with a digit nor with a point. -/
theorem head_of_isExponent {w : List Char} (h : isExponent w = true) :
    ∀ c ∈ w.head?, isDigit c = false ∧ c ≠ '.' := by
  cases w with
  | nil => simp
  | cons mark rest =>
      obtain ⟨rfl | rfl, -⟩ : (mark = 'e' ∨ mark = 'E') ∧ _ := by simpa [isExponent] using h
      · simp [isDigit]
      · simp [isDigit]

/-- Digits end where something else goes on. -/
theorem span_digits {digits rest : List Char} (hdigits : ∀ c ∈ digits, isDigit c = true)
    (hrest : ∀ c ∈ rest.head?, isDigit c = false) :
    (digits ++ rest).span isDigit = (digits, rest) := by
  rw [List.span_eq_takeWhile_dropWhile, List.takeWhile_append_of_pos hdigits,
    List.dropWhile_append_of_pos hdigits]
  cases rest with
  | nil => simp
  | cons c rest =>
      have hc : isDigit c = false := hrest c rfl
      simp [hc]

/-- Digits and an exponent are taken for a decimal number. -/
theorem isDecimal_whole {whole rest : List Char} (hwhole : ∀ c ∈ whole, isDigit c = true)
    (hne : whole ≠ []) (hrest : isExponent rest = true) : isDecimal (whole ++ rest) = true := by
  have hspan := span_digits hwhole fun c hc => (head_of_isExponent hrest c hc).1
  have hpoint : ∀ more, rest ≠ '.' :: more := by
    rintro more rfl
    exact (head_of_isExponent hrest '.' rfl).2 rfl
  rw [isDecimal, hspan]
  dsimp only
  split
  next more => exact absurd rfl (hpoint more)
  next => simp [hne, hrest]

theorem isDecimal_pointed {whole fraction rest : List Char}
    (hwhole : ∀ c ∈ whole, isDigit c = true) (hfraction : ∀ c ∈ fraction, isDigit c = true)
    (hne : whole ≠ [] ∨ fraction ≠ []) (hrest : isExponent rest = true) :
    isDecimal (whole ++ '.' :: (fraction ++ rest)) = true := by
  have hspan : (whole ++ '.' :: (fraction ++ rest)).span isDigit =
      (whole, '.' :: (fraction ++ rest)) := span_digits hwhole (by simp [isDigit])
  have hspan' := span_digits hfraction fun c hc => (head_of_isExponent hrest c hc).1
  rw [isDecimal, hspan]
  simp only [hspan']
  simpa [hrest, ← not_and_or] using hne

/-- What is accepted as a decimal number. -/
theorem isDecimal_cases {w : List Char} (h : isDecimal w = true) :
    ∃ whole rest, (∀ c ∈ whole, isDigit c = true) ∧ isExponent rest = true ∧
      (whole ≠ [] ∧ w = whole ++ rest ∨
        ∃ fraction, (∀ c ∈ fraction, isDigit c = true) ∧ (whole ≠ [] ∨ fraction ≠ []) ∧
          w = whole ++ '.' :: (fraction ++ rest)) := by
  have hsplit : w.takeWhile isDigit ++ w.dropWhile isDigit = w := List.takeWhile_append_dropWhile
  have hwhole : ∀ c ∈ w.takeWhile isDigit, isDigit c = true := fun c => List.mem_takeWhile_imp
  rw [isDecimal, List.span_eq_takeWhile_dropWhile] at h
  dsimp only at h
  split at h
  next more hmore =>
    rw [List.span_eq_takeWhile_dropWhile] at h
    dsimp only at h
    obtain ⟨hne, hrest⟩ := Bool.and_eq_true_iff.mp h
    refine ⟨_, _, hwhole, hrest, Or.inr ⟨more.takeWhile isDigit, fun c => List.mem_takeWhile_imp,
      ?_, ?_⟩⟩
    · simpa [← not_and_or] using hne
    · rw [List.takeWhile_append_dropWhile, ← hmore, hsplit]
  next =>
    obtain ⟨hne, hrest⟩ := Bool.and_eq_true_iff.mp h
    exact ⟨_, _, hwhole, hrest, Or.inl ⟨by simpa using hne, hsplit.symm⟩⟩

/-- What is taken for a decimal number is one. -/
theorem isDecimal_iff {w : List Char} : isDecimal w = true ↔ w ∈ decimalNumber.matches' := by
  rw [decimalNumber, mem_mul]
  constructor
  · intro h
    obtain ⟨whole, rest, hwhole, hrest, ⟨hne, rfl⟩ | ⟨fraction, hfraction, hne, rfl⟩⟩ :=
      isDecimal_cases h
    · exact ⟨whole, mem_add.mpr (Or.inl (mem_repeated_digit.mpr ⟨hne, hwhole⟩)), rest,
        isExponent_iff.mp hrest, rfl⟩
    · refine ⟨whole ++ '.' :: fraction, mem_add.mpr (Or.inr ?_), rest, isExponent_iff.mp hrest,
        by simp⟩
      rw [pointed, mem_add, mem_mul, mem_mul]
      rcases hne with hne | hne
      · exact Or.inl ⟨whole, mem_repeated_digit.mpr ⟨hne, hwhole⟩, _,
          mem_char_mul.mpr ⟨fraction, mem_digits.mpr hfraction, rfl⟩, rfl⟩
      · exact Or.inr ⟨whole, mem_digits.mpr hwhole, _,
          mem_char_mul.mpr ⟨fraction, mem_repeated_digit.mpr ⟨hne, hfraction⟩, rfl⟩, rfl⟩
  · rintro ⟨u, hu, rest, hrest, rfl⟩
    have hrest := isExponent_iff.mpr hrest
    rw [pointed, mem_add, mem_add, mem_mul, mem_mul] at hu
    rcases hu with hu | ⟨whole, hwhole, v, hv, rfl⟩ | ⟨whole, hwhole, v, hv, rfl⟩
    · obtain ⟨hne, hwhole⟩ := mem_repeated_digit.mp hu
      exact isDecimal_whole hwhole hne hrest
    · obtain ⟨fraction, hfraction, rfl⟩ := mem_char_mul.mp hv
      obtain ⟨hne, hwhole⟩ := mem_repeated_digit.mp hwhole
      simpa using isDecimal_pointed hwhole (mem_digits.mp hfraction) (Or.inl hne) hrest
    · obtain ⟨fraction, hfraction, rfl⟩ := mem_char_mul.mp hv
      obtain ⟨hne, hfraction⟩ := mem_repeated_digit.mp hfraction
      simpa using isDecimal_pointed (mem_digits.mp hwhole) hfraction (Or.inr hne) hrest

/-- A number in base sixteen is a zero, a letter and digits. -/
theorem mem_hexNumber {w : List Char} :
    w ∈ hexNumber.matches' ↔ ∃ c rest, (c = 'x' ∨ c = 'X') ∧ rest ≠ [] ∧
      (∀ d ∈ rest, isHexDigit d = true) ∧ w = '0' :: c :: rest := by
  rw [hexNumber, mem_char_mul]
  constructor
  · rintro ⟨v, hv, rfl⟩
    obtain ⟨c, hc, rest, hrest, rfl⟩ := mem_oneOf_mul.mp hv
    obtain ⟨hne, hdigits⟩ := mem_repeated_oneOf.mp hrest
    exact ⟨c, rest, by simpa using hc, hne, fun d hd => isHexDigit_iff.mpr (hdigits d hd), rfl⟩
  · rintro ⟨c, rest, hc, hne, hdigits, rfl⟩
    refine ⟨c :: rest, mem_oneOf_mul.mpr ⟨c, by simpa using hc, rest, ?_, rfl⟩, rfl⟩
    exact mem_repeated_oneOf.mpr ⟨hne, fun d hd => isHexDigit_iff.mp (hdigits d hd)⟩

/-- Without a sign, what is accepted is a number in base sixteen or a decimal one. -/
theorem isMagnitude_iff {w : List Char} :
    isMagnitude w = true ↔ w ∈ (hexNumber + decimalNumber).matches' := by
  rw [mem_add, mem_hexNumber, ← isDecimal_iff]
  unfold isMagnitude
  split
  next rest =>
    have hdecimal : isDecimal ('0' :: 'x' :: rest) = false := by
      simp [isDecimal, List.span_eq_takeWhile_dropWhile, isDigit, isExponent]
    simp [hdecimal]
  next rest =>
    have hdecimal : isDecimal ('0' :: 'X' :: rest) = false := by
      simp [isDecimal, List.span_eq_takeWhile_dropWhile, isDigit, isExponent]
    simp [hdecimal]
  next hlower hupper =>
    constructor
    · exact Or.inr
    · rintro (⟨c, rest, rfl | rfl, -, -, rfl⟩ | h)
      · exact absurd rfl (hlower rest)
      · exact absurd rfl (hupper rest)
      · exact h

/-- What is accepted may have a minus sign in front. -/
theorem isNumeral_iff {spelling : String} :
    isNumeral spelling = true ↔ Fits (signed (hexNumber + decimalNumber)) spelling := by
  unfold isNumeral Fits
  split
  next rest hchars => rw [hchars, isMagnitude_iff, cons_mem_signed (by decide +kernel)]
  next hother =>
    rw [isMagnitude_iff, mem_signed_of_head]
    intro hhead
    obtain ⟨rest, hrest⟩ := List.head?_eq_some_iff.mp hhead
    exact hother rest hrest

/-! ## tokens, and what is accepted beside them -/

/-- A stray octal number is a zero and digits, of which one is not octal. -/
theorem mem_strayOctal {w : List Char} :
    w ∈ strayOctal.matches' ↔ ∃ v, (∀ c ∈ v, isDigit c = true) ∧
      (∃ c ∈ v, c ∈ "89".toList) ∧ w = '0' :: v := by
  rw [strayOctal, mem_char_mul]
  constructor
  · rintro ⟨v, hv, rfl⟩
    refine ⟨v, ?_⟩
    obtain ⟨before, hbefore, u, hu, rfl⟩ := mem_mul.mp hv
    obtain ⟨c, hc, after, hafter, rfl⟩ := mem_oneOf_mul.mp hu
    have hdigit : isDigit c = true := by
      rcases (by simpa using hc : c = '8' ∨ c = '9') with rfl | rfl
      · rfl
      · rfl
    refine ⟨?_, ⟨c, by simp, hc⟩, rfl⟩
    rw [List.forall_mem_append, List.forall_mem_cons]
    exact ⟨mem_digits.mp hbefore, hdigit, mem_digits.mp hafter⟩
  · rintro ⟨v, hv, ⟨c, hmem, hc⟩, rfl⟩
    obtain ⟨before, after, rfl⟩ := List.append_of_mem hmem
    rw [List.forall_mem_append, List.forall_mem_cons] at hv
    exact ⟨_, mem_mul.mpr ⟨before, mem_digits.mpr hv.1, _,
      mem_oneOf_mul.mpr ⟨c, hc, after, mem_digits.mpr hv.2.2, rfl⟩, rfl⟩, rfl⟩

/-- Digits start with one that is not zero, or are octal after a zero, or are not. -/
theorem repeated_digit_eq : (repeated digit).matches' =
    (oneOf "123456789" * digit.star + char '0' * octalDigit.star + strayOctal).matches' := by
  have hzero : ∀ c, isDigit c = true ↔ c ∈ "123456789".toList ∨ c = '0' := by
    simp [isDigit_iff, or_comm]
  have hoctal : ∀ c, isDigit c = true ↔ c ∈ "01234567".toList ∨ c ∈ "89".toList := by
    simp [isDigit_iff, or_assoc]
  ext w
  rw [mem_repeated_digit, mem_add, mem_add, mem_oneOf_mul, mem_char_mul, mem_strayOctal]
  simp only [mem_digits, octalDigit, mem_star_oneOf]
  constructor
  · rintro ⟨hne, hw⟩
    obtain ⟨c, v, rfl⟩ := List.exists_cons_of_ne_nil hne
    obtain ⟨hc, hv⟩ := List.forall_mem_cons.mp hw
    rcases (hzero c).mp hc with hc | rfl
    · exact Or.inl (Or.inl ⟨c, hc, v, hv, rfl⟩)
    · by_cases hall : ∀ d ∈ v, d ∈ "01234567".toList
      · exact Or.inl (Or.inr ⟨v, hall, rfl⟩)
      · push Not at hall
        obtain ⟨d, hd, hstray⟩ := hall
        exact Or.inr ⟨v, hv, ⟨d, hd, ((hoctal d).mp (hv d hd)).resolve_left hstray⟩, rfl⟩
  · rintro ((⟨c, hc, v, hv, rfl⟩ | ⟨v, hv, rfl⟩) | ⟨v, hv, -, rfl⟩)
    · exact ⟨List.cons_ne_nil c v, List.forall_mem_cons.mpr ⟨(hzero c).mpr (Or.inl hc), hv⟩⟩
    · exact ⟨List.cons_ne_nil _ v, List.forall_mem_cons.mpr
        ⟨rfl, fun d hd => (hoctal d).mpr (Or.inl (hv d hd))⟩⟩
    · exact ⟨List.cons_ne_nil _ v, List.forall_mem_cons.mpr ⟨rfl, hv⟩⟩

/-- Without a sign, what is accepted is an integer, a decimal or a stray octal number. -/
theorem magnitudes_eq : (hexNumber + decimalNumber).matches' =
    (integer + decimal + strayOctal).matches' := by
  have hdigits := repeated_digit_eq
  simp only [decimalNumber, integer, decimal, maybe, RegularExpression.matches'_add,
    RegularExpression.matches'_mul, RegularExpression.matches'_epsilon, add_mul, mul_add,
    mul_one] at hdigits ⊢
  rw [hdigits]
  abel

/-- What is accepted is a token or a stray octal number. -/
theorem isNumeral_iff_token_or_stray {spelling : String} :
    isNumeral spelling = true ↔ Fits token spelling ∨ Fits (signed strayOctal) spelling := by
  have hparts : (signed (hexNumber + decimalNumber)).matches' =
      (token + signed strayOctal).matches' := by
    rw [signed, RegularExpression.matches'_mul, magnitudes_eq]
    exact mul_add _ _ _
  rw [isNumeral_iff, Fits, hparts]
  exact mem_add

/-! ## numeric literals of PHP -/

/-- Digits in groups: `[0-9]+(_[0-9]+)*`, in any base. -/
def grouped (r : RegularExpression Char) : RegularExpression Char :=
  repeated r * (char '_' * repeated r).star

/-- Integers of PHP: decimal ones, zero, and those in base sixteen, eight and two.  In base
eight a letter may follow the zero, and so may the first separator, as in `0_7`. -/
def phpInteger : RegularExpression Char :=
  oneOf "123456789" * (digit.star * (char '_' * repeated digit).star) + char '0' +
    char '0' * (oneOf "xX" * grouped hexDigit) +
    char '0' * (maybe (oneOf "oO_") * grouped octalDigit) +
    char '0' * (oneOf "bB" * grouped (oneOf "01"))

def phpPointed : RegularExpression Char :=
  grouped digit * (char '.' * maybe (grouped digit)) +
    maybe (grouped digit) * (char '.' * grouped digit)

def phpExponent : RegularExpression Char :=
  oneOf "eE" * (maybe (oneOf "+-") * grouped digit)

/-- Floating-point numbers of PHP: with a point, an exponent or both. -/
def phpFloat : RegularExpression Char :=
  phpPointed + (grouped digit + phpPointed) * phpExponent

/-- Numeric literals of PHP, with a minus sign or without one. -/
def phpNumber : RegularExpression Char :=
  signed (phpInteger + phpFloat)

/-- Digits may be grouped. -/
theorem repeated_le_grouped (r : RegularExpression Char) :
    (repeated r).matches' ≤ (grouped r).matches' :=
  le_mul_star _ _

/-- Digits, or none, are groups of digits, or none. -/
theorem star_le_maybe_grouped (r : RegularExpression Char) :
    r.star.matches' ≤ (maybe (grouped r)).matches' := by
  have hstar : r.star.matches' = 1 + (repeated r).matches' :=
    (Language.one_add_self_mul_kstar_eq_kstar r.matches').symm
  rw [hstar]
  exact add_le_add_right (repeated_le_grouped r) 1

/-- Integers of WebIDL are integers of PHP. -/
theorem phpInteger_of_integer {w : List Char} (hw : w ∈ integer.matches') :
    w ∈ phpInteger.matches' := by
  simp only [phpInteger, mem_add]
  rcases mem_add.mp hw with hw | hw
  · rcases mem_add.mp hw with hw | hw
    · obtain ⟨c, hc, v, hv, rfl⟩ := mem_oneOf_mul.mp hw
      have hv := le_mul_star digit.star (char '_' * repeated digit) hv
      exact Or.inl (Or.inl (Or.inl (Or.inl (mem_oneOf_mul.mpr ⟨c, hc, v, hv, rfl⟩))))
    · obtain ⟨u, hu, rfl⟩ := mem_char_mul.mp hw
      obtain ⟨c, hc, v, hv, rfl⟩ := mem_oneOf_mul.mp hu
      have hv := repeated_le_grouped hexDigit hv
      exact Or.inl (Or.inl (Or.inr (mem_char_mul.mpr
        ⟨_, mem_oneOf_mul.mpr ⟨c, hc, v, hv, rfl⟩, rfl⟩)))
  · obtain ⟨v, hv, rfl⟩ := mem_char_mul.mp hw
    rcases mem_maybe.mp (star_le_maybe_grouped octalDigit hv) with rfl | hv
    · exact Or.inl (Or.inl (Or.inl (Or.inr (mem_char.mpr rfl))))
    · exact Or.inl (Or.inr (mem_char_mul.mpr
        ⟨v, mem_mul.mpr ⟨[], mem_maybe.mpr (Or.inl rfl), v, hv, rfl⟩, rfl⟩))

/-- Decimals of WebIDL are floating-point numbers of PHP. -/
theorem decimal_le : decimal.matches' ≤ phpFloat.matches' := by
  have hdigits := repeated_le_grouped digit
  have hmore := star_le_maybe_grouped digit
  have hpointed : pointed.matches' ≤ phpPointed.matches' :=
    add_le_add (mul_le_mul' hdigits (mul_le_mul' le_rfl hmore))
      (mul_le_mul' hmore (mul_le_mul' le_rfl hdigits))
  have hexponent : exponent.matches' ≤ phpExponent.matches' :=
    mul_le_mul' le_rfl (mul_le_mul' le_rfl hdigits)
  calc decimal.matches'
      = pointed.matches' + ((repeated digit).matches' + pointed.matches') * exponent.matches' := by
        simp only [decimal, maybe, RegularExpression.matches'_add,
          RegularExpression.matches'_mul, RegularExpression.matches'_epsilon, add_mul, mul_add,
          mul_one]
        abel
    _ ≤ phpFloat.matches' :=
        add_le_add hpointed (mul_le_mul' (add_le_add hdigits hpointed) hexponent)

/-- Spellings of two parts have the characters of the second part. -/
theorem exists_part {r s : RegularExpression Char} {w : List Char} (h : w ∈ (r * s).matches') :
    ∃ v ∈ s.matches', ∀ c ∈ v, c ∈ w := by
  obtain ⟨u, -, v, hv, rfl⟩ := mem_mul.mp h
  exact ⟨v, hv, fun c hc => List.mem_append_right u hc⟩

/-- A floating-point number of PHP has something in it that is not a digit. -/
theorem exists_not_digit_of_phpFloat {w : List Char} (h : w ∈ phpFloat.matches') :
    ∃ c ∈ w, isDigit c = false := by
  have hpoint : ∀ {r s : RegularExpression Char}, w ∈ (r * (char '.' * s)).matches' →
      ∃ c ∈ w, isDigit c = false := by
    intro r s hw
    obtain ⟨v, hv, hsub⟩ := exists_part hw
    obtain ⟨v, -, rfl⟩ := mem_char_mul.mp hv
    exact ⟨'.', hsub '.' List.mem_cons_self, rfl⟩
  rcases mem_add.mp h with h | h
  · rcases mem_add.mp h with h | h
    · exact hpoint h
    · exact hpoint h
  · obtain ⟨v, hv, hsub⟩ := exists_part h
    obtain ⟨c, hc, v, -, rfl⟩ := mem_oneOf_mul.mp hv
    refine ⟨c, hsub c List.mem_cons_self, ?_⟩
    rcases (by simpa using hc : c = 'e' ∨ c = 'E') with rfl | rfl
    · rfl
    · rfl

/-- Where a letter has to follow the zero, digits do not. -/
theorem digits_notMem_lettered {chars : String} {r : RegularExpression Char} {v : List Char}
    (hv : ∀ c ∈ v, isDigit c = true) (hchars : ∀ c ∈ chars.toList, isDigit c = false) :
    '0' :: v ∉ (char '0' * (oneOf chars * r)).matches' := by
  intro hw
  obtain ⟨u, hu, heq⟩ := mem_char_mul.mp hw
  obtain ⟨c, hc, rest, -, rfl⟩ := mem_oneOf_mul.mp hu
  obtain ⟨-, rfl⟩ := List.cons.inj heq
  have hdigit := hv c List.mem_cons_self
  rw [hchars c hc] at hdigit
  cases hdigit

/-- Digits after a zero are no literal if one of them is not octal. -/
theorem strayOctal_not_php {w : List Char} (h : w ∈ strayOctal.matches') :
    w ∉ (phpInteger + phpFloat).matches' := by
  obtain ⟨v, hdigits, ⟨c, hmem, hstray⟩, rfl⟩ := mem_strayOctal.mp h
  intro hw
  rcases mem_add.mp hw with hw | hw
  · simp only [phpInteger, mem_add] at hw
    rcases hw with (((hw | hw) | hw) | hw) | hw
    · exact absurd (mem_heads hw) (by decide +kernel)
    · rw [(List.cons.inj (mem_char.mp hw)).2] at hmem
      cases hmem
    · exact digits_notMem_lettered hdigits (by simp [isDigit]) hw
    · -- the digit that is not octal is none of the characters of an octal number
      obtain ⟨u, hu, heq⟩ := mem_char_mul.mp hw
      obtain ⟨-, rfl⟩ := List.cons.inj heq
      have hoctal := mem_letters hu hmem
      rcases (by simpa using hstray : c = '8' ∨ c = '9') with rfl | rfl
      · exact absurd hoctal (by decide +kernel)
      · exact absurd hoctal (by decide +kernel)
    · exact digits_notMem_lettered hdigits (by simp [isDigit]) hw
  · obtain ⟨d, hd, hother⟩ := exists_not_digit_of_phpFloat hw
    have hall : ∀ d ∈ '0' :: v, isDigit d = true := List.forall_mem_cons.mpr ⟨rfl, hdigits⟩
    rw [hall d hd] at hother
    cases hother

/-- A token is a numeric literal of PHP. -/
theorem phpNumber_of_token {spelling : String} (h : Fits token spelling) :
    Fits phpNumber spelling := by
  refine signed_le (fun w hw => ?_) h
  rcases mem_add.mp hw with hw | hw
  · exact mem_add.mpr (Or.inl (phpInteger_of_integer hw))
  · exact mem_add.mpr (Or.inr (decimal_le hw))

/-- A stray octal number is none, whatever its sign. -/
theorem not_phpNumber_of_stray {spelling : String} (h : Fits (signed strayOctal) spelling) :
    ¬ Fits phpNumber spelling :=
  signed_disjoint (by decide +kernel) (by decide +kernel) (fun _ => strayOctal_not_php) h

/-- **Numbers are copied if they are tokens, or stray octal numbers.**  Every other spelling is
refused.  A token is a numeric literal of PHP as it stands; digits after a zero of which one is
not octal are neither a token nor such a literal, though they are copied. -/
theorem number_is_copied_iff (spelling : String) :
    (literalText (.number spelling) = .ok spelling ↔
      Fits token spelling ∨ Fits (signed strayOctal) spelling) ∧
    (literalText (.number spelling) = .error (.unsupportedLiteral spelling) ↔
      ¬ (Fits token spelling ∨ Fits (signed strayOctal) spelling)) ∧
    (Fits token spelling → Fits phpNumber spelling) ∧
    (Fits (signed strayOctal) spelling →
      ¬ Fits token spelling ∧ ¬ Fits phpNumber spelling) := by
  refine ⟨?_, ?_, phpNumber_of_token, fun h => ?_⟩
  · rw [← isNumeral_iff_token_or_stray, literalText]
    cases isNumeral spelling <;> simp
  · rw [← isNumeral_iff_token_or_stray, literalText]
    cases isNumeral spelling <;> simp
  · have hphp := not_phpNumber_of_stray h
    exact ⟨fun htoken => hphp (phpNumber_of_token htoken), hphp⟩

/-- An eight after a zero is copied, though it is neither a token nor a literal of PHP. -/
theorem eight_after_zero_is_copied :
    literalText (.number "08") = .ok "08" ∧ ¬ Fits token "08" ∧ ¬ Fits phpNumber "08" := by
  decide +kernel

end Numeral

end Code

end WebIdl
