import WebIdl.Proofs.Matching
import WebIdl.Proofs.Renaming
import WebIdl.Proofs.Snapshot

/-!
# WebIdl.Proofs.Enumeration

The class of an enumeration.

The constant of a value is spelled in letters, digits and underscores, and so are its numbered
forms (`isIdentifier_of_spells`); different values have different constants, since all names of
a definition differ.  So the patterns of the cast are read as the constants that they name, and
the constants as the values that they quote: the class accepts the values of the enumeration
and nothing else (`enum_class_accepts_its_values`).
-/

namespace WebIdl

open Relation Text

/-! ## identifiers -/

namespace Identifier

/-- Letters and digits are ASCII. -/
theorem ascii_of_alphanumeric {c : Char} (h : (isLetter c || isDigit c) = true) :
    c.toNat < 128 := by
  have hle : c.toNat ≤ 'z'.toNat ∨ c.toNat ≤ 'Z'.toNat ∨ c.toNat ≤ '9'.toNat := by
    simp only [isLetter, isDigit, Bool.or_eq_true, Bool.and_eq_true, decide_eq_true_eq] at h
    rcases h with (⟨-, h⟩ | ⟨-, h⟩) | ⟨-, h⟩
    · exact Or.inl h
    · exact Or.inr (Or.inl h)
    · exact Or.inr (Or.inr h)
  have hlast : 'z'.toNat < 128 ∧ 'Z'.toNat < 128 ∧ '9'.toNat < 128 := by decide
  omega

/-- The letters of a constant. -/
def letter (c : Char) : Char :=
  if isLetter c || isDigit c then c.toUpper else '_'

/-- A character of a constant's name can stand in an identifier. -/
theorem isIdent_letter (c : Char) : isIdentRest (letter c) = true ∧
    (isDigit c = false → isIdentStart (letter c) = true) := by
  rw [letter]
  split
  next h =>
    have hascii : ∀ n : Fin 128, (isLetter (Char.ofNat n) || isDigit (Char.ofNat n)) = true →
        isIdentRest (Char.ofNat n).toUpper = true ∧
          (isDigit (Char.ofNat n) = false → isIdentStart (Char.ofNat n).toUpper = true) := by
      decide +kernel
    exact Scope.of_ascii (P := fun c => (isLetter c || isDigit c) = true →
      isIdentRest c.toUpper = true ∧ (isDigit c = false → isIdentStart c.toUpper = true))
      hascii (ascii_of_alphanumeric h) h
  next => exact ⟨by decide, fun _ => by decide⟩

/-- A constant's name has one character for each of its value's, and an underscore in front of
a digit. -/
theorem toList_constantName {value : String} {c : Char} {cs : List Char}
    (h : value.toList = c :: cs) : (constantName value).toList =
      (if isDigit c then ['_'] else []) ++ letter c :: cs.map letter := by
  rw [constantName, h]
  simp [letter]

/-- The constant that is wanted for a value is an identifier. -/
theorem isIdentifier_constantName (value : String) : isIdentifier (constantName value) = true := by
  cases hvalue : value.toList with
  | nil =>
      rw [constantName, hvalue]
      decide
  | cons c cs =>
      have hrest : cs.all (isIdentRest ∘ letter) = true := by
        simp [List.all_eq_true, isIdent_letter]
      rw [isIdentifier, toList_constantName hvalue]
      cases hdigit : isDigit c with
      | true => simp [isIdentStart, isIdent_letter]
      | false => simpa [(isIdent_letter c).2 hdigit] using hrest

/-- An identifier is not empty and has no other characters than identifiers can have. -/
theorem isIdentRest_of_isIdentifier {s : String} (h : isIdentifier s = true) :
    s ≠ "" ∧ ∀ c ∈ s.toList, isIdentRest c = true := by
  rw [isIdentifier] at h
  split at h
  · cases h
  next c cs hs =>
    rw [Bool.and_eq_true, List.all_eq_true] at h
    refine ⟨?_, ?_⟩
    · rintro rfl
      cases hs
    · rw [hs]
      exact List.forall_mem_cons.mpr ⟨by simp [isIdentRest, h.1], h.2⟩

/-- A numbered identifier is an identifier. -/
theorem isIdentifier_numbered {wish : String} (h : isIdentifier wish = true) (k : Nat) :
    isIdentifier (Scope.numbered wish k) = true := by
  have hdigits : ∀ c ∈ (toString k).toList, isIdentRest c = true := by
    intro c hc
    rw [Nat.toString_eq_repr, Nat.toList_repr] at hc
    have hdigit : isDigit c = true :=
      Nat.isDigit_of_mem_toDigits (by decide) (by decide) hc
    rw [isIdentRest, hdigit, Bool.or_true]
  have hchars : (Scope.numbered wish k).toList =
      '_' :: ((toString k).toList ++ '_' :: wish.toList) := by
    simp [Scope.numbered]
  rw [isIdentifier, hchars]
  simp only [Bool.and_eq_true, List.all_eq_true, List.mem_append, List.mem_cons]
  refine ⟨by decide, ?_⟩
  rintro c (hc | rfl | hc)
  · exact hdigits c hc
  · decide
  · exact (isIdentRest_of_isIdentifier h).2 c hc

/-- Every spelling of an identifier is one. -/
theorem isIdentifier_of_spells {wish ident : String} (h : isIdentifier wish = true)
    (hspells : Scope.Spells wish ident) : isIdentifier ident = true := by
  rcases hspells with rfl | ⟨k, -, rfl⟩
  · exact h
  · exact isIdentifier_numbered h k

end Identifier

namespace Registry

variable {options : IngestOptions} {nodes : List Node} {r : Registry} {d : Definition}

/-- The constant of a value is an identifier, and not the word that stands for the name of a
class. -/
theorem constant_of_build (h : build options nodes = .ok r) (hd : d ∈ r.definitions)
    {value ident : String} (hentry : r.name? d.name .enumValue value = some ident) :
    isIdentifier ident = true ∧ sameIgnoringCase ident "class" = false := by
  obtain ⟨hsettled, -⟩ := settled_of_build h
  have hname := resolved_of_reaches h hd ReflTransGen.refl
  obtain ⟨origin, hpath, hmem, -⟩ :=
    Resolver.Settled.source (wellFormed_of_build h) hsettled hname hentry
  have horigin := hsettled.reaches hname hpath
  obtain ⟨key, wish, hwish, hspells⟩ := hsettled.spelled horigin hmem
  have hconstant : Identifier.constantName key = wish := Option.some.inj hwish
  constructor
  · rw [← hconstant] at hspells
    exact Identifier.isIdentifier_of_spells (Identifier.isIdentifier_constantName key) hspells
  · rw [Bool.eq_false_iff, ne_eq, sameIgnoringCase_iff]
    exact hsettled.ne_reserved horigin hmem (by decide)

end Registry

/-! ## classes -/

namespace Code.ClassDecl

/-- The constants of a class with the code of their values, in order. -/
def constants (decl : ClassDecl) : List (String × String) :=
  decl.items.flatMap fun
    | .constants list => list
    | _ => []

/-- The value that a class gives to a word for one of its constants. -/
def constant? (decl : ClassDecl) (word : String) : Option String :=
  ((decl.constants.map fun (name, code) => ("self::" ++ name, code)).lookup word).bind
    literalValue?

/-- The arms of a method that matches its argument. -/
def armsOf? (decl : ClassDecl) (method : String) : Option (List Arm) :=
  decl.methods.findSome? fun m =>
    match m.body with
    | .code [stmt] => if m.sig.name == method then stmt.arms? "return match ($value)" else none
    | _ => none

/-- Whether a method gives its argument back. -/
def accepts (decl : ClassDecl) (method s : String) : Bool :=
  match decl.armsOf? method with
  | some arms => (resultFor? decl.constant? arms s).or (fallback? arms) == some "$value"
  | none => false

end Code.ClassDecl

namespace Artifact.Target

open WebIdl.Code
open WebIdl.Text (joinWith quote)

variable {t : Target} {message : String}

/-- The arm for some constants, unless there are none. -/
def acceptingArms (idents : List String) : List Arm :=
  if idents.isEmpty then []
  else [{ patterns := idents.map fun ident => .word ("self::" ++ ident), result := "$value" }]

/-- The arm that fails with a message. -/
def failingArm (message : String) : Arm where
  patterns := [.word "default"]
  result := "throw " ++ ("new \\ValueError(sprintf(" ++ message ++ ", $value))")

/-- The arms of a cast that accepts some constants. -/
def castArms (idents : List String) (message : String) : List Arm :=
  acceptingArms idents ++ [failingArm message]

theorem code_failingArm (message : String) : (failingArm message).code =
    "default => throw new \\ValueError(sprintf(" ++ message ++ ", $value))," := by
  rw [← String.toList_inj]
  simp [failingArm, Arm.code, Pattern.code]

theorem code_accepting (patterns : List Pattern) :
    Arm.code { patterns, result := "$value" } =
      joinWith ", " (patterns.map Pattern.code) ++ " => $value," := by
  rw [← String.toList_inj]
  simp [Arm.code]

/-- The message of the cast of an enumeration. -/
def castMessage (t : Target) : String :=
  quote ("\"%s\" is not a valid value for enumeration " ++ t.name)

theorem enumArms_eq (constants : List (String × String)) : t.enumArms constants =
    (castArms (constants.map (·.1)) t.castMessage).map fun arm => .plain arm.code := by
  rw [enumArms, castArms, List.map_append, List.map_singleton, code_failingArm, castMessage]
  cases constants with
  | nil => rfl
  | cons constant constants =>
      simp [acceptingArms, code_accepting, Pattern.code, Function.comp_def]

/-- Words for constants that are identifiers can be read. -/
theorem readable_castArms {idents : List String}
    (h : ∀ ident ∈ idents, isIdentifier ident = true) :
    ∀ arm ∈ castArms idents message, arm.Readable := by
  have hfailing : (failingArm message).Readable :=
    ⟨by simp [failingArm], by simp [failingArm, Pattern.Readable]; decide⟩
  have hself : "self::".toList.all isWordChar = true := by decide
  intro arm harm
  rcases List.mem_append.mp harm with harm | harm
  · rw [acceptingArms] at harm
    split at harm
    · cases harm
    next hne =>
      rw [List.mem_singleton.mp harm]
      refine ⟨by simpa using hne, ?_⟩
      rw [List.forall_mem_map]
      intro ident hident
      refine ⟨by simp, fun c hc => ?_⟩
      rw [String.toList_append, List.mem_append] at hc
      rcases hc with hc | hc
      · exact List.all_eq_true.mp hself c hc
      · have hrest := (Identifier.isIdentRest_of_isIdentifier (h ident hident)).2 c hc
        rw [isWordChar, hrest, Bool.true_or]
  · rw [List.mem_singleton.mp harm]
    exact hfailing

/-- The arms give back the strings that are values of constants, and no others. -/
theorem resultFor?_castArms {constant? : String → Option String} {idents : List String}
    (hdefault : constant? "default" = none) (s : String) :
    resultFor? constant? (castArms idents message) s =
      if ∃ ident ∈ idents, constant? ("self::" ++ ident) = some s then some "$value" else none := by
  have hfailing : (failingArm message).patterns.any (·.value? constant? == some s) = false := by
    simp [failingArm, Pattern.value?, hdefault]
  rw [resultFor?, castArms, List.find?_append, List.find?_singleton, hfailing, acceptingArms]
  split
  next hempty => simp [List.isEmpty_iff.mp hempty]
  next =>
    have hany : (idents.map fun ident => Pattern.word ("self::" ++ ident)).any
        (·.value? constant? == some s) =
          decide (∃ ident ∈ idents, constant? ("self::" ++ ident) = some s) := by
      rw [Bool.eq_iff_iff]
      simp [Pattern.value?]
    rw [List.find?_singleton, hany]
    split <;> simp_all

/-- The last arm does not give the value. -/
theorem failingArm_ne_value : (failingArm message).result ≠ "$value" := by
  intro h
  have hchars := congrArg String.toList h
  simp [failingArm] at hchars

/-- The patterns of the arms that give their argument back are the constants. -/
theorem accepted_castArms (idents : List String) :
    ((castArms idents message).filter (·.result == "$value")).flatMap (·.patterns) =
      idents.map fun ident => .word ("self::" ++ ident) := by
  have hfailing : ((failingArm message).result == "$value") = false :=
    beq_eq_false_iff_ne.mpr failingArm_ne_value
  rw [castArms, List.filter_append, List.filter_singleton, hfailing, acceptingArms]
  cases idents <;> simp

theorem self_ne_default (ident : String) : "self::" ++ ident ≠ "default" := by
  intro h
  have hchars := congrArg String.toList h
  simp at hchars

theorem fallback?_castArms (idents : List String) :
    fallback? (castArms idents message) = some (failingArm message).result := by
  rw [fallback?, castArms, List.find?_append, acceptingArms]
  split
  · rfl
  · cases idents with
    | nil => rfl
    | cons ident idents => simp [self_ne_default, failingArm]

/-- What the contract of an enumeration consists of. -/
theorem yields_enumContract {values : List String} {decl : ClassDecl}
    (h : Yields (t.enumContract values) decl) :
    ∃ (ident : String → String) (cast : MethodSig),
      (∀ value ∈ values, t.registry.name? t.name .enumValue value = some (ident value)) ∧
      t.registry.name? t.name .cast "" = some cast.name ∧
      decl.items = [.constants (values.map fun value => (ident value, quote value)),
        .sealedConstructor, defined cast [.matching "return match ($value)"
          ((castArms (values.map ident) t.castMessage).map fun arm => .plain arm.code)]] := by
  obtain ⟨constants, hconstants, h⟩ := h.bind
  obtain ⟨cast, hcast, h⟩ := h.bind
  rw [Yields.lift_iff] at hconstants hcast
  rw [Yields.pure_iff] at h
  let ident := fun value => (t.registry.name? t.name .enumValue value).getD ""
  have hlist : constants = values.map fun value => (ident value, value) := by
    have hmap := map_eq_of_forall₂ (f := id) (g := fun value => (ident value, value))
      (mapM_ok_iff.mp hconstants) ?_
    · rwa [List.map_id] at hmap
    · intro value constant hconstant
      simp only [bind_eq_ok, pure_eq_ok] at hconstant
      obtain ⟨name, hname, rfl⟩ := hconstant
      simp [ident, Registry.name?_of_nameOf hname]
  subst hlist
  refine ⟨ident, cast, fun value hvalue => ?_, ?_, ?_⟩
  · obtain ⟨constant, -, hconstant⟩ := (mapM_ok hconstants).1 value hvalue
    simp only [bind_eq_ok] at hconstant
    obtain ⟨name, hname, -⟩ := hconstant
    simp [ident, Registry.name?_of_nameOf hname]
  · simp only [castSig, bind_eq_ok, pure_eq_ok] at hcast
    obtain ⟨name, hname, rfl⟩ := hcast
    exact name?_of_structuralName hname
  · rw [← h, enumArms_eq]
    simp only [List.map_map, Function.comp_def]

end Artifact.Target

/-! ## the theorem -/

namespace Registry

open WebIdl.Code WebIdl.Artifact

variable {options : IngestOptions} {nodes : List Node} {r : Registry} {d : Definition}

/-- The words for constants that differ stand for the values that they quote. -/
theorem constant?_of_mem {decl : ClassDecl} {values : List String} {ident : String → String}
    (hconstants : decl.constants = values.map fun value => (ident value, quote value))
    (hinjective : ∀ value ∈ values, ∀ other ∈ values, ident value = ident other → value = other)
    {value : String} (hvalue : value ∈ values) :
    decl.constant? ("self::" ++ ident value) = some value := by
  have hlookup : ((values.map fun value => ("self::" ++ ident value, quote value)).lookup
      ("self::" ++ ident value)) = some (quote value) := by
    clear hconstants
    induction values with
    | nil => cases hvalue
    | cons first values ih =>
        rw [List.map_cons, List.lookup_cons]
        split
        next hsame =>
          have hident : ident value = ident first :=
            (String.append_right_inj _).mp (beq_iff_eq.mp hsame)
          rw [hinjective value hvalue first List.mem_cons_self hident]
        next hsame =>
          have hne : value ≠ first := by
            rintro rfl
            simp at hsame
          refine ih (fun value hvalue other hother => ?_) (List.mem_of_ne_of_mem hne hvalue)
          exact hinjective value (List.mem_cons_of_mem _ hvalue) other
            (List.mem_cons_of_mem _ hother)
  rw [ClassDecl.constant?, hconstants, List.map_map]
  change Option.bind ((values.map fun value => ("self::" ++ ident value, quote value)).lookup _) _ =
    some value
  rw [hlookup, Option.bind_some, literalValue?_quote]

/-- No constant is called as everything else. -/
theorem constant?_default (decl : ClassDecl) : decl.constant? "default" = none := by
  have hnone : (decl.constants.map fun (name, code) => ("self::" ++ name, code)).lookup
      "default" = none := by
    rw [List.lookup_eq_none_iff]
    rintro entry hentry
    obtain ⟨constant, -, rfl⟩ := List.mem_map.mp hentry
    simpa using (Target.self_ne_default constant.1).symm
  rw [ClassDecl.constant?, hnone, Option.bind_none]

/-- Entries of a definition differ without regard to case. -/
theorem differ_of_build (h : build options nodes = .ok r) (hd : d ∈ r.definitions)
    {category category' : NameCategory} {key key' ident ident' : String}
    (hne : (category, key) ≠ (category', key')) (hentry : r.name? d.name category key = some ident)
    (hentry' : r.name? d.name category' key' = some ident') :
    sameIgnoringCase ident ident' = false := by
  obtain ⟨hsettled, -⟩ := settled_of_build h
  have hname := resolved_of_reaches h hd ReflTransGen.refl
  rw [Bool.eq_false_iff, ne_eq, sameIgnoringCase_iff]
  intro hsame
  obtain ⟨rfl, rfl⟩ :=
    Resolver.Settled.injective (wellFormed_of_build h) hsettled hname hentry hentry' hsame
  exact hne rfl

/-- The contract of an enumeration is there. -/
theorem exists_enumContract (h : build options nodes = .ok r) (hd : d ∈ r.definitions)
    {values : List String} (hkind : d.kind = .enum values) (root : String) :
    ∃ file, r.file? root d.name .contract = .ok (some file) ∧
      Yields (Target.enumContract { registry := r, root, definition := d } values) file.decl := by
  have hget := (wellFormed_of_build h).get?_of_mem hd
  have hready : Target.Ready { registry := r, root, definition := d } :=
    ⟨hd, reserving_of_build h⟩
  have hcontract : Target.contract { registry := r, root, definition := d } =
      Target.enumContract { registry := r, root, definition := d } values := by
    simp only [Target.contract, hkind]
  have hbuilds : Builds (Target.decl { registry := r, root, definition := d } .contract) := by
    rw [Target.decl, hcontract]
    exact (hready.enumContract hkind).bind fun _ _ => FailsFor.pure _
  obtain ⟨found, hfound⟩ := exists_file hget hbuilds
  obtain ⟨file, rfl, hyields⟩ := contract_of_file? hget hfound
  exact ⟨file, hfound, hcontract ▸ hyields⟩

/-- **The class of an enumeration accepts its values**: every constant is an identifier that is
neither `class` nor the name of the cast, and constants of different values differ, all without
regard to case.  The contract has a constant for each value, in order, with the value as its
literal; the arm of the cast that gives its argument back lists these constants, and with the
literals read as the host reads them the cast accepts a string if and only if it is a value. -/
theorem enum_class_accepts_its_values (h : build options nodes = .ok r) (hd : d ∈ r.definitions)
    {values : List String} (hkind : d.kind = .enum values) (root : String) :
    (∀ value ident, r.name? d.name .enumValue value = some ident →
      isIdentifier ident = true ∧ sameIgnoringCase ident "class" = false ∧
        ∀ cast, r.name? d.name .cast "" = some cast → sameIgnoringCase ident cast = false) ∧
    (∀ value value' ident ident', value ≠ value' →
      r.name? d.name .enumValue value = some ident →
      r.name? d.name .enumValue value' = some ident' → sameIgnoringCase ident ident' = false) ∧
    ∃ (file : File) (cast : String) (arms : List Arm) (ident : String → String) (failure : String),
      r.file? root d.name .contract = .ok (some file) ∧
      r.name? d.name .cast "" = some cast ∧
      (∀ value ∈ values, r.name? d.name .enumValue value = some (ident value)) ∧
      file.decl.constants = values.map (fun value => (ident value, quote value)) ∧
      file.decl.armsOf? cast = some arms ∧
      (arms.filter (·.result == "$value")).flatMap (·.patterns) =
        values.map (fun value => .word ("self::" ++ ident value)) ∧
      fallback? arms = some ("throw " ++ failure) ∧
      ∀ s, file.decl.accepts cast s = true ↔ s ∈ values := by
  refine ⟨fun value ident hentry => ?_,
    fun value value' ident ident' hne => differ_of_build h hd (by simpa), ?_⟩
  · obtain ⟨hident, hclass⟩ := constant_of_build h hd hentry
    exact ⟨hident, hclass, fun cast hcast => differ_of_build h hd (by simp) hentry hcast⟩
  obtain ⟨file, hfile, hyields⟩ := exists_enumContract h hd hkind root
  obtain ⟨ident, cast, hidents, hcast, hitems⟩ := Target.yields_enumContract hyields
  generalize Target.castMessage _ = message at hitems
  have hreadable : ∀ arm ∈ Target.castArms (values.map ident) message, arm.Readable :=
    Target.readable_castArms (List.forall_mem_map.mpr fun value hvalue =>
      (constant_of_build h hd (hidents value hvalue)).1)
  have hconstants : file.decl.constants = values.map fun value => (ident value, quote value) := by
    simp [ClassDecl.constants, hitems, Target.defined]
  have harms : file.decl.armsOf? cast.name = some (Target.castArms (values.map ident) message) := by
    simp [ClassDecl.armsOf?, ClassDecl.methods, hitems, Target.defined,
      Stmt.arms?_matching _ hreadable]
  -- the constants differ, so each stands for its own value
  have hvalues : ∀ value ∈ values, file.decl.constant? ("self::" ++ ident value) = some value := by
    refine fun value hvalue => constant?_of_mem hconstants ?_ hvalue
    intro value hvalue other hother hsame
    by_contra hne
    have hdiffer := differ_of_build h hd (by simpa) (hidents value hvalue) (hidents other hother)
    rw [hsame] at hdiffer
    simp [sameIgnoringCase] at hdiffer
  have haccepted : ∀ s, (∃ name ∈ values.map ident,
      file.decl.constant? ("self::" ++ name) = some s) ↔ s ∈ values := by
    intro s
    simp only [List.mem_map, exists_exists_and_eq_and]
    constructor
    · rintro ⟨value, hvalue, hs⟩
      rw [hvalues value hvalue, Option.some.injEq] at hs
      exact hs ▸ hvalue
    · exact fun hs => ⟨s, hs, hvalues s hs⟩
  refine ⟨file, cast.name, _, ident, _, hfile, hcast, hidents, hconstants, harms, ?_,
    Target.fallback?_castArms _, fun s => ?_⟩
  · rw [Target.accepted_castArms, List.map_map]
    rfl
  · rw [ClassDecl.accepts, harms]
    dsimp only
    rw [Target.resultFor?_castArms (constant?_default file.decl), Target.fallback?_castArms,
      ← haccepted s]
    split
    next hs => simpa using hs
    next hs => simpa [Target.failingArm_ne_value] using hs

/-- An enumeration whose values need care: two that are spelled alike, one that is a keyword,
one with a quote in it, one that is empty, and one that is spelled as the cast. -/
def modeNodes : List Node :=
  [.definition { name := "Mode", kind := .enum ["a b", "a-b", "class", "it's", "", "cast"] }]

/-- The constants of these values are what one would write, and the cast takes the values. -/
theorem mode_class_accepts_its_values : ∃ r d, build {} modeNodes = .ok r ∧ d ∈ r.definitions ∧
    ["a b", "a-b", "class", "it's", "", "cast"].map (r.name? d.name .enumValue) =
      [some "A_B", some "_1_A_B", some "_1_CLASS", some "IT_S", some "EMPTY", some "_1_CAST"] ∧
    ∃ file, r.file? "App" d.name .contract = .ok (some file) ∧
      file.decl.accepts "cast" "it's" = true ∧ file.decl.accepts "cast" "A_B" = false := by
  have hbuild : (build {} modeNodes).toOption.map (fun r => (r.get? "Mode").map fun d =>
      (d.enumValues, r.name? d.name .cast "",
        ["a b", "a-b", "class", "it's", "", "cast"].map (r.name? d.name .enumValue))) =
      some (some (["a b", "a-b", "class", "it's", "", "cast"], some "cast",
        [some "A_B", some "_1_A_B", some "_1_CLASS", some "IT_S", some "EMPTY",
          some "_1_CAST"])) := by
    decide +kernel
  obtain ⟨r, hr, hfound⟩ := ok_of_toOption_map hbuild
  obtain ⟨d, hd, hfacts⟩ := Option.map_eq_some_iff.mp hfound
  obtain ⟨hvalues, hcast, hidents⟩ := by simpa only [Prod.mk.injEq] using hfacts
  have hkind : d.kind = .enum ["a b", "a-b", "class", "it's", "", "cast"] := by
    rw [Definition.enumValues] at hvalues
    split at hvalues
    next hkind => rw [hkind, hvalues]
    next => cases hvalues
  obtain ⟨-, -, file, cast, -, -, -, hfile, hcast', -, -, -, -, -, haccepts⟩ :=
    enum_class_accepts_its_values hr (Catalog.mem_of_get? hd) hkind "App"
  obtain rfl : "cast" = cast := Option.some.inj (hcast.symm.trans hcast')
  refine ⟨r, d, hr, Catalog.mem_of_get? hd, hidents, file, hfile, ?_, ?_⟩
  · exact (haccepts "it's").mpr (by decide)
  · exact Bool.eq_false_iff.mpr fun h => absurd ((haccepts "A_B").mp h) (by decide)

end Registry

end WebIdl
