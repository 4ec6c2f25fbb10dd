import WebIdl.Code.Signature
import WebIdl.Proofs.Documentation
import WebIdl.Proofs.Expansion
import WebIdl.Proofs.Widening

/-!
# WebIdl.Proofs.Erasure

What a binding keeps of a documentation.

A binding and a documentation of one type are two lists of alternatives, equally long before
null is added (`Paired`).  A binding knows neither what a list is of nor the constants of an
enumeration; erasing both from the documentation gives the binding
(`Paired.alternativesRead_iff`), and nothing is erased if and only if the two are taken for the
same (`Paired.agrees_iff`):

* `binding_erases_documentation`: this holds of every type but those that name a definition
  which is written like something else.
-/

namespace WebIdl

open WebIdl.Code
open WebIdl.Text (joinWith joinWith_cons joinWith_singleton joinWith_snoc Plain Solid splitTopLevel
  startsWith endsWith)

namespace Code

/-! ## erased alternatives -/

/-- Whether an alternative is a list or an array of something. -/
def isContainer (part : String) : Bool :=
  ("list<".toList.isPrefixOf part.toList || "array<".toList.isPrefixOf part.toList) &&
    endsWith '>' part

/-- What stands before the name of an enumeration. -/
def enumOpening (root : String) : List Char :=
  ("\\" ++ root ++ "\\").toList

/-- Whether an alternative is written as the constants of an enumeration. -/
def isEnumForm (root part : String) : Bool :=
  (enumOpening root).isPrefixOf part.toList &&
    "::*".toList.isSuffixOf (part.toList.drop (enumOpening root).length)

/-- An alternative of a documentation as a binding has it. -/
def erase (root part : String) : String :=
  if isContainer part then "array" else if isEnumForm root part then "string" else part

variable {root part : String}

/-- The constants of an enumeration are its qualified name with a star behind it. -/
theorem isEnumForm_iff :
    isEnumForm root part = true ↔ ∃ name, part = "\\" ++ root ++ "\\" ++ name ++ "::*" := by
  rw [isEnumForm, Bool.and_eq_true, List.isPrefixOf_iff_prefix, List.isSuffixOf_iff_suffix]
  constructor
  · rintro ⟨⟨rest, hrest⟩, hclosing⟩
    rw [← hrest, List.drop_left] at hclosing
    obtain ⟨name, rfl⟩ := hclosing
    refine ⟨String.ofList name, String.toList_inj.mp ?_⟩
    rw [← hrest]
    simp [enumOpening]
  · rintro ⟨name, rfl⟩
    have htext : ("\\" ++ root ++ "\\" ++ name ++ "::*").toList =
        enumOpening root ++ (name.toList ++ "::*".toList) := by
      simp [enumOpening]
    rw [htext, List.drop_left]
    exact ⟨List.prefix_append _ _, List.suffix_append _ _⟩

/-- What is plain is no container. -/
theorem not_isContainer_of_plain (h : Plain part) : isContainer part = false := by
  have hopen : ∀ opening : List Char, '<' ∈ opening → opening.isPrefixOf part.toList = false := by
    intro opening hmem
    rw [Bool.eq_false_iff, ne_eq, List.isPrefixOf_iff_prefix]
    exact fun hstart => (h '<' (hstart.subset hmem)).2.1 rfl
  rw [isContainer, hopen "list<".toList (by decide), hopen "array<".toList (by decide)]
  rfl

/-- What does not start with a backslash is no enumeration. -/
theorem not_isEnumForm_of_head (h : part.toList.head? ≠ some '\\') :
    isEnumForm root part = false := by
  rw [Bool.eq_false_iff, ne_eq, isEnumForm_iff]
  rintro ⟨name, rfl⟩
  simp at h

/-- What is plain stays, unless it stands for an enumeration, which is a string. -/
theorem erase_of_plain (h : Plain part) :
    erase root part = if isEnumForm root part then "string" else part := by
  rw [erase, not_isContainer_of_plain h, if_neg Bool.false_ne_true]

/-- A word is not erased. -/
theorem erase_word (h : Plain part) (hhead : part.toList.head? ≠ some '\\') :
    erase root part = part := by
  rw [erase_of_plain h, not_isEnumForm_of_head hhead, if_neg Bool.false_ne_true]

theorem erase_null : erase root "null" = "null" :=
  erase_word (by decide) (by decide)

/-- A container becomes an array. -/
theorem erase_of_isContainer (h : isContainer part = true) : erase root part = "array" := by
  rw [erase, if_pos h]

/-- The documentation of a generic is a container. -/
theorem isContainer_containerText (head : Generic) (inners : List String) :
    isContainer (containerText head inners) = true := by
  have hend : endsWith '>' (containerText head inners) = true := by
    rw [endsWith, containerText, String.toList_append, List.getLast?_append]
    rfl
  have hstart : ∀ rest, ("list<".toList.isPrefixOf ((containerWord head).toList ++ '<' :: rest) ||
      "array<".toList.isPrefixOf ((containerWord head).toList ++ '<' :: rest)) = true := by
    intro rest
    cases head <;> simp [containerWord, List.isPrefixOf]
  have htext : (containerText head inners).toList =
      (containerWord head).toList ++ '<' :: ((joinWith ", " inners).toList ++ ['>']) := by
    simp [containerText]
  rw [isContainer, hend, htext, hstart]
  rfl

/-- The constants of an enumeration are strings. -/
theorem erase_enumForm (name : String) :
    erase root ("\\" ++ root ++ "\\" ++ name ++ "::*") = "string" := by
  have hcontainer : isContainer ("\\" ++ root ++ "\\" ++ name ++ "::*") = false := by
    simp [isContainer, List.isPrefixOf]
  rw [erase, hcontainer, if_neg Bool.false_ne_true, if_pos (isEnumForm_iff.mpr ⟨name, rfl⟩)]

/-- What has the form of an enumeration's constants is erased, and not to itself. -/
theorem erase_eq_self_iff (h : Plain part) :
    erase root part = part ↔ isEnumForm root part = false := by
  rw [erase_of_plain h]
  cases henum : isEnumForm root part with
  | false => simp
  | true =>
      obtain ⟨name, rfl⟩ := isEnumForm_iff.mp henum
      simp [← String.toList_inj]

/-! ## bindings and documentations side by side -/

/-- Null as one more alternative. -/
def nullPart (nullable : Bool) : List String :=
  if nullable then ["null"] else []

/-- A question mark that is the alternative's own, and not that of a type that takes null. -/
def Questioned (bound : List String) (nullable : Bool) : Prop :=
  startsWith '?' (bound.headD "") = true ∧ ¬ (nullable = true ∧ bound.length = 1)

theorem length_nullPart (nullable : Bool) : (nullPart nullable).length = nullable.toNat := by
  cases nullable <;> rfl

/-- A single alternative takes null by a question mark. -/
theorem bindingText_of_single (part : String) : bindingText [part] true = "?" ++ part := rfl

/-- Otherwise null is one more alternative. -/
theorem bindingText_eq {bound : List String} {nullable : Bool} (hne : bound ≠ [])
    (h : ¬ (nullable = true ∧ bound.length = 1)) :
    bindingText bound nullable = joinWith "|" (bound ++ nullPart nullable) := by
  rw [bindingText.eq_def]
  split
  next => exact absurd ⟨rfl, rfl⟩ h
  next =>
    rw [nullPart, if_pos rfl, joinWith_snoc hne, String.append_assoc]
    rfl
  next => rw [nullPart, if_neg Bool.false_ne_true, List.append_nil]

/-- Joined texts start as the first one does. -/
theorem startsWith_joinWith {first : String} {rest : List String} :
    startsWith '?' (joinWith "|" (first :: rest)) = startsWith '?' first := by
  cases rest with
  | nil => rw [joinWith_singleton]
  | cons next rest =>
      rw [joinWith_cons (by simp), startsWith, startsWith, String.toList_append,
        String.toList_append]
      cases first.toList with
      | nil => rfl
      | cons c cs => rfl

/-- A question mark in front changes nothing about how often a text is cut. -/
theorem length_splitTopLevel_question (inner : List Char) :
    (splitTopLevel (String.ofList ('?' :: inner))).length =
      (splitTopLevel (String.ofList inner)).length := by
  obtain ⟨piece, pieces, hpieces⟩ := List.exists_cons_of_ne_nil (Text.splitBars_ne_nil 0 inner)
  simp [splitTopLevel, Text.splitBars, hpieces, Text.consHead]

/-- It is read as one alternative more. -/
theorem length_alternativesRead_of_question {b : String} (h : startsWith '?' b = true) :
    (alternativesRead b).length = (splitTopLevel b).length + 1 := by
  rw [alternativesRead]
  split
  next inner htext =>
    have hb : b = String.ofList ('?' :: inner) := by
      rw [← htext, String.ofList_toList]
    rw [hb, length_splitTopLevel_question, List.length_append, List.length_singleton]
  next hother =>
    rw [startsWith, beq_iff_eq] at h
    cases htext : b.toList with
    | nil => simp [htext] at h
    | cons c cs =>
        rw [htext, List.head?_cons, Option.some.injEq] at h
        exact absurd (h ▸ htext) (hother cs)

/-- A text that starts with a question mark has too many alternatives if that is read as
null. -/
theorem question_ne {b doc : String} {inner : List Char}
    (hplain : ∀ c ∈ b.toList, c ≠ '<' ∧ c ≠ '>')
    (hlength : (splitTopLevel b).length = (splitTopLevel doc).length)
    (htext : b.toList = '?' :: inner) : inner ++ "|null".toList ≠ doc.toList := by
  intro heq
  have hdoc : doc = String.ofList inner ++ "|null" := by
    rw [← String.toList_inj, String.toList_append, String.toList_ofList]
    exact heq.symm
  have hinner : ∀ c ∈ (String.ofList inner).toList, c ≠ '<' ∧ c ≠ '>' := by
    intro c hc
    rw [String.toList_ofList] at hc
    exact hplain c (htext ▸ List.mem_cons_of_mem _ hc)
  rw [hdoc, splitTopLevel_append_null hinner, List.length_append, ← length_splitTopLevel_question,
    ← htext, String.ofList_toList] at hlength
  simp at hlength

/-- A binding and the alternatives of a documentation, which are equally many before null is
added to both. -/
structure Paired (b : String) (a : Alternatives) (bound : List String) (nullable : Bool) :
    Prop where
  binding : b = bindingText bound nullable
  nullable : a.nullable = nullable
  length : a.parts.length = bound.length
  plain : ∀ part ∈ bound, Plain part
  some : bound ≠ []
  solid : ∀ part ∈ a.parts, Solid part

namespace Paired

variable {b : String} {a : Alternatives} {bound : List String} {nullable : Bool}

/-- A documentation that goes with a binding has an alternative. -/
theorem parts_ne_nil (h : Paired b a bound nullable) : a.parts ≠ [] := by
  rw [← List.length_pos_iff, h.length, List.length_pos_iff]
  exact h.some

/-- What is written are its alternatives, and null if it is not among them. -/
theorem list_eq (h : Paired b a bound nullable) :
    a.list = a.parts ++ nullPart (nullable && !a.hasNull) := by
  rw [Alternatives.list, if_neg h.parts_ne_nil, h.nullable, nullPart]

/-- Cutting the documentation gives back what is written. -/
theorem splitTopLevel_text (h : Paired b a bound nullable) : splitTopLevel a.text = a.list := by
  rw [Alternatives.text_eq]
  exact Text.splitTopLevel_joinWith a.list_ne_nil (solid_list h.solid)

/-- No alternative of the binding can be cut, with null or without. -/
theorem solid_bound (h : Paired b a bound nullable) (more : Bool) :
    ∀ part ∈ bound ++ nullPart more, Solid part := by
  intro part hpart
  rcases List.mem_append.mp hpart with hpart | hpart
  · exact (h.plain part hpart).solid
  · rw [nullPart] at hpart
    split at hpart
    · rw [List.mem_singleton.mp hpart]
      exact (by decide : Plain "null").solid
    · cases hpart

/-- A binding is read as its alternatives, unless the first of them starts with a question
mark. -/
theorem alternativesRead_eq (h : Paired b a bound nullable) (hq : ¬ Questioned bound nullable) :
    alternativesRead b = bound ++ nullPart nullable := by
  obtain ⟨first, rest, rfl⟩ := List.exists_cons_of_ne_nil h.some
  rw [h.binding]
  by_cases hsingle : nullable = true ∧ (first :: rest).length = 1
  · obtain ⟨rfl, hlength⟩ := hsingle
    obtain rfl : rest = [] := List.length_eq_zero_iff.mp (by simpa using hlength)
    rw [bindingText_of_single, alternativesRead_question]
    have hcut := Text.splitTopLevel_joinWith h.some fun part hpart => (h.plain part hpart).solid
    rw [joinWith_singleton] at hcut
    rw [hcut]
    rfl
  · have hstart : startsWith '?' (joinWith "|" (first :: rest ++ nullPart nullable)) = false := by
      rw [List.cons_append, startsWith_joinWith, Bool.eq_false_iff]
      exact fun hstart => hq ⟨hstart, hsingle⟩
    rw [bindingText_eq h.some hsingle, alternativesRead_of_not hstart]
    exact Text.splitTopLevel_joinWith (by simp) (h.solid_bound nullable)

/-- A question mark of its own makes the binding read as one alternative more. -/
theorem length_alternativesRead (h : Paired b a bound nullable) (hq : Questioned bound nullable) :
    (alternativesRead b).length = bound.length + (nullPart nullable).length + 1 := by
  obtain ⟨first, rest, rfl⟩ := List.exists_cons_of_ne_nil h.some
  have hstart : startsWith '?' (joinWith "|" (first :: rest ++ nullPart nullable)) = true := by
    rw [List.cons_append, startsWith_joinWith]
    exact hq.1
  rw [h.binding, bindingText_eq h.some hq.2, length_alternativesRead_of_question hstart,
    Text.splitTopLevel_joinWith (by simp) (h.solid_bound nullable), List.length_append]

/-- Erasing a documentation gives the alternatives of the binding if it does so for each of
them, null is there once, and no question mark is taken for that of the type. -/
theorem alternativesRead_iff (h : Paired b a bound nullable) :
    alternativesRead b = (splitTopLevel a.text).map (erase root) ↔
      a.parts.map (erase root) = bound ∧ ¬ (nullable = true ∧ a.hasNull = true) ∧
        ¬ Questioned bound nullable := by
  have hdoc : (splitTopLevel a.text).map (erase root) =
      a.parts.map (erase root) ++ nullPart (nullable && !a.hasNull) := by
    rw [h.splitTopLevel_text, h.list_eq, List.map_append]
    cases nullable && !a.hasNull <;> simp [nullPart, erase_null]
  rw [hdoc]
  by_cases hq : Questioned bound nullable
  · refine iff_of_false (fun heq => ?_) fun hall => hall.2.2 hq
    have hlength := congrArg List.length heq
    rw [h.length_alternativesRead hq, List.length_append, List.length_map, h.length,
      length_nullPart, length_nullPart] at hlength
    have hless : (nullable && !a.hasNull).toNat ≤ nullable.toNat := by
      cases nullable <;> simp [Bool.toNat_le]
    omega
  · rw [h.alternativesRead_eq hq]
    constructor
    · intro heq
      obtain ⟨hparts, hnull⟩ := List.append_inj heq (by rw [List.length_map, h.length])
      refine ⟨hparts.symm, ?_, hq⟩
      rintro ⟨rfl, hhas⟩
      simp [nullPart, hhas] at hnull
    · rintro ⟨hparts, hnull, -⟩
      rw [hparts]
      cases nullable with
      | false => rfl
      | true => simp [Bool.eq_false_iff.mpr fun hhas => hnull ⟨rfl, hhas⟩]

/-- A binding and a documentation are taken for the same if their alternatives are. -/
theorem agrees_iff (h : Paired b a bound nullable)
    (hnull : ¬ (nullable = true ∧ a.hasNull = true)) :
    TypePair.agrees ⟨b, a.text⟩ = true ↔ bound = a.parts := by
  have hlist : a.list = a.parts ++ nullPart nullable := by
    rw [h.list_eq]
    cases nullable with
    | false => rfl
    | true => simp [Bool.eq_false_iff.mpr fun hhas => hnull ⟨rfl, hhas⟩]
  have hdoc : a.text = joinWith "|" (a.parts ++ nullPart nullable) := by
    rw [Alternatives.text_eq, hlist]
  have hcut : splitTopLevel a.text = a.parts ++ nullPart nullable := by
    rw [h.splitTopLevel_text, hlist]
  by_cases hsingle : nullable = true ∧ bound.length = 1
  · obtain ⟨rfl, hlength⟩ := hsingle
    obtain ⟨p, rfl⟩ := List.length_eq_one_iff.mp hlength
    obtain ⟨q, hq⟩ := List.length_eq_one_iff.mp (h.length.trans hlength)
    have htext : a.text = q ++ "|null" := by
      rw [hdoc, hq, nullPart, if_pos rfl, joinWith_snoc (by simp), joinWith_singleton,
        String.append_assoc]
      rfl
    have hne : "?" ++ p ≠ q ++ "|null" := by
      intro heq
      have hbar : '|' ∈ ("?" ++ p).toList := by simp [heq]
      have hmem : '|' ∈ p.toList := by simpa using hbar
      exact (h.plain p List.mem_cons_self '|' hmem).1 rfl
    rw [TypePair.agrees, htext, h.binding, bindingText_of_single, hq]
    simp [hne, ← String.toList_inj]
  · have hb : b = joinWith "|" (bound ++ nullPart nullable) := by
      rw [h.binding, bindingText_eq h.some hsingle]
    have hcutb : splitTopLevel b = bound ++ nullPart nullable := by
      rw [hb]
      exact Text.splitTopLevel_joinWith (by simp [h.some]) (h.solid_bound nullable)
    constructor
    · intro hagrees
      rw [TypePair.agrees, Bool.or_eq_true, beq_iff_eq] at hagrees
      rcases hagrees with heq | hquestion
      · change b = a.text at heq
        rw [← heq, hcutb] at hcut
        exact List.append_cancel_right hcut
      · -- With its question mark read as null, the binding has one alternative too many.
        have hlength : (splitTopLevel b).length = (splitTopLevel a.text).length := by
          rw [hcutb, hcut, List.length_append, List.length_append, h.length]
        split at hquestion
        next inner htext =>
          have hplain : ∀ c ∈ b.toList, c ≠ '<' ∧ c ≠ '>' := by
            rw [h.binding]
            exact unbracketed_bindingText h.plain
          exact absurd (beq_iff_eq.mp hquestion) (question_ne hplain hlength htext)
        next => cases hquestion
    · intro heq
      rw [TypePair.agrees, Bool.or_eq_true, beq_iff_eq]
      left
      rw [hb, hdoc, heq]

/-- If every alternative is erased to that of the binding, nothing is erased if and only if the
two are taken for the same. -/
theorem agrees_iff_erase (h : Paired b a bound nullable)
    (herase : a.parts.map (erase root) = bound)
    (hnull : ¬ (nullable = true ∧ a.hasNull = true)) :
    TypePair.agrees ⟨b, a.text⟩ = true ↔
      (splitTopLevel a.text).map (erase root) = splitTopLevel a.text := by
  have hmore : (nullPart (nullable && !a.hasNull)).map (erase root) =
      nullPart (nullable && !a.hasNull) := by
    cases nullable && !a.hasNull <;> simp [nullPart, erase_null]
  rw [h.agrees_iff hnull, h.splitTopLevel_text, h.list_eq, List.map_append, hmore, herase,
    List.append_left_inj]

/-- A binding and a documentation of one word each. -/
theorem of_words {word part : String} {nullable : Bool} (hword : Plain word)
    (hpart : Solid part) : Paired (bindingText [word] nullable) (.one part nullable) [word]
      nullable where
  binding := rfl
  nullable := rfl
  length := rfl
  plain _ hother := List.mem_singleton.mp hother ▸ hword
  some := List.cons_ne_nil word []
  solid _ hother := List.mem_singleton.mp hother ▸ hpart

end Paired

/-- What is said of a binding and a documentation whose type names no definition that is written
like something else. -/
def Erases (root b doc : String) : Prop :=
  alternativesRead b = (splitTopLevel doc).map (erase root) ∧
    (TypePair.agrees ⟨b, doc⟩ = true ↔
      (splitTopLevel doc).map (erase root) = splitTopLevel doc)

/-- A word and an alternative that is erased to it go together. -/
theorem erases_words {word part : String} {nullable : Bool} (hword : Plain word)
    (hmark : startsWith '?' word = false) (hpart : Solid part) (herase : erase root part = word)
    (hnull : nullable = true → part ≠ "null" ∧ part ≠ "void") :
    Erases root (bindingText [word] nullable) (Alternatives.one part nullable).text := by
  have hpaired : Paired (bindingText [word] nullable) (.one part nullable) [word] nullable :=
    .of_words hword hpart
  have hparts : (Alternatives.one part nullable).parts.map (erase root) = [word] := by
    simp [Alternatives.one, herase]
  have hone : ¬ (nullable = true ∧ (Alternatives.one part nullable).hasNull = true) := by
    rintro ⟨htrue, hhas⟩
    simp [Alternatives.hasNull, Alternatives.one, hnull htrue] at hhas
  have hquestion : ¬ Questioned [word] nullable := fun hq =>
    absurd (hmark.symm.trans hq.1) Bool.false_ne_true
  exact ⟨hpaired.alternativesRead_iff.mpr ⟨hparts, hone, hquestion⟩,
    hpaired.agrees_iff_erase hparts hone⟩

variable {ctx : TypeContext} {b : String} {a : Alternatives} {marks : NullMarks}

/-- The binding and the documentation of a built-in type go together. -/
theorem erases_primitive {primitive : Primitive} (hany : primitive ≠ .any)
    (hb : bindingOf ctx (.primitive primitive marks) = .ok b)
    (ha : alternativesOf ctx true (.primitive primitive marks) = .ok a) :
    Erases ctx.root b a.text := by
  cases primitive with
  | any => exact absurd rfl hany
  | undefined =>
      rw [bindingOf, Except.ok.injEq] at hb
      rw [alternativesOf, Except.ok.injEq, if_pos rfl] at ha
      subst hb ha
      have hword : Erases ctx.root (bindingText [undefinedWord ctx.position] false)
          (Alternatives.one (undefinedWord ctx.position) false).text := by
        cases ctx.position <;> exact erases_words (by decide) (by decide) (Plain.solid (by decide))
          (erase_word (by decide) (by decide)) (by simp)
      rwa [bindingText, joinWith_singleton] at hword
  | _ =>
      simp only [bindingOf, alternativesOf, Except.ok.injEq] at hb ha
      subst hb ha
      exact erases_words (by decide) (by decide) (Plain.solid (by decide))
        (erase_word (by decide) (by decide)) fun _ => by decide

theorem erases_generic {head : Generic} {args : List TypeTree} (hhead : head ≠ .promise)
    (hsolid : ∀ part ∈ a.parts, Solid part)
    (hb : bindingOf ctx (.generic head args marks) = .ok b)
    (ha : alternativesOf ctx true (.generic head args marks) = .ok a) :
    Erases ctx.root b a.text := by
  obtain ⟨-, branches, -, rfl⟩ := (alternativesOf_generic hhead).mp ha
  have hb : bindingText ["array"] (isNullable marks ctx.position) = b := by
    cases head with
    | promise => exact absurd rfl hhead
    | _ => simpa only [bindingOf, Except.ok.injEq] using hb
  subst hb
  exact erases_words (by decide) (by decide) (hsolid _ (by simp [Alternatives.one]))
    (erase_of_isContainer (isContainer_containerText head _))
    fun _ => ⟨containerText_ne (by decide), containerText_ne (by decide)⟩

theorem erases_enum {d : Definition} (henum : d.isEnum = true)
    (hsolid : ∀ part ∈ a.parts, Solid part)
    (hb : bindingOf ctx (.definition d marks) = .ok b)
    (ha : alternativesOf ctx true (.definition d marks) = .ok a) :
    Erases ctx.root b a.text := by
  rw [bindingOf, henum, if_pos rfl, Except.ok.injEq] at hb
  rw [alternativesOf, henum, if_pos rfl, Except.ok.injEq] at ha
  subst hb ha
  exact erases_words (by decide) (by decide) (hsolid _ (by simp [Alternatives.one]))
    (erase_enumForm d.name) fun _ => by simp [← String.toList_inj]

/-! ## definitions -/

/-- What documents a kind of definition is erased to what binds it. -/
theorem map_erase_alternate (kind : DefinitionKind) (position : Position) :
    (alternate kind position .documentation).toList.map (erase root) =
      (alternate kind position .binding).toList := by
  have harray : erase root "array<string, mixed>" = "array" :=
    erase_of_isContainer (by decide +kernel)
  have hcallable : erase root "callable" = "callable" := erase_word (by decide) (by decide)
  cases position <;> cases kind <;> simp [alternate, harray, hcallable]

/-- A definition that is no enumeration is written by its name and what is taken in its place,
in a binding and a documentation alike. -/
theorem paired_class {d : Definition} (hplain : Plain (qualify ctx d.name))
    (hsolid : ∀ part ∈ definitionParts ctx .documentation d, Solid part) (nullable : Bool) :
    Paired (bindingText (definitionParts ctx .binding d) nullable)
      ⟨definitionParts ctx .documentation d, nullable⟩ (definitionParts ctx .binding d)
      nullable where
  binding := rfl
  nullable := rfl
  length := by
    have halternates := congrArg List.length (@map_erase_alternate ctx.root d.kind ctx.position)
    rw [List.length_map] at halternates
    simp [definitionParts, halternates]
  plain part hpart := by
    rw [definitionParts, List.mem_cons, Option.mem_toList] at hpart
    rcases hpart with rfl | hpart
    · exact hplain
    · have hwords : ∀ word ∈ bindingWords, Plain word := by decide
      exact hwords part (mem_bindingWords_of_alternate hpart)
  some := List.cons_ne_nil _ _
  solid := hsolid

/-- A definition is documented with null among its alternatives if it is written like null. -/
theorem hasNull_class_iff {d : Definition} {nullable : Bool} (hvoid : d.name ≠ "void") :
    (Alternatives.mk (definitionParts ctx .documentation d) nullable).hasNull = true ↔
      qualify ctx d.name = "null" := by
  have hspelled : qualify ctx d.name ≠ "void" := by
    rw [qualify]
    split
    · simp [← String.toList_inj]
    · exact hvoid
  have halternate : ∀ part ∈ (alternate d.kind ctx.position .documentation).toList,
      part ≠ "null" ∧ part ≠ "void" := by
    intro part hpart
    have hword : part = "callable" ∨ part = "array<string, mixed>" := by
      rw [Option.mem_toList] at hpart
      cases hposition : ctx.position <;> cases hkind : d.kind <;> simp_all [alternate]
    rcases hword with rfl | rfl <;> decide
  simp only [Alternatives.hasNull, definitionParts, List.any_cons, Bool.or_eq_true, beq_iff_eq,
    hspelled, or_false, List.any_eq_true]
  refine or_iff_left ?_
  rintro ⟨part, hpart, heq⟩
  exact heq.elim (halternate part hpart).1 (halternate part hpart).2

/-- Its documentation is erased to its binding unless it is written like an enumeration. -/
theorem map_erase_class_iff {d : Definition} (hplain : Plain (qualify ctx d.name)) :
    (definitionParts ctx .documentation d).map (erase ctx.root) =
        definitionParts ctx .binding d ↔
      isEnumForm ctx.root (qualify ctx d.name) = false := by
  rw [definitionParts, definitionParts, List.map_cons, map_erase_alternate, List.cons.injEq,
    eq_self, and_true, erase_eq_self_iff hplain]

/-- Its binding has a question mark of its own if its name starts with one, and null puts none
there. -/
theorem questioned_class_iff {d : Definition} {nullable : Bool} :
    Questioned (definitionParts ctx .binding d) nullable ↔
      startsWith '?' (qualify ctx d.name) = true ∧
        ¬ (nullable = true ∧ alternate d.kind ctx.position .binding = none) := by
  cases halternate : alternate d.kind ctx.position .binding <;>
    simp [Questioned, definitionParts, halternate]

end Code

namespace IdlType

/-- Whether a type is one that takes everything in a binding: a union, a promise or `any`. -/
def isOpen : IdlType → Bool
  | .named name _ _ => Primitive.ofName? name == some .any
  | .union _ _ _ => true
  | .generic head _ _ _ => head == .promise

end IdlType

namespace Catalog

variable {c : Catalog}

/-- The definition, other than an enumeration, that a type without typedefs names. -/
def class? (c : Catalog) (r : IdlType) : Option Definition :=
  match r.name? with
  | some name =>
    if (Primitive.ofName? name).isSome then none else (c.get? name).filter fun d => !d.isEnum
  | none => none

/-- A type that names a definition which is written like the constants of an enumeration, or
like null where null is one more alternative. -/
def Disguised (c : Catalog) (ctx : TypeContext) (r : IdlType) : Prop :=
  ∃ d, c.class? r = some d ∧ (isEnumForm ctx.root (qualify ctx d.name) = true ∨
    isNullable (.of r.nullable r.attrs) ctx.position = true ∧ qualify ctx d.name = "null")

/-- A type that names a definition whose question mark is taken for that of the type. -/
def Misread (c : Catalog) (ctx : TypeContext) (r : IdlType) : Prop :=
  ∃ d, c.class? r = some d ∧ startsWith '?' (qualify ctx d.name) = true ∧
    ¬ (isNullable (.of r.nullable r.attrs) ctx.position = true ∧
      alternate d.kind ctx.position .binding = none)

/-- A binding and a documentation say the same, up to what is erased, unless a definition is
written like something else. -/
def ErasesUnless (c : Catalog) (ctx : TypeContext) (r : IdlType) (b doc : String) : Prop :=
  (alternativesRead b = (splitTopLevel doc).map (erase ctx.root) ↔
    ¬ c.Disguised ctx r ∧ ¬ c.Misread ctx r) ∧
  (¬ c.Disguised ctx r → (TypePair.agrees ⟨b, doc⟩ = true ↔
    (splitTopLevel doc).map (erase ctx.root) = splitTopLevel doc))

section Cases

variable {ctx : TypeContext} {r : IdlType} {b : String} {a : Alternatives}

/-- What names no definition has nothing to except. -/
theorem erasesUnless_of_erases {doc : String} (hnone : c.class? r = none)
    (h : Erases ctx.root b doc) : c.ErasesUnless ctx r b doc := by
  have hdisguised : ¬ c.Disguised ctx r := by
    rintro ⟨d, hd, -⟩
    rw [hnone] at hd
    cases hd
  have hmisread : ¬ c.Misread ctx r := by
    rintro ⟨d, hd, -⟩
    rw [hnone] at hd
    cases hd
  exact ⟨iff_of_true h.1 ⟨hdisguised, hmisread⟩, fun _ => h.2⟩

/-- The binding and the documentation of a definition go together unless it is written like
something else. -/
theorem erasesUnless_of_class {d : Definition} (hclass : c.class? r = some d)
    (hvoid : d.name ≠ "void") (hplain : Plain (qualify ctx d.name))
    (hsolid : ∀ part ∈ definitionParts ctx .documentation d, Solid part) :
    c.ErasesUnless ctx r
      (bindingText (definitionParts ctx .binding d)
        (isNullable (.of r.nullable r.attrs) ctx.position))
      (Alternatives.mk (definitionParts ctx .documentation d)
        (isNullable (.of r.nullable r.attrs) ctx.position)).text := by
  have hpaired := paired_class hplain hsolid (isNullable (.of r.nullable r.attrs) ctx.position)
  have hdisguised : c.Disguised ctx r ↔ isEnumForm ctx.root (qualify ctx d.name) = true ∨
      isNullable (.of r.nullable r.attrs) ctx.position = true ∧ qualify ctx d.name = "null" := by
    simp [Disguised, hclass]
  have hmisread : c.Misread ctx r ↔ startsWith '?' (qualify ctx d.name) = true ∧
      ¬ (isNullable (.of r.nullable r.attrs) ctx.position = true ∧
        alternate d.kind ctx.position .binding = none) := by
    simp [Misread, hclass]
  constructor
  · rw [hpaired.alternativesRead_iff, map_erase_class_iff hplain, hasNull_class_iff hvoid,
      questioned_class_iff, hdisguised, hmisread, not_or, Bool.not_eq_true, and_assoc]
  · rw [hdisguised, not_or, Bool.not_eq_true]
    rintro ⟨henum, hnull⟩
    exact hpaired.agrees_iff_erase ((map_erase_class_iff hplain).mpr henum)
      (by rwa [hasNull_class_iff hvoid])

/-- A type that names something. -/
theorem erasesUnless_named {name : String} {nullable : Bool} {attrs : ExtAttrs}
    (hopen : (IdlType.named name nullable attrs).isOpen = false)
    (hplain : ∀ d, c.get? name = some d → Plain (spelling ctx d))
    (hsolid : ∀ part ∈ a.parts, Solid part)
    (hb : bindingOf ctx (c.leaf name (.of nullable attrs)) = .ok b)
    (ha : alternativesOf ctx true (c.leaf name (.of nullable attrs)) = .ok a) :
    c.ErasesUnless ctx (.named name nullable attrs) b a.text := by
  rw [leaf] at hb ha
  cases hprimitive : Primitive.ofName? name with
  | some primitive =>
      rw [hprimitive] at hb ha
      refine erasesUnless_of_erases (by simp [class?, IdlType.name?, hprimitive])
        (erases_primitive ?_ hb ha)
      rintro rfl
      simp [IdlType.isOpen, hprimitive] at hopen
  | none =>
      cases hget : c.get? name with
      | none => simp [hprimitive, hget, bindingOf] at hb
      | some d =>
          simp only [hprimitive, hget] at hb ha
          cases henum : d.isEnum with
          | true =>
              exact erasesUnless_of_erases
                (by simp [class?, IdlType.name?, hprimitive, hget, henum])
                (erases_enum henum hsolid hb ha)
          | false =>
              rw [bindingOf, henum, if_neg Bool.false_ne_true, Except.ok.injEq] at hb
              rw [alternativesOf, henum, if_neg Bool.false_ne_true, Except.ok.injEq] at ha
              subst hb ha
              refine erasesUnless_of_class
                (by simp [class?, IdlType.name?, hprimitive, hget, henum])
                ?_ (by simpa [spelling, henum] using hplain d hget) hsolid
              rintro hvoid
              rw [name_of_get? hget] at hvoid
              subst hvoid
              exact absurd hprimitive (by decide)

end Cases

/-- **A binding is what is left of the documentation.**  A union, a promise and `any` are bound
by `mixed`.  Any other type has as many alternatives in its binding as in its documentation,
where lists and arrays of something have become arrays and the constants of an enumeration
strings; the exception are types that name a definition which is written like null, like the
constants of an enumeration, or with a question mark in front.  The documentation is left out,
disguised definitions aside, if and only if this changes nothing. -/
theorem binding_erases_documentation (c : Catalog) (hplain : ∀ d ∈ c.definitions, Plain d.name)
    (config : Config) (hconfig : config.validate = .ok ()) (own : String) (position : Position)
    (type : IdlType) (b doc : String)
    (hb : binding c ⟨config.root, own, position⟩ type = .ok b)
    (hdoc : documentation c ⟨config.root, own, position⟩ type = .ok doc) :
    ∃ r, c.resolve type = .ok r ∧ (r.isOpen = true → b = "mixed") ∧
      (r.isOpen = false →
        (alternativesRead b = (splitTopLevel doc).map (erase config.root) ↔
          ¬ c.Disguised ⟨config.root, own, position⟩ r ∧
            ¬ c.Misread ⟨config.root, own, position⟩ r) ∧
        (¬ c.Disguised ⟨config.root, own, position⟩ r →
          (TypePair.agrees ⟨b, doc⟩ = true ↔
            (splitTopLevel doc).map (erase config.root) = splitTopLevel doc))) := by
  have hroot := Config.plain_root hconfig
  rw [documentation, documentationOf, bind_eq_ok] at hdoc
  obtain ⟨a, ha, hdoc⟩ := hdoc
  rw [pure_eq_ok] at hdoc
  subst hdoc
  have hsolid := solid_parts hroot (plain_of_within hplain type) ha
  cases hr : c.resolve type with
  | error e => simp [binding, tree_of_resolve_error hr, bindingOf] at hb
  | ok r =>
      obtain ⟨depth, -, htree⟩ := exists_tree_of_resolve hr
      rw [binding, htree] at hb
      rw [htree] at ha
      refine ⟨r, rfl, fun hopen => ?_, fun hopen => ?_⟩
      · cases r with
        | union members nullable attrs =>
            rw [IdlType.toTree, bindingOf, Except.ok.injEq] at hb
            exact hb.symm
        | generic head args nullable attrs =>
            obtain rfl : head = .promise := by simpa [IdlType.isOpen] using hopen
            rw [IdlType.toTree, bindingOf, Except.ok.injEq] at hb
            exact hb.symm
        | named name nullable attrs =>
            have hany : Primitive.ofName? name = some .any := by simpa [IdlType.isOpen] using hopen
            rw [IdlType.toTree, nameTree_of_typedef?_eq_none (typedef?_of_resolve hr rfl), leaf,
              hany, bindingOf, Except.ok.injEq] at hb
            exact hb.symm
      · change c.ErasesUnless ⟨config.root, own, position⟩ r b a.text
        cases r with
        | union members nullable attrs => cases hopen
        | generic head args nullable attrs =>
            rw [IdlType.toTree] at hb ha
            exact erasesUnless_of_erases rfl
              (erases_generic (by simpa [IdlType.isOpen] using hopen) hsolid hb ha)
        | named name nullable attrs =>
            rw [IdlType.toTree, nameTree_of_typedef?_eq_none (typedef?_of_resolve hr rfl)] at hb ha
            refine erasesUnless_named hopen (fun d hget => ?_) hsolid hb ha
            exact plain_spelling hroot (hplain d (mem_of_get? hget))

/-- `dictionary Size`, `enum Mode`, `typedef sequence<Mode>? Modes` and `typedef Size? Extent`. -/
def sizes : Catalog where
  definitions := [
    { name := "Mode", kind := .enum ["open", "closed"] },
    { name := "Size", kind := .dictionary }]
  typedefs := [
    ("Extent", .named "Size" true {}),
    ("Modes", .generic .sequence [.named "Mode" false {}] true {})]
  includes := []

/-- An argument is a size, an array or null, as its documentation says of what kind. -/
theorem sizes_are_erased :
    binding sizes ⟨"Site", "Shelf", .argument⟩ (.ofName "Extent") = .ok "Size|array|null" ∧
      documentation sizes ⟨"Site", "Shelf", .argument⟩ (.ofName "Extent") =
        .ok "Size|array<string, mixed>|null" ∧
      alternativesRead "Size|array|null" =
        (splitTopLevel "Size|array<string, mixed>|null").map (erase "Site") ∧
      TypePair.agrees ⟨"Size|array|null", "Size|array<string, mixed>|null"⟩ = false := by
  have hb : binding sizes ⟨"Site", "Shelf", .argument⟩ (.ofName "Extent") =
      .ok "Size|array|null" := eq_ok_of_toOption (by decide +kernel)
  have hdoc : documentation sizes ⟨"Site", "Shelf", .argument⟩ (.ofName "Extent") =
      .ok "Size|array<string, mixed>|null" := eq_ok_of_toOption (by decide +kernel)
  have hresolve : (sizes.resolve (.ofName "Extent")).toOption.map (fun r =>
      (r.isOpen, (sizes.class? r).map (·.name))) = some (false, some "Size") := by
    decide +kernel
  obtain ⟨r, hr, hfacts⟩ := ok_of_toOption_map hresolve
  simp only [Prod.mk.injEq, Option.map_eq_some_iff] at hfacts
  obtain ⟨hopen, d, hclass, hname⟩ := hfacts
  obtain ⟨r', hr', -, herase⟩ := binding_erases_documentation sizes (by decide)
    { root := "Site" } (by decide) "Shelf" .argument (.ofName "Extent") _ _ hb hdoc
  rw [hr, Except.ok.injEq] at hr'
  subst hr'
  have hspelled : ∀ other, sizes.class? r = some other →
      qualify ⟨"Site", "Shelf", .argument⟩ other.name = "Size" := by
    intro other hother
    rw [hclass, Option.some.injEq] at hother
    rw [← hother, hname]
    decide
  have hdisguised : ¬ sizes.Disguised ⟨"Site", "Shelf", .argument⟩ r := by
    rintro ⟨other, hother, hform⟩
    rw [hspelled other hother] at hform
    exact absurd hform (by simp [isEnumForm, enumOpening, List.isPrefixOf])
  have hmisread : ¬ sizes.Misread ⟨"Site", "Shelf", .argument⟩ r := by
    rintro ⟨other, hother, hmark, -⟩
    rw [hspelled other hother] at hmark
    exact absurd hmark (by decide)
  refine ⟨hb, hdoc, (herase hopen).1.mpr ⟨hdisguised, hmisread⟩, ?_⟩
  rw [Bool.eq_false_iff, ne_eq, (herase hopen).2 hdisguised]
  decide +kernel

/-- An interface that is called null is null twice in a binding, and once in a documentation. -/
theorem null_interface_is_not_erased :
    ∃ r, Registry.build {} [.definition { name := "null", kind := .interface }] = .ok r ∧
      (∀ d ∈ r.definitions, Plain d.name) ∧ ({} : Config).validate = .ok () ∧
      binding r.toCatalog ⟨"Generated", "A", .argument⟩ (.named "null" true {}) = .ok "?null" ∧
      documentation r.toCatalog ⟨"Generated", "A", .argument⟩ (.named "null" true {}) =
        .ok "null" ∧
      alternativesRead "?null" ≠ (splitTopLevel "null").map (erase "Generated") ∧
      (splitTopLevel "null").map (erase "Generated") = splitTopLevel "null" ∧
      TypePair.agrees ⟨"?null", "null"⟩ = false := by
  have hbuild : (Registry.build {}
      [.definition { name := "null", kind := .interface }]).toOption.map
      (fun r => (decide (∀ d ∈ r.definitions, Plain d.name),
        (binding r.toCatalog ⟨"Generated", "A", .argument⟩ (.named "null" true {})).toOption,
        (documentation r.toCatalog ⟨"Generated", "A", .argument⟩
          (.named "null" true {})).toOption)) = some (true, some "?null", some "null") := by
    decide +kernel
  obtain ⟨r, hr, hfacts⟩ := ok_of_toOption_map hbuild
  simp only [Prod.mk.injEq, decide_eq_true_eq] at hfacts
  obtain ⟨hplain, hb, hdoc⟩ := hfacts
  exact ⟨r, hr, hplain, by decide, eq_ok_of_toOption hb, eq_ok_of_toOption hdoc,
    by decide +kernel, by decide +kernel, by decide⟩

end Catalog

end WebIdl
