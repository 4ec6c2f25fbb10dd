import WebIdl.Proofs.Rendering

/-!
# WebIdl.Proofs.Words

The words of a type text: what stands between its bars, brackets, commas, question marks and
spaces.

Texts with a separator between them have the words of each (`words_joinWith`), and so has a
text that was cut outside of brackets (`wordsIn_splitTopLevel`).  A rendering has words for
types and the words of the definitions in it (`wordsIn_bindingOf`, `wordsIn_documentationOf`),
and putting renderings together adds none (`in_mergeOverloads`).
-/

namespace WebIdl

open WebIdl.Code
open WebIdl.Text (joinWith splitChars splitTopLevel split startsWith)

namespace Text

/-! ## words -/

/-- Whether a character separates the words of a type text. -/
def isSeparator (c : Char) : Bool :=
  ['|', '<', '>', ',', '?', ' '].contains c

/-- The words of a type text on its characters. -/
def wordsOf (cs : List Char) : List (List Char) :=
  (splitChars '|' (cs.map fun c => if isSeparator c then '|' else c)).filter (· ≠ [])

/-- The words of a type text, in order. -/
def words (s : String) : List String :=
  (wordsOf s.toList).map String.ofList

/-- A text that stands between words. -/
def Separates (sep : String) : Prop :=
  sep ≠ "" ∧ ∀ c ∈ sep.toList, isSeparator c = true

instance (sep : String) : Decidable (Separates sep) :=
  @instDecidableAnd _ _ _ (List.decidableBAll _ sep.toList)

/-- A separator ends the words before it. -/
theorem wordsOf_append_separator {c : Char} (hc : isSeparator c = true) (a b : List Char) :
    wordsOf (a ++ c :: b) = wordsOf a ++ wordsOf b := by
  rw [wordsOf, List.map_append, List.map_cons, if_pos hc, splitChars_append_sep,
    List.filter_append]
  rfl

theorem wordsOf_append {mid : List Char} (hne : mid ≠ []) (hmid : ∀ c ∈ mid, isSeparator c = true)
    (a b : List Char) : wordsOf (a ++ (mid ++ b)) = wordsOf a ++ wordsOf b := by
  induction mid generalizing a with
  | nil => exact absurd rfl hne
  | cons c mid ih =>
      obtain ⟨hc, hmid⟩ := List.forall_mem_cons.mp hmid
      rw [List.cons_append, wordsOf_append_separator hc]
      cases mid with
      | nil => rfl
      | cons next mid => rw [← List.nil_append (next :: mid ++ b), ih (by simp) hmid]; rfl

/-- Texts with a separator between them have the words of the one, then those of the other. -/
theorem words_append {sep : String} (hsep : Separates sep) (a b : String) :
    words (a ++ sep ++ b) = words a ++ words b := by
  have hne : sep.toList ≠ [] := fun h => hsep.1 (String.toList_eq_nil_iff.mp h)
  rw [words, String.toList_append, String.toList_append, List.append_assoc,
    wordsOf_append hne hsep.2, List.map_append]
  rfl

/-- Joined texts have the words of all of them, in order. -/
theorem words_joinWith {sep : String} (hsep : Separates sep) (pieces : List String) :
    words (joinWith sep pieces) = pieces.flatMap words := by
  induction pieces with
  | nil => rw [joinWith_nil]; rfl
  | cons piece pieces ih =>
      cases pieces with
      | nil => simp
      | cons next pieces =>
          rw [joinWith_cons (by simp), words_append hsep, ih, ← List.flatMap_cons]

/-- Joining at bars undoes cutting at bars. -/
theorem joinWith_splitTopLevel (s : String) : joinWith "|" (splitTopLevel s) = s := by
  rw [← String.toList_inj, joinWith, String.toList_intercalate, splitTopLevel, List.map_map]
  have hid : String.toList ∘ String.ofList = id := funext fun _ => String.toList_ofList
  rw [hid, List.map_id]
  exact intercalate_splitBars 0 s.toList

/-! ## texts of some words -/

/-- All words of a text are of a kind. -/
def WordsIn (kind : String → Prop) (s : String) : Prop :=
  ∀ word ∈ words s, kind word

section Kind

variable {kind : String → Prop}

/-- Texts with a separator between them have words of a kind if both do. -/
theorem wordsIn_append {sep : String} (hsep : Separates sep) {a b : String} :
    WordsIn kind (a ++ sep ++ b) ↔ WordsIn kind a ∧ WordsIn kind b := by
  rw [WordsIn, words_append hsep, List.forall_mem_append]
  rfl

/-- Joined texts have words of a kind if all of them do. -/
theorem wordsIn_joinWith {sep : String} (hsep : Separates sep) {pieces : List String} :
    WordsIn kind (joinWith sep pieces) ↔ ∀ piece ∈ pieces, WordsIn kind piece := by
  rw [WordsIn, words_joinWith hsep]
  simp only [List.mem_flatMap, forall_exists_index, and_imp]
  exact ⟨fun h piece hpiece word hword => h word piece hpiece hword,
    fun h word piece hpiece hword => h piece hpiece word hword⟩

/-- Cutting at bars keeps the words. -/
theorem wordsIn_splitTopLevel {s : String} :
    WordsIn kind s ↔ ∀ part ∈ splitTopLevel s, WordsIn kind part := by
  have hjoin : WordsIn kind (joinWith "|" (splitTopLevel s)) ↔ _ :=
    wordsIn_joinWith (by decide : Separates "|")
  rwa [joinWith_splitTopLevel] at hjoin

end Kind

end Text

namespace Code

open WebIdl.Text (WordsIn Separates words)

/-- The words that stand for types of the generated language. -/
def typeWords : List String :=
  ["int", "float", "string", "bool", "object", "mixed", "null", "void", "array", "list",
    "callable", "\\Iterator"]

/-- Both renderings of a type have words of a kind only. -/
def TypePair.In (kind : String → Prop) (type : TypePair) : Prop :=
  WordsIn kind type.binding ∧ WordsIn kind type.doc

variable {kind : String → Prop} {ctx : TypeContext} {tree : TypeTree}

section Words

variable (hwords : ∀ word ∈ typeWords, kind word)

include hwords

/-- Words of the generated language are of any kind that has them. -/
theorem wordsIn_of_typeWords {s : String} (h : ∀ word ∈ words s, word ∈ typeWords) :
    WordsIn kind s :=
  fun word hword => hwords word (h word hword)

/-! ## renderings -/

/-- The text of some alternatives has words of the kind that the alternatives have. -/
theorem wordsIn_text {a : Alternatives} (h : ∀ part ∈ a.parts, WordsIn kind part) :
    WordsIn kind a.text := by
  rw [Alternatives.text_eq, Text.wordsIn_joinWith (by decide)]
  intro part hpart
  rcases Alternatives.mem_list_cases hpart with hpart | rfl | rfl
  · exact h part hpart
  · exact wordsIn_of_typeWords hwords (by decide)
  · exact wordsIn_of_typeWords hwords (by decide)

/-- A container has words of the kind that its arguments have. -/
theorem wordsIn_containerText {head : Generic} {inners : List String}
    (h : ∀ inner ∈ inners, WordsIn kind inner) : WordsIn kind (containerText head inners) := by
  have hclosing : containerText head inners =
      containerWord head ++ "<" ++ joinWith ", " inners ++ ">" ++ "" := by
    simp [containerText]
  rw [hclosing, Text.wordsIn_append (by decide), Text.wordsIn_append (by decide),
    Text.wordsIn_joinWith (by decide)]
  refine ⟨⟨wordsIn_of_typeWords hwords ?_, h⟩, wordsIn_of_typeWords hwords (by decide)⟩
  cases head <;> decide

/-- The documentation of a tree has words for types and those of the definitions in it. -/
theorem wordsIn_documentationOf {doc : String}
    (hnames : ∀ d marks, (TypeTree.definition d marks).Within tree →
      WordsIn kind (spelling ctx d))
    (h : documentationOf ctx tree = .ok doc) : WordsIn kind doc := by
  rw [documentationOf, bind_eq_ok] at h
  obtain ⟨a, halts, hdoc⟩ := h
  rw [pure_eq_ok] at hdoc
  subst hdoc
  have hdocWords : ∀ text ∈ "void" :: docWords, ∀ word ∈ words text, word ∈ typeWords := by
    decide
  refine wordsIn_text hwords (parts_closed ?_ ?_ halts ?_ hnames)
  · intro text htext
    exact wordsIn_of_typeWords hwords (hdocWords text (List.mem_cons_of_mem _ htext))
  · intro head branches hbranches
    refine wordsIn_containerText hwords fun inner hinner => ?_
    obtain ⟨branch, hbranch, rfl⟩ := List.mem_map.mp hinner
    exact wordsIn_text hwords (hbranches branch hbranch)
  · intro _ _
    exact wordsIn_of_typeWords hwords (hdocWords "void" List.mem_cons_self)

/-- Null may be one more alternative. -/
theorem wordsIn_orNull {s : String} (h : WordsIn kind s) : WordsIn kind (s ++ "|null") := by
  have hsplit : s ++ "|null" = s ++ "|" ++ "null" := by
    rw [String.append_assoc]
    rfl
  rw [hsplit, Text.wordsIn_append (by decide)]
  exact ⟨h, wordsIn_of_typeWords hwords (by decide)⟩

omit hwords in

/-- A mark for null is no word. -/
theorem wordsIn_question {s : String} (h : WordsIn kind s) : WordsIn kind ("?" ++ s) := by
  have hsplit : "?" ++ s = "" ++ "?" ++ s := by simp
  rw [hsplit, Text.wordsIn_append (by decide)]
  exact ⟨fun word hword => absurd hword (by decide +revert), h⟩

/-- The binding of a tree has words for types and those of the definition that it is. -/
theorem wordsIn_bindingOf {b : String}
    (hnames : ∀ d marks, tree = .definition d marks → d.isEnum = false →
      WordsIn kind (qualify ctx d.name))
    (h : bindingOf ctx tree = .ok b) : WordsIn kind b := by
  obtain ⟨parts, nullable, rfl, hparts⟩ := madeFor_bindingOf h
  have hbindingWords : ∀ text ∈ bindingWords, ∀ word ∈ words text, word ∈ typeWords := by
    decide
  have hall : ∀ part ∈ parts, WordsIn kind part := by
    intro part hpart
    rcases hparts part hpart with hword | ⟨d, marks, htree, henum, rfl⟩
    · exact wordsIn_of_typeWords hwords (hbindingWords part hword)
    · exact hnames d marks htree henum
  have hjoin : WordsIn kind (joinWith "|" parts) := (Text.wordsIn_joinWith (by decide)).mpr hall
  rw [bindingText.eq_def]
  split
  next part => exact wordsIn_question (hall part (by simp))
  next => exact wordsIn_orNull hwords hjoin
  next => exact hjoin

/-! ## renderings put together -/

/-- Accepting null keeps the kind of the words of a binding. -/
theorem wordsIn_nullableBinding {b : String} (h : WordsIn kind b) :
    WordsIn kind (nullableBinding b) := by
  rw [nullableBinding]
  split
  · exact h
  · split
    · exact wordsIn_orNull hwords h
    · exact wordsIn_question h

/-- Accepting null keeps the kind of the words of a documentation. -/
theorem wordsIn_nullableDoc {doc : String} (h : WordsIn kind doc) :
    WordsIn kind (nullableDoc doc) := by
  rw [nullableDoc]
  split
  · exact h
  · exact wordsIn_orNull hwords h

/-- A type that accepts null as well has words of the same kind. -/
theorem in_orNull {type : TypePair} (h : type.In kind) : type.orNull.In kind :=
  ⟨wordsIn_nullableBinding hwords h.1, wordsIn_nullableDoc hwords h.2⟩

/-- A default keeps the kind of the words. -/
theorem in_withDefault (param : Param) (default : String) (h : param.type.In kind) :
    (param.withDefault default).type.In kind := by
  rw [Param.withDefault]
  dsimp only
  split
  · exact in_orNull hwords h
  · exact h

/-- Widening bindings keeps the kind of their words. -/
theorem wordsIn_widen {bindings : List String} (h : ∀ b ∈ bindings, WordsIn kind b) :
    WordsIn kind (widen bindings) := by
  cases bindings with
  | nil => exact wordsIn_of_typeWords hwords (by decide)
  | cons first rest =>
      rw [widen]
      split
      · exact h first List.mem_cons_self
      · exact wordsIn_of_typeWords hwords (by decide)

/-- Joining documentations keeps the kind of their words. -/
theorem wordsIn_unionDoc {docs : List String} (h : ∀ doc ∈ docs, WordsIn kind doc) :
    WordsIn kind (unionDoc docs) := by
  have hparts : WordsIn kind
      (joinWith "|" (((docs.flatMap splitTopLevel).filter (· != "null")).foldl addPart [])) := by
    rw [Text.wordsIn_joinWith (by decide)]
    intro part hpart
    rw [mem_foldl_addPart, List.mem_filter, List.mem_flatMap] at hpart
    obtain hpart | ⟨⟨doc, hdoc, hpart⟩, -⟩ := hpart
    · cases hpart
    · exact Text.wordsIn_splitTopLevel.mp (h doc hdoc) part hpart
  rw [unionDoc]
  split
  · split
    · exact wordsIn_of_typeWords hwords (by decide)
    · exact wordsIn_orNull hwords hparts
  · exact hparts

end Words

/-- The types of a method: those of its parameters and of its result. -/
def MethodSig.types (sig : MethodSig) : List TypePair :=
  sig.params.map (·.type) ++ sig.result.toList

section Words

variable (hwords : ∀ word ∈ typeWords, kind word)

include hwords

/-- A merged parameter has words of the kind that the parameters at its position have. -/
theorem in_mergeParams {everywhere : Bool} {head : Param} {present : List Param}
    (h : ∀ param ∈ present, param.type.In kind) :
    (mergeParams everywhere head present).type.In kind := by
  have hbinding : WordsIn kind (widen (present.map (·.type.binding))) := by
    refine wordsIn_widen hwords fun b hb => ?_
    obtain ⟨param, hparam, rfl⟩ := List.mem_map.mp hb
    exact (h param hparam).1
  have hdoc : WordsIn kind (unionDoc (present.map (·.type.doc))) := by
    refine wordsIn_unionDoc hwords fun doc hdoc => ?_
    obtain ⟨param, hparam, rfl⟩ := List.mem_map.mp hdoc
    exact (h param hparam).2
  have hchoice : ∀ merged : Param, merged.type.In kind →
      (if merged.variadic then merged
        else if everywhere then
          if present.any (·.default.isSome) then
            merged.withDefault ((sharedDefault present).getD "null")
          else merged
        else merged.withDefault "null").type.In kind := by
    intro merged hmerged
    split
    · exact hmerged
    · split
      · split
        · exact in_withDefault hwords merged _ hmerged
        · exact hmerged
      · exact in_withDefault hwords merged _ hmerged
  exact hchoice _ ⟨hbinding, hdoc⟩

/-- A merged result has words of the kind that the overloads have. -/
theorem in_mergedResult {overloads : List MethodSig}
    (h : ∀ sig ∈ overloads, ∀ type ∈ sig.types, type.In kind) :
    (mergedResult overloads).In kind := by
  have hresults : ∀ type ∈ overloads.filterMap (·.result), type.In kind := by
    intro type htype
    obtain ⟨sig, hsig, hresult⟩ := List.mem_filterMap.mp htype
    exact h sig hsig type (List.mem_append_right _ (by simp [hresult]))
  rw [mergedResult]
  dsimp only
  split
  · exact ⟨wordsIn_of_typeWords hwords (by decide), wordsIn_of_typeWords hwords (by decide)⟩
  · constructor
    · refine wordsIn_widen hwords fun b hb => ?_
      obtain ⟨type, htype, rfl⟩ := List.mem_map.mp hb
      exact (hresults type htype).1
    · refine wordsIn_unionDoc hwords fun doc hdoc => ?_
      obtain ⟨type, htype, rfl⟩ := List.mem_map.mp hdoc
      split
      · exact wordsIn_of_typeWords hwords (by decide)
      · exact (hresults type htype).2

/-- Merging overloads adds no words but words for types. -/
theorem in_mergeOverloads {name : String} {overloads : List MethodSig}
    (h : ∀ sig ∈ overloads, ∀ type ∈ sig.types, type.In kind) :
    ∀ type ∈ (mergeOverloads name overloads).types, type.In kind := by
  match overloads with
  | [] => simp [mergeOverloads, MethodSig.types]
  | [only] => exact h only List.mem_cons_self
  | first :: second :: rest =>
      intro type htype
      rw [mergeOverloads, MethodSig.types, List.mem_append, List.mem_map] at htype
      · rcases htype with ⟨param, hparam, rfl⟩ | htype
        · rw [mergedParams, List.mem_filterMap] at hparam
          obtain ⟨position, -, hparam⟩ := hparam
          obtain ⟨head, -, rfl⟩ := Option.map_eq_some_iff.mp hparam
          refine in_mergeParams hwords fun param hpresent => ?_
          rw [paramsAt, List.mem_filterMap] at hpresent
          obtain ⟨sig, hsig, hget⟩ := hpresent
          exact h sig hsig _ (List.mem_append_left _
            (List.mem_map_of_mem (List.mem_of_getElem? hget)))
        · rw [Option.mem_toList, Option.map_eq_some_iff] at htype
          obtain ⟨-, -, rfl⟩ := htype
          exact in_mergedResult hwords h
      · simp

end Words

end Code

end WebIdl
