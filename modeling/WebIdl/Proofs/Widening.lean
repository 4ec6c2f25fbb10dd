import WebIdl.Code.Signature
import WebIdl.Proofs.Rendering
import WebIdl.Registry

/-!
# WebIdl.Proofs.Widening

A parameter that may be left out takes null.

A binding is widened as a whole, and always takes null after it.  A documentation is searched
for null by a cut at every bar, inside of brackets too, so that a null that a generic
`Conceals` between two other alternatives counts as one of its own (`barred_iff_conceals`).
A documentation takes null after it was widened exactly if it did before or nothing of that
kind is in it (`null_default_widens_iff`).
-/

namespace WebIdl

open WebIdl.Code
open WebIdl.Text (joinWith Plain Sheltered innerPieces split splitChars splitTopLevel startsWith)

namespace Text

/-! ## words between bars -/

/-- A word has a bar on both sides. -/
def Barred (word text : String) : Prop :=
  word.toList ∈ innerPieces '|' text.toList

variable {word : String}

/-- A plain text has no bar. -/
theorem Plain.bar_notMem {text : String} (h : Plain text) : '|' ∉ text.toList :=
  fun hmem => (h '|' hmem).1 rfl

/-- So no word has bars around it in a plain text. -/
theorem not_barred_of_plain {text : String} (h : Plain text) : ¬ Barred word text := by
  rw [Barred, innerPieces_of_not_mem h.bar_notMem]
  exact List.not_mem_nil

theorem mem_map_toList {texts : List String} :
    word.toList ∈ texts.map String.toList ↔ word ∈ texts :=
  List.mem_map_of_injective fun _ _ => String.toList_injective

section Parts

variable {parts : List String} (hword : '|' ∉ word.toList)
  (hparts : ∀ part ∈ parts, Sheltered '|' word.toList part.toList)

include hword hparts

/-- A word in joined parts has bars around it if it is a part between two others, or has them
inside of a part. -/
theorem barred_joinWith : Barred word (joinWith "|" parts) ↔
    word ∈ parts.tail.dropLast ∨ ∃ part ∈ parts, Barred word part := by
  have hinner : word.toList ∈ innerPieces '|' (['|'].intercalate (parts.map String.toList)) ↔ _ :=
    mem_innerPieces_intercalate (List.forall_mem_map.mpr hparts) hword
  rw [← List.map_tail, ← List.map_dropLast, mem_map_toList] at hinner
  simp only [List.mem_map, exists_exists_and_eq_and] at hinner
  rw [Barred, joinWith, String.toList_intercalate]
  exact hinner

/-- Cutting joined parts gives the parts back, and what has bars around it inside of one. -/
theorem mem_split_joinWith (hne : parts ≠ []) : word ∈ split '|' (joinWith "|" parts) ↔
    word ∈ parts ∨ ∃ part ∈ parts, Barred word part := by
  have hpieces := mem_flatMap_splitChars (List.forall_mem_map.mpr hparts) hword
  rw [mem_map_toList] at hpieces
  simp only [List.mem_map, exists_exists_and_eq_and] at hpieces
  have hsplit : splitChars '|' (joinWith "|" parts).toList =
      (parts.map String.toList).flatMap (splitChars '|') := by
    rw [joinWith, String.toList_intercalate]
    exact splitChars_intercalate (by simpa using hne)
  rw [split, hsplit]
  refine Iff.trans ?_ hpieces
  constructor
  · intro hmem
    obtain ⟨piece, hpiece, rfl⟩ := List.mem_map.mp hmem
    rwa [String.toList_ofList]
  · intro hmem
    exact List.mem_map.mpr ⟨_, hmem, String.ofList_toList⟩

end Parts

/-- Joining with commas puts bars around no word without a comma. -/
theorem barred_joinWith_comma (hword : ',' ∉ word.toList) {texts : List String} :
    Barred word (joinWith ", " texts) ↔ ∃ text ∈ texts, Barred word text := by
  induction texts with
  | nil => simp [Barred, innerPieces, splitChars]
  | cons text texts ih =>
      cases texts with
      | nil => simp
      | cons next texts =>
          have happend : (joinWith ", " (text :: next :: texts)).toList =
              text.toList ++ (", ".toList ++ (joinWith ", " (next :: texts)).toList) := by
            rw [joinWith_cons (by simp)]
            simp
          rw [Barred, happend, mem_innerPieces_append (by decide) (by decide) hword,
            List.exists_mem_cons_iff, ← ih]
          rfl

end Text

namespace Code

/-! ## words inside of generics -/

/-- Inside of a generic, an alternative stands between two others. -/
inductive Conceals (ctx : TypeContext) (word : String) : TypeTree → Prop where
  | between {head : Generic} {args : List TypeTree} {marks : NullMarks} {arg : TypeTree}
      {inner : Alternatives} : head ≠ .promise → arg ∈ args →
      alternativesOf ctx false arg = .ok inner → word ∈ inner.list.tail.dropLast →
      Conceals ctx word (.generic head args marks)
  | inside {head : Generic} {args : List TypeTree} {marks : NullMarks} {arg : TypeTree} :
      head ≠ .promise → arg ∈ args → Conceals ctx word arg →
      Conceals ctx word (.generic head args marks)
  | branch {members : List TypeTree} {marks : NullMarks} {member : TypeTree} :
      member ∈ members → Conceals ctx word member → Conceals ctx word (.union members marks)

variable {ctx : TypeContext} {word : String} {top : Bool} {tree : TypeTree} {a : Alternatives}

/-- A union conceals what a member conceals. -/
theorem conceals_union {members : List TypeTree} {marks : NullMarks} :
    Conceals ctx word (.union members marks) ↔ ∃ member ∈ members, Conceals ctx word member := by
  constructor
  · rintro (_ | _ | ⟨hmember, hconceals⟩)
    exact ⟨_, hmember, hconceals⟩
  · rintro ⟨member, hmember, hconceals⟩
    exact .branch hmember hconceals

/-- A generic conceals what stands between two alternatives of an argument, and what an
argument conceals. -/
theorem conceals_generic {head : Generic} (hhead : head ≠ .promise) {args : List TypeTree}
    {marks : NullMarks} : Conceals ctx word (.generic head args marks) ↔
      ∃ arg ∈ args, (∃ inner, alternativesOf ctx false arg = .ok inner ∧
        word ∈ inner.list.tail.dropLast) ∨ Conceals ctx word arg := by
  constructor
  · rintro (⟨-, harg, halts, hbetween⟩ | ⟨-, harg, hconceals⟩)
    · exact ⟨_, harg, Or.inl ⟨_, halts, hbetween⟩⟩
    · exact ⟨_, harg, Or.inr hconceals⟩
  · rintro ⟨arg, harg, ⟨inner, halts, hbetween⟩ | hconceals⟩
    · exact .between hhead harg halts hbetween
    · exact .inside hhead harg hconceals

/-- A promise conceals nothing, since its argument is not written. -/
theorem not_conceals_promise {args : List TypeTree} {marks : NullMarks} :
    ¬ Conceals ctx word (.generic .promise args marks) := by
  rintro (⟨hne, -, -⟩ | ⟨hne, -⟩) <;> exact hne rfl

/-- A container is its opening, its arguments with commas between, and a closing bracket. -/
theorem toList_containerText (head : Generic) (inners : List String) :
    (containerText head inners).toList =
      (containerWord head ++ "<").toList ++ ((joinWith ", " inners).toList ++ ['>']) := by
  simp [containerText]

/-- No container opens with a bar. -/
theorem bar_notMem_opening (head : Generic) : '|' ∉ (containerWord head ++ "<").toList := by
  cases head <;> decide

/-- A word has bars around it in a container if it has them in an argument. -/
theorem barred_containerText (hword : ',' ∉ word.toList) {head : Generic} {inners : List String} :
    Text.Barred word (containerText head inners) ↔ ∃ inner ∈ inners, Text.Barred word inner := by
  rw [← Text.barred_joinWith_comma hword, Text.Barred, toList_containerText,
    Text.innerPieces_append_left (bar_notMem_opening head),
    Text.innerPieces_append_right (by decide)]
  rfl

/-- A word that is a piece of a container has bars on both sides. -/
theorem sheltered_containerText (hword : Plain word) {head : Generic} {inners : List String} :
    Sheltered '|' word.toList (containerText head inners).toList := by
  have hleft : '<' ∈ (containerWord head ++ "<").toList := by simp
  rw [toList_containerText]
  exact Text.sheltered_bracketed (bar_notMem_opening head) (by decide) hleft
    (List.mem_singleton_self '>') (fun hmem => (hword '<' hmem).2.1 rfl)
    (fun hmem => (hword '>' hmem).2.2 rfl)

section Plain

variable (hword : Plain word) (hroot : Plain ctx.root)
  (hnames : ∀ d marks, (TypeTree.definition d marks).Within tree → Plain d.name)
  (h : alternativesOf ctx top tree = .ok a)

include hword hroot hnames h

/-- A word that is a piece of an alternative is all of it, or has bars on both sides. -/
theorem sheltered_parts : ∀ part ∈ a.parts, Sheltered '|' word.toList part.toList := by
  have hwords : ∀ word ∈ "void" :: docWords, '|' ∉ word.toList := by decide
  refine parts_closed (fun other hother => Text.sheltered_of_not_mem _
    (hwords other (List.mem_cons_of_mem _ hother))) (fun _ _ _ => sheltered_containerText hword) h
    (fun _ _ => Text.sheltered_of_not_mem _ (hwords "void" List.mem_cons_self)) ?_
  exact fun d marks hwithin => Text.sheltered_of_not_mem _
    (plain_spelling hroot (hnames d marks hwithin)).bar_notMem

theorem sheltered_list : ∀ part ∈ a.list, Sheltered '|' word.toList part.toList := by
  intro part hpart
  rcases Alternatives.mem_list_cases hpart with hpart | rfl | rfl
  · exact sheltered_parts hword hroot hnames h part hpart
  · exact Text.sheltered_of_not_mem _ (by decide)
  · exact Text.sheltered_of_not_mem _ (by decide)

omit hword hroot hnames h in

/-- What is written has bars around a word where an alternative has them. -/
theorem exists_barred_list :
    (∃ part ∈ a.list, Text.Barred word part) ↔ ∃ part ∈ a.parts, Text.Barred word part := by
  constructor
  · rintro ⟨part, hpart, hbarred⟩
    rcases Alternatives.mem_list_cases hpart with hpart | rfl | rfl
    · exact ⟨part, hpart, hbarred⟩
    · exact absurd hbarred (Text.not_barred_of_plain (by decide))
    · exact absurd hbarred (Text.not_barred_of_plain (by decide))
  · rintro ⟨part, hpart, hbarred⟩
    exact ⟨part, Alternatives.mem_list_of_mem_parts hpart, hbarred⟩

/-- A word is between the bars of a documentation as one of its alternatives, or inside of
one. -/
theorem barred_text : Text.Barred word a.text ↔
    word ∈ a.list.tail.dropLast ∨ ∃ part ∈ a.parts, Text.Barred word part := by
  rw [Alternatives.text_eq, Text.barred_joinWith hword.bar_notMem
    (sheltered_list hword hroot hnames h), exists_barred_list]

end Plain

/-- No word that stands for no definition has bars in it. -/
theorem not_barred_of_mem_docWords {part : String} (h : part ∈ docWords) :
    ¬ Text.Barred word part := by
  have hwords : ∀ part ∈ docWords, '|' ∉ part.toList := by decide
  rw [Text.Barred, Text.innerPieces_of_not_mem (hwords part h)]
  exact List.not_mem_nil

/-- A word is between bars inside of an alternative exactly if a generic conceals it. -/
theorem barred_iff_conceals (hword : Plain word) (hcomma : ',' ∉ word.toList)
    (hroot : Plain ctx.root)
    (hnames : ∀ d marks, (TypeTree.definition d marks).Within tree → Plain d.name)
    (h : alternativesOf ctx top tree = .ok a) :
    (∃ part ∈ a.parts, Text.Barred word part) ↔ Conceals ctx word tree := by
  -- Along the tree: there are no bars in a leaf, a union has what its members have, and a
  -- generic has the texts of its arguments, whose alternatives stand between its bars.
  induction tree using TypeTree.inside_induction generalizing top a with
  | primitive primitive marks =>
      refine iff_of_false ?_ (by rintro ⟨⟩)
      rintro ⟨part, hpart, hbarred⟩
      rcases mem_parts_primitive h hpart with hpart | ⟨-, -, rfl⟩
      · exact not_barred_of_mem_docWords hpart hbarred
      · exact Text.not_barred_of_plain (by decide) hbarred
  | definition d marks =>
      refine iff_of_false ?_ (by rintro ⟨⟩)
      rintro ⟨part, hpart, hbarred⟩
      rcases mem_parts_definition h hpart with rfl | hpart
      · exact Text.not_barred_of_plain (plain_spelling hroot (hnames d marks .self)) hbarred
      · exact not_barred_of_mem_docWords hpart hbarred
  | unknown name => simp [alternativesOf] at h
  | fault error => simp [alternativesOf] at h
  | union members marks ih =>
      obtain ⟨branches, hbranches, rfl⟩ := alternativesOf_union.mp h
      rw [conceals_union, ← exists_branch_iff hbranches fun member hmember branch halts =>
        ih member hmember (fun d marks hwithin => hnames d marks (.member hmember hwithin)) halts]
      simp only [Alternatives.mem_parts_union]
      grind
  | generic head args marks ih =>
      by_cases hhead : head = .promise
      · subst hhead
        rw [alternativesOf_promise] at h
        cases h
        simpa [Alternatives.one, not_conceals_promise] using Text.not_barred_of_plain (by decide)
      · obtain ⟨-, branches, hbranches, rfl⟩ := (alternativesOf_generic hhead).mp h
        have harg : ∀ arg ∈ args, ∀ inner, alternativesOf ctx false arg = .ok inner →
            (Text.Barred word inner.text ↔ (∃ inner, alternativesOf ctx false arg = .ok inner ∧
              word ∈ inner.list.tail.dropLast) ∨ Conceals ctx word arg) := by
          intro arg hmem inner halts
          have hinside : ∀ d marks, (TypeTree.definition d marks).Within arg → Plain d.name :=
            fun d marks hwithin => hnames d marks (.arg hmem hwithin)
          rw [barred_text hword hroot hinside halts, ih arg hmem hinside halts]
          simp [halts]
        rw [conceals_generic hhead, ← exists_branch_iff hbranches harg]
        simp [Alternatives.one, barred_containerText hcomma]

/-! ## widened bindings -/

/-- A binding that takes null. -/
def TakesNull (binding : String) : Prop :=
  binding = "mixed" ∨ binding = "null" ∨ startsWith '?' binding = true ∨
    "null" ∈ split '|' binding

instance (binding : String) : Decidable (TakesNull binding) :=
  inferInstanceAs (Decidable (_ ∨ _ ∨ _ ∨ _))

/-- A binding stays as it is if it takes null, and else gets null as an alternative or a
question mark. -/
theorem nullableBinding_cases (b : String) :
    TakesNull b ∧ nullableBinding b = b ∨
      ¬ TakesNull b ∧ '|' ∈ b.toList ∧ nullableBinding b = b ++ "|null" ∨
      ¬ TakesNull b ∧ '|' ∉ b.toList ∧ nullableBinding b = "?" ++ b := by
  have hcheck : (b == "mixed" || b == "null" || startsWith '?' b ||
      (split '|' b).contains "null") = true ↔ TakesNull b := by
    simp [TakesNull, or_assoc]
  rw [nullableBinding]
  by_cases hnull : TakesNull b
  · exact Or.inl ⟨hnull, if_pos (hcheck.mpr hnull)⟩
  · rw [if_neg fun h => hnull (hcheck.mp h)]
    by_cases hbar : '|' ∈ b.toList
    · exact Or.inr (Or.inl ⟨hnull, hbar, if_pos (by simpa using hbar)⟩)
    · exact Or.inr (Or.inr ⟨hnull, hbar, if_neg (by simpa using hbar)⟩)

/-- Every binding takes null after it was widened. -/
theorem takesNull_nullableBinding (b : String) : TakesNull (nullableBinding b) := by
  rcases nullableBinding_cases b with ⟨hnull, hwide⟩ | ⟨-, -, hwide⟩ | ⟨-, -, hwide⟩
  · rw [hwide]
    exact hnull
  · refine Or.inr (Or.inr (Or.inr ?_))
    have hsplit : splitChars '|' (b ++ "|null").toList =
        splitChars '|' b.toList ++ splitChars '|' "null".toList := by
      rw [String.toList_append]
      exact Text.splitChars_append_sep _ _
    rw [hwide, split, hsplit, List.map_append]
    exact List.mem_append_right _ (by decide)
  · refine Or.inr (Or.inr (Or.inl ?_))
    simp [hwide, startsWith]

/-- The alternatives of a binding, where `?T` is `T` or null. -/
def alternativesRead (b : String) : List String :=
  match b.toList with
  | '?' :: inner => splitTopLevel (String.ofList inner) ++ ["null"]
  | _ => splitTopLevel b

/-- A question mark is read as null, one more alternative. -/
theorem alternativesRead_question (b : String) :
    alternativesRead ("?" ++ b) = splitTopLevel b ++ ["null"] := by
  have htext : ("?" ++ b).toList = '?' :: b.toList := by simp
  rw [alternativesRead, htext]
  simp

/-- Without a question mark, the alternatives are what stands between bars. -/
theorem alternativesRead_of_not {b : String} (h : startsWith '?' b = false) :
    alternativesRead b = splitTopLevel b := by
  rw [alternativesRead]
  split
  next htext => simp [startsWith, htext] at h
  next => rfl

/-- Null behind a text without brackets is cut off. -/
theorem splitTopLevel_append_null {b : String}
    (h : ∀ c ∈ b.toList, c ≠ '<' ∧ c ≠ '>') :
    splitTopLevel (b ++ "|null") = splitTopLevel b ++ ["null"] := by
  have hbars : Text.splitBars 0 (b.toList ++ "|null".toList) =
      Text.splitBars 0 b.toList ++ ["null".toList] := by
    generalize b.toList = cs at h
    induction cs with
    | nil => rfl
    | cons c cs ih =>
        obtain ⟨hc, hcs⟩ := List.forall_mem_cons.mp h
        rw [List.cons_append, Text.splitBars, Text.splitBars, ih hcs]
        obtain ⟨piece, pieces, hpieces⟩ :=
          List.exists_cons_of_ne_nil (Text.splitBars_ne_nil 0 cs)
        by_cases hbar : c = '|'
        · simp [hbar]
        · simp [hbar, hc.1, hc.2, hpieces, Text.consHead]
  rw [splitTopLevel, String.toList_append, hbars, List.map_append, splitTopLevel]
  rfl

/-- Widening a binding without brackets adds null and nothing else. -/
theorem alternativesRead_nullableBinding {b : String}
    (h : ∀ c ∈ b.toList, c ≠ '<' ∧ c ≠ '>') :
    alternativesRead (nullableBinding b) = alternativesRead b ∨
      alternativesRead (nullableBinding b) = alternativesRead b ++ ["null"] := by
  have hplainStart : ¬ TakesNull b → startsWith '?' b = false := fun hnull =>
    Bool.eq_false_iff.mpr fun hstart => hnull (Or.inr (Or.inr (Or.inl hstart)))
  rcases nullableBinding_cases b with ⟨-, hwide⟩ | ⟨hnull, hbar, hwide⟩ | ⟨hnull, -, hwide⟩
  · exact Or.inl (by rw [hwide])
  · right
    have hstart : startsWith '?' (b ++ "|null") = false := by
      obtain ⟨c, cs, hcs⟩ := List.exists_cons_of_ne_nil (List.ne_nil_of_mem hbar)
      have hb := hplainStart hnull
      rw [startsWith, hcs] at hb
      rw [startsWith, String.toList_append, hcs]
      exact hb
    rw [hwide, alternativesRead_of_not hstart, alternativesRead_of_not (hplainStart hnull),
      splitTopLevel_append_null h]
  · right
    rw [hwide, alternativesRead_question, alternativesRead_of_not (hplainStart hnull)]

/-- Plain alternatives have a binding without brackets. -/
theorem unbracketed_bindingText {parts : List String} {nullable : Bool}
    (h : ∀ part ∈ parts, Plain part) :
    ∀ c ∈ (bindingText parts nullable).toList, c ≠ '<' ∧ c ≠ '>' := by
  have hjoin : ∀ c ∈ (joinWith "|" parts).toList, c ≠ '<' ∧ c ≠ '>' := by
    intro c hc
    rcases Text.mem_toList_joinWith hc with hc | ⟨part, hpart, hc⟩
    · rw [List.mem_singleton.mp hc]
      decide
    · exact (h part hpart c hc).2
  intro c hc
  rw [bindingText.eq_def] at hc
  split at hc
  next part =>
    rw [String.toList_append, List.mem_append] at hc
    rcases hc with hc | hc
    · rw [List.mem_singleton.mp hc]
      decide
    · exact (h part (by simp) c hc).2
  next =>
    rw [String.toList_append, List.mem_append] at hc
    rcases hc with hc | hc
    · exact hjoin c hc
    · rcases List.mem_cons.mp (show c ∈ '|' :: "null".toList from hc) with rfl | hc
      · decide
      · exact ((by decide : Plain "null") c hc).2
  next => exact hjoin c hc

/-- If the names in a tree are plain, its binding has no brackets. -/
theorem unbracketed_bindingOf {b : String} (hroot : Plain ctx.root)
    (hnames : ∀ d marks, (TypeTree.definition d marks).Within tree → Plain d.name)
    (h : bindingOf ctx tree = .ok b) : ∀ c ∈ b.toList, c ≠ '<' ∧ c ≠ '>' := by
  obtain ⟨parts, nullable, rfl, hparts⟩ := madeFor_bindingOf h
  refine unbracketed_bindingText fun part hpart => ?_
  rcases hparts part hpart with hword | ⟨d, marks, rfl, henum, rfl⟩
  · have hwords : ∀ word ∈ bindingWords, Plain word := by decide
    exact hwords part hword
  · simpa [spelling, henum] using plain_spelling hroot (hnames d marks .self)

/-! ## widened documentation -/

/-- Null or everything is among some alternatives. -/
def AdmitNull (alternatives : List String) : Prop :=
  "null" ∈ alternatives ∨ "mixed" ∈ alternatives

instance (alternatives : List String) : Decidable (AdmitNull alternatives) :=
  inferInstanceAs (Decidable (_ ∨ _))

/-- A documentation stays as it is if null or everything is among its pieces, and else gets
null. -/
theorem nullableDoc_cases (doc : String) :
    AdmitNull (split '|' doc) ∧ nullableDoc doc = doc ∨
      ¬ AdmitNull (split '|' doc) ∧ nullableDoc doc = doc ++ "|null" := by
  have hcheck : ((split '|' doc).any fun part => part == "null" || part == "mixed") = true ↔
      AdmitNull (split '|' doc) := by
    simp [AdmitNull, and_or_left, exists_or]
  rw [nullableDoc]
  by_cases hnull : AdmitNull (split '|' doc)
  · exact Or.inl ⟨hnull, if_pos (hcheck.mpr hnull)⟩
  · exact Or.inr ⟨hnull, if_neg fun h => hnull (hcheck.mp h)⟩

section Plain

variable (hroot : Plain ctx.root)
  (hnames : ∀ d marks, (TypeTree.definition d marks).Within tree → Plain d.name)
  (h : alternativesOf ctx top tree = .ok a)

include hroot hnames h

/-- A cut at every bar finds a word that is an alternative or that a generic conceals. -/
theorem mem_split_text_iff (hword : Plain word) (hcomma : ',' ∉ word.toList) :
    word ∈ split '|' a.text ↔ word ∈ a.list ∨ Conceals ctx word tree := by
  rw [Alternatives.text_eq, Text.mem_split_joinWith hword.bar_notMem
    (sheltered_list hword hroot hnames h) a.list_ne_nil, exists_barred_list,
    barred_iff_conceals hword hcomma hroot hnames h]

/-- Null behind a documentation is one more alternative. -/
theorem splitTopLevel_text_null : splitTopLevel (a.text ++ "|null") = a.list ++ ["null"] := by
  have hsolid := solid_list (solid_parts hroot hnames h)
  have hjoin : a.text ++ "|null" = joinWith "|" (a.list ++ ["null"]) := by
    rw [Text.joinWith_snoc a.list_ne_nil, Alternatives.text_eq, String.append_assoc]
    rfl
  rw [hjoin]
  refine Text.splitTopLevel_joinWith (by simp) fun part hpart => ?_
  rcases List.mem_append.mp hpart with hpart | hpart
  · exact hsolid part hpart
  · rw [List.mem_singleton.mp hpart]
    exact (by decide : Plain "null").solid

/-- Null or everything is among the pieces if it is among the alternatives, or concealed. -/
theorem admitNull_split_iff : AdmitNull (split '|' a.text) ↔
    AdmitNull a.list ∨ Conceals ctx "null" tree ∨ Conceals ctx "mixed" tree := by
  rw [AdmitNull, mem_split_text_iff hroot hnames h (by decide) (by decide),
    mem_split_text_iff hroot hnames h (by decide) (by decide), AdmitNull]
  exact or_or_or_comm

/-- A documentation stays as it is, or null is added. -/
theorem splitTopLevel_nullableDoc :
    splitTopLevel (nullableDoc a.text) = a.list ∧ AdmitNull (split '|' a.text) ∨
      splitTopLevel (nullableDoc a.text) = a.list ++ ["null"] ∧
        ¬ AdmitNull (split '|' a.text) := by
  rcases nullableDoc_cases a.text with ⟨hnull, hwide⟩ | ⟨hnull, hwide⟩
  · exact Or.inl ⟨by rw [hwide, splitTopLevel_text hroot hnames h], hnull⟩
  · exact Or.inr ⟨by rw [hwide, splitTopLevel_text_null hroot hnames h], hnull⟩

/-- A widened documentation has null or everything among its alternatives if it had before, or
if neither is concealed. -/
theorem admitNull_nullableDoc_iff : AdmitNull (splitTopLevel (nullableDoc a.text)) ↔
    AdmitNull a.list ∨ ¬ (Conceals ctx "null" tree ∨ Conceals ctx "mixed" tree) := by
  have hsplit := admitNull_split_iff hroot hnames h
  rcases splitTopLevel_nullableDoc hroot hnames h with ⟨hlist, hnull⟩ | ⟨hlist, hnull⟩
  · rw [hsplit] at hnull
    rw [hlist]
    exact ⟨Or.inl, fun hall => hall.elim id hnull.resolve_right⟩
  · rw [hsplit] at hnull
    rw [hlist]
    exact iff_of_true (Or.inl (by simp)) (Or.inr fun hconceals => hnull (Or.inr hconceals))

end Plain

end Code

namespace Catalog

/-- **A null default is taken.** The binding takes null, and so does the documentation unless
a generic in it has null or everything between two other alternatives; widening adds nothing
but null. -/
theorem null_default_widens_iff (c : Catalog) (hplain : ∀ d ∈ c.definitions, Plain d.name)
    (config : Config) (hconfig : config.validate = .ok ()) (own : String) (position : Position)
    (type : IdlType) (b doc : String)
    (hb : binding c ⟨config.root, own, position⟩ type = .ok b)
    (hdoc : documentation c ⟨config.root, own, position⟩ type = .ok doc) :
    TakesNull (nullableBinding b) ∧
      (AdmitNull (splitTopLevel (nullableDoc doc)) ↔ AdmitNull (splitTopLevel doc) ∨
        ¬ (Conceals ⟨config.root, own, position⟩ "null" (c.tree type) ∨
          Conceals ⟨config.root, own, position⟩ "mixed" (c.tree type))) ∧
      (alternativesRead (nullableBinding b) = alternativesRead b ∨
        alternativesRead (nullableBinding b) = alternativesRead b ++ ["null"]) ∧
      (splitTopLevel (nullableDoc doc) = splitTopLevel doc ∨
        splitTopLevel (nullableDoc doc) = splitTopLevel doc ++ ["null"]) := by
  have hroot := Config.plain_root hconfig
  have hnames := plain_of_within hplain type
  rw [documentation, documentationOf, bind_eq_ok] at hdoc
  obtain ⟨a, halts, hdoc⟩ := hdoc
  rw [pure_eq_ok] at hdoc
  subst hdoc
  rw [splitTopLevel_text hroot hnames halts]
  exact ⟨takesNull_nullableBinding b, admitNull_nullableDoc_iff hroot hnames halts,
    alternativesRead_nullableBinding (unbracketed_bindingOf hroot hnames hb),
    (splitTopLevel_nullableDoc hroot hnames halts).imp And.left And.left⟩

/-- `interface Node` -/
def shelf : Catalog where
  definitions := [{ name := "Node", kind := .interface }]
  typedefs := []
  includes := []

/-- `sequence<(Node or undefined)>` -/
def slots : IdlType :=
  .generic .sequence [.union [.named "Node" false {}, .named "undefined" false {}] false {}]
    false {}

/-- Null at the end of a list's alternatives is not taken for one of the list. -/
theorem slots_take_null :
    ∃ b doc, binding shelf ⟨"Site", "Shelf", .argument⟩ slots = .ok b ∧
      documentation shelf ⟨"Site", "Shelf", .argument⟩ slots = .ok doc ∧
      TakesNull (nullableBinding b) ∧ nullableDoc doc = "list<Node|null>|null" ∧
      ¬ Conceals ⟨"Site", "Shelf", .argument⟩ "null" (shelf.tree slots) := by
  have hb : binding shelf ⟨"Site", "Shelf", .argument⟩ slots = .ok "array" :=
    eq_ok_of_toOption (by decide +kernel)
  have hdoc : documentation shelf ⟨"Site", "Shelf", .argument⟩ slots = .ok "list<Node|null>" :=
    eq_ok_of_toOption (by decide +kernel)
  obtain ⟨htakes, hadmits, -, -⟩ := null_default_widens_iff shelf (by decide)
    { root := "Site" } (by decide) "Shelf" .argument slots "array" "list<Node|null>" hb hdoc
  refine ⟨_, _, hb, hdoc, htakes, by decide +kernel, fun hconceals => ?_⟩
  rcases hadmits.mp (by decide +kernel) with hbefore | hnothing
  · exact absurd hbefore (by decide +kernel)
  · exact hnothing (Or.inl hconceals)

/-- `sequence<(long or undefined or DOMString)>` -/
def readings : IdlType :=
  .generic .sequence
    [.union [.named "long" false {}, .named "undefined" false {}, .named "DOMString" false {}]
      false {}] false {}

/-- Null between two other alternatives of a list is taken for one of the list. -/
theorem readings_do_not_take_null :
    ∃ r, Registry.build {} [.definition { name := "A", kind := .interface }] = .ok r ∧
      (∀ d ∈ r.definitions, Plain d.name) ∧ ({} : Config).validate = .ok () ∧
      binding r.toCatalog ⟨"Generated", "A", .argument⟩ readings = .ok "array" ∧
      documentation r.toCatalog ⟨"Generated", "A", .argument⟩ readings =
        .ok "list<int|null|string>" ∧
      ¬ AdmitNull (splitTopLevel (nullableDoc "list<int|null|string>")) := by
  have hbuild : (Registry.build {} [.definition { name := "A", kind := .interface }]).toOption.map
      (fun r => (decide (∀ d ∈ r.definitions, Plain d.name),
        (binding r.toCatalog ⟨"Generated", "A", .argument⟩ readings).toOption,
        (documentation r.toCatalog ⟨"Generated", "A", .argument⟩ readings).toOption)) =
      some (true, some "array", some "list<int|null|string>") := by
    decide +kernel
  obtain ⟨r, hr, hfacts⟩ := ok_of_toOption_map hbuild
  simp only [Prod.mk.injEq, decide_eq_true_eq] at hfacts
  obtain ⟨hplain, hb, hdoc⟩ := hfacts
  exact ⟨r, hr, hplain, by decide, eq_ok_of_toOption hb, eq_ok_of_toOption hdoc,
    by decide +kernel⟩

end Catalog

end WebIdl
