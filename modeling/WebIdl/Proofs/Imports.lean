import WebIdl.Artifact.Target
import WebIdl.Proofs.Draft
import WebIdl.Proofs.Layout
import WebIdl.Proofs.Order
import WebIdl.Proofs.Words
import WebIdl.Proofs.WrittenTypes

/-!
# WebIdl.Proofs.Imports

What a file imports.

The references of a type are the definitions in it (`mem_collect_iff`), and noting them keeps
the imports in order (`Imports.Tidy.references`).  A draft is said to ensure something if it
stands however many imports are added later (`Ensures`); every way of rendering types ensures
that the words of its texts are known and that what the types need is imported
(`Request.ensures_texts`).  So a whole run of requests imports what was mentioned, in order,
and nothing else (`imports_are_what_is_mentioned`).
-/

namespace WebIdl

open WebIdl.Code
open WebIdl.Text (WordsIn)

/-! ## definitions that a type mentions -/

namespace TypeTree

/-- A tree has a definition in it. -/
def Mentions (tree : TypeTree) (reference : Reference) : Prop :=
  ∃ d marks, (TypeTree.definition d marks).Within tree ∧ reference = ⟨d.name, d.isEnum⟩

variable {reference : Reference} {marks : NullMarks}

/-- A built-in type mentions nothing. -/
theorem mentions_primitive {primitive : Primitive} :
    ¬ (TypeTree.primitive primitive marks).Mentions reference := by
  simp [Mentions]

/-- A definition mentions itself. -/
theorem mentions_definition {d : Definition} :
    (TypeTree.definition d marks).Mentions reference ↔ reference = ⟨d.name, d.isEnum⟩ := by
  simp [Mentions]

/-- A union mentions what its members mention. -/
theorem mentions_union {members : List TypeTree} :
    (TypeTree.union members marks).Mentions reference ↔
      ∃ member ∈ members, member.Mentions reference := by
  simp only [Mentions, within_union, reduceCtorEq, false_or]
  grind

/-- A generic mentions what its arguments mention. -/
theorem mentions_generic {head : Generic} {args : List TypeTree} :
    (TypeTree.generic head args marks).Mentions reference ↔
      ∃ arg ∈ args, arg.Mentions reference := by
  simp only [Mentions, within_generic, reduceCtorEq, false_or]
  grind

end TypeTree

namespace Code

/-- Collecting from one tree after another finds what was found before and what the trees
mention. -/
theorem mem_collectAll_iff {trees : List TypeTree}
    (h : ∀ tree ∈ trees, ∀ {found all : List Reference}, collect found tree = .ok all →
      ∀ reference, reference ∈ all ↔ reference ∈ found ∨ tree.Mentions reference)
    {found all : List Reference} (hall : collectAll found trees = .ok all)
    (reference : Reference) :
    reference ∈ all ↔ reference ∈ found ∨ ∃ tree ∈ trees, tree.Mentions reference := by
  induction trees generalizing found with
  | nil =>
      rw [collectAll, Except.ok.injEq] at hall
      simp [hall]
  | cons tree trees ih =>
      rw [collectAll, bind_eq_ok] at hall
      obtain ⟨middle, hfirst, hrest⟩ := hall
      rw [ih (fun tree htree => h tree (List.mem_cons_of_mem _ htree)) hrest,
        h tree List.mem_cons_self hfirst, List.exists_mem_cons_iff, or_assoc]

/-- The references of a tree are the definitions in it. -/
theorem mem_collect_iff {tree : TypeTree} {found all : List Reference}
    (h : collect found tree = .ok all) (reference : Reference) :
    reference ∈ all ↔ reference ∈ found ∨ tree.Mentions reference := by
  induction tree using TypeTree.inside_induction generalizing found all reference with
  | primitive primitive marks =>
      rw [collect, Except.ok.injEq] at h
      simp [h, TypeTree.mentions_primitive]
  | definition d marks =>
      rw [collect, Except.ok.injEq] at h
      subst h
      rw [TypeTree.mentions_definition]
      split
      next hold =>
        rw [List.contains_iff_mem] at hold
        grind
      next => simp
  | unknown name => simp [collect] at h
  | fault error => simp [collect] at h
  | union members marks ih =>
      rw [collect] at h
      rw [mem_collectAll_iff (fun tree htree _ _ => ih tree htree) h, TypeTree.mentions_union]
  | generic head args marks ih =>
      rw [collect] at h
      rw [mem_collectAll_iff (fun tree htree _ _ => ih tree htree) h, TypeTree.mentions_generic]

/-! ## imports -/

namespace Imports

/-- Imports are added to others. -/
def Grows (before after : Imports) : Prop :=
  before.own = after.own ∧ ∀ name ∈ before.imported, name ∈ after.imported

theorem Grows.refl (imports : Imports) : Grows imports imports :=
  ⟨rfl, fun _ => id⟩

theorem Grows.trans {first second third : Imports} (h : Grows first second)
    (h' : Grows second third) : Grows first third :=
  ⟨h.1.trans h'.1, fun name hname => h'.2 name (h.2 name hname)⟩

/-- The imports of a definition's file: in order, by their names in lower case first, and
nothing but what is allowed. -/
structure Tidy (own : String) (allowed : String → Prop) (imports : Imports) : Prop where
  own_eq : imports.own = own
  increasing : Ordered.Increasing Ordered.comparePairs imports.names
  keyed : ∀ pair ∈ imports.names, pair.1 = Text.lowerAscii pair.2
  allowed : ∀ name ∈ imports.imported, name ≠ own ∧ allowed name

variable {imports : Imports} {own : String} {allowed : String → Prop}

/-- No imports are tidy. -/
theorem tidy_empty : Tidy own allowed { own } where
  own_eq := rfl
  increasing := List.Pairwise.nil
  keyed := by simp
  allowed := by simp [imported]

/-- Noting a name leaves the file the definition's own. -/
theorem own_noteName (name : String) : (imports.noteName name).own = imports.own := by
  rw [noteName]
  split <;> rfl

/-- A name other than the own one is put in its place. -/
theorem names_noteName {name : String} (h : name ≠ imports.own) :
    (imports.noteName name).names =
      Ordered.insert Ordered.comparePairs (Text.lowerAscii name, name) imports.names := by
  rw [noteName, if_neg (by simpa using h)]

/-- Noting a name imports that name and no other, unless it is the own one. -/
theorem mem_imported_noteName {name other : String} :
    other ∈ (imports.noteName name).imported ↔
      other ∈ imports.imported ∨ other = name ∧ name ≠ imports.own := by
  by_cases hown : name = imports.own
  · have hsame : imports.noteName name = imports := by rw [noteName, if_pos (by simpa using hown)]
    rw [hsame]
    simp [hown]
  · rw [imported, names_noteName hown]
    constructor
    · intro hmem
      obtain ⟨pair, hpair, rfl⟩ := List.mem_map.mp hmem
      rcases List.mem_cons.mp ((Ordered.subperm_insert _ _).subset hpair) with rfl | hpair
      · exact Or.inr ⟨rfl, hown⟩
      · exact Or.inl (List.mem_map_of_mem hpair)
    · intro hmem
      refine Ordered.mem_map_insert (fun a b h => by rw [Ordered.eq_of_comparePairs h]) _ _ ?_
      exact hmem.symm.imp_left And.left

/-- Noting a name takes no import away. -/
theorem grows_noteName (name : String) : Grows imports (imports.noteName name) :=
  ⟨(own_noteName name).symm, fun _ hother => mem_imported_noteName.mpr (Or.inl hother)⟩

/-- Noting a name that is allowed keeps the imports tidy. -/
theorem Tidy.noteName (h : Tidy own allowed imports) {name : String} (hname : allowed name) :
    Tidy own allowed (imports.noteName name) := by
  by_cases hown : name = imports.own
  · rw [Imports.noteName, if_pos (by simpa using hown)]
    exact h
  · refine ⟨(own_noteName name).trans h.own_eq, ?_, ?_, ?_⟩
    · rw [names_noteName hown]
      exact Ordered.increasing_insert _ h.increasing
    · rw [names_noteName hown]
      intro pair hpair
      rcases List.mem_cons.mp ((Ordered.subperm_insert _ _).subset hpair) with rfl | hpair
      · rfl
      · exact h.keyed pair hpair
    · intro other hother
      rcases mem_imported_noteName.mp hother with hother | ⟨rfl, hne⟩
      · exact h.allowed other hother
      · exact ⟨h.own_eq ▸ hne, hname⟩

/-- A reference by type imports a definition unless it is an enumeration. -/
theorem note_type (reference : Reference) : imports.note reference .type =
    if reference.isEnum then imports else imports.noteName reference.name := by
  cases henum : reference.isEnum <;> simp [note, henum]

section References

variable (found : List Reference)

/-- Noting references takes no import away. -/
theorem grows_references : Grows imports
    (found.foldl (fun imports reference => imports.note reference .type) imports) := by
  induction found generalizing imports with
  | nil => exact Grows.refl imports
  | cons reference found ih =>
      rw [List.foldl_cons, note_type]
      refine Grows.trans ?_ ih
      split
      · exact Grows.refl imports
      · exact grows_noteName _

variable {found}

/-- Noting references that are allowed keeps the imports tidy. -/
theorem Tidy.references (h : Tidy own allowed imports)
    (hfound : ∀ reference ∈ found, reference.isEnum = false → allowed reference.name) :
    Tidy own allowed
      (found.foldl (fun imports reference => imports.note reference .type) imports) := by
  induction found generalizing imports with
  | nil => exact h
  | cons reference found ih =>
      obtain ⟨hfirst, hrest⟩ := List.forall_mem_cons.mp hfound
      rw [List.foldl_cons, note_type]
      refine ih ?_ hrest
      split
      next => exact h
      next henum => exact h.noteName (hfirst (by simpa using henum))

/-- Every reference that is not to an enumeration or the own definition is imported. -/
theorem mem_references {reference : Reference} (hmem : reference ∈ found)
    (henum : reference.isEnum = false) (hown : reference.name ≠ imports.own) :
    reference.name ∈
      (found.foldl (fun imports reference => imports.note reference .type) imports).imported := by
  induction found generalizing imports with
  | nil => cases hmem
  | cons first found ih =>
      rw [List.foldl_cons]
      rcases List.mem_cons.mp hmem with rfl | hmem
      · refine (grows_references found).2 _ ?_
        rw [note_type, if_neg (by simp [henum]), mem_imported_noteName]
        exact Or.inr ⟨rfl, hown⟩
      · refine ih hmem ?_
        rw [note_type]
        split
        · exact hown
        · rwa [own_noteName]

end References

end Imports

end Code

/-! ## drafts that import -/

namespace Artifact

variable {α β : Type} {own : String} {allowed : String → Prop}

/-- Whatever was imported before, a draft keeps the imports tidy and only adds to them, and
what it comes to stands as long as they are there. -/
def Ensures (own : String) (allowed : String → Prop) (x : Draft α) (Q : α → Imports → Prop) :
    Prop :=
  ∀ before result after, before.Tidy own allowed → x.run.run before = (result, after) →
    after.Tidy own allowed ∧ before.Grows after ∧
      ∀ a, result = .ok a → ∀ later, after.Grows later → Q a later

namespace Ensures

variable {Q : α → Imports → Prop} {R : β → Imports → Prop}

/-- What holds with any imports is ensured by doing nothing. -/
theorem pure {a : α} (h : ∀ later, Q a later) : Ensures own allowed (Pure.pure a) Q := by
  intro before result after htidy hrun
  cases hrun
  refine ⟨htidy, .refl _, ?_⟩
  rintro _ ⟨⟩ later -
  exact h later

/-- A step that imports nothing gives what it came to. -/
theorem lift_bind {x : Except Error α} {f : α → Draft β}
    (h : ∀ a, x = .ok a → Ensures own allowed (f a) R) :
    Ensures own allowed (liftM x >>= f) R := by
  intro before result after htidy hrun
  cases x with
  | error e =>
      cases hrun
      exact ⟨htidy, .refl _, by simp⟩
  | ok a => exact h a rfl before result after htidy hrun

/-- A change of the imports that keeps them tidy and takes none away ensures what the later
imports show. -/
theorem note {f : Imports → Imports} {P : Imports → Prop}
    (htidy : ∀ imports, imports.Tidy own allowed → (f imports).Tidy own allowed)
    (hgrows : ∀ imports : Imports, imports.Grows (f imports))
    (h : ∀ imports later, imports.Tidy own allowed → (f imports).Grows later → P later) :
    Ensures own allowed (modify f) fun _ later => P later := by
  intro before result after hbefore hrun
  cases hrun
  exact ⟨htidy before hbefore, hgrows before, fun _ _ later hlater =>
    h before later hbefore hlater⟩

/-- What is ensured may be weakened. -/
theorem mono {x : Draft α} {P : α → Imports → Prop} (hx : Ensures own allowed x Q)
    (h : ∀ a later, Q a later → P a later) : Ensures own allowed x P := by
  intro before result after htidy hrun
  obtain ⟨hafter, hgrows, hpost⟩ := hx before result after htidy hrun
  exact ⟨hafter, hgrows, fun a ha later hlater => h a later (hpost a ha later hlater)⟩

/-- What the first of two steps came to still stands after the second one. -/
theorem bind {x : Draft α} {f : α → Draft β} (hx : Ensures own allowed x Q)
    (hf : ∀ a, Ensures own allowed (f a) fun b later => Q a later → R b later) :
    Ensures own allowed (x >>= f) R := by
  intro before result after htidy hrun
  rw [ExceptT.run_bind, StateT.run_bind] at hrun
  cases hfirst : x.run.run before with
  | mk first middle =>
      obtain ⟨hmiddle, hgrows, hpost⟩ := hx before first middle htidy hfirst
      rw [hfirst] at hrun
      cases first with
      -- The second step is not made, and the imports of the first one stay.
      | error e =>
          cases hrun
          exact ⟨hmiddle, hgrows, by simp⟩
      | ok a =>
          obtain ⟨hafter, hgrows', hpost'⟩ := hf a middle result after hmiddle hrun
          refine ⟨hafter, hgrows.trans hgrows', fun b hb later hlater => ?_⟩
          exact hpost' b hb later hlater (hpost a rfl later (hgrows'.trans hlater))

/-- What is ensured of a result is passed on to what is made of it. -/
theorem map {x : Draft α} {f : α → β} (hx : Ensures own allowed x Q)
    (h : ∀ a later, Q a later → R (f a) later) :
    Ensures own allowed (do return f (← x)) R :=
  hx.bind fun a => pure fun later hQ => h a later hQ

/-- Drafts of a list ensure of each element what its own draft ensures. -/
theorem mapM {P : α → β → Imports → Prop} {f : α → Draft β} {xs : List α}
    (hf : ∀ x ∈ xs, Ensures own allowed (f x) (P x)) :
    Ensures own allowed (xs.mapM f) fun ys later => List.Forall₂ (P · · later) xs ys := by
  induction xs with
  | nil =>
      rw [List.mapM_nil]
      exact pure fun _ => .nil
  | cons x xs ih =>
      obtain ⟨hx, hxs⟩ := List.forall_mem_cons.mp hf
      rw [List.mapM_cons]
      exact hx.bind fun y => (ih hxs).bind fun ys => pure fun later hrest hfirst =>
        .cons hfirst hrest

end Ensures

namespace Target

variable {t : Target}

/-- A word of a name that has its namespace in front of it: the definition's own name, or that
of an enumeration. -/
def Qualifies (t : Target) (word : String) : Prop :=
  word ∈ Text.words (t.qualified .contract t.name) ∨ ∃ e ∈ t.registry.definitions,
    e.isEnum = true ∧ word ∈ Text.words (t.qualified .contract e.name ++ "::*")

/-- A word that needs no import, or one of an imported name. -/
def Known (t : Target) (imports : Imports) (word : String) : Prop :=
  word ∈ typeWords ∨ t.Qualifies word ∨ ∃ name ∈ imports.imported, word ∈ Text.words name

/-- A definition that a type mentions and that needs an import. -/
def Needs (t : Target) (type : IdlType) (name : String) : Prop :=
  (t.registry.tree type).Mentions ⟨name, false⟩

/-- What a type needs is imported. -/
def Provides (t : Target) (imports : Imports) (type : IdlType) : Prop :=
  ∀ name, t.Needs type name → name ≠ t.name → name ∈ imports.imported

/-- The renderings of some types: their words are known, and what the types need is imported. -/
structure Renders (t : Target) (imports : Imports) (types : List IdlType)
    (pairs : List TypePair) : Prop where
  known : ∀ pair ∈ pairs, pair.In (t.Known imports)
  provided : ∀ type ∈ types, t.Provides imports type

/-- What some types need may be imported. -/
def Permits (t : Target) (allowed : String → Prop) (types : List IdlType) : Prop :=
  ∀ type ∈ types, ∀ name, t.Needs type name → allowed name

/-- Words of the generated language need no import. -/
theorem known_typeWords (imports : Imports) : ∀ word ∈ typeWords, t.Known imports word :=
  fun _ => Or.inl

/-- The definition's own name needs no import. -/
theorem wordsIn_qualified {imports : Imports} :
    WordsIn (t.Known imports) (t.qualified .contract t.name) :=
  fun _ hword => Or.inr (Or.inl (Or.inl hword))

/-- The words of an imported name are known. -/
theorem wordsIn_imported {imports : Imports} {name : String} (h : name ∈ imports.imported) :
    WordsIn (t.Known imports) name :=
  fun _ hword => Or.inr (Or.inr ⟨name, h, hword⟩)

section Provided

variable {type : IdlType} {position : Position} {imports : Imports}
  (h : t.Provides imports type)

include h

/-- A definition that a type mentions is known by the name that is written for it, once what
the type needs is imported. -/
theorem wordsIn_qualify {d : Definition} {marks : NullMarks}
    (hwithin : (TypeTree.definition d marks).Within (t.registry.tree type))
    (henum : d.isEnum = false) :
    WordsIn (t.Known imports) (qualify ⟨t.root, t.name, position⟩ d.name) := by
  rw [qualify]
  split
  next hown =>
    rw [beq_iff_eq] at hown
    rw [hown]
    exact wordsIn_qualified
  next hown =>
    refine wordsIn_imported (h d.name ⟨d, marks, hwithin, by rw [henum]⟩ ?_)
    simpa using hown

theorem wordsIn_spelling {d : Definition} {marks : NullMarks}
    (hwithin : (TypeTree.definition d marks).Within (t.registry.tree type)) :
    WordsIn (t.Known imports) (spelling ⟨t.root, t.name, position⟩ d) := by
  rw [spelling]
  split
  next henum =>
    have hmem := Catalog.mem_of_get? (Catalog.grounds_tree type d marks hwithin).1
    exact fun word hword => Or.inr (Or.inl (Or.inr ⟨d, hmem, henum, hword⟩))
  next henum => exact wordsIn_qualify h hwithin (by simpa using henum)

end Provided

/-! ## renderings of methods -/

namespace Renders

variable {imports : Imports}

/-- No types need nothing. -/
theorem nil : t.Renders imports [] [] :=
  ⟨by simp, by simp⟩

/-- Renderings of some types and of others are renderings of both. -/
theorem append {types types' : List IdlType} {pairs pairs' : List TypePair}
    (h : t.Renders imports types pairs) (h' : t.Renders imports types' pairs') :
    t.Renders imports (types ++ types') (pairs ++ pairs') :=
  ⟨List.forall_mem_append.mpr ⟨h.known, h'.known⟩,
    List.forall_mem_append.mpr ⟨h.provided, h'.provided⟩⟩

/-- Renderings of the types of each element are renderings of the types of all. -/
theorem flatMap {α β : Type} {types : α → List IdlType} {pairs : β → List TypePair} {xs : List α}
    {ys : List β} (h : List.Forall₂ (fun x y => t.Renders imports (types x) (pairs y)) xs ys) :
    t.Renders imports (xs.flatMap types) (ys.flatMap pairs) := by
  induction h with
  | nil => exact nil
  | cons hfirst _ ih =>
      rw [List.flatMap_cons, List.flatMap_cons]
      exact hfirst.append ih

/-- Other renderings of known words may take the place of some. -/
theorem of_known {types : List IdlType} {pairs pairs' : List TypePair}
    (h : t.Renders imports types pairs) (hknown : ∀ pair ∈ pairs', pair.In (t.Known imports)) :
    t.Renders imports types pairs' :=
  ⟨hknown, h.provided⟩

end Renders

/-- Both renderings of a type have known words only, once it is imported. -/
theorem ensures_type {type : IdlType} (position : Position)
    (hpermits : t.Permits allowed [type]) :
    Ensures t.name allowed (t.type type position) fun pair later =>
      t.Renders later [type] [pair] := by
  rw [Target.type]
  refine Ensures.lift_bind fun b hb => Ensures.lift_bind fun doc hdoc =>
    Ensures.lift_bind fun found hfound => ?_
  have hmem : ∀ name, ⟨name, false⟩ ∈ found ↔ t.Needs type name := by
    intro name
    rw [mem_collect_iff hfound]
    simp [Needs]
  have hnote : Ensures t.name allowed
      (modify fun imports =>
        found.foldl (fun imports reference => imports.note reference .type) imports)
      fun _ later => t.Provides later type := by
    refine Ensures.note ?_ (fun _ => Imports.grows_references found) ?_
    · intro imports htidy
      refine htidy.references fun reference href henum =>
        hpermits type List.mem_cons_self reference.name ?_
      rw [← hmem, ← henum]
      exact href
    · intro imports later htidy hlater name hneeds hown
      refine hlater.2 name (Imports.mem_references ((hmem name).mpr hneeds) rfl ?_)
      rwa [htidy.own_eq]
  refine hnote.bind fun _ => Ensures.pure fun later hprovides => ?_
  have hbinding : WordsIn (t.Known later) b := by
    refine wordsIn_bindingOf (known_typeWords later) (fun d marks htree henum => ?_) hb
    have hwithin : (TypeTree.definition d marks).Within (t.registry.tree type) := by
      rw [htree]
      exact .self
    exact wordsIn_qualify hprovides hwithin henum
  have hdoc : WordsIn (t.Known later) doc :=
    wordsIn_documentationOf (known_typeWords later) (fun d marks hwithin =>
      wordsIn_spelling hprovides hwithin) hdoc
  exact ⟨by simpa using ⟨hbinding, hdoc⟩, by simpa using hprovides⟩

/-- A parameter renders the type of its argument. -/
theorem ensures_param {argument : Argument} (hpermits : t.Permits allowed [argument.type]) :
    Ensures t.name allowed (t.param argument) fun param later =>
      t.Renders later [argument.type] [param.type] := by
  have hdefault : ∀ (pair : TypePair) (default : String) (later : Imports),
      t.Renders later [argument.type] [pair] → t.Renders later [argument.type]
        [((Param.make argument.name pair).withDefault default).type] := by
    intro pair default later h
    refine h.of_known fun type htype => ?_
    rw [List.mem_singleton.mp htype]
    exact in_withDefault (known_typeWords later) (.make argument.name pair) default
      (h.known pair List.mem_cons_self)
  rw [Target.param]
  refine (ensures_type .argument hpermits).bind fun pair => ?_
  dsimp only
  split
  · exact Ensures.pure fun later h => h
  · split
    · split
      · exact Ensures.lift_bind fun default _ => Ensures.pure (hdefault pair default)
      · exact Ensures.pure (hdefault pair "null")
    · exact Ensures.pure fun later h => h

/-- Parameters render the types of their arguments. -/
theorem ensures_params {arguments : List Argument}
    (hpermits : t.Permits allowed (arguments.map (·.type))) :
    Ensures t.name allowed (t.params arguments) fun params later =>
      t.Renders later (arguments.map (·.type)) (params.map (·.type)) := by
  have hargument : ∀ argument ∈ arguments, t.Permits allowed [argument.type] := by
    intro argument hmem type htype
    rw [List.mem_singleton.mp htype]
    exact hpermits argument.type (List.mem_map_of_mem hmem)
  refine (Ensures.mapM fun argument hmem => ensures_param (hargument argument hmem)).mono ?_
  intro params later hall
  rw [List.map_eq_flatMap, List.map_eq_flatMap]
  exact Renders.flatMap hall

/-- Merging overloads keeps what their types have. -/
theorem Renders.mergeOverloads {imports : Imports} {types : List IdlType} {name : String}
    {sigs : List MethodSig} (h : t.Renders imports types (sigs.flatMap (·.types))) :
    t.Renders imports types (mergeOverloads name sigs).types := by
  refine h.of_known (in_mergeOverloads (known_typeWords imports) fun sig hsig type htype => ?_)
  exact h.known type (List.mem_flatMap.mpr ⟨sig, hsig, htype⟩)

/-- An overload renders the types of its signature. -/
theorem ensures_overload {name : String} {isStatic : Bool} {signature : Signature}
    (hpermits : t.Permits allowed signature.types) :
    Ensures t.name allowed (t.overload name isStatic signature) fun sig later =>
      t.Renders later signature.types sig.types := by
  rw [Signature.types, Permits, List.forall_mem_cons] at hpermits
  rw [Target.overload]
  refine (ensures_type .result (by simpa [Permits] using hpermits.1)).bind fun result => ?_
  refine (ensures_params hpermits.2).bind fun params => Ensures.pure fun later hparams hresult => ?_
  refine (hresult.append hparams).of_known fun pair hpair => ?_
  rcases List.mem_append.mp hpair with hpair | hpair
  · exact hparams.known pair hpair
  · exact hresult.known pair hpair

/-- An operation renders the types of all its overloads. -/
theorem ensures_operation {name : String} {overloads : List Signature} {isStatic : Bool}
    (hpermits : t.Permits allowed (overloads.flatMap Signature.types)) :
    Ensures t.name allowed (t.operation name overloads isStatic) fun sig later =>
      t.Renders later (overloads.flatMap Signature.types) sig.types := by
  rw [Target.operation]
  refine (Ensures.mapM fun signature hmem => ensures_overload fun type htype =>
    hpermits type (List.mem_flatMap.mpr ⟨signature, hmem, htype⟩)).map fun sigs later hall => ?_
  exact (Renders.flatMap hall).mergeOverloads

/-- A constructor renders the types of all its overloads. -/
theorem ensures_constructor {overloads : List (List Argument)}
    (hpermits : t.Permits allowed (overloads.flatMap fun arguments => arguments.map (·.type))) :
    Ensures t.name allowed (t.constructor overloads) fun sig later =>
      t.Renders later (overloads.flatMap fun arguments => arguments.map (·.type)) sig.types := by
  rw [Target.constructor]
  have hone : ∀ arguments ∈ overloads, Ensures t.name allowed
      (do return ({ name := "__construct", params := ← t.params arguments } : MethodSig))
      fun sig later => t.Renders later (arguments.map (·.type)) sig.types := by
    intro arguments hmem
    refine (ensures_params fun type htype =>
      hpermits type (List.mem_flatMap.mpr ⟨arguments, hmem, htype⟩)).map fun params later h => ?_
    simpa [MethodSig.types] using h
  refine (Ensures.mapM hone).map fun sigs later hall => ?_
  exact (Renders.flatMap hall).mergeOverloads

/-- A getter renders the type of its value. -/
theorem ensures_getter {name : String} {type : IdlType} {isStatic : Bool}
    (hpermits : t.Permits allowed [type]) :
    Ensures t.name allowed (t.getter name type isStatic) fun sig later =>
      t.Renders later [type] sig.types := by
  rw [Target.getter]
  exact (ensures_type .result hpermits).map fun pair later h => h

/-- A setter renders the type of its value. -/
theorem ensures_setter {name : String} {type : IdlType} {isStatic : Bool}
    (hpermits : t.Permits allowed [type]) :
    Ensures t.name allowed (t.setter name type isStatic) fun sig later =>
      t.Renders later [type] sig.types := by
  rw [Target.setter]
  refine (ensures_type .setter hpermits).bind fun pair => Ensures.pure fun later h => ?_
  have hvoid : WordsIn (t.Known later) "void" :=
    wordsIn_of_typeWords (known_typeWords later) (by decide)
  refine h.of_known fun other hother => ?_
  rcases List.mem_cons.mp hother with rfl | hother
  · exact h.known _ List.mem_cons_self
  · rw [List.mem_singleton.mp hother]
    exact ⟨hvoid, hvoid⟩

/-- An iterator has the words of its key and its value. -/
theorem wordsIn_iterator {imports : Imports} {key value : String}
    (hkey : WordsIn (t.Known imports) key) (hvalue : WordsIn (t.Known imports) value) :
    WordsIn (t.Known imports) ("\\Iterator<" ++ key ++ ", " ++ value ++ ">") := by
  have hword : ∀ word ∈ ["\\Iterator", ""], WordsIn (t.Known imports) word := by
    intro word hword
    refine wordsIn_of_typeWords (known_typeWords imports) ?_
    revert word
    decide
  have hparts : "\\Iterator<" ++ key ++ ", " ++ value ++ ">" =
      "\\Iterator" ++ "<" ++ key ++ ", " ++ value ++ ">" ++ "" := by
    rw [String.append_empty]
    rfl
  rw [hparts, Text.wordsIn_append (by decide), Text.wordsIn_append (by decide),
    Text.wordsIn_append (by decide)]
  exact ⟨⟨⟨hword _ (by simp), hkey⟩, hvalue⟩, hword _ (by simp)⟩

/-- An iterator renders the types of its key, if it has one, and its value. -/
theorem ensures_iterator {name : String} {key : Option IdlType} {value : IdlType}
    (hpermits : t.Permits allowed (key.toList ++ [value])) :
    Ensures t.name allowed (t.iterator name key value) fun sig later =>
      t.Renders later (key.toList ++ [value]) sig.types := by
  obtain ⟨hkey, hvalue⟩ := List.forall_mem_append.mp hpermits
  have hrest : ∀ keyDoc : String, Ensures t.name allowed
      (do
        let doc := "\\Iterator<" ++ keyDoc ++ ", " ++ (← t.type value .result).doc ++ ">"
        return ({ name, result := some { binding := "\\Iterator", doc } } : MethodSig))
      fun sig later => WordsIn (t.Known later) keyDoc → t.Renders later [value] sig.types := by
    intro keyDoc
    refine (ensures_type .result hvalue).bind fun pair => Ensures.pure fun later h hkeyDoc => ?_
    have hbinding : WordsIn (t.Known later) "\\Iterator" :=
      wordsIn_of_typeWords (known_typeWords later) (by decide)
    refine h.of_known fun other hother => ?_
    obtain rfl := List.mem_singleton.mp hother
    exact ⟨hbinding, wordsIn_iterator hkeyDoc (h.known pair List.mem_cons_self).2⟩
  cases key with
  | some key =>
      refine (ensures_type .result hkey).bind fun pair =>
        (hrest pair.doc).mono fun sig later h hpair => ?_
      have hvalue := h (hpair.known pair List.mem_cons_self).2
      exact ⟨hvalue.known, List.forall_mem_append.mpr ⟨hpair.provided, hvalue.provided⟩⟩
  | none =>
      exact (hrest "int").mono fun sig later h =>
        h (wordsIn_of_typeWords (known_typeWords later) (by decide))

/-- A reference to a class imports it, unless it is the own one, and its words are known. -/
theorem ensures_classRef {name : String} (hallowed : allowed name) :
    Ensures t.name allowed (t.classRef name) fun text later =>
      WordsIn (t.Known later) text ∧ (name ≠ t.name → name ∈ later.imported) := by
  rw [Target.classRef]
  split
  next hown =>
    rw [beq_iff_eq] at hown
    subst hown
    exact Ensures.pure fun later => ⟨wordsIn_qualified, fun hne => absurd rfl hne⟩
  next hown =>
    have hname : Ensures t.name allowed (modify fun imports => imports.noteName name)
        fun _ later => name ∈ later.imported := by
      refine Ensures.note (fun imports htidy => htidy.noteName hallowed)
        (fun imports => Imports.grows_noteName name) fun imports later htidy hlater => ?_
      refine hlater.2 name (Imports.mem_imported_noteName.mpr (Or.inr ⟨rfl, ?_⟩))
      rw [htidy.own_eq]
      simpa using hown
    exact hname.bind fun _ => Ensures.pure fun later h => ⟨wordsIn_imported h, fun _ => h⟩

end Target

/-! ## requests -/

/-- What can be asked for while a file is made. -/
inductive Request where
  | type (value : IdlType) (position : Position)
  | param (argument : Argument)
  | operation (name : String) (overloads : List Signature) (isStatic : Bool)
  | constructor (overloads : List (List Argument))
  | getter (name : String) (value : IdlType) (isStatic : Bool)
  | setter (name : String) (value : IdlType) (isStatic : Bool)
  | iterator (name : String) (key : Option IdlType) (value : IdlType)
  | classRef (name : String)
deriving Repr

namespace Request

/-- The types that a request renders. -/
def types : Request → List IdlType
  | .type value _ => [value]
  | .param argument => [argument.type]
  | .operation _ overloads _ => overloads.flatMap Signature.types
  | .constructor overloads => overloads.flatMap fun arguments => arguments.map (·.type)
  | .getter _ value _ => [value]
  | .setter _ value _ => [value]
  | .iterator _ key value => key.toList ++ [value]
  | .classRef _ => []

/-- The definitions that a request refers to as classes. -/
def classes : Request → List String
  | .classRef name => [name]
  | _ => []

/-- Both renderings of a type as texts. -/
def pairTexts (pairs : List TypePair) : List String :=
  pairs.flatMap fun pair => [pair.binding, pair.doc]

/-- The type texts and class names that a request gives. -/
def texts (t : Target) : Request → Draft (List String)
  | .type value position => do return pairTexts [← t.type value position]
  | .param argument => do return pairTexts [(← t.param argument).type]
  | .operation name overloads isStatic => do
    return pairTexts (← t.operation name overloads isStatic).types
  | .constructor overloads => do return pairTexts (← t.constructor overloads).types
  | .getter name value isStatic => do return pairTexts (← t.getter name value isStatic).types
  | .setter name value isStatic => do return pairTexts (← t.setter name value isStatic).types
  | .iterator name key value => do return pairTexts (← t.iterator name key value).types
  | .classRef name => do return [← t.classRef name]

/-- A request needs the import of a definition: one that a type mentions, unless it is an
enumeration, or one that is referred to as a class. -/
def Needs (t : Target) (request : Request) (name : String) : Prop :=
  (∃ type ∈ request.types, t.Needs type name) ∨ name ∈ request.classes

/-- What a request gave stands with some imports: every word is known, and everything that
the request needs is there. -/
structure Answered (t : Target) (request : Request) (texts : List String) (imports : Imports) :
    Prop where
  known : ∀ text ∈ texts, WordsIn (t.Known imports) text
  provided : ∀ name, request.Needs t name → name ≠ t.name → name ∈ imports.imported

variable {t : Target}

/-- A request without classes is answered by the renderings of its types. -/
theorem answered_of_renders (request : Request) (hclasses : request.classes = [])
    {imports : Imports} {pairs : List TypePair} (h : t.Renders imports request.types pairs) :
    request.Answered t (pairTexts pairs) imports where
  known := by
    intro text htext
    obtain ⟨pair, hpair, htext⟩ := List.mem_flatMap.mp htext
    rcases List.mem_cons.mp htext with rfl | htext
    · exact (h.known pair hpair).1
    · rw [List.mem_singleton.mp htext]
      exact (h.known pair hpair).2
  provided := by
    rintro name (⟨type, htype, hneeds⟩ | hclass) hown
    · exact h.provided type htype name hneeds hown
    · rw [hclasses] at hclass
      cases hclass

/-- Whatever is asked for, the imports take up what it needs and nothing else. -/
theorem ensures_texts {request : Request}
    (hallowed : ∀ name, request.Needs t name → allowed name) :
    Ensures t.name allowed (request.texts t) (request.Answered t) := by
  have hpermits : t.Permits allowed request.types := fun value hvalue name hneeds =>
    hallowed name (Or.inl ⟨value, hvalue, hneeds⟩)
  cases request with
  | type value position =>
      exact (Target.ensures_type position hpermits).map fun _ _ =>
        answered_of_renders (.type value position) rfl
  | param argument =>
      exact (Target.ensures_param hpermits).map fun _ _ =>
        answered_of_renders (.param argument) rfl
  | operation name overloads isStatic =>
      exact (Target.ensures_operation hpermits).map fun _ _ =>
        answered_of_renders (.operation name overloads isStatic) rfl
  | constructor overloads =>
      exact (Target.ensures_constructor hpermits).map fun _ _ =>
        answered_of_renders (.constructor overloads) rfl
  | getter name value isStatic =>
      exact (Target.ensures_getter hpermits).map fun _ _ =>
        answered_of_renders (.getter name value isStatic) rfl
  | setter name value isStatic =>
      exact (Target.ensures_setter hpermits).map fun _ _ =>
        answered_of_renders (.setter name value isStatic) rfl
  | iterator name key value =>
      exact (Target.ensures_iterator hpermits).map fun _ _ =>
        answered_of_renders (.iterator name key value) rfl
  | classRef name =>
      have hname : allowed name := hallowed name (Or.inr List.mem_cons_self)
      refine (Target.ensures_classRef hname).bind fun text => Ensures.pure fun later h =>
        ⟨by simpa using h.1, ?_⟩
      rintro other (⟨value, hvalue, -⟩ | hclass) hown
      · cases hvalue
      · rw [List.mem_singleton.mp hclass] at hown ⊢
        exact h.2 hown

end Request

/-! ## runs of requests -/

/-- Make requests one after another. What was imported before one fails stays imported. -/
def session (t : Target) (requests : List Request) :
    StateM Imports (List (Except Error (List String))) :=
  requests.mapM fun request => (request.texts t).run

/-- What one request gave stands after all later ones. -/
theorem session_answers {t : Target} {requests : List Request}
    (hallowed : ∀ request ∈ requests, ∀ name, request.Needs t name → allowed name)
    {before after : Imports} {results : List (Except Error (List String))}
    (htidy : before.Tidy t.name allowed) (h : (session t requests).run before = (results, after)) :
    after.Tidy t.name allowed ∧ before.Grows after ∧
      List.Forall₂ (fun request result => ∀ texts, result = .ok texts → ∀ later,
        after.Grows later → request.Answered t texts later) requests results := by
  induction requests generalizing before results with
  | nil =>
      rw [session, List.mapM_nil] at h
      cases h
      exact ⟨htidy, .refl _, .nil⟩
  | cons request requests ih =>
      obtain ⟨hfirst, hrest⟩ := List.forall_mem_cons.mp hallowed
      rw [session, List.mapM_cons, StateT.run_bind] at h
      cases hrun : (request.texts t).run.run before with
      | mk result middle =>
          obtain ⟨hmiddle, hgrows, hanswered⟩ :=
            Request.ensures_texts hfirst before result middle htidy hrun
          rw [hrun] at h
          cases hrun' : (session t requests).run middle with
          | mk rest last =>
              have hresult : (result :: rest, last) = (results, after) := by
                rw [← h]
                change _ = ((session t requests >>= fun rest => pure (result :: rest)).run middle)
                rw [StateT.run_bind, hrun']
                rfl
              cases hresult
              obtain ⟨hlast, hgrows', hall⟩ := ih hrest hmiddle hrun'
              -- What the first request gave stands as long as imports are only added.
              refine ⟨hlast, hgrows.trans hgrows', .cons ?_ hall⟩
              intro texts htexts later hlater
              exact hanswered texts htexts later (hgrows'.trans hlater)

/-- **A file imports what it mentions, in order, and nothing else.** Whatever is asked for
while the file of a definition is made, its text is a heading with one line for each imported
name; the names are strictly increasing, first by their lower-case letters; the definition
itself is not among them. The words of every text that was given are words for types, words of
qualified names, or words of imported names, and what a request needs is imported. Nothing is
imported that no request needs, and an enumeration only if it was referred to as a class. -/
theorem imports_are_what_is_mentioned {options : IngestOptions} {nodes : List Node} (t : Target)
    (hbuild : Registry.build options nodes = .ok t.registry)
    (kind : ArtifactKind) (requests : List Request) :
    ∃ results imports, (session t requests).run { own := t.name } = (results, imports) ∧
      finishFile (preamble kind t.root) t.root imports =
        heading kind t.root ++ (if imports.imported = [] then "" else "\n") ++
          String.join (imports.imported.map fun name => useLine t.root name ++ "\n") ∧
      (imports.imported.Pairwise fun a b =>
        Ordered.comparePairs (Text.lowerAscii a, a) (Text.lowerAscii b, b) = .lt) ∧
      t.name ∉ imports.imported ∧
      List.Forall₂ (fun request result => ∀ texts, result = .ok texts →
        request.Answered t texts imports) requests results ∧
      (∀ name ∈ imports.imported, ∃ request ∈ requests, request.Needs t name) ∧
      ∀ e ∈ t.registry.definitions, e.isEnum = true → e.name ∈ imports.imported →
        ∃ request ∈ requests, e.name ∈ request.classes := by
  have hallowed : ∀ request ∈ requests, ∀ name, request.Needs t name →
      ∃ request ∈ requests, request.Needs t name :=
    fun request hrequest name hneeds => ⟨request, hrequest, hneeds⟩
  cases hrun : (session t requests).run { own := t.name } with
  | mk results imports =>
      obtain ⟨htidy, -, hanswers⟩ := session_answers hallowed Imports.tidy_empty hrun
      refine ⟨results, imports, rfl, finishFile_preamble kind t.root imports, ?_, ?_, ?_, ?_, ?_⟩
      · rw [Imports.imported, List.pairwise_map]
        refine htidy.increasing.imp_of_mem fun {a b} ha hb hlt => ?_
        rw [← htidy.keyed a ha, ← htidy.keyed b hb]
        exact hlt
      · exact fun hown => (htidy.allowed t.name hown).1 rfl
      · exact hanswers.imp fun request result hanswer texts htexts =>
          hanswer texts htexts imports (.refl imports)
      · exact fun name hname => (htidy.allowed name hname).2
      · intro e he henum hname
        obtain ⟨request, hrequest, ⟨type, -, d, marks, hwithin, href⟩ | hclass⟩ :=
          (htidy.allowed e.name hname).2
        -- The definition of the name is the enumeration, so no type needs it.
        · rw [Reference.mk.injEq] at href
          have hsame : some d = some e := by
            rw [← (Catalog.grounds_tree type d marks hwithin).1, ← href.1,
              (Registry.wellFormed_of_build hbuild).get?_of_mem he]
          rw [Option.some.injEq] at hsame
          rw [← hsame, ← href.2] at henum
          cases henum
        · exact ⟨request, hrequest, hclass⟩

/-- `interface Node`, `enum Mode`, `dictionary Options` and `interface Album` -/
def albumNodes : List Node :=
  [.definition { name := "Node", kind := .interface },
   .definition { name := "Mode", kind := .enum ["open"] },
   .definition { name := "Options", kind := .dictionary },
   .definition { name := "Album", kind := .interface }]

/-- What an album asks for: `sequence<(Node or Mode)>`, `optional Options options`, a type that
nothing defines, and the classes of its options and of itself. -/
def albumRequests : List Request :=
  [.type (.generic .sequence [.union [.named "Node" false {}, .named "Mode" false {}] false {}]
      false {}) .argument,
   .param { name := "options", type := .named "Options" false {}, optional := true },
   .type (.named "Missing" false {}) .result,
   .classRef "Options",
   .classRef "Album"]

/-- The file of an album imports nodes and options, and refers to modes in full. -/
theorem album_imports_nodes_and_options :
    ∃ r, Registry.build {} albumNodes = .ok r ∧
      let t : Target := ⟨r, "Site", { name := "Album", kind := .interface }⟩
      ∃ results imports, (session t albumRequests).run { own := "Album" } = (results, imports) ∧
        results.map Except.toOption =
          [some ["array", "list<Node|\\Site\\Mode::*>"],
            some ["Options|array|null", "Options|array<string, mixed>|null"], none,
            some ["Options"], some ["\\Site\\Album"]] ∧
        imports.imported = ["Node", "Options"] ∧
        finishFile (preamble .scaffold "Site") "Site" imports =
          heading .scaffold "Site" ++ "\nuse Site\\Node;\nuse Site\\Options;\n" ∧
        ∃ request ∈ albumRequests, request.Needs t "Node" := by
  have hbuild : (Registry.build {} albumNodes).toOption.map (fun r =>
      let t : Target := ⟨r, "Site", { name := "Album", kind := .interface }⟩
      ((session t albumRequests).run { own := "Album" }).map
        (·.map Except.toOption) (·.imported)) =
      some ([some ["array", "list<Node|\\Site\\Mode::*>"],
        some ["Options|array|null", "Options|array<string, mixed>|null"], none,
        some ["Options"], some ["\\Site\\Album"]], ["Node", "Options"]) := by
    decide +kernel
  obtain ⟨r, hr, hfacts⟩ := ok_of_toOption_map hbuild
  obtain ⟨results, imports, hrun, htext, -, -, -, hneeded, -⟩ := imports_are_what_is_mentioned
    ⟨r, "Site", { name := "Album", kind := .interface }⟩ hr .scaffold albumRequests
  have hfacts' := (congrArg (Prod.map (·.map Except.toOption) (·.imported)) hrun).symm.trans hfacts
  rw [Prod.map, Prod.mk.injEq] at hfacts'
  obtain ⟨hresults, himported⟩ := hfacts'
  refine ⟨r, hr, results, imports, hrun, hresults, himported, ?_, ?_⟩
  · rw [htext, himported]
    dsimp only
    decide +kernel
  · exact hneeded "Node" (by simp [himported])

end Artifact

end WebIdl
