import WebIdl.Proofs.Rendering
import WebIdl.Registry

/-!
# WebIdl.Proofs.Documentation

The documentation of overloads and the documentation of a union.

Overloads are merged by their texts: each documentation is cut into its alternatives, and
these are put together (`splitTopLevel_unionDoc`).  A union is documented by its tree
(`mem_list_union`).  Both have the same alternatives, and none twice, unless there are only
null and an alternative without any text (`overloads_read_as_union`).
-/

namespace WebIdl

open WebIdl.Code
open WebIdl.Text (joinWith joinWith_nil joinWith_snoc Plain Solid splitTopLevel)

namespace TypeTree

mutual

/-- Whether an empty union stands in a tree. -/
def hasEmptyUnion : TypeTree → Bool
  | .union members _ => members.isEmpty || anyEmptyUnion members
  | .generic _ args _ => anyEmptyUnion args
  | _ => false

/-- Whether an empty union stands in one of some trees. -/
def anyEmptyUnion : List TypeTree → Bool
  | [] => false
  | tree :: trees => tree.hasEmptyUnion || anyEmptyUnion trees

end

theorem anyEmptyUnion_of_mem {tree : TypeTree} {trees : List TypeTree} (htree : tree ∈ trees)
    (h : tree.hasEmptyUnion = true) : anyEmptyUnion trees = true := by
  induction htree with
  | head trees => simp [anyEmptyUnion, h]
  | tail first _ ih => simp [anyEmptyUnion, ih]

/-- A tree with an empty union somewhere inside has one. -/
theorem hasEmptyUnion_of_within {tree : TypeTree} {marks : NullMarks}
    (h : (TypeTree.union [] marks).Within tree) : tree.hasEmptyUnion = true := by
  induction h with
  | self => rfl
  | member htree _ ih => simp [hasEmptyUnion, anyEmptyUnion_of_mem htree ih]
  | arg htree _ ih => simp [hasEmptyUnion, anyEmptyUnion_of_mem htree ih]

end TypeTree

namespace Code

/-! ## trees that stand alone -/

variable {ctx : TypeContext} {tree : TypeTree} {a : Alternatives}

/-- A tree is documented alike alone and inside of another one, except that no value is void
as a result. -/
theorem alternativesOf_below {top : Bool} (h : alternativesOf ctx top tree = .ok a) :
    alternativesOf ctx false tree = .ok a ∨ ctx.position = .result ∧ a = .one "void" false ∧
      alternativesOf ctx false tree = .ok (.one "null" false) := by
  cases tree with
  | primitive primitive marks =>
      cases primitive with
      | undefined =>
          rw [alternativesOf, Except.ok.injEq] at h
          subst h
          rw [alternativesOf]
          cases top <;> cases hposition : ctx.position <;> simp [undefinedWord]
      | _ => exact Or.inl (by simpa only [alternativesOf] using h)
  | generic head args marks =>
      by_cases hhead : head = .promise
      · subst hhead
        rw [alternativesOf_promise] at h ⊢
        exact Or.inl h
      · rw [alternativesOf_generic hhead] at h ⊢
        exact Or.inl h
  | _ => exact Or.inl (by simpa only [alternativesOf] using h)

/-- No container is written like a plain word. -/
theorem containerText_ne {head : Generic} {inners : List String} {word : String}
    (h : Plain word) : containerText head inners ≠ word := by
  rintro rfl
  have hmem : '<' ∈ (containerText head inners).toList := by simp [containerText]
  exact (h '<' hmem).2.1 rfl

/-- No definition is written like a word that starts otherwise and is not its name. -/
theorem spelling_ne {d : Definition} {word : String} (hword : word.toList.head? ≠ some '\\')
    (hname : d.name ≠ word) : spelling ctx d ≠ word := by
  rintro rfl
  rw [spelling, qualify] at hword hname
  split at hword
  · simp at hword
  · split at hword
    · simp at hword
    next henum hown => simp [henum, hown] at hname

/-- Below the top, nothing is void. -/
theorem void_notMem_parts (hnames : ∀ d marks, (TypeTree.definition d marks).Within tree →
    d.name ≠ "void") (h : alternativesOf ctx false tree = .ok a) : "void" ∉ a.parts := by
  intro hvoid
  refine parts_closed (P := (· ≠ "void")) (by decide) ?_ h (by simp) ?_ "void" hvoid rfl
  · exact fun _ _ _ => containerText_ne (by decide)
  · exact fun d marks hwithin => spelling_ne (by decide) (hnames d marks hwithin)

/-- An alternative without any text is a definition without a name. -/
theorem blank_notMem_parts (hnames : ∀ d marks, (TypeTree.definition d marks).Within tree →
    d.name ≠ "") (h : alternativesOf ctx false tree = .ok a) : "" ∉ a.parts := by
  intro hblank
  refine parts_closed (P := (· ≠ "")) (by decide) ?_ h (by simp) ?_ "" hblank rfl
  · exact fun _ _ _ => containerText_ne (by decide)
  · exact fun d marks hwithin => spelling_ne (by decide) (hnames d marks hwithin)

/-- A tree without an empty union has an alternative. -/
theorem parts_ne_nil {top : Bool}
    (hunions : ∀ marks, ¬ (TypeTree.union [] marks).Within tree)
    (h : alternativesOf ctx top tree = .ok a) : a.parts ≠ [] := by
  induction tree using TypeTree.inside_induction generalizing top a with
  | primitive primitive marks =>
      cases primitive <;>
        simp only [alternativesOf, Except.ok.injEq] at h <;> subst h <;> simp [Alternatives.one]
  | definition d marks =>
      rw [alternativesOf] at h
      split at h <;> cases h <;> simp [Alternatives.one, definitionParts]
  | unknown name => simp [alternativesOf] at h
  | fault error => simp [alternativesOf] at h
  | union members marks ih =>
      obtain ⟨branches, hbranches, rfl⟩ := alternativesOf_union.mp h
      rw [branchesOf_ok_iff] at hbranches
      cases hbranches with
      | nil => exact absurd .self (hunions marks)
      | @cons tree branch _ _ htree _ =>
          have hbranch := ih tree List.mem_cons_self
            (fun marks hwithin => hunions marks (.member List.mem_cons_self hwithin)) htree
          obtain ⟨part, hpart⟩ := List.exists_mem_of_ne_nil _ hbranch
          exact List.ne_nil_of_mem
            (Alternatives.mem_parts_union.mpr ⟨branch, List.mem_cons_self, hpart⟩)
  | generic head args marks ih =>
      by_cases hhead : head = .promise
      · subst hhead
        rw [alternativesOf_promise] at h
        cases h
        simp [Alternatives.one]
      · obtain ⟨-, branches, -, rfl⟩ := (alternativesOf_generic hhead).mp h
        simp [Alternatives.one]

/-! ## texts put together -/

/-- Nothing but null and an alternative without any text. -/
def OnlyBlank (alternatives : List String) : Prop :=
  "" ∈ alternatives ∧ "null" ∈ alternatives ∧ ∀ part ∈ alternatives, part = "" ∨ part = "null"

instance (alternatives : List String) : Decidable (OnlyBlank alternatives) :=
  inferInstanceAs (Decidable (_ ∧ _ ∧ ∀ part ∈ alternatives, part = "" ∨ part = "null"))

section UnionDoc

variable {docs : List String}

/-- The alternatives of some documentations other than null, each once. -/
def distinctParts (docs : List String) : List String :=
  ((docs.flatMap splitTopLevel).filter (· != "null")).foldl addPart []

/-- The distinct parts are all alternatives but null. -/
theorem mem_distinctParts {part : String} :
    part ∈ distinctParts docs ↔ part ∈ docs.flatMap splitTopLevel ∧ part ≠ "null" := by
  simp [distinctParts, mem_foldl_addPart]

/-- None of them is there twice. -/
theorem nodup_distinctParts : (distinctParts docs).Nodup :=
  nodup_foldl_addPart List.nodup_nil

/-- A union with null has it as its last part, or as its only one. -/
theorem unionDoc_of_mem (h : "null" ∈ docs.flatMap splitTopLevel) :
    unionDoc docs = if joinWith "|" (distinctParts docs) = "" then "null"
      else joinWith "|" (distinctParts docs) ++ "|null" := by
  rw [unionDoc]
  simp only [List.contains_iff_mem, h, if_true, beq_iff_eq]
  rfl

/-- A union without null has the distinct parts. -/
theorem unionDoc_of_notMem (h : "null" ∉ docs.flatMap splitTopLevel) :
    unionDoc docs = joinWith "|" (distinctParts docs) := by
  rw [unionDoc]
  simp only [List.contains_iff_mem, h, if_false]
  rfl

variable (hsolid : ∀ part ∈ docs.flatMap splitTopLevel, Solid part)

include hsolid

/-- No distinct part can be cut. -/
theorem solid_distinctParts : ∀ part ∈ distinctParts docs, Solid part :=
  fun part hpart => hsolid part (mem_distinctParts.mp hpart).1

/-- Only an alternative without any text leaves no text. -/
theorem distinctParts_of_joinWith_eq (h : joinWith "|" (distinctParts docs) = "") :
    distinctParts docs = [] ∨ distinctParts docs = [""] := by
  by_cases hne : distinctParts docs = []
  · exact Or.inl hne
  · have hcut := Text.splitTopLevel_joinWith hne (solid_distinctParts hsolid)
    rw [h] at hcut
    exact Or.inr hcut.symm

/-- The distinct parts join to nothing if they are blank. -/
theorem joinWith_eq_iff_onlyBlank (hnull : "null" ∈ docs.flatMap splitTopLevel)
    (hne : distinctParts docs ≠ []) :
    joinWith "|" (distinctParts docs) = "" ↔ OnlyBlank (docs.flatMap splitTopLevel) := by
  have hmem : ∀ part, part ∈ distinctParts docs ↔
      part ∈ docs.flatMap splitTopLevel ∧ part ≠ "null" := fun _ => mem_distinctParts
  constructor
  · intro h
    have hblank := (distinctParts_of_joinWith_eq hsolid h).resolve_left hne
    rw [hblank] at hmem
    refine ⟨((hmem "").mp (by simp)).1, hnull, fun part hpart => ?_⟩
    by_cases hpartNull : part = "null"
    · exact Or.inr hpartNull
    · exact Or.inl (List.mem_singleton.mp ((hmem part).mpr ⟨hpart, hpartNull⟩))
  · rintro ⟨-, -, honly⟩
    have hall : ∀ part ∈ distinctParts docs, part = "" := fun part hpart =>
      (honly part ((hmem part).mp hpart).1).resolve_right ((hmem part).mp hpart).2
    have hrepeat := List.eq_replicate_of_mem hall
    have hlength : (distinctParts docs).length = 1 := by
      have hnodup : (distinctParts docs).Nodup := nodup_distinctParts
      rw [hrepeat, List.nodup_replicate] at hnodup
      have hpos := List.length_pos_iff.mpr hne
      omega
    rw [hrepeat, hlength]
    simp

/-- Put together, the alternatives of some documentations are all there, null last. -/
theorem splitTopLevel_unionDoc (hne : docs.flatMap splitTopLevel ≠ [])
    (hblank : ¬ OnlyBlank (docs.flatMap splitTopLevel)) :
    splitTopLevel (unionDoc docs) = distinctParts docs ++
      if "null" ∈ docs.flatMap splitTopLevel then ["null"] else [] := by
  have hcut : ∀ {parts : List String}, parts ≠ [] →
      (∀ part ∈ parts, part ∈ distinctParts docs ∨ part = "null") →
      splitTopLevel (joinWith "|" parts) = parts := by
    intro parts hparts hmem
    refine Text.splitTopLevel_joinWith hparts fun part hpart => ?_
    rcases hmem part hpart with hpart | rfl
    · exact solid_distinctParts hsolid part hpart
    · exact (by decide : Plain "null").solid
  split
  next hnull =>
    rw [unionDoc_of_mem hnull]
    by_cases hparts : distinctParts docs = []
    · rw [hparts, joinWith_nil, if_pos rfl]
      rfl
    · rw [if_neg fun h => hblank ((joinWith_eq_iff_onlyBlank hsolid hnull hparts).mp h),
        show "|null" = "|" ++ "null" from rfl, ← String.append_assoc, ← joinWith_snoc hparts]
      exact hcut (by simp) (by simp)
  next hnull =>
    have hparts : distinctParts docs ≠ [] := by
      obtain ⟨part, hpart⟩ := List.exists_mem_of_ne_nil _ hne
      refine List.ne_nil_of_mem (a := part) (mem_distinctParts.mpr ⟨hpart, ?_⟩)
      rintro rfl
      exact hnull hpart
    rw [unionDoc_of_notMem hnull, List.append_nil]
    exact hcut hparts (by simp +contextual)

/-- Blank alternatives and null are documented as null. -/
theorem unionDoc_of_onlyBlank (hblank : OnlyBlank (docs.flatMap splitTopLevel)) :
    unionDoc docs = "null" := by
  have hne : distinctParts docs ≠ [] :=
    List.ne_nil_of_mem (mem_distinctParts.mpr ⟨hblank.1, by decide⟩)
  rw [unionDoc_of_mem hblank.2.1,
    if_pos ((joinWith_eq_iff_onlyBlank hsolid hblank.2.1 hne).mpr hblank)]

/-- No union has a part twice. -/
theorem nodup_unionDoc (hne : docs.flatMap splitTopLevel ≠ []) :
    (splitTopLevel (unionDoc docs)).Nodup := by
  by_cases hblank : OnlyBlank (docs.flatMap splitTopLevel)
  · rw [unionDoc_of_onlyBlank hsolid hblank]
    decide
  · rw [splitTopLevel_unionDoc hsolid hne hblank]
    refine List.nodup_append.mpr ⟨nodup_distinctParts, by split <;> simp, ?_⟩
    intro part hpart other hother heq
    subst heq
    split at hother
    · exact (mem_distinctParts.mp hpart).2 (List.mem_singleton.mp hother)
    · cases hother

/-- Putting documentations together keeps their alternatives, unless only null and a text
of no length are there. -/
theorem mem_unionDoc_iff (hne : docs.flatMap splitTopLevel ≠ []) :
    (∀ part, part ∈ splitTopLevel (unionDoc docs) ↔ part ∈ docs.flatMap splitTopLevel) ↔
      ¬ OnlyBlank (docs.flatMap splitTopLevel) := by
  constructor
  · intro h hblank
    have hmem := (h "").mpr hblank.1
    rw [unionDoc_of_onlyBlank hsolid hblank] at hmem
    exact absurd hmem (by decide)
  · intro hblank part
    rw [splitTopLevel_unionDoc hsolid hne hblank, List.mem_append, mem_distinctParts]
    by_cases hnull : part = "null"
    · subst hnull
      split <;> simp_all
    · split <;> simp [hnull]

end UnionDoc

/-! ## the tree of a union -/

/-- Distinct alternatives are written as distinct ones. -/
theorem Alternatives.nodup_list (h : a.parts.Nodup) : a.list.Nodup := by
  have hstart : (if a.parts = [] then [""] else a.parts).Nodup := by
    split
    · exact List.nodup_singleton ""
    · exact h
  rw [list]
  cases hnull : a.nullable && !a.hasNull with
  | false => simpa using hstart
  | true =>
      refine List.nodup_append.mpr ⟨hstart, List.nodup_singleton "null", ?_⟩
      simp only [hasNull, Bool.and_eq_true, Bool.not_eq_true', List.any_eq_false] at hnull
      intro part hpart other hother heq
      rw [List.mem_singleton.mp hother] at heq
      subst heq
      split at hpart
      · simp at hpart
      · exact hnull.2 "null" hpart (by decide)

/-- Which alternatives there are decides whether they are blank. -/
theorem OnlyBlank.congr {first second : List String} (h : ∀ part, part ∈ first ↔ part ∈ second) :
    OnlyBlank first ↔ OnlyBlank second := by
  simp only [OnlyBlank, h]

/-- The alternatives of a union are distinct. -/
theorem nodup_parts_union {branches : List Alternatives} {nullable : Bool} :
    (branches.foldl Alternatives.addBranch ⟨[], nullable⟩).parts.Nodup := by
  rw [Alternatives.parts_foldl_addBranch]
  exact nodup_foldl_addPart List.nodup_nil

/-- The alternatives of a union are those of its members. -/
theorem mem_list_union {branches : List Alternatives} (hne : branches ≠ [])
    (hbranch : ∀ branch ∈ branches, branch.parts ≠ [] ∧ "void" ∉ branch.parts) {part : String} :
    part ∈ (branches.foldl Alternatives.addBranch ⟨[], false⟩).list ↔
      ∃ branch ∈ branches, part ∈ branch.list := by
  have hvoid : "void" ∉ (branches.foldl Alternatives.addBranch ⟨[], false⟩).parts := by
    rw [Alternatives.mem_parts_union]
    rintro ⟨branch, hmem, hvoid⟩
    exact (hbranch branch hmem).2 hvoid
  have hsome : (branches.foldl Alternatives.addBranch ⟨[], false⟩).parts ≠ [] := by
    obtain ⟨branch, hmem⟩ := List.exists_mem_of_ne_nil _ hne
    obtain ⟨part, hpart⟩ := List.exists_mem_of_ne_nil _ (hbranch branch hmem).1
    exact List.ne_nil_of_mem (Alternatives.mem_parts_union.mpr ⟨branch, hmem, hpart⟩)
  have hlist : ∀ branch ∈ branches, (part ∈ branch.list ↔
      part ∈ branch.parts ∨ part = "null" ∧ branch.nullable = true) := fun branch hmem =>
    Alternatives.mem_list_iff (hbranch branch hmem).1 (hbranch branch hmem).2
  rw [Alternatives.mem_list_iff hsome hvoid, Alternatives.mem_parts_union,
    Alternatives.nullable_foldl_addBranch, Bool.false_or, List.any_eq_true]
  grind

end Code

/-! ## overloads -/

namespace Catalog

variable {c : Catalog} {ctx : TypeContext}

/-- The documentations of overloads at a position. As a result, nothing counts as null. -/
def overloadDocs (position : Position) (docs : List String) : List String :=
  if position = .result then docs.map fun doc => if doc == "void" then "null" else doc else docs

/-- The first overload comes first, with null in place of void. -/
theorem overloadDocs_cons (position : Position) (doc : String) (docs : List String) :
    overloadDocs position (doc :: docs) =
      (if position = .result ∧ doc = "void" then "null" else doc) ::
        overloadDocs position docs := by
  by_cases hposition : position = .result <;> simp [overloadDocs, hposition]

section Named

variable (hplain : ∀ d ∈ c.definitions, Plain d.name) (hroot : Plain ctx.root)

/-- Inside of other types nothing is documented as void. -/
theorem void_notMem_tree {type : IdlType} {a : Alternatives}
    (h : alternativesOf ctx false (c.tree type) = .ok a) : "void" ∉ a.parts := by
  refine void_notMem_parts (fun d marks hwithin => ?_) h
  have hname := (grounds_tree type d marks hwithin).2
  rintro heq
  rw [heq] at hname
  exact absurd hname (by decide)

include hplain hroot

/-- An overload's documentation is that of its type inside of another one. -/
theorem alternativesOf_overload {type : IdlType} {doc : String}
    (h : documentation c ctx type = .ok doc) : ∃ a,
      alternativesOf ctx false (c.tree type) = .ok a ∧
        (if ctx.position = .result ∧ doc = "void" then "null" else doc) = a.text := by
  rw [documentation, documentationOf, bind_eq_ok] at h
  obtain ⟨a, ha, hdoc⟩ := h
  rw [pure_eq_ok] at hdoc
  subst hdoc
  rcases alternativesOf_below ha with hbelow | ⟨hposition, rfl, hbelow⟩
  · refine ⟨a, hbelow, if_neg ?_⟩
    rintro ⟨-, hvoid⟩
    have hcut := splitTopLevel_text hroot (plain_of_within hplain type) hbelow
    rw [hvoid] at hcut
    have hmem : "void" ∈ a.list := by
      rw [← hcut]
      decide
    rcases Alternatives.mem_list_cases hmem with hmem | hmem | hmem
    · exact void_notMem_tree hbelow hmem
    · exact absurd hmem (by decide)
    · exact absurd hmem (by decide)
  · exact ⟨_, hbelow, if_pos ⟨hposition, rfl⟩⟩

/-- The documentations of overloads are the branches of a union. -/
theorem branchesOf_overloads {types : List IdlType} {docs : List String}
    (h : types.mapM (documentation c ctx) = .ok docs) : ∃ branches,
      branchesOf ctx (types.map c.tree) = .ok branches ∧
        overloadDocs ctx.position docs = branches.map Alternatives.text := by
  induction types generalizing docs with
  | nil =>
      rw [List.mapM_nil, pure_eq_ok] at h
      subst h
      exact ⟨[], by simp [branchesOf], by simp [overloadDocs]⟩
  | cons type types ih =>
      simp only [List.mapM_cons, bind_eq_ok, pure_eq_ok] at h
      obtain ⟨doc, hdoc, docs, hdocs, rfl⟩ := h
      obtain ⟨branch, hbranch, htext⟩ := alternativesOf_overload hplain hroot hdoc
      obtain ⟨branches, hbranches, htexts⟩ := ih hdocs
      refine ⟨branch :: branches, ?_, ?_⟩
      · rw [branchesOf_ok_iff] at hbranches ⊢
        exact .cons hbranch hbranches
      · rw [overloadDocs_cons, htext, htexts, List.map_cons]

end Named

/-- The tree of a union has the trees of its members. -/
theorem tree_union (types : List IdlType) (nullable : Bool) (attrs : ExtAttrs) :
    c.tree (.union types nullable attrs) = .union (types.map c.tree) (.of nullable attrs) := by
  rw [tree, IdlType.toTree, toTrees_eq_map]
  rfl

/-- A type without marks does not take null. -/
theorem isNullable_plain (position : Position) : isNullable (.of false {}) position = false := by
  cases position <;> rfl

section Members

variable {types : List IdlType} {branches : List Alternatives}
  (h : branchesOf ctx (types.map c.tree) = .ok branches)

include h

/-- Every branch documents one of the types. -/
theorem exists_type_of_branch : ∀ branch ∈ branches,
    ∃ type ∈ types, alternativesOf ctx false (c.tree type) = .ok branch := by
  intro branch hbranch
  obtain ⟨tree, htree, halts⟩ := exists_tree_of_branch h hbranch
  obtain ⟨type, htype, rfl⟩ := List.mem_map.mp htree
  exact ⟨type, htype, halts⟩

/-- The union of the types has the alternatives of the branches. -/
theorem alternativesOf_members (top : Bool) :
    alternativesOf ctx top (c.tree (.union types false {})) =
      .ok (branches.foldl .addBranch ⟨[], false⟩) := by
  rw [tree_union, alternativesOf_union]
  exact ⟨branches, h, by rw [isNullable_plain]⟩

/-- Only a definition without a name has no text. -/
theorem exists_unnamed {branch : Alternatives} (hmem : branch ∈ branches)
    (hblank : "" ∈ branch.parts) : ∃ d ∈ c.definitions, d.name = "" := by
  obtain ⟨type, -, halts⟩ := exists_type_of_branch h branch hmem
  by_contra hnone
  refine blank_notMem_parts (fun d marks hwithin hname => hnone ⟨d, ?_, hname⟩) halts hblank
  exact mem_of_get? (grounds_tree type d marks hwithin).1

variable (hplain : ∀ d ∈ c.definitions, Plain d.name) (hroot : Plain ctx.root)

include hplain hroot

/-- The texts of the members are cut into what the members have. -/
theorem splitTopLevel_members :
    (branches.map Alternatives.text).flatMap splitTopLevel = branches.flatMap (·.list) := by
  rw [List.flatMap_map]
  refine List.flatMap_congr fun branch hmem => ?_
  obtain ⟨type, -, halts⟩ := exists_type_of_branch h branch hmem
  exact splitTopLevel_text hroot (plain_of_within hplain type) halts

/-- No alternative of a branch can be cut. -/
theorem solid_members : ∀ part ∈ branches.flatMap (·.list), Solid part := by
  intro part hpart
  obtain ⟨branch, hmem, hpart⟩ := List.mem_flatMap.mp hpart
  obtain ⟨type, -, halts⟩ := exists_type_of_branch h branch hmem
  exact solid_list (solid_parts hroot (plain_of_within hplain type) halts) part hpart

end Members

/-- **Overloads are documented as the union of their types.** The alternatives of merged
texts are those of the union, in both of them once, unless there are only null and an
alternative without any text, which only a definition without a name has. -/
theorem overloads_read_as_union (c : Catalog) (hplain : ∀ d ∈ c.definitions, Plain d.name)
    (config : Config) (hconfig : config.validate = .ok ()) (own : String) (position : Position)
    (types : List IdlType) (hne : types ≠ [])
    (hunions : ∀ type ∈ types, ∀ marks, ¬ (TypeTree.union [] marks).Within (c.tree type))
    (docs : List String)
    (hdocs : types.mapM (documentation c ⟨config.root, own, position⟩) = .ok docs) :
    ∃ whole, documentation c ⟨config.root, own, position⟩ (.union types false {}) = .ok whole ∧
      (splitTopLevel (unionDoc (overloadDocs position docs))).Nodup ∧
      (splitTopLevel whole).Nodup ∧
      ((∀ part, part ∈ splitTopLevel (unionDoc (overloadDocs position docs)) ↔
        part ∈ splitTopLevel whole) ↔ ¬ OnlyBlank (splitTopLevel whole)) ∧
      ("" ∈ splitTopLevel whole → ∃ d ∈ c.definitions, d.name = "") := by
  have hroot := Config.plain_root hconfig
  obtain ⟨branches, hbranches, htexts⟩ := branchesOf_overloads hplain hroot hdocs
  have hbranch : ∀ branch ∈ branches, branch.parts ≠ [] ∧ "void" ∉ branch.parts := by
    intro branch hmem
    obtain ⟨type, htype, halts⟩ := exists_type_of_branch hbranches branch hmem
    exact ⟨parts_ne_nil (hunions type htype) halts, void_notMem_tree halts⟩
  have hsome : branches ≠ [] := by
    rintro rfl
    rw [branchesOf_ok_iff, List.forall₂_nil_right_iff, List.map_eq_nil_iff] at hbranches
    exact hne hbranches
  have hcut : (overloadDocs position docs).flatMap splitTopLevel = branches.flatMap (·.list) := by
    rw [htexts, splitTopLevel_members hbranches hplain hroot]
  have hsolid : ∀ part ∈ (overloadDocs position docs).flatMap splitTopLevel, Solid part := by
    rw [hcut]
    exact solid_members hbranches hplain hroot
  have hall : (overloadDocs position docs).flatMap splitTopLevel ≠ [] := by
    obtain ⟨branch, hmem⟩ := List.exists_mem_of_ne_nil _ hsome
    obtain ⟨part, hpart⟩ := List.exists_mem_of_ne_nil _ branch.list_ne_nil
    rw [hcut]
    exact List.ne_nil_of_mem (List.mem_flatMap.mpr ⟨branch, hmem, hpart⟩)
  have halts := alternativesOf_members hbranches true
  have hwhole := splitTopLevel_text hroot (plain_of_within hplain _) halts
  -- Both sides have what the members of the union have.
  have hmem : ∀ part, part ∈ (overloadDocs position docs).flatMap splitTopLevel ↔
      part ∈ (branches.foldl Alternatives.addBranch ⟨[], false⟩).list := by
    intro part
    rw [mem_list_union hsome hbranch, hcut, List.mem_flatMap]
  refine ⟨_, by rw [documentation, documentationOf, halts]; rfl, nodup_unionDoc hsolid hall, ?_,
    ?_, ?_⟩
  · rw [hwhole]
    exact Alternatives.nodup_list nodup_parts_union
  · rw [hwhole, ← OnlyBlank.congr hmem, ← mem_unionDoc_iff hsolid hall]
    simp only [hmem]
  · rw [hwhole, mem_list_union hsome hbranch]
    rintro ⟨branch, hmem, hblank⟩
    rw [Alternatives.mem_list_iff (hbranch branch hmem).1 (hbranch branch hmem).2] at hblank
    exact exists_unnamed hbranches hmem (hblank.resolve_right (by simp))

/-- `interface Node`, `enum Mode` and `typedef Node? Owner`. -/
def papers : Catalog where
  definitions := [
    { name := "Mode", kind := .enum ["open", "closed"] },
    { name := "Node", kind := .interface }]
  typedefs := [("Owner", .named "Node" true {})]
  includes := []

/-- `Owner`, `(Mode or long)`, `sequence<(Node or undefined)>` and `undefined` -/
def entries : List IdlType := [
  .named "Owner" false {},
  .union [.named "Mode" false {}, .named "long" false {}] false {},
  .generic .sequence [.union [.named "Node" false {}, .named "undefined" false {}] false {}]
    false {},
  .named "undefined" false {}]

/-- Four overloads return what a union of their results has, with null for the one that
returns nothing. -/
theorem papers_read_as_union :
    ∃ docs whole, entries.mapM (documentation papers ⟨"Site", "Shelf", .result⟩) = .ok docs ∧
      "void" ∈ docs ∧
      documentation papers ⟨"Site", "Shelf", .result⟩ (.union entries false {}) = .ok whole ∧
      whole = "Node|\\Site\\Mode::*|int|list<Node|null>|null" ∧
      ∀ part, part ∈ splitTopLevel (unionDoc (overloadDocs .result docs)) ↔
        part ∈ splitTopLevel whole := by
  have hdocs : (entries.mapM (documentation papers ⟨"Site", "Shelf", .result⟩)).toOption.map
      (·.contains "void") = some true := by
    decide +kernel
  have hunion : (documentation papers ⟨"Site", "Shelf", .result⟩
      (.union entries false {})).toOption =
        some "Node|\\Site\\Mode::*|int|list<Node|null>|null" := by
    decide +kernel
  have hunions : ∀ type ∈ entries, (papers.tree type).hasEmptyUnion = false := by
    decide +kernel
  obtain ⟨docs, hdocs, hvoid⟩ := ok_of_toOption_map hdocs
  obtain ⟨whole, hwhole, -, -, hagree, -⟩ := overloads_read_as_union papers (by decide)
    { root := "Site" } (by decide) "Shelf" .result entries (by decide)
    (fun type htype marks hwithin => by
      simpa [hunions type htype] using TypeTree.hasEmptyUnion_of_within hwithin) docs hdocs
  have htext : whole = "Node|\\Site\\Mode::*|int|list<Node|null>|null" := by
    simpa [hwhole, Except.toOption] using hunion
  refine ⟨docs, whole, hdocs, by simpa using hvoid, hwhole, htext, hagree.mpr ?_⟩
  subst htext
  decide

/-- `interface` without a name, or null. -/
def unnamed : IdlType := .named "" true {}

/-- An interface without a name is an alternative of a union, and none of overloads. -/
theorem unnamed_alternative_is_lost :
    ∃ r, Registry.build {} [.definition { name := "", kind := .interface }] = .ok r ∧
      (∀ d ∈ r.definitions, Plain d.name) ∧ ({} : Config).validate = .ok () ∧
      documentation r.toCatalog ⟨"Generated", "A", .argument⟩ unnamed = .ok "|null" ∧
      documentation r.toCatalog ⟨"Generated", "A", .argument⟩ (.union [unnamed] false {}) =
        .ok "|null" ∧
      "" ∈ splitTopLevel "|null" ∧ "" ∉ splitTopLevel (unionDoc ["|null"]) := by
  have hbuild : (Registry.build {} [.definition { name := "", kind := .interface }]).toOption.map
      (fun r => (decide (∀ d ∈ r.definitions, Plain d.name),
        (documentation r.toCatalog ⟨"Generated", "A", .argument⟩ unnamed).toOption,
        (documentation r.toCatalog ⟨"Generated", "A", .argument⟩
          (.union [unnamed] false {})).toOption)) = some (true, some "|null", some "|null") := by
    decide +kernel
  obtain ⟨r, hr, hfacts⟩ := ok_of_toOption_map hbuild
  simp only [Prod.mk.injEq, decide_eq_true_eq] at hfacts
  obtain ⟨hplain, hone, hunion⟩ := hfacts
  exact ⟨r, hr, hplain, by decide, eq_ok_of_toOption hone, eq_ok_of_toOption hunion, by decide,
    by decide⟩

end Catalog

end WebIdl
