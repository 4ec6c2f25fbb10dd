import WebIdl.Proofs.Documentation
import WebIdl.Proofs.Expansion

/-!
# WebIdl.Proofs.Flattening

Unions inside of unions.

A union's documentation collects the alternatives of its branches, each once, and whether one
of them takes null.  Collecting what was collected before changes nothing
(`foldl_addPart_foldl`), so the branches of an inner union can as well stand in its place
(`foldl_addBranch_flatten`).  Behind a typedef the inner union is entered one level less deep,
and entering typedefs deeper keeps every documentation that there is (`Extends`):

* `nested_unions_flatten`: an inner union can be replaced by its branches.
-/

namespace WebIdl

open WebIdl.Code
open WebIdl.Text (joinWith Plain splitTopLevel)

namespace Code

/-! ## collecting alternatives -/

/-- An alternative that is there is not added again. -/
theorem addPart_of_mem {parts : List String} {part : String} (h : part ∈ parts) :
    addPart parts part = parts := by
  rw [addPart, if_pos (List.contains_iff_mem.mpr h)]

/-- One that is not there is added at the end. -/
theorem addPart_of_notMem {parts : List String} {part : String} (h : part ∉ parts) :
    addPart parts part = parts ++ [part] := by
  rw [addPart, if_neg fun hmem => h (List.contains_iff_mem.mp hmem)]

/-- Adding what was collected is adding what it was collected from. -/
theorem foldl_addPart_foldl (acc start parts : List String) :
    (parts.foldl addPart start).foldl addPart acc =
      parts.foldl addPart (start.foldl addPart acc) := by
  induction parts generalizing start with
  | nil => rfl
  | cons part parts ih =>
      rw [List.foldl_cons, List.foldl_cons, ih]
      by_cases hmem : part ∈ start
      · rw [addPart_of_mem hmem, addPart_of_mem (mem_foldl_addPart.mpr (Or.inr hmem))]
      · rw [addPart_of_notMem hmem, List.foldl_append, List.foldl_cons, List.foldl_nil]

namespace Alternatives

theorem ext_fields {a b : Alternatives} (hparts : a.parts = b.parts)
    (hnullable : a.nullable = b.nullable) : a = b := by
  cases a
  cases b
  exact mk.injEq .. ▸ ⟨hparts, hnullable⟩

/-- The branches of an inner union can stand in its place. -/
theorem foldl_addBranch_flatten (before inner after : List Alternatives)
    (nullable innerNullable : Bool) :
    (before ++ inner.foldl addBranch ⟨[], innerNullable⟩ :: after).foldl addBranch
        ⟨[], nullable⟩ =
      (before ++ inner ++ after).foldl addBranch ⟨[], nullable || innerNullable⟩ := by
  refine ext_fields ?_ ?_
  · simp only [parts_foldl_addBranch, List.flatMap_cons, List.foldl_append, foldl_addPart_foldl,
      List.foldl_nil]
  · simp only [nullable_foldl_addBranch, List.any_append, List.any_cons]
    grind

/-- A type that takes null has it among what is written. -/
theorem null_mem_list {a : Alternatives} (h : a.nullable = true) (hvoid : "void" ∉ a.parts) :
    "null" ∈ a.list := by
  cases hnull : a.hasNull with
  | true =>
      rw [hasNull, List.any_eq_true] at hnull
      obtain ⟨part, hpart, hword⟩ := hnull
      rw [Bool.or_eq_true, beq_iff_eq, beq_iff_eq] at hword
      rcases hword with rfl | rfl
      · exact mem_list_of_mem_parts hpart
      · exact absurd hpart hvoid
  | false =>
      rw [list, h, hnull]
      exact List.mem_append_right _ (List.mem_singleton.mpr rfl)

end Alternatives

/-! ## documentation of deeper trees -/

/-- A tree has every documentation that another one has. -/
def Extends (ctx : TypeContext) (tree other : TypeTree) : Prop :=
  ∀ top a, alternativesOf ctx top tree = .ok a → alternativesOf ctx top other = .ok a

variable {ctx : TypeContext}

/-- Trees that extend others have their branches. -/
theorem branchesOf_extends {trees others : List TypeTree} {branches : List Alternatives}
    (h : List.Forall₂ (Extends ctx) trees others)
    (hbranches : branchesOf ctx trees = .ok branches) :
    branchesOf ctx others = .ok branches := by
  rw [branchesOf_ok_iff] at hbranches ⊢
  induction h generalizing branches with
  | nil => exact hbranches
  | cons hfirst _ ih =>
      cases hbranches with
      | cons hbranch hbranches => exact .cons (hfirst false _ hbranch) (ih hbranches)

/-- The branches of two lists of trees are those of the one, then those of the other. -/
theorem branchesOf_append {trees others : List TypeTree} {branches : List Alternatives} :
    branchesOf ctx (trees ++ others) = .ok branches ↔
      ∃ first rest, branchesOf ctx trees = .ok first ∧ branchesOf ctx others = .ok rest ∧
        first ++ rest = branches := by
  induction trees generalizing branches with
  | nil => simp [branchesOf]
  | cons tree trees ih =>
      rw [List.cons_append, branchesOf, branchesOf]
      simp only [bind_eq_ok, pure_eq_ok, ih]
      constructor
      · rintro ⟨branch, hbranch, _, ⟨first, rest, hfirst, hrest, rfl⟩, rfl⟩
        exact ⟨branch :: first, rest, ⟨branch, hbranch, first, hfirst, rfl⟩, hrest, rfl⟩
      · rintro ⟨_, rest, ⟨branch, hbranch, first, hfirst, rfl⟩, hrest, rfl⟩
        exact ⟨branch, hbranch, first ++ rest, ⟨first, rest, hfirst, hrest, rfl⟩, rfl⟩

/-- Trees of names that are extended give a tree that is. -/
theorem extends_toTree {f g : String → Bool → ExtAttrs → TypeTree}
    (h : ∀ name nullable attrs, Extends ctx (f name nullable attrs) (g name nullable attrs))
    (type : IdlType) : Extends ctx (type.toTree f) (type.toTree g) := by
  have hparts : ∀ types : List IdlType,
      (∀ type ∈ types, Extends ctx (type.toTree f) (type.toTree g)) →
      List.Forall₂ (Extends ctx) (toTrees f types) (toTrees g types) := by
    intro types htypes
    rw [toTrees_eq_map, toTrees_eq_map, List.forall₂_map_left_iff, List.forall₂_map_right_iff,
      List.forall₂_same]
    exact htypes
  induction type using IdlType.parts_induction with
  | named name nullable attrs => exact h name nullable attrs
  | union members nullable attrs ih =>
      intro top a ha
      rw [IdlType.toTree, alternativesOf_union] at ha ⊢
      obtain ⟨branches, hbranches, rfl⟩ := ha
      exact ⟨branches, branchesOf_extends (hparts members ih) hbranches, rfl⟩
  | generic head args nullable attrs ih =>
      intro top a ha
      by_cases hhead : head = .promise
      · subst hhead
        rw [IdlType.toTree, alternativesOf_promise] at ha ⊢
        exact ha
      · rw [IdlType.toTree, alternativesOf_generic hhead] at ha ⊢
        obtain ⟨harity, branches, hbranches, rfl⟩ := ha
        refine ⟨?_, branches, branchesOf_extends (hparts args ih) hbranches, rfl⟩
        rwa [← (hparts args ih).length_eq]

end Code

namespace Catalog

variable {c : Catalog} {ctx : TypeContext}

/-- Entering typedefs one level deeper keeps every documentation. -/
theorem extends_nameTree_succ (depth : Nat) (name : String) (nullable : Bool) (attrs : ExtAttrs) :
    Extends ctx (c.nameTree depth name nullable attrs)
      (c.nameTree (depth + 1) name nullable attrs) := by
  induction depth generalizing name nullable attrs with
  | zero =>
      intro top a ha
      cases htypedef : c.typedef? name with
      | none =>
          rw [nameTree_of_typedef?_eq_none htypedef] at ha ⊢
          exact ha
      | some body =>
          unfold nameTree at ha
          simp [htypedef, alternativesOf] at ha
  | succ depth ih =>
      intro top a ha
      cases htypedef : c.typedef? name with
      | none =>
          rw [nameTree_of_typedef?_eq_none htypedef] at ha ⊢
          exact ha
      | some body =>
          rw [nameTree_of_typedef? htypedef] at ha ⊢
          cases hr : c.resolve (.named name nullable attrs) with
          | error e => simp [hr, alternativesOf] at ha
          | ok r =>
              rw [hr] at ha
              exact extends_toTree ih r top a ha

/-- Following typedefs further only extends a tree. -/
theorem extends_toTree_of_le {depth depth' : Nat} (h : depth ≤ depth') (type : IdlType) :
    Extends ctx (type.toTree (c.nameTree depth)) (type.toTree (c.nameTree depth')) := by
  induction h with
  | refl => exact fun _ _ ha => ha
  | step _ ih => exact fun top a ha =>
      extends_toTree (extends_nameTree_succ _) type top a (ih top a ha)

/-- A branch that is resolved to a union has the documentation of its branches. -/
theorem alternativesOf_inner {branch : IdlType} {inner : List IdlType} {nullable top : Bool}
    {attrs : ExtAttrs} {a : Alternatives}
    (hr : c.resolve branch = .ok (.union inner nullable attrs))
    (h : alternativesOf ctx top (c.tree branch) = .ok a) :
    ∃ branches, branchesOf ctx (inner.map c.tree) = .ok branches ∧
      branches.foldl .addBranch ⟨[], isNullable (.of nullable attrs) ctx.position⟩ = a := by
  obtain ⟨depth, hdepth, htree⟩ := exists_tree_of_resolve hr
  rw [htree] at h
  have hwhole := extends_toTree_of_le hdepth _ top a h
  rwa [← tree, tree_union, alternativesOf_union] at hwhole

/-- A type is nullable if one of its marks says so. -/
theorem isNullable_or (nullable more : Bool) (attrs : ExtAttrs) (position : Position) :
    isNullable (.of (nullable || more) attrs) position =
      (isNullable (.of nullable attrs) position || more) := by
  simp only [isNullable, NullMarks.of]
  grind

/-- **Unions inside of unions are flattened.**  Where a branch of a union is resolved to a union,
the branches of that one can stand in its place, if the outer union takes null where the inner
one does.  No alternative is written twice, and null is written once at most; every alternative
that a branch has by itself is there, and null if a branch takes it. -/
theorem nested_unions_flatten (c : Catalog) (ctx : TypeContext) (members : List IdlType)
    (nullable : Bool) (attrs : ExtAttrs) (doc : String)
    (h : documentation c ctx (.union members nullable attrs) = .ok doc) :
    (∀ before branch after inner innerNullable innerAttrs, members = before ++ branch :: after →
      c.resolve branch = .ok (.union inner innerNullable innerAttrs) →
      documentation c ctx (.union (before ++ inner ++ after)
        (nullable || isNullable (.of innerNullable innerAttrs) ctx.position) attrs) = .ok doc) ∧
    ∃ a, alternativesOf ctx true (c.tree (.union members nullable attrs)) = .ok a ∧
      doc = joinWith "|" a.list ∧ a.list.Nodup ∧ a.list.count "null" ≤ 1 ∧
      ((∀ d ∈ c.definitions, Plain d.name) → Plain ctx.root → splitTopLevel doc = a.list) ∧
      ∀ member ∈ members, ∃ b, alternativesOf ctx false (c.tree member) = .ok b ∧
        (∀ part ∈ b.parts, part ∈ a.list) ∧ (b.nullable = true → "null" ∈ a.list) := by
  rw [documentation, documentationOf, bind_eq_ok] at h
  obtain ⟨a, ha, hdoc⟩ := h
  rw [pure_eq_ok] at hdoc
  have hunion := ha
  rw [tree_union, alternativesOf_union] at hunion
  obtain ⟨branches, hbranches, rfl⟩ := hunion
  have hbelow : alternativesOf ctx false (c.tree (.union members nullable attrs)) =
      .ok (branches.foldl .addBranch ⟨[], isNullable (.of nullable attrs) ctx.position⟩) := by
    rw [tree_union, alternativesOf_union]
    exact ⟨branches, hbranches, rfl⟩
  refine ⟨?_, _, ha, ?_, ?_, ?_, ?_, ?_⟩
  · intro before branch after inner innerNullable innerAttrs hmembers hr
    subst hmembers
    rw [List.map_append, List.map_cons, branchesOf_append] at hbranches
    obtain ⟨first, _, hfirst, hrest, rfl⟩ := hbranches
    rw [branchesOf] at hrest
    simp only [bind_eq_ok, pure_eq_ok] at hrest
    obtain ⟨_, hbranch, rest, hrest, rfl⟩ := hrest
    obtain ⟨middle, hmiddle, rfl⟩ := alternativesOf_inner hr hbranch
    have hflat : branchesOf ctx ((before ++ inner ++ after).map c.tree) =
        .ok (first ++ middle ++ rest) := by
      rw [List.map_append, List.map_append, branchesOf_append]
      exact ⟨first ++ middle, rest, branchesOf_append.mpr ⟨first, middle, hfirst, hmiddle, rfl⟩,
        hrest, rfl⟩
    rw [documentation, documentationOf, bind_eq_ok]
    refine ⟨_, ?_, pure_eq_ok.mpr hdoc⟩
    rw [tree_union, alternativesOf_union]
    exact ⟨_, hflat, by rw [isNullable_or, Alternatives.foldl_addBranch_flatten]⟩
  · rw [← hdoc, Alternatives.text_eq]
  · exact Alternatives.nodup_list nodup_parts_union
  · exact List.nodup_iff_count_le_one.mp (Alternatives.nodup_list nodup_parts_union) "null"
  · intro hplain hroot
    rw [← hdoc]
    exact splitTopLevel_text hroot (plain_of_within hplain _) ha
  · intro member hmember
    obtain ⟨b, hb, halts⟩ := exists_branch_of_tree hbranches (List.mem_map_of_mem hmember)
    refine ⟨b, halts, fun part hpart => ?_, fun hnull => ?_⟩
    · exact Alternatives.mem_list_of_mem_parts (Alternatives.mem_parts_union.mpr ⟨b, hb, hpart⟩)
    · refine Alternatives.null_mem_list ?_ (void_notMem_tree hbelow)
      rw [Alternatives.nullable_foldl_addBranch, Bool.or_eq_true, List.any_eq_true]
      exact Or.inr ⟨b, hb, hnull⟩

/-- `interface Node`, `typedef (Node or long) Item` and `typedef (Item? or undefined) Entry`. -/
def trays : Catalog where
  definitions := [{ name := "Node", kind := .interface }]
  typedefs := [
    ("Entry", .union [.named "Item" true {}, .named "undefined" false {}] false {}),
    ("Item", .union [.named "Node" false {}, .named "long" false {}] false {})]
  includes := []

/-- `(DOMString or Entry or Node)` is documented as `(DOMString or Item? or undefined or Node)`. -/
theorem trays_flatten :
    documentation trays ⟨"Site", "Shelf", .argument⟩
        (.union [.ofName "DOMString", .ofName "Entry", .ofName "Node"] false {}) =
      .ok "string|Node|int|null" ∧
    documentation trays ⟨"Site", "Shelf", .argument⟩
        (.union [.ofName "DOMString", .named "Item" true {}, .ofName "undefined", .ofName "Node"]
          false {}) =
      .ok "string|Node|int|null" := by
  have hdoc : documentation trays ⟨"Site", "Shelf", .argument⟩
      (.union [.ofName "DOMString", .ofName "Entry", .ofName "Node"] false {}) =
        .ok "string|Node|int|null" := eq_ok_of_toOption (by decide +kernel)
  have hentry : trays.resolve (.ofName "Entry") =
      .ok (.union [.named "Item" true {}, .named "undefined" false {}] false {}) := by
    have htypedef : trays.typedef? "Entry" =
        some (.union [.named "Item" true {}, .named "undefined" false {}] false {}) := rfl
    simp only [resolve, IdlType.ofName, IdlType.name?, htypedef]
    rw [follow]
    rfl
  obtain ⟨hflat, -⟩ := nested_unions_flatten trays ⟨"Site", "Shelf", .argument⟩ _ false {} _ hdoc
  exact ⟨hdoc, hflat [.ofName "DOMString"] _ [.ofName "Node"] _ _ _ rfl hentry⟩

end Catalog

end WebIdl
