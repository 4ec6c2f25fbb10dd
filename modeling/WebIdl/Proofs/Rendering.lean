import WebIdl.Code.Overload
import WebIdl.Code.TypeText
import WebIdl.Config
import WebIdl.Proofs.Graph
import WebIdl.Proofs.Outcome
import WebIdl.Proofs.Split

/-!
# WebIdl.Proofs.Rendering

What the documentation of a type is made of.

A tree is described by the trees `Within` it; those of a type that name a definition name
one of the catalog (`grounds_tree`).  The alternatives of a tree are opened once for
each kind of tree (`alternativesOf_union`, `alternativesOf_generic`, ...), those of the
trees inside of it are a list of equal length (`branchesOf_ok_iff`), and a documentation is
the list of its alternatives with bars between them (`Alternatives.text_eq`).
-/

namespace WebIdl

open WebIdl.Code
open WebIdl.Text (joinWith joinWith_snoc Plain Solid Nested splitTopLevel)

/-! ## trees -/

namespace TypeTree

/-- Induction over trees, in which a union and a generic come after the trees inside. -/
@[elab_as_elim]
theorem inside_induction {P : TypeTree → Prop}
    (primitive : ∀ primitive marks, P (.primitive primitive marks))
    (definition : ∀ d marks, P (.definition d marks))
    (unknown : ∀ name, P (.unknown name))
    (fault : ∀ error, P (.fault error))
    (union : ∀ members marks, (∀ tree ∈ members, P tree) → P (.union members marks))
    (generic : ∀ head args marks, (∀ tree ∈ args, P tree) → P (.generic head args marks))
    (tree : TypeTree) : P tree :=
  @TypeTree.rec P (fun trees => ∀ tree ∈ trees, P tree) primitive definition unknown fault
    union generic (by simp) (fun _ _ htree htrees => List.forall_mem_cons.mpr ⟨htree, htrees⟩) tree

/-- A tree that stands inside of another one, or is it. -/
inductive Within (inner : TypeTree) : TypeTree → Prop where
  | self : Within inner inner
  | member {members : List TypeTree} {marks : NullMarks} {tree : TypeTree} :
      tree ∈ members → Within inner tree → Within inner (.union members marks)
  | arg {head : Generic} {args : List TypeTree} {marks : NullMarks} {tree : TypeTree} :
      tree ∈ args → Within inner tree → Within inner (.generic head args marks)

@[simp] theorem within_primitive {inner : TypeTree} {primitive : Primitive} {marks : NullMarks} :
    Within inner (.primitive primitive marks) ↔ inner = .primitive primitive marks := by
  constructor
  · rintro ⟨⟩
    rfl
  · rintro rfl
    exact .self

@[simp] theorem within_definition {inner : TypeTree} {d : Definition} {marks : NullMarks} :
    Within inner (.definition d marks) ↔ inner = .definition d marks := by
  constructor
  · rintro ⟨⟩
    rfl
  · rintro rfl
    exact .self

@[simp] theorem within_union {inner : TypeTree} {members : List TypeTree} {marks : NullMarks} :
    Within inner (.union members marks) ↔
      inner = .union members marks ∨ ∃ tree ∈ members, Within inner tree := by
  constructor
  · rintro (_ | ⟨htree, hinner⟩)
    · exact Or.inl rfl
    · exact Or.inr ⟨_, htree, hinner⟩
  · rintro (rfl | ⟨tree, htree, hinner⟩)
    · exact .self
    · exact .member htree hinner

@[simp] theorem within_generic {inner : TypeTree} {head : Generic} {args : List TypeTree}
    {marks : NullMarks} : Within inner (.generic head args marks) ↔
      inner = .generic head args marks ∨ ∃ tree ∈ args, Within inner tree := by
  constructor
  · rintro (_ | _ | ⟨htree, hinner⟩)
    · exact Or.inl rfl
    · exact Or.inr ⟨_, htree, hinner⟩
  · rintro (rfl | ⟨tree, htree, hinner⟩)
    · exact .self
    · exact .arg htree hinner

end TypeTree

/-- The trees of some types are the tree of each. -/
theorem toTrees_eq_map (ofName : String → Bool → ExtAttrs → TypeTree) (types : List IdlType) :
    toTrees ofName types = types.map (·.toTree ofName) := by
  induction types with
  | nil => rfl
  | cons type types ih => rw [toTrees, ih, List.map_cons]

namespace Catalog

variable {c : Catalog}

/-- The definitions that a tree names are those of the catalog, and not built in. -/
def Grounds (c : Catalog) (tree : TypeTree) : Prop :=
  ∀ d marks, (TypeTree.definition d marks).Within tree →
    c.get? d.name = some d ∧ Primitive.ofName? d.name = none

/-- A leaf is a definition only if the catalog has it and nothing built in has its name. -/
theorem grounds_leaf (name : String) (marks : NullMarks) : c.Grounds (c.leaf name marks) := by
  intro d marks' hwithin
  rw [leaf] at hwithin
  split at hwithin
  next => cases hwithin
  next hprimitive =>
    split at hwithin
    next found hfound =>
      cases hwithin
      rw [name_of_get? hfound]
      exact ⟨hfound, hprimitive⟩
    next => cases hwithin

/-- Around names that are looked up in the catalog, types only name what is in it. -/
theorem grounds_toTree {ofName : String → Bool → ExtAttrs → TypeTree}
    (h : ∀ name nullable attrs, c.Grounds (ofName name nullable attrs)) (type : IdlType) :
    c.Grounds (type.toTree ofName) := by
  refine @IdlType.rec (fun type => c.Grounds (type.toTree ofName))
    (fun types => ∀ type ∈ types, c.Grounds (type.toTree ofName)) h ?_ ?_ (by simp)
    (fun _ _ htype htypes => List.forall_mem_cons.mpr ⟨htype, htypes⟩) type
  all_goals
    intros
    rename_i members _ _ ih
    intro d marks hwithin
    rw [IdlType.toTree, toTrees_eq_map] at hwithin
    simp only [TypeTree.within_union, TypeTree.within_generic, reduceCtorEq, false_or,
      List.mem_map, exists_exists_and_eq_and] at hwithin
    obtain ⟨member, hmember, hwithin⟩ := hwithin
    exact ih member hmember d marks hwithin

/-- However far typedefs are followed, a name ends at a definition of the catalog. -/
theorem grounds_nameTree (depth : Nat) (name : String) (nullable : Bool) (attrs : ExtAttrs) :
    c.Grounds (c.nameTree depth name nullable attrs) := by
  induction depth generalizing name nullable attrs with
  | zero =>
      rw [nameTree]
      split
      · exact grounds_leaf _ _
      · rintro d marks ⟨⟩
  | succ depth ih =>
      rw [nameTree]
      split
      · exact grounds_leaf _ _
      · dsimp only
        split
        · rintro d marks ⟨⟩
        · exact grounds_toTree ih _

/-- The tree of a type only names definitions of the catalog. -/
theorem grounds_tree (type : IdlType) : c.Grounds (c.tree type) :=
  grounds_toTree (grounds_nameTree _) type

/-- If the names of all definitions are plain, so is every one in the tree of a type. -/
theorem plain_of_within (hplain : ∀ d ∈ c.definitions, Plain d.name) (type : IdlType) :
    ∀ d marks, (TypeTree.definition d marks).Within (c.tree type) → Plain d.name :=
  fun d marks hwithin => hplain d (mem_of_get? (grounds_tree type d marks hwithin).1)

end Catalog

/-! ## alternatives -/

namespace Code

section Dedup

variable {acc parts : List String}

/-- Adding alternatives one after another loses none and makes none up. -/
theorem mem_foldl_addPart {part : String} :
    part ∈ parts.foldl addPart acc ↔ part ∈ acc ∨ part ∈ parts := by
  induction parts generalizing acc with
  | nil => simp
  | cons first parts ih =>
      rw [List.foldl_cons, ih, addPart]
      split
      next hold =>
        rw [List.contains_iff_mem] at hold
        grind
      next => simp [or_assoc]

/-- Adding alternatives one after another repeats none. -/
theorem nodup_foldl_addPart (h : acc.Nodup) : (parts.foldl addPart acc).Nodup := by
  induction parts generalizing acc with
  | nil => exact h
  | cons first parts ih =>
      refine ih ?_
      rw [addPart]
      split
      next => exact h
      next hnew =>
        rw [List.contains_iff_mem] at hnew
        exact List.nodup_append.mpr ⟨h, by simp, by grind⟩

end Dedup

namespace Alternatives

/-- Whether null, or no value at all, is among the alternatives. -/
def hasNull (a : Alternatives) : Bool :=
  a.parts.any fun part => part == "null" || part == "void"

/-- The alternatives as they are written. -/
def list (a : Alternatives) : List String :=
  (if a.parts = [] then [""] else a.parts) ++ if a.nullable && !a.hasNull then ["null"] else []

/-- At least one alternative is written. -/
theorem list_ne_nil (a : Alternatives) : a.list ≠ [] := by
  rw [list]
  split <;> simp [*]

/-- The text of some alternatives joins those that are written. -/
theorem text_eq (a : Alternatives) : a.text = joinWith "|" a.list := by
  have hjoin : joinWith "|" a.parts = joinWith "|" (if a.parts = [] then [""] else a.parts) := by
    split
    next hnil => rw [hnil]; simp
    next => rfl
  have hne : (if a.parts = [] then [""] else a.parts) ≠ [] := by
    split <;> simp [*]
  change joinWith "|" a.parts ++ (if a.nullable && !a.hasNull then "|null" else "") = _
  rw [hjoin, list]
  cases a.nullable && !a.hasNull with
  | false => simp
  | true =>
      simp only [if_true]
      rw [joinWith_snoc hne, String.append_assoc]
      rfl

/-- Every alternative is written. -/
theorem mem_list_of_mem_parts {a : Alternatives} {part : String} (h : part ∈ a.parts) :
    part ∈ a.list := by
  rw [list, if_neg (List.ne_nil_of_mem h)]
  exact List.mem_append_left _ h

/-- What is written is an alternative, the empty text or null. -/
theorem mem_list_cases {a : Alternatives} {part : String} (h : part ∈ a.list) :
    part ∈ a.parts ∨ part = "" ∨ part = "null" := by
  rw [list, List.mem_append] at h
  rcases h with h | h
  · split at h
    · exact Or.inr (Or.inl (List.mem_singleton.mp h))
    · exact Or.inl h
  · split at h
    · exact Or.inr (Or.inr (List.mem_singleton.mp h))
    · cases h

/-- Of alternatives that are there, and none of them void, exactly they are written, and null
if it is one of them. -/
theorem mem_list_iff {a : Alternatives} (hne : a.parts ≠ []) (hvoid : "void" ∉ a.parts)
    {part : String} : part ∈ a.list ↔ part ∈ a.parts ∨ part = "null" ∧ a.nullable = true := by
  have hnull : a.hasNull = true ↔ "null" ∈ a.parts := by
    simp only [hasNull, List.any_eq_true, Bool.or_eq_true, beq_iff_eq]
    grind
  rw [list, if_neg hne]
  cases hnullable : a.nullable <;> grind

/-- The alternatives of a union are those of its branches, one after another. -/
theorem parts_foldl_addBranch (branches : List Alternatives) (a : Alternatives) :
    (branches.foldl addBranch a).parts = (branches.flatMap (·.parts)).foldl addPart a.parts := by
  induction branches generalizing a with
  | nil => rfl
  | cons branch branches ih =>
      rw [List.foldl_cons, ih, List.flatMap_cons, List.foldl_append]
      rfl

/-- A union accepts null if it is marked so or a branch accepts it. -/
theorem nullable_foldl_addBranch (branches : List Alternatives) (a : Alternatives) :
    (branches.foldl addBranch a).nullable = (a.nullable || branches.any (·.nullable)) := by
  induction branches generalizing a with
  | nil => simp
  | cons branch branches ih =>
      rw [List.foldl_cons, ih, List.any_cons, ← Bool.or_assoc]
      rfl

/-- An alternative of a union is one of a branch. -/
theorem mem_parts_union {branches : List Alternatives} {nullable : Bool} {part : String} :
    part ∈ (branches.foldl addBranch ⟨[], nullable⟩).parts ↔
      ∃ branch ∈ branches, part ∈ branch.parts := by
  rw [parts_foldl_addBranch, mem_foldl_addPart, List.mem_flatMap]
  simp

end Alternatives

/-! ## documentation of trees -/

variable {ctx : TypeContext} {top : Bool} {a : Alternatives} {marks : NullMarks}

/-- The branches are documented if each tree is. -/
theorem branchesOf_ok_iff {trees : List TypeTree} {branches : List Alternatives} :
    branchesOf ctx trees = .ok branches ↔
      List.Forall₂ (fun tree branch => alternativesOf ctx false tree = .ok branch) trees
        branches := by
  induction trees generalizing branches with
  | nil => cases branches <;> simp [branchesOf]
  | cons tree trees ih =>
      rw [branchesOf]
      simp only [bind_eq_ok, pure_eq_ok, ih]
      cases branches <;> simp

/-- Every branch documents one of the trees. -/
theorem exists_tree_of_branch {trees : List TypeTree} {branches : List Alternatives}
    (h : branchesOf ctx trees = .ok branches) {branch : Alternatives}
    (hbranch : branch ∈ branches) : ∃ tree ∈ trees, alternativesOf ctx false tree = .ok branch := by
  rw [branchesOf_ok_iff] at h
  induction h with
  | nil => cases hbranch
  | cons htree _ ih =>
      rcases List.mem_cons.mp hbranch with rfl | hbranch
      · exact ⟨_, List.mem_cons_self, htree⟩
      · obtain ⟨tree, hmem, halts⟩ := ih hbranch
        exact ⟨tree, List.mem_cons_of_mem _ hmem, halts⟩

/-- Every tree is documented by one of the branches. -/
theorem exists_branch_of_tree {trees : List TypeTree} {branches : List Alternatives}
    (h : branchesOf ctx trees = .ok branches) {tree : TypeTree} (htree : tree ∈ trees) :
    ∃ branch ∈ branches, alternativesOf ctx false tree = .ok branch := by
  rw [branchesOf_ok_iff] at h
  induction h with
  | nil => cases htree
  | cons hfirst _ ih =>
      rcases List.mem_cons.mp htree with rfl | htree
      · exact ⟨_, List.mem_cons_self, hfirst⟩
      · obtain ⟨branch, hmem, halts⟩ := ih htree
        exact ⟨branch, List.mem_cons_of_mem _ hmem, halts⟩

/-- What is said of trees and of their alternatives alike is said of both lists alike. -/
theorem exists_branch_iff {trees : List TypeTree} {branches : List Alternatives}
    (h : branchesOf ctx trees = .ok branches) {P : Alternatives → Prop} {Q : TypeTree → Prop}
    (hboth : ∀ tree ∈ trees, ∀ branch, alternativesOf ctx false tree = .ok branch →
      (P branch ↔ Q tree)) :
    (∃ branch ∈ branches, P branch) ↔ ∃ tree ∈ trees, Q tree := by
  constructor
  · rintro ⟨branch, hbranch, hholds⟩
    obtain ⟨tree, htree, halts⟩ := exists_tree_of_branch h hbranch
    exact ⟨tree, htree, (hboth tree htree branch halts).mp hholds⟩
  · rintro ⟨tree, htree, hholds⟩
    obtain ⟨branch, hbranch, halts⟩ := exists_branch_of_tree h htree
    exact ⟨branch, hbranch, (hboth tree htree branch halts).mpr hholds⟩

/-- The word of a generic in front of its angle brackets. -/
def containerWord (head : Generic) : String :=
  if head == .record then "array" else "list"

/-- A generic with the documentation of its arguments. -/
def containerText (head : Generic) (inners : List String) : String :=
  containerWord head ++ "<" ++ joinWith ", " inners ++ ">"

/-- A union is documented by the branches that its members have, joined. -/
theorem alternativesOf_union {members : List TypeTree} :
    alternativesOf ctx top (.union members marks) = .ok a ↔
      ∃ branches, branchesOf ctx members = .ok branches ∧
        branches.foldl .addBranch ⟨[], isNullable marks ctx.position⟩ = a := by
  rw [alternativesOf]
  simp only [bind_eq_ok, pure_eq_ok]

/-- A generic other than a promise is documented by its container around its arguments. -/
theorem alternativesOf_generic {head : Generic} {args : List TypeTree} (hhead : head ≠ .promise) :
    alternativesOf ctx top (.generic head args marks) = .ok a ↔
      args.length = head.arity ∧ ∃ branches, branchesOf ctx args = .ok branches ∧
        .one (containerText head (branches.map Alternatives.text))
          (isNullable marks ctx.position) = a := by
  have hopen : (if head == .record then "array<" else "list<") = containerWord head ++ "<" := by
    cases head <;> rfl
  rw [alternativesOf, hopen]
  case x_1 => exact hhead
  by_cases hargs : args.length = head.arity
  · simp only [hargs, bne_self_eq_false, Bool.false_eq_true, if_false, bind_eq_ok, pure_eq_ok,
      containerText, true_and]
  · simp [hargs]

/-- How a definition is written: an enumeration by its constants, with its namespace. -/
def spelling (ctx : TypeContext) (d : Definition) : String :=
  if d.isEnum then "\\" ++ ctx.root ++ "\\" ++ d.name ++ "::*" else qualify ctx d.name

/-- The alternatives that stand for no definition, wherever the type stands. -/
def docWords : List String :=
  ["int", "float", "string", "bool", "object", "mixed", "null", "callable", "array<string, mixed>"]

/-- A built-in type is documented by words that stand for no definition, or by void as a
result. -/
theorem mem_parts_primitive {primitive : Primitive} {part : String}
    (h : alternativesOf ctx top (.primitive primitive marks) = .ok a) (hpart : part ∈ a.parts) :
    part ∈ docWords ∨ top = true ∧ ctx.position = .result ∧ part = "void" := by
  cases primitive with
  | undefined =>
      rw [alternativesOf] at h
      cases h
      rw [Alternatives.one, List.mem_singleton] at hpart
      subst hpart
      cases top <;> cases ctx.position <;> simp [undefinedWord, docWords]
  | _ =>
      simp only [alternativesOf, Except.ok.injEq] at h
      subst h
      rw [Alternatives.one, List.mem_singleton] at hpart
      subst hpart
      exact Or.inl (by decide)

/-- What documents a kind of definition in place of its name stands for no definition. -/
theorem mem_docWords_of_alternate {kind : DefinitionKind} {position : Position} {part : String}
    (h : alternate kind position .documentation = some part) : part ∈ docWords := by
  cases position <;> cases kind <;> simp_all [alternate, docWords]

/-- A definition is documented by its spelling, or by words that stand for no definition. -/
theorem mem_parts_definition {d : Definition} {part : String}
    (h : alternativesOf ctx top (.definition d marks) = .ok a) (hpart : part ∈ a.parts) :
    part = spelling ctx d ∨ part ∈ docWords := by
  rw [alternativesOf] at h
  cases henum : d.isEnum with
  | true =>
      rw [henum, if_pos rfl] at h
      cases h
      rw [Alternatives.one, List.mem_singleton] at hpart
      simp [spelling, henum, hpart]
  | false =>
      rw [henum, if_neg Bool.false_ne_true] at h
      cases h
      rw [definitionParts, List.mem_cons, Option.mem_toList] at hpart
      rcases hpart with rfl | hpart
      · simp [spelling, henum]
      · exact Or.inr (mem_docWords_of_alternate hpart)

/-- A promise is documented as mixed. -/
theorem alternativesOf_promise {args : List TypeTree} :
    alternativesOf ctx top (.generic .promise args marks) =
      .ok (.one "mixed" (isNullable marks ctx.position)) := by
  rw [alternativesOf]

/-- What holds of the words and of the definitions that a tree names, and of a generic if it
holds of what is inside, holds of all alternatives. -/
theorem parts_closed {P : String → Prop} (hword : ∀ word ∈ docWords, P word)
    (hcontainer : ∀ (head : Generic) (branches : List Alternatives),
      (∀ branch ∈ branches, ∀ part ∈ branch.parts, P part) →
      P (containerText head (branches.map Alternatives.text)))
    {tree : TypeTree} (h : alternativesOf ctx top tree = .ok a)
    (hvoid : top = true → ctx.position = .result → P "void")
    (hname : ∀ d marks, (TypeTree.definition d marks).Within tree → P (spelling ctx d)) :
    ∀ part ∈ a.parts, P part := by
  intro part hpart
  induction tree using TypeTree.inside_induction generalizing top a part with
  | primitive primitive marks =>
      rcases mem_parts_primitive h hpart with hpart | ⟨htop, hposition, rfl⟩
      · exact hword part hpart
      · exact hvoid htop hposition
  | definition d marks =>
      rcases mem_parts_definition h hpart with rfl | hpart
      · exact hname d marks .self
      · exact hword part hpart
  | unknown name => simp [alternativesOf] at h
  | fault error => simp [alternativesOf] at h
  | union members marks ih =>
      obtain ⟨branches, hbranches, rfl⟩ := alternativesOf_union.mp h
      obtain ⟨branch, hbranch, hpart⟩ := Alternatives.mem_parts_union.mp hpart
      obtain ⟨tree, htree, halts⟩ := exists_tree_of_branch hbranches hbranch
      -- Below the top there is no void.
      exact ih tree htree halts (by simp)
        (fun d marks hwithin => hname d marks (.member htree hwithin)) part hpart
  | generic head args marks ih =>
      by_cases hhead : head = .promise
      · subst hhead
        rw [alternativesOf_promise] at h
        cases h
        rw [Alternatives.one, List.mem_singleton] at hpart
        exact hpart ▸ hword "mixed" (by decide)
      · obtain ⟨-, branches, hbranches, rfl⟩ := (alternativesOf_generic hhead).mp h
        rw [Alternatives.one, List.mem_singleton] at hpart
        subst hpart
        refine hcontainer head branches fun branch hbranch part hpart => ?_
        obtain ⟨tree, htree, halts⟩ := exists_tree_of_branch hbranches hbranch
        exact ih tree htree halts (by simp)
          (fun d marks hwithin => hname d marks (.arg htree hwithin)) part hpart

/-! ## bindings of trees -/

/-- The alternatives of a binding that stand for no definition. -/
def bindingWords : List String :=
  ["int", "float", "string", "bool", "object", "mixed", "null", "void", "array", "callable"]

/-- What binds a kind of definition in place of its name stands for no definition. -/
theorem mem_bindingWords_of_alternate {kind : DefinitionKind} {position : Position}
    {part : String} (h : alternate kind position .binding = some part) : part ∈ bindingWords := by
  cases position <;> cases kind <;> simp_all [alternate, bindingWords]

/-- A binding that is made of words and of the definition that a tree is. -/
def MadeFor (ctx : TypeContext) (tree : TypeTree) (b : String) : Prop :=
  ∃ parts nullable, b = bindingText parts nullable ∧ ∀ part ∈ parts,
    part ∈ bindingWords ∨ ∃ d marks, tree = .definition d marks ∧ d.isEnum = false ∧
      part = qualify ctx d.name

/-- Such a word may be marked for null. -/
theorem madeFor_nullable {word : String} {nullable : Bool} {tree : TypeTree}
    (h : word ∈ bindingWords) : MadeFor ctx tree (bindingText [word] nullable) :=
  ⟨[word], nullable, rfl, fun _ hpart => Or.inl (List.mem_singleton.mp hpart ▸ h)⟩

/-- A word that stands for no definition is a binding of any tree. -/
theorem madeFor_word {word : String} {tree : TypeTree} (h : word ∈ bindingWords) :
    MadeFor ctx tree word := by
  have hmade : MadeFor ctx tree (bindingText [word] false) := madeFor_nullable h
  simpa [bindingText] using hmade

/-- The binding of a tree is made of words and of the definition that the tree is. -/
theorem madeFor_bindingOf {b : String} {tree : TypeTree} (h : bindingOf ctx tree = .ok b) :
    MadeFor ctx tree b := by
  cases tree with
  | unknown name => simp [bindingOf] at h
  | fault error => simp [bindingOf] at h
  | union members marks =>
      rw [bindingOf, Except.ok.injEq] at h
      exact h ▸ madeFor_word (by decide)
  | primitive primitive marks =>
      cases primitive with
      | any =>
          rw [bindingOf, Except.ok.injEq] at h
          exact h ▸ madeFor_word (by decide)
      | undefined =>
          rw [bindingOf, Except.ok.injEq] at h
          exact h ▸ madeFor_word (by cases ctx.position <;> decide)
      | _ =>
          simp only [bindingOf, Except.ok.injEq] at h
          exact h ▸ madeFor_nullable (by decide)
  | generic head args marks =>
      cases head with
      | promise =>
          rw [bindingOf, Except.ok.injEq] at h
          exact h ▸ madeFor_word (by decide)
      | _ =>
          simp only [bindingOf, Except.ok.injEq] at h
          exact h ▸ madeFor_nullable (by decide)
  | definition d marks =>
      rw [bindingOf] at h
      cases henum : d.isEnum with
      | true =>
          rw [henum, if_pos rfl, Except.ok.injEq] at h
          exact h ▸ madeFor_nullable (by decide)
      | false =>
          rw [henum, if_neg Bool.false_ne_true, Except.ok.injEq] at h
          refine ⟨_, _, h.symm, fun part hpart => ?_⟩
          rw [definitionParts, List.mem_cons, Option.mem_toList] at hpart
          rcases hpart with rfl | hpart
          · exact Or.inr ⟨d, marks, rfl, henum, rfl⟩
          · exact Or.inl (mem_bindingWords_of_alternate hpart)

/-! ## cuts between the alternatives -/

/-- With a plain namespace and a plain name, a definition has a plain spelling. -/
theorem plain_spelling {d : Definition} (hroot : Plain ctx.root) (hname : Plain d.name) :
    Plain (spelling ctx d) := by
  have hqualified : Plain ("\\" ++ ctx.root ++ "\\" ++ d.name) :=
    (((by decide : Plain "\\").append hroot).append (by decide)).append hname
  rw [spelling]
  split
  · exact hqualified.append (by decide)
  · rw [qualify]
    split
    · exact hqualified
    · exact hname

/-- If no alternative can be cut at a bar, nothing that is written can be. -/
theorem solid_list (h : ∀ part ∈ a.parts, Solid part) : ∀ part ∈ a.list, Solid part := by
  intro part hpart
  rcases Alternatives.mem_list_cases hpart with hpart | rfl | rfl
  · exact h part hpart
  · exact (by decide : Plain "").solid
  · exact (by decide : Plain "null").solid

/-- Angle brackets keep bars from cutting what is between them. -/
theorem solid_containerText {head : Generic} {branches : List Alternatives}
    (h : ∀ branch ∈ branches, ∀ part ∈ branch.parts, Solid part) :
    Solid (containerText head (branches.map Alternatives.text)) := by
  have hword : Plain (containerWord head) := by cases head <;> decide
  refine Text.solid_bracketed hword
    (Text.nested_joinWith (by decide : Plain ", ").solid.nested fun inner hinner => ?_)
  obtain ⟨branch, hbranch, rfl⟩ := List.mem_map.mp hinner
  rw [Alternatives.text_eq]
  exact Text.nested_joinWith Text.nested_bar fun part hpart =>
    (solid_list (h branch hbranch) part hpart).nested

variable {tree : TypeTree} (hroot : Plain ctx.root)
  (hnames : ∀ d marks, (TypeTree.definition d marks).Within tree → Plain d.name)
  (h : alternativesOf ctx top tree = .ok a)

include hroot hnames h

/-- No alternative of a type's documentation can be cut at a bar. -/
theorem solid_parts : ∀ part ∈ a.parts, Solid part := by
  have hwords : ∀ word ∈ docWords, Solid word := by
    have hplain : ∀ word ∈ docWords, Plain word ∨ word = "array<string, mixed>" := by decide
    intro word hword
    rcases hplain word hword with hplain | rfl
    · exact hplain.solid
    · have hbrackets : "array<string, mixed>" = "array" ++ "<" ++ "string, mixed" ++ ">" := by
        decide +kernel
      rw [hbrackets]
      exact Text.solid_bracketed (by decide : Plain "array")
        (by decide : Plain "string, mixed").solid.nested
  refine parts_closed hwords (fun _ _ => solid_containerText) h
    (fun _ _ => (by decide : Plain "void").solid) fun d marks hwithin =>
      (plain_spelling hroot (hnames d marks hwithin)).solid

/-- The documentation of a tree is cut into its alternatives. -/
theorem splitTopLevel_text : splitTopLevel a.text = a.list := by
  rw [Alternatives.text_eq]
  exact Text.splitTopLevel_joinWith a.list_ne_nil (solid_list (solid_parts hroot hnames h))

end Code

/-! ## namespaces -/

/-- A namespace that passed its check has no bars and no brackets. -/
theorem Config.plain_root {config : Config} (h : config.validate = .ok ()) :
    Plain config.root := by
  have hsegments : ∀ segment ∈ Text.split '\\' config.root, Text.isIdentifier segment = true := by
    rw [validate] at h
    split at h
    · cases h
    split at h
    · cases h
    split at h
    next => cases h
    next hnone => simpa using hnone
  intro c hc
  by_cases hsep : c = '\\'
  · subst hsep
    decide
  obtain ⟨piece, hpiece, hc⟩ := Text.exists_piece_of_mem hc hsep
  have hident := hsegments (String.ofList piece) (List.mem_map_of_mem hpiece)
  have hchar : Text.isIdentRest c = true := by
    rw [Text.isIdentifier, String.toList_ofList] at hident
    cases piece with
    | nil => cases hc
    | cons first rest =>
        simp only [Bool.and_eq_true, List.all_eq_true] at hident
        rcases List.mem_cons.mp hc with rfl | hc
        · simp [Text.isIdentRest, hident.1]
        · exact hident.2 c hc
  refine ⟨?_, ?_, ?_⟩
  all_goals
    rintro rfl
    revert hchar
    decide

end WebIdl
