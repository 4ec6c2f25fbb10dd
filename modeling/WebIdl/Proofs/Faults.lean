import WebIdl.Proofs.Causes
import WebIdl.Proofs.Expansion

/-!
# WebIdl.Proofs.Faults

What can be wrong with a type.

A tree is written unless there is a fault in it (`TypeTree.Fault`).  A fault in the tree of a
type is a name that nothing stands for, a typedef that leads back to itself, or a generic
whose arguments do not fit, and such a generic is in the type or in a typedef
(`Catalog.faulty_of_fault`).
-/

namespace WebIdl

open WebIdl.Code

/-- What is wrong somewhere in a tree. -/
inductive TypeTree.Fault : TypeTree → Error → Prop where
  | unknown {name : String} : Fault (.unknown name) (.unknownType name)
  | fault {e : Error} : Fault (.fault e) e
  | member {members : List TypeTree} {marks : NullMarks} {tree : TypeTree} {e : Error} :
      tree ∈ members → Fault tree e → Fault (.union members marks) e
  | arg {head : Generic} {args : List TypeTree} {marks : NullMarks} {tree : TypeTree}
      {e : Error} : tree ∈ args → Fault tree e → Fault (.generic head args marks) e
  | arity {head : Generic} {args : List TypeTree} {marks : NullMarks} :
      args.length ≠ head.arity →
        Fault (.generic head args marks) (.unsupportedType (.wrongArity head args.length))

namespace TypeTree

/-- What is wrong with one of some trees. -/
def FaultAmong (trees : List TypeTree) (e : Error) : Prop :=
  ∃ tree ∈ trees, tree.Fault e

/-- What is wrong with the first tree is wrong with one of them. -/
theorem FaultAmong.head {tree : TypeTree} (trees : List TypeTree) {e : Error} (h : tree.Fault e) :
    FaultAmong (tree :: trees) e :=
  ⟨tree, List.mem_cons_self, h⟩

theorem FaultAmong.tail {trees : List TypeTree} (tree : TypeTree) {e : Error}
    (h : FaultAmong trees e) : FaultAmong (tree :: trees) e :=
  h.imp fun _ ⟨hmem, h⟩ => ⟨List.mem_cons_of_mem tree hmem, h⟩

mutual

/-- A tree is documented unless something is wrong in it. -/
theorem failsOnly_alternativesOf (ctx : TypeContext) (top : Bool) (tree : TypeTree) :
    FailsOnly tree.Fault (alternativesOf ctx top tree) := by
  cases tree with
  | unknown name =>
      rw [alternativesOf]
      exact FailsOnly.error .unknown
  | fault error =>
      rw [alternativesOf]
      exact FailsOnly.error .fault
  | primitive primitive marks => cases primitive <;> exact FailsOnly.ok _
  | definition d marks =>
      rw [alternativesOf]
      split <;> exact FailsOnly.ok _
  | union members marks =>
      rw [alternativesOf]
      have hmembers : FailsOnly (TypeTree.union members marks).Fault (branchesOf ctx members) :=
        (failsOnly_branchesOf ctx members).mono fun _ ⟨_, hmem, h⟩ => .member hmem h
      exact hmembers.bind fun _ => FailsOnly.ok _
  | generic head args marks =>
      have hargs : FailsOnly (TypeTree.generic head args marks).Fault (branchesOf ctx args) :=
        (failsOnly_branchesOf ctx args).mono fun _ ⟨_, hmem, h⟩ => .arg hmem h
      cases head <;> unfold alternativesOf
      case promise => exact FailsOnly.ok _
      all_goals
        dsimp only
        split
        next harity => exact FailsOnly.error (.arity (by simpa using harity))
        · exact hargs.bind fun _ => FailsOnly.ok _

/-- Several trees are documented unless something is wrong with one of them. -/
theorem failsOnly_branchesOf (ctx : TypeContext) (trees : List TypeTree) :
    FailsOnly (FaultAmong trees) (branchesOf ctx trees) := by
  cases trees with
  | nil =>
      rw [branchesOf]
      exact FailsOnly.ok _
  | cons tree trees =>
      rw [branchesOf]
      refine ((failsOnly_alternativesOf ctx false tree).mono fun _ => .head trees).bind fun _ => ?_
      exact ((failsOnly_branchesOf ctx trees).mono fun _ => .tail tree).bind
        fun _ => FailsOnly.ok _

end

mutual

/-- The references of a tree are collected unless something is wrong in it. -/
theorem failsOnly_collect (found : List Reference) (tree : TypeTree) :
    FailsOnly tree.Fault (collect found tree) := by
  cases tree with
  | unknown name =>
      rw [collect]
      exact FailsOnly.error .unknown
  | fault error =>
      rw [collect]
      exact FailsOnly.error .fault
  | primitive primitive marks => exact FailsOnly.ok _
  | definition d marks => exact FailsOnly.ok _
  | union members marks =>
      exact (failsOnly_collectAll found members).mono fun _ ⟨_, hmem, h⟩ => .member hmem h
  | generic head args marks =>
      exact (failsOnly_collectAll found args).mono fun _ ⟨_, hmem, h⟩ => .arg hmem h

theorem failsOnly_collectAll (found : List Reference) (trees : List TypeTree) :
    FailsOnly (FaultAmong trees) (collectAll found trees) := by
  cases trees with
  | nil => exact FailsOnly.ok _
  | cons tree trees =>
      rw [collectAll]
      refine ((failsOnly_collect found tree).mono fun _ => .head trees).bind fun found => ?_
      exact (failsOnly_collectAll found trees).mono fun _ => .tail tree

end

/-- A tree is bound unless something is wrong in it. -/
theorem failsOnly_bindingOf (ctx : TypeContext) (tree : TypeTree) :
    FailsOnly tree.Fault (bindingOf ctx tree) := by
  cases tree with
  | unknown name => exact FailsOnly.error .unknown
  | fault error => exact FailsOnly.error .fault
  | primitive primitive marks => cases primitive <;> exact FailsOnly.ok _
  | definition d marks =>
      rw [bindingOf]
      split <;> exact FailsOnly.ok _
  | union members marks => exact FailsOnly.ok _
  | generic head args marks => cases head <;> exact FailsOnly.ok _

end TypeTree

/-! ## types -/

/-- A generic in a type has more or fewer arguments than it takes. -/
def Error.ofArity : Error → Prop
  | .unsupportedType (.wrongArity _ _) => True
  | _ => False

namespace IdlType

/-- A generic with too many or too few arguments makes every type wrong that it is part of. -/
theorem wellApplied_eq_false_of_mem_parts {type part : IdlType} (h : part ∈ type.parts)
    (hpart : part.wellApplied = false) : type.wellApplied = false := by
  rw [Bool.eq_false_iff] at hpart ⊢
  exact fun htype => hpart (wellApplied_of_mem_parts htype h)

/-- What is wrong with a type comes from one of its names, or some generic in it does not
have the arguments it takes. -/
theorem fault_toTree {ofName : String → Bool → ExtAttrs → TypeTree} {type : IdlType}
    {e : Error} (h : (type.toTree ofName).Fault e) :
    (∃ name nullable attrs, (ofName name nullable attrs).Fault e) ∨
      e.ofArity ∧ type.wellApplied = false := by
  induction type using parts_induction with
  | named name nullable attrs =>
      rw [toTree] at h
      exact Or.inl ⟨name, nullable, attrs, h⟩
  | union members nullable attrs ih =>
      rw [toTree, toTrees_eq_map] at h
      cases h with
      | member htree h =>
          obtain ⟨part, hpart, rfl⟩ := List.mem_map.mp htree
          exact (ih part hpart h).imp_right
            (And.imp_right (wellApplied_eq_false_of_mem_parts hpart))
  | generic head args nullable attrs ih =>
      rw [toTree, toTrees_eq_map] at h
      cases h with
      | arg htree h =>
          obtain ⟨part, hpart, rfl⟩ := List.mem_map.mp htree
          exact (ih part hpart h).imp_right
            (And.imp_right (wellApplied_eq_false_of_mem_parts hpart))
      | arity harity =>
          rw [List.length_map] at harity
          exact Or.inr ⟨trivial, by simp [wellApplied, harity]⟩

end IdlType

namespace Catalog

/-- What can be wrong with a type of a catalog: a name that nothing stands for, a typedef
that leads back to itself, or a generic with too many or too few arguments, in the type or
in a typedef. -/
inductive Faulty (c : Catalog) (type : IdlType) : Error → Prop where
  | unknown (name : String) : Faulty c type (.unknownType name)
  | cycle (path : List String) : Faulty c type (.unsupportedType (.typedefCycle path))
  | inside (name : String) : Faulty c type (.unsupportedType (.typedefInsideItself name))
  | arity (head : Generic) (found : Nat)
      (h : type.wellApplied = false ∨ ∃ entry ∈ c.typedefs, entry.2.wellApplied = false) :
      Faulty c type (.unsupportedType (.wrongArity head found))

variable {c : Catalog} {type : IdlType} {e : Error}

/-- A typedef that leads back to itself can be what is wrong with any type. -/
theorem Faulty.of_typedef (h : e.ofTypedef) : c.Faulty type e := by
  unfold Error.ofTypedef at h
  split at h
  · exact .cycle _
  · exact h.elim

theorem Faulty.of_arity (h : e.ofArity)
    (happlied : type.wellApplied = false ∨ ∃ entry ∈ c.typedefs, entry.2.wellApplied = false) :
    c.Faulty type e := by
  unfold Error.ofArity at h
  split at h
  · exact .arity _ _ happlied
  · exact h.elim

/-- A name has no arguments, so what is wrong with it can be wrong with any type. -/
theorem Faulty.of_named {name : String} {nullable : Bool} {attrs : ExtAttrs}
    (h : c.Faulty (.named name nullable attrs) e) : c.Faulty type e := by
  cases h with
  | unknown => exact .unknown _
  | cycle => exact .cycle _
  | inside => exact .inside _
  | arity _ _ h => exact .arity _ _ (Or.inr (h.resolve_left (by simp [IdlType.wellApplied])))

/-- What is wrong with a leaf is that nothing stands for its name. -/
theorem faulty_of_leaf {name : String} {marks : NullMarks} (h : (c.leaf name marks).Fault e) :
    c.Faulty type e := by
  rw [leaf] at h
  split at h
  · cases h
  · split at h
    · cases h
    · cases h
      exact .unknown name

/-- What is wrong in the tree of a name can be wrong with it. -/
theorem faulty_of_nameTree {depth : Nat} {name : String} {nullable : Bool} {attrs : ExtAttrs}
    (h : (c.nameTree depth name nullable attrs).Fault e) :
    c.Faulty (.named name nullable attrs) e := by
  induction depth generalizing name nullable attrs with
  | zero =>
      rw [nameTree] at h
      cases htypedef : c.typedef? name with
      | none =>
          rw [htypedef] at h
          exact faulty_of_leaf h
      | some target =>
          rw [htypedef] at h
          cases h
          exact .inside name
  | succ depth ih =>
      rw [nameTree] at h
      cases htypedef : c.typedef? name with
      | none =>
          rw [htypedef] at h
          exact faulty_of_leaf h
      | some target =>
          rw [htypedef] at h
          dsimp only at h
          have hresolve : c.resolve (.named name nullable attrs) =
              c.follow [name] (.named name nullable attrs) target := by
            simp [resolve, IdlType.name?, htypedef]
          rw [← hresolve] at h
          cases hresolved : c.resolve (.named name nullable attrs) with
          | error e' =>
              rw [hresolved] at h
              cases h
              exact .of_typedef (c.failsOnly_resolve _ e hresolved)
          | ok resolved =>
              rw [hresolved] at h
              rcases IdlType.fault_toTree h with ⟨other, nullable', attrs', h⟩ | ⟨he, happlied⟩
              · exact (ih h).of_named
              · refine .of_arity he (Or.inr ?_)
                by_contra hbodies
                have hresolved := wellApplied_of_resolve (by simpa using hbodies) rfl hresolved
                exact absurd hresolved (by simp [happlied])

/-- What is wrong with the tree of a type can be wrong with the type. -/
theorem faulty_of_fault (h : (c.tree type).Fault e) : c.Faulty type e := by
  rcases IdlType.fault_toTree h with ⟨name, nullable, attrs, h⟩ | ⟨he, happlied⟩
  · exact (faulty_of_nameTree h).of_named
  · exact .of_arity he (Or.inl happlied)

/-- Every type is written unless something is wrong with it. -/
theorem failsOnly_renderings (c : Catalog) (ctx : TypeContext) (type : IdlType) :
    FailsOnly (c.Faulty type) (binding c ctx type) ∧
      FailsOnly (c.Faulty type) (documentation c ctx type) ∧
      FailsOnly (c.Faulty type) (references c type) :=
  ⟨(TypeTree.failsOnly_bindingOf ctx _).mono fun _ => faulty_of_fault,
    ((TypeTree.failsOnly_alternativesOf ctx true _).mono fun _ => faulty_of_fault).bind
      fun _ => FailsOnly.ok _,
    (TypeTree.failsOnly_collect [] _).mono fun _ => faulty_of_fault⟩

end Catalog

end WebIdl
