import WebIdl.Proofs.Rendering
import WebIdl.Proofs.Typedef
import Mathlib.Data.Set.Card
import Mathlib.Data.List.Chain
import Mathlib.Logic.Relation

/-!
# WebIdl.Proofs.Expansion

Types with all their typedefs replaced.

Every traversal of a type resolves it and goes on to its parts (`GoesOn`).  If no typedef
leads back to itself, each typedef that is entered has fewer typedefs below it than the one
before (`below_lt`), so a traversal ends (`acc_goesOn`), a tree is never cut short
(`tree_eq_layer`), and only a name that nothing stands for can stop it (`StopsAt`):

* `traversals_stop_at_unknown_names`: references, documentation and binding fail exactly at
  the names that are unknown where they look.
-/

namespace WebIdl

open Relation
open WebIdl.Code

/-! ## names and parts of types -/

namespace IdlType

mutual

/-- The names in a type, at any depth. -/
def names : IdlType → List String
  | .named name _ _ => [name]
  | .union members _ _ => namesAll members
  | .generic _ args _ _ => namesAll args

/-- The names in some types. -/
def namesAll : List IdlType → List String
  | [] => []
  | type :: types => type.names ++ namesAll types

end

mutual

/-- Whether every generic in a type has as many arguments as it takes. -/
def wellApplied : IdlType → Bool
  | .named _ _ _ => true
  | .union members _ _ => wellAppliedAll members
  | .generic head args _ _ => args.length == head.arity && wellAppliedAll args

/-- Whether every generic in some types has as many arguments as it takes. -/
def wellAppliedAll : List IdlType → Bool
  | [] => true
  | type :: types => type.wellApplied && wellAppliedAll types

end

/-- The members of a union and the arguments of a generic. -/
def parts : IdlType → List IdlType
  | .named _ _ _ => []
  | .union members _ _ => members
  | .generic _ args _ _ => args

/-- Induction over types, in which a type comes after its parts. -/
@[elab_as_elim]
theorem parts_induction {P : IdlType → Prop}
    (named : ∀ name nullable attrs, P (.named name nullable attrs))
    (union : ∀ members nullable attrs, (∀ type ∈ members, P type) →
      P (.union members nullable attrs))
    (generic : ∀ head args nullable attrs, (∀ type ∈ args, P type) →
      P (.generic head args nullable attrs))
    (type : IdlType) : P type :=
  @IdlType.rec P (fun types => ∀ type ∈ types, P type) named union generic (by simp)
    (fun _ _ htype htypes => List.forall_mem_cons.mpr ⟨htype, htypes⟩) type

/-- The names in some types are those of each. -/
theorem namesAll_eq (types : List IdlType) : namesAll types = types.flatMap names := by
  induction types with
  | nil => rfl
  | cons type types ih => rw [namesAll, ih, List.flatMap_cons]

theorem wellAppliedAll_eq (types : List IdlType) :
    wellAppliedAll types = types.all wellApplied := by
  induction types with
  | nil => rfl
  | cons type types ih => rw [wellAppliedAll, ih, List.all_cons]

/-- The names in the parts of a type are in the type. -/
theorem names_of_mem_parts {type part : IdlType} (h : part ∈ type.parts) :
    part.names ⊆ type.names := by
  intro name hname
  cases type with
  | named => cases h
  | union members =>
      rw [names, namesAll_eq]
      exact List.mem_flatMap.mpr ⟨part, h, hname⟩
  | generic head args =>
      rw [names, namesAll_eq]
      exact List.mem_flatMap.mpr ⟨part, h, hname⟩

/-- What a type consists of is well applied if it is. -/
theorem wellApplied_of_mem_parts {type part : IdlType} (htype : type.wellApplied = true)
    (h : part ∈ type.parts) : part.wellApplied = true := by
  cases type with
  | named => cases h
  | union members =>
      rw [wellApplied, wellAppliedAll_eq, List.all_eq_true] at htype
      exact htype part h
  | generic head args =>
      rw [wellApplied, wellAppliedAll_eq, Bool.and_eq_true, List.all_eq_true] at htype
      exact htype.2 part h

/-- Names and arities are those of the type without its own `?` and attributes. -/
theorem names_core (type : IdlType) : type.core.names = type.names := by
  cases type <;> simp only [core, names]

theorem wellApplied_core (type : IdlType) : type.core.wellApplied = type.wellApplied := by
  cases type <;> simp only [core, wellApplied]

/-- A type that is a name has no other name in it. -/
theorem names_of_name? {type : IdlType} {name : String} (h : type.name? = some name) :
    type.names = [name] := by
  cases type with
  | named other => rw [name?, Option.some.injEq] at h; rw [names, h]
  | union => cases h
  | generic => cases h

/-- Trees of the names in a type that are alike give trees of the type that are alike. -/
theorem toTree_congr {f g : String → Bool → ExtAttrs → TypeTree} {type : IdlType}
    (h : ∀ name ∈ type.names, f name = g name) : type.toTree f = type.toTree g := by
  have hparts : ∀ types : List IdlType, (∀ type ∈ types, type.toTree f = type.toTree g) →
      toTrees f types = toTrees g types := fun types htypes => by
    rw [toTrees_eq_map, toTrees_eq_map]
    exact List.map_congr_left htypes
  induction type using parts_induction with
  | named name nullable attrs => rw [toTree, toTree, h name (by simp [names])]
  | union members nullable attrs ih =>
      rw [toTree, toTree, hparts members fun part hpart => ih part hpart fun name hname =>
        h name (names_of_mem_parts hpart hname)]
  | generic head args nullable attrs ih =>
      rw [toTree, toTree, hparts args fun part hpart => ih part hpart fun name hname =>
        h name (names_of_mem_parts hpart hname)]

end IdlType

namespace Catalog

variable {c : Catalog}

/-! ## references between typedefs -/

/-- A name stands in the type of a typedef, at any depth. -/
def Refers (c : Catalog) (a b : String) : Prop :=
  ∃ body, c.typedef? a = some body ∧ b ∈ body.names

/-- No typedef leads back to itself. -/
def Acyclic (c : Catalog) : Prop :=
  ∀ name, ¬ TransGen c.Refers name name

/-- A typedef refers to the typedef that it leads to. -/
theorem Leads.refers {a b : String} (h : c.Leads a b) : c.Refers a b := by
  obtain ⟨body, hbody, hname⟩ := Option.bind_eq_some_iff.mp h
  exact ⟨body, hbody, by simp [IdlType.names_of_name? hname]⟩

/-- A chain of typedefs that comes back is a cycle. -/
theorem Acyclic.not_revisits (h : c.Acyclic) (type : IdlType) (front : List String)
    (again : String) : ¬ c.Revisits type front again := by
  intro hback
  have hchain : (front ++ [again]).IsChain (TransGen c.Refers) :=
    hback.leads.imp fun _ _ hleads => .single hleads.refers
  have hpairs := List.isChain_iff_pairwise.mp hchain
  exact h again ((List.pairwise_append.mp hpairs).2.2 again hback.mem again (by simp))

/-- Every type is resolved. -/
theorem Acyclic.exists_resolve (h : c.Acyclic) (type : IdlType) : ∃ r, c.resolve type = .ok r := by
  cases hresolve : c.resolve type with
  | ok r => exact ⟨r, rfl⟩
  | error e =>
      obtain ⟨front, again, hback, -⟩ := resolve_error hresolve
      exact absurd hback (h.not_revisits type front again)

/-- A type is resolved to what its chain ends in, up to `?` and attributes. -/
theorem exists_last_of_resolve {type r : IdlType} (h : c.resolve type = .ok r) :
    ∃ chain last, c.Chain type chain ∧ chain.getLast? = some last ∧ last.core = r.core := by
  obtain ⟨chain, hchain, hgathers, -⟩ := resolve_ok h
  obtain ⟨last, hlast, -⟩ := hchain.exists_last
  have hcore := hgathers.core
  rw [hlast, Option.map_some, Option.some.injEq] at hcore
  exact ⟨chain, last, hchain, hlast, hcore⟩

/-- Behind its first type a chain ends as it did. -/
theorem Chain.getLast?_of_cons {first type last : IdlType} {chain : List IdlType}
    (h : c.Chain type chain) (hlast : (first :: chain).getLast? = some last) :
    chain.getLast? = some last := by
  cases h <;> simpa [List.getLast?_cons] using hlast

/-- What a chain ends in has the names of its start, or names that its start leads to. -/
theorem Chain.names {type last : IdlType} {chain : List IdlType} (h : c.Chain type chain)
    (hlast : chain.getLast? = some last) {name : String} (hname : name ∈ last.names) :
    c.body? type = none ∧ name ∈ type.names ∨
      ∃ start, type.name? = some start ∧ TransGen c.Refers start name := by
  induction h with
  | last hnone =>
      rw [List.getLast?_singleton, Option.some.injEq] at hlast
      exact Or.inl ⟨hnone, hlast ▸ hname⟩
  | @step type body rest hbody hrest ih =>
      obtain ⟨start, hstart, htarget⟩ := Option.bind_eq_some_iff.mp hbody
      refine Or.inr ⟨start, hstart, ?_⟩
      rcases ih (hrest.getLast?_of_cons hlast) with ⟨-, hmem⟩ | ⟨next, hnext, hpath⟩
      · exact .single ⟨body, htarget, hmem⟩
      · exact .head ⟨body, htarget, by simp [IdlType.names_of_name? hnext]⟩ hpath

/-- A type that names a typedef is resolved to one whose names the typedef leads to. -/
theorem refers_of_resolve {start : String} {nullable : Bool} {attrs : ExtAttrs}
    {body r : IdlType} (hbody : c.typedef? start = some body)
    (h : c.resolve (.named start nullable attrs) = .ok r) :
    ∀ name ∈ r.names, TransGen c.Refers start name := by
  intro name hname
  obtain ⟨chain, last, hchain, hlast, hcore⟩ := exists_last_of_resolve h
  rw [← IdlType.names_core, ← hcore, IdlType.names_core] at hname
  rcases hchain.names hlast hname with ⟨hnone, -⟩ | ⟨start', hstart, hpath⟩
  · rw [body?_eq_of_name? rfl, hbody] at hnone
    cases hnone
  · rw [IdlType.name?, Option.some.injEq] at hstart
    exact hstart ▸ hpath

/-! ## how deep typedefs are nested -/

/-- How many typedefs a name leads to, itself included. -/
noncomputable def below (c : Catalog) (name : String) : Nat :=
  {other | other ∈ c.typedefNames ∧ ReflTransGen c.Refers name other}.ncard

/-- There are at most as many typedefs below a name as there are typedefs. -/
theorem below_le (c : Catalog) (name : String) : c.below name ≤ c.typedefs.length := by
  have hsub : {other | other ∈ c.typedefNames ∧ ReflTransGen c.Refers name other} ⊆
      (c.typedefNames.toFinset : Set String) := fun other hother => by simpa using hother.1
  calc c.below name
    _ ≤ (c.typedefNames.toFinset : Set String).ncard := Set.ncard_le_ncard hsub
    _ = c.typedefNames.toFinset.card := Set.ncard_coe_finset _
    _ ≤ c.typedefNames.length := List.toFinset_card_le _
    _ = c.typedefs.length := List.length_map _

/-- So there are finitely many. -/
theorem finite_below (c : Catalog) (name : String) :
    {other | other ∈ c.typedefNames ∧ ReflTransGen c.Refers name other}.Finite :=
  c.typedefNames.finite_toSet.subset fun _ hother => hother.1

/-- A typedef is below itself. -/
theorem below_pos {name : String} {body : IdlType} (h : c.typedef? name = some body) :
    0 < c.below name :=
  (Set.ncard_pos (c.finite_below name)).mpr ⟨name, mem_typedefNames h, .refl⟩

/-- A typedef leads to more than what it leads to does. -/
theorem Acyclic.below_lt (h : c.Acyclic) {a b : String} (hpath : TransGen c.Refers a b) :
    c.below b < c.below a := by
  refine Set.ncard_lt_ncard ⟨?_, ?_⟩ (c.finite_below a)
  · rintro other ⟨hmem, hother⟩
    exact ⟨hmem, hpath.to_reflTransGen.trans hother⟩
  · intro hsub
    obtain ⟨next, ⟨body, hbody, -⟩, -⟩ := TransGen.head'_iff.mp hpath
    exact h a (hpath.trans_left (hsub ⟨mem_typedefNames hbody, .refl⟩).2)

/-! ## traversals -/

/-- A traversal of a type goes on to the parts of what it is resolved to. -/
def GoesOn (c : Catalog) (part type : IdlType) : Prop :=
  ∃ r, c.resolve type = .ok r ∧ part ∈ r.parts

/-- A type that is no name stands for itself. -/
theorem resolve_of_parts {type : IdlType} (h : type.name? = none) : c.resolve type = .ok type :=
  resolve_of_body?_eq_none (body?_eq_none_of_name? h)

/-- A traversal of a type ends if those of the names in it do. -/
theorem acc_of_names {type : IdlType}
    (h : ∀ name ∈ type.names, ∀ nullable attrs, Acc c.GoesOn (.named name nullable attrs)) :
    Acc c.GoesOn type := by
  induction type using IdlType.parts_induction with
  | named name nullable attrs => exact h name (by simp [IdlType.names]) nullable attrs
  | union members nullable attrs ih =>
      refine Acc.intro _ fun part ⟨r, hr, hpart⟩ => ?_
      rw [resolve_of_parts rfl, Except.ok.injEq] at hr
      subst hr
      exact ih part hpart fun name hname => h name (IdlType.names_of_mem_parts hpart hname)
  | generic head args nullable attrs ih =>
      refine Acc.intro _ fun part ⟨r, hr, hpart⟩ => ?_
      rw [resolve_of_parts rfl, Except.ok.injEq] at hr
      subst hr
      exact ih part hpart fun name hname => h name (IdlType.names_of_mem_parts hpart hname)

/-- Every traversal ends. -/
theorem Acyclic.acc_goesOn (h : c.Acyclic) (type : IdlType) : Acc c.GoesOn type := by
  suffices hnames : ∀ name nullable attrs, Acc c.GoesOn (.named name nullable attrs) from
    acc_of_names fun name _ => hnames name
  intro name
  -- What is entered from a typedef has fewer typedefs below it.
  induction hbelow : c.below name using Nat.strong_induction_on generalizing name with
  | h count ih =>
      intro nullable attrs
      refine Acc.intro _ fun part ⟨r, hr, hpart⟩ => acc_of_names fun inner hinner => ?_
      cases hbody : c.typedef? name with
      | none =>
          rw [resolve_of_body?_eq_none ((body?_eq_of_name? rfl).trans hbody),
            Except.ok.injEq] at hr
          subst hr
          cases hpart
      | some body =>
          have hpath := refers_of_resolve hbody hr inner (IdlType.names_of_mem_parts hpart hinner)
          exact ih _ (hbelow ▸ h.below_lt hpath) inner rfl

/-- The tree of a type that names no typedef, out of the trees of its parts. -/
def layer (c : Catalog) : IdlType → TypeTree
  | .named name nullable attrs => c.leaf name (.of nullable attrs)
  | .union members nullable attrs => .union (members.map c.tree) (.of nullable attrs)
  | .generic head args nullable attrs => .generic head (args.map c.tree) (.of nullable attrs)

/-- The tree of a name that is no typedef is a leaf. -/
theorem nameTree_of_typedef?_eq_none {name : String} (h : c.typedef? name = none) (depth : Nat)
    (nullable : Bool) (attrs : ExtAttrs) :
    c.nameTree depth name nullable attrs = c.leaf name (.of nullable attrs) := by
  unfold nameTree
  rw [h]

/-- Entering a typedef is resolving its name. -/
theorem nameTree_of_typedef? {name : String} {body : IdlType} (h : c.typedef? name = some body)
    (depth : Nat) (nullable : Bool) (attrs : ExtAttrs) :
    c.nameTree (depth + 1) name nullable attrs =
      match c.resolve (.named name nullable attrs) with
      | .error e => .fault e
      | .ok r => r.toTree (c.nameTree depth) := by
  have hresolve : c.resolve (.named name nullable attrs) =
      c.follow [name] (.named name nullable attrs) body := by
    simp only [resolve, IdlType.name?, h]
  rw [hresolve]
  unfold nameTree
  cases hfollow : c.follow [name] (.named name nullable attrs) body <;> simp only [h, hfollow]

theorem length_pos_of_typedef? {name : String} {body : IdlType}
    (h : c.typedef? name = some body) : 0 < c.typedefs.length := by
  have hmem := List.length_pos_of_mem (mem_typedefNames h)
  rwa [typedefNames, List.length_map] at hmem

/-- The tree of a type is that of what it is resolved to, with typedefs nested a little less
deep, cycles or not. -/
theorem exists_tree_of_resolve {type r : IdlType} (h : c.resolve type = .ok r) :
    ∃ depth ≤ c.typedefs.length, c.tree type = r.toTree (c.nameTree depth) := by
  cases hbody : c.body? type with
  | none =>
      rw [resolve_of_body?_eq_none hbody, Except.ok.injEq] at h
      subst h
      exact ⟨c.typedefs.length, le_rfl, rfl⟩
  | some body =>
      obtain ⟨name, hname, htypedef⟩ := Option.bind_eq_some_iff.mp hbody
      obtain ⟨depth, hdepth⟩ :=
        Nat.exists_eq_succ_of_ne_zero (length_pos_of_typedef? htypedef).ne'
      refine ⟨depth, by omega, ?_⟩
      cases type with
      | union => cases hname
      | generic => cases hname
      | named other nullable attrs =>
          cases hname
          rw [tree, IdlType.toTree, hdepth, nameTree_of_typedef? htypedef, h]

/-- A type that cannot be resolved is a fault. -/
theorem tree_of_resolve_error {type : IdlType} {e : Error} (h : c.resolve type = .error e) :
    c.tree type = .fault e := by
  cases hbody : c.body? type with
  | none =>
      rw [resolve_of_body?_eq_none hbody] at h
      cases h
  | some body =>
      obtain ⟨name, hname, htypedef⟩ := Option.bind_eq_some_iff.mp hbody
      obtain ⟨depth, hdepth⟩ :=
        Nat.exists_eq_succ_of_ne_zero (length_pos_of_typedef? htypedef).ne'
      cases type with
      | union => cases hname
      | generic => cases hname
      | named other nullable attrs =>
          cases hname
          rw [tree, IdlType.toTree, hdepth, nameTree_of_typedef? htypedef, h]

/-- Depths that are large enough give one tree. -/
theorem Acyclic.nameTree_eq (h : c.Acyclic) {name : String} {depth depth' : Nat}
    (hdepth : c.below name ≤ depth) (hdepth' : c.below name ≤ depth') :
    c.nameTree depth name = c.nameTree depth' name := by
  induction depth generalizing name depth' with
  | zero =>
      funext nullable attrs
      cases hbody : c.typedef? name with
      | none => rw [nameTree_of_typedef?_eq_none hbody, nameTree_of_typedef?_eq_none hbody]
      | some body => exact absurd (below_pos hbody) (by omega)
  | succ depth ih =>
      funext nullable attrs
      cases hbody : c.typedef? name with
      | none => rw [nameTree_of_typedef?_eq_none hbody, nameTree_of_typedef?_eq_none hbody]
      | some body =>
          obtain ⟨r, hr⟩ := h.exists_resolve (.named name nullable attrs)
          obtain ⟨depth', rfl⟩ : ∃ n, depth' = n + 1 :=
            Nat.exists_eq_succ_of_ne_zero (by have := below_pos hbody; omega)
          rw [nameTree_of_typedef? hbody, nameTree_of_typedef? hbody, hr]
          refine IdlType.toTree_congr fun inner hinner => ?_
          have hless := h.below_lt (refers_of_resolve hbody hr inner hinner)
          exact ih (by omega) (by omega)

/-- No tree is cut short: it is the tree of what the type is resolved to, whose parts have
whole trees. -/
theorem Acyclic.tree_eq_layer (h : c.Acyclic) {type r : IdlType} (hr : c.resolve type = .ok r) :
    c.tree type = c.layer r := by
  have hlayer : ∀ r : IdlType, c.body? r = none →
      r.toTree (c.nameTree c.typedefs.length) = c.layer r := by
    intro r hnone
    cases r with
    | named name nullable attrs =>
        rw [IdlType.toTree, nameTree_of_typedef?_eq_none ((body?_eq_of_name? rfl).symm.trans hnone)]
        rfl
    | union => rw [IdlType.toTree, toTrees_eq_map]; rfl
    | generic => rw [IdlType.toTree, toTrees_eq_map]; rfl
  cases hbody : c.body? type with
  | none =>
      rw [resolve_of_body?_eq_none hbody, Except.ok.injEq] at hr
      subst hr
      exact hlayer type hbody
  | some body =>
      obtain ⟨name, hname, hbody⟩ := Option.bind_eq_some_iff.mp hbody
      obtain ⟨chain, hchain, hgathers, -⟩ := resolve_ok hr
      rw [← hlayer r (hgathers.body?_eq_none hchain)]
      cases type with
      | union => cases hname
      | generic => cases hname
      | named other nullable attrs =>
          cases hname
          obtain ⟨depth, hdepth⟩ :=
            Nat.exists_eq_succ_of_ne_zero (length_pos_of_typedef? hbody).ne'
          rw [tree, IdlType.toTree, hdepth, nameTree_of_typedef? hbody, hr]
          refine IdlType.toTree_congr fun inner hinner => ?_
          have hless := h.below_lt (refers_of_resolve hbody hr inner hinner)
          have hmost := c.below_le name
          exact h.nameTree_eq (by omega) (by omega)

/-- What holds of a type if it holds of the parts of what the type is resolved to holds of
all types. -/
@[elab_as_elim]
theorem Acyclic.resolve_induction (h : c.Acyclic) {P : IdlType → Prop}
    (step : ∀ type r, c.resolve type = .ok r → (∀ part ∈ r.parts, P part) → P type)
    (type : IdlType) : P type := by
  induction h.acc_goesOn type with
  | intro type _ ih =>
      obtain ⟨r, hr⟩ := h.exists_resolve type
      exact step type r hr fun part hpart => ih part ⟨r, hr, hpart⟩

/-! ## leaves -/

/-- The names that are left in a type when all typedefs are replaced, outside of the
arguments of generics that are not entered. -/
inductive Leaf (c : Catalog) (enters : Generic → Prop) : IdlType → String → Prop where
  | name {name : String} {nullable : Bool} {attrs : ExtAttrs} :
      c.typedef? name = none → Leaf c enters (.named name nullable attrs) name
  | typedef {name leaf : String} {nullable : Bool} {attrs : ExtAttrs} {body : IdlType} :
      c.typedef? name = some body → Leaf c enters body leaf →
        Leaf c enters (.named name nullable attrs) leaf
  | member {members : List IdlType} {nullable : Bool} {attrs : ExtAttrs} {part : IdlType}
      {leaf : String} :
      part ∈ members → Leaf c enters part leaf → Leaf c enters (.union members nullable attrs) leaf
  | arg {head : Generic} {args : List IdlType} {nullable : Bool} {attrs : ExtAttrs}
      {part : IdlType} {leaf : String} :
      enters head → part ∈ args → Leaf c enters part leaf →
        Leaf c enters (.generic head args nullable attrs) leaf

/-- A name that is built in or defined. -/
def Known (c : Catalog) (name : String) : Prop :=
  (Primitive.ofName? name).isSome = true ∨ (c.get? name).isSome = true

instance (name : String) : Decidable (c.Known name) :=
  inferInstanceAs (Decidable (_ ∨ _))

section Leaves

variable {enters : Generic → Prop} {leaf : String}

/-- A name that is no typedef is its own leaf. -/
theorem leaf_named {name : String} {nullable : Bool} {attrs : ExtAttrs}
    (h : c.typedef? name = none) :
    c.Leaf enters (.named name nullable attrs) leaf ↔ leaf = name := by
  constructor
  · rintro (_ | ⟨hbody, -⟩)
    · rfl
    · rw [h] at hbody
      cases hbody
  · rintro rfl
    exact .name h

/-- The leaves of a typedef are those of what it stands for. -/
theorem leaf_typedef {name : String} {nullable : Bool} {attrs : ExtAttrs} {body : IdlType}
    (h : c.typedef? name = some body) :
    c.Leaf enters (.named name nullable attrs) leaf ↔ c.Leaf enters body leaf := by
  constructor
  · rintro (hnone | ⟨hbody, hleaf⟩)
    · rw [h] at hnone
      cases hnone
    · rw [h, Option.some.injEq] at hbody
      exact hbody ▸ hleaf
  · exact .typedef h

/-- The leaves of a union are those of its members. -/
theorem leaf_union {members : List IdlType} {nullable : Bool} {attrs : ExtAttrs} :
    c.Leaf enters (.union members nullable attrs) leaf ↔
      ∃ part ∈ members, c.Leaf enters part leaf := by
  constructor
  · rintro (_ | _ | ⟨hpart, hleaf⟩)
    exact ⟨_, hpart, hleaf⟩
  · rintro ⟨part, hpart, hleaf⟩
    exact .member hpart hleaf

/-- The leaves of a generic are those of its arguments, if it is entered. -/
theorem leaf_generic {head : Generic} {args : List IdlType} {nullable : Bool}
    {attrs : ExtAttrs} : c.Leaf enters (.generic head args nullable attrs) leaf ↔
      enters head ∧ ∃ part ∈ args, c.Leaf enters part leaf := by
  constructor
  · rintro (_ | _ | _ | ⟨henters, hpart, hleaf⟩)
    exact ⟨henters, _, hpart, hleaf⟩
  · rintro ⟨henters, part, hpart, hleaf⟩
    exact .arg henters hpart hleaf

/-- Marks do not matter for leaves. -/
theorem leaf_core (type : IdlType) : c.Leaf enters type.core leaf ↔ c.Leaf enters type leaf := by
  cases type with
  | named name nullable attrs =>
      rw [IdlType.core]
      cases hbody : c.typedef? name with
      | none => rw [leaf_named hbody, leaf_named hbody]
      | some body => rw [leaf_typedef hbody, leaf_typedef hbody]
  | union members => rw [IdlType.core, leaf_union, leaf_union]
  | generic head args => rw [IdlType.core, leaf_generic, leaf_generic]

/-- All types on a chain have the leaves of the last one. -/
theorem Chain.leaf_iff {type last : IdlType} {chain : List IdlType} (h : c.Chain type chain)
    (hlast : chain.getLast? = some last) :
    c.Leaf enters type leaf ↔ c.Leaf enters last leaf := by
  induction h with
  | last =>
      rw [List.getLast?_singleton, Option.some.injEq] at hlast
      rw [hlast]
  | @step type body rest hbody hrest ih =>
      obtain ⟨name, hname, hbody⟩ := Option.bind_eq_some_iff.mp hbody
      cases type with
      | named other nullable attrs =>
          cases hname
          rw [leaf_typedef hbody, ih (hrest.getLast?_of_cons hlast)]
      | union => cases hname
      | generic => cases hname

/-- Resolving a type keeps its leaves. -/
theorem leaf_resolve {type r : IdlType} (h : c.resolve type = .ok r) :
    c.Leaf enters type leaf ↔ c.Leaf enters r leaf := by
  obtain ⟨chain, last, hchain, hlast, hcore⟩ := exists_last_of_resolve h
  rw [hchain.leaf_iff hlast, ← leaf_core, hcore, leaf_core]

end Leaves

end Catalog

/-! ## gaps in trees -/

/-- The names in a tree that nothing stands for, outside of the arguments of generics that
are not entered. -/
inductive TypeTree.Gap (enters : Generic → Prop) : TypeTree → String → Prop where
  | unknown {name : String} : Gap enters (.unknown name) name
  | member {members : List TypeTree} {marks : NullMarks} {tree : TypeTree} {name : String} :
      tree ∈ members → Gap enters tree name → Gap enters (.union members marks) name
  | arg {head : Generic} {args : List TypeTree} {marks : NullMarks} {tree : TypeTree}
      {name : String} :
      enters head → tree ∈ args → Gap enters tree name → Gap enters (.generic head args marks) name

/-- A tree without faults, in which generics have as many arguments as they take. -/
inductive TypeTree.WellFormed : TypeTree → Prop where
  | primitive {primitive : Primitive} {marks : NullMarks} : WellFormed (.primitive primitive marks)
  | definition {d : Definition} {marks : NullMarks} : WellFormed (.definition d marks)
  | unknown {name : String} : WellFormed (.unknown name)
  | union {members : List TypeTree} {marks : NullMarks} :
      (∀ tree ∈ members, WellFormed tree) → WellFormed (.union members marks)
  | generic {head : Generic} {args : List TypeTree} {marks : NullMarks} :
      args.length = head.arity → (∀ tree ∈ args, WellFormed tree) →
        WellFormed (.generic head args marks)

namespace TypeTree

variable {enters : Generic → Prop} {name : String} {marks : NullMarks}

@[simp] theorem gap_primitive {primitive : Primitive} :
    ¬ Gap enters (.primitive primitive marks) name := by
  rintro ⟨⟩

@[simp] theorem gap_definition {d : Definition} : ¬ Gap enters (.definition d marks) name := by
  rintro ⟨⟩

/-- An unknown name is a gap. -/
@[simp] theorem gap_unknown {other : String} : Gap enters (.unknown other) name ↔ name = other := by
  constructor
  · rintro ⟨⟩
    rfl
  · rintro rfl
    exact .unknown

/-- The gaps in a union are those in its members. -/
@[simp] theorem gap_union {members : List TypeTree} :
    Gap enters (.union members marks) name ↔ ∃ tree ∈ members, Gap enters tree name := by
  constructor
  · rintro (_ | ⟨htree, hgap⟩)
    exact ⟨_, htree, hgap⟩
  · rintro ⟨tree, htree, hgap⟩
    exact .member htree hgap

/-- The gaps in a generic are those in its arguments, if it is entered. -/
@[simp] theorem gap_generic {head : Generic} {args : List TypeTree} :
    Gap enters (.generic head args marks) name ↔
      enters head ∧ ∃ tree ∈ args, Gap enters tree name := by
  constructor
  · rintro (_ | _ | ⟨henters, htree, hgap⟩)
    exact ⟨henters, _, htree, hgap⟩
  · rintro ⟨henters, tree, htree, hgap⟩
    exact .arg henters htree hgap

end TypeTree

/-- A step that gives a result if nothing is missing, and else the name of something that
is. -/
def StopsAt {α : Type} (missing : String → Prop) (x : Except Error α) : Prop :=
  (∃ a, x = .ok a) ∧ (∀ name, ¬ missing name) ∨
    ∃ name, missing name ∧ x = .error (.unknownType name)

namespace StopsAt

variable {α β : Type} {missing missing' : String → Prop} {x : Except Error α}

/-- Where nothing is missing, nothing stops. -/
theorem ok {a : α} (h : ∀ name, ¬ missing name) : StopsAt missing (.ok a : Except Error α) :=
  Or.inl ⟨⟨a, rfl⟩, h⟩

/-- What stops at some names stops at the same ones, however they are described. -/
theorem congr (h : StopsAt missing x) (heq : ∀ name, missing name ↔ missing' name) :
    StopsAt missing' x := by
  rwa [← show missing = missing' from funext fun name => propext (heq name)]

/-- Of two steps, the second one is made if nothing is missing for the first. -/
theorem bind {f : α → Except Error β} (hx : StopsAt missing x)
    (hf : ∀ a, StopsAt missing' (f a)) :
    StopsAt (fun name => missing name ∨ missing' name) (x >>= f) := by
  rcases hx with ⟨⟨a, rfl⟩, hnone⟩ | ⟨name, hname, rfl⟩
  · rcases hf a with ⟨hresult, hnone'⟩ | ⟨name, hname, hfails⟩
    · exact Or.inl ⟨hresult, fun name => not_or.mpr ⟨hnone name, hnone' name⟩⟩
    · exact Or.inr ⟨name, Or.inr hname, hfails⟩
  · exact Or.inr ⟨name, Or.inl hname, rfl⟩

/-- What is made of a result stops where the result does. -/
theorem map (h : StopsAt missing x) (f : α → β) :
    StopsAt missing (do let a ← x; return f a) := by
  have hpure : ∀ a, StopsAt (fun _ => False) (pure (f a)) := fun a => .ok (by simp)
  exact (h.bind hpure).congr (by simp)

/-- There is a result if and only if nothing is missing. -/
theorem ok_iff (h : StopsAt missing x) : (∃ a, x = .ok a) ↔ ∀ name, ¬ missing name := by
  rcases h with ⟨hresult, hnone⟩ | ⟨name, hname, rfl⟩
  · exact iff_of_true hresult hnone
  · exact iff_of_false (by simp) fun hnone => hnone name hname

/-- An error tells of a name that is missing. -/
theorem error (h : StopsAt missing x) {e : Error} (hx : x = .error e) :
    ∃ name, missing name ∧ e = .unknownType name := by
  rcases h with ⟨⟨a, rfl⟩, -⟩ | ⟨name, hname, rfl⟩
  · cases hx
  · exact ⟨name, hname, (Except.error.inj hx).symm⟩

end StopsAt

namespace Code

open TypeTree

variable {tree : TypeTree}

/-- References are collected up to a gap, wherever it is. -/
theorem stopsAt_collect (h : tree.WellFormed) (found : List Reference) :
    StopsAt (tree.Gap fun _ => True) (collect found tree) := by
  have hall : ∀ trees : List TypeTree,
      (∀ tree ∈ trees, ∀ found, StopsAt (tree.Gap fun _ => True) (collect found tree)) →
      ∀ found, StopsAt (fun name => ∃ tree ∈ trees, tree.Gap (fun _ => True) name)
        (collectAll found trees) := by
    intro trees htrees
    induction trees with
    | nil => exact fun found => .ok (by simp)
    | cons tree trees ih =>
        intro found
        obtain ⟨htree, htrees⟩ := List.forall_mem_cons.mp htrees
        rw [collectAll]
        exact ((htree found).bind (ih htrees)).congr (by simp)
  induction h generalizing found with
  | primitive => exact .ok (by simp)
  | definition => exact .ok (by simp)
  | unknown => exact Or.inr ⟨_, .unknown, rfl⟩
  | union _ ih =>
      rw [collect]
      exact (hall _ ih found).congr (by simp)
  | generic _ _ ih =>
      rw [collect]
      exact (hall _ ih found).congr (by simp)

/-- Documentation is written up to a gap that is not inside of a promise. -/
theorem stopsAt_alternativesOf (h : tree.WellFormed) (ctx : TypeContext) (top : Bool) :
    StopsAt (tree.Gap (· ≠ .promise)) (alternativesOf ctx top tree) := by
  have hall : ∀ trees : List TypeTree,
      (∀ tree ∈ trees, ∀ top, StopsAt (tree.Gap (· ≠ .promise)) (alternativesOf ctx top tree)) →
      StopsAt (fun name => ∃ tree ∈ trees, tree.Gap (· ≠ .promise) name)
        (branchesOf ctx trees) := by
    intro trees htrees
    induction trees with
    | nil => exact .ok (by simp)
    | cons tree trees ih =>
        obtain ⟨htree, htrees⟩ := List.forall_mem_cons.mp htrees
        rw [branchesOf]
        exact ((htree false).bind fun branch => (ih htrees).map (branch :: ·)).congr (by simp)
  induction h generalizing top with
  | @primitive primitive marks => cases primitive <;> exact .ok (by simp)
  | definition =>
      rw [alternativesOf]
      split
      · exact .ok (by simp)
      · exact .ok (by simp)
  | unknown => exact Or.inr ⟨_, .unknown, by rw [alternativesOf]⟩
  | union _ ih =>
      rw [alternativesOf]
      exact ((hall _ ih).map _).congr (by simp)
  | @generic head args marks harity _ ih =>
      by_cases hhead : head = .promise
      · subst hhead
        rw [alternativesOf_promise]
        exact .ok (by simp)
      · rw [alternativesOf, if_neg (by simp [harity])]
        case x_1 => exact hhead
        exact ((hall _ ih).map _).congr (by simp [hhead])

end Code

namespace Catalog

variable {c : Catalog}

/-! ## traversals of types -/

/-- The leaf of a known name is something built in or a definition. -/
theorem leaf_of_known {name : String} (marks : NullMarks) (h : c.Known name) :
    (∃ primitive, c.leaf name marks = .primitive primitive marks) ∨
      ∃ d, c.leaf name marks = .definition d marks := by
  rw [leaf]
  cases hprimitive : Primitive.ofName? name with
  | some primitive => exact Or.inl ⟨primitive, rfl⟩
  | none =>
      cases hget : c.get? name with
      | some d => exact Or.inr ⟨d, rfl⟩
      | none => simp [Known, hprimitive, hget] at h

/-- The leaf of any other name is unknown. -/
theorem leaf_of_not_known {name : String} (marks : NullMarks) (h : ¬ c.Known name) :
    c.leaf name marks = .unknown name := by
  rw [leaf]
  cases hprimitive : Primitive.ofName? name with
  | some primitive => simp [Known, hprimitive] at h
  | none =>
      cases hget : c.get? name with
      | some d => simp [Known, hget] at h
      | none => rfl

/-- The leaf of a name is a gap if the name is not known. -/
theorem gap_leaf {enters : Generic → Prop} {name other : String} {marks : NullMarks} :
    (c.leaf name marks).Gap enters other ↔ other = name ∧ ¬ c.Known name := by
  by_cases hknown : c.Known name
  · rcases leaf_of_known marks hknown with ⟨primitive, hleaf⟩ | ⟨d, hleaf⟩
    · simp [hleaf, hknown]
    · simp [hleaf, hknown]
  · simp [leaf_of_not_known marks hknown, hknown]

/-- What a type is resolved to names no typedef. -/
theorem typedef?_of_resolve {type r : IdlType} {name : String} (h : c.resolve type = .ok r)
    (hname : r.name? = some name) : c.typedef? name = none := by
  obtain ⟨chain, hchain, hgathers, -⟩ := resolve_ok h
  rw [← body?_eq_of_name? hname]
  exact hgathers.body?_eq_none hchain

/-- The gaps in a tree are the leaves of its type that are not known. -/
theorem Acyclic.gap_tree (h : c.Acyclic) {enters : Generic → Prop} (type : IdlType)
    {name : String} :
    (c.tree type).Gap enters name ↔ c.Leaf enters type name ∧ ¬ c.Known name := by
  induction type using h.resolve_induction with
  | step type r hr ih =>
      rw [h.tree_eq_layer hr, leaf_resolve hr]
      cases r with
      | named other nullable attrs =>
          rw [layer, gap_leaf, leaf_named (typedef?_of_resolve hr rfl)]
          grind
      | union members nullable attrs =>
          simp only [layer, TypeTree.gap_union, List.mem_map, exists_exists_and_eq_and, leaf_union]
          rw [← exists_and_right]
          refine exists_congr fun part => ?_
          rw [and_assoc]
          exact and_congr_right fun hpart => ih part hpart
      | generic head args nullable attrs =>
          simp only [layer, TypeTree.gap_generic, List.mem_map, exists_exists_and_eq_and,
            leaf_generic, and_assoc]
          refine and_congr_right fun _ => ?_
          rw [← exists_and_right]
          refine exists_congr fun part => ?_
          rw [and_assoc]
          exact and_congr_right fun hpart => ih part hpart

/-- What holds of a type and of the bodies of all typedefs holds at the end of its chain. -/
theorem Chain.last_of_bodies {P : IdlType → Prop} (hbodies : ∀ entry ∈ c.typedefs, P entry.2)
    {type last : IdlType} {chain : List IdlType} (h : c.Chain type chain)
    (hlast : chain.getLast? = some last) (htype : P type) : P last := by
  induction h with
  | last =>
      rw [List.getLast?_singleton, Option.some.injEq] at hlast
      rwa [← hlast]
  | @step type body rest hbody hrest ih =>
      obtain ⟨name, -, hbody⟩ := Option.bind_eq_some_iff.mp hbody
      obtain ⟨front, back, hsplit, -⟩ := List.lookup_eq_some_iff.mp hbody
      exact ih (hrest.getLast?_of_cons hlast) (hbodies (name, body) (by simp [hsplit]))

/-- So it holds of the resolved type, if marks do not matter to it. -/
theorem of_resolve {P : IdlType → Prop} (hmarks : ∀ type : IdlType, P type.core ↔ P type)
    (hbodies : ∀ entry ∈ c.typedefs, P entry.2) {type r : IdlType} (htype : P type)
    (h : c.resolve type = .ok r) : P r := by
  obtain ⟨chain, last, hchain, hlast, hcore⟩ := exists_last_of_resolve h
  rw [← hmarks, ← hcore, hmarks]
  exact hchain.last_of_bodies hbodies hlast htype

section WellApplied

variable (hbodies : ∀ entry ∈ c.typedefs, entry.2.wellApplied = true)

include hbodies

/-- Resolving keeps a type well applied. -/
theorem wellApplied_of_resolve {type r : IdlType} (htype : type.wellApplied = true)
    (h : c.resolve type = .ok r) : r.wellApplied = true :=
  of_resolve (P := fun type => type.wellApplied = true)
    (fun type => by rw [IdlType.wellApplied_core]) hbodies htype h

/-- The tree of a type has no faults. -/
theorem Acyclic.wellFormed_tree (h : c.Acyclic) (type : IdlType)
    (htype : type.wellApplied = true) : (c.tree type).WellFormed := by
  induction type using h.resolve_induction with
  | step type r hr ih =>
      have hr' := wellApplied_of_resolve hbodies htype hr
      have hparts : ∀ tree ∈ r.parts.map c.tree, tree.WellFormed := by
        intro tree htree
        obtain ⟨part, hpart, rfl⟩ := List.mem_map.mp htree
        exact ih part hpart (IdlType.wellApplied_of_mem_parts hr' hpart)
      rw [h.tree_eq_layer hr]
      cases r with
      | named name nullable attrs =>
          rw [layer, leaf]
          split
          · exact .primitive
          · split
            · exact .definition
            · exact .unknown
      | union members nullable attrs => exact .union hparts
      | generic head args nullable attrs =>
          rw [IdlType.wellApplied, Bool.and_eq_true, beq_iff_eq] at hr'
          exact .generic (by rw [List.length_map]; exact hr'.1) hparts

end WellApplied

/-- A binding is written if the type is resolved to something other than a name that is not
known. -/
theorem Acyclic.stopsAt_binding (h : c.Acyclic) (ctx : TypeContext) {type r : IdlType}
    (hr : c.resolve type = .ok r) :
    StopsAt (fun name => r.name? = some name ∧ ¬ c.Known name) (binding c ctx type) := by
  rw [binding, h.tree_eq_layer hr]
  cases r with
  | named name nullable attrs =>
      rw [layer]
      by_cases hknown : c.Known name
      · have hnone : ∀ other, ¬ ((IdlType.named name nullable attrs).name? = some other ∧
            ¬ c.Known other) := by
          rintro other ⟨hother, hunknown⟩
          cases hother
          exact hunknown hknown
        rcases leaf_of_known (.of nullable attrs) hknown with ⟨primitive, hleaf⟩ | ⟨d, hleaf⟩
        · rw [hleaf]
          cases primitive <;> exact .ok hnone
        · rw [hleaf, bindingOf]
          split <;> exact .ok hnone
      · rw [leaf_of_not_known _ hknown]
        exact Or.inr ⟨name, ⟨rfl, hknown⟩, rfl⟩
  | union members nullable attrs => exact .ok (by simp [IdlType.name?])
  | generic head args nullable attrs => cases head <;> exact .ok (by simp [IdlType.name?])

/-- Entering more generics finds no fewer leaves. -/
theorem Leaf.weaken {enters enters' : Generic → Prop} (himp : ∀ head, enters head → enters' head)
    {type : IdlType} {name : String} (h : c.Leaf enters type name) : c.Leaf enters' type name := by
  induction h with
  | name hnone => exact .name hnone
  | typedef hbody _ ih => exact .typedef hbody ih
  | member hpart _ ih => exact .member hpart ih
  | arg henters hpart _ ih => exact .arg (himp _ henters) hpart ih

/-- **Traversals end, and only names that nothing stands for stop them.**  If no typedef leads
back to itself and generics have as many arguments as they take, resolving a type and going on
to its parts comes to an end, and no tree is cut short on the way.  References are found unless
some leaf is not known, documentation is written at every position unless some leaf outside of
promises is not known, and a binding is written at every position unless the type itself is
resolved to a name that is not known; each failure names such a leaf.  So what has references
has documentation, and what has documentation has a binding. -/
theorem traversals_stop_at_unknown_names (c : Catalog) (hacyclic : c.Acyclic)
    (hbodies : ∀ entry ∈ c.typedefs, entry.2.wellApplied = true) (type : IdlType)
    (htype : type.wellApplied = true) :
    Acc c.GoesOn type ∧
    (∃ r, c.resolve type = .ok r ∧ c.tree type = c.layer r) ∧
    ((∃ refs, references c type = .ok refs) ↔
      ∀ name, c.Leaf (fun _ => True) type name → c.Known name) ∧
    (∀ ctx, (∃ doc, documentation c ctx type = .ok doc) ↔
      ∀ name, c.Leaf (· ≠ .promise) type name → c.Known name) ∧
    (∀ ctx, (∃ b, binding c ctx type = .ok b) ↔
      ∃ r, c.resolve type = .ok r ∧ ∀ name, r.name? = some name → c.Known name) ∧
    (∀ e, references c type = .error e →
      ∃ name, c.Leaf (fun _ => True) type name ∧ ¬ c.Known name ∧ e = .unknownType name) ∧
    (∀ ctx e, documentation c ctx type = .error e →
      ∃ name, c.Leaf (· ≠ .promise) type name ∧ ¬ c.Known name ∧ e = .unknownType name) ∧
    (∀ ctx e, binding c ctx type = .error e →
      ∃ name, c.Leaf (· ≠ .promise) type name ∧ ¬ c.Known name ∧ e = .unknownType name) ∧
    (∀ refs, references c type = .ok refs → ∀ ctx, ∃ doc, documentation c ctx type = .ok doc) ∧
    ∀ ctx doc, documentation c ctx type = .ok doc → ∀ ctx', ∃ b, binding c ctx' type = .ok b := by
  obtain ⟨r, hr⟩ := hacyclic.exists_resolve type
  have hwhole := hacyclic.wellFormed_tree hbodies type htype
  have hgap : ∀ enters name, (c.tree type).Gap enters name ↔
      c.Leaf enters type name ∧ ¬ c.Known name := fun enters name => hacyclic.gap_tree type
  have hrefs : StopsAt (fun name => c.Leaf (fun _ => True) type name ∧ ¬ c.Known name)
      (references c type) := (stopsAt_collect hwhole []).congr (hgap _)
  have hdoc : ∀ ctx, StopsAt (fun name => c.Leaf (· ≠ .promise) type name ∧ ¬ c.Known name)
      (documentation c ctx type) := fun ctx =>
    ((stopsAt_alternativesOf hwhole ctx true).map Alternatives.text).congr (hgap _)
  have hbinding : ∀ ctx, StopsAt (fun name => r.name? = some name ∧ ¬ c.Known name)
      (binding c ctx type) := fun ctx => hacyclic.stopsAt_binding ctx hr
  -- The name that a type is resolved to is a leaf of it.
  have hself : ∀ enters name, r.name? = some name → c.Leaf enters type name := by
    intro enters name hname
    rw [leaf_resolve hr]
    cases r with
    | named other nullable attrs =>
        cases hname
        exact .name (typedef?_of_resolve hr rfl)
    | union => cases hname
    | generic => cases hname
  have hknown : ∀ P : String → Prop, (∀ name, ¬ (P name ∧ ¬ c.Known name)) ↔
      ∀ name, P name → c.Known name := fun P => by simp only [not_and, not_not]
  refine ⟨hacyclic.acc_goesOn type, ⟨r, hr, hacyclic.tree_eq_layer hr⟩, ?_, fun ctx => ?_,
    fun ctx => ?_, fun e he => ?_, fun ctx e he => ?_, fun ctx e he => ?_, fun refs h ctx => ?_,
    fun ctx doc h ctx' => ?_⟩
  · rw [hrefs.ok_iff, hknown]
  · rw [(hdoc ctx).ok_iff, hknown]
  · rw [(hbinding ctx).ok_iff, hknown]
    simp [hr]
  · obtain ⟨name, ⟨hleaf, hname⟩, heq⟩ := hrefs.error he
    exact ⟨name, hleaf, hname, heq⟩
  · obtain ⟨name, ⟨hleaf, hname⟩, heq⟩ := (hdoc ctx).error he
    exact ⟨name, hleaf, hname, heq⟩
  · obtain ⟨name, ⟨hleaf, hname⟩, heq⟩ := (hbinding ctx).error he
    exact ⟨name, hself _ name hleaf, hname, heq⟩
  · rw [(hdoc ctx).ok_iff, hknown]
    have hall := (hknown _).mp (hrefs.ok_iff.mp ⟨refs, h⟩)
    exact fun name hleaf => hall name (hleaf.weaken fun _ _ => trivial)
  · rw [(hbinding ctx').ok_iff, hknown]
    have hall := (hknown _).mp ((hdoc ctx).ok_iff.mp ⟨doc, h⟩)
    exact fun name hname => hall name (hself _ name hname)

/-- Typedefs that only refer to lower ones lead back to none. -/
theorem acyclic_of_rank (rank : String → Nat)
    (h : ∀ entry ∈ c.typedefs, ∀ name ∈ entry.2.names, rank name < rank entry.1) :
    c.Acyclic := by
  have hstep : ∀ a b, c.Refers a b → rank b < rank a := by
    rintro a b ⟨body, hbody, hname⟩
    obtain ⟨front, back, hsplit, -⟩ := List.lookup_eq_some_iff.mp hbody
    exact h (a, body) (by simp [hsplit]) b hname
  have hpath : ∀ a b, TransGen c.Refers a b → rank b < rank a := by
    intro a b hab
    induction hab with
    | single hab => exact hstep _ _ hab
    | tail _ hbc ih => exact (hstep _ _ hbc).trans ih
  exact fun name hback => absurd (hpath name name hback) (lt_irrefl _)

/-- `interface Node`, `typedef sequence<Node?> Row`, `typedef Promise<Ghost> Later` and
`typedef (Row or Later) Outcome`. -/
def outcomes : Catalog where
  definitions := [{ name := "Node", kind := .interface }]
  typedefs := [
    ("Later", .generic .promise [.named "Ghost" false {}] false {}),
    ("Outcome", .union [.named "Row" false {}, .named "Later" false {}] false {}),
    ("Row", .generic .sequence [.named "Node" true {}] false {})]
  includes := []

/-- An outcome has documentation, for which it does not matter what a promise is of, and no
references. -/
theorem outcomes_stop_at_ghosts :
    outcomes.Acyclic ∧
    (∃ doc, documentation outcomes ⟨"Site", "Shelf", .argument⟩ (.ofName "Outcome") = .ok doc) ∧
      references outcomes (.ofName "Outcome") = .error (.unknownType "Ghost") := by
  have hacyclic : outcomes.Acyclic := by
    refine acyclic_of_rank (fun name => if name = "Outcome" then 2 else
      if name = "Row" ∨ name = "Later" then 1 else 0) ?_
    decide
  have hleaves : ∀ enters name, outcomes.Leaf enters (.ofName "Outcome") name →
      name = "Node" ∨ name = "Ghost" ∧ enters .promise := by
    intro enters name
    have hnode : outcomes.typedef? "Node" = none := by decide +kernel
    have hghost : outcomes.typedef? "Ghost" = none := by decide +kernel
    rw [IdlType.ofName, leaf_typedef rfl, leaf_union]
    simp only [List.mem_cons, List.not_mem_nil, or_false, exists_eq_or_imp, exists_eq_left]
    rw [leaf_typedef rfl, leaf_typedef rfl, leaf_generic, leaf_generic]
    simp only [List.mem_singleton, exists_eq_left, leaf_named hnode, leaf_named hghost]
    grind
  obtain ⟨-, -, hrefs, hdoc, -, hfails, -⟩ := traversals_stop_at_unknown_names outcomes hacyclic
    (by decide) (.ofName "Outcome") rfl
  refine ⟨hacyclic, (hdoc _).mpr fun name hleaf => ?_, ?_⟩
  · rcases hleaves _ name hleaf with rfl | ⟨-, hpromise⟩
    · decide
    · exact absurd rfl hpromise
  · cases hcollect : references outcomes (.ofName "Outcome") with
    | ok refs =>
        have hlater : outcomes.Leaf (fun _ => True) (.named "Later" false {}) "Ghost" :=
          .typedef rfl (.arg trivial List.mem_cons_self (.name (by decide +kernel)))
        have hghost : outcomes.Leaf (fun _ => True) (.ofName "Outcome") "Ghost" :=
          .typedef rfl (.member (by simp) hlater)
        exact absurd (hrefs.mp ⟨refs, hcollect⟩ "Ghost" hghost) (by decide)
    | error e =>
        obtain ⟨name, hleaf, hunknown, rfl⟩ := hfails e hcollect
        rcases hleaves _ name hleaf with rfl | ⟨rfl, -⟩
        · exact absurd hunknown (by decide)
        · rfl

end Catalog

end WebIdl
