import WebIdl.Catalog.Basic
import WebIdl.Proofs.Walk
import Mathlib.Data.List.Nodup

/-!
# WebIdl.Proofs.Graph

The graph of a catalog: an edge leads from a definition to its parent and to each mixin
it includes.

`Catalog.reach` is reachability along these edges.  In a well-formed catalog whose graph
has no cycle through a definition, the two walks that collect the names it can see meet
exactly what it reaches (`mem_above_or_beside`), and its list of ancestors is the finite
chain of parents above it (`lineage_ancestors`), in which nothing repeats
(`Lineage.nodup`).
-/

namespace WebIdl

open Relation

namespace Catalog

/-- An edge of the graph: from a definition to its parent or to a mixin it includes. -/
def Edge (c : Catalog) (a b : String) : Prop :=
  b ∈ c.mixins a

/-- A path along zero or more edges. -/
def Reaches (c : Catalog) : String → String → Prop :=
  ReflTransGen c.Edge

/-- A path along one or more edges. -/
def Beyond (c : Catalog) : String → String → Prop :=
  TransGen c.Edge

/-- Names are distinct, and edges join definitions. -/
structure WellFormed (c : Catalog) : Prop where
  nodup_names : (c.definitions.map (·.name)).Nodup
  source_known : ∀ {a b : String}, c.Edge a b → (c.get? a).isSome = true
  target_known : ∀ {a b : String}, c.Edge a b → (c.get? b).isSome = true

variable {c : Catalog}

/-! ## definitions by name -/

/-- What is found under a name has that name. -/
theorem name_of_get? {name : String} {d : Definition} (h : c.get? name = some d) :
    d.name = name := by
  simpa using List.find?_some h

/-- What is found is a definition of the catalog. -/
theorem mem_of_get? {name : String} {d : Definition} (h : c.get? name = some d) :
    d ∈ c.definitions :=
  List.mem_of_find?_eq_some h

theorem mem_of_definition {name : String} {d : Definition} (h : c.definition name = .ok d) :
    d ∈ c.definitions := by
  rw [definition] at h
  split at h
  next hget =>
    cases h
    exact mem_of_get? hget
  next => cases h

/-- A known name is that of a definition. -/
theorem mem_names_of_known {name : String} (h : (c.get? name).isSome = true) :
    name ∈ c.definitions.map (·.name) := by
  obtain ⟨d, hd⟩ := Option.isSome_iff_exists.mp h
  exact List.mem_map.mpr ⟨d, mem_of_get? hd, name_of_get? hd⟩

/-- The name of a definition is known. -/
theorem known_of_mem_names {name : String} (h : name ∈ c.definitions.map (·.name)) :
    (c.get? name).isSome = true := by
  obtain ⟨d, hd, hname⟩ := List.mem_map.mp h
  rw [get?, List.find?_isSome]
  exact ⟨d, hd, by simpa using hname⟩

/-- In a well-formed catalog every definition is the one of its name. -/
theorem WellFormed.get?_of_mem (hc : c.WellFormed) {d : Definition} (h : d ∈ c.definitions) :
    c.get? d.name = some d := by
  have hknown := known_of_mem_names (List.mem_map_of_mem (f := (·.name)) h)
  obtain ⟨other, hother⟩ := Option.isSome_iff_exists.mp hknown
  have hsame : other = d :=
    List.inj_on_of_nodup_map hc.nodup_names (mem_of_get? hother) h (name_of_get? hother)
  rw [hother, hsame]

/-! ## edges -/

/-- The parents of a name are that of its definition, if it has one. -/
theorem mem_parents_iff {name parent : String} :
    parent ∈ c.parents name ↔ ∃ d, c.get? name = some d ∧ d.parent = some parent := by
  rw [parents]
  cases c.get? name with
  | none => simp
  | some d => simp

/-- An edge leads to a parent or to something included. -/
theorem edge_iff {a b : String} : c.Edge a b ↔ b ∈ c.parents a ∨ b ∈ c.included a := by
  rw [Edge, mixins, List.mem_append]

theorem edge_parent {name parent : String} {d : Definition} (hd : c.get? name = some d)
    (h : d.parent = some parent) : c.Edge name parent :=
  edge_iff.mpr (Or.inl (mem_parents_iff.mpr ⟨d, hd, h⟩))

theorem edge_included {name mixin : String} (h : mixin ∈ c.included name) : c.Edge name mixin :=
  edge_iff.mpr (Or.inr h)

/-- Everything beyond a name is known. -/
theorem WellFormed.known_of_beyond (hc : c.WellFormed) {a b : String} (h : c.Beyond a b) :
    (c.get? b).isSome = true := by
  cases h with
  | single h => exact hc.target_known h
  | tail _ h => exact hc.target_known h

/-- Everything that a known name reaches is known. -/
theorem WellFormed.known_of_reaches (hc : c.WellFormed) {a b : String}
    (ha : (c.get? a).isSome = true) (h : c.Reaches a b) : (c.get? b).isSome = true := by
  cases h with
  | refl => exact ha
  | tail _ h => exact hc.target_known h

/-! ## walks of a catalog -/

section

variable {next : String → List String} {seen stack : List String}

/-- A walk may take as many steps as there are definitions, which is enough. -/
theorem unseen_names_le (c : Catalog) (seen : List String) :
    unseen (c.definitions.map (·.name)) seen ≤ c.definitions.length := by
  rw [unseen]
  exact List.countP_le_length.trans (List.length_map _).le

/-- A walk comes to no name twice. -/
theorem nodup_walk : (c.walk next seen stack).Nodup :=
  nodup_visit _ _ _

/-- A walk comes to known names only, and to none that was seen before. -/
theorem fresh_of_mem_walk {name : String} (h : name ∈ c.walk next seen stack) :
    (c.get? name).isSome = true ∧ name ∉ seen :=
  fresh_of_mem_visit h

/-- A walk comes only to what can be reached from where it starts. -/
theorem reachable_of_mem_walk {name : String} (h : name ∈ c.walk next seen stack) :
    ∃ start ∈ stack, ReflTransGen (fun a b => b ∈ next a) start name :=
  reachable_of_mem_visit h

/-- A walk comes to everything that it is to start from. -/
theorem mem_walk_of_stack {name : String} (hstack : name ∈ stack)
    (hknown : (c.get? name).isSome = true) (hfresh : name ∉ seen) :
    name ∈ c.walk next seen stack :=
  mem_visit_of_stack (fun _ => mem_names_of_known) (unseen_names_le c seen) hstack hknown hfresh

/-- A walk goes on from everything that it comes to. -/
theorem mem_walk_of_next {name other : String} (h : name ∈ c.walk next seen stack)
    (hnext : other ∈ next name) (hknown : (c.get? other).isSome = true) (hfresh : other ∉ seen) :
    other ∈ c.walk next seen stack :=
  mem_visit_of_next (fun _ => mem_names_of_known) (unseen_names_le c seen) h hnext hknown hfresh

end

/-! ## what a definition reaches -/

/-- What a walk from a definition that was not left out meets is what it reaches. -/
theorem WellFormed.mem_reach_iff (hc : c.WellFormed) {start name : String}
    (hstart : (c.get? start).isSome = true) :
    name ∈ c.reach [] [start] ↔ c.Reaches start name := by
  constructor
  · intro h
    obtain ⟨first, hfirst, hpath⟩ := reachable_of_mem_walk h
    rw [List.mem_singleton] at hfirst
    exact hfirst ▸ hpath
  · intro h
    induction h with
    | refl => exact mem_walk_of_stack List.mem_cons_self hstart List.not_mem_nil
    | tail _ hedge ih => exact mem_walk_of_next ih hedge (hc.target_known hedge) List.not_mem_nil

/-- What a definition reaches through its parent. -/
def above (c : Catalog) (d : Definition) : List String :=
  c.reach [d.name] d.parent.toList

/-- What a definition reaches through its mixins and not through its parent. -/
def beside (c : Catalog) (d : Definition) : List String :=
  c.reach (d.name :: c.above d) (c.included d.name)

/-- What is above a definition is what its parent reaches, unless it reaches itself. -/
theorem WellFormed.mem_above_iff (hc : c.WellFormed) {d : Definition}
    (hd : c.get? d.name = some d) (hacyclic : ¬ c.Beyond d.name d.name) {name : String} :
    name ∈ c.above d ↔ ∃ parent ∈ d.parent, c.Reaches parent name := by
  constructor
  · intro h
    obtain ⟨parent, hparent, hpath⟩ := reachable_of_mem_walk h
    exact ⟨parent, Option.mem_toList.mp hparent, hpath⟩
  · rintro ⟨parent, hparent, hpath⟩
    have hedge := edge_parent hd hparent
    have hfresh : ∀ other, c.Reaches parent other → other ∉ [d.name] := by
      intro other hother hsame
      rw [List.mem_singleton.mp hsame] at hother
      exact hacyclic (TransGen.head' hedge hother)
    induction hpath with
    | refl =>
        exact mem_walk_of_stack (Option.mem_toList.mpr hparent) (hc.target_known hedge)
          (hfresh parent ReflTransGen.refl)
    | @tail a b hpath hnext ih =>
        exact mem_walk_of_next ih hnext (hc.target_known hnext) (hfresh b (hpath.tail hnext))

/-- What is above or beside a definition is what it reaches, unless it reaches itself. -/
theorem WellFormed.mem_above_or_beside (hc : c.WellFormed) {d : Definition}
    (hd : c.get? d.name = some d) (hacyclic : ¬ c.Beyond d.name d.name) {name : String} :
    name ∈ c.above d ++ c.beside d ↔ c.Beyond d.name name := by
  rw [List.mem_append]
  constructor
  · rintro (h | h)
    · obtain ⟨parent, hparent, hpath⟩ := reachable_of_mem_walk h
      exact TransGen.head' (edge_parent hd (Option.mem_toList.mp hparent)) hpath
    · obtain ⟨mixin, hmixin, hpath⟩ := reachable_of_mem_walk h
      exact TransGen.head' (edge_included hmixin) hpath
  · intro h
    -- both walks together are closed under edges that do not lead back to `d`
    induction h with
    | @single b hedge =>
        have hknown := hc.target_known hedge
        have hne : b ∉ [d.name] := by
          rintro hb
          rw [List.mem_singleton] at hb
          exact hacyclic (TransGen.single (hb ▸ hedge))
        rcases edge_iff.mp hedge with hparent | hincluded
        · obtain ⟨d', hd', hparent⟩ := mem_parents_iff.mp hparent
          rw [hd, Option.some.injEq] at hd'
          subst hd'
          exact Or.inl (mem_walk_of_stack (Option.mem_toList.mpr hparent) hknown hne)
        · by_cases habove : b ∈ c.above d
          · exact Or.inl habove
          · refine Or.inr (mem_walk_of_stack hincluded hknown ?_)
            simpa [habove] using hne
    | @tail a b hpath hedge ih =>
        have hknown := hc.target_known hedge
        have hne : b ∉ [d.name] := by
          rintro hb
          rw [List.mem_singleton] at hb
          rw [hb] at hedge
          exact hacyclic (TransGen.tail hpath hedge)
        rcases ih with habove | hbeside
        · exact Or.inl (mem_walk_of_next habove hedge hknown hne)
        · by_cases habove : b ∈ c.above d
          · exact Or.inl habove
          · refine Or.inr (mem_walk_of_next hbeside hedge hknown ?_)
            simpa [habove] using hne

/-! ## ancestors -/

/-- The chain of parents above a definition, nearest first, up to one without a parent. -/
inductive Lineage (c : Catalog) : Definition → List Definition → Prop where
  | root {d : Definition} (h : d.parent = none) : Lineage c d []
  | child {d parent : Definition} {name : String} {chain : List Definition}
      (h : d.parent = some name) (hparent : c.get? name = some parent)
      (hchain : Lineage c parent chain) : Lineage c d (parent :: chain)

/-- The walk along parents gives the chain, as long as it was not on it before. -/
theorem WellFormed.lineage_visit (hc : c.WellFormed) (hacyclic : ∀ name, ¬ c.Beyond name name)
    (steps : Nat) (seen : List String) (d : Definition) (hd : c.get? d.name = some d)
    (hsteps : unseen (c.definitions.map (·.name)) seen ≤ steps)
    (hseen : ∀ name ∈ seen, ¬ c.Beyond d.name name) :
    c.Lineage d (c.definitionsOf (visit (fun name => (c.get? name).isSome) c.parents steps seen
      d.parent.toList)) := by
  induction steps generalizing seen d with
  | zero =>
      cases hparent : d.parent with
      | none => exact Lineage.root hparent
      | some name =>
          have hedge := edge_parent hd hparent
          have hzero : unseen (c.definitions.map (·.name)) seen = 0 := by omega
          have hmem := mem_seen_of_unseen_eq_zero hzero (mem_names_of_known (hc.target_known hedge))
          exact absurd (TransGen.single hedge) (hseen name hmem)
  | succ steps ih =>
      cases hparent : d.parent with
      | none => exact Lineage.root hparent
      | some name =>
          have hedge := edge_parent hd hparent
          obtain ⟨parent, hget⟩ := Option.isSome_iff_exists.mp (hc.target_known hedge)
          have hname := name_of_get? hget
          have hfresh : name ∉ seen := fun h => hseen name h (TransGen.single hedge)
          have hvisit : visit (fun name => (c.get? name).isSome) c.parents (steps + 1) seen [name] =
              name :: visit (fun name => (c.get? name).isSome) c.parents steps (name :: seen)
                parent.parent.toList := by
            have hparents : c.parents name = parent.parent.toList := by rw [parents, hget]
            have hdrop : List.dropWhile (fun other => seen.contains other || !(c.get? other).isSome)
                [name] = [name] := by
              rw [List.dropWhile_cons_of_neg (by simp [hfresh, hget])]
            rw [visit, hdrop]
            simp only [hparents, List.append_nil]
          rw [Option.toList_some, hvisit, definitionsOf, List.filterMap_cons_some hget]
          refine Lineage.child hparent hget (ih (name :: seen) parent (hname ▸ hget) ?_ ?_)
          · have hless := unseen_cons_lt (mem_names_of_known (hc.target_known hedge))
              (by simpa using hfresh : seen.contains name = false)
            omega
          · intro other hother hpath
            rw [hname] at hpath
            rcases List.mem_cons.mp hother with rfl | hother
            · exact hacyclic _ hpath
            · exact hseen other hother (TransGen.head hedge hpath)

/-- In a graph without cycles the ancestors are the chain of parents. -/
theorem WellFormed.lineage_ancestors (hc : c.WellFormed)
    (hacyclic : ∀ name, ¬ c.Beyond name name) {d : Definition} (hd : c.get? d.name = some d) :
    c.Lineage d (c.ancestors d) :=
  hc.lineage_visit hacyclic _ [] d hd (unseen_names_le c []) (fun _ h => absurd h List.not_mem_nil)

/-- Everything on the chain is reached. -/
theorem Lineage.beyond {d : Definition} {chain : List Definition} (h : c.Lineage d chain)
    (hd : c.get? d.name = some d) : ∀ a ∈ chain, c.Beyond d.name a.name := by
  induction h with
  | root => intro a ha; cases ha
  | @child d parent name chain hparent hget hchain ih =>
      have hname := name_of_get? hget
      have hedge : c.Edge d.name parent.name := hname ▸ edge_parent hd hparent
      intro a ha
      cases ha with
      | head => exact TransGen.single hedge
      | tail _ ha => exact TransGen.head hedge (ih (hname ▸ hget) a ha)

/-- The chain ends with a definition without a parent. -/
theorem Lineage.exists_root {d : Definition} {chain : List Definition} (h : c.Lineage d chain) :
    ∃ x ∈ d :: chain, x.parent = none ∧ (d.parent.isSome = true → x ∈ chain) := by
  induction h with
  | @root d hroot => exact ⟨d, List.mem_cons_self, hroot, by simp [hroot]⟩
  | @child d parent name chain hparent hget hchain ih =>
      obtain ⟨x, hx, hroot, -⟩ := ih
      exact ⟨x, List.mem_cons_of_mem d hx, hroot, fun _ => hx⟩

/-- The chain is closed under parents. -/
theorem Lineage.parent_mem {d : Definition} {chain : List Definition} (h : c.Lineage d chain)
    {x parent : Definition} {name : String} (hx : x ∈ d :: chain) (hname : x.parent = some name)
    (hparent : c.get? name = some parent) : parent ∈ chain := by
  induction h with
  | @root d hroot =>
      rw [List.mem_singleton.mp hx, hroot] at hname
      cases hname
  | @child d next other chain hnext hget hchain ih =>
      cases hx with
      | head =>
          rw [hnext, Option.some.injEq] at hname
          rw [← hname, hget, Option.some.injEq] at hparent
          rw [← hparent]
          exact List.mem_cons_self
      | tail _ hx => exact List.mem_cons_of_mem next (ih hx)

/-- Everything on the chain is the definition of its name. -/
theorem Lineage.known {d : Definition} {chain : List Definition} (h : c.Lineage d chain)
    (hd : c.get? d.name = some d) : ∀ x ∈ d :: chain, c.get? x.name = some x := by
  induction h with
  | root =>
      intro x hx
      rw [List.mem_singleton.mp hx]
      exact hd
  | @child d parent name chain hparent hget hchain ih =>
      intro x hx
      cases hx with
      | head => exact hd
      | tail _ hx => exact ih (name_of_get? hget ▸ hget) x hx

/-- Nothing repeats on the chain of a graph without cycles. -/
theorem Lineage.nodup {d : Definition} {chain : List Definition} (h : c.Lineage d chain)
    (hd : c.get? d.name = some d) (hacyclic : ∀ name, ¬ c.Beyond name name) :
    ((d :: chain).map (·.name)).Nodup := by
  induction h with
  | root => simp
  | @child d parent name chain hparent hget hchain ih =>
      have hname := name_of_get? hget
      rw [List.map_cons, List.nodup_cons]
      refine ⟨?_, ih (hname ▸ hget)⟩
      intro hagain
      obtain ⟨a, ha, hsame⟩ := List.mem_map.mp hagain
      have hbeyond := (Lineage.child hparent hget hchain).beyond hd a ha
      rw [hsame] at hbeyond
      exact hacyclic _ hbeyond

end Catalog

end WebIdl
