import WebIdl.Registry
import WebIdl.Proofs.Causes
import WebIdl.Proofs.Ingest
import WebIdl.Proofs.NameMap
import Mathlib

/-!
# WebIdl.Proofs.Resolution

The order in which definitions are resolved.

A map of names is `Settled` if it was filled one definition at a time, each after all
that it inherits or includes.  Resolving keeps the map settled (`resolveFrom_ok`), and
whatever is in a settled map is on no cycle (`Settled.acyclic`).  Coming back to a
definition that is being resolved reports a cycle of the graph (`resolveFrom_cycle`),
and nothing else does.  Calls nest no deeper than there are definitions
(`resolveWithin_eq`).
-/

namespace WebIdl

open Relation

namespace Resolver

/-- A map filled one definition at a time, each after all it inherits or includes. -/
inductive Settled (c : Catalog) : NameMap → Prop where
  | empty : Settled c {}
  | insert {map : NameMap} {name : String} {d : Definition} {table : NameTable}
      (hmap : Settled c map) (hd : c.get? name = some d) (hnew : map.table? name = none)
      (hmixins : ∀ mixin ∈ c.mixins name, (map.table? mixin).isSome = true)
      (htable : NameTable.of c map d = .ok table) : Settled c (map.insert name table)

namespace Settled

variable {c : Catalog} {map : NameMap}

/-- Only definitions are resolved. -/
theorem known (h : Settled c map) {name : String} (hname : (map.table? name).isSome = true) :
    (c.get? name).isSome = true := by
  induction h with
  | empty => cases hname
  | @insert map other d table hmap hd hnew hmixins htable ih =>
      by_cases hsame : name = other
      · rw [hsame, hd]
        rfl
      · rw [NameMap.table?_insert_of_ne map table hsame] at hname
        exact ih hname

/-- With a definition everything that it has an edge to is resolved. -/
theorem edge (h : Settled c map) {a b : String} (ha : (map.table? a).isSome = true)
    (hedge : c.Edge a b) : (map.table? b).isSome = true := by
  induction h with
  | empty => cases ha
  | @insert map name d table hmap hd hnew hmixins htable ih =>
      have hkeeps := NameMap.keeps_insert map name table
      by_cases hsame : a = name
      · exact hkeeps.isSome (hmixins b (hsame ▸ hedge))
      · rw [NameMap.table?_insert_of_ne map table hsame] at ha
        exact hkeeps.isSome (ih ha)

/-- With a definition everything that it reaches is resolved. -/
theorem reaches (h : Settled c map) {a b : String} (ha : (map.table? a).isSome = true)
    (hpath : c.Reaches a b) : (map.table? b).isSome = true := by
  induction hpath with
  | refl => exact ha
  | tail _ hedge ih => exact h.edge ih hedge

/-- What is resolved is on no cycle. -/
theorem acyclic (h : Settled c map) {name : String} (hname : (map.table? name).isSome = true) :
    ¬ c.Beyond name name := by
  induction h with
  | empty => cases hname
  | @insert map other d table hmap hd hnew hmixins htable ih =>
      by_cases hsame : name = other
      · -- the first edge leads into the older map, and no path leads out of it
        subst hsame
        intro hcycle
        obtain ⟨mixin, hedge, hpath⟩ := TransGen.head'_iff.mp hcycle
        have hback := hmap.reaches (hmixins mixin hedge) hpath
        rw [hnew] at hback
        cases hback
      · rw [NameMap.table?_insert_of_ne map table hsame] at hname
        exact ih hname

end Settled

/-! ## resolving one definition -/

/-- What resolving does to the map while some definitions are being resolved. -/
structure Progress (c : Catalog) (path : List String) (before after : NameMap) : Prop where
  settled : Settled c after
  keeps : before.Keeps after
  waits : ∀ name ∈ path, before.table? name = none → after.table? name = none

namespace Progress

variable {c : Catalog} {path : List String}

theorem refl {map : NameMap} (h : Settled c map) : Progress c path map map :=
  ⟨h, NameMap.Keeps.refl map, fun _ _ h => h⟩

theorem trans {first second third : NameMap} (h₁ : Progress c path first second)
    (h₂ : Progress c path second third) : Progress c path first third where
  settled := h₂.settled
  keeps := h₁.keeps.trans h₂.keeps
  waits := fun name hname h => h₂.waits name hname (h₁.waits name hname h)

/-- What waits on a longer path waits on a shorter one. -/
theorem shorten {before after : NameMap} {more : List String}
    (h : Progress c (path ++ more) before after) : Progress c path before after where
  settled := h.settled
  keeps := h.keeps
  waits := fun name hname => h.waits name (List.mem_append_left more hname)

end Progress

/-- Resolving a definition makes progress and resolves it. -/
theorem resolveFrom_ok {c : Catalog} {path : List String} {resolver resolver' : Resolver}
    {name : String} (hmap : Settled c resolver.map)
    (h : resolveFrom c path resolver name = .ok resolver') :
    Progress c path resolver.map resolver'.map ∧ (resolver'.map.table? name).isSome = true := by
  fun_induction resolveFrom c path resolver name generalizing resolver' with
  | case1 path resolver name hdone =>
      cases h
      exact ⟨Progress.refl hmap, hdone⟩
  | case2 => cases h
  | case3 => cases h
  | case4 path resolver name hopen hfresh d hd ih =>
      simp only [bind_eq_ok, pure_eq_ok] at h
      obtain ⟨middle, hmixins, table, htable, rfl⟩ := h
      have hopen' : resolver.map.table? name = none := by simpa using hopen
      have hprogress : Progress c (path ++ [name]) resolver.map middle.map := by
        refine foldlM_ok_inv (P := fun r => Progress c (path ++ [name]) resolver.map r.map) ?_
          (Progress.refl hmap) hmixins
        intro mixin _ r r' hr hstep
        exact hr.trans (ih r mixin hr.settled hstep).1
      have hready : ∀ mixin ∈ c.mixins name, (middle.map.table? mixin).isSome = true := by
        refine foldlM_ok_each (P := fun r => Settled c r.map)
          (Q := fun mixin r => (r.map.table? mixin).isSome = true) ?_ ?_ hmap hmixins
        · intro mixin _ r r' hr hstep
          obtain ⟨hstep', hresolved⟩ := ih r mixin hr hstep
          exact ⟨hstep'.settled, hresolved⟩
        · intro mixin _ other r r' hr hstep hother
          exact (ih r mixin hr hstep).1.keeps.isSome hother
      have hwaits : middle.map.table? name = none :=
        hprogress.waits name (List.mem_append_right path List.mem_cons_self) hopen'
      have hself := NameMap.table?_insert_self table hwaits
      refine ⟨hprogress.shorten.trans ?_, by simp [hself]⟩
      refine ⟨Settled.insert hprogress.settled hd hwaits hready htable,
        NameMap.keeps_insert middle.map name table, ?_⟩
      intro other hother hnone
      have hne : other ≠ name := by
        rintro rfl
        exact hfresh (List.contains_iff_mem.mpr hother)
      rw [NameMap.table?_insert_of_ne middle.map table hne]
      exact hnone

/-- Resolving all definitions settles a map that has all of them. -/
theorem resolveAll_ok {c : Catalog} {resolver : Resolver} (h : resolveAll c = .ok resolver) :
    Settled c resolver.map ∧ ∀ d ∈ c.definitions, (resolver.map.table? d.name).isSome = true := by
  have hstep : ∀ d ∈ c.definitions, ∀ r r', Settled c r.map → resolveFrom c [] r d.name = .ok r' →
      Settled c r'.map ∧ (r'.map.table? d.name).isSome = true := by
    intro d _ r r' hr hr'
    obtain ⟨hprogress, hdone⟩ := resolveFrom_ok hr hr'
    exact ⟨hprogress.settled, hdone⟩
  constructor
  · exact foldlM_ok_inv (P := fun r => Settled c r.map)
      (fun d hd r r' hr hr' => (hstep d hd r r' hr hr').1) Settled.empty h
  · refine foldlM_ok_each (P := fun r => Settled c r.map)
      (Q := fun d r => (r.map.table? d.name).isSome = true) hstep ?_ Settled.empty h
    intro d _ other r r' hr hr' hother
    exact (resolveFrom_ok hr hr').1.keeps.isSome hother

/-! ## cycles -/

/-- A simple cycle of the graph, from a definition back to it. -/
structure IsCycle (c : Catalog) (path : List String) : Prop where
  two_le_length : 2 ≤ path.length
  closed : path.head? = path.getLast?
  nodup : path.dropLast.Nodup
  chain : path.IsChain c.Edge

/-- A simple path that ends in a definition on it closes a cycle. -/
theorem isCycle_of_mem {c : Catalog} {path : List String} {name : String} (hmem : name ∈ path)
    (hnodup : path.Nodup) (hchain : (path ++ [name]).IsChain c.Edge) :
    IsCycle c (path.dropWhile (· != name) ++ [name]) := by
  obtain ⟨rest, hdrop⟩ : ∃ rest, path.dropWhile (· != name) = name :: rest := by
    cases hdrop : path.dropWhile (· != name) with
    | nil =>
        have hall := List.dropWhile_eq_nil_iff.mp hdrop name hmem
        simp at hall
    | cons first rest =>
        have hfirst := (of_dropWhile_eq_cons hdrop).1
        rw [bne_eq_false_iff_eq] at hfirst
        exact ⟨rest, by rw [hfirst]⟩
  have hsuffix : path.dropWhile (· != name) <:+ path := List.dropWhile_suffix _
  obtain ⟨front, hfront⟩ := hsuffix
  refine ⟨?_, ?_, ?_, ?_⟩
  · simp [hdrop]
  · rw [List.getLast?_concat, hdrop]
    rfl
  · rw [List.dropLast_concat]
    exact (List.dropWhile_sublist _).nodup hnodup
  · rw [← hfront, List.append_assoc] at hchain
    exact hchain.right_of_append

/-- A cycle that is reported is one. -/
theorem resolveFrom_cycle {c : Catalog} {path cycle : List String} {resolver : Resolver}
    {name : String} (hnodup : path.Nodup) (hchain : (path ++ [name]).IsChain c.Edge)
    (h : resolveFrom c path resolver name = .error (.mixinCycle cycle)) : IsCycle c cycle := by
  fun_induction resolveFrom c path resolver name with
  | case1 => cases h
  | case2 path resolver name hopen hmem =>
      injection h with h
      injection h with h
      rw [← h]
      exact isCycle_of_mem (List.contains_iff_mem.mp hmem) hnodup hchain
  | case3 => cases h
  | case4 path resolver name hopen hfresh d hd ih =>
      rcases bind_eq_error.mp h with h | ⟨middle, -, h⟩
      · obtain ⟨mixin, hmixin, r, -, hfail⟩ := foldlM_error (P := fun _ => True)
          (fun _ _ _ _ _ _ => trivial) trivial h
        have hnodup' : (path ++ [name]).Nodup := by
          refine List.nodup_append.mpr ⟨hnodup, by simp, ?_⟩
          rintro a ha b hb rfl
          rw [List.mem_singleton] at hb
          exact hfresh (List.contains_iff_mem.mpr (hb ▸ ha))
        refine ih r mixin hnodup' ?_ hfail
        refine List.isChain_append.mpr ⟨hchain, List.isChain_singleton mixin, ?_⟩
        intro last hlast next hnext
        rw [List.getLast?_concat, Option.mem_some_iff] at hlast
        rw [List.head?_cons, Option.mem_some_iff] at hnext
        subst hlast
        subst hnext
        exact hmixin
      · rcases bind_eq_error.mp h with h | ⟨table, -, h⟩
        · exact (failsOnly_nameTable_of c middle.map d _ h).elim
        · cases h

theorem resolveAll_cycle {c : Catalog} {cycle : List String}
    (h : resolveAll c = .error (.mixinCycle cycle)) : IsCycle c cycle := by
  obtain ⟨d, -, r, -, hfail⟩ := foldlM_error (P := fun _ => True)
    (fun _ _ _ _ _ _ => trivial) trivial h
  exact resolveFrom_cycle List.nodup_nil (List.isChain_singleton d.name) hfail

/-! ## how deep calls nest -/

/-- Resolving with a bound on how deep calls nest; `none` tells that the bound was met. -/
def resolveWithin (c : Catalog) : (depth : Nat) → (path : List String) → Resolver → String →
    Except (Option Error) Resolver
  | 0, _, _, _ => .error none
  | depth + 1, path, resolver, name =>
    if (resolver.map.table? name).isSome then .ok resolver
    else if path.contains name then
      .error (some (.mixinCycle (path.dropWhile (· != name) ++ [name])))
    else
      match c.get? name with
      | none => .error (some (.unknownDefinition name))
      | some d => do
        let resolver ← (c.mixins name).foldlM (resolveWithin c depth (path ++ [name])) resolver
        let table ← (NameTable.of c resolver.map d).mapError some
        return { map := resolver.map.insert name table, passes := resolver.passes + 1 }

/-- Resolving all definitions with a bound on how deep calls nest. -/
def resolveAllWithin (c : Catalog) (depth : Nat) : Except (Option Error) Resolver :=
  c.definitions.foldlM (fun resolver d => resolveWithin c depth [] resolver d.name) {}

/-- A fold over steps whose errors are renamed is the fold with its errors renamed. -/
theorem foldlM_mapError {ε δ α σ : Type} {f : ε → δ} {step : σ → α → Except ε σ}
    {step' : σ → α → Except δ σ} {xs : List α}
    (h : ∀ x ∈ xs, ∀ s, step' s x = (step s x).mapError f) (s : σ) :
    xs.foldlM step' s = (xs.foldlM step s).mapError f := by
  induction xs generalizing s with
  | nil => rfl
  | cons x xs ih =>
      rw [List.foldlM_cons, List.foldlM_cons, h x List.mem_cons_self s]
      cases step s x with
      | error e => rfl
      | ok t => exact ih (fun y hy => h y (List.mem_cons_of_mem x hy)) t

/-- A bound greater than the number of definitions off the path is never met. -/
theorem resolveWithin_eq {c : Catalog} {depth : Nat} {path : List String} {resolver : Resolver}
    {name : String} (hdepth : unseen (definitionNames c) path < depth) :
    resolveWithin c depth path resolver name =
      (resolveFrom c path resolver name).mapError some := by
  induction depth generalizing path resolver name with
  | zero => omega
  | succ depth ih =>
      rw [resolveWithin, resolveFrom]
      by_cases hdone : (resolver.map.table? name).isSome = true
      · rw [if_pos hdone, if_pos hdone]
        rfl
      · rw [if_neg hdone, if_neg hdone]
        by_cases hmem : path.contains name = true
        · rw [if_pos hmem, dif_pos hmem]
          rfl
        · rw [if_neg hmem, dif_neg hmem]
          cases hd : c.get? name with
          | none => rfl
          | some d =>
              have hsame : unseen (definitionNames c) (path ++ [name]) =
                  unseen (definitionNames c) (name :: path) := by
                simp [unseen, Bool.or_comm]
              have hless := unseen_cons_lt (mem_definitionNames hd)
                (by simpa using hmem : path.contains name = false)
              have hmixin : ∀ mixin ∈ c.mixins name, ∀ r,
                  resolveWithin c depth (path ++ [name]) r mixin =
                    (resolveFrom c (path ++ [name]) r mixin).mapError some := by
                intro mixin _ r
                exact ih (by omega)
              have hmixins := foldlM_mapError hmixin resolver
              simp only [hmixins]
              cases (c.mixins name).foldlM
                  (fun r mixin => resolveFrom c (path ++ [name]) r mixin) resolver with
              | error e => rfl
              | ok middle =>
                  simp only [Except.mapError, bind, Except.bind]
                  cases NameTable.of c middle.map d with
                  | error e => rfl
                  | ok table => rfl

/-- Calls nest at most one deeper than there are definitions. -/
theorem resolveAllWithin_eq (c : Catalog) :
    resolveAllWithin c (c.definitions.length + 1) = (resolveAll c).mapError some := by
  refine foldlM_mapError (fun d _ r => resolveWithin_eq ?_) {}
  have hle := c.unseen_names_le []
  rw [definitionNames]
  omega

end Resolver

/-! ## registries -/

namespace Registry

open Resolver (IsCycle Settled resolveAll resolveAllWithin)

variable {options : IngestOptions} {nodes : List Node} {r : Registry}

/-- What a registry that was built consists of. -/
theorem of_build (h : build options nodes = .ok r) :
    Catalog.ofNodes options nodes = .ok r.toCatalog ∧
      ∃ resolver, resolveAll r.toCatalog = .ok resolver ∧ r.names = resolver.map := by
  simp only [build, bind_eq_ok, pure_eq_ok] at h
  obtain ⟨c, hc, resolver, hresolver, rfl⟩ := h
  exact ⟨hc, resolver, hresolver, rfl⟩

/-- The catalog of a registry that was built is well formed. -/
theorem wellFormed_of_build (h : build options nodes = .ok r) : r.toCatalog.WellFormed :=
  Catalog.wellFormed_ofNodes (of_build h).1

/-- The names of a registry that was built are settled, and every definition has some. -/
theorem settled_of_build (h : build options nodes = .ok r) :
    Settled r.toCatalog r.names ∧
      ∀ name, (r.get? name).isSome = true → (r.names.table? name).isSome = true := by
  obtain ⟨-, resolver, hresolver, hnames⟩ := of_build h
  obtain ⟨hsettled, hall⟩ := Resolver.resolveAll_ok hresolver
  rw [hnames]
  refine ⟨hsettled, fun name hname => ?_⟩
  obtain ⟨d, hd⟩ := Option.isSome_iff_exists.mp hname
  rw [← Catalog.name_of_get? hd]
  exact hall d (Catalog.mem_of_get? hd)

/-- The graph of a registry that was built has no cycle. -/
theorem acyclic_of_build (h : build options nodes = .ok r) (name : String) :
    ¬ r.toCatalog.Beyond name name := by
  intro hcycle
  obtain ⟨hsettled, hall⟩ := settled_of_build h
  have hknown := (wellFormed_of_build h).known_of_beyond hcycle
  exact hsettled.acyclic (hall name hknown) hcycle

/-- The ancestors of a definition of a registry that was built are the chain of its
parents. -/
theorem lineage_of_build (h : build options nodes = .ok r) {d : Definition}
    (hd : d ∈ r.definitions) : r.toCatalog.Lineage d (r.ancestors d) := by
  have hc := wellFormed_of_build h
  exact hc.lineage_ancestors (acyclic_of_build h) (hc.get?_of_mem hd)

/-- **Cycles are rejected exactly, and resolution ends**: whatever the nodes are, calls
of the resolver nest at most one deeper than there are definitions.  A registry that is
built has no cycle, so the ancestors of a definition are a finite chain in which nothing
repeats; and a cycle that is reported is a simple cycle of the catalog. -/
theorem resolution_ends_and_rejects_cycles (options : IngestOptions) (nodes : List Node) :
    (∀ c, Catalog.ofNodes options nodes = .ok c →
      resolveAllWithin c (c.definitions.length + 1) = (resolveAll c).mapError some) ∧
    (∀ r, build options nodes = .ok r →
      (∀ name, ¬ r.toCatalog.Beyond name name) ∧
      ∀ d ∈ r.definitions, r.toCatalog.Lineage d (r.ancestors d) ∧
        ((r.ancestors d).map (·.name)).Nodup ∧ d.name ∉ (r.ancestors d).map (·.name)) ∧
    ∀ path, build options nodes = .error (.mixinCycle path) →
      ∃ c, Catalog.ofNodes options nodes = .ok c ∧ 2 ≤ path.length ∧
        path.head? = path.getLast? ∧ path.dropLast.Nodup ∧
        path.IsChain (fun a b => b ∈ c.mixins a) := by
  refine ⟨fun c _ => Resolver.resolveAllWithin_eq c, ?_, ?_⟩
  · intro r h
    have hacyclic := acyclic_of_build h
    refine ⟨hacyclic, fun d hd => ?_⟩
    have hlineage := lineage_of_build h hd
    have hnodup := hlineage.nodup ((wellFormed_of_build h).get?_of_mem hd) hacyclic
    rw [List.map_cons, List.nodup_cons] at hnodup
    exact ⟨hlineage, hnodup.2, hnodup.1⟩
  · intro path h
    rcases bind_eq_error.mp h with h | ⟨c, hc, h⟩
    · exact (Catalog.failsOnly_ofNodes options nodes _ h).elim
    · rcases bind_eq_error.mp h with h | ⟨resolver, -, h⟩
      · have hcycle := Resolver.resolveAll_cycle h
        exact ⟨c, hc, hcycle.two_le_length, hcycle.closed, hcycle.nodup, hcycle.chain⟩
      · cases h

/-- Two mixins that include each other. -/
def mutualMixins : List Node :=
  [.definition { name := "A", kind := .mixin }, .definition { name := "B", kind := .mixin },
   .includes "A" "B", .includes "B" "A"]

/-- Two mixins that include each other are reported as a cycle. -/
theorem mutual_mixins_are_rejected :
    build {} mutualMixins = .error (.mixinCycle ["A", "B", "A"]) ∧
      ∃ c, Catalog.ofNodes {} mutualMixins = .ok c ∧
        ["A", "B", "A"].IsChain (fun a b => b ∈ c.mixins a) := by
  have hcycle : build {} mutualMixins = .error (.mixinCycle ["A", "B", "A"]) := by cbv
  obtain ⟨c, hc, -, -, -, hchain⟩ :=
    (resolution_ends_and_rejects_cycles {} mutualMixins).2.2 ["A", "B", "A"] hcycle
  exact ⟨hcycle, c, hc, hchain⟩

end Registry

end WebIdl
