import WebIdl.Proofs.Distinct
import WebIdl.Proofs.Sharing
import WebIdl.Proofs.Snapshot

/-!
# WebIdl.Proofs.Completion

The cast of a dictionary makes complete objects.

A contract declares a getter for each field of its own, its cast, and keyed access if it has
no parent (`names_dictionaryContract`).  The class of the objects has the getters of all
fields of the chain, and the trait that it uses has the cast and keyed access.  Structural
names are shared along the chain, so nothing is missing; a field that is declared again has a
getter of its own, so nothing is there twice:

* `cast_makes_complete_objects`: an object has every method that a contract of the chain
  declares once, and no others but its constructor; an object of an ancestor is read as the
  ancestor exposes it.
-/

namespace WebIdl

open Relation Text

namespace Artifact

open WebIdl.Code

/-- The methods that some items declare or define, in order. -/
def declaredNames (items : List Item) : List String :=
  items.filterMap fun
    | .method decl => some decl.sig.name
    | _ => none

theorem declaredNames_declared (sigs : List MethodSig) :
    declaredNames (sigs.map Target.declared) = sigs.map (·.name) := by
  rw [declaredNames, List.filterMap_map]
  exact congrFun List.filterMap_eq_map sigs

namespace Target

variable {t : Target}

/-! ## contracts -/

/-- What features that are fields contribute to a contract: their getters. -/
theorem exists_getterSigs {fields : List OwnedField} {lists : List (List Item)}
    (h : List.Forall₂ (fun f items => Yields (t.contractItems (.field f)) items) fields lists) :
    ∃ sigs : List MethodSig, lists.flatten = sigs.map declared ∧
      t.registry.Getters fields (sigs.map (·.name)) := by
  induction h with
  | nil => exact ⟨[], rfl, rfl⟩
  | @cons f items fields lists hitems _ ih =>
      obtain ⟨sigs, hflatten, hnames⟩ := ih
      obtain ⟨sig, hsig, hpure⟩ := hitems.bind
      rw [Yields.pure_iff] at hpure
      refine ⟨sig :: sigs, ?_, ?_⟩
      · rw [List.flatten_cons, hflatten, ← hpure]
        rfl
      · rw [Registry.Getters] at hnames ⊢
        rw [List.map_cons, List.map_cons, List.map_cons, hnames, name_of_fieldGetter hsig]

theorem names_offsetSigs {sigs : List MethodSig} (h : t.offsetSigs = .ok sigs) :
    t.Structural offsetCategories (sigs.map (·.name)) := by
  simp only [offsetSigs, bind_eq_ok, pure_eq_ok] at h
  obtain ⟨existsName, hexists, getName, hget, setName, hset, unsetName, hunset, rfl⟩ := h
  simp [Structural, plainSig, offsetCategories, name?_of_structuralName hexists,
    name?_of_structuralName hget, name?_of_structuralName hset, name?_of_structuralName hunset]

/-- The structural names that the contract of a dictionary declares. -/
def contractCategories (d : Definition) : List NameCategory :=
  (if d.isRoot then offsetCategories else []) ++ [.cast]

/-- The contract of a record declares the getters of its fields, keyed access if it has no
parent, and the cast. -/
theorem names_dictionaryContract (hrecord : t.definition.IsRecord) {decl : ClassDecl}
    (h : Yields t.dictionaryContract decl) :
    ∃ getters others, declaredNames decl.items = getters ++ others ∧
      t.registry.Getters t.definition.ownFields getters ∧
      t.Structural (contractCategories t.definition) others := by
  rw [dictionaryContract] at h
  simp only [ite_bind] at h
  obtain ⟨members, hmembers, h⟩ := h.bind
  obtain ⟨offsets, hoffsets, h⟩ := h.bind
  obtain ⟨cast, hcast, h⟩ := h.bind
  rw [Yields.lift_iff] at hcast
  rw [Yields.pure_iff] at h
  subst h
  -- the three parts are signatures that are declared
  obtain ⟨lists, hlists, hmembers⟩ := hmembers.bind
  rw [Yields.pure_iff] at hmembers
  rw [hrecord.features] at hlists
  have hfields := hlists.forall₂_mapM
  rw [List.forall₂_map_left_iff] at hfields
  obtain ⟨getterSigs, hgetterSigs, hgetters⟩ := exists_getterSigs hfields
  have hkeyed : ∃ offsetSigs : List MethodSig, offsets = offsetSigs.map declared ∧
      t.Structural (if t.definition.isRoot then offsetCategories else [])
        (offsetSigs.map (·.name)) := by
    rcases hoffsets.of_ite with ⟨hroot, hyields⟩ | ⟨hnot, rfl⟩
    · obtain ⟨sigs, hsigs, hyields⟩ := hyields.bind
      rw [Yields.lift_iff] at hsigs
      rw [Yields.pure_iff] at hyields
      rw [if_pos hroot]
      exact ⟨sigs, hyields.symm, names_offsetSigs hsigs⟩
    · rw [if_neg hnot]
      exact ⟨[], rfl, rfl⟩
  obtain ⟨offsetSigs, rfl, hstructural⟩ := hkeyed
  have hname : t.Structural [.cast] [cast.name] := by
    simp only [castSig, bind_eq_ok, pure_eq_ok] at hcast
    obtain ⟨name, hname, rfl⟩ := hcast
    simp [Structural, plainSig, name?_of_structuralName hname]
  refine ⟨getterSigs.map (·.name), offsetSigs.map (·.name) ++ [cast.name], ?_, hgetters,
    hstructural.append hname⟩
  have hitems : members ++ offsetSigs.map declared ++ [declared cast] =
      (getterSigs ++ offsetSigs ++ [cast]).map declared := by
    rw [← hmembers, hgetterSigs]
    simp
  rw [interfaceDecl, hitems, declaredNames_declared]
  simp

/-- A dictionary has a contract. -/
theorem yields_dictionaryContract (hkind : t.definition.kind = .dictionary)
    {found : Option ClassDecl} (h : Yields (t.decl .contract) found) :
    ∃ decl, found = some decl ∧ Yields t.dictionaryContract decl := by
  obtain ⟨decl, hdecl, h⟩ := h.bind
  rw [Yields.pure_iff] at h
  rw [Target.contract, hkind] at hdecl
  exact ⟨decl, h.symm, hdecl⟩

end Target

end Artifact

namespace Registry

open WebIdl.Artifact
open WebIdl.Code
open Resolver (Settled)

variable {options : IngestOptions} {nodes : List Node} {r : Registry} {root : String}
  {d : Definition}

/-- The methods that the contract of a definition declares. -/
def declaredIn (r : Registry) (root : String) (d : Definition) : List String :=
  declaredNames (r.bodyOf root d.name .contract)

/-- A getter of a field of a record, or a structural method of its contract. -/
theorem mem_declaredIn (hd : r.get? d.name = some d) (hrecord : d.IsRecord)
    {found : Option File} (h : r.file? root d.name .contract = .ok found) {name : String} :
    name ∈ r.declaredIn root d ↔
      (∃ f ∈ d.ownFields, r.name? f.owner.name .getter f.decl.name = some name) ∨
      ∃ category ∈ Target.contractCategories d, r.name? d.name category "" = some name := by
  obtain ⟨decl, hdecl, hyields⟩ :=
    Target.yields_dictionaryContract hrecord.kind (yields_of_file? hd h)
  obtain ⟨getters, others, hnames, hgetters, hothers⟩ :=
    Target.names_dictionaryContract hrecord hyields
  rw [declaredIn, bodyOf_eq h, hdecl, Target.bodyOf, Option.map_some, Option.getD_some, hnames,
    List.mem_append, hgetters.mem_iff, hothers.mem_iff]
  rfl

/-! ## names along a chain -/

section

variable (h : build options nodes = .ok r) (hd : d ∈ r.definitions)
include h hd

theorem reaches_of_chain {x : Definition} (hx : x ∈ d :: r.ancestors d) :
    r.toCatalog.Reaches d.name x.name :=
  reaches_of_owner h hd hx (r.self_mem_owners x)

theorem known_of_chain {x : Definition} (hx : x ∈ d :: r.ancestors d) :
    r.get? x.name = some x :=
  (lineage_of_build h hd).known ((wellFormed_of_build h).get?_of_mem hd) x hx

variable {x y : Definition} (hx : x ∈ d :: r.ancestors d) (hy : y ∈ d :: r.ancestors d)
  {category category' : NameCategory} {key key' a b : String}
include hx

/-- No entry along a chain is a reserved word. -/
theorem differ_of_chain_word (hname : r.name? x.name category key = some a) {word : String}
    (hword : word ∈ Identifier.reserved) : Differ a word :=
  differ_of_word h (known_of_chain h hd hx) (r.self_mem_owners x) hname hword

include hy

/-- Entries along a chain that are not for one category and key differ. -/
theorem differ_of_chain (hname : r.name? x.name category key = some a)
    (hname' : r.name? y.name category' key' = some b) (hne : category = category' → key ≠ key') :
    Differ a b := by
  obtain ⟨hsettled, -⟩ := settled_of_build h
  rw [differ_iff]
  intro hsame
  obtain ⟨hcategory, hkey⟩ := Settled.same_entry (wellFormed_of_build h) hsettled
    (resolved_of_reaches h hd ReflTransGen.refl) (reaches_of_chain h hd hx)
    (reaches_of_chain h hd hy) hname hname' hsame
  exact hne hcategory hkey

/-- A field that is declared again has a getter of its own. -/
theorem differ_of_records (hrecord : x.IsRecord) (hrecord' : y.IsRecord)
    (hne : x.name ≠ y.name) (hname : r.name? x.name .getter key = some a)
    (hname' : r.name? y.name .getter key = some b) : Differ a b := by
  obtain ⟨hsettled, -⟩ := settled_of_build h
  have hown : ∀ {o ident}, o ∈ d :: r.ancestors d → o.IsRecord →
      r.name? o.name .getter key = some ident →
      ⟨.getter, ident⟩ ∈ r.names.reservations o.name := by
    intro o ident ho hrecord hentry
    refine hsettled.introduced_of_own (known_of_chain h hd ho) hentry rfl ?_
    intro _ member hmember decl hkind
    have hfield := hrecord.members member hmember
    simp [Member.field?, hkind] at hfield
  rw [differ_iff]
  intro hsame
  have hmeet := Settled.compatible (wellFormed_of_build h) hsettled
    (resolved_of_reaches h hd ReflTransGen.refl) (reaches_of_chain h hd hx)
    (reaches_of_chain h hd hy) hne (hown hx hrecord hname) (hown hy hrecord' hname') hsame
  cases hmeet.2

end

/-- No two fields of a chain of records have both their owner and their name in common. -/
theorem pairwise_chainFields {chain : List Definition} (hnodup : (chain.map (·.name)).Nodup)
    (hrecords : ∀ x ∈ chain, x.IsRecord) :
    (chainFields chain).Pairwise fun f g =>
      f.owner.name ≠ g.owner.name ∨ f.decl.name ≠ g.decl.name := by
  rw [chainFields_eq, List.pairwise_flatMap]
  constructor
  · intro x hx
    have hdistinct := (hrecords x (List.mem_reverse.mp hx)).distinct
    rw [List.Nodup, List.pairwise_map] at hdistinct
    rw [Definition.ownFields, List.pairwise_map]
    exact hdistinct.imp fun hne => Or.inr hne
  · rw [List.Nodup, List.pairwise_map] at hnodup
    rw [List.pairwise_reverse]
    refine hnodup.imp fun {x y} hne f hf g hg => Or.inl ?_
    obtain ⟨_, -, rfl⟩ := List.mem_map.mp hf
    obtain ⟨_, -, rfl⟩ := List.mem_map.mp hg
    exact fun hsame => hne hsame.symm

/-- The getters of a chain of records differ. -/
theorem pairwise_getters (h : build options nodes = .ok r) (hd : d ∈ r.definitions)
    (hrecords : ∀ x ∈ d :: r.ancestors d, x.IsRecord) {names : List String}
    (hnames : r.Getters (chainFields (d :: r.ancestors d)) names) : names.Pairwise Differ := by
  have hnodup := (lineage_of_build h hd).nodup ((wellFormed_of_build h).get?_of_mem hd)
    (acyclic_of_build h)
  have hpairs : (names.map some).Pairwise fun x y =>
      ∀ a b, x = some a → y = some b → Differ a b := by
    rw [hnames, List.pairwise_map]
    refine (pairwise_chainFields hnodup hrecords).imp_of_mem ?_
    intro f g hf hg hapart a b ha hb
    have hf' := (mem_chainFields.mp hf).1
    have hg' := (mem_chainFields.mp hg).1
    by_cases hkey : f.decl.name = g.decl.name
    · rw [← hkey] at hb
      exact differ_of_records h hd hf' hg' (hrecords _ hf') (hrecords _ hg')
        (hapart.resolve_right (absurd hkey)) ha hb
    · exact differ_of_chain h hd hf' hg' ha hb fun _ => hkey
  rw [List.pairwise_map] at hpairs
  exact hpairs.imp fun hab => hab _ _ rfl rfl

/-- The getters of a chain of records and the structural names of the dictionary differ, and
none of them constructs. -/
theorem pairwise_methods (h : build options nodes = .ok r) (hd : d ∈ r.definitions)
    (hrecords : ∀ x ∈ d :: r.ancestors d, x.IsRecord) {getters others : List String}
    (hgetters : r.Getters (chainFields (d :: r.ancestors d)) getters)
    (hothers : Target.Structural { registry := r, root, definition := d }
      (.cast :: offsetCategories) others) :
    ("__construct" :: (getters ++ others)).Pairwise Differ := by
  have hget := (wellFormed_of_build h).get?_of_mem hd
  have hfield : ∀ name ∈ getters, ∃ x ∈ d :: r.ancestors d, ∃ key,
      r.name? x.name .getter key = some name := by
    intro name hname
    obtain ⟨f, hf, hentry⟩ := hgetters.mem_iff.mp hname
    exact ⟨f.owner, (mem_chainFields.mp hf).1, f.decl.name, hentry⟩
  rw [List.pairwise_cons, List.pairwise_append]
  refine ⟨fun name hname => ?_, pairwise_getters h hd hrecords hgetters,
    hothers.pairwise h hget (by decide), fun getter hgetter other hother => ?_⟩
  · rcases List.mem_append.mp hname with hname | hname
    · obtain ⟨x, hx, key, hentry⟩ := hfield name hname
      exact (differ_of_chain_word h hd hx hentry (by decide)).symm
    · obtain ⟨category, -, hentry⟩ := hothers.mem_iff.mp hname
      exact (differ_of_chain_word h hd List.mem_cons_self hentry (by decide)).symm
  · obtain ⟨x, hx, key, hentry⟩ := hfield getter hgetter
    obtain ⟨category, hcategory, hentry'⟩ := hothers.mem_iff.mp hother
    have hother : ∀ category ∈ NameCategory.cast :: offsetCategories,
        NameCategory.getter ≠ category := by decide
    exact differ_of_chain h hd hx List.mem_cons_self hentry hentry' fun hsame =>
      absurd hsame (hother category hcategory)

theorem contractCategories_subset (x : Definition) :
    Target.contractCategories x ⊆ .cast :: offsetCategories := by
  rw [Target.contractCategories]
  cases x.isRoot <;> decide

/-- The getters of a chain of records, and the structural names of the dictionary, are what
the contracts of the chain declare. -/
theorem mem_methods_iff (h : build options nodes = .ok r) (hd : d ∈ r.definitions)
    (hrecords : ∀ x ∈ d :: r.ancestors d, x.IsRecord)
    (hcontracts : ∀ x ∈ d :: r.ancestors d, ∃ found, r.file? root x.name .contract = .ok found)
    {getters others : List String}
    (hgetters : r.Getters (chainFields (d :: r.ancestors d)) getters)
    (hothers : Target.Structural { registry := r, root, definition := d }
      (.cast :: offsetCategories) others) {name : String} :
    name ∈ getters ++ others ↔ ∃ x ∈ d :: r.ancestors d, name ∈ r.declaredIn root x := by
  have hstructural : ∀ category ∈ NameCategory.cast :: offsetCategories,
      category.isStructural = true := by decide
  have hdeclared : ∀ x ∈ d :: r.ancestors d, (name ∈ r.declaredIn root x ↔
      (∃ f ∈ x.ownFields, r.name? f.owner.name .getter f.decl.name = some name) ∨
      ∃ category ∈ Target.contractCategories x, r.name? x.name category "" = some name) := by
    intro x hx
    obtain ⟨found, hfound⟩ := hcontracts x hx
    exact mem_declaredIn (known_of_chain h hd hx) (hrecords x hx) hfound
  rw [List.mem_append, hgetters.mem_iff, hothers.mem_iff]
  constructor
  · rintro (⟨f, hf, hname⟩ | ⟨category, hcategory, hname⟩)
    · obtain ⟨howner, hdecl⟩ := mem_chainFields.mp hf
      exact ⟨f.owner, howner, (hdeclared f.owner howner).mpr
        (Or.inl ⟨f, List.mem_map_of_mem hdecl, hname⟩)⟩
    · rcases List.mem_cons.mp hcategory with rfl | hoffset
      · exact ⟨d, List.mem_cons_self, (hdeclared d List.mem_cons_self).mpr
          (Or.inr ⟨.cast, by simp [Target.contractCategories], hname⟩)⟩
      · -- keyed access is declared where the chain ends, under the same names
        obtain ⟨x, hx, hroot, -⟩ := (lineage_of_build h hd).exists_root
        have hmem : category ∈ Target.contractCategories x := by
          rw [Target.contractCategories, Definition.isRoot, hroot]
          exact List.mem_append_left _ hoffset
        obtain ⟨ident, hident⟩ := exists_name h (Catalog.mem_of_get? (known_of_chain h hd hx))
          (.dictionary (hrecords x hx).kind hoffset)
        have hsame := structural_names_are_shared h hd (reaches_of_chain h hd List.mem_cons_self)
          (reaches_of_chain h hd hx) (hstructural category hcategory) hname hident
        exact ⟨x, hx, (hdeclared x hx).mpr (Or.inr ⟨category, hmem, hsame ▸ hident⟩)⟩
  · rintro ⟨x, hx, hmem⟩
    rcases (hdeclared x hx).mp hmem with ⟨f, hf, hname⟩ | ⟨category, hcategory, hname⟩
    · obtain ⟨decl, hdecl, rfl⟩ := List.mem_map.mp hf
      exact Or.inl ⟨_, mem_chainFields.mpr ⟨hx, hdecl⟩, hname⟩
    · have hmem := contractCategories_subset x hcategory
      obtain ⟨ident, hident⟩ := hothers.exists_ident hmem
      have hsame := structural_names_are_shared h hd (reaches_of_chain h hd hx)
        (reaches_of_chain h hd List.mem_cons_self) (hstructural category hmem) hname hident
      exact Or.inr ⟨category, hmem, hsame ▸ hident⟩

/-- The structural names of a dictionary are its cast and the names that keyed access has. -/
theorem names_of_structural (h : build options nodes = .ok r) (hd : d ∈ r.definitions)
    {cast : String} (hcast : r.name? d.name .cast "" = some cast) {names : List String}
    (hnames : Target.Structural { registry := r, root, definition := d }
      (.cast :: offsetCategories) names) :
    names = [cast, "offsetExists", "offsetGet", "offsetSet", "offsetUnset"] := by
  have hprotocol : ∀ category ∈ offsetCategories, category.protocol?.isSome = true := by decide
  have hfixed : ∀ category ∈ offsetCategories,
      r.name? d.name category "" = category.structuralName? := by
    intro category hcategory
    obtain ⟨ident, hident⟩ := hnames.exists_ident (List.mem_cons_of_mem .cast hcategory)
    rw [Settled.protocol_name (wellFormed_of_build h) (settled_of_build h).1
      (resolved_of_reaches h hd ReflTransGen.refl) hident (hprotocol category hcategory)]
    exact hident
  have hlist : names.map some = r.name? d.name .cast "" ::
      offsetCategories.map fun category => r.name? d.name category "" := hnames
  rw [hcast, List.map_congr_left hfixed] at hlist
  exact List.map_injective_iff.mpr (Option.some_injective String) hlist

/-- The methods of the objects that a cast makes, the constructor apart: those of the class
and those of the trait that it uses. -/
def objectMethods (cls : AnonymousClass) (usedTrait : File) : List String :=
  cls.methods.map (·.sig.name) ++ definedNames usedTrait.decl.items

/-- **The cast of a dictionary makes complete objects.**  Let a dictionary and all that it
inherits from have fields of different names and nothing else.  The class that its cast makes
objects of, together with the defaults of the dictionary, has every method once that a
contract of the chain declares, and no other but a constructor: a getter for each field of
the chain, the cast, and keyed access.  The cast has a branch for each ancestor, the nearest
first, which lists the fields that the defaults of the ancestor expose, in the same order and
with the same getters. -/
theorem cast_makes_complete_objects (h : build options nodes = .ok r) {d : Definition}
    (hd : d ∈ r.definitions) (hrecords : ∀ x ∈ d :: r.ancestors d, x.IsRecord) {root : String}
    {found : Option File} (hdefaults : r.file? root d.name .defaults = .ok found)
    (hcontracts : ∀ x ∈ d :: r.ancestors d, ∃ found, r.file? root x.name .contract = .ok found) :
    ∃ file sig stmts cls accessors branches others, found = some file ∧
      file.decl.items = .method { sig, body := .factory stmts cls } :: accessors ∧
      r.name? d.name .cast "" = some sig.name ∧
      cls.contract = ArtifactKind.contract.qualify root d.name ∧
      cls.usedTrait = ArtifactKind.defaults.qualify root d.name ∧
      ("__construct" :: objectMethods cls file).Pairwise Differ ∧
      (∀ name, name ∈ objectMethods cls file ↔
        ∃ x ∈ d :: r.ancestors d, name ∈ r.declaredIn root x) ∧
      r.Getters (chainFields (d :: r.ancestors d)) (cls.methods.map (·.sig.name)) ∧
      definedNames file.decl.items =
        [sig.name, "offsetExists", "offsetGet", "offsetSet", "offsetUnset"] ∧
      r.toCatalog.Lineage d (r.ancestors d) ∧
      stmts = ifInstance (ArtifactKind.contract.qualify root d.name) [.plain "return $value;"] ::
        branches ++ others ∧ Stmt.entriesAll others = [] ∧
      List.Forall₂ (fun a branch => ∃ file body,
        r.file? root a.name .defaults = .ok (some file) ∧
        branch = ifInstance (ArtifactKind.contract.qualify root a.name) body ∧
        Stmt.entriesAll body = exposes file.decl.items ∧
        r.Reads (chainFields (a :: r.ancestors a)) (Stmt.entriesAll body)) (r.ancestors d)
        branches := by
  have hget := (wellFormed_of_build h).get?_of_mem hd
  have hkinds : ∀ x ∈ d :: r.ancestors d, x.kind = .dictionary := fun x hx => (hrecords x hx).kind
  obtain ⟨file, rfl, hyields⟩ := dictionary_of_file? hget (hkinds d List.mem_cons_self) hdefaults
  obtain ⟨sig, stmts, cls, accessors, hitems, hcast, hstructural, -⟩ :=
    Target.castOf_dictionaryDefaults hyields
  obtain ⟨branches, others, hstmts, hbranches, hothers⟩ := hcast.branches
  exact ⟨file, sig, stmts, cls, accessors, branches, others, rfl, hitems, hcast.name,
    hcast.contract, hcast.usedTrait, pairwise_methods h hd hrecords hcast.methods hstructural,
    fun name => mem_methods_iff h hd hrecords hcontracts hcast.methods hstructural, hcast.methods,
    names_of_structural h hd hcast.name hstructural, lineage_of_build h hd, hstmts, hothers,
    branches_of_cast h hd hkinds hdefaults hbranches⟩

/-- Three dictionaries, each of which inherits from the one before; the second one declares a
field again. -/
def crateNodes : List Node :=
  [.definition { name := "Size", kind := .dictionary, members := [fieldNamed "width" "long"] },
   .definition {
      name := "Box", kind := .dictionary, parent := some "Size",
      members := [fieldNamed "width" "long", fieldNamed "depth" "long"] },
   .definition {
      name := "Crate", kind := .dictionary, parent := some "Box",
      members := [fieldNamed "lid" "boolean"] }]

/-- The objects of the last of three dictionaries have all methods of their contracts. -/
theorem crates_are_complete :
    ∃ r d file sig stmts cls accessors, build {} crateNodes = .ok r ∧ d ∈ r.definitions ∧
      d.name = "Crate" ∧ (r.ancestors d).map (·.name) = ["Box", "Size"] ∧
      (∀ x ∈ d :: r.ancestors d, x.IsRecord ∧ r.Complete "Site" x) ∧
      r.file? "Site" d.name .defaults = .ok (some file) ∧
      file.decl.items = .method { sig, body := .factory stmts cls } :: accessors ∧
      objectMethods cls file = ["getWidth", "_1_getWidth", "getDepth", "getLid", "cast",
        "offsetExists", "offsetGet", "offsetSet", "offsetUnset"] ∧
      ∀ name, name ∈ objectMethods cls file ↔
        ∃ x ∈ d :: r.ancestors d, name ∈ r.declaredIn "Site" x := by
  have hbuild : (build {} crateNodes).toOption.map (fun r => (r.get? "Crate").map fun d =>
      ((r.ancestors d).map (·.name),
       decide (∀ x ∈ d :: r.ancestors d, x.IsRecord ∧ r.isComplete "Site" x = true),
       r.name? d.name .cast "", (chainFields (d :: r.ancestors d)).map fun f =>
        r.name? f.owner.name .getter f.decl.name)) =
      some (some (["Box", "Size"], true, some "cast",
        [some "getWidth", some "_1_getWidth", some "getDepth", some "getLid"])) := by
    decide +kernel
  obtain ⟨r, hr, hfound⟩ := ok_of_toOption_map hbuild
  obtain ⟨d, hget, hfacts⟩ := Option.map_eq_some_iff.mp hfound
  obtain ⟨hancestors, hchain, hcast, hgetters⟩ := by simpa only [Prod.mk.injEq] using hfacts
  have hd := Catalog.mem_of_get? hget
  have hall : ∀ x ∈ d :: r.ancestors d, x.IsRecord ∧ r.Complete "Site" x := fun x hx =>
    ⟨(of_decide_eq_true hchain x hx).1, complete_of_check (of_decide_eq_true hchain x hx).2⟩
  obtain ⟨found, hdefaults⟩ := (hall d List.mem_cons_self).2 .defaults
  obtain ⟨file, sig, stmts, cls, accessors, -, -, rfl, hitems, hname, -, -, -, hmethods, hnames,
    hdefined, -⟩ := cast_makes_complete_objects hr hd (fun x hx => (hall x hx).1) hdefaults
      fun x hx => (hall x hx).2 .contract
  refine ⟨r, d, file, sig, stmts, cls, accessors, hr, hd, Catalog.name_of_get? hget, hancestors,
    hall, hdefaults, hitems, ?_, hmethods⟩
  rw [hcast, Option.some.injEq] at hname
  rw [Getters, hgetters] at hnames
  have hlist : cls.methods.map (·.sig.name) =
      ["getWidth", "_1_getWidth", "getDepth", "getLid"] :=
    List.map_injective_iff.mpr (Option.some_injective String) hnames
  rw [objectMethods, hlist, hdefined, ← hname]
  rfl

end Registry

end WebIdl
