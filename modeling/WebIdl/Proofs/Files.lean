import WebIdl.Proofs.Capability
import WebIdl.Proofs.Emission
import WebIdl.Proofs.Surface

/-!
# WebIdl.Proofs.Files

What the files of an interface declare and define as a whole: the contract, the defaults
with the container protocols, and the scaffold.  What the defaults are put together from is
said once (`DefaultParts`), and so are the names that they define (`DefaultParts.names_all`).
Every method of a file comes from a feature, from a protocol or from a reserved word
(`declares_interfaceContract`, `scaffold_origin`, `DefaultParts.origin`).
-/

namespace WebIdl.Artifact

open WebIdl.Code
open WebIdl.Registry (IsAccessor)

/-- The categories of keyed access. -/
def offsetCategories : List NameCategory :=
  [.exists, .get, .set, .unset]

namespace Target

variable {t : Target} {caps : Capabilities} {items : List Item} {name : String}

theorem name?_of_structuralName {category : NameCategory} {ident : String}
    (h : t.structuralName category = .ok ident) :
    t.registry.name? t.name category "" = some ident :=
  Registry.name?_of_nameOf h

/-- The definition has a structural name, which some items define. -/
def DefinesOwn (t : Target) (items : List Item) (category : NameCategory) : Prop :=
  ∃ ident, t.registry.name? t.name category "" = some ident ∧ Defines items ident

/-- Names are those that a definition has for structural categories. -/
def Structural (t : Target) (categories : List NameCategory) (names : List String) : Prop :=
  names.map some = categories.map fun category => t.registry.name? t.name category ""

theorem Structural.append {categories categories' : List NameCategory}
    {names names' : List String} (h : t.Structural categories names)
    (h' : t.Structural categories' names') :
    t.Structural (categories ++ categories') (names ++ names') := by
  rw [Structural, List.map_append, List.map_append, h, h']

theorem Structural.mem_iff {categories : List NameCategory} {names : List String}
    (h : t.Structural categories names) :
    name ∈ names ↔ ∃ category ∈ categories, t.registry.name? t.name category "" = some name := by
  have hsome : name ∈ names ↔ some name ∈ names.map some := by simp
  rw [hsome, h, List.mem_map]

theorem Structural.exists_ident {categories : List NameCategory} {names : List String}
    (h : t.Structural categories names) {category : NameCategory}
    (hcategory : category ∈ categories) :
    ∃ ident, t.registry.name? t.name category "" = some ident := by
  have hmem : t.registry.name? t.name category "" ∈ names.map some := by
    rw [h]
    exact List.mem_map_of_mem hcategory
  obtain ⟨ident, -, hident⟩ := List.mem_map.mp hmem
  exact ⟨ident, hident.symm⟩

/-! ## features -/

/-- What a feature contributes to a file; static attributes have no part in the defaults. -/
def itemsFor (t : Target) (kind : ArtifactKind) (feature : Feature) : Draft (List Item) :=
  match kind with
  | .contract => t.contractItems feature
  | .scaffold => t.scaffoldItems feature
  | .defaults =>
    match feature with
    | .attribute a => if a.isStatic then pure [] else t.attributeItems a
    | _ => pure []

/-- A file has a method for a feature. -/
def Writes (t : Target) (kind : ArtifactKind) (feature : Feature) (method : Method) : Prop :=
  ∃ items, Yields (t.itemsFor kind feature) items ∧ .method method ∈ items

/-- The defaults have methods for instance attributes only. -/
theorem Writes.of_defaults {a : OwnedAttribute} {method : Method}
    (h : t.Writes .defaults (.attribute a) method) :
    a.isStatic = false ∧ ∃ items, Yields (t.attributeItems a) items ∧ .method method ∈ items := by
  obtain ⟨items, hyields, hmem⟩ := h
  rw [itemsFor] at hyields
  cases hstatic : a.isStatic with
  | true =>
      simp only [hstatic, if_true, Yields.pure_iff] at hyields
      rw [← hyields] at hmem
      cases hmem
  | false =>
      simp only [hstatic, Bool.false_eq_true, if_false] at hyields
      exact ⟨rfl, items, hyields, hmem⟩

/-! ## container protocols -/

/-- Keyed access defines its four accessors, if it applies. -/
theorem structural_keyed
    (h : Yields (if caps.keyed = true then (do t.keyedItems caps (← t.inheritsKeyed)) else pure [])
      items) : t.Structural (if caps.keyed then offsetCategories else []) (definedNames items) := by
  rcases h.of_ite with ⟨hkeyed, h⟩ | ⟨hnot, rfl⟩
  · obtain ⟨inherited, -, h⟩ := h.bind
    rw [Yields.lift_iff] at h
    simp only [keyedItems, ite_bind, bind_eq_ok, pure_eq_ok] at h
    obtain ⟨getters, -, setters, -, deleters, -, count, -, existsName, hexists, getName, hget,
      setName, hset, unsetName, hunset, h⟩ := h
    rw [if_pos hkeyed, ← h]
    simp only [Structural, offsetCategories, List.map_cons, List.map_nil,
      name?_of_structuralName hexists, name?_of_structuralName hget,
      name?_of_structuralName hset, name?_of_structuralName hunset]
    rfl
  · rw [if_neg hnot]
    rfl

/-- The getter to count by is there if something counts. -/
theorem isSome_of_countGetter? {found : Option String}
    (h : t.registry.countGetter? caps = .ok found) : found.isSome = caps.counts := by
  rw [Registry.countGetter?] at h
  rw [Capabilities.counts]
  cases hcount : caps.count with
  | none =>
      rw [hcount, Except.ok.injEq] at h
      rw [← h]
      rfl
  | some source =>
      rw [hcount, bind_eq_ok] at h
      obtain ⟨ident, -, h⟩ := h
      rw [pure_eq_ok] at h
      rw [← h]
      rfl

/-- Counting defines the counter, if something counts. -/
theorem structural_countItems (h : t.countItems caps = .ok items) :
    t.Structural (if caps.counts then [.count] else []) (definedNames items) := by
  rw [countItems, bind_eq_ok] at h
  obtain ⟨getter, hgetter, h⟩ := h
  rw [← isSome_of_countGetter? hgetter]
  cases getter with
  | none =>
      rw [pure_eq_ok] at h
      rw [← h]
      rfl
  | some getter =>
      obtain ⟨counter, hcounter, h⟩ := bind_eq_ok.mp h
      rw [pure_eq_ok] at h
      rw [Option.isSome_some, if_pos rfl, Structural, List.map_singleton,
        name?_of_structuralName hcounter, ← h]
      rfl

/-- The method of a role is there if something plays it. -/
theorem isSome_of_method? {kind : SpecialKind} {found : Option String}
    (h : t.registry.method? caps kind = .ok found) : found.isSome = caps.hasSpecial kind := by
  rw [Registry.method?] at h
  rw [Capabilities.hasSpecial]
  cases hsource : caps.special? kind with
  | none =>
      rw [hsource, Except.ok.injEq] at h
      rw [← h]
      rfl
  | some source =>
      rw [hsource, bind_eq_ok] at h
      obtain ⟨ident, -, h⟩ := h
      rw [pure_eq_ok] at h
      rw [← h]
      rfl

/-- A stringifier defines the conversion to a string, if there is one. -/
theorem names_stringifierItems (h : t.stringifierItems caps = .ok items) :
    definedNames items = if caps.stringifies then ["__toString"] else [] := by
  rw [stringifierItems, bind_eq_ok] at h
  obtain ⟨method, hmethod, h⟩ := h
  rw [Capabilities.stringifies, ← isSome_of_method? hmethod]
  cases method with
  | none =>
      rw [pure_eq_ok] at h
      rw [← h]
      rfl
  | some method =>
      rw [pure_eq_ok] at h
      rw [← h]
      rfl

/-- A surface on which the indexed getter is played has a first one. -/
theorem isSome_of_firstIndexedResult? {surface : List SurfaceMember} {value : Option IdlType}
    (h : t.registry.firstIndexedResult? surface = .ok value) {item : SurfaceMember}
    (hitem : item ∈ surface) (hplays : item.Plays t.registry.toCatalog .indexedGetter) :
    value.isSome = true := by
  induction surface with
  | nil => cases hitem
  | cons next rest ih =>
      rw [Registry.firstIndexedResult?, bind_eq_ok] at h
      obtain ⟨found, hfound, h⟩ := h
      cases found with
      | some type =>
          rw [pure_eq_ok] at h
          rw [← h]
          rfl
      | none =>
          cases hitem with
          | tail _ hitem => exact ih h hitem
          | head =>
              cases hplays with
              | operation hkind hrole =>
                  rw [Registry.indexedResult?, hkind, bind_eq_ok] at hfound
                  obtain ⟨role, hrole', hfound⟩ := hfound
                  rw [hrole, Except.ok.injEq] at hrole'
                  rw [← hrole', if_pos (by simp), pure_eq_ok] at hfound
                  cases hfound

/-- A signature is that of the iterator which follows from counting and indexed access. -/
def DerivedIterator (t : Target) (sig : MethodSig) : Prop :=
  ∃ ident value, t.registry.name? t.name .iterator "" = some ident ∧
    t.registry.firstIndexedResult? (t.registry.surface t.definition) = .ok (some value) ∧
    Yields (t.iterator ident none value) sig

namespace DerivedIterator

variable {sig sig' : MethodSig}

/-- The iterator that follows has the structural name. -/
theorem entry (h : t.DerivedIterator sig) :
    t.registry.name? t.name .iterator "" = some sig.name := by
  obtain ⟨ident, value, hident, -, hsig⟩ := h
  rw [hident, name_of_iterator hsig]

/-- Only one iterator follows. -/
theorem unique (h : t.DerivedIterator sig) (h' : t.DerivedIterator sig') : sig' = sig := by
  obtain ⟨ident, value, hident, hvalue, hsig⟩ := h
  obtain ⟨ident', value', hident', hvalue', hsig'⟩ := h'
  rw [hident, Option.some.injEq] at hident'
  rw [hvalue, Except.ok.injEq, Option.some.injEq] at hvalue'
  rw [← hident', ← hvalue'] at hsig'
  exact t.steady_iterator _ _ _ _ _ hsig' hsig

end DerivedIterator

/-- The iterator that the contract has beside its members follows. -/
theorem derivedIterator_of_contract {method : Method} (h : Yields t.derivedIterator items)
    (hmethod : .method method ∈ items) : t.DerivedIterator method.sig := by
  obtain ⟨value, hvalue, h⟩ := h.bind
  rw [Yields.lift_iff] at hvalue
  cases value with
  | none =>
      rw [Yields.pure_iff] at h
      rw [← h] at hmethod
      cases hmethod
  | some value =>
      obtain ⟨ident, hident, h⟩ := h.bind
      obtain ⟨sig, hsig, h⟩ := h.bind
      rw [Yields.lift_iff] at hident
      rw [Yields.pure_iff] at h
      rw [← h, List.mem_singleton, declared, Item.method.injEq] at hmethod
      rw [hmethod]
      exact ⟨ident, value, name?_of_structuralName hident, hvalue, hsig⟩

/-- The iterator of the defaults follows. -/
theorem derivedIterator_of_defaults {method : Method} (h : Yields (t.iteratorItems caps) items)
    (hmethod : .method method ∈ items) : t.DerivedIterator method.sig := by
  rw [iteratorItems] at h
  obtain ⟨item, -, h⟩ := h.bind
  obtain ⟨value, hvalue, h⟩ := h.bind
  rw [Yields.lift_iff] at hvalue
  have hnone : Yields (pure []) items → t.DerivedIterator method.sig := by
    intro h
    rw [Yields.pure_iff] at h
    rw [← h] at hmethod
    cases hmethod
  cases item with
  | none => exact hnone h
  | some item =>
      cases value with
      | none => exact hnone h
      | some value =>
          obtain ⟨count, -, h⟩ := h.bind
          obtain ⟨ident, hident, h⟩ := h.bind
          obtain ⟨sig, hsig, h⟩ := h.bind
          rw [Yields.lift_iff] at hident
          rw [Yields.pure_iff] at h
          rw [← h, List.mem_singleton, defined, Item.method.injEq] at hmethod
          rw [hmethod]
          exact ⟨ident, value, name?_of_structuralName hident, hvalue, hsig⟩

/-- The iterator is there if it follows from counting and indexed access. -/
theorem structural_iterator
    (hcaps : Capabilities.of t.registry.toCatalog t.definition = .ok caps)
    (h : Yields (if caps.derivesIterator = true then t.iteratorItems caps else pure []) items) :
    t.Structural (if caps.derivesIterator then [.iterator] else []) (definedNames items) := by
  rcases h.of_ite with ⟨hderives, h⟩ | ⟨hnot, rfl⟩
  · have hspecial : caps.hasSpecial .indexedGetter = true := by
      rw [Capabilities.derivesIterator, Bool.and_eq_true_iff, Bool.and_eq_true_iff] at hderives
      exact hderives.1.1
    rw [iteratorItems] at h
    obtain ⟨item, hitem, h⟩ := h.bind
    obtain ⟨value, hvalue, h⟩ := h.bind
    rw [Yields.lift_iff] at hitem hvalue
    obtain ⟨member, hmember, hplays⟩ := (Capabilities.hasSpecial_iff hcaps).mp hspecial
    obtain ⟨item, rfl⟩ := Option.isSome_iff_exists.mp ((isSome_of_method? hitem).trans hspecial)
    obtain ⟨value, rfl⟩ :=
      Option.isSome_iff_exists.mp (isSome_of_firstIndexedResult? hvalue hmember hplays)
    obtain ⟨count, -, h⟩ := h.bind
    obtain ⟨ident, hident, h⟩ := h.bind
    obtain ⟨sig, hsig, h⟩ := h.bind
    rw [Yields.lift_iff] at hident
    rw [Yields.pure_iff] at h
    rw [if_pos hderives, Structural, List.map_singleton, name?_of_structuralName hident,
      ← name_of_iterator hsig, ← h]
    rfl
  · rw [if_neg hnot]
    rfl

/-! ## the defaults of an interface -/

/-- Whether a definition is an interface without a parent. -/
def isTop (t : Target) : Bool :=
  t.definition.isInterface && t.definition.isRoot

/-- Whether properties are intercepted. -/
def intercepts (t : Target) : Bool :=
  t.definition.isInterface &&
    (t.isTop || !(instanceAttributes (t.registry.surface t.definition)).isEmpty)

/-- What the defaults of an interface or a mixin are put together from. -/
structure DefaultParts (t : Target) (caps : Capabilities) where
  interception : List Item
  accessors : List (List Item)
  keyed : List Item
  count : List Item
  stringifier : List Item
  iterator : List Item
  hinterception : Yields (if t.intercepts = true then (do
      return [← t.propertyGet (instanceAttributes (t.registry.surface t.definition)) t.isTop,
        t.propertySet (instanceAttributes (t.registry.surface t.definition)) t.isTop])
    else pure []) interception
  haccessors : Yields
    ((instanceAttributes (t.registry.surface t.definition)).mapM t.attributeItems) accessors
  hkeyed : Yields
    (if caps.keyed = true then (do t.keyedItems caps (← t.inheritsKeyed)) else pure []) keyed
  hcount : t.countItems caps = .ok count
  hstringifier : t.stringifierItems caps = .ok stringifier
  hiterator : Yields
    (if caps.derivesIterator = true then t.iteratorItems caps else pure []) iterator

/-- The hooks of an interface or a mixin: definitions in an interface without a parent. -/
def hooks (t : Target) (caps : Capabilities) : List Item :=
  if t.isTop then rootHooks else abstractHooks t.intercepts caps.keyed

/-- The parts in order. -/
def DefaultParts.all (parts : t.DefaultParts caps) : List Item :=
  parts.interception ++ t.hooks caps ++ parts.accessors.flatten ++ parts.keyed ++ parts.count ++
    parts.stringifier ++ parts.iterator

/-- The defaults of an interface or a mixin are put together from their parts. -/
theorem exists_defaultParts (h : Yields t.interfaceDefaults items) :
    ∃ caps, Capabilities.of t.registry.toCatalog t.definition = .ok caps ∧
      ∃ parts : t.DefaultParts caps, parts.all = items := by
  rw [interfaceDefaults] at h
  simp only [ite_bind] at h
  obtain ⟨caps, hcaps, h⟩ := h.bind
  obtain ⟨interception, hinterception, h⟩ := h.bind
  obtain ⟨accessors, haccessors, h⟩ := h.bind
  obtain ⟨keyed, hkeyed, h⟩ := h.bind
  obtain ⟨count, hcount, h⟩ := h.bind
  obtain ⟨stringifier, hstringifier, h⟩ := h.bind
  obtain ⟨iterator, hiterator, h⟩ := h.bind
  rw [Yields.lift_iff] at hcaps hcount hstringifier
  rw [Yields.pure_iff] at h
  exact ⟨caps, hcaps, ⟨interception, accessors, keyed, count, stringifier, iterator, hinterception,
    haccessors, hkeyed, hcount, hstringifier, hiterator⟩, h⟩

/-- The reserved methods that defaults define. -/
def words (t : Target) (caps : Capabilities) : List String :=
  (if t.intercepts then ["__get", "__set"] else []) ++
  (if t.isTop then [Identifier.getMissing, Identifier.setMissing, Identifier.undefinedKey]
    else []) ++
  if caps.stringifies then ["__toString"] else []

/-- The categories of the container protocols that defaults implement. -/
def containerCategories (caps : Capabilities) : List NameCategory :=
  (if caps.keyed then offsetCategories else []) ++ (if caps.counts then [.count] else []) ++
  if caps.derivesIterator then [.iterator] else []

theorem structural_containerCategories (caps : Capabilities) :
    ∀ category ∈ containerCategories caps, category.isStructural = true := by
  rw [containerCategories]
  cases caps.keyed <;> cases caps.counts <;> cases caps.derivesIterator <;> decide

theorem names_hooks (t : Target) (caps : Capabilities) : definedNames (t.hooks caps) =
    if t.isTop then [Identifier.getMissing, Identifier.setMissing, Identifier.undefinedKey]
    else [] := by
  rw [hooks]
  cases t.isTop with
  | true => rfl
  | false => cases t.intercepts <;> cases caps.keyed <;> rfl

namespace DefaultParts

variable (parts : t.DefaultParts caps)

theorem names_interception :
    definedNames parts.interception = if t.intercepts then ["__get", "__set"] else [] := by
  rcases parts.hinterception.of_ite with ⟨hyes, h⟩ | ⟨hnot, hnone⟩
  · obtain ⟨get, hget, h⟩ := h.bind
    rw [Yields.lift_iff, propertyGet, bind_eq_ok] at hget
    obtain ⟨arms, -, hget⟩ := hget
    rw [Yields.pure_iff] at h
    rw [pure_eq_ok] at hget
    rw [if_pos hyes, ← h, ← hget]
    rfl
  · rw [if_neg hnot, hnone]
    rfl

/-- The defaults define reserved methods, the accessors of attributes, and the container
protocols. -/
theorem names_all (hcaps : Capabilities.of t.registry.toCatalog t.definition = .ok caps) :
    ∃ containers, t.Structural (containerCategories caps) containers ∧
      (definedNames parts.all).Perm
        (t.words caps ++ definedNames parts.accessors.flatten ++ containers) := by
  refine ⟨_, ((structural_keyed parts.hkeyed).append (structural_countItems parts.hcount)).append
    (structural_iterator hcaps parts.hiterator), ?_⟩
  rw [all, words, ← parts.names_interception, ← t.names_hooks caps,
    ← names_stringifierItems parts.hstringifier]
  simp only [definedNames_append, List.perm_iff_count, List.count_append]
  intro name
  omega

end DefaultParts

/-- The accessors of an attribute that is not static which implement themselves. -/
def DefaultAccessor (t : Target) (name : String) : Prop :=
  ∃ a ∈ instanceAttributes (t.registry.surface t.definition), ∃ category, IsAccessor category ∧
    t.registry.name? a.owner.name category a.decl.name = some name ∧
    t.registry.covers a category = .ok true

/-- The defaults of properties define the accessors that implement themselves. -/
theorem defines_accessors {lists : List (List Item)}
    (h : Yields ((instanceAttributes (t.registry.surface t.definition)).mapM t.attributeItems)
      lists) : Defines lists.flatten name ↔ t.DefaultAccessor name := by
  rw [defines_flatten]
  constructor
  · rintro ⟨items, hitems, hdefines⟩
    obtain ⟨a, ha, hyields⟩ := h.mapM.2 items hitems
    exact ⟨a, ha, (defines_attributeItems hyields).mp hdefines⟩
  · rintro ⟨a, ha, haccessor⟩
    obtain ⟨items, hitems, hyields⟩ := h.mapM.1 a ha
    exact ⟨items, hitems, (defines_attributeItems hyields).mpr haccessor⟩

/-- What the defaults of an interface or a mixin define. -/
theorem DefaultParts.defines_all (parts : t.DefaultParts caps)
    (hcaps : Capabilities.of t.registry.toCatalog t.definition = .ok caps) :
    (∀ category ∈ containerCategories caps,
      ∃ ident, t.registry.name? t.name category "" = some ident) ∧
    ∀ name, Defines parts.all name ↔ name ∈ t.words caps ∨ t.DefaultAccessor name ∨
      ∃ category ∈ containerCategories caps,
        t.registry.name? t.name category "" = some name := by
  obtain ⟨containers, hcontainers, hperm⟩ := parts.names_all hcaps
  refine ⟨fun category hcategory => hcontainers.exists_ident hcategory, fun name => ?_⟩
  rw [← mem_definedNames, hperm.mem_iff, List.mem_append, List.mem_append, mem_definedNames,
    defines_accessors parts.haccessors, hcontainers.mem_iff, or_assoc]

theorem reserved_words (t : Target) (caps : Capabilities) :
    ∀ word ∈ t.words caps, word ∈ Identifier.reserved := by
  rw [words]
  cases t.intercepts <;> cases t.isTop <;> cases caps.stringifies <;> decide

/-- Where a method of the defaults comes from. -/
inductive DefaultOrigin (t : Target) (caps : Capabilities) (method : Method) : Prop where
  | word (hword : method.sig.name ∈ Identifier.reserved)
  | accessor {a : OwnedAttribute}
      (ha : .attribute a ∈ Feature.ofMembers (t.registry.surface t.definition))
      (hwrites : t.Writes .defaults (.attribute a) method)
  | container {category : NameCategory} (hcategory : category ∈ containerCategories caps)
      (hiterator : category ≠ .iterator)
      (hname : t.registry.name? t.name category "" = some method.sig.name)
  | iterator (hderives : caps.derivesIterator = true) (hsig : t.DerivedIterator method.sig)

/-- Every method that the defaults define comes from one of their parts. -/
theorem DefaultParts.origin (parts : t.DefaultParts caps) {method : Method}
    (hmethod : .method method ∈ parts.all) (hcode : hasCode method.body = true) :
    t.DefaultOrigin caps method := by
  have hword : method.sig.name ∈ t.words caps → t.DefaultOrigin caps method := fun hmem =>
    .word (t.reserved_words caps _ hmem)
  have hname : ∀ {part : List Item}, .method method ∈ part →
      method.sig.name ∈ definedNames part := fun hmem =>
    mem_definedNames.mpr (defines_iff.mpr ⟨method, hmem, hcode, rfl⟩)
  simp only [all, List.mem_append] at hmethod
  rcases hmethod with (((((hmem | hmem) | hmem) | hmem) | hmem) | hmem) | hmem
  · have hdefined := hname hmem
    rw [parts.names_interception] at hdefined
    exact hword (by simp [words, hdefined])
  · have hdefined := hname hmem
    rw [t.names_hooks caps] at hdefined
    exact hword (by simp [words, hdefined])
  · obtain ⟨part, hpart, hmem⟩ := List.mem_flatten.mp hmem
    obtain ⟨a, ha, hyields⟩ := parts.haccessors.mapM.2 part hpart
    obtain ⟨hfeature, hstatic⟩ := mem_instanceAttributes.mp ha
    refine .accessor hfeature ⟨part, ?_, hmem⟩
    simpa only [itemsFor, hstatic, Bool.false_eq_true, if_false] using hyields
  · obtain ⟨category, hcategory, hentry⟩ :=
      (structural_keyed parts.hkeyed).mem_iff.mp (hname hmem)
    refine .container (List.mem_append_left _ (List.mem_append_left _ hcategory)) ?_ hentry
    rintro rfl
    split at hcategory
    · exact absurd hcategory (by decide)
    · cases hcategory
  · obtain ⟨category, hcategory, hentry⟩ :=
      (structural_countItems parts.hcount).mem_iff.mp (hname hmem)
    refine .container (List.mem_append_left _ (List.mem_append_right _ hcategory)) ?_ hentry
    rintro rfl
    split at hcategory
    · exact absurd hcategory (by decide)
    · cases hcategory
  · have hdefined := hname hmem
    rw [names_stringifierItems parts.hstringifier] at hdefined
    exact hword (by simp [words, hdefined])
  · rcases parts.hiterator.of_ite with ⟨hderives, hyields⟩ | ⟨-, hnone⟩
    · exact .iterator hderives (derivedIterator_of_defaults hyields hmem)
    · rw [hnone] at hmem
      cases hmem

/-- What the defaults of an interface define. -/
structure DefaultsOf (t : Target) (caps : Capabilities) (items : List Item) : Prop where
  accessor : ∀ name, t.DefaultAccessor name → Defines items name
  offsets : caps.keyed = true → ∀ category ∈ offsetCategories, t.DefinesOwn items category
  count : caps.counts = true → t.DefinesOwn items .count
  stringifier : caps.stringifies = true → Defines items "__toString"
  iterator : caps.derivesIterator = true → t.DefinesOwn items .iterator
  /-- There is nothing else. -/
  origin : ∀ method, .method method ∈ items → hasCode method.body = true →
    t.DefaultOrigin caps method

/-- Beside accessors and reserved methods the defaults define structural methods only. -/
theorem DefaultsOf.only (h : t.DefaultsOf caps items) (hname : Defines items name) :
    name ∈ Identifier.reserved ∨ t.DefaultAccessor name ∨
      ∃ category : NameCategory, category.isStructural = true ∧
        t.registry.name? t.name category "" = some name := by
  obtain ⟨method, hmethod, hcode, rfl⟩ := defines_iff.mp hname
  cases h.origin method hmethod hcode with
  | word hword => exact Or.inl hword
  | @accessor a ha hwrites =>
      obtain ⟨hstatic, part, hpart, hmem⟩ := hwrites.of_defaults
      exact Or.inr (Or.inl ⟨a, mem_instanceAttributes.mpr ⟨ha, hstatic⟩,
        (defines_attributeItems hpart).mp (defines_iff.mpr ⟨method, hmem, hcode, rfl⟩)⟩)
  | container hcategory _ hentry =>
      exact Or.inr (Or.inr ⟨_, structural_containerCategories caps _ hcategory, hentry⟩)
  | iterator _ hsig => exact Or.inr (Or.inr ⟨.iterator, rfl, hsig.entry⟩)

/-- The defaults of an interface define the accessors that implement themselves and the
container protocols. -/
theorem defaultsOf_interfaceDefaults (h : Yields t.interfaceDefaults items) :
    ∃ caps, Capabilities.of t.registry.toCatalog t.definition = .ok caps ∧
      t.DefaultsOf caps items := by
  obtain ⟨caps, hcaps, parts, rfl⟩ := exists_defaultParts h
  refine ⟨caps, hcaps, ?_⟩
  obtain ⟨hnames, hdefines⟩ := parts.defines_all hcaps
  have hown : ∀ category ∈ containerCategories caps, t.DefinesOwn parts.all category := by
    intro category hcategory
    obtain ⟨ident, hident⟩ := hnames category hcategory
    exact ⟨ident, hident, (hdefines ident).mpr (Or.inr (Or.inr ⟨category, hcategory, hident⟩))⟩
  exact {
    accessor := fun name haccessor => (hdefines name).mpr (Or.inr (Or.inl haccessor))
    offsets := fun hyes category hcategory => hown category (by
      simp [containerCategories, hyes, hcategory])
    count := fun hyes => hown .count (by simp [containerCategories, hyes])
    stringifier := fun hyes => (hdefines _).mpr (Or.inl (by simp [words, hyes]))
    iterator := fun hyes => hown .iterator (by simp [containerCategories, hyes])
    origin := fun method hmethod hcode => parts.origin hmethod hcode }

/-! ## files -/

/-- What stands in the body of a class, if there is one. -/
def bodyOf (found : Option ClassDecl) : List Item :=
  (found.map (·.items)).getD []

/-- The defaults of an interface or a mixin, if there are any. -/
theorem defaults_body {found : Option ClassDecl}
    (hkind : t.definition.kind = .interface ∨ t.definition.kind = .mixin)
    (h : Yields t.defaults found) :
    hasDefaults t.registry t.definition = .ok false ∧ bodyOf found = [] ∨
      Yields t.interfaceDefaults (bodyOf found) := by
  obtain ⟨has, hhas, h⟩ := h.bind
  rw [Yields.lift_iff] at hhas
  cases has with
  | true =>
      have hitems : Yields (do
          return some { head := "trait " ++ t.name, items := ← t.interfaceDefaults }) found := by
        rcases hkind with hkind | hkind
        · simpa only [hkind, if_true] using h
        · simpa only [hkind, if_true] using h
      obtain ⟨items, hitems, hfound⟩ := hitems.bind
      rw [Yields.pure_iff] at hfound
      rw [← hfound]
      exact Or.inr hitems
  | false =>
      rw [if_neg Bool.false_ne_true, Yields.pure_iff] at h
      exact Or.inl ⟨hhas, by rw [← h]; rfl⟩

/-- The defaults of an interface are left out only if there is nothing to define. -/
theorem defaultsOf_defaults {found : Option ClassDecl} (hkind : t.definition.kind = .interface)
    (h : Yields t.defaults found) :
    ∃ caps, Capabilities.of t.registry.toCatalog t.definition = .ok caps ∧
      t.DefaultsOf caps (bodyOf found) := by
  rcases defaults_body (Or.inl hkind) h with ⟨hhas, hempty⟩ | hitems
  · simp only [hasDefaults, hkind] at hhas
    split at hhas
    · cases hhas
    · obtain ⟨caps, hcaps, hhas⟩ := bind_eq_ok.mp hhas
      refine ⟨caps, hcaps, ?_⟩
      split at hhas
      · cases hhas
      · next hkeyed =>
          rw [pure_eq_ok, Bool.not_eq_false', List.isEmpty_iff] at hhas
          have hno : ∀ {P : Prop}, caps.keyed = true → P := fun hyes => absurd hyes hkeyed
          rw [hempty]
          exact {
            accessor := fun name haccessor => by
              obtain ⟨a, ha, -⟩ := haccessor
              rw [hhas] at ha
              cases ha
            offsets := fun hyes => hno hyes
            count := fun hyes => hno (Capabilities.keyed_of_counts hyes)
            stringifier := fun hyes => hno (Capabilities.keyed_of_hasSpecial hyes)
            iterator := fun hyes => hno (Capabilities.keyed_of_derivesIterator hyes)
            origin := fun method hmethod => absurd hmethod List.not_mem_nil }
  · exact defaultsOf_interfaceDefaults hitems

/-- The scaffold of an interface or a mixin is what the features of its surface come to, next
to the trait that it uses. -/
theorem scaffold_body {found : Option ClassDecl}
    (hkind : t.definition.kind = .interface ∨ t.definition.kind = .mixin)
    (h : Yields t.scaffold found) :
    ∃ uses lists, bodyOf found = uses ++ lists.flatten ∧
      (∀ item ∈ uses, ∃ used, item = .usedTrait used) ∧
      Yields ((Feature.ofMembers (t.registry.surface t.definition)).mapM t.scaffoldItems)
        lists := by
  have hsurface : Yields (do
      return some (← t.scaffoldOf (t.registry.surface t.definition))) found := by
    rcases hkind with hkind | hkind
    · simpa only [scaffold, hkind] using h
    · simpa only [scaffold, hkind] using h
  obtain ⟨decl, hdecl, hfound⟩ := hsurface.bind
  obtain ⟨has, -, hdecl⟩ := hdecl.bind
  rw [ite_bind] at hdecl
  obtain ⟨uses, huses, hdecl⟩ := hdecl.bind
  obtain ⟨lists, hlists, hdecl⟩ := hdecl.bind
  rw [Yields.pure_iff] at hfound hdecl
  refine ⟨uses, lists, by rw [← hfound, ← hdecl]; rfl, fun item hitem => ?_, hlists⟩
  split at huses
  · rw [Yields.pure_iff] at huses
    rw [← huses, List.mem_singleton] at hitem
    exact ⟨_, hitem⟩
  · rw [Yields.pure_iff] at huses
    rw [← huses] at hitem
    cases hitem

/-- Every method of the scaffold is a stub for a feature of the surface. -/
theorem scaffold_origin {found : Option ClassDecl}
    (hkind : t.definition.kind = .interface ∨ t.definition.kind = .mixin)
    (h : Yields t.scaffold found) {method : Method} (hmethod : .method method ∈ bodyOf found) :
    ∃ feature ∈ Feature.ofMembers (t.registry.surface t.definition),
      t.Writes .scaffold feature method := by
  obtain ⟨uses, lists, hbody, huses, hlists⟩ := scaffold_body hkind h
  rw [hbody] at hmethod
  rcases List.mem_append.mp hmethod with hmem | hmem
  · obtain ⟨used, hused⟩ := huses _ hmem
    cases hused
  · obtain ⟨items, hitems, hmem⟩ := List.mem_flatten.mp hmem
    obtain ⟨feature, hfeature, hyields⟩ := hlists.mapM.2 items hitems
    exact ⟨feature, hfeature, items, hyields, hmem⟩

/-- The scaffold of an interface defines what the features of its surface leave open. -/
theorem defines_scaffold {found : Option ClassDecl} (hkind : t.definition.kind = .interface)
    (h : Yields t.scaffold found) :
    (∀ feature ∈ Feature.ofMembers (t.registry.surface t.definition),
      ∃ items, Yields (t.scaffoldItems feature) items ∧ items ⊆ bodyOf found) ∧
    ∀ name, Defines (bodyOf found) name ↔
      ∃ feature ∈ Feature.ofMembers (t.registry.surface t.definition),
        t.registry.LeavesOpen name feature := by
  obtain ⟨uses, lists, hbody, huses, hlists⟩ := scaffold_body (Or.inl hkind) h
  have hnone : ∀ name, ¬ Defines uses name := by
    rintro name ⟨item, hitem, hdefines⟩
    obtain ⟨used, rfl⟩ := huses item hitem
    exact hdefines
  rw [hbody]
  refine ⟨fun feature hfeature => ?_, fun name => ?_⟩
  · obtain ⟨items, hitems, hyields⟩ := hlists.mapM.1 feature hfeature
    exact ⟨items, hyields, fun item hitem =>
      List.mem_append_right uses (List.mem_flatten.mpr ⟨items, hitems, hitem⟩)⟩
  · rw [defines_append, or_iff_right (hnone name), defines_flatten]
    constructor
    · rintro ⟨items, hitems, hdefines⟩
      obtain ⟨feature, hfeature, hyields⟩ := hlists.mapM.2 items hitems
      exact ⟨feature, hfeature, (defines_scaffoldItems hyields).mp hdefines⟩
    · rintro ⟨feature, hfeature, hopen⟩
      obtain ⟨items, hitems, hyields⟩ := hlists.mapM.1 feature hfeature
      exact ⟨items, hitems, (defines_scaffoldItems hyields).mpr hopen⟩

/-- The contract of an interface or a mixin declares what its own features give, and the
iterator that follows from counting and indexed access. -/
theorem declares_interfaceContract {decl : ClassDecl} (h : Yields t.interfaceContract decl) :
    ∃ caps, Capabilities.of t.registry.toCatalog t.definition = .ok caps ∧
      ∀ method, .method method ∈ decl.items →
        (∃ feature ∈ Feature.ofMembers t.definition.ownMembers, t.Writes .contract feature method) ∨
        caps.derivesIterator = true ∧ t.DerivedIterator method.sig := by
  rw [interfaceContract] at h
  simp only [ite_bind] at h
  obtain ⟨caps, hcaps, h⟩ := h.bind
  obtain ⟨members, hmembers, h⟩ := h.bind
  obtain ⟨iterator, hiterator, h⟩ := h.bind
  obtain ⟨lists, hlists, hmembers⟩ := hmembers.bind
  rw [Yields.lift_iff] at hcaps
  rw [Yields.pure_iff] at h hmembers
  refine ⟨caps, hcaps, fun method hmethod => ?_⟩
  rw [← h] at hmethod
  rcases List.mem_append.mp hmethod with hmethod | hmethod
  · rw [← hmembers] at hmethod
    obtain ⟨items, hitems, hmethod⟩ := List.mem_flatten.mp hmethod
    obtain ⟨feature, hfeature, hyields⟩ := hlists.mapM.2 items hitems
    exact Or.inl ⟨feature, hfeature, items, hyields, hmethod⟩
  · rcases hiterator.of_ite with ⟨hderives, hiterator⟩ | ⟨-, rfl⟩
    · exact Or.inr ⟨hderives, derivedIterator_of_contract hiterator hmethod⟩
    · cases hmethod

end Target

end WebIdl.Artifact

namespace WebIdl.Registry

open WebIdl.Artifact
open WebIdl.Code

variable {r : Registry} {root : String} {d : Definition}

/-- A file is what the draft of its definition comes to. -/
theorem yields_of_file? {kind : ArtifactKind} {found : Option File} (hd : r.get? d.name = some d)
    (h : r.file? root d.name kind = .ok found) :
    Yields (Target.decl { registry := r, root, definition := d } kind) (found.map (·.decl)) := by
  rw [file?, bind_eq_ok] at h
  obtain ⟨d', hd', h⟩ := h
  rw [Catalog.definition, hd, Except.ok.injEq] at hd'
  subst hd'
  obtain ⟨decl, hdecl, h⟩ := bind_eq_ok.mp h
  rw [pure_eq_ok] at h
  have hsame : found.map (·.decl) = decl := by
    rw [← h, Option.map_map]
    exact Option.map_id'
  rw [hsame]
  exact ⟨{ own := d.name }, _, Prod.ext hdecl rfl⟩

/-- A contract is always there. -/
theorem contract_of_file? {found : Option File} (hd : r.get? d.name = some d)
    (h : r.file? root d.name .contract = .ok found) :
    ∃ file, found = some file ∧
      Yields (Target.contract { registry := r, root, definition := d }) file.decl := by
  obtain ⟨decl, hdecl, hsome⟩ := (yields_of_file? hd h).bind
  rw [Yields.pure_iff] at hsome
  obtain ⟨file, rfl, rfl⟩ := Option.map_eq_some_iff.mp hsome.symm
  exact ⟨file, rfl, hdecl⟩

/-- The contract of an interface or a mixin. -/
theorem yields_contract {found : Option File} (hd : r.get? d.name = some d)
    (hkind : d.kind = .interface ∨ d.kind = .mixin)
    (h : r.file? root d.name .contract = .ok found) :
    ∃ file, found = some file ∧
      Yields (Target.interfaceContract { registry := r, root, definition := d }) file.decl := by
  obtain ⟨file, hfound, hyields⟩ := contract_of_file? hd h
  refine ⟨file, hfound, ?_⟩
  rcases hkind with hkind | hkind
  · simpa only [Target.contract, hkind] using hyields
  · simpa only [Target.contract, hkind] using hyields

/-- All files of a definition can be made. -/
def Complete (r : Registry) (root : String) (d : Definition) : Prop :=
  ∀ kind, ∃ found, r.file? root d.name kind = .ok found

/-- The body of a file; there is nothing in it if there is no file. -/
def bodyOf (r : Registry) (root name : String) (kind : ArtifactKind) : List Item :=
  match r.file? root name kind with
  | .ok found => Target.bodyOf (found.map (·.decl))
  | .error _ => []

theorem bodyOf_eq {name : String} {kind : ArtifactKind} {found : Option File}
    (h : r.file? root name kind = .ok found) :
    r.bodyOf root name kind = Target.bodyOf (found.map (·.decl)) := by
  rw [bodyOf, h]

theorem exists_file_of_mem {name : String} {kind : ArtifactKind} {item : Item}
    (h : item ∈ r.bodyOf root name kind) :
    ∃ file, r.file? root name kind = .ok (some file) ∧ item ∈ file.decl.items := by
  cases hfile : r.file? root name kind with
  | error e =>
      rw [bodyOf, hfile] at h
      cases h
  | ok found =>
      rw [bodyOf_eq hfile] at h
      cases found with
      | none => cases h
      | some file => exact ⟨file, rfl, h⟩

/-- The defaults or the scaffold of a definition define a method. -/
def Implements (r : Registry) (root : String) (d : Definition) (name : String) : Prop :=
  Defines (r.bodyOf root d.name .defaults) name ∨ Defines (r.bodyOf root d.name .scaffold) name

instance {name : String} : Decidable (r.Implements root d name) :=
  inferInstanceAs (Decidable (_ ∨ _))

/-- What an interface implements: what its defaults define, and what the features of its
surface leave to the scaffold. -/
theorem implements_iff (hd : r.get? d.name = some d) (hkind : d.kind = .interface)
    (h : r.Complete root d) :
    ∃ caps items, Capabilities.of r.toCatalog d = .ok caps ∧
      Target.DefaultsOf { registry := r, root, definition := d } caps items ∧
      ∀ name, r.Implements root d name ↔ Defines items name ∨
        ∃ feature ∈ Feature.ofMembers (r.surface d), r.LeavesOpen name feature := by
  obtain ⟨defaults, hdefaults⟩ := h .defaults
  obtain ⟨scaffold, hscaffold⟩ := h .scaffold
  obtain ⟨caps, hcaps, hitems⟩ :=
    Target.defaultsOf_defaults hkind (yields_of_file? hd hdefaults)
  refine ⟨caps, _, hcaps, hitems, fun name => ?_⟩
  rw [Implements, bodyOf_eq hdefaults, bodyOf_eq hscaffold,
    (Target.defines_scaffold hkind (yields_of_file? hd hscaffold)).2 name]

/-- If the scaffold can be made, it is known which accessors implement themselves. -/
theorem exists_covers (hd : r.get? d.name = some d) (hkind : d.kind = .interface)
    (h : r.Complete root d) {a : OwnedAttribute}
    (ha : .attribute a ∈ Feature.ofMembers (r.surface d)) {category : NameCategory}
    {ident : String} (haccessor : IsAccessor category)
    (hname : r.name? a.owner.name category a.decl.name = some ident) :
    ∃ covered, r.covers a category = .ok covered := by
  obtain ⟨scaffold, hscaffold⟩ := h .scaffold
  obtain ⟨items, hyields, -⟩ :=
    (Target.defines_scaffold hkind (yields_of_file? hd hscaffold)).1 _ ha
  obtain ⟨getters, setters, -, hgetter, hsetter⟩ := Target.scaffolded_scaffoldAttribute hyields
  rcases haccessor with rfl | rfl
  · exact hgetter.exists_covers hname
  · exact hsetter.exists_covers hname

/-- If the scaffold can be made, every iterable has a name for its iterator. -/
theorem exists_iterator (hd : r.get? d.name = some d) (hkind : d.kind = .interface)
    (h : r.Complete root d) {owner : Definition} {decl : Iterable}
    (hfeature : .iterable owner decl ∈ Feature.ofMembers (r.surface d)) :
    ∃ ident, r.name? owner.name .iterator "" = some ident := by
  obtain ⟨scaffold, hscaffold⟩ := h .scaffold
  obtain ⟨items, hyields, -⟩ :=
    (Target.defines_scaffold hkind (yields_of_file? hd hscaffold)).1 _ hfeature
  obtain ⟨sig, hsig, -⟩ := hyields.bind
  exact ⟨sig.name, Target.name_of_iterableSig hsig⟩

end WebIdl.Registry
