import WebIdl.Proofs.Distinct

/-!
# WebIdl.Proofs.Agreement

The contract of an interface and what implements it.

A method is compared with everything of its name in the other two files.  What is written
for the same member agrees (`signatures_agree`), except that a setter which both reflects and
forwards is declared with one type and defined with the other (`SplitSetter`).  What is
written for another member has the same entry, and there are two ways to that (`Meets`): an
interface declares something twice, or it takes over an accessor of something that it
includes as well.  For this it is said where every method of a file comes from
(`scaffold_origin`, `DefaultsOf.origin`), so whole bodies are compared (`bodies_agree`):

* `contract_methods_are_implemented`: which methods of a contract are implemented, and how.
-/

namespace WebIdl.Artifact.Target

open WebIdl.Code

variable {t : Target} {items : List Item}

/-- The setter of an attribute that reflects and forwards: it is declared with the type
that it forwards to, and defined with its own. -/
def SplitSetter (t : Target) (a : OwnedAttribute) (declared defined : MethodSig) : Prop :=
  ∃ ident reflection forward, t.registry.reflection? a = .ok (some reflection) ∧
    t.registry.forward? a = .ok (some forward) ∧
    Yields (t.setter ident forward.type a.isStatic) declared ∧
    Yields (t.setter ident a.decl.type a.isStatic) defined

/-! ## accessors -/

/-- The scaffold has a setter only for what does not forward. -/
theorem accessor_scaffoldAttribute {a : OwnedAttribute} {method : Method}
    (h : Yields (t.scaffoldAttribute a) items) (hmethod : .method method ∈ items) :
    t.Accessor a (fun type => t.registry.forward? a = .ok none ∧ type = a.decl.type)
      method.sig := by
  obtain ⟨getters, setters, rfl, hgetter, hsetter⟩ := scaffolded_scaffoldAttribute h
  rcases List.mem_append.mp hmethod with hmethod | hmethod
  · cases hgetter with
    | absent => cases hmethod
    | done => cases hmethod
    | written hname _ _ hsig =>
        rw [List.mem_singleton, stub, defined, Item.method.injEq] at hmethod
        rw [hmethod]
        exact .getter hname hsig
  · cases hsetter with
    | absent => cases hmethod
    | done => cases hmethod
    | written hname hcovers _ hsig =>
        rw [List.mem_singleton, stub, defined, Item.method.injEq] at hmethod
        rw [hmethod]
        exact .setter hname ⟨Registry.forward?_of_uncovered hcovers, rfl⟩ hsig

/-- In the defaults a setter takes its own type if it reflects, and else the type that it
forwards to. -/
theorem accessor_attributeItems {a : OwnedAttribute} {method : Method}
    (hstatic : a.isStatic = false) (h : Yields (t.attributeItems a) items)
    (hmethod : .method method ∈ items) :
    t.Accessor a (fun type =>
      (∃ reflection, t.registry.reflection? a = .ok (some reflection)) ∧ type = a.decl.type ∨
      ∃ forward, t.registry.forward? a = .ok (some forward) ∧ type = forward.type)
      method.sig := by
  cases defaulted_attributeItems h with
  | plain => cases hmethod
  | forwards hreflection hforward hsetter hsig =>
      rw [List.mem_singleton, defined, Item.method.injEq] at hmethod
      rw [hmethod]
      exact .setter hsetter (Or.inr ⟨_, hforward, rfl⟩) (hstatic ▸ hsig)
  | reads hreflection hgetter hsig hsetter =>
      rw [List.mem_singleton, defined, Item.method.injEq] at hmethod
      rw [hmethod]
      exact .getter hgetter (hstatic ▸ hsig)
  | reflects hreflection hgetter hsig hsetter hsig' =>
      rw [List.mem_cons, List.mem_singleton, defined, defined, Item.method.injEq,
        Item.method.injEq] at hmethod
      rcases hmethod with rfl | rfl
      · exact .getter hgetter (hstatic ▸ hsig)
      · exact .setter hsetter (Or.inl ⟨⟨_, hreflection⟩, rfl⟩) (hstatic ▸ hsig')

/-- Two accessors of one attribute and one name are the same, or both are the setter. -/
theorem Accessor.agree {a : OwnedAttribute} {value value' : IdlType → Prop} {sig sig' : MethodSig}
    (hne : ∀ ident, t.registry.name? a.owner.name .getter a.decl.name = some ident →
      t.registry.name? a.owner.name .setter a.decl.name ≠ some ident)
    (h : t.Accessor a value sig) (h' : t.Accessor a value' sig') (hsame : sig'.name = sig.name) :
    sig' = sig ∨ ∃ ident type type', value type ∧ value' type' ∧
      Yields (t.setter ident type a.isStatic) sig ∧
      Yields (t.setter ident type' a.isStatic) sig' := by
  cases h with
  | getter hname h =>
      cases h' with
      | getter hname' h' =>
          rw [hname, Option.some.injEq] at hname'
          rw [← hname'] at h'
          exact Or.inl (t.steady_getter _ _ _ _ _ h' h)
      | setter hname' _ h' =>
          rw [name_of_getter h, name_of_setter h'] at hsame
          exact absurd (hsame ▸ hname') (hne _ hname)
  | setter hname htype h =>
      cases h' with
      | getter hname' h' =>
          rw [name_of_setter h, name_of_getter h'] at hsame
          exact absurd (hsame ▸ hname) (hne _ hname')
      | setter hname' htype' h' =>
          rw [hname, Option.some.injEq] at hname'
          rw [← hname'] at h'
          exact Or.inr ⟨_, _, _, htype, htype', h, h'⟩

/-! ## features -/

theorem steady_fieldGetter (t : Target) (f : OwnedField) : Steady (t.fieldGetter f) := by
  rw [fieldGetter]
  exact (Steady.lift _).bind fun _ => (t.steady_getter _ _ _).bind fun _ => Steady.pure _

theorem steady_operationSig? (t : Target) (group : OperationGroup) :
    Steady (t.operationSig? group) := by
  rw [operationSig?]
  refine (Steady.lift _).bind fun found => ?_
  cases found with
  | none => exact Steady.pure _
  | some name => exact (t.steady_operation _ _ _).bind fun _ => Steady.pure _

theorem steady_iterableSig (t : Target) (owner : Definition) (decl : Iterable) :
    Steady (t.iterableSig owner decl) := by
  rw [iterableSig]
  exact (Steady.lift _).bind fun _ => t.steady_iterator _ _ _

/-- An accessor has the signature that the contract declares, unless it is the setter of
what reflects and forwards. -/
theorem attribute_signatures_agree {a : OwnedAttribute} {kind : ArtifactKind}
    {method method' : Method} (hkind : kind ≠ .contract)
    (hne : ∀ ident, t.registry.name? a.owner.name .getter a.decl.name = some ident →
      t.registry.name? a.owner.name .setter a.decl.name ≠ some ident)
    (h : t.Writes .contract (.attribute a) method) (h' : t.Writes kind (.attribute a) method')
    (hsame : method'.sig.name = method.sig.name) :
    method'.sig = method.sig ∨ t.SplitSetter a method.sig method'.sig := by
  obtain ⟨items, hyields, hmem⟩ := h
  have hdeclared := accessor_contractAttribute hyields hmem
  cases kind with
  | contract => exact absurd rfl hkind
  | scaffold =>
      obtain ⟨items', hyields', hmem'⟩ := h'
      rcases hdeclared.agree hne (accessor_scaffoldAttribute hyields' hmem') hsame with hagree |
        ⟨ident, type, type', ⟨found, hfound, htype⟩, ⟨hnone, htype'⟩, hsetter, hsetter'⟩
      · exact Or.inl hagree
      · rw [hnone, Except.ok.injEq] at hfound
        rw [← hfound] at htype
        rw [htype'] at hsetter'
        rw [htype] at hsetter
        exact Or.inl (t.steady_setter _ _ _ _ _ hsetter' hsetter)
  | defaults =>
      obtain ⟨hstatic, items', hyields', hmem'⟩ := h'.of_defaults
      rcases hdeclared.agree hne (accessor_attributeItems hstatic hyields' hmem') hsame with
        hagree | ⟨ident, type, type', ⟨found, hfound, htype⟩, htype', hsetter, hsetter'⟩
      · exact Or.inl hagree
      · subst htype
        rcases htype' with ⟨⟨reflection, hreflection⟩, rfl⟩ | ⟨forward, hforward, rfl⟩
        · cases found with
          | none => exact Or.inl (t.steady_setter _ _ _ _ _ hsetter' hsetter)
          | some forward =>
              exact Or.inr ⟨ident, reflection, forward, hreflection, hfound, hsetter, hsetter'⟩
        · rw [hforward, Except.ok.injEq] at hfound
          rw [← hfound] at hsetter
          exact Or.inl (t.steady_setter _ _ _ _ _ hsetter' hsetter)

/-- Only attributes have a part in the defaults. -/
theorem Writes.attribute_of_defaults {feature : Feature} {method : Method}
    (h : t.Writes .defaults feature method) : ∃ a, feature = .attribute a := by
  obtain ⟨items, hyields, hmem⟩ := h
  cases feature with
  | «attribute» a => exact ⟨a, rfl⟩
  | _ =>
      have hnil := Yields.pure_iff.mp hyields
      rw [← hnil] at hmem
      cases hmem

/-- A signature that is declared is what its draft comes to. -/
theorem yields_of_declared {x : Draft MethodSig} {method : Method}
    (h : Yields (do return [declared (← x)]) items) (hmem : .method method ∈ items) :
    Yields x method.sig := by
  obtain ⟨sig, hsig, h⟩ := h.bind
  rw [Yields.pure_iff] at h
  rw [← h, List.mem_singleton, declared, Item.method.injEq] at hmem
  rw [hmem]
  exact hsig

/-- So is the signature of a stub. -/
theorem yields_of_stub {x : Draft MethodSig} {method : Method}
    (h : Yields (do return [t.stub (← x)]) items) (hmem : .method method ∈ items) :
    Yields x method.sig := by
  obtain ⟨sig, hsig, h⟩ := h.bind
  rw [Yields.pure_iff] at h
  rw [← h, List.mem_singleton, stub, defined, Item.method.injEq] at hmem
  rw [hmem]
  exact hsig

/-- What is no attribute has the same signatures in the contract and in the scaffold. -/
theorem scaffold_signatures_agree {feature : Feature} {method method' : Method}
    (hattribute : ∀ a, feature ≠ .attribute a) (hwrites : t.Writes .contract feature method)
    (hwrites' : t.Writes .scaffold feature method') : method'.sig = method.sig := by
  obtain ⟨items, h, hmethod⟩ := hwrites
  obtain ⟨items', h', hmethod'⟩ := hwrites'
  cases feature with
  | «attribute» a => exact absurd rfl (hattribute a)
  | constant owner decl =>
      have hnil := Yields.pure_iff.mp h'
      rw [← hnil] at hmethod'
      cases hmethod'
  | constructors owner overloads =>
      have hnil := Yields.pure_iff.mp h
      rw [← hnil] at hmethod
      cases hmethod
  | field f =>
      exact t.steady_fieldGetter f _ _ (yields_of_stub h' hmethod') (yields_of_declared h hmethod)
  | iterable owner decl =>
      exact t.steady_iterableSig owner decl _ _ (yields_of_stub h' hmethod')
        (yields_of_declared h hmethod)
  | operation group =>
      obtain ⟨found, hfound, h⟩ := h.bind
      obtain ⟨found', hfound', h'⟩ := h'.bind
      rw [Yields.pure_iff] at h h'
      have hone := t.steady_operationSig? group _ _ hfound' hfound
      subst hone
      rw [← h] at hmethod
      rw [← h'] at hmethod'
      cases found' with
      | none => cases hmethod
      | some sig =>
          rw [Option.toList_some, List.map_singleton, List.mem_singleton, declared,
            Item.method.injEq] at hmethod
          rw [Option.toList_some, List.map_singleton, List.mem_singleton, stub, defined,
            Item.method.injEq] at hmethod'
          rw [hmethod, hmethod']

/-- What a file that implements the contract has for a feature has the signature that the
contract declares for it. -/
theorem signatures_agree {feature : Feature} {kind : ArtifactKind} {method method' : Method}
    (hkind : kind ≠ .contract)
    (hne : ∀ a, feature = .attribute a → ∀ ident,
      t.registry.name? a.owner.name .getter a.decl.name = some ident →
      t.registry.name? a.owner.name .setter a.decl.name ≠ some ident)
    (h : t.Writes .contract feature method) (h' : t.Writes kind feature method')
    (hsame : method'.sig.name = method.sig.name) :
    method'.sig = method.sig ∨
      ∃ a, feature = .attribute a ∧ t.SplitSetter a method.sig method'.sig := by
  by_cases hattribute : ∃ a, feature = .attribute a
  · obtain ⟨a, rfl⟩ := hattribute
    exact (attribute_signatures_agree hkind (hne a rfl) h h' hsame).imp_right fun hsplit =>
      ⟨a, rfl, hsplit⟩
  · cases kind with
    | contract => exact absurd rfl hkind
    | defaults => exact absurd h'.attribute_of_defaults hattribute
    | scaffold =>
        exact Or.inl (scaffold_signatures_agree (fun a ha => hattribute ⟨a, ha⟩) h h')

/-- What the contract has for a feature is an entry of the feature. -/
theorem Writes.declared_entry {feature : Feature} {method : Method}
    (h : t.Writes .contract feature method) :
    ∃ category key, t.registry.LooksUp feature category key ∧ category ≠ .constant ∧
      t.registry.name? feature.owner.name category key = some method.sig.name := by
  obtain ⟨items, hyields, hmem⟩ := h
  exact Registry.entry_of_declares (declares_contractItems hyields hmem)

/-- What another file has for a feature is an entry of the feature as well, or it constructs. -/
theorem Writes.defined_entry {feature : Feature} {kind : ArtifactKind} {method : Method}
    (hkind : kind ≠ .contract) (hcode : hasCode method.body = true)
    (h : t.Writes kind feature method) :
    (∃ category key, t.registry.LooksUp feature category key ∧ category ≠ .constant ∧
      t.registry.name? feature.owner.name category key = some method.sig.name) ∨
    method.sig.name = "__construct" := by
  have hdefines : ∀ {items}, .method method ∈ items → Defines items method.sig.name :=
    fun hmem => defines_iff.mpr ⟨method, hmem, hcode, rfl⟩
  cases kind with
  | contract => exact absurd rfl hkind
  | scaffold =>
      obtain ⟨items, hyields, hmem⟩ := h
      exact (Registry.entry_of_leavesOpen
        ((defines_scaffoldItems hyields).mp (hdefines hmem))).imp_right And.right
  | defaults =>
      obtain ⟨a, rfl⟩ := h.attribute_of_defaults
      obtain ⟨-, items, hyields, hmem⟩ := h.of_defaults
      obtain ⟨category, haccessor, hname, -⟩ := (defines_attributeItems hyields).mp (hdefines hmem)
      exact Or.inl (Registry.entry_of_declares ⟨category, haccessor, hname⟩)

end WebIdl.Artifact.Target

namespace WebIdl.Code

/-- What a signature shows of a parameter: everything but its documentation. -/
def Param.shown (param : Param) : Param :=
  { param with type := .same param.type.binding }

/-- What a signature shows: its name, whether it is static, and the bindings, defaults and
result, but no documentation. -/
def MethodSig.shown (sig : MethodSig) : MethodSig :=
  { sig with
    params := sig.params.map Param.shown
    result := sig.result.map fun type => .same type.binding }

end WebIdl.Code

namespace WebIdl.Registry

open Relation
open WebIdl.Artifact
open WebIdl.Code
open Resolver (Settled)

variable {options : IngestOptions} {nodes : List Node} {r : Registry} {d : Definition}
  {category : NameCategory} {key name : String} {own other : Feature}

/-! ## members that meet -/

/-- Two members on the surface of a definition have one method, though they are not the same:
it declares an attribute, a field or a role twice, or it takes over the accessor of an
attribute that something which it includes declares as well. -/
inductive Meets (r : Registry) (d : Definition) (name : String) (own other : Feature) : Prop where
  | repeated {category : NameCategory} {key : String}
      (hdeclared : r.LooksUp own category key) (hagain : r.LooksUp other category key)
      (hname : r.name? d.name category key = some name)
      (hown : other ∈ Feature.ofMembers d.ownMembers) (hne : other ≠ own)
      (hcategory : IsAccessor category ∨ category = .special)
  | takenOver {category : NameCategory} {key : String}
      (hdeclared : r.LooksUp own category key) (hagain : r.LooksUp other category key)
      (hname : r.name? d.name category key = some name)
      (hname' : r.name? other.owner.name category key = some name)
      (hincludes : r.toCatalog.Includes d.name other.owner.name)
      (haccessor : IsAccessor category)
      (hinherit : ∃ a, .attribute a ∈ Feature.ofMembers d.ownMembers ∧ a.decl.name = key ∧
        a.decl.special = .inherit)

/-- Overloads of one name belong together. -/
theorem operation_unique {own other : Feature}
    (hown : own ∈ Feature.ofMembers d.ownMembers) (hother : other ∈ Feature.ofMembers d.ownMembers)
    (h : r.LooksUp own .operation key) (h' : r.LooksUp other .operation key) : other = own := by
  have hturn : ∀ feature ∈ Feature.ofMembers d.ownMembers, r.LooksUp feature .operation key →
      feature.turn? = some (d.name, some key) := by
    intro feature hfeature hlooks
    have howner := Feature.owner_of_ownMembers hfeature
    cases hlooks with
    | named hname =>
        rw [Feature.turn?, hname, ← howner]
        rfl
  by_contra hne
  have hpairs : (Feature.ofMembers d.ownMembers).Pairwise fun f g =>
      ∀ key, f.turn? = some key → g.turn? ≠ some key :=
    (Feature.pairwise_ofMembersAfter
      (List.pairwise_of_forall (R := fun _ _ => True) fun _ _ => trivial)).imp And.left
  have hsymm : Std.Symm fun f g : Feature => ∀ key, f.turn? = some key → g.turn? ≠ some key :=
    ⟨fun f g hfg key hg hf => hfg key hf hg⟩
  exact hpairs.forall hown hother (Ne.symm hne) _ (hturn own hown h) (hturn other hother h')

/-- Members that have one entry are the same, or both tell what is iterated over, or they
meet. -/
theorem meets_of_entries (hbuild : build options nodes = .ok r) (hd : r.get? d.name = some d)
    (hown : own ∈ Feature.ofMembers d.ownMembers)
    (hother : other ∈ Feature.ofMembers (r.surface d)) (hne : other ≠ own)
    (hconstant : category ≠ .constant) (hiterator : category ≠ .iterator)
    (hdeclared : r.LooksUp own category key) (hagain : r.LooksUp other category key)
    (hname : r.name? d.name category key = some name)
    (hname' : r.name? other.owner.name category key = some name) : r.Meets d name own other := by
  have hc := wellFormed_of_build hbuild
  obtain ⟨hsettled, -⟩ := settled_of_build hbuild
  rw [Catalog.features_surface] at hother
  obtain ⟨o, ho, hother⟩ := List.mem_flatMap.mp hother
  have howner := Feature.owner_of_ownMembers hother
  obtain ⟨hknown, hsame | hincludes⟩ := (mem_owners_iff hbuild hd).mp ho
  · rw [hsame, hd, Option.some.injEq] at hknown
    rw [← hknown] at hother
    refine .repeated hdeclared hagain hname hother hne ?_
    cases hdeclared with
    | constant => exact absurd rfl hconstant
    | getter => exact Or.inl (Or.inl rfl)
    | setter => exact Or.inl (Or.inr rfl)
    | field => exact Or.inl (Or.inl rfl)
    | named hkey => exact absurd (operation_unique hown hother (.named hkey) hagain) hne
    | unnamed => exact Or.inr rfl
    | iterable => exact absurd rfl hiterator
  · -- what includes something introduces no name that it has, but it may take one over
    have htaken : ¬ (IsAccessor category → ∀ member ∈ d.members, ∀ decl,
        member.kind = .attribute decl → decl.name = key → decl.special ≠ .inherit) := by
      intro hnone
      have hstructural : category.isStructural = false := by
        cases hdeclared with
        | iterable => exact absurd rfl hiterator
        | _ => rfl
      have hresolved := resolved_of_owner hbuild hd (r.self_mem_owners d)
      have hintroduced := hsettled.introduced_of_own hd hname hstructural hnone
      rw [howner] at hname'
      obtain ⟨origin, hpath, hmem, -⟩ :=
        Settled.source hc hsettled (resolved_of_owner hbuild hd ho) hname'
      exact Settled.ne_beyond hc hsettled hresolved
        (TransGen.trans_left (Catalog.Includes.beyond hincludes) hpath) hintroduced hmem rfl
    simp only [not_forall, not_not] at htaken
    obtain ⟨haccessor, member, hmember, decl, hkind, hkey, hspecial⟩ := htaken
    refine .takenOver hdeclared hagain hname hname' (howner ▸ hincludes) haccessor
      ⟨{ owner := d, decl, attrs := member.attrs }, ?_, hkey, hspecial⟩
    have hitem : { owner := d, member } ∈ d.ownMembers := List.mem_map_of_mem hmember
    exact Feature.mem_of_single hitem (by rw [Feature.single?, hkind])

end WebIdl.Registry

namespace WebIdl.Artifact.Target

open WebIdl.Code
open WebIdl.Registry (IsAccessor)

variable {t : Target}

/-! ## whole files -/

/-- A method is declared and defined for two members that meet, or it is the setter of an own
attribute that reflects and forwards. -/
inductive Deviates (t : Target) (kind : ArtifactKind) (method method' : Method) : Prop where
  | split {a : OwnedAttribute} (hown : .attribute a ∈ Feature.ofMembers t.definition.ownMembers)
      (hdeclared : t.Writes .contract (.attribute a) method)
      (hdefined : t.Writes kind (.attribute a) method')
      (hsplit : t.SplitSetter a method.sig method'.sig)
  | shared {own other : Feature} (hown : own ∈ Feature.ofMembers t.definition.ownMembers)
      (hother : other ∈ Feature.ofMembers (t.registry.surface t.definition))
      (hdeclared : t.Writes .contract own method) (hdefined : t.Writes kind other method')
      (hmeets : t.registry.Meets t.definition method.sig.name own other)

/-- All iterators show the same. -/
theorem shown_iterator {ident : String} {key : Option IdlType} {value : IdlType} {sig : MethodSig}
    (h : Yields (t.iterator ident key value) sig) :
    sig.shown = { name := sig.name, result := some (.same "\\Iterator") } := by
  cases key with
  | none =>
      obtain ⟨doc, -, h⟩ := h.bind
      obtain ⟨pair, -, h⟩ := h.bind
      rw [Yields.pure_iff] at h
      rw [← h]
      rfl
  | some key =>
      obtain ⟨pair, -, h⟩ := h.bind
      obtain ⟨doc, -, h⟩ := h.bind
      obtain ⟨pair', -, h⟩ := h.bind
      rw [Yields.pure_iff] at h
      rw [← h]
      rfl

/-- What a file has for something to iterate over is an iterator. -/
theorem Writes.shown_iterable {kind : ArtifactKind} {owner : Definition} {decl : Iterable}
    {method : Method} (h : t.Writes kind (.iterable owner decl) method) :
    method.sig.shown = { name := method.sig.name, result := some (.same "\\Iterator") } := by
  have hiterator : ∀ {sig}, Yields (t.iterableSig owner decl) sig →
      sig.shown = { name := sig.name, result := some (.same "\\Iterator") } := by
    intro sig hsig
    obtain ⟨ident, -, hsig⟩ := hsig.bind
    exact shown_iterator hsig
  cases kind with
  | defaults =>
      obtain ⟨a, ha⟩ := h.attribute_of_defaults
      cases ha
  | contract =>
      obtain ⟨items, h, hmem⟩ := h
      exact hiterator (yields_of_declared h hmem)
  | scaffold =>
      obtain ⟨items, h, hmem⟩ := h
      exact hiterator (yields_of_stub h hmem)

section

variable {options : IngestOptions} {nodes : List Node} {kind : ArtifactKind}
  {method method' : Method} {own other : Feature} {caps : Capabilities}
  (hbuild : Registry.build options nodes = .ok t.registry)
  (hd : t.registry.get? t.definition.name = some t.definition)
include hbuild hd

/-- What is written for the same member agrees, but for a split setter. -/
theorem agrees_of_own (hkind : kind ≠ .contract)
    (hown : own ∈ Feature.ofMembers t.definition.ownMembers)
    (h : t.Writes .contract own method) (h' : t.Writes kind own method')
    (hsame : method'.sig.name = method.sig.name) :
    method'.sig.shown = method.sig.shown ∨ t.Deviates kind method method' := by
  have howner : own.owner ∈ t.registry.toCatalog.owners t.definition := by
    rw [Feature.owner_of_ownMembers hown]
    exact t.registry.self_mem_owners t.definition
  refine (signatures_agree hkind (fun a ha ident hgetter hsetter => ?_) h h' hsame).imp
    (congrArg MethodSig.shown) ?_
  · subst ha
    have hentry := Registry.same_entry_of_owners hbuild hd howner howner hgetter hsetter rfl
    cases hentry.1
  · rintro ⟨a, rfl, hsplit⟩
    exact .split hown h h' hsplit

/-- What is written for two members under one name agrees, unless they meet. -/
theorem agrees_of_writes (hkind : kind ≠ .contract)
    (hown : own ∈ Feature.ofMembers t.definition.ownMembers)
    (hother : other ∈ Feature.ofMembers (t.registry.surface t.definition))
    (h : t.Writes .contract own method) (h' : t.Writes kind other method')
    (hcode : hasCode method'.body = true) (hsame : method'.sig.name = method.sig.name) :
    method'.sig.shown = method.sig.shown ∨ t.Deviates kind method method' := by
  by_cases hne : other = own
  · subst hne
    exact agrees_of_own hbuild hd hkind hown h h' hsame
  · have hself := t.registry.self_mem_owners t.definition
    have howner' := Catalog.owner_mem_owners hother
    have howner := Feature.owner_of_ownMembers hown
    obtain ⟨category, key, hlooks, hconstant, hname⟩ := h.declared_entry
    rw [howner] at hname
    rcases h'.defined_entry hkind hcode with ⟨category', key', hlooks', -, hname'⟩ | hconstructs
    · obtain ⟨rfl, rfl⟩ :=
        Registry.same_entry_of_owners hbuild hd hself howner' hname hname' (by rw [hsame])
      by_cases hiterator : category = .iterator
      · subst hiterator
        cases hlooks with
        | iterable =>
            cases hlooks' with
            | iterable => exact Or.inl (by rw [h.shown_iterable, h'.shown_iterable, hsame])
      · exact Or.inr (.shared hown hother h h' (Registry.meets_of_entries hbuild hd hown hother hne
          hconstant hiterator hlooks hlooks' hname (hsame ▸ hname')))
    · rw [← hsame, hconstructs] at hname
      exact absurd (by decide) (Registry.not_reserved_of_owner hbuild hd hself hname)

/-- A protocol that the defaults implement is none that the contract declares, unless it is the
iterator. -/
theorem ne_container {category : NameCategory}
    (hown : own ∈ Feature.ofMembers t.definition.ownMembers) (h : t.Writes .contract own method)
    (hcategory : category ∈ containerCategories caps)
    (hiterator : category ≠ .iterator) :
    t.registry.name? t.name category "" ≠ some method.sig.name := by
  intro hname'
  have hself := t.registry.self_mem_owners t.definition
  obtain ⟨category', key, hlooks, -, hname⟩ := h.declared_entry
  rw [Feature.owner_of_ownMembers hown] at hname
  obtain ⟨rfl, -⟩ := Registry.same_entry_of_owners hbuild hd hself hself hname hname' rfl
  have hstructural := structural_containerCategories caps _ hcategory
  cases hlooks with
  | iterable => exact hiterator rfl
  | _ => cases hstructural

/-- No feature has the name of an iterator that follows. -/
theorem ne_derivedIterator_of_entry {feature : Feature} {category : NameCategory} {key : String}
    {sig : MethodSig}
    (hcaps : Capabilities.of t.registry.toCatalog t.definition = .ok caps)
    (hderives : caps.derivesIterator = true) (hsig : t.DerivedIterator sig)
    (hfeature : feature ∈ Feature.ofMembers (t.registry.surface t.definition))
    (hlooks : t.registry.LooksUp feature category key) :
    t.registry.name? feature.owner.name category key ≠ some sig.name := by
  intro hname
  have hself := t.registry.self_mem_owners t.definition
  obtain ⟨hcategory, -⟩ := Registry.same_entry_of_owners hbuild hd
    (Catalog.owner_mem_owners hfeature) hself hname hsig.entry rfl
  subst hcategory
  cases hlooks with
  | iterable =>
      rw [derivesIterator_of_iterable hcaps hfeature] at hderives
      cases hderives

/-- So no file has anything for a feature under that name. -/
theorem Writes.ne_derivedIterator {feature : Feature} {sig : MethodSig} (hkind : kind ≠ .contract)
    (hcaps : Capabilities.of t.registry.toCatalog t.definition = .ok caps)
    (hderives : caps.derivesIterator = true) (hsig : t.DerivedIterator sig)
    (hfeature : feature ∈ Feature.ofMembers (t.registry.surface t.definition))
    (h : t.Writes kind feature method) (hcode : hasCode method.body = true) :
    method.sig.name ≠ sig.name := by
  intro hsame
  rcases h.defined_entry hkind hcode with ⟨category, key, hlooks, -, hname⟩ | hconstructs
  · exact ne_derivedIterator_of_entry hbuild hd hcaps hderives hsig hfeature hlooks (hsame ▸ hname)
  · have hentry := hsig.entry
    rw [← hsame, hconstructs] at hentry
    exact absurd (by decide) (Registry.not_reserved_of_owner hbuild hd
      (t.registry.self_mem_owners t.definition) hentry)

/-- What an own member declares agrees with everything that the defaults define. -/
theorem agrees_of_origin (hcaps : Capabilities.of t.registry.toCatalog t.definition = .ok caps)
    (hown : own ∈ Feature.ofMembers t.definition.ownMembers) (h : t.Writes .contract own method)
    (horigin : t.DefaultOrigin caps method') (hcode : hasCode method'.body = true)
    (hsame : method'.sig.name = method.sig.name) :
    method'.sig.shown = method.sig.shown ∨ t.Deviates .defaults method method' := by
  have hself := t.registry.self_mem_owners t.definition
  obtain ⟨category, key, hlooks, -, hname⟩ := h.declared_entry
  cases horigin with
  | accessor ha hwrites =>
      exact agrees_of_writes hbuild hd (by decide) hown ha h hwrites hcode hsame
  | word hword =>
      rw [Feature.owner_of_ownMembers hown, ← hsame] at hname
      exact absurd hword (Registry.not_reserved_of_owner hbuild hd hself hname)
  | container hcategory hiterator hname' =>
      exact absurd (hsame ▸ hname') (ne_container hbuild hd hown h hcategory hiterator)
  | iterator hderives hsig =>
      exact absurd (hsame ▸ hname) (ne_derivedIterator_of_entry hbuild hd hcaps hderives hsig
        (Catalog.mem_features_surface hself hown) hlooks)

/-- The iterator that the contract derives agrees with everything that the defaults define. -/
theorem derived_agrees_of_origin
    (hcaps : Capabilities.of t.registry.toCatalog t.definition = .ok caps)
    (hderives : caps.derivesIterator = true) (hsig : t.DerivedIterator method.sig)
    (horigin : t.DefaultOrigin caps method') (hcode : hasCode method'.body = true)
    (hsame : method'.sig.name = method.sig.name) : method'.sig = method.sig := by
  have hself := t.registry.self_mem_owners t.definition
  cases horigin with
  | iterator _ hsig' => exact hsig.unique hsig'
  | accessor ha hwrites =>
      exact absurd hsame
        (hwrites.ne_derivedIterator hbuild hd (by decide) hcaps hderives hsig ha hcode)
  | word hword =>
      exact absurd (hsame ▸ hword) (Registry.not_reserved_of_owner hbuild hd hself hsig.entry)
  | container _ hiterator hname =>
      exact absurd (Registry.same_entry_of_owners hbuild hd hself hself hname hsig.entry
        (by rw [hsame])).1 hiterator

/-- What the contract of an interface declares agrees with everything of its name that another
file defines, unless they deviate. -/
theorem bodies_agree (hinterface : t.definition.kind = .interface)
    (hcomplete : t.registry.Complete t.root t.definition) (hkind : kind ≠ .contract)
    (hmethod : .method method ∈ t.registry.bodyOf t.root t.definition.name .contract)
    (hmethod' : .method method' ∈ t.registry.bodyOf t.root t.definition.name kind)
    (hcode : hasCode method'.body = true) (hsame : method'.sig.name = method.sig.name) :
    method'.sig.shown = method.sig.shown ∨ t.Deviates kind method method' := by
  obtain ⟨contract, hcontract⟩ := hcomplete .contract
  obtain ⟨found, hfound⟩ := hcomplete kind
  obtain ⟨file, rfl, hyields⟩ := Registry.yields_contract hd (Or.inl hinterface) hcontract
  rw [Registry.bodyOf_eq hcontract] at hmethod
  rw [Registry.bodyOf_eq hfound] at hmethod'
  have hfile := Registry.yields_of_file? hd hfound
  obtain ⟨caps, hcaps, horigin⟩ := declares_interfaceContract hyields
  cases kind with
  | contract => exact absurd rfl hkind
  | scaffold =>
      obtain ⟨other, hother, h'⟩ := scaffold_origin (Or.inl hinterface) hfile hmethod'
      rcases horigin method hmethod with ⟨own, hown, h⟩ | ⟨hderives, hsig⟩
      · exact agrees_of_writes hbuild hd hkind hown hother h h' hcode hsame
      · exact absurd hsame (h'.ne_derivedIterator hbuild hd hkind hcaps hderives hsig hother hcode)
  | defaults =>
      obtain ⟨caps', hcaps', hdefaults⟩ := defaultsOf_defaults hinterface hfile
      rw [hcaps, Except.ok.injEq] at hcaps'
      subst hcaps'
      have horigin' := hdefaults.origin method' hmethod' hcode
      rcases horigin method hmethod with ⟨own, hown, h⟩ | ⟨hderives, hsig⟩
      · exact agrees_of_origin hbuild hd hcaps hown h horigin' hcode hsame
      · exact Or.inl (congrArg MethodSig.shown
          (derived_agrees_of_origin hbuild hd hcaps hderives hsig horigin' hcode hsame))

end

end WebIdl.Artifact.Target

namespace WebIdl.Registry

open WebIdl.Artifact
open WebIdl.Code

variable {options : IngestOptions} {nodes : List Node} {r : Registry} {root name : String}
  {d : Definition}

/-! ## a site whose pages have a home -/

/-- The setters of all attributes on a chain. -/
def settersOn (r : Registry) (chain : List Definition) : List String :=
  chain.flatMap fun x => (Feature.ofMembers (r.surface x)).filterMap fun
    | .attribute a => r.name? a.owner.name .setter a.decl.name
    | _ => none

theorem Forwarded.mem_settersOn {chain : List Definition} (h : r.Forwarded chain name) :
    name ∈ r.settersOn chain := by
  obtain ⟨x, hx, a, ha, -, hname⟩ := h
  exact List.mem_flatMap.mpr ⟨x, hx, List.mem_filterMap.mpr ⟨.attribute a, ha, hname⟩⟩

/-- `[PutForwards=href] static readonly attribute Link home` -/
def forwardedHome : Member where
  kind := .attribute {
    name := "home", type := .named "Link" false {}, readonly := true, special := .static }
  attrs := ⟨[{ name := "PutForwards", value := some (.identifier "href") }]⟩

/-- A base whose home is static, and a page that takes over its title and has a width and
items. -/
def siteNodes : List Node :=
  [.definition {
      name := "Link", kind := .interface, members := [attributeNamed "href" "DOMString" .none] },
   .definition {
      name := "Base", kind := .interface,
      members := [attributeNamed "title" "DOMString" .none, forwardedHome] },
   .definition { name := "Items", kind := .mixin, members := countedItems },
   .definition {
      name := "Page", kind := .interface, parent := some "Base",
      members := [attributeNamed "title" "DOMString" .inherit,
        attributeNamed "width" "long" .none] },
   .includes "Page" "Items"]

/-- An attribute that reflects, and forwards to an integer of what its enumeration includes. -/
def mirrorNodes : List Node :=
  [.definition {
      name := "Mirror", kind := .interface,
      members := [{
        kind := .attribute { name := "mode", type := .named "Mode" false {}, readonly := true }
        attrs := ⟨[{ name := "Reflect" },
          { name := "PutForwards", value := some (.identifier "level") }]⟩ }] },
   .definition { name := "Mode", kind := .enum ["plain"] },
   .definition {
      name := "Leveled", kind := .mixin, members := [attributeNamed "level" "long" .none] },
   .includes "Mode" "Leveled"]

/-- A child that takes over as a number what a mixin has as a text, and that includes the mixin
as its parent does. -/
def resizedNodes : List Node :=
  [.definition { name := "Plain", kind := .interface },
   .definition {
      name := "Sized", kind := .mixin, members := [attributeNamed "size" "DOMString" .none] },
   .definition {
      name := "Resized", kind := .interface, parent := some "Plain",
      members := [attributeNamed "size" "long" .inherit] },
   .includes "Plain" "Sized", .includes "Resized" "Sized"]

/-- The types of the parameters of all methods of a name. -/
def bindingsOf (items : List Item) (name : String) : List (List String) :=
  items.filterMap fun
    | .method decl =>
      if decl.sig.name == name then some (decl.sig.params.map (·.type.binding)) else none
    | _ => none

theorem method_of_bindings {items : List Item} {bindings : List String}
    (h : bindings ∈ bindingsOf items name) :
    ∃ method, .method method ∈ items ∧ method.sig.name = name := by
  rw [bindingsOf, List.mem_filterMap] at h
  obtain ⟨item, hitem, hsome⟩ := h
  cases item with
  | method method =>
      simp only [beq_iff_eq, Option.ite_none_right_eq_some] at hsome
      exact ⟨method, hitem, hsome.1⟩
  | constants list => cases hsome
  | usedTrait used => cases hsome
  | sealedConstructor => cases hsome

/-- A method that stands in the contract is required. -/
theorem required_of_bindings {bindings : List String}
    (h : bindings ∈ bindingsOf (r.bodyOf root d.name .contract) name) : r.Required root d name := by
  obtain ⟨method, hmethod, rfl⟩ := method_of_bindings h
  exact .declared (Or.inl rfl) hmethod

/-- An interface of some nodes declares a method with parameters of some types and defines it
with parameters of others. -/
def Disagrees (nodes : List Node) (name : String) (kind : ArtifactKind) (method : String)
    (declared defined : List String) : Prop :=
  ∃ r d, build {} nodes = .ok r ∧ d ∈ r.definitions ∧ d.name = name ∧
    (∀ x ∈ d :: r.ancestors d, r.Regular "Site" x) ∧
    bindingsOf (r.bodyOf "Site" d.name .contract) method = [declared] ∧
    bindingsOf (r.bodyOf "Site" d.name kind) method = [defined]

theorem disagrees_of_check {nodes : List Node} {name : String} {kind : ArtifactKind}
    {method : String} {declared defined : List String}
    (hbuild : (build {} nodes).toOption.map (fun r => (r.get? name).map fun d =>
      ((d :: r.ancestors d).all (r.isRegular "Site"),
        bindingsOf (r.bodyOf "Site" d.name .contract) method,
        bindingsOf (r.bodyOf "Site" d.name kind) method)) =
      some (some (true, [declared], [defined]))) :
    Disagrees nodes name kind method declared defined := by
  obtain ⟨r, hr, hfound⟩ := ok_of_toOption_map hbuild
  obtain ⟨d, hd, hfacts⟩ := Option.map_eq_some_iff.mp hfound
  obtain ⟨hregular, hdeclared, hdefined⟩ := by simpa only [Prod.mk.injEq] using hfacts
  exact ⟨r, d, hr, Catalog.mem_of_get? hd, Catalog.name_of_get? hd, fun x hx =>
    regular_of_check (List.all_eq_true.mp hregular x hx), hdeclared, hdefined⟩

/-- **Contracts are implemented**: a method that a class has to have is defined by the
defaults or the scaffold of its interface or of an ancestor, unless it is the stranded setter
of a static attribute that forwards.  Whatever the contract declares has the signature of
everything that the defaults and the scaffold define under its name, unless it is the setter
of an attribute that reflects and forwards, or belongs to a member that meets another one. -/
theorem contract_methods_are_implemented (h : build options nodes = .ok r)
    (hd : d ∈ r.definitions) (hregular : ∀ x ∈ d :: r.ancestors d, r.Regular root x) :
    (∀ name, r.Required root d name → (r.Implemented root d name ↔ ¬ r.Stranded d name)) ∧
    ∀ kind method method', kind ≠ .contract →
      .method method ∈ r.bodyOf root d.name .contract →
      .method method' ∈ r.bodyOf root d.name kind → hasCode method'.body = true →
      method'.sig.name = method.sig.name →
      method'.sig.shown = method.sig.shown ∨
        Target.Deviates { registry := r, root, definition := d } kind method method' := by
  have hget := (wellFormed_of_build h).get?_of_mem hd
  have hself := hregular d List.mem_cons_self
  refine ⟨fun name hrequired => implemented_iff h hd hregular hrequired,
    fun kind method method' hkind hmethod hmethod' hcode hsame => ?_⟩
  exact Target.bodies_agree (t := { registry := r, root, definition := d }) h hget hself.kind
    hself.complete hkind hmethod hmethod' hcode hsame

/-- A page has the title that it takes over from its base and the iterator that follows
from its items, and its width is defined as it is declared. -/
theorem page_is_implemented :
    ∃ r d, build {} siteNodes = .ok r ∧ d ∈ r.definitions ∧ d.name = "Page" ∧
      (∀ x ∈ d :: r.ancestors d, r.Regular "Site" x) ∧
      r.Required "Site" d "getTitle" ∧ r.Implemented "Site" d "getTitle" ∧
      r.Required "Site" d "getIterator" ∧ r.Implemented "Site" d "getIterator" ∧
      ∃ method method', .method method ∈ r.bodyOf "Site" d.name .contract ∧
        .method method' ∈ r.bodyOf "Site" d.name .scaffold ∧ hasCode method'.body = true ∧
        method'.sig.name = method.sig.name ∧ method.sig.name = "setWidth" ∧
        (method'.sig.shown = method.sig.shown ∨ Target.Deviates
          { registry := r, root := "Site", definition := d } .scaffold method method') := by
  have hbuild : (build {} siteNodes).toOption.map (fun r => (r.get? "Page").map fun d =>
      ((d :: r.ancestors d).all (r.isRegular "Site") &&
          decide (Defines (r.bodyOf "Site" d.name .scaffold) "setWidth"),
        r.settersOn (d :: r.ancestors d),
        ["getTitle", "getIterator", "setWidth"].map
          (bindingsOf (r.bodyOf "Site" d.name .contract)))) =
      some (some (true, ["setTitle", "setWidth", "setTitle", "setHome"],
        [[[]], [[]], [["int"]]])) := by
    decide +kernel
  obtain ⟨r, hr, hfound⟩ := ok_of_toOption_map hbuild
  obtain ⟨d, hd, hfacts⟩ := Option.map_eq_some_iff.mp hfound
  obtain ⟨⟨hregular, hdefines⟩, hsetters, htitle, hiterator, hwidth, -⟩ := by
    simpa only [Prod.mk.injEq, Bool.and_eq_true, List.map_cons, List.cons.injEq] using hfacts
  have hregular' : ∀ x ∈ d :: r.ancestors d, r.Regular "Site" x := fun x hx =>
    regular_of_check (List.all_eq_true.mp hregular x hx)
  obtain ⟨himplemented, hagree⟩ :=
    contract_methods_are_implemented hr (Catalog.mem_of_get? hd) hregular'
  have hfirst : r.Required "Site" d "getTitle" :=
    required_of_bindings (by rw [htitle]; exact List.mem_cons_self)
  have hsecond : r.Required "Site" d "getIterator" :=
    required_of_bindings (by rw [hiterator]; exact List.mem_cons_self)
  obtain ⟨method, hmethod, hname⟩ := method_of_bindings
    (show ["int"] ∈ bindingsOf (r.bodyOf "Site" d.name .contract) "setWidth" by
      rw [hwidth]; exact List.mem_cons_self)
  obtain ⟨method', hmethod', hcode, hname'⟩ := defines_iff.mp (of_decide_eq_true hdefines)
  have hsame := hname'.trans hname.symm
  -- only setters can be stranded
  have hstranded : ∀ name, r.Stranded d name →
      name ∈ ["setTitle", "setWidth", "setTitle", "setHome"] :=
    fun name hstranded => hsetters ▸ hstranded.1.mem_settersOn
  exact ⟨r, d, hr, Catalog.mem_of_get? hd, Catalog.name_of_get? hd, hregular',
    hfirst, (himplemented "getTitle" hfirst).mpr fun h => absurd (hstranded _ h) (by decide),
    hsecond, (himplemented "getIterator" hsecond).mpr fun h => absurd (hstranded _ h) (by decide),
    method, method', hmethod, hmethod', hcode, hsame, hname,
    hagree .scaffold method method' (by decide) hmethod hmethod' hcode hsame⟩

/-- The contract of the base declares a setter for its home that nobody defines, a mirror's
mode is declared with one type and defined with another, and so is a size that a child takes
over from a mixin which it includes as well. -/
theorem home_is_not_implemented :
    (∃ r d, build {} siteNodes = .ok r ∧ d ∈ r.definitions ∧ d.name = "Base" ∧
      (∀ x ∈ d :: r.ancestors d, r.Regular "Site" x) ∧
      r.Required "Site" d "setHome" ∧ ¬ r.Implemented "Site" d "setHome") ∧
    Disagrees mirrorNodes "Mirror" .defaults "setMode" ["int"] ["string"] ∧
    Disagrees resizedNodes "Resized" .scaffold "setSize" ["int"] ["string"] := by
  have hsite : (build {} siteNodes).toOption.map (fun r => (r.get? "Base").map fun d =>
      ((d :: r.ancestors d).all (r.isRegular "Site"),
        bindingsOf (r.bodyOf "Site" d.name .contract) "setHome",
        decide (r.Implemented "Site" d "setHome"))) =
      some (some (true, [["string"]], false)) := by
    decide +kernel
  refine ⟨?_, disagrees_of_check ?_, disagrees_of_check ?_⟩
  · obtain ⟨r, hr, hfound⟩ := ok_of_toOption_map hsite
    obtain ⟨d, hd, hfacts⟩ := Option.map_eq_some_iff.mp hfound
    obtain ⟨hregular, hhome, hmissing⟩ := by simpa only [Prod.mk.injEq] using hfacts
    refine ⟨r, d, hr, Catalog.mem_of_get? hd, Catalog.name_of_get? hd, fun x hx =>
      regular_of_check (List.all_eq_true.mp hregular x hx), ?_, of_decide_eq_false hmissing⟩
    exact required_of_bindings (by rw [hhome]; exact List.mem_cons_self)
  · decide +kernel
  · decide +kernel

end WebIdl.Registry
