import WebIdl.Proofs.Lookup

/-!
# WebIdl.Proofs.Failures

Nothing that the builders look up is missing: a contract, defaults or a scaffold cannot be
made only for a cause that lies in the source.

The builders are gone through one by one; each is a sequence of steps, and a step is a
type, a literal, a name that somebody offers, or what an attribute forwards to.
-/

namespace WebIdl

open WebIdl.Code

namespace Artifact.Target

/-- All names can be looked up that the files of a definition of the registry need. -/
structure Ready (t : Target) : Prop where
  known : t.definition ∈ t.registry.definitions
  reserving : t.registry.Reserving

variable {t : Target}

/-- The features of the definition itself are on its surface. -/
theorem mem_features_own {feature : Feature}
    (h : feature ∈ Feature.ofMembers t.definition.ownMembers) :
    feature ∈ Feature.ofMembers (t.registry.surface t.definition) :=
  Catalog.mem_features_surface (t.registry.self_mem_owners t.definition) h

/-- The getter of a field fails only for what is to blame. -/
theorem failsFor_fieldGetter {f : OwnedField} (htype : f.decl.type ∈ t.registry.types)
    (hf : FailsOnly (t.registry.Blame t.definition)
      (t.registry.nameOf f.owner.name .getter f.decl.name)) :
    FailsFor (t.registry.Blame t.definition) (t.fieldGetter f) := by
  rw [Target.fieldGetter]
  refine (FailsFor.lift hf).bind fun getter _ => ?_
  exact (failsFor_getter htype _ _).bind fun _ _ => FailsFor.pure _

/-- A class can always be referred to. -/
theorem failsFor_classRef {cause : Error → Prop} (name : String) :
    FailsFor cause (t.classRef name) := by
  rw [Target.classRef]
  split
  · exact FailsFor.pure _
  · exact (FailsFor.note _).bind fun _ _ => FailsFor.pure _

/-- Whether methods for keys are inherited is known, or something is to blame. -/
theorem failsOnly_inheritsKeyed : FailsOnly (t.registry.Blame t.definition) t.inheritsKeyed :=
  (FailsOnly.mapM (fun _ => (Registry.failsOnly_capabilities _).bind fun _ => FailsOnly.ok _)
    _).bind fun _ => FailsOnly.ok _

/-- It can be told whether a definition has defaults. -/
theorem failsOnly_hasDefaults :
    FailsOnly (t.registry.Blame t.definition) (hasDefaults t.registry t.definition) := by
  have hcaps : FailsOnly (t.registry.Blame t.definition)
      (Capabilities.of t.registry.toCatalog t.definition) :=
    Registry.failsOnly_capabilities t.definition
  rw [Artifact.hasDefaults]
  cases hkind : t.definition.kind with
  | interface =>
      dsimp only
      split
      · exact FailsOnly.ok _
      · refine hcaps.bind fun caps => ?_
        split <;> exact FailsOnly.ok _
  | mixin =>
      refine hcaps.bind fun caps => ?_
      split
      · exact FailsOnly.ok _
      · exact FailsOnly.anyM_mem fun a ha =>
          Registry.failsOnly_coversSetter (mem_instanceAttributes.mp ha).1
  | _ => exact FailsOnly.ok _

/-- The defaults of fields are written, or one of them is to blame. -/
theorem failsOnly_defaultLines (fields : List OwnedField) :
    FailsOnly (t.registry.Blame t.definition) (defaultLines fields) := by
  induction fields with
  | nil => exact FailsOnly.ok _
  | cons f fields ih =>
      rw [defaultLines]
      split
      · split
        · exact ih
        · exact (Registry.failsOnly_literalText _).bind fun _ => ih.bind fun _ => FailsOnly.ok _
      · exact ih

/-- The operations of a callback interface are among its features. -/
theorem mem_regularOperations {d : Definition} {group : OperationGroup}
    (h : group ∈ regularOperations d) : .operation group ∈ Feature.ofMembers d.ownMembers := by
  rw [regularOperations, List.mem_filterMap] at h
  obtain ⟨feature, hfeature, hsome⟩ := h
  cases feature with
  | operation other =>
      dsimp only at hsome
      split at hsome
      · cases hsome
        exact hfeature
      · cases hsome
  | _ => cases hsome

/-- What is read off an ancestor is among the fields of the dictionary. -/
theorem fields_of_snapshot {fields : List OwnedField} {ancestors : List Definition} :
    ∀ snapshot ∈ snapshots fields ancestors, snapshot.fields ⊆ fields := by
  induction ancestors with
  | nil => simp [snapshots]
  | cons ancestor above ih =>
      intro snapshot hsnapshot
      rw [snapshots, List.mem_cons] at hsnapshot
      rcases hsnapshot with rfl | hsnapshot
      · exact List.filter_subset_self _
      · exact ih snapshot hsnapshot

section Lookups

variable (ht : t.Ready)
include ht

/-- A name that the definition offers is found. -/
theorem Ready.own {cause : Error → Prop} {category : NameCategory} {key : String}
    (h : t.definition.Offers t.registry.toCatalog category key) :
    FailsOnly cause (t.registry.nameOf t.name category key) :=
  FailsOnly.of_ok (ht.reserving _ ht.known category key h)

/-- A name of a feature on the surface is found. -/
theorem Ready.feature {feature : Feature}
    (hfeature : feature ∈ Feature.ofMembers (t.registry.surface t.definition))
    {category : NameCategory} {key : String} (h : t.registry.LooksUp feature category key)
    (hforwards : category = .setter → ∃ a target, feature = .attribute a ∧
      a.attrs.word? "PutForwards" = some target) :
    FailsOnly (t.registry.Blame t.definition)
      (t.registry.nameOf feature.owner.name category key) := by
  obtain ⟨howner, hoffers⟩ :=
    h.offers hfeature (fun _ hitem => Registry.mem_of_mem_surface ht.known hitem) hforwards
  exact FailsOnly.of_ok (ht.reserving _ howner category key hoffers)

/-- The types of a feature on the surface are written in the source. -/
theorem Ready.types {feature : Feature}
    (hfeature : feature ∈ Feature.ofMembers (t.registry.surface t.definition)) :
    feature.types ⊆ t.registry.types :=
  Registry.types_of_feature ht.known hfeature

/-- The type of an attribute on the surface is written in the source. -/
theorem Ready.attributeType {a : OwnedAttribute}
    (ha : .attribute a ∈ Feature.ofMembers (t.registry.surface t.definition)) :
    a.decl.type ∈ t.registry.types :=
  ht.types ha (by simp [Feature.types])

theorem Ready.fieldType {f : OwnedField}
    (hf : .field f ∈ Feature.ofMembers (t.registry.surface t.definition)) :
    f.decl.type ∈ t.registry.types :=
  ht.types hf (by simp [Feature.types])

/-- The types of a callback's call are written in the source. -/
theorem Ready.callbackTypes {signature : Signature}
    (hkind : t.definition.kind = .callback signature) :
    [signature].flatMap Signature.types ⊆ t.registry.types := by
  intro type htype
  refine Catalog.types_of_definition ht.known ?_
  simp only [List.flatMap_singleton] at htype
  simp [Definition.types, hkind, htype]

/-- The result of the indexed getter on the surface is written in the source. -/
theorem Ready.indexedType {value : IdlType}
    (h : t.registry.firstIndexedResult? (t.registry.surface t.definition) = .ok (some value)) :
    (none : Option IdlType).toList ++ [value] ⊆ t.registry.types := by
  have hvalue := Registry.type_of_firstIndexedResult?
    (fun _ hitem => Registry.mem_of_mem_surface ht.known hitem) h
  simpa using hvalue

/-! ### contracts -/

/-- An attribute of a contract fails only for what is to blame. -/
theorem Ready.contractAttribute {a : OwnedAttribute}
    (ha : .attribute a ∈ Feature.ofMembers (t.registry.surface t.definition)) :
    FailsFor (t.registry.Blame t.definition) (t.contractAttribute a) := by
  rw [Target.contractAttribute]
  refine (FailsFor.lift (ht.feature ha .getter nofun)).bind fun getter _ => ?_
  refine (failsFor_getter (ht.attributeType ha) _ _).bind fun sig _ => ?_
  split
  · exact FailsFor.pure _
  · refine (FailsFor.lift (Registry.failsOnly_forward? ha)).bind fun forward hforward => ?_
    rw [Yields.lift_iff] at hforward
    refine (failsFor_setter ?_ _ _).bind fun _ _ => FailsFor.pure _
    cases forward with
    | none => exact ht.attributeType ha
    | some forward => exact Registry.type_of_forward? hforward

theorem Ready.operationSig? {group : OperationGroup}
    (hgroup : .operation group ∈ Feature.ofMembers (t.registry.surface t.definition)) :
    FailsFor (t.registry.Blame t.definition) (t.operationSig? group) := by
  rw [Target.operationSig?]
  refine (FailsFor.lift ?_).bind fun name _ => ?_
  · rw [Registry.operationName?]
    split
    next name hname =>
      exact (ht.feature hgroup (.named hname) (by rintro ⟨⟩)).bind fun _ => FailsOnly.ok _
    next hname =>
      split
      · exact FailsOnly.ok _
      next signature others hfirst =>
        refine (Registry.failsOnly_specialKind _ _).bind_of_ok fun role hrole => ?_
        split
        · exact (ht.feature hgroup (.unnamed hname hfirst hrole) (by rintro ⟨⟩)).bind
            fun _ => FailsOnly.ok _
        · exact FailsOnly.ok _
  · split
    · exact FailsFor.pure _
    · exact (failsFor_operation (ht.types hgroup) _ _).bind fun _ _ => FailsFor.pure _

theorem Ready.iterableSig {owner : Definition} {decl : Iterable}
    (hfeature : .iterable owner decl ∈ Feature.ofMembers (t.registry.surface t.definition)) :
    FailsFor (t.registry.Blame t.definition) (t.iterableSig owner decl) := by
  rw [Target.iterableSig]
  refine (FailsFor.lift (ht.feature hfeature .iterable nofun)).bind fun name _ => ?_
  exact failsFor_iterator (ht.types hfeature) _

theorem Ready.contractItems {feature : Feature}
    (hfeature : feature ∈ Feature.ofMembers (t.registry.surface t.definition)) :
    FailsFor (t.registry.Blame t.definition) (t.contractItems feature) := by
  cases feature with
  | constant owner decl =>
      rw [Target.contractItems, Target.contractConstant]
      refine (FailsFor.lift (ht.feature hfeature .constant (by rintro ⟨⟩))).bind fun name _ => ?_
      refine (FailsFor.lift (Registry.failsOnly_literalText _)).bind fun _ _ => ?_
      exact FailsFor.pure _
  | «attribute» a => exact ht.contractAttribute hfeature
  | field f =>
      have hgetter := failsFor_fieldGetter (ht.fieldType hfeature)
        (ht.feature hfeature .field (by rintro ⟨⟩))
      exact hgetter.bind fun _ _ => FailsFor.pure _
  | operation group => exact (ht.operationSig? hfeature).bind fun _ _ => FailsFor.pure _
  | iterable owner decl => exact (ht.iterableSig hfeature).bind fun _ _ => FailsFor.pure _
  | constructors owner overloads => exact FailsFor.pure _

theorem Ready.contractMembers :
    FailsFor (t.registry.Blame t.definition) t.contractMembers := by
  rw [Target.contractMembers]
  refine (FailsFor.mapM fun feature hfeature => ?_).bind fun _ _ => FailsFor.pure _
  exact ht.contractItems (mem_features_own hfeature)

/-- What is neither an interface nor a mixin has reserved its cast. -/
theorem Ready.castSig {cause : Error → Prop} (hinterface : t.definition.isInterface = false)
    (hmixin : t.definition.isMixin = false) (accepted result : String) :
    FailsOnly cause (t.castSig accepted result) :=
  (ht.own (.cast hinterface hmixin)).bind fun _ => FailsOnly.ok _

/-- The contract of an interface fails only for what is to blame. -/
theorem Ready.interfaceContract :
    FailsFor (t.registry.Blame t.definition) t.interfaceContract := by
  rw [Target.interfaceContract]
  simp only [ite_bind]
  refine (FailsFor.lift (Registry.failsOnly_capabilities _)).bind
    fun caps hcaps => ?_
  rw [Yields.lift_iff] at hcaps
  refine ht.contractMembers.bind fun _ _ => ?_
  refine (FailsFor.of_ite fun hderives => ?_).bind fun _ _ => FailsFor.pure _
  rw [Target.derivedIterator]
  refine (FailsFor.lift (Registry.failsOnly_firstIndexedResult? _)).bind
    fun value hvalue => ?_
  rw [Yields.lift_iff] at hvalue
  have hiterates : caps.iterates = true := by simp [Capabilities.iterates, hderives]
  split
  · exact FailsFor.pure _
  · refine (FailsFor.lift (ht.own (.iterator hcaps hiterates))).bind fun _ _ => ?_
    exact (failsFor_iterator (ht.indexedType hvalue) _).bind fun _ _ => FailsFor.pure _

/-- A dictionary has reserved its methods for keys. -/
theorem Ready.offsetSigs (hkind : t.definition.kind = .dictionary) :
    FailsOnly (t.registry.Blame t.definition) t.offsetSigs := by
  have hoffset : ∀ category ∈ offsetCategories,
      FailsOnly (t.registry.Blame t.definition) (t.structuralName category) :=
    fun category hcategory => ht.own (.dictionary hkind hcategory)
  rw [Target.offsetSigs]
  refine (hoffset .exists (by decide)).bind fun _ => ?_
  refine (hoffset .get (by decide)).bind fun _ => ?_
  refine (hoffset .set (by decide)).bind fun _ => ?_
  exact (hoffset .unset (by decide)).bind fun _ => FailsOnly.ok _

/-- The contract of a dictionary fails only for what is to blame. -/
theorem Ready.dictionaryContract (hkind : t.definition.kind = .dictionary) :
    FailsFor (t.registry.Blame t.definition) t.dictionaryContract := by
  have hinterface : t.definition.isInterface = false := by simp [Definition.isInterface, hkind]
  have hmixin : t.definition.isMixin = false := by simp [Definition.isMixin, hkind]
  rw [Target.dictionaryContract]
  simp only [ite_bind]
  refine ht.contractMembers.bind fun _ _ => ?_
  refine (FailsFor.of_ite fun _ => ?_).bind fun _ _ => ?_
  · exact (FailsFor.lift (ht.offsetSigs hkind)).bind fun _ _ => FailsFor.pure _
  · exact (FailsFor.lift (ht.castSig hinterface hmixin _ _)).bind fun _ _ => FailsFor.pure _

/-- What is called back has reserved its call. -/
theorem Ready.invokeSig
    (hkind : t.definition.kind = .callbackInterface ∨
      ∃ signature, t.definition.kind = .callback signature) {overloads : List Signature}
    (htypes : overloads.flatMap Signature.types ⊆ t.registry.types) :
    FailsFor (t.registry.Blame t.definition) (t.invokeSig overloads) := by
  rw [Target.invokeSig]
  refine (FailsFor.lift (ht.own (.invoke hkind))).bind fun _ _ => ?_
  exact failsFor_operation htypes _ _

/-- The types of an operation of the definition itself are written in the source. -/
theorem Ready.regularTypes {group : OperationGroup}
    (h : group ∈ regularOperations t.definition) :
    group.overloads.flatMap Signature.types ⊆ t.registry.types :=
  ht.types (mem_features_own (mem_regularOperations h))

/-- The contract of a callback fails only for what is to blame. -/
theorem Ready.callbackContract {signature : Signature}
    (hkind : t.definition.kind = .callback signature) :
    FailsFor (t.registry.Blame t.definition) (t.callbackContract signature) := by
  rw [Target.callbackContract]
  refine (ht.invokeSig (Or.inr ⟨signature, hkind⟩) (ht.callbackTypes hkind)).bind fun _ _ => ?_
  refine (FailsFor.lift (ht.castSig ?_ ?_ _ _)).bind fun _ _ => FailsFor.pure _
  · simp [Definition.isInterface, hkind]
  · simp [Definition.isMixin, hkind]

theorem Ready.callbackInterfaceContract (hkind : t.definition.kind = .callbackInterface) :
    FailsFor (t.registry.Blame t.definition) t.callbackInterfaceContract := by
  have hcast : ∀ accepted result, FailsFor (t.registry.Blame t.definition)
      (liftM (t.castSig accepted result) : Draft MethodSig) := by
    intro accepted result
    refine FailsFor.lift (ht.castSig ?_ ?_ _ _)
    · simp [Definition.isInterface, hkind]
    · simp [Definition.isMixin, hkind]
  rw [Target.callbackInterfaceContract]
  refine ht.contractMembers.bind fun _ _ => ?_
  split
  next => exact (FailsFor.pure _).bind fun _ _ => (hcast _ _).bind fun _ _ => FailsFor.pure _
  next first _ hoperations =>
    have hfirst : first ∈ regularOperations t.definition := by simp [hoperations]
    refine (ht.invokeSig (Or.inl hkind) (ht.regularTypes hfirst)).bind fun _ _ => ?_
    exact (FailsFor.pure _).bind fun _ _ => (hcast _ _).bind fun _ _ => FailsFor.pure _

/-- The contract of an enumeration can always be made. -/
theorem Ready.enumContract {cause : Error → Prop} {values : List String}
    (hkind : t.definition.kind = .enum values) : FailsFor cause (t.enumContract values) := by
  rw [Target.enumContract]
  refine (FailsFor.lift ?_).bind fun _ _ => ?_
  · refine FailsOnly.mapM_mem fun value hvalue => ?_
    exact (ht.own (.value hkind hvalue)).bind fun _ => FailsOnly.ok _
  · refine (FailsFor.lift (ht.castSig ?_ ?_ _ _)).bind fun _ _ => FailsFor.pure _
    · simp [Definition.isInterface, hkind]
    · simp [Definition.isMixin, hkind]

theorem Ready.contract : FailsFor (t.registry.Blame t.definition) t.contract := by
  rw [Target.contract]
  cases hkind : t.definition.kind with
  | interface => exact ht.interfaceContract
  | mixin => exact ht.interfaceContract
  | dictionary => exact ht.dictionaryContract hkind
  | callback signature => exact ht.callbackContract hkind
  | callbackInterface => exact ht.callbackInterfaceContract hkind
  | enum values => exact ht.enumContract hkind

/-! ### defaults -/

/-- The method of a role that something on the surface plays is found, and so is the getter
of the count. -/
theorem Ready.sources {caps : Capabilities}
    (hcaps : Capabilities.of t.registry.toCatalog t.definition = .ok caps) :
    (∀ kind, ∃ found, t.registry.method? caps kind = .ok found) ∧
      ∃ found, t.registry.countGetter? caps = .ok found := by
  obtain ⟨hspecials, hcount⟩ := Capabilities.sources hcaps
  constructor
  · intro kind
    rw [Registry.method?]
    cases hsource : caps.special? kind with
    | none => exact ⟨none, rfl⟩
    | some source =>
        obtain ⟨item, hitem, hfrom⟩ := hspecials kind source hsource
        obtain ⟨howner, hmember⟩ := Registry.mem_of_mem_surface ht.known hitem
        have hmethod : ∃ ident, t.registry.specialMethod kind source = .ok ident := by
          cases hfrom with
          | unnamed h hname hkind =>
              exact ht.reserving _ howner _ _ (.unnamed hmember h hname hkind)
          | operation h hname hkind => exact ht.reserving _ howner _ _ (.named hmember h hname)
          | «attribute» h hspecial => exact ht.reserving _ howner _ _ (.getter hmember h)
        obtain ⟨ident, hident⟩ := hmethod
        exact ⟨some ident, by simp only [hident]; rfl⟩
  · rw [Registry.countGetter?]
    cases hsource : caps.count with
    | none => exact ⟨none, rfl⟩
    | some source =>
        obtain ⟨item, hitem, decl, h, -, -, rfl⟩ := hcount source hsource
        obtain ⟨howner, hmember⟩ := Registry.mem_of_mem_surface ht.known hitem
        obtain ⟨ident, hident⟩ := ht.reserving _ howner _ _ (.getter hmember h)
        exact ⟨some ident, by simp only [hident]; rfl⟩

/-- An attribute of the defaults fails only for what is to blame. -/
theorem Ready.attributeItems {a : OwnedAttribute}
    (ha : .attribute a ∈ Feature.ofMembers (t.registry.surface t.definition)) :
    FailsFor (t.registry.Blame t.definition) (t.attributeItems a) := by
  rw [Target.attributeItems]
  refine (FailsFor.lift (Registry.failsOnly_reflection? a)).bind
    fun reflection _ => ?_
  split
  next =>
    rw [Target.reflectedItems]
    refine (FailsFor.lift (ht.feature ha .getter (by rintro ⟨⟩))).bind fun _ _ => ?_
    refine (failsFor_getter (ht.attributeType ha) _ _).bind fun _ _ => ?_
    split
    · exact FailsFor.pure _
    · exact (failsFor_setter (ht.attributeType ha) _ _).bind fun _ _ => FailsFor.pure _
  next =>
    refine (FailsFor.lift (Registry.failsOnly_forward? ha)).bind fun forward hforward => ?_
    rw [Yields.lift_iff] at hforward
    cases forward with
    | none => exact FailsFor.pure _
    | some forward =>
        obtain ⟨target, htarget⟩ := Registry.word?_of_forward? hforward
        dsimp only
        rw [Target.forwardedItems]
        refine (FailsFor.lift (ht.feature ha .getter (by rintro ⟨⟩))).bind fun _ _ => ?_
        have hsetter := ht.feature ha .setter fun _ => ⟨a, target, rfl, htarget⟩
        refine (FailsFor.lift hsetter).bind fun _ _ => ?_
        refine (FailsFor.lift (Registry.failsOnly_resolve _)).bind fun _ _ => ?_
        exact (failsFor_setter (Registry.type_of_forward? hforward) _ _).bind
          fun _ _ => FailsFor.pure _

theorem Ready.keyedItems {caps : Capabilities} {inherited : Bool}
    (hkind : t.definition.kind = .interface ∨ t.definition.kind = .mixin)
    (hcaps : Capabilities.of t.registry.toCatalog t.definition = .ok caps)
    (hkeyed : caps.keyed = true) :
    FailsOnly (t.registry.Blame t.definition) (t.keyedItems caps inherited) := by
  have hroute : ∀ indexed named,
      FailsOnly (t.registry.Blame t.definition) (t.route caps indexed named) := by
    intro indexed named
    refine (FailsOnly.of_ok ((ht.sources hcaps).1 indexed)).bind fun _ => ?_
    exact (FailsOnly.of_ok ((ht.sources hcaps).1 named)).bind fun _ => FailsOnly.ok _
  have hoffset : ∀ category ∈ offsetCategories,
      FailsOnly (t.registry.Blame t.definition) (t.structuralName category) :=
    fun category hcategory => ht.own (.keyed hkind hcaps hkeyed hcategory)
  rw [Target.keyedItems]
  simp only [ite_bind]
  refine (hroute _ _).bind fun _ => (hroute _ _).bind fun _ => (hroute _ _).bind fun _ => ?_
  refine FailsOnly.bind ?_ fun _ => ?_
  · split
    next hcounts => exact (ht.own (.count hcaps hcounts)).bind fun _ => FailsOnly.ok _
    next => exact FailsOnly.ok _
  · refine (hoffset .exists (by decide)).bind fun _ => ?_
    refine (hoffset .get (by decide)).bind fun _ => ?_
    refine (hoffset .set (by decide)).bind fun _ => ?_
    exact (hoffset .unset (by decide)).bind fun _ => FailsOnly.ok _

theorem Ready.countItems {caps : Capabilities}
    (hcaps : Capabilities.of t.registry.toCatalog t.definition = .ok caps) :
    FailsOnly (t.registry.Blame t.definition) (t.countItems caps) := by
  rw [Target.countItems]
  refine (FailsOnly.of_ok (ht.sources hcaps).2).bind_of_ok fun getter hgetter => ?_
  cases getter with
  | none => exact FailsOnly.ok _
  | some getter =>
      have hcounts : caps.counts = true := by
        rw [Registry.countGetter?] at hgetter
        cases hcount : caps.count with
        | none => simp [hcount] at hgetter
        | some source => simp [Capabilities.counts, hcount]
      exact (ht.own (.count hcaps hcounts)).bind fun _ => FailsOnly.ok _

theorem Ready.stringifierItems {caps : Capabilities}
    (hcaps : Capabilities.of t.registry.toCatalog t.definition = .ok caps) :
    FailsOnly (t.registry.Blame t.definition) (t.stringifierItems caps) := by
  rw [Target.stringifierItems]
  refine (FailsOnly.of_ok ((ht.sources hcaps).1 _)).bind fun method => ?_
  split <;> exact FailsOnly.ok _

theorem Ready.iteratorItems {caps : Capabilities}
    (hcaps : Capabilities.of t.registry.toCatalog t.definition = .ok caps)
    (hderives : caps.derivesIterator = true) :
    FailsFor (t.registry.Blame t.definition) (t.iteratorItems caps) := by
  have hcounts : caps.counts = true := by
    rw [Capabilities.derivesIterator, Bool.and_eq_true_iff, Bool.and_eq_true_iff] at hderives
    exact hderives.1.2
  have hiterates : caps.iterates = true := by simp [Capabilities.iterates, hderives]
  rw [Target.iteratorItems]
  refine (FailsFor.lift (FailsOnly.of_ok ((ht.sources hcaps).1 _))).bind fun item _ => ?_
  refine (FailsFor.lift (Registry.failsOnly_firstIndexedResult? _)).bind
    fun value hvalue => ?_
  rw [Yields.lift_iff] at hvalue
  split
  · refine (FailsFor.lift (ht.own (.count hcaps hcounts))).bind fun _ _ => ?_
    refine (FailsFor.lift (ht.own (.iterator hcaps hiterates))).bind fun _ _ => ?_
    exact (failsFor_iterator (ht.indexedType hvalue) _).bind fun _ _ => FailsFor.pure _
  · exact FailsFor.pure _

theorem Ready.propertyGet {properties : List OwnedAttribute} {root : Bool}
    (h : ∀ a ∈ properties, .attribute a ∈ Feature.ofMembers (t.registry.surface t.definition)) :
    FailsOnly (t.registry.Blame t.definition) (t.propertyGet properties root) := by
  rw [Target.propertyGet]
  refine FailsOnly.bind (FailsOnly.mapM_mem fun a ha => ?_) fun _ => FailsOnly.ok _
  exact (ht.feature (h a ha) .getter (by rintro ⟨⟩)).bind fun _ => FailsOnly.ok _

/-- The defaults of an interface or a mixin fail only for what is to blame. -/
theorem Ready.interfaceDefaults
    (hkind : t.definition.kind = .interface ∨ t.definition.kind = .mixin) :
    FailsFor (t.registry.Blame t.definition) t.interfaceDefaults := by
  have hproperties : ∀ a ∈ instanceAttributes (t.registry.surface t.definition),
      .attribute a ∈ Feature.ofMembers (t.registry.surface t.definition) :=
    fun a ha => (mem_instanceAttributes.mp ha).1
  rw [Target.interfaceDefaults]
  simp only [ite_bind]
  refine (FailsFor.lift (Registry.failsOnly_capabilities _)).bind
    fun caps hcaps => ?_
  rw [Yields.lift_iff] at hcaps
  refine (FailsFor.of_ite fun _ => ?_).bind fun _ _ => ?_
  · exact (FailsFor.lift (ht.propertyGet hproperties)).bind fun _ _ => FailsFor.pure _
  refine (FailsFor.mapM fun a ha => ht.attributeItems (hproperties a ha)).bind fun _ _ => ?_
  refine (FailsFor.of_ite fun hkeyed => ?_).bind fun _ _ => ?_
  · refine (FailsFor.lift failsOnly_inheritsKeyed).bind fun _ _ => ?_
    exact FailsFor.lift (ht.keyedItems hkind hcaps hkeyed)
  refine (FailsFor.lift (ht.countItems hcaps)).bind fun _ _ => ?_
  refine (FailsFor.lift (ht.stringifierItems hcaps)).bind fun _ _ => ?_
  refine (FailsFor.of_ite fun hderives => ?_).bind fun _ _ => FailsFor.pure _
  exact ht.iteratorItems hcaps hderives

/-- A field of a dictionary or of what it inherits from is one of its owner. -/
theorem Ready.mem_chainFields {f : OwnedField}
    (hf : f ∈ chainFields (t.definition :: t.registry.ancestors t.definition)) :
    ∃ x ∈ t.registry.definitions, .field f ∈ Feature.ofMembers x.ownMembers := by
  rw [chainFields, List.mem_flatMap] at hf
  obtain ⟨x, hx, hf⟩ := hf
  have hknown : x ∈ t.registry.definitions := by
    rcases List.mem_cons.mp (List.mem_reverse.mp hx) with rfl | hx
    · exact ht.known
    · exact Catalog.mem_of_get? (Catalog.mem_definitionsOf.mp hx).2
  rw [fieldsIn, List.mem_filterMap] at hf
  obtain ⟨feature, hfeature, hsome⟩ := hf
  have hsame : feature = .field f := by
    cases feature <;> simp at hsome
    rw [hsome]
  exact ⟨x, hknown, hsame ▸ hfeature⟩

/-- The fields of a dictionary and of what it inherits from have getters. -/
theorem Ready.chainField {cause : Error → Prop} {f : OwnedField}
    (hf : f ∈ chainFields (t.definition :: t.registry.ancestors t.definition)) :
    FailsOnly cause (t.registry.nameOf f.owner.name .getter f.decl.name) := by
  obtain ⟨x, hknown, hfeature⟩ := ht.mem_chainFields hf
  have hmembers : ∀ item ∈ x.ownMembers,
      item.owner ∈ t.registry.definitions ∧ item.member ∈ item.owner.members := by
    intro item hitem
    obtain ⟨member, hmember, rfl⟩ := List.mem_map.mp hitem
    exact ⟨hknown, hmember⟩
  have hlooks : t.registry.LooksUp (.field f) .getter f.decl.name := .field
  obtain ⟨howner, hoffers⟩ := hlooks.offers hfeature hmembers nofun
  exact FailsOnly.of_ok (ht.reserving _ howner _ _ hoffers)

/-- The types of these fields are written in the source. -/
theorem Ready.chainFieldType {f : OwnedField}
    (hf : f ∈ chainFields (t.definition :: t.registry.ancestors t.definition)) :
    f.decl.type ∈ t.registry.types := by
  obtain ⟨x, hknown, hfeature⟩ := ht.mem_chainFields hf
  have hsurface := Catalog.mem_features_surface (t.registry.self_mem_owners x) hfeature
  exact Registry.types_of_feature hknown hsurface (by simp [Feature.types])

/-- The getters of some fields fail only as their names do. -/
theorem Ready.fieldItems {cause : Error → Prop} (hkind : t.definition.kind = .dictionary)
    {fields : List OwnedField}
    (hfields : ∀ f ∈ fields, FailsOnly cause
      (t.registry.nameOf f.owner.name .getter f.decl.name)) :
    FailsOnly cause (t.fieldItems fields) := by
  have hoffset : ∀ category ∈ offsetCategories,
      FailsOnly cause (t.structuralName category) :=
    fun category hcategory => ht.own (.dictionary hkind hcategory)
  rw [Target.fieldItems]
  refine FailsOnly.bind (FailsOnly.mapM_mem fun f hf => ?_) fun _ => ?_
  · exact (hfields f hf).bind fun _ => FailsOnly.ok _
  refine (hoffset .exists (by decide)).bind fun _ => ?_
  refine (hoffset .get (by decide)).bind fun _ => ?_
  refine (hoffset .set (by decide)).bind fun _ => ?_
  exact (hoffset .unset (by decide)).bind fun _ => FailsOnly.ok _

/-- The value of a field is cast by a definition that has a cast. -/
theorem Ready.conversion (f : OwnedField) :
    FailsFor (t.registry.Blame t.definition) (t.conversion f) := by
  rw [Target.conversion]
  have hdefinition : FailsOnly (t.registry.Blame t.definition)
      (t.registry.definitionOf f.decl.type) :=
    (Registry.failsOnly_resolve _).bind fun _ => FailsOnly.ok _
  refine (FailsFor.lift hdefinition).bind fun found hfound => ?_
  rw [Yields.lift_iff] at hfound
  cases found with
  | none => exact FailsFor.pure _
  | some d =>
      dsimp only
      split
      · exact FailsFor.pure _
      next hkind =>
        have hcast : d.isInterface = false ∧ d.isMixin = false := by simpa using hkind
        have hknown : d ∈ t.registry.definitions := by
          simp only [Catalog.definitionOf, bind_eq_ok, pure_eq_ok] at hfound
          obtain ⟨type, -, hget⟩ := hfound
          obtain ⟨name, -, hget⟩ := Option.bind_eq_some_iff.mp hget
          exact Catalog.mem_of_get? hget
        refine FailsFor.bind ?_ fun _ _ => ?_
        · exact failsFor_classRef d.name
        · refine (FailsFor.lift (FailsOnly.of_ok ?_)).bind fun _ _ => FailsFor.pure _
          exact ht.reserving d hknown _ _ (.cast hcast.1 hcast.2)

/-- The cast of a dictionary fails only where a default, a conversion or a getter does. -/
theorem Ready.dictionaryCast {cause : Error → Prop} (hkind : t.definition.kind = .dictionary)
    {fields : List OwnedField} {inherited : List Snapshot}
    (hdefaults : FailsOnly cause (defaultLines fields))
    (hconversions : ∀ f ∈ fields, FailsFor cause (t.conversion f))
    (hroutines : ∀ f ∈ fields, FailsFor cause (t.fieldRoutine f))
    (hgetters : ∀ f ∈ fields, FailsOnly cause
      (t.registry.nameOf f.owner.name .getter f.decl.name))
    (hinherited : ∀ snapshot ∈ inherited, snapshot.fields ⊆ fields) :
    FailsFor cause (t.dictionaryCast fields inherited) := by
  rw [Target.dictionaryCast]
  refine (FailsFor.lift (ht.castSig ?_ ?_ _ _)).bind fun _ _ => ?_
  · simp [Definition.isInterface, hkind]
  · simp [Definition.isMixin, hkind]
  refine (FailsFor.lift hdefaults).bind fun _ _ => ?_
  refine (FailsFor.mapM hconversions).bind fun _ _ => ?_
  refine (FailsFor.lift (FailsOnly.mapM_mem fun snapshot hsnapshot => ?_)).bind fun _ _ => ?_
  · rw [Target.snapshotStmt, Target.snapshotLines]
    refine FailsOnly.bind (FailsOnly.mapM_mem fun f hf => ?_) fun _ => FailsOnly.ok _
    have hgetter := hgetters f (hinherited snapshot hsnapshot hf)
    exact hgetter.bind fun _ => FailsOnly.ok _
  exact (FailsFor.mapM hroutines).bind fun _ _ => FailsFor.pure _

/-- The cast of what is called back fails only for what is to blame. -/
theorem Ready.callableCast (hinterface : t.definition.isInterface = false)
    (hmixin : t.definition.isMixin = false) (called : Option MethodSig)
    (others : List MethodSig) :
    FailsOnly (t.registry.Blame t.definition) (t.callableCast called others) := by
  rw [Target.callableCast]
  refine (ht.castSig hinterface hmixin _ _).bind fun _ => ?_
  split <;> exact FailsOnly.ok _

/-- The defaults of a callback interface fail only for what is to blame. -/
theorem Ready.callbackInterfaceDefaults (hkind : t.definition.kind = .callbackInterface) :
    FailsFor (t.registry.Blame t.definition) t.callbackInterfaceDefaults := by
  rw [Target.callbackInterfaceDefaults]
  refine (FailsFor.mapM fun group hgroup => ?_).bind fun sigs _ => ?_
  · exact ht.operationSig? (mem_features_own (mem_regularOperations hgroup))
  · refine (FailsFor.lift (ht.callableCast ?_ ?_ _ _)).bind fun cast _ => ?_
    · simp [Definition.isInterface, hkind]
    · simp [Definition.isMixin, hkind]
    split
    next first _ _ hoperations =>
      have hfirst : first ∈ regularOperations t.definition := by simp [hoperations]
      exact (ht.invokeSig (Or.inl hkind) (ht.regularTypes hfirst)).bind fun _ _ => FailsFor.pure _
    next => exact FailsFor.pure _

/-- The defaults of a dictionary fail only where its cast does. -/
theorem Ready.dictionaryDefaults {cause : Error → Prop}
    (hkind : t.definition.kind = .dictionary)
    (hdefaults : FailsOnly cause
      (defaultLines (chainFields (t.definition :: t.registry.ancestors t.definition))))
    (hfields : ∀ f ∈ chainFields (t.definition :: t.registry.ancestors t.definition),
      FailsFor cause (t.conversion f) ∧ FailsFor cause (t.fieldRoutine f)) :
    FailsFor cause t.dictionaryDefaults := by
  refine FailsFor.bind ?_ fun _ _ => ?_
  · exact ht.dictionaryCast hkind hdefaults (fun f hf => (hfields f hf).1)
      (fun f hf => (hfields f hf).2) (fun _ => ht.chainField) fields_of_snapshot
  · exact (FailsFor.lift (ht.fieldItems hkind fun _ => ht.chainField)).bind
      fun _ _ => FailsFor.pure _

theorem Ready.callbackDefaults {signature : Signature}
    (hkind : t.definition.kind = .callback signature) :
    FailsFor (t.registry.Blame t.definition) (t.callbackDefaults signature) := by
  refine (ht.invokeSig (Or.inr ⟨signature, hkind⟩) (ht.callbackTypes hkind)).bind fun _ _ => ?_
  refine (FailsFor.lift (ht.callableCast ?_ ?_ _ _)).bind fun _ _ => FailsFor.pure _
  · simp [Definition.isInterface, hkind]
  · simp [Definition.isMixin, hkind]

theorem Ready.defaults : FailsFor (t.registry.Blame t.definition) t.defaults := by
  rw [Target.defaults]
  refine (FailsFor.lift failsOnly_hasDefaults).bind fun has _ => ?_
  split
  · dsimp only
    cases hkind : t.definition.kind with
    | interface => exact (ht.interfaceDefaults (Or.inl hkind)).bind fun _ _ => FailsFor.pure _
    | mixin => exact (ht.interfaceDefaults (Or.inr hkind)).bind fun _ _ => FailsFor.pure _
    | dictionary =>
        refine FailsFor.bind ?_ fun _ _ => FailsFor.pure _
        refine ht.dictionaryDefaults hkind (failsOnly_defaultLines _) ?_
        intro f hf
        refine ⟨ht.conversion f, ?_⟩
        rw [Target.fieldRoutine]
        exact (failsFor_fieldGetter (ht.chainFieldType hf) (ht.chainField hf)).bind
          fun _ _ => FailsFor.pure _
    | callback signature => exact (ht.callbackDefaults hkind).bind fun _ _ => FailsFor.pure _
    | callbackInterface =>
        exact (ht.callbackInterfaceDefaults hkind).bind fun _ _ => FailsFor.pure _
    | enum values => exact (FailsFor.pure _).bind fun _ _ => FailsFor.pure _
  · exact FailsFor.pure _

/-! ### scaffolds -/

/-- An attribute of the scaffold fails only for what is to blame. -/
theorem Ready.scaffoldAttribute {a : OwnedAttribute}
    (ha : .attribute a ∈ Feature.ofMembers (t.registry.surface t.definition)) :
    FailsFor (t.registry.Blame t.definition) (t.scaffoldAttribute a) := by
  rw [Target.scaffoldAttribute]
  have hcovers : FailsOnly (t.registry.Blame t.definition) (t.registry.coversGetter a) :=
    (Registry.failsOnly_reflection? a).bind fun _ => FailsOnly.ok _
  refine (FailsFor.lift (hcovers)).bind fun _ _ => ?_
  rw [ite_bind]
  refine FailsFor.bind ?_ fun getters _ => ?_
  · split
    · exact FailsFor.pure _
    · refine (FailsFor.lift (ht.feature ha .getter (by rintro ⟨⟩))).bind fun _ _ => ?_
      exact (failsFor_getter (ht.attributeType ha) _ _).bind fun _ _ => FailsFor.pure _
  · split
    · exact FailsFor.pure _
    · refine (FailsFor.lift (Registry.failsOnly_coversSetter ha)).bind fun _ _ => ?_
      split
      · exact FailsFor.pure _
      · exact (failsFor_setter (ht.attributeType ha) _ _).bind fun _ _ => FailsFor.pure _

theorem Ready.scaffoldItems {feature : Feature}
    (hfeature : feature ∈ Feature.ofMembers (t.registry.surface t.definition)) :
    FailsFor (t.registry.Blame t.definition) (t.scaffoldItems feature) := by
  cases feature with
  | constant owner decl => exact FailsFor.pure _
  | «attribute» a => exact ht.scaffoldAttribute hfeature
  | field f =>
      have hgetter := failsFor_fieldGetter (ht.fieldType hfeature)
        (ht.feature hfeature .field nofun)
      exact hgetter.bind fun _ _ => FailsFor.pure _
  | operation group => exact (ht.operationSig? hfeature).bind fun _ _ => FailsFor.pure _
  | iterable owner decl => exact (ht.iterableSig hfeature).bind fun _ _ => FailsFor.pure _
  | constructors owner overloads =>
      exact (failsFor_constructor (ht.types hfeature)).bind fun _ _ => FailsFor.pure _

theorem Ready.scaffoldOf {members : List SurfaceMember}
    (hmembers : ∀ feature ∈ Feature.ofMembers members,
      feature ∈ Feature.ofMembers (t.registry.surface t.definition)) :
    FailsFor (t.registry.Blame t.definition) (t.scaffoldOf members) := by
  rw [Target.scaffoldOf]
  refine (FailsFor.lift failsOnly_hasDefaults).bind fun has _ => ?_
  rw [ite_bind]
  refine (FailsFor.of_ite fun _ => FailsFor.pure _).bind fun _ _ => ?_
  refine (FailsFor.mapM fun feature hfeature => ?_).bind fun _ _ => FailsFor.pure _
  exact ht.scaffoldItems (hmembers feature hfeature)

theorem Ready.scaffold : FailsFor (t.registry.Blame t.definition) t.scaffold := by
  have hsurface := ht.scaffoldOf fun _ hfeature => hfeature
  have hown := ht.scaffoldOf fun _ hfeature => mem_features_own hfeature
  rw [Target.scaffold]
  cases t.definition.kind with
  | callback signature => exact FailsFor.pure _
  | enum values => exact FailsFor.pure _
  | dictionary => exact hown.bind fun _ _ => FailsFor.pure _
  | interface => exact hsurface.bind fun _ _ => FailsFor.pure _
  | mixin => exact hsurface.bind fun _ _ => FailsFor.pure _
  | callbackInterface => exact hsurface.bind fun _ _ => FailsFor.pure _

/-- A class cannot be made only where something in the source is to blame. -/
theorem Ready.decl (kind : ArtifactKind) :
    FailsFor (t.registry.Blame t.definition) (t.decl kind) := by
  cases kind with
  | contract => exact ht.contract.bind fun _ _ => FailsFor.pure _
  | defaults => exact ht.defaults
  | scaffold => exact ht.scaffold

end Lookups

end Artifact.Target

namespace Registry

open WebIdl.Artifact

variable {options : IngestOptions} {nodes : List Node} {r : Registry}

/-- A file of a definition fails to be made only where something in the source is to blame. -/
theorem blame_of_file? (h : build options nodes = .ok r) {d : Definition}
    (hd : d ∈ r.definitions) {root : String} {kind : ArtifactKind} {e : Error}
    (hfile : r.file? root d.name kind = .error e) : r.Blame d e := by
  have hready : Target.Ready { registry := r, root, definition := d } :=
    ⟨hd, reserving_of_build h⟩
  have hget : r.definition d.name = .ok d := by
    rw [Catalog.definition, (wellFormed_of_build h).get?_of_mem hd]
  rw [file?, hget] at hfile
  rcases bind_eq_error.mp hfile with hfile | ⟨d', hd', hfile⟩
  · cases hfile
  cases hd'
  rcases bind_eq_error.mp hfile with hfile | ⟨decl, -, hfile⟩
  · exact hready.decl kind _ _ e (Prod.ext hfile rfl)
  · cases hfile

/-- **Every name that is looked up was reserved**: a file of a definition fails to be made
only for a type or a literal of the source, or because an attribute on the surface forwards
to what is not there.  All that a definition offers has a name, and with it all that plays a
role on a surface and the getter of a count. -/
theorem every_lookup_was_reserved (h : build options nodes = .ok r) {d : Definition}
    (hd : d ∈ r.definitions) (root : String) :
    (∀ kind e, r.file? root d.name kind = .error e → r.Cause d e) ∧
    (∀ o ∈ r.definitions, ∀ category key, o.Offers r.toCatalog category key →
      ∃ ident, r.nameOf o.name category key = .ok ident) ∧
    ∀ caps, Capabilities.of r.toCatalog d = .ok caps →
      (∀ kind, ∃ found, r.method? caps kind = .ok found) ∧
        ∃ found, r.countGetter? caps = .ok found := by
  have hreserving := reserving_of_build h
  have hready : Target.Ready { registry := r, root, definition := d } := ⟨hd, hreserving⟩
  exact ⟨fun kind e hfile => (blame_of_file? h hd hfile).cause, hreserving,
    fun caps hcaps => hready.sources hcaps⟩

/-- An attribute that forwards to a property that its type does not have. -/
def astrayNodes : List Node :=
  [.definition {
      name := "Page", kind := .interface,
      members := [attributeNamed "length" "long" .none, {
        kind := .attribute { name := "home", type := .named "Link" false {}, readonly := true }
        attrs := ⟨[{ name := "PutForwards", value := some (.identifier "href") }]⟩ }] },
   .definition { name := "Link", kind := .interface }]

/-- The error of a run that fails. -/
def errorOf? {α : Type} : Except Error α → Option Error
  | .ok _ => none
  | .error e => some e

theorem error_of_errorOf? {α : Type} {x : Except Error α} {e : Error}
    (h : errorOf? x = some e) : x = .error e := by
  cases x with
  | ok a => cases h
  | error e' => cases h; rfl

/-- What fails to be made for an attribute that leads astray fails for that reason, with the
names of the attribute in place. -/
theorem page_fails_at_its_forward :
    ∃ r d, build {} astrayNodes = .ok r ∧ d ∈ r.definitions ∧ d.name = "Page" ∧
      r.file? "App" d.name .contract = .error (.missingName "Link" "setter" "href") ∧
      r.Cause d (.missingName "Link" "setter" "href") ∧
      r.nameOf "Page" .setter "home" = .ok "setHome" ∧
      ∃ caps, Capabilities.of r.toCatalog d = .ok caps ∧
        ∃ found, r.countGetter? caps = .ok found := by
  have hbuild : (build {} astrayNodes).toOption.map (fun r => (r.get? "Page").map fun d =>
      (errorOf? (r.file? "App" d.name .contract), (r.nameOf "Page" .setter "home").toOption.map id,
        (Capabilities.of r.toCatalog d).toOption.map (·.iterates))) =
      some (some (some (.missingName "Link" "setter" "href"), some "setHome", some false)) := by
    decide +kernel
  obtain ⟨r, hr, hfound⟩ := ok_of_toOption_map hbuild
  obtain ⟨d, hd, hfacts⟩ := Option.map_eq_some_iff.mp hfound
  obtain ⟨hfile, hname, hcaps⟩ := by simpa only [Prod.mk.injEq] using hfacts
  obtain ⟨hcause, -, hsources⟩ :=
    every_lookup_was_reserved hr (Catalog.mem_of_get? hd) "App"
  have hfailed := error_of_errorOf? hfile
  obtain ⟨_, hname, rfl⟩ := ok_of_toOption_map hname
  obtain ⟨caps, hcaps, -⟩ := ok_of_toOption_map hcaps
  exact ⟨r, d, hr, Catalog.mem_of_get? hd, Catalog.name_of_get? hd, hfailed,
    hcause .contract _ hfailed, hname, caps, hcaps, (hsources caps hcaps).2⟩

end Registry

end WebIdl
