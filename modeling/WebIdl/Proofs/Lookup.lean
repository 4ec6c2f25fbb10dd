import WebIdl.Proofs.Emission
import WebIdl.Proofs.Faults
import WebIdl.Proofs.Reserved
import WebIdl.Proofs.WrittenTypes

/-!
# WebIdl.Proofs.Lookup

Why the files of a definition cannot be made.

A name that the code looks up is one that its owner offers, so no look-up fails.  What can
fail is a type or a literal of the source, and the look-up of the attribute that a
`[PutForwards]` attribute forwards to, which may not be there (`Registry.Cause`).  A type
that fails is one that is written in the source, with something wrong with it
(`Registry.Blame`).
-/

namespace WebIdl

open WebIdl.Code

/-! ## causes -/

/-- An attribute that has a word is there. -/
theorem ExtAttrs.has_of_word? {attrs : ExtAttrs} {name word : String}
    (h : attrs.word? name = some word) : attrs.has name = true := by
  rw [word?] at h
  exact Option.isSome_of_isSome_bind (by rw [h]; rfl)

namespace Registry

/-- Why a file of a definition cannot be made: a type or a literal of the source, or an
attribute on the surface that forwards to what is not there. -/
inductive Cause (r : Registry) (d : Definition) : Error → Prop where
  | unknownType (name : String) : Cause r d (.unknownType name)
  | unsupportedType (fault : MappingFault) : Cause r d (.unsupportedType fault)
  | unsupportedLiteral (spelling : String) : Cause r d (.unsupportedLiteral spelling)
  | forwardsToNothing {a : OwnedAttribute} {target name : String}
      (ha : .attribute a ∈ Feature.ofMembers (r.surface d))
      (htarget : a.attrs.word? "PutForwards" = some target)
      (h : r.forward? a = .error (.unknownDefinition name)) :
      Cause r d (.unknownDefinition name)
  | forwardsToNoSetter {a : OwnedAttribute} {target name : String}
      (ha : .attribute a ∈ Feature.ofMembers (r.surface d))
      (htarget : a.attrs.word? "PutForwards" = some target)
      (h : r.forward? a = .error (.missingName name NameCategory.setter.text target)) :
      Cause r d (.missingName name NameCategory.setter.text target)

/-- What is to blame for it: a type that is written in the source and something is wrong
with, a literal, or an attribute on the surface. -/
inductive Blame (r : Registry) (d : Definition) : Error → Prop where
  | type {type : IdlType} {e : Error} (htype : type ∈ r.types) (h : r.Faulty type e) : Blame r d e
  | cycle (path : List String) : Blame r d (.unsupportedType (.typedefCycle path))
  | forwardsToNoInterface (owner member : String) :
      Blame r d (.unsupportedType (.forwardsToNoInterface owner member))
  | unsupportedLiteral (spelling : String) : Blame r d (.unsupportedLiteral spelling)
  | forwardsToNothing {a : OwnedAttribute} {target name : String}
      (ha : .attribute a ∈ Feature.ofMembers (r.surface d))
      (htarget : a.attrs.word? "PutForwards" = some target)
      (h : r.forward? a = .error (.unknownDefinition name)) :
      Blame r d (.unknownDefinition name)
  | forwardsToNoSetter {a : OwnedAttribute} {target name : String}
      (ha : .attribute a ∈ Feature.ofMembers (r.surface d))
      (htarget : a.attrs.word? "PutForwards" = some target)
      (h : r.forward? a = .error (.missingName name NameCategory.setter.text target)) :
      Blame r d (.missingName name NameCategory.setter.text target)

/-- What is to blame is a cause. -/
theorem Blame.cause {r : Registry} {d : Definition} {e : Error} (h : r.Blame d e) :
    r.Cause d e := by
  cases h with
  | type _ h =>
      cases h with
      | unknown name => exact .unknownType name
      | cycle => exact .unsupportedType _
      | inside => exact .unsupportedType _
      | arity => exact .unsupportedType _
  | cycle => exact .unsupportedType _
  | forwardsToNoInterface => exact .unsupportedType _
  | unsupportedLiteral spelling => exact .unsupportedLiteral spelling
  | forwardsToNothing ha htarget h => exact .forwardsToNothing ha htarget h
  | forwardsToNoSetter ha htarget h => exact .forwardsToNoSetter ha htarget h

/-- A typedef that leads back to itself is to blame wherever it is met. -/
theorem Blame.of_typedef {r : Registry} {d : Definition} (e : Error) (h : e.ofTypedef) :
    r.Blame d e := by
  unfold Error.ofTypedef at h
  split at h
  · exact .cycle _
  · exact h.elim

variable {r : Registry} {d : Definition}

/-- Resolving a type fails only for what is to blame. -/
theorem failsOnly_resolve (type : IdlType) : FailsOnly (r.Blame d) (r.resolve type) :=
  (r.toCatalog.failsOnly_resolve type).mono Blame.of_typedef

theorem failsOnly_specialKind (special : OperationSpecial) (signature : Signature) :
    FailsOnly (r.Blame d) (r.specialKind special signature) :=
  (r.toCatalog.failsOnly_specialKind special signature).mono Blame.of_typedef

/-- The capabilities of any definition are known, or something is to blame. -/
theorem failsOnly_capabilities (other : Definition) :
    FailsOnly (r.Blame d) (Capabilities.of r.toCatalog other) :=
  (Capabilities.failsOnly_of r.toCatalog other).mono Blame.of_typedef

/-- A literal is written, or it is to blame itself. -/
theorem failsOnly_literalText (literal : Literal) :
    FailsOnly (r.Blame d) (literalText literal) := by
  unfold literalText
  split
  · split
    · exact FailsOnly.ok _
    · exact FailsOnly.error (.unsupportedLiteral _)
  all_goals exact FailsOnly.ok _

/-- Whether an attribute reflects is known, or something is to blame. -/
theorem failsOnly_reflection? (a : OwnedAttribute) : FailsOnly (r.Blame d) (r.reflection? a) := by
  rw [reflection?]
  split
  · exact FailsOnly.ok _
  · split
    · exact FailsOnly.ok _
    · refine (failsOnly_resolve _).bind fun type => ?_
      split
      · exact FailsOnly.ok _
      · split
        all_goals try exact FailsOnly.ok _
        · split
          · split <;> exact FailsOnly.ok _
          · exact FailsOnly.ok _

/-- The first indexed getter is found, or something is to blame. -/
theorem failsOnly_firstIndexedResult? (items : List SurfaceMember) :
    FailsOnly (r.Blame d) (r.firstIndexedResult? items) := by
  induction items with
  | nil => exact FailsOnly.ok _
  | cons item rest ih =>
      rw [firstIndexedResult?]
      refine FailsOnly.bind ?_ fun found => ?_
      · rw [indexedResult?]
        split
        · refine (failsOnly_specialKind _ _).bind fun role => ?_
          split <;> exact FailsOnly.ok _
        · exact FailsOnly.ok _
      · split
        · exact FailsOnly.ok _
        · exact ih

/-- What an attribute forwards to may not be there. -/
theorem failsOnly_forward? {a : OwnedAttribute}
    (ha : .attribute a ∈ Feature.ofMembers (r.surface d)) :
    FailsOnly (r.Blame d) (r.forward? a) := by
  intro e he
  have hforward := he
  rw [forward?] at he
  split at he
  · cases he
  next target htarget =>
    rcases bind_eq_error.mp he with he | ⟨type, -, he⟩
    · exact failsOnly_resolve _ e he
    · split at he
      · cases he
        exact .forwardsToNoInterface _ _
      next name _ =>
        rcases bind_eq_error.mp he with he | ⟨found, -, he⟩
        · rw [Catalog.definition] at he
          split at he
          · cases he
          · cases he
            exact .forwardsToNothing ha htarget hforward
        · split at he
          · cases he
          · cases he
            exact .forwardsToNoSetter ha htarget hforward

/-- Whether the defaults have a setter is known, or something is to blame. -/
theorem failsOnly_coversSetter {a : OwnedAttribute}
    (ha : .attribute a ∈ Feature.ofMembers (r.surface d)) :
    FailsOnly (r.Blame d) (r.coversSetter a) := by
  rw [coversSetter]
  refine (failsOnly_reflection? a).bind fun found => ?_
  split
  · exact FailsOnly.ok _
  · exact (failsOnly_forward? ha).bind fun _ => FailsOnly.ok _

/-! ## names that are there -/

/-- Every definition has the names that it offers. -/
def Reserving (r : Registry) : Prop :=
  ∀ d ∈ r.definitions, ∀ category key, d.Offers r.toCatalog category key →
    ∃ ident, r.nameOf d.name category key = .ok ident

/-- A registry that is built has reserved whatever its files look up. -/
theorem reserving_of_build {options : IngestOptions} {nodes : List Node}
    (h : build options nodes = .ok r) : r.Reserving := by
  intro d hd category key hoffers
  obtain ⟨ident, hident⟩ := exists_name h hd hoffers
  exact ⟨ident, by rw [nameOf, hident]⟩

/-- A member on a surface belongs to a definition of the registry. -/
theorem mem_of_mem_surface (hd : d ∈ r.definitions) {item : SurfaceMember}
    (h : item ∈ r.surface d) : item.owner ∈ r.definitions ∧ item.member ∈ item.owner.members := by
  rw [Catalog.surface_eq] at h
  obtain ⟨owner, howner, hitem⟩ := List.mem_flatMap.mp h
  obtain ⟨member, hmember, rfl⟩ := List.mem_map.mp hitem
  refine ⟨?_, hmember⟩
  rcases List.mem_cons.mp howner with rfl | howner
  · exact hd
  · exact Catalog.mem_of_get? (Catalog.mem_definitionsOf.mp howner).2

/-- The types of a feature on a surface are written in the source. -/
theorem types_of_feature (hd : d ∈ r.definitions) {feature : Feature}
    (h : feature ∈ Feature.ofMembers (r.surface d)) : feature.types ⊆ r.types := by
  intro type htype
  obtain ⟨item, hitem, htype⟩ := Feature.types_of_mem h htype
  obtain ⟨howner, hmember⟩ := mem_of_mem_surface hd hitem
  exact Catalog.types_of_definition howner (Definition.types_of_member hmember htype)

/-- The type of what an attribute forwards to is written in the source. -/
theorem type_of_forward? {a : OwnedAttribute} {forward : Forward}
    (h : r.forward? a = .ok (some forward)) : forward.type ∈ r.types := by
  rw [forward?] at h
  split at h
  · cases h
  simp only [bind_eq_ok] at h
  obtain ⟨type, -, h⟩ := h
  split at h
  · cases h
  simp only [bind_eq_ok] at h
  obtain ⟨target, htarget, h⟩ := h
  split at h
  next hfound _ =>
    cases h
    rw [attributeType?] at hfound
    obtain ⟨item, hitem, hfound⟩ := List.exists_of_findSome?_eq_some hfound
    obtain ⟨owner, howner, hitem⟩ := List.mem_flatMap.mp hitem
    have hknown : owner ∈ r.definitions := by
      rcases List.mem_cons.mp howner with rfl | howner
      · exact Catalog.mem_of_definition htarget
      · exact Catalog.mem_of_get? (Catalog.mem_definitionsOf.mp howner).2
    obtain ⟨hknown, hmember⟩ := mem_of_mem_surface hknown hitem
    refine Catalog.types_of_definition hknown (Definition.types_of_member hmember ?_)
    split at hfound
    next hkind =>
      split at hfound
      · cases hfound
        simp [hkind, MemberKind.types]
      · cases hfound
    next => cases hfound
  next => cases h

/-- The result of an indexed getter is written in the source. -/
theorem type_of_firstIndexedResult? {items : List SurfaceMember} {type : IdlType}
    (hitems : ∀ item ∈ items, item.owner ∈ r.definitions ∧ item.member ∈ item.owner.members)
    (h : r.firstIndexedResult? items = .ok (some type)) : type ∈ r.types := by
  induction items with
  | nil => cases h
  | cons item rest ih =>
      simp only [firstIndexedResult?, bind_eq_ok] at h
      obtain ⟨found, hfound, h⟩ := h
      split at h
      · cases h
        obtain ⟨howner, hmember⟩ := hitems item List.mem_cons_self
        refine Catalog.types_of_definition howner (Definition.types_of_member hmember ?_)
        rw [indexedResult?] at hfound
        split at hfound
        next decl hkind =>
          simp only [bind_eq_ok] at hfound
          obtain ⟨role, -, hfound⟩ := hfound
          split at hfound
          · cases hfound
            simp [hkind, MemberKind.types, Signature.types]
          · cases hfound
        next => cases hfound
      · exact ih (fun item hitem => hitems item (List.mem_cons_of_mem _ hitem)) h

/-- The names of a feature are offered by its owner, among them the setter of what forwards. -/
theorem LooksUp.offers {feature : Feature} {items : List SurfaceMember} {category : NameCategory}
    {key : String} (h : r.LooksUp feature category key)
    (hfeature : feature ∈ Feature.ofMembers items)
    (hitems : ∀ item ∈ items, item.owner ∈ r.definitions ∧ item.member ∈ item.owner.members)
    (hforwards : category = .setter → ∃ a target, feature = .attribute a ∧
      a.attrs.word? "PutForwards" = some target) :
    feature.owner ∈ r.definitions ∧ feature.owner.Offers r.toCatalog category key := by
  obtain ⟨item, hitem, hstarts⟩ := Feature.starts_of_mem hfeature
  obtain ⟨howner, hmember⟩ := hitems item hitem
  cases h with
  | constant =>
      cases hstarts with
      | constant h => exact ⟨howner, .constant hmember h⟩
  | getter =>
      cases hstarts with
      | «attribute» h => exact ⟨howner, .getter hmember h⟩
  | setter =>
      obtain ⟨_, target, hsame, htarget⟩ := hforwards rfl
      cases hsame
      cases hstarts with
      | «attribute» h => exact ⟨howner, .setter hmember h (Or.inr (ExtAttrs.has_of_word? htarget))⟩
  | field =>
      cases hstarts with
      | field h => exact ⟨howner, .field hmember h⟩
  | named hname =>
      cases hstarts with
      | operation h => exact ⟨howner, .named hmember h hname⟩
  | unnamed hname hfirst hkind =>
      cases hstarts with
      | operation h =>
          cases hfirst
          exact ⟨howner, .unnamed hmember h hname hkind⟩
  | iterable =>
      cases hstarts with
      | iterable h => exact ⟨howner, .iterable hmember h⟩

end Registry

/-! ## methods -/

namespace Artifact.Target

variable {t : Target}

/-- The two renderings of a type fail only where something is wrong with it. -/
theorem failsFor_type {type : IdlType} (h : type ∈ t.registry.types) (position : Position) :
    FailsFor (t.registry.Blame t.definition) (t.type type position) := by
  obtain ⟨hbinding, hdoc, hreferences⟩ := t.registry.failsOnly_renderings
    { root := t.root, definition := t.definition.name, position } type
  have hblame : ∀ e, t.registry.Faulty type e → t.registry.Blame t.definition e :=
    fun _ => .type h
  rw [Target.type]
  refine (FailsFor.lift (hbinding.mono hblame)).bind fun _ _ => ?_
  refine (FailsFor.lift (hdoc.mono hblame)).bind fun _ _ => ?_
  refine (FailsFor.lift (hreferences.mono hblame)).bind fun _ _ => ?_
  exact (FailsFor.note _).bind fun _ _ => FailsFor.pure _

/-- A parameter of a type that is written in the source is rendered, or something is to blame. -/
theorem failsFor_param {argument : Argument} (h : argument.type ∈ t.registry.types) :
    FailsFor (t.registry.Blame t.definition) (t.param argument) := by
  rw [Target.param]
  refine (failsFor_type h _).bind fun type _ => ?_
  dsimp only
  split
  · exact FailsFor.pure _
  · split
    · split
      · exact (FailsFor.lift (Registry.failsOnly_literalText _)).bind fun _ _ => FailsFor.pure _
      · exact FailsFor.pure _
    · exact FailsFor.pure _

theorem failsFor_params {arguments : List Argument}
    (h : arguments.map (·.type) ⊆ t.registry.types) :
    FailsFor (t.registry.Blame t.definition) (t.params arguments) :=
  FailsFor.mapM fun _ hargument => failsFor_param (h (List.mem_map_of_mem hargument))

theorem failsFor_operation {overloads : List Signature}
    (h : overloads.flatMap Signature.types ⊆ t.registry.types) (name : String)
    (isStatic : Bool) :
    FailsFor (t.registry.Blame t.definition) (t.operation name overloads isStatic) := by
  rw [Target.operation]
  refine (FailsFor.mapM fun signature hsignature => ?_).bind fun _ _ => FailsFor.pure _
  have hsignature : signature.types ⊆ t.registry.types := fun _ htype =>
    h (List.mem_flatMap.mpr ⟨signature, hsignature, htype⟩)
  rw [Signature.types, List.cons_subset] at hsignature
  rw [Target.overload]
  exact (failsFor_type hsignature.1 _).bind fun _ _ =>
    (failsFor_params hsignature.2).bind fun _ _ => FailsFor.pure _

theorem failsFor_constructor {overloads : List (List Argument)}
    (h : overloads.flatten.map (·.type) ⊆ t.registry.types) :
    FailsFor (t.registry.Blame t.definition) (t.constructor overloads) := by
  rw [Target.constructor]
  refine (FailsFor.mapM fun arguments harguments => ?_).bind fun _ _ => FailsFor.pure _
  have hsublist := List.map_subset (·.type) (List.sublist_flatten_of_mem harguments).subset
  exact (failsFor_params (List.Subset.trans hsublist h)).bind fun _ _ => FailsFor.pure _

theorem failsFor_getter {type : IdlType} (h : type ∈ t.registry.types) (name : String)
    (isStatic : Bool) :
    FailsFor (t.registry.Blame t.definition) (t.getter name type isStatic) := by
  rw [Target.getter]
  exact (failsFor_type h _).bind fun _ _ => FailsFor.pure _

theorem failsFor_setter {type : IdlType} (h : type ∈ t.registry.types) (name : String)
    (isStatic : Bool) :
    FailsFor (t.registry.Blame t.definition) (t.setter name type isStatic) := by
  rw [Target.setter]
  exact (failsFor_type h _).bind fun _ _ => FailsFor.pure _

theorem failsFor_iterator {key : Option IdlType} {value : IdlType}
    (h : key.toList ++ [value] ⊆ t.registry.types) (name : String) :
    FailsFor (t.registry.Blame t.definition) (t.iterator name key value) := by
  have hvalue : value ∈ t.registry.types := h (by simp)
  cases key with
  | some key =>
      exact (failsFor_type (h (by simp)) _).bind fun _ _ => (FailsFor.pure _).bind fun _ _ =>
        (failsFor_type hvalue _).bind fun _ _ => FailsFor.pure _
  | none =>
      exact (FailsFor.pure _).bind fun _ _ => (failsFor_type hvalue _).bind
        fun _ _ => FailsFor.pure _

end Artifact.Target

end WebIdl
