import WebIdl.Generator
import WebIdl.Proofs.Draft
import WebIdl.Proofs.Outcome

/-!
# WebIdl.Proofs.Emission

Which methods the files of a definition define.

An accessor of an attribute either implements itself, or is inherited, or is left to the
scaffold.  What the two files can have for an attribute is said once (`Scaffolded`,
`Defaulted`): the scaffold defines exactly what is left to it (`defines_scaffoldAttribute`),
and the defaults define what implements itself (`defines_attributeItems`).
-/

namespace WebIdl.Artifact

open WebIdl.Code

/-! ## definitions of methods -/

/-- Whether a method has code. -/
def hasCode : Body → Bool
  | .declared => false
  | .code _ => true
  | .factory _ _ => true

/-- An item defines a method of a name. -/
def ItemDefines (name : String) : Item → Prop
  | .method decl => hasCode decl.body = true ∧ decl.sig.name = name
  | .constants _ => False
  | .usedTrait _ => False
  | .sealedConstructor => False

instance decidableItemDefines (name : String) : (item : Item) → Decidable (ItemDefines name item)
  | .method decl => inferInstanceAs (Decidable (hasCode decl.body = true ∧ decl.sig.name = name))
  | .constants _ => .isFalse id
  | .usedTrait _ => .isFalse id
  | .sealedConstructor => .isFalse id

/-- Some items define a method of a name. -/
def Defines (items : List Item) (name : String) : Prop :=
  ∃ item ∈ items, ItemDefines name item

instance (items : List Item) (name : String) : Decidable (Defines items name) :=
  inferInstanceAs (Decidable (∃ item ∈ items, ItemDefines name item))

section

variable {name : String}

@[simp] theorem defines_nil : ¬ Defines [] name := by
  simp [Defines]

@[simp] theorem defines_cons {item : Item} {items : List Item} :
    Defines (item :: items) name ↔ ItemDefines name item ∨ Defines items name := by
  simp [Defines]

/-- Two lists of items define what the one or the other does. -/
@[simp] theorem defines_append {items items' : List Item} :
    Defines (items ++ items') name ↔ Defines items name ∨ Defines items' name := by
  simp [Defines, or_and_right, exists_or]

/-- Lists of items define what one of them does. -/
@[simp] theorem defines_flatten {lists : List (List Item)} :
    Defines lists.flatten name ↔ ∃ items ∈ lists, Defines items name := by
  simp only [Defines, List.mem_flatten]
  constructor
  · rintro ⟨item, ⟨items, hitems, hitem⟩, h⟩
    exact ⟨items, hitems, item, hitem, h⟩
  · rintro ⟨items, hitems, item, hitem, h⟩
    exact ⟨item, ⟨items, hitems, hitem⟩, h⟩

/-- A method with code defines its name. -/
@[simp] theorem itemDefines_defined {sig : MethodSig} {body : List Stmt} :
    ItemDefines name (Target.defined sig body) ↔ sig.name = name := by
  simp [ItemDefines, Target.defined, hasCode]

/-- A stub defines its name. -/
@[simp] theorem itemDefines_stub {t : Target} {sig : MethodSig} :
    ItemDefines name (t.stub sig) ↔ sig.name = name :=
  itemDefines_defined

end

/-- What defines a method is a method with code. -/
theorem defines_iff {items : List Item} {name : String} : Defines items name ↔
    ∃ method, .method method ∈ items ∧ hasCode method.body = true ∧ method.sig.name = name := by
  constructor
  · rintro ⟨item, hitem, hdefines⟩
    cases item with
    | method method => exact ⟨method, hitem, hdefines⟩
    | constants _ => exact hdefines.elim
    | usedTrait _ => exact hdefines.elim
    | sealedConstructor => exact hdefines.elim
  · rintro ⟨method, hmethod, hdefines⟩
    exact ⟨.method method, hmethod, hdefines⟩

/-- The method that an item defines. -/
def definedName? : Item → Option String
  | .method decl => if hasCode decl.body then some decl.sig.name else none
  | .constants _ => none
  | .usedTrait _ => none
  | .sealedConstructor => none

/-- The methods that some items define, one for each definition. -/
def definedNames (items : List Item) : List String :=
  items.filterMap definedName?

section

variable {name : String} {items items' : List Item}

@[simp] theorem definedNames_append :
    definedNames (items ++ items') = definedNames items ++ definedNames items' :=
  List.filterMap_append

theorem definedNames_flatten (lists : List (List Item)) :
    definedNames lists.flatten = (lists.map definedNames).flatten :=
  List.filterMap_flatten

/-- The defined names are those of methods with code. -/
theorem mem_definedNames : name ∈ definedNames items ↔ Defines items name := by
  rw [definedNames, List.mem_filterMap, Defines]
  refine exists_congr fun item => and_congr_right fun _ => ?_
  cases item <;> simp [definedName?, ItemDefines]

end

end WebIdl.Artifact

namespace WebIdl

/-! ## accessors -/

namespace Registry

variable {r : Registry} {a : OwnedAttribute}

/-- A name that is looked up is the one in the table. -/
theorem name?_of_nameOf {definition key ident : String} {category : NameCategory}
    (h : r.nameOf definition category key = .ok ident) :
    r.name? definition category key = some ident := by
  rw [nameOf] at h
  split at h
  · next found hfound => rw [hfound, Except.ok.inj h]
  · cases h

/-- Whether an accessor of an attribute implements itself. -/
def covers (r : Registry) (a : OwnedAttribute) : NameCategory → Except Error Bool
  | .setter => r.coversSetter a
  | _ => r.coversGetter a

/-- The two accessors of an attribute. -/
def IsAccessor (category : NameCategory) : Prop :=
  category = .getter ∨ category = .setter

/-- An accessor is a getter or a setter. -/
theorem exists_accessor_iff {P : NameCategory → Prop} :
    (∃ category, IsAccessor category ∧ P category) ↔ P .getter ∨ P .setter := by
  constructor
  · rintro ⟨category, rfl | rfl, h⟩
    · exact Or.inl h
    · exact Or.inr h
  · rintro (h | h)
    · exact ⟨.getter, Or.inl rfl, h⟩
    · exact ⟨.setter, Or.inr rfl, h⟩

/-- An attribute of the class forwards. -/
def ForwardsStatic (r : Registry) (a : OwnedAttribute) : Prop :=
  a.isStatic = true ∧ ∃ forward, r.forward? a = .ok (some forward)

/-- What belongs to the class reflects nothing. -/
theorem reflection?_of_static (h : a.isStatic = true) : r.reflection? a = .ok none := by
  rw [reflection?]
  split
  · rfl
  · rw [if_pos h]

/-- The defaults have the getter of what reflects. -/
theorem coversGetter_eq_ok {b : Bool} :
    r.coversGetter a = .ok b ↔ ∃ found, r.reflection? a = .ok found ∧ found.isSome = b := by
  rw [coversGetter, bind_eq_ok]
  simp only [pure_eq_ok]

/-- They have the setter of what reflects, and of what forwards. -/
theorem coversSetter_eq_ok {b : Bool} :
    r.coversSetter a = .ok b ↔
      (∃ reflection, r.reflection? a = .ok (some reflection) ∧ b = true) ∨
      r.reflection? a = .ok none ∧ ∃ found, r.forward? a = .ok found ∧ found.isSome = b := by
  rw [coversSetter, bind_eq_ok]
  constructor
  · rintro ⟨found, hfound, h⟩
    cases found with
    | some reflection => exact Or.inl ⟨reflection, hfound, (pure_eq_ok.mp h).symm⟩
    | none =>
        obtain ⟨forward, hforward, h⟩ := bind_eq_ok.mp h
        exact Or.inr ⟨hfound, forward, hforward, pure_eq_ok.mp h⟩
  · rintro (⟨reflection, hfound, rfl⟩ | ⟨hfound, forward, hforward, rfl⟩)
    · exact ⟨some reflection, hfound, rfl⟩
    · exact ⟨none, hfound, bind_eq_ok.mpr ⟨forward, hforward, rfl⟩⟩

/-- What does not implement itself does not forward. -/
theorem forward?_of_uncovered (h : r.coversSetter a = .ok false) : r.forward? a = .ok none := by
  rcases coversSetter_eq_ok.mp h with ⟨_, -, hcontra⟩ | ⟨-, found, hfound, hnone⟩
  · cases hcontra
  · rw [hfound]
    cases found with
    | none => rfl
    | some forward => cases hnone

/-- What forwards has a target. -/
theorem word?_of_forward? {forward : Forward} (h : r.forward? a = .ok (some forward)) :
    ∃ target, a.attrs.word? "PutForwards" = some target := by
  rw [forward?] at h
  split at h
  · cases h
  next target htarget => exact ⟨target, htarget⟩

/-- An accessor of the class implements itself only as a setter that forwards. -/
theorem forwardsStatic_of_covers {category : NameCategory} (haccessor : IsAccessor category)
    (h : a.isStatic = true) (hcovers : r.covers a category = .ok true) :
    category = .setter ∧ r.ForwardsStatic a := by
  have hreflection := r.reflection?_of_static h
  rcases haccessor with rfl | rfl
  · obtain ⟨found, hfound, hsome⟩ := coversGetter_eq_ok.mp hcovers
    rw [hreflection, Except.ok.injEq] at hfound
    rw [← hfound] at hsome
    cases hsome
  · rcases coversSetter_eq_ok.mp hcovers with ⟨_, hfound, -⟩ | ⟨-, found, hforward, hsome⟩
    · rw [hreflection, Except.ok.injEq] at hfound
      cases hfound
    · obtain ⟨forward, rfl⟩ := Option.isSome_iff_exists.mp hsome
      exact ⟨rfl, h, forward, hforward⟩

/-- A feature gives its definition a method of a name. -/
def Declares (r : Registry) (name : String) : Feature → Prop
  | .constant _ _ => False
  | .attribute a => ∃ category, IsAccessor category ∧
      r.name? a.owner.name category a.decl.name = some name
  | .field f => r.name? f.owner.name .getter f.decl.name = some name
  | .operation group => r.operationName? group = .ok (some name)
  | .iterable owner _ => r.name? owner.name .iterator "" = some name
  | .constructors _ _ => False

/-- A feature leaves a method of a name to the scaffold. -/
def LeavesOpen (r : Registry) (name : String) : Feature → Prop
  | .attribute a => ∃ category, IsAccessor category ∧
      r.name? a.owner.name category a.decl.name = some name ∧
      r.covers a category = .ok false ∧ r.inheritsAccessor a category = false
  | .constructors _ _ => "__construct" = name
  | feature => r.Declares name feature

/-- The names that the code of a feature looks up. -/
inductive LooksUp (r : Registry) : Feature → NameCategory → String → Prop where
  | constant {owner : Definition} {decl : Constant} :
      LooksUp r (.constant owner decl) .constant decl.name
  | getter {a : OwnedAttribute} : LooksUp r (.attribute a) .getter a.decl.name
  | setter {a : OwnedAttribute} : LooksUp r (.attribute a) .setter a.decl.name
  | field {f : OwnedField} : LooksUp r (.field f) .getter f.decl.name
  | named {group : OperationGroup} {name : String} (hname : group.name = some name) :
      LooksUp r (.operation group) .operation name
  | unnamed {group : OperationGroup} {signature : Signature} {others : List Signature}
      {kind : SpecialKind} (hname : group.name = none)
      (hfirst : group.overloads = signature :: others)
      (hkind : r.specialKind group.special signature = .ok (some kind)) :
      LooksUp r (.operation group) .special kind.key
  | iterable {owner : Definition} {decl : Iterable} : LooksUp r (.iterable owner decl) .iterator ""

/-- The method of an operation is the entry of its name or of its role. -/
theorem entry_of_operationName? {group : OperationGroup} {name : String}
    (h : r.operationName? group = .ok (some name)) :
    ∃ category key, r.LooksUp (.operation group) category key ∧
      r.name? group.owner.name category key = some name := by
  rw [operationName?] at h
  split at h
  · next key hname =>
      obtain ⟨ident, hident, h⟩ := bind_eq_ok.mp h
      rw [pure_eq_ok, Option.some.injEq] at h
      exact ⟨.operation, key, .named hname, h ▸ name?_of_nameOf hident⟩
  · next hname =>
      split at h
      · cases h
      · next hfirst =>
          obtain ⟨role, hrole, h⟩ := bind_eq_ok.mp h
          cases role with
          | none => cases h
          | some kind =>
              obtain ⟨ident, hident, h⟩ := bind_eq_ok.mp h
              rw [pure_eq_ok, Option.some.injEq] at h
              exact ⟨.special, kind.key, .unnamed hname hfirst hrole, h ▸ name?_of_nameOf hident⟩

end Registry

namespace Artifact.Target

open WebIdl.Code
open WebIdl.Registry (IsAccessor exists_accessor_iff)

variable {t : Target} {items : List Item} {name : String}

/-- What the scaffold has for an accessor: its stub, unless there is no such accessor or
nothing is left to be written. -/
inductive Scaffolded (t : Target) (a : OwnedAttribute) (category : NameCategory)
    (draft : String → Draft MethodSig) : List Item → Prop where
  | absent (hname : t.registry.name? a.owner.name category a.decl.name = none) :
      Scaffolded t a category draft []
  | done {covered : Bool} (hcovers : t.registry.covers a category = .ok covered)
      (hdone : (covered || t.registry.inheritsAccessor a category) = true) :
      Scaffolded t a category draft []
  | written {ident : String} {sig : MethodSig}
      (hname : t.registry.name? a.owner.name category a.decl.name = some ident)
      (hcovers : t.registry.covers a category = .ok false)
      (hinherits : t.registry.inheritsAccessor a category = false)
      (hsig : Yields (draft ident) sig) : Scaffolded t a category draft [t.stub sig]

/-- The scaffold of an attribute is that of its getter and that of its setter. -/
theorem scaffolded_scaffoldAttribute {a : OwnedAttribute}
    (h : Yields (t.scaffoldAttribute a) items) :
    ∃ getters setters, items = getters ++ setters ∧
      t.Scaffolded a .getter (fun ident => t.getter ident a.decl.type a.isStatic) getters ∧
      t.Scaffolded a .setter (fun ident => t.setter ident a.decl.type a.isStatic) setters := by
  rw [scaffoldAttribute] at h
  obtain ⟨coversGetter, hcoversGetter, h⟩ := h.bind
  rw [ite_bind] at h
  obtain ⟨getters, hgetters, h⟩ := h.bind
  rw [Yields.lift_iff] at hcoversGetter
  have hgetter : t.Scaffolded a .getter (fun ident => t.getter ident a.decl.type a.isStatic)
      getters := by
    split at hgetters
    · next hdone =>
        rw [Yields.pure_iff] at hgetters
        rw [← hgetters]
        exact .done hcoversGetter hdone
    · next hopen =>
        obtain ⟨ident, hident, hgetters⟩ := hgetters.bind
        obtain ⟨sig, hsig, hgetters⟩ := hgetters.bind
        rw [Yields.lift_iff] at hident
        rw [Yields.pure_iff] at hgetters
        rw [Bool.not_eq_true, Bool.or_eq_false_iff] at hopen
        rw [hopen.1] at hcoversGetter
        rw [← hgetters]
        exact .written (Registry.name?_of_nameOf hident) hcoversGetter hopen.2 hsig
  cases hsetter : t.registry.name? a.owner.name .setter a.decl.name with
  | none =>
      rw [hsetter, Yields.pure_iff] at h
      exact ⟨getters, [], by rw [← h, List.append_nil], hgetter, .absent hsetter⟩
  | some setter =>
      simp only [hsetter] at h
      obtain ⟨coversSetter, hcoversSetter, h⟩ := h.bind
      rw [Yields.lift_iff] at hcoversSetter
      split at h
      · next hdone =>
          rw [Yields.pure_iff] at h
          exact ⟨getters, [], by rw [← h, List.append_nil], hgetter, .done hcoversSetter hdone⟩
      · next hopen =>
          obtain ⟨sig, hsig, h⟩ := h.bind
          rw [Yields.pure_iff] at h
          rw [Bool.not_eq_true, Bool.or_eq_false_iff] at hopen
          rw [hopen.1] at hcoversSetter
          exact ⟨getters, _, h.symm, hgetter, .written hsetter hcoversSetter hopen.2 hsig⟩

section

variable {a : OwnedAttribute} {category : NameCategory} {draft : String → Draft MethodSig}

/-- If the scaffold can be made, it is known whether an accessor implements itself. -/
theorem Scaffolded.exists_covers {ident : String} (h : t.Scaffolded a category draft items)
    (hname : t.registry.name? a.owner.name category a.decl.name = some ident) :
    ∃ covered, t.registry.covers a category = .ok covered := by
  cases h with
  | absent habsent =>
      rw [habsent] at hname
      cases hname
  | done hcovers => exact ⟨_, hcovers⟩
  | written _ hcovers => exact ⟨_, hcovers⟩

/-- The scaffold defines an accessor that neither implements itself nor is inherited. -/
theorem Scaffolded.defines_iff (h : t.Scaffolded a category draft items)
    (hdraft : ∀ ident sig, Yields (draft ident) sig → sig.name = ident) :
    Defines items name ↔ t.registry.name? a.owner.name category a.decl.name = some name ∧
      t.registry.covers a category = .ok false ∧
      t.registry.inheritsAccessor a category = false := by
  cases h with
  | absent habsent => simp [habsent]
  | @done covered hcovers hdone =>
      rw [hcovers, Except.ok.injEq]
      simp only [defines_nil, false_iff]
      rintro ⟨-, rfl, hinherits⟩
      rw [hinherits] at hdone
      cases hdone
  | written hname hcovers hinherits hsig =>
      rw [hname]
      simp [hcovers, hinherits, hdraft _ _ hsig]

end

/-- The scaffold defines the accessors of an attribute that do not implement themselves and
are not inherited. -/
theorem defines_scaffoldAttribute {a : OwnedAttribute} (h : Yields (t.scaffoldAttribute a) items) :
    Defines items name ↔ ∃ category, IsAccessor category ∧
      t.registry.name? a.owner.name category a.decl.name = some name ∧
      t.registry.covers a category = .ok false ∧
      t.registry.inheritsAccessor a category = false := by
  obtain ⟨getters, setters, rfl, hgetter, hsetter⟩ := scaffolded_scaffoldAttribute h
  rw [defines_append, exists_accessor_iff,
    hgetter.defines_iff fun _ _ hsig => name_of_getter hsig,
    hsetter.defines_iff fun _ _ hsig => name_of_setter hsig]

/-- What the defaults have for an attribute: both accessors if it reflects, and else the
setter if it forwards, which calls the getter. -/
inductive Defaulted (t : Target) (a : OwnedAttribute) : List Item → Prop where
  | plain (hreflection : t.registry.reflection? a = .ok none)
      (hforward : t.registry.forward? a = .ok none) : Defaulted t a []
  | forwards {forward : Forward} {setter getter call : String} {sig : MethodSig}
      (hreflection : t.registry.reflection? a = .ok none)
      (hforward : t.registry.forward? a = .ok (some forward))
      (hsetter : t.registry.name? a.owner.name .setter a.decl.name = some setter)
      (hsig : Yields (t.setter setter forward.type false) sig)
      (hgetter : t.registry.name? a.owner.name .getter a.decl.name = some getter) :
      Defaulted t a [defined sig [.line [.self getter, .text call]]]
  | reads {reflection : Reflection} {getter : String} {sig : MethodSig}
      (hreflection : t.registry.reflection? a = .ok (some reflection))
      (hgetter : t.registry.name? a.owner.name .getter a.decl.name = some getter)
      (hsig : Yields (t.getter getter a.decl.type false) sig)
      (hsetter : t.registry.name? a.owner.name .setter a.decl.name = none) :
      Defaulted t a [defined sig (getterBody reflection)]
  | reflects {reflection : Reflection} {getter setter : String} {sig sig' : MethodSig}
      (hreflection : t.registry.reflection? a = .ok (some reflection))
      (hgetter : t.registry.name? a.owner.name .getter a.decl.name = some getter)
      (hsig : Yields (t.getter getter a.decl.type false) sig)
      (hsetter : t.registry.name? a.owner.name .setter a.decl.name = some setter)
      (hsig' : Yields (t.setter setter a.decl.type false) sig') :
      Defaulted t a
        [defined sig (getterBody reflection), defined sig' (setterBody reflection)]

/-- The defaults of an attribute follow from how it reflects or forwards. -/
theorem defaulted_attributeItems {a : OwnedAttribute} (h : Yields (t.attributeItems a) items) :
    t.Defaulted a items := by
  rw [attributeItems] at h
  obtain ⟨reflection, hreflection, h⟩ := h.bind
  rw [Yields.lift_iff] at hreflection
  cases reflection with
  | some reflection =>
      obtain ⟨getter, hgetter, h⟩ := h.bind
      obtain ⟨sig, hsig, h⟩ := h.bind
      rw [Yields.lift_iff] at hgetter
      have hgetterName := Registry.name?_of_nameOf hgetter
      cases hsetter : t.registry.name? a.owner.name .setter a.decl.name with
      | none =>
          simp only [hsetter, Yields.pure_iff] at h
          rw [← h]
          exact .reads hreflection hgetterName hsig hsetter
      | some setter =>
          simp only [hsetter] at h
          obtain ⟨sig', hsig', h⟩ := h.bind
          rw [Yields.pure_iff] at h
          rw [← h]
          exact .reflects hreflection hgetterName hsig hsetter hsig'
  | none =>
      obtain ⟨forward, hforward, h⟩ := h.bind
      rw [Yields.lift_iff] at hforward
      cases forward with
      | none =>
          rw [Yields.pure_iff] at h
          rw [← h]
          exact .plain hreflection hforward
      | some forward =>
          obtain ⟨getter, hgetter, h⟩ := h.bind
          obtain ⟨setter, hsetter, h⟩ := h.bind
          obtain ⟨type, -, h⟩ := h.bind
          obtain ⟨sig, hsig, h⟩ := h.bind
          rw [Yields.lift_iff] at hgetter hsetter
          rw [Yields.pure_iff] at h
          rw [← h]
          exact .forwards hreflection hforward (Registry.name?_of_nameOf hsetter) hsig
            (Registry.name?_of_nameOf hgetter)

/-- The defaults define the accessors of an attribute that implement themselves. -/
theorem defines_attributeItems {a : OwnedAttribute} (h : Yields (t.attributeItems a) items) :
    Defines items name ↔ ∃ category, IsAccessor category ∧
      t.registry.name? a.owner.name category a.decl.name = some name ∧
      t.registry.covers a category = .ok true := by
  simp only [exists_accessor_iff, Registry.covers, Registry.coversGetter_eq_ok,
    Registry.coversSetter_eq_ok]
  cases defaulted_attributeItems h with
  | plain hreflection hforward => simp [hreflection, hforward]
  | forwards hreflection hforward hsetter hsig =>
      rw [hsetter]
      simp [hreflection, hforward, name_of_setter hsig]
  | reads hreflection hgetter hsig hsetter =>
      rw [hsetter, hgetter]
      simp [hreflection, name_of_getter hsig]
  | reflects hreflection hgetter hsig hsetter hsig' =>
      rw [hsetter, hgetter]
      simp [hreflection, name_of_getter hsig, name_of_setter hsig']

/-! ## features -/

/-- The getter of a field has the name that was reserved for it. -/
theorem name_of_fieldGetter {f : OwnedField} {sig : MethodSig} (h : Yields (t.fieldGetter f) sig) :
    t.registry.name? f.owner.name .getter f.decl.name = some sig.name := by
  obtain ⟨getter, hgetter, h⟩ := h.bind
  obtain ⟨plain, hplain, h⟩ := h.bind
  rw [Yields.lift_iff] at hgetter
  rw [Yields.pure_iff] at h
  rw [Registry.name?_of_nameOf hgetter, ← h, ← name_of_getter hplain]
  split
  · rfl
  · rfl

theorem name_of_operationSig? {group : OperationGroup} {found : Option MethodSig}
    (h : Yields (t.operationSig? group) found) :
    t.registry.operationName? group = .ok (found.map (·.name)) := by
  obtain ⟨method, hmethod, h⟩ := h.bind
  rw [Yields.lift_iff] at hmethod
  rw [hmethod]
  cases method with
  | none =>
      rw [Yields.pure_iff] at h
      rw [← h]
      rfl
  | some name =>
      obtain ⟨sig, hsig, h⟩ := h.bind
      rw [Yields.pure_iff] at h
      rw [← h, Option.map_some, name_of_operation hsig]

theorem name_of_iterableSig {owner : Definition} {decl : Iterable} {sig : MethodSig}
    (h : Yields (t.iterableSig owner decl) sig) :
    t.registry.name? owner.name .iterator "" = some sig.name := by
  obtain ⟨iterator, hiterator, h⟩ := h.bind
  rw [Yields.lift_iff] at hiterator
  rw [Registry.name?_of_nameOf hiterator, name_of_iterator h]

/-- A method is an accessor of an attribute; `value` tells which types its setter may take. -/
inductive Accessor (t : Target) (a : OwnedAttribute) (value : IdlType → Prop) :
    MethodSig → Prop where
  | getter {ident : String} {sig : MethodSig}
      (hname : t.registry.name? a.owner.name .getter a.decl.name = some ident)
      (h : Yields (t.getter ident a.decl.type a.isStatic) sig) : Accessor t a value sig
  | setter {ident : String} {type : IdlType} {sig : MethodSig}
      (hname : t.registry.name? a.owner.name .setter a.decl.name = some ident)
      (htype : value type) (h : Yields (t.setter ident type a.isStatic) sig) :
      Accessor t a value sig

/-- The accessor of an attribute has the name of a getter or a setter. -/
theorem Accessor.declares {a : OwnedAttribute} {value : IdlType → Prop} {sig : MethodSig}
    (h : t.Accessor a value sig) : t.registry.Declares sig.name (.attribute a) := by
  cases h with
  | getter hname h => exact ⟨.getter, Or.inl rfl, by rw [hname, name_of_getter h]⟩
  | setter hname _ h => exact ⟨.setter, Or.inr rfl, by rw [hname, name_of_setter h]⟩

/-- The contract has the accessors of an attribute; what forwards takes the type that it
forwards to. -/
theorem accessor_contractAttribute {a : OwnedAttribute} {method : Method}
    (h : Yields (t.contractAttribute a) items) (hmethod : .method method ∈ items) :
    t.Accessor a (fun type => ∃ found, t.registry.forward? a = .ok found ∧
      type = (found.map (·.type)).getD a.decl.type) method.sig := by
  obtain ⟨getter, hgetter, h⟩ := h.bind
  obtain ⟨getterSig, hgetterSig, h⟩ := h.bind
  rw [Yields.lift_iff] at hgetter
  have hgetterName := Registry.name?_of_nameOf hgetter
  cases hsetter : t.registry.name? a.owner.name .setter a.decl.name with
  | none =>
      simp only [hsetter, Yields.pure_iff] at h
      subst h
      simp only [declared, List.mem_singleton, Item.method.injEq] at hmethod
      subst hmethod
      exact .getter hgetterName hgetterSig
  | some setter =>
      simp only [hsetter] at h
      obtain ⟨forward, hforward, h⟩ := h.bind
      obtain ⟨setterSig, hsetterSig, h⟩ := h.bind
      rw [Yields.lift_iff] at hforward
      rw [Yields.pure_iff] at h
      subst h
      simp only [declared, List.mem_cons, List.not_mem_nil, or_false, Item.method.injEq] at hmethod
      rcases hmethod with rfl | rfl
      · exact .getter hgetterName hgetterSig
      · refine .setter hsetter ⟨forward, hforward, rfl⟩ ?_
        cases forward with
        | none => exact hsetterSig
        | some forward => exact hsetterSig

/-- What the contract declares for a feature is what the feature gives. -/
theorem declares_contractItems {feature : Feature} {method : Method}
    (h : Yields (t.contractItems feature) items) (hmethod : .method method ∈ items) :
    t.registry.Declares method.sig.name feature := by
  cases feature with
  | constant owner decl =>
      obtain ⟨name, -, h⟩ := h.bind
      obtain ⟨value, -, h⟩ := h.bind
      rw [Yields.pure_iff] at h
      simp [← h] at hmethod
  | «attribute» a => exact (accessor_contractAttribute h hmethod).declares
  | field f =>
      obtain ⟨sig, hsig, h⟩ := h.bind
      rw [Yields.pure_iff] at h
      simp only [← h, declared, List.mem_singleton, Item.method.injEq] at hmethod
      subst hmethod
      exact name_of_fieldGetter hsig
  | operation group =>
      obtain ⟨found, hfound, h⟩ := h.bind
      rw [Yields.pure_iff] at h
      subst h
      obtain ⟨sig, hsig, hsame⟩ := List.mem_map.mp hmethod
      rw [Option.mem_toList] at hsig
      simp only [declared, Item.method.injEq] at hsame
      subst hsame
      have hname := name_of_operationSig? hfound
      rw [hsig] at hname
      exact hname
  | iterable owner decl =>
      obtain ⟨sig, hsig, h⟩ := h.bind
      rw [Yields.pure_iff] at h
      simp only [← h, declared, List.mem_singleton, Item.method.injEq] at hmethod
      subst hmethod
      exact name_of_iterableSig hsig
  | constructors owner overloads =>
      rw [contractItems, Yields.pure_iff] at h
      simp [← h] at hmethod

/-- The scaffold defines what a feature leaves to it. -/
theorem defines_scaffoldItems {feature : Feature} (h : Yields (t.scaffoldItems feature) items) :
    Defines items name ↔ t.registry.LeavesOpen name feature := by
  cases feature with
  | constant owner decl =>
      rw [scaffoldItems, Yields.pure_iff] at h
      simp [← h, Registry.LeavesOpen, Registry.Declares]
  | «attribute» a => exact defines_scaffoldAttribute h
  | field f =>
      obtain ⟨sig, hsig, h⟩ := h.bind
      rw [Yields.pure_iff] at h
      simp [← h, Registry.LeavesOpen, Registry.Declares, name_of_fieldGetter hsig]
  | operation group =>
      obtain ⟨found, hfound, h⟩ := h.bind
      rw [Yields.pure_iff] at h
      simp only [← h, Registry.LeavesOpen, Registry.Declares, name_of_operationSig? hfound]
      cases found with
      | none => simp
      | some sig => simp
  | iterable owner decl =>
      obtain ⟨sig, hsig, h⟩ := h.bind
      rw [Yields.pure_iff] at h
      simp [← h, Registry.LeavesOpen, Registry.Declares, name_of_iterableSig hsig]
  | constructors owner overloads =>
      obtain ⟨sig, hsig, h⟩ := h.bind
      rw [Yields.pure_iff] at h
      simp [← h, Registry.LeavesOpen, name_of_constructor hsig]

end Artifact.Target

end WebIdl
