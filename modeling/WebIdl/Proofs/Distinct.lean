import WebIdl.Proofs.Coverage
import WebIdl.Proofs.Lookup

/-!
# WebIdl.Proofs.Distinct

The scaffold and the defaults of a definition never define a method twice.

Every method has a name of its own unless two features have one entry.  Features start at
different members (`Feature.pairwise_ofMembersAfter`), so on a tidy surface no two of them
do (`Tidy.apart`).  What is left is an attribute, whose accessors the scaffold leaves to
the defaults exactly when they implement themselves.
-/

namespace WebIdl

open Relation Text

/-! ## features start at different members -/

namespace Feature

/-- What a feature has its turn for: an operation of its name, or the constructors. -/
def turn? : Feature → Option (String × Option String)
  | .operation group => group.name.map fun name => (group.owner.name, some name)
  | .constructors owner _ => some (owner.name, none)
  | _ => none

/-- What had its turn before does not come again. -/
theorem turn_of_mem {operations : List (String × String)} {constructors : List String}
    {items : List SurfaceMember} {feature : Feature} {key : String × Option String}
    (h : feature ∈ ofMembersAfter operations constructors items)
    (hturn : feature.turn? = some key) : ¬ Done operations constructors key := by
  fun_induction ofMembersAfter operations constructors items with
  | case1 => cases h
  | case2 operations constructors item rest owner decl hkind ih
  | case3 operations constructors item rest owner decl hkind ih
  | case4 operations constructors item rest owner decl hkind ih
  | case5 operations constructors item rest owner decl hkind ih
  | case6 operations constructors item rest owner signature special hkind ih =>
      cases h with
      | head => cases hturn
      | tail _ h => exact ih h
  | case7 operations constructors item rest owner name signature special hkind hdone ih =>
      exact ih h
  | case8 operations constructors item rest owner name signature special hkind hnew _ ih =>
      cases h with
      | head =>
          cases hturn
          simpa [Done] using hnew
      | tail _ h =>
          intro hdone
          refine ih h ?_
          obtain ⟨o, _ | n⟩ := key
          · exact hdone
          · exact List.mem_cons_of_mem _ hdone
  | case9 operations constructors item rest owner arguments hkind hdone ih => exact ih h
  | case10 operations constructors item rest owner arguments hkind hnew ih =>
      cases h with
      | head =>
          cases hturn
          simpa [Done] using hnew
      | tail _ h =>
          intro hdone
          refine ih h ?_
          obtain ⟨o, _ | n⟩ := key
          · exact List.mem_cons_of_mem _ hdone
          · exact hdone

/-- Two features start at two members, one after the other, and have not one turn. -/
theorem pairwise_ofMembersAfter {R : SurfaceMember → SurfaceMember → Prop}
    {operations : List (String × String)} {constructors : List String}
    {items : List SurfaceMember} (h : items.Pairwise R) :
    (ofMembersAfter operations constructors items).Pairwise fun f g =>
      (∀ key, f.turn? = some key → g.turn? ≠ some key) ∧
        ∃ x y, R x y ∧ Starts x f ∧ Starts y g := by
  have hcons : ∀ {operations constructors item rest f}, (∀ y ∈ rest, R item y) →
      Starts item f → (∀ key, f.turn? = some key → Done operations constructors key) →
      ∀ g ∈ ofMembersAfter operations constructors rest,
        (∀ key, f.turn? = some key → g.turn? ≠ some key) ∧
          ∃ x y, R x y ∧ Starts x f ∧ Starts y g := by
    intro operations constructors item rest f hitem hf hdone g hg
    obtain ⟨y, hy, hstarts⟩ := starts_of_mem hg
    exact ⟨fun key hkey hturn => turn_of_mem hg hturn (hdone key hkey),
      item, y, hitem y hy, hf, hstarts⟩
  fun_induction ofMembersAfter operations constructors items with
  | case1 => exact List.Pairwise.nil
  | case2 operations constructors item rest owner decl hkind ih =>
      obtain ⟨hitem, hrest⟩ := List.pairwise_cons.mp h
      exact (ih hrest).cons (hcons hitem (.constant hkind) (by rintro _ ⟨⟩))
  | case3 operations constructors item rest owner decl hkind ih =>
      obtain ⟨hitem, hrest⟩ := List.pairwise_cons.mp h
      exact (ih hrest).cons (hcons hitem (.attribute hkind) (by rintro _ ⟨⟩))
  | case4 operations constructors item rest owner decl hkind ih =>
      obtain ⟨hitem, hrest⟩ := List.pairwise_cons.mp h
      exact (ih hrest).cons (hcons hitem (.field hkind) (by rintro _ ⟨⟩))
  | case5 operations constructors item rest owner decl hkind ih =>
      obtain ⟨hitem, hrest⟩ := List.pairwise_cons.mp h
      exact (ih hrest).cons (hcons hitem (.iterable hkind) (by rintro _ ⟨⟩))
  | case6 operations constructors item rest owner signature special hkind ih =>
      obtain ⟨hitem, hrest⟩ := List.pairwise_cons.mp h
      exact (ih hrest).cons (hcons hitem (.operation hkind) (by rintro _ ⟨⟩))
  | case7 operations constructors item rest owner name signature special hkind hdone ih =>
      exact ih h.of_cons
  | case8 operations constructors item rest owner name signature special hkind hnew _ ih =>
      obtain ⟨hitem, hrest⟩ := List.pairwise_cons.mp h
      refine (ih hrest).cons (hcons hitem (.operation hkind) ?_)
      rintro _ ⟨⟩
      exact List.mem_cons_self
  | case9 operations constructors item rest owner arguments hkind hdone ih => exact ih h.of_cons
  | case10 operations constructors item rest owner arguments hkind hnew ih =>
      obtain ⟨hitem, hrest⟩ := List.pairwise_cons.mp h
      refine (ih hrest).cons (hcons hitem (.constructors hkind) ?_)
      rintro _ ⟨⟩
      exact List.mem_cons_self

end Feature

/-- What holds of any two features holds of any two attributes. -/
theorem pairwise_instanceAttributes {R : Feature → Feature → Prop} {items : List SurfaceMember}
    (h : (Feature.ofMembers items).Pairwise R) :
    (instanceAttributes items).Pairwise fun a b => R (.attribute a) (.attribute b) := by
  rw [instanceAttributes, List.pairwise_filterMap]
  refine h.imp fun {f g} hR a ha b hb => ?_
  cases f with
  | «attribute» decl =>
      cases g with
      | «attribute» decl' =>
          simp only [Option.ite_none_left_eq_some, Option.some.injEq] at ha hb
          rw [← ha.2, ← hb.2]
          exact hR
      | _ => cases hb
  | _ => cases ha

/-! ## tidy surfaces -/

/-- Operations without a name have different keys for different roles. -/
theorem SpecialKind.key_injective {kind kind' : SpecialKind} (h : kind.key = kind'.key) :
    kind = kind' := by
  revert h
  cases kind <;> cases kind' <;> decide

namespace SurfaceMember

/-- The name of a member that is an attribute. -/
def attributeName? (item : SurfaceMember) : Option String :=
  match item.member.kind with
  | .attribute decl => some decl.name
  | _ => none

/-- The owner and the name of a member that is a field. -/
def fieldKey? (item : SurfaceMember) : Option (String × String) :=
  match item.member.kind with
  | .field decl => some (item.owner.name, decl.name)
  | _ => none

/-- The owner of a member that is a constructor. -/
def constructorOwner? (item : SurfaceMember) : Option String :=
  match item.member.kind with
  | .constructor _ => some item.owner.name
  | _ => none

/-- Whether a member tells what its owner iterates over. -/
def isIterable (item : SurfaceMember) : Bool :=
  match item.member.kind with
  | .iterable _ => true
  | _ => false

end SurfaceMember

namespace Registry

/-- The owner and the role of a member that is an operation without a name. -/
def unnamedRole? (r : Registry) (item : SurfaceMember) : Option (String × SpecialKind) :=
  match item.member.kind with
  | .operation { name := none, signature, special } =>
    match r.specialKind special signature with
    | .ok (some kind) => some (item.owner.name, kind)
    | _ => none
  | _ => none

end Registry

/-! ### what a feature tells of the member that it starts at -/

namespace Feature.Starts

variable {item : SurfaceMember}

theorem attributeName? {a : OwnedAttribute} (h : Starts item (.attribute a)) :
    item.attributeName? = some a.decl.name := by
  cases h with
  | «attribute» hkind => rw [SurfaceMember.attributeName?, hkind]

theorem fieldKey? {f : OwnedField} (h : Starts item (.field f)) :
    item.fieldKey? = some (f.owner.name, f.decl.name) := by
  cases h with
  | field hkind => rw [SurfaceMember.fieldKey?, hkind]

theorem constructorOwner? {owner : Definition} {overloads : List (List Argument)}
    (h : Starts item (.constructors owner overloads)) :
    item.constructorOwner? = some owner.name := by
  cases h with
  | constructors hkind => rw [SurfaceMember.constructorOwner?, hkind]

theorem isIterable {owner : Definition} {decl : Iterable} (h : Starts item (.iterable owner decl)) :
    item.isIterable = true := by
  cases h with
  | iterable hkind => rw [SurfaceMember.isIterable, hkind]

theorem unnamedRole? {r : Registry} {group : OperationGroup} {signature : Signature}
    {others : List Signature} {kind : SpecialKind} (h : Starts item (.operation group))
    (hname : group.name = none) (hfirst : group.overloads = signature :: others)
    (hkind : r.specialKind group.special signature = .ok (some kind)) :
    r.unnamedRole? item = some (group.owner.name, kind) := by
  cases h with
  | @operation decl _ hoperation =>
      obtain ⟨name, first, special⟩ := decl
      cases hname
      cases hfirst
      simp only [Registry.unnamedRole?, hoperation, hkind]

end Feature.Starts

namespace Registry

/-- The attributes on a surface have different names, at most one member tells what is
iterated over, no owner has two operations without a name for one role, and constructors
belong to one owner. -/
structure ValidSurface (r : Registry) (d : Definition) : Prop where
  attributes : ((r.surface d).filterMap (·.attributeName?)).Nodup
  iterable : (r.surface d).countP (·.isIterable) ≤ 1
  roles : ((r.surface d).filterMap r.unnamedRole?).Nodup
  constructors : ((r.surface d).filterMap (·.constructorOwner?)).Pairwise (· = ·)

/-- The fields on a valid surface differ as well: no owner has two of one name, and none has
the name of an attribute. -/
structure Tidy (r : Registry) (d : Definition) : Prop extends r.ValidSurface d where
  fields : ((r.surface d).filterMap (·.fieldKey?)).Nodup
  unlike : ∀ key ∈ (r.surface d).filterMap (·.fieldKey?),
    key.2 ∉ (r.surface d).filterMap (·.attributeName?)

variable {r : Registry} {d : Definition}

instance : Decidable (r.ValidSurface d) :=
  decidable_of_iff (((r.surface d).filterMap (·.attributeName?)).Nodup ∧
    (r.surface d).countP (·.isIterable) ≤ 1 ∧ ((r.surface d).filterMap r.unnamedRole?).Nodup ∧
    ((r.surface d).filterMap (·.constructorOwner?)).Pairwise (· = ·))
    ⟨fun ⟨h₁, h₂, h₃, h₄⟩ => ⟨h₁, h₂, h₃, h₄⟩, fun ⟨h₁, h₂, h₃, h₄⟩ => ⟨h₁, h₂, h₃, h₄⟩⟩

instance : Decidable (r.Tidy d) :=
  decidable_of_iff (r.ValidSurface d ∧ ((r.surface d).filterMap (·.fieldKey?)).Nodup ∧
    ∀ key ∈ (r.surface d).filterMap (·.fieldKey?),
      key.2 ∉ (r.surface d).filterMap (·.attributeName?))
    ⟨fun ⟨h₁, h₂, h₃⟩ => ⟨h₁, h₂, h₃⟩, fun ⟨h₁, h₂, h₃⟩ => ⟨h₁, h₂, h₃⟩⟩

/-- Two members of a tidy surface. -/
structure Separate (r : Registry) (x y : SurfaceMember) : Prop where
  attributes : ∀ name, x.attributeName? = some name → ∀ name', y.attributeName? = some name' →
    name ≠ name'
  iterable : x.isIterable = true → y.isIterable = false
  roles : ∀ role, r.unnamedRole? x = some role → ∀ role', r.unnamedRole? y = some role' →
    role ≠ role'
  constructors : ∀ owner, x.constructorOwner? = some owner →
    ∀ owner', y.constructorOwner? = some owner' → owner = owner'
  fields : ∀ key, x.fieldKey? = some key → ∀ key', y.fieldKey? = some key' → key ≠ key'

/-- Members of a tidy definition are separate. -/
theorem Tidy.separate (h : r.Tidy d) : (r.surface d).Pairwise r.Separate := by
  have hiterable : (r.surface d).Pairwise fun x y =>
      x.isIterable = true → y.isIterable = false := by
    have hshort := h.iterable
    rw [List.countP_eq_length_filter] at hshort
    have hnone : ((r.surface d).filter (·.isIterable)).Pairwise fun _ _ => False := by
      rcases Nat.le_one_iff_eq_zero_or_eq_one.mp hshort with hzero | hone
      · rw [List.length_eq_zero_iff.mp hzero]
        exact List.Pairwise.nil
      · obtain ⟨item, hitem⟩ := List.length_eq_one_iff.mp hone
        rw [hitem]
        exact List.pairwise_singleton _ _
    rw [List.pairwise_filter] at hnone
    refine hnone.imp fun hxy hx => ?_
    rw [Bool.eq_false_iff]
    exact fun hy => hxy hx hy
  have hpairs := (((List.pairwise_filterMap.mp h.attributes).and hiterable).and
    (List.pairwise_filterMap.mp h.roles)).and
    ((List.pairwise_filterMap.mp h.constructors).and (List.pairwise_filterMap.mp h.fields))
  exact hpairs.imp fun ⟨⟨⟨hattributes, hiterable⟩, hroles⟩, hconstructors, hfields⟩ =>
    ⟨hattributes, hiterable, hroles, hconstructors, hfields⟩

/-- A field has not the name of an attribute. -/
theorem Tidy.attribute_ne (h : r.Tidy d) {f : OwnedField}
    (hf : .field f ∈ Feature.ofMembers (r.surface d)) {a : OwnedAttribute}
    (ha : .attribute a ∈ Feature.ofMembers (r.surface d)) : a.decl.name ≠ f.decl.name := by
  obtain ⟨x, hx, hfield⟩ := Feature.starts_of_mem hf
  obtain ⟨y, hy, hattribute⟩ := Feature.starts_of_mem ha
  have hkey := List.mem_filterMap.mpr ⟨x, hx, hfield.fieldKey?⟩
  have hname := List.mem_filterMap.mpr ⟨y, hy, hattribute.attributeName?⟩
  intro hsame
  exact h.unlike _ hkey (hsame ▸ hname)

/-- Two features have not the constructors both, and an entry only if their owners differ and
it is their own. -/
structure Apart (r : Registry) (d : Definition) (f g : Feature) : Prop where
  constructors : ∀ owner overloads, f = .constructors owner overloads →
    ∀ owner' overloads', g ≠ .constructors owner' overloads'
  entries : ∀ category key key', category ≠ .constant → r.LooksUp f category key →
    r.LooksUp g category key' → key = key' →
      f.owner.name ≠ g.owner.name ∧ category.isStructural = false ∧
        (IsAccessor category →
          ∀ a, .attribute a ∈ Feature.ofMembers (r.surface d) → a.decl.name ≠ key)

theorem Apart.symm {f g : Feature} (h : r.Apart d f g) : r.Apart d g f where
  constructors := fun owner overloads hg owner' overloads' hf =>
    h.constructors owner' overloads' hf owner overloads hg
  entries := fun category key key' hconstant hg hf hkey => by
    obtain ⟨hne, hown⟩ := h.entries category key' key hconstant hf hg hkey.symm
    exact ⟨hne.symm, hkey ▸ hown⟩

/-- The features of a tidy surface are apart. -/
theorem Tidy.apart (h : r.Tidy d) : (Feature.ofMembers (r.surface d)).Pairwise (r.Apart d) := by
  refine (Feature.pairwise_ofMembersAfter h.separate).imp_of_mem ?_
  rintro f g hf hg ⟨hturn, x, y, hxy, hx, hy⟩
  constructor
  · rintro owner overloads rfl owner' overloads' rfl
    have hsame := hxy.constructors _ hx.constructorOwner? _ hy.constructorOwner?
    exact hturn _ rfl (by rw [Feature.turn?, hsame])
  · intro category key key' hconstant hlooks hlooks' hkey
    cases hlooks with
    | constant => exact absurd rfl hconstant
    | getter =>
        cases hlooks' with
        | getter => exact absurd hkey (hxy.attributes _ hx.attributeName? _ hy.attributeName?)
        | field => exact absurd hkey (h.attribute_ne hg hf)
    | setter =>
        cases hlooks' with
        | setter => exact absurd hkey (hxy.attributes _ hx.attributeName? _ hy.attributeName?)
    | field =>
        cases hlooks' with
        | getter => exact absurd hkey.symm (h.attribute_ne hf hg)
        | field =>
            refine ⟨fun howner => ?_, rfl, fun _ a ha => h.attribute_ne hf ha⟩
            exact hxy.fields _ hx.fieldKey? _ hy.fieldKey? (Prod.ext howner hkey)
    | named hname =>
        cases hlooks' with
        | named hname' =>
            refine ⟨fun howner => ?_, rfl, nofun⟩
            refine hturn _ (by rw [Feature.turn?, hname]; rfl) ?_
            rw [Feature.turn?, hname', Option.map_some, hkey]
            exact congrArg _ (Prod.ext howner.symm rfl)
    | unnamed hname hfirst hrole =>
        cases hlooks' with
        | unnamed hname' hfirst' hrole' =>
            refine ⟨fun howner => ?_, rfl, nofun⟩
            exact hxy.roles _ (hx.unnamedRole? hname hfirst hrole) _
              (hy.unnamedRole? hname' hfirst' hrole')
              (Prod.ext howner (SpecialKind.key_injective hkey))
    | iterable =>
        cases hlooks' with
        | iterable =>
            have hother := hxy.iterable hx.isIterable
            rw [hy.isIterable] at hother
            cases hother

/-! ## names that differ -/

/-- Two names differ, also without regard to case. -/
def Differ (a b : String) : Prop :=
  sameIgnoringCase a b = false

theorem differ_iff {a b : String} : Differ a b ↔ lowerAscii a ≠ lowerAscii b := by
  rw [Differ, Bool.eq_false_iff, ne_eq, sameIgnoringCase_iff]

theorem Differ.symm {a b : String} (h : Differ a b) : Differ b a := by
  rw [differ_iff] at h ⊢
  exact h.symm

section

open Resolver (Settled)

variable {options : IngestOptions} {nodes : List Node} {a b : String}
  {category category' : NameCategory} {key key' : String} {f g : Feature}
  (hbuild : build options nodes = .ok r) (hd : r.get? d.name = some d)
include hbuild hd

/-- No entry on a surface is a reserved word. -/
theorem differ_of_word {o : Definition} (ho : o ∈ r.toCatalog.owners d)
    (hname : r.name? o.name category key = some a) {word : String}
    (hword : word ∈ Identifier.reserved) : Differ a word :=
  differ_iff.mpr (Settled.entry_ne_reserved (wellFormed_of_build hbuild)
    (settled_of_build hbuild).1 (resolved_of_owner hbuild hd ho) hname hword)

/-- Entries on a surface whose identifiers meet are for one category and key. -/
theorem same_entry_of_owners {o o' : Definition} (ho : o ∈ r.toCatalog.owners d)
    (ho' : o' ∈ r.toCatalog.owners d) (hname : r.name? o.name category key = some a)
    (hname' : r.name? o'.name category' key' = some b) (hsame : lowerAscii a = lowerAscii b) :
    category = category' ∧ key = key' :=
  Settled.same_entry (wellFormed_of_build hbuild) (settled_of_build hbuild).1
    (resolved_of_owner hbuild hd (r.self_mem_owners d))
    (reaches_of_owner hbuild (Catalog.mem_of_get? hd) List.mem_cons_self ho)
    (reaches_of_owner hbuild (Catalog.mem_of_get? hd) List.mem_cons_self ho') hname hname' hsame

/-- Entries on a surface that are not for one category and key differ. -/
theorem differ_of_entry {o o' : Definition} (ho : o ∈ r.toCatalog.owners d)
    (ho' : o' ∈ r.toCatalog.owners d) (hname : r.name? o.name category key = some a)
    (hname' : r.name? o'.name category' key' = some b)
    (hne : category = category' → key ≠ key') : Differ a b := by
  rw [differ_iff]
  intro hsame
  obtain ⟨hcategory, hkey⟩ := same_entry_of_owners hbuild hd ho ho' hname hname' hsame
  exact hne hcategory hkey

/-- Features that are apart have different names. -/
theorem differ_of_apart (hf : f ∈ Feature.ofMembers (r.surface d))
    (hg : g ∈ Feature.ofMembers (r.surface d)) (hapart : r.Apart d f g)
    (hconstant : category ≠ .constant) (hlooks : r.LooksUp f category key)
    (hlooks' : r.LooksUp g category' key') (hname : r.name? f.owner.name category key = some a)
    (hname' : r.name? g.owner.name category' key' = some b) : Differ a b := by
  have hc := wellFormed_of_build hbuild
  obtain ⟨hsettled, -⟩ := settled_of_build hbuild
  have hresolved := resolved_of_owner hbuild hd (r.self_mem_owners d)
  have howner := Catalog.owner_mem_owners hf
  have howner' := Catalog.owner_mem_owners hg
  by_cases hsame : category = category' ∧ key = key'
  · obtain ⟨rfl, rfl⟩ := hsame
    obtain ⟨hne, hstructural, hown⟩ := hapart.entries category key key hconstant hlooks hlooks' rfl
    -- both owners introduced their name, and such names meet only for a structural category
    have hintroduced : ∀ {o ident}, o ∈ r.toCatalog.owners d →
        r.name? o.name category key = some ident →
        ⟨category, ident⟩ ∈ r.names.reservations o.name := by
      intro o ident ho hentry
      refine hsettled.introduced_of_own ((mem_owners_iff hbuild hd).mp ho).1 hentry hstructural ?_
      intro haccessor member hmember decl hkind hkey
      have hitem : { owner := o, member } ∈ o.ownMembers := List.mem_map_of_mem hmember
      exact absurd hkey (hown haccessor { owner := o, decl, attrs := member.attrs }
        (Catalog.mem_features_surface ho
          (Feature.mem_of_single hitem (by rw [Feature.single?, hkind]))))
    have hcompatible := Settled.compatible hc hsettled hresolved
      (reaches_of_owner hbuild (Catalog.mem_of_get? hd) List.mem_cons_self howner)
      (reaches_of_owner hbuild (Catalog.mem_of_get? hd) List.mem_cons_self howner') hne
      (hintroduced howner hname) (hintroduced howner' hname')
    rw [differ_iff]
    intro hmeet
    rw [(hcompatible hmeet).2] at hstructural
    cases hstructural
  · exact differ_of_entry hbuild hd howner howner' hname hname' fun hcategory hkey =>
      hsame ⟨hcategory, hkey⟩

end

/-- An accessor is no constant. -/
theorem IsAccessor.ne_constant {category : NameCategory} (h : IsAccessor category) :
    category ≠ .constant := by
  rcases h with rfl | rfl
  · decide
  · decide

theorem LooksUp.accessor {a : OwnedAttribute} {category : NameCategory}
    (h : IsAccessor category) : r.LooksUp (.attribute a) category a.decl.name := by
  rcases h with rfl | rfl
  · exact .getter
  · exact .setter

/-- A method that a feature gives has an entry. -/
theorem entry_of_declares {feature : Feature} {name : String} (h : r.Declares name feature) :
    ∃ category key, r.LooksUp feature category key ∧ category ≠ .constant ∧
      r.name? feature.owner.name category key = some name := by
  cases feature with
  | constant owner decl => exact h.elim
  | «attribute» a =>
      obtain ⟨category, haccessor, hname⟩ := h
      exact ⟨category, _, .accessor haccessor, haccessor.ne_constant, hname⟩
  | field f => exact ⟨.getter, _, .field, nofun, h⟩
  | operation group =>
      obtain ⟨category, key, hlooks, hname⟩ := entry_of_operationName? h
      refine ⟨category, key, hlooks, ?_, hname⟩
      rintro rfl
      cases hlooks
  | iterable owner decl => exact ⟨.iterator, _, .iterable, nofun, h⟩
  | constructors owner overloads => exact h.elim

/-- A method that a feature leaves to the scaffold has an entry, or it constructs. -/
theorem entry_of_leavesOpen {feature : Feature} {name : String} (h : r.LeavesOpen name feature) :
    (∃ category key, r.LooksUp feature category key ∧ category ≠ .constant ∧
      r.name? feature.owner.name category key = some name) ∨
    (∃ owner overloads, feature = .constructors owner overloads) ∧ name = "__construct" := by
  cases feature with
  | «attribute» a =>
      obtain ⟨category, haccessor, hname, -⟩ := h
      exact Or.inl (entry_of_declares ⟨category, haccessor, hname⟩)
  | constructors owner overloads => exact Or.inr ⟨⟨owner, overloads, rfl⟩, Eq.symm h⟩
  | _ => exact Or.inl (entry_of_declares h)

end Registry

/-! ## methods in the order of a file -/

namespace Artifact

open WebIdl.Code
open WebIdl.Registry (Differ IsAccessor)

namespace Target

variable {t : Target} {caps : Capabilities} {items : List Item} {name : String}

/-- The names that the defaults keep for themselves differ. -/
theorem pairwise_words (t : Target) (caps : Capabilities) : (t.words caps).Pairwise Differ := by
  rw [words]
  unfold Differ
  cases t.intercepts <;> cases t.isTop <;> cases caps.stringifies <;> decide

/-- Constructing is no method of defaults. -/
theorem differ_construct (t : Target) (caps : Capabilities) :
    ∀ word ∈ t.words caps, Differ "__construct" word := by
  rw [words]
  unfold Differ
  cases t.intercepts <;> cases t.isTop <;> cases caps.stringifies <;> decide

/-- No method for keys is there twice. -/
theorem nodup_containerCategories (caps : Capabilities) : (containerCategories caps).Nodup := by
  rw [containerCategories]
  cases caps.keyed <;> cases caps.counts <;> cases caps.derivesIterator <;> decide

/-- What the scaffold has for an accessor is its name at most. -/
theorem Scaffolded.names {a : OwnedAttribute} {category : NameCategory}
    {draft : String → Draft MethodSig} (h : t.Scaffolded a category draft items)
    (hdraft : ∀ ident sig, Yields (draft ident) sig → sig.name = ident) :
    definedNames items = [] ∨ ∃ ident,
      t.registry.name? a.owner.name category a.decl.name = some ident ∧
        definedNames items = [ident] := by
  cases h with
  | absent => exact Or.inl rfl
  | done => exact Or.inl rfl
  | written hname _ _ hsig => exact Or.inr ⟨_, hname, by rw [← hdraft _ _ hsig]; rfl⟩

/-- An iterator is derived only if none is declared. -/
theorem derivesIterator_of_iterable
    (hcaps : Capabilities.of t.registry.toCatalog t.definition = .ok caps)
    {owner : Definition} {decl : Iterable}
    (hf : .iterable owner decl ∈ Feature.ofMembers (t.registry.surface t.definition)) :
    caps.derivesIterator = false := by
  obtain ⟨item, hitem, hstarts⟩ := Feature.starts_of_mem hf
  have hdeclares : caps.declaresIterable = true := by
    cases hstarts with
    | iterable hkind => exact (Capabilities.declaresIterable_iff hcaps).mpr ⟨item, hitem, _, hkind⟩
  simp [Capabilities.derivesIterator, hdeclares]

section

variable {options : IngestOptions} {nodes : List Node}
  (hbuild : Registry.build options nodes = .ok t.registry)
  (hd : t.registry.get? t.definition.name = some t.definition)
include hbuild hd

/-- The accessors of an attribute differ. -/
theorem differ_accessors {a : OwnedAttribute} {getter setter : String}
    (ha : .attribute a ∈ Feature.ofMembers (t.registry.surface t.definition))
    (hgetter : t.registry.name? a.owner.name .getter a.decl.name = some getter)
    (hsetter : t.registry.name? a.owner.name .setter a.decl.name = some setter) :
    Differ getter setter :=
  have howner : a.owner ∈ t.registry.toCatalog.owners t.definition := Catalog.owner_mem_owners ha
  Registry.differ_of_entry hbuild hd howner howner hgetter hsetter nofun

/-- Structural names of different categories differ. -/
theorem Structural.pairwise {categories : List NameCategory} {names : List String}
    (h : t.Structural categories names) (hnodup : categories.Nodup) : names.Pairwise Differ := by
  have hself := t.registry.self_mem_owners t.definition
  have hpairs : (names.map some).Pairwise fun x y =>
      ∀ a b, x = some a → y = some b → Differ a b := by
    rw [h, List.pairwise_map]
    refine hnodup.imp fun hne a b ha hb => ?_
    exact Registry.differ_of_entry hbuild hd hself hself ha hb fun hsame => absurd hsame hne
  rw [List.pairwise_map] at hpairs
  exact hpairs.imp fun hab => hab _ _ rfl rfl

/-- A feature has every method once in the scaffold. -/
theorem pairwise_scaffoldItems {feature : Feature}
    (hfeature : feature ∈ Feature.ofMembers (t.registry.surface t.definition))
    (h : Yields (t.scaffoldItems feature) items) : (definedNames items).Pairwise Differ := by
  cases feature with
  | constant owner decl =>
      rw [scaffoldItems, Yields.pure_iff] at h
      rw [← h]
      exact List.Pairwise.nil
  | «attribute» a =>
      obtain ⟨getters, setters, rfl, hgetter, hsetter⟩ := scaffolded_scaffoldAttribute h
      rw [definedNames_append]
      rcases hgetter.names fun _ _ hsig => name_of_getter hsig with hnil | ⟨getter, hname, hgetter⟩
      · rcases hsetter.names fun _ _ hsig => name_of_setter hsig with hnil' | ⟨setter, -, hsetter⟩
        · simp [hnil, hnil']
        · simp [hnil, hsetter]
      · rcases hsetter.names fun _ _ hsig => name_of_setter hsig with
          hnil' | ⟨setter, hname', hsetter⟩
        · simp [hgetter, hnil']
        · simp [hgetter, hsetter, differ_accessors hbuild hd hfeature hname hname']
  | field f =>
      obtain ⟨sig, -, h⟩ := h.bind
      rw [Yields.pure_iff] at h
      rw [← h]
      exact List.pairwise_singleton _ _
  | operation group =>
      obtain ⟨found, -, h⟩ := h.bind
      rw [Yields.pure_iff] at h
      rw [← h]
      cases found with
      | none => exact List.Pairwise.nil
      | some sig => exact List.pairwise_singleton _ _
  | iterable owner decl =>
      obtain ⟨sig, -, h⟩ := h.bind
      rw [Yields.pure_iff] at h
      rw [← h]
      exact List.pairwise_singleton _ _
  | constructors owner overloads =>
      obtain ⟨sig, -, h⟩ := h.bind
      rw [Yields.pure_iff] at h
      rw [← h]
      exact List.pairwise_singleton _ _

/-- An attribute has every accessor once in the defaults. -/
theorem pairwise_attributeItems {a : OwnedAttribute}
    (ha : .attribute a ∈ Feature.ofMembers (t.registry.surface t.definition))
    (h : Yields (t.attributeItems a) items) : (definedNames items).Pairwise Differ := by
  cases defaulted_attributeItems h with
  | plain => exact List.Pairwise.nil
  | forwards => exact List.pairwise_singleton _ _
  | reads => exact List.pairwise_singleton _ _
  | reflects _ hgetter hsig hsetter hsig' =>
      have hdiffer := differ_accessors hbuild hd ha hgetter hsetter
      rw [← name_of_getter hsig, ← name_of_setter hsig'] at hdiffer
      exact List.pairwise_pair.mpr hdiffer

/-- What two features leave to the scaffold differs. -/
theorem differ_of_leavesOpen {f g : Feature} {a b : String}
    (hf : f ∈ Feature.ofMembers (t.registry.surface t.definition))
    (hg : g ∈ Feature.ofMembers (t.registry.surface t.definition))
    (hapart : t.registry.Apart t.definition f g) (ha : t.registry.LeavesOpen a f)
    (hb : t.registry.LeavesOpen b g) : Differ a b := by
  have howner := Catalog.owner_mem_owners hf
  have howner' := Catalog.owner_mem_owners hg
  rcases Registry.entry_of_leavesOpen ha with
    ⟨category, key, hlooks, hconstant, hname⟩ | ⟨⟨_, _, rfl⟩, rfl⟩
  · rcases Registry.entry_of_leavesOpen hb with
      ⟨category', key', hlooks', -, hname'⟩ | ⟨-, rfl⟩
    · exact Registry.differ_of_apart hbuild hd hf hg hapart hconstant hlooks hlooks' hname hname'
    · exact Registry.differ_of_word hbuild hd howner hname (by decide)
  · rcases Registry.entry_of_leavesOpen hb with
      ⟨category', key', -, -, hname'⟩ | ⟨⟨_, _, rfl⟩, -⟩
    · exact (Registry.differ_of_word hbuild hd howner' hname' (by decide)).symm
    · exact absurd rfl (hapart.constructors _ _ rfl _ _)

variable (htidy : t.registry.Tidy t.definition)
include htidy

/-- The scaffold defines every method once. -/
theorem pairwise_scaffold {lists : List (List Item)}
    (h : Yields ((Feature.ofMembers (t.registry.surface t.definition)).mapM t.scaffoldItems)
      lists) : (definedNames lists.flatten).Pairwise Differ := by
  rw [definedNames_flatten, List.pairwise_flatten, List.pairwise_map]
  constructor
  · intro names hnames
    obtain ⟨items, hitems, rfl⟩ := List.mem_map.mp hnames
    obtain ⟨feature, hfeature, hyields⟩ := h.mapM.2 items hitems
    exact pairwise_scaffoldItems hbuild hd hfeature hyields
  · refine h.pairwise_mapM (List.Pairwise.and_mem.mp htidy.apart) ?_
    rintro f g items items' ⟨hf, hg, hapart⟩ hitems hitems' a ha b hb
    rw [mem_definedNames, defines_scaffoldItems hitems] at ha
    rw [mem_definedNames, defines_scaffoldItems hitems'] at hb
    exact differ_of_leavesOpen hbuild hd hf hg hapart ha hb

/-- The defaults define every accessor once. -/
theorem pairwise_accessors {lists : List (List Item)}
    (h : Yields ((instanceAttributes (t.registry.surface t.definition)).mapM t.attributeItems)
      lists) : (definedNames lists.flatten).Pairwise Differ := by
  rw [definedNames_flatten, List.pairwise_flatten, List.pairwise_map]
  constructor
  · intro names hnames
    obtain ⟨items, hitems, rfl⟩ := List.mem_map.mp hnames
    obtain ⟨a, ha, hyields⟩ := h.mapM.2 items hitems
    exact pairwise_attributeItems hbuild hd (mem_instanceAttributes.mp ha).1 hyields
  · refine h.pairwise_mapM
      (List.Pairwise.and_mem.mp (pairwise_instanceAttributes htidy.apart)) ?_
    rintro a b items items' ⟨ha, hb, hapart⟩ hitems hitems' name hname name' hname'
    rw [mem_definedNames, defines_attributeItems hitems] at hname
    rw [mem_definedNames, defines_attributeItems hitems'] at hname'
    obtain ⟨category, haccessor, hentry, -⟩ := hname
    obtain ⟨category', haccessor', hentry', -⟩ := hname'
    exact Registry.differ_of_apart hbuild hd (mem_instanceAttributes.mp ha).1
      (mem_instanceAttributes.mp hb).1 hapart haccessor.ne_constant (.accessor haccessor)
      (.accessor haccessor') hentry hentry'

/-- The defaults define every method once. -/
theorem pairwise_defaults (h : Yields t.interfaceDefaults items) :
    (definedNames items).Pairwise Differ := by
  obtain ⟨caps, hcaps, parts, rfl⟩ := exists_defaultParts h
  obtain ⟨containers, hcontainers, hperm⟩ := parts.names_all hcaps
  have hself := t.registry.self_mem_owners t.definition
  have hword := t.reserved_words caps
  rw [hperm.pairwise_iff Registry.Differ.symm, List.pairwise_append, List.pairwise_append]
  refine ⟨⟨t.pairwise_words caps, pairwise_accessors hbuild hd htidy parts.haccessors, ?_⟩,
    hcontainers.pairwise hbuild hd (nodup_containerCategories caps), ?_⟩
  · intro word hmem name hname
    rw [mem_definedNames, defines_accessors parts.haccessors] at hname
    obtain ⟨a, ha, category, -, hentry, -⟩ := hname
    have howner := Catalog.owner_mem_owners (mem_instanceAttributes.mp ha).1
    exact (Registry.differ_of_word hbuild hd howner hentry (hword word hmem)).symm
  · intro name hname container hcontainer
    obtain ⟨category', hcategory', hentry'⟩ := hcontainers.mem_iff.mp hcontainer
    rcases List.mem_append.mp hname with hmem | hname
    · exact (Registry.differ_of_word hbuild hd hself hentry' (hword name hmem)).symm
    · rw [mem_definedNames, defines_accessors parts.haccessors] at hname
      obtain ⟨a, ha, category, haccessor, hentry, -⟩ := hname
      have howner := Catalog.owner_mem_owners (mem_instanceAttributes.mp ha).1
      refine Registry.differ_of_entry hbuild hd howner hself hentry hentry' ?_
      rintro rfl
      have hstructural := structural_containerCategories caps category hcategory'
      rcases haccessor with rfl | rfl
      · cases hstructural
      · cases hstructural

/-- What a feature leaves to the scaffold is not in the defaults. -/
theorem differ_of_defaults {f : Feature} {a b : String}
    (hf : f ∈ Feature.ofMembers (t.registry.surface t.definition))
    (ha : t.registry.LeavesOpen a f) (h : Yields t.interfaceDefaults items)
    (hb : b ∈ definedNames items) : Differ a b := by
  obtain ⟨caps, hcaps, parts, rfl⟩ := exists_defaultParts h
  have hself := t.registry.self_mem_owners t.definition
  have howner := Catalog.owner_mem_owners hf
  rw [mem_definedNames, (parts.defines_all hcaps).2 b] at hb
  rcases Registry.entry_of_leavesOpen ha with
    ⟨category, key, hlooks, hconstant, hname⟩ | ⟨-, rfl⟩
  · rcases hb with hword | ⟨a', ha', category', haccessor, hentry, hcovers⟩ |
      ⟨category', hcategory', hentry⟩
    · exact Registry.differ_of_word hbuild hd howner hname (t.reserved_words caps b hword)
    · have hattribute := (mem_instanceAttributes.mp ha').1
      by_cases hsame : f = .attribute a'
      · -- the scaffold leaves out what the defaults have for the attribute
        subst hsame
        obtain ⟨open', hopen, hname', huncovered, -⟩ := ha
        refine Registry.differ_of_entry hbuild hd howner howner hname' hentry ?_
        rintro rfl
        rw [hcovers] at huncovered
        cases huncovered
      · have hsymm : Std.Symm (t.registry.Apart t.definition) := ⟨fun _ _ hapart => hapart.symm⟩
        exact Registry.differ_of_apart hbuild hd hf hattribute
          (htidy.apart.forall hf hattribute hsame) hconstant hlooks (.accessor haccessor) hname
          hentry
    · refine Registry.differ_of_entry hbuild hd howner hself hname hentry ?_
      rintro rfl
      have hstructural := structural_containerCategories caps category hcategory'
      cases hlooks with
      | iterable =>
          have hderives := derivesIterator_of_iterable hcaps hf
          simp [containerCategories, hderives, offsetCategories] at hcategory'
      | _ => cases hstructural
  · rcases hb with hword | ⟨a', ha', category', haccessor, hentry, hcovers⟩ |
      ⟨category', -, hentry⟩
    · exact t.differ_construct caps b hword
    · have howner' := Catalog.owner_mem_owners (mem_instanceAttributes.mp ha').1
      exact (Registry.differ_of_word hbuild hd howner' hentry (by decide)).symm
    · exact (Registry.differ_of_word hbuild hd hself hentry (by decide)).symm

end

end Target

end Artifact

namespace Registry

open WebIdl.Artifact
open WebIdl.Code

variable {options : IngestOptions} {nodes : List Node} {r : Registry}

/-- The methods that the scaffold and then the defaults of a definition define, one for each
definition. -/
def definedIn (r : Registry) (root : String) (d : Definition) : List String :=
  definedNames (r.bodyOf root d.name .scaffold) ++ definedNames (r.bodyOf root d.name .defaults)

/-- **Methods are defined once**: the methods that the scaffold and the defaults of an
interface or a mixin define are all different, also without regard to case, if the surface
is tidy.  So a member is left to the scaffold once or implemented by the defaults, and never
both. -/
theorem methods_are_defined_once (h : build options nodes = .ok r) {d : Definition}
    (hd : d ∈ r.definitions) (hkind : d.kind = .interface ∨ d.kind = .mixin) (htidy : r.Tidy d)
    {root : String} {scaffold defaults : Option File}
    (hscaffold : r.file? root d.name .scaffold = .ok scaffold)
    (hdefaults : r.file? root d.name .defaults = .ok defaults) :
    (r.definedIn root d).Pairwise fun a b => sameIgnoringCase a b = false := by
  have hget := (wellFormed_of_build h).get?_of_mem hd
  have hyields := yields_of_file? hget hscaffold
  have hyields' := yields_of_file? hget hdefaults
  rw [definedIn, bodyOf_eq hscaffold, bodyOf_eq hdefaults]
  obtain ⟨uses, lists, hbody, huses, hlists⟩ := Target.scaffold_body hkind hyields
  have hnone : definedNames uses = [] := by
    rw [definedNames, List.filterMap_eq_nil_iff]
    intro item hitem
    obtain ⟨used, rfl⟩ := huses item hitem
    rfl
  rw [hbody, definedNames_append, hnone, List.nil_append, List.pairwise_append]
  rcases Target.defaults_body hkind hyields' with ⟨-, hempty⟩ | hitems
  · rw [hempty]
    exact ⟨Target.pairwise_scaffold h hget htidy hlists, List.Pairwise.nil,
      fun _ _ _ hb => absurd hb List.not_mem_nil⟩
  · refine ⟨Target.pairwise_scaffold h hget htidy hlists,
      Target.pairwise_defaults h hget htidy hitems, fun a ha b hb => ?_⟩
    rw [mem_definedNames, defines_flatten] at ha
    obtain ⟨items, hmem, hdefines⟩ := ha
    obtain ⟨feature, hfeature, hyields⟩ := hlists.mapM.2 items hmem
    exact Target.differ_of_defaults h hget htidy hfeature
      ((Target.defines_scaffoldItems hyields).mp hdefines) hitems hb

/-- A gallery with a caption that reflects, overloads of an operation, a constructor and
the items of a mixin. -/
def galleryNodes : List Node :=
  let open' : List Argument → Member := fun arguments => {
    kind := .operation {
      name := some "open", special := .none,
      signature := { result := .named "undefined" false {}, arguments } } }
  [.definition {
      name := "Gallery", kind := .interface,
      members := [
        { kind := .attribute { name := "caption", type := .named "DOMString" false {} }
          attrs := ⟨[{ name := "Reflect" }]⟩ },
        attributeNamed "width" "long" .none, open' [],
        open' [{ name := "index", type := .named "long" false {} }],
        { kind := .constructor [] }] },
   .definition { name := "Items", kind := .mixin, members := countedItems },
   .includes "Gallery" "Items"]

/-- A field of a named type. -/
def fieldNamed (name type : String) : Member :=
  { kind := .field { name, type := .named type false {} } }

/-- An interface with two fields of one name. -/
def twinNodes : List Node :=
  [.definition {
      name := "Twin", kind := .interface,
      members := [fieldNamed "size" "long", fieldNamed "size" "long"] }]

/-- An attribute that reflects and takes over its accessors from a field, which is on the
surface as well. -/
def shadowNodes : List Node :=
  [.definition { name := "Base", kind := .interface },
   .definition {
      name := "Shape", kind := .dictionary, members := [fieldNamed "size" "DOMString"] },
   .definition {
      name := "Shadow", kind := .interface, parent := some "Base",
      members := [{
        kind := .attribute {
          name := "size", type := .named "DOMString" false {}, special := .inherit }
        attrs := ⟨[{ name := "Reflect" }]⟩ }] },
   .includes "Base" "Shape", .includes "Shadow" "Shape"]

/-- What a gallery defines, and no method twice. -/
theorem gallery_defines_methods_once :
    ∃ r d, build {} galleryNodes = .ok r ∧ d ∈ r.definitions ∧ d.name = "Gallery" ∧
      d.kind = .interface ∧ r.Tidy d ∧ r.Complete "Site" d ∧
      r.definedIn "Site" d =
        ["getWidth", "setWidth", "open", "__construct", "getLength", "item", "__get", "__set",
         "getMissingProperty", "setMissingProperty", "undefinedKey", "getCaption", "setCaption",
         "offsetExists", "offsetGet", "offsetSet", "offsetUnset", "count", "getIterator"] ∧
      (r.definedIn "Site" d).Pairwise fun a b => sameIgnoringCase a b = false := by
  have hbuild : (build {} galleryNodes).toOption.map (fun r => (r.get? "Gallery").map fun d =>
      (r.isRegular "Site" d, decide (r.Tidy d), r.definedIn "Site" d)) = some (some (true, true,
        ["getWidth", "setWidth", "open", "__construct", "getLength", "item", "__get", "__set",
         "getMissingProperty", "setMissingProperty", "undefinedKey", "getCaption", "setCaption",
         "offsetExists", "offsetGet", "offsetSet", "offsetUnset", "count", "getIterator"])) := by
    decide +kernel
  obtain ⟨r, hr, hfound⟩ := ok_of_toOption_map hbuild
  obtain ⟨d, hd, hfacts⟩ := Option.map_eq_some_iff.mp hfound
  obtain ⟨hcheck, htidy, hnames⟩ := by simpa only [Prod.mk.injEq] using hfacts
  have hregular := regular_of_check hcheck
  have htidy := of_decide_eq_true htidy
  obtain ⟨scaffold, hscaffold⟩ := hregular.complete .scaffold
  obtain ⟨defaults, hdefaults⟩ := hregular.complete .defaults
  refine ⟨r, d, hr, Catalog.mem_of_get? hd, Catalog.name_of_get? hd, hregular.kind, htidy,
    hregular.complete, hnames, ?_⟩
  exact methods_are_defined_once hr (Catalog.mem_of_get? hd) (Or.inl hregular.kind) htidy
    hscaffold hdefaults

/-- An interface of some nodes has a valid surface, and defines a method twice. -/
def Repeats (nodes : List Node) : Prop :=
  ∃ r d, build {} nodes = .ok r ∧ d ∈ r.definitions ∧ d.kind = .interface ∧ r.ValidSurface d ∧
    r.Complete "Site" d ∧ ¬ (r.definedIn "Site" d).Pairwise fun a b => sameIgnoringCase a b = false

/-- Names that meet in one file repeat a method. -/
theorem repeats_of_check {nodes : List Node} (name : String) (names : List String)
    (hbuild : (build {} nodes).toOption.map (fun r => (r.get? name).map fun d =>
      (d.isInterface && r.isComplete "Site" d, decide (r.ValidSurface d), r.definedIn "Site" d)) =
      some (some (true, true, names)))
    (hnames : ¬ names.Pairwise fun a b => sameIgnoringCase a b = false) : Repeats nodes := by
  obtain ⟨r, hr, hfound⟩ := ok_of_toOption_map hbuild
  obtain ⟨d, hd, hfacts⟩ := Option.map_eq_some_iff.mp hfound
  obtain ⟨hcheck, hvalid, hdefined⟩ := by simpa only [Prod.mk.injEq] using hfacts
  rw [Bool.and_eq_true] at hcheck
  rw [← hdefined] at hnames
  exact ⟨r, d, hr, Catalog.mem_of_get? hd, kind_of_isInterface hcheck.1,
    of_decide_eq_true hvalid, complete_of_check hcheck.2, hnames⟩

/-- Where two fields have one name, or a field the name of an attribute, a method is defined
twice. -/
theorem fields_can_be_defined_twice : Repeats twinNodes ∧ Repeats shadowNodes := by
  constructor
  · refine repeats_of_check "Twin" ["getSize", "getSize", "__get", "__set",
      "getMissingProperty", "setMissingProperty", "undefinedKey"] ?_ ?_
    · decide +kernel
    · decide
  · refine repeats_of_check "Shadow" ["getSize", "__get", "__set", "getSize", "setSize"] ?_ ?_
    · decide +kernel
    · decide

end Registry

end WebIdl
