import WebIdl.Proofs.Coverage
import WebIdl.Proofs.Inheriting

/-!
# WebIdl.Proofs.Forwarding

Where the setter of a `[PutForwards]` attribute writes to.

The target attribute is looked for twice: once for its type, on the surface of the target
and then on those of its ancestors, and once for its setter, on the walk along parents and
mixins.  The orders differ, and only the second search passes over what cannot be written.
What each search finds is said in terms of declarations (`Registry.Forwards`).  So is where
a setter comes from: whoever takes it over with an `inherit` attribute has that of the first
one above (`TakesFrom`), and two definitions share it if that ends at one (`SharesSetter`).
The two searches can end at different declarations, and then the type may not be the one that
the setter takes:

* `forwarded_type_fits_iff`: when the type of a forward belongs to its setter.
-/

namespace WebIdl

/-! ## the first one of a list -/

section

variable {α β : Type}

/-- The first element of a list with a property. -/
def FirstOn (p : α → Prop) (xs : List α) (x : α) : Prop :=
  ∃ before after, xs = before ++ x :: after ∧ p x ∧ ∀ y ∈ before, ¬ p y

namespace FirstOn

variable {p : α → Prop} {xs : List α} {x y : α}

theorem mem (h : FirstOn p xs x) : x ∈ xs := by
  obtain ⟨before, after, rfl, -, -⟩ := h
  exact List.mem_append_right before List.mem_cons_self

theorem holds (h : FirstOn p xs x) : p x := by
  obtain ⟨_, _, _, hx, _⟩ := h
  exact hx

theorem cons_iff {z : α} : FirstOn p (z :: xs) x ↔ p z ∧ x = z ∨ ¬ p z ∧ FirstOn p xs x := by
  constructor
  · rintro ⟨before, after, hsplit, hx, hbefore⟩
    cases before with
    | nil =>
        obtain ⟨rfl, rfl⟩ := List.cons.inj hsplit
        exact Or.inl ⟨hx, rfl⟩
    | cons w before =>
        obtain ⟨rfl, rfl⟩ := List.cons.inj hsplit
        obtain ⟨hz, hbefore⟩ := List.forall_mem_cons.mp hbefore
        exact Or.inr ⟨hz, before, after, rfl, hx, hbefore⟩
  · rintro (⟨hz, rfl⟩ | ⟨hz, before, after, rfl, hx, hbefore⟩)
    · exact ⟨[], xs, rfl, hz, by simp⟩
    · exact ⟨z :: before, after, rfl, hx, List.forall_mem_cons.mpr ⟨hz, hbefore⟩⟩

/-- There is only one first element. -/
theorem unique (hx : FirstOn p xs x) (hy : FirstOn p xs y) : x = y := by
  induction xs with
  | nil => cases hx.mem
  | cons z xs ih =>
      rcases cons_iff.mp hx with ⟨hz, rfl⟩ | ⟨hz, hx⟩
      · rcases cons_iff.mp hy with ⟨-, rfl⟩ | ⟨hnot, -⟩
        · rfl
        · exact absurd hz hnot
      · rcases cons_iff.mp hy with ⟨hyes, -⟩ | ⟨-, hy⟩
        · exact absurd hyes hz
        · exact ih hx hy

/-- The first element with a property is the first with any that holds of the same elements. -/
theorem congr {q : α → Prop} (h : ∀ x ∈ xs, (p x ↔ q x)) (hx : FirstOn p xs x) :
    FirstOn q xs x := by
  obtain ⟨before, after, rfl, hpx, hbefore⟩ := hx
  refine ⟨before, after, rfl, (h x (by simp)).mp hpx, fun y hy hqy => ?_⟩
  exact hbefore y hy ((h y (by simp [hy])).mpr hqy)

end FirstOn

theorem findSome?_flatMap {γ : Type} (f : β → Option γ) (g : α → List β) (xs : List α) :
    (xs.flatMap g).findSome? f = xs.findSome? fun x => (g x).findSome? f := by
  induction xs with
  | nil => rfl
  | cons x xs ih =>
      rw [List.flatMap_cons, List.findSome?_append, ih, List.findSome?_cons]
      cases (g x).findSome? f <;> rfl

/-- A search ends at the first element that has what is looked for. -/
theorem findSome?_eq_some_iff_firstOn {f : α → Option β} {xs : List α} {b : β} :
    xs.findSome? f = some b ↔
      ∃ x, FirstOn (fun x => (f x).isSome = true) xs x ∧ f x = some b := by
  rw [List.findSome?_eq_some_iff]
  constructor
  · rintro ⟨before, x, after, hxs, hx, hbefore⟩
    refine ⟨x, ⟨before, after, hxs, by simp [hx], fun y hy => ?_⟩, hx⟩
    simp [hbefore y hy]
  · rintro ⟨x, ⟨before, after, hxs, -, hbefore⟩, hx⟩
    exact ⟨before, x, after, hxs, hx, fun y hy => by simpa using hbefore y hy⟩

end

/-! ## declarations of an attribute -/

namespace Definition

/-- The type of the first attribute of a name among the members of a definition. -/
def attributeType? (d : Definition) (key : String) : Option IdlType :=
  d.members.findSome? fun member =>
    match member.kind with
    | .attribute decl => if decl.name == key then some decl.type else none
    | _ => none

/-- A definition declares an attribute of a name itself, with a type. -/
def Declares (d : Definition) (key : String) (type : IdlType) : Prop :=
  ∃ member ∈ d.members, ∃ decl, member.kind = .attribute decl ∧ decl.name = key ∧ decl.type = type

/-- A definition declares an attribute of a name itself, and it can be written. -/
def Writes (d : Definition) (key : String) : Prop :=
  ∃ member ∈ d.members, ∃ decl, member.kind = .attribute decl ∧ decl.name = key ∧
    (decl.readonly = false ∨ member.attrs.has "PutForwards" = true)

/-- A definition has an `inherit` attribute of a name. -/
def TakesOver (d : Definition) (key : String) : Prop :=
  ∃ member ∈ d.members, ∃ decl, member.kind = .attribute decl ∧ decl.name = key ∧
    decl.special = .inherit

/-- A definition has an `inherit` attribute of a name that can be written. -/
def TakesOverSetter (d : Definition) (key : String) : Prop :=
  ∃ member ∈ d.members, ∃ decl, member.kind = .attribute decl ∧ decl.name = key ∧
    decl.special = .inherit ∧
    (decl.readonly = false ∨ member.attrs.has "PutForwards" = true)

/-- What takes over the setter of an attribute can write it. -/
theorem TakesOverSetter.writes {d : Definition} {key : String} (h : d.TakesOverSetter key) :
    d.Writes key := by
  obtain ⟨member, hmember, decl, hkind, hkey, -, hwritable⟩ := h
  exact ⟨member, hmember, decl, hkind, hkey, hwritable⟩

theorem TakesOverSetter.takesOver {d : Definition} {key : String} (h : d.TakesOverSetter key) :
    d.TakesOver key := by
  obtain ⟨member, hmember, decl, hkind, hkey, hspecial, -⟩ := h
  exact ⟨member, hmember, decl, hkind, hkey, hspecial⟩

theorem declares_of_attributeType? {d : Definition} {key : String} {type : IdlType}
    (h : d.attributeType? key = some type) : d.Declares key type := by
  obtain ⟨member, hmember, hfound⟩ := List.exists_of_findSome?_eq_some h
  split at hfound
  next decl hkind =>
    split at hfound
    next hname =>
      refine ⟨member, hmember, decl, hkind, by simpa using hname, ?_⟩
      exact Option.some.inj hfound
    next => cases hfound
  next => cases hfound

/-- What can be written is declared. -/
theorem Writes.isSome_attributeType? {d : Definition} {key : String} (h : d.Writes key) :
    (d.attributeType? key).isSome = true := by
  obtain ⟨member, hmember, decl, hkind, rfl, -⟩ := h
  rw [attributeType?, List.findSome?_isSome_iff]
  exact ⟨member, hmember, by simp [hkind]⟩

/-- A setter is offered for what can be written. -/
theorem Offers.setter_iff {c : Catalog} {d : Definition} {key : String} :
    d.Offers c .setter key ↔ d.Writes key := by
  constructor
  · intro h
    cases h with
    | dictionary _ hcategory => simp [Artifact.offsetCategories] at hcategory
    | keyed _ _ _ hcategory => simp [Artifact.offsetCategories] at hcategory
    | setter hmember hkind hwritable => exact ⟨_, hmember, _, hkind, rfl, hwritable⟩
  · rintro ⟨member, hmember, decl, hkind, rfl, hwritable⟩
    exact .setter hmember hkind hwritable

end Definition

namespace Registry

open Relation
open Resolver (Settled)

variable {options : IngestOptions} {nodes : List Node} {r : Registry}

/-! ## the two searches -/

/-- The definitions that are asked for the type of an attribute: those on the surface of the
target, then those on the surfaces of its ancestors. -/
def typingOrder (r : Registry) (target : Definition) : List Definition :=
  (target :: r.ancestors target).flatMap r.owners

/-- The definitions that are asked for the setter of an attribute: the target, then each one's
parent and all that is behind it before the mixins. -/
def settingOrder (r : Registry) (target : Definition) : List Definition :=
  r.definitionsOf (r.reach [] [target.name])

/-- The type of a target attribute is the first one in the order of the search. -/
theorem attributeType?_eq (r : Registry) (target : Definition) (key : String) :
    r.attributeType? target key = (r.typingOrder target).findSome? (·.attributeType? key) := by
  have hsurface : (target :: r.ancestors target).flatMap r.surface =
      (r.typingOrder target).flatMap Definition.ownMembers := by
    rw [typingOrder, List.flatMap_assoc]
    rfl
  rw [attributeType?, hsurface, findSome?_flatMap]
  simp only [Definition.ownMembers, List.findSome?_map]
  rfl

/-- The definitions that are asked for an accessor to take over: the parent and all that is
behind it. -/
def aboveOrder (r : Registry) (d : Definition) : List Definition :=
  r.definitionsOf (r.reach [] d.parent.toList)

/-- The search for a name asks one definition after the other. -/
theorem findName_eq (r : Registry) (stack : List String) (category : NameCategory)
    (key : String) : r.toCatalog.findName r.names stack category key =
      (r.definitionsOf (r.reach [] stack)).findSome? fun d =>
        (r.name? d.name category key).map fun ident => (d.name, ident) := by
  have hknown : ∀ name ∈ r.reach [] stack, (r.get? name).isSome = true :=
    fun name hname => (Catalog.fresh_of_mem_walk hname).1
  rw [Catalog.findName, Catalog.definitionsOf]
  generalize r.reach [] stack = names at hknown
  induction names with
  | nil => rfl
  | cons name names ih =>
      obtain ⟨hfirst, hrest⟩ := List.forall_mem_cons.mp hknown
      obtain ⟨d, hd⟩ := Option.isSome_iff_exists.mp hfirst
      have hname := Catalog.name_of_get? hd
      subst hname
      rw [List.filterMap_cons_some hd, List.findSome?_cons, List.findSome?_cons, ih hrest]
      rfl

/-- Where an attribute forwards to: `typed` is the first definition that declares the target
attribute, in the order in which types are looked for, and the forward has its type; `called`
is the first that declares it so that it can be written, in the order in which setters are
looked for, and the forward has its setter. -/
structure Forwards (r : Registry) (a : OwnedAttribute) (forward : Forward) (key : String)
    (target typed called : Definition) : Prop where
  forwards : a.attrs.word? "PutForwards" = some key
  leads : r.definitionOf a.decl.type = .ok (some target)
  declares : FirstOn (fun d => (d.attributeType? key).isSome = true) (r.typingOrder target) typed
  type : typed.attributeType? key = some forward.type
  writes : FirstOn (·.Writes key) (r.settingOrder target) called
  setter : r.name? called.name .setter key = some forward.setter

/-- In a registry that was built a definition has a setter for what can be written. -/
theorem isSome_setter_iff (h : build options nodes = .ok r) {d : Definition}
    (hd : d ∈ r.definitions) {key : String} :
    (r.name? d.name .setter key).isSome = true ↔ d.Writes key := by
  rw [← Definition.Offers.setter_iff, ← exists_name_iff h hd, Option.isSome_iff_exists]

/-- A search for a setter ends at the first definition with an attribute that can be written. -/
theorem setter_found_iff (h : build options nodes = .ok r) {stack : List String}
    {key owner ident : String} :
    r.toCatalog.findName r.names stack .setter key = some (owner, ident) ↔
      ∃ called, FirstOn (·.Writes key) (r.definitionsOf (r.reach [] stack)) called ∧
        called.name = owner ∧ r.name? called.name .setter key = some ident := by
  rw [findName_eq, findSome?_eq_some_iff_firstOn]
  refine exists_congr fun called => and_congr ?_ ?_
  · have hwrites : ∀ d ∈ r.definitionsOf (r.reach [] stack),
        (((r.name? d.name .setter key).map fun ident => (d.name, ident)).isSome = true ↔
          d.Writes key) := by
      intro d hd
      rw [Option.isSome_map]
      exact isSome_setter_iff h (Catalog.mem_of_get? (Catalog.mem_definitionsOf.mp hd).2)
    exact ⟨fun hfirst => hfirst.congr hwrites,
      fun hfirst => hfirst.congr fun d hd => (hwrites d hd).symm⟩
  · rw [Option.map_eq_some_iff]
    constructor
    · rintro ⟨found, hname, hpair⟩
      cases hpair
      exact ⟨rfl, hname⟩
    · rintro ⟨rfl, hname⟩
      exact ⟨ident, hname, rfl⟩

/-- An attribute that forwards has a target, and both searches on it have ended. -/
theorem searches_of_forward? {a : OwnedAttribute} {forward : Forward}
    (hforward : r.forward? a = .ok (some forward)) :
    ∃ key target owner, a.attrs.word? "PutForwards" = some key ∧
      r.definitionOf a.decl.type = .ok (some target) ∧
      r.attributeType? target key = some forward.type ∧
      r.findName target.name .setter key = some (owner, forward.setter) := by
  rw [forward?] at hforward
  split at hforward
  next => cases hforward
  next key hkey =>
    obtain ⟨type, htype, hforward⟩ := bind_eq_ok.mp hforward
    split at hforward
    next => cases hforward
    next name hname =>
      obtain ⟨target, htarget, hforward⟩ := bind_eq_ok.mp hforward
      have hget : r.get? name = some target := by
        rw [Catalog.definition] at htarget
        split at htarget
        next hget =>
          cases htarget
          exact hget
        next => cases htarget
      have hleads : r.definitionOf a.decl.type = .ok (some target) := by
        rw [Catalog.definitionOf, htype]
        exact congrArg Except.ok (by rw [hname, Option.bind_some, hget])
      split at hforward
      next found owner setter hfound hsetter =>
        cases hforward
        exact ⟨key, target, owner, hkey, hleads, hfound, hsetter⟩
      next => cases hforward

/-- Every forward has been found by the two searches. -/
theorem forwards_of_forward? (h : build options nodes = .ok r) {a : OwnedAttribute}
    {forward : Forward} (hforward : r.forward? a = .ok (some forward)) :
    ∃ key target typed called, r.Forwards a forward key target typed called := by
  obtain ⟨key, target, owner, hkey, hleads, htype, hsetter⟩ := searches_of_forward? hforward
  rw [attributeType?_eq] at htype
  obtain ⟨typed, hdeclares, htyped⟩ := findSome?_eq_some_iff_firstOn.mp htype
  obtain ⟨called, hwrites, -, hcalled⟩ := (setter_found_iff h).mp hsetter
  exact ⟨key, target, typed, called, hkey, hleads, hdeclares, htyped, hwrites, hcalled⟩

/-! ## a type and its setter -/

/-- A definition that the target leads to has the setter of a forward for the attribute, and
declares the attribute itself with the type of the forward. -/
structure FitsAt (r : Registry) (target : Definition) (key : String) (forward : Forward)
    (owner : Definition) : Prop where
  known : owner ∈ r.definitions
  reached : r.Reaches target.name owner.name
  setter : r.name? owner.name .setter key = some forward.setter
  declares : owner.Declares key forward.type

/-- The type of a forward belongs to its setter. -/
def Fits (r : Registry) (target : Definition) (key : String) (forward : Forward) : Prop :=
  ∃ owner, r.FitsAt target key forward owner

/-- No two of the definitions that a target leads to declare an attribute of a name. -/
def DeclaredOnce (r : Registry) (target : Definition) (key : String) : Prop :=
  ∀ d ∈ r.definitions, ∀ d' ∈ r.definitions, r.Reaches target.name d.name →
    r.Reaches target.name d'.name → (d.attributeType? key).isSome = true →
    (d'.attributeType? key).isSome = true → d = d'

/-! ## where a setter comes from -/

/-- A definition takes over the setter of the first one above it that can be written. -/
structure TakesFrom (r : Registry) (key : String) (d x : Definition) : Prop where
  asks : d.TakesOverSetter key
  first : FirstOn (·.Writes key) (r.aboveOrder d) x

/-- The definition at the end of what is taken over, whose own the setter is. -/
structure SetterFrom (r : Registry) (key : String) (d origin : Definition) : Prop where
  chain : ReflTransGen (r.TakesFrom key) d origin
  writes : origin.Writes key
  own : ∀ x, ¬ r.TakesFrom key origin x

/-- Two definitions have one setter: what they take over ends at one definition. -/
def SharesSetter (r : Registry) (key : String) (d d' : Definition) : Prop :=
  ∃ origin, r.SetterFrom key d origin ∧ r.SetterFrom key d' origin

section

variable (h : build options nodes = .ok r) {d x : Definition} {key ident : String}
include h

/-- A setter is taken over from a definition beyond. -/
theorem TakesFrom.beyond (hd : d ∈ r.definitions) (htakes : r.TakesFrom key d x) :
    x ∈ r.definitions ∧ r.toCatalog.Beyond d.name x.name := by
  obtain ⟨hwalk, hget⟩ := Catalog.mem_definitionsOf.mp htakes.first.mem
  obtain ⟨parent, hparent, hpath⟩ := Catalog.reachable_of_mem_walk hwalk
  exact ⟨Catalog.mem_of_get? hget, TransGen.head' (Catalog.edge_parent
    ((wellFormed_of_build h).get?_of_mem hd) (Option.mem_toList.mp hparent)) hpath⟩

/-- Whoever takes over a setter has that of the definition it takes it from. -/
theorem TakesFrom.setter (hd : d ∈ r.definitions) (htakes : r.TakesFrom key d x) :
    r.name? d.name .setter key = r.name? x.name .setter key := by
  obtain ⟨hx, -⟩ := htakes.beyond h hd
  obtain ⟨ident, hident⟩ :=
    Option.isSome_iff_exists.mp ((isSome_setter_iff h hx).mpr htakes.first.holds)
  obtain ⟨table, htable, hof⟩ := table_of_build h hd
  obtain ⟨kind, members, -, -, hkind, hmembers, -⟩ := NameTable.of_run hof
  have hfound : Scope.inherited? r.toCatalog r.names d .setter key = some ident := by
    rw [Scope.inherited?, (setter_found_iff h).mpr ⟨x, htakes.first, rfl, hident⟩]
    rfl
  obtain ⟨member, hmember, decl, hdecl, rfl, hspecial, hwritable⟩ := htakes.asks
  have hasked := (NameRequest.ofAccessors_attribute hdecl).2 hwritable
  rw [NameRequest.ofAttribute, hspecial] at hasked
  have hrequest := List.mem_append_right kind
    (NameRequest.mem_of_accessor hmembers hmember hasked)
  obtain ⟨hentry, -⟩ :=
    (Definition.adopts_of_asked hof hkind hmembers hrequest hfound).entry hof rfl
  rw [hident, name?, NameMap.get?, htable]
  exact hentry

/-- A setter that is not taken over was introduced. -/
theorem introduced_of_own (hd : d ∈ r.definitions) (hown : ∀ x, ¬ r.TakesFrom key d x)
    (hentry : r.name? d.name .setter key = some ident) :
    ⟨.setter, ident⟩ ∈ r.names.reservations d.name := by
  have hget := (wellFormed_of_build h).get?_of_mem hd
  obtain ⟨d', requests, base, scope, hd', hmade, hbase, hscope, htable⟩ :=
    (settled_of_build h).1.grown (resolved_of_reaches h hd ReflTransGen.refl)
  rw [hget, Option.some.injEq] at hd'
  subst hd'
  rw [name?, NameMap.get?, htable] at hentry
  rw [NameMap.reservations, htable]
  rcases hscope.source hbase.table hentry with hnew | ⟨-, hshared⟩ | ⟨⟨desired, hasked⟩, htaken⟩
  · exact hnew
  · cases (hbase.structural _ ident hshared).2
  · obtain ⟨⟨owner, _⟩, hfound, -⟩ := Option.map_eq_some_iff.mp htaken
    obtain ⟨x, hfirst, -, -⟩ := (setter_found_iff h).mp hfound
    obtain ⟨member, hmember, hrequest⟩ := (hmade _ hasked).mem_ofAccessors (Or.inr rfl)
    refine absurd ⟨⟨member, hmember, ?_⟩, hfirst⟩ (hown x)
    grind [NameRequest.ofAccessors]

/-- What a definition takes over ends at one whose setter it has. -/
theorem SetterFrom.setter (hd : d ∈ r.definitions) (hfrom : r.SetterFrom key d x) :
    x ∈ r.definitions ∧ r.Reaches d.name x.name ∧
      r.name? d.name .setter key = r.name? x.name .setter key := by
  have hchain := hfrom.chain
  clear hfrom
  induction hchain with
  | refl => exact ⟨hd, ReflTransGen.refl, rfl⟩
  | @tail y z hchain hstep ih =>
      obtain ⟨hy, hpath, hsame⟩ := ih
      obtain ⟨hz, hbeyond⟩ := hstep.beyond h hy
      exact ⟨hz, hpath.trans hbeyond.to_reflTransGen, hsame.trans (hstep.setter h hy)⟩

/-- What can be written has a setter from somewhere. -/
theorem exists_setterFrom (hd : d ∈ r.definitions) (hwrites : d.Writes key) :
    ∃ origin, r.SetterFrom key d origin := by
  refine (settled_of_build h).1.of_beyond (P := fun name => ∀ d ∈ r.definitions, d.name = name →
    d.Writes key → ∃ origin, r.SetterFrom key d origin) ?_
    (resolved_of_reaches h hd ReflTransGen.refl) d hd rfl hwrites
  rintro name - ih d hd rfl hwrites
  by_cases htakes : ∃ x, r.TakesFrom key d x
  · obtain ⟨x, htakes⟩ := htakes
    obtain ⟨hx, hbeyond⟩ := htakes.beyond h hd
    obtain ⟨origin, hfrom⟩ := ih x.name hbeyond x hx rfl htakes.first.holds
    exact ⟨origin, hfrom.chain.head htakes, hfrom.writes, hfrom.own⟩
  · exact ⟨d, ReflTransGen.refl, hwrites, not_exists.mp htakes⟩

/-- Definitions that are seen from one place share a setter exactly if they have one name for
it. -/
theorem sharesSetter_iff {target d' : Definition} (htarget : target ∈ r.definitions)
    (hd : d ∈ r.definitions) (hd' : d' ∈ r.definitions) (hpath : r.Reaches target.name d.name)
    (hpath' : r.Reaches target.name d'.name) (hname : r.name? d'.name .setter key = some ident) :
    r.SharesSetter key d d' ↔ r.name? d.name .setter key = some ident := by
  have hc := wellFormed_of_build h
  constructor
  · rintro ⟨origin, hfrom, hfrom'⟩
    rw [(hfrom.setter h hd).2.2, ← (hfrom'.setter h hd').2.2, hname]
  · intro hsame
    obtain ⟨origin, hfrom⟩ := exists_setterFrom h hd
      ((isSome_setter_iff h hd).mp (Option.isSome_iff_exists.mpr ⟨ident, hsame⟩))
    obtain ⟨origin', hfrom'⟩ := exists_setterFrom h hd'
      ((isSome_setter_iff h hd').mp (Option.isSome_iff_exists.mpr ⟨ident, hname⟩))
    obtain ⟨horigin, hreach, hentry⟩ := hfrom.setter h hd
    obtain ⟨horigin', hreach', hentry'⟩ := hfrom'.setter h hd'
    have hintroduced := introduced_of_own h horigin hfrom.own (hentry ▸ hsame)
    have hintroduced' := introduced_of_own h horigin' hfrom'.own (hentry' ▸ hname)
    suffices origin = origin' from ⟨origin, hfrom, this ▸ hfrom'⟩
    -- both introduced the name, and no two names meet that are not structural
    refine List.inj_on_of_nodup_map hc.nodup_names horigin horigin' ?_
    by_contra hne
    have hcompatible := Settled.compatible hc (settled_of_build h).1
      (resolved_of_reaches h htarget ReflTransGen.refl) (hpath.trans hreach)
      (hpath'.trans hreach') hne hintroduced hintroduced'
    cases (hcompatible rfl).2

end

/-- Two definitions share a setter only if one of them takes it over. -/
theorem SharesSetter.takesOver {d d' : Definition} {key : String} (h : r.SharesSetter key d d')
    (hne : d ≠ d') : d.TakesOver key ∨ d'.TakesOver key := by
  obtain ⟨origin, hfrom, hfrom'⟩ := h
  rcases hfrom.chain.cases_head with rfl | ⟨x, htakes, -⟩
  · rcases hfrom'.chain.cases_head with rfl | ⟨x, htakes, -⟩
    · exact absurd rfl hne
    · exact Or.inr htakes.asks.takesOver
  · exact Or.inl htakes.asks.takesOver

namespace Forwards

variable {a : OwnedAttribute} {forward : Forward} {key : String} {target typed called : Definition}

theorem target_mem (hf : r.Forwards a forward key target typed called) :
    target ∈ r.definitions := by
  obtain ⟨type, -, htarget⟩ := bind_eq_ok.mp hf.leads
  rw [pure_eq_ok, Option.bind_eq_some_iff] at htarget
  obtain ⟨name, -, hget⟩ := htarget
  exact Catalog.mem_of_get? hget

/-- The definition that the type comes from is reached from the target. -/
theorem typed_mem (h : build options nodes = .ok r)
    (hf : r.Forwards a forward key target typed called) :
    typed ∈ r.definitions ∧ r.Reaches target.name typed.name := by
  obtain ⟨x, hx, howner⟩ := List.mem_flatMap.mp hf.declares.mem
  have hget := (wellFormed_of_build h).get?_of_mem hf.target_mem
  have hknown := (lineage_of_build h hf.target_mem).known hget x hx
  exact ⟨Catalog.mem_of_get? ((mem_owners_iff h hknown).mp howner).1,
    reaches_of_owner h hf.target_mem hx howner⟩

/-- The definition whose setter is called is reached from the target. -/
theorem called_mem (h : build options nodes = .ok r)
    (hf : r.Forwards a forward key target typed called) :
    called ∈ r.definitions ∧ r.Reaches target.name called.name := by
  have hc := wellFormed_of_build h
  obtain ⟨hwalk, hget⟩ := Catalog.mem_definitionsOf.mp hf.writes.mem
  have hstart : (r.get? target.name).isSome = true := by
    rw [hc.get?_of_mem hf.target_mem]
    rfl
  exact ⟨Catalog.mem_of_get? hget, (hc.mem_reach_iff hstart).mp hwalk⟩

/-- The type belongs to the setter if it is declared where the setter was found, or where the
setter is the same through an `inherit` attribute. -/
theorem fits_iff (h : build options nodes = .ok r)
    (hf : r.Forwards a forward key target typed called) :
    r.Fits target key forward ↔ called.Declares key forward.type ∨
      ∃ owner ∈ r.definitions, owner ≠ called ∧ r.Reaches target.name owner.name ∧
        owner.Declares key forward.type ∧ r.SharesSetter key owner called ∧
        (owner.TakesOver key ∨ called.TakesOver key) := by
  obtain ⟨hknown, hpath⟩ := hf.called_mem h
  constructor
  · rintro ⟨owner, hfits⟩
    by_cases hsame : owner = called
    · exact Or.inl (hsame ▸ hfits.declares)
    · have hshares := (sharesSetter_iff h hf.target_mem hfits.known hknown hfits.reached hpath
        hf.setter).mpr hfits.setter
      exact Or.inr ⟨owner, hfits.known, hsame, hfits.reached, hfits.declares, hshares,
        hshares.takesOver hsame⟩
  · rintro (hdeclares | ⟨owner, howner, -, hreached, hdeclares, hshares, -⟩)
    · exact ⟨called, hknown, hpath, hf.setter, hdeclares⟩
    · exact ⟨owner, howner, hreached, (sharesSetter_iff h hf.target_mem howner hknown hreached
        hpath hf.setter).mp hshares, hdeclares⟩

/-- Both searches end at the same definition if it is also the first one to write to. -/
theorem same_iff (hf : r.Forwards a forward key target typed called) :
    typed = called ↔ FirstOn (·.Writes key) (r.settingOrder target) typed := by
  constructor
  · rintro rfl
    exact hf.writes
  · intro hfirst
    exact hfirst.unique hf.writes

/-- Both searches end at the only declaration there is. -/
theorem same_of_declaredOnce (h : build options nodes = .ok r)
    (hf : r.Forwards a forward key target typed called) (honce : r.DeclaredOnce target key) :
    typed = called := by
  obtain ⟨htyped, htypedPath⟩ := hf.typed_mem h
  obtain ⟨hcalled, hcalledPath⟩ := hf.called_mem h
  exact honce typed htyped called hcalled htypedPath hcalledPath hf.declares.holds
    hf.writes.holds.isSome_attributeType?

end Forwards

/-- **When the type of a forward belongs to its setter.**  The type comes from the first
declaration of the target attribute on the surfaces of the target and its ancestors, the setter
from the first one on the walk along parents and mixins that can be written.  If both are the
same definition, as when there is only one, the type belongs to the setter.  If not, it does
only if the definition with the setter happens to declare the same type, or if another one does
that shares the setter, because one of the two takes it over with an `inherit` attribute. -/
theorem forwarded_type_fits_iff (h : build options nodes = .ok r) {a : OwnedAttribute}
    {forward : Forward} (hforward : r.forward? a = .ok (some forward)) :
    ∃ key target typed called, r.Forwards a forward key target typed called ∧
      (r.Fits target key forward ↔ called.Declares key forward.type ∨
        ∃ owner ∈ r.definitions, owner ≠ called ∧ r.Reaches target.name owner.name ∧
          owner.Declares key forward.type ∧ r.SharesSetter key owner called ∧
          (owner.TakesOver key ∨ called.TakesOver key)) ∧
      (typed = called → r.Fits target key forward) ∧
      (typed = called ↔ FirstOn (·.Writes key) (r.settingOrder target) typed) ∧
      (r.DeclaredOnce target key → typed = called) := by
  obtain ⟨key, target, typed, called, hf⟩ := forwards_of_forward? h hforward
  refine ⟨key, target, typed, called, hf, hf.fits_iff h, ?_, hf.same_iff, ?_⟩
  · rintro rfl
    exact (hf.fits_iff h).mpr (Or.inl (Definition.declares_of_attributeType? hf.type))
  · exact hf.same_of_declaredOnce h

/-! ## a target with a parent -/

/-- `[PutForwards=value] readonly attribute Target target` -/
def forwardingMember : Member where
  kind := .attribute { name := "target", type := .named "Target" false {}, readonly := true }
  attrs := ⟨[{ name := "PutForwards", value := some (.identifier "value") }]⟩

/-- A host that forwards to an integer `value`, which its target inherits; the target has
members of its own. -/
def relayNodes (own : List Member) : List Node :=
  [.definition {
      name := "Base", kind := .interface, members := [attributeNamed "value" "long" .none] },
   .definition { name := "Target", kind := .interface, parent := some "Base", members := own },
   .definition { name := "Host", kind := .interface, members := [forwardingMember] }]

/-- The attribute of the host. -/
def relayed : OwnedAttribute where
  owner := { name := "Host", kind := .interface, members := [forwardingMember] }
  decl := { name := "target", type := .named "Target" false {}, readonly := true }
  attrs := forwardingMember.attrs

/-- The setter of a forward and the name of its type. -/
def summary? (r : Registry) (a : OwnedAttribute) : Option (String × Option String) :=
  (r.forward? a).toOption.join.map fun forward => (forward.setter, forward.type.name?)

theorem forward_of_summary? {a : OwnedAttribute} {setter : String} {name : Option String}
    (h : r.summary? a = some (setter, name)) :
    ∃ forward, r.forward? a = .ok (some forward) ∧ forward.setter = setter ∧
      forward.type.name? = name := by
  rw [summary?, Option.map_eq_some_iff] at h
  obtain ⟨forward, hfound, hsummary⟩ := h
  obtain ⟨hsetter, hname⟩ := Prod.mk.inj hsummary
  cases hrun : r.forward? a with
  | error e => simp [hrun, Except.toOption] at hfound
  | ok found =>
      rw [hrun] at hfound
      exact ⟨forward, congrArg Except.ok hfound, hsetter, hname⟩

/-- What a target inherits is found by both searches. -/
theorem inherited_target_fits :
    ∃ r forward target, build {} (relayNodes []) = .ok r ∧
      r.definitionOf relayed.decl.type = .ok (some target) ∧
      r.forward? relayed = .ok (some forward) ∧ forward.setter = "setValue" ∧
      forward.type.name? = some "long" ∧ r.Fits target "value" forward := by
  have hbuild : (build {} (relayNodes [])).toOption.map (fun r => (r.summary? relayed,
      r.definitions.all fun d =>
        d.name == "Base" || (d.attributeType? "value").isNone)) =
      some (some ("setValue", some "long"), true) := by
    decide +kernel
  obtain ⟨r, hr, hfacts⟩ := ok_of_toOption_map hbuild
  obtain ⟨hsummary, hbase⟩ := Prod.mk.inj hfacts
  obtain ⟨forward, hforward, hsetter, htype⟩ := forward_of_summary? hsummary
  obtain ⟨key, target, typed, called, hf, -, hfits, -, hsame⟩ :=
    forwarded_type_fits_iff hr hforward
  obtain rfl : key = "value" := (Option.some.inj hf.forwards).symm
  have honly : ∀ d ∈ r.definitions, (d.attributeType? "value").isSome = true →
      d.name = "Base" := by
    intro d hd hdeclares
    simpa [Option.isSome_iff_ne_none.mp hdeclares] using List.all_eq_true.mp hbase d hd
  refine ⟨r, forward, target, hr, hf.leads, hforward, hsetter, htype, hfits (hsame ?_)⟩
  intro d hd d' hd' _ _ hdeclares hdeclares'
  refine List.inj_on_of_nodup_map (wellFormed_of_build hr).nodup_names hd hd' ?_
  rw [honly d hd hdeclares, honly d' hd' hdeclares']

/-- `readonly attribute DOMString value` -/
def readonlyValue : Member where
  kind := .attribute { name := "value", type := .named "DOMString" false {}, readonly := true }

/-- A target that declares the attribute again gives its type, and its parent the setter. -/
theorem redeclared_target_does_not_fit :
    ∃ r forward target, build {} (relayNodes [readonlyValue]) = .ok r ∧
      relayed.attrs.word? "PutForwards" = some "value" ∧
      r.definitionOf relayed.decl.type = .ok (some target) ∧
      r.forward? relayed = .ok (some forward) ∧ forward.setter = "setValue" ∧
      forward.type.name? = some "DOMString" ∧ ¬ r.Fits target "value" forward := by
  have hbuild : (build {} (relayNodes [readonlyValue])).toOption.map (fun r =>
      (r.summary? relayed, r.definitions.all fun d =>
        r.name? d.name .setter "value" != some "setValue" || d.members.all fun member =>
          match member.kind with
          | .attribute decl => decl.type.name? == some "long"
          | _ => true)) =
      some (some ("setValue", some "DOMString"), true) := by
    decide +kernel
  obtain ⟨r, hr, hfacts⟩ := ok_of_toOption_map hbuild
  obtain ⟨hsummary, hlong⟩ := Prod.mk.inj hfacts
  obtain ⟨forward, hforward, hsetter, htype⟩ := forward_of_summary? hsummary
  obtain ⟨key, target, owner, hkey, hleads, -, -⟩ := searches_of_forward? hforward
  obtain rfl : key = "value" := (Option.some.inj hkey).symm
  refine ⟨r, forward, target, hr, hkey, hleads, hforward, hsetter, htype, ?_⟩
  rintro ⟨owner, howner, -, hname, member, hmember, decl, hkind, -, hsame⟩
  have hall := List.all_eq_true.mp hlong owner howner
  rw [hname, hsetter] at hall
  have hmembers := List.all_eq_true.mp (by simpa using hall) member hmember
  simp [hkind, hsame, htype] at hmembers

end Registry

end WebIdl
