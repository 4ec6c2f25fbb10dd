import WebIdl.Proofs.Files
import WebIdl.Proofs.Naming

/-!
# WebIdl.Proofs.Coverage

Who implements what a contract declares.

An accessor of an attribute is either written for the attribute, by the defaults or by the
scaffold (`Realizes`), or it is inherited.  What is inherited leads up the chain of parents
to an accessor that is not (`hasOrigin_of_accessor`).  The one thing that falls in between is the
setter of a static attribute that forwards: the scaffold takes it for one that implements
itself, and the defaults have instance attributes only (`Stranded`).
-/

namespace WebIdl

open Relation
open WebIdl.Artifact
open WebIdl.Code

namespace Registry

open Resolver (Settled)

variable {options : IngestOptions} {nodes : List Node} {r : Registry} {root name : String}
  {d : Definition} {a : OwnedAttribute} {category : NameCategory}

/-! ## what is required and what is implemented -/

/-- An interface that includes nothing but mixins without a parent, and whose files can
all be made. -/
structure Regular (r : Registry) (root : String) (d : Definition) : Prop where
  kind : d.kind = .interface
  mixins : ∀ name, r.toCatalog.Includes d.name name →
    ∃ m, r.get? name = some m ∧ m.kind = .mixin ∧ m.parent = none
  complete : r.Complete root d

/-- The methods of a host interface. -/
def hostMethods : String → List String
  | "\\ArrayAccess" => ["offsetExists", "offsetGet", "offsetSet", "offsetUnset"]
  | "\\Countable" => ["count"]
  | "\\IteratorAggregate" => ["getIterator"]
  | "\\Stringable" => ["__toString"]
  | _ => []

/-- A method that a class for a definition has to have: its contract or the contract of
something that it includes declares it, or a host interface that its contract extends. -/
inductive Required (r : Registry) (root : String) (d : Definition) : String → Prop where
  | declared {name : String} {method : Method}
      (howner : name = d.name ∨ r.toCatalog.Includes d.name name)
      (hmethod : .method method ∈ r.bodyOf root name .contract) : Required r root d method.sig.name
  | host {caps : Capabilities} {host method : String}
      (hcaps : Capabilities.of r.toCatalog d = .ok caps) (hhost : host ∈ Target.protocols caps)
      (hmethod : method ∈ hostMethods host) : Required r root d method

/-- The defaults or the scaffold of a definition or of an ancestor define a method. -/
def Implemented (r : Registry) (root : String) (d : Definition) (name : String) : Prop :=
  ∃ x ∈ d :: r.ancestors d, r.Implements root x name

instance : Decidable (r.Implemented root d name) :=
  inferInstanceAs (Decidable (∃ x ∈ d :: r.ancestors d, r.Implements root x name))

/-- An accessor is written for its attribute: by the defaults if it implements itself, and
else by the scaffold unless it is inherited. -/
def Realizes (r : Registry) (a : OwnedAttribute) (category : NameCategory) : Prop :=
  r.covers a category = .ok true ∧ a.isStatic = false ∨
  r.covers a category = .ok false ∧ r.inheritsAccessor a category = false

/-- A static attribute of somebody on a chain forwards a setter. -/
def Forwarded (r : Registry) (chain : List Definition) (name : String) : Prop :=
  ∃ x ∈ chain, ∃ a, .attribute a ∈ Feature.ofMembers (r.surface x) ∧ r.ForwardsStatic a ∧
    r.name? a.owner.name .setter a.decl.name = some name

/-- A static attribute forwards a setter, which is not written for any attribute of the
definition and its ancestors. -/
def Stranded (r : Registry) (d : Definition) (name : String) : Prop :=
  r.Forwarded (d :: r.ancestors d) name ∧
  ∀ x ∈ d :: r.ancestors d, ∀ a, .attribute a ∈ Feature.ofMembers (r.surface x) →
    r.name? a.owner.name .setter a.decl.name = some name → ¬ r.Realizes a .setter

/-- What is on the surface of a definition. -/
theorem mem_owners_iff (h : build options nodes = .ok r) (hd : r.get? d.name = some d)
    {o : Definition} : o ∈ r.toCatalog.owners d ↔
      r.get? o.name = some o ∧ (o.name = d.name ∨ r.toCatalog.Includes d.name o.name) :=
  (wellFormed_of_build h).mem_owners_iff (acyclic_of_build h) hd

/-! ## inherited accessors -/

/-- An accessor that is inherited is one of something that the parent reaches. -/
theorem source_of_inherits (h : r.inheritsAccessor a category = true)
    (hname : r.name? a.owner.name category a.decl.name = some name) :
    ∃ parent x, a.owner.parent = some parent ∧ r.toCatalog.Reaches parent x ∧
      r.name? x category a.decl.name = some name := by
  rw [inheritsAccessor, hname] at h
  split at h
  · next parent own _ hparent hown =>
      rw [Option.some.injEq] at hown
      rw [beq_iff_eq, Option.map_eq_some_iff] at h
      obtain ⟨⟨x, ident⟩, hfound, hident⟩ := h
      obtain ⟨hwalk, hentry⟩ := Settled.mem_of_findName hfound
      obtain ⟨start, hstart, hpath⟩ := Catalog.reachable_of_mem_walk hwalk
      rw [List.mem_singleton] at hstart
      refine ⟨parent, x, hparent, hstart ▸ hpath, ?_⟩
      rw [hown, ← hident]
      exact hentry
  · cases h

/-- An accessor name of a definition belongs to an attribute or a field of its own. -/
theorem feature_of_accessor (h : Settled r.toCatalog r.names) {o : Definition} {key : String}
    (ho : r.get? o.name = some o) (haccessor : IsAccessor category)
    (hname : r.name? o.name category key = some name) :
    (∃ a, .attribute a ∈ Feature.ofMembers o.ownMembers ∧
      r.name? a.owner.name category a.decl.name = some name) ∨
    ∃ f, .field f ∈ Feature.ofMembers o.ownMembers ∧ r.Declares name (.field f) := by
  obtain ⟨o', ho', member, hmember, hkind⟩ := h.accessor_member hname haccessor
  rw [ho, Option.some.injEq] at ho'
  subst ho'
  have hitem : { owner := o, member } ∈ o.ownMembers := List.mem_map_of_mem hmember
  rcases hkind with ⟨decl, hkind, rfl⟩ | ⟨rfl, decl, hkind, rfl⟩
  · refine Or.inl ⟨{ owner := o, decl, attrs := member.attrs }, Feature.mem_of_single hitem ?_,
      hname⟩
    rw [Feature.single?, hkind]
  · refine Or.inr ⟨{ owner := o, decl }, Feature.mem_of_single hitem ?_, hname⟩
    rw [Feature.single?, hkind]

/-! ## one interface -/

section

variable (hd : r.get? d.name = some d) (h : r.Regular root d)
include hd h

/-- What is written for an attribute is implemented. -/
theorem implements_of_realizes (ha : .attribute a ∈ Feature.ofMembers (r.surface d))
    (haccessor : IsAccessor category)
    (hname : r.name? a.owner.name category a.decl.name = some name)
    (hreal : r.Realizes a category) : r.Implements root d name := by
  obtain ⟨caps, items, -, hdefaults, himplements⟩ := implements_iff hd h.kind h.complete
  rw [himplements]
  rcases hreal with ⟨hcovers, hstatic⟩ | ⟨hcovers, hinherits⟩
  · exact Or.inl (hdefaults.accessor name
      ⟨a, mem_instanceAttributes.mpr ⟨ha, hstatic⟩, category, haccessor, hname, hcovers⟩)
  · exact Or.inr ⟨.attribute a, ha, category, haccessor, hname, hcovers, hinherits⟩

/-- What is no attribute is implemented by the scaffold. -/
theorem implements_of_declares {feature : Feature}
    (hfeature : feature ∈ Feature.ofMembers (r.surface d)) (hdeclares : r.Declares name feature)
    (hattribute : ∀ a, feature ≠ .attribute a) : r.Implements root d name := by
  obtain ⟨caps, items, -, -, himplements⟩ := implements_iff hd h.kind h.complete
  rw [himplements]
  refine Or.inr ⟨feature, hfeature, ?_⟩
  cases feature with
  | «attribute» a => exact absurd rfl (hattribute a)
  | constructors owner overloads => exact hdeclares.elim
  | _ => exact hdeclares

/-- What is not written for an attribute is inherited, or is the setter of a static
attribute that forwards. -/
theorem inherits_or_forwards (ha : .attribute a ∈ Feature.ofMembers (r.surface d))
    (haccessor : IsAccessor category)
    (hname : r.name? a.owner.name category a.decl.name = some name)
    (hreal : ¬ r.Realizes a category) :
    r.inheritsAccessor a category = true ∨ category = .setter ∧ r.ForwardsStatic a := by
  obtain ⟨covered, hcovered⟩ := exists_covers hd h.kind h.complete ha haccessor hname
  cases covered with
  | true =>
      cases hstatic : a.isStatic with
      | true => exact Or.inr (forwardsStatic_of_covers haccessor hstatic hcovered)
      | false => exact absurd (Or.inl ⟨hcovered, hstatic⟩) hreal
  | false =>
      cases hinherits : r.inheritsAccessor a category with
      | true => exact Or.inl rfl
      | false => exact absurd (Or.inr ⟨hcovered, hinherits⟩) hreal

/-- Only the interface itself inherits. -/
theorem owner_of_parent (hbuild : build options nodes = .ok r)
    (ha : .attribute a ∈ Feature.ofMembers (r.surface d)) {parent : String}
    (hparent : a.owner.parent = some parent) : a.owner = d := by
  have howner : a.owner ∈ r.toCatalog.owners d := Catalog.owner_mem_owners ha
  obtain ⟨hknown, hsame | hincludes⟩ := (mem_owners_iff hbuild hd).mp howner
  · rw [hsame, hd, Option.some.injEq] at hknown
    exact hknown.symm
  · obtain ⟨m, hm, -, hroot⟩ := h.mixins a.owner.name hincludes
    rw [hknown, Option.some.injEq] at hm
    rw [hm, hroot] at hparent
    cases hparent

/-- An accessor is implemented, or a static attribute forwards it, or the parent has it. -/
theorem implements_or_inherits (hbuild : build options nodes = .ok r)
    (ha : .attribute a ∈ Feature.ofMembers (r.surface d)) (haccessor : IsAccessor category)
    (hname : r.name? a.owner.name category a.decl.name = some name) :
    r.Implements root d name ∨
    (r.ForwardsStatic a ∧ r.name? a.owner.name .setter a.decl.name = some name) ∨
    ∃ parent x, d.parent = some parent ∧ r.toCatalog.Reaches parent x ∧
      r.name? x category a.decl.name = some name := by
  by_cases hreal : r.Realizes a category
  · exact Or.inl (implements_of_realizes hd h ha haccessor hname hreal)
  · rcases inherits_or_forwards hd h ha haccessor hname hreal with hinherits | ⟨rfl, hforwards⟩
    · obtain ⟨parent, x, hparent, hpath, hentry⟩ := source_of_inherits hinherits hname
      rw [owner_of_parent hd h hbuild ha hparent] at hparent
      exact Or.inr (Or.inr ⟨parent, x, hparent, hpath, hentry⟩)
    · exact Or.inr (Or.inl ⟨hforwards, hname⟩)

end

/-! ## container protocols -/

/-- With a definition of a registry that was built, what is on its surface is resolved. -/
theorem resolved_of_owner (hbuild : build options nodes = .ok r) (hd : r.get? d.name = some d)
    {o : Definition} (ho : o ∈ r.toCatalog.owners d) : (r.names.table? o.name).isSome = true := by
  obtain ⟨-, hall⟩ := settled_of_build hbuild
  obtain ⟨hknown, -⟩ := (mem_owners_iff hbuild hd).mp ho
  exact hall o.name (by rw [hknown]; rfl)

/-- No entry on a surface is a reserved word. -/
theorem not_reserved_of_owner (hbuild : build options nodes = .ok r) (hd : r.get? d.name = some d)
    {o : Definition} (ho : o ∈ r.toCatalog.owners d) {key : String}
    (hname : r.name? o.name category key = some name) : name ∉ Identifier.reserved :=
  Settled.not_reserved (wellFormed_of_build hbuild) (settled_of_build hbuild).1
    (resolved_of_owner hbuild hd ho) hname

/-- A name that a host interface fixes. -/
theorem protocol_name_of_owner (hbuild : build options nodes = .ok r)
    (hd : r.get? d.name = some d) {o : Definition} (ho : o ∈ r.toCatalog.owners d)
    (hprotocol : category.protocol?.isSome = true)
    (hname : r.name? o.name category "" = some name) : category.structuralName? = some name :=
  Settled.protocol_name (wellFormed_of_build hbuild) (settled_of_build hbuild).1
    (resolved_of_owner hbuild hd ho) hname hprotocol

theorem mem_protocols {caps : Capabilities} {host : String} :
    host ∈ Target.protocols caps ↔ host = "\\ArrayAccess" ∧ caps.keyed = true ∨
      host = "\\Countable" ∧ caps.counts = true ∨
      host = "\\IteratorAggregate" ∧ caps.iterates = true ∨
      host = "\\Stringable" ∧ caps.stringifies = true := by
  have hone : ∀ (b : Bool) (s : String), host ∈ (if b then [s] else []) ↔ host = s ∧ b = true := by
    intro b s
    cases b with
    | true => simp
    | false => simp
  simp only [Target.protocols, List.mem_append, hone, or_assoc]

theorem category_of_arrayAccess : ∀ method ∈ hostMethods "\\ArrayAccess",
    ∃ category ∈ offsetCategories, category.protocol?.isSome = true ∧
      category.structuralName? = some method := by
  decide

section

variable (hbuild : build options nodes = .ok r) (hd : r.get? d.name = some d)
  (h : r.Regular root d) {caps : Capabilities} (hcaps : Capabilities.of r.toCatalog d = .ok caps)
include hbuild hd h hcaps

/-- What iterates has its iterator. -/
theorem implements_iterator (hiterates : caps.iterates = true) :
    r.Implements root d "getIterator" := by
  cases hdeclares : caps.declaresIterable with
  | true =>
      obtain ⟨item, hitem, decl, hkind⟩ := (Capabilities.declaresIterable_iff hcaps).mp hdeclares
      have hfeature : .iterable item.owner decl ∈ Feature.ofMembers (r.surface d) :=
        Feature.mem_of_single hitem (by rw [Feature.single?, hkind])
      obtain ⟨ident, hident⟩ := exists_iterator hd h.kind h.complete hfeature
      have hname := protocol_name_of_owner hbuild hd (Catalog.owner_mem_owners hfeature) rfl hident
      rw [NameCategory.structuralName?, Option.some.injEq] at hname
      rw [hname]
      exact implements_of_declares hd h hfeature hident (fun a ha => by cases ha)
  | false =>
      obtain ⟨caps', items, hcaps', hdefaults, himplements⟩ :=
        implements_iff hd h.kind h.complete
      rw [hcaps, Except.ok.injEq] at hcaps'
      subst hcaps'
      have hderives : caps.derivesIterator = true := by
        rwa [Capabilities.iterates, hdeclares, Bool.false_or] at hiterates
      obtain ⟨ident, hident, hdefines⟩ := hdefaults.iterator hderives
      have hname := protocol_name_of_owner hbuild hd (r.self_mem_owners d) rfl hident
      rw [NameCategory.structuralName?, Option.some.injEq] at hname
      rw [himplements, hname]
      exact Or.inl hdefines

/-- The methods of the host interfaces are implemented. -/
theorem implements_host {host method : String} (hhost : host ∈ Target.protocols caps)
    (hmethod : method ∈ hostMethods host) : r.Implements root d method := by
  obtain ⟨caps', items, hcaps', hdefaults, himplements⟩ := implements_iff hd h.kind h.complete
  rw [hcaps, Except.ok.injEq] at hcaps'
  subst hcaps'
  have hown : ∀ category : NameCategory, category.protocol?.isSome = true →
      Target.DefinesOwn { registry := r, root, definition := d } items category →
      category.structuralName? = some method → r.Implements root d method := by
    rintro category hprotocol ⟨ident, hident, hdefines⟩ hname
    rw [protocol_name_of_owner hbuild hd (r.self_mem_owners d) hprotocol hident,
      Option.some.injEq] at hname
    rw [himplements, ← hname]
    exact Or.inl hdefines
  rcases mem_protocols.mp hhost with ⟨rfl, hkeyed⟩ | ⟨rfl, hcounts⟩ | ⟨rfl, hiterates⟩ |
    ⟨rfl, hstringifies⟩
  · obtain ⟨category, hcategory, hprotocol, hname⟩ := category_of_arrayAccess method hmethod
    exact hown category hprotocol (hdefaults.offsets hkeyed category hcategory) hname
  · rw [List.mem_singleton.mp hmethod] at hown ⊢
    exact hown .count rfl (hdefaults.count hcounts) rfl
  · rw [List.mem_singleton.mp hmethod]
    exact implements_iterator hbuild hd h hcaps hiterates
  · rw [List.mem_singleton.mp hmethod, himplements]
    exact Or.inl (hdefaults.stringifier hstringifies)

end

/-! ## a chain of interfaces -/

/-- Somebody on a chain implements a method, or a static attribute forwards it. -/
def HasOrigin (r : Registry) (root : String) (chain : List Definition) (name : String) : Prop :=
  (∃ x ∈ chain, r.Implements root x name) ∨ r.Forwarded chain name

theorem HasOrigin.cons {chain : List Definition} (h : r.HasOrigin root chain name)
    (d : Definition) : r.HasOrigin root (d :: chain) name := by
  rcases h with ⟨x, hx, h⟩ | ⟨x, hx, h⟩
  · exact Or.inl ⟨x, List.mem_cons_of_mem d hx, h⟩
  · exact Or.inr ⟨x, List.mem_cons_of_mem d hx, h⟩

/-- Whoever the parent has an accessor from is on the surface of somebody above, who has an
attribute or a field with it. -/
theorem exists_above (hbuild : build options nodes = .ok r) {chain : List Definition}
    (hchain : r.toCatalog.Lineage d chain) (hd : r.get? d.name = some d)
    (hregular : ∀ x ∈ d :: chain, r.Regular root x) {source key : String}
    (hpath : r.toCatalog.Reaches d.name source) (haccessor : IsAccessor category)
    (hentry : r.name? source category key = some name) :
    ∃ y ∈ d :: chain, r.Implements root y name ∨
      ∃ b, .attribute b ∈ Feature.ofMembers (r.surface y) ∧
        r.name? b.owner.name category b.decl.name = some name := by
  have hc := wellFormed_of_build hbuild
  obtain ⟨y, hy, hsource⟩ := hchain.includes_of_reaches hc hd (fun y hy name hname => by
    obtain ⟨m, hm, -, hroot⟩ := (hregular y hy).mixins name hname
    exact ⟨m, hm, hroot⟩) hpath
  obtain ⟨o, ho⟩ := Option.isSome_iff_exists.mp (hc.known_of_reaches (by rw [hd]; rfl) hpath)
  have honame := Catalog.name_of_get? ho
  subst honame
  have hknown := hchain.known hd y hy
  have howner := (mem_owners_iff hbuild hknown).mpr ⟨ho, hsource⟩
  refine ⟨y, hy, ?_⟩
  rcases feature_of_accessor (settled_of_build hbuild).1 ho haccessor hentry with
    ⟨b, hb, hname⟩ | ⟨f, hf, hdeclares⟩
  · exact Or.inr ⟨b, Catalog.mem_features_surface howner hb, hname⟩
  · exact Or.inl (implements_of_declares hknown (hregular y hy)
      (Catalog.mem_features_surface howner hf) hdeclares (fun b hb => by cases hb))

/-- An accessor leads up the chain of parents to one that is implemented, or to the setter
of a static attribute that forwards. -/
theorem hasOrigin_of_accessor (hbuild : build options nodes = .ok r) {chain : List Definition}
    (hchain : r.toCatalog.Lineage d chain) (hd : r.get? d.name = some d)
    (hregular : ∀ x ∈ d :: chain, r.Regular root x) :
    ∀ x ∈ d :: chain, ∀ a category, .attribute a ∈ Feature.ofMembers (r.surface x) →
      IsAccessor category → r.name? a.owner.name category a.decl.name = some name →
      r.HasOrigin root (d :: chain) name := by
  induction hchain with
  | @root d hroot =>
      intro x hx a category ha haccessor hname
      rw [List.mem_singleton] at hx
      subst hx
      rcases implements_or_inherits hd (hregular x List.mem_cons_self) hbuild ha haccessor hname
        with himplements | hforwards | ⟨parent, -, hparent, -⟩
      · exact Or.inl ⟨x, List.mem_cons_self, himplements⟩
      · exact Or.inr ⟨x, List.mem_cons_self, a, ha, hforwards⟩
      · rw [hroot] at hparent
        cases hparent
  | @child d parent parentName chain hparent hget hchain ih =>
      have hparentName := Catalog.name_of_get? hget
      subst hparentName
      have hregular' : ∀ x ∈ parent :: chain, r.Regular root x := fun x hx =>
        hregular x (List.mem_cons_of_mem d hx)
      intro x hx a category ha haccessor hname
      rcases List.mem_cons.mp hx with rfl | hx
      · rcases implements_or_inherits hd (hregular x List.mem_cons_self) hbuild ha haccessor hname
          with himplements | hforwards | ⟨other, source, hother, hpath, hentry⟩
        · exact Or.inl ⟨x, List.mem_cons_self, himplements⟩
        · exact Or.inr ⟨x, List.mem_cons_self, a, ha, hforwards⟩
        · rw [hparent, Option.some.injEq] at hother
          subst hother
          obtain ⟨y, hy, himplements | ⟨b, hb, hbname⟩⟩ :=
            exists_above hbuild hchain hget hregular' hpath haccessor hentry
          · exact Or.inl ⟨y, List.mem_cons_of_mem x hy, himplements⟩
          · exact (ih hget hregular' y hy b category hb haccessor hbname).cons x
      · exact (ih hget hregular' x hx a category ha haccessor hname).cons d

/-! ## the methods of a class -/

section

variable (hbuild : build options nodes = .ok r) (hd : d ∈ r.definitions)
  (hregular : ∀ x ∈ d :: r.ancestors d, r.Regular root x)
include hbuild hd

/-- What is on the surface of an interface or an ancestor is reached. -/
theorem reaches_of_owner {x o : Definition} (hx : x ∈ d :: r.ancestors d)
    (ho : o ∈ r.toCatalog.owners x) : r.toCatalog.Reaches d.name o.name := by
  have hc := wellFormed_of_build hbuild
  have hget := hc.get?_of_mem hd
  have hlineage := lineage_of_build hbuild hd
  have hpath : r.toCatalog.Reaches d.name x.name := by
    rcases List.mem_cons.mp hx with rfl | hx
    · exact ReflTransGen.refl
    · exact (hlineage.beyond hget x hx).to_reflTransGen
  obtain ⟨-, hsame | hincludes⟩ := (mem_owners_iff hbuild (hlineage.known hget x hx)).mp ho
  · exact hsame ▸ hpath
  · exact hpath.trans (Catalog.Includes.beyond hincludes).to_reflTransGen

include hregular

/-- What is required is implemented, or a static attribute forwards it. -/
theorem hasOrigin_of_required (hrequired : r.Required root d name) :
    r.HasOrigin root (d :: r.ancestors d) name := by
  have hc := wellFormed_of_build hbuild
  have hacyclic := acyclic_of_build hbuild
  have hget := hc.get?_of_mem hd
  have hself := hregular d List.mem_cons_self
  cases hrequired with
  | host hcaps hhost hmethod =>
      exact Or.inl ⟨d, List.mem_cons_self, implements_host hbuild hget hself hcaps hhost hmethod⟩
  | @declared owner method howner hmethod =>
      obtain ⟨file, hfile, hitem⟩ := exists_file_of_mem hmethod
      have howns : ∃ o ∈ r.toCatalog.owners d, o.name = owner ∧
          (o.kind = .interface ∨ o.kind = .mixin) := by
        rcases howner with rfl | hincludes
        · exact ⟨d, r.self_mem_owners d, rfl, Or.inl hself.kind⟩
        · obtain ⟨m, hm, hkind, -⟩ := hself.mixins owner hincludes
          have hname := Catalog.name_of_get? hm
          subst hname
          exact ⟨m, (mem_owners_iff hbuild hget).mpr ⟨hm, Or.inr hincludes⟩, rfl,
            Or.inr hkind⟩
      obtain ⟨o, ho, rfl, hkind⟩ := howns
      have hknown := ((mem_owners_iff hbuild hget).mp ho).1
      obtain ⟨file', hsame, hyields⟩ := yields_contract hknown hkind hfile
      rw [Option.some.injEq] at hsame
      subst hsame
      obtain ⟨caps, hcaps, hmethods⟩ := Target.declares_interfaceContract hyields
      rcases hmethods method hitem with ⟨feature, hfeature, hwrites⟩ | ⟨hderives, hsig⟩
      · obtain ⟨items, hitems, hmem⟩ := hwrites
        have hdeclares := Target.declares_contractItems hitems hmem
        have hsurface := Catalog.mem_features_surface ho hfeature
        by_cases hattribute : ∃ a, feature = .attribute a
        · obtain ⟨a, rfl⟩ := hattribute
          obtain ⟨category, haccessor, hname⟩ := hdeclares
          exact hasOrigin_of_accessor hbuild (lineage_of_build hbuild hd) hget hregular d
            List.mem_cons_self a category hsurface haccessor hname
        · exact Or.inl ⟨d, List.mem_cons_self, implements_of_declares hget hself hsurface hdeclares
            fun a ha => hattribute ⟨a, ha⟩⟩
      · obtain ⟨caps', items, hcaps', -, -⟩ := implements_iff hget hself.kind hself.complete
        have hiterates := Capabilities.iterates_of_subset hcaps' hcaps
          (hc.surface_subset hacyclic hget ho) hderives
        have hiterator := protocol_name_of_owner hbuild hget ho rfl hsig.entry
        rw [NameCategory.structuralName?, Option.some.injEq] at hiterator
        rw [← hiterator]
        exact Or.inl ⟨d, List.mem_cons_self,
          implements_iterator hbuild hget hself hcaps' hiterates⟩

/-- What implements a setter is written for an attribute that has it. -/
theorem realizes_of_implements {x : Definition} (hx : x ∈ d :: r.ancestors d)
    (hsetter : ∀ o category key, r.toCatalog.Reaches d.name o →
      r.name? o category key = some name → category = .setter)
    (hreserved : name ∉ Identifier.reserved) (h : r.Implements root x name) :
    ∃ a, .attribute a ∈ Feature.ofMembers (r.surface x) ∧
      r.name? a.owner.name .setter a.decl.name = some name ∧ r.Realizes a .setter := by
  have hget := (wellFormed_of_build hbuild).get?_of_mem hd
  have hknown := (lineage_of_build hbuild hd).known hget x hx
  have hsetter' : ∀ feature ∈ Feature.ofMembers (r.surface x), ∀ category key,
      r.name? feature.owner.name category key = some name → category = .setter :=
    fun feature hfeature category key hname => hsetter _ category key
      (reaches_of_owner hbuild hd hx (Catalog.owner_mem_owners hfeature)) hname
  obtain ⟨caps, items, -, hdefaults, himplements⟩ :=
    implements_iff hknown (hregular x hx).kind (hregular x hx).complete
  rcases (himplements name).mp h with hdefines | ⟨feature, hfeature, hopen⟩
  · rcases hdefaults.only hdefines with hword | ⟨a, ha, category, -, hname, hcovers⟩ |
      ⟨category, hstructural, hname⟩
    · exact absurd hword hreserved
    · obtain ⟨ha, hstatic⟩ := mem_instanceAttributes.mp ha
      have hcategory := hsetter' _ ha category _ hname
      subst hcategory
      exact ⟨a, ha, hname, Or.inl ⟨hcovers, hstatic⟩⟩
    · have hcategory := hsetter _ category _
        (reaches_of_owner hbuild hd hx (r.self_mem_owners x)) hname
      subst hcategory
      cases hstructural
  · cases feature with
    | «attribute» a =>
        obtain ⟨category, -, hname, hreal⟩ := hopen
        have hcategory := hsetter' _ hfeature category _ hname
        subst hcategory
        exact ⟨a, hfeature, hname, Or.inr hreal⟩
    | constructors owner overloads =>
        exact absurd (hopen ▸ by decide) hreserved
    | constant owner decl => exact hopen.elim
    | field f => exact absurd (hsetter' _ hfeature .getter _ hopen) (by decide)
    | iterable owner decl => exact absurd (hsetter' _ hfeature .iterator _ hopen) (by decide)
    | operation group =>
        obtain ⟨category, key, hlooks, hname⟩ := entry_of_operationName? hopen
        have hsetter : category = .setter := hsetter' _ hfeature category key hname
        subst hsetter
        cases hlooks

/-- What is required is implemented unless it is stranded. -/
theorem implemented_iff (hrequired : r.Required root d name) :
    r.Implemented root d name ↔ ¬ r.Stranded d name := by
  have hc := wellFormed_of_build hbuild
  obtain ⟨hsettled, -⟩ := settled_of_build hbuild
  have hlineage := lineage_of_build hbuild hd
  have hget := hc.get?_of_mem hd
  constructor
  · rintro ⟨x, hx, himplements⟩ ⟨⟨y, hy, b, hb, -, hname⟩, hnone⟩
    have hresolved := resolved_of_reaches hbuild hd ReflTransGen.refl
    have hpath := reaches_of_owner hbuild hd hy (Catalog.owner_mem_owners hb)
    obtain ⟨a, ha, haname, hreal⟩ := realizes_of_implements hbuild hd hregular hx
      (fun o category key ho hentry =>
        Settled.same_category hc hsettled hresolved ho hpath hentry hname)
      (Settled.not_reserved hc hsettled (resolved_of_reaches hbuild hd hpath) hname) himplements
    exact hnone x hx a ha haname hreal
  · intro hnot
    rcases hasOrigin_of_required hbuild hd hregular hrequired with himplemented | hforwarded
    · exact himplemented
    · by_contra hmissing
      refine hnot ⟨hforwarded, fun x hx a ha hname hreal => hmissing ⟨x, hx, ?_⟩⟩
      exact implements_of_realizes (hlineage.known hget x hx) (hregular x hx) ha (Or.inr rfl) hname
        hreal

end

/-! ## checks -/

/-- Whether everything that is included is a mixin without a parent. -/
def includesMixins (r : Registry) : Bool :=
  r.includes.all fun entry => entry.2.all fun name =>
    match r.get? name with
    | some m => m.isMixin && m.parent.isNone
    | none => false

theorem mixin_of_includes (h : r.includesMixins = true) {x y : String}
    (hincludes : r.toCatalog.Includes x y) :
    ∃ m, r.get? y = some m ∧ m.kind = .mixin ∧ m.parent = none := by
  have hlast : ∃ x, y ∈ r.included x := by
    cases hincludes with
    | single hmem => exact ⟨_, hmem⟩
    | tail _ hmem => exact ⟨_, hmem⟩
  obtain ⟨x, hmem⟩ := hlast
  rw [Catalog.included] at hmem
  cases hlookup : r.includes.lookup x with
  | none =>
      rw [hlookup] at hmem
      cases hmem
  | some names =>
      rw [hlookup, Option.getD_some] at hmem
      obtain ⟨before, after, hlist, -⟩ := List.lookup_eq_some_iff.mp hlookup
      have hentry : (x, names) ∈ r.includes := by simp [hlist]
      have hcheck := List.all_eq_true.mp (List.all_eq_true.mp h _ hentry) y hmem
      cases hget : r.get? y with
      | none => simp [hget] at hcheck
      | some m =>
          simp only [hget, Bool.and_eq_true, Option.isNone_iff_eq_none] at hcheck
          refine ⟨m, rfl, ?_, hcheck.2⟩
          have hmixin := hcheck.1
          rw [Definition.isMixin] at hmixin
          split at hmixin
          · next hkind => exact hkind
          · cases hmixin

theorem kind_of_isInterface (h : d.isInterface = true) : d.kind = .interface := by
  rw [Definition.isInterface] at h
  split at h
  · next hkind => exact hkind
  · cases h

/-- A check for `Complete`. -/
def isComplete (r : Registry) (root : String) (d : Definition) : Bool :=
  ArtifactKind.all.all fun kind => (r.file? root d.name kind).toOption.isSome

theorem complete_of_check (h : r.isComplete root d = true) : r.Complete root d := by
  intro kind
  have hfile := List.all_eq_true.mp h kind (by cases kind <;> decide)
  cases hfound : r.file? root d.name kind with
  | error e => simp [hfound, Except.toOption] at hfile
  | ok found => exact ⟨found, rfl⟩

/-- A check for `Regular`. -/
def isRegular (r : Registry) (root : String) (d : Definition) : Bool :=
  d.isInterface && r.includesMixins && r.isComplete root d

theorem regular_of_check (h : r.isRegular root d = true) : r.Regular root d := by
  rw [isRegular, Bool.and_eq_true, Bool.and_eq_true] at h
  obtain ⟨⟨hinterface, hmixins⟩, hfiles⟩ := h
  exact ⟨kind_of_isInterface hinterface, fun name => mixin_of_includes hmixins,
    complete_of_check hfiles⟩

/-! ## samples -/

/-- `readonly attribute long length` and `getter DOMString item(long index)` -/
def countedItems : List Member :=
  [{ kind := .attribute { name := "length", type := .named "long" false {}, readonly := true } },
   { kind := .operation {
      name := some "item", special := .getter,
      signature := {
        result := .named "DOMString" false {},
        arguments := [{ name := "index", type := .named "long" false {} }] } } }]

end Registry

end WebIdl
