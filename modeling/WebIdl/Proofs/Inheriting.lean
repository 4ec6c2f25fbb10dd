import WebIdl.Proofs.Reserved
import WebIdl.Proofs.Session

/-!
# WebIdl.Proofs.Inheriting

Accessors that an `inherit` attribute has from its ancestors.

While names are chosen, such an attribute takes over the accessor that is found above its
definition (`Definition.Adopts`), and no later request changes that (`Grown.taken_stays`).
What is taken over was introduced by something that the definition reaches, so it is not among
the names that the definition introduced itself (`Settled.not_introduced_iff`).  The search
that is made for the finished registry meets the same tables as the one that was made then
(`Catalog.findName_congr`):

* `inherited_accessors_are_taken_over`: an accessor counts as inherited exactly if the
  definition has a name for it that it did not introduce, and exactly if it took that name over.
-/

namespace WebIdl

open Relation Text

/-! ## taking over a name -/

/-- A name that is taken over stays the one of its category and key. -/
theorem Scope.Grown.taken_stays {found : NameCategory → String → Option String} {d : Definition}
    {requests : List NameRequest} {base scope : Scope} {category : NameCategory}
    {key ident : String} (hmade : ∀ request ∈ requests, NameRequest.Made d request)
    (h : Grown found requests base scope) (hfound : found category key = some ident)
    (hstructural : category.isStructural = false)
    (hbase : base.table.get? category key = some ident) :
    scope.table.get? category key = some ident := by
  induction h with
  | base => exact hbase
  | @share scope other shared h hasked hnoted ih =>
      refine (NameTable.get?_put_of_ne ?_).trans ih
      rintro ⟨rfl, -⟩
      rw [(hmade _ hasked).isStructural] at hstructural
      cases hstructural
  | @inherit scope other key' desired taken h hasked htaken ih =>
      by_cases hsame : category = other ∧ key = key'
      · obtain ⟨rfl, rfl⟩ := hsame
        rw [hfound, Option.some.injEq] at htaken
        subst htaken
        exact NameTable.get?_put_self scope.table ⟨category, key, ident⟩
      · exact (NameTable.get?_put_of_ne hsame).trans ih
  | @introduce scope request other key' fresh h hasked htarget hnew hfree hprotocol ih =>
      rw [get?_introduce]
      refine (NameTable.get?_put_of_ne ?_).trans ih
      rintro ⟨rfl, rfl⟩
      rw [ih] at hnew
      cases hnew

/-- While the names of a definition are chosen, the turn comes to a request for an accessor that
an ancestor may have a name for; one is found, and the definition takes it over. -/
def Definition.Adopts (c : Catalog) (map : NameMap) (d : Definition) (category : NameCategory)
    (key ident : String) : Prop :=
  ∃ kind members before desired after base scope origin,
    NameRequest.ofKind c d = .ok kind ∧ NameRequest.ofMembers c d = .ok members ∧
    kind ++ members = before ++ .inheriting category key desired :: after ∧
    (Scope.start d.name).foldMixins c map d = .ok base ∧
    before.foldlM (Scope.grant c map d) base = .ok scope ∧
    c.findName map d.parent.toList category key = some (origin, ident) ∧
    scope.grant c map d (.inheriting category key desired) = .ok (scope.adopt category key ident)

namespace Definition

variable {c : Catalog} {map : NameMap} {d : Definition} {category : NameCategory}
  {key ident : String} {table : NameTable}

/-- The name that a definition takes over is the one it has in the end. -/
theorem Adopts.entry (h : d.Adopts c map category key ident)
    (hof : NameTable.of c map d = .ok table) (hstructural : category.isStructural = false) :
    table.get? category key = some ident ∧
      Scope.inherited? c map d category key = some ident := by
  obtain ⟨kind, members, before, desired, after, base, scope, origin, hkind, hmembers, hsplit,
    hbase, hbefore, hfound, hgrant⟩ := h
  obtain ⟨kind', members', base', final, hkind', hmembers', hbase', hrun, rfl⟩ :=
    NameTable.of_run hof
  rw [hkind, Except.ok.injEq] at hkind'
  rw [hmembers, Except.ok.injEq] at hmembers'
  rw [hbase, Except.ok.injEq] at hbase'
  subst hkind' hmembers' hbase'
  have hmade := NameRequest.made_of_run hkind hmembers
  simp only [hsplit, List.foldlM_append, List.foldlM_cons, bind_eq_ok, hbefore, hgrant,
    Except.ok.injEq, exists_eq_left'] at hrun
  have hinherited : Scope.inherited? c map d category key = some ident := by
    rw [Scope.inherited?, hfound]
    rfl
  refine ⟨?_, hinherited⟩
  refine (Scope.Grown.of_grants hrun).taken_stays (d := d) ?_ hinherited hstructural
    (NameTable.get?_put_self scope.table ⟨category, key, ident⟩)
  intro request hrequest
  exact hmade request (by simp [hsplit, hrequest])

/-- Whoever asks for an accessor that is found above takes it over. -/
theorem adopts_of_asked (hof : NameTable.of c map d = .ok table) {kind members : List NameRequest}
    (hkind : NameRequest.ofKind c d = .ok kind) (hmembers : NameRequest.ofMembers c d = .ok members)
    {desired : String} (hasked : .inheriting category key desired ∈ kind ++ members)
    (htaken : Scope.inherited? c map d category key = some ident) :
    d.Adopts c map category key ident := by
  obtain ⟨kind', members', base, final, hkind', hmembers', hbase, hrun, rfl⟩ :=
    NameTable.of_run hof
  rw [hkind, Except.ok.injEq] at hkind'
  rw [hmembers, Except.ok.injEq] at hmembers'
  subst hkind' hmembers'
  obtain ⟨before, after, hsplit⟩ := List.append_of_mem hasked
  rw [hsplit, List.foldlM_append, bind_eq_ok] at hrun
  obtain ⟨scope, hbefore, -⟩ := hrun
  rw [Scope.inherited?, Option.map_eq_some_iff] at htaken
  obtain ⟨⟨origin, found⟩, hfound, rfl⟩ := htaken
  refine ⟨kind, members, before, desired, after, base, scope, origin, hkind, hmembers, hsplit,
    hbase, hbefore, hfound, ?_⟩
  rw [Scope.grant, hfound]

/-- A name that a definition has but did not introduce, it took over. -/
theorem adopts_of_entry (hof : NameTable.of c map d = .ok table)
    (hentry : table.get? category key = some ident) (hstructural : category.isStructural = false)
    (hown : ⟨category, ident⟩ ∉ table.introduced) : d.Adopts c map category key ident := by
  obtain ⟨kind, members, base, final, hkind, hmembers, hbase, hrun, rfl⟩ := NameTable.of_run hof
  have hfolded := Scope.Folded.foldMixins hbase
  rcases (Scope.Grown.of_grants hrun).source hfolded.table hentry with
    hnew | ⟨-, hshared⟩ | ⟨⟨desired, hasked⟩, htaken⟩
  · exact absurd hnew hown
  · rw [(hfolded.structural category ident hshared).2] at hstructural
    cases hstructural
  · exact adopts_of_asked hof hkind hmembers hasked htaken

end Definition

/-! ## names that are not introduced -/

namespace Resolver.Settled

variable {c : Catalog} {map : NameMap}

/-- An accessor name that a definition did not introduce is the one found above it. -/
theorem not_introduced_iff (hc : c.WellFormed) (h : Settled c map) {d : Definition}
    (hd : c.get? d.name = some d) {category : NameCategory} {key ident : String}
    (hstructural : category.isStructural = false)
    (hentry : map.get? d.name category key = some ident) :
    ident ∉ (map.reservations d.name).map (·.ident) ↔
      Scope.inherited? c map d category key = some ident := by
  have hname := isSome_of_get? hentry
  constructor
  · intro hown
    obtain ⟨table, htable⟩ := Option.isSome_iff_exists.mp hname
    obtain ⟨d', hd', hof⟩ := h.table_of htable
    rw [hd, Option.some.injEq] at hd'
    subst hd'
    rw [NameMap.get?, htable] at hentry
    rw [NameMap.reservations, htable] at hown
    have htaken := Definition.adopts_of_entry hof hentry hstructural fun hmem =>
      hown (List.mem_map.mpr ⟨_, hmem, rfl⟩)
    exact (htaken.entry hof hstructural).2
  · intro htaken hown
    -- whoever introduced the name is reached, and differs in all its names
    obtain ⟨a, ha, rfl⟩ := List.mem_map.mp hown
    obtain ⟨other, hother, hget⟩ := of_inherited hd htaken
    obtain ⟨origin, hpath, hmem, -⟩ :=
      source hc h (h.reaches hname hother.to_reflTransGen) hget
    exact ne_beyond hc h hname (TransGen.trans_left hother hpath) ha hmem rfl

end Resolver.Settled

namespace Registry

open Resolver (Ready Settled resolveMixins)

variable {options : IngestOptions} {nodes : List Node} {r : Registry}

/-- An accessor of an `inherit` attribute counts as inherited if it is the one found above its
owner. -/
theorem inheritsAccessor_iff {a : OwnedAttribute} (hspecial : a.decl.special = .inherit)
    {category : NameCategory} :
    r.inheritsAccessor a category = true ↔
      ∃ ident, r.name? a.owner.name category a.decl.name = some ident ∧
        Scope.inherited? r.toCatalog r.names a.owner category a.decl.name = some ident := by
  rw [inheritsAccessor, hspecial, Scope.inherited?]
  cases hparent : a.owner.parent with
  | none =>
      -- nothing is found where there is no parent to start from
      refine iff_of_false (by simp) ?_
      rintro ⟨ident, -, hfound⟩
      obtain ⟨⟨origin, _⟩, hfound, -⟩ := Option.map_eq_some_iff.mp hfound
      obtain ⟨start, hstart, -⟩ :=
        Catalog.reachable_of_mem_walk (Settled.mem_of_findName hfound).1
      cases hstart
  | some parent =>
      cases hname : r.name? a.owner.name category a.decl.name with
      | none => simp
      | some own => simp [findName]

/-- What a definition can take over is the same in its turn and in the finished registry. -/
theorem inherited?_eq {map : NameMap} (h : build options nodes = .ok r) {d : Definition}
    (hd : d ∈ r.definitions) (hready : Ready r.toCatalog map d) (category : NameCategory)
    (key : String) : Scope.inherited? r.toCatalog r.names d category key =
      Scope.inherited? r.toCatalog map d category key := by
  obtain ⟨hsettled, -⟩ := settled_of_build h
  have hwalk : ∀ name ∈ r.toCatalog.reach [] d.parent.toList,
      r.names.table? name = map.table? name := by
    intro name hname
    obtain ⟨parent, hparent, hpath⟩ := Catalog.reachable_of_mem_walk hname
    have hbeyond : r.toCatalog.Beyond d.name name :=
      TransGen.head' (Catalog.edge_parent hready.known (Option.mem_toList.mp hparent)) hpath
    exact hready.settled.agree hsettled (hready.beyond hbeyond)
      (resolved_of_reaches h hd hbeyond.to_reflTransGen)
  rw [Scope.inherited?, Scope.inherited?, r.toCatalog.findName_congr hwalk]

section

variable (h : build options nodes = .ok r) {a : OwnedAttribute} (howner : a.owner ∈ r.definitions)
  (hspecial : a.decl.special = .inherit) {category : NameCategory}
  (hstructural : category.isStructural = false)
include h howner hspecial hstructural

/-- An accessor counts as inherited if the owner has a name for it that it did not introduce. -/
theorem inheritsAccessor_iff_not_introduced :
    r.inheritsAccessor a category = true ↔
      ∃ ident, r.name? a.owner.name category a.decl.name = some ident ∧
        ident ∉ (r.names.reservations a.owner.name).map (·.ident) := by
  have hc := wellFormed_of_build h
  rw [inheritsAccessor_iff hspecial]
  refine exists_congr fun ident => and_congr_right fun hentry => ?_
  exact ((settled_of_build h).1.not_introduced_iff hc (hc.get?_of_mem howner) hstructural
    hentry).symm

/-- An accessor counts as inherited if the owner took it over in its turn. -/
theorem inheritsAccessor_iff_adopts {map : NameMap}
    (hready : Ready r.toCatalog map a.owner) :
    r.inheritsAccessor a category = true ↔
      ∃ ident, a.owner.Adopts r.toCatalog map category a.decl.name ident := by
  obtain ⟨table, htable, hof⟩ := table_of_build h howner
  have hmixins : ∀ mixin ∈ r.mixins a.owner.name, (r.names.table? mixin).isSome = true :=
    fun mixin hmixin => resolved_of_reaches h howner (ReflTransGen.single hmixin)
  rw [(settled_of_build h).1.of_mixins hready.settled hready.known hmixins hready.mixins] at hof
  have hname : r.name? a.owner.name category a.decl.name = table.get? category a.decl.name := by
    rw [name?, NameMap.get?, htable]
    rfl
  constructor
  · rw [inheritsAccessor_iff_not_introduced h howner hspecial hstructural]
    rintro ⟨ident, hentry, hown⟩
    refine ⟨ident, Definition.adopts_of_entry hof (hname ▸ hentry) hstructural fun hmem => ?_⟩
    refine hown (List.mem_map.mpr ⟨⟨category, ident⟩, ?_, rfl⟩)
    rw [NameMap.reservations, htable]
    exact hmem
  · rintro ⟨ident, hadopts⟩
    obtain ⟨hentry, htaken⟩ := hadopts.entry hof hstructural
    rw [inheritsAccessor_iff hspecial, inherited?_eq h howner hready]
    exact ⟨ident, hname.trans hentry, htaken⟩

end

/-- **An accessor counts as inherited if it was taken over.**  An accessor of an `inherit`
attribute counts as inherited exactly if its owner has a name for it that is not among the names
the owner introduced; and exactly if the owner, when all that it inherits or includes had been
resolved, took over a name that was found above it. -/
theorem inherited_accessors_are_taken_over (h : build options nodes = .ok r) {a : OwnedAttribute}
    (howner : a.owner ∈ r.definitions) (hspecial : a.decl.special = .inherit)
    {category : NameCategory} (haccessor : category = .getter ∨ category = .setter) :
    (r.inheritsAccessor a category = true ↔
      ∃ ident idents, r.name? a.owner.name category a.decl.name = some ident ∧
        r.names.introduced? a.owner.name = some idents ∧ ident ∉ idents) ∧
    ∃ resolver, resolveMixins r.toCatalog a.owner.name = .ok resolver ∧
      (r.inheritsAccessor a category = true ↔
        ∃ ident, a.owner.Adopts r.toCatalog resolver.map category a.decl.name ident) := by
  have hstructural : category.isStructural = false := by
    rcases haccessor with rfl | rfl
    · rfl
    · rfl
  constructor
  · rw [inheritsAccessor_iff_not_introduced h howner hspecial hstructural,
      introduced_eq (resolved_of_reaches h howner ReflTransGen.refl)]
    simp
  · obtain ⟨resolver, hresolver, hready, -⟩ := Resolver.exists_resolveMixins
      (settled_of_build h).1 ((wellFormed_of_build h).get?_of_mem howner)
      fun mixin hmixin => resolved_of_reaches h howner (ReflTransGen.single hmixin)
    exact ⟨resolver, hresolver,
      inheritsAccessor_iff_adopts h howner hspecial hstructural hready⟩

/-- The attribute `title`. -/
def titleAttribute (readonly : Bool) (special : AttributeSpecial) : Attribute :=
  { name := "title", type := .named "DOMString" false {}, readonly, special }

/-- A getter that goes down from one definition to the next, and a setter at the end. -/
def lineageNodes : List Node :=
  [.definition {
      name := "Root", kind := .interface,
      members := [{ kind := .attribute (titleAttribute true .none) }] },
   .definition {
      name := "Middle", kind := .interface, parent := some "Root",
      members := [{ kind := .attribute (titleAttribute true .inherit) }] },
   .definition {
      name := "Leaf", kind := .interface, parent := some "Middle",
      members := [{ kind := .attribute (titleAttribute false .inherit) }] }]

/-- The last definition takes over the getter of the first one, and its setter is new. -/
theorem leaf_takes_over_its_getter :
    ∃ r a resolver, build {} lineageNodes = .ok r ∧ a.owner ∈ r.definitions ∧
      a.decl = titleAttribute false .inherit ∧
      resolveMixins r.toCatalog a.owner.name = .ok resolver ∧
      r.inheritsAccessor a .getter = true ∧ r.inheritsAccessor a .setter = false ∧
      (∃ ident, a.owner.Adopts r.toCatalog resolver.map .getter "title" ident) ∧
      ¬ ∃ ident, a.owner.Adopts r.toCatalog resolver.map .setter "title" ident := by
  have hbuild : (build {} lineageNodes).toOption.map (fun r => (r.get? "Leaf").map fun owner =>
      (r.inheritsAccessor ⟨owner, titleAttribute false .inherit, {}⟩ .getter,
        r.inheritsAccessor ⟨owner, titleAttribute false .inherit, {}⟩ .setter)) =
      some (some (true, false)) := by
    decide +kernel
  obtain ⟨r, hr, hfacts⟩ := ok_of_toOption_map hbuild
  obtain ⟨owner, hget, hfacts⟩ := Option.map_eq_some_iff.mp hfacts
  obtain ⟨hgetter, hsetter⟩ := Prod.mk.inj hfacts
  have howner := Catalog.mem_of_get? hget
  obtain ⟨-, resolver, hresolver, hadopts⟩ := inherited_accessors_are_taken_over hr
    (a := ⟨owner, titleAttribute false .inherit, {}⟩) howner rfl (Or.inl rfl)
  obtain ⟨-, _, hresolver', hadopts'⟩ := inherited_accessors_are_taken_over hr
    (a := ⟨owner, titleAttribute false .inherit, {}⟩) howner rfl (Or.inr rfl)
  rw [hresolver, Except.ok.injEq] at hresolver'
  subst hresolver'
  refine ⟨r, _, resolver, hr, howner, rfl, hresolver, hgetter, hsetter, hadopts.mp hgetter, ?_⟩
  intro hnew
  rw [hadopts'.mpr hnew] at hsetter
  cases hsetter

end Registry

end WebIdl
