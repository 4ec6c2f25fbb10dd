import WebIdl.Proofs.Requests
import WebIdl.Proofs.Resolution

/-!
# WebIdl.Proofs.Naming

The names of a registry, seen as a whole.

The names of a definition depend only on what it reaches (`NameTable.of_congr`), so in a
settled map every table is the one that the whole map gives (`Settled.table_of`), and maps
that were filled in different orders agree (`Settled.agree`).  With this every definition is
looked at once: what it introduced is new among all it reaches, names that meet stand for
one structural category (`Settled.meet`), and its entries are distinct and have a source
(`Settled.source`, `Settled.injective`).
-/

namespace WebIdl

open Relation Text

/-- The run that makes the names of a definition: all that it can see is taken over, and then
its requests are granted, those of its kind before those of its members. -/
theorem NameTable.of_run {c : Catalog} {map : NameMap} {d : Definition} {table : NameTable}
    (h : NameTable.of c map d = .ok table) :
    ∃ kind members base scope, NameRequest.ofKind c d = .ok kind ∧
      NameRequest.ofMembers c d = .ok members ∧
      (Scope.start d.name).foldMixins c map d = .ok base ∧
      (kind ++ members).foldlM (Scope.grant c map d) base = .ok scope ∧ scope.table = table := by
  simp only [NameTable.of, bind_eq_ok, pure_eq_ok] at h
  obtain ⟨base, hbase, kind, hkind, middle, hmiddle, members, hmembers, scope, hscope, htable⟩ := h
  refine ⟨kind, members, base, scope, hkind, hmembers, hbase, ?_, htable⟩
  rw [List.foldlM_append, bind_eq_ok]
  exact ⟨middle, hmiddle, hscope⟩

/-- What a definition asks for is what it can ask for. -/
theorem NameRequest.made_of_run {c : Catalog} {d : Definition} {kind members : List NameRequest}
    (hkind : ofKind c d = .ok kind) (hmembers : ofMembers c d = .ok members) :
    ∀ request ∈ kind ++ members, Made d request := by
  intro request hrequest
  rcases List.mem_append.mp hrequest with hrequest | hrequest
  · exact made_ofKind hkind request hrequest
  · exact made_ofMembers hmembers request hrequest

/-- The names of a definition, as they grow out of all that it can see. -/
theorem NameTable.of_ok {c : Catalog} {map : NameMap} {d : Definition} {table : NameTable}
    (h : NameTable.of c map d = .ok table) :
    ∃ requests base scope, (∀ request ∈ requests, NameRequest.Made d request) ∧
      Scope.Folded ((c.above d ++ c.beside d).flatMap map.reservations) base ∧
      Scope.Grown (Scope.inherited? c map d) requests base scope ∧ scope.table = table := by
  obtain ⟨kind, members, base, scope, hkind, hmembers, hbase, hscope, htable⟩ := of_run h
  exact ⟨kind ++ members, base, scope, NameRequest.made_of_run hkind hmembers,
    Scope.Folded.foldMixins hbase, Scope.Grown.of_grants hscope, htable⟩

/-- Where a name is found depends on the tables along the walk only. -/
theorem Catalog.findName_congr (c : Catalog) {map other : NameMap} {stack : List String}
    (h : ∀ name ∈ c.reach [] stack, other.table? name = map.table? name)
    (category : NameCategory) (key : String) :
    c.findName other stack category key = c.findName map stack category key := by
  rw [findName, findName]
  generalize c.reach [] stack = names at h
  induction names with
  | nil => rfl
  | cons name names ih =>
      rw [List.forall_mem_cons] at h
      rw [List.findSome?_cons, List.findSome?_cons, NameMap.get?, NameMap.get?, h.1, ih h.2]

/-- What a map has for everything that a definition reaches decides its names. -/
theorem NameTable.of_congr {c : Catalog} {map other : NameMap} {d : Definition}
    (hd : c.get? d.name = some d)
    (h : ∀ name, c.Beyond d.name name → other.table? name = map.table? name) :
    NameTable.of c other d = NameTable.of c map d := by
  have hparent : ∀ name ∈ d.parent.toList, c.Edge d.name name := fun name hname =>
    Catalog.edge_parent hd (Option.mem_toList.mp hname)
  have hincluded : ∀ name ∈ c.included d.name, c.Edge d.name name := fun name hname =>
    Catalog.edge_included hname
  have hreach : ∀ seen stack, (∀ name ∈ stack, c.Edge d.name name) →
      ∀ name ∈ c.reach seen stack, other.table? name = map.table? name := by
    intro seen stack hstack name hname
    obtain ⟨start, hstart, hpath⟩ := Catalog.reachable_of_mem_walk hname
    exact h name (TransGen.head' (hstack start hstart) hpath)
  have hfoldAll : ∀ included seen stack, (∀ name ∈ stack, c.Edge d.name name) →
      ∀ scope, (c.reach seen stack).foldlM (Scope.foldAll other included) scope =
        (c.reach seen stack).foldlM (Scope.foldAll map included) scope := by
    intro included seen stack hstack
    refine foldlM_congr fun name hname scope => ?_
    simp only [Scope.foldAll, NameMap.reservations, hreach seen stack hstack name hname]
  have hfold : ∀ scope : Scope, scope.foldMixins c other d = scope.foldMixins c map d := by
    intro scope
    simp only [Scope.foldMixins, hfoldAll _ _ _ hparent, hfoldAll _ _ _ hincluded]
  have hfind : ∀ category key, c.findName other d.parent.toList category key =
      c.findName map d.parent.toList category key :=
    c.findName_congr (hreach [] d.parent.toList hparent)
  have hgrant : Scope.grant c other d = Scope.grant c map d := by
    funext scope request
    cases request with
    | structural category => rfl
    | own category key desired => rfl
    | inheriting category key desired => rw [Scope.grant, Scope.grant, hfind]
  rw [NameTable.of, NameTable.of, hfold, hgrant]

namespace Resolver.Settled

variable {c : Catalog} {map : NameMap}

/-! ## every table is the one that the whole map gives -/

/-- The names of a definition stay the same when a map grows that has all it needs. -/
theorem of_keeps {after : NameMap} (h : Settled c map) (hkeeps : map.Keeps after)
    {d : Definition} (hd : c.get? d.name = some d)
    (hmixins : ∀ mixin ∈ c.mixins d.name, (map.table? mixin).isSome = true) :
    NameTable.of c after d = NameTable.of c map d := by
  refine NameTable.of_congr hd fun name hbeyond => ?_
  obtain ⟨mixin, hedge, hpath⟩ := TransGen.head'_iff.mp hbeyond
  exact hkeeps.table?_eq (h.reaches (hmixins mixin hedge) hpath)

/-- In a settled map every table is the one that the map gives. -/
theorem table_of (h : Settled c map) {name : String} {table : NameTable}
    (htable : map.table? name = some table) :
    ∃ d, c.get? name = some d ∧ NameTable.of c map d = .ok table := by
  induction h with
  | empty => cases htable
  | @insert map other d table' hmap hd hnew hmixins hof ih =>
      have hkeeps := NameMap.keeps_insert map other table'
      by_cases hsame : name = other
      · subst hsame
        rw [NameMap.table?_insert_self table' hnew, Option.some.injEq] at htable
        have hname := Catalog.name_of_get? hd
        refine ⟨d, hd, ?_⟩
        rw [hmap.of_keeps hkeeps (hname ▸ hd) (hname ▸ hmixins), ← htable]
        exact hof
      · rw [NameMap.table?_insert_of_ne map table' hsame] at htable
        obtain ⟨d', hd', hof'⟩ := ih htable
        have hname := Catalog.name_of_get? hd'
        have hdone : (map.table? name).isSome = true := by rw [htable]; rfl
        refine ⟨d', hd', ?_⟩
        rw [hmap.of_keeps hkeeps (hname ▸ hd') fun mixin hmixin => ?_]
        · exact hof'
        · rw [hname] at hmixin
          exact hmap.edge hdone hmixin

/-- What holds of a definition as soon as it holds of all that it reaches holds of all
that is resolved. -/
theorem of_beyond {P : String → Prop} (h : Settled c map)
    (hstep : ∀ name, (map.table? name).isSome = true → (∀ other, c.Beyond name other → P other) →
      P name) {name : String} (hname : (map.table? name).isSome = true) : P name := by
  -- the induction is over how the map was filled, while `hstep` speaks of the full map
  suffices hall : ∀ part, Settled c part → part.Keeps map →
      ∀ name, (part.table? name).isSome = true → P name from
    hall map h (NameMap.Keeps.refl map) name hname
  intro part hpart
  induction hpart with
  | empty =>
      intro _ name hname
      cases hname
  | @insert part other d table hpart hd hnew hmixins hof ih =>
      intro hkeeps name hname
      have hkeeps' := (NameMap.keeps_insert part other table).trans hkeeps
      by_cases hsame : name = other
      · subst hsame
        refine hstep name (hkeeps.isSome hname) fun last hbeyond => ?_
        obtain ⟨mixin, hedge, hpath⟩ := TransGen.head'_iff.mp hbeyond
        exact ih hkeeps' last (hpart.reaches (hmixins mixin hedge) hpath)
      · rw [NameMap.table?_insert_of_ne part table hsame] at hname
        exact ih hkeeps' name hname

/-- Whatever order maps were filled in, they have the same names for a definition. -/
theorem agree {other : NameMap} (h : Settled c map) (hother : Settled c other) {name : String}
    (hname : (map.table? name).isSome = true) (hname' : (other.table? name).isSome = true) :
    other.table? name = map.table? name := by
  refine h.of_beyond (P := fun name => (other.table? name).isSome = true →
    other.table? name = map.table? name) ?_ hname hname'
  intro name hname ih hname'
  obtain ⟨table, htable⟩ := Option.isSome_iff_exists.mp hname
  obtain ⟨table', htable'⟩ := Option.isSome_iff_exists.mp hname'
  obtain ⟨d, hd, hof⟩ := h.table_of htable
  obtain ⟨d', hd', hof'⟩ := hother.table_of htable'
  rw [hd, Option.some.injEq] at hd'
  obtain rfl := Catalog.name_of_get? hd
  rw [← hd', NameTable.of_congr hd fun x hx => ih x hx (hother.reaches hname' hx.to_reflTransGen),
    hof, Except.ok.injEq] at hof'
  rw [htable, htable', hof']

/-- So the names of a definition are the same in all maps that have what it needs. -/
theorem of_mixins {other : NameMap} (h : Settled c map) (hother : Settled c other)
    {d : Definition} (hd : c.get? d.name = some d)
    (hmixins : ∀ mixin ∈ c.mixins d.name, (map.table? mixin).isSome = true)
    (hmixins' : ∀ mixin ∈ c.mixins d.name, (other.table? mixin).isSome = true) :
    NameTable.of c map d = NameTable.of c other d := by
  refine NameTable.of_congr hd fun name hbeyond => ?_
  obtain ⟨mixin, hedge, hpath⟩ := TransGen.head'_iff.mp hbeyond
  exact hother.agree h (hother.reaches (hmixins' mixin hedge) hpath)
    (h.reaches (hmixins mixin hedge) hpath)

/-! ## names that are introduced -/

/-- How the names of a resolved definition have grown. -/
theorem grown (h : Settled c map) {name : String} (hname : (map.table? name).isSome = true) :
    ∃ d requests base scope, c.get? name = some d ∧
      (∀ request ∈ requests, NameRequest.Made d request) ∧
      Scope.Folded ((c.above d ++ c.beside d).flatMap map.reservations) base ∧
      Scope.Grown (Scope.inherited? c map d) requests base scope ∧
      map.table? name = some scope.table := by
  obtain ⟨table, htable⟩ := Option.isSome_iff_exists.mp hname
  obtain ⟨d, hd, hof⟩ := h.table_of htable
  obtain ⟨requests, base, scope, hmade, hbase, hscope, rfl⟩ := NameTable.of_ok hof
  exact ⟨d, requests, base, scope, hd, hmade, hbase, hscope, htable⟩

/-- What one definition introduced is distinct. -/
theorem distinct (h : Settled c map) {name : String} (hname : (map.table? name).isSome = true) :
    (map.reservations name).Pairwise fun a b => lowerAscii a.ident ≠ lowerAscii b.ident := by
  obtain ⟨d, requests, base, scope, -, -, hbase, hscope, htable⟩ := h.grown hname
  rw [NameMap.reservations, htable]
  exact hscope.distinct_introduced hbase.table

/-- No reserved word is introduced. -/
theorem ne_reserved (h : Settled c map) {name : String} (hname : (map.table? name).isSome = true)
    {a : Reservation} (ha : a ∈ map.reservations name) {word : String}
    (hword : word ∈ Identifier.reserved) : lowerAscii a.ident ≠ lowerAscii word := by
  obtain ⟨d, requests, base, scope, -, -, hbase, hscope, htable⟩ := h.grown hname
  rw [NameMap.reservations, htable] at ha
  intro hsame
  have hfree := hscope.free_of_introduced hbase.table ha
  rw [Scope.isUsed_congr hsame, hbase.reserved word hword] at hfree
  cases hfree

section

variable (hc : c.WellFormed) (h : Settled c map)
include hc h

/-- A definition can see all that it reaches. -/
theorem mem_above_or_beside {d : Definition} {name other : String} (hd : c.get? name = some d)
    (hname : (map.table? name).isSome = true) :
    other ∈ c.above d ++ c.beside d ↔ c.Beyond name other := by
  have hsame := Catalog.name_of_get? hd
  subst hsame
  exact hc.mem_above_or_beside hd (h.acyclic hname)

/-- What a definition introduced differs from all that is introduced by what it reaches. -/
theorem ne_beyond {name other : String} (hname : (map.table? name).isSome = true)
    (hother : c.Beyond name other) {a b : Reservation} (ha : a ∈ map.reservations name)
    (hb : b ∈ map.reservations other) : lowerAscii a.ident ≠ lowerAscii b.ident := by
  obtain ⟨d, requests, base, scope, hd, -, hbase, hscope, htable⟩ := h.grown hname
  rw [NameMap.reservations, htable] at ha
  intro hsame
  have hvisible := (mem_above_or_beside hc h hd hname).mpr hother
  have hused := hbase.isUsed (List.mem_flatMap.mpr ⟨other, hvisible, hb⟩)
  have hfree := hscope.free_of_introduced hbase.table ha
  rw [Scope.isUsed_congr hsame, hused] at hfree
  cases hfree

/-- Names of two definitions that are seen from one place meet only if they stand for one
structural category. -/
theorem compatible {name x y : String} (hname : (map.table? name).isSome = true)
    (hx : c.Reaches name x) (hy : c.Reaches name y) (hne : x ≠ y) {a b : Reservation}
    (ha : a ∈ map.reservations x) (hb : b ∈ map.reservations y) : a.Compatible b := by
  obtain ⟨d, requests, base, scope, hd, -, hbase, -, -⟩ := h.grown hname
  rcases reflTransGen_iff_eq_or_transGen.mp hx with rfl | hx
  · rcases reflTransGen_iff_eq_or_transGen.mp hy with rfl | hy
    · exact absurd rfl hne
    · exact fun hsame => absurd hsame (ne_beyond hc h hname hy ha hb)
  · rcases reflTransGen_iff_eq_or_transGen.mp hy with rfl | hy
    · exact fun hsame => absurd hsame.symm (ne_beyond hc h hname hx hb ha)
    · have hpairs := (List.pairwise_flatMap.mp hbase.compatible).2
      have hsymm : Std.Symm fun x y => ∀ a ∈ map.reservations x, ∀ b ∈ map.reservations y,
          a.Compatible b := ⟨fun x y hxy a ha b hb => (hxy b hb a ha).symm⟩
      exact hpairs.forall ((mem_above_or_beside hc h hd hname).mpr hx)
        ((mem_above_or_beside hc h hd hname).mpr hy) hne a ha b hb

/-- Two names that meet are the same, or of two definitions and one structural category. -/
theorem meet {name x y : String} (hname : (map.table? name).isSome = true)
    (hx : c.Reaches name x) (hy : c.Reaches name y) {a b : Reservation}
    (ha : a ∈ map.reservations x) (hb : b ∈ map.reservations y)
    (hsame : lowerAscii a.ident = lowerAscii b.ident) :
    (x = y ∧ a = b) ∨ (x ≠ y ∧ a.category = b.category ∧ a.category.isStructural = true) := by
  by_cases hxy : x = y
  · subst hxy
    have hsymm : Std.Symm fun a b : Reservation => lowerAscii a.ident ≠ lowerAscii b.ident :=
      ⟨fun a b hab => hab.symm⟩
    refine Or.inl ⟨rfl, ?_⟩
    by_contra hne
    exact (h.distinct (h.reaches hname hx)).forall ha hb hne hsame
  · exact Or.inr ⟨hxy, compatible hc h hname hx hy hxy ha hb hsame⟩

end

/-! ## entries -/

/-- A structural name that was introduced is the one of its category. -/
theorem structural_entry (h : Settled c map) {name : String}
    (hname : (map.table? name).isSome = true) {a : Reservation} (ha : a ∈ map.reservations name)
    (hstructural : a.category.isStructural = true) :
    map.get? name a.category "" = some a.ident := by
  obtain ⟨d, requests, base, scope, -, hmade, hbase, hscope, htable⟩ := h.grown hname
  rw [NameMap.reservations, htable] at ha
  rw [NameMap.get?, htable]
  exact (Scope.Grown.structural_introduced hmade hscope hbase.table ha hstructural).2

/-- The entry of a structural category has no key. -/
theorem structural_key (h : Settled c map) {name : String}
    (hname : (map.table? name).isSome = true) {category : NameCategory} {key ident : String}
    (hentry : map.get? name category key = some ident)
    (hstructural : category.isStructural = true) : key = "" := by
  obtain ⟨d, requests, base, scope, -, hmade, hbase, hscope, htable⟩ := h.grown hname
  rw [NameMap.get?, htable] at hentry
  obtain ⟨request, hrequest, htarget⟩ := hscope.asked hbase.table hentry
  exact (Scope.Grown.eq_structural_of_target hmade hrequest htarget hstructural).2

/-- What has an entry is resolved. -/
theorem isSome_of_get? {name : String} {category : NameCategory} {key ident : String}
    (hentry : map.get? name category key = some ident) : (map.table? name).isSome = true := by
  cases htable : map.table? name with
  | none =>
      rw [NameMap.get?, htable] at hentry
      cases hentry
  | some table => rfl

/-- A definition has an accessor for an attribute of its own, or a getter for a field. -/
theorem accessor_member (h : Settled c map) {name : String} {category : NameCategory}
    {key ident : String} (hentry : map.get? name category key = some ident)
    (haccessor : category = .getter ∨ category = .setter) :
    ∃ d, c.get? name = some d ∧ ∃ member ∈ d.members,
      (∃ decl, member.kind = .attribute decl ∧ decl.name = key) ∨
        category = .getter ∧ ∃ decl, member.kind = .field decl ∧ decl.name = key := by
  obtain ⟨d, requests, base, scope, hd, hmade, hbase, hscope, htable⟩ :=
    h.grown (isSome_of_get? hentry)
  rw [NameMap.get?, htable] at hentry
  obtain ⟨request, hrequest, htarget⟩ := hscope.asked hbase.table hentry
  exact ⟨d, hd, (hmade request hrequest).accessor_member htarget haccessor⟩

/-- A name that is found stands on the walk. -/
theorem mem_of_findName {stack : List String} {category : NameCategory} {key other ident : String}
    (h : c.findName map stack category key = some (other, ident)) :
    other ∈ c.reach [] stack ∧ map.get? other category key = some ident := by
  rw [Catalog.findName, List.findSome?_eq_some_iff] at h
  obtain ⟨before, first, after, hlist, hfirst, -⟩ := h
  rw [Option.map_eq_some_iff] at hfirst
  obtain ⟨found, hget, hpair⟩ := hfirst
  obtain ⟨rfl, rfl⟩ := Prod.mk.inj hpair
  rw [hlist]
  exact ⟨List.mem_append_right before List.mem_cons_self, hget⟩

/-- A definition that an accessor name is taken over from. -/
theorem of_inherited {d : Definition} (hd : c.get? d.name = some d) {category : NameCategory}
    {key ident : String} (h : Scope.inherited? c map d category key = some ident) :
    ∃ other, c.Beyond d.name other ∧ map.get? other category key = some ident := by
  rw [Scope.inherited?, Option.map_eq_some_iff] at h
  obtain ⟨⟨other, found⟩, hfound, rfl⟩ := h
  obtain ⟨hmem, hget⟩ := mem_of_findName hfound
  obtain ⟨parent, hparent, hpath⟩ := Catalog.reachable_of_mem_walk hmem
  exact ⟨other, TransGen.head' (Catalog.edge_parent hd (Option.mem_toList.mp hparent)) hpath, hget⟩

section

variable (hc : c.WellFormed) (h : Settled c map)
include hc h

/-- The identifier of an entry was introduced for it by the definition or by one that it
reaches, which has the same entry. -/
theorem source {name : String} (hname : (map.table? name).isSome = true)
    {category : NameCategory} {key ident : String}
    (hentry : map.get? name category key = some ident) :
    ∃ origin, c.Reaches name origin ∧ ⟨category, ident⟩ ∈ map.reservations origin ∧
      map.get? origin category key = some ident := by
  refine h.of_beyond (P := fun name =>
    ∀ category key ident, map.get? name category key = some ident →
      ∃ origin, c.Reaches name origin ∧ ⟨category, ident⟩ ∈ map.reservations origin ∧
        map.get? origin category key = some ident) ?_ hname category key ident hentry
  intro name hname ih category key ident hentry
  obtain ⟨d, requests, base, scope, hd, hmade, hbase, hscope, htable⟩ := h.grown hname
  have hread : scope.table.get? category key = some ident := by
    rwa [NameMap.get?, htable] at hentry
  rcases hscope.source hbase.table hread with hown | ⟨rfl, hshared⟩ | ⟨-, htaken⟩
  · refine ⟨name, ReflTransGen.refl, ?_, hentry⟩
    rw [NameMap.reservations, htable]
    exact hown
  · obtain ⟨hmem, hstructural⟩ := hbase.structural category ident hshared
    obtain ⟨origin, horigin, hmem⟩ := List.mem_flatMap.mp hmem
    have hbeyond := (mem_above_or_beside hc h hd hname).mp horigin
    have hresolved := h.reaches hname hbeyond.to_reflTransGen
    exact ⟨origin, hbeyond.to_reflTransGen, hmem, h.structural_entry hresolved hmem hstructural⟩
  · have hsame := Catalog.name_of_get? hd
    subst hsame
    obtain ⟨other, hother, hget⟩ := of_inherited hd htaken
    obtain ⟨origin, hpath, hmem, hget⟩ := ih other hother category key ident hget
    exact ⟨origin, hother.to_reflTransGen.trans hpath, hmem, hget⟩

/-- No entry meets a reserved word. -/
theorem entry_ne_reserved {name : String} (hname : (map.table? name).isSome = true)
    {category : NameCategory} {key ident : String}
    (hentry : map.get? name category key = some ident) {word : String}
    (hword : word ∈ Identifier.reserved) : lowerAscii ident ≠ lowerAscii word := by
  obtain ⟨origin, hpath, hmem, -⟩ := source hc h hname hentry
  exact h.ne_reserved (h.reaches hname hpath) hmem hword

/-- So no entry is one. -/
theorem not_reserved {name : String} (hname : (map.table? name).isSome = true)
    {category : NameCategory} {key ident : String}
    (hentry : map.get? name category key = some ident) : ident ∉ Identifier.reserved :=
  fun hword => entry_ne_reserved hc h hname hentry hword rfl

/-- A name that a host interface fixes is the one that it fixes. -/
theorem protocol_name {name : String} (hname : (map.table? name).isSome = true)
    {category : NameCategory} {key ident : String}
    (hentry : map.get? name category key = some ident)
    (hprotocol : category.protocol?.isSome = true) : category.structuralName? = some ident := by
  obtain ⟨origin, hpath, hmem, -⟩ := source hc h hname hentry
  obtain ⟨d, requests, base, scope, -, hmade, hbase, hscope, htable⟩ :=
    h.grown (h.reaches hname hpath)
  rw [NameMap.reservations, htable] at hmem
  exact Scope.Grown.protocol_introduced hmade hscope hbase.table hmem hprotocol

/-- Entries whose identifiers are new in a definition differ. -/
theorem eq_of_introduced {name : String} (hname : (map.table? name).isSome = true)
    {category category' : NameCategory} {key key' ident : String}
    (hentry : map.get? name category key = some ident)
    (hentry' : map.get? name category' key' = some ident)
    (hown : ⟨category, ident⟩ ∈ map.reservations name) : category = category' ∧ key = key' := by
  obtain ⟨d, requests, base, scope, hd, hmade, hbase, hscope, htable⟩ := h.grown hname
  rw [NameMap.get?, htable] at hentry hentry'
  rw [NameMap.reservations, htable] at hown
  have hfree := hscope.free_of_introduced hbase.table hown
  refine Scope.Grown.eq_of_same_ident hmade hscope hbase.table ?_ ?_ hentry hentry' rfl hfree
  · intro category ident hshared
    have hused := hbase.isUsed (hbase.structural category ident hshared).1
    exact hused
  · intro category key ident htaken
    have hsame := Catalog.name_of_get? hd
    subst hsame
    obtain ⟨other, hother, hget⟩ := of_inherited hd htaken
    obtain ⟨origin, hpath, hmem, -⟩ :=
      source hc h (h.reaches hname hother.to_reflTransGen) hget
    have hvisible := (mem_above_or_beside hc h hd hname).mpr (TransGen.trans_left hother hpath)
    have hused := hbase.isUsed (List.mem_flatMap.mpr ⟨origin, hvisible, hmem⟩)
    exact hused

/-- Different entries of a definition have identifiers that differ. -/
theorem injective {name : String} (hname : (map.table? name).isSome = true)
    {category category' : NameCategory} {key key' ident ident' : String}
    (hentry : map.get? name category key = some ident)
    (hentry' : map.get? name category' key' = some ident')
    (hsame : lowerAscii ident = lowerAscii ident') : category = category' ∧ key = key' := by
  refine h.of_beyond (P := fun name => ∀ category key ident category' key' ident',
    map.get? name category key = some ident → map.get? name category' key' = some ident' →
    lowerAscii ident = lowerAscii ident' → category = category' ∧ key = key') ?_ hname
    category key ident category' key' ident' hentry hentry' hsame
  intro name hname ih category key ident category' key' ident' hentry hentry' hsame
  obtain ⟨x, hx, hxname, hxentry⟩ := source hc h hname hentry
  obtain ⟨y, hy, hyname, hyentry⟩ := source hc h hname hentry'
  rcases meet hc h hname hx hy hxname hyname hsame with ⟨rfl, hone⟩ | ⟨-, hcategory, hstructural⟩
  · obtain ⟨rfl, rfl⟩ := Reservation.mk.inj hone
    rcases reflTransGen_iff_eq_or_transGen.mp hx with rfl | hbeyond
    · exact eq_of_introduced hc h hname hentry hentry' hxname
    · exact ih x hbeyond category key ident category key' ident hxentry hyentry rfl
  · -- two definitions share a structural method, whose entry has no key
    have hcategory : category = category' := hcategory
    subst hcategory
    rw [h.structural_key hname hentry hstructural, h.structural_key hname hentry' hstructural]
    exact ⟨rfl, rfl⟩

/-- Entries that are seen from one place and whose identifiers meet are of one category and
key. -/
theorem same_entry {name x y : String} (hname : (map.table? name).isSome = true)
    (hx : c.Reaches name x) (hy : c.Reaches name y) {category category' : NameCategory}
    {key key' ident ident' : String} (hentry : map.get? x category key = some ident)
    (hentry' : map.get? y category' key' = some ident')
    (hsame : lowerAscii ident = lowerAscii ident') : category = category' ∧ key = key' := by
  have hresolved := h.reaches hname hx
  obtain ⟨origin, hpath, hmem, hget⟩ := source hc h hresolved hentry
  obtain ⟨origin', hpath', hmem', hget'⟩ := source hc h (h.reaches hname hy) hentry'
  rcases meet hc h hname (hx.trans hpath) (hy.trans hpath') hmem hmem' hsame with
    ⟨rfl, -⟩ | ⟨-, hcategory, hstructural⟩
  · exact injective hc h (h.reaches hresolved hpath) hget hget' hsame
  · have hcategory : category = category' := hcategory
    subst hcategory
    rw [h.structural_key hresolved hentry hstructural,
      h.structural_key (h.reaches hname hy) hentry' hstructural]
    exact ⟨rfl, rfl⟩

/-- Entries that are seen from one place and have one identifier are of one category. -/
theorem same_category {name x y : String} (hname : (map.table? name).isSome = true)
    (hx : c.Reaches name x) (hy : c.Reaches name y) {category category' : NameCategory}
    {key key' ident : String} (hentry : map.get? x category key = some ident)
    (hentry' : map.get? y category' key' = some ident) : category = category' :=
  (same_entry hc h hname hx hy hentry hentry' rfl).1

end

/-- An entry that is not structural, and that no `inherit` attribute of the definition asks to
take over, was introduced by the definition itself. -/
theorem introduced_of_own (h : Settled c map) {d : Definition} (hd : c.get? d.name = some d)
    {category : NameCategory} {key ident : String}
    (hentry : map.get? d.name category key = some ident)
    (hstructural : category.isStructural = false)
    (hown : category = .getter ∨ category = .setter →
      ∀ member ∈ d.members, ∀ decl, member.kind = .attribute decl → decl.name = key →
        decl.special ≠ .inherit) :
    ⟨category, ident⟩ ∈ map.reservations d.name := by
  obtain ⟨d', requests, base, scope, hd', hmade, hbase, hscope, htable⟩ :=
    h.grown (isSome_of_get? hentry)
  rw [hd, Option.some.injEq] at hd'
  subst hd'
  rw [NameMap.get?, htable] at hentry
  rw [NameMap.reservations, htable]
  rcases hscope.source hbase.table hentry with hown' | ⟨-, hshared⟩ | ⟨⟨_, hasked⟩, -⟩
  · exact hown'
  · rw [(hbase.structural category ident hshared).2] at hstructural
    cases hstructural
  · obtain ⟨haccessor, member, hmember, decl, hkind, hkey, hspecial⟩ :=
      (hmade _ hasked).of_inheriting
    exact absurd hspecial (hown haccessor member hmember decl hkind hkey)

end Resolver.Settled

namespace Registry

open Resolver (Settled)

variable {options : IngestOptions} {nodes : List Node} {r : Registry}

/-- With a definition of a registry that was built all that it reaches is resolved. -/
theorem resolved_of_reaches (h : build options nodes = .ok r) {d : Definition}
    (hd : d ∈ r.definitions) {name : String} (hname : r.toCatalog.Reaches d.name name) :
    (r.names.table? name).isSome = true := by
  obtain ⟨hsettled, hall⟩ := settled_of_build h
  refine hsettled.reaches (hall d.name ?_) hname
  rw [(wellFormed_of_build h).get?_of_mem hd]
  rfl

theorem introduced_eq {map : NameMap} {name : String} (h : (map.table? name).isSome = true) :
    map.introduced? name = some ((map.reservations name).map (·.ident)) := by
  obtain ⟨table, htable⟩ := Option.isSome_iff_exists.mp h
  rw [NameMap.introduced?, NameMap.reservations, htable]
  rfl

/-- An attribute of a named type. -/
def attributeNamed (name type : String) (special : AttributeSpecial) : Member :=
  { kind := .attribute { name, type := .named type false {}, special } }

/-- `iterable<long>` -/
def iterableOfLong : Member :=
  { kind := .iterable { key := none, value := .named "long" false {}, isAsync := false } }

/-- A child that declares `length` again and takes over `title` from its parent, and that
includes two mixins which can both be iterated over. -/
def sampleNodes : List Node :=
  [.definition {
      name := "Base", kind := .interface,
      members := [attributeNamed "length" "long" .none,
        attributeNamed "title" "DOMString" .none] },
   .definition { name := "Extra", kind := .mixin, members := [iterableOfLong] },
   .definition { name := "Other", kind := .mixin, members := [iterableOfLong] },
   .definition {
      name := "Child", kind := .interface, parent := some "Base",
      members := [attributeNamed "length" "long" .none,
        attributeNamed "title" "DOMString" .inherit] },
   .includes "Child" "Extra", .includes "Child" "Other"]

/-- **Visible names never collide**: of all that a definition and whatever it reaches have
introduced, nothing is a reserved word, and two names meet only if two definitions
introduced them for one structural category. -/
theorem visible_names_never_collide (h : build options nodes = .ok r) {d : Definition}
    (hd : d ∈ r.definitions) :
    (∀ x, r.toCatalog.Reaches d.name x →
      r.names.introduced? x = some ((r.names.reservations x).map (·.ident)) ∧
      ∀ a ∈ r.names.reservations x, ∀ word ∈ Identifier.reserved,
        sameIgnoringCase a.ident word = false) ∧
    ∀ (x y : String) (i j : Nat) (a b : Reservation),
      r.toCatalog.Reaches d.name x → r.toCatalog.Reaches d.name y →
      (r.names.reservations x)[i]? = some a → (r.names.reservations y)[j]? = some b →
      (x, i) ≠ (y, j) → sameIgnoringCase a.ident b.ident = true →
      x ≠ y ∧ a.category = b.category ∧ a.category.isStructural = true := by
  obtain ⟨hsettled, -⟩ := settled_of_build h
  have hc := wellFormed_of_build h
  have hname := resolved_of_reaches h hd ReflTransGen.refl
  refine ⟨fun x hx => ?_, ?_⟩
  · have hresolved := resolved_of_reaches h hd hx
    refine ⟨introduced_eq hresolved, fun a ha word hword => ?_⟩
    rw [Bool.eq_false_iff, ne_eq, sameIgnoringCase_iff]
    exact hsettled.ne_reserved hresolved ha hword
  · intro x y i j a b hx hy ha hb hne hsame
    rw [sameIgnoringCase_iff] at hsame
    by_cases hxy : x = y
    · -- at two places of one list names differ
      subst hxy
      have hij : i ≠ j := fun hij => hne (by rw [hij])
      have hdistinct := hsettled.distinct (resolved_of_reaches h hd hx)
      obtain ⟨hi, hai⟩ := List.getElem?_eq_some_iff.mp ha
      obtain ⟨hj, hbj⟩ := List.getElem?_eq_some_iff.mp hb
      rw [List.pairwise_iff_getElem] at hdistinct
      rcases Nat.lt_or_gt_of_ne hij with hlt | hgt
      · exact absurd hsame (hai ▸ hbj ▸ hdistinct i j hi hj hlt)
      · exact absurd hsame.symm (hai ▸ hbj ▸ hdistinct j i hj hi hgt)
    · exact ⟨hxy, Settled.compatible hc hsettled hname hx hy hxy (List.mem_of_getElem? ha)
        (List.mem_of_getElem? hb) hsame⟩

/-- The iterators of two mixins meet in the definition that includes both. -/
theorem visible_names_meet_at_iterator :
    ∃ r d, build {} sampleNodes = .ok r ∧ d ∈ r.definitions ∧ d.name = "Child" ∧
      r.names.reservations "Extra" = [⟨.iterator, "getIterator"⟩] ∧
      r.names.reservations "Other" = [⟨.iterator, "getIterator"⟩] ∧
      r.toCatalog.Reaches d.name "Extra" ∧ r.toCatalog.Reaches d.name "Other" ∧
      (∀ word ∈ Identifier.reserved, sameIgnoringCase "getIterator" word = false) ∧
      "Extra" ≠ "Other" ∧ NameCategory.iterator.isStructural = true := by
  have hbuild : (build {} sampleNodes).toOption.map (fun r =>
      (r.definitions.map (·.name), r.mixins "Child", r.names.reservations "Extra",
        r.names.reservations "Other")) =
      some (["Base", "Child", "Extra", "Other"], ["Base", "Extra", "Other"],
        [⟨.iterator, "getIterator"⟩], [⟨.iterator, "getIterator"⟩]) := by
    decide +kernel
  obtain ⟨r, hr, hfacts⟩ := ok_of_toOption_map hbuild
  obtain ⟨hnames, hmixins, hextra, hother⟩ := by simpa only [Prod.mk.injEq] using hfacts
  obtain ⟨d, hd, hname⟩ := List.mem_map.mp (show "Child" ∈ r.definitions.map (·.name) by
    rw [hnames]; decide)
  have hreaches : ∀ x ∈ r.mixins "Child", r.toCatalog.Reaches d.name x := fun x hx =>
    ReflTransGen.single (show x ∈ r.mixins d.name by rw [hname]; exact hx)
  have hfirst := hreaches "Extra" (by rw [hmixins]; decide)
  have hsecond := hreaches "Other" (by rw [hmixins]; decide)
  obtain ⟨hreserved, hmeet⟩ := visible_names_never_collide hr hd
  obtain ⟨hne, -, hstructural⟩ := hmeet "Extra" "Other" 0 0 ⟨.iterator, "getIterator"⟩
    ⟨.iterator, "getIterator"⟩ hfirst hsecond (by rw [hextra]; rfl) (by rw [hother]; rfl)
    (by decide) (by decide)
  refine ⟨r, d, hr, hd, hname, hextra, hother, hfirst, hsecond, ?_, hne, hstructural⟩
  exact (hreserved "Extra" hfirst).2 ⟨.iterator, "getIterator"⟩
    (by rw [hextra]; exact List.mem_cons_self)

/-- **The names of a definition are injective and have a source**: different entries have
identifiers that differ, and the identifier of an entry was introduced by the definition
or by another one that it reaches, which has the same entry. -/
theorem entries_distinct_with_source (h : build options nodes = .ok r) {d : Definition}
    (hd : d ∈ r.definitions) :
    (∀ category key ident category' key' ident', r.name? d.name category key = some ident →
      r.name? d.name category' key' = some ident' → (category, key) ≠ (category', key') →
      sameIgnoringCase ident ident' = false) ∧
    ∀ category key ident, r.name? d.name category key = some ident →
      (∃ idents, r.names.introduced? d.name = some idents ∧ ident ∈ idents) ∨
      ∃ x idents, r.toCatalog.Reaches d.name x ∧ x ≠ d.name ∧
        r.names.introduced? x = some idents ∧ ident ∈ idents ∧
        r.name? x category key = some ident := by
  obtain ⟨hsettled, -⟩ := settled_of_build h
  have hc := wellFormed_of_build h
  have hname := resolved_of_reaches h hd ReflTransGen.refl
  constructor
  · intro category key ident category' key' ident' hentry hentry' hne
    rw [Bool.eq_false_iff, ne_eq, sameIgnoringCase_iff]
    intro hsame
    obtain ⟨rfl, rfl⟩ := Settled.injective hc hsettled hname hentry hentry' hsame
    exact hne rfl
  · intro category key ident hentry
    obtain ⟨x, hx, hmem, hsource⟩ := Settled.source hc hsettled hname hentry
    have hintroduced := introduced_eq (resolved_of_reaches h hd hx)
    have hident : ident ∈ (r.names.reservations x).map (·.ident) := List.mem_map.mpr ⟨_, hmem, rfl⟩
    by_cases hself : x = d.name
    · subst hself
      exact Or.inl ⟨_, hintroduced, hident⟩
    · exact Or.inr ⟨x, _, hx, hself, hintroduced, hident, hsource⟩

/-- An accessor that is taken over, a structural name that is shared and an accessor that
had to be renamed stand side by side. -/
theorem entries_of_a_child_have_sources :
    ∃ r d, build {} sampleNodes = .ok r ∧ d ∈ r.definitions ∧ d.name = "Child" ∧
      r.name? d.name .getter "title" = some "getTitle" ∧
      r.name? d.name .count "" = some "count" ∧
      r.name? d.name .getter "length" = some "_1_getLength" ∧
      r.names.introduced? d.name = some ["_1_getLength", "_1_setLength"] ∧
      sameIgnoringCase "getTitle" "_1_getLength" = false ∧
      ∃ x idents, r.toCatalog.Reaches d.name x ∧ x ≠ d.name ∧
        r.names.introduced? x = some idents ∧ "getTitle" ∈ idents ∧
        r.name? x .getter "title" = some "getTitle" := by
  have hbuild : (build {} sampleNodes).toOption.map (fun r =>
      (r.definitions.map (·.name), r.name? "Child" .getter "title", r.name? "Child" .count "",
        r.name? "Child" .getter "length", r.names.introduced? "Child")) =
      some (["Base", "Child", "Extra", "Other"], some "getTitle", some "count",
        some "_1_getLength", some ["_1_getLength", "_1_setLength"]) := by
    decide +kernel
  obtain ⟨r, hr, hfacts⟩ := ok_of_toOption_map hbuild
  obtain ⟨hnames, htitle, hcount, hlength, hown⟩ := by simpa only [Prod.mk.injEq] using hfacts
  obtain ⟨d, hd, hname⟩ := List.mem_map.mp (show "Child" ∈ r.definitions.map (·.name) by
    rw [hnames]; decide)
  rw [← hname] at htitle hcount hlength hown
  obtain ⟨hdistinct, hsource⟩ := entries_distinct_with_source hr hd
  refine ⟨r, d, hr, hd, hname, htitle, hcount, hlength, hown,
    hdistinct .getter "title" _ .getter "length" _ htitle hlength (by decide), ?_⟩
  rcases hsource .getter "title" "getTitle" htitle with ⟨idents, hidents, hmem⟩ | hother
  · rw [hown, Option.some.injEq] at hidents
    exact absurd (hidents ▸ hmem) (by decide)
  · exact hother

end Registry

end WebIdl
