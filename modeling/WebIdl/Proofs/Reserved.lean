import WebIdl.Proofs.Files
import WebIdl.Proofs.Naming
import WebIdl.Proofs.Surface

/-!
# WebIdl.Proofs.Reserved

Which names a definition has for sure.

A request that was granted has an entry (`NameTable.has_requests`).  What a definition asks
for is read off its kind, its capabilities and its members (`Definition.Offers`), so in a
registry that was built all of it can be looked up, and nothing else
(`Registry.exists_name_iff`).
-/

namespace WebIdl

/-! ## entries of requests -/

theorem NameTable.isSome_put {table : NameTable} {entry : NameEntry} {category : NameCategory}
    {key : String} (h : (table.get? category key).isSome = true) :
    ((table.put entry).get? category key).isSome = true := by
  by_cases hsame : category = entry.category ∧ key = entry.key
  · obtain ⟨rfl, rfl⟩ := hsame
    simp [get?_put_self]
  · rw [get?_put_of_ne hsame]
    exact h

/-- Only structural names are asked for as such. -/
theorem NameRequest.Made.isStructural {d : Definition} {category : NameCategory}
    (h : Made d (.structural category)) : category.isStructural = true := by
  cases h with
  | protocol h => exact h
  | constant _ h => grind [ofConstant]
  | accessor _ h => grind [ofAccessors]
  | named _ h => grind [ofNamed]

namespace Scope

variable {c : Catalog} {map : NameMap} {d : Definition} {scope scope' : Scope}

/-- A scope has an entry for what a request is for. -/
def Has (scope : Scope) (request : NameRequest) : Prop :=
  (scope.table.get? request.target.1 request.target.2).isSome = true

theorem Has.put {request : NameRequest} (h : scope.Has request) (entry : NameEntry) :
    ((scope.table.put entry).get? request.target.1 request.target.2).isSome = true :=
  NameTable.isSome_put h

/-- Granting a request puts in an entry for it, unless there is one or it is for no name at
all. -/
theorem grant_ok {request : NameRequest} (h : scope.grant c map d request = .ok scope') :
    (∃ ident, scope' = scope.adopt request.target.1 request.target.2 ident) ∨
    (∃ desired, request.desired? = some desired ∧
      scope.reserve request.target.1 request.target.2 desired = .ok scope') ∨
    ∃ category, request = .structural category ∧ category.isStructural = false ∧
      scope' = scope := by
  cases request with
  | structural category =>
      simp only [grant, reserveStructural] at h
      split at h
      next ident _ =>
        cases h
        exact Or.inl ⟨ident, rfl⟩
      next =>
        split at h
        next hname =>
          cases h
          exact Or.inr (Or.inr ⟨category, rfl, by simp [NameCategory.isStructural, hname], rfl⟩)
        next desired hname =>
          split at h
          next =>
            split at h
            · cases h
            · exact Or.inr (Or.inl ⟨desired, hname, h⟩)
          next => exact Or.inr (Or.inl ⟨desired, hname, h⟩)
  | own category key desired => exact Or.inr (Or.inl ⟨desired, rfl, h⟩)
  | inheriting category key desired =>
      rw [grant] at h
      split at h
      next other ident _ =>
        cases h
        exact Or.inl ⟨ident, rfl⟩
      next => exact Or.inr (Or.inl ⟨desired, rfl, h⟩)

theorem has_reserve {request : NameRequest} {desired : String}
    (h : scope.reserve request.target.1 request.target.2 desired = .ok scope') :
    scope'.Has request := by
  rw [reserve] at h
  split at h
  next hold =>
    cases h
    exact hold
  next =>
    simp only [bind_eq_ok, pure_eq_ok] at h
    obtain ⟨ident, -, rfl⟩ := h
    rw [Has, get?_introduce]
    simp [NameTable.get?_put_self scope.table ⟨request.target.1, request.target.2, ident⟩]

/-- A request that was granted has an entry. -/
theorem has_grant {request : NameRequest} (hmade : NameRequest.Made d request)
    (h : scope.grant c map d request = .ok scope') : scope'.Has request := by
  rcases grant_ok h with ⟨ident, rfl⟩ | ⟨desired, -, hreserve⟩ | ⟨category, rfl, hnone, rfl⟩
  · simp [Has, adopt,
      NameTable.get?_put_self scope.table ⟨request.target.1, request.target.2, ident⟩]
  · exact has_reserve hreserve
  · rw [hmade.isStructural] at hnone
    cases hnone

/-- What has an entry keeps one. -/
theorem Has.grant {request other : NameRequest} (hhas : scope.Has request)
    (h : scope.grant c map d other = .ok scope') : scope'.Has request := by
  rcases grant_ok h with ⟨ident, rfl⟩ | ⟨desired, -, hreserve⟩ | ⟨category, rfl, hnone, rfl⟩
  · exact hhas.put _
  · rcases reserve_ok hreserve with rfl | ⟨ident, -, -, rfl⟩
    · exact hhas
    · rw [Has, get?_introduce]
      exact hhas.put _
  · exact hhas

/-- All requests that were granted have entries. -/
theorem has_grants {requests : List NameRequest}
    (hmade : ∀ request ∈ requests, NameRequest.Made d request)
    (h : requests.foldlM (Scope.grant c map d) scope = .ok scope') :
    ∀ request ∈ requests, scope'.Has request := by
  refine foldlM_ok_each (P := fun _ => True) (Q := fun request scope => scope.Has request)
    ?_ ?_ trivial h
  · intro request hrequest before after _ hstep
    exact ⟨trivial, has_grant (hmade request hrequest) hstep⟩
  · intro _ _ request before after _ hstep hhas
    exact hhas.grant hstep

end Scope

/-- The names of a definition have an entry for all that its kind and its members ask for. -/
theorem NameTable.has_requests {c : Catalog} {map : NameMap} {d : Definition}
    {table : NameTable} (h : NameTable.of c map d = .ok table) :
    ∃ kind members, NameRequest.ofKind c d = .ok kind ∧ NameRequest.ofMembers c d = .ok members ∧
      ∀ request ∈ kind ++ members,
        (table.get? request.target.1 request.target.2).isSome = true := by
  obtain ⟨kind, members, base, scope, hkind, hmembers, -, hscope, rfl⟩ := of_run h
  exact ⟨kind, members, hkind, hmembers,
    Scope.has_grants (NameRequest.made_of_run hkind hmembers) hscope⟩

/-! ## what a definition offers -/

/-- The names that a definition has: those that its kind needs, those that follow from its
capabilities, and those of its members. -/
inductive Definition.Offers (c : Catalog) (d : Definition) : NameCategory → String → Prop where
  | dictionary {category : NameCategory} (h : d.kind = .dictionary)
      (hcategory : category ∈ Artifact.offsetCategories) : Offers c d category ""
  | keyed {category : NameCategory} {caps : Capabilities}
      (hkind : d.kind = .interface ∨ d.kind = .mixin) (hcaps : Capabilities.of c d = .ok caps)
      (h : caps.keyed = true) (hcategory : category ∈ Artifact.offsetCategories) :
      Offers c d category ""
  | invoke (h : d.kind = .callbackInterface ∨ ∃ signature, d.kind = .callback signature) :
      Offers c d .invoke ""
  | cast (hinterface : d.isInterface = false) (hmixin : d.isMixin = false) : Offers c d .cast ""
  | value {values : List String} {value : String} (h : d.kind = .enum values)
      (hvalue : value ∈ values) : Offers c d .enumValue value
  | iterator {caps : Capabilities} (hcaps : Capabilities.of c d = .ok caps)
      (h : caps.iterates = true) : Offers c d .iterator ""
  | count {caps : Capabilities} (hcaps : Capabilities.of c d = .ok caps)
      (h : caps.counts = true) : Offers c d .count ""
  | iterable {member : Member} {decl : Iterable} (hmember : member ∈ d.members)
      (h : member.kind = .iterable decl) : Offers c d .iterator ""
  | unnamed {member : Member} {decl : Operation} {kind : SpecialKind} (hmember : member ∈ d.members)
      (h : member.kind = .operation decl) (hname : decl.name = none)
      (hkind : c.specialKind decl.special decl.signature = .ok (some kind)) :
      Offers c d .special kind.key
  | named {member : Member} {decl : Operation} {name : String} (hmember : member ∈ d.members)
      (h : member.kind = .operation decl) (hname : decl.name = some name) :
      Offers c d .operation name
  | constant {member : Member} {decl : Constant} (hmember : member ∈ d.members)
      (h : member.kind = .constant decl) : Offers c d .constant decl.name
  | field {member : Member} {decl : Field} (hmember : member ∈ d.members)
      (h : member.kind = .field decl) : Offers c d .getter decl.name
  | getter {member : Member} {decl : Attribute} (hmember : member ∈ d.members)
      (h : member.kind = .attribute decl) : Offers c d .getter decl.name
  | setter {member : Member} {decl : Attribute} (hmember : member ∈ d.members)
      (h : member.kind = .attribute decl)
      (hwritable : decl.readonly = false ∨ member.attrs.has "PutForwards" = true) :
      Offers c d .setter decl.name

theorem NameRequest.mem_offsets {category : NameCategory}
    (h : category ∈ Artifact.offsetCategories) : .structural category ∈ offsets :=
  List.mem_map_of_mem h

/-- An attribute asks for a getter, and for a setter if it can be written. -/
theorem NameRequest.ofAccessors_attribute {member : Member} {decl : Attribute}
    (h : member.kind = .attribute decl) :
    ofAttribute decl .getter (Identifier.getterName decl.name) ∈ ofAccessors member ∧
      (decl.readonly = false ∨ member.attrs.has "PutForwards" = true →
        ofAttribute decl .setter (Identifier.setterName decl.name) ∈ ofAccessors member) := by
  grind [ofAccessors, ofAttribute]

/-- Every accessor of a member is asked for. -/
theorem NameRequest.mem_of_accessor {c : Catalog} {d : Definition} {requests : List NameRequest}
    (h : ofMembers c d = .ok requests) {member : Member} (hmember : member ∈ d.members)
    {request : NameRequest} (hasked : request ∈ ofAccessors member) : request ∈ requests := by
  simp only [ofMembers, bind_eq_ok, pure_eq_ok] at h
  obtain ⟨caps, -, unnamed, -, rfl⟩ := h
  exact List.mem_append_left _ (List.mem_append_right _
    (List.mem_flatMap.mpr ⟨member, hmember, hasked⟩))

/-- An operation without a name asks for the name of its role. -/
theorem NameRequest.ofUnnamed_operation {c : Catalog} {member : Member} {decl : Operation}
    {kind : SpecialKind} (h : member.kind = .operation decl) (hname : decl.name = none)
    (hkind : c.specialKind decl.special decl.signature = .ok (some kind)) :
    ofUnnamed c member = .ok (some (.own .special kind.key kind.defaultName)) := by
  obtain ⟨_, signature, special⟩ := decl
  subst hname
  simp only [ofUnnamed, h]
  rw [hkind]
  rfl

/-- A definition that declares an iterable has an iterator. -/
theorem Capabilities.iterates_of_iterable {c : Catalog} {d : Definition} {caps : Capabilities}
    (hcaps : Capabilities.of c d = .ok caps) {member : Member} {decl : Iterable}
    (hmember : member ∈ d.members) (h : member.kind = .iterable decl) : caps.iterates = true := by
  have hitem : ⟨d, member⟩ ∈ c.surface d :=
    List.mem_flatMap.mpr ⟨d, c.self_mem_owners d, List.mem_map_of_mem hmember⟩
  have hdeclares := (declaresIterable_iff hcaps).mpr ⟨_, hitem, decl, h⟩
  simp [iterates, hdeclares]

/-- What a definition offers is asked for. -/
theorem Definition.Offers.requested {c : Catalog} {d : Definition} {category : NameCategory}
    {key : String} (h : d.Offers c category key) {kind members : List NameRequest}
    (hkind : NameRequest.ofKind c d = .ok kind)
    (hmembers : NameRequest.ofMembers c d = .ok members) :
    ∃ request, (request ∈ kind ∨ request ∈ members) ∧ request.target = (category, key) := by
  simp only [NameRequest.ofMembers, bind_eq_ok, pure_eq_ok] at hmembers
  obtain ⟨caps, hcaps, unnamed, hunnamed, rfl⟩ := hmembers
  simp only [List.mem_append, List.mem_filterMap, List.mem_flatMap, id_eq]
  cases h with
  | dictionary h hcategory =>
      simp only [NameRequest.ofKind, h, Except.ok.injEq] at hkind
      refine ⟨.structural category, Or.inl ?_, rfl⟩
      rw [← hkind]
      exact List.mem_append_left _ (NameRequest.mem_offsets hcategory)
  | keyed hinterface hcaps' h hcategory =>
      have hrequests : kind = NameRequest.offsets := by
        rcases hinterface with hinterface | hinterface <;>
          simpa [NameRequest.ofKind, hinterface, hcaps', h, bind, Except.bind, pure, Except.pure,
            eq_comm] using hkind
      subst hrequests
      exact ⟨.structural category, Or.inl (NameRequest.mem_offsets hcategory), rfl⟩
  | invoke h =>
      refine ⟨.structural .invoke, Or.inl ?_, rfl⟩
      rcases h with h | ⟨signature, h⟩ <;>
        · simp only [NameRequest.ofKind, h, Except.ok.injEq] at hkind
          simp [← hkind]
  | cast hinterface hmixin =>
      refine ⟨.structural .cast, Or.inl ?_, rfl⟩
      rw [NameRequest.ofKind] at hkind
      cases h : d.kind <;> simp only [h, Except.ok.injEq] at hkind <;>
        simp_all [Definition.isInterface, Definition.isMixin, ← hkind]
  | value h hvalue =>
      refine ⟨.own .enumValue key (Identifier.constantName key), Or.inl ?_, rfl⟩
      simp only [NameRequest.ofKind, h, Except.ok.injEq] at hkind
      rw [← hkind]
      exact List.mem_cons_of_mem _ (List.mem_map_of_mem hvalue)
  | iterator hcaps' h =>
      rw [hcaps, Except.ok.injEq] at hcaps'
      refine ⟨.structural .iterator, Or.inr ?_, rfl⟩
      simp [hcaps', h]
  | count hcaps' h =>
      rw [hcaps, Except.ok.injEq] at hcaps'
      refine ⟨.structural .count, Or.inr ?_, rfl⟩
      simp [hcaps', h]
  | @iterable member decl hmember h =>
      have hiterates := Capabilities.iterates_of_iterable hcaps hmember h
      refine ⟨.structural .iterator, Or.inr ?_, rfl⟩
      simp [hiterates]
  | @unnamed member decl role hmember h hname hrole =>
      refine ⟨.own .special role.key role.defaultName, Or.inr ?_, rfl⟩
      obtain ⟨request, hrequest, hgives⟩ := (mapM_ok hunnamed).1 member hmember
      rw [NameRequest.ofUnnamed_operation h hname hrole, Except.ok.injEq] at hgives
      exact Or.inl (Or.inl (Or.inl (Or.inr ⟨request, hrequest, hgives.symm⟩)))
  | @named member decl _ hmember h hname =>
      refine ⟨.own .operation key key, Or.inr (Or.inr ⟨member, hmember, ?_⟩), rfl⟩
      obtain ⟨_, signature, special⟩ := decl
      subst hname
      simp [NameRequest.ofNamed, h]
  | @constant member decl hmember h =>
      refine ⟨.own .constant decl.name decl.name, Or.inr ?_, rfl⟩
      exact Or.inl (Or.inl (Or.inr ⟨member, hmember, by simp [NameRequest.ofConstant, h]⟩))
  | @field member decl hmember h =>
      refine ⟨.own .getter decl.name (Identifier.getterName decl.name), Or.inr ?_, rfl⟩
      exact Or.inl (Or.inr ⟨member, hmember, by simp [NameRequest.ofAccessors, h]⟩)
  | @getter member decl hmember h =>
      have hasked := (NameRequest.ofAccessors_attribute h).1
      exact ⟨_, Or.inr (Or.inl (Or.inr ⟨member, hmember, hasked⟩)),
        NameRequest.target_ofAttribute ..⟩
  | @setter member decl hmember h hwritable =>
      have hasked := (NameRequest.ofAccessors_attribute h).2 hwritable
      exact ⟨_, Or.inr (Or.inl (Or.inr ⟨member, hmember, hasked⟩)),
        NameRequest.target_ofAttribute ..⟩

/-- Keyed access is asked for by its four accessors. -/
theorem NameRequest.of_mem_offsets {request : NameRequest} (h : request ∈ offsets) :
    ∃ category ∈ Artifact.offsetCategories, request = .structural category := by
  obtain ⟨category, hcategory, hrequest⟩ := List.mem_map.mp (show request ∈
    Artifact.offsetCategories.map NameRequest.structural from h)
  exact ⟨category, hcategory, hrequest.symm⟩

/-- What a definition asks for because of its kind, it offers. -/
theorem Definition.offers_of_ofKind {c : Catalog} {d : Definition} {requests : List NameRequest}
    (h : NameRequest.ofKind c d = .ok requests) :
    ∀ request ∈ requests, d.Offers c request.target.1 request.target.2 := by
  intro request hmem
  rw [NameRequest.ofKind] at h
  cases hkind : d.kind with
  | dictionary =>
      simp only [hkind, Except.ok.injEq] at h
      subst h
      rcases List.mem_append.mp hmem with hmem | hmem
      · obtain ⟨category, hcategory, rfl⟩ := NameRequest.of_mem_offsets hmem
        exact .dictionary hkind hcategory
      · rw [List.mem_singleton.mp hmem]
        exact .cast (by simp [isInterface, hkind]) (by simp [isMixin, hkind])
  | callback signature =>
      simp only [hkind, Except.ok.injEq] at h
      subst h
      simp only [List.mem_cons, List.not_mem_nil, or_false] at hmem
      rcases hmem with rfl | rfl
      · exact .invoke (Or.inr ⟨signature, hkind⟩)
      · exact .cast (by simp [isInterface, hkind]) (by simp [isMixin, hkind])
  | callbackInterface =>
      simp only [hkind, Except.ok.injEq] at h
      subst h
      simp only [List.mem_cons, List.not_mem_nil, or_false] at hmem
      rcases hmem with rfl | rfl
      · exact .invoke (Or.inl hkind)
      · exact .cast (by simp [isInterface, hkind]) (by simp [isMixin, hkind])
  | enum values =>
      simp only [hkind, Except.ok.injEq] at h
      subst h
      rcases List.mem_cons.mp hmem with rfl | hmem
      · exact .cast (by simp [isInterface, hkind]) (by simp [isMixin, hkind])
      · obtain ⟨value, hvalue, rfl⟩ := List.mem_map.mp hmem
        exact .value hkind hvalue
  | interface =>
      simp only [hkind, bind_eq_ok, pure_eq_ok] at h
      obtain ⟨caps, hcaps, rfl⟩ := h
      split at hmem
      next hkeyed =>
        obtain ⟨category, hcategory, rfl⟩ := NameRequest.of_mem_offsets hmem
        exact .keyed (Or.inl hkind) hcaps hkeyed hcategory
      next => cases hmem
  | mixin =>
      simp only [hkind, bind_eq_ok, pure_eq_ok] at h
      obtain ⟨caps, hcaps, rfl⟩ := h
      split at hmem
      next hkeyed =>
        obtain ⟨category, hcategory, rfl⟩ := NameRequest.of_mem_offsets hmem
        exact .keyed (Or.inr hkind) hcaps hkeyed hcategory
      next => cases hmem

/-- What a definition asks for because of its members, it offers. -/
theorem Definition.offers_of_ofMembers {c : Catalog} {d : Definition}
    {requests : List NameRequest} (h : NameRequest.ofMembers c d = .ok requests) :
    ∀ request ∈ requests, d.Offers c request.target.1 request.target.2 := by
  simp only [NameRequest.ofMembers, bind_eq_ok, pure_eq_ok] at h
  obtain ⟨caps, hcaps, unnamed, hunnamed, rfl⟩ := h
  intro request hmem
  simp only [List.mem_append, List.mem_filterMap, List.mem_flatMap, id_eq] at hmem
  rcases hmem with ((((hmem | hmem) | ⟨_, hmem, rfl⟩) | ⟨member, hmember, hmem⟩) |
    ⟨member, hmember, hmem⟩) | ⟨member, hmember, hmem⟩
  · split at hmem
    next hiterates =>
      rw [List.mem_singleton.mp hmem]
      exact .iterator hcaps hiterates
    next => cases hmem
  · split at hmem
    next hcounts =>
      rw [List.mem_singleton.mp hmem]
      exact .count hcaps hcounts
    next => cases hmem
  · obtain ⟨member, hmember, hasks⟩ := (mapM_ok hunnamed).2 _ hmem
    obtain ⟨decl, kind, hkind, hname, hrole, rfl⟩ := NameRequest.of_ofUnnamed hasks
    exact .unnamed hmember hkind hname hrole
  · rw [NameRequest.ofConstant] at hmem
    split at hmem
    next decl hkind =>
      cases hmem
      exact .constant hmember hkind
    next => cases hmem
  · rcases NameRequest.ofAccessors_cases hmem with
      ⟨decl, hkind, rfl⟩ | ⟨decl, hkind, hwritable, rfl⟩ | ⟨decl, hkind, rfl⟩
    · rw [NameRequest.target_ofAttribute]
      exact .getter hmember hkind
    · rw [NameRequest.target_ofAttribute]
      exact .setter hmember hkind hwritable
    · exact .field hmember hkind
  · rw [NameRequest.ofNamed] at hmem
    split at hmem
    next name signature special hkind =>
      cases hmem
      exact .named hmember hkind rfl
    next => cases hmem

/-- The names of a definition have entries only for what it offers. -/
theorem NameTable.offers_of_entry {c : Catalog} {map : NameMap} {d : Definition}
    {table : NameTable} (h : NameTable.of c map d = .ok table) {category : NameCategory}
    {key ident : String} (hentry : table.get? category key = some ident) :
    d.Offers c category key := by
  obtain ⟨kind, members, base, scope, hkind, hmembers, hbase, hscope, rfl⟩ := of_run h
  have hempty := (Scope.Folded.foldMixins hbase).table
  obtain ⟨request, hrequest, htarget⟩ := (Scope.Grown.of_grants hscope).asked hempty hentry
  have hoffers : d.Offers c request.target.1 request.target.2 := by
    rcases List.mem_append.mp hrequest with hrequest | hrequest
    · exact Definition.offers_of_ofKind hkind request hrequest
    · exact Definition.offers_of_ofMembers hmembers request hrequest
  rwa [htarget] at hoffers

namespace Registry

variable {options : IngestOptions} {nodes : List Node} {r : Registry}

/-- The names of a definition of a registry that was built are those that all names give. -/
theorem table_of_build (h : build options nodes = .ok r) {d : Definition}
    (hd : d ∈ r.definitions) : ∃ table, r.names.table? d.name = some table ∧
      NameTable.of r.toCatalog r.names d = .ok table := by
  obtain ⟨hsettled, hall⟩ := settled_of_build h
  have hget := (wellFormed_of_build h).get?_of_mem hd
  obtain ⟨table, htable⟩ := Option.isSome_iff_exists.mp (hall d.name (by rw [hget]; rfl))
  obtain ⟨d', hd', hof⟩ := hsettled.table_of htable
  rw [hget, Option.some.injEq] at hd'
  subst hd'
  exact ⟨table, htable, hof⟩

/-- In a registry that was built a definition has the names that it offers, and no others. -/
theorem exists_name_iff (h : build options nodes = .ok r) {d : Definition}
    (hd : d ∈ r.definitions) {category : NameCategory} {key : String} :
    (∃ ident, r.name? d.name category key = some ident) ↔ d.Offers r.toCatalog category key := by
  obtain ⟨table, htable, hof⟩ := table_of_build h hd
  rw [name?, NameMap.get?, htable]
  constructor
  · rintro ⟨ident, hentry⟩
    exact NameTable.offers_of_entry hof hentry
  · intro hoffers
    obtain ⟨kind, members, hkind, hmembers, hhas⟩ := NameTable.has_requests hof
    obtain ⟨request, hrequest, htarget⟩ := hoffers.requested hkind hmembers
    have hentry := hhas request (List.mem_append.mpr hrequest)
    rw [htarget, Option.isSome_iff_exists] at hentry
    exact hentry

/-- In a registry that was built a definition has all the names that it offers. -/
theorem exists_name (h : build options nodes = .ok r) {d : Definition} (hd : d ∈ r.definitions)
    {category : NameCategory} {key : String} (hoffers : d.Offers r.toCatalog category key) :
    ∃ ident, r.name? d.name category key = some ident :=
  (exists_name_iff h hd).mpr hoffers

end Registry

end WebIdl
