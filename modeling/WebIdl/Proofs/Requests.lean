import WebIdl.Proofs.Scope

/-!
# WebIdl.Proofs.Requests

How a scope grows by the requests that are granted in it.

A granted request shares a structural name, takes over an accessor name, or introduces a
name that is free (`Grown`).  Out of a scope that only took names over, this makes a table
in which introduced names are new and distinct, in which every entry was asked for, and
whose entries each have a source (`Grown.source`).
-/

namespace WebIdl

open Text

namespace NameRequest

/-! ## what is asked for -/

/-- The category and key that a request is for. -/
def target : NameRequest → NameCategory × String
  | .structural category => (category, "")
  | .own category key _ => (category, key)
  | .inheriting category key _ => (category, key)

/-- The spelling that a request wants. -/
def desired? : NameRequest → Option String
  | .structural category => category.structuralName?
  | .own _ _ desired => some desired
  | .inheriting _ _ desired => some desired

/-- The requests that a definition can make. -/
inductive Made (d : Definition) : NameRequest → Prop where
  | protocol {category : NameCategory} (h : category.isStructural = true) :
      Made d (.structural category)
  | value (value : String) : Made d (.own .enumValue value (Identifier.constantName value))
  | unnamed (kind : SpecialKind) : Made d (.own .special kind.key kind.defaultName)
  | constant {member : Member} {request : NameRequest} (hmember : member ∈ d.members)
      (h : ofConstant member = some request) : Made d request
  | accessor {member : Member} {request : NameRequest} (hmember : member ∈ d.members)
      (h : request ∈ ofAccessors member) : Made d request
  | named {member : Member} {request : NameRequest} (hmember : member ∈ d.members)
      (h : ofNamed member = some request) : Made d request

theorem made_of_mem_offsets {d : Definition} {request : NameRequest} (h : request ∈ offsets) :
    Made d request := by
  simp only [offsets, List.mem_cons, List.not_mem_nil, or_false] at h
  rcases h with rfl | rfl | rfl | rfl
  · exact .protocol rfl
  · exact .protocol rfl
  · exact .protocol rfl
  · exact .protocol rfl

/-- What a definition asks for because of its kind. -/
theorem made_ofKind {c : Catalog} {d : Definition} {requests : List NameRequest}
    (h : ofKind c d = .ok requests) : ∀ request ∈ requests, Made d request := by
  have hkeyed : ∀ keyed : Bool, ∀ request ∈ (if keyed then offsets else []), Made d request := by
    intro keyed request hmem
    cases keyed with
    | false => cases hmem
    | true => exact made_of_mem_offsets hmem
  rw [ofKind] at h
  intro request hmem
  cases hkind : d.kind with
  | dictionary =>
      simp only [hkind, Except.ok.injEq] at h
      subst h
      rcases List.mem_append.mp hmem with hmem | hmem
      · exact made_of_mem_offsets hmem
      · rw [List.mem_singleton.mp hmem]
        exact .protocol rfl
  | callback signature =>
      simp only [hkind, Except.ok.injEq] at h
      subst h
      simp only [List.mem_cons, List.not_mem_nil, or_false] at hmem
      rcases hmem with rfl | rfl
      · exact .protocol rfl
      · exact .protocol rfl
  | callbackInterface =>
      simp only [hkind, Except.ok.injEq] at h
      subst h
      simp only [List.mem_cons, List.not_mem_nil, or_false] at hmem
      rcases hmem with rfl | rfl
      · exact .protocol rfl
      · exact .protocol rfl
  | enum values =>
      simp only [hkind, Except.ok.injEq] at h
      subst h
      rcases List.mem_cons.mp hmem with rfl | hmem
      · exact .protocol rfl
      · obtain ⟨value, -, rfl⟩ := List.mem_map.mp hmem
        exact .value value
  | interface =>
      simp only [hkind, bind_eq_ok, pure_eq_ok] at h
      obtain ⟨caps, -, rfl⟩ := h
      exact hkeyed caps.keyed request hmem
  | mixin =>
      simp only [hkind, bind_eq_ok, pure_eq_ok] at h
      obtain ⟨caps, -, rfl⟩ := h
      exact hkeyed caps.keyed request hmem

/-- An operation without a name is asked for by the role it plays. -/
theorem of_ofUnnamed {c : Catalog} {member : Member} {request : NameRequest}
    (h : ofUnnamed c member = .ok (some request)) :
    ∃ decl kind, member.kind = .operation decl ∧ decl.name = none ∧
      c.specialKind decl.special decl.signature = .ok (some kind) ∧
      request = .own .special kind.key kind.defaultName := by
  rw [ofUnnamed] at h
  split at h
  · next signature special hkind =>
      simp only [bind_eq_ok] at h
      obtain ⟨role, hrole, h⟩ := h
      cases role with
      | none => simp [pure, Except.pure] at h
      | some kind =>
          rw [pure_eq_ok, Option.some.injEq] at h
          exact ⟨_, kind, hkind, rfl, hrole, h.symm⟩
  · simp at h

/-- What a definition asks for because of its members. -/
theorem made_ofMembers {c : Catalog} {d : Definition} {requests : List NameRequest}
    (h : ofMembers c d = .ok requests) : ∀ request ∈ requests, Made d request := by
  simp only [ofMembers, bind_eq_ok, pure_eq_ok] at h
  obtain ⟨caps, -, unnamed, hunnamed, rfl⟩ := h
  intro request hmem
  simp only [List.mem_append, List.mem_filterMap, List.mem_flatMap, id_eq] at hmem
  rcases hmem with ((((hmem | hmem) | ⟨_, hmem, rfl⟩) | ⟨member, hmember, hmem⟩) |
    ⟨member, hmember, hmem⟩) | ⟨member, hmember, hmem⟩
  · split at hmem
    · rw [List.mem_singleton.mp hmem]
      exact .protocol rfl
    · cases hmem
  · split at hmem
    · rw [List.mem_singleton.mp hmem]
      exact .protocol rfl
    · cases hmem
  · obtain ⟨member, -, hasks⟩ := (mapM_ok hunnamed).2 _ hmem
    obtain ⟨decl, kind, -, -, -, rfl⟩ := of_ofUnnamed hasks
    exact .unnamed kind
  · exact .constant hmember hmem
  · exact .accessor hmember hmem
  · exact .named hmember hmem

/-- The request for an accessor of an attribute. -/
def ofAttribute (decl : Attribute) (category : NameCategory) (desired : String) : NameRequest :=
  if decl.special == .inherit then .inheriting category decl.name desired
  else .own category decl.name desired

theorem target_ofAttribute (decl : Attribute) (category : NameCategory) (desired : String) :
    (ofAttribute decl category desired).target = (category, decl.name) := by
  rw [ofAttribute]
  split
  · rfl
  · rfl

/-- What asks for an accessor: an attribute for its getter, one that can be written also for
its setter, and a field for its getter. -/
theorem ofAccessors_cases {member : Member} {request : NameRequest}
    (h : request ∈ ofAccessors member) :
    (∃ decl, member.kind = .attribute decl ∧
      request = ofAttribute decl .getter (Identifier.getterName decl.name)) ∨
    (∃ decl, member.kind = .attribute decl ∧
      (decl.readonly = false ∨ member.attrs.has "PutForwards" = true) ∧
      request = ofAttribute decl .setter (Identifier.setterName decl.name)) ∨
    ∃ decl, member.kind = .field decl ∧
      request = .own .getter decl.name (Identifier.getterName decl.name) := by
  grind [ofAccessors, ofAttribute]

/-- Accessors are asked for by an attribute or a field of their name. -/
theorem mem_ofAccessors {member : Member} {request : NameRequest}
    (h : request ∈ ofAccessors member) :
    (∃ decl category desired, member.kind = .attribute decl ∧
      (category = .getter ∨ category = .setter) ∧ request = ofAttribute decl category desired) ∨
    ∃ decl desired, member.kind = .field decl ∧ request = .own .getter decl.name desired := by
  rcases ofAccessors_cases h with
    ⟨decl, hkind, hrequest⟩ | ⟨decl, hkind, -, hrequest⟩ | ⟨decl, hkind, hrequest⟩
  · exact Or.inl ⟨decl, _, _, hkind, Or.inl rfl, hrequest⟩
  · exact Or.inl ⟨decl, _, _, hkind, Or.inr rfl, hrequest⟩
  · exact Or.inr ⟨decl, _, hkind, hrequest⟩

/-- Structural names are asked for as such. -/
theorem Made.eq_structural {d : Definition} {request : NameRequest} (h : Made d request)
    (hstructural : request.target.1.isStructural = true) :
    request = .structural request.target.1 := by
  cases h with
  | protocol h => rfl
  | value value => cases hstructural
  | unnamed kind => cases hstructural
  | constant hmember h =>
      rw [ofConstant] at h
      split at h
      · cases h
        cases hstructural
      · cases h
  | accessor hmember h =>
      rcases mem_ofAccessors h with ⟨decl, category, desired, -, rfl | rfl, rfl⟩ | ⟨_, _, -, rfl⟩
      · rw [target_ofAttribute] at hstructural
        cases hstructural
      · rw [target_ofAttribute] at hstructural
        cases hstructural
      · cases hstructural
  | named hmember h =>
      rw [ofNamed] at h
      split at h
      · cases h
        cases hstructural
      · cases h

/-- Accessors are asked for as such. -/
theorem Made.mem_ofAccessors {d : Definition} {request : NameRequest} (h : Made d request)
    (haccessor : request.target.1 = .getter ∨ request.target.1 = .setter) :
    ∃ member ∈ d.members, request ∈ ofAccessors member := by
  cases h with
  | protocol h =>
      simp only [target] at haccessor
      rcases haccessor with rfl | rfl
      · cases h
      · cases h
  | value value => simp [target] at haccessor
  | unnamed kind => simp [target] at haccessor
  | constant hmember h =>
      rw [ofConstant] at h
      split at h
      · cases h
        simp [target] at haccessor
      · cases h
  | accessor hmember h => exact ⟨_, hmember, h⟩
  | named hmember h =>
      rw [ofNamed] at h
      split at h
      · cases h
        simp [target] at haccessor
      · cases h

/-- Only an `inherit` attribute asks to take over, and only an accessor of its name. -/
theorem Made.of_inheriting {d : Definition} {category : NameCategory} {key desired : String}
    (h : Made d (.inheriting category key desired)) :
    (category = .getter ∨ category = .setter) ∧ ∃ member ∈ d.members, ∃ decl,
      member.kind = .attribute decl ∧ decl.name = key ∧ decl.special = .inherit := by
  cases h with
  | constant hmember h =>
      rw [ofConstant] at h
      split at h
      · cases h
      · cases h
  | accessor hmember h =>
      rcases NameRequest.mem_ofAccessors h with
        ⟨decl, other, wanted, hkind, haccessor, hsame⟩ | ⟨decl, wanted, -, hsame⟩
      · have htarget := target_ofAttribute decl other wanted
        rw [← hsame] at htarget
        obtain ⟨rfl, rfl⟩ := Prod.mk.inj htarget
        refine ⟨haccessor, _, hmember, decl, hkind, rfl, ?_⟩
        rw [ofAttribute] at hsame
        split at hsame
        next hspecial => exact beq_iff_eq.mp hspecial
        next => cases hsame
      · cases hsame
  | named hmember h =>
      rw [ofNamed] at h
      split at h
      · cases h
      · cases h

/-- An accessor is asked for by an attribute of its name, or a getter by a field. -/
theorem Made.accessor_member {d : Definition} {request : NameRequest} {category : NameCategory}
    {key : String} (h : Made d request) (htarget : request.target = (category, key))
    (haccessor : category = .getter ∨ category = .setter) :
    ∃ member ∈ d.members, (∃ decl, member.kind = .attribute decl ∧ decl.name = key) ∨
      category = .getter ∧ ∃ decl, member.kind = .field decl ∧ decl.name = key := by
  obtain ⟨member, hmember, hrequest⟩ := h.mem_ofAccessors (by rw [htarget]; exact haccessor)
  refine ⟨member, hmember, ?_⟩
  rcases NameRequest.mem_ofAccessors hrequest with
    ⟨decl, _, _, hkind, -, rfl⟩ | ⟨decl, _, hkind, rfl⟩
  · rw [target_ofAttribute] at htarget
    exact Or.inl ⟨decl, hkind, (Prod.mk.inj htarget).2⟩
  · obtain ⟨hcategory, hkey⟩ := Prod.mk.inj htarget
    exact Or.inr ⟨hcategory.symm, decl, hkind, hkey⟩

end NameRequest

namespace Scope

/-! ## granting requests -/

/-- A name is reserved at most once, and then it is one that was free. -/
theorem reserve_ok {scope scope' : Scope} {category : NameCategory} {key desired : String}
    (h : scope.reserve category key desired = .ok scope') :
    scope' = scope ∨ ∃ ident, scope.table.get? category key = none ∧
      scope.free desired = .ok ident ∧ scope' = scope.introduce category key ident := by
  rw [reserve] at h
  split at h
  · exact Or.inl (Except.ok.inj h).symm
  · next hnew =>
      simp only [bind_eq_ok, pure_eq_ok] at h
      obtain ⟨ident, hident, rfl⟩ := h
      exact Or.inr ⟨ident, by simpa using hnew, hident, rfl⟩

section

variable {scope : Scope} {category : NameCategory} {key ident : String}

theorem isUsed_introduce {other : String} :
    (scope.introduce category key ident).isUsed other = true ↔
      lowerAscii other = lowerAscii ident ∨ scope.isUsed other = true := by
  rw [isUsed_eq_true_iff, isUsed_eq_true_iff]
  simp [introduce, adopt, occupy]

theorem get?_introduce (scope : Scope) (category : NameCategory) (key ident : String) :
    (scope.introduce category key ident).table.get? =
      (scope.table.put ⟨category, key, ident⟩).get? := by
  simp only [introduce, adopt, table_noteStructural, occupy]
  rfl

theorem introduced_introduce (scope : Scope) (category : NameCategory) (key ident : String) :
    (scope.introduce category key ident).table.introduced =
      scope.table.introduced ++ [⟨category, ident⟩] := by
  simp [introduce, adopt, occupy, NameTable.put]

theorem structural?_introduce (scope : Scope) (category : NameCategory) (key ident : String) :
    (scope.introduce category key ident).structural? =
      ((scope.occupy ident (.own category)).noteStructural category ident).structural? := rfl

end

/-- A scope that requests of a definition have been granted in, where `found` tells what
accessors its ancestors have. -/
inductive Grown (found : NameCategory → String → Option String) (requests : List NameRequest)
    (base : Scope) : Scope → Prop where
  | base : Grown found requests base base
  | share {scope : Scope} {category : NameCategory} {ident : String}
      (h : Grown found requests base scope) (hasked : .structural category ∈ requests)
      (hnoted : scope.structural? category = some ident) :
      Grown found requests base (scope.adopt category "" ident)
  | inherit {scope : Scope} {category : NameCategory} {key desired ident : String}
      (h : Grown found requests base scope) (hasked : .inheriting category key desired ∈ requests)
      (hfound : found category key = some ident) :
      Grown found requests base (scope.adopt category key ident)
  | introduce {scope : Scope} {request : NameRequest} {category : NameCategory}
      {key ident : String} (h : Grown found requests base scope) (hasked : request ∈ requests)
      (htarget : request.target = (category, key))
      (hnew : scope.table.get? category key = none) (hfree : scope.isUsed ident = false)
      (hprotocol : request = .structural category → scope.structural? category = none ∧
        (category.protocol?.isSome = true → category.structuralName? = some ident)) :
      Grown found requests base (scope.introduce category key ident)

/-- The accessor names that a definition can take over. -/
def inherited? (c : Catalog) (map : NameMap) (d : Definition) (category : NameCategory)
    (key : String) : Option String :=
  (c.findName map d.parent.toList category key).map (·.2)

namespace Grown

variable {c : Catalog} {map : NameMap} {d : Definition} {requests : List NameRequest}
  {base scope scope' : Scope}

/-- Granting a request is one of the ways to grow. -/
theorem grant {request : NameRequest} (h : Grown (inherited? c map d) requests base scope)
    (hasked : request ∈ requests) (hgrant : scope.grant c map d request = .ok scope') :
    Grown (inherited? c map d) requests base scope' := by
  cases request with
  | structural category =>
      rw [Scope.grant, reserveStructural] at hgrant
      cases hnoted : scope.structural? category with
      | some ident =>
          simp only [hnoted, Except.ok.injEq] at hgrant
          exact hgrant ▸ h.share hasked hnoted
      | none =>
          simp only [hnoted] at hgrant
          cases hname : category.structuralName? with
          | none =>
              simp only [hname, Except.ok.injEq] at hgrant
              exact hgrant ▸ h
          | some desired =>
              -- a name that a host interface fixes is only reserved if it is free
              have hreserve : scope.reserve category "" desired = .ok scope' ∧
                  (category.protocol?.isSome = true → scope.isUsed desired = false) := by
                simp only [hname] at hgrant
                cases hprotocol : category.protocol? with
                | none =>
                    simp only [hprotocol] at hgrant
                    exact ⟨hgrant, fun h => by cases h⟩
                | some protocol =>
                    simp only [hprotocol] at hgrant
                    split at hgrant
                    · cases hgrant
                    · next hunused => exact ⟨hgrant, fun _ => Bool.eq_false_iff.mpr hunused⟩
              rcases reserve_ok hreserve.1 with rfl | ⟨ident, hnew, hfree, rfl⟩
              · exact h
              · obtain ⟨hunused, hwanted⟩ := free_ok hfree
                refine h.introduce hasked rfl hnew hunused fun _ => ⟨hnoted, fun hprotocol => ?_⟩
                rw [hname, hwanted (hreserve.2 hprotocol)]
  | own category key desired =>
      rcases reserve_ok hgrant with rfl | ⟨ident, hnew, hfree, rfl⟩
      · exact h
      · exact h.introduce hasked rfl hnew (free_ok hfree).1 (fun hrequest => by cases hrequest)
  | inheriting category key desired =>
      rw [Scope.grant] at hgrant
      cases hfound : c.findName map d.parent.toList category key with
      | some entry =>
          simp only [hfound, Except.ok.injEq] at hgrant
          have hinherited : inherited? c map d category key = some entry.2 := by
            rw [inherited?, hfound]
            rfl
          exact hgrant ▸ h.inherit hasked hinherited
      | none =>
          simp only [hfound] at hgrant
          rcases reserve_ok hgrant with rfl | ⟨ident, hnew, hfree, rfl⟩
          · exact h
          · exact h.introduce hasked rfl hnew (free_ok hfree).1 (fun hrequest => by cases hrequest)

/-- So is granting requests one after another. -/
theorem of_grants (h : requests.foldlM (Scope.grant c map d) base = .ok scope) :
    Grown (inherited? c map d) requests base scope :=
  foldlM_ok_inv (fun _ hrequest _ _ hgrown hstep => hgrown.grant hrequest hstep) .base h

end Grown

/-! ## what has grown -/

namespace Grown

variable {found : NameCategory → String → Option String} {requests : List NameRequest}
  {base scope : Scope} {category : NameCategory} {key ident : String}

/-- What is in use stays in use. -/
theorem isUsed_of_base (h : Grown found requests base scope) {other : String}
    (hused : base.isUsed other = true) : scope.isUsed other = true := by
  induction h with
  | base => exact hused
  | share h hasked hnoted ih => exact ih
  | inherit h hasked hfound ih => exact ih
  | introduce h hasked htarget hnew hfree hprotocol ih => exact isUsed_introduce.mpr (Or.inr ih)

/-- Names that were introduced are in use. -/
theorem isUsed_introduced (h : Grown found requests base scope) (hbase : base.table = {})
    {name : Reservation} (hname : name ∈ scope.table.introduced) :
    scope.isUsed name.ident = true := by
  induction h with
  | base =>
      rw [hbase] at hname
      cases hname
  | share h hasked hnoted ih => exact ih hname
  | inherit h hasked hfound ih => exact ih hname
  | introduce h hasked htarget hnew hfree hprotocol ih =>
      rw [introduced_introduce] at hname
      rw [isUsed_introduce]
      rcases List.mem_append.mp hname with hname | hname
      · exact Or.inr (ih hname)
      · rw [List.mem_singleton.mp hname]
        exact Or.inl rfl

/-- Names that were introduced were not in use before. -/
theorem free_of_introduced (h : Grown found requests base scope) (hbase : base.table = {})
    {name : Reservation} (hname : name ∈ scope.table.introduced) :
    base.isUsed name.ident = false := by
  induction h with
  | base =>
      rw [hbase] at hname
      cases hname
  | share h hasked hnoted ih => exact ih hname
  | inherit h hasked hfound ih => exact ih hname
  | introduce h hasked htarget hnew hfree hprotocol ih =>
      rw [introduced_introduce] at hname
      rcases List.mem_append.mp hname with hname | hname
      · exact ih hname
      · rw [List.mem_singleton.mp hname, Bool.eq_false_iff]
        intro hused
        rw [h.isUsed_of_base hused] at hfree
        cases hfree

/-- Names that were introduced are distinct. -/
theorem distinct_introduced (h : Grown found requests base scope) (hbase : base.table = {}) :
    scope.table.introduced.Pairwise fun a b => lowerAscii a.ident ≠ lowerAscii b.ident := by
  induction h with
  | base =>
      rw [hbase]
      exact List.Pairwise.nil
  | share h hasked hnoted ih => exact ih
  | inherit h hasked hfound ih => exact ih
  | @introduce scope request category key ident h hasked htarget hnew hfree hprotocol ih =>
      rw [introduced_introduce]
      refine List.pairwise_append.mpr ⟨ih, List.pairwise_singleton _ _, ?_⟩
      intro name hname last hlast hsame
      rw [List.mem_singleton.mp hlast] at hsame
      have hused := h.isUsed_introduced hbase hname
      rw [isUsed_congr hsame, hfree] at hused
      cases hused

/-- Every entry was asked for. -/
theorem asked (h : Grown found requests base scope) (hbase : base.table = {})
    (hentry : scope.table.get? category key = some ident) :
    ∃ request ∈ requests, request.target = (category, key) := by
  induction h with
  | base =>
      rw [hbase] at hentry
      cases hentry
  | share h hasked hnoted ih =>
      rcases NameTable.get?_put_eq_some hentry with ⟨rfl, rfl, rfl⟩ | hentry
      · exact ⟨_, hasked, rfl⟩
      · exact ih hentry
  | inherit h hasked hfound ih =>
      rcases NameTable.get?_put_eq_some hentry with ⟨rfl, rfl, rfl⟩ | hentry
      · exact ⟨_, hasked, rfl⟩
      · exact ih hentry
  | introduce h hasked htarget hnew hfree hprotocol ih =>
      rw [get?_introduce] at hentry
      rcases NameTable.get?_put_eq_some hentry with ⟨rfl, rfl, rfl⟩ | hentry
      · exact ⟨_, hasked, htarget⟩
      · exact ih hentry

/-- A structural name was noted before, or introduced. -/
theorem structural_source (h : Grown found requests base scope)
    (hnoted : scope.structural? category = some ident) :
    base.structural? category = some ident ∨
      ⟨category, ident⟩ ∈ scope.table.introduced ∧ category.isStructural = true := by
  induction h with
  | base => exact Or.inl hnoted
  | share h hasked hnoted' ih => exact ih hnoted
  | inherit h hasked hfound ih => exact ih hnoted
  | introduce h hasked htarget hnew hfree hprotocol ih =>
      rw [structural?_introduce] at hnoted
      rw [introduced_introduce, List.mem_append]
      rcases structural?_noteStructural hnoted with hold | ⟨rfl, rfl, hstructural⟩
      · rcases ih hold with hbase | ⟨hold, hstructural⟩
        · exact Or.inl hbase
        · exact Or.inr ⟨Or.inl hold, hstructural⟩
      · exact Or.inr ⟨Or.inr List.mem_cons_self, hstructural⟩

/-- Where the identifier of an entry comes from; what is taken over was asked for as such. -/
theorem source (h : Grown found requests base scope) (hbase : base.table = {})
    (hentry : scope.table.get? category key = some ident) :
    ⟨category, ident⟩ ∈ scope.table.introduced ∨
      (key = "" ∧ base.structural? category = some ident) ∨
      (∃ desired, .inheriting category key desired ∈ requests) ∧
        found category key = some ident := by
  induction h with
  | base =>
      rw [hbase] at hentry
      cases hentry
  | share h hasked hnoted ih =>
      rcases NameTable.get?_put_eq_some hentry with ⟨rfl, rfl, rfl⟩ | hentry
      · rcases h.structural_source hnoted with hshared | ⟨hown, -⟩
        · exact Or.inr (Or.inl ⟨rfl, hshared⟩)
        · exact Or.inl hown
      · exact ih hentry
  | inherit h hasked hfound ih =>
      rcases NameTable.get?_put_eq_some hentry with ⟨rfl, rfl, rfl⟩ | hentry
      · exact Or.inr (Or.inr ⟨⟨_, hasked⟩, hfound⟩)
      · exact ih hentry
  | introduce h hasked htarget hnew hfree hprotocol ih =>
      rw [get?_introduce] at hentry
      rw [introduced_introduce, List.mem_append]
      rcases NameTable.get?_put_eq_some hentry with ⟨rfl, rfl, rfl⟩ | hentry
      · exact Or.inl (Or.inr List.mem_cons_self)
      · rcases ih hentry with hown | hother
        · exact Or.inl (Or.inl hown)
        · exact Or.inr hother

section

variable {d : Definition} (hmade : ∀ request ∈ requests, NameRequest.Made d request)
include hmade

/-- Requests for a structural category are alike. -/
theorem eq_structural_of_target {request : NameRequest} (hasked : request ∈ requests)
    (htarget : request.target = (category, key)) (hstructural : category.isStructural = true) :
    request = .structural category ∧ key = "" := by
  have hrequest := (hmade request hasked).eq_structural (by rw [htarget]; exact hstructural)
  rw [htarget] at hrequest
  refine ⟨hrequest, ?_⟩
  rw [hrequest] at htarget
  exact (Prod.mk.inj htarget).2.symm

/-- A structural name that was introduced is noted and is the one of its category. -/
theorem structural_introduced (h : Grown found requests base scope) (hbase : base.table = {})
    (hname : ⟨category, ident⟩ ∈ scope.table.introduced)
    (hstructural : category.isStructural = true) :
    scope.structural? category = some ident ∧ scope.table.get? category "" = some ident := by
  induction h with
  | base =>
      rw [hbase] at hname
      cases hname
  | @share scope other ident' h hasked hnoted ih =>
      obtain ⟨hold, hentry⟩ := ih hname
      refine ⟨hold, ?_⟩
      by_cases hsame : category = other
      · subst hsame
        rw [hold, Option.some.injEq] at hnoted
        rw [hnoted]
        exact NameTable.get?_put_self scope.table ⟨category, "", ident'⟩
      · rw [← hentry]
        exact NameTable.get?_put_of_ne fun hboth => hsame hboth.1
  | @inherit scope other key desired ident' h hasked hfound ih =>
      obtain ⟨hold, hentry⟩ := ih hname
      refine ⟨hold, ?_⟩
      rw [← hentry]
      refine NameTable.get?_put_of_ne fun hboth => ?_
      have hsame : category = other := hboth.1
      obtain ⟨hrequest, -⟩ := eq_structural_of_target hmade hasked rfl (hsame ▸ hstructural)
      cases hrequest
  | @introduce scope request other key ident' h hasked htarget hnew hfree hprotocol ih =>
      rw [introduced_introduce] at hname
      rw [structural?_introduce, get?_introduce]
      rcases List.mem_append.mp hname with hname | hname
      · obtain ⟨hold, hentry⟩ := ih hname
        refine ⟨structural?_noteStructural_of_some hold, ?_⟩
        rw [← hentry]
        refine NameTable.get?_put_of_ne fun hboth => ?_
        have hsame : category = other := hboth.1
        subst hsame
        obtain ⟨hrequest, -⟩ := eq_structural_of_target hmade hasked htarget hstructural
        have hnone := (hprotocol hrequest).1
        rw [hold] at hnone
        cases hnone
      · obtain ⟨rfl, rfl⟩ := Reservation.mk.inj (List.mem_singleton.mp hname)
        obtain ⟨hrequest, rfl⟩ := eq_structural_of_target hmade hasked htarget hstructural
        exact ⟨structural?_noteStructural_self ident hstructural (hprotocol hrequest).1,
          NameTable.get?_put_self scope.table ⟨category, "", ident⟩⟩

/-- A name that a host interface fixes is introduced as it is. -/
theorem protocol_introduced (h : Grown found requests base scope) (hbase : base.table = {})
    (hname : ⟨category, ident⟩ ∈ scope.table.introduced)
    (hprotocol : category.protocol?.isSome = true) : category.structuralName? = some ident := by
  have hstructural : category.isStructural = true := by
    cases category with
    | «exists» | get | set | unset | invoke | cast | iterator | count => rfl
    | enumValue | special | constant | getter | setter | operation => cases hprotocol
  induction h with
  | base =>
      rw [hbase] at hname
      cases hname
  | share h hasked hnoted ih => exact ih hname
  | inherit h hasked hfound ih => exact ih hname
  | introduce h hasked htarget hnew hfree hfixed ih =>
      rw [introduced_introduce] at hname
      rcases List.mem_append.mp hname with hname | hname
      · exact ih hname
      · obtain ⟨rfl, rfl⟩ := Reservation.mk.inj (List.mem_singleton.mp hname)
        obtain ⟨hrequest, -⟩ := eq_structural_of_target hmade hasked htarget hstructural
        exact (hfixed hrequest).2 hprotocol

/-- An identifier that was not in use before belongs to one entry. -/
theorem eq_of_same_ident (h : Grown found requests base scope) (hbase : base.table = {})
    (hnoted : ∀ category ident, base.structural? category = some ident →
      base.isUsed ident = true)
    (hfound : ∀ category key ident, found category key = some ident → base.isUsed ident = true)
    {category' : NameCategory} {key' ident' : String}
    (hentry : scope.table.get? category key = some ident)
    (hentry' : scope.table.get? category' key' = some ident')
    (hsame : lowerAscii ident = lowerAscii ident') (hnew : base.isUsed ident = false) :
    category = category' ∧ key = key' := by
  have hnew' : base.isUsed ident' = false := isUsed_congr hsame ▸ hnew
  induction h with
  | base =>
      rw [hbase] at hentry
      cases hentry
  | @share scope other shared h hasked hshared ih =>
      -- a shared name that was not in use before was introduced, and its entry is there
      have hold : ∀ {category key ident}, (scope.table.put ⟨other, "", shared⟩).get? category key =
          some ident → base.isUsed ident = false → scope.table.get? category key = some ident := by
        intro category key ident hput hunused
        rcases NameTable.get?_put_eq_some hput with ⟨rfl, rfl, rfl⟩ | hput
        · rcases h.structural_source hshared with hshared | ⟨hown, hstructural⟩
          · rw [hnoted _ _ hshared] at hunused
            cases hunused
          · exact (structural_introduced hmade h hbase hown hstructural).2
        · exact hput
      exact ih (hold hentry hnew) (hold hentry' hnew')
  | @inherit scope other key desired taken h hasked htaken ih =>
      have hold : ∀ {category key' ident},
          (scope.table.put ⟨other, key, taken⟩).get? category key' = some ident →
          base.isUsed ident = false → scope.table.get? category key' = some ident := by
        intro category key' ident hput hunused
        rcases NameTable.get?_put_eq_some hput with ⟨rfl, rfl, rfl⟩ | hput
        · rw [hfound _ _ _ htaken] at hunused
          cases hunused
        · exact hput
      exact ih (hold hentry hnew) (hold hentry' hnew')
  | @introduce scope request other key fresh h hasked htarget hnone hfree hprotocol ih =>
      have hused : ∀ {category key ident}, scope.table.get? category key = some ident →
          base.isUsed ident = false → lowerAscii fresh ≠ lowerAscii ident := by
        intro category key ident hold hunused heq
        rw [isUsed_congr heq, Bool.eq_false_iff] at hfree
        rcases source h hbase hold with hown | ⟨-, hshared⟩ | ⟨-, htaken⟩
        · have hheld := h.isUsed_introduced hbase hown
          exact hfree hheld
        · exact hfree (h.isUsed_of_base (hnoted _ _ hshared))
        · exact hfree (h.isUsed_of_base (hfound _ _ _ htaken))
      rw [get?_introduce] at hentry hentry'
      rcases NameTable.get?_put_eq_some hentry with ⟨rfl, rfl, rfl⟩ | hold
      · rcases NameTable.get?_put_eq_some hentry' with ⟨rfl, rfl, rfl⟩ | hold'
        · exact ⟨rfl, rfl⟩
        · exact absurd hsame (hused hold' hnew')
      · rcases NameTable.get?_put_eq_some hentry' with ⟨rfl, rfl, rfl⟩ | hold'
        · exact absurd hsame.symm (hused hold hnew)
        · exact ih hold hold'

end

end Grown

end Scope

end WebIdl
