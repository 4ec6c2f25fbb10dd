import WebIdl.Proofs.Reserved

/-!
# WebIdl.Proofs.Renaming

When a definition has to go around a name that it wants.

The spelling that is wanted follows from the category and the key alone
(`NameCategory.wanted?`).  Every name that is introduced is introduced in the turn of one
request (`reserves_iff_prefix`), as the wanted spelling or as a numbered form of it.  Who
holds an identifier tells how it was reached (`accounted_foldMixins`), and only what is
reserved, inherited or the definition's own is gone around:

* `renaming_avoids_inherited_names`: a name is changed only because of a reserved word, an
  earlier name of the same definition or a name reached through the parent, and never
  because of a name that is reached through includes only.
-/

namespace WebIdl

open Relation Text

/-! ## wanted spellings -/

/-- The spelling that is wanted for a category and key: the method of a structural category,
the constant of an enumeration value, the method of a role, the name of a constant or an
operation, and `get` or `set` before the name of an attribute or a field. -/
def NameCategory.wanted? (category : NameCategory) (key : String) : Option String :=
  match category with
  | .enumValue => some (Identifier.constantName key)
  | .special => (SpecialKind.all.find? (·.key == key)).map (·.defaultName)
  | .constant => some key
  | .operation => some key
  | .getter => some (Identifier.getterName key)
  | .setter => some (Identifier.setterName key)
  | structural => structural.structuralName?

theorem NameCategory.wanted?_of_isStructural {category : NameCategory}
    (h : category.isStructural = true) (key : String) :
    category.wanted? key = category.structuralName? := by
  cases category <;> first | rfl | cases h

theorem NameRequest.desired?_ofAttribute (decl : Attribute) (category : NameCategory)
    (desired : String) : (ofAttribute decl category desired).desired? = some desired := by
  unfold ofAttribute
  split <;> rfl

/-- A definition asks for the wanted spelling. -/
theorem NameRequest.Made.desired?_eq {d : Definition} {request : NameRequest}
    (h : Made d request) : request.desired? = request.target.1.wanted? request.target.2 := by
  cases h with
  | protocol h => exact (NameCategory.wanted?_of_isStructural h "").symm
  | value value => rfl
  | unnamed kind => cases kind <;> rfl
  | constant _ h =>
      unfold ofConstant at h
      split at h
      · cases h
        rfl
      · cases h
  | accessor _ h =>
      rcases ofAccessors_cases h with ⟨decl, -, rfl⟩ | ⟨decl, -, -, rfl⟩ | ⟨decl, -, rfl⟩
      · rw [desired?_ofAttribute, target_ofAttribute]
        rfl
      · rw [desired?_ofAttribute, target_ofAttribute]
        rfl
      · rfl
  | named _ h =>
      unfold ofNamed at h
      split at h
      · cases h
        rfl
      · cases h

namespace Scope

/-- An identifier is a wanted spelling or a numbered form of it. -/
def Spells (wish ident : String) : Prop :=
  ident = wish ∨ ∃ k, 1 ≤ k ∧ ident = numbered wish k

theorem length_lowerAscii_numbered (wish : String) (k : Nat) :
    (lowerAscii wish).length < (lowerAscii (numbered wish k)).length := by
  simp only [lowerAscii, numbered, String.length_ofList, List.length_map, String.toList_append,
    List.length_append]
  simp

/-- Forms of one spelling that agree up to case are the same. -/
theorem Spells.eq_of_lowerAscii {wish a b : String} (ha : Spells wish a) (hb : Spells wish b)
    (h : lowerAscii a = lowerAscii b) : a = b := by
  rcases ha with rfl | ⟨j, -, rfl⟩ <;> rcases hb with rfl | ⟨k, -, rfl⟩
  · rfl
  · have hlength := length_lowerAscii_numbered a k
    rw [h] at hlength
    omega
  · have hlength := length_lowerAscii_numbered b j
    rw [h] at hlength
    omega
  · rw [numbered_injective h]

theorem exists_firstFree (scope : Scope) (desired : String) (tries attempt : Nat) :
    ∃ k, attempt ≤ k ∧ scope.firstFree desired tries attempt = numbered desired k := by
  induction tries generalizing attempt with
  | zero => exact ⟨attempt, Nat.le_refl attempt, rfl⟩
  | succ tries ih =>
      unfold firstFree
      split
      · obtain ⟨k, hk, hfree⟩ := ih (attempt + 1)
        exact ⟨k, by omega, hfree⟩
      · exact ⟨attempt, Nat.le_refl attempt, rfl⟩

theorem occupant?_introduce {scope : Scope} {category : NameCategory} {key ident other : String} :
    (scope.introduce category key ident).occupant? other =
      if lowerAscii other = lowerAscii ident then some (.own category)
      else scope.occupant? other := by
  split
  next hsame => simp [occupant?, introduce, adopt, occupy, hsame]
  next hne =>
    simp [occupant?, introduce, adopt, occupy, List.lookup_cons, beq_eq_false_iff_ne.mpr hne]

/-- A wanted spelling is given as it is if nobody holds it, and numbered if somebody holds it
who is not an included mixin. -/
theorem free_cases {scope : Scope} {desired ident : String}
    (h : scope.free desired = .ok ident) :
    (scope.occupant? desired = none ∧ ident = desired) ∨
    ∃ occupant, scope.occupant? desired = some occupant ∧
      (∀ category mixin, occupant ≠ .included category mixin) ∧
      ∃ k, 1 ≤ k ∧ ident = numbered desired k := by
  unfold free at h
  split at h
  next hnone => exact Or.inl ⟨hnone, (Except.ok.inj h).symm⟩
  next => cases h
  next occupant hnever hocc =>
    obtain ⟨k, hk, hfree⟩ := exists_firstFree scope desired scope.used.length 1
    rw [hfree, Except.ok.injEq] at h
    exact Or.inr ⟨occupant, hocc, hnever, k, hk, h.symm⟩

/-! ## who holds an identifier -/

/-- At first only reserved words are held. -/
theorem occupant?_start {definition ident : String} {occupant : Occupant}
    (h : (start definition).occupant? ident = some occupant) :
    occupant = .builtin ∧
      ∃ word ∈ Identifier.reserved, lowerAscii ident = lowerAscii word := by
  obtain ⟨front, back, hsplit, -⟩ := List.lookup_eq_some_iff.mp h
  have hmem : (lowerAscii ident, occupant) ∈ (start definition).used := by
    rw [hsplit]
    exact List.mem_append_right front List.mem_cons_self
  obtain ⟨word, hword, hpair⟩ := List.mem_map.mp hmem
  obtain ⟨hident, rfl⟩ := Prod.mk.inj hpair
  exact ⟨rfl, word, hword, hident.symm⟩

/-- Who holds an identifier after a name was taken over held it before, or got it with the
name. -/
theorem occupant?_of_fold {scope scope' : Scope} {included : Bool} {origin ident : String}
    {name : Reservation} {occupant : Occupant}
    (h : scope.fold included origin name = .ok scope')
    (hocc : scope'.occupant? ident = some occupant) :
    scope.occupant? ident = some occupant ∨ lowerAscii ident = lowerAscii name.ident ∧
      occupant = if included then .included name.category origin else .inherited name.category := by
  rcases fold_ok h with ⟨-, rfl⟩ | ⟨-, rfl⟩
  · have hread : (scope.occupy name.ident (if included then .included name.category origin
        else .inherited name.category)).occupant? ident = some occupant := by
      simpa only [occupant?, used_noteStructural] using hocc
    by_cases hsame : lowerAscii ident = lowerAscii name.ident
    · rw [occupant?_occupy_self _ hsame, Option.some.injEq] at hread
      exact Or.inr ⟨hsame, hread.symm⟩
    · rw [occupant?_occupy_of_ne _ hsame] at hread
      exact Or.inl hread
  · exact Or.inl hocc

end Scope

/-- How an identifier came to its holder in a scope that a definition has taken names over
into, and nothing else. -/
def Occupant.ComesFrom (c : Catalog) (map : NameMap) (d : Definition) (ident : String) :
    Occupant → Prop
  | .builtin => ∃ word ∈ Identifier.reserved, lowerAscii ident = lowerAscii word
  | .own _ => False
  | .inherited _ => ∃ origin ∈ c.above d, ∃ a ∈ map.reservations origin,
      lowerAscii ident = lowerAscii a.ident
  | .included _ mixin => mixin ∈ c.beside d ∧ ∃ a ∈ map.reservations mixin,
      lowerAscii ident = lowerAscii a.ident

namespace Scope

variable {c : Catalog} {map : NameMap} {d : Definition} {scope scope' : Scope}

/-- Every identifier in use has a known origin. -/
def Accounted (c : Catalog) (map : NameMap) (d : Definition) (scope : Scope) : Prop :=
  ∀ ident occupant, scope.occupant? ident = some occupant → occupant.ComesFrom c map d ident

theorem accounted_start : Accounted c map d (start d.name) := by
  intro ident occupant h
  obtain ⟨rfl, hword⟩ := occupant?_start h
  exact hword

/-- Taking over one name keeps the account. -/
theorem Accounted.fold {included : Bool} {origin : String} {name : Reservation}
    (h : Accounted c map d scope)
    (horigin : origin ∈ if included then c.beside d else c.above d)
    (hname : name ∈ map.reservations origin)
    (hfold : scope.fold included origin name = .ok scope') : Accounted c map d scope' := by
  intro ident occupant hholds
  rcases occupant?_of_fold hfold hholds with hold | ⟨hsame, rfl⟩
  · exact h ident occupant hold
  · cases included with
    | false => exact ⟨origin, horigin, name, hname, hsame⟩
    | true => exact ⟨horigin, name, hname, hsame⟩

/-- The holder of an identifier tells how it was reached. -/
theorem accounted_foldMixins (h : (start d.name).foldMixins c map d = .ok scope) :
    Accounted c map d scope := by
  refine foldMixins_inv (P := Accounted c map d) ?_ accounted_start h
  intro included origin horigin name hname before after hbefore hstep
  exact hbefore.fold horigin hname hstep

namespace Grown

variable {found : NameCategory → String → Option String} {requests : List NameRequest}
  {base scope : Scope} {ident : String} {occupant : Occupant}

/-- Who held an identifier before the first request still holds it. -/
theorem occupant_of_base (h : Grown found requests base scope)
    (hocc : base.occupant? ident = some occupant) : scope.occupant? ident = some occupant := by
  induction h with
  | base => exact hocc
  | share h hasked hnoted ih => exact ih
  | inherit h hasked hfound ih => exact ih
  | @introduce scope request category key fresh h hasked htarget hnew hfree hprotocol ih =>
      have hne : lowerAscii ident ≠ lowerAscii fresh := by
        intro hsame
        rw [← isUsed_congr hsame, isUsed, ih] at hfree
        cases hfree
      rw [occupant?_introduce, if_neg hne]
      exact ih

/-- Whoever holds an identifier held it before the first request, or it was introduced. -/
theorem occupant_source (h : Grown found requests base scope)
    (hocc : scope.occupant? ident = some occupant) :
    base.occupant? ident = some occupant ∨
      ∃ a ∈ scope.table.introduced, lowerAscii ident = lowerAscii a.ident := by
  induction h with
  | base => exact Or.inl hocc
  | share h hasked hnoted ih => exact ih hocc
  | inherit h hasked hfound ih => exact ih hocc
  | @introduce scope request category key fresh h hasked htarget hnew hfree hprotocol ih =>
      rw [introduced_introduce]
      by_cases hsame : lowerAscii ident = lowerAscii fresh
      · exact Or.inr ⟨⟨category, fresh⟩, by simp, hsame⟩
      · rw [occupant?_introduce, if_neg hsame] at hocc
        rcases ih hocc with hbase | ⟨a, ha, hident⟩
        · exact Or.inl hbase
        · exact Or.inr ⟨a, List.mem_append_left _ ha, hident⟩

end Grown

/-! ## the turn of a request -/

/-- A request introduces at most one name, for what it is for and in a free form of the
spelling it wants. -/
theorem grant_introduced {request : NameRequest} (h : scope.grant c map d request = .ok scope') :
    scope'.table.introduced = scope.table.introduced ∨
    ∃ desired ident, request.desired? = some desired ∧ scope.free desired = .ok ident ∧
      scope'.table.introduced = scope.table.introduced ++ [⟨request.target.1, ident⟩] := by
  rcases grant_ok h with ⟨ident, rfl⟩ | ⟨desired, hdesired, hreserve⟩ | ⟨category, -, -, rfl⟩
  · exact Or.inl rfl
  · rcases reserve_ok hreserve with rfl | ⟨ident, -, hfree, rfl⟩
    · exact Or.inl rfl
    · exact Or.inr ⟨desired, ident, hdesired, hfree, introduced_introduce ..⟩
  · exact Or.inl rfl

/-- What has been introduced stays, in its order. -/
theorem introduced_prefix {requests : List NameRequest}
    (h : requests.foldlM (Scope.grant c map d) scope = .ok scope') :
    scope.table.introduced <+: scope'.table.introduced := by
  refine foldlM_ok_inv (P := fun s => scope.table.introduced <+: s.table.introduced) ?_
    (List.prefix_refl _) h
  intro request _ before after hbefore hgrant
  rcases grant_introduced hgrant with hsame | ⟨desired, ident, -, -, hnew⟩
  · rw [hsame]
    exact hbefore
  · rw [hnew]
    exact hbefore.trans (List.prefix_append _ _)

/-- Every name that a run introduces is introduced in the turn of one of its requests. -/
theorem exists_turn {requests : List NameRequest} {earlier : List Reservation} {a : Reservation}
    (hempty : scope.table.introduced = [])
    (h : requests.foldlM (Scope.grant c map d) scope = .ok scope')
    (hstarts : earlier ++ [a] <+: scope'.table.introduced) :
    ∃ before request after middle next, requests = before ++ request :: after ∧
      before.foldlM (Scope.grant c map d) scope = .ok middle ∧
      middle.grant c map d request = .ok next ∧ middle.table.introduced = earlier ∧
      next.table.introduced = earlier ++ [a] := by
  induction requests using List.reverseRecOn generalizing scope' with
  | nil =>
      rw [List.foldlM_nil, pure_eq_ok] at h
      rw [← h, hempty] at hstarts
      simp at hstarts
  | append_singleton requests request ih =>
      simp only [List.foldlM_append, List.foldlM_cons, List.foldlM_nil, bind_eq_ok,
        pure_eq_ok] at h
      obtain ⟨middle, hmiddle, next, hgrant, rfl⟩ := h
      have hearlier : earlier ++ [a] <+: middle.table.introduced → _ := ih hmiddle
      rcases grant_introduced hgrant with hsame | ⟨desired, ident, -, -, hnew⟩
      · obtain ⟨before, other, after, hturn⟩ := hearlier (hsame ▸ hstarts)
        obtain ⟨first, second, hsplit, hrest⟩ := hturn
        exact ⟨before, other, after ++ [request], first, second, by simp [hsplit], hrest⟩
      · rw [hnew, List.prefix_concat_iff] at hstarts
        rcases hstarts with hlast | hbefore
        · rw [← hlast] at hnew
          obtain ⟨hfront, -⟩ := List.append_inj' hlast rfl
          exact ⟨requests, request, [], middle, next, rfl, hmiddle, hgrant, hfront.symm, hnew⟩
        · obtain ⟨before, other, after, first, second, hsplit, hrest⟩ := hearlier hbefore
          exact ⟨before, other, after ++ [request], first, second, by simp [hsplit], hrest⟩

/-- Why a spelling that is handed out is not the one that was wanted. -/
theorem Accounted.free {base : Scope} {requests : List NameRequest}
    {found : NameCategory → String → Option String} {wish ident : String}
    (hbase : Accounted c map d base) (hgrown : Grown found requests base scope)
    (h : scope.free wish = .ok ident) :
    Spells wish ident ∧
    (ident ≠ wish → (∃ word ∈ Identifier.reserved, lowerAscii wish = lowerAscii word) ∨
      (∃ a ∈ scope.table.introduced, lowerAscii wish = lowerAscii a.ident) ∨
      ∃ origin ∈ c.above d, ∃ a ∈ map.reservations origin,
        lowerAscii wish = lowerAscii a.ident) ∧
    ∀ name category mixin, base.occupant? name = some (.included category mixin) →
      lowerAscii wish ≠ lowerAscii name := by
  have hheld : ∀ name category mixin, base.occupant? name = some (.included category mixin) →
      lowerAscii wish = lowerAscii name →
      scope.occupant? wish = some (.included category mixin) := by
    intro name category mixin hname hsame
    rw [occupant?, hsame]
    exact hgrown.occupant_of_base hname
  rcases free_cases h with ⟨hnone, rfl⟩ | ⟨occupant, hocc, hnever, k, hk, rfl⟩
  · refine ⟨Or.inl rfl, fun hne => absurd rfl hne, ?_⟩
    intro name category mixin hname hsame
    rw [hheld name category mixin hname hsame] at hnone
    cases hnone
  · refine ⟨Or.inr ⟨k, hk, rfl⟩, fun _ => ?_, ?_⟩
    · rcases hgrown.occupant_source hocc with hold | hown
      · have hfrom := hbase wish occupant hold
        cases occupant with
        | builtin => exact Or.inl hfrom
        | own category => exact hfrom.elim
        | inherited category => exact Or.inr (Or.inr hfrom)
        | included category mixin => exact absurd rfl (hnever category mixin)
      · exact Or.inr (Or.inl hown)
    · intro name category mixin hname hsame
      rw [hheld name category mixin hname hsame, Option.some.injEq] at hocc
      exact hnever category mixin hocc.symm

end Scope

/-- While the names of a definition are chosen, and after the names `earlier` have been
introduced, one of its requests introduces `ident` for a category and key. -/
def Definition.Reserves (c : Catalog) (map : NameMap) (d : Definition)
    (earlier : List Reservation) (category : NameCategory) (key ident : String) : Prop :=
  ∃ kind members before request after base scope scope',
    NameRequest.ofKind c d = .ok kind ∧ NameRequest.ofMembers c d = .ok members ∧
    kind ++ members = before ++ request :: after ∧ request.target = (category, key) ∧
    (Scope.start d.name).foldMixins c map d = .ok base ∧
    before.foldlM (Scope.grant c map d) base = .ok scope ∧
    scope.grant c map d request = .ok scope' ∧
    scope.table.introduced = earlier ∧ scope'.table.introduced = earlier ++ [⟨category, ident⟩]

namespace Definition

variable {c : Catalog} {map : NameMap} {d : Definition} {earlier : List Reservation}

/-- The names that a definition introduces are those that its requests reserve, in order. -/
theorem reserves_iff_prefix {table : NameTable} (h : NameTable.of c map d = .ok table)
    {a : Reservation} :
    (∃ key, d.Reserves c map earlier a.category key a.ident) ↔
      earlier ++ [a] <+: table.introduced := by
  obtain ⟨kind, members, base, final, hkind, hmembers, hbase, hrun, rfl⟩ := NameTable.of_run h
  constructor
  · rintro ⟨key, kind', members', before, request, after, base', scope, scope', hkind', hmembers',
      hsplit, -, hbase', hbefore, hgrant, -, hnew⟩
    rw [hkind, Except.ok.injEq] at hkind'
    rw [hmembers, Except.ok.injEq] at hmembers'
    rw [hbase, Except.ok.injEq] at hbase'
    subst hkind' hmembers' hbase'
    simp only [hsplit, List.foldlM_append, List.foldlM_cons, bind_eq_ok, hbefore, hgrant,
      Except.ok.injEq, exists_eq_left'] at hrun
    rw [← hnew]
    exact Scope.introduced_prefix hrun
  · intro hstarts
    have hempty : base.table.introduced = [] := by rw [(Scope.Folded.foldMixins hbase).table]
    obtain ⟨before, request, after, scope, scope', hsplit, hbefore, hgrant, hearlier, hnew⟩ :=
      Scope.exists_turn hempty hrun hstarts
    refine ⟨request.target.2, kind, members, before, request, after, base, scope, scope', hkind,
      hmembers, hsplit, ?_, hbase, hbefore, hgrant, hearlier, hnew⟩
    rcases Scope.grant_introduced hgrant with hsame | ⟨desired, ident, -, -, hgiven⟩
    · rw [hnew, hearlier] at hsame
      simp at hsame
    · rw [hnew, hearlier, List.append_cancel_left_eq, List.cons.injEq] at hgiven
      rw [hgiven.1]

/-- The request of a definition at a place, with what was introduced before and after it. -/
def turn? (c : Catalog) (map : NameMap) (d : Definition) (place : Nat) :
    Except Error (Option (NameRequest × List Reservation × List Reservation)) := do
  let kind ← NameRequest.ofKind c d
  let members ← NameRequest.ofMembers c d
  let base ← (Scope.start d.name).foldMixins c map d
  let scope ← ((kind ++ members).take place).foldlM (Scope.grant c map d) base
  match (kind ++ members)[place]? with
  | none => return none
  | some request =>
    let next ← scope.grant c map d request
    return some (request, scope.table.introduced, next.table.introduced)

theorem reserves_of_turn? {place : Nat} {request : NameRequest} {category : NameCategory}
    {key ident : String}
    (h : d.turn? c map place = .ok (some (request, earlier, earlier ++ [⟨category, ident⟩])))
    (htarget : request.target = (category, key)) :
    d.Reserves c map earlier category key ident := by
  simp only [turn?, bind_eq_ok] at h
  obtain ⟨kind, hkind, members, hmembers, base, hbase, scope, hscope, h⟩ := h
  split at h
  next => cases h
  next found hfound =>
    simp only [bind_eq_ok, pure_eq_ok, Option.some.injEq, Prod.mk.injEq] at h
    obtain ⟨next, hnext, rfl, hearlier, hnew⟩ := h
    obtain ⟨hplace, hrequest⟩ := List.getElem?_eq_some_iff.mp hfound
    have hsplit : kind ++ members = (kind ++ members).take place ++
        found :: (kind ++ members).drop (place + 1) := by
      rw [← hrequest, List.getElem_cons_drop, List.take_append_drop]
    exact ⟨kind, members, _, found, _, base, scope, next, hkind, hmembers, hsplit, htarget, hbase,
      hscope, hnext, hearlier, hnew⟩

/-- What is behind a name that a definition reserves. -/
theorem Reserves.explained {category : NameCategory} {key ident : String}
    (h : d.Reserves c map earlier category key ident) :
    ∃ wish base, category.wanted? key = some wish ∧
      (Scope.start d.name).foldMixins c map d = .ok base ∧ Scope.Spells wish ident ∧
      (ident ≠ wish → (∃ word ∈ Identifier.reserved, lowerAscii wish = lowerAscii word) ∨
        (∃ a ∈ earlier, lowerAscii wish = lowerAscii a.ident) ∨
        ∃ origin ∈ c.above d, ∃ a ∈ map.reservations origin,
          lowerAscii wish = lowerAscii a.ident) ∧
      ∀ name category mixin, base.occupant? name = some (.included category mixin) →
        lowerAscii wish ≠ lowerAscii name := by
  obtain ⟨kind, members, before, request, after, base, scope, scope', hkind, hmembers, hsplit,
    htarget, hbase, hbefore, hgrant, rfl, hnew⟩ := h
  have hmade := NameRequest.made_of_run hkind hmembers request (by simp [hsplit])
  rcases Scope.grant_introduced hgrant with hsame | ⟨wish, given, hwish, hfree, hgiven⟩
  · rw [hnew] at hsame
    simp at hsame
  · rw [hnew, List.append_cancel_left_eq, List.cons.injEq, Reservation.mk.injEq] at hgiven
    obtain ⟨⟨-, rfl⟩, -⟩ := hgiven
    rw [hmade.desired?_eq, htarget] at hwish
    exact ⟨wish, base, hwish, hbase,
      (Scope.accounted_foldMixins hbase).free (Scope.Grown.of_grants hbefore) hfree⟩

end Definition

/-! ## names of a registry -/

namespace Resolver.Settled

variable {c : Catalog} {map : NameMap}

/-- A name that was introduced is a form of a spelling that is wanted for its category. -/
theorem spelled (h : Settled c map) {name : String} (hname : (map.table? name).isSome = true)
    {a : Reservation} (ha : a ∈ map.reservations name) :
    ∃ key wish, a.category.wanted? key = some wish ∧ Scope.Spells wish a.ident := by
  obtain ⟨table, htable⟩ := Option.isSome_iff_exists.mp hname
  obtain ⟨d, -, hof⟩ := h.table_of htable
  rw [NameMap.reservations, htable] at ha
  obtain ⟨earlier, later, hsplit⟩ := List.append_of_mem ha
  have hstarts : earlier ++ [a] <+: table.introduced := ⟨later, by simpa using hsplit.symm⟩
  obtain ⟨key, hreserves⟩ := (Definition.reserves_iff_prefix hof).mpr hstarts
  obtain ⟨wish, -, hwish, -, hspells, -⟩ := hreserves.explained
  exact ⟨key, wish, hwish, hspells⟩

/-- Structural names of one category that agree up to case are the same. -/
theorem eq_of_structural (h : Settled c map) {x y : String}
    (hx : (map.table? x).isSome = true) (hy : (map.table? y).isSome = true) {a b : Reservation}
    (ha : a ∈ map.reservations x) (hb : b ∈ map.reservations y)
    (hcategory : a.category = b.category) (hstructural : a.category.isStructural = true)
    (hsame : lowerAscii a.ident = lowerAscii b.ident) : a.ident = b.ident := by
  obtain ⟨key, wish, hwish, hspells⟩ := h.spelled hx ha
  obtain ⟨key', wish', hwish', hspells'⟩ := h.spelled hy hb
  rw [NameCategory.wanted?_of_isStructural hstructural] at hwish
  rw [← hcategory, NameCategory.wanted?_of_isStructural hstructural, hwish,
    Option.some.injEq] at hwish'
  subst hwish'
  exact hspells.eq_of_lowerAscii hspells' hsame

/-- What is reached through includes, and is not also introduced above, belongs to an included
mixin. -/
theorem held_by_mixin (hc : c.WellFormed) (h : Settled c map) {d : Definition}
    (hd : c.get? d.name = some d) (hname : (map.table? d.name).isSome = true) {base : Scope}
    (hbase : (Scope.start d.name).foldMixins c map d = .ok base) {x : String}
    (hx : c.Beyond d.name x) {b : Reservation} (hb : b ∈ map.reservations x)
    (hother : ∀ y ∈ c.above d, ∀ a ∈ map.reservations y, a.ident ≠ b.ident) :
    ∃ category mixin, base.occupant? b.ident = some (.included category mixin) := by
  have hvisible := (mem_above_or_beside hc h hd hname).mpr hx
  obtain ⟨occupant, hocc, hcategory⟩ := (Scope.Folded.foldMixins hbase).holder b
    (List.mem_flatMap.mpr ⟨x, hvisible, hb⟩)
  have hfrom := Scope.accounted_foldMixins hbase b.ident occupant hocc
  cases occupant with
  | builtin => cases hcategory
  | own category => exact hfrom.elim
  | included category mixin => exact ⟨category, mixin, hocc⟩
  | inherited category =>
      -- the name of the parent's side would stand for the same structural method
      obtain ⟨y, hy, a, ha, hsame⟩ := hfrom
      have hbeyond : c.Beyond d.name y :=
        (mem_above_or_beside hc h hd hname).mp (List.mem_append_left _ hy)
      have hrx := hx.to_reflTransGen
      have hry := hbeyond.to_reflTransGen
      have hident : a.ident = b.ident := by
        rcases meet hc h hname hry hrx ha hb hsame.symm with ⟨-, rfl⟩ | ⟨-, hone, hstructural⟩
        · rfl
        · exact h.eq_of_structural (h.reaches hname hry) (h.reaches hname hrx) ha hb hone
            hstructural hsame.symm
      exact absurd hident (hother y hy a ha)

end Resolver.Settled

namespace Registry

open Resolver (Settled)

variable {options : IngestOptions} {nodes : List Node} {r : Registry}

/-- **Renaming happens only around reserved, own and inherited names.**  The names that a
definition introduces are those that its requests reserve, in order.  Each is the wanted
spelling or a numbered form of it.  If it is not the wanted spelling, that one is a reserved
word, was reserved by the definition before, or is introduced by something that the parent
reaches; and no name that is introduced by something that an included mixin reaches, and by
nothing that the parent reaches, is the wanted spelling. -/
theorem renaming_avoids_inherited_names (h : build options nodes = .ok r) {d : Definition}
    (hd : d ∈ r.definitions) :
    (∀ earlier a, (∃ key, d.Reserves r.toCatalog r.names earlier a.category key a.ident) ↔
      earlier ++ [a] <+: r.names.reservations d.name) ∧
    ∀ earlier category key ident, d.Reserves r.toCatalog r.names earlier category key ident →
      ∃ wish, category.wanted? key = some wish ∧
        (ident = wish ∨ ∃ k, 1 ≤ k ∧ ident = Scope.numbered wish k) ∧
        (ident ≠ wish →
          (∃ word ∈ Identifier.reserved, sameIgnoringCase wish word = true) ∨
          (∃ a ∈ earlier, sameIgnoringCase wish a.ident = true) ∨
          ∃ parent ∈ d.parent, ∃ x, r.toCatalog.Reaches parent x ∧
            ∃ a ∈ r.names.reservations x, sameIgnoringCase wish a.ident = true) ∧
        ∀ mixin ∈ r.included d.name, ∀ x, r.toCatalog.Reaches mixin x →
          ∀ b ∈ r.names.reservations x,
            (∀ parent ∈ d.parent, ∀ y, r.toCatalog.Reaches parent y →
              ∀ a ∈ r.names.reservations y, a.ident ≠ b.ident) →
            sameIgnoringCase wish b.ident = false := by
  obtain ⟨hsettled, -⟩ := settled_of_build h
  have hc := wellFormed_of_build h
  have hget := hc.get?_of_mem hd
  obtain ⟨table, htable, hof⟩ := table_of_build h hd
  have habove : ∀ x, x ∈ r.toCatalog.above d ↔ ∃ parent ∈ d.parent, r.toCatalog.Reaches parent x :=
    fun x => hc.mem_above_iff hget (acyclic_of_build h d.name)
  constructor
  · intro earlier a
    rw [Definition.reserves_iff_prefix hof, NameMap.reservations, htable]
    rfl
  · intro earlier category key ident hreserves
    obtain ⟨wish, base, hwish, hbase, hspells, hcause, hfree⟩ := hreserves.explained
    refine ⟨wish, hwish, hspells, ?_, ?_⟩
    · intro hne
      simp only [sameIgnoringCase_iff]
      rcases hcause hne with hword | hown | ⟨x, hx, a, ha, hsame⟩
      · exact Or.inl hword
      · exact Or.inr (Or.inl hown)
      · obtain ⟨parent, hparent, hpath⟩ := (habove x).mp hx
        exact Or.inr (Or.inr ⟨parent, hparent, x, hpath, a, ha, hsame⟩)
    · intro mixin hmixin x hx b hb hother
      have hbeyond : r.toCatalog.Beyond d.name x :=
        TransGen.head' (Catalog.edge_included hmixin) hx
      have hname := resolved_of_reaches h hd ReflTransGen.refl
      obtain ⟨held, holder, hocc⟩ := hsettled.held_by_mixin hc hget hname hbase hbeyond hb
        fun y hy a ha => by
          obtain ⟨parent, hparent, hpath⟩ := (habove y).mp hy
          exact hother parent hparent y hpath a ha
      rw [Bool.eq_false_iff, ne_eq, sameIgnoringCase_iff]
      exact hfree b.ident held holder hocc

/-- A child goes around the getter of its parent, since a getter of that name is inherited. -/
theorem child_goes_around_getLength :
    ∃ r d, build {} sampleNodes = .ok r ∧ d ∈ r.definitions ∧ d.name = "Child" ∧
      d.Reserves r.toCatalog r.names [] .getter "length" "_1_getLength" ∧
      NameCategory.wanted? .getter "length" = some "getLength" ∧
      [⟨.getter, "_1_getLength"⟩] <+: r.names.reservations d.name ∧
      ∃ parent ∈ d.parent, ∃ x, r.toCatalog.Reaches parent x ∧
        ∃ a ∈ r.names.reservations x, sameIgnoringCase "getLength" a.ident = true := by
  have hbuild : (build {} sampleNodes).toOption.map (fun r => (r.get? "Child").bind fun d =>
      (d.turn? r.toCatalog r.names 6).toOption) =
      some (some (some (.own .getter "length" "getLength", [], [⟨.getter, "_1_getLength"⟩]))) := by
    decide +kernel
  obtain ⟨r, hr, hfacts⟩ := ok_of_toOption_map hbuild
  obtain ⟨d, hget, hfacts⟩ := Option.bind_eq_some_iff.mp hfacts
  obtain ⟨_, hturn, rfl⟩ := ok_of_toOption_map (f := id) (by simpa using hfacts)
  have hd := Catalog.mem_of_get? hget
  have hname := Catalog.name_of_get? hget
  have hreserves : d.Reserves r.toCatalog r.names [] .getter "length" "_1_getLength" :=
    Definition.reserves_of_turn? hturn rfl
  obtain ⟨hstarts, hall⟩ := renaming_avoids_inherited_names hr hd
  obtain ⟨wish, hwish, -, hcause, -⟩ := hall [] .getter "length" "_1_getLength" hreserves
  have hwanted : NameCategory.wanted? .getter "length" = some "getLength" := by decide +kernel
  rw [hwanted, Option.some.injEq] at hwish
  subst hwish
  refine ⟨r, d, hr, hd, hname, hreserves, hwanted,
    (hstarts [] ⟨.getter, "_1_getLength"⟩).mp ⟨"length", hreserves⟩, ?_⟩
  rcases hcause (by decide) with ⟨word, hword, hsame⟩ | ⟨a, ha, -⟩ | hparent
  · have hnone : ∀ word ∈ Identifier.reserved, sameIgnoringCase "getLength" word = false := by
      decide +kernel
    rw [hnone word hword] at hsame
    cases hsame
  · cases ha
  · exact hparent

end Registry

end WebIdl
