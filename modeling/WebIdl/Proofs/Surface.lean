import WebIdl.Feature
import WebIdl.Proofs.Graph

/-!
# WebIdl.Proofs.Surface

The surface of a definition and what it amounts to.

The definitions whose members are on the surface are the definition itself and all it
includes, directly or not (`mem_owners_iff`).  Every feature starts at a member
(`Feature.starts_of_mem`), and members of different definitions never belong to one
feature, so the features of a surface are those of each of these definitions one after
the other (`features_surface`).
-/

namespace WebIdl

open Relation

/-! ## features of several definitions -/

namespace Feature

/-- What had its turn before matters only for the owners that are still to come. -/
theorem ofMembersAfter_congr {operations operations' : List (String × String)}
    {constructors constructors' : List String} {items : List SurfaceMember}
    (hop : ∀ item ∈ items, ∀ name,
      operations.contains (item.owner.name, name) = operations'.contains (item.owner.name, name))
    (hctor : ∀ item ∈ items,
      constructors.contains item.owner.name = constructors'.contains item.owner.name) :
    ofMembersAfter operations constructors items =
      ofMembersAfter operations' constructors' items := by
  induction items generalizing operations operations' constructors constructors' with
  | nil => rfl
  | cons item rest ih =>
      have hrest := ih (fun other hother => hop other (List.mem_cons_of_mem item hother))
        (fun other hother => hctor other (List.mem_cons_of_mem item hother))
      rw [ofMembersAfter, ofMembersAfter]
      cases hkind : item.member.kind with
      | constant decl => simp only [hrest]
      | «attribute» decl => simp only [hrest]
      | field decl => simp only [hrest]
      | iterable decl => simp only [hrest]
      | operation decl =>
          obtain ⟨name, signature, special⟩ := decl
          cases name with
          | none => simp only [hrest]
          | some name =>
              have hsame := hop item List.mem_cons_self name
              have hnext :
                  ofMembersAfter ((item.owner.name, name) :: operations) constructors rest =
                  ofMembersAfter ((item.owner.name, name) :: operations') constructors' rest := by
                refine ih (fun other hother key => ?_)
                  (fun other hother => hctor other (List.mem_cons_of_mem item hother))
                rw [List.contains_cons, List.contains_cons,
                  hop other (List.mem_cons_of_mem item hother)]
              simp only [hsame, hrest, hnext]
      | constructor arguments =>
          have hsame := hctor item List.mem_cons_self
          have hnext : ofMembersAfter operations (item.owner.name :: constructors) rest =
              ofMembersAfter operations' (item.owner.name :: constructors') rest := by
            refine ih (fun other hother => hop other (List.mem_cons_of_mem item hother))
              (fun other hother => ?_)
            rw [List.contains_cons, List.contains_cons,
              hctor other (List.mem_cons_of_mem item hother)]
          simp only [hsame, hrest, hnext]

/-- The features of one definition's members come before those of the others. -/
theorem ofMembersAfter_append {d : Definition} {operations : List (String × String)}
    {constructors : List String} {items rest : List SurfaceMember}
    (hitems : ∀ item ∈ items, item.owner = d) (hrest : ∀ item ∈ rest, item.owner.name ≠ d.name) :
    ofMembersAfter operations constructors (items ++ rest) =
      ofMembersAfter operations constructors items ++
        ofMembersAfter operations constructors rest := by
  have hoverload : ∀ name, rest.filterMap (overload? d.name name) = [] := by
    intro name
    rw [List.filterMap_eq_nil_iff]
    intro item hitem
    rw [overload?]
    split
    · simp [beq_eq_false_iff_ne.mpr (hrest item hitem)]
    · rfl
  have hconstructor : rest.filterMap (constructor? d.name) = [] := by
    rw [List.filterMap_eq_nil_iff]
    intro item hitem
    rw [constructor?]
    split
    · simp [beq_eq_false_iff_ne.mpr (hrest item hitem)]
    · rfl
  induction items generalizing operations constructors with
  | nil => rfl
  | cons item items ih =>
      have howner := hitems item List.mem_cons_self
      have hnext : ∀ operations constructors,
          ofMembersAfter operations constructors (items ++ rest) =
          ofMembersAfter operations constructors items ++
            ofMembersAfter operations constructors rest := fun operations constructors =>
        ih fun other hother => hitems other (List.mem_cons_of_mem item hother)
      rw [List.cons_append, ofMembersAfter, ofMembersAfter]
      cases hkind : item.member.kind with
      | constant decl => simp only [hnext, List.cons_append]
      | «attribute» decl => simp only [hnext, List.cons_append]
      | field decl => simp only [hnext, List.cons_append]
      | iterable decl => simp only [hnext, List.cons_append]
      | operation decl =>
          obtain ⟨name, signature, special⟩ := decl
          cases name with
          | none => simp only [hnext, List.cons_append]
          | some name =>
              -- the operation of this definition has its turn, which nobody else notices
              have hturn : ofMembersAfter ((d.name, name) :: operations) constructors rest =
                  ofMembersAfter operations constructors rest := by
                refine ofMembersAfter_congr (fun other hother key => ?_) fun _ _ => rfl
                have hne : ((other.owner.name, key) == (d.name, name)) = false := by
                  rw [beq_eq_false_iff_ne]
                  exact fun hsame => hrest other hother (Prod.mk.inj hsame).1
                rw [List.contains_cons, hne, Bool.false_or]
              simp only [howner, hnext, hturn, List.filterMap_append, hoverload, List.append_nil]
              split
              · rfl
              · rfl
      | constructor arguments =>
          have hturn : ofMembersAfter operations (d.name :: constructors) rest =
              ofMembersAfter operations constructors rest := by
            refine ofMembersAfter_congr (fun _ _ _ => rfl) fun other hother => ?_
            rw [List.contains_cons, beq_eq_false_iff_ne.mpr (hrest other hother), Bool.false_or]
          simp only [howner, hnext, hturn, List.filterMap_append, hconstructor, List.append_nil]
          split
          · rfl
          · rfl

/-- Members of different definitions never belong to one feature. -/
theorem ofMembers_flatMap {owners : List Definition} (h : (owners.map (·.name)).Nodup) :
    ofMembers (owners.flatMap Definition.ownMembers) =
      owners.flatMap fun d => ofMembers d.ownMembers := by
  induction owners with
  | nil => rfl
  | cons d owners ih =>
      rw [List.map_cons, List.nodup_cons] at h
      rw [List.flatMap_cons, List.flatMap_cons, ← ih h.2]
      refine ofMembersAfter_append (d := d) ?_ ?_
      · intro item hitem
        obtain ⟨member, -, rfl⟩ := List.mem_map.mp hitem
        rfl
      · intro item hitem hsame
        obtain ⟨owner, howner, hitem⟩ := List.mem_flatMap.mp hitem
        obtain ⟨member, -, rfl⟩ := List.mem_map.mp hitem
        exact h.1 (hsame ▸ List.mem_map_of_mem howner)

/-! ## features of one member -/

/-- The definition that a feature belongs to. -/
def owner : Feature → Definition
  | .constant owner _ => owner
  | .attribute decl => decl.owner
  | .field decl => decl.owner
  | .operation group => group.owner
  | .iterable owner _ => owner
  | .constructors owner _ => owner

/-- The feature that a member is by itself; operations and constructors may belong
together with others. -/
def single? (item : SurfaceMember) : Option Feature :=
  match item.member.kind with
  | .constant decl => some (.constant item.owner decl)
  | .attribute decl => some (.attribute { owner := item.owner, decl, attrs := item.member.attrs })
  | .field decl => some (.field { owner := item.owner, decl })
  | .iterable decl => some (.iterable item.owner decl)
  | .operation _ => none
  | .constructor _ => none

/-- What had its turn before. -/
def Done (operations : List (String × String)) (constructors : List String) :
    String × Option String → Prop
  | (owner, some name) => (owner, name) ∈ operations
  | (owner, none) => owner ∈ constructors

/-- A member starts at most one feature. -/
theorem ofMembersAfter_cons (operations : List (String × String)) (constructors : List String)
    (item : SurfaceMember) (rest : List SurfaceMember) :
    ∃ first operations' constructors',
      ofMembersAfter operations constructors (item :: rest) =
        first.toList ++ ofMembersAfter operations' constructors' rest ∧
      ∀ feature, single? item = some feature → first = some feature := by
  rw [ofMembersAfter]
  cases hkind : item.member.kind with
  | constant decl => exact ⟨some _, _, _, rfl, by simp [single?, hkind]⟩
  | «attribute» decl => exact ⟨some _, _, _, rfl, by simp [single?, hkind]⟩
  | field decl => exact ⟨some _, _, _, rfl, by simp [single?, hkind]⟩
  | iterable decl => exact ⟨some _, _, _, rfl, by simp [single?, hkind]⟩
  | operation decl =>
      obtain ⟨name, signature, special⟩ := decl
      cases name with
      | none => exact ⟨some _, _, _, rfl, by simp [single?, hkind]⟩
      | some name =>
          dsimp only
          split
          · exact ⟨none, _, _, rfl, by simp [single?, hkind]⟩
          · exact ⟨some _, _, _, rfl, by simp [single?, hkind]⟩
  | constructor arguments =>
      dsimp only
      split
      · exact ⟨none, _, _, rfl, by simp [single?, hkind]⟩
      · exact ⟨some _, _, _, rfl, by simp [single?, hkind]⟩

/-- A feature starts at a member, which declares it; an operation has the signature of the
member first. -/
inductive Starts (item : SurfaceMember) : Feature → Prop where
  | constant {decl : Constant} (h : item.member.kind = .constant decl) :
      Starts item (.constant item.owner decl)
  | attribute {decl : Attribute} (h : item.member.kind = .attribute decl) :
      Starts item (.attribute { owner := item.owner, decl, attrs := item.member.attrs })
  | field {decl : Field} (h : item.member.kind = .field decl) :
      Starts item (.field { owner := item.owner, decl })
  | iterable {decl : Iterable} (h : item.member.kind = .iterable decl) :
      Starts item (.iterable item.owner decl)
  | operation {decl : Operation} {others : List Signature}
      (h : item.member.kind = .operation decl) :
      Starts item (.operation {
        owner := item.owner, name := decl.name, special := decl.special,
        overloads := decl.signature :: others })
  | constructors {arguments : List Argument} {others : List (List Argument)}
      (h : item.member.kind = .constructor arguments) :
      Starts item (.constructors item.owner (arguments :: others))

/-- Every feature starts at one of the members. -/
theorem starts_of_mem {operations : List (String × String)} {constructors : List String}
    {items : List SurfaceMember} {feature : Feature}
    (h : feature ∈ ofMembersAfter operations constructors items) :
    ∃ item ∈ items, Starts item feature := by
  have hnext : ∀ {item rest}, (∃ other ∈ rest, Starts other feature) →
      ∃ other ∈ item :: rest, Starts other feature := by
    rintro item rest ⟨other, hother, hstarts⟩
    exact ⟨other, List.mem_cons_of_mem item hother, hstarts⟩
  fun_induction ofMembersAfter operations constructors items with
  | case1 => cases h
  | case2 operations constructors item rest owner decl hkind ih =>
      cases h with
      | head => exact ⟨item, List.mem_cons_self, .constant hkind⟩
      | tail _ h => exact hnext (ih h)
  | case3 operations constructors item rest owner decl hkind ih =>
      cases h with
      | head => exact ⟨item, List.mem_cons_self, .attribute hkind⟩
      | tail _ h => exact hnext (ih h)
  | case4 operations constructors item rest owner decl hkind ih =>
      cases h with
      | head => exact ⟨item, List.mem_cons_self, .field hkind⟩
      | tail _ h => exact hnext (ih h)
  | case5 operations constructors item rest owner decl hkind ih =>
      cases h with
      | head => exact ⟨item, List.mem_cons_self, .iterable hkind⟩
      | tail _ h => exact hnext (ih h)
  | case6 operations constructors item rest owner signature special hkind ih =>
      cases h with
      | head => exact ⟨item, List.mem_cons_self, .operation hkind⟩
      | tail _ h => exact hnext (ih h)
  | case7 operations constructors item rest owner name signature special hkind hturn ih =>
      exact hnext (ih h)
  | case8 operations constructors item rest owner name signature special hkind hturn _ ih =>
      cases h with
      | head => exact ⟨item, List.mem_cons_self, .operation hkind⟩
      | tail _ h => exact hnext (ih h)
  | case9 operations constructors item rest owner arguments hkind hturn ih => exact hnext (ih h)
  | case10 operations constructors item rest owner arguments hkind hturn ih =>
      cases h with
      | head => exact ⟨item, List.mem_cons_self, .constructors hkind⟩
      | tail _ h => exact hnext (ih h)

/-- A feature belongs to the owner of one of the members. -/
theorem owner_of_mem {operations : List (String × String)} {constructors : List String}
    {items : List SurfaceMember} {feature : Feature}
    (h : feature ∈ ofMembersAfter operations constructors items) :
    ∃ item ∈ items, feature.owner = item.owner := by
  obtain ⟨item, hitem, hstarts⟩ := starts_of_mem h
  exact ⟨item, hitem, by cases hstarts <;> rfl⟩

/-- The features of a definition's own members belong to it. -/
theorem owner_of_ownMembers {d : Definition} {feature : Feature}
    (h : feature ∈ ofMembers d.ownMembers) : feature.owner = d := by
  obtain ⟨item, hitem, howner⟩ := owner_of_mem h
  obtain ⟨member, -, rfl⟩ := List.mem_map.mp hitem
  exact howner

/-- A member that is a feature by itself is one of the features. -/
theorem mem_of_single {operations : List (String × String)} {constructors : List String}
    {items : List SurfaceMember} {item : SurfaceMember} {feature : Feature} (hitem : item ∈ items)
    (h : single? item = some feature) :
    feature ∈ ofMembersAfter operations constructors items := by
  induction items generalizing operations constructors with
  | nil => cases hitem
  | cons next rest ih =>
      obtain ⟨first, _, _, hcons, hsingle⟩ :=
        ofMembersAfter_cons operations constructors next rest
      rw [hcons, List.mem_append, Option.mem_toList]
      cases hitem with
      | head => exact Or.inl (hsingle feature h)
      | tail _ hitem => exact Or.inr (ih hitem)

/-- An operation belongs to one of the features, unless its name had its turn; without a name
it is one by itself. -/
theorem exists_operation {operations : List (String × String)} {constructors : List String}
    {items : List SurfaceMember} {item : SurfaceMember} {decl : Operation} (hitem : item ∈ items)
    (hkind : item.member.kind = .operation decl)
    (hturn : ∀ name, decl.name = some name → (item.owner.name, name) ∉ operations) :
    ∃ group, .operation group ∈ ofMembersAfter operations constructors items ∧
      group.owner.name = item.owner.name ∧ group.name = decl.name ∧
      (decl.name = none →
        group.special = decl.special ∧ group.overloads = [decl.signature]) := by
  fun_induction ofMembersAfter operations constructors items with
  | case1 => cases hitem
  | case2 operations constructors next rest owner _ hnext ih
  | case3 operations constructors next rest owner _ hnext ih
  | case4 operations constructors next rest owner _ hnext ih
  | case5 operations constructors next rest owner _ hnext ih
  | case10 operations constructors next rest owner _ hnext hnew ih =>
      cases hitem with
      | head =>
          rw [hkind] at hnext
          cases hnext
      | tail _ hitem =>
          obtain ⟨group, hgroup, hfacts⟩ := ih hitem hturn
          exact ⟨group, List.mem_cons_of_mem _ hgroup, hfacts⟩
  | case6 operations constructors next rest owner signature special hnext ih =>
      cases hitem with
      | head =>
          rw [hkind] at hnext
          cases hnext
          exact ⟨_, List.mem_cons_self, rfl, rfl, fun _ => ⟨rfl, rfl⟩⟩
      | tail _ hitem =>
          obtain ⟨group, hgroup, hfacts⟩ := ih hitem hturn
          exact ⟨group, List.mem_cons_of_mem _ hgroup, hfacts⟩
  | case7 operations constructors next rest owner name signature special hnext hdone ih =>
      cases hitem with
      | head =>
          rw [hkind] at hnext
          cases hnext
          exact absurd (List.contains_iff_mem.mp hdone) (hturn name rfl)
      | tail _ hitem => exact ih hitem hturn
  | case8 operations constructors next rest owner name signature special hnext hnew _ ih =>
      cases hitem with
      | head =>
          rw [hkind] at hnext
          cases hnext
          exact ⟨_, List.mem_cons_self, rfl, rfl, nofun⟩
      | tail _ hitem =>
          by_cases hsame : next.owner.name = item.owner.name ∧ decl.name = some name
          · refine ⟨_, List.mem_cons_self, hsame.1, hsame.2.symm, fun hnone => ?_⟩
            rw [hsame.2] at hnone
            cases hnone
          · have hnext : ∀ key, decl.name = some key →
                (item.owner.name, key) ∉ (next.owner.name, name) :: operations := by
              intro key hkey hmem
              rcases List.mem_cons.mp hmem with hfirst | hmem
              · obtain ⟨howner, rfl⟩ := Prod.mk.inj hfirst
                exact hsame ⟨howner.symm, hkey⟩
              · exact hturn key hkey hmem
            obtain ⟨group, hgroup, hfacts⟩ := ih hitem hnext
            exact ⟨group, List.mem_cons_of_mem _ hgroup, hfacts⟩
  | case9 operations constructors next rest owner _ hnext hdone ih =>
      cases hitem with
      | head =>
          rw [hkind] at hnext
          cases hnext
      | tail _ hitem => exact ih hitem hturn

end Feature

theorem mem_instanceAttributes {items : List SurfaceMember} {a : OwnedAttribute} :
    a ∈ instanceAttributes items ↔ .attribute a ∈ Feature.ofMembers items ∧ a.isStatic = false := by
  rw [instanceAttributes, List.mem_filterMap]
  constructor
  · rintro ⟨feature, hfeature, hsome⟩
    cases feature with
    | «attribute» b =>
        cases hstatic : b.isStatic with
        | true => simp [hstatic] at hsome
        | false =>
            simp only [hstatic, Bool.false_eq_true, if_false, Option.some.injEq] at hsome
            rw [← hsome]
            exact ⟨hfeature, hstatic⟩
    | _ => cases hsome
  · rintro ⟨hfeature, hstatic⟩
    exact ⟨.attribute a, hfeature, by simp [hstatic]⟩

/-! ## the surface of a definition -/

namespace Catalog

/-- Inclusion, directly or not. -/
def Includes (c : Catalog) : String → String → Prop :=
  TransGen fun a b => b ∈ c.included a

/-- The definitions whose members are on the surface of a definition. -/
def owners (c : Catalog) (d : Definition) : List Definition :=
  d :: c.definitionsOf (c.walk c.included [d.name] (c.included d.name))

theorem surface_eq (c : Catalog) (d : Definition) :
    c.surface d = (c.owners d).flatMap Definition.ownMembers := rfl

variable {c : Catalog}

theorem Includes.beyond {a b : String} (h : c.Includes a b) : c.Beyond a b := by
  induction h with
  | single h => exact TransGen.single (edge_included h)
  | tail _ h ih => exact TransGen.tail ih (edge_included h)

theorem mem_definitionsOf {names : List String} {d : Definition} :
    d ∈ c.definitionsOf names ↔ d.name ∈ names ∧ c.get? d.name = some d := by
  rw [definitionsOf, List.mem_filterMap]
  constructor
  · rintro ⟨name, hname, hd⟩
    have hsame := name_of_get? hd
    subst hsame
    exact ⟨hname, hd⟩
  · rintro ⟨hname, hd⟩
    exact ⟨d.name, hname, hd⟩

/-- What a definition includes, itself left out, is what the walk along its includes meets. -/
theorem WellFormed.mem_walk_included_iff (hc : c.WellFormed) {start name : String} :
    name ∈ c.walk c.included [start] (c.included start) ↔
      name ≠ start ∧ c.Includes start name := by
  constructor
  · intro h
    obtain ⟨mixin, hmixin, hpath⟩ := reachable_of_mem_walk h
    have hfresh := (fresh_of_mem_walk h).2
    exact ⟨by simpa using hfresh, TransGen.head' hmixin hpath⟩
  · rintro ⟨hne, hincludes⟩
    induction hincludes with
    | single hmixin =>
        refine mem_walk_of_stack hmixin (hc.target_known (edge_included hmixin)) ?_
        simpa using hne
    | @tail a b hpath hmixin ih =>
        have hknown := hc.target_known (edge_included hmixin)
        have hfresh : b ∉ [start] := by simpa using hne
        -- a path that comes back to the start goes on as a shorter one does
        by_cases hback : a = start
        · subst hback
          exact mem_walk_of_stack hmixin hknown hfresh
        · exact mem_walk_of_next (ih hback) hmixin hknown hfresh

/-- The surface has the members of the definition and of all it includes. -/
theorem WellFormed.mem_owners_iff (hc : c.WellFormed) (hacyclic : ∀ name, ¬ c.Beyond name name)
    {d o : Definition} (hd : c.get? d.name = some d) :
    o ∈ c.owners d ↔ c.get? o.name = some o ∧ (o.name = d.name ∨ c.Includes d.name o.name) := by
  rw [owners, List.mem_cons, mem_definitionsOf, hc.mem_walk_included_iff]
  constructor
  · rintro (rfl | ⟨⟨-, hincludes⟩, ho⟩)
    · exact ⟨hd, Or.inl rfl⟩
    · exact ⟨ho, Or.inr hincludes⟩
  · rintro ⟨ho, hsame | hincludes⟩
    · rw [hsame, hd, Option.some.injEq] at ho
      exact Or.inl ho.symm
    · refine Or.inr ⟨⟨fun hself => ?_, hincludes⟩, ho⟩
      exact hacyclic _ (hself ▸ hincludes.beyond)

/-- What is on a surface brings its own surface along. -/
theorem WellFormed.owners_subset (hc : c.WellFormed) (hacyclic : ∀ name, ¬ c.Beyond name name)
    {d o : Definition} (hd : c.get? d.name = some d) (ho : o ∈ c.owners d) :
    c.owners o ⊆ c.owners d := by
  intro x hx
  obtain ⟨hknown, hpath⟩ := (hc.mem_owners_iff hacyclic hd).mp ho
  obtain ⟨hx, hpath'⟩ := (hc.mem_owners_iff hacyclic hknown).mp hx
  refine (hc.mem_owners_iff hacyclic hd).mpr ⟨hx, ?_⟩
  rcases hpath with hsame | hpath
  · rwa [hsame] at hpath'
  · rcases hpath' with hsame | hpath'
    · exact Or.inr (hsame ▸ hpath)
    · exact Or.inr (hpath.trans hpath')

theorem WellFormed.surface_subset (hc : c.WellFormed) (hacyclic : ∀ name, ¬ c.Beyond name name)
    {d o : Definition} (hd : c.get? d.name = some d) (ho : o ∈ c.owners d) :
    c.surface o ⊆ c.surface d := by
  intro item hitem
  rw [surface_eq] at hitem ⊢
  obtain ⟨x, hx, hitem⟩ := List.mem_flatMap.mp hitem
  exact List.mem_flatMap.mpr ⟨x, hc.owners_subset hacyclic hd ho hx, hitem⟩

/-- If all that a chain of parents includes has no parent, then what is reached is on the
surface of somebody on the chain. -/
theorem Lineage.includes_of_reaches (hc : c.WellFormed) {d : Definition}
    {chain : List Definition} (h : c.Lineage d chain) (hd : c.get? d.name = some d)
    (hmixins : ∀ x ∈ d :: chain, ∀ name, c.Includes x.name name →
      ∃ m, c.get? name = some m ∧ m.parent = none) {name : String} (hpath : c.Reaches d.name name) :
    ∃ x ∈ d :: chain, name = x.name ∨ c.Includes x.name name := by
  induction hpath with
  | refl => exact ⟨d, List.mem_cons_self, Or.inl rfl⟩
  | @tail a b _ hedge ih =>
      obtain ⟨x, hx, ha⟩ := ih
      rcases edge_iff.mp hedge with hparent | hincluded
      · obtain ⟨owner, howner, hparent⟩ := mem_parents_iff.mp hparent
        rcases ha with rfl | hincludes
        · rw [h.known hd x hx, Option.some.injEq] at howner
          subst howner
          obtain ⟨parent, hget⟩ := Option.isSome_iff_exists.mp (hc.target_known hedge)
          exact ⟨parent, List.mem_cons_of_mem d (h.parent_mem hx hparent hget),
            Or.inl (name_of_get? hget).symm⟩
        · obtain ⟨m, hm, hroot⟩ := hmixins x hx a hincludes
          rw [hm, Option.some.injEq] at howner
          rw [← howner, hroot] at hparent
          cases hparent
      · rcases ha with rfl | hincludes
        · exact ⟨x, hx, Or.inr (TransGen.single hincluded)⟩
        · exact ⟨x, hx, Or.inr (TransGen.tail hincludes hincluded)⟩

/-- Known names are the names of their definitions. -/
theorem names_definitionsOf {names : List String}
    (h : ∀ name ∈ names, (c.get? name).isSome = true) :
    (c.definitionsOf names).map (·.name) = names := by
  induction names with
  | nil => rfl
  | cons name names ih =>
      rw [List.forall_mem_cons] at h
      obtain ⟨d, hd⟩ := Option.isSome_iff_exists.mp h.1
      rw [definitionsOf, List.filterMap_cons_some hd, List.map_cons, name_of_get? hd]
      exact congrArg (name :: ·) (ih h.2)

/-- The names of the definitions whose members are on a surface. -/
theorem names_owners (c : Catalog) (d : Definition) :
    (c.owners d).map (·.name) = d.name :: c.walk c.included [d.name] (c.included d.name) := by
  rw [owners, List.map_cons, names_definitionsOf fun name hname => (fresh_of_mem_walk hname).1]

/-- Every definition is on a surface at most once. -/
theorem nodup_owners (c : Catalog) (d : Definition) : ((c.owners d).map (·.name)).Nodup := by
  rw [names_owners, List.nodup_cons]
  exact ⟨fun hself => (fresh_of_mem_walk hself).2 List.mem_cons_self, nodup_walk⟩

/-- The features of a surface are those of the definitions on it, one after the other. -/
theorem features_surface (c : Catalog) (d : Definition) :
    Feature.ofMembers (c.surface d) =
      (c.owners d).flatMap fun o => Feature.ofMembers o.ownMembers := by
  rw [surface_eq, Feature.ofMembers_flatMap (nodup_owners c d)]

/-- The features of a definition on the surface are features of the surface. -/
theorem mem_features_surface {d o : Definition} (ho : o ∈ c.owners d) {feature : Feature}
    (h : feature ∈ Feature.ofMembers o.ownMembers) : feature ∈ Feature.ofMembers (c.surface d) := by
  rw [features_surface]
  exact List.mem_flatMap.mpr ⟨o, ho, h⟩

/-- A feature of a surface belongs to a definition on it. -/
theorem owner_mem_owners {d : Definition} {feature : Feature}
    (h : feature ∈ Feature.ofMembers (c.surface d)) : feature.owner ∈ c.owners d := by
  obtain ⟨item, hitem, howner⟩ := Feature.owner_of_mem h
  rw [surface_eq] at hitem
  obtain ⟨o, ho, hitem⟩ := List.mem_flatMap.mp hitem
  obtain ⟨member, -, rfl⟩ := List.mem_map.mp hitem
  rw [howner]
  exact ho

/-- A definition is on its own surface. -/
theorem self_mem_owners (c : Catalog) (d : Definition) : d ∈ c.owners d :=
  List.mem_cons_self

end Catalog

end WebIdl
