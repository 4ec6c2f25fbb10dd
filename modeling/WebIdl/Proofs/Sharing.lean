import WebIdl.Proofs.Renaming

/-!
# WebIdl.Proofs.Sharing

Definitions in sight of one another have one name for a structural method.

A spelling is handed out only if all that were tried before it are held (`free_attempt`), and
who holds them is known (`Settled.tried`).  A definition introduces a structural name only if
nothing that it reaches has one of the category (`Settled.category_ne_beyond`), so a spelling
that it goes around for a structural method is held by something else.  Two definitions that
one definition sees can therefore not have chosen different forms of it:

* `structural_names_are_shared`: whatever a definition reaches has the same name for a
  structural category, if it has one at all.
-/

namespace WebIdl

open Relation Text

namespace Scope

/-! ## spellings that are tried -/

/-- The spellings that are tried for a wanted name, in order. -/
def attempt (wish : String) : Nat → String
  | 0 => wish
  | k + 1 => numbered wish (k + 1)

/-- All spellings that are tried before the one that is chosen are in use. -/
theorem isUsed_before_firstFree (scope : Scope) (desired : String) (tries first : Nat) :
    ∃ k, first ≤ k ∧ scope.firstFree desired tries first = numbered desired k ∧
      ∀ j, first ≤ j → j < k → scope.isUsed (numbered desired j) = true := by
  induction tries generalizing first with
  | zero => exact ⟨first, Nat.le_refl first, rfl, fun j hle hlt => by omega⟩
  | succ tries ih =>
      unfold firstFree
      split
      next hused =>
        obtain ⟨k, hk, hchosen, hbefore⟩ := ih (first + 1)
        refine ⟨k, by omega, hchosen, fun j hle hlt => ?_⟩
        rcases Nat.eq_or_lt_of_le hle with rfl | hless
        · exact hused
        · exact hbefore j hless hlt
      next => exact ⟨first, Nat.le_refl first, rfl, fun j hle hlt => by omega⟩

/-- The spelling that is handed out is the first attempt that is not in use. -/
theorem free_attempt {scope : Scope} {wish ident : String} (h : scope.free wish = .ok ident) :
    ∃ place, ident = attempt wish place ∧
      ∀ earlier < place, scope.isUsed (attempt wish earlier) = true := by
  unfold free at h
  split at h
  next => exact ⟨0, (Except.ok.inj h).symm, fun _ hlt => absurd hlt (Nat.not_lt_zero _)⟩
  next => cases h
  next occupant _ hocc =>
    obtain ⟨k, hk, hchosen, hbefore⟩ := isUsed_before_firstFree scope wish scope.used.length 1
    obtain ⟨place, rfl⟩ := Nat.exists_eq_add_of_le' hk
    rw [hchosen, Except.ok.injEq] at h
    refine ⟨place + 1, h.symm, fun earlier hlt => ?_⟩
    cases earlier with
    | zero => rw [attempt, isUsed, hocc, Option.isSome_some]
    | succ earlier => exact hbefore (earlier + 1) (by omega) hlt

/-! ## structural names that are taken over -/

/-- Every structural category that holds an identifier has a name. -/
def Noted (scope : Scope) : Prop :=
  ∀ ident occupant category, scope.occupant? ident = some occupant →
    occupant.category? = some category → category.isStructural = true →
      (scope.structural? category).isSome = true

theorem noted_start (definition : String) : Noted (start definition) := by
  intro ident occupant category hocc hcategory
  obtain ⟨rfl, -⟩ := occupant?_start hocc
  cases hcategory

/-- A structural name that is noted leaves its category with a name, and no other without. -/
theorem isSome_structural?_noteStructural {scope : Scope} {category other : NameCategory}
    {ident : String} (h : other = category ∧ category.isStructural = true ∨
      (scope.structural? other).isSome = true) :
    ((scope.noteStructural category ident).structural? other).isSome = true := by
  cases hold : scope.structural? other with
  | some found => rw [structural?_noteStructural_of_some hold, Option.isSome_some]
  | none =>
      rcases h with ⟨rfl, hstructural⟩ | h
      · rw [structural?_noteStructural_self ident hstructural hold, Option.isSome_some]
      · rw [hold] at h
        cases h

/-- Taking over one name keeps all categories noted. -/
theorem Noted.fold {scope scope' : Scope} {included : Bool} {origin : String}
    {name : Reservation} (h : Noted scope)
    (hfold : scope.fold included origin name = .ok scope') : Noted scope' := by
  intro ident occupant category hholds hcategory hstructural
  have hcause := occupant?_of_fold hfold hholds
  rcases fold_ok hfold with ⟨-, rfl⟩ | ⟨-, rfl⟩
  · refine isSome_structural?_noteStructural ?_
    rcases hcause with hold | ⟨-, rfl⟩
    · exact Or.inr (h ident occupant category hold hcategory hstructural)
    · have hname : name.category = category := by
        cases included with
        | false => exact Option.some.inj hcategory
        | true => exact Option.some.inj hcategory
      exact Or.inl ⟨hname.symm, hname ▸ hstructural⟩
  · exact h ident occupant category hholds hcategory hstructural

/-- A structural category that a definition sees a name of has a name. -/
theorem noted_foldMixins {c : Catalog} {map : NameMap} {d : Definition} {scope : Scope}
    (h : (start d.name).foldMixins c map d = .ok scope) : Noted scope :=
  foldMixins_inv (fun _ _ _ _ _ _ _ hbefore hstep => hbefore.fold hstep) (noted_start d.name) h

/-- A structural name from before the first request stays. -/
theorem Grown.structural_of_base {found : NameCategory → String → Option String}
    {requests : List NameRequest} {base scope : Scope} {category : NameCategory} {ident : String}
    (h : Grown found requests base scope) (hbase : base.structural? category = some ident) :
    scope.structural? category = some ident := by
  induction h with
  | base => exact hbase
  | share h hasked hnoted ih => exact ih
  | inherit h hasked hfound ih => exact ih
  | introduce h hasked htarget hnew hfree hprotocol ih =>
      rw [structural?_introduce]
      exact structural?_noteStructural_of_some ih

end Scope

/-! ## names of a registry -/

namespace Resolver.Settled

variable {c : Catalog} {map : NameMap}

/-- A name is the first attempt that is free: each one before it is a reserved word, or is
held by the definition or by something that it reaches. -/
theorem tried (hc : c.WellFormed) (h : Settled c map) {name : String}
    (hname : (map.table? name).isSome = true) {a : Reservation}
    (ha : a ∈ map.reservations name) :
    ∃ key wish place, a.category.wanted? key = some wish ∧ a.ident = Scope.attempt wish place ∧
      ∀ earlier < place,
        (∃ word ∈ Identifier.reserved,
          lowerAscii (Scope.attempt wish earlier) = lowerAscii word) ∨
        ∃ other, c.Reaches name other ∧ ∃ b ∈ map.reservations other,
          lowerAscii (Scope.attempt wish earlier) = lowerAscii b.ident := by
  obtain ⟨table, htable⟩ := Option.isSome_iff_exists.mp hname
  obtain ⟨d, hd, hof⟩ := h.table_of htable
  obtain rfl := Catalog.name_of_get? hd
  have hintroduced : map.reservations d.name = table.introduced := by
    rw [NameMap.reservations, htable]
    rfl
  rw [hintroduced] at ha
  obtain ⟨before, later, hsplit⟩ := List.append_of_mem ha
  have hstarts : before ++ [a] <+: table.introduced := ⟨later, by simpa using hsplit.symm⟩
  obtain ⟨key, hreserves⟩ := (Definition.reserves_iff_prefix hof).mpr hstarts
  obtain ⟨kind, members, requests, request, after, base, scope, scope', hkind, hmembers, hrequests,
    htarget, hbase, hrun, hgrant, rfl, hnew⟩ := hreserves
  have hmade := NameRequest.made_of_run hkind hmembers request (by simp [hrequests])
  rcases Scope.grant_introduced hgrant with hsame | ⟨wish, given, hwish, hfree, hgiven⟩
  · rw [hnew] at hsame
    simp at hsame
  · rw [hnew, List.append_cancel_left_eq, List.cons.injEq, Reservation.mk.injEq] at hgiven
    obtain ⟨⟨-, rfl⟩, -⟩ := hgiven
    rw [hmade.desired?_eq, htarget] at hwish
    obtain ⟨place, hident, hused⟩ := Scope.free_attempt hfree
    refine ⟨key, wish, place, hwish, hident, fun earlier hlt => ?_⟩
    obtain ⟨occupant, hocc⟩ := Option.isSome_iff_exists.mp (hused earlier hlt)
    rcases (Scope.Grown.of_grants hrun).occupant_source hocc with hold | ⟨b, hb, hsame⟩
    · -- it was held before the first request of the definition
      have hbeyond : ∀ other ∈ c.above d ++ c.beside d, c.Reaches d.name other :=
        fun other hother => ((mem_above_or_beside hc h hd hname).mp hother).to_reflTransGen
      have hfrom := Scope.accounted_foldMixins hbase _ occupant hold
      cases occupant with
      | builtin => exact Or.inl hfrom
      | own category => exact hfrom.elim
      | inherited category =>
          obtain ⟨other, hother, hheld⟩ := hfrom
          exact Or.inr ⟨other, hbeyond other (List.mem_append_left _ hother), hheld⟩
      | included category mixin =>
          exact Or.inr ⟨mixin, hbeyond mixin (List.mem_append_right _ hfrom.1), hfrom.2⟩
    · have hmem : b ∈ map.reservations d.name := by
        rw [hintroduced]
        exact hstarts.subset (List.mem_append_left _ hb)
      exact Or.inr ⟨d.name, ReflTransGen.refl, b, hmem, hsame⟩

section

variable (hc : c.WellFormed) (h : Settled c map)
include hc h

/-- A structural name is introduced only if nothing that is reached has one of the category. -/
theorem category_ne_beyond {name other : String} (hname : (map.table? name).isSome = true)
    (hother : c.Beyond name other) {a b : Reservation} (ha : a ∈ map.reservations name)
    (hb : b ∈ map.reservations other) (hstructural : a.category.isStructural = true) :
    b.category ≠ a.category := by
  obtain ⟨table, htable⟩ := Option.isSome_iff_exists.mp hname
  obtain ⟨d, hd, hof⟩ := h.table_of htable
  obtain ⟨kind, members, base, scope, hkind, hmembers, hbase, hscope, rfl⟩ := NameTable.of_run hof
  have hfolded := Scope.Folded.foldMixins hbase
  have hgrown := Scope.Grown.of_grants hscope
  have hown : a ∈ scope.table.introduced := by
    rw [NameMap.reservations, htable] at ha
    exact ha
  intro hcategory
  -- the category has a name before the first request, which is then the one introduced
  have hseen := (mem_above_or_beside hc h hd hname).mpr hother
  obtain ⟨occupant, hocc, hholds⟩ := hfolded.holder b (List.mem_flatMap.mpr ⟨other, hseen, hb⟩)
  obtain ⟨ident, hnoted⟩ := Option.isSome_iff_exists.mp (Scope.noted_foldMixins hbase b.ident
    occupant a.category hocc (hcategory ▸ hholds) hstructural)
  have hfinal := (Scope.Grown.structural_introduced (NameRequest.made_of_run hkind hmembers)
    hgrown hfolded.table hown hstructural).1
  rw [hgrown.structural_of_base hnoted, Option.some.injEq] at hfinal
  obtain ⟨origin, horigin, hmem⟩ := List.mem_flatMap.mp
    (hfolded.structural a.category ident hnoted).1
  have hbeyond := (mem_above_or_beside hc h hd hname).mp horigin
  exact ne_beyond hc h hname hbeyond ha hmem (by rw [hfinal])

/-- Of two structural names that are seen from one place, neither is an attempt that comes
before the other. -/
theorem eq_of_attempt {name x y : String} (hname : (map.table? name).isSome = true)
    (hx : c.Reaches name x) (hy : c.Reaches name y) {a b : Reservation}
    (ha : a ∈ map.reservations x) (hb : b ∈ map.reservations y)
    (hcategory : a.category = b.category) (hstructural : a.category.isStructural = true)
    (hheld : (∃ word ∈ Identifier.reserved, lowerAscii a.ident = lowerAscii word) ∨
      ∃ other, c.Reaches y other ∧ ∃ held ∈ map.reservations other,
        lowerAscii a.ident = lowerAscii held.ident) : a.ident = b.ident := by
  have hxname := h.reaches hname hx
  have hyname := h.reaches hname hy
  rcases hheld with ⟨word, hword, hsame⟩ | ⟨other, hother, held, hmem, hsame⟩
  · exact absurd hsame (h.ne_reserved hxname ha hword)
  · have hone : held.category = a.category := by
      rcases meet hc h hname hx (hy.trans hother) ha hmem hsame with ⟨-, rfl⟩ | ⟨-, heq, -⟩
      · rfl
      · exact heq.symm
    rcases reflTransGen_iff_eq_or_transGen.mp hother with rfl | hbeyond
    · have hentry := h.structural_entry hyname hmem (hone ▸ hstructural)
      rw [hone, hcategory, h.structural_entry hyname hb (hcategory ▸ hstructural),
        Option.some.injEq] at hentry
      refine h.eq_of_structural hxname hyname ha hb hcategory hstructural ?_
      rw [hsame, hentry]
    · exact absurd (hone.trans hcategory)
        (category_ne_beyond hc h hyname hbeyond hb hmem (hcategory ▸ hstructural))

/-- Structural names of one category that are seen from one place are the same. -/
theorem eq_of_category {name x y : String} (hname : (map.table? name).isSome = true)
    (hx : c.Reaches name x) (hy : c.Reaches name y) {a b : Reservation}
    (ha : a ∈ map.reservations x) (hb : b ∈ map.reservations y)
    (hcategory : a.category = b.category) (hstructural : a.category.isStructural = true) :
    a.ident = b.ident := by
  obtain ⟨key, wish, place, hwish, hident, hbefore⟩ := tried hc h (h.reaches hname hx) ha
  obtain ⟨key', wish', place', hwish', hident', hbefore'⟩ := tried hc h (h.reaches hname hy) hb
  rw [NameCategory.wanted?_of_isStructural hstructural] at hwish
  rw [← hcategory, NameCategory.wanted?_of_isStructural hstructural, hwish,
    Option.some.injEq] at hwish'
  subst hwish'
  rcases Nat.lt_trichotomy place place' with hlt | rfl | hlt
  · have hheld := hbefore' place hlt
    rw [← hident] at hheld
    exact eq_of_attempt hc h hname hx hy ha hb hcategory hstructural hheld
  · rw [hident, hident']
  · have hheld := hbefore place' hlt
    rw [← hident'] at hheld
    exact (eq_of_attempt hc h hname hy hx hb ha hcategory.symm (hcategory ▸ hstructural)
      hheld).symm

/-- Entries of one structural category that are seen from one place are the same. -/
theorem same_structural {name x y : String} (hname : (map.table? name).isSome = true)
    (hx : c.Reaches name x) (hy : c.Reaches name y) {category : NameCategory}
    (hstructural : category.isStructural = true) {key key' ident ident' : String}
    (hentry : map.get? x category key = some ident)
    (hentry' : map.get? y category key' = some ident') : ident = ident' := by
  obtain ⟨origin, hpath, hmem, -⟩ := source hc h (h.reaches hname hx) hentry
  obtain ⟨origin', hpath', hmem', -⟩ := source hc h (h.reaches hname hy) hentry'
  exact eq_of_category hc h hname (hx.trans hpath) (hy.trans hpath') hmem hmem' rfl hstructural

end

end Resolver.Settled

namespace Registry

variable {options : IngestOptions} {nodes : List Node} {r : Registry}

/-- **Structural names are shared**: whatever a definition reaches, itself included, has the
same name for a structural category, if it has one at all. -/
theorem structural_names_are_shared (h : build options nodes = .ok r) {d : Definition}
    (hd : d ∈ r.definitions) {x y : String} (hx : r.toCatalog.Reaches d.name x)
    (hy : r.toCatalog.Reaches d.name y) {category : NameCategory}
    (hstructural : category.isStructural = true) {key key' ident ident' : String}
    (hentry : r.name? x category key = some ident)
    (hentry' : r.name? y category key' = some ident') : ident = ident' :=
  (settled_of_build h).1.same_structural (wellFormed_of_build h)
    (resolved_of_reaches h hd ReflTransGen.refl) hx hy hstructural hentry hentry'

end Registry

end WebIdl
