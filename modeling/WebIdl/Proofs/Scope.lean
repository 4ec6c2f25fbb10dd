import WebIdl.Naming.Resolver
import WebIdl.Proofs.Graph
import WebIdl.Proofs.NameMap
import WebIdl.Proofs.Outcome
import Mathlib

/-!
# WebIdl.Proofs.Scope

What a scope knows while the names of one definition are chosen.

Numbered spellings of a wanted name never run out, so a name that is handed out is not in
use (`free_ok`).  Folding keeps account of every name that is taken over (`Folded`): two
of them meet only if they stand for one structural category.  From there on a scope
grows by requests (`Grown`), and each of the facts about the names it hands out is an
induction over how it grew.
-/

namespace WebIdl

open Text

namespace Scope

/-! ## identifiers in use -/

/-- An identifier is used if its lower case is taken. -/
theorem isUsed_eq_true_iff {scope : Scope} {ident : String} :
    scope.isUsed ident = true ↔ lowerAscii ident ∈ scope.used.map (·.1) :=
  isSome_lookup_iff

/-- Case does not matter for whether an identifier is used. -/
theorem isUsed_congr {scope : Scope} {a b : String} (h : lowerAscii a = lowerAscii b) :
    scope.isUsed a = scope.isUsed b := by
  rw [isUsed, isUsed, occupant?, occupant?, h]

/-- Reserved words are used from the start. -/
theorem isUsed_start {definition word : String} (h : word ∈ Identifier.reserved) :
    (start definition).isUsed word = true := by
  rw [isUsed_eq_true_iff, start, List.map_map]
  exact List.mem_map_of_mem (f := lowerAscii) h

/-- An identifier is occupied by what was put there last. -/
theorem occupant?_occupy_self {scope : Scope} {ident other : String} (occupant : Occupant)
    (h : lowerAscii other = lowerAscii ident) :
    (scope.occupy ident occupant).occupant? other = some occupant := by
  simp [occupant?, occupy, h]

/-- Other identifiers keep their occupants. -/
theorem occupant?_occupy_of_ne {scope : Scope} {ident other : String} (occupant : Occupant)
    (h : lowerAscii other ≠ lowerAscii ident) :
    (scope.occupy ident occupant).occupant? other = scope.occupant? other := by
  simp [occupant?, occupy, List.lookup_cons, beq_eq_false_iff_ne.mpr h]

/-- Occupying an identifier uses it up, and no other one. -/
theorem isUsed_occupy {scope : Scope} {ident other : String} {occupant : Occupant} :
    (scope.occupy ident occupant).isUsed other = true ↔
      lowerAscii other = lowerAscii ident ∨ scope.isUsed other = true := by
  rw [isUsed_eq_true_iff, isUsed_eq_true_iff, occupy, List.map_cons, List.mem_cons]

/-! ## names of structural categories -/

/-- Noting a structural name uses nothing up. -/
@[simp] theorem used_noteStructural (scope : Scope) (category : NameCategory) (ident : String) :
    (scope.noteStructural category ident).used = scope.used := by
  rw [noteStructural]
  split
  · rfl
  · rfl

@[simp] theorem table_noteStructural (scope : Scope) (category : NameCategory) (ident : String) :
    (scope.noteStructural category ident).table = scope.table := by
  rw [noteStructural]
  split
  · rfl
  · rfl

/-- The first name that is noted for a structural category stays. -/
theorem structural?_noteStructural {scope : Scope} {category other : NameCategory}
    {ident found : String}
    (h : (scope.noteStructural category ident).structural? other = some found) :
    scope.structural? other = some found ∨
      other = category ∧ found = ident ∧ category.isStructural = true := by
  rw [noteStructural] at h
  split at h
  · next hnew =>
      simp only [structural?, List.lookup_cons] at h
      by_cases hsame : other = category
      · simp only [hsame, beq_self_eq_true, Option.some.injEq] at h
        exact Or.inr ⟨hsame, h.symm, (Bool.and_eq_true_iff.mp hnew).1⟩
      · simp only [beq_eq_false_iff_ne.mpr hsame] at h
        exact Or.inl h
  · exact Or.inl h

/-- A structural name that is noted stays. -/
theorem structural?_noteStructural_of_some {scope : Scope} {category other : NameCategory}
    {ident found : String} (h : scope.structural? other = some found) :
    (scope.noteStructural category ident).structural? other = some found := by
  rw [noteStructural]
  split
  · next hnew =>
      have hne : other ≠ category := by
        rintro rfl
        simp [h] at hnew
      simpa [structural?, List.lookup_cons, beq_eq_false_iff_ne.mpr hne] using h
  · exact h

/-- The first structural name of a category that is noted is found. -/
theorem structural?_noteStructural_self {scope : Scope} {category : NameCategory} (ident : String)
    (hstructural : category.isStructural = true) (h : scope.structural? category = none) :
    (scope.noteStructural category ident).structural? category = some ident := by
  rw [noteStructural, hstructural, h]
  simp [structural?]

/-! ## free spellings -/

/-- Texts put together are lowered each by itself. -/
theorem lowerAscii_append (a b : String) :
    lowerAscii (a ++ b) = lowerAscii a ++ lowerAscii b := by
  simp [lowerAscii]

/-- What holds of all ASCII characters, one by one. -/
theorem of_ascii {P : Char → Prop} (h : ∀ n : Fin 128, P (Char.ofNat n)) {c : Char}
    (hc : c.toNat < 128) : P c := by
  have hchar := h ⟨c.toNat, hc⟩
  rwa [Char.ofNat_toNat] at hchar

/-- A digit has no case. -/
theorem toLower_of_isDigit {c : Char} (h : c.isDigit = true) : c.toLower = c := by
  rw [Char.isDigit, Bool.and_eq_true_iff, decide_eq_true_iff, decide_eq_true_iff] at h
  rw [Char.toLower, dif_neg]
  intro hupper
  have habove : 'A'.val ≤ '9'.val := UInt32.le_trans hupper.1 h.2
  exact absurd habove (by decide)

/-- Numbers have no case. -/
theorem lowerAscii_toString (n : Nat) : lowerAscii (toString n) = toString n := by
  have hdigits : ∀ c ∈ (toString n).toList, c.toLower = c := by
    intro c hc
    rw [Nat.toString_eq_repr, Nat.toList_repr] at hc
    exact toLower_of_isDigit (Nat.isDigit_of_mem_toDigits (by decide) (by decide) hc)
  rw [lowerAscii, List.map_congr_left hdigits, List.map_id', String.ofList_toList]

/-- Different attempts differ also without regard to case. -/
theorem numbered_injective {desired : String} {m n : Nat}
    (h : lowerAscii (numbered desired m) = lowerAscii (numbered desired n)) : m = n := by
  simp only [numbered, lowerAscii_append, lowerAscii_toString] at h
  rw [String.append_left_inj, String.append_left_inj, String.append_right_inj] at h
  rw [Nat.toString_eq_repr, Nat.toString_eq_repr] at h
  exact Nat.repr_inj.mp h

/-- If the attempt that is chosen is in use, so are all that were tried. -/
theorem isUsed_of_isUsed_firstFree {scope : Scope} {desired : String} {tries attempt : Nat}
    (h : scope.isUsed (scope.firstFree desired tries attempt) = true) :
    ∀ i ≤ tries, scope.isUsed (numbered desired (attempt + i)) = true := by
  induction tries generalizing attempt with
  | zero =>
      intro i hi
      rw [Nat.le_zero.mp hi]
      exact h
  | succ tries ih =>
      rw [firstFree] at h
      by_cases hfirst : scope.isUsed (numbered desired attempt) = true
      · rw [if_pos hfirst] at h
        intro i hi
        cases i with
        | zero => exact hfirst
        | succ i =>
            have hnext := ih h i (by omega)
            rwa [Nat.add_assoc, Nat.add_comm 1 i] at hnext
      · rw [if_neg hfirst] at h
        exact absurd h hfirst

/-- There are more attempts than identifiers in use, so the one that is chosen is free. -/
theorem isUsed_firstFree (scope : Scope) (desired : String) :
    scope.isUsed (scope.firstFree desired scope.used.length 1) = false := by
  rw [Bool.eq_false_iff]
  intro hused
  have hall := isUsed_of_isUsed_firstFree hused
  let attempts := (List.range (scope.used.length + 1)).map fun i =>
    lowerAscii (numbered desired (1 + i))
  have hnodup : attempts.Nodup := by
    refine List.Nodup.map ?_ List.nodup_range
    intro i j hij
    have := numbered_injective hij
    omega
  have hsubset : attempts ⊆ scope.used.map (·.1) := by
    intro ident hident
    obtain ⟨i, hi, rfl⟩ := List.mem_map.mp hident
    have hle : i ≤ scope.used.length := Nat.lt_succ_iff.mp (List.mem_range.mp hi)
    exact isUsed_eq_true_iff.mp (hall i hle)
  have hlength := (hnodup.subperm hsubset).length_le
  simp only [attempts, List.length_map, List.length_range] at hlength
  omega

/-- A name that is handed out is not in use; a wanted name that is free is the one. -/
theorem free_ok {scope : Scope} {desired ident : String} (h : scope.free desired = .ok ident) :
    scope.isUsed ident = false ∧ (scope.isUsed desired = false → ident = desired) := by
  rw [free] at h
  cases hocc : scope.occupant? desired with
  | none =>
      simp only [hocc, Except.ok.injEq] at h
      rw [← h, isUsed, hocc]
      exact ⟨rfl, fun _ => rfl⟩
  | some occupant =>
      have hused : scope.isUsed desired = true := by rw [isUsed, hocc]; rfl
      have hgiven : ident = scope.firstFree desired scope.used.length 1 := by
        cases occupant with
        | included category mixin => simp [hocc] at h
        | builtin => simpa [hocc] using h.symm
        | own category => simpa [hocc] using h.symm
        | inherited category => simpa [hocc] using h.symm
      rw [hgiven, hused]
      exact ⟨isUsed_firstFree scope desired, fun hfree => by cases hfree⟩

end Scope

/-! ## names that are taken over -/

/-- Two names meet only if they stand for one structural category. -/
def Reservation.Compatible (a b : Reservation) : Prop :=
  lowerAscii a.ident = lowerAscii b.ident →
    a.category = b.category ∧ a.category.isStructural = true

/-- Two reservations are compatible in either order. -/
theorem Reservation.Compatible.symm {a b : Reservation} (h : a.Compatible b) :
    b.Compatible a := by
  intro hsame
  obtain ⟨hcategory, hstructural⟩ := h hsame.symm
  exact ⟨hcategory.symm, hcategory ▸ hstructural⟩

namespace Scope

/-- Taking over a name hands it out if it is new, and changes nothing if it shares a
structural category with its holder. -/
theorem fold_ok {scope scope' : Scope} {included : Bool} {origin : String} {name : Reservation}
    (h : scope.fold included origin name = .ok scope') :
    (scope.occupant? name.ident = none ∧
      scope' = (scope.occupy name.ident (if included then .included name.category origin
        else .inherited name.category)).noteStructural name.category name.ident) ∨
    (∃ occupant, scope.occupant? name.ident = some occupant ∧
      occupant.category? = some name.category ∧ name.category.isStructural = true) ∧
      scope' = scope := by
  rw [fold] at h
  cases hocc : scope.occupant? name.ident with
  | none =>
      simp only [hocc, Except.ok.injEq] at h
      exact Or.inl ⟨rfl, h.symm⟩
  | some occupant =>
      simp only [hocc] at h
      split at h
      · next hshared =>
          rw [Bool.and_eq_true_iff, beq_iff_eq] at hshared
          exact Or.inr ⟨⟨occupant, rfl, hshared⟩, (Except.ok.inj h).symm⟩
      · cases h

/-- A name that cannot be taken over has a holder. -/
theorem fold_error {scope : Scope} {included : Bool} {origin : String} {name : Reservation}
    {e : Error} (h : scope.fold included origin name = .error e) :
    e = .mixinConflict scope.definition origin name.ident ∧
      ∃ occupant, scope.occupant? name.ident = some occupant := by
  rw [fold] at h
  cases hocc : scope.occupant? name.ident with
  | none =>
      simp only [hocc] at h
      cases h
  | some occupant =>
      simp only [hocc] at h
      split at h
      · cases h
      · exact ⟨(Except.error.inj h).symm, occupant, rfl⟩

/-- The scope that names have been taken over into, and nothing else. -/
structure Folded (names : List Reservation) (scope : Scope) : Prop where
  table : scope.table = {}
  reserved : ∀ word ∈ Identifier.reserved, scope.isUsed word = true
  holder : ∀ name ∈ names, ∃ occupant,
    scope.occupant? name.ident = some occupant ∧ occupant.category? = some name.category
  compatible : names.Pairwise Reservation.Compatible
  structural : ∀ category ident, scope.structural? category = some ident →
    ⟨category, ident⟩ ∈ names ∧ category.isStructural = true

namespace Folded

variable {names : List Reservation} {scope scope' : Scope}

theorem start (definition : String) : Folded [] (Scope.start definition) where
  table := rfl
  reserved := fun _ => isUsed_start
  holder := fun _ h => absurd h List.not_mem_nil
  compatible := List.Pairwise.nil
  structural := fun _ _ h => by cases h

/-- Everything folded into a scope is used there. -/
theorem isUsed (h : Folded names scope) {name : Reservation} (hname : name ∈ names) :
    scope.isUsed name.ident = true := by
  obtain ⟨occupant, hocc, -⟩ := h.holder name hname
  rw [Scope.isUsed, hocc]
  rfl

/-- One more name is taken over: it is new, or shares a structural category. -/
theorem fold {included : Bool} {origin : String} {name : Reservation} (h : Folded names scope)
    (hfold : scope.fold included origin name = .ok scope') : Folded (names ++ [name]) scope' := by
  have hcompatible : (∀ other ∈ names, other.Compatible name) →
      (names ++ [name]).Pairwise Reservation.Compatible := by
    intro hall
    refine List.pairwise_append.mpr ⟨h.compatible, List.pairwise_singleton _ _, ?_⟩
    intro other hother last hlast
    rw [List.mem_singleton.mp hlast]
    exact hall other hother
  rcases fold_ok hfold with ⟨hocc, rfl⟩ | ⟨⟨occupant, hocc, hcategory, hstructural⟩, rfl⟩
  · have hfresh : ∀ other ∈ names, lowerAscii other.ident ≠ lowerAscii name.ident := by
      intro other hother hsame
      have hused := h.isUsed hother
      rw [isUsed_congr hsame, Scope.isUsed, hocc] at hused
      cases hused
    refine ⟨?_, ?_, ?_, hcompatible fun other hother hsame => absurd hsame (hfresh other hother),
      ?_⟩
    · rw [table_noteStructural]
      exact h.table
    · intro word hword
      rw [isUsed_eq_true_iff, used_noteStructural, ← isUsed_eq_true_iff, isUsed_occupy]
      exact Or.inr (h.reserved word hword)
    · intro other hother
      simp only [occupant?, used_noteStructural]
      rcases List.mem_append.mp hother with hother | hother
      · obtain ⟨occupant, hholds, hcategory⟩ := h.holder other hother
        refine ⟨occupant, ?_, hcategory⟩
        rw [← hholds]
        exact occupant?_occupy_of_ne _ (hfresh other hother)
      · rw [List.mem_singleton.mp hother]
        refine ⟨_, occupant?_occupy_self _ rfl, ?_⟩
        cases included with
        | false => rfl
        | true => rfl
    · intro category ident hnoted
      rcases structural?_noteStructural hnoted with hold | ⟨rfl, rfl, hstructural⟩
      · obtain ⟨hmem, hstructural⟩ := h.structural category ident hold
        exact ⟨List.mem_append_left _ hmem, hstructural⟩
      · exact ⟨List.mem_append_right _ List.mem_cons_self, hstructural⟩
  · refine ⟨h.table, h.reserved, ?_, hcompatible ?_, ?_⟩
    · intro other hother
      rcases List.mem_append.mp hother with hother | hother
      · exact h.holder other hother
      · rw [List.mem_singleton.mp hother]
        exact ⟨occupant, hocc, hcategory⟩
    · intro other hother hsame
      obtain ⟨occupant', hholds, hcategory'⟩ := h.holder other hother
      have hone : some occupant' = some occupant := by
        rw [← hholds, ← hocc, occupant?, occupant?, hsame]
      rw [Option.some.injEq] at hone
      rw [hone, hcategory, Option.some.injEq] at hcategory'
      exact ⟨hcategory'.symm, hcategory' ▸ hstructural⟩
    · intro category ident hnoted
      obtain ⟨hmem, hstructural⟩ := h.structural category ident hnoted
      exact ⟨List.mem_append_left _ hmem, hstructural⟩

/-- All names of one origin are taken over. -/
theorem foldAll {map : NameMap} {included : Bool} {origin : String} (h : Folded names scope)
    (hfold : scope.foldAll map included origin = .ok scope') :
    Folded (names ++ map.reservations origin) scope' := by
  rw [Scope.foldAll] at hfold
  generalize map.reservations origin = more at hfold
  induction more generalizing names scope with
  | nil =>
      rw [List.foldlM_nil, pure_eq_ok] at hfold
      rw [List.append_nil, ← hfold]
      exact h
  | cons name more ih =>
      rw [List.foldlM_cons, bind_eq_ok] at hfold
      obtain ⟨middle, hstep, hrest⟩ := hfold
      have hmore := ih (h.fold hstep) hrest
      rwa [List.append_assoc] at hmore

/-- All names of several origins are taken over. -/
theorem foldOrigins {map : NameMap} {included : Bool} {origins : List String}
    (h : Folded names scope)
    (hfold : origins.foldlM (Scope.foldAll map included) scope = .ok scope') :
    Folded (names ++ origins.flatMap map.reservations) scope' := by
  induction origins generalizing names scope with
  | nil =>
      rw [List.foldlM_nil, pure_eq_ok] at hfold
      rw [List.flatMap_nil, List.append_nil, ← hfold]
      exact h
  | cons origin origins ih =>
      rw [List.foldlM_cons, bind_eq_ok] at hfold
      obtain ⟨middle, hstep, hrest⟩ := hfold
      have hmore := ih (h.foldAll hstep) hrest
      rwa [List.append_assoc, ← List.flatMap_cons] at hmore

/-- All names that a definition can see are taken over. -/
theorem foldMixins {c : Catalog} {map : NameMap} {d : Definition}
    (hfold : (Scope.start d.name).foldMixins c map d = .ok scope) :
    Folded ((c.above d ++ c.beside d).flatMap map.reservations) scope := by
  rw [Scope.foldMixins, bind_eq_ok] at hfold
  obtain ⟨middle, habove, hbeside⟩ := hfold
  have hfolded := ((Folded.start d.name).foldOrigins habove).foldOrigins hbeside
  rwa [List.nil_append, ← List.flatMap_append] at hfolded

end Folded

/-- What taking over a name keeps, taking over all that a definition can see keeps. -/
theorem foldMixins_inv {P : Scope → Prop} {c : Catalog} {map : NameMap} {d : Definition}
    {scope scope' : Scope}
    (hstep : ∀ included : Bool, ∀ origin ∈ if included then c.beside d else c.above d,
      ∀ name ∈ map.reservations origin, ∀ s s', P s → s.fold included origin name = .ok s' → P s')
    (hs : P scope) (h : scope.foldMixins c map d = .ok scope') : P scope' := by
  have hfolds : ∀ (included : Bool) (s s' : Scope), P s →
      (if included then c.beside d else c.above d).foldlM (Scope.foldAll map included) s = .ok s' →
      P s' := by
    intro included s s' hs hrun
    refine foldlM_ok_inv (fun origin horigin before after hbefore hall => ?_) hs hrun
    exact foldlM_ok_inv (hstep included origin horigin) hbefore hall
  rw [foldMixins, bind_eq_ok] at h
  obtain ⟨middle, habove, hbeside⟩ := h
  exact hfolds true middle scope' (hfolds false scope middle hs habove) hbeside

end Scope

end WebIdl
