import WebIdl.Proofs.Renaming
import WebIdl.Proofs.Session

/-!
# WebIdl.Proofs.Conflict

What is behind a conflict of names.

Names are taken over one after another, each once and together with the definition that
introduced it (`NameMap.introducedBy`).  Up to a name that meets another one only names before
it are in use (`Holds`), and what one definition introduced is distinct, so the two come from
different definitions (`Ready.fold_conflict`).  A request meets a name that was taken over only
if an included mixin introduced it (`Definition.Asks.conflict`).  Whatever was resolved before,
a definition fails with the conflict that what it reaches gives by itself
(`exists_resolveMixins`):

* `mixin_conflicts_are_real`: a conflict that is reported is one between two definitions that
  are reached, or between one that is reached through includes and a name of the definition's
  own.
-/

namespace WebIdl

open Relation Text

/-! ## names that are taken over in order -/

/-- The names that some definitions introduced, each with the one that did. -/
def NameMap.introducedBy (map : NameMap) (origins : List String) : List (String × Reservation) :=
  origins.flatMap fun origin => (map.reservations origin).map (origin, ·)

namespace NameMap

variable {map : NameMap} {origins : List String}

theorem mem_introducedBy {name : String × Reservation} :
    name ∈ map.introducedBy origins ↔ name.1 ∈ origins ∧ name.2 ∈ map.reservations name.1 := by
  obtain ⟨origin, reservation⟩ := name
  simp [introducedBy]

/-- Names of one definition are distinct if no definition is listed twice. -/
theorem pairwise_introducedBy (hnodup : origins.Nodup)
    (hdistinct : ∀ origin ∈ origins, (map.reservations origin).Pairwise
      fun a b => lowerAscii a.ident ≠ lowerAscii b.ident) :
    (map.introducedBy origins).Pairwise fun a b =>
      lowerAscii a.2.ident = lowerAscii b.2.ident → a.1 ≠ b.1 := by
  refine List.pairwise_flatMap.mpr ⟨fun origin horigin => ?_, hnodup.imp fun hne => ?_⟩
  · exact List.pairwise_map.mpr ((hdistinct origin horigin).imp fun hne hsame => absurd hsame hne)
  · intro a ha b hb _
    obtain ⟨_, -, rfl⟩ := List.mem_map.mp ha
    obtain ⟨_, -, rfl⟩ := List.mem_map.mp hb
    exact hne

end NameMap

namespace Scope

variable {c : Catalog} {map : NameMap} {d : Definition} {scope scope' : Scope}

/-- Taking over all names of some definitions is taking them over one by one. -/
theorem foldlM_foldAll (map : NameMap) (included : Bool) (origins : List String) (scope : Scope) :
    origins.foldlM (Scope.foldAll map included) scope =
      (map.introducedBy origins).foldlM (fun scope name => scope.fold included name.1 name.2)
        scope := by
  induction origins generalizing scope with
  | nil => rfl
  | cons origin origins ih =>
      rw [List.foldlM_cons, NameMap.introducedBy, List.flatMap_cons, List.foldlM_append,
        List.foldlM_map]
      exact bind_congr ih

/-- The scope of a definition in which reserved words and the given names are in use, and
nothing else. -/
structure Holds (definition : String) (names : List (String × Reservation)) (scope : Scope) :
    Prop where
  definition : scope.definition = definition
  source : ∀ ident occupant, scope.occupant? ident = some occupant →
    (∃ word ∈ Identifier.reserved, lowerAscii ident = lowerAscii word) ∨
      ∃ name ∈ names, lowerAscii ident = lowerAscii name.2.ident

@[simp] theorem definition_noteStructural (scope : Scope) (category : NameCategory)
    (ident : String) : (scope.noteStructural category ident).definition = scope.definition := by
  rw [noteStructural]
  split
  · rfl
  · rfl

theorem definition_fold {included : Bool} {origin : String} {name : Reservation}
    (h : scope.fold included origin name = .ok scope') : scope'.definition = scope.definition := by
  rcases fold_ok h with ⟨-, rfl⟩ | ⟨-, rfl⟩
  · exact definition_noteStructural _ _ _
  · rfl

namespace Holds

variable {definition : String} {names more : List (String × Reservation)}

theorem start (definition : String) : Holds definition [] (Scope.start definition) where
  definition := rfl
  source := fun _ _ h => Or.inl (occupant?_start h).2

/-- Taking over some more names. -/
theorem folds {included : Bool} (h : Holds definition names scope)
    (hfold : more.foldlM (fun scope name => scope.fold included name.1 name.2) scope =
      .ok scope') : Holds definition (names ++ more) scope' := by
  refine foldlM_ok_inv (P := Holds definition (names ++ more)) ?_ ⟨h.definition, ?_⟩ hfold
  · intro name hname before after hbefore hstep
    refine ⟨(definition_fold hstep).trans hbefore.definition, fun ident occupant hocc => ?_⟩
    rcases occupant?_of_fold hstep hocc with hold | ⟨hsame, -⟩
    · exact hbefore.source ident occupant hold
    · exact Or.inr ⟨name, List.mem_append_right names hname, hsame⟩
  · intro ident occupant hocc
    rcases h.source ident occupant hocc with hword | ⟨name, hname, hsame⟩
    · exact Or.inl hword
    · exact Or.inr ⟨name, List.mem_append_left more hname, hsame⟩

end Holds

/-- Taking names over fails at one of them, when only those before it are in use. -/
theorem exists_stop_of_foldMixins {e : Error}
    (h : (Scope.start d.name).foldMixins c map d = .error e) :
    ∃ before name after scope included,
      map.introducedBy (c.above d ++ c.beside d) = before ++ name :: after ∧
      Holds d.name before scope ∧ scope.fold included name.1 name.2 = .error e := by
  have hboth : map.introducedBy (c.above d ++ c.beside d) =
      map.introducedBy (c.above d) ++ map.introducedBy (c.beside d) := List.flatMap_append
  have hstart := Holds.start d.name
  simp only [foldMixins, foldlM_foldAll] at h
  rcases bind_eq_error.mp h with habove | ⟨middle, habove, hbeside⟩
  · obtain ⟨before, name, after, scope, hsplit, hbefore, hfail⟩ :=
      exists_stop_of_foldlM_error habove
    refine ⟨before, name, after ++ map.introducedBy (c.beside d), scope, false, ?_,
      hstart.folds hbefore, hfail⟩
    rw [hboth, Catalog.above, hsplit, List.append_assoc, List.cons_append]
  · obtain ⟨before, name, after, scope, hsplit, hbefore, hfail⟩ :=
      exists_stop_of_foldlM_error hbeside
    refine ⟨map.introducedBy (c.above d) ++ before, name, after, scope, true, ?_,
      (hstart.folds habove).folds hbefore, hfail⟩
    rw [hboth, Catalog.beside, Catalog.above, hsplit, List.append_assoc]

theorem definition_foldMixins (h : (Scope.start d.name).foldMixins c map d = .ok scope) :
    scope.definition = d.name :=
  foldMixins_inv (P := fun s => s.definition = d.name)
    (fun _ _ _ _ _ _ _ hbefore hstep => (definition_fold hstep).trans hbefore) rfl h

/-! ## requests that meet a name -/

theorem definition_grant {request : NameRequest}
    (h : scope.grant c map d request = .ok scope') : scope'.definition = scope.definition := by
  rcases grant_ok h with ⟨ident, rfl⟩ | ⟨desired, -, hreserve⟩ | ⟨category, -, -, rfl⟩
  · rfl
  · rcases reserve_ok hreserve with rfl | ⟨ident, -, -, rfl⟩
    · rfl
    · exact definition_noteStructural _ _ _
  · rfl

/-- An included mixin that holds an identifier held it before the first request. -/
theorem Grown.included_of_base {found : NameCategory → String → Option String}
    {requests : List NameRequest} {base : Scope} {ident mixin : String} {category : NameCategory}
    (h : Grown found requests base scope)
    (hocc : scope.occupant? ident = some (.included category mixin)) :
    base.occupant? ident = some (.included category mixin) := by
  induction h with
  | base => exact hocc
  | share h hasked hnoted ih => exact ih hocc
  | inherit h hasked hfound ih => exact ih hocc
  | introduce h hasked htarget hnew hfree hprotocol ih =>
      rw [occupant?_introduce] at hocc
      split at hocc
      · cases hocc
      · exact ih hocc

/-- A reservation meets a name only if it is wanted as it is held by an included mixin. -/
theorem reserve_conflict {category : NameCategory} {key wish definition mixin name : String}
    (h : scope.reserve category key wish = .error (.mixinConflict definition mixin name)) :
    scope.table.get? category key = none ∧ definition = scope.definition ∧ name = wish ∧
      ∃ held, scope.occupant? wish = some (.included held mixin) := by
  rw [reserve] at h
  split at h
  next => cases h
  next hnew =>
    rcases bind_eq_error.mp h with hfree | ⟨ident, -, hdone⟩
    · rw [free] at hfree
      split at hfree
      next => cases hfree
      next held holder hocc =>
        cases hfree
        exact ⟨by simpa using hnew, rfl, rfl, held, hocc⟩
      next => cases hfree
    · cases hdone

/-- A request meets a name only as a reservation of what it wants. -/
theorem grant_conflict {request : NameRequest} {definition mixin name : String}
    (h : scope.grant c map d request = .error (.mixinConflict definition mixin name)) :
    ∃ wish, request.desired? = some wish ∧
      scope.grant c map d request = scope.reserve request.target.1 request.target.2 wish := by
  cases request with
  | own category key desired => exact ⟨desired, rfl, rfl⟩
  | inheriting category key desired =>
      refine ⟨desired, rfl, ?_⟩
      simp only [grant] at h ⊢
      split at h
      next => cases h
      next => rfl
  | structural category =>
      simp only [grant, reserveStructural] at h ⊢
      split at h
      next => cases h
      next =>
        split at h
        next => cases h
        next wish hwish =>
          refine ⟨wish, hwish, ?_⟩
          split at h
          next =>
            split at h
            next => cases h
            next hunused => rw [if_neg hunused]; rfl
          next => rfl

end Scope

/-! ## what a definition asks for before it fails -/

/-- The requests of a definition for its kind, alone or with those for its members. -/
def Definition.Asks (c : Catalog) (d : Definition) (requests : List NameRequest) : Prop :=
  ∃ kind, NameRequest.ofKind c d = .ok kind ∧
    (requests = kind ∨ ∃ members, NameRequest.ofMembers c d = .ok members ∧
      requests = kind ++ members)

/-- While the names of a definition are chosen, the turn comes to one of its requests, which is
for a name of its own, and `wish` is the spelling that is wanted for it. -/
def Definition.Wants (c : Catalog) (map : NameMap) (d : Definition) (category : NameCategory)
    (key wish : String) : Prop :=
  ∃ before request after base scope,
    d.Asks c (before ++ request :: after) ∧ request.target = (category, key) ∧
    request.desired? = some wish ∧
    (Scope.start d.name).foldMixins c map d = .ok base ∧
    before.foldlM (Scope.grant c map d) base = .ok scope ∧
    scope.table.get? category key = none ∧
    scope.grant c map d request = scope.reserve category key wish

namespace Definition

variable {c : Catalog} {map : NameMap} {d : Definition}

theorem Asks.made {requests : List NameRequest} (h : d.Asks c requests) :
    ∀ request ∈ requests, NameRequest.Made d request := by
  obtain ⟨kind, hkind, rfl | ⟨members, hmembers, rfl⟩⟩ := h
  · exact NameRequest.made_ofKind hkind
  · exact NameRequest.made_of_run hkind hmembers

/-- What is wanted follows from the category and the key. -/
theorem Wants.wanted {category : NameCategory} {key wish : String}
    (h : d.Wants c map category key wish) : category.wanted? key = some wish := by
  obtain ⟨before, request, after, base, scope, hasks, htarget, hdesired, -⟩ := h
  have hmade := hasks.made request (by simp)
  rw [hmade.desired?_eq, htarget] at hdesired
  exact hdesired

/-- A request that meets a name is for a name of the definition's own and meets one of an
included mixin. -/
theorem Asks.conflict {before after : List NameRequest} {request : NameRequest}
    {base scope : Scope} {definition mixin name : String}
    (hasks : d.Asks c (before ++ request :: after))
    (hbase : (Scope.start d.name).foldMixins c map d = .ok base)
    (hbefore : before.foldlM (Scope.grant c map d) base = .ok scope)
    (hfail : scope.grant c map d request = .error (.mixinConflict definition mixin name)) :
    definition = d.name ∧ mixin ∈ c.beside d ∧
      (∃ a ∈ map.reservations mixin, lowerAscii a.ident = lowerAscii name) ∧
      ∃ category key, d.Wants c map category key name := by
  obtain ⟨wish, hwish, hreserve⟩ := Scope.grant_conflict hfail
  have hdefinition : scope.definition = d.name :=
    foldlM_ok_inv (P := fun s : Scope => s.definition = d.name)
      (fun _ _ _ _ hs hgrant => (Scope.definition_grant hgrant).trans hs)
      (Scope.definition_foldMixins hbase) hbefore
  rw [hreserve] at hfail
  obtain ⟨hnew, rfl, rfl, held, hocc⟩ := Scope.reserve_conflict hfail
  have hheld := (Scope.Grown.of_grants hbefore).included_of_base hocc
  obtain ⟨hbeside, a, ha, hsame⟩ := Scope.accounted_foldMixins hbase _ _ hheld
  refine ⟨hdefinition, hbeside, ⟨a, ha, hsame.symm⟩, request.target.1, request.target.2, ?_⟩
  exact ⟨before, request, after, base, scope, hasks, rfl, hwish, hbase, hbefore, hnew, hreserve⟩

end Definition

/-- The names of a definition meet others while they are taken over, or in the turn of a
request. -/
theorem NameTable.of_conflict {c : Catalog} {map : NameMap} {d : Definition}
    {definition mixin name : String}
    (h : NameTable.of c map d = .error (.mixinConflict definition mixin name)) :
    (Scope.start d.name).foldMixins c map d = .error (.mixinConflict definition mixin name) ∨
    ∃ before request after base scope, d.Asks c (before ++ request :: after) ∧
      (Scope.start d.name).foldMixins c map d = .ok base ∧
      before.foldlM (Scope.grant c map d) base = .ok scope ∧
      scope.grant c map d request = .error (.mixinConflict definition mixin name) := by
  rcases bind_eq_error.mp h with hfold | ⟨base, hbase, h⟩
  · exact Or.inl hfold
  refine Or.inr ?_
  rcases bind_eq_error.mp h with hkind | ⟨kind, hkind, h⟩
  · exact (NameRequest.failsOnly_ofKind c d _ hkind).elim
  rcases bind_eq_error.mp h with hgrants | ⟨middle, hmiddle, h⟩
  · obtain ⟨before, request, after, scope, hsplit, hbefore, hfail⟩ :=
      exists_stop_of_foldlM_error hgrants
    exact ⟨before, request, after, base, scope, ⟨kind, hkind, Or.inl hsplit.symm⟩, hbase, hbefore,
      hfail⟩
  rcases bind_eq_error.mp h with hmembers | ⟨members, hmembers, h⟩
  · exact (NameRequest.failsOnly_ofMembers c d _ hmembers).elim
  rcases bind_eq_error.mp h with hgrants | ⟨last, -, h⟩
  · obtain ⟨before, request, after, scope, hsplit, hbefore, hfail⟩ :=
      exists_stop_of_foldlM_error hgrants
    refine ⟨kind ++ before, request, after, base, scope,
      ⟨kind, hkind, Or.inr ⟨members, hmembers, by simp [hsplit]⟩⟩, hbase, ?_, hfail⟩
    rw [List.foldlM_append, bind_eq_ok]
    exact ⟨middle, hmiddle, hbefore⟩
  · cases h

/-! ## the turn of the definition that fails -/

/-- What a definition reaches is above or beside it, each once. -/
theorem Catalog.nodup_above_beside (c : Catalog) (d : Definition) :
    (c.above d ++ c.beside d).Nodup := by
  refine List.nodup_append.mpr ⟨nodup_walk, nodup_walk, ?_⟩
  rintro name habove _ hbeside rfl
  exact (fresh_of_mem_walk hbeside).2 (List.mem_cons_of_mem _ habove)

namespace Resolver

variable {c : Catalog}

/-- Names that cannot be chosen cannot be chosen in the turn of a definition. -/
theorem exists_ready_of_error {path : List String} {resolver : Resolver} {name : String}
    {e : Error} (hcause : e.ofNaming) (hmap : Settled c resolver.map)
    (h : resolveFrom c path resolver name = .error e) :
    ∃ map d, Ready c map d ∧ NameTable.of c map d = .error e := by
  fun_induction resolveFrom c path resolver name with
  | case1 => cases h
  | case2 =>
      cases h
      exact hcause.elim
  | case3 =>
      cases h
      exact hcause.elim
  | case4 path resolver name hopen hfresh d hd ih =>
      rcases bind_eq_error.mp h with hmixins | ⟨middle, hmixins, h⟩
      · obtain ⟨mixin, -, r, hr, hfail⟩ := foldlM_error (P := fun r : Resolver => Settled c r.map)
          (fun _ _ _ _ hr hstep => (resolveFrom_ok hr hstep).1.settled) hmap hmixins
        exact ih r mixin hr hfail
      · rcases bind_eq_error.mp h with hof | ⟨table, -, h⟩
        · obtain rfl := Catalog.name_of_get? hd
          exact ⟨middle.map, d, Ready.of_foldlM hmap hd (by simpa using hopen) (by simp) hmixins,
            hof⟩
        · cases h

namespace Ready

variable {map : NameMap} {d : Definition}

theorem mem_iff_beyond (h : Ready c map d) (hc : c.WellFormed) {name : String} :
    name ∈ c.above d ++ c.beside d ↔ c.Beyond d.name name :=
  hc.mem_above_or_beside h.known h.acyclic

/-- A name that cannot be taken over meets one of another definition. -/
theorem fold_conflict (h : Ready c map d) (hc : c.WellFormed) {definition mixin name : String}
    (hfail : (Scope.start d.name).foldMixins c map d =
      .error (.mixinConflict definition mixin name)) :
    definition = d.name ∧ c.Beyond d.name mixin ∧
      (∃ a ∈ map.reservations mixin, a.ident = name) ∧
      ∃ other, other ≠ mixin ∧ c.Beyond d.name other ∧
        ∃ b ∈ map.reservations other, lowerAscii b.ident = lowerAscii name := by
  obtain ⟨before, ⟨origin, a⟩, after, scope, included, hnames, hholds, hfold⟩ :=
    Scope.exists_stop_of_foldMixins hfail
  obtain ⟨hwhat, occupant, hocc⟩ := Scope.fold_error hfold
  cases hwhat
  have hmem : ∀ entry ∈ map.introducedBy (c.above d ++ c.beside d),
      c.Beyond d.name entry.1 ∧ entry.2 ∈ map.reservations entry.1 := by
    intro entry hentry
    obtain ⟨horigin, hreserved⟩ := NameMap.mem_introducedBy.mp hentry
    exact ⟨(h.mem_iff_beyond hc).mp horigin, hreserved⟩
  have hdistinct := NameMap.pairwise_introducedBy (c.nodup_above_beside d) fun other hother =>
    h.settled.distinct (h.beyond ((h.mem_iff_beyond hc).mp hother))
  rw [hnames] at hmem hdistinct
  obtain ⟨hbeyond, ha⟩ := hmem (origin, a) (by simp)
  refine ⟨hholds.definition, hbeyond, ⟨a, ha, rfl⟩, ?_⟩
  rcases hholds.source a.ident occupant hocc with ⟨word, hword, hsame⟩ | ⟨entry, hentry, hsame⟩
  · exact absurd hsame (h.settled.ne_reserved (h.beyond hbeyond) ha hword)
  · -- two names of one definition are distinct, so this one is of another
    have hother := (List.pairwise_append.mp hdistinct).2.2 entry hentry (origin, a)
      List.mem_cons_self hsame.symm
    obtain ⟨hbeyond', hb⟩ := hmem entry (List.mem_append_left _ hentry)
    exact ⟨entry.1, hother, hbeyond', entry.2, hb, hsame.symm⟩

end Ready

end Resolver

namespace Registry

open Resolver (Ready Settled resolveMixins)

variable {options : IngestOptions} {nodes : List Node}

/-- The turn in which a conflict makes a registry fail. -/
theorem exists_ready_of_conflict {definition mixin name : String}
    (h : build options nodes = .error (.mixinConflict definition mixin name)) :
    ∃ c map d, Catalog.ofNodes options nodes = .ok c ∧ Ready c map d ∧
      NameTable.of c map d = .error (.mixinConflict definition mixin name) := by
  rcases bind_eq_error.mp h with hnodes | ⟨c, hc, h⟩
  · exact (Catalog.failsOnly_ofNodes options nodes _ hnodes).elim
  rcases bind_eq_error.mp h with hresolve | ⟨resolver, -, h⟩
  · obtain ⟨start, -, r, hr, hfail⟩ := foldlM_error (P := fun r : Resolver => Settled c r.map)
      (fun _ _ _ _ hr hstep => (Resolver.resolveFrom_ok hr hstep).1.settled) Settled.empty
      hresolve
    obtain ⟨map, d, hready, hof⟩ := Resolver.exists_ready_of_error
      (e := .mixinConflict definition mixin name) trivial hr hfail
    exact ⟨c, map, d, hc, hready, hof⟩
  · cases h

/-- **A conflict that is reported is real.**  If a definition is said to conflict with a mixin
over a name, both are different definitions, the definition reaches the mixin along parents and
includes, and the mixin introduces the name up to case.  So does another definition that is
reached, which is neither of the two; or the name is the spelling that is wanted for a name of
the definition's own, and the mixin is reached through its includes. -/
theorem mixin_conflicts_are_real {definition mixin name : String}
    (h : build options nodes = .error (.mixinConflict definition mixin name)) :
    ∃ c d m resolver, Catalog.ofNodes options nodes = .ok c ∧
      d ∈ c.definitions ∧ d.name = definition ∧ m ∈ c.definitions ∧ m.name = mixin ∧
      definition ≠ mixin ∧ c.Beyond definition mixin ∧
      resolveMixins c definition = .ok resolver ∧
      (∃ a ∈ resolver.map.reservations mixin, sameIgnoringCase a.ident name = true) ∧
      ((∃ x ∈ c.definitions, x.name ≠ mixin ∧ x.name ≠ definition ∧ c.Beyond definition x.name ∧
          ∃ b ∈ resolver.map.reservations x.name, sameIgnoringCase b.ident name = true) ∨
        (∃ category key, d.Wants c resolver.map category key name ∧
          category.wanted? key = some name) ∧
        ∃ included ∈ c.included definition, c.Reaches included mixin) := by
  obtain ⟨c, map, d, hnodes, hstage, hfail⟩ := exists_ready_of_conflict h
  have hc := Catalog.wellFormed_ofNodes hnodes
  -- what the definition reaches gives the same conflict when it is resolved on its own
  obtain ⟨resolver, hresolver, hready, hsame⟩ :=
    Resolver.exists_resolveMixins hstage.settled hstage.known hstage.mixins
  rw [← hsame] at hfail
  have hd := Catalog.mem_of_get? hready.known
  have hreached : ∀ x, c.Beyond d.name x → x ≠ d.name ∧ ∃ m ∈ c.definitions, m.name = x := by
    intro x hx
    refine ⟨fun hself => hready.acyclic (hself ▸ hx), ?_⟩
    obtain ⟨m, hm⟩ := Option.isSome_iff_exists.mp (hready.settled.known (hready.beyond hx))
    exact ⟨m, Catalog.mem_of_get? hm, Catalog.name_of_get? hm⟩
  simp only [sameIgnoringCase_iff]
  rcases NameTable.of_conflict hfail with hfold | ⟨before, request, after, base, scope, hasks,
    hbase, hbefore, hgrant⟩
  · obtain ⟨rfl, hbeyond, ⟨a, ha, rfl⟩, other, hne, hother, hheld⟩ := hready.fold_conflict hc hfold
    obtain ⟨hmixin, m, hm, rfl⟩ := hreached mixin hbeyond
    obtain ⟨hself, x, hx, rfl⟩ := hreached other hother
    exact ⟨c, d, m, resolver, hnodes, hd, rfl, hm, rfl, hmixin.symm, hbeyond, hresolver,
      ⟨a, ha, rfl⟩, Or.inl ⟨x, hx, hne, hself, hother, hheld⟩⟩
  · obtain ⟨rfl, hbeside, hheld, category, key, hwants⟩ :=
      hasks.conflict hbase hbefore hgrant
    have hbeyond := (hready.mem_iff_beyond hc).mp (List.mem_append_right _ hbeside)
    obtain ⟨hmixin, m, hm, rfl⟩ := hreached mixin hbeyond
    exact ⟨c, d, m, resolver, hnodes, hd, rfl, hm, rfl, hmixin.symm, hbeyond, hresolver, hheld,
      Or.inr ⟨⟨category, key, hwants, hwants.wanted⟩, Catalog.reachable_of_mem_walk hbeside⟩⟩

/-- An operation without arguments. -/
def operationNamed (name : String) : Member :=
  { kind := .operation {
      name := some name
      signature := { result := .named "undefined" false {}, arguments := [] } } }

/-- A definition that includes two mixins, with some members each. -/
def overlappingNodes (own first second : List Member) : List Node :=
  [.definition { name := "Page", kind := .interface, members := own },
   .definition { name := "Paint", kind := .mixin, members := first },
   .definition { name := "Sketch", kind := .mixin, members := second },
   .includes "Page" "Paint", .includes "Page" "Sketch"]

/-- An operation conflicts with one of an included mixin, and two mixins conflict. -/
theorem overlapping_names_conflict :
    (build {} (overlappingNodes [operationNamed "Draw"] [] [operationNamed "draw"]) =
        .error (.mixinConflict "Page" "Sketch" "Draw") ∧
      ∃ c, Catalog.ofNodes {} (overlappingNodes [operationNamed "Draw"] []
        [operationNamed "draw"]) = .ok c ∧ c.Beyond "Page" "Sketch") ∧
    (build {} (overlappingNodes [] [operationNamed "draw"] [operationNamed "Draw"]) =
        .error (.mixinConflict "Page" "Sketch" "Draw") ∧
      ∃ c resolver, Catalog.ofNodes {} (overlappingNodes [] [operationNamed "draw"]
        [operationNamed "Draw"]) = .ok c ∧ Resolver.resolveMixins c "Page" = .ok resolver ∧
        ∃ a ∈ resolver.map.reservations "Sketch", sameIgnoringCase a.ident "Draw" = true) := by
  have hown : build {} (overlappingNodes [operationNamed "Draw"] [] [operationNamed "draw"]) =
      .error (.mixinConflict "Page" "Sketch" "Draw") :=
    eq_error_of_map (f := fun _ => ()) (by decide +kernel)
  have hmixins : build {} (overlappingNodes [] [operationNamed "draw"] [operationNamed "Draw"]) =
      .error (.mixinConflict "Page" "Sketch" "Draw") :=
    eq_error_of_map (f := fun _ => ()) (by decide +kernel)
  obtain ⟨c, _, _, _, hc, -, -, -, -, -, hbeyond, -⟩ := mixin_conflicts_are_real hown
  obtain ⟨c', _, _, resolver, hc', -, -, -, -, -, -, hresolver, hheld, -⟩ :=
    mixin_conflicts_are_real hmixins
  exact ⟨⟨hown, c, hc, hbeyond⟩, hmixins, c', resolver, hc', hresolver, hheld⟩

end Registry

end WebIdl
