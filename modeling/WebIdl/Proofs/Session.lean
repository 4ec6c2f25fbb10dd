import WebIdl.Naming.Session
import WebIdl.Proofs.Naming

/-!
# WebIdl.Proofs.Session

Requests made one after another, in any order and with repetitions.

Every settled map is a part of the one that has all definitions (`Settled.keeps_whole`),
whatever order it was filled in.  So what can be resolved at all can be resolved in any order
(`exists_resolveFrom`), and all that a definition needs can be on its own, which makes it the
turn of that definition (`Ready`, `exists_resolveMixins`).  Resolving a definition adds what it
reaches and nothing else (`isSome_resolveFrom_iff`), counting one pass for each table
(`passes_resolveFrom`).  `Served` says this of a session after some requests; one more request
keeps it (`Served.known`, `Served.unknown`), and so does any number of them (`served_after`):

* `requests_share_one_map`: the answers are those of the registry, whatever was requested
  before, and a session has the names of what its requests reach.
-/

namespace WebIdl

open Relation

namespace NameMap

/-- The names of some definitions only. -/
def restrict (map : NameMap) (names : List String) : NameMap :=
  ⟨map.tables.filter fun entry => names.contains entry.1⟩

theorem mem_tables_restrict {map : NameMap} {names : List String} {name : String}
    {table : NameTable} : (name, table) ∈ (map.restrict names).tables ↔
      (name, table) ∈ map.tables ∧ name ∈ names := by
  simp [restrict]

end NameMap

namespace Resolver

variable {c : Catalog}

/-! ## where resolving stops -/

/-- A name that is not defined stops resolving before anything is done. -/
theorem resolveOrStop_unknown {path : List String} {resolver : Resolver} {name : String}
    (hget : c.get? name = none) (hnew : resolver.map.table? name = none) (hpath : name ∉ path) :
    resolveOrStop c path resolver name = .error ⟨.unknownDefinition name, resolver, path⟩ := by
  rw [resolveOrStop, if_neg (by simp [hnew]), dif_neg (by simpa using hpath)]
  split
  · rfl
  · rename_i d hd
    rw [hget] at hd
    cases hd

/-- Telling where resolving stopped does not change what it comes to. -/
theorem mapError_resolveOrStop (c : Catalog) (path : List String) (resolver : Resolver)
    (name : String) : (resolveOrStop c path resolver name).mapError (·.error) =
      resolveFrom c path resolver name := by
  fun_induction resolveFrom c path resolver name with
  | case1 path resolver name hdone =>
      rw [resolveOrStop, if_pos hdone]
      rfl
  | case2 path resolver name hopen hmem =>
      rw [resolveOrStop, if_neg hopen, dif_pos hmem]
      rfl
  | case3 path resolver name hopen hfresh hget =>
      rw [resolveOrStop_unknown hget (by simpa using hopen) (by simpa using hfresh)]
      rfl
  | case4 path resolver name hopen hfresh d hd ih =>
      rw [resolveOrStop, if_neg hopen, dif_neg hfresh]
      split
      · rename_i hget
        rw [hd] at hget
        cases hget
      · rename_i d' hd'
        rw [hd, Option.some.injEq] at hd'
        subst hd'
        rw [foldlM_mapError (fun mixin _ r => (ih r mixin).symm) resolver]
        cases (c.mixins name).foldlM
            (fun r mixin => resolveOrStop c (path ++ [name]) r mixin) resolver with
        | error stop => rfl
        | ok middle =>
            simp only [Except.mapError, bind, Except.bind]
            cases NameTable.of c middle.map d with
            | error e => rfl
            | ok table => rfl

theorem resolveOrStop_ok {path : List String} {resolver resolver' : Resolver} {name : String}
    (h : resolveFrom c path resolver name = .ok resolver') :
    resolveOrStop c path resolver name = .ok resolver' := by
  rw [← mapError_resolveOrStop] at h
  cases hrun : resolveOrStop c path resolver name with
  | error stop =>
      rw [hrun] at h
      cases h
  | ok found =>
      rw [hrun] at h
      cases h
      rfl

/-! ## every order fills the same map -/

/-- A settled map is a part of every settled map that has all definitions. -/
theorem Settled.keeps_whole {map whole : NameMap} (h : Settled c map) (hwhole : Settled c whole)
    (hall : ∀ name, (c.get? name).isSome = true → (whole.table? name).isSome = true) :
    map.Keeps whole := by
  intro name table htable
  have hname : (map.table? name).isSome = true := by rw [htable]; rfl
  rw [h.agree hwhole hname (hall name (h.known hname)), htable]

/-- Resolving some definitions one after another makes progress and resolves all of them. -/
theorem foldlM_resolveFrom_ok {path names : List String} {resolver resolver' : Resolver}
    (hmap : Settled c resolver.map)
    (h : names.foldlM (fun r name => resolveFrom c path r name) resolver = .ok resolver') :
    Progress c path resolver.map resolver'.map ∧
      ∀ name ∈ names, (resolver'.map.table? name).isSome = true := by
  constructor
  · refine foldlM_ok_inv (P := fun r : Resolver => Progress c path resolver.map r.map) ?_
      (Progress.refl hmap) h
    intro name _ r r' hr hstep
    exact hr.trans (resolveFrom_ok hr.settled hstep).1
  · refine foldlM_ok_each (P := fun r : Resolver => Settled c r.map)
      (Q := fun name r => (r.map.table? name).isSome = true) ?_ ?_ hmap h
    · intro name _ r r' hr hstep
      exact ⟨(resolveFrom_ok hr hstep).1.settled, (resolveFrom_ok hr hstep).2⟩
    · intro name _ other r r' hr hstep hother
      exact (resolveFrom_ok hr hstep).1.keeps.isSome hother

/-- What can be resolved at all can be resolved whatever was resolved before. -/
theorem exists_resolveFrom {whole : NameMap} (hwhole : Settled c whole)
    {path : List String} {resolver : Resolver} {name : String}
    (hmap : Settled c resolver.map) (hname : (whole.table? name).isSome = true)
    (hpath : ∀ other ∈ path, c.Beyond other name) :
    ∃ resolver', resolveFrom c path resolver name = .ok resolver' := by
  fun_induction resolveFrom c path resolver name with
  | case1 path resolver name hdone => exact ⟨resolver, rfl⟩
  | case2 path resolver name hopen hmem =>
      exact absurd (hpath name (List.contains_iff_mem.mp hmem)) (hwhole.acyclic hname)
  | case3 path resolver name hopen hfresh hget =>
      have hknown := hwhole.known hname
      rw [hget] at hknown
      cases hknown
  | case4 path resolver name hopen hfresh d hd ih =>
      have hmixin : ∀ mixin ∈ c.mixins name, ∀ r : Resolver, Settled c r.map →
          ∃ r', resolveFrom c (path ++ [name]) r mixin = .ok r' ∧ Settled c r'.map := by
        intro mixin hmixin r hr
        have hbeyond : ∀ other ∈ path ++ [name], c.Beyond other mixin := by
          intro other hother
          rcases List.mem_append.mp hother with hother | hother
          · exact TransGen.tail (hpath other hother) hmixin
          · rw [List.mem_singleton.mp hother]
            exact TransGen.single hmixin
        obtain ⟨r', hr'⟩ := ih r mixin hr (hwhole.edge hname hmixin) hbeyond
        exact ⟨r', hr', (resolveFrom_ok hr hr').1.settled⟩
      obtain ⟨middle, hmiddle⟩ :=
        foldlM_ok_of_steps (P := fun r : Resolver => Settled c r.map) hmixin hmap
      obtain ⟨hprogress, hready⟩ := foldlM_resolveFrom_ok hmap hmiddle
      -- the names were chosen once, from tables that are in `middle` already
      obtain ⟨table, htable⟩ := Option.isSome_iff_exists.mp hname
      obtain ⟨d', hd', hof⟩ := hwhole.table_of htable
      rw [hd, Option.some.injEq] at hd'
      obtain rfl := Catalog.name_of_get? hd
      rw [← hd', hwhole.of_mixins hprogress.settled hd (fun mixin => hwhole.edge hname)
        hready] at hof
      rw [hmiddle]
      exact ⟨_, by simp only [bind, Except.bind, hof]; rfl⟩

/-! ## the turn of a definition -/

/-- It is the turn of a definition: all that it inherits or includes is resolved, and it is
not. -/
structure Ready (c : Catalog) (map : NameMap) (d : Definition) : Prop where
  settled : Settled c map
  known : c.get? d.name = some d
  fresh : map.table? d.name = none
  mixins : ∀ mixin ∈ c.mixins d.name, (map.table? mixin).isSome = true

/-- Resolve all that a definition inherits or includes, and nothing else. -/
def resolveMixins (c : Catalog) (name : String) : Except Error Resolver :=
  (c.mixins name).foldlM (fun resolver mixin => resolveFrom c [name] resolver mixin) {}

namespace Ready

variable {map : NameMap} {d : Definition}

/-- With it all that the definition reaches is resolved. -/
theorem beyond (h : Ready c map d) {name : String} (hbeyond : c.Beyond d.name name) :
    (map.table? name).isSome = true := by
  obtain ⟨mixin, hedge, hpath⟩ := TransGen.head'_iff.mp hbeyond
  exact h.settled.reaches (h.mixins mixin hedge) hpath

theorem acyclic (h : Ready c map d) : ¬ c.Beyond d.name d.name := by
  intro hcycle
  have hdone := h.beyond hcycle
  rw [h.fresh] at hdone
  cases hdone

/-- After some definitions were resolved it is the turn of one that waited for them. -/
theorem of_foldlM {path : List String} {resolver resolver' : Resolver}
    (hmap : Settled c resolver.map) (hd : c.get? d.name = some d)
    (hopen : resolver.map.table? d.name = none) (hpath : d.name ∈ path)
    (h : (c.mixins d.name).foldlM (fun r mixin => resolveFrom c path r mixin) resolver =
      .ok resolver') : Ready c resolver'.map d := by
  obtain ⟨hprogress, hready⟩ := foldlM_resolveFrom_ok hmap h
  exact ⟨hprogress.settled, hd, hprogress.waits d.name hpath hopen, hready⟩

end Ready

/-- What a definition needs can be resolved on its own, if it can be resolved at all, and gives
the definition the same names. -/
theorem exists_resolveMixins {whole : NameMap} {d : Definition} (hwhole : Settled c whole)
    (hd : c.get? d.name = some d)
    (hmixins : ∀ mixin ∈ c.mixins d.name, (whole.table? mixin).isSome = true) :
    ∃ resolver, resolveMixins c d.name = .ok resolver ∧ Ready c resolver.map d ∧
      NameTable.of c resolver.map d = NameTable.of c whole d := by
  have hstep : ∀ mixin ∈ c.mixins d.name, ∀ r : Resolver, Settled c r.map →
      ∃ r', resolveFrom c [d.name] r mixin = .ok r' ∧ Settled c r'.map := by
    intro mixin hmixin r hr
    have hpath : ∀ other ∈ [d.name], c.Beyond other mixin := by
      intro other hother
      rw [List.mem_singleton.mp hother]
      exact TransGen.single hmixin
    obtain ⟨r', hr'⟩ := exists_resolveFrom hwhole hr (hmixins mixin hmixin) hpath
    exact ⟨r', hr', (resolveFrom_ok hr hr').1.settled⟩
  have hempty : Settled c ({} : Resolver).map := Settled.empty
  obtain ⟨resolver, hresolver⟩ :=
    foldlM_ok_of_steps (P := fun r : Resolver => Settled c r.map) hstep hempty
  have hready : Ready c resolver.map d :=
    .of_foldlM hempty hd rfl List.mem_cons_self hresolver
  exact ⟨resolver, hresolver, hready,
    hready.settled.of_mixins hwhole hd hready.mixins hmixins⟩

/-! ## what resolving adds -/

/-- What is resolved was resolved before or is reached. -/
theorem reaches_of_resolveFrom {path : List String} {resolver resolver' : Resolver} {name : String}
    (h : resolveFrom c path resolver name = .ok resolver') {other : String}
    (hother : (resolver'.map.table? other).isSome = true) :
    (resolver.map.table? other).isSome = true ∨ c.Reaches name other := by
  fun_induction resolveFrom c path resolver name generalizing resolver' with
  | case1 path resolver name hdone =>
      cases h
      exact Or.inl hother
  | case2 => cases h
  | case3 => cases h
  | case4 path resolver name hopen hfresh d hd ih =>
      simp only [bind_eq_ok, pure_eq_ok] at h
      obtain ⟨middle, hmixins, table, htable, rfl⟩ := h
      have hmiddle : (middle.map.table? other).isSome = true →
          (resolver.map.table? other).isSome = true ∨ c.Reaches name other := by
        refine foldlM_ok_inv (P := fun r : Resolver => (r.map.table? other).isSome = true →
          (resolver.map.table? other).isSome = true ∨ c.Reaches name other) ?_ Or.inl hmixins
        intro mixin hmixin r r' hr hstep hdone
        rcases ih r mixin hstep hdone with hbefore | hpath
        · exact hr hbefore
        · exact Or.inr (ReflTransGen.head hmixin hpath)
      by_cases hsame : other = name
      · exact Or.inr (hsame ▸ ReflTransGen.refl)
      · rw [NameMap.table?_insert_of_ne middle.map table hsame] at hother
        exact hmiddle hother

/-- Resolving a definition adds what it reaches and nothing else. -/
theorem isSome_resolveFrom_iff {path : List String} {resolver resolver' : Resolver} {name : String}
    (hmap : Settled c resolver.map) (h : resolveFrom c path resolver name = .ok resolver')
    {other : String} : (resolver'.map.table? other).isSome = true ↔
      (resolver.map.table? other).isSome = true ∨ c.Reaches name other := by
  constructor
  · exact reaches_of_resolveFrom h
  · obtain ⟨hprogress, hdone⟩ := resolveFrom_ok hmap h
    rintro (hbefore | hpath)
    · exact hprogress.keeps.isSome hbefore
    · exact hprogress.settled.reaches hdone hpath

/-- Every table took one pass. -/
theorem passes_resolveFrom {path : List String} {resolver resolver' : Resolver} {name : String}
    (hpasses : resolver.passes = resolver.map.tables.length)
    (h : resolveFrom c path resolver name = .ok resolver') :
    resolver'.passes = resolver'.map.tables.length := by
  fun_induction resolveFrom c path resolver name generalizing resolver' with
  | case1 path resolver name hdone =>
      cases h
      exact hpasses
  | case2 => cases h
  | case3 => cases h
  | case4 path resolver name hopen hfresh d hd ih =>
      simp only [bind_eq_ok, pure_eq_ok] at h
      obtain ⟨middle, hmixins, table, htable, rfl⟩ := h
      have hmiddle : middle.passes = middle.map.tables.length :=
        foldlM_ok_inv (P := fun r : Resolver => r.passes = r.map.tables.length)
          (fun mixin _ r r' hr hstep => ih r mixin hr hstep) hpasses hmixins
      simp [NameMap.insert, hmiddle]

/-- Nothing is resolved twice. -/
theorem Settled.nodup_keys {map : NameMap} (h : Settled c map) :
    (map.tables.map (·.1)).Nodup := by
  induction h with
  | empty => exact List.nodup_nil
  | @insert map name d table hmap hd hnew hmixins htable ih =>
      rw [NameMap.insert, List.map_append, List.nodup_append]
      refine ⟨ih, List.nodup_singleton name, ?_⟩
      rintro a ha b hb rfl
      rw [List.mem_singleton.mp hb, ← NameMap.isSome_table?_iff, hnew] at ha
      cases ha

end Resolver

namespace Registry

open Resolver (Settled)

variable {options : IngestOptions} {nodes : List Node} {r : Registry}

/-- What a session over a registry is after some requests: it is idle, and has resolved
what the requested names reach, in one pass each. -/
structure Served (r : Registry) (names : List String) (session : Session) : Prop where
  settled : Settled r.toCatalog session.map
  idle : session.inProgress = []
  passes : session.passes = session.map.tables.length
  resolved : ∀ name, (session.map.table? name).isSome = true ↔
    ∃ start ∈ names, (r.get? start).isSome = true ∧ r.toCatalog.Reaches start name

namespace Served

variable {names : List String} {session : Session}

/-- Nothing was requested yet. -/
theorem new (r : Registry) : Served r [] {} where
  settled := Settled.empty
  idle := rfl
  passes := rfl
  resolved := fun name => by simp [NameMap.table?]

/-- A request for a definition is answered with what the registry has for it. -/
theorem known (h : build options nodes = .ok r) (hs : Served r names session) {name : String}
    (hname : (r.get? name).isSome = true) :
    ∃ idents session', r.names.introduced? name = some idents ∧
      session.resolve r.toCatalog name = (.ok idents, session') ∧
      Served r (names ++ [name]) session' := by
  obtain ⟨hwhole, hall⟩ := settled_of_build h
  have hrun : ∃ resolver, Resolver.resolveFrom r.toCatalog [] session.toResolver name =
      .ok resolver :=
    Resolver.exists_resolveFrom hwhole hs.settled (hall name hname) (by simp)
  obtain ⟨resolver, hrun⟩ := hrun
  obtain ⟨hprogress, hdone⟩ := Resolver.resolveFrom_ok hs.settled hrun
  obtain ⟨table, htable⟩ := Option.isSome_iff_exists.mp hdone
  have hsame := hprogress.settled.keeps_whole hwhole hall name table htable
  refine ⟨table.idents, { resolver with inProgress := [] }, ?_, ?_, ?_⟩
  · rw [NameMap.introduced?, hsame]
    rfl
  · rw [Session.resolve, hs.idle, Resolver.resolveOrStop_ok hrun]
    simp only [NameMap.introduced?, htable, Option.map_some, Option.getD_some]
  · refine ⟨hprogress.settled, rfl, Resolver.passes_resolveFrom hs.passes hrun, fun other => ?_⟩
    rw [Resolver.isSome_resolveFrom_iff hs.settled hrun, hs.resolved]
    simp [or_and_right, exists_or, hname]

/-- A request for anything else changes nothing. -/
theorem unknown (hs : Served r names session) {name : String}
    (hname : r.get? name = none) :
    session.resolve r.toCatalog name = (.error (.unknownDefinition name), session) ∧
      Served r (names ++ [name]) session := by
  have hnew : session.map.table? name = none := by
    cases htable : session.map.table? name with
    | none => rfl
    | some table =>
        have hknown := hs.settled.known (by rw [htable]; rfl : (_ : Bool) = true)
        rw [hname] at hknown
        cases hknown
  have hstop : session.resolveOrStop r.toCatalog session.inProgress name =
      .error ⟨.unknownDefinition name, session.toResolver, session.inProgress⟩ :=
    Resolver.resolveOrStop_unknown hname hnew (by simp [hs.idle])
  constructor
  · rw [Session.resolve, hstop]
  · refine ⟨hs.settled, hs.idle, hs.passes, fun other => ?_⟩
    rw [hs.resolved]
    simp [or_and_right, exists_or, hname]

/-- One more request, for whatever name. -/
theorem step (h : build options nodes = .ok r) (hs : Served r names session) (name : String) :
    Served r (names ++ [name]) (session.resolve r.toCatalog name).2 := by
  cases hget : r.get? name with
  | none =>
      obtain ⟨hsame, hserved⟩ := hs.unknown hget
      rw [hsame]
      exact hserved
  | some d =>
      obtain ⟨idents, session', -, hsame, hserved⟩ := hs.known h (by rw [hget]; rfl)
      rw [hsame]
      exact hserved

/-- The tables of a session are the registry's, for what it has resolved. -/
theorem perm_restrict (h : build options nodes = .ok r) (hs : Served r names session) :
    session.map.tables.Perm (r.names.restrict (session.map.tables.map (·.1))).tables := by
  obtain ⟨hwhole, hall⟩ := settled_of_build h
  have hkeeps := hs.settled.keeps_whole hwhole hall
  have hkeys := hs.settled.nodup_keys
  have hnodup : (r.names.restrict (session.map.tables.map (·.1))).tables.Nodup :=
    (hwhole.nodup_keys.of_map _).filter _
  refine (List.perm_ext_iff_of_nodup (hkeys.of_map _) hnodup).mpr fun entry => ?_
  obtain ⟨name, table⟩ := entry
  rw [NameMap.mem_tables_restrict, ← NameMap.table?_eq_some_iff hkeys,
    ← NameMap.table?_eq_some_iff hwhole.nodup_keys, ← NameMap.isSome_table?_iff]
  constructor
  · intro hfound
    exact ⟨hkeeps name table hfound, by rw [hfound]; rfl⟩
  · rintro ⟨htable, hdone⟩
    obtain ⟨found, hfound⟩ := Option.isSome_iff_exists.mp hdone
    rw [hkeeps name found hfound, Option.some.injEq] at htable
    rw [hfound, htable]

end Served

/-- Any number of requests. -/
theorem served_after (h : build options nodes = .ok r) (names : List String) :
    Served r names (Session.after r.toCatalog names) := by
  induction names using List.reverseRecOn with
  | nil => exact Served.new r
  | append_singleton names name ih =>
      rw [Session.after, List.foldl_append]
      exact ih.step h name

/-- **Requests are answered alike in every order**: whatever names were requested of a
session before, a definition is answered with the identifiers that the registry has for
it, and any other name with an error that leaves the session as it was.  After some
requests a session has taken one pass for each definition that the requested ones reach,
it is resolving nothing, and its map is that of the registry for these definitions. -/
theorem requests_share_one_map (h : build options nodes = .ok r) (names : List String) :
    (∀ name, (r.get? name).isSome = true → ∃ idents, r.names.introduced? name = some idents ∧
      ((Session.after r.toCatalog names).resolve r.toCatalog name).1 = .ok idents) ∧
    (∀ name, r.get? name = none → (Session.after r.toCatalog names).resolve r.toCatalog name =
      (.error (.unknownDefinition name), Session.after r.toCatalog names)) ∧
    ∃ reached : List String, reached.Nodup ∧
      (∀ name, name ∈ reached ↔
        ∃ start ∈ names, (r.get? start).isSome = true ∧ r.toCatalog.Reaches start name) ∧
      (Session.after r.toCatalog names).passes = reached.length ∧
      (Session.after r.toCatalog names).inProgress = [] ∧
      (Session.after r.toCatalog names).map.tables.Perm (r.names.restrict reached).tables := by
  have hserved := served_after h names
  refine ⟨?_, fun name hname => (hserved.unknown hname).1, ?_⟩
  · intro name hname
    obtain ⟨idents, session', hidents, hsame, -⟩ := hserved.known h hname
    exact ⟨idents, hidents, by rw [hsame]⟩
  · refine ⟨_, hserved.settled.nodup_keys, fun name => ?_, ?_, hserved.idle,
      hserved.perm_restrict h⟩
    · rw [← NameMap.isSome_table?_iff]
      exact hserved.resolved name
    · rw [List.length_map]
      exact hserved.passes

/-- A mixin that is requested twice, with an unknown name in between, is resolved once, and
the definition that includes it is answered as if nothing had been requested before. -/
theorem sample_requests_share_one_map :
    ∃ r, build {} sampleNodes = .ok r ∧ (r.get? "Child").isSome = true ∧
      r.get? "Nowhere" = none ∧
      (Session.after r.toCatalog ["Extra", "Nowhere", "Extra"]).passes = 1 ∧
      ((Session.after r.toCatalog ["Extra", "Nowhere", "Extra"]).resolve r.toCatalog "Child").1 =
        .ok ["_1_getLength", "_1_setLength"] ∧
      (Session.after r.toCatalog ["Extra", "Nowhere", "Extra"]).resolve r.toCatalog "Nowhere" =
        (.error (.unknownDefinition "Nowhere"),
          Session.after r.toCatalog ["Extra", "Nowhere", "Extra"]) := by
  have hbuild : (build {} sampleNodes).toOption.map (fun r =>
      ((r.get? "Child").isSome, (r.get? "Nowhere").isSome, r.names.introduced? "Child",
        (Session.after r.toCatalog ["Extra", "Nowhere", "Extra"]).passes)) =
      some (true, false, some ["_1_getLength", "_1_setLength"], 1) := by
    decide +kernel
  obtain ⟨r, hr, hfacts⟩ := ok_of_toOption_map hbuild
  obtain ⟨hchild, hnowhere, hidents, hpasses⟩ := by simpa only [Prod.mk.injEq] using hfacts
  have hnone : r.get? "Nowhere" = none := by simpa using hnowhere
  obtain ⟨hknown, hunknown, -⟩ := requests_share_one_map hr ["Extra", "Nowhere", "Extra"]
  obtain ⟨idents, hsame, hanswer⟩ := hknown "Child" hchild
  rw [hidents, Option.some.injEq] at hsame
  rw [← hsame] at hanswer
  exact ⟨r, hr, hchild, hnone, hpasses, hanswer, hunknown "Nowhere" hnone⟩

end Registry

end WebIdl
