import WebIdl.Proofs.Failures
import Mathlib

/-!
# WebIdl.Proofs.Snapshot

What the cast of a dictionary knows of the objects of its ancestors.

The fields of a dictionary are those of its chain, the outermost first; what belongs to an
ancestor and what is above it are the fields of the chain of the ancestor
(`filter_chainFields`), so a snapshot reads what the ancestor has itself (`snapshots_eq`).
Lines that read fields are told from other code by their shape (`Stmt.entries`), and the
accessors of an ancestor have the same lines as the branch of the cast that is for it
(`branches_of_cast`).
-/

namespace WebIdl

/-! ## maps -/

/-- A map that succeeds does so element by element. -/
theorem mapM_ok_iff {ε α β : Type} {f : α → Except ε β} {xs : List α} {ys : List β} :
    xs.mapM f = .ok ys ↔ List.Forall₂ (fun x y => f x = .ok y) xs ys := by
  induction xs generalizing ys with
  | nil => cases ys <;> simp [pure_eq_ok]
  | cons x xs ih =>
      rw [List.mapM_cons]
      simp only [bind_eq_ok, pure_eq_ok, ih]
      cases ys <;> simp

/-- What holds of matching elements as an equation holds of the lists. -/
theorem map_eq_of_forall₂ {α β γ : Type} {R : α → β → Prop} {xs : List α} {ys : List β}
    {f : β → γ} {g : α → γ} (h : List.Forall₂ R xs ys) (heq : ∀ x y, R x y → f y = g x) :
    ys.map f = xs.map g := by
  induction h with
  | nil => rfl
  | cons hxy _ ih => rw [List.map_cons, List.map_cons, heq _ _ hxy, ih]

/-! ## fields -/

/-- The field that a member declares. -/
def Member.field? (member : Member) : Option Field :=
  match member.kind with
  | .field decl => some decl
  | _ => none

namespace Definition

/-- The fields that a definition declares. -/
def fields (d : Definition) : List Field :=
  d.members.filterMap (·.field?)

/-- A dictionary that declares fields of different names, and nothing else. -/
structure IsRecord (d : Definition) : Prop where
  kind : d.kind = .dictionary
  members : ∀ member ∈ d.members, member.field?.isSome = true
  distinct : (d.fields.map (·.name)).Nodup

/-- What counts as a dictionary is of that kind. -/
theorem kind_of_isDictionary {d : Definition} (h : d.isDictionary = true) :
    d.kind = .dictionary := by
  unfold isDictionary at h
  split at h
  · assumption
  · cases h

instance (d : Definition) : Decidable d.IsRecord :=
  decidable_of_iff (d.isDictionary = true ∧
    (∀ member ∈ d.members, member.field?.isSome = true) ∧ (d.fields.map (·.name)).Nodup)
    ⟨fun ⟨hkind, hmembers, hdistinct⟩ => ⟨kind_of_isDictionary hkind, hmembers, hdistinct⟩,
     fun h => ⟨by rw [isDictionary, h.kind], h.members, h.distinct⟩⟩

/-- The fields of a definition, each with the definition. -/
def ownFields (d : Definition) : List OwnedField :=
  d.fields.map fun decl => { owner := d, decl }

end Definition

/-- The fields among some members are the members that are fields. -/
theorem fieldsIn_eq (items : List SurfaceMember) :
    fieldsIn items = items.filterMap fun item =>
      item.member.field?.map fun decl => { owner := item.owner, decl } := by
  rw [fieldsIn, Feature.ofMembers]
  generalize ([] : List (String × String)) = operations
  generalize ([] : List String) = constructors
  fun_induction Feature.ofMembersAfter operations constructors items with
  | case1 => rfl
  | case2 operations constructors item rest owner decl hkind ih
  | case3 operations constructors item rest owner decl hkind ih
  | case5 operations constructors item rest owner decl hkind ih
  | case6 operations constructors item rest owner signature special hkind ih
  | case7 operations constructors item rest owner name signature special hkind hturn ih
  | case8 operations constructors item rest owner name signature special hkind hturn _ ih
  | case9 operations constructors item rest owner arguments hkind hturn ih
  | case10 operations constructors item rest owner arguments hkind hturn ih =>
      simp [Member.field?, hkind, ih]
  | case4 operations constructors item rest owner decl hkind ih =>
      simp [Member.field?, hkind, ih, owner]

/-- The fields among the own members are the own fields. -/
theorem fieldsIn_ownMembers (d : Definition) : fieldsIn d.ownMembers = d.ownFields := by
  rw [fieldsIn_eq, Definition.ownMembers, Definition.ownFields, Definition.fields,
    List.filterMap_map, List.map_filterMap]
  rfl

/-- A record has no features but its fields. -/
theorem Definition.IsRecord.features {d : Definition} (h : d.IsRecord) :
    Feature.ofMembers d.ownMembers = d.ownFields.map .field := by
  have hfields : ∀ feature ∈ Feature.ofMembers d.ownMembers, ∃ f, feature = .field f := by
    intro feature hfeature
    obtain ⟨item, hitem, hstarts⟩ := Feature.starts_of_mem hfeature
    obtain ⟨member, hmember, rfl⟩ := List.mem_map.mp hitem
    have hfield := h.members member hmember
    cases hstarts with
    | field hkind => exact ⟨_, rfl⟩
    | constant hkind | «attribute» hkind | iterable hkind | operation hkind
    | constructors hkind =>
        change member.kind = _ at hkind
        simp [Member.field?, hkind] at hfield
  rw [← fieldsIn_ownMembers, fieldsIn]
  generalize Feature.ofMembers d.ownMembers = features at hfields
  induction features with
  | nil => rfl
  | cons feature features ih =>
      obtain ⟨f, rfl⟩ := hfields feature List.mem_cons_self
      have hrest := ih fun other hother => hfields other (List.mem_cons_of_mem _ hother)
      simp only [List.filterMap_cons, List.map_cons, ← hrest]

namespace Artifact

open WebIdl.Code
open WebIdl.Text (quote)

/-! ## fields of a chain -/

/-- The fields of a chain are those of its last definition first. -/
theorem chainFields_eq (chain : List Definition) :
    chainFields chain = chain.reverse.flatMap Definition.ownFields := by
  simp only [chainFields, fieldsIn_ownMembers]

/-- A definition's fields come after those of its ancestors. -/
theorem chainFields_cons (d : Definition) (chain : List Definition) :
    chainFields (d :: chain) = chainFields chain ++ d.ownFields := by
  simp [chainFields_eq]

/-- A field of a chain is one that a definition on it has. -/
theorem mem_chainFields {chain : List Definition} {f : OwnedField} :
    f ∈ chainFields chain ↔ f.owner ∈ chain ∧ f.decl ∈ f.owner.fields := by
  simp only [chainFields_eq, List.mem_flatMap, List.mem_reverse, Definition.ownFields,
    List.mem_map]
  constructor
  · rintro ⟨d, hd, decl, hdecl, rfl⟩
    exact ⟨hd, hdecl⟩
  · rintro ⟨hd, hdecl⟩
    exact ⟨f.owner, hd, f.decl, hdecl, rfl⟩

/-- Of the fields of a chain, those that belong to its end are the fields of its end. -/
theorem filter_chainFields {front chain : List Definition}
    (h : ((front ++ chain).map (·.name)).Nodup) :
    (chainFields (front ++ chain)).filter (fun f => chain.any (·.name == f.owner.name)) =
      chainFields chain := by
  rw [List.map_append, List.nodup_append] at h
  induction front with
  | nil =>
      rw [List.nil_append, List.filter_eq_self]
      intro f hf
      exact List.any_eq_true.mpr ⟨f.owner, (mem_chainFields.mp hf).1, beq_self_eq_true _⟩
  | cons d front ih =>
      have hnone : d.ownFields.filter (fun f => chain.any (·.name == f.owner.name)) = [] := by
        rw [List.filter_eq_nil_iff]
        intro f hf hany
        obtain ⟨decl, -, rfl⟩ := List.mem_map.mp hf
        obtain ⟨other, hother, hsame⟩ := List.any_eq_true.mp hany
        exact h.2.2 d.name List.mem_cons_self other.name (List.mem_map_of_mem hother)
          (beq_iff_eq.mp hsame).symm
      rw [List.cons_append, chainFields_cons, List.filter_append, hnone, List.append_nil]
      exact ih ⟨h.1.of_cons, h.2.1, fun a ha => h.2.2 a (List.mem_cons_of_mem _ ha)⟩

/-- A snapshot reads the fields of the ancestor and of all above it. -/
theorem snapshots_eq {c : Catalog} {d : Definition} (front : List Definition)
    {chain : List Definition} (hlineage : c.Lineage d chain)
    (hnodup : ((front ++ chain).map (·.name)).Nodup)
    (habove : ∀ a ∈ chain, ∀ above, c.Lineage a above → c.ancestors a = above) :
    snapshots (chainFields (front ++ chain)) chain =
      chain.map fun a => { ancestor := a, fields := chainFields (a :: c.ancestors a) } := by
  induction hlineage generalizing front with
  | root => rfl
  | @child d parent name above hparent hget hchain ih =>
      obtain ⟨hfirst, hrest⟩ := List.forall_mem_cons.mp habove
      have hfields := filter_chainFields hnodup
      rw [List.append_cons] at hnodup
      rw [snapshots, hfields, List.map_cons, hfirst above hchain, List.append_cons,
        ih _ hnodup hrest]

end Artifact

/-! ## lines that read fields -/

namespace Code

/-- The key and the getter of a line that has a key and calls a getter without arguments. -/
def readsField? : List Piece → Option (String × String)
  | [.text key, .value method, .text "(),"] => some (key, method)
  | [.text key, .self method, .text "(),"] => some (key, method)
  | _ => none

namespace Stmt

mutual

/-- The keys and getters of the lines of a statement that read fields, in order. -/
def entries : Stmt → List (String × String)
  | .line pieces => (readsField? pieces).toList
  | .blank => []
  | .braced _ _ body => entriesAll body

/-- The keys and getters of the lines of some statements that read fields, in order. -/
def entriesAll : List Stmt → List (String × String)
  | [] => []
  | stmt :: stmts => stmt.entries ++ entriesAll stmts

end

@[simp] theorem entries_plain (text : String) : (plain text).entries = [] := rfl

@[simp] theorem entries_control (head : String) (body : List Stmt) :
    (control head body).entries = entriesAll body := by
  rw [control, entries]

@[simp] theorem entries_matching (head : String) (arms : List Stmt) :
    (matching head arms).entries = entriesAll arms := by
  rw [matching, entries]

@[simp] theorem entriesAll_nil : entriesAll [] = [] := rfl

@[simp] theorem entriesAll_cons (stmt : Stmt) (stmts : List Stmt) :
    entriesAll (stmt :: stmts) = stmt.entries ++ entriesAll stmts := rfl

/-- Statements after others have their entries after them. -/
@[simp] theorem entriesAll_append (stmts others : List Stmt) :
    entriesAll (stmts ++ others) = entriesAll stmts ++ entriesAll others := by
  induction stmts with
  | nil => rfl
  | cons stmt stmts ih => simp [ih]

/-- Lists of statements have the entries of each. -/
theorem entriesAll_flatten (lists : List (List Stmt)) :
    entriesAll lists.flatten = lists.flatMap entriesAll := by
  induction lists with
  | nil => rfl
  | cons stmts lists ih => simp [ih]

end Stmt

/-- The keys and getters that the methods of a trait read fields with. -/
def exposes (items : List Item) : List (String × String) :=
  items.flatMap fun
    | .method { body := .code stmts, .. } => Stmt.entriesAll stmts
    | _ => []

end Code

namespace Registry

open WebIdl.Text (quote)

/-- Names are those of the getters that the owners of fields have for them. -/
def Getters (r : Registry) (fields : List OwnedField) (names : List String) : Prop :=
  names.map some = fields.map fun f => r.name? f.owner.name .getter f.decl.name

/-- The getters of some fields are the names that the fields have reserved. -/
theorem Getters.mem_iff {r : Registry} {fields : List OwnedField} {names : List String}
    (h : r.Getters fields names) {name : String} :
    name ∈ names ↔ ∃ f ∈ fields, r.name? f.owner.name .getter f.decl.name = some name := by
  have hsome : name ∈ names ↔ some name ∈ names.map some := by simp
  rw [hsome, h, List.mem_map]

/-- Entries are for fields: they have the names of the fields for keys, and read the getters
that the owners of the fields have for them. -/
def Reads (r : Registry) (fields : List OwnedField) (entries : List (String × String)) : Prop :=
  entries.map (fun entry => (entry.1, some entry.2)) =
    fields.map fun f => (quote f.decl.name ++ " => ", r.name? f.owner.name .getter f.decl.name)

/-- Fields are read by one list of entries only. -/
theorem Reads.unique {r : Registry} {fields : List OwnedField}
    {entries entries' : List (String × String)} (h : r.Reads fields entries)
    (h' : r.Reads fields entries') : entries = entries' := by
  refine List.map_injective_iff.mpr ?_ (h.trans h'.symm)
  rintro ⟨key, method⟩ ⟨key', method'⟩ heq
  simpa using heq

end Registry

namespace Artifact

open WebIdl.Code
open WebIdl.Text (quote)

/-- A map that comes to something does so element by element. -/
theorem Yields.forall₂_mapM {α β : Type} {f : α → Draft β} {xs : List α} {ys : List β}
    (h : Yields (xs.mapM f) ys) : List.Forall₂ (fun x y => Yields (f x) y) xs ys := by
  induction xs generalizing ys with
  | nil =>
      rw [List.mapM_nil, Yields.pure_iff] at h
      exact h ▸ .nil
  | cons x xs ih =>
      rw [List.mapM_cons] at h
      obtain ⟨y, hy, h⟩ := h.bind
      obtain ⟨zs, hzs, h⟩ := h.bind
      rw [Yields.pure_iff] at h
      exact h ▸ .cons hy (ih hzs)

namespace Target

variable {t : Target} {fields : List OwnedField}

/-! ### the cast -/

/-- A snapshot reads its fields in order. -/
theorem reads_snapshotLines {lines : List Stmt} (h : t.snapshotLines fields = .ok lines) :
    t.registry.Reads fields (Stmt.entriesAll lines) := by
  rw [snapshotLines, mapM_ok_iff] at h
  induction h with
  | nil => rfl
  | @cons f line fields lines hline _ ih =>
      simp only [bind_eq_ok, pure_eq_ok] at hline
      obtain ⟨getter, hgetter, rfl⟩ := hline
      have hname := Registry.name?_of_nameOf hgetter
      rw [Registry.Reads] at ih ⊢
      simp [Stmt.entries, readsField?, hname, ih]

/-- The branch for an ancestor tests for its contract and reads its fields. -/
theorem reads_snapshotStmt {snapshot : Snapshot} {stmt : Stmt}
    (h : t.snapshotStmt snapshot = .ok stmt) :
    ∃ body, stmt = ifInstance (t.qualified .contract snapshot.ancestor.name) body ∧
      t.registry.Reads snapshot.fields (Stmt.entriesAll body) := by
  simp only [snapshotStmt, bind_eq_ok, pure_eq_ok] at h
  obtain ⟨lines, hlines, rfl⟩ := h
  have hreads := reads_snapshotLines hlines
  refine ⟨_, rfl, ?_⟩
  cases lines with
  | nil => simpa using hreads
  | cons line lines => simpa [Stmt.entries] using hreads

/-- Defaults read nothing. -/
theorem entries_defaultLines {lines : List Stmt} (h : defaultLines fields = .ok lines) :
    Stmt.entriesAll lines = [] := by
  fun_induction defaultLines fields generalizing lines with
  | case1 =>
      cases h
      rfl
  | case2 f fields default hdefault habsent ih => exact ih h
  | case3 f fields default hdefault hpresent ih =>
      simp only [bind_eq_ok, pure_eq_ok] at h
      obtain ⟨value, -, others, hothers, rfl⟩ := h
      simp [ih hothers]
  | case4 f fields hdefault ih => exact ih h

theorem entries_conversion {f : OwnedField} {stmts : List Stmt}
    (h : Yields (t.conversion f) stmts) : Stmt.entriesAll stmts = [] := by
  obtain ⟨found, -, h⟩ := h.bind
  cases found with
  | none =>
      rw [Yields.pure_iff] at h
      rw [← h, Stmt.entriesAll_nil]
  | some d =>
      dsimp only at h
      split at h
      · rw [Yields.pure_iff] at h
        rw [← h, Stmt.entriesAll_nil]
      · obtain ⟨cls, -, h⟩ := h.bind
        obtain ⟨cast, -, h⟩ := h.bind
        rw [Yields.pure_iff] at h
        simp [← h]

/-- What the cast of a dictionary is made of. -/
structure CastOf (t : Target) (fields : List OwnedField) (inherited : List Snapshot)
    (sig : MethodSig) (stmts : List Stmt) (cls : AnonymousClass) : Prop where
  name : t.registry.name? t.name .cast "" = some sig.name
  contract : cls.contract = t.qualified .contract t.name
  usedTrait : cls.usedTrait = t.qualified .defaults t.name
  methods : t.registry.Getters fields (cls.methods.map (·.sig.name))
  branches : ∃ branches others,
    stmts = ifInstance (t.qualified .contract t.name) [.plain "return $value;"] ::
      branches ++ others ∧
    List.Forall₂ (fun snapshot branch => t.snapshotStmt snapshot = .ok branch) inherited
      branches ∧ Stmt.entriesAll others = []

/-- The getter of a field in the anonymous class has the name that was reserved for it. -/
theorem name_of_fieldRoutine {f : OwnedField} {routine : Routine}
    (h : Yields (t.fieldRoutine f) routine) :
    t.registry.name? f.owner.name .getter f.decl.name = some routine.sig.name := by
  obtain ⟨sig, hsig, h⟩ := h.bind
  rw [Yields.pure_iff] at h
  rw [name_of_fieldGetter hsig, ← h]

/-- Asking for what is required reads nothing. -/
theorem entries_requiredStmts : Stmt.entriesAll (t.requiredStmts fields) = [] := by
  rw [requiredStmts]
  split
  · rfl
  · simp

/-- The cast of a dictionary makes an object of an anonymous class. -/
theorem castOf_dictionaryCast {inherited : List Snapshot} {item : Item}
    (h : Yields (t.dictionaryCast fields inherited) item) :
    ∃ sig stmts cls, item = .method { sig, body := .factory stmts cls } ∧
      t.CastOf fields inherited sig stmts cls := by
  obtain ⟨sig, hsig, h⟩ := h.bind
  obtain ⟨defaults, hdefaults, h⟩ := h.bind
  obtain ⟨conversions, hconversions, h⟩ := h.bind
  obtain ⟨branches, hbranches, h⟩ := h.bind
  obtain ⟨methods, hmethods, h⟩ := h.bind
  rw [Yields.lift_iff] at hsig hdefaults hbranches
  rw [Yields.pure_iff] at h
  generalize hcompletion : (if defaults.isEmpty = true then ([] : List Stmt)
    else [.braced [.text "$value += ["] "];" defaults]) = completion at h
  have hempty : Stmt.entriesAll completion = [] := by
    subst hcompletion
    split
    · rfl
    · simp [Stmt.entries, entries_defaultLines hdefaults]
  have hconverts : Stmt.entriesAll conversions.flatten = [] := by
    rw [Stmt.entriesAll_flatten, List.flatMap_eq_nil_iff]
    intro stmts hstmts
    obtain ⟨f, -, hconversion⟩ := hconversions.mapM.2 stmts hstmts
    exact entries_conversion hconversion
  refine ⟨_, _, _, h.symm, ?_, rfl, rfl, ?_, branches,
    t.requiredStmts fields ++ completion ++ conversions.flatten, ?_, mapM_ok_iff.mp hbranches, ?_⟩
  · simp only [castSig, bind_eq_ok, pure_eq_ok] at hsig
    obtain ⟨name, hname, rfl⟩ := hsig
    exact Registry.name?_of_nameOf hname
  · rw [Registry.Getters, List.map_map]
    exact map_eq_of_forall₂ hmethods.forall₂_mapM fun f routine hroutine =>
      (name_of_fieldRoutine hroutine).symm
  · simp
  · simp [entries_requiredStmts, hempty, hconverts]

/-! ### the accessors -/

/-- A method with code exposes what its lines read. -/
@[simp] theorem exposes_defined (sig : MethodSig) (body : List Stmt) (items : List Item) :
    exposes (defined sig body :: items) = Stmt.entriesAll body ++ exposes items := rfl

/-- The arms of a snapshot read what they are made of. -/
theorem entries_arms (getters : List (String × String)) :
    Stmt.entriesAll (getters.map fun (key, getter) => selfCall (key ++ " => ") getter "(),") =
      getters.map fun entry => (entry.1 ++ " => ", entry.2) := by
  induction getters with
  | nil => rfl
  | cons entry getters ih =>
      rw [List.map_cons, Stmt.entriesAll_cons, ih]
      rfl

/-- The accessors of a dictionary are the four of keyed access, and read its fields. -/
theorem reads_fieldItems {items : List Item} (h : t.fieldItems fields = .ok items) :
    t.Structural offsetCategories (definedNames items) ∧
      t.registry.Reads fields (exposes items) := by
  simp only [fieldItems, bind_eq_ok, pure_eq_ok] at h
  obtain ⟨getters, hgetters, existsName, hexists, getName, hget, setName, hset, unsetName, hunset,
    rfl⟩ := h
  have hreads : getters.map (fun entry => (entry.1 ++ " => ", some entry.2)) =
      fields.map fun f =>
        (quote f.decl.name ++ " => ", t.registry.name? f.owner.name .getter f.decl.name) := by
    refine map_eq_of_forall₂ (mapM_ok_iff.mp hgetters) fun f entry hentry => ?_
    simp only [bind_eq_ok, pure_eq_ok] at hentry
    obtain ⟨getter, hgetter, rfl⟩ := hentry
    rw [Registry.name?_of_nameOf hgetter]
  constructor
  · simp [Structural, definedNames, definedName?, defined, hasCode, plainSig, offsetCategories,
      name?_of_structuralName hexists, name?_of_structuralName hget,
      name?_of_structuralName hset, name?_of_structuralName hunset]
  · -- only the arms of the accessor that gets have the shape of a line that reads a field
    have hnone : ∀ keys : String, Stmt.entriesAll (if getters.isEmpty = true
        then [.plain "return false;"] else [.matching "return match ($offset)"
          [selfCall (keys ++ " => ") getName "($offset) !== null,", .plain "default => false,"]]) =
        [] := by
      intro keys
      split
      · rfl
      · simp [selfCall, Stmt.entries, readsField?]
    rw [Registry.Reads]
    simp only [exposes_defined, hnone, Stmt.entriesAll_cons, Stmt.entries_matching,
      Stmt.entriesAll_append, entries_arms, Stmt.entries_plain, Stmt.entriesAll_nil]
    simpa [exposes, Function.comp_def] using hreads

/-- What the defaults of a dictionary are made of: a cast, and accessors. -/
theorem castOf_dictionaryDefaults {items : List Item} (h : Yields t.dictionaryDefaults items) :
    ∃ sig stmts cls accessors, items = .method { sig, body := .factory stmts cls } :: accessors ∧
      t.CastOf (chainFields (t.definition :: t.registry.ancestors t.definition))
        (snapshots (chainFields (t.definition :: t.registry.ancestors t.definition))
          (t.registry.ancestors t.definition)) sig stmts cls ∧
      t.Structural (.cast :: offsetCategories) (definedNames items) ∧
      t.registry.Reads (chainFields (t.definition :: t.registry.ancestors t.definition))
        (exposes items) := by
  obtain ⟨cast, hcast, h⟩ := h.bind
  obtain ⟨accessors, haccessors, h⟩ := h.bind
  rw [Yields.lift_iff] at haccessors
  rw [Yields.pure_iff] at h
  obtain ⟨sig, stmts, cls, rfl, hcastOf⟩ := castOf_dictionaryCast hcast
  obtain ⟨hstructural, hreads⟩ := reads_fieldItems haccessors
  subst h
  refine ⟨sig, stmts, cls, accessors, rfl, hcastOf, ?_, hreads⟩
  have hnames : definedNames (.method { sig, body := .factory stmts cls } :: accessors) =
      sig.name :: definedNames accessors := by
    simp [definedNames, definedName?, hasCode]
  rw [Structural] at hstructural ⊢
  rw [hnames, List.map_cons, List.map_cons, hstructural, hcastOf.name]

end Target

end Artifact

/-! ## the same in the file of an ancestor -/

namespace Code

mutual

/-- Whether a type can be documented does not depend on where it stands. -/
theorem exists_alternativesOf {ctx ctx' : TypeContext} {top top' : Bool} {tree : TypeTree}
    {a : Alternatives} (h : alternativesOf ctx top tree = .ok a) :
    ∃ b, alternativesOf ctx' top' tree = .ok b := by
  cases tree with
  | unknown name =>
      rw [alternativesOf] at h
      cases h
  | fault error =>
      rw [alternativesOf] at h
      cases h
  | primitive primitive marks => cases primitive <;> exact ⟨_, rfl⟩
  | definition d marks =>
      rw [alternativesOf]
      split <;> exact ⟨_, rfl⟩
  | union members marks =>
      simp only [alternativesOf, bind_eq_ok, pure_eq_ok] at h ⊢
      obtain ⟨branches, hbranches, -⟩ := h
      obtain ⟨others, hothers⟩ := exists_branchesOf hbranches
      exact ⟨_, others, hothers, rfl⟩
  | generic head args marks =>
      cases head <;> unfold alternativesOf at h ⊢
      case promise => exact ⟨_, rfl⟩
      all_goals
        dsimp only at h ⊢
        split at h
        · cases h
        next harity =>
          rw [if_neg harity]
          simp only [bind_eq_ok, pure_eq_ok] at h ⊢
          obtain ⟨branches, hbranches, -⟩ := h
          obtain ⟨others, hothers⟩ := exists_branchesOf hbranches
          exact ⟨_, others, hothers, rfl⟩

/-- Whether types can be documented does not depend on the file. -/
theorem exists_branchesOf {ctx ctx' : TypeContext} {trees : List TypeTree}
    {branches : List Alternatives} (h : branchesOf ctx trees = .ok branches) :
    ∃ others, branchesOf ctx' trees = .ok others := by
  cases trees with
  | nil => exact ⟨_, rfl⟩
  | cons tree trees =>
      simp only [branchesOf, bind_eq_ok, pure_eq_ok] at h ⊢
      obtain ⟨branch, hbranch, rest, hrest, -⟩ := h
      obtain ⟨other, hother⟩ := exists_alternativesOf hbranch
      obtain ⟨others, hothers⟩ := exists_branchesOf hrest
      exact ⟨_, other, hother, others, hothers, rfl⟩

end

/-- Whether a type can be bound does not depend on where it stands. -/
theorem exists_bindingOf {ctx ctx' : TypeContext} {tree : TypeTree} {text : String}
    (h : bindingOf ctx tree = .ok text) : ∃ other, bindingOf ctx' tree = .ok other := by
  cases tree with
  | unknown name => cases h
  | fault error => cases h
  | primitive primitive marks => cases primitive <;> exact ⟨_, rfl⟩
  | definition d marks =>
      rw [bindingOf]
      split <;> exact ⟨_, rfl⟩
  | union members marks => exact ⟨_, rfl⟩
  | generic head args marks => cases head <;> exact ⟨_, rfl⟩

end Code

namespace Artifact

open WebIdl.Code

/-- A draft comes to something, whatever was imported before. -/
abbrev Builds {α : Type} (x : Draft α) : Prop :=
  FailsFor (fun _ => False) x

/-- What builds for some imports builds for any. -/
theorem Builds.exists_run {α : Type} {x : Draft α} (h : Builds x) (before : Imports) :
    ∃ a after, x.run.run before = (.ok a, after) := by
  cases hrun : x.run.run before with
  | mk result after =>
      cases result with
      | ok a => exact ⟨a, after, rfl⟩
      | error e => exact (h before after e hrun).elim

/-- A step outside of drafts builds if it has a result. -/
theorem Builds.lift {α : Type} {x : Except Error α} (h : ∃ a, x = .ok a) :
    Builds (liftM x : Draft α) :=
  FailsFor.lift (FailsOnly.of_ok h)

namespace Target

variable {t : Target} {fields : List OwnedField} {a : Definition}

/-- The target of another definition. -/
def other (t : Target) (a : Definition) : Target :=
  { t with definition := a }

/-- A type that one file can render, another can. -/
theorem builds_type {type : IdlType} {position : Position} {pair : TypePair}
    (h : Yields (t.type type position) pair) : Builds ((t.other a).type type position) := by
  obtain ⟨text, htext, h⟩ := h.bind
  obtain ⟨doc, hdoc, h⟩ := h.bind
  obtain ⟨found, hfound, -⟩ := h.bind
  rw [Yields.lift_iff] at htext hdoc hfound
  simp only [documentation, documentationOf, bind_eq_ok, pure_eq_ok] at hdoc
  obtain ⟨alternatives, halternatives, -⟩ := hdoc
  obtain ⟨others, hothers⟩ := exists_alternativesOf halternatives
  rw [Target.type]
  refine (Builds.lift (exists_bindingOf htext)).bind fun _ _ => ?_
  refine (Builds.lift ⟨others.text, ?_⟩).bind fun _ _ => ?_
  · simp only [documentation, documentationOf, bind_eq_ok, pure_eq_ok]
    exact ⟨others, hothers, rfl⟩
  · refine (Builds.lift ⟨found, hfound⟩).bind fun _ _ => ?_
    exact (FailsFor.note _).bind fun _ _ => FailsFor.pure _

theorem builds_fieldRoutine {f : OwnedField} {routine : Routine}
    (h : Yields (t.fieldRoutine f) routine) : Builds ((t.other a).fieldRoutine f) := by
  obtain ⟨sig, hsig, -⟩ := h.bind
  obtain ⟨getter, hgetter, hsig⟩ := hsig.bind
  obtain ⟨plain, hplain, -⟩ := hsig.bind
  obtain ⟨pair, hpair, -⟩ := hplain.bind
  rw [Yields.lift_iff] at hgetter
  refine FailsFor.bind ?_ fun _ _ => FailsFor.pure _
  refine (Builds.lift ⟨getter, hgetter⟩).bind fun _ _ => ?_
  refine FailsFor.bind ?_ fun _ _ => FailsFor.pure _
  exact (builds_type hpair).bind fun _ _ => FailsFor.pure _

theorem builds_conversion {f : OwnedField} {stmts : List Stmt}
    (h : Yields (t.conversion f) stmts) : Builds ((t.other a).conversion f) := by
  obtain ⟨found, hfound, h⟩ := h.bind
  rw [Yields.lift_iff] at hfound
  refine (Builds.lift ⟨found, hfound⟩).bind fun again hagain => ?_
  rw [Yields.lift_iff] at hagain
  obtain rfl := Except.ok.inj (hfound.symm.trans hagain)
  cases found with
  | none => exact FailsFor.pure _
  | some d =>
      dsimp only at h ⊢
      split at h
      next hplain =>
        rw [if_pos hplain]
        exact FailsFor.pure _
      next hplain =>
        rw [if_neg hplain]
        obtain ⟨cls, -, h⟩ := h.bind
        obtain ⟨cast, hcast, -⟩ := h.bind
        rw [Yields.lift_iff] at hcast
        refine FailsFor.bind ?_ fun _ _ => ?_
        · exact failsFor_classRef d.name
        · exact (Builds.lift ⟨cast, hcast⟩).bind fun _ _ => FailsFor.pure _

/-- The defaults that are written have a text. -/
theorem literal_of_defaultLines {lines : List Stmt} (h : defaultLines fields = .ok lines) :
    ∀ f ∈ fields, ∀ default, f.decl.default = some default → ¬ f.mayBeAbsent = true →
      ∃ value, literalText default = .ok value := by
  fun_induction defaultLines fields generalizing lines with
  | case1 => simp
  | case2 f fields default hdefault habsent ih =>
      refine List.forall_mem_cons.mpr ⟨fun _ _ hpresent => absurd habsent hpresent, ih h⟩
  | case3 f fields default hdefault hpresent ih =>
      simp only [bind_eq_ok, pure_eq_ok] at h
      obtain ⟨value, hvalue, others, hothers, -⟩ := h
      refine List.forall_mem_cons.mpr ⟨fun other hother _ => ?_, ih hothers⟩
      rw [hdefault, Option.some.injEq] at hother
      exact ⟨value, hother ▸ hvalue⟩
  | case4 f fields hdefault ih =>
      refine List.forall_mem_cons.mpr ⟨fun other hother _ => ?_, ih h⟩
      rw [hdefault] at hother
      cases hother

/-- The defaults of fields can be written if all of them have a text. -/
theorem exists_defaultLines (h : ∀ f ∈ fields, ∀ default, f.decl.default = some default →
      ¬ f.mayBeAbsent = true → ∃ value, literalText default = .ok value) :
    ∃ lines, defaultLines fields = .ok lines := by
  fun_induction defaultLines fields with
  | case1 => exact ⟨_, rfl⟩
  | case2 f fields default hdefault habsent ih => exact ih (List.forall_mem_cons.mp h).2
  | case3 f fields default hdefault hpresent ih =>
      obtain ⟨hfirst, hrest⟩ := List.forall_mem_cons.mp h
      obtain ⟨value, hvalue⟩ := hfirst default hdefault hpresent
      obtain ⟨lines, hlines⟩ := ih hrest
      simp only [bind_eq_ok, pure_eq_ok]
      exact ⟨_, value, hvalue, lines, hlines, rfl⟩
  | case4 f fields hdefault ih => exact ih (List.forall_mem_cons.mp h).2

/-- The defaults of another definition can be made as well, if its fields are among those of
one whose defaults can be made. -/
theorem builds_dictionaryDefaults (hready : (t.other a).Ready) (hkind : a.kind = .dictionary)
    {items : List Item} (h : Yields t.dictionaryDefaults items)
    (hsub : chainFields (a :: t.registry.ancestors a) ⊆
      chainFields (t.definition :: t.registry.ancestors t.definition)) :
    Builds (t.other a).dictionaryDefaults := by
  -- of the steps of a cast, only three depend on the fields
  obtain ⟨_, hcast, -⟩ := h.bind
  obtain ⟨_, -, hcast⟩ := hcast.bind
  obtain ⟨lines, hlines, hcast⟩ := hcast.bind
  obtain ⟨_, hconversions, hcast⟩ := hcast.bind
  obtain ⟨_, -, hcast⟩ := hcast.bind
  obtain ⟨_, hroutines, -⟩ := hcast.bind
  rw [Yields.lift_iff] at hlines
  have hliterals := literal_of_defaultLines hlines
  refine hready.dictionaryDefaults hkind ?_ fun f hf => ⟨?_, ?_⟩
  · exact FailsOnly.of_ok (exists_defaultLines fun f hf => hliterals f (hsub hf))
  · obtain ⟨stmts, -, hstmts⟩ := hconversions.mapM.1 f (hsub hf)
    exact builds_conversion hstmts
  · obtain ⟨routine, -, hroutine⟩ := hroutines.mapM.1 f (hsub hf)
    exact builds_fieldRoutine hroutine

/-- A dictionary has defaults. -/
theorem yields_dictionaryDefaults (hkind : t.definition.kind = .dictionary)
    {found : Option ClassDecl} (h : Yields t.defaults found) :
    ∃ decl, found = some decl ∧ Yields t.dictionaryDefaults decl.items := by
  obtain ⟨has, hhas, h⟩ := h.bind
  rw [Yields.lift_iff, hasDefaults, hkind, Except.ok.injEq] at hhas
  subst hhas
  simp only [if_true, hkind] at h
  obtain ⟨items, hitems, h⟩ := h.bind
  rw [Yields.pure_iff] at h
  exact ⟨_, h.symm, hitems⟩

/-- A dictionary has defaults if they can be built. -/
theorem builds_defaults (hkind : t.definition.kind = .dictionary)
    (h : Builds t.dictionaryDefaults) : Builds t.defaults := by
  rw [Target.defaults]
  refine (Builds.lift ⟨true, by rw [hasDefaults, hkind]⟩).bind fun has hhas => ?_
  rw [Yields.lift_iff, hasDefaults, hkind, Except.ok.injEq] at hhas
  subst hhas
  simp only [if_true, hkind]
  exact h.bind fun _ _ => FailsFor.pure _

end Target

end Artifact

namespace Catalog

/-- A definition has one chain of parents. -/
theorem Lineage.unique {c : Catalog} {d : Definition} {chain chain' : List Definition}
    (h : c.Lineage d chain) (h' : c.Lineage d chain') : chain = chain' := by
  induction h generalizing chain' with
  | root hroot =>
      cases h' with
      | root => rfl
      | child hparent =>
          rw [hroot] at hparent
          cases hparent
  | @child d parent name chain hparent hget hchain ih =>
      cases h' with
      | root hroot =>
          rw [hparent] at hroot
          cases hroot
      | child hparent' hget' hchain' =>
          rw [hparent, Option.some.injEq] at hparent'
          subst hparent'
          rw [hget, Option.some.injEq] at hget'
          subst hget'
          rw [ih hchain']

/-- What is above an ancestor is on the chain. -/
theorem Lineage.exists_above {c : Catalog} {d a : Definition} {chain : List Definition}
    (h : c.Lineage d chain) (ha : a ∈ chain) : ∃ above, c.Lineage a above ∧ above ⊆ chain := by
  induction h with
  | root => cases ha
  | @child d parent name chain hparent hget hchain ih =>
      cases ha with
      | head => exact ⟨chain, hchain, List.subset_cons_self _ chain⟩
      | tail _ ha =>
          obtain ⟨above, habove, hsub⟩ := ih ha
          exact ⟨above, habove, List.subset_cons_of_subset parent hsub⟩

end Catalog

namespace Registry

open WebIdl.Artifact
open WebIdl.Code

variable {options : IngestOptions} {nodes : List Node} {r : Registry} {root : String}
  {d a : Definition}

/-- A file can be made if its draft comes to something. -/
theorem exists_file (hd : r.get? d.name = some d) {kind : ArtifactKind}
    (h : Builds (Target.decl { registry := r, root, definition := d } kind)) :
    ∃ found, r.file? root d.name kind = .ok found := by
  obtain ⟨decl, imports, hrun⟩ := h.exists_run { own := d.name }
  have hget : r.definition d.name = .ok d := by rw [Catalog.definition, hd]
  rw [file?]
  exact ⟨_, bind_eq_ok.mpr ⟨d, hget, bind_eq_ok.mpr ⟨decl, congrArg Prod.fst hrun, rfl⟩⟩⟩

/-- A dictionary has a file of defaults, which is what its draft comes to. -/
theorem dictionary_of_file? (hd : r.get? d.name = some d) (hkind : d.kind = .dictionary)
    {found : Option File} (h : r.file? root d.name .defaults = .ok found) :
    ∃ file, found = some file ∧
      Yields (Target.dictionaryDefaults { registry := r, root, definition := d })
        file.decl.items := by
  obtain ⟨decl, hdecl, hyields⟩ :=
    Target.yields_dictionaryDefaults hkind (yields_of_file? hd h)
  obtain ⟨file, rfl, rfl⟩ := Option.map_eq_some_iff.mp hdecl
  exact ⟨file, rfl, hyields⟩

/-- The ancestors of an ancestor are above it on the chain. -/
theorem ancestors_subset (h : build options nodes = .ok r) (hd : d ∈ r.definitions)
    (ha : a ∈ r.ancestors d) : r.ancestors a ⊆ r.ancestors d := by
  have hlineage := lineage_of_build h hd
  obtain ⟨above, habove, hsub⟩ := hlineage.exists_above ha
  have hknown := hlineage.known ((wellFormed_of_build h).get?_of_mem hd) a
    (List.mem_cons_of_mem d ha)
  rwa [← habove.unique (lineage_of_build h (Catalog.mem_of_get? hknown))]

/-- With the defaults of a dictionary those of the dictionaries that it inherits from can be
made. -/
theorem exists_defaults_of_ancestor (h : build options nodes = .ok r) (hd : d ∈ r.definitions)
    (hkind : d.kind = .dictionary) {found : Option File}
    (hfile : r.file? root d.name .defaults = .ok found) (ha : a ∈ r.ancestors d)
    (hkind' : a.kind = .dictionary) :
    ∃ found', r.file? root a.name .defaults = .ok found' := by
  have hget := (wellFormed_of_build h).get?_of_mem hd
  have hget' := (lineage_of_build h hd).known hget a (List.mem_cons_of_mem d ha)
  obtain ⟨file, -, hyields⟩ := dictionary_of_file? hget hkind hfile
  refine exists_file hget' (Target.builds_defaults hkind' ?_)
  refine Target.builds_dictionaryDefaults (t := { registry := r, root, definition := d })
    ⟨Catalog.mem_of_get? hget', reserving_of_build h⟩ hkind' hyields fun f hf => ?_
  obtain ⟨howner, hdecl⟩ := mem_chainFields.mp hf
  refine mem_chainFields.mpr ⟨?_, hdecl⟩
  rcases List.mem_cons.mp howner with howner | howner
  · exact List.mem_cons_of_mem d (howner ▸ ha)
  · exact List.mem_cons_of_mem d (ancestors_subset h hd ha howner)

/-- The snapshots of a dictionary are those of the chains of its ancestors. -/
theorem snapshots_of_build (h : build options nodes = .ok r) (hd : d ∈ r.definitions) :
    snapshots (chainFields (d :: r.ancestors d)) (r.ancestors d) =
      (r.ancestors d).map fun a =>
        { ancestor := a, fields := chainFields (a :: r.ancestors a) } := by
  have hget := (wellFormed_of_build h).get?_of_mem hd
  have hlineage := lineage_of_build h hd
  have hnodup := hlineage.nodup hget (acyclic_of_build h)
  refine snapshots_eq [d] hlineage hnodup fun a ha above habove => ?_
  have hknown := hlineage.known hget a (List.mem_cons_of_mem d ha)
  exact (lineage_of_build h (Catalog.mem_of_get? hknown)).unique habove

/-- **Snapshots are exact**: the branches of the cast of a dictionary are for its ancestors,
the nearest first, and each lists what the defaults of the ancestor expose. -/
theorem branches_of_cast (h : build options nodes = .ok r) (hd : d ∈ r.definitions)
    (hkinds : ∀ x ∈ d :: r.ancestors d, x.kind = .dictionary) {found : Option File}
    (hfile : r.file? root d.name .defaults = .ok found) {branches : List Stmt}
    (hbranches : List.Forall₂ (fun snapshot branch =>
        Target.snapshotStmt { registry := r, root, definition := d } snapshot = .ok branch)
      (snapshots (chainFields (d :: r.ancestors d)) (r.ancestors d)) branches) :
    List.Forall₂ (fun a branch => ∃ file body,
      r.file? root a.name .defaults = .ok (some file) ∧
      branch = ifInstance (ArtifactKind.contract.qualify root a.name) body ∧
      Stmt.entriesAll body = exposes file.decl.items ∧
      r.Reads (chainFields (a :: r.ancestors a)) (Stmt.entriesAll body)) (r.ancestors d)
      branches := by
  rw [snapshots_of_build h hd, List.forall₂_map_left_iff] at hbranches
  refine ((List.forall₂_and_left _ _).mpr ⟨fun a ha => ha, hbranches⟩).imp ?_
  rintro a branch ⟨ha, hbranch⟩
  have hget := (lineage_of_build h hd).known ((wellFormed_of_build h).get?_of_mem hd) a
    (List.mem_cons_of_mem d ha)
  have hkind := hkinds a (List.mem_cons_of_mem d ha)
  obtain ⟨found', hfile'⟩ :=
    exists_defaults_of_ancestor h hd (hkinds d List.mem_cons_self) hfile ha hkind
  obtain ⟨file, rfl, hyields⟩ := dictionary_of_file? hget hkind hfile'
  obtain ⟨-, -, -, -, -, -, -, hexposes⟩ := Target.castOf_dictionaryDefaults hyields
  obtain ⟨body, hbody, hreads⟩ := Target.reads_snapshotStmt hbranch
  exact ⟨file, body, hfile', hbody, hreads.unique hexposes, hreads⟩

end Registry

end WebIdl
