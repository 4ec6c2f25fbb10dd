import WebIdl.Proofs.Coverage

/-!
# WebIdl.Proofs.Calls

No call in the defaults of an interface leads nowhere.

What the code can call is said once (`Target.Answered`): accessors, methods that play a
role, the count, the hooks, and what the parents have.  The builders are gone through with
that, and then each of these calls is followed up the chain of parents.
-/

namespace WebIdl

/-! ## pieces of code -/

namespace Code

/-- The pieces of the code of a method. -/
def Body.pieces : Body → List Piece
  | .declared => []
  | .code stmts => Stmt.piecesAll stmts
  | .factory stmts result =>
    Stmt.piecesAll stmts ++ result.methods.flatMap fun routine => Stmt.piecesAll routine.body

/-- The pieces of the code of an item. -/
def Item.pieces : Item → List Piece
  | .method decl => decl.body.pieces
  | .constants _ => []
  | .usedTrait _ => []
  | .sealedConstructor => []

/-- Whether a piece of code calls a method. -/
def Piece.isCall : Piece → Bool
  | .text _ => false
  | _ => true

/-- The calls in the code of some items. -/
def calls (items : List Item) : List Piece :=
  (items.flatMap Item.pieces).filter Piece.isCall

/-- The pieces of some statements are those of each. -/
theorem Stmt.mem_piecesAll {stmts : List Stmt} {piece : Piece} :
    piece ∈ Stmt.piecesAll stmts ↔ ∃ stmt ∈ stmts, piece ∈ stmt.pieces := by
  induction stmts with
  | nil => simp [Stmt.piecesAll]
  | cons stmt stmts ih => simp [Stmt.piecesAll, ih]

end Code

/-- Whether a feature is a static attribute that forwards its setter. -/
def Feature.isStaticForward : Feature → Bool
  | .attribute a => a.isStatic && (a.attrs.word? "PutForwards").isSome
  | _ => false

namespace Artifact

open WebIdl.Code

/-- The methods that a class brings for its content attributes. -/
def hostHelpers : List String :=
  ["getAttribute", "setAttribute", "hasAttribute", "removeAttribute"]

namespace Target

open WebIdl.Registry (IsAccessor)

variable {t : Target}

/-- A method is defined by the scaffold or the defaults of the definition or of an ancestor. -/
def Reached (t : Target) (name : String) : Prop :=
  t.registry.Implemented t.root t.definition name

/-- A method is defined by the defaults of an ancestor. -/
def Above (t : Target) (name : String) : Prop :=
  ∃ x ∈ t.registry.ancestors t.definition,
    Defines (t.registry.bodyOf t.root x.name .defaults) name

/-- A piece of code calls what is there. -/
def Led (t : Target) : Piece → Prop
  | .text _ => True
  | .self name => t.Reached name
  | .host name => name ∈ hostHelpers
  | .parent name => t.Above name
  | .value _ => False

/-- A statement calls what is there. -/
def LedStmt (t : Target) (stmt : Stmt) : Prop :=
  ∀ piece ∈ stmt.pieces, t.Led piece

/-- Some items call what is there. -/
def LedItems (t : Target) (items : List Item) : Prop :=
  ∀ item ∈ items, ∀ piece ∈ item.pieces, t.Led piece

/-- A text calls nothing. -/
@[simp] theorem led_text (fragment : String) : t.Led (.text fragment) := trivial

/-- A call of an own method has to reach one. -/
@[simp] theorem led_self {name : String} : t.Led (.self name) ↔ t.Reached name := Iff.rfl

/-- A call of a helper has to be one of those that a class brings. -/
@[simp] theorem led_host {name : String} : t.Led (.host name) ↔ name ∈ hostHelpers := Iff.rfl

/-- A call of a parent's method has to find it in the defaults above. -/
@[simp] theorem led_parent {name : String} : t.Led (.parent name) ↔ t.Above name := Iff.rfl

@[simp] theorem ledStmt_plain (text : String) : t.LedStmt (.plain text) := by
  simp [LedStmt, Stmt.plain, Stmt.pieces]

@[simp] theorem ledStmt_blank : t.LedStmt .blank := by
  simp [LedStmt, Stmt.pieces]

/-- A line calls what is there if its pieces do. -/
@[simp] theorem ledStmt_line {pieces : List Piece} :
    t.LedStmt (.line pieces) ↔ ∀ piece ∈ pieces, t.Led piece := by
  simp [LedStmt, Stmt.pieces]

/-- A line around an own call calls what is there if the call reaches a method. -/
@[simp] theorem ledStmt_selfCall {before name after : String} :
    t.LedStmt (selfCall before name after) ↔ t.Reached name := by
  simp [selfCall]

/-- A line around a helper's call calls what is there if it is a helper's name. -/
@[simp] theorem ledStmt_hostCall {before name after : String} :
    t.LedStmt (hostCall before name after) ↔ name ∈ hostHelpers := by
  simp [hostCall]

/-- All pieces call what is there if and only if all statements do. -/
theorem forall_piecesAll {stmts : List Stmt} :
    (∀ piece ∈ Stmt.piecesAll stmts, t.Led piece) ↔ ∀ stmt ∈ stmts, t.LedStmt stmt := by
  constructor
  · intro h stmt hstmt piece hpiece
    exact h piece (Stmt.mem_piecesAll.mpr ⟨stmt, hstmt, hpiece⟩)
  · intro h piece hpiece
    obtain ⟨stmt, hstmt, hpiece⟩ := Stmt.mem_piecesAll.mp hpiece
    exact h stmt hstmt piece hpiece

/-- A block calls what is there if its body does. -/
@[simp] theorem ledStmt_control {head : String} {body : List Stmt} :
    t.LedStmt (.control head body) ↔ ∀ stmt ∈ body, t.LedStmt stmt := by
  rw [LedStmt, Stmt.control, Stmt.pieces]
  simp [forall_piecesAll]

/-- A match calls what is there if its arms do. -/
@[simp] theorem ledStmt_matching {head : String} {arms : List Stmt} :
    t.LedStmt (.matching head arms) ↔ ∀ arm ∈ arms, t.LedStmt arm := by
  rw [LedStmt, Stmt.matching, Stmt.pieces]
  simp [forall_piecesAll]

@[simp] theorem ledItems_nil : t.LedItems [] := by
  simp [LedItems]

/-- A method calls what is there if its statements do. -/
@[simp] theorem ledItems_defined {sig : MethodSig} {body : List Stmt} {items : List Item} :
    t.LedItems (defined sig body :: items) ↔
      (∀ stmt ∈ body, t.LedStmt stmt) ∧ t.LedItems items := by
  rw [← forall_piecesAll]
  exact List.forall_mem_cons

/-- Items call what is there together if they do so apart. -/
@[simp] theorem ledItems_append {items items' : List Item} :
    t.LedItems (items ++ items') ↔ t.LedItems items ∧ t.LedItems items' := by
  simp [LedItems, or_imp, forall_and]

/-- A method without code calls nothing. -/
@[simp] theorem ledItems_abstract {sig : MethodSig} {items : List Item} :
    t.LedItems (abstractItem sig :: items) ↔ t.LedItems items := by
  simp [LedItems, abstractItem, Item.pieces, Body.pieces]

/-- The hooks of a root throw, and those of other classes have no code. -/
theorem ledItems_hooks (caps : Capabilities) : t.LedItems (t.hooks caps) := by
  rw [hooks]
  cases t.isTop with
  | true => simp [rootHooks]
  | false => cases t.intercepts <;> cases caps.keyed <;> simp [abstractHooks]

/-- Reflecting calls nothing but what the class brings. -/
theorem ledStmt_getterBody {reflection : Reflection} :
    ∀ stmt ∈ getterBody reflection, t.LedStmt stmt := by
  cases reflection with
  | string content nullable => cases nullable <;> simp [getterBody, hostHelpers]
  | boolean content => simp [getterBody, hostHelpers]
  | integer content => simp [getterBody, hostHelpers]
  | enum content values invalid missing =>
      have harm : ∀ arm ∈ (keywordTable values).map fun pair =>
          Stmt.plain (Text.quote pair.1 ++ " => " ++ Text.quote pair.2 ++ ","), t.LedStmt arm := by
        intro arm harm
        obtain ⟨pair, -, rfl⟩ := List.mem_map.mp harm
        exact ledStmt_plain _
      simpa [getterBody, hostHelpers, or_imp, forall_and] using harm

theorem ledStmt_setterBody {reflection : Reflection} :
    ∀ stmt ∈ setterBody reflection, t.LedStmt stmt := by
  cases reflection with
  | string content nullable => cases nullable <;> simp [setterBody, hostHelpers]
  | boolean content => simp [setterBody, hostHelpers]
  | integer content => simp [setterBody, hostHelpers]
  | enum content values invalid missing => simp [setterBody, hostHelpers]

/-- A branch is there for a method that it leads to. -/
theorem ledStmt_branch {test : String} {method : Option String} {body : String → List Stmt}
    (h : ∀ name, method = some name → ∀ stmt ∈ body name, t.LedStmt stmt) :
    ∀ stmt ∈ Route.branch test method body, t.LedStmt stmt := by
  cases method with
  | none => simp [Route.branch]
  | some name => simpa [Route.branch] using h name rfl

/-- The branches of a route call what is there if the route leads to methods that are. -/
theorem ledStmt_branches {route : Route} {body : String → List Stmt}
    (hroute : (∀ name, route.indexed = some name → t.Reached name) ∧
      ∀ name, route.named = some name → t.Reached name)
    (hbody : ∀ name, t.Reached name → ∀ stmt ∈ body name, t.LedStmt stmt) :
    ∀ stmt ∈ route.branches body, t.LedStmt stmt := by
  rw [Route.branches, List.forall_mem_append]
  exact ⟨ledStmt_branch fun name hname => hbody name (hroute.1 name hname),
    ledStmt_branch fun name hname => hbody name (hroute.2 name hname)⟩

/-! ## what the code can call -/

/-- What the defaults of an interface can call is there. -/
structure Answered (t : Target) (caps : Capabilities) : Prop where
  accessor : ∀ a, .attribute a ∈ Feature.ofMembers (t.registry.surface t.definition) →
    ∀ category name, IsAccessor category →
      t.registry.name? a.owner.name category a.decl.name = some name → t.Reached name
  method : ∀ kind name, t.registry.method? caps kind = .ok (some name) → t.Reached name
  countGetter : ∀ name, t.registry.countGetter? caps = .ok (some name) → t.Reached name
  count : caps.counts = true → ∀ name, t.structuralName .count = .ok name → t.Reached name
  hook : t.isTop = true → t.Reached Identifier.getMissing ∧
    t.Reached Identifier.setMissing
  undefinedKey : t.Reached Identifier.undefinedKey
  property : t.isTop = false → t.Above "__get" ∧ t.Above "__set"
  offset : t.inheritsKeyed = .ok true → ∀ category ∈ offsetCategories,
    ∀ name, t.structuralName category = .ok name → t.Above name

section

variable {caps : Capabilities} {items : List Item} (hanswered : t.Answered caps)
include hanswered

/-- Reading a property calls getters, all of which are there. -/
theorem Answered.propertyGet {properties : List OwnedAttribute} {item : Item}
    (hproperties : ∀ a ∈ properties,
      .attribute a ∈ Feature.ofMembers (t.registry.surface t.definition))
    (h : t.propertyGet properties t.isTop = .ok item) : t.LedItems [item] := by
  rw [Target.propertyGet, bind_eq_ok] at h
  obtain ⟨arms, harms, h⟩ := h
  rw [pure_eq_ok] at h
  have harm : ∀ arm ∈ arms, t.LedStmt arm := by
    intro arm harm
    obtain ⟨a, ha, hyields⟩ := (mapM_ok harms).2 arm harm
    obtain ⟨getter, hgetter, hyields⟩ := bind_eq_ok.mp hyields
    rw [pure_eq_ok] at hyields
    rw [← hyields, ledStmt_selfCall]
    exact hanswered.accessor a (hproperties a ha) .getter getter (Or.inl rfl)
      (Registry.name?_of_nameOf hgetter)
  rw [← h]
  cases hroot : t.isTop with
  | true => simpa [or_imp, forall_and] using ⟨harm, (hanswered.hook hroot).1⟩
  | false => simpa [or_imp, forall_and] using ⟨harm, (hanswered.property hroot).1⟩

/-- Writing a property calls setters, all of which are there. -/
theorem Answered.propertySet {properties : List OwnedAttribute}
    (hproperties : ∀ a ∈ properties,
      .attribute a ∈ Feature.ofMembers (t.registry.surface t.definition)) :
    t.LedItems [t.propertySet properties t.isTop] := by
  have harm : ∀ a ∈ properties, t.LedStmt (t.propertySetArm a) := by
    intro a ha
    rw [propertySetArm]
    split
    · next setter hsetter =>
        rw [ledStmt_selfCall]
        exact hanswered.accessor a (hproperties a ha) .setter setter (Or.inr rfl) hsetter
    · exact ledStmt_plain _
  rw [Target.propertySet]
  cases hroot : t.isTop with
  | true => simpa [or_imp, forall_and] using ⟨harm, (hanswered.hook hroot).2⟩
  | false => simpa [or_imp, forall_and] using ⟨harm, (hanswered.property hroot).2⟩

/-- The accessors of an attribute call what is there. -/
theorem Answered.attributeItems {a : OwnedAttribute}
    (ha : .attribute a ∈ Feature.ofMembers (t.registry.surface t.definition))
    (h : Yields (t.attributeItems a) items) : t.LedItems items := by
  cases defaulted_attributeItems h with
  | plain => exact ledItems_nil
  | forwards _ _ _ _ hgetter => simpa using hanswered.accessor a ha .getter _ (Or.inl rfl) hgetter
  | reads => simpa using ledStmt_getterBody
  | reflects => simpa using ⟨ledStmt_getterBody, ledStmt_setterBody⟩

/-- The methods that keys are led to are there. -/
theorem Answered.route {indexed named : SpecialKind} {route : Route}
    (h : t.route caps indexed named = .ok route) :
    (∀ name, route.indexed = some name → t.Reached name) ∧
      ∀ name, route.named = some name → t.Reached name := by
  rw [Target.route, bind_eq_ok] at h
  obtain ⟨first, hfirst, h⟩ := h
  obtain ⟨second, hsecond, h⟩ := bind_eq_ok.mp h
  rw [pure_eq_ok] at h
  rw [← h]
  constructor
  · rintro name rfl
    exact hanswered.method indexed name hfirst
  · rintro name rfl
    exact hanswered.method named name hsecond

/-- What a protocol falls back to is the parent's method or a hook. -/
theorem Answered.fallback {inherited : Bool} (hinherits : t.inheritsKeyed = .ok inherited)
    {category : NameCategory} (hcategory : category ∈ offsetCategories) {before name args : String}
    (hname : t.structuralName category = .ok name) :
    t.LedStmt (Target.fallback inherited before name args) := by
  rw [Target.fallback]
  cases inherited with
  | true => simpa using hanswered.offset hinherits category hcategory name hname
  | false => simpa using hanswered.undefinedKey

/-- Asking whether a key exists calls what is there. -/
theorem Answered.existsBody {inherited : Bool} (hinherits : t.inheritsKeyed = .ok inherited)
    {name : String} (hname : t.structuralName .exists = .ok name) {getters : Route}
    (hgetters : (∀ name, getters.indexed = some name → t.Reached name) ∧
      ∀ name, getters.named = some name → t.Reached name) {count : Option String}
    (hcount : ∀ name, count = some name → t.Reached name) :
    ∀ stmt ∈ Target.existsBody inherited name getters count, t.LedStmt stmt := by
  rw [Target.existsBody, List.forall_mem_append, List.forall_mem_append]
  refine ⟨⟨ledStmt_branch fun item hitem => ?_, ledStmt_branch fun item hitem => ?_⟩, ?_⟩
  · cases count with
    | none => simpa using hgetters.1 item hitem
    | some count => simpa using hcount count rfl
  · simpa using hgetters.2 item hitem
  · cases inherited with
    | true => simpa using hanswered.offset hinherits .exists (by decide) name hname
    | false => simp

/-- The methods for keys call what is there. -/
theorem Answered.keyedItems {inherited : Bool} (hinherits : t.inheritsKeyed = .ok inherited)
    (h : t.keyedItems caps inherited = .ok items) : t.LedItems items := by
  simp only [Target.keyedItems, ite_bind, bind_eq_ok, pure_eq_ok] at h
  obtain ⟨getters, hgetters, setters, hsetters, deleters, hdeleters, count, hcount, existsName,
    hexists, getName, hget, setName, hset, unsetName, hunset, h⟩ := h
  have hcounts : ∀ name, count = some name → t.Reached name := by
    rintro name rfl
    split at hcount
    · next hyes =>
        obtain ⟨counter, hcounter, hsome⟩ := bind_eq_ok.mp hcount
        rw [pure_eq_ok, Option.some.injEq] at hsome
        exact hanswered.count hyes name (hsome ▸ hcounter)
    · rw [pure_eq_ok] at hcount
      cases hcount
  have hgetters := hanswered.route hgetters
  rw [← h]
  simp only [ledItems_defined, ledItems_nil, and_true, List.forall_mem_append,
    List.forall_mem_singleton]
  refine ⟨hanswered.existsBody hinherits hexists hgetters hcounts, ⟨?_, ?_⟩, ⟨?_, ?_⟩, ?_, ?_⟩
  · exact ledStmt_branches hgetters fun name hname => by simpa using hname
  · exact hanswered.fallback hinherits (by decide) hget
  · exact ledStmt_branches (hanswered.route hsetters) fun name hname => by simpa using hname
  · exact hanswered.fallback hinherits (by decide) hset
  · exact ledStmt_branches (hanswered.route hdeleters) fun name hname => by simpa using hname
  · exact hanswered.fallback hinherits (by decide) hunset

/-- The method that counts calls what is there. -/
theorem Answered.countItems (h : t.countItems caps = .ok items) : t.LedItems items := by
  rw [Target.countItems, bind_eq_ok] at h
  obtain ⟨getter, hgetter, h⟩ := h
  cases getter with
  | none =>
      rw [pure_eq_ok] at h
      rw [← h]
      exact ledItems_nil
  | some getter =>
      obtain ⟨counter, -, h⟩ := bind_eq_ok.mp h
      rw [pure_eq_ok] at h
      rw [← h]
      simpa using hanswered.countGetter getter hgetter

/-- The method that gives a text calls what is there. -/
theorem Answered.stringifierItems (h : t.stringifierItems caps = .ok items) :
    t.LedItems items := by
  rw [Target.stringifierItems, bind_eq_ok] at h
  obtain ⟨method, hmethod, h⟩ := h
  cases method with
  | none =>
      rw [pure_eq_ok] at h
      rw [← h]
      exact ledItems_nil
  | some method =>
      rw [pure_eq_ok] at h
      rw [← h]
      simpa using hanswered.method .stringifier method hmethod

/-- An iterator over what is counted calls what is there. -/
theorem Answered.iteratorItems (hcounts : caps.counts = true)
    (h : Yields (t.iteratorItems caps) items) : t.LedItems items := by
  rw [Target.iteratorItems] at h
  obtain ⟨item, hitem, h⟩ := h.bind
  obtain ⟨value, -, h⟩ := h.bind
  rw [Yields.lift_iff] at hitem
  split at h
  · obtain ⟨count, hcount, h⟩ := h.bind
    obtain ⟨ident, -, h⟩ := h.bind
    obtain ⟨sig, -, h⟩ := h.bind
    rw [Yields.lift_iff] at hcount
    rw [Yields.pure_iff] at h
    rw [← h]
    simpa using ⟨hanswered.count hcounts count hcount,
      hanswered.method .indexedGetter _ hitem⟩
  · rw [Yields.pure_iff] at h
    rw [← h]
    exact ledItems_nil

/-- The defaults call what is there. -/
theorem Answered.defaultParts (parts : t.DefaultParts caps) : t.LedItems parts.all := by
  have hproperties : ∀ a ∈ instanceAttributes (t.registry.surface t.definition),
      .attribute a ∈ Feature.ofMembers (t.registry.surface t.definition) := fun a ha =>
    (mem_instanceAttributes.mp ha).1
  simp only [DefaultParts.all, ledItems_append]
  refine ⟨⟨⟨⟨⟨⟨?_, ledItems_hooks caps⟩, ?_⟩, ?_⟩, hanswered.countItems parts.hcount⟩,
    hanswered.stringifierItems parts.hstringifier⟩, ?_⟩
  · rcases parts.hinterception.of_ite with ⟨-, hinterception⟩ | ⟨-, hnone⟩
    · obtain ⟨get, hget, hpair⟩ := hinterception.bind
      rw [Yields.lift_iff] at hget
      rw [Yields.pure_iff] at hpair
      rw [← hpair]
      have hboth := ledItems_append.mpr
        ⟨hanswered.propertyGet hproperties hget, hanswered.propertySet hproperties⟩
      exact hboth
    · rw [hnone]
      exact ledItems_nil
  · intro item hitem
    obtain ⟨part, hpart, hitem⟩ := List.mem_flatten.mp hitem
    obtain ⟨a, ha, hyields⟩ := parts.haccessors.mapM.2 part hpart
    exact hanswered.attributeItems (hproperties a ha) hyields item hitem
  · rcases parts.hkeyed.of_ite with ⟨-, hkeyed⟩ | ⟨-, hnone⟩
    · obtain ⟨inherited, hinherits, hkeyed⟩ := hkeyed.bind
      rw [Yields.lift_iff] at hinherits hkeyed
      exact hanswered.keyedItems hinherits hkeyed
    · rw [hnone]
      exact ledItems_nil
  · rcases parts.hiterator.of_ite with ⟨hderives, hiterator⟩ | ⟨-, hnone⟩
    · rw [Capabilities.derivesIterator, Bool.and_eq_true, Bool.and_eq_true] at hderives
      exact hanswered.iteratorItems hderives.1.2 hiterator
    · rw [hnone]
      exact ledItems_nil

end

/-! ## interfaces without a parent -/

/-- The reserved methods that an interface without a parent defines. -/
def rootWords : List String :=
  ["__get", "__set", Identifier.getMissing, Identifier.setMissing, Identifier.undefinedKey]

/-- An interface is the topmost one if it is a root. -/
theorem isTop_of_interface (h : t.definition.kind = .interface) :
    t.isTop = t.definition.isRoot := by
  simp [isTop, Definition.isInterface, h]

/-- The defaults of a root define all names that are kept for roots. -/
theorem defines_rootWords {found : Option ClassDecl} (hkind : t.definition.kind = .interface)
    (hroot : t.definition.isRoot = true) (h : Yields t.defaults found) :
    ∀ word ∈ rootWords, Defines (bodyOf found) word := by
  have htop : t.isTop = true := by rw [isTop_of_interface hkind, hroot]
  have hintercepts : t.intercepts = true := by
    simp [intercepts, Definition.isInterface, hkind, htop]
  rcases defaults_body (Or.inl hkind) h with ⟨hhas, -⟩ | hitems
  · simp [hasDefaults, hkind, hroot] at hhas
  · obtain ⟨caps, hcaps, parts, hparts⟩ := exists_defaultParts hitems
    intro word hword
    rw [← hparts, (parts.defines_all hcaps).2 word, words, if_pos hintercepts, if_pos htop]
    exact Or.inl (List.mem_append_left _ hword)

end Target

end Artifact

/-! ## calls are followed -/

namespace Registry

open WebIdl.Artifact
open WebIdl.Code

variable {options : IngestOptions} {nodes : List Node} {r : Registry} {root : String}
  {d : Definition} {caps : Capabilities} {name : String}

/-- The operation of a member on the surface is left to the scaffold. -/
theorem implements_operation (hd : r.get? d.name = some d) (h : r.Regular root d)
    {item : SurfaceMember} (hitem : item ∈ r.surface d) {decl : Operation}
    (hkind : item.member.kind = .operation decl)
    (hname : ∀ group : OperationGroup, group.owner.name = item.owner.name →
      group.name = decl.name →
      (decl.name = none → group.special = decl.special ∧ group.overloads = [decl.signature]) →
      r.operationName? group = .ok (some name)) : r.Implements root d name := by
  obtain ⟨group, hgroup, howner, hsame, hsingle⟩ :=
    @Feature.exists_operation [] [] _ _ _ hitem hkind (by simp)
  exact implements_of_declares hd h hgroup (hname group howner hsame hsingle)
    (fun a ha => by cases ha)

/-- All methods for keys belong to a protocol. -/
theorem protocol_offsets : ∀ category ∈ offsetCategories, category.protocol?.isSome = true := by
  decide

section

variable (hbuild : build options nodes = .ok r) (hd : d ∈ r.definitions)
  (hregular : ∀ x ∈ d :: r.ancestors d, r.Regular root x)
  (hstatic : ∀ x ∈ d :: r.ancestors d, ∀ feature ∈ Feature.ofMembers (r.surface x),
    feature.isStaticForward = false)
include hbuild hd hregular

/-- What an interface without a parent defines is there for all that inherit from it. -/
theorem exists_root : ∃ x ∈ d :: r.ancestors d,
    (∀ word ∈ Target.rootWords, Defines (r.bodyOf root x.name .defaults) word) ∧
      (d.isRoot = false → x ∈ r.ancestors d) := by
  have hlineage := lineage_of_build hbuild hd
  have hget := (wellFormed_of_build hbuild).get?_of_mem hd
  -- interfaces in between may be without defaults, but the one at the end of the chain is not
  obtain ⟨x, hx, hroot, habove⟩ := hlineage.exists_root
  obtain ⟨found, hfound⟩ := (hregular x hx).complete .defaults
  refine ⟨x, hx, fun word hword => ?_, fun hchild => habove ?_⟩
  · rw [bodyOf_eq hfound]
    exact Target.defines_rootWords (hregular x hx).kind (by rw [Definition.isRoot, hroot]; rfl)
      (yields_of_file? (hlineage.known hget x hx) hfound) word hword
  · rwa [Definition.isRoot, Option.isNone_eq_false_iff] at hchild

/-- What an interface without a parent defines is there. -/
theorem implemented_of_rootWord {word : String} (hword : word ∈ Target.rootWords) :
    r.Implemented root d word := by
  obtain ⟨x, hx, hwords, -⟩ := exists_root hbuild hd hregular
  exact ⟨x, hx, Or.inl (hwords word hword)⟩

/-- An ancestor defines keyed access if one has it. -/
theorem above_of_inheritsKeyed
    (h : Target.inheritsKeyed { registry := r, root, definition := d } = .ok true)
    {category : NameCategory} (hcategory : category ∈ offsetCategories)
    (hname : r.name? d.name category "" = some name) :
    ∃ x ∈ r.ancestors d, Defines (r.bodyOf root x.name .defaults) name := by
  have hlineage := lineage_of_build hbuild hd
  have hget := (wellFormed_of_build hbuild).get?_of_mem hd
  obtain ⟨keyed, hkeyed, h⟩ := bind_eq_ok.mp h
  rw [pure_eq_ok, List.any_eq_true] at h
  obtain ⟨yes, hyes, htrue⟩ := h
  obtain ⟨x, hx, hcaps⟩ := (mapM_ok hkeyed).2 yes hyes
  obtain ⟨caps, hcaps, hsame⟩ := bind_eq_ok.mp hcaps
  rw [pure_eq_ok] at hsame
  have hmem : x ∈ d :: r.ancestors d := List.mem_cons_of_mem d hx
  have hknown := hlineage.known hget x hmem
  obtain ⟨found, hfound⟩ := (hregular x hmem).complete .defaults
  obtain ⟨caps', hcaps', hdefaults⟩ :=
    Target.defaultsOf_defaults (hregular x hmem).kind (yields_of_file? hknown hfound)
  rw [hcaps, Except.ok.injEq] at hcaps'
  subst hcaps'
  obtain ⟨ident, hident, hdefines⟩ := hdefaults.offsets (by rwa [hsame]) category hcategory
  -- the host interface fixes the name, so it is the same below and above
  have hprotocol := protocol_offsets category hcategory
  have hbelow := protocol_name_of_owner hbuild hget (r.self_mem_owners d) hprotocol hname
  have habove := protocol_name_of_owner hbuild hknown (r.self_mem_owners x) hprotocol hident
  rw [hbelow, Option.some.injEq] at habove
  refine ⟨x, hx, ?_⟩
  rw [bodyOf_eq hfound, habove]
  exact hdefines

/-- The count is there if something counts. -/
theorem implemented_of_counts (hcaps : Capabilities.of r.toCatalog d = .ok caps)
    (hcounts : caps.counts = true) (hname : r.name? d.name .count "" = some name) :
    r.Implemented root d name := by
  have hget := (wellFormed_of_build hbuild).get?_of_mem hd
  have hself := hregular d List.mem_cons_self
  have hhost : "\\Countable" ∈ Target.protocols caps :=
    mem_protocols.mpr (Or.inr (Or.inl ⟨rfl, hcounts⟩))
  have hfixed := protocol_name_of_owner hbuild hget (r.self_mem_owners d) rfl hname
  rw [NameCategory.structuralName?, Option.some.injEq] at hfixed
  rw [← hfixed]
  exact ⟨d, List.mem_cons_self,
    implements_host hbuild hget hself hcaps hhost List.mem_cons_self⟩

include hstatic

/-- An accessor of an attribute on the surface is implemented. -/
theorem implemented_of_accessor {a : OwnedAttribute} {category : NameCategory}
    (ha : .attribute a ∈ Feature.ofMembers (r.surface d)) (haccessor : IsAccessor category)
    (hname : r.name? a.owner.name category a.decl.name = some name) :
    r.Implemented root d name := by
  have hget := (wellFormed_of_build hbuild).get?_of_mem hd
  have horigin := hasOrigin_of_accessor hbuild (lineage_of_build hbuild hd) hget hregular d
    List.mem_cons_self a category ha haccessor hname
  rcases horigin with ⟨x, hx, himplements⟩ | ⟨x, hx, b, hb, ⟨hclass, forward, hforward⟩, -⟩
  · exact ⟨x, hx, himplements⟩
  · obtain ⟨target, htarget⟩ := word?_of_forward? hforward
    have hnot := hstatic x hx _ hb
    rw [Feature.isStaticForward, hclass, htarget] at hnot
    cases hnot

/-- The getter of an attribute among the members of a surface. -/
theorem implemented_of_getter {item : SurfaceMember} (hitem : item ∈ r.surface d)
    {decl : Attribute} (hkind : item.member.kind = .attribute decl)
    (hname : r.nameOf item.owner.name .getter decl.name = .ok name) :
    r.Implemented root d name := by
  have hfeature : .attribute { owner := item.owner, decl, attrs := item.member.attrs } ∈
      Feature.ofMembers (r.surface d) :=
    Feature.mem_of_single hitem (by rw [Feature.single?, hkind])
  exact implemented_of_accessor hbuild hd hregular hstatic hfeature (Or.inl rfl)
    (name?_of_nameOf hname)

/-- What plays a role is there. -/
theorem implemented_of_method (hcaps : Capabilities.of r.toCatalog d = .ok caps)
    {kind : SpecialKind} (h : r.method? caps kind = .ok (some name)) :
    r.Implemented root d name := by
  have hget := (wellFormed_of_build hbuild).get?_of_mem hd
  have hself := hregular d List.mem_cons_self
  rw [method?] at h
  cases hsource : caps.special? kind with
  | none =>
      rw [hsource] at h
      cases h
  | some source =>
      rw [hsource, bind_eq_ok] at h
      obtain ⟨ident, hident, h⟩ := h
      rw [pure_eq_ok, Option.some.injEq] at h
      subst h
      obtain ⟨item, hitem, hfrom⟩ := (Capabilities.sources hcaps).1 kind source hsource
      cases hfrom with
      | unnamed hkind hname hrole =>
          refine ⟨d, List.mem_cons_self, implements_operation hget hself hitem hkind ?_⟩
          intro group howner hsame hsingle
          obtain ⟨hspecial, hoverloads⟩ := hsingle hname
          rw [specialMethod, ← howner] at hident
          simp [operationName?, hsame, hname, hoverloads, hspecial, hrole, hident, bind_eq_ok]
      | operation hkind hname hrole =>
          refine ⟨d, List.mem_cons_self, implements_operation hget hself hitem hkind ?_⟩
          intro group howner hsame _
          rw [specialMethod, ← howner] at hident
          simp [operationName?, hsame, hname, hident]
      | «attribute» hkind hspecial =>
          exact implemented_of_getter hbuild hd hregular hstatic hitem hkind hident

/-- The getter of the attribute that is counted by is there. -/
theorem implemented_of_countGetter (hcaps : Capabilities.of r.toCatalog d = .ok caps)
    (h : r.countGetter? caps = .ok (some name)) : r.Implemented root d name := by
  rw [countGetter?] at h
  cases hsource : caps.count with
  | none =>
      rw [hsource] at h
      cases h
  | some source =>
      rw [hsource, bind_eq_ok] at h
      obtain ⟨ident, hident, h⟩ := h
      rw [pure_eq_ok, Option.some.injEq] at h
      subst h
      obtain ⟨item, hitem, decl, hkind, -, -, rfl⟩ := (Capabilities.sources hcaps).2 source hsource
      exact implemented_of_getter hbuild hd hregular hstatic hitem hkind hident

/-- What the defaults of an interface can call is there. -/
theorem answered (hcaps : Capabilities.of r.toCatalog d = .ok caps) :
    Target.Answered { registry := r, root, definition := d } caps where
  accessor a ha category name haccessor hname :=
    implemented_of_accessor hbuild hd hregular hstatic ha haccessor hname
  method kind name h := implemented_of_method hbuild hd hregular hstatic hcaps h
  countGetter name h := implemented_of_countGetter hbuild hd hregular hstatic hcaps h
  count hcounts name hname :=
    implemented_of_counts hbuild hd hregular hcaps hcounts (Target.name?_of_structuralName hname)
  hook _ := ⟨implemented_of_rootWord hbuild hd hregular (by decide),
    implemented_of_rootWord hbuild hd hregular (by decide)⟩
  undefinedKey := implemented_of_rootWord hbuild hd hregular (by decide)
  property hchild := by
    rw [Target.isTop_of_interface (hregular d List.mem_cons_self).kind] at hchild
    obtain ⟨x, -, hwords, habove⟩ := exists_root hbuild hd hregular
    exact ⟨⟨x, habove hchild, hwords _ (by decide)⟩, ⟨x, habove hchild, hwords _ (by decide)⟩⟩
  offset hinherits category hcategory name hname :=
    above_of_inheritsKeyed hbuild hd hregular hinherits hcategory
      (Target.name?_of_structuralName hname)

end

/-- A shelf sorts its books, which it has from a mixin, and forwards its label to a tag.  Between
it and the base, which can be converted to a string, is an interface that has nothing. -/
def shelfNodes : List Node :=
  [.definition {
      name := "Tag", kind := .interface, members := [attributeNamed "text" "DOMString" .none] },
   .definition {
      name := "Base", kind := .interface,
      members := [attributeNamed "title" "DOMString" .stringifier] },
   .definition { name := "Furniture", kind := .interface, parent := some "Base" },
   .definition { name := "Books", kind := .mixin, members := countedItems },
   .definition {
      name := "Shelf", kind := .interface, parent := some "Furniture",
      members := [
        attributeNamed "title" "DOMString" .inherit,
        { kind := .attribute { name := "label", type := .named "Tag" false {}, readonly := true }
          attrs := ⟨[{ name := "PutForwards", value := some (.identifier "text") }]⟩ },
        { kind := .attribute { name := "hidden", type := .named "boolean" false {} }
          attrs := ⟨[{ name := "Reflect" }]⟩ }] },
   .includes "Shelf" "Books"]

/-- The calls of a shelf: properties, the setters of its label and of what reflects, keyed access,
the count and the iterator. -/
def shelfCalls : List Piece :=
  [.self "getTitle", .self "getLabel", .self "getHidden", .self "getLength", .parent "__get",
   .self "setTitle", .self "setLabel", .self "setHidden", .parent "__set",
   .self "getLabel", .host "hasAttribute", .host "setAttribute", .host "removeAttribute",
   .self "count", .parent "offsetExists", .self "item", .parent "offsetGet",
   .parent "offsetSet", .parent "offsetUnset",
   .self "getLength", .self "count", .self "item"]

/-- **No call dangles**: in the defaults of an interface, a generated method that is called on the
object itself is defined by the scaffold or the defaults of the interface or of an ancestor, a
method of the parent is defined by the defaults of an ancestor, and what is left to the class is
one of the methods for content attributes. -/
theorem calls_lead_somewhere (h : build options nodes = .ok r) (hd : d ∈ r.definitions)
    (hregular : ∀ x ∈ d :: r.ancestors d, r.Regular root x)
    (hstatic : ∀ x ∈ d :: r.ancestors d, ∀ feature ∈ Feature.ofMembers (r.surface x),
      feature.isStaticForward = false) :
    (∀ name, .self name ∈ calls (r.bodyOf root d.name .defaults) → r.Implemented root d name) ∧
    (∀ name, .parent name ∈ calls (r.bodyOf root d.name .defaults) →
      ∃ x ∈ r.ancestors d, Defines (r.bodyOf root x.name .defaults) name) ∧
    ∀ name, .host name ∈ calls (r.bodyOf root d.name .defaults) → name ∈ hostHelpers := by
  have hself := hregular d List.mem_cons_self
  obtain ⟨found, hfound⟩ := hself.complete .defaults
  have hyields := yields_of_file? ((wellFormed_of_build h).get?_of_mem hd) hfound
  have hled : ∀ piece ∈ calls (r.bodyOf root d.name .defaults),
      Target.Led { registry := r, root, definition := d } piece := by
    intro piece hpiece
    obtain ⟨hpiece, -⟩ := List.mem_filter.mp hpiece
    obtain ⟨item, hitem, hpiece⟩ := List.mem_flatMap.mp hpiece
    rw [bodyOf_eq hfound] at hitem
    rcases Target.defaults_body (Or.inl hself.kind) hyields with ⟨-, hempty⟩ | hdefaults
    · rw [hempty] at hitem
      cases hitem
    · obtain ⟨caps, hcaps, parts, hparts⟩ := Target.exists_defaultParts hdefaults
      rw [← hparts] at hitem
      exact (answered h hd hregular hstatic hcaps).defaultParts parts item hitem piece hpiece
  exact ⟨fun name hname => hled _ hname, fun name hname => hled _ hname,
    fun name hname => hled _ hname⟩

/-- All that a shelf calls is there: its own methods, and those of the base for what only the
base has, past an interface without defaults. -/
theorem shelf_calls_lead_somewhere :
    ∃ r d, build {} shelfNodes = .ok r ∧ d ∈ r.definitions ∧ d.name = "Shelf" ∧
      (∀ x ∈ d :: r.ancestors d, r.Regular "Site" x) ∧
      (∀ x ∈ d :: r.ancestors d, ∀ feature ∈ Feature.ofMembers (r.surface x),
        feature.isStaticForward = false) ∧
      r.bodyOf "Site" "Furniture" .defaults = [] ∧
      calls (r.bodyOf "Site" d.name .defaults) = shelfCalls ∧
      (∀ name ∈ ["getTitle", "setLabel", "getHidden", "getLength", "count", "item"],
        r.Implemented "Site" d name) ∧
      ∀ name ∈ ["__get", "__set", "offsetExists", "offsetGet", "offsetSet", "offsetUnset"],
        ∃ x ∈ r.ancestors d, Defines (r.bodyOf "Site" x.name .defaults) name := by
  have hbuild : (build {} shelfNodes).toOption.map (fun r => (r.get? "Shelf").map fun d =>
      ((d :: r.ancestors d).all (fun x => r.isRegular "Site" x &&
          (Feature.ofMembers (r.surface x)).all fun feature => !feature.isStaticForward),
        (r.bodyOf "Site" "Furniture" .defaults).isEmpty,
        calls (r.bodyOf "Site" d.name .defaults))) =
        some (some (true, true, shelfCalls)) := by
    decide +kernel
  obtain ⟨r, hr, hfound⟩ := ok_of_toOption_map hbuild
  obtain ⟨d, hd, hfacts⟩ := Option.map_eq_some_iff.mp hfound
  obtain ⟨hcheck, hempty, hcalls⟩ := by simpa only [Prod.mk.injEq] using hfacts
  have hall : ∀ x ∈ d :: r.ancestors d, r.isRegular "Site" x = true ∧
      (Feature.ofMembers (r.surface x)).all (fun feature => !feature.isStaticForward) = true :=
    fun x hx => Bool.and_eq_true_iff.mp (List.all_eq_true.mp hcheck x hx)
  have hregular : ∀ x ∈ d :: r.ancestors d, r.Regular "Site" x := fun x hx =>
    regular_of_check (hall x hx).1
  have hstatic : ∀ x ∈ d :: r.ancestors d, ∀ feature ∈ Feature.ofMembers (r.surface x),
      feature.isStaticForward = false := fun x hx feature hfeature =>
    Bool.not_eq_true' _ ▸ List.all_eq_true.mp (hall x hx).2 feature hfeature
  have hmem := Catalog.mem_of_get? hd
  obtain ⟨hself, hparent, -⟩ := calls_lead_somewhere hr hmem hregular hstatic
  rw [hcalls] at hself hparent
  refine ⟨r, d, hr, hmem, Catalog.name_of_get? hd, hregular, hstatic, List.isEmpty_iff.mp hempty,
    hcalls, fun name hname => hself name ?_, fun name hname => hparent name ?_⟩
  · revert name
    decide
  · revert name
    decide

end Registry

end WebIdl
