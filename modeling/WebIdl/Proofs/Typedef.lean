import WebIdl.Catalog.Typedef
import WebIdl.Proofs.Outcome
import Mathlib.Data.List.Chain
import Mathlib.Data.List.Nodup
import Mathlib.Data.List.Perm.Subperm

/-!
# WebIdl.Proofs.Typedef

Where typedefs lead.

The types met on the way from a type on are a chain: the type itself, the type of the
typedef that it names, and so on.  A chain either ends (`Chain`) or comes back to a name
(`Revisits`), and never both.  Following a chain that ends gives its last type, which has
picked up what the others carry (`follow_ok`); following one that does not gives the names
up to the first one met twice (`follow_error`):

* `typedefs_end_in_normal_form`: a type is resolved, or a typedef leads back to itself.
-/

namespace WebIdl

/-! ## types that wrap others -/

namespace ExtAttrs

/-- An attribute is added behind those of its name. -/
theorem get?_add (attrs : ExtAttrs) (attr : ExtAttr) (name : String) :
    (attrs.add attr).get? name =
      (attrs.get? name).or (if attr.name == name then some attr else none) := by
  rw [add]
  split
  next hold =>
    split
    next hname =>
      rw [beq_iff_eq] at hname
      rw [has, hname] at hold
      rw [Option.or_eq_left_of_isSome hold]
    next => rw [Option.or_none]
  next => simp [get?, List.find?_append, List.find?_singleton]

/-- Attributes of the merged list come first, and the first one of a name counts. -/
theorem get?_merge (attrs other : ExtAttrs) (name : String) :
    (attrs.merge other).get? name = (attrs.get? name).or (other.get? name) := by
  obtain ⟨list⟩ := other
  rw [merge]
  change _ = (attrs.get? name).or (list.find? (·.name == name))
  induction list generalizing attrs with
  | nil => simp
  | cons attr list ih =>
      rw [List.foldl_cons, ih, get?_add, Option.or_assoc, List.find?_cons]
      cases attr.name == name <;> simp

end ExtAttrs

namespace IdlType

/-- The type without a `?` and attributes of its own. -/
def core : IdlType → IdlType
  | .named name _ _ => .named name false {}
  | .union members _ _ => .union members false {}
  | .generic head args _ _ => .generic head args false {}

variable (type : IdlType) (nullable : Bool) (attrs : ExtAttrs)

@[simp] theorem name?_wrap : (type.wrap nullable attrs).name? = type.name? := by
  cases type <;> rfl

@[simp] theorem nullable_wrap :
    (type.wrap nullable attrs).nullable = (type.nullable || nullable) := by
  cases type <;> rfl

@[simp] theorem attrs_wrap : (type.wrap nullable attrs).attrs = type.attrs.merge attrs := by
  cases type <;> rfl

/-- Marks do not matter for the name of a type. -/
theorem name?_core : type.core.name? = type.name? := by
  cases type <;> rfl

@[simp] theorem core_wrap : (type.wrap nullable attrs).core = type.core := by
  cases type <;> rfl

end IdlType

/-! ## chains of typedefs -/

namespace Catalog

variable {c : Catalog}

/-- The type of the typedef that a type names. -/
def body? (c : Catalog) (type : IdlType) : Option IdlType :=
  type.name?.bind c.typedef?

/-- The types on a chain of typedefs that ends: a type, and if it names a typedef, those on
the chain of the typedef's type. -/
inductive Chain (c : Catalog) : IdlType → List IdlType → Prop where
  | last {type : IdlType} : c.body? type = none → Chain c type [type]
  | step {type body : IdlType} {rest : List IdlType} :
      c.body? type = some body → Chain c body rest → Chain c type (type :: rest)

/-- The type of a typedef is the name of another one, or of anything else. -/
def Leads (c : Catalog) (a b : String) : Prop :=
  (c.typedef? a).bind IdlType.name? = some b

/-- A chain of typedefs meets the names `front`, all of them different, and then one of
them again. -/
structure Revisits (c : Catalog) (type : IdlType) (front : List String) (again : String) :
    Prop where
  starts : front.head? = type.name?
  leads : (front ++ [again]).IsChain c.Leads
  nodup : front.Nodup
  mem : again ∈ front

/-- Every name on a chain that comes back leads to a name on it. -/
theorem Revisits.exists_leads {type : IdlType} {front : List String} {again : String}
    (h : c.Revisits type front again) {name : String} (hname : name ∈ front) :
    ∃ next ∈ front, c.Leads name next := by
  have hmem := h.mem
  have hleads := h.leads
  obtain ⟨before, after, rfl⟩ := List.append_of_mem hname
  rw [List.append_assoc] at hleads
  replace hleads := hleads.right_of_append
  cases after with
  | nil => exact ⟨again, hmem, hleads.rel⟩
  | cons next after => exact ⟨next, by simp, hleads.rel⟩

/-- A chain that comes back is no longer than there are typedefs. -/
theorem Revisits.length_le {type : IdlType} {front : List String} {again : String}
    (h : c.Revisits type front again) : front.length ≤ c.typedefs.length := by
  have hsub : front ⊆ c.typedefNames := by
    intro name hname
    obtain ⟨next, -, hleads⟩ := h.exists_leads hname
    obtain ⟨body, hbody, -⟩ := Option.bind_eq_some_iff.mp hleads
    exact mem_typedefNames hbody
  have hle := (h.nodup.subperm hsub).length_le
  rwa [typedefNames, List.length_map] at hle

/-- A chain that ends does not come back. -/
theorem Chain.not_revisits {type : IdlType} {chain : List IdlType} (hchain : c.Chain type chain)
    (front : List String) (again : String) : ¬ c.Revisits type front again := by
  intro h
  have hon : ∃ name ∈ front, type.name? = some name := by
    cases front with
    | nil => cases h.mem
    | cons first rest => exact ⟨first, List.mem_cons_self, h.starts.symm⟩
  have hnext : ∀ node, (∃ name ∈ front, node.name? = some name) →
      ∃ body, c.body? node = some body ∧ ∃ name ∈ front, body.name? = some name := by
    rintro node ⟨name, hname, hnamed⟩
    obtain ⟨next, hnext, hleads⟩ := h.exists_leads hname
    obtain ⟨body, hbody, hbodyName⟩ := Option.bind_eq_some_iff.mp hleads
    exact ⟨body, by rw [body?, hnamed, Option.bind_some, hbody], next, hnext, hbodyName⟩
  -- Each type of the chain names one of `front`, so another one follows: there is no last.
  clear h
  induction hchain with
  | last hnone =>
      obtain ⟨body, hbody, -⟩ := hnext _ hon
      rw [hnone] at hbody
      cases hbody
  | step hsome hrest ih =>
      obtain ⟨body, hbody, hon'⟩ := hnext _ hon
      rw [hsome] at hbody
      cases hbody
      exact ih hon'

/-! ## following a chain -/

/-- What is resolved from a type on, along the types of a chain: the last one with the
nullability and the attributes of all of them, those further on first. -/
structure Gathers (r : IdlType) (chain : List IdlType) : Prop where
  core : chain.getLast?.map IdlType.core = some r.core
  nullable : r.nullable = chain.any (·.nullable)
  attrs : ∀ name, r.attrs.get? name = chain.reverse.findSome? (·.attrs.get? name)

/-- What is no name stands for nothing else. -/
theorem body?_eq_none_of_name? {type : IdlType} (h : type.name? = none) :
    c.body? type = none := by
  rw [body?, h, Option.bind_none]

/-- What a type stands for is what its name does. -/
theorem body?_eq_of_name? {type : IdlType} {name : String} (h : type.name? = some name) :
    c.body? type = c.typedef? name := by
  rw [body?, h, Option.bind_some]

/-- A type by itself gathers its own marks. -/
theorem gathers_self (type : IdlType) : Gathers type [type] where
  core := rfl
  nullable := by simp
  attrs := by simp

/-- A wrapped type stands for the wrapper and itself. -/
theorem Gathers.wrap {r type target : IdlType} {chain : List IdlType}
    (h : Gathers r (target.wrap type.nullable type.attrs :: chain)) :
    Gathers r (type :: target :: chain) where
  core := by
    have hcore := h.core
    cases chain <;> simpa [List.getLast?_cons] using hcore
  nullable := by
    rw [h.nullable]
    simp only [List.any_cons, IdlType.nullable_wrap]
    rw [Bool.or_comm target.nullable, Bool.or_assoc]
  attrs name := by
    rw [h.attrs]
    simp only [List.reverse_cons, List.findSome?_append, List.findSome?_singleton,
      IdlType.attrs_wrap, ExtAttrs.get?_merge, Option.or_assoc]

/-- Following a chain to its end. -/
theorem follow_ok {seen : List String} {type target r : IdlType}
    (h : c.follow seen type target = .ok r) :
    ∃ chain, c.Chain target chain ∧ Gathers r (type :: chain) ∧
      chain.length ≤ unseen c.typedefNames seen + 1 := by
  fun_induction follow c seen type target with
  | case1 seen type target next hname =>
      obtain rfl := Except.ok.inj h
      rw [IdlType.name?_wrap] at hname
      exact ⟨[target], .last (body?_eq_none_of_name? hname), gathers_self _ |>.wrap, by simp⟩
  | case2 => cases h
  | case3 seen type target next name hname hfresh hnone =>
      obtain rfl := Except.ok.inj h
      rw [IdlType.name?_wrap] at hname
      exact ⟨[target], .last ((body?_eq_of_name? hname).trans hnone), gathers_self _ |>.wrap,
        by simp⟩
  | case4 seen type target next name hname hfresh target' hsome ih =>
      obtain ⟨chain, hchain, hgathers, hlength⟩ := ih h
      have hless := unseen_cons_lt (mem_typedefNames hsome) (by simpa using hfresh)
      rw [IdlType.name?_wrap] at hname
      refine ⟨target :: chain, .step ((body?_eq_of_name? hname).trans hsome) hchain, ?_, ?_⟩
      · exact hgathers.wrap
      · rw [List.length_cons]
        omega

/-- The names met so far lead one to the next, the last one first, whose type is `target`. -/
structure Trail (c : Catalog) (seen : List String) (target : IdlType) : Prop where
  last : seen.head?.bind c.typedef? = some target
  leads : seen.reverse.IsChain c.Leads
  nodup : seen.Nodup

/-- A typedef is a trail to what it stands for. -/
theorem trail_singleton {name : String} {target : IdlType} (h : c.typedef? name = some target) :
    c.Trail [name] target :=
  ⟨h, List.isChain_singleton name, List.nodup_singleton name⟩

/-- Each typedef of a trail leads to the next. -/
theorem Trail.leads_snoc {seen : List String} {target : IdlType} {name : String}
    (h : c.Trail seen target) (hname : target.name? = some name) :
    (seen.reverse ++ [name]).IsChain c.Leads := by
  refine List.isChain_append.mpr ⟨h.leads, List.isChain_singleton name, ?_⟩
  intro last hlast next hnext
  rw [List.getLast?_reverse, Option.mem_def] at hlast
  rw [List.head?_cons, Option.mem_some_iff] at hnext
  have htarget := h.last
  rw [hlast, Option.bind_some] at htarget
  rw [Leads, htarget, Option.bind_some, hname, hnext]

/-- One more name. -/
theorem Trail.cons {seen : List String} {target target' : IdlType} {name : String}
    (h : c.Trail seen target) (hname : target.name? = some name) (hfresh : name ∉ seen)
    (htarget : c.typedef? name = some target') : c.Trail (name :: seen) target' where
  last := htarget
  leads := by
    rw [List.reverse_cons]
    exact h.leads_snoc hname
  nodup := List.nodup_cons.mpr ⟨hfresh, h.nodup⟩

/-- Following a chain that comes back gives the names on it. -/
theorem follow_error {seen : List String} {type target : IdlType} {e : Error}
    (htrail : c.Trail seen target) (h : c.follow seen type target = .error e) :
    ∃ front again, e = .unsupportedType (.typedefCycle (front ++ [again])) ∧
      front.head? = seen.getLast? ∧ (front ++ [again]).IsChain c.Leads ∧ front.Nodup ∧
      again ∈ front := by
  fun_induction follow c seen type target with
  | case1 => cases h
  | case2 seen type target next name hname hmet =>
      rw [IdlType.name?_wrap] at hname
      refine ⟨seen.reverse, name, ?_, List.head?_reverse, htrail.leads_snoc hname, ?_, ?_⟩
      · rw [← Except.error.inj h, List.reverse_cons]
      · exact List.nodup_reverse.mpr htrail.nodup
      · simpa using hmet
  | case3 => cases h
  | case4 seen type target next name hname hfresh target' hsome ih =>
      rw [IdlType.name?_wrap] at hname
      have htrail' := htrail.cons hname (by simpa using hfresh) hsome
      obtain ⟨front, again, he, hstart, hrest⟩ := ih htrail' h
      refine ⟨front, again, he, ?_, hrest⟩
      cases seen with
      | nil => exact absurd htrail.last (by simp)
      | cons last before => rw [hstart, List.getLast?_cons_cons]

/-! ## resolving a type -/

/-- A type that is resolved has a chain that ends, no longer than there are typedefs. -/
theorem resolve_ok {type r : IdlType} (h : c.resolve type = .ok r) :
    ∃ chain, c.Chain type chain ∧ Gathers r chain ∧ chain.length ≤ c.typedefs.length + 1 := by
  have hself : c.body? type = none → ∃ chain, c.Chain type chain ∧ Gathers type chain ∧
      chain.length ≤ c.typedefs.length + 1 := fun hnone =>
    ⟨[type], .last hnone, gathers_self type, by simp⟩
  rw [resolve] at h
  split at h
  next hname =>
    obtain rfl := Except.ok.inj h
    exact hself (body?_eq_none_of_name? hname)
  next name hname =>
    split at h
    next hnone =>
      obtain rfl := Except.ok.inj h
      exact hself ((body?_eq_of_name? hname).trans hnone)
    next target hsome =>
      obtain ⟨chain, hchain, hgathers, hlength⟩ := follow_ok h
      have hless : unseen c.typedefNames [name] < unseen c.typedefNames [] :=
        unseen_cons_lt (mem_typedefNames hsome) rfl
      have hall : unseen c.typedefNames [] ≤ c.typedefs.length := by
        rw [← List.length_map (f := (·.1))]
        exact List.countP_le_length
      refine ⟨type :: chain, .step ((body?_eq_of_name? hname).trans hsome) hchain, hgathers, ?_⟩
      rw [List.length_cons]
      omega

/-- A type that is not resolved has a chain that comes back. -/
theorem resolve_error {type : IdlType} {e : Error} (h : c.resolve type = .error e) :
    ∃ front again, c.Revisits type front again ∧
      e = .unsupportedType (.typedefCycle (front ++ [again])) := by
  rw [resolve] at h
  split at h
  next => cases h
  next name hname =>
    split at h
    next => cases h
    next target hsome =>
      obtain ⟨front, again, he, hstart, hleads, hnodup, hmem⟩ :=
        follow_error (trail_singleton hsome) h
      exact ⟨front, again, ⟨hstart.trans hname.symm, hleads, hnodup, hmem⟩, he⟩

/-- A type that names no typedef is its own result. -/
theorem resolve_of_body?_eq_none {type : IdlType} (h : c.body? type = none) :
    c.resolve type = .ok type := by
  rw [resolve]
  split
  next => rfl
  next name hname =>
    rw [body?_eq_of_name? hname] at h
    rw [h]

/-- A chain ends where nothing stands for anything else. -/
theorem Chain.exists_last {type : IdlType} {chain : List IdlType} (h : c.Chain type chain) :
    ∃ last, chain.getLast? = some last ∧ c.body? last = none := by
  induction h with
  | last hnone => exact ⟨_, rfl, hnone⟩
  | step hsome hrest ih =>
      obtain ⟨last, hlast, hnone⟩ := ih
      exact ⟨last, by rw [List.getLast?_cons, hlast]; rfl, hnone⟩

/-- What is gathered along a chain that ends names no typedef. -/
theorem Gathers.body?_eq_none {type r : IdlType} {chain : List IdlType}
    (hr : Gathers r chain) (hchain : c.Chain type chain) : c.body? r = none := by
  obtain ⟨last, hlast, hnone⟩ := hchain.exists_last
  have hcore := hr.core
  rw [hlast, Option.map_some, Option.some.injEq] at hcore
  rwa [body?, ← IdlType.name?_core, ← hcore, IdlType.name?_core]

/-- A gathered type has an attribute if and only if one on the chain has it. -/
theorem Gathers.has_iff {r : IdlType} {chain : List IdlType} (h : Gathers r chain)
    (name : String) : r.attrs.has name = true ↔ ∃ node ∈ chain, node.attrs.has name = true := by
  rw [ExtAttrs.has, h.attrs, List.findSome?_isSome_iff]
  simp only [List.mem_reverse]
  rfl

/-- **Typedefs end, and what they end in is a normal form.**  A type is not resolved if and only
if its chain of typedefs comes back to a name, and then the names on the chain are reported; they
are no more than there are typedefs, and one.  Otherwise the chain ends, after no more typedefs
than there are.  The result is the last type of the chain, which names no typedef and is its own
result; it is nullable if any type of the chain is, and has the attributes of all of them, of
each name the one that is furthest on. -/
theorem typedefs_end_in_normal_form (c : Catalog) (type : IdlType) :
    ((∃ e, c.resolve type = .error e) ↔ ∃ front again, c.Revisits type front again) ∧
    (∀ e, c.resolve type = .error e → ∃ front again, c.Revisits type front again ∧
      front.length ≤ c.typedefs.length ∧
      e = .unsupportedType (.typedefCycle (front ++ [again]))) ∧
    ∀ r, c.resolve type = .ok r →
      (∀ name, r.name? = some name → c.typedef? name = none) ∧
      c.resolve r = .ok r ∧
      ∃ chain, c.Chain type chain ∧ chain.length ≤ c.typedefs.length + 1 ∧
        chain.getLast?.map IdlType.core = some r.core ∧
        (r.nullable = true ↔ ∃ node ∈ chain, node.nullable = true) ∧
        ∀ name, (r.attrs.has name = true ↔ ∃ node ∈ chain, node.attrs.has name = true) ∧
          r.attrs.get? name = chain.reverse.findSome? (·.attrs.get? name) := by
  refine ⟨⟨?_, ?_⟩, ?_, ?_⟩
  · rintro ⟨e, he⟩
    obtain ⟨front, again, hback, -⟩ := resolve_error he
    exact ⟨front, again, hback⟩
  · rintro ⟨front, again, hback⟩
    cases hresolve : c.resolve type with
    | error e => exact ⟨e, rfl⟩
    | ok r =>
        obtain ⟨chain, hchain, -, -⟩ := resolve_ok hresolve
        exact absurd hback (hchain.not_revisits front again)
  · intro e he
    obtain ⟨front, again, hback, hpath⟩ := resolve_error he
    exact ⟨front, again, hback, hback.length_le, hpath⟩
  · intro r hr
    obtain ⟨chain, hchain, hgathers, hlength⟩ := resolve_ok hr
    have hnone := hgathers.body?_eq_none hchain
    refine ⟨?_, resolve_of_body?_eq_none hnone, chain, hchain, hlength, hgathers.core, ?_, ?_⟩
    · intro name hname
      rwa [body?_eq_of_name? hname] at hnone
    · rw [hgathers.nullable, List.any_eq_true]
    · exact fun name => ⟨hgathers.has_iff name, hgathers.attrs name⟩

/-- `typedef [From=size] unsigned long Size`, `typedef Size? Extent`, and two typedefs that
stand for each other. -/
def measures : Catalog where
  definitions := []
  typedefs := [
    ("Size", .named "unsigned long" false
      ⟨[{ name := "From", value := some (.identifier "size") }]⟩),
    ("Extent", .named "Size" true {}),
    ("Ping", .named "Pong" false {}),
    ("Pong", .named "Ping" false {})]
  includes := []

/-- `[From=extent, Clamp] Extent` -/
def extent : IdlType :=
  .named "Extent" false
    ⟨[{ name := "From", value := some (.identifier "extent") }, { name := "Clamp" }]⟩

/-- An extent is an integer or null, and `Ping` comes back to itself. -/
theorem extent_is_an_integer :
    (∃ r, measures.resolve extent = .ok r ∧ r.name? = some "unsigned long" ∧
      r.attrs.word? "From" = some "size" ∧ measures.resolve r = .ok r ∧
      ∃ chain, measures.Chain extent chain ∧ (∃ node ∈ chain, node.nullable = true) ∧
        ∃ node ∈ chain, node.attrs.has "Clamp" = true) ∧
    ∃ front again, measures.Revisits (.ofName "Ping") front again := by
  have hextent : (measures.resolve extent).toOption.map (fun r =>
      (r.name?, r.attrs.word? "From", r.nullable, r.attrs.has "Clamp")) =
      some (some "unsigned long", some "size", true, true) := by
    decide +kernel
  have hping : (measures.resolve (.ofName "Ping")).toOption.isNone = true := by
    decide +kernel
  obtain ⟨r, hr, hfacts⟩ := ok_of_toOption_map hextent
  simp only [Prod.mk.injEq] at hfacts
  obtain ⟨hname, hword, hnullable, hclamp⟩ := hfacts
  obtain ⟨-, hself, chain, hchain, -, -, hany, hattrs⟩ :=
    (typedefs_end_in_normal_form measures extent).2.2 r hr
  refine ⟨⟨r, hr, hname, hword, hself, chain, hchain, hany.mp hnullable,
    (hattrs "Clamp").1.mp hclamp⟩, ?_⟩
  cases hfails : measures.resolve (.ofName "Ping") with
  | ok r => simp [hfails, Except.toOption] at hping
  | error e => exact (typedefs_end_in_normal_form measures _).1.mp ⟨e, hfails⟩

end Catalog

end WebIdl
