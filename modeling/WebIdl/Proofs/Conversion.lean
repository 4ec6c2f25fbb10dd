import Mathlib.Data.List.DropRight
import Mathlib.Data.List.TakeWhile
import WebIdl.Proofs.Failures
import WebIdl.Proofs.Walk
import WebIdl.Wire.Tree

/-!
# WebIdl.Proofs.Conversion

The types that records stand for.

These are exactly the well-formed types whose strings have no quotes left at their ends
(`Wire.exists_record_iff`): a record is checked before a type is made of it, and a wrapper
around one record adds marks only.  So all types that are written in the nodes of a tree are
well formed, and no generic with too many or too few arguments is met when files are made of
them (`Wire.records_make_well_formed_types`).
-/

namespace WebIdl

/-! ## well-formed types -/

/-- A string that an attribute holds has no double quote at its ends. -/
def ExtAttr.unquoted (attr : ExtAttr) : Bool :=
  match attr.value with
  | some (.string text) => !Text.startsWith '"' text && !Text.endsWith '"' text
  | _ => true

/-- No string of some attributes has a double quote at its ends. -/
def ExtAttrs.unquoted (attrs : ExtAttrs) : Bool :=
  attrs.list.all ExtAttr.unquoted

namespace IdlType

mutual

/-- Whether every name in a type is there, every union has two members or more, and every
generic has as many arguments as it takes. -/
def wellFormed : IdlType → Bool
  | .named name _ _ => name != ""
  | .union members _ _ => 2 ≤ members.length && allWellFormed members
  | .generic head args _ _ => args.length == head.arity && allWellFormed args

/-- Whether some types are well formed. -/
def allWellFormed : List IdlType → Bool
  | [] => true
  | type :: types => type.wellFormed && allWellFormed types

end

mutual

/-- Whether no attribute anywhere in a type holds a string with a double quote at its
ends. -/
def unquoted : IdlType → Bool
  | .named _ _ attrs => attrs.unquoted
  | .union members _ attrs => attrs.unquoted && allUnquoted members
  | .generic _ args _ attrs => attrs.unquoted && allUnquoted args

/-- Whether this holds of some types. -/
def allUnquoted : List IdlType → Bool
  | [] => true
  | type :: types => type.unquoted && allUnquoted types

end

/-- Some types are well-formed if each is. -/
theorem allWellFormed_iff {types : List IdlType} :
    allWellFormed types = true ↔ ∀ type ∈ types, type.wellFormed = true := by
  induction types with
  | nil => simp [allWellFormed]
  | cons type types ih => simp [allWellFormed, ih]

/-- Some types are without quotes if each is. -/
theorem allUnquoted_iff {types : List IdlType} :
    allUnquoted types = true ↔ ∀ type ∈ types, type.unquoted = true := by
  induction types with
  | nil => simp [allUnquoted]
  | cons type types ih => simp [allUnquoted, ih]

/-- Generics in a well-formed type have as many arguments as they take. -/
theorem wellApplied_of_wellFormed {type : IdlType} (h : type.wellFormed = true) :
    type.wellApplied = true := by
  induction type using parts_induction with
  | named => rfl
  | union members nullable attrs ih =>
      simp only [wellFormed, Bool.and_eq_true, allWellFormed_iff] at h
      rw [wellApplied, wellAppliedAll_eq, List.all_eq_true]
      exact fun type htype => ih type htype (h.2 type htype)
  | generic head args nullable attrs ih =>
      simp only [wellFormed, Bool.and_eq_true, allWellFormed_iff] at h
      rw [wellApplied, wellAppliedAll_eq, Bool.and_eq_true, List.all_eq_true]
      exact ⟨h.1, fun type htype => ih type htype (h.2 type htype)⟩

/-- Marks do not matter for whether a type is well-formed. -/
theorem wellFormed_core (type : IdlType) : type.core.wellFormed = type.wellFormed := by
  cases type <;> rfl

theorem wellFormed_wrap (type : IdlType) (nullable : Bool) (attrs : ExtAttrs) :
    (type.wrap nullable attrs).wellFormed = type.wellFormed := by
  cases type <;> rfl

end IdlType

/-- Merged attributes are among those that were merged. -/
theorem ExtAttrs.unquoted_merge {attrs other : ExtAttrs} (h : attrs.unquoted = true)
    (hother : other.unquoted = true) : (attrs.merge other).unquoted = true := by
  rw [merge]
  rw [unquoted, List.all_eq_true] at hother
  revert hother
  induction other.list generalizing attrs with
  | nil => exact fun _ => h
  | cons attr rest ih =>
      intro hother
      obtain ⟨hattr, hrest⟩ := List.forall_mem_cons.mp hother
      rw [List.foldl_cons]
      refine ih ?_ hrest
      rw [add]
      split
      · exact h
      · rw [unquoted, List.all_append, ← unquoted, h]
        simpa using hattr

/-- Marks without quotes keep a type without quotes. -/
theorem IdlType.unquoted_wrap {type : IdlType} {nullable : Bool} {attrs : ExtAttrs}
    (h : type.unquoted = true) (hattrs : attrs.unquoted = true) :
    (type.wrap nullable attrs).unquoted = true := by
  cases type with
  | named name own ownAttrs => exact ExtAttrs.unquoted_merge h hattrs
  | union members own ownAttrs =>
      simp only [unquoted, Bool.and_eq_true] at h
      simp only [wrap, unquoted, Bool.and_eq_true]
      exact ⟨ExtAttrs.unquoted_merge h.1 hattrs, h.2⟩
  | generic head args own ownAttrs =>
      simp only [unquoted, Bool.and_eq_true] at h
      simp only [wrap, unquoted, Bool.and_eq_true]
      exact ⟨ExtAttrs.unquoted_merge h.1 hattrs, h.2⟩

namespace Wire

/-! ## attributes -/

/-- Quotes are trimmed on both sides. -/
theorem toList_trimQuotes (s : String) : (trimQuotes s).toList =
    (s.toList.dropWhile (· == '"')).rdropWhile (· == '"') := by
  rw [trimQuotes, String.toList_ofList, List.rdropWhile]

/-- A trimmed string has no double quote at its ends. -/
theorem ends_trimQuotes (s : String) :
    Text.startsWith '"' (trimQuotes s) = false ∧ Text.endsWith '"' (trimQuotes s) = false := by
  rw [Text.startsWith, Text.endsWith, toList_trimQuotes]
  constructor
  · cases htrim : (s.toList.dropWhile (· == '"')).rdropWhile (· == '"') with
    | nil => rfl
    | cons c cs =>
        obtain ⟨rest, hrest⟩ : c :: cs <+: s.toList.dropWhile (· == '"') :=
          htrim ▸ List.rdropWhile_prefix _ _
        simpa using (of_dropWhile_eq_cons hrest.symm).1
  · by_cases hne : (s.toList.dropWhile (· == '"')).rdropWhile (· == '"') = []
    · rw [hne]
      rfl
    · rw [List.getLast?_eq_some_getLast hne]
      simpa using List.rdropWhile_last_not _ _ hne

/-- A string without double quotes at its ends is trimmed already. -/
theorem trimQuotes_of_ends {s : String} (hstart : Text.startsWith '"' s = false)
    (hend : Text.endsWith '"' s = false) : trimQuotes s = s := by
  rw [Text.startsWith] at hstart
  rw [Text.endsWith] at hend
  have hfirst : s.toList.dropWhile (· == '"') = s.toList := by
    cases hchars : s.toList with
    | nil => rfl
    | cons c cs => exact List.dropWhile_cons_of_neg (by simpa [hchars] using hstart)
  rw [← String.toList_inj, toList_trimQuotes, hfirst, List.rdropWhile_eq_self_iff]
  intro hne
  rw [List.getLast?_eq_some_getLast hne] at hend
  simpa using hend

/-- The record of an extended attribute. -/
def AttrRecord.ofExtAttr (attr : ExtAttr) : AttrRecord where
  name := attr.name
  rhs := attr.value.map fun
    | .identifier name => ("identifier", .one name)
    | .string text => ("string", .one text)
    | .list names => ("identifier-list", .list names)

/-- An attribute that is read has no quotes around its words. -/
theorem AttrRecord.unquoted_toExtAttr (record : AttrRecord) :
    record.toExtAttr.unquoted = true := by
  rw [toExtAttr, ExtAttr.unquoted]
  split
  next text hvalue =>
    obtain ⟨rhs, hrhs, hvalue⟩ := Option.map_eq_some_iff.mp hvalue
    split at hvalue
    · cases hvalue
      simp [ends_trimQuotes]
    · cases hvalue
    · cases hvalue
  next => rfl

/-- An attribute without quotes is read back as it was written. -/
theorem AttrRecord.toExtAttr_ofExtAttr {attr : ExtAttr} (h : attr.unquoted = true) :
    (ofExtAttr attr).toExtAttr = attr := by
  obtain ⟨name, value⟩ := attr
  cases value with
  | none => rfl
  | some value =>
      cases value with
      | identifier word => simp [toExtAttr, ofExtAttr]
      | string text =>
          obtain ⟨hstart, hend⟩ := by simpa [ExtAttr.unquoted] using h
          simp [toExtAttr, ofExtAttr, trimQuotes_of_ends hstart hend]
      | list names => simp [toExtAttr, ofExtAttr]

/-- No attribute that is read has quotes around its words. -/
theorem unquoted_toExtAttrs (records : List AttrRecord) :
    (toExtAttrs records).unquoted = true := by
  simp [toExtAttrs, ExtAttrs.unquoted, AttrRecord.unquoted_toExtAttr]

/-- Attributes without quotes are read back as they were written. -/
theorem toExtAttrs_ofExtAttrs {attrs : ExtAttrs} (h : attrs.unquoted = true) :
    toExtAttrs (attrs.list.map .ofExtAttr) = attrs := by
  rw [ExtAttrs.unquoted, List.all_eq_true] at h
  have hid : ∀ attr ∈ attrs.list, (AttrRecord.ofExtAttr attr).toExtAttr = attr :=
    fun attr hattr => AttrRecord.toExtAttr_ofExtAttr (h attr hattr)
  rw [toExtAttrs, List.map_map, List.map_congr_left (f := _ ∘ _) hid, List.map_id']

/-! ## records that make types -/

/-- What a record of nested records stands for: a union of two or more, the one type that it
holds, or a generic with all its arguments. -/
theorem toType_ofNested {head : TypeHead} {records : List TypeRecord} {type : IdlType}
    (h : (TypeRecord.ofNested head records).toType = .ok type) :
    ∃ types, toTypes records = .ok types ∧
      (2 ≤ records.length ∧ type = .union types head.nullable (toExtAttrs head.attrs) ∨
        (∃ inner, types = [inner] ∧ type = inner.wrap head.nullable (toExtAttrs head.attrs)) ∨
        ∃ generic : Generic, records.length = generic.arity ∧
          type = .generic generic types head.nullable (toExtAttrs head.attrs)) := by
  rw [TypeRecord.toType] at h
  split at h
  · split at h
    · split at h
      · cases h
      next hlength =>
        obtain ⟨types, htypes, h⟩ := bind_eq_ok.mp h
        cases h
        exact ⟨types, htypes, Or.inl ⟨by omega, rfl⟩⟩
    · split at h
      · obtain ⟨types, htypes, h⟩ := bind_eq_ok.mp h
        split at h
        · cases h
          exact ⟨_, htypes, Or.inr (Or.inl ⟨_, rfl, rfl⟩)⟩
        · cases h
      · cases h
  · split at h
    · cases h
    · split at h
      · cases h
      next generic _ =>
        split at h
        · cases h
        next harity =>
          obtain ⟨types, htypes, h⟩ := bind_eq_ok.mp h
          cases h
          exact ⟨types, htypes, Or.inr (Or.inr ⟨generic, by simpa using harity, rfl⟩)⟩

mutual

/-- The type of a record is well formed, and its strings are trimmed. -/
theorem sound_toType (record : TypeRecord) {type : IdlType} (h : record.toType = .ok type) :
    type.wellFormed = true ∧ type.unquoted = true := by
  cases record with
  | ofName head name =>
      rw [TypeRecord.toType] at h
      split at h
      · cases h
      · split at h
        · cases h
        next hname =>
          cases h
          exact ⟨by simpa [IdlType.wellFormed] using hname, unquoted_toExtAttrs _⟩
  | ofNested head records =>
      obtain ⟨types, htypes, h⟩ := toType_ofNested h
      obtain ⟨hlength, hall⟩ := sound_toTypes records htypes
      have hattrs := unquoted_toExtAttrs head.attrs
      have hformed := IdlType.allWellFormed_iff.mpr fun type htype => (hall type htype).1
      have hunquoted := IdlType.allUnquoted_iff.mpr fun type htype => (hall type htype).2
      rcases h with ⟨htwo, rfl⟩ | ⟨inner, rfl, rfl⟩ | ⟨generic, harity, rfl⟩
      · simp [IdlType.wellFormed, IdlType.unquoted, hformed, hunquoted, hattrs, hlength, htwo]
      · obtain ⟨hinner, hinner'⟩ := hall inner List.mem_cons_self
        rw [IdlType.wellFormed_wrap]
        exact ⟨hinner, IdlType.unquoted_wrap hinner' hattrs⟩
      · simp [IdlType.wellFormed, IdlType.unquoted, hformed, hunquoted, hattrs, hlength, harity]

/-- As many types are read as there are records, and they are well-formed and without quotes. -/
theorem sound_toTypes (records : List TypeRecord) {types : List IdlType}
    (h : toTypes records = .ok types) : types.length = records.length ∧
      ∀ type ∈ types, type.wellFormed = true ∧ type.unquoted = true := by
  cases records with
  | nil =>
      cases h
      simp
  | cons record records =>
      rw [toTypes] at h
      obtain ⟨type, htype, h⟩ := bind_eq_ok.mp h
      obtain ⟨types', htypes, h⟩ := bind_eq_ok.mp h
      cases h
      obtain ⟨hlength, hall⟩ := sound_toTypes records htypes
      exact ⟨by simp [hlength], List.forall_mem_cons.mpr ⟨sound_toType record htype, hall⟩⟩

end

mutual

/-- The record of a type. -/
def TypeRecord.ofType : IdlType → TypeRecord
  | .named name nullable attrs => .ofName { nullable, attrs := attrs.list.map .ofExtAttr } name
  | .union members nullable attrs =>
    .ofNested { nullable, union := true, attrs := attrs.list.map .ofExtAttr } (ofTypes members)
  | .generic head args nullable attrs =>
    .ofNested { generic := head.keyword, nullable, attrs := attrs.list.map .ofExtAttr }
      (ofTypes args)

/-- The records of some types. -/
def ofTypes : List IdlType → List TypeRecord
  | [] => []
  | type :: types => TypeRecord.ofType type :: ofTypes types

end

/-- There is one record for each type. -/
theorem length_ofTypes (types : List IdlType) : (ofTypes types).length = types.length := by
  induction types with
  | nil => rfl
  | cons type types ih => rw [ofTypes, List.length_cons, List.length_cons, ih]

/-- Every generic is known by its keyword. -/
theorem ofKeyword?_keyword (generic : Generic) :
    Generic.ofKeyword? generic.keyword = some generic ∧ generic.keyword ≠ "" := by
  cases generic <;> decide

mutual

/-- A well-formed type is the type of its record. -/
theorem toType_ofType (type : IdlType) (hformed : type.wellFormed = true)
    (hunquoted : type.unquoted = true) : (TypeRecord.ofType type).toType = .ok type := by
  cases type with
  | named name nullable attrs =>
      rw [IdlType.wellFormed] at hformed
      have hname : ¬ (name == "") = true := by simpa using hformed
      rw [TypeRecord.ofType, TypeRecord.toType, toExtAttrs_ofExtAttrs hunquoted, if_neg hname]
      rfl
  | union members nullable attrs =>
      simp only [IdlType.wellFormed, Bool.and_eq_true, decide_eq_true_eq] at hformed
      simp only [IdlType.unquoted, Bool.and_eq_true] at hunquoted
      have hshort : ¬ (ofTypes members).length < 2 := by
        rw [length_ofTypes]
        omega
      rw [TypeRecord.ofType, TypeRecord.toType, toExtAttrs_ofExtAttrs hunquoted.1,
        toTypes_ofTypes members hformed.2 hunquoted.2, if_neg hshort]
      rfl
  | generic head args nullable attrs =>
      simp only [IdlType.wellFormed, Bool.and_eq_true, beq_iff_eq] at hformed
      simp only [IdlType.unquoted, Bool.and_eq_true] at hunquoted
      obtain ⟨hkeyword, hne⟩ := ofKeyword?_keyword head
      rw [TypeRecord.ofType, TypeRecord.toType, toExtAttrs_ofExtAttrs hunquoted.1,
        toTypes_ofTypes args hformed.2 hunquoted.2, if_neg (by simpa using hne)]
      simp [hkeyword, length_ofTypes, hformed.1]

/-- Well-formed types without quotes are read back as they were written. -/
theorem toTypes_ofTypes (types : List IdlType) (hformed : IdlType.allWellFormed types = true)
    (hunquoted : IdlType.allUnquoted types = true) : toTypes (ofTypes types) = .ok types := by
  cases types with
  | nil => rfl
  | cons type types =>
      rw [IdlType.allWellFormed, Bool.and_eq_true] at hformed
      rw [IdlType.allUnquoted, Bool.and_eq_true] at hunquoted
      rw [ofTypes, toTypes, toType_ofType type hformed.1 hunquoted.1,
        toTypes_ofTypes types hformed.2 hunquoted.2]
      rfl

end

/-- The types that records stand for are the well-formed ones whose strings are trimmed. -/
theorem exists_record_iff {type : IdlType} :
    (∃ record : TypeRecord, record.toType = .ok type) ↔
      type.wellFormed = true ∧ type.unquoted = true :=
  ⟨fun ⟨record, h⟩ => sound_toType record h, fun h => ⟨.ofType type, toType_ofType type h.1 h.2⟩⟩

/-! ## records that make nodes -/

/-- A type that is read is well-formed. -/
theorem wellFormed_toType {record : TypeRecord} {type : IdlType} (h : record.toType = .ok type) :
    type.wellFormed = true :=
  (sound_toType record h).1

/-- The types of arguments that are read are well-formed. -/
theorem wellFormed_toArguments {records : List ArgumentRecord} {arguments : List Argument}
    (h : toArguments records = .ok arguments) :
    ∀ type ∈ arguments.map (·.type), type.wellFormed = true := by
  rw [List.forall_mem_map]
  intro argument hargument
  obtain ⟨record, -, hrecord⟩ := (mapM_ok h).2 argument hargument
  simp only [ArgumentRecord.toArgument, bind_eq_ok] at hrecord
  obtain ⟨type, htype, default, -, hmade⟩ := hrecord
  cases hmade
  exact wellFormed_toType htype

theorem wellFormed_oneType {record : MemberRecord} {node : String} {type : IdlType}
    (h : record.oneType node = .ok type) : type.wellFormed = true := by
  rw [MemberRecord.oneType] at h
  split at h
  · exact wellFormed_toType h
  · cases h
  · cases h

theorem oneType_of_toAttribute {record : MemberRecord} {decl : Attribute}
    (h : record.toAttribute = .ok decl) : record.oneType "attribute" = .ok decl.type := by
  simp only [MemberRecord.toAttribute, bind_eq_ok] at h
  obtain ⟨name, -, type, htype, h⟩ := h
  split at h <;> cases h
  all_goals exact htype

/-- The result of an operation is made of a record, or a string where there is none. -/
theorem result_of_toOperation {record : MemberRecord} {decl : Operation}
    (h : record.toOperation = .ok decl) : ∃ result arguments,
      (result = .ofName "DOMString" ∨ record.oneType "operation" = .ok result) ∧
      toArguments record.arguments = .ok arguments ∧ decl.signature = { result, arguments } := by
  simp only [MemberRecord.toOperation] at h
  split at h
  case h_7 => cases h
  all_goals
    rw [pure_bind] at h
    split at h
    · rw [pure_bind] at h
      obtain ⟨arguments, harguments, hmade⟩ := bind_eq_ok.mp h
      cases hmade
      exact ⟨_, arguments, Or.inl rfl, harguments, rfl⟩
    · simp only [bind_eq_ok] at h
      obtain ⟨result, hresult, arguments, harguments, hmade⟩ := h
      cases hmade
      exact ⟨result, arguments, Or.inr hresult, harguments, rfl⟩

theorem wellFormed_toOperation {record : MemberRecord} {decl : Operation}
    (h : record.toOperation = .ok decl) :
    ∀ type ∈ decl.signature.types, type.wellFormed = true := by
  obtain ⟨result, arguments, hresult, harguments, hmade⟩ := result_of_toOperation h
  rw [hmade]
  refine List.forall_mem_cons.mpr ⟨?_, wellFormed_toArguments harguments⟩
  rcases hresult with rfl | hresult
  · rfl
  · exact wellFormed_oneType hresult

theorem wellFormed_toIterable {record : MemberRecord} {decl : Iterable}
    (h : record.toIterable = .ok decl) :
    ∀ type ∈ decl.key.toList ++ [decl.value], type.wellFormed = true := by
  simp only [MemberRecord.toIterable] at h
  split at h
  · obtain ⟨value, hvalue, hmade⟩ := bind_eq_ok.mp h
    cases hmade
    simpa using wellFormed_toType hvalue
  · simp only [bind_eq_ok] at h
    obtain ⟨key, hkey, value, hvalue, hmade⟩ := h
    cases hmade
    simpa using And.intro (wellFormed_toType hkey) (wellFormed_toType hvalue)
  · cases h

/-- The types of a member are made of records, whatever its kind. -/
theorem wellFormed_toMember {record : MemberRecord} {member : Member}
    (h : record.toMember = .ok member) : ∀ type ∈ member.kind.types, type.wellFormed = true := by
  obtain ⟨kind, hkind, hmade⟩ := bind_eq_ok.mp h
  cases hmade
  rw [MemberRecord.toKind] at hkind
  split at hkind
  · obtain ⟨decl, hdecl, hmade⟩ := bind_eq_ok.mp hkind
    cases hmade
    simpa [MemberKind.types] using wellFormed_oneType (oneType_of_toAttribute hdecl)
  · obtain ⟨decl, hdecl, hmade⟩ := bind_eq_ok.mp hkind
    cases hmade
    simp only [MemberRecord.toField, bind_eq_ok] at hdecl
    obtain ⟨name, -, type, htype, default, -, hmade⟩ := hdecl
    cases hmade
    simpa [MemberKind.types] using wellFormed_oneType htype
  · obtain ⟨decl, hdecl, hmade⟩ := bind_eq_ok.mp hkind
    cases hmade
    exact wellFormed_toOperation hdecl
  · obtain ⟨decl, hdecl, hmade⟩ := bind_eq_ok.mp hkind
    cases hmade
    simp only [MemberRecord.toConstant, bind_eq_ok] at hdecl
    obtain ⟨name, -, type, htype, hmade⟩ := hdecl
    split at hmade
    · cases hmade
    · obtain ⟨value, -, hmade⟩ := bind_eq_ok.mp hmade
      cases hmade
      simpa [MemberKind.types] using wellFormed_oneType htype
  · obtain ⟨decl, hdecl, hmade⟩ := bind_eq_ok.mp hkind
    cases hmade
    exact wellFormed_toIterable hdecl
  · obtain ⟨decl, hdecl, hmade⟩ := bind_eq_ok.mp hkind
    cases hmade
    exact wellFormed_toIterable hdecl
  · obtain ⟨arguments, harguments, hmade⟩ := bind_eq_ok.mp hkind
    cases hmade
    exact wellFormed_toArguments harguments
  · cases hkind

theorem wellFormed_toDefinition {record : NodeRecord} {d : Definition}
    (h : record.toDefinition = .ok d) : ∀ type ∈ d.types, type.wellFormed = true := by
  simp only [NodeRecord.toDefinition, bind_eq_ok] at h
  obtain ⟨kind, hkind, name, -, members, hmembers, hmade⟩ := h
  cases hmade
  rw [Definition.types, List.forall_mem_append, List.forall_mem_flatMap]
  constructor
  · dsimp only
    split
    next signature =>
      rw [NodeRecord.toKind] at hkind
      split at hkind
      all_goals try cases hkind
      simp only [bind_eq_ok] at hkind
      obtain ⟨result, -, type, htype, arguments, harguments, hmade⟩ := hkind
      cases hmade
      exact List.forall_mem_cons.mpr ⟨wellFormed_toType htype, wellFormed_toArguments harguments⟩
    next => simp
  · intro member hmember
    obtain ⟨record, -, hrecord⟩ := (mapM_ok hmembers).2 member hmember
    exact wellFormed_toMember hrecord

theorem wellFormed_toNode {record : NodeRecord} {node : Node} (h : record.toNode = .ok node) :
    ∀ type ∈ node.types, type.wellFormed = true := by
  rw [NodeRecord.toNode] at h
  split at h
  · simp only [bind_eq_ok] at h
    obtain ⟨target, -, mixin, -, hmade⟩ := h
    cases hmade
    simp [Node.types]
  · simp only [bind_eq_ok] at h
    obtain ⟨name, -, record, -, type, htype, hmade⟩ := h
    cases hmade
    simpa [Node.types] using wellFormed_toType htype
  · obtain ⟨d, hd, hmade⟩ := bind_eq_ok.mp h
    cases hmade
    exact wellFormed_toDefinition hd

/-- A node is read by way of a record. -/
theorem exists_record_of_nodeOf {value : Json} {node : Node} (h : nodeOf value = .ok node) :
    ∃ record : NodeRecord, record.toNode = .ok node := by
  unfold nodeOf interpret at h
  split at h
  · cases h
  · split at h
    next hnode =>
      cases h
      exact ⟨_, hnode⟩
    next => cases h

/-- The nodes of a tree are made of records. -/
theorem exists_records_of_nodesOf {elements : Json.Elements} {nodes : List Node}
    (h : nodesOf elements = .ok nodes) :
    ∃ records : List NodeRecord, records.mapM NodeRecord.toNode = .ok nodes := by
  rw [nodesOf, bind_eq_ok] at h
  obtain ⟨made, hmade, h⟩ := h
  split at h
  case isFalse => cases h
  cases h
  have heach : ∀ node ∈ nodes, ∃ record : NodeRecord, record.toNode = .ok node := by
    intro node hnode
    obtain ⟨value, -, hvalue⟩ := (mapM_ok hmade).2 node hnode
    exact exists_record_of_nodeOf hvalue
  clear hmade
  induction nodes with
  | nil => exact ⟨[], rfl⟩
  | cons node nodes ih =>
      obtain ⟨⟨record, hrecord⟩, hrest⟩ := List.forall_mem_cons.mp heach
      obtain ⟨records, hrecords⟩ := ih hrest
      exact ⟨record :: records, by rw [List.mapM_cons, hrecord, hrecords]; rfl⟩

/-- **Records make exactly the well-formed types**: a type is made of a record if and only if
it is well formed and no string in it has a double quote at its ends.  The nodes of a tree are
made of records; all types of such nodes are well formed, and they are so after typedefs are
followed, so no file of a registry of them fails to be made for a generic with a wrong number
of arguments. -/
theorem records_make_well_formed_types :
    (∀ type : IdlType, (∃ record : TypeRecord, record.toType = .ok type) ↔
      type.wellFormed = true ∧ type.unquoted = true) ∧
    (∀ elements nodes, nodesOf elements = .ok nodes →
      ∃ records : List NodeRecord, records.mapM NodeRecord.toNode = .ok nodes) ∧
    ∀ (records : List NodeRecord) (nodes : List Node), records.mapM NodeRecord.toNode = .ok nodes →
      (∀ node ∈ nodes, ∀ type ∈ node.types, type.wellFormed = true) ∧
      ∀ (options : IngestOptions) (r : Registry), Registry.build options nodes = .ok r →
        (∀ type ∈ r.types, ∀ resolved, r.resolve type = .ok resolved →
          resolved.wellFormed = true) ∧
        ∀ root name kind head found, r.file? root name kind ≠
          .error (.unsupportedType (.wrongArity head found)) := by
  refine ⟨fun type => exists_record_iff, fun elements nodes => exists_records_of_nodesOf,
    fun records nodes hnodes => ?_⟩
  have hformed : ∀ node ∈ nodes, ∀ type ∈ node.types, type.wellFormed = true := by
    intro node hnode
    obtain ⟨record, -, hrecord⟩ := (mapM_ok hnodes).2 node hnode
    exact wellFormed_toNode hrecord
  refine ⟨hformed, fun options r hbuild => ?_⟩
  have htypes : ∀ type ∈ r.types, type.wellFormed = true := by
    intro type htype
    obtain ⟨node, hnode, htype⟩ := Catalog.types_ofNodes (Registry.of_build hbuild).1 type htype
    exact hformed node hnode type htype
  have hbodies : ∀ entry ∈ r.typedefs, entry.2.wellFormed = true := fun entry hentry =>
    htypes entry.2 (Catalog.types_of_typedef hentry)
  constructor
  · intro type htype resolved
    exact Catalog.of_resolve (P := fun type => type.wellFormed = true)
      (fun type => by rw [IdlType.wellFormed_core]) hbodies (htypes type htype)
  · intro root name kind head found hfile
    cases hget : r.get? name with
    | none =>
        rw [Registry.file?, Catalog.definition, hget] at hfile
        cases hfile
    | some d =>
        have hd := Catalog.mem_of_get? hget
        cases Catalog.name_of_get? hget
        cases Registry.blame_of_file? hbuild hd hfile with
        | type htype h =>
            cases h with
            | arity _ _ h =>
                rcases h with h | ⟨entry, hentry, h⟩
                · simp [IdlType.wellApplied_of_wellFormed (htypes _ htype)] at h
                · simp [IdlType.wellApplied_of_wellFormed (hbodies entry hentry)] at h

/-- A shelf of boxes, each of them a list of what a typedef stands for; the typedef is
written with a wrapper around its one type. -/
def shelfRecords : List NodeRecord :=
  [{ kind := "interface", name := some "Shelf", members := [
      { kind := "attribute", name := some "boxes", readonly := true,
        type := some (.one (.ofNested { generic := "sequence" } [.ofName {} "Box"])) },
      { kind := "operation", special := "stringifier" }] },
   { kind := "typedef", name := some "Box",
     type := some (.ofNested { nullable := true } [.ofNested { generic := "sequence" }
       [.ofNested { union := true } [.ofName {} "long", .ofName {} "DOMString"]]]) }]

/-- The shelf has all its files, and its types are well formed wherever they are met. -/
theorem shelf_has_well_formed_types : ∃ nodes r, shelfRecords.mapM NodeRecord.toNode = .ok nodes ∧
    Registry.build {} nodes = .ok r ∧
    (∀ node ∈ nodes, ∀ type ∈ node.types, type.wellFormed = true) ∧
    (∀ type ∈ r.types, ∀ resolved, r.resolve type = .ok resolved → resolved.wellFormed = true) ∧
    (∃ file, r.file? "App" "Shelf" .contract = .ok (some file)) ∧
    ∀ name kind head found, r.file? "App" name kind ≠
      .error (.unsupportedType (.wrongArity head found)) := by
  have hmade : (shelfRecords.mapM NodeRecord.toNode).toOption.map (fun nodes =>
      (Registry.build {} nodes).toOption.map fun r =>
        (r.file? "App" "Shelf" .contract).toOption.map Option.isSome) =
      some (some (some true)) := by
    decide +kernel
  obtain ⟨nodes, hnodes, hmade⟩ := ok_of_toOption_map hmade
  obtain ⟨r, hr, hmade⟩ := ok_of_toOption_map hmade
  obtain ⟨file?, hfile, hsome⟩ := ok_of_toOption_map hmade
  obtain ⟨file, rfl⟩ := Option.isSome_iff_exists.mp hsome
  obtain ⟨hformed, hregistry⟩ := records_make_well_formed_types.2.2 shelfRecords nodes hnodes
  obtain ⟨hresolved, hfiles⟩ := hregistry {} r hr
  exact ⟨nodes, r, hnodes, hr, hformed, hresolved, ⟨file, hfile⟩, hfiles "App"⟩

/-- A shelf of lists of nothing, which no record makes, has no contract. -/
example :
    (Registry.build {} [.definition { name := "Shelf", kind := .interface, members := [{
        kind := .attribute { name := "boxes", type := .generic .sequence [] false {} } }] }]).bind
      (·.file? "App" "Shelf" .contract) |>.toOption.isNone := by
  decide +kernel

end Wire

end WebIdl
