import WebIdl.Catalog.Basic

/-!
# WebIdl.Catalog.Typedef

Following typedefs. A type that names a typedef stands for the typedef's type, which
may name a typedef again; on the way nullability adds up, and attributes found later
come before those found earlier. A chain that comes back to a name is an error.
-/

namespace WebIdl.Catalog

/-- The names of the typedefs. -/
def typedefNames (c : Catalog) : List String :=
  c.typedefs.map (·.1)

/-- What is found has a key. -/
theorem mem_map_fst_of_lookup {α : Type} {table : List (String × α)} {key : String} {value : α}
    (h : table.lookup key = some value) : key ∈ table.map (·.1) := by
  induction table with
  | nil => simp at h
  | cons first rest ih =>
    obtain ⟨other, _⟩ := first
    by_cases same : key = other
    · simp [same]
    · simp only [List.lookup_cons, beq_eq_false_iff_ne.mpr same] at h
      simp [ih h]

/-- A typedef that is found is listed. -/
theorem mem_typedefNames {c : Catalog} {name : String} {type : IdlType}
    (h : c.typedef? name = some type) : name ∈ c.typedefNames :=
  mem_map_fst_of_lookup h

/-- Replace a typedef, whose type is `target`, in `type`, and go on from there.
`seen` holds the names met so far, the last one first. -/
def follow (c : Catalog) (seen : List String) (type target : IdlType) :
    Except Error IdlType :=
  let next := target.wrap type.nullable type.attrs
  match next.name? with
  | none => .ok next
  | some name =>
    if _fresh : seen.contains name then
      .error (.unsupportedType (.typedefCycle ((name :: seen).reverse)))
    else
      match _known : c.typedef? name with
      | none => .ok next
      | some target => c.follow (name :: seen) next target
termination_by unseen c.typedefNames seen
decreasing_by exact unseen_cons_lt (mem_typedefNames _known) (by simpa using _fresh)

/-- The type without typedefs at its top. -/
def resolve (c : Catalog) (type : IdlType) : Except Error IdlType :=
  match type.name? with
  | none => .ok type
  | some name =>
    match c.typedef? name with
    | none => .ok type
    | some target => c.follow [name] type target

/-- Whether a type is one of the integer types. -/
def isInteger (c : Catalog) (type : IdlType) : Except Error Bool := do
  let type ← c.resolve type
  return type.name?.bind Primitive.ofName? == some .integer

/-- Whether a type is `undefined`. -/
def isUndefined (c : Catalog) (type : IdlType) : Except Error Bool := do
  let type ← c.resolve type
  return type.name?.bind Primitive.ofName? == some .undefined

/-- The definition that a type names. -/
def definitionOf (c : Catalog) (type : IdlType) : Except Error (Option Definition) := do
  let type ← c.resolve type
  return type.name?.bind c.get?

end WebIdl.Catalog
