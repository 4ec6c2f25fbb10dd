import WebIdl.Naming.Category
import WebIdl.Ordered

/-!
# WebIdl.Naming.NameMap

Chosen names: for every definition a table from category and key to an identifier,
and the list of the identifiers it introduced itself.
-/

namespace WebIdl

/-- A name that a definition introduced. -/
structure Reservation where
  category : NameCategory
  ident : String
deriving Repr, DecidableEq

/-- The identifier of one category and key. -/
structure NameEntry where
  category : NameCategory
  key : String
  ident : String
deriving Repr, DecidableEq

namespace NameEntry

/-- Whether an entry is the one of a category and key. -/
def isFor (entry : NameEntry) (category : NameCategory) (key : String) : Bool :=
  entry.category == category && entry.key == key

/-- By category, then by key. -/
def compare (a b : NameEntry) : Ordering :=
  (Ord.compare a.category.rank b.category.rank).then (Ord.compare a.key b.key)

end NameEntry

/-- The names of one definition: its entries, and what it introduced, in the order it
was reserved. -/
structure NameTable where
  entries : List NameEntry := []
  introduced : List Reservation := []
deriving Repr, DecidableEq

namespace NameTable

/-- The identifier of a category and key. -/
def get? (table : NameTable) (category : NameCategory) (key : String) : Option String :=
  (table.entries.find? (·.isFor category key)).map (·.ident)

/-- Set the identifier of a category and key. -/
def put (table : NameTable) (entry : NameEntry) : NameTable :=
  { table with
    entries := (table.entries.filter fun e => !e.isFor entry.category entry.key) ++ [entry] }

/-- The introduced identifiers, in the order they were reserved. -/
def idents (table : NameTable) : List String :=
  table.introduced.map (·.ident)

/-- The entries by category, then by key. -/
def listing (table : NameTable) : List NameEntry :=
  Ordered.ofList NameEntry.compare table.entries

end NameTable

/-- The names of every definition that has been resolved, in the order they were. -/
structure NameMap where
  tables : List (String × NameTable) := []
deriving Repr, DecidableEq

namespace NameMap

/-- The names of a definition. -/
def table? (map : NameMap) (definition : String) : Option NameTable :=
  map.tables.lookup definition

/-- The identifier of a category and key in a definition. -/
def get? (map : NameMap) (definition : String) (category : NameCategory) (key : String) :
    Option String :=
  (map.table? definition).bind (·.get? category key)

/-- The identifiers that a definition introduced. -/
def introduced? (map : NameMap) (definition : String) : Option (List String) :=
  (map.table? definition).map (·.idents)

/-- What a definition reserved; nothing if it has not been resolved. -/
def reservations (map : NameMap) (definition : String) : List Reservation :=
  ((map.table? definition).map (·.introduced)).getD []

/-- Add the names of a definition. -/
def insert (map : NameMap) (definition : String) (table : NameTable) : NameMap :=
  ⟨map.tables ++ [(definition, table)]⟩

/-- All entries by definition, category and key. -/
def listing (map : NameMap) : List (String × NameEntry) :=
  (Ordered.ofList (fun a b => compare a.1 b.1) map.tables).flatMap fun (definition, table) =>
    table.listing.map fun entry => (definition, entry)

/-- How many entries there are. -/
def size (map : NameMap) : Nat :=
  map.listing.length

/-- Whether there are no entries. -/
def isEmpty (map : NameMap) : Bool :=
  map.tables.all fun (_, table) => table.entries.isEmpty

end NameMap

end WebIdl
