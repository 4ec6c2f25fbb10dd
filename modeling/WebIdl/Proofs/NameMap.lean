import WebIdl.Naming.NameMap

/-!
# WebIdl.Proofs.NameMap

Reading name tables and name maps after they have been written to.  A table has at most
one identifier for a category and key, and writing it leaves all others alone.  A map
only grows.
-/

namespace WebIdl

/-! ## lists of keys and values -/

section Keyed

variable {α : Type} {entries : List (String × α)} {key : String} {value : α}

/-- A key is found if and only if there is an entry for it. -/
theorem isSome_lookup_iff : (entries.lookup key).isSome = true ↔ key ∈ entries.map (·.1) := by
  rw [List.lookup_isSome_iff, List.mem_map]
  simp only [beq_iff_eq, @eq_comm String key]

/-- If no key comes twice, what is found is what is there. -/
theorem lookup_eq_some_iff_mem (hnodup : (entries.map (·.1)).Nodup) :
    entries.lookup key = some value ↔ (key, value) ∈ entries := by
  rw [List.lookup_eq_some_iff]
  constructor
  · rintro ⟨front, back, hsplit, -⟩
    rw [hsplit]
    exact List.mem_append_right front List.mem_cons_self
  · intro hmem
    obtain ⟨front, back, hsplit⟩ := List.append_of_mem hmem
    refine ⟨front, back, hsplit, fun entry hentry => ?_⟩
    rw [hsplit, List.map_append, List.nodup_append] at hnodup
    have hne := hnodup.2.2 entry.1 (List.mem_map_of_mem hentry) key (by simp)
    simpa using hne.symm

end Keyed

namespace NameTable

theorem isFor_iff {entry : NameEntry} {category : NameCategory} {key : String} :
    entry.isFor category key = true ↔ entry.category = category ∧ entry.key = key := by
  simp [NameEntry.isFor]

/-- What is put in a table is found there. -/
@[simp] theorem get?_put_self (table : NameTable) (entry : NameEntry) :
    (table.put entry).get? entry.category entry.key = some entry.ident := by
  have hgone : (table.entries.filter fun e => !e.isFor entry.category entry.key).find?
      (·.isFor entry.category entry.key) = none := by
    rw [List.find?_eq_none]
    intro e he
    simpa using (List.mem_filter.mp he).2
  rw [get?, put, List.find?_append, hgone]
  simp [NameEntry.isFor]

/-- Everything else is found as before. -/
theorem get?_put_of_ne {table : NameTable} {entry : NameEntry} {category : NameCategory}
    {key : String} (h : ¬ (category = entry.category ∧ key = entry.key)) :
    (table.put entry).get? category key = table.get? category key := by
  have hother : entry.isFor category key = false := by
    rw [Bool.eq_false_iff, ne_eq, isFor_iff]
    rintro ⟨rfl, rfl⟩
    exact h ⟨rfl, rfl⟩
  have hfilter : (table.entries.filter fun e => !e.isFor entry.category entry.key).find?
      (·.isFor category key) = table.entries.find? (·.isFor category key) := by
    rw [List.find?_filter]
    congr 1
    funext e
    cases hfor : e.isFor category key with
    | false => simp
    | true =>
        obtain ⟨rfl, rfl⟩ := isFor_iff.mp hfor
        have hdiffers : e.isFor entry.category entry.key = false := by
          rw [Bool.eq_false_iff, ne_eq, isFor_iff]
          exact h
        simp [hdiffers]
  rw [get?, get?, put, List.find?_append, hfilter]
  simp [hother]

/-- What is read after a write was written now or before. -/
theorem get?_put_eq_some {table : NameTable} {entry : NameEntry} {category : NameCategory}
    {key ident : String} (h : (table.put entry).get? category key = some ident) :
    (category = entry.category ∧ key = entry.key ∧ ident = entry.ident) ∨
      table.get? category key = some ident := by
  by_cases hsame : category = entry.category ∧ key = entry.key
  · obtain ⟨rfl, rfl⟩ := hsame
    rw [get?_put_self, Option.some.injEq] at h
    exact Or.inl ⟨rfl, rfl, h.symm⟩
  · rw [get?_put_of_ne hsame] at h
    exact Or.inr h

end NameTable

namespace NameMap

/-- Every table of the first map is in the second. -/
def Keeps (before after : NameMap) : Prop :=
  ∀ name table, before.table? name = some table → after.table? name = some table

theorem Keeps.refl (map : NameMap) : map.Keeps map :=
  fun _ _ h => h

theorem Keeps.trans {first second third : NameMap} (h₁ : first.Keeps second)
    (h₂ : second.Keeps third) : first.Keeps third :=
  fun name table h => h₂ name table (h₁ name table h)

/-- A name that has a table keeps having one. -/
theorem Keeps.isSome {before after : NameMap} (h : before.Keeps after) {name : String}
    (hname : (before.table? name).isSome = true) : (after.table? name).isSome = true := by
  obtain ⟨table, htable⟩ := Option.isSome_iff_exists.mp hname
  rw [h name table htable]
  rfl

/-- A table is added behind those that are there. -/
theorem table?_insert (map : NameMap) (name other : String) (table : NameTable) :
    (map.insert name table).table? other =
      (map.table? other).or (if other = name then some table else none) := by
  rw [table?, insert, List.lookup_append]
  congr 1
  by_cases h : other = name
  · simp [h]
  · simp [List.lookup_cons, h, beq_eq_false_iff_ne.mpr h]

/-- A name without a table gets the one that is inserted. -/
theorem table?_insert_self {map : NameMap} {name : String} (table : NameTable)
    (h : map.table? name = none) : (map.insert name table).table? name = some table := by
  simp [table?_insert, h]

/-- All other names keep theirs. -/
theorem table?_insert_of_ne (map : NameMap) {name other : String} (table : NameTable)
    (h : other ≠ name) : (map.insert name table).table? other = map.table? other := by
  simp [table?_insert, h]

/-- Inserting a table changes none that is there. -/
theorem keeps_insert (map : NameMap) (name : String) (table : NameTable) :
    map.Keeps (map.insert name table) := by
  intro other found h
  simp [table?_insert, h]

/-- A name has a table if and only if it is listed with one. -/
theorem isSome_table?_iff {map : NameMap} {name : String} :
    (map.table? name).isSome = true ↔ name ∈ map.tables.map (·.1) :=
  isSome_lookup_iff

/-- In a map that has nothing twice, what is found is what is there. -/
theorem table?_eq_some_iff {map : NameMap} (hnodup : (map.tables.map (·.1)).Nodup)
    {name : String} {table : NameTable} :
    map.table? name = some table ↔ (name, table) ∈ map.tables :=
  lookup_eq_some_iff_mem hnodup

/-- What a map that grows has, it keeps. -/
theorem Keeps.table?_eq {before after : NameMap} (h : before.Keeps after) {name : String}
    (hname : (before.table? name).isSome = true) : after.table? name = before.table? name := by
  obtain ⟨table, htable⟩ := Option.isSome_iff_exists.mp hname
  rw [htable, h name table htable]

end NameMap

end WebIdl
