import WebIdl.Proofs.Reserved

/-!
# WebIdl.Proofs.Protocol

Names that the host fixes.

Keyed access, counting and iteration are interfaces of the host, which look for methods of
fixed names.  Such a name is introduced as it is or not at all, and it is shared along
inheritance and includes, so every entry has it (`Settled.protocol_name`).  Which of these
entries a definition has is decided by its kind and its capabilities alone:

* `protocol_names_are_fixed`: the methods of host interfaces keep their names and are there
  exactly if they are needed.
-/

namespace WebIdl

/-! ## what asks for a protocol -/

namespace Definition.Offers

variable {c : Catalog} {d : Definition} {caps : Capabilities} {key : String}

/-- Keyed access is offered by dictionaries, and by interfaces and mixins with a role or a
`length` on their surface. -/
theorem offset_iff (hcaps : Capabilities.of c d = .ok caps) {category : NameCategory}
    (hcategory : category ∈ Artifact.offsetCategories) :
    (∃ key, d.Offers c category key) ↔
      d.kind = .dictionary ∨ (d.kind = .interface ∨ d.kind = .mixin) ∧ caps.keyed = true := by
  constructor
  · rintro ⟨key, h⟩
    cases h with
    | dictionary h => exact Or.inl h
    | keyed hkind hcaps' h =>
        rw [hcaps, Except.ok.injEq] at hcaps'
        exact Or.inr ⟨hkind, hcaps' ▸ h⟩
    | _ => simp [Artifact.offsetCategories] at hcategory
  · rintro (h | ⟨hkind, h⟩)
    · exact ⟨"", .dictionary h hcategory⟩
    · exact ⟨"", .keyed hkind hcaps h hcategory⟩

/-- A count is offered if there is an integer `length`. -/
theorem count_iff (hcaps : Capabilities.of c d = .ok caps) :
    (∃ key, d.Offers c .count key) ↔ caps.counts = true := by
  constructor
  · rintro ⟨key, h⟩
    cases h with
    | dictionary _ hcategory => simp [Artifact.offsetCategories] at hcategory
    | keyed _ _ _ hcategory => simp [Artifact.offsetCategories] at hcategory
    | count hcaps' h =>
        rw [hcaps, Except.ok.injEq] at hcaps'
        exact hcaps' ▸ h
  · exact fun h => ⟨"", .count hcaps h⟩

/-- An iterator is offered if one is declared on the surface or can be derived. -/
theorem iterator_iff (hcaps : Capabilities.of c d = .ok caps) :
    (∃ key, d.Offers c .iterator key) ↔ caps.iterates = true := by
  constructor
  · rintro ⟨key, h⟩
    cases h with
    | dictionary _ hcategory => simp [Artifact.offsetCategories] at hcategory
    | keyed _ _ _ hcategory => simp [Artifact.offsetCategories] at hcategory
    | iterator hcaps' h =>
        rw [hcaps, Except.ok.injEq] at hcaps'
        exact hcaps' ▸ h
    | iterable hmember h => exact Capabilities.iterates_of_iterable hcaps hmember h
  · exact fun h => ⟨"", .iterator hcaps h⟩

end Definition.Offers

namespace Registry

open Resolver (Settled)

variable {options : IngestOptions} {nodes : List Node} {r : Registry}

/-- The capabilities of a definition of a registry that was built. -/
theorem capabilities_of_build (h : build options nodes = .ok r) {d : Definition}
    (hd : d ∈ r.definitions) : ∃ caps, Capabilities.of r.toCatalog d = .ok caps := by
  obtain ⟨table, -, hof⟩ := table_of_build h hd
  obtain ⟨kind, members, -, hmembers, -⟩ := NameTable.has_requests hof
  simp only [NameRequest.ofMembers, bind_eq_ok] at hmembers
  obtain ⟨caps, hcaps, -⟩ := hmembers
  exact ⟨caps, hcaps⟩

/-- A definition has an entry of a category if it offers it under some key. -/
theorem exists_entry_iff (h : build options nodes = .ok r) {d : Definition}
    (hd : d ∈ r.definitions) {category : NameCategory} :
    (∃ key ident, r.name? d.name category key = some ident) ↔
      ∃ key, d.Offers r.toCatalog category key := by
  simp only [exists_name_iff h hd]

/-- The methods that host interfaces fix. -/
def protocolMethods : List (NameCategory × String) :=
  [(.exists, "offsetExists"), (.get, "offsetGet"), (.set, "offsetSet"), (.unset, "offsetUnset"),
   (.iterator, "getIterator"), (.count, "count")]

theorem fixed_of_mem_protocolMethods : ∀ entry ∈ protocolMethods,
    entry.1.protocol?.isSome = true ∧ entry.1.structuralName? = some entry.2 := by
  decide

/-- **Names that the host fixes are never changed**: every entry for a method of a host
interface is that method, however many definitions it was shared through.  The accessors of
keyed access are there for dictionaries, and for interfaces and mixins with keyed access; a
count and an iterator are there exactly if the capabilities say so. -/
theorem protocol_names_are_fixed (h : build options nodes = .ok r) {d : Definition}
    (hd : d ∈ r.definitions) :
    (∀ category method, (category, method) ∈ protocolMethods →
      ∀ key ident, r.name? d.name category key = some ident → ident = method) ∧
    ∃ caps, Capabilities.of r.toCatalog d = .ok caps ∧
      (∀ category ∈ [.exists, .get, .set, .unset],
        (∃ key ident, r.name? d.name category key = some ident) ↔
          d.kind = .dictionary ∨ (d.kind = .interface ∨ d.kind = .mixin) ∧ caps.keyed = true) ∧
      ((∃ key ident, r.name? d.name .count key = some ident) ↔ caps.counts = true) ∧
      ((∃ key ident, r.name? d.name .iterator key = some ident) ↔ caps.iterates = true) := by
  obtain ⟨hsettled, -⟩ := settled_of_build h
  obtain ⟨caps, hcaps⟩ := capabilities_of_build h hd
  refine ⟨?_, caps, hcaps, ?_, ?_, ?_⟩
  · intro category method hmethod key ident hentry
    obtain ⟨hprotocol, hfixed⟩ := fixed_of_mem_protocolMethods (category, method) hmethod
    have hname := resolved_of_reaches h hd Relation.ReflTransGen.refl
    have hident := Settled.protocol_name (wellFormed_of_build h) hsettled hname hentry hprotocol
    rw [hfixed, Option.some.injEq] at hident
    exact hident.symm
  · intro category hcategory
    rw [exists_entry_iff h hd]
    exact Definition.Offers.offset_iff hcaps hcategory
  · rw [exists_entry_iff h hd]
    exact Definition.Offers.count_iff hcaps
  · rw [exists_entry_iff h hd]
    exact Definition.Offers.iterator_iff hcaps

/-- A child that shares keyed access and the count of its parent and the iterator of two
mixins has them under the names that the host looks for. -/
theorem child_shares_host_methods :
    ∃ r d caps, build {} sampleNodes = .ok r ∧ d ∈ r.definitions ∧ d.name = "Child" ∧
      r.names.introduced? d.name = some ["_1_getLength", "_1_setLength"] ∧
      Capabilities.of r.toCatalog d = .ok caps ∧ caps.counts = true ∧ caps.iterates = true ∧
      ∀ category method, (category, method) ∈ protocolMethods →
        r.name? d.name category "" = some method := by
  have hbuild : (build {} sampleNodes).toOption.map (fun r =>
      (r.definitions.map (·.name), r.names.introduced? "Child",
        protocolMethods.all fun entry => (r.name? "Child" entry.1 "").isSome)) =
      some (["Base", "Child", "Extra", "Other"], some ["_1_getLength", "_1_setLength"], true) := by
    decide +kernel
  obtain ⟨r, hr, hfacts⟩ := ok_of_toOption_map hbuild
  obtain ⟨hnames, hown, hentries⟩ := by simpa only [Prod.mk.injEq] using hfacts
  obtain ⟨d, hd, hname⟩ := List.mem_map.mp (show "Child" ∈ r.definitions.map (·.name) by
    rw [hnames]; decide)
  rw [← hname] at hown hentries
  have hentry : ∀ category method, (category, method) ∈ protocolMethods →
      ∃ ident, r.name? d.name category "" = some ident := by
    intro category method hmethod
    exact Option.isSome_iff_exists.mp (List.all_eq_true.mp hentries _ hmethod)
  obtain ⟨hfixed, caps, hcaps, -, hcount, hiterator⟩ := protocol_names_are_fixed hr hd
  refine ⟨r, d, caps, hr, hd, hname, hown, hcaps, ?_, ?_, ?_⟩
  · exact hcount.mp ⟨"", hentry .count "count" (by decide)⟩
  · exact hiterator.mp ⟨"", hentry .iterator "getIterator" (by decide)⟩
  · intro category method hmethod
    obtain ⟨ident, hident⟩ := hentry category method hmethod
    rw [hident, hfixed category method hmethod "" ident hident]

end Registry

end WebIdl
