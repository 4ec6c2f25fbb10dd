import WebIdl.Catalog.Ingest
import WebIdl.Feature
import WebIdl.Proofs.Ingest

/-!
# WebIdl.Proofs.WrittenTypes

The types that are written in a source: those of members, of callbacks and of typedefs.

The types of a feature are types of its members (`Feature.types_of_mem`), and those of a
catalog are types of the nodes it is made from (`Catalog.types_ofNodes`).
-/

namespace WebIdl

/-- The types of a call: its result and its arguments. -/
def Signature.types (signature : Signature) : List IdlType :=
  signature.result :: signature.arguments.map (·.type)

/-- The types of what a member declares. -/
def MemberKind.types : MemberKind → List IdlType
  | .attribute decl => [decl.type]
  | .field decl => [decl.type]
  | .operation decl => decl.signature.types
  | .constant decl => [decl.type]
  | .iterable decl => decl.key.toList ++ [decl.value]
  | .constructor arguments => arguments.map (·.type)

/-- The types of a definition: those of a callback's call and those of its members. -/
def Definition.types (d : Definition) : List IdlType :=
  (match d.kind with
    | .callback signature => signature.types
    | _ => []) ++
  d.members.flatMap (·.kind.types)

/-- The types of a node. -/
def Node.types : Node → List IdlType
  | .definition decl => decl.types
  | .includes _ _ => []
  | .typedef _ type => [type]

/-- The types of all definitions and typedefs. -/
def Catalog.types (c : Catalog) : List IdlType :=
  c.definitions.flatMap Definition.types ++ c.typedefs.map (·.2)

/-- The types of a member are written in its definition. -/
theorem Definition.types_of_member {d : Definition} {member : Member} (h : member ∈ d.members) :
    member.kind.types ⊆ d.types := by
  intro type htype
  exact List.mem_append_right _ (List.mem_flatMap.mpr ⟨member, h, htype⟩)

namespace Catalog

variable {c : Catalog}

/-- The types of a definition are written in the catalog. -/
theorem types_of_definition {d : Definition} (h : d ∈ c.definitions) : d.types ⊆ c.types := by
  intro type htype
  exact List.mem_append_left _ (List.mem_flatMap.mpr ⟨d, h, htype⟩)

theorem types_of_typedef {entry : String × IdlType} (h : entry ∈ c.typedefs) :
    entry.2 ∈ c.types :=
  List.mem_append_right _ (List.mem_map.mpr ⟨entry, h, rfl⟩)

end Catalog

/-! ## features -/

namespace Feature

/-- The types of a feature. -/
def types : Feature → List IdlType
  | .constant _ decl => [decl.type]
  | .attribute a => [a.decl.type]
  | .field f => [f.decl.type]
  | .operation group => group.overloads.flatMap Signature.types
  | .iterable _ decl => decl.key.toList ++ [decl.value]
  | .constructors _ overloads => overloads.flatten.map (·.type)

/-- The types of some overloads are written in the members that they are made of. -/
theorem types_of_overloads {owner name : String} {items : List SurfaceMember} {type : IdlType}
    (h : type ∈ (items.filterMap (overload? owner name)).flatMap Signature.types) :
    ∃ item ∈ items, type ∈ item.member.kind.types := by
  obtain ⟨signature, hsignature, htype⟩ := List.mem_flatMap.mp h
  obtain ⟨item, hitem, hoverload⟩ := List.mem_filterMap.mp hsignature
  refine ⟨item, hitem, ?_⟩
  rw [overload?] at hoverload
  split at hoverload
  next decl hkind =>
    split at hoverload
    · cases hoverload
      rwa [hkind, MemberKind.types]
    · cases hoverload
  next => cases hoverload

theorem types_of_constructors {owner : String} {items : List SurfaceMember} {type : IdlType}
    (h : type ∈ (items.filterMap (constructor? owner)).flatten.map (·.type)) :
    ∃ item ∈ items, type ∈ item.member.kind.types := by
  obtain ⟨argument, hargument, rfl⟩ := List.mem_map.mp h
  obtain ⟨arguments, harguments, hargument⟩ := List.mem_flatten.mp hargument
  obtain ⟨item, hitem, hconstructor⟩ := List.mem_filterMap.mp harguments
  refine ⟨item, hitem, ?_⟩
  rw [constructor?] at hconstructor
  split at hconstructor
  next others hkind =>
    split at hconstructor
    · cases hconstructor
      rw [hkind, MemberKind.types]
      exact List.mem_map.mpr ⟨argument, hargument, rfl⟩
    · cases hconstructor
  next => cases hconstructor

/-- The types of a feature are types of members. -/
theorem types_of_mem {operations : List (String × String)} {constructors : List String}
    {items : List SurfaceMember} {feature : Feature}
    (h : feature ∈ ofMembersAfter operations constructors items) {type : IdlType}
    (htype : type ∈ feature.types) : ∃ item ∈ items, type ∈ item.member.kind.types := by
  have hnext : ∀ {item : SurfaceMember} {rest : List SurfaceMember},
      (∃ other ∈ rest, type ∈ other.member.kind.types) →
        ∃ other ∈ item :: rest, type ∈ other.member.kind.types := by
    rintro item rest ⟨other, hother, htype⟩
    exact ⟨other, List.mem_cons_of_mem item hother, htype⟩
  fun_induction ofMembersAfter operations constructors items with
  | case1 => cases h
  | case2 operations constructors item rest owner decl hkind ih
  | case3 operations constructors item rest owner decl hkind ih
  | case4 operations constructors item rest owner decl hkind ih
  | case5 operations constructors item rest owner decl hkind ih =>
      cases h with
      | head => exact ⟨item, List.mem_cons_self, by rwa [hkind]⟩
      | tail _ h => exact hnext (ih h)
  | case6 operations constructors item rest owner signature special hkind ih =>
      cases h with
      | head =>
          refine ⟨item, List.mem_cons_self, ?_⟩
          simpa [hkind, MemberKind.types, types] using htype
      | tail _ h => exact hnext (ih h)
  | case7 operations constructors item rest owner name signature special hkind hturn ih =>
      exact hnext (ih h)
  | case8 operations constructors item rest owner name signature special hkind hturn _ ih =>
      cases h with
      | head =>
          rw [types, List.flatMap_cons, List.mem_append] at htype
          rcases htype with htype | htype
          · exact ⟨item, List.mem_cons_self, by rwa [hkind]⟩
          · exact hnext (types_of_overloads htype)
      | tail _ h => exact hnext (ih h)
  | case9 operations constructors item rest owner arguments hkind hturn ih => exact hnext (ih h)
  | case10 operations constructors item rest owner arguments hkind hturn ih =>
      cases h with
      | head =>
          rw [types, List.flatten_cons, List.map_append, List.mem_append] at htype
          rcases htype with htype | htype
          · exact ⟨item, List.mem_cons_self, by rwa [hkind]⟩
          · exact hnext (types_of_constructors htype)
      | tail _ h => exact hnext (ih h)

end Feature

/-! ## ingestion -/

namespace Intake

/-- The types that have been taken in. -/
def types (intake : Intake) : List IdlType :=
  intake.definitions.flatMap Definition.types ++ intake.typedefs.map (·.2)

/-- Leaving members out writes no type. -/
theorem types_select (options : IngestOptions) (d : Definition) :
    (select options d).types ⊆ d.types := by
  rw [select]
  split
  · refine List.append_subset.mpr ⟨List.subset_append_left _ _, fun type htype => ?_⟩
    obtain ⟨member, hmember, htype⟩ := List.mem_flatMap.mp htype
    exact Definition.types_of_member (List.mem_filter.mp hmember).1 htype
  · exact List.Subset.refl _

/-- Members that are added write no types but their own. -/
theorem types_extend {intake : Intake} {d : Definition} {type : IdlType}
    (h : type ∈ (intake.extend d.name d.members).types) :
    type ∈ intake.types ∨ type ∈ d.types := by
  rw [types, List.mem_append] at h
  rcases h with h | h
  · obtain ⟨other, hother, htype⟩ := List.mem_flatMap.mp h
    obtain ⟨main, hmain, rfl⟩ := List.mem_map.mp hother
    have hkeep : main.types ⊆ intake.types := fun type htype =>
      List.mem_append_left _ (List.mem_flatMap.mpr ⟨main, hmain, htype⟩)
    split at htype
    · rw [Definition.types, List.flatMap_append, ← List.append_assoc, List.mem_append] at htype
      refine htype.imp (fun htype => hkeep htype) fun htype => ?_
      exact List.mem_append_right _ htype
    · exact Or.inl (hkeep htype)
  · exact Or.inl (List.mem_append_right _ h)

/-- A node that is taken in adds types of its own. -/
theorem types_addNode {options : IngestOptions} {intake intake' : Intake} {node : Node}
    (h : addNode options intake node = .ok intake') {type : IdlType}
    (htype : type ∈ intake'.types) :
    type ∈ intake.types ∨ type ∈ node.types := by
  cases node with
  | includes target mixin =>
      cases h
      exact Or.inl htype
  | typedef name body =>
      rw [addNode] at h
      split at h
      · cases h
      · cases h
        simpa [types, Node.types, or_assoc] using htype
  | definition d =>
      rw [addNode, addDefinition] at h
      have hselect : ∀ {type}, type ∈ (select options d).types → type ∈ (Node.definition d).types :=
        fun htype => types_select options d htype
      split at h
      · split at h
        · cases h
          exact (types_extend htype).imp_right hselect
        · cases h
      · split at h
        · cases h
        · cases h
          rw [types, List.flatMap_append, List.append_assoc, List.mem_append,
            List.mem_append] at htype
          rcases htype with htype | htype | htype
          · exact Or.inl (List.mem_append_left _ htype)
          · exact Or.inr (hselect (by simpa using htype))
          · exact Or.inl (List.mem_append_right _ htype)

end Intake

namespace Catalog

/-- The types of a catalog are types of its nodes. -/
theorem types_ofNodes {options : IngestOptions} {nodes : List Node} {c : Catalog}
    (h : ofNodes options nodes = .ok c) : ∀ type ∈ c.types, ∃ node ∈ nodes, type ∈ node.types := by
  intro type htype
  simp only [ofNodes, bind_eq_ok] at h
  obtain ⟨intake, hintake, -, -, -, -, h⟩ := h
  cases h
  have hfrom : ∀ type ∈ intake.types, ∃ node ∈ nodes, type ∈ node.types := by
    refine foldlM_ok_inv (P := fun intake : Intake => ∀ type ∈ intake.types,
      ∃ node ∈ nodes, type ∈ node.types) ?_ (by simp [Intake.types]) hintake
    intro node hnode before after hbefore hstep type htype
    rcases Intake.types_addNode hstep htype with htype | htype
    · exact hbefore type htype
    · exact ⟨node, hnode, htype⟩
  refine hfrom type ?_
  rw [types, List.mem_append] at htype
  rcases htype with htype | htype
  · obtain ⟨d, hd, htype⟩ := List.mem_flatMap.mp htype
    exact List.mem_append_left _
      (List.mem_flatMap.mpr ⟨d, Intake.mem_of_mem_sorted hd, htype⟩)
  · obtain ⟨entry, hentry, rfl⟩ := List.mem_map.mp htype
    exact List.mem_append_right _
      (List.mem_map.mpr ⟨entry, (Ordered.subperm_ofList _).subset hentry, rfl⟩)

end Catalog

end WebIdl
