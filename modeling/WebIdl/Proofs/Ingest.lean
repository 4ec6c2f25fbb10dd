import WebIdl.Catalog.Ingest
import WebIdl.Proofs.Graph
import WebIdl.Proofs.Outcome
import Mathlib.Data.List.Perm.Subperm

/-!
# WebIdl.Proofs.Ingest

The catalog of a list of nodes is well formed (`wellFormed_ofNodes`): no two of its
definitions share a name, and every edge of its graph joins two of its definitions.
Nothing is assumed of the nodes; whatever would break one of the two is refused, and
these are the only causes to refuse nodes (`failsOnly_ofNodes`).
-/

namespace WebIdl

open List (Subperm)

/-! ## ordered lists -/

namespace Ordered

variable {α β : Type} {cmp : α → α → Ordering}

/-- Inserting adds at most the element. -/
theorem subperm_insert (x : α) (ys : List α) : Subperm (insert cmp x ys) (x :: ys) := by
  induction ys with
  | nil => exact List.Subperm.refl _
  | cons y ys ih =>
      rw [insert]
      cases cmp x y with
      | lt => exact List.Subperm.refl _
      | eq => exact List.Subperm.cons_self
      | gt =>
          have hswap : List.Perm (y :: x :: ys) (x :: y :: ys) := List.Perm.swap x y ys
          exact ((List.subperm_cons y).mpr ih).trans hswap.subperm

/-- Inserting leaves no key out, if elements that compare equal have the same key. -/
theorem mem_map_insert {key : α → β} (hkey : ∀ a b, cmp a b = .eq → key a = key b) (x : α)
    (ys : List α) {k : β} (hk : k = key x ∨ k ∈ ys.map key) :
    k ∈ (insert cmp x ys).map key := by
  induction ys with
  | nil => simpa [insert] using hk
  | cons y ys ih =>
      rw [insert]
      cases hcmp : cmp x y with
      | lt => simpa using hk
      | eq =>
          rcases hk with rfl | hk
          · simp [hkey x y hcmp]
          · exact hk
      | gt =>
          rw [List.map_cons, List.mem_cons] at hk ⊢
          rcases hk with hk | rfl | hk
          · exact Or.inr (ih (Or.inl hk))
          · exact Or.inl rfl
          · exact Or.inr (ih (Or.inr hk))

/-- Inserting makes nothing up. -/
theorem subperm_foldl_insert (xs acc : List α) :
    Subperm (xs.foldl (fun acc x => insert cmp x acc) acc) (xs ++ acc) := by
  induction xs generalizing acc with
  | nil => exact List.Subperm.refl _
  | cons x xs ih =>
      have hstep : Subperm (xs ++ insert cmp x acc) (xs ++ x :: acc) :=
        (List.subperm_append_left xs).mpr (subperm_insert x acc)
      have hmiddle : List.Perm (xs ++ x :: acc) (x :: xs ++ acc) := List.perm_middle
      exact ((ih (insert cmp x acc)).trans hstep).trans hmiddle.subperm

/-- The ordered list has elements of the list only, none more often than the list has. -/
theorem subperm_ofList (xs : List α) : Subperm (ofList cmp xs) xs := by
  have h : Subperm (ofList cmp xs) (xs ++ []) := subperm_foldl_insert xs []
  rwa [List.append_nil] at h

/-- The ordered list has all the keys of the list. -/
theorem mem_map_ofList {key : α → β} (hkey : ∀ a b, cmp a b = .eq → key a = key b)
    (xs : List α) {k : β} (hk : k ∈ xs.map key) : k ∈ (ofList cmp xs).map key := by
  suffices hacc : ∀ acc, k ∈ xs.map key ∨ k ∈ acc.map key →
      k ∈ (xs.foldl (fun acc x => insert cmp x acc) acc).map key from hacc [] (Or.inl hk)
  clear hk
  induction xs with
  | nil => intro acc hk; simpa using hk
  | cons x xs ih =>
      intro acc hk
      rw [List.foldl_cons]
      refine ih _ ?_
      rw [List.map_cons, List.mem_cons] at hk
      rcases hk with (hk | hk) | hk
      · exact Or.inr (mem_map_insert hkey x acc (Or.inl hk))
      · exact Or.inl hk
      · exact Or.inr (mem_map_insert hkey x acc (Or.inr hk))

theorem eq_of_comparePairs {a b : String × String} (h : comparePairs a b = .eq) : a = b := by
  rw [comparePairs, Ordering.then_eq_eq] at h
  exact Prod.ext (Std.LawfulEqOrd.eq_of_compare h.1) (Std.LawfulEqOrd.eq_of_compare h.2)

end Ordered

/-! ## taking in nodes -/

namespace Intake

/-- The names of the definitions, in the order of the source. -/
def names (intake : Intake) : List String :=
  intake.definitions.map (·.name)

/-- What was taken in defines the names that it has. -/
theorem defines_iff {intake : Intake} {name : String} :
    intake.defines name = true ↔ name ∈ intake.names := by
  simp [defines, names]

/-- Members are added without a change of names. -/
theorem names_extend (intake : Intake) (name : String) (members : List Member) :
    (intake.extend name members).names = intake.names := by
  rw [names, names, extend, List.map_map]
  refine List.map_congr_left fun d _ => ?_
  simp only [Function.comp_apply]
  split <;> rfl

/-- A partial definition is taken in if there is one of its name, a full one if there is none. -/
theorem addDefinition_ok_iff {intake intake' : Intake} {d : Definition} :
    intake.addDefinition d = .ok intake' ↔
      (d.isPartial = true ∧ d.name ∈ intake.names ∧ intake.extend d.name d.members = intake') ∨
      (d.isPartial = false ∧ d.name ∉ intake.names ∧
        { intake with definitions := intake.definitions ++ [d] } = intake') := by
  rw [addDefinition, ← defines_iff]
  cases d.isPartial <;> cases intake.defines d.name <;> simp

/-- A definition is refused for its name only. -/
theorem addDefinition_error_iff {intake : Intake} {d : Definition} {e : Error} :
    intake.addDefinition d = .error e ↔
      (d.isPartial = true ∧ d.name ∉ intake.names ∧ .partialWithoutMain d.name = e) ∨
      (d.isPartial = false ∧ d.name ∈ intake.names ∧ .duplicateDefinition d.name = e) := by
  rw [addDefinition, ← defines_iff]
  cases d.isPartial <;> cases intake.defines d.name <;> simp

/-- One node keeps the names distinct. -/
theorem nodup_names_addNode {options : IngestOptions} {intake intake' : Intake} {node : Node}
    (hnodup : intake.names.Nodup) (h : intake.addNode options node = .ok intake') :
    intake'.names.Nodup := by
  cases node with
  | includes target mixin =>
      cases h
      exact hnodup
  | typedef name type =>
      simp only [addNode] at h
      split at h
      · cases h
      · cases h
        exact hnodup
  | definition d =>
      rcases addDefinition_ok_iff.mp h with ⟨-, -, rfl⟩ | ⟨-, hnew, rfl⟩
      · rw [names_extend]
        exact hnodup
      · simp only [names, List.map_append, List.map_cons, List.map_nil]
        exact List.nodup_append.mpr ⟨hnodup, by simp, by simpa [names] using hnew⟩

/-- All nodes keep the names distinct. -/
theorem nodup_names_ofNodes {options : IngestOptions} {nodes : List Node} {intake : Intake}
    (h : ofNodes options nodes = .ok intake) : intake.names.Nodup := by
  refine foldlM_ok_inv (P := fun intake => intake.names.Nodup) ?_ List.nodup_nil h
  intro node _ before after hnodup hstep
  exact nodup_names_addNode hnodup hstep

/-! ## the finished catalog -/

/-- The definitions with the keys that they are put in order by. -/
def keyed (intake : Intake) : List ((String × String) × Definition) :=
  intake.definitions.map fun d => ((Text.lowercase d.name, d.name), d)

/-- The order compares keys only. -/
def compareKeys (a b : (String × String) × Definition) : Ordering :=
  Ordered.comparePairs a.1 b.1

/-- Sorting puts the definitions in the order of their keys. -/
theorem sorted_eq (intake : Intake) :
    intake.sorted = (Ordered.ofList compareKeys intake.keyed).map (·.2) := rfl

/-- A key ends in the name of its definition. -/
theorem key_of_mem_ordered {intake : Intake} {pair : (String × String) × Definition}
    (h : pair ∈ Ordered.ofList compareKeys intake.keyed) :
    pair.2 ∈ intake.definitions ∧ pair.2.name = pair.1.2 := by
  have hmem := (Ordered.subperm_ofList intake.keyed).subset h
  obtain ⟨d, hd, rfl⟩ := List.mem_map.mp hmem
  exact ⟨hd, rfl⟩

/-- The definitions of the catalog are those that were taken in. -/
theorem mem_of_mem_sorted {intake : Intake} {d : Definition} (h : d ∈ intake.sorted) :
    d ∈ intake.definitions := by
  rw [sorted_eq] at h
  obtain ⟨pair, hpair, rfl⟩ := List.mem_map.mp h
  exact (key_of_mem_ordered hpair).1

theorem names_sorted (intake : Intake) :
    intake.sorted.map (·.name) = (Ordered.ofList compareKeys intake.keyed).map (·.1.2) := by
  rw [sorted_eq, List.map_map]
  exact List.map_congr_left fun pair hpair => (key_of_mem_ordered hpair).2

/-- Putting the definitions in order loses no name. -/
theorem mem_names_sorted_iff {intake : Intake} {name : String} :
    name ∈ intake.sorted.map (·.name) ↔ name ∈ intake.names := by
  constructor
  · intro h
    obtain ⟨d, hd, rfl⟩ := List.mem_map.mp h
    exact List.mem_map.mpr ⟨d, mem_of_mem_sorted hd, rfl⟩
  · intro h
    rw [names_sorted]
    refine Ordered.mem_map_ofList ?_ intake.keyed ?_
    · intro a b hab
      rw [Ordered.eq_of_comparePairs hab]
    · rw [keyed, List.map_map]
      exact h

/-- Sorting repeats no name. -/
theorem nodup_names_sorted {intake : Intake} (h : intake.names.Nodup) :
    (intake.sorted.map (·.name)).Nodup := by
  rw [names_sorted]
  have hnames : intake.keyed.map (·.1.2) = intake.names := by
    rw [keyed, List.map_map]
    rfl
  have hordered : Subperm (Ordered.ofList compareKeys intake.keyed) intake.keyed :=
    Ordered.subperm_ofList intake.keyed
  obtain ⟨part, hperm, hsub⟩ := hordered
  have hpart : (part.map (·.1.2)).Nodup := (hsub.map (·.1.2)).nodup (hnames ▸ h)
  exact (hperm.map (·.1.2)).nodup_iff.mp hpart

/-- A finished catalog knows the names that were taken in. -/
theorem known_finish_iff {intake : Intake} {name : String} :
    (intake.finish.get? name).isSome = true ↔ name ∈ intake.names := by
  rw [← mem_names_sorted_iff]
  exact ⟨Catalog.mem_names_of_known, Catalog.known_of_mem_names (c := intake.finish)⟩

/-- What a definition of the catalog includes was taken in as an edge from it. -/
theorem edge_of_mem_included {intake : Intake} {name mixin : String}
    (h : mixin ∈ intake.finish.included name) :
    name ∈ intake.names ∧ (name, mixin) ∈ intake.edges := by
  rw [Catalog.included] at h
  cases hlookup : intake.finish.includes.lookup name with
  | none => simp [hlookup] at h
  | some mixins =>
      rw [hlookup, Option.getD_some] at h
      obtain ⟨front, back, hsplit, -⟩ := List.lookup_eq_some_iff.mp hlookup
      have hmember : (name, mixins) ∈ intake.finish.includes := by
        rw [hsplit]
        exact List.mem_append_right front List.mem_cons_self
      obtain ⟨d, hd, hpair⟩ := List.mem_map.mp hmember
      injection hpair with hname hmixins
      subst hname
      subst hmixins
      have hedge := (Ordered.subperm_ofList _).subset h
      obtain ⟨edge, hmem, hselect⟩ := List.mem_filterMap.mp hedge
      split at hselect
      · next hsource =>
        rw [beq_iff_eq] at hsource
        injection hselect with htarget
        refine ⟨List.mem_map.mpr ⟨d, mem_of_mem_sorted hd, rfl⟩, ?_⟩
        rw [← hsource, ← htarget]
        exact hmem
      · cases hselect

/-- An inclusion passes if both of its names are there. -/
theorem checkEdge_ok_iff {intake : Intake} {edge : String × String} :
    intake.checkEdge edge = .ok () ↔ edge.1 ∈ intake.names ∧ edge.2 ∈ intake.names := by
  rw [← defines_iff, ← defines_iff, checkEdge]
  grind

/-- A parent passes if it is there. -/
theorem checkParent_ok_iff {intake : Intake} {d : Definition} :
    intake.checkParent d = .ok () ↔
      ∀ parent, d.parent = some parent → parent ∈ intake.names := by
  rw [checkParent]
  cases hparent : d.parent with
  | none => simp
  | some parent =>
      simp only [Option.some.injEq, forall_eq', ← defines_iff]
      grind

end Intake

/-- A catalog that was taken in is well formed. -/
theorem Catalog.wellFormed_ofNodes {options : IngestOptions} {nodes : List Node} {c : Catalog}
    (h : Catalog.ofNodes options nodes = .ok c) : c.WellFormed := by
  simp only [Catalog.ofNodes, bind_eq_ok, pure_eq_ok] at h
  obtain ⟨intake, hintake, ⟨⟩, hedges, ⟨⟩, hparents, rfl⟩ := h
  have hends : ∀ {a b : String}, intake.finish.Edge a b → a ∈ intake.names ∧ b ∈ intake.names := by
    intro a b hedge
    rcases Catalog.edge_iff.mp hedge with hparent | hincluded
    · obtain ⟨d, hd, hparent⟩ := Catalog.mem_parents_iff.mp hparent
      have hmem := Intake.mem_of_mem_sorted (Catalog.mem_of_get? hd)
      have hname := Catalog.name_of_get? hd
      exact ⟨List.mem_map.mpr ⟨d, hmem, hname⟩,
        Intake.checkParent_ok_iff.mp (forM_ok hparents d hmem) _ hparent⟩
    · obtain ⟨-, hmem⟩ := Intake.edge_of_mem_included hincluded
      exact Intake.checkEdge_ok_iff.mp (forM_ok hedges _ hmem)
  exact {
    nodup_names := Intake.nodup_names_sorted (Intake.nodup_names_ofNodes hintake)
    source_known := fun hedge => Intake.known_finish_iff.mpr (hends hedge).1
    target_known := fun hedge => Intake.known_finish_iff.mpr (hends hedge).2 }

/-! ## causes of failure -/

/-- The causes for which nodes are refused. -/
def Error.ofIngest : Error → Prop
  | .duplicateDefinition _ => True
  | .duplicateTypedef _ => True
  | .partialWithoutMain _ => True
  | .unknownMixin .. => True
  | .unknownIncludesTarget .. => True
  | _ => False

theorem Intake.failsOnly_addNode (options : IngestOptions) (intake : Intake) (node : Node) :
    FailsOnly Error.ofIngest (intake.addNode options node) := by
  cases node with
  | includes target mixin => exact FailsOnly.ok _
  | typedef name type =>
      rw [addNode]
      split
      · exact FailsOnly.error trivial
      · exact FailsOnly.ok _
  | definition d =>
      simp only [addNode, addDefinition]
      split <;> split
      · exact FailsOnly.ok _
      · exact FailsOnly.error trivial
      · exact FailsOnly.error trivial
      · exact FailsOnly.ok _

theorem Intake.failsOnly_checkEdge (intake : Intake) (edge : String × String) :
    FailsOnly Error.ofIngest (intake.checkEdge edge) := by
  rw [checkEdge]
  split
  · exact FailsOnly.error trivial
  · split
    · exact FailsOnly.error trivial
    · exact FailsOnly.ok _

theorem Intake.failsOnly_checkParent (intake : Intake) (d : Definition) :
    FailsOnly Error.ofIngest (intake.checkParent d) := by
  rw [checkParent]
  split
  · split
    · exact FailsOnly.ok _
    · exact FailsOnly.error trivial
  · exact FailsOnly.ok _

/-- Nodes are refused for these causes only. -/
theorem Catalog.failsOnly_ofNodes (options : IngestOptions) (nodes : List Node) :
    FailsOnly Error.ofIngest (Catalog.ofNodes options nodes) := by
  refine (FailsOnly.foldlM (Intake.failsOnly_addNode options) nodes _).bind fun intake => ?_
  refine (FailsOnly.forM intake.failsOnly_checkEdge _).bind fun _ => ?_
  exact (FailsOnly.forM intake.failsOnly_checkParent _).bind fun _ => FailsOnly.ok _

end WebIdl
