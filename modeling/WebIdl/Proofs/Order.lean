import WebIdl.Generator
import WebIdl.Proofs.Naming
import Mathlib.Data.List.Sort

/-!
# WebIdl.Proofs.Order

The order of the nodes does not matter, as long as the definitions of one name keep
theirs.

An intake is determined by three views of the nodes, none of which looks at how nodes of
different kinds or names interleave: the edges, the typedefs, and for every name the
definitions of that name (`reads_ofNodes`, `ofNodes_ok`).  Putting things in order
forgets the order they came in (`Ordered.ofList_congr`), so intakes with the same
elements have the same catalog (`Intake.Agrees.finish_eq`), and everything after that is
computed from the catalog:

* `registry_ignores_node_order`: permuting the nodes, or repeating an `includes`, gives
  the same registry and the same files.
-/

namespace WebIdl

/-! ## ordered lists -/

namespace Ordered

variable {α β : Type} {cmp : α → α → Ordering}

/-- Every element is less than the ones behind it. -/
def Increasing (cmp : α → α → Ordering) (xs : List α) : Prop :=
  xs.Pairwise fun a b => cmp a b = .lt

section Comparison

variable [Std.TransCmp cmp]

/-- Inserting keeps a list increasing. -/
theorem increasing_insert (x : α) {ys : List α} (h : Increasing cmp ys) :
    Increasing cmp (insert cmp x ys) := by
  induction ys with
  | nil => simp [insert, Increasing]
  | cons y ys ih =>
      have hy : ∀ z ∈ ys, cmp y z = .lt := (List.pairwise_cons.mp h).1
      have hys : Increasing cmp ys := (List.pairwise_cons.mp h).2
      rw [insert]
      cases hcmp : cmp x y with
      | lt =>
          have hx : ∀ z ∈ y :: ys, cmp x z = .lt := by
            intro z hz
            cases hz with
            | head => exact hcmp
            | tail _ hz => exact Std.TransCmp.lt_trans hcmp (hy z hz)
          exact List.pairwise_cons.mpr ⟨hx, h⟩
      | eq => exact h
      | gt =>
          have hyx : cmp y x = .lt := Std.OrientedCmp.gt_iff_lt.mp hcmp
          have hfront : ∀ z ∈ insert cmp x ys, cmp y z = .lt := by
            intro z hz
            have hmem := (subperm_insert x ys).subset hz
            cases hmem with
            | head => exact hyx
            | tail _ hmem => exact hy z hmem
          exact List.pairwise_cons.mpr ⟨hfront, ih hys⟩

/-- A list that is made by inserting is increasing. -/
theorem increasing_ofList (xs : List α) : Increasing cmp (ofList cmp xs) := by
  suffices hacc : ∀ acc, Increasing cmp acc →
      Increasing cmp (xs.foldl (fun acc x => insert cmp x acc) acc) from hacc [] List.Pairwise.nil
  induction xs with
  | nil => exact fun acc hacc => hacc
  | cons x xs ih => exact fun acc hacc => ih _ (increasing_insert x hacc)

end Comparison

section Keys

variable (order : β → β → Ordering) [Std.LawfulEqCmp order] (key : α → β)

instance transCmp_key [Std.TransCmp order] : Std.TransCmp fun a b : α => order (key a) (key b) where
  eq_swap := Std.OrientedCmp.eq_swap
  isLE_trans := Std.TransCmp.isLE_trans

/-- A list in which no two elements share a key loses nothing when it is put in order. -/
theorem mem_ofList_iff {xs : List α} (hinj : ∀ a ∈ xs, ∀ b ∈ xs, key a = key b → a = b) {x : α} :
    x ∈ ofList (fun a b => order (key a) (key b)) xs ↔ x ∈ xs := by
  constructor
  · intro h
    exact (subperm_ofList xs).subset h
  · intro h
    have hkeys : key x ∈ (ofList (fun a b => order (key a) (key b)) xs).map key :=
      mem_map_ofList (fun a b => Std.LawfulEqCmp.eq_of_compare) xs (List.mem_map_of_mem h)
    obtain ⟨y, hy, hyx⟩ := List.mem_map.mp hkeys
    have hsame : y = x := hinj y ((subperm_ofList xs).subset hy) x h hyx
    exact hsame ▸ hy

/-- **The order is forgotten**: lists with the same elements are put in order alike, if no
two elements share a key. -/
theorem ofList_congr [Std.TransCmp order] {xs ys : List α}
    (hinj : ∀ a ∈ xs, ∀ b ∈ xs, key a = key b → a = b)
    (hsame : ∀ x, x ∈ xs ↔ x ∈ ys) :
    ofList (fun a b => order (key a) (key b)) xs =
      ofList (fun a b => order (key a) (key b)) ys := by
  have hinj' : ∀ a ∈ ys, ∀ b ∈ ys, key a = key b → a = b := by
    intro a ha b hb
    exact hinj a ((hsame a).mpr ha) b ((hsame b).mpr hb)
  have hirrefl : Std.Irrefl fun a b : α => order (key a) (key b) = .lt := by
    refine ⟨fun a h => ?_⟩
    have hself : order (key a) (key a) = .eq := Std.ReflCmp.compare_self
    rw [hself] at h
    cases h
  have hantisymm : Std.Antisymm fun a b : α => order (key a) (key b) = .lt := by
    refine ⟨fun a b hab hba => ?_⟩
    exact absurd (Std.TransCmp.lt_trans hab hba) (hirrefl.irrefl a)
  refine List.Pairwise.eq_of_mem_iff (increasing_ofList xs) (increasing_ofList ys) fun x => ?_
  rw [mem_ofList_iff order key hinj, mem_ofList_iff order key hinj', hsame]

end Keys

instance transCmp_comparePairs : Std.TransCmp comparePairs :=
  inferInstanceAs (Std.TransCmp (compareLex (compareOn Prod.fst) (compareOn Prod.snd)))

instance lawfulEqCmp_comparePairs : Std.LawfulEqCmp comparePairs where
  eq_of_compare := eq_of_comparePairs

end Ordered

/-! ## views of the nodes -/

namespace Node

/-- The edge of an `includes`. -/
@[simp]
def edge? : Node → Option (String × String)
  | .includes target mixin => some (target, mixin)
  | _ => none

/-- The name and the type of a typedef. -/
@[simp]
def typedef? : Node → Option (String × IdlType)
  | .typedef name type => some (name, type)
  | _ => none

/-- The definition of a node, if it is one of a name. -/
@[simp]
def definition? (name : String) : Node → Option Definition
  | .definition d => if d.name == name then some d else none
  | _ => none

/-- The edges of some nodes. -/
def edges (nodes : List Node) : List (String × String) :=
  nodes.filterMap edge?

/-- The typedefs of some nodes. -/
def typedefs (nodes : List Node) : List (String × IdlType) :=
  nodes.filterMap typedef?

/-- The definitions of one name, the full one and the partial ones, in order. -/
def declared (name : String) (nodes : List Node) : List Definition :=
  nodes.filterMap (definition? name)

@[simp] theorem edges_snoc (nodes : List Node) (node : Node) :
    edges (nodes ++ [node]) = edges nodes ++ node.edge?.toList := by
  simp only [edges, List.filterMap_append]
  cases node <;> rfl

@[simp] theorem typedefs_snoc (nodes : List Node) (node : Node) :
    typedefs (nodes ++ [node]) = typedefs nodes ++ node.typedef?.toList := by
  simp only [typedefs, List.filterMap_append]
  cases node <;> rfl

@[simp] theorem declared_snoc (name : String) (nodes : List Node) (node : Node) :
    declared name (nodes ++ [node]) = declared name nodes ++ (node.definition? name).toList := by
  simp only [declared, List.filterMap_append, List.filterMap_cons, List.filterMap_nil]
  cases node.definition? name <;> rfl

/-- One more typedef needs a new name. -/
theorem nodup_typedefs_snoc (nodes : List Node) (name : String) (type : IdlType) :
    ((typedefs (nodes ++ [.typedef name type])).map (·.1)).Nodup ↔
      ((typedefs nodes).map (·.1)).Nodup ∧ name ∉ (typedefs nodes).map (·.1) := by
  rw [typedefs_snoc, List.map_append, List.nodup_append]
  constructor
  · rintro ⟨hnodup, -, hnew⟩
    exact ⟨hnodup, fun hmem => hnew name hmem name (by simp) rfl⟩
  · rintro ⟨hnodup, hnew⟩
    refine ⟨hnodup, by simp, ?_⟩
    intro a ha b hb
    simp only [typedef?, Option.toList_some, List.map_cons, List.map_nil,
      List.mem_singleton] at hb
    grind

end Node

/-- One more definition of a name: a full one has to be the first, a partial one adds to
what is there. -/
def Definition.join (options : IngestOptions) (found : Option Definition) (d : Definition) :
    Option (Option Definition) :=
  match found with
  | none => if d.isPartial then none else some (some (Intake.select options d))
  | some main =>
    if d.isPartial then
      some (some { main with members := main.members ++ (Intake.select options d).members })
    else none

/-- What the definitions of one name add up to, if they are one full definition followed
by partial ones, or none at all. -/
def Definition.joined (options : IngestOptions) (ds : List Definition) :
    Option (Option Definition) :=
  ds.foldlM (Definition.join options) none

namespace Intake

@[simp] theorem name_select (options : IngestOptions) (d : Definition) :
    (select options d).name = d.name := by
  unfold select
  split <;> rfl

@[simp] theorem isPartial_select (options : IngestOptions) (d : Definition) :
    (select options d).isPartial = d.isPartial := by
  unfold select
  split <;> rfl

/-- The definition of a name, as far as it has been taken in. -/
def get? (intake : Intake) (name : String) : Option Definition :=
  intake.definitions.find? (·.name == name)

theorem isSome_get? (intake : Intake) (name : String) :
    (intake.get? name).isSome = intake.defines name := by
  rw [get?, defines, List.isSome_find?]

theorem name_of_get? {intake : Intake} {name : String} {d : Definition}
    (h : intake.get? name = some d) : d.name = name := by
  simpa using List.find?_some h

/-- With distinct names, a definition is the one of its name. -/
theorem get?_eq_some_iff {intake : Intake} (hnodup : intake.names.Nodup) {d : Definition} :
    intake.get? d.name = some d ↔ d ∈ intake.definitions := by
  constructor
  · exact List.mem_of_find?_eq_some
  · intro h
    cases hfind : intake.get? d.name with
    | none =>
        have hother := List.find?_eq_none.mp hfind d h
        simp at hother
    | some found =>
        have hmem : found ∈ intake.definitions := List.mem_of_find?_eq_some hfind
        have hsame : found = d := List.inj_on_of_nodup_map hnodup hmem h (name_of_get? hfind)
        rw [hsame]

/-- Members are added to the definition of the name only. -/
theorem get?_extend (intake : Intake) (name other : String) (members : List Member) :
    (intake.extend name members).get? other =
      if name = other then
        (intake.get? other).map fun d => { d with members := d.members ++ members }
      else intake.get? other := by
  have hname : (fun d : Definition => d.name == other) ∘
      (fun d => if d.name == name then { d with members := d.members ++ members } else d) =
      fun d => d.name == other := by
    funext d
    simp only [Function.comp_apply]
    split <;> rfl
  rw [get?, extend, List.find?_map, hname]
  change Option.map _ (intake.get? other) = _
  cases hfound : intake.get? other with
  | none => simp
  | some d =>
      have hd : d.name = other := name_of_get? hfound
      by_cases hother : name = other
      · simp [hd, hother]
      · simp [hd, hother, Ne.symm hother]

/-! ## what the nodes add up to -/

/-- What an intake has read off some nodes: the edges and the typedefs in order, no typedef
twice, and for every name what its definitions add up to. -/
structure Reads (options : IngestOptions) (nodes : List Node) (intake : Intake) : Prop where
  edges : intake.edges = Node.edges nodes
  typedefs : intake.typedefs = Node.typedefs nodes
  nodup_typedefs : ((Node.typedefs nodes).map (·.1)).Nodup
  definitions : ∀ name, Definition.joined options (Node.declared name nodes) =
    some (intake.get? name)

/-- A definition that is taken in joins those of its name. -/
theorem get?_addDefinition {options : IngestOptions} {intake intake' : Intake} {d : Definition}
    (h : intake.addDefinition (select options d) = .ok intake') (name : String) :
    (if d.name = name then Definition.join options (intake.get? name) d
      else some (intake.get? name)) = some (intake'.get? name) := by
  simp only [addDefinition, name_select, isPartial_select, ← isSome_get?] at h
  cases hpartial : d.isPartial <;> cases hfound : intake.get? d.name <;>
    simp only [hpartial, hfound, Option.isSome_none, Option.isSome_some, if_true, if_false,
      Bool.false_eq_true, reduceCtorEq, Except.ok.injEq] at h
  · subst h
    by_cases hname : d.name = name
    · subst hname
      have hnone : intake.definitions.find? (·.name == d.name) = none := hfound
      simp [Definition.join, hpartial, get?, List.find?_append, hnone]
    · simp [hname, get?, List.find?_append]
  · subst h
    rw [get?_extend]
    by_cases hname : d.name = name
    · subst hname
      simp [Definition.join, hpartial, hfound]
    · simp [hname]

/-- A definition is taken in if it can join those of its name. -/
theorem addDefinition_ok {options : IngestOptions} {intake : Intake} {d : Definition}
    (h : (Definition.join options (intake.get? d.name) d).isSome) :
    ∃ intake', intake.addDefinition (select options d) = .ok intake' := by
  simp only [addDefinition, name_select, isPartial_select, ← isSome_get?]
  cases hpartial : d.isPartial <;> cases hfound : intake.get? d.name <;>
    simp [Definition.join, hpartial, hfound] at h ⊢

theorem edges_addDefinition {intake intake' : Intake} {d : Definition}
    (h : intake.addDefinition d = .ok intake') :
    intake'.edges = intake.edges ∧ intake'.typedefs = intake.typedefs := by
  grind [addDefinition, extend]

/-- A typedef is taken in if its name is new. -/
theorem addTypedef_ok_iff {options : IngestOptions} {intake intake' : Intake} {name : String}
    {type : IdlType} : intake.addNode options (.typedef name type) = .ok intake' ↔
      name ∉ intake.typedefs.map (·.1) ∧
        { intake with typedefs := intake.typedefs ++ [(name, type)] } = intake' := by
  rw [addNode]
  split
  next hold => simp [isSome_lookup_iff.mp hold]
  next hnew => simp [mt isSome_lookup_iff.mpr hnew]

/-- What one more node adds. -/
theorem Reads.snoc {options : IngestOptions} {nodes : List Node} {node : Node}
    {intake intake' : Intake} (hreads : Reads options nodes intake)
    (h : intake.addNode options node = .ok intake') : Reads options (nodes ++ [node]) intake' := by
  cases node with
  | includes target mixin =>
      cases h
      exact {
        edges := by simp [hreads.edges]
        typedefs := by simp [hreads.typedefs]
        nodup_typedefs := by simpa using hreads.nodup_typedefs
        definitions := by simpa [get?] using hreads.definitions }
  | typedef name type =>
      obtain ⟨hnew, rfl⟩ := addTypedef_ok_iff.mp h
      rw [hreads.typedefs] at hnew
      exact {
        edges := by simp [hreads.edges]
        typedefs := by simp [hreads.typedefs]
        nodup_typedefs := (Node.nodup_typedefs_snoc ..).mpr ⟨hreads.nodup_typedefs, hnew⟩
        definitions := by simpa [get?] using hreads.definitions }
  | definition d =>
      obtain ⟨hedges, htypedefs⟩ := edges_addDefinition h
      exact {
        edges := by simp [hedges, hreads.edges]
        typedefs := by simp [htypedefs, hreads.typedefs]
        nodup_typedefs := by simpa using hreads.nodup_typedefs
        definitions := by
          intro name
          rw [← get?_addDefinition h name, Node.declared_snoc, Definition.joined,
            List.foldlM_append]
          have hbefore := hreads.definitions name
          rw [Definition.joined] at hbefore
          rw [hbefore]
          by_cases hname : d.name = name
          · simp [hname]
          · simp [hname] }

/-- The last node is added to what the others make. -/
theorem ofNodes_snoc (options : IngestOptions) (nodes : List Node) (node : Node) :
    ofNodes options (nodes ++ [node]) =
      ofNodes options nodes >>= fun intake => intake.addNode options node := by
  simp [ofNodes, List.foldlM_append]

/-- What is taken in is what the views of the nodes say. -/
theorem reads_ofNodes {options : IngestOptions} {nodes : List Node} {intake : Intake}
    (h : ofNodes options nodes = .ok intake) : Reads options nodes intake := by
  induction nodes using List.reverseRecOn generalizing intake with
  | nil =>
      rw [ofNodes, List.foldlM_nil, pure_eq_ok] at h
      subst h
      exact { edges := rfl, typedefs := rfl, nodup_typedefs := List.nodup_nil,
              definitions := fun _ => rfl }
  | append_singleton nodes node ih =>
      rw [ofNodes_snoc, bind_eq_ok] at h
      obtain ⟨before, hbefore, hstep⟩ := h
      exact (ih hbefore).snoc hstep

/-- Nodes are taken in if no typedef comes twice and the definitions of every name add up. -/
theorem ofNodes_ok {options : IngestOptions} {nodes : List Node}
    (htypedefs : ((Node.typedefs nodes).map (·.1)).Nodup)
    (hjoined : ∀ name, (Definition.joined options (Node.declared name nodes)).isSome) :
    ∃ intake, ofNodes options nodes = .ok intake := by
  induction nodes using List.reverseRecOn with
  | nil => exact ⟨{}, rfl⟩
  | append_singleton nodes node ih =>
      have htypedefs' : ((Node.typedefs nodes).map (·.1)).Nodup := by
        rw [Node.typedefs_snoc, List.map_append] at htypedefs
        exact (List.nodup_append.mp htypedefs).1
      have hjoined' : ∀ name, (Definition.joined options (Node.declared name nodes)).isSome := by
        intro name
        have hall := hjoined name
        rw [Node.declared_snoc, Definition.joined, List.foldlM_append] at hall
        exact Option.isSome_of_isSome_bind hall
      obtain ⟨intake, hintake⟩ := ih htypedefs' hjoined'
      have hreads := reads_ofNodes hintake
      suffices hstep : ∃ after, intake.addNode options node = .ok after by
        obtain ⟨after, hafter⟩ := hstep
        exact ⟨after, by rw [ofNodes_snoc, bind_eq_ok]; exact ⟨intake, hintake, hafter⟩⟩
      cases node with
      | includes target mixin => exact ⟨_, rfl⟩
      | typedef name type =>
          have hnew : name ∉ intake.typedefs.map (·.1) := by
            rw [hreads.typedefs]
            exact ((Node.nodup_typedefs_snoc ..).mp htypedefs).2
          exact ⟨_, addTypedef_ok_iff.mpr ⟨hnew, rfl⟩⟩
      | definition d =>
          have hall := hjoined d.name
          have hbefore := hreads.definitions d.name
          rw [Definition.joined] at hbefore
          rw [Node.declared_snoc, Definition.joined, List.foldlM_append, hbefore] at hall
          refine addDefinition_ok ?_
          simpa using hall

/-! ## intakes with the same elements -/

/-- Whether every name that is mentioned is defined. -/
structure Closed (intake : Intake) : Prop where
  edges : ∀ edge ∈ intake.edges, edge.1 ∈ intake.names ∧ edge.2 ∈ intake.names
  parents : ∀ d ∈ intake.definitions, ∀ parent, d.parent = some parent → parent ∈ intake.names

/-- With distinct names, no two definitions are put in order by the same key. -/
theorem keyed_inj {intake : Intake} (hnodup : intake.names.Nodup) :
    ∀ a ∈ intake.keyed, ∀ b ∈ intake.keyed, a.1 = b.1 → a = b := by
  simp only [keyed, List.forall_mem_map]
  intro d hd d' hd' hkey
  have hname : d.name = d'.name := (Prod.ext_iff.mp hkey).2
  rw [List.inj_on_of_nodup_map hnodup hd hd' hname]

/-- Two intakes hold the same definitions, typedefs and edges, in any order. -/
structure Agrees (a b : Intake) : Prop where
  definitions : ∀ d, d ∈ a.definitions ↔ d ∈ b.definitions
  typedefs : ∀ entry, entry ∈ a.typedefs ↔ entry ∈ b.typedefs
  edges : ∀ edge, edge ∈ a.edges ↔ edge ∈ b.edges

/-- Nodes make a catalog if they are taken in and every name they mention is defined. -/
theorem catalog_ok_iff {options : IngestOptions} {nodes : List Node} {c : Catalog} :
    Catalog.ofNodes options nodes = .ok c ↔
      ∃ intake, ofNodes options nodes = .ok intake ∧ intake.Closed ∧ intake.finish = c := by
  simp only [Catalog.ofNodes, bind_eq_ok, pure_eq_ok]
  constructor
  · rintro ⟨intake, hintake, ⟨⟩, hedges, ⟨⟩, hparents, hfinish⟩
    have hclosed : intake.Closed := {
      edges := fun edge hedge => checkEdge_ok_iff.mp (forM_ok_iff.mp hedges edge hedge)
      parents := fun d hd => checkParent_ok_iff.mp (forM_ok_iff.mp hparents d hd) }
    exact ⟨intake, hintake, hclosed, hfinish⟩
  · rintro ⟨intake, hintake, hclosed, hfinish⟩
    refine ⟨intake, hintake, (), ?_, (), ?_, hfinish⟩
    · exact forM_ok_iff.mpr fun edge hedge => checkEdge_ok_iff.mpr (hclosed.edges edge hedge)
    · exact forM_ok_iff.mpr fun d hd => checkParent_ok_iff.mpr (hclosed.parents d hd)

namespace Agrees

variable {a b : Intake}

theorem symm (h : Agrees a b) : Agrees b a where
  definitions d := (h.definitions d).symm
  typedefs entry := (h.typedefs entry).symm
  edges edge := (h.edges edge).symm

/-- What agrees has the same names. -/
theorem mem_names_iff (h : Agrees a b) {name : String} : name ∈ a.names ↔ name ∈ b.names := by
  simp [names, h.definitions]

theorem closed (h : Agrees a b) (hclosed : a.Closed) : b.Closed where
  edges edge hedge := by
    rw [← h.mem_names_iff, ← h.mem_names_iff]
    exact hclosed.edges edge ((h.edges edge).mpr hedge)
  parents d hd parent hparent := by
    rw [← h.mem_names_iff]
    exact hclosed.parents d ((h.definitions d).mpr hd) parent hparent

/-- What agrees includes the same. -/
theorem includedBy_eq (h : Agrees a b) (name : String) : a.includedBy name = b.includedBy name := by
  refine Ordered.ofList_congr compare id ?_ ?_
  · exact fun _ _ _ _ hsame => hsame
  · intro mixin
    simp [List.mem_filterMap, h.edges]

/-- What agrees is sorted alike. -/
theorem sorted_eq (h : Agrees a b) (hnodup : a.names.Nodup) : a.sorted = b.sorted := by
  rw [Intake.sorted_eq, Intake.sorted_eq]
  refine congrArg (List.map (·.2))
    (Ordered.ofList_congr Ordered.comparePairs Prod.fst ?_ ?_)
  · exact keyed_inj hnodup
  · simp [keyed, h.definitions]

/-- Intakes with the same elements make the same catalog. -/
theorem finish_eq (h : Agrees a b) (hnames : a.names.Nodup)
    (htypedefs : (a.typedefs.map (·.1)).Nodup) : a.finish = b.finish := by
  have hsorted := h.sorted_eq hnames
  have htable := Ordered.ofList_congr compare Prod.fst
    (fun _ hx _ hy => List.inj_on_of_nodup_map htypedefs hx hy) h.typedefs
  simp only [finish, hsorted, htable, h.includedBy_eq]

end Agrees

end Intake

/-! ## repeated edges -/

namespace Intake

variable {options : IngestOptions}

/-- Put edges before those of an intake. -/
def withEdges (edges : List (String × String)) (intake : Intake) : Intake :=
  { intake with edges := edges ++ intake.edges }

/-- Edges that are there already change nothing about how a node is taken in. -/
theorem addNode_withEdges (edges : List (String × String)) (intake : Intake) (node : Node) :
    (intake.withEdges edges).addNode options node =
      (intake.addNode options node).map (withEdges edges) := by
  cases node with
  | includes target mixin => simp [addNode, withEdges, Except.map]
  | typedef name type =>
      by_cases hold : (intake.typedefs.lookup name).isSome = true <;>
        simp [addNode, withEdges, Except.map, hold]
  | definition d =>
      have hdefines : (intake.withEdges edges).defines = intake.defines := rfl
      simp only [addNode, addDefinition, name_select, isPartial_select, hdefines]
      cases d.isPartial <;> cases intake.defines d.name <;> rfl

/-- Other edges change nothing about what else the nodes add. -/
theorem foldlM_withEdges (edges : List (String × String)) (nodes : List Node) (intake : Intake) :
    nodes.foldlM (addNode options) (intake.withEdges edges) =
      (nodes.foldlM (addNode options) intake).map (withEdges edges) := by
  induction nodes generalizing intake with
  | nil => rfl
  | cons node nodes ih =>
      rw [List.foldlM_cons, List.foldlM_cons, addNode_withEdges]
      cases intake.addNode options node with
      | error e => rfl
      | ok after => exact ih after

/-- Check an intake and finish it. -/
def complete (intake : Intake) : Except Error Catalog := do
  intake.edges.forM intake.checkEdge
  intake.definitions.forM intake.checkParent
  return intake.finish

/-- A check that was made before need not be made again. -/
theorem forM_repeat {f : String × String → Except Error Unit} {edge : String × String}
    {front : List (String × String)} (h : edge ∈ front) (back : List (String × String)) :
    (front ++ edge :: back).forM f = (front ++ back).forM f := by
  have happend : ∀ rest, (front ++ rest).forM f = front.forM f >>= fun _ => rest.forM f := by
    intro rest
    simp only [List.forM_eq_forM, List.forM_append]
  rw [happend, happend]
  cases hfront : front.forM f with
  | error e => rfl
  | ok u =>
      change (f edge >>= fun _ => back.forM f) = back.forM f
      rw [forM_ok hfront edge h]
      rfl

/-- An edge that comes again has been checked before, and joins nothing new. -/
theorem complete_repeat {edge : String × String} {edges : List (String × String)}
    (h : edge ∈ edges) (intake : Intake) :
    (intake.withEdges (edges ++ [edge])).complete = (intake.withEdges edges).complete := by
  have hagrees : Agrees (intake.withEdges (edges ++ [edge])) (intake.withEdges edges) := {
    definitions := fun _ => Iff.rfl
    typedefs := fun _ => Iff.rfl
    edges := by
      intro other
      simp only [withEdges, List.mem_append, List.mem_singleton]
      grind }
  have hfinish : (intake.withEdges (edges ++ [edge])).finish =
      (intake.withEdges edges).finish := by
    simp only [finish, hagrees.includedBy_eq]
    rfl
  have hchecks : (edges ++ [edge] ++ intake.edges).forM intake.checkEdge =
      (edges ++ intake.edges).forM intake.checkEdge := by
    rw [List.append_assoc]
    exact forM_repeat h intake.edges
  simp only [complete, hfinish]
  exact congrArg (· >>= _) hchecks

/-- An inclusion that is repeated changes nothing about the catalog. -/
theorem catalog_repeat {front back : List Node} {target mixin : String}
    (h : Node.includes target mixin ∈ front) :
    Catalog.ofNodes options (front ++ .includes target mixin :: back) =
      Catalog.ofNodes options (front ++ back) := by
  have hsplit : ∀ nodes, Catalog.ofNodes options (front ++ nodes) =
      ofNodes options front >>= fun before =>
        nodes.foldlM (addNode options) before >>= complete := by
    intro nodes
    rw [← bind_assoc, ofNodes, ← List.foldlM_append]
    rfl
  rw [hsplit, hsplit]
  cases hfront : ofNodes options front with
  | error e => rfl
  | ok before =>
      have hedge : (target, mixin) ∈ before.edges := by
        rw [(reads_ofNodes hfront).edges]
        exact List.mem_filterMap.mpr ⟨_, h, rfl⟩
      obtain ⟨core, hbefore, hafter⟩ : ∃ core : Intake, before = withEdges before.edges core ∧
          before.addNode options (.includes target mixin) =
            .ok (withEdges (before.edges ++ [(target, mixin)]) core) :=
        ⟨{ before with edges := [] }, by simp [withEdges], by simp [addNode, withEdges]⟩
      have hrun : back.foldlM (addNode options) before =
          (back.foldlM (addNode options) core).map (withEdges before.edges) := by
        rw [← foldlM_withEdges, ← hbefore]
      have hrun' : (Node.includes target mixin :: back).foldlM (addNode options) before =
          (back.foldlM (addNode options) core).map
            (withEdges (before.edges ++ [(target, mixin)])) := by
        rw [← foldlM_withEdges, List.foldlM_cons, hafter]
        rfl
      change _ >>= complete = _ >>= complete
      rw [hrun, hrun']
      cases back.foldlM (addNode options) core with
      | error e => rfl
      | ok after => exact complete_repeat hedge after

end Intake

/-! ## registries -/

/-- Two lists of nodes have the same views: the same edges, the same typedefs in any order,
and for every name the same definitions in the same order. -/
structure Node.SameViews (nodes nodes' : List Node) : Prop where
  edges : ∀ edge, edge ∈ Node.edges nodes ↔ edge ∈ Node.edges nodes'
  typedefs : (Node.typedefs nodes).Perm (Node.typedefs nodes')
  declared : ∀ name, Node.declared name nodes = Node.declared name nodes'

namespace Node.SameViews

variable {options : IngestOptions} {nodes nodes' : List Node}

theorem symm (h : SameViews nodes nodes') : SameViews nodes' nodes where
  edges edge := (h.edges edge).symm
  typedefs := h.typedefs.symm
  declared name := (h.declared name).symm

/-- Nodes in another order have the same views if what is declared for each name stays in
order. -/
theorem of_perm (hperm : nodes.Perm nodes')
    (hdeclared : ∀ name, Node.declared name nodes = Node.declared name nodes') :
    SameViews nodes nodes' where
  edges _ := (hperm.filterMap edge?).mem_iff
  typedefs := hperm.filterMap typedef?
  declared := hdeclared

/-- An `includes` that is repeated adds no edge. -/
theorem of_repeat {front back : List Node} {target mixin : String}
    (h : .includes target mixin ∈ front ++ back) :
    SameViews (front ++ back) (front ++ .includes target mixin :: back) where
  edges edge := by
    have hmem : (target, mixin) ∈ Node.edges (front ++ back) := List.mem_filterMap.mpr ⟨_, h, rfl⟩
    simp only [Node.edges, List.filterMap_append, List.mem_append] at hmem ⊢
    simp only [List.filterMap_cons, edge?, List.mem_cons]
    grind
  typedefs := by simp [Node.typedefs, List.filterMap_cons]
  declared name := by simp [Node.declared, List.filterMap_cons]

/-- Nodes with the same views are both taken in or both refused. -/
theorem agrees (h : SameViews nodes nodes') {intake : Intake}
    (hintake : Intake.ofNodes options nodes = .ok intake) :
    ∃ intake', Intake.ofNodes options nodes' = .ok intake' ∧ intake.Agrees intake' := by
  have hreads := Intake.reads_ofNodes hintake
  have htypedefs : ((Node.typedefs nodes').map (·.1)).Nodup :=
    (h.typedefs.map (·.1)).nodup_iff.mp hreads.nodup_typedefs
  have hjoined : ∀ name, (Definition.joined options (Node.declared name nodes')).isSome := by
    intro name
    rw [← h.declared, hreads.definitions]
    rfl
  obtain ⟨intake', hintake'⟩ := Intake.ofNodes_ok htypedefs hjoined
  have hreads' := Intake.reads_ofNodes hintake'
  have hget : ∀ name, intake.get? name = intake'.get? name := by
    intro name
    have hname := hreads.definitions name
    rw [h.declared, hreads'.definitions, Option.some.injEq] at hname
    exact hname.symm
  refine ⟨intake', hintake', ?_, ?_, ?_⟩
  · intro d
    rw [← Intake.get?_eq_some_iff (Intake.nodup_names_ofNodes hintake),
      ← Intake.get?_eq_some_iff (Intake.nodup_names_ofNodes hintake'), hget]
  · intro entry
    rw [hreads.typedefs, hreads'.typedefs]
    exact h.typedefs.mem_iff
  · intro edge
    rw [hreads.edges, hreads'.edges]
    exact h.edges edge

/-- Nodes with the same views make the same catalog. -/
theorem catalog (h : SameViews nodes nodes') {c : Catalog}
    (hc : Catalog.ofNodes options nodes = .ok c) : Catalog.ofNodes options nodes' = .ok c := by
  obtain ⟨intake, hintake, hclosed, rfl⟩ := Intake.catalog_ok_iff.mp hc
  obtain ⟨intake', hintake', hagrees⟩ := h.agrees hintake
  have hreads := Intake.reads_ofNodes hintake
  have htypedefs : (intake.typedefs.map (·.1)).Nodup := by
    rw [hreads.typedefs]
    exact hreads.nodup_typedefs
  have hfinish := hagrees.finish_eq (Intake.nodup_names_ofNodes hintake) htypedefs
  exact Intake.catalog_ok_iff.mpr ⟨intake', hintake', hagrees.closed hclosed, hfinish.symm⟩

/-- Nodes with the same views make the same registry. -/
theorem registry (h : SameViews nodes nodes') {r : Registry}
    (hr : Registry.build options nodes = .ok r) : Registry.build options nodes' = .ok r := by
  simp only [Registry.build, bind_eq_ok] at hr ⊢
  obtain ⟨c, hc, hnames⟩ := hr
  exact ⟨c, h.catalog hc, hnames⟩

end Node.SameViews

namespace Registry

open Generator (generateAll)

/-- Two lists of nodes have the same outcome: both make a registry or neither does, and
the registries have the same definitions in the same order, the same typedefs, mixins
and names, and the same files or the same failure to generate them. -/
structure SameOutcome (options : IngestOptions) (nodes nodes' : List Node) : Prop where
  succeeds : (∃ r, build options nodes = .ok r) ↔ ∃ r, build options nodes' = .ok r
  agree : ∀ r r', build options nodes = .ok r → build options nodes' = .ok r' →
    r.definitions = r'.definitions ∧ r.typedefs = r'.typedefs ∧
      (∀ name, r.mixins name = r'.mixins name) ∧ r.names = r'.names ∧
      ∀ config, generateAll ⟨r, config⟩ = generateAll ⟨r', config⟩

/-- Nodes with the same views have the same outcome. -/
theorem sameOutcome_of_views {options : IngestOptions} {nodes nodes' : List Node}
    (h : Node.SameViews nodes nodes') : SameOutcome options nodes nodes' where
  succeeds := ⟨fun ⟨r, hr⟩ => ⟨r, h.registry hr⟩, fun ⟨r, hr⟩ => ⟨r, h.symm.registry hr⟩⟩
  agree r r' hr hr' := by
    have hsame : r = r' := Except.ok.inj ((h.registry hr).symm.trans hr')
    subst hsame
    simp

/-- **The order of the nodes does not matter**, as long as the definitions of every name
keep theirs; nor does it matter how often an `includes` is written, wherever the copies
stand.  A copy behind the original does not even change why nodes are refused. -/
theorem registry_ignores_node_order (options : IngestOptions) (nodes : List Node) :
    (∀ nodes', nodes.Perm nodes' →
      (∀ name, Node.declared name nodes = Node.declared name nodes') →
        SameOutcome options nodes nodes') ∧
    ∀ front back target mixin, front ++ back = nodes → .includes target mixin ∈ nodes →
      SameOutcome options nodes (front ++ .includes target mixin :: back) ∧
        (.includes target mixin ∈ front →
          build options (front ++ .includes target mixin :: back) = build options nodes) := by
  constructor
  · intro nodes' hperm hdeclared
    exact sameOutcome_of_views (.of_perm hperm hdeclared)
  · rintro front back target mixin rfl hmem
    refine ⟨sameOutcome_of_views (.of_repeat hmem), fun hfront => ?_⟩
    rw [build, build, Intake.catalog_repeat hfront]

/-- A second name for a type. -/
def aliasOf (name type : String) : Node :=
  .typedef name (.named type false {})

/-- An edge and a typedef, both apart from what they are about. -/
def looseNodes : List Node :=
  [.includes "Anchor" "Linked", aliasOf "Count" "long"]

/-- A definition in two parts, and what it includes. -/
def anchorNodes : List Node :=
  [.definition {
      name := "Anchor", kind := .interface, members := [attributeNamed "hits" "Count" .none] },
   .definition {
      name := "Linked", kind := .mixin, members := [attributeNamed "href" "DOMString" .none] },
   .definition {
      name := "Anchor", kind := .interface, isPartial := true,
      members := [attributeNamed "text" "DOMString" .none] }]

/-- The parts of a definition can come before or after what is said about it, and what it
includes can be said again. -/
theorem anchor_in_either_order :
    (∃ r r', build {} (looseNodes ++ anchorNodes) = .ok r ∧
      build {} (anchorNodes ++ looseNodes) = .ok r' ∧
      r.names.introduced? "Anchor" = some ["getHits", "setHits", "getText", "setText"] ∧
      r.definitions = r'.definitions ∧ r.names = r'.names) ∧
    SameOutcome {} (looseNodes ++ anchorNodes)
      (looseNodes ++ .includes "Anchor" "Linked" :: anchorNodes) := by
  have hbuild : (build {} (looseNodes ++ anchorNodes)).toOption.map
      (fun r => r.names.introduced? "Anchor") =
      some (some ["getHits", "setHits", "getText", "setText"]) := by
    decide +kernel
  obtain ⟨r, hr, hnames⟩ := ok_of_toOption_map hbuild
  obtain ⟨hreorder, hrepeat⟩ := registry_ignores_node_order {} (looseNodes ++ anchorNodes)
  have hdeclared : ∀ name, Node.declared name (looseNodes ++ anchorNodes) =
      Node.declared name (anchorNodes ++ looseNodes) := by
    intro name
    simp [Node.declared, looseNodes, aliasOf, List.filterMap_cons]
  have hsame := hreorder (anchorNodes ++ looseNodes) List.perm_append_comm hdeclared
  obtain ⟨r', hr'⟩ := hsame.succeeds.mp ⟨r, hr⟩
  obtain ⟨hdefinitions, -, -, hmap, -⟩ := hsame.agree r r' hr hr'
  refine ⟨⟨r, r', hr, hr', hnames, hdefinitions, hmap⟩, ?_⟩
  exact (hrepeat looseNodes anchorNodes "Anchor" "Linked" rfl (by simp [looseNodes])).1

end Registry

end WebIdl
