import WebIdl.Proofs.Order

/-!
# WebIdl.Proofs.Assembly

What a catalog says about the nodes that it was made of.

Nodes are taken in one after another, and each is judged by those before it
(`Node.Violates`), so a run stops at the first node at fault (`foldlM_first`); edges and
parents are judged by all nodes, after that.  What has been taken in is at any time what the
nodes so far add up to (`Intake.Assembles`), which makes the finished catalog a function of
the nodes:

* `catalog_means_its_nodes`: which nodes make a catalog, what the catalog holds, and which
  error is reported otherwise.
-/

namespace WebIdl

/-! ## the first fault of a list -/

section First

variable {α ε σ : Type}

/-- No element of a list is at fault, where each is judged by those before it. -/
def Faultless (violates : List α → α → ε → Prop) (xs : List α) : Prop :=
  ∀ before x after e, xs = before ++ x :: after → ¬ violates before x e

/-- The first fault of a list, where each element is judged by those before it. -/
def FirstFault (violates : List α → α → ε → Prop) (xs : List α) (e : ε) : Prop :=
  ∃ before x after, xs = before ++ x :: after ∧ Faultless violates before ∧ violates before x e

/-- Where a list with one more element can be taken apart. -/
theorem snoc_eq_append_cons_iff {xs before after : List α} {x y : α} :
    xs ++ [x] = before ++ y :: after ↔
      (after = [] ∧ before = xs ∧ y = x) ∨
        ∃ rest, after = rest ++ [x] ∧ xs = before ++ y :: rest := by
  constructor
  · intro h
    rcases List.eq_nil_or_concat after with rfl | ⟨rest, last, rfl⟩
    · obtain ⟨rfl, hlast⟩ := List.append_inj' h rfl
      exact Or.inl ⟨rfl, rfl, (List.cons.inj hlast).1.symm⟩
    · rw [List.concat_eq_append, ← List.cons_append, ← List.append_assoc] at h
      obtain ⟨rfl, hlast⟩ := List.append_inj' h rfl
      rw [(List.cons.inj hlast).1]
      exact Or.inr ⟨rest, List.concat_eq_append, rfl⟩
  · rintro (⟨rfl, rfl, rfl⟩ | ⟨rest, rfl, rfl⟩)
    · rfl
    · simp

variable {violates : List α → α → ε → Prop}

theorem faultless_nil : Faultless violates ([] : List α) := by
  intro before x after e h
  simp at h

/-- A list is without fault if its front is, and its last element violates nothing. -/
theorem faultless_snoc_iff {xs : List α} {x : α} :
    Faultless violates (xs ++ [x]) ↔ Faultless violates xs ∧ ∀ e, ¬ violates xs x e := by
  constructor
  · intro h
    refine ⟨fun before y after e hsplit => ?_, fun e => h xs x [] e rfl⟩
    exact h before y (after ++ [x]) e (by simp [hsplit])
  · rintro ⟨hxs, hx⟩ before y after e hsplit
    rcases snoc_eq_append_cons_iff.mp hsplit with ⟨-, rfl, rfl⟩ | ⟨rest, -, hrest⟩
    · exact hx e
    · exact hxs before y rest e hrest

/-- The first fault is in the front, or else at the last element. -/
theorem firstFault_snoc_iff {xs : List α} {x : α} {e : ε} :
    FirstFault violates (xs ++ [x]) e ↔
      FirstFault violates xs e ∨ Faultless violates xs ∧ violates xs x e := by
  constructor
  · rintro ⟨before, y, after, hsplit, hbefore, hy⟩
    rcases snoc_eq_append_cons_iff.mp hsplit with ⟨-, rfl, rfl⟩ | ⟨rest, -, hrest⟩
    · exact Or.inr ⟨hbefore, hy⟩
    · exact Or.inl ⟨before, y, rest, hrest, hbefore, hy⟩
  · rintro (⟨before, y, after, hsplit, hbefore, hy⟩ | ⟨hxs, hx⟩)
    · exact ⟨before, y, after ++ [x], by simp [hsplit], hbefore, hy⟩
    · exact ⟨xs, x, [], rfl, hxs, hx⟩

/-- A list without fault has no first one. -/
theorem not_firstFault {xs : List α} (h : Faultless violates xs) (e : ε) :
    ¬ FirstFault violates xs e := by
  rintro ⟨before, x, after, hsplit, -, hx⟩
  exact h before x after e hsplit hx

/-- **A run stops at the first fault.**  If a step fails exactly for the elements at fault,
and what holds of the elements so far is kept, then a run fails exactly with the first fault,
and what holds at its end holds of all elements. -/
theorem foldlM_first {P : List α → σ → Prop} {V : List α → α → ε → Prop}
    {f : σ → α → Except ε σ} {start : σ}
    (hstart : P [] start)
    (hfail : ∀ before x s e, P before s → (f s x = .error e ↔ V before x e))
    (hkeep : ∀ before x s s', P before s → f s x = .ok s' → P (before ++ [x]) s')
    (xs : List α) :
    (∀ e, xs.foldlM f start = .error e ↔ FirstFault V xs e) ∧
    ((∃ s, xs.foldlM f start = .ok s) ↔ Faultless V xs) ∧
    ∀ s, xs.foldlM f start = .ok s → P xs s := by
  induction xs using List.reverseRecOn with
  | nil =>
      refine ⟨fun e => ?_, ⟨fun _ => faultless_nil, fun _ => ⟨start, rfl⟩⟩, ?_⟩
      · exact iff_of_false (by simp [pure, Except.pure]) (not_firstFault faultless_nil e)
      · intro s h
        rw [List.foldlM_nil, pure_eq_ok] at h
        exact h ▸ hstart
  | append_singleton xs x ih =>
      obtain ⟨herror, hok, hholds⟩ := ih
      have hrun : (xs ++ [x]).foldlM f start = xs.foldlM f start >>= fun s => f s x := by
        simp [List.foldlM_append]
      rw [hrun]
      cases hxs : xs.foldlM f start with
      | error e' =>
          have hfirst := (herror e').mp hxs
          have hfaulty : ¬ Faultless V xs := fun h => not_firstFault h e' hfirst
          refine ⟨fun e => ?_, ?_, fun s h => by cases h⟩
          · rw [firstFault_snoc_iff, ← herror e, hxs]
            simp [bind, Except.bind, hfaulty]
          · rw [faultless_snoc_iff]
            simp [bind, Except.bind, hfaulty]
      | ok s =>
          have hclean := hok.mp ⟨s, hxs⟩
          have hs := hholds s hxs
          refine ⟨fun e => ?_, ?_, fun s' h => hkeep xs x s s' hs h⟩
          · rw [firstFault_snoc_iff]
            simp [bind, Except.bind, hfail xs x s e hs, hclean, not_firstFault hclean e]
          · rw [faultless_snoc_iff]
            simp only [bind, Except.bind, hclean, true_and, ← hfail xs x s _ hs]
            cases f s x with
            | error e => simp
            | ok s' => simp

/-- Checks that look at one element at a time stop at the first one that fails. -/
theorem forM_first {check : α → Except ε Unit} {wrong : α → ε → Prop}
    (h : ∀ x e, check x = .error e ↔ wrong x e) (xs : List α) :
    (∀ e, xs.forM check = .error e ↔ FirstFault (fun _ => wrong) xs e) ∧
    ((∃ u, xs.forM check = .ok u) ↔ Faultless (fun _ => wrong) xs) := by
  have hrun : xs.forM check = xs.foldlM (fun _ x => check x) () := by
    induction xs with
    | nil => rfl
    | cons x xs ih =>
        change (check x >>= fun _ => xs.forM check) = _
        rw [ih, List.foldlM_cons]
  obtain ⟨herror, hok, -⟩ := foldlM_first (P := fun _ _ => True) (V := fun _ => wrong)
    (f := fun (_ : Unit) x => check x) trivial (fun _ x _ e _ => h x e)
    (fun _ _ _ _ _ _ => trivial) xs
  rw [hrun]
  exact ⟨herror, hok⟩

end First

/-! ## what the nodes add up to -/

namespace Node

/-- The definition of a node, if it is a full one. -/
@[simp]
def main? : Node → Option Definition
  | .definition d => if d.isPartial then none else some d
  | _ => none

/-- The members that a node adds to the definition of a name. -/
@[simp]
def addition (name : String) : Node → List Member
  | .definition d => if d.isPartial && d.name == name then d.members else []
  | _ => []

/-- The full definitions, in order. -/
def mains (nodes : List Node) : List Definition :=
  nodes.filterMap main?

/-- The names of the full definitions, in order. -/
def names (nodes : List Node) : List String :=
  (mains nodes).map (·.name)

/-- The members that partial definitions add to a name, in order. -/
def additions (name : String) (nodes : List Node) : List Member :=
  nodes.flatMap (addition name)

/-- A node adds its main definition, if it is one. -/
@[simp] theorem mains_snoc (nodes : List Node) (node : Node) :
    mains (nodes ++ [node]) = mains nodes ++ node.main?.toList := by
  simp only [mains, List.filterMap_append, List.filterMap_cons, List.filterMap_nil]
  cases node.main? <;> rfl

/-- A node adds the name of its main definition, if it is one. -/
@[simp] theorem names_snoc (nodes : List Node) (node : Node) :
    names (nodes ++ [node]) = names nodes ++ (node.main?.map (·.name)).toList := by
  rw [names, mains_snoc, List.map_append]
  cases node.main? <;> rfl

/-- A node adds what it has to add to a name. -/
@[simp] theorem additions_snoc (name : String) (nodes : List Node) (node : Node) :
    additions name (nodes ++ [node]) = additions name nodes ++ node.addition name := by
  simp [additions]

/-- Nothing is added to a name that no node defines. -/
theorem additions_eq_nil {name : String} {nodes : List Node}
    (h : ∀ d, .definition d ∈ nodes → d.name ≠ name) : additions name nodes = [] := by
  rw [additions, List.flatMap_eq_nil_iff]
  intro node hnode
  cases node with
  | definition d => simp [h d hnode]
  | _ => rfl

/-- The edges are the inclusions among the nodes. -/
theorem mem_edges_iff {nodes : List Node} {target mixin : String} :
    (target, mixin) ∈ edges nodes ↔ .includes target mixin ∈ nodes := by
  rw [edges, List.mem_filterMap]
  constructor
  · rintro ⟨node, hnode, hedge⟩
    cases node <;> simp_all
  · exact fun h => ⟨_, h, rfl⟩

/-- The typedefs are those among the nodes. -/
theorem mem_typedefs_iff {nodes : List Node} {name : String} {type : IdlType} :
    (name, type) ∈ typedefs nodes ↔ .typedef name type ∈ nodes := by
  rw [typedefs, List.mem_filterMap]
  constructor
  · rintro ⟨node, hnode, htypedef⟩
    cases node <;> simp_all
  · exact fun h => ⟨_, h, rfl⟩

end Node

/-- The members that the options do not leave out. -/
def IngestOptions.keep (options : IngestOptions) (members : List Member) : List Member :=
  if options.dropLegacy then members.filter fun m => !m.isLegacy else members

/-- Members are kept one by one. -/
theorem IngestOptions.keep_append (options : IngestOptions) (front back : List Member) :
    options.keep (front ++ back) = options.keep front ++ options.keep back := by
  unfold keep
  split <;> simp

theorem Intake.select_eq (options : IngestOptions) (d : Definition) :
    select options d = { d with members := options.keep d.members } := by
  unfold select IngestOptions.keep
  split <;> rfl

/-- A full definition together with what the nodes add to it: everything is as it was written
there, but for the members, which the partial definitions of the name add to in order. -/
def Definition.assembled (options : IngestOptions) (nodes : List Node) (d : Definition) :
    Definition :=
  { d with members := options.keep (d.members ++ Node.additions d.name nodes) }

/-! ## taking in nodes -/

/-- How a node can be at fault, as judged by the nodes before it. -/
inductive Node.Violates (before : List Node) : Node → Error → Prop where
  | duplicateTypedef {name : String} {type : IdlType} :
    name ∈ (typedefs before).map (·.1) →
      Violates before (.typedef name type) (.duplicateTypedef name)
  | duplicateDefinition {d : Definition} :
    d.isPartial = false → d.name ∈ names before →
      Violates before (.definition d) (.duplicateDefinition d.name)
  | partialWithoutMain {d : Definition} :
    d.isPartial = true → d.name ∉ names before →
      Violates before (.definition d) (.partialWithoutMain d.name)

/-- A partial definition needs a full one before it. -/
theorem Node.backed_snoc {nodes : List Node} {node : Node}
    (hbacked : ∀ d, .definition d ∈ nodes → d.name ∈ names nodes)
    (hclean : ∀ e, ¬ node.Violates nodes e) (d : Definition)
    (hd : .definition d ∈ nodes ++ [node]) : d.name ∈ names (nodes ++ [node]) := by
  rw [names_snoc, List.mem_append]
  rcases List.mem_append.mp hd with hd | hd
  · exact Or.inl (hbacked d hd)
  · obtain rfl := List.mem_singleton.mp hd
    cases hpartial : d.isPartial with
    | false => exact Or.inr (by simp [hpartial])
    | true =>
        by_contra hnew
        exact hclean _ (.partialWithoutMain hpartial fun hold => hnew (Or.inl hold))

namespace Intake

/-- What an intake holds after some nodes: every full definition with what was added to it, and
nothing was added to a name without a full definition. -/
structure Assembles (options : IngestOptions) (nodes : List Node) (intake : Intake) : Prop
    extends Reads options nodes intake where
  assembled : intake.definitions = (Node.mains nodes).map (Definition.assembled options nodes)
  backed : ∀ d, .definition d ∈ nodes → d.name ∈ Node.names nodes

namespace Assembles

variable {options : IngestOptions} {nodes : List Node} {node : Node} {intake intake' : Intake}

theorem nil : Assembles options [] {} where
  edges := rfl
  typedefs := rfl
  nodup_typedefs := List.nodup_nil
  definitions _ := rfl
  assembled := rfl
  backed _ h := by simp at h

/-- What was assembled has the names of the nodes. -/
theorem names_eq (h : Assembles options nodes intake) : intake.names = Node.names nodes := by
  rw [Intake.names, h.assembled, List.map_map]
  rfl

/-- What was assembled defines a name if a node does. -/
theorem defines_iff (h : Assembles options nodes intake) {name : String} :
    intake.defines name = true ↔ name ∈ Node.names nodes := by
  rw [Intake.defines_iff, h.names_eq]

/-- A node is refused for its fault, and only then. -/
theorem addNode_error_iff (h : Assembles options nodes intake) {e : Error} :
    intake.addNode options node = .error e ↔ node.Violates nodes e := by
  cases node with
  | includes target mixin =>
      refine iff_of_false (by simp [addNode]) ?_
      rintro ⟨⟩
  | typedef name type =>
      have hold : (intake.typedefs.lookup name).isSome = true ↔
          name ∈ (Node.typedefs nodes).map (·.1) := by
        rw [isSome_lookup_iff, h.typedefs]
      constructor
      · intro herror
        rw [addNode] at herror
        split at herror
        next hknown =>
          cases herror
          exact .duplicateTypedef (hold.mp hknown)
        next => cases herror
      · rintro ⟨hknown⟩
        rw [addNode, if_pos (hold.mpr hknown)]
  | definition d =>
      rw [addNode, addDefinition_error_iff, name_select, isPartial_select, h.names_eq]
      constructor
      · rintro (⟨hpartial, hnew, rfl⟩ | ⟨hfull, hold, rfl⟩)
        · exact .partialWithoutMain hpartial hnew
        · exact .duplicateDefinition hfull hold
      · rintro (_ | ⟨hfull, hold⟩ | ⟨hpartial, hnew⟩)
        · exact Or.inr ⟨hfull, hold, rfl⟩
        · exact Or.inl ⟨hpartial, hnew, rfl⟩

/-- One more partial definition adds its members where they belong. -/
theorem assembled_partial {d : Definition} (hpartial : d.isPartial = true) (main : Definition) :
    main.assembled options (nodes ++ [.definition d]) =
      if main.name == d.name then
        { main.assembled options nodes with
          members := (main.assembled options nodes).members ++ options.keep d.members }
      else main.assembled options nodes := by
  by_cases hname : main.name = d.name
  · simp [Definition.assembled, hpartial, hname, IngestOptions.keep_append]
  · simp [Definition.assembled, hpartial, hname, Ne.symm hname]

/-- A node that adds no members changes no definition. -/
theorem assembled_of_addition (hnone : ∀ name, node.addition name = []) :
    Definition.assembled options (nodes ++ [node]) = Definition.assembled options nodes := by
  funext main
  rw [Definition.assembled, Node.additions_snoc, hnone, List.append_nil, Definition.assembled]

/-- What one more node adds. -/
theorem snoc (h : Assembles options nodes intake)
    (hstep : intake.addNode options node = .ok intake') :
    Assembles options (nodes ++ [node]) intake' := by
  have hclean : ∀ e, ¬ node.Violates nodes e := by
    intro e hfault
    rw [← h.addNode_error_iff, hstep] at hfault
    cases hfault
  refine { h.toReads.snoc hstep with assembled := ?_, backed := Node.backed_snoc h.backed hclean }
  cases node with
  | includes target mixin =>
      cases hstep
      rw [assembled_of_addition fun _ => rfl, Node.mains_snoc]
      simpa using h.assembled
  | typedef name type =>
      obtain ⟨-, rfl⟩ := addTypedef_ok_iff.mp hstep
      rw [assembled_of_addition fun _ => rfl, Node.mains_snoc]
      simpa using h.assembled
  | definition d =>
      rw [addNode, addDefinition_ok_iff, name_select, isPartial_select, h.names_eq] at hstep
      rcases hstep with ⟨hpartial, -, rfl⟩ | ⟨hfull, hnew, rfl⟩
      · have hmains : Node.mains (nodes ++ [.definition d]) = Node.mains nodes := by
          simp [hpartial]
        rw [extend, h.assembled, hmains, List.map_map, select_eq]
        exact List.map_congr_left fun main _ => (assembled_partial hpartial main).symm
      · -- nothing can have been added to a name before its full definition
        have hempty : Node.additions d.name nodes = [] := by
          refine Node.additions_eq_nil fun other hother hname => hnew ?_
          exact hname ▸ h.backed other hother
        have hself : select options d = d.assembled options nodes := by
          rw [select_eq, Definition.assembled, hempty, List.append_nil]
        have hnone : ∀ name, (Node.definition d).addition name = [] := by simp [hfull]
        rw [assembled_of_addition hnone, Node.mains_snoc, hself, h.assembled]
        simp [hfull]

end Assembles

/-- Taking in nodes stops at the first node at fault, and gives what the nodes add up to. -/
theorem ofNodes_first (options : IngestOptions) (nodes : List Node) :
    (∀ e, ofNodes options nodes = .error e ↔ FirstFault Node.Violates nodes e) ∧
    ((∃ intake, ofNodes options nodes = .ok intake) ↔ Faultless Node.Violates nodes) ∧
    ∀ intake, ofNodes options nodes = .ok intake → Assembles options nodes intake :=
  foldlM_first (P := Assembles options) (f := addNode options) Assembles.nil
    (fun _ _ _ _ h => h.addNode_error_iff) (fun _ _ _ _ h hstep => h.snoc hstep) nodes

end Intake

/-! ## checking references -/

namespace Node

/-- How an edge can be at fault: its source is not defined, or else its target is not. -/
inductive BadEdge (nodes : List Node) : String × String → Error → Prop where
  | target {target mixin : String} :
    target ∉ names nodes → BadEdge nodes (target, mixin) (.unknownIncludesTarget target mixin)
  | mixin {target mixin : String} :
    target ∈ names nodes → mixin ∉ names nodes →
      BadEdge nodes (target, mixin) (.unknownMixin target mixin)

/-- How a definition can be at fault: its parent is not defined. -/
inductive BadParent (nodes : List Node) : Definition → Error → Prop where
  | intro {d : Definition} {parent : String} :
    d.parent = some parent → parent ∉ names nodes →
      BadParent nodes d (.unknownMixin d.name parent)

/-- Why nodes are refused: for the first node at fault; if there is none, for the first edge
at fault; if there is none either, for the first definition whose parent is not defined. -/
inductive Refused (nodes : List Node) (e : Error) : Prop where
  | node : FirstFault Violates nodes e → Refused nodes e
  | edge : Faultless Violates nodes → FirstFault (fun _ => BadEdge nodes) (edges nodes) e →
      Refused nodes e
  | parent : Faultless Violates nodes → Faultless (fun _ => BadEdge nodes) (edges nodes) →
      FirstFault (fun _ => BadParent nodes) (mains nodes) e → Refused nodes e

end Node

namespace Intake.Assembles

variable {options : IngestOptions} {nodes : List Node} {intake : Intake}

/-- An inclusion is refused if it is bad among the nodes. -/
theorem checkEdge_error_iff (h : Assembles options nodes intake) (edge : String × String)
    (e : Error) : intake.checkEdge edge = .error e ↔ Node.BadEdge nodes edge e := by
  obtain ⟨target, mixin⟩ := edge
  simp only [checkEdge, Bool.not_eq_true', ← Bool.not_eq_true, h.defines_iff]
  constructor
  · intro herror
    split at herror
    next htarget =>
      cases herror
      exact .target htarget
    next htarget =>
      split at herror
      next hmixin =>
        cases herror
        exact .mixin (not_not.mp htarget) hmixin
      next => cases herror
  · rintro (htarget | ⟨htarget, hmixin⟩)
    · rw [if_pos htarget]
    · rw [if_neg (not_not.mpr htarget), if_pos hmixin]

/-- A parent is refused if it is bad among the nodes. -/
theorem checkParent_error_iff (h : Assembles options nodes intake) (d : Definition)
    (e : Error) : intake.checkParent d = .error e ↔ Node.BadParent nodes d e := by
  rw [checkParent]
  cases hparent : d.parent with
  | none =>
      refine iff_of_false (by simp) ?_
      rintro ⟨hsome, -⟩
      rw [hparent] at hsome
      cases hsome
  | some parent =>
      simp only [h.defines_iff]
      constructor
      · intro herror
        split at herror
        next => cases herror
        next hunknown =>
          cases herror
          exact .intro hparent hunknown
      · rintro ⟨hsome, hunknown⟩
        rw [hparent] at hsome
        cases hsome
        rw [if_neg hunknown]

/-- The parents that are checked are those of the full definitions. -/
theorem forM_checkParent (h : Assembles options nodes intake) :
    intake.definitions.forM intake.checkParent = (Node.mains nodes).forM intake.checkParent := by
  rw [h.assembled]
  simp only [List.forM_eq_forM, List.forM_map]
  rfl

/-- Edges are checked before parents. -/
theorem complete_error_iff (h : Assembles options nodes intake) {e : Error} :
    intake.complete = .error e ↔
      FirstFault (fun _ => Node.BadEdge nodes) (Node.edges nodes) e ∨
      Faultless (fun _ => Node.BadEdge nodes) (Node.edges nodes) ∧
        FirstFault (fun _ => Node.BadParent nodes) (Node.mains nodes) e := by
  obtain ⟨hbadEdge, hgoodEdges⟩ := forM_first h.checkEdge_error_iff (Node.edges nodes)
  obtain ⟨hbadParent, -⟩ := forM_first h.checkParent_error_iff (Node.mains nodes)
  simp only [complete, h.edges, h.forM_checkParent, bind_eq_error, hbadEdge, hbadParent,
    pure, Except.pure, reduceCtorEq, and_false, exists_false, or_false, exists_and_right,
    hgoodEdges]

end Intake.Assembles

/-- Nodes are refused with the first fault. -/
theorem Node.refused_iff (options : IngestOptions) (nodes : List Node) (e : Error) :
    Catalog.ofNodes options nodes = .error e ↔ Refused nodes e := by
  obtain ⟨hfirst, hclean, hassembles⟩ := Intake.ofNodes_first options nodes
  change Intake.ofNodes options nodes >>= Intake.complete = _ ↔ _
  rw [bind_eq_error, hfirst]
  constructor
  · rintro (hfault | ⟨intake, hintake, hcomplete⟩)
    · exact .node hfault
    · have hnodes := hclean.mp ⟨intake, hintake⟩
      have hreferences := (hassembles intake hintake).complete_error_iff.mp hcomplete
      rcases hreferences with hedge | ⟨hedges, hparent⟩
      · exact .edge hnodes hedge
      · exact .parent hnodes hedges hparent
  · rintro (hfault | ⟨hnodes, hedge⟩ | ⟨hnodes, hedges, hparent⟩)
    · exact Or.inl hfault
    · obtain ⟨intake, hintake⟩ := hclean.mpr hnodes
      exact Or.inr ⟨intake, hintake,
        (hassembles intake hintake).complete_error_iff.mpr (Or.inl hedge)⟩
    · obtain ⟨intake, hintake⟩ := hclean.mpr hnodes
      exact Or.inr ⟨intake, hintake,
        (hassembles intake hintake).complete_error_iff.mpr (Or.inr ⟨hedges, hparent⟩)⟩

/-! ## nodes that make a catalog -/

namespace Node

/-- No name is given twice, and what is partial comes after a full definition. -/
structure Consistent (nodes : List Node) : Prop where
  typedefs : ((typedefs nodes).map (·.1)).Nodup
  mains : (names nodes).Nodup
  partials : ∀ before d after, nodes = before ++ .definition d :: after → d.isPartial = true →
    d.name ∈ names before

/-- Nodes that make a catalog: consistent ones that mention no name without a definition. -/
structure Admissible (nodes : List Node) : Prop extends Consistent nodes where
  includes : ∀ target mixin, .includes target mixin ∈ nodes →
    target ∈ names nodes ∧ mixin ∈ names nodes
  parents : ∀ d ∈ Node.mains nodes, ∀ parent, d.parent = some parent → parent ∈ names nodes

/-- One more full definition needs a new name. -/
theorem nodup_names_snoc (nodes : List Node) {d : Definition} (hfull : d.isPartial = false) :
    (names (nodes ++ [.definition d])).Nodup ↔ (names nodes).Nodup ∧ d.name ∉ names nodes := by
  have hsnoc : names (nodes ++ [.definition d]) = names nodes ++ [d.name] := by simp [hfull]
  rw [hsnoc, List.nodup_append_comm, List.singleton_append, List.nodup_cons, and_comm]

/-- Nodes are consistent if the front is, and the last one violates nothing. -/
theorem consistent_snoc_iff {nodes : List Node} {node : Node} :
    Consistent (nodes ++ [node]) ↔ Consistent nodes ∧ ∀ e, ¬ node.Violates nodes e := by
  constructor
  · intro h
    have htypedefs := h.typedefs
    have hmains := h.mains
    refine ⟨⟨?_, ?_, ?_⟩, ?_⟩
    · rw [typedefs_snoc, List.map_append] at htypedefs
      exact (List.nodup_append.mp htypedefs).1
    · rw [names_snoc] at hmains
      exact (List.nodup_append.mp hmains).1
    · intro before d after hsplit
      exact h.partials before d (after ++ [node]) (by simp [hsplit])
    · rintro e (hold | ⟨hfull, hold⟩ | ⟨hpartial, hnew⟩)
      · exact ((nodup_typedefs_snoc ..).mp htypedefs).2 hold
      · exact ((nodup_names_snoc nodes hfull).mp hmains).2 hold
      · exact hnew (h.partials nodes _ [] rfl hpartial)
  · rintro ⟨h, hclean⟩
    refine ⟨?_, ?_, ?_⟩
    · cases node with
      | typedef name type =>
          refine (nodup_typedefs_snoc ..).mpr ⟨h.typedefs, fun hold => ?_⟩
          exact hclean _ (.duplicateTypedef hold)
      | _ => simpa using h.typedefs
    · cases node with
      | definition d =>
          cases hpartial : d.isPartial with
          | true => simpa [hpartial] using h.mains
          | false =>
              refine (nodup_names_snoc nodes hpartial).mpr ⟨h.mains, fun hold => ?_⟩
              exact hclean _ (.duplicateDefinition hpartial hold)
      | _ => simpa using h.mains
    · intro before d after hsplit hpartial
      rcases snoc_eq_append_cons_iff.mp hsplit with ⟨-, rfl, rfl⟩ | ⟨rest, -, hrest⟩
      · by_contra hnew
        exact hclean _ (.partialWithoutMain hpartial hnew)
      · exact h.partials before d rest hrest hpartial

/-- Nodes are consistent if none is at fault. -/
theorem faultless_iff {nodes : List Node} : Faultless Violates nodes ↔ Consistent nodes := by
  induction nodes using List.reverseRecOn with
  | nil =>
      refine iff_of_true faultless_nil ⟨List.nodup_nil, List.nodup_nil, ?_⟩
      intro before d after hsplit
      simp at hsplit
  | append_singleton nodes node ih => rw [faultless_snoc_iff, consistent_snoc_iff, ih]

end Node

/-- Every name that an intake mentions is defined if every name in the nodes is. -/
theorem Intake.Assembles.closed_iff {options : IngestOptions} {nodes : List Node}
    {intake : Intake} (h : Assembles options nodes intake) (hconsistent : Node.Consistent nodes) :
    intake.Closed ↔ Node.Admissible nodes := by
  constructor
  · intro hclosed
    refine { hconsistent with includes := ?_, parents := ?_ }
    · intro target mixin hedge
      rw [← h.names_eq]
      exact hclosed.edges (target, mixin) (h.edges ▸ Node.mem_edges_iff.mpr hedge)
    · intro d hd parent hparent
      have hmem : d.assembled options nodes ∈ intake.definitions :=
        h.assembled ▸ List.mem_map_of_mem hd
      exact h.names_eq ▸ hclosed.parents _ hmem parent hparent
  · intro hadmissible
    refine ⟨?_, ?_⟩
    · rintro ⟨target, mixin⟩ hedge
      rw [h.edges] at hedge
      rw [h.names_eq]
      exact hadmissible.includes target mixin (Node.mem_edges_iff.mp hedge)
    · intro d hd parent hparent
      rw [h.assembled] at hd
      obtain ⟨main, hmain, rfl⟩ := List.mem_map.mp hd
      exact h.names_eq ▸ hadmissible.parents main hmain parent hparent

/-- Nodes make a catalog if they are admissible, and only then. -/
theorem Node.admissible_iff (options : IngestOptions) (nodes : List Node) :
    (∃ c, Catalog.ofNodes options nodes = .ok c) ↔ Admissible nodes := by
  obtain ⟨-, hclean, hassembles⟩ := Intake.ofNodes_first options nodes
  rw [Node.faultless_iff] at hclean
  constructor
  · rintro ⟨c, hc⟩
    obtain ⟨intake, hintake, hclosed, -⟩ := Intake.catalog_ok_iff.mp hc
    exact ((hassembles intake hintake).closed_iff (hclean.mp ⟨intake, hintake⟩)).mp hclosed
  · intro hadmissible
    obtain ⟨intake, hintake⟩ := hclean.mpr hadmissible.toConsistent
    have hassembled := hassembles intake hintake
    have hclosed := (hassembled.closed_iff hadmissible.toConsistent).mpr hadmissible
    exact ⟨intake.finish, Intake.catalog_ok_iff.mpr ⟨intake, hintake, hclosed, rfl⟩⟩

/-! ## what a catalog holds -/

namespace Intake

variable {intake : Intake}

/-- What a definition is put in order by. -/
def sortKey (d : Definition) : String × String :=
  (Text.lowercase d.name, d.name)

instance transCmp_compareKeys : Std.TransCmp compareKeys :=
  Ordered.transCmp_key Ordered.comparePairs Prod.fst

/-- The definitions are sorted by their names in lower case, each once. -/
theorem sorted_increasing (intake : Intake) :
    Ordered.Increasing Ordered.comparePairs (intake.sorted.map sortKey) := by
  have hpairs : Ordered.Increasing compareKeys (Ordered.ofList compareKeys intake.keyed) :=
    Ordered.increasing_ofList intake.keyed
  have hkeys : intake.sorted.map sortKey = (Ordered.ofList compareKeys intake.keyed).map (·.1) := by
    rw [sorted_eq, List.map_map]
    refine List.map_congr_left fun pair hpair => ?_
    obtain ⟨d, -, rfl⟩ := List.mem_map.mp ((Ordered.subperm_ofList intake.keyed).subset hpair)
    rfl
  rw [hkeys]
  exact List.pairwise_map.mpr hpairs

/-- Putting the definitions in order changes nothing but their order. -/
theorem sorted_perm (hnodup : intake.names.Nodup) : intake.sorted.Perm intake.definitions := by
  refine (List.perm_ext_iff_of_nodup (nodup_names_sorted hnodup).of_map hnodup.of_map).mpr
    fun d => ⟨mem_of_mem_sorted, fun hd => ?_⟩
  rw [sorted_eq]
  have hpair : (sortKey d, d) ∈ Ordered.ofList compareKeys intake.keyed :=
    (Ordered.mem_ofList_iff Ordered.comparePairs Prod.fst (keyed_inj hnodup)).mpr
      (List.mem_map.mpr ⟨d, hd, rfl⟩)
  exact List.mem_map.mpr ⟨_, hpair, rfl⟩

/-- A definition includes what an edge says. -/
theorem mem_includedBy_iff {name mixin : String} :
    mixin ∈ intake.includedBy name ↔ (name, mixin) ∈ intake.edges := by
  have hordered : mixin ∈ intake.includedBy name ↔ mixin ∈ intake.edges.filterMap
      fun edge => if edge.1 == name then some edge.2 else none :=
    Ordered.mem_ofList_iff compare id fun _ _ _ _ hsame => hsame
  rw [hordered, List.mem_filterMap]
  constructor
  · rintro ⟨⟨source, target⟩, hedge, hselect⟩
    simp only [beq_iff_eq, Option.ite_none_right_eq_some, Option.some.injEq] at hselect
    obtain ⟨rfl, rfl⟩ := hselect
    exact hedge
  · intro hedge
    exact ⟨_, hedge, by simp⟩

/-- A finished catalog includes what was assembled. -/
theorem included_finish (hnodup : intake.names.Nodup) {name : String} (h : name ∈ intake.names) :
    intake.finish.included name = intake.includedBy name := by
  have hentry : (name, intake.includedBy name) ∈ intake.finish.includes := by
    obtain ⟨d, hd, rfl⟩ := List.mem_map.mp (mem_names_sorted_iff.mpr h)
    exact List.mem_map.mpr ⟨d, hd, rfl⟩
  have hkeys : (intake.finish.includes.map (·.1)).Nodup := by
    rw [finish, List.map_map]
    exact nodup_names_sorted hnodup
  rw [Catalog.included, (lookup_eq_some_iff_mem hkeys).mpr hentry, Option.getD_some]

/-- What a definition includes is in order, each once. -/
theorem included_increasing (hnodup : intake.names.Nodup) (name : String) :
    Ordered.Increasing compare (intake.finish.included name) := by
  by_cases h : name ∈ intake.names
  · rw [included_finish hnodup h]
    exact Ordered.increasing_ofList _
  · have hempty : intake.finish.included name = [] :=
      List.eq_nil_iff_forall_not_mem.mpr fun _ hmixin => h (edge_of_mem_included hmixin).1
    rw [hempty]
    exact List.Pairwise.nil

/-- In a finished catalog a definition includes what an edge says. -/
theorem mem_included_iff (hnodup : intake.names.Nodup) (hclosed : intake.Closed)
    {name mixin : String} :
    mixin ∈ intake.finish.included name ↔ (name, mixin) ∈ intake.edges := by
  constructor
  · exact fun h => (edge_of_mem_included h).2
  · intro hedge
    rw [included_finish hnodup (hclosed.edges _ hedge).1]
    exact mem_includedBy_iff.mpr hedge

/-- A finished catalog has the typedefs that were assembled. -/
theorem typedef?_finish_iff (hnodup : (intake.typedefs.map (·.1)).Nodup) {name : String}
    {type : IdlType} :
    intake.finish.typedef? name = some type ↔ (name, type) ∈ intake.typedefs := by
  have hordered : intake.finish.typedefs.Subperm intake.typedefs := Ordered.subperm_ofList _
  obtain ⟨part, hperm, hsub⟩ := hordered
  have hkeys : (intake.finish.typedefs.map (·.1)).Nodup :=
    (hperm.map (·.1)).nodup_iff.mp ((hsub.map (·.1)).nodup hnodup)
  rw [Catalog.typedef?, lookup_eq_some_iff_mem hkeys]
  exact Ordered.mem_ofList_iff compare Prod.fst
    fun _ ha _ hb => List.inj_on_of_nodup_map hnodup ha hb

end Intake

/-- What a catalog holds of the nodes that it was made of: the full definitions in order, each
with what was added to it, the typedefs, and for every definition its parent and the mixins it
includes, these in order and each once. -/
structure Catalog.Describes (options : IngestOptions) (nodes : List Node) (c : Catalog) :
    Prop where
  increasing : Ordered.Increasing Ordered.comparePairs (c.definitions.map Intake.sortKey)
  definitions : c.definitions.Perm ((Node.mains nodes).map (Definition.assembled options nodes))
  get? : ∀ name d, c.get? name = some d ↔
    ∃ main ∈ Node.mains nodes, main.name = name ∧ main.assembled options nodes = d
  typedef? : ∀ name type, c.typedef? name = some type ↔ .typedef name type ∈ nodes
  increasing_included : ∀ name, Ordered.Increasing compare (c.included name)
  included : ∀ name mixin, mixin ∈ c.included name ↔ .includes name mixin ∈ nodes
  mixins : ∀ d ∈ c.definitions, c.mixins d.name = d.parent.toList ++ c.included d.name

/-- A catalog that is made of nodes describes them. -/
theorem Catalog.describes_ofNodes {options : IngestOptions} {nodes : List Node} {c : Catalog}
    (h : Catalog.ofNodes options nodes = .ok c) : c.Describes options nodes := by
  have hc := Catalog.wellFormed_ofNodes h
  obtain ⟨intake, hintake, hclosed, rfl⟩ := Intake.catalog_ok_iff.mp h
  have hassembles := (Intake.ofNodes_first options nodes).2.2 intake hintake
  have hnodup := Intake.nodup_names_ofNodes hintake
  have hperm : intake.finish.definitions.Perm
      ((Node.mains nodes).map (Definition.assembled options nodes)) :=
    hassembles.assembled ▸ Intake.sorted_perm hnodup
  exact {
    increasing := intake.sorted_increasing
    definitions := hperm
    get? := by
      intro name d
      constructor
      · intro hd
        have hname := Catalog.name_of_get? hd
        obtain ⟨main, hmain, rfl⟩ := List.mem_map.mp (hperm.subset (Catalog.mem_of_get? hd))
        exact ⟨main, hmain, hname, rfl⟩
      · rintro ⟨main, hmain, rfl, rfl⟩
        exact hc.get?_of_mem (hperm.symm.subset (List.mem_map_of_mem hmain))
    typedef? := by
      intro name type
      have htypedefs : (intake.typedefs.map (·.1)).Nodup :=
        hassembles.typedefs ▸ hassembles.nodup_typedefs
      rw [Intake.typedef?_finish_iff htypedefs, hassembles.typedefs, Node.mem_typedefs_iff]
    increasing_included := Intake.included_increasing hnodup
    included := by
      intro name mixin
      rw [Intake.mem_included_iff hnodup hclosed, hassembles.edges, Node.mem_edges_iff]
    mixins := by
      intro d hd
      rw [Catalog.mixins, Catalog.parents, hc.get?_of_mem hd] }

/-- **A catalog means its nodes.**  Nodes make a catalog exactly if no name is given twice, no
partial definition comes before its full one, and no name is mentioned that is not defined; the
catalog holds what the nodes add up to, and nodes that make none are refused with the first
fault. -/
theorem Catalog.catalog_means_its_nodes (options : IngestOptions) (nodes : List Node) :
    ((∃ c, Catalog.ofNodes options nodes = .ok c) ↔ Node.Admissible nodes) ∧
    (∀ c, Catalog.ofNodes options nodes = .ok c → c.Describes options nodes) ∧
    ∀ e, Catalog.ofNodes options nodes = .error e ↔ Node.Refused nodes e :=
  ⟨Node.admissible_iff options nodes, fun _ h => Catalog.describes_ofNodes h,
    Node.refused_iff options nodes⟩

open Registry (attributeNamed)

/-- An attribute that a comment marks as legacy. -/
def legacyAttribute (name : String) : Member :=
  { attributeNamed name "long" .none with comments := [legacyMarker] }

/-- A definition in three parts, one of its members a legacy one, that includes a mixin which
is named twice and comes last. -/
def partedNodes : List Node :=
  [.includes "beta" "Tail",
   .definition {
      name := "beta", kind := .interface, parent := some "Alpha",
      members := [attributeNamed "first" "long" .none, legacyAttribute "old"] },
   .definition {
      name := "Alpha", kind := .interface, members := [] },
   .definition {
      name := "beta", kind := .interface, isPartial := true,
      members := [attributeNamed "second" "long" .none] },
   .includes "beta" "Tail",
   .definition {
      name := "Tail", kind := .mixin, members := [] },
   .definition {
      name := "beta", kind := .interface, isPartial := true,
      members := [attributeNamed "third" "long" .none] }]

/-- The parts are put together in order and without the legacy member; a part that comes first
is refused. -/
theorem Catalog.parts_are_put_together :
    (∃ c, Catalog.ofNodes { dropLegacy := true } partedNodes = .ok c ∧
      c.Describes { dropLegacy := true } partedNodes ∧
      c.definitions.map (fun d => (d.name, d.members.filterMap Member.name?)) =
        [("Alpha", []), ("beta", ["first", "second", "third"]), ("Tail", [])] ∧
      c.mixins "beta" = ["Alpha", "Tail"]) ∧
    Node.Refused (partedNodes.drop 3) (.partialWithoutMain "beta") := by
  have hbuild : (Catalog.ofNodes { dropLegacy := true } partedNodes).toOption.map
      (fun c => (c.definitions.map (fun d => (d.name, d.members.filterMap Member.name?)),
        c.mixins "beta")) =
      some ([("Alpha", []), ("beta", ["first", "second", "third"]), ("Tail", [])],
        ["Alpha", "Tail"]) := by
    decide +kernel
  obtain ⟨c, hc, hholds⟩ := ok_of_toOption_map hbuild
  obtain ⟨-, hdescribes, -⟩ := catalog_means_its_nodes { dropLegacy := true } partedNodes
  obtain ⟨-, -, hrefused⟩ := catalog_means_its_nodes {} (partedNodes.drop 3)
  refine ⟨⟨c, hc, hdescribes c hc, ?_, ?_⟩, (hrefused _).mp ?_⟩
  · exact (Prod.ext_iff.mp hholds).1
  · exact (Prod.ext_iff.mp hholds).2
  · rfl

end WebIdl
