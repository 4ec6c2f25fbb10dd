import WebIdl.Proofs.Assembly
import WebIdl.Proofs.Surface

/-!
# WebIdl.Proofs.Preorder

The order of a surface.

`DepthFirst` says which names are met, and in which order, by following every name before the
names behind it, without a stack that mixes both and without a bound on the steps.  From a
start there is at most one such order (`DepthFirst.unique`), and a walk takes it
(`depthFirst_visit`): what the walk puts in front of its stack is what the relation goes
through first (`DepthFirst.append_iff`).  Hence

* `surface_follows_includes`: a surface is the members of the definition and then those of
  every mixin that it includes, directly or not, each mixin once and in depth-first order.
-/

namespace WebIdl

open Relation

/-! ## depth-first orders -/

section

variable {next : String → List String} {met met' middle front back names : List String}

/-- Meeting the names of a list depth first, each followed by what it leads to: `met` are the
names met before and `met'` those met after, in the order they are met. -/
inductive DepthFirst (next : String → List String) :
    (met names met' : List String) → Prop where
  | done {met : List String} : DepthFirst next met [] met
  | again {name : String} {met names met' : List String} (hmet : name ∈ met)
      (hrest : DepthFirst next met names met') : DepthFirst next met (name :: names) met'
  | meet {name : String} {met names below met' : List String} (hfresh : name ∉ met)
      (hbelow : DepthFirst next (met ++ [name]) (next name) below)
      (hrest : DepthFirst next below names met') : DepthFirst next met (name :: names) met'

namespace DepthFirst

/-- There is one way to go depth first. -/
theorem unique (h : DepthFirst next met names met') {other : List String}
    (hother : DepthFirst next met names other) : other = met' := by
  induction h generalizing other with
  | done =>
      cases hother
      rfl
  | again hmet _ ih =>
      cases hother with
      | again _ hother => exact ih hother
      | meet hfresh => exact absurd hmet hfresh
  | meet hfresh _ _ ihbelow ihrest =>
      cases hother with
      | again hmet => exact absurd hmet hfresh
      | meet _ hbelow hother =>
          have hsame := ihbelow hbelow
          subst hsame
          exact ihrest hother

/-- Going through a list in two parts. -/
theorem append_iff : DepthFirst next met (front ++ back) met' ↔
    ∃ middle, DepthFirst next met front middle ∧ DepthFirst next middle back met' := by
  constructor
  · intro h
    induction front generalizing met with
    | nil => exact ⟨met, .done, h⟩
    | cons name front ih =>
        cases h with
        | again hmet hrest =>
            obtain ⟨middle, hfront, hback⟩ := ih hrest
            exact ⟨middle, .again hmet hfront, hback⟩
        | meet hfresh hbelow hrest =>
            obtain ⟨middle, hfront, hback⟩ := ih hrest
            exact ⟨middle, .meet hfresh hbelow hfront, hback⟩
  · rintro ⟨middle, hfront, hback⟩
    induction hfront with
    | done => exact hback
    | again hmet _ ih => exact .again hmet (ih hback)
    | meet hfresh hbelow _ _ ih => exact .meet hfresh hbelow (ih hback)

/-- Names that were all met lead nowhere. -/
theorem of_subset (h : ∀ name ∈ names, name ∈ met) : DepthFirst next met names met := by
  induction names with
  | nil => exact .done
  | cons name names ih =>
      rw [List.forall_mem_cons] at h
      exact .again h.1 (ih h.2)

end DepthFirst

/-- A walk goes depth first, if it may take enough steps and nothing is unknown. -/
theorem depthFirst_visit {known : String → Bool} {all : List String} {steps : Nat}
    {seen stack : List String} (hall : ∀ name, known name = true → name ∈ all)
    (hnext : ∀ name, ∀ other ∈ next name, known other = true)
    (hsteps : unseen all seen ≤ steps) (hstack : ∀ name ∈ stack, known name = true)
    (hseen : ∀ name, name ∈ seen ↔ name ∈ met) :
    DepthFirst next met stack (met ++ visit known next steps seen stack) := by
  fun_induction visit known next steps seen stack generalizing met with
  | case1 seen stack =>
      rw [List.append_nil]
      refine .of_subset fun name hname => (hseen name).mp ?_
      exact mem_seen_of_unseen_eq_zero (Nat.le_zero.mp hsteps) (hall name (hstack name hname))
  | case2 steps seen stack hdrop =>
      rw [List.append_nil]
      refine .of_subset fun name hname => (hseen name).mp ?_
      have hpassed := List.dropWhile_eq_nil_iff.mp hdrop name hname
      simpa [hstack name hname] using hpassed
  | case3 steps seen stack first rest hdrop ih =>
      obtain ⟨hfirst, -, hrest, -⟩ := of_dropWhile_eq_cons hdrop
      simp only [Bool.or_eq_false_iff, Bool.not_eq_false'] at hfirst
      obtain ⟨hnew, hknown⟩ := hfirst
      have hless := unseen_cons_lt (hall first hknown) hnew
      -- the names in front of `first` were met, so the walk may start there
      have hpassed : ∀ name ∈ stack.takeWhile fun name => seen.contains name || !known name,
          name ∈ met := by
        intro name hname
        have hskip := List.mem_takeWhile_imp hname
        have hmem := (List.takeWhile_prefix _).subset hname
        exact (hseen name).mp (by simpa [hstack name hmem] using hskip)
      have hstack' : ∀ name ∈ next first ++ rest, known name = true := by
        intro name hname
        rcases List.mem_append.mp hname with hname | hname
        · exact hnext first name hname
        · exact hstack name (hrest name hname)
      have hseen' : ∀ name, name ∈ first :: seen ↔ name ∈ met ++ [first] := by
        intro name
        simp [hseen name, or_comm]
      have hbelow := ih (by omega) hstack' hseen'
      obtain ⟨middle, hbelow, hafter⟩ := DepthFirst.append_iff.mp hbelow
      have hfresh : first ∉ met := by
        rw [← hseen]
        simpa using hnew
      rw [← List.takeWhile_append_dropWhile (p := fun name => seen.contains name || !known name)
        (l := stack), hdrop]
      refine DepthFirst.append_iff.mpr ⟨met, .of_subset hpassed, .meet hfresh hbelow ?_⟩
      simpa using hafter

end

/-! ## the order of a surface -/

namespace Catalog

variable {c : Catalog}

/-- The names on a surface are in depth-first order. -/
theorem WellFormed.depthFirst_owners (hc : c.WellFormed) (d : Definition) :
    DepthFirst c.included [] [d.name] ((c.owners d).map (·.name)) := by
  have hwalk : DepthFirst c.included [d.name] (c.included d.name)
      ([d.name] ++ c.walk c.included [d.name] (c.included d.name)) := by
    refine depthFirst_visit (fun _ => mem_names_of_known) ?_ (unseen_names_le c [d.name]) ?_
      fun _ => Iff.rfl
    · exact fun name mixin hmixin => hc.target_known (edge_included hmixin)
    · exact fun mixin hmixin => hc.target_known (edge_included hmixin)
  rw [names_owners]
  exact .meet List.not_mem_nil hwalk .done

/-- **A surface has every mixin once.**  The surface of a definition is its own members and then
the members of the definitions that it includes, directly or not: all of them, itself left out
and none twice, in the depth-first order that follows the sorted lists of includes. -/
theorem surface_follows_includes {options : IngestOptions} {nodes : List Node} {c : Catalog}
    (h : Catalog.ofNodes options nodes = .ok c) {d : Definition} (hd : d ∈ c.definitions) :
    ∃ mixins : List Definition,
      c.surface d = d.ownMembers ++ mixins.flatMap Definition.ownMembers ∧
      ((d :: mixins).map (·.name)).Nodup ∧
      (∀ m, m ∈ mixins ↔ m ∈ c.definitions ∧ m ≠ d ∧ c.Includes d.name m.name) ∧
      (∀ met, DepthFirst c.included [] [d.name] met ↔ met = (d :: mixins).map (·.name)) ∧
      ∀ name, (c.included name).Pairwise (· < ·) := by
  have hc := wellFormed_ofNodes h
  refine ⟨c.definitionsOf (c.walk c.included [d.name] (c.included d.name)), rfl,
    nodup_owners c d, ?_, ?_, ?_⟩
  · intro m
    rw [mem_definitionsOf, hc.mem_walk_included_iff]
    constructor
    · rintro ⟨⟨hne, hincludes⟩, hm⟩
      exact ⟨mem_of_get? hm, fun hsame => hne (hsame ▸ rfl), hincludes⟩
    · rintro ⟨hm, hne, hincludes⟩
      refine ⟨⟨fun hsame => hne ?_, hincludes⟩, hc.get?_of_mem hm⟩
      have hget := hc.get?_of_mem hm
      rw [hsame, hc.get?_of_mem hd, Option.some.injEq] at hget
      exact hget.symm
  · intro met
    have horder := hc.depthFirst_owners d
    exact ⟨horder.unique, fun hsame => hsame ▸ horder⟩
  · intro name
    refine ((describes_ofNodes h).increasing_included name).imp fun hless => ?_
    exact compare_lt_iff_lt.mp hless

open Registry (attributeNamed)

/-- A definition that includes two mixins, which include a third; the third includes the first
and the definition itself. -/
def ringNodes : List Node :=
  [.definition {
      name := "Base", kind := .interface, members := [attributeNamed "old" "long" .none] },
   .definition {
      name := "Root", kind := .interface, parent := some "Base",
      members := [attributeNamed "top" "long" .none, attributeNamed "end" "long" .none] },
   .definition {
      name := "Left", kind := .mixin, members := [attributeNamed "left" "long" .none] },
   .definition {
      name := "Right", kind := .mixin, members := [attributeNamed "right" "long" .none] },
   .definition {
      name := "Deep", kind := .mixin, members := [attributeNamed "deep" "long" .none] },
   .includes "Root" "Right", .includes "Root" "Left", .includes "Right" "Deep",
   .includes "Left" "Deep", .includes "Deep" "Left", .includes "Deep" "Root"]

/-- Every mixin of the ring has its turn once, the parent has none. -/
theorem ring_has_every_mixin_once :
    ∃ c d mixins, Catalog.ofNodes {} ringNodes = .ok c ∧ d ∈ c.definitions ∧
      c.Includes d.name d.name ∧
      c.surface d = d.ownMembers ++ mixins.flatMap Definition.ownMembers ∧
      (c.surface d).filterMap (·.member.name?) = ["top", "end", "left", "deep", "right"] ∧
      (d :: mixins).map (·.name) = ["Root", "Left", "Deep", "Right"] := by
  have hbuild : (Catalog.ofNodes {} ringNodes).toOption.map (fun c =>
      ((c.get? "Root").map fun d => (c.surface d).filterMap (·.member.name?),
        c.included "Root", c.included "Left", c.included "Right", c.included "Deep")) =
      some (some ["top", "end", "left", "deep", "right"],
        ["Left", "Right"], ["Deep"], ["Deep"], ["Left", "Root"]) := by
    decide +kernel
  obtain ⟨c, hc, hfacts⟩ := ok_of_toOption_map hbuild
  simp only [Prod.mk.injEq, Option.map_eq_some_iff] at hfacts
  obtain ⟨⟨d, hd, hmembers⟩, hroot, hleft, hright, hdeep⟩ := hfacts
  have hname := name_of_get? hd
  obtain ⟨mixins, hsurface, -, -, horder, -⟩ := surface_follows_includes hc (mem_of_get? hd)
  have hring : c.Includes "Root" "Root" := by
    have h₁ : "Left" ∈ c.included "Root" := hroot ▸ by decide
    have h₂ : "Deep" ∈ c.included "Left" := hleft ▸ by decide
    have h₃ : "Root" ∈ c.included "Deep" := hdeep ▸ by decide
    exact ((TransGen.single h₁).tail h₂).tail h₃
  -- below "Left" only "Deep" is new, which was met when "Right" leads there again
  have hmet : DepthFirst c.included [] ["Root"] ["Root", "Left", "Deep", "Right"] := by
    refine .meet (by decide) ?_ .done
    rw [hroot]
    have hbelow : DepthFirst c.included ["Root", "Left"] (c.included "Left")
        ["Root", "Left", "Deep"] := by
      rw [hleft]
      refine .meet (by decide) ?_ .done
      rw [hdeep]
      exact .of_subset (by decide)
    refine .meet (by decide) hbelow (.meet (by decide) ?_ .done)
    rw [hright]
    exact .of_subset (by decide)
  rw [← hname] at hring hmet
  exact ⟨c, d, mixins, hc, mem_of_get? hd, hring, hsurface, hmembers,
    hname ▸ ((horder _).mp hmet).symm⟩

end Catalog

end WebIdl
