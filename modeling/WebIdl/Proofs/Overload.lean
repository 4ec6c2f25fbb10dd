import WebIdl.Code.Overload
import Mathlib.Data.List.DropRight
import Mathlib.Data.List.Nodup

/-!
# WebIdl.Proofs.Overload

The one method for all overloads of an operation.

A merged parameter is described by the parameters that the overloads have at its position
(`Merges`), and there is one for every position that some overload has
(`merges_mergeOverloads`, `length_params_mergeOverloads`).  Nothing after these two opens
the merging itself:

* `merged_takes_every_call`: whatever number of arguments an overload accepts, the merged
  method takes as well, and no type gets narrower;
* `merged_shape_iff`: parameters that have to be given stay in front, while variadic ones
  stay last only if their overloads are as long as any;
* `merged_names_distinct_iff`: a position is named by the first overload that has it, so
  names meet where a longer overload further back uses one of them again.
-/

namespace WebIdl.Code

/-! ## parameters and calls -/

/-- Whether every call has to give the parameter. -/
def Param.isRequired (param : Param) : Bool :=
  param.default.isNone && !param.variadic

/-- Nothing follows a variadic parameter. -/
def VariadicLast (params : List Param) : Prop :=
  params.Pairwise fun earlier _ => earlier.variadic = false

/-- No parameter that has to be given follows one with a default. -/
def RequiredFirst (params : List Param) : Prop :=
  params.Pairwise fun earlier later =>
    earlier.default.isSome = true → later.isRequired = false

instance (params : List Param) : Decidable (VariadicLast params) :=
  inferInstanceAs (Decidable (params.Pairwise _))

instance (params : List Param) : Decidable (RequiredFirst params) :=
  inferInstanceAs (Decidable (params.Pairwise _))

/-- How many parameters stand in front of the first that may be left out. -/
def leadingCount (params : List Param) : Nat :=
  (params.takeWhile (·.isRequired)).length

/-- How many parameters there are up to the last that has to be given. -/
def neededCount (params : List Param) : Nat :=
  (params.rdropWhile fun param => !param.isRequired).length

/-- Whether the last parameter is variadic. -/
def endsVariadic (params : List Param) : Bool :=
  params.getLast?.any (·.variadic)

/-- The numbers of arguments of an overload, whose parameters stand in order. -/
def MethodSig.Accepts (sig : MethodSig) (count : Nat) : Prop :=
  leadingCount sig.params ≤ count ∧
    (count ≤ sig.params.length ∨ endsVariadic sig.params = true)

/-- The numbers of arguments of a method, in whatever order its parameters stand. -/
def MethodSig.Takes (sig : MethodSig) (count : Nat) : Prop :=
  neededCount sig.params ≤ count ∧
    (count ≤ sig.params.length ∨ sig.params.any (·.variadic) = true)

instance (sig : MethodSig) (count : Nat) : Decidable (sig.Accepts count) :=
  inferInstanceAs (Decidable (_ ∧ _))

instance (sig : MethodSig) (count : Nat) : Decidable (sig.Takes count) :=
  inferInstanceAs (Decidable (_ ∧ _))

/-- A count is enough if it reaches past every parameter that has to be given. -/
theorem neededCount_le {params : List Param} {count : Nat}
    (h : ∀ (position : Nat) (param : Param), params[position]? = some param →
      param.isRequired = true → position < count) : neededCount params ≤ count := by
  rw [neededCount]
  induction params using List.reverseRecOn with
  | nil => simp
  | append_singleton params last ih =>
      by_cases hlast : last.isRequired = true
      · have hreach := h params.length last List.getElem?_concat_length hlast
        rw [List.rdropWhile_concat_neg _ _ _ (by simp [hlast]), List.length_append]
        exact hreach
      · rw [List.rdropWhile_concat_pos _ _ _ (by simpa using hlast)]
        refine ih fun position param hparam => h position param ?_
        exact List.getElem?_append_left (List.getElem?_eq_some_iff.mp hparam).1 ▸ hparam

theorem endsVariadic_iff {params : List Param} : endsVariadic params = true ↔
    ∃ position last, position + 1 = params.length ∧ params[position]? = some last ∧
      last.variadic = true := by
  rw [endsVariadic, Option.any_eq_true, List.getLast?_eq_getElem?]
  constructor
  · rintro ⟨last, hlast, hvariadic⟩
    have hlt := (List.getElem?_eq_some_iff.mp hlast).1
    exact ⟨params.length - 1, last, by omega, hlast, hvariadic⟩
  · rintro ⟨position, last, hposition, hlast, hvariadic⟩
    have hsame : params.length - 1 = position := by omega
    exact ⟨last, hsame ▸ hlast, hvariadic⟩

section Order

variable {params : List Param} (hlast : VariadicLast params) (hfirst : RequiredFirst params)

include hlast in
/-- A variadic parameter is at the end. -/
theorem VariadicLast.eq_length {position : Nat} {param : Param}
    (hparam : params[position]? = some param) (hvariadic : param.variadic = true) :
    position + 1 = params.length := by
  obtain ⟨hlt, hget⟩ := List.getElem?_eq_some_iff.mp hparam
  by_contra hne
  have hlater := List.pairwise_iff_getElem.mp hlast position (position + 1) hlt (by omega)
    (by omega)
  rw [hget, hvariadic] at hlater
  cases hlater

include hlast hfirst

/-- In front of a parameter that has to be given every parameter has to be. -/
theorem isRequired_of_lt {earlier later : Nat} {a b : Param} (hlt : earlier < later)
    (ha : params[earlier]? = some a) (hb : params[later]? = some b)
    (hrequired : b.isRequired = true) : a.isRequired = true := by
  obtain ⟨hi, rfl⟩ := List.getElem?_eq_some_iff.mp ha
  obtain ⟨hj, rfl⟩ := List.getElem?_eq_some_iff.mp hb
  have hvariadic := List.pairwise_iff_getElem.mp hlast earlier later hi hj hlt
  have hdefault := List.pairwise_iff_getElem.mp hfirst earlier later hi hj hlt
  have hnone : params[earlier].default = none := by
    by_contra hsome
    rw [hdefault (Option.isSome_iff_ne_none.mpr hsome)] at hrequired
    cases hrequired
  simp [Param.isRequired, hnone, hvariadic]

/-- All parameters that have to be given are in front. -/
theorem lt_leadingCount {position : Nat} {param : Param}
    (hparam : params[position]? = some param) (hrequired : param.isRequired = true) :
    position < leadingCount params := by
  induction params generalizing position with
  | nil => simp at hparam
  | cons first rest ih =>
      have hhead : first.isRequired = true := by
        cases position with
        | zero =>
            rw [List.getElem?_cons_zero, Option.some.injEq] at hparam
            rw [hparam]
            exact hrequired
        | succ position =>
            exact isRequired_of_lt hlast hfirst position.succ_pos List.getElem?_cons_zero
              hparam hrequired
      rw [leadingCount, List.takeWhile_cons_of_pos hhead, List.length_cons]
      cases position with
      | zero => exact Nat.succ_pos _
      | succ position =>
          rw [List.getElem?_cons_succ] at hparam
          exact Nat.succ_lt_succ (ih hlast.of_cons hfirst.of_cons hparam)

end Order

/-! ## one position -/

/-- A signature type that takes at least what another one takes. -/
def Widens (binding wider : String) : Prop :=
  wider = binding ∨ wider = nullableBinding binding ∨ wider = "mixed"

/-- What a merged parameter has of those at its position; `everywhere` tells whether all
overloads have one. -/
structure Merges (present : List Param) (everywhere : Bool) (param : Param) : Prop where
  name : present.head?.map (·.name) = some param.name
  variadic : param.variadic = present.any (·.variadic)
  isRequired : param.isRequired = (everywhere && present.all (·.isRequired))
  binding : ∀ other ∈ present, Widens other.type.binding param.type.binding

/-- A parameter alone stays as it is. -/
theorem merges_self (param : Param) : Merges [param] true param where
  name := rfl
  variadic := by simp
  isRequired := by simp
  binding := by simp [Widens]

theorem widen_eq_or {bindings : List String} {binding : String} (h : binding ∈ bindings) :
    widen bindings = binding ∨ widen bindings = "mixed" := by
  cases bindings with
  | nil => cases h
  | cons first rest =>
      rw [widen]
      split
      · rename_i hall
        rw [List.all_eq_true] at hall
        cases h with
        | head => exact Or.inl rfl
        | tail _ h => exact Or.inl (beq_iff_eq.mp (hall binding h)).symm
      · exact Or.inr rfl

theorem nullableBinding_mixed : nullableBinding "mixed" = "mixed" := by
  simp [nullableBinding]

theorem Widens.nullable {binding wider : String} (h : wider = binding ∨ wider = "mixed") :
    Widens binding (nullableBinding wider) := by
  rcases h with rfl | rfl
  · exact Or.inr (Or.inl rfl)
  · exact Or.inr (Or.inr nullableBinding_mixed)

/-- A default widens the type if it is null and leaves it alone otherwise. -/
theorem Widens.withDefault {binding : String} {param : Param} (default : String)
    (h : param.type.binding = binding ∨ param.type.binding = "mixed") :
    Widens binding (param.withDefault default).type.binding := by
  rw [Param.withDefault]
  split
  · exact Widens.nullable h
  · exact h.imp id Or.inr

/-- Parameters all have to be given if none has a default and none is variadic. -/
theorem all_isRequired (params : List Param) : params.all (·.isRequired) =
    (!params.any (·.default.isSome) && !params.any (·.variadic)) := by
  induction params with
  | nil => rfl
  | cons param params ih =>
      rw [List.all_cons, List.any_cons, List.any_cons, ih, Param.isRequired]
      cases param.default <;> cases param.variadic <;> simp

/-- Merging the parameters at one position. -/
theorem merges_mergeParams (everywhere : Bool) (head : Param) (rest : List Param) :
    Merges (head :: rest) everywhere (mergeParams everywhere head (head :: rest)) := by
  have hwiden : ∀ other ∈ head :: rest,
      widen ((head :: rest).map (·.type.binding)) = other.type.binding ∨
        widen ((head :: rest).map (·.type.binding)) = "mixed" := fun other hother =>
    widen_eq_or (List.mem_map_of_mem (f := fun param : Param => param.type.binding) hother)
  have hrequired := all_isRequired (head :: rest)
  have hhead : (head :: rest).head?.map (·.name) = some head.name := rfl
  generalize head :: rest = present at *
  rw [mergeParams]
  cases hvariadic : present.any (·.variadic) with
  | true =>
      simp only [hvariadic, Bool.not_true, Bool.and_false] at hrequired
      exact ⟨hhead, hvariadic.symm, by rw [hrequired]; simp [Param.isRequired],
        fun other hother => (hwiden other hother).imp id Or.inr⟩
  | false =>
      simp only [Bool.false_eq_true, ↓reduceIte]
      cases everywhere with
      | false =>
          exact ⟨hhead, hvariadic.symm, by simp [Param.isRequired, Param.withDefault],
            fun other hother => Widens.withDefault "null" (hwiden other hother)⟩
      | true =>
          cases hdefault : present.any (·.default.isSome) with
          | true =>
              simp only [hdefault, Bool.not_true, Bool.false_and] at hrequired
              exact ⟨hhead, hvariadic.symm,
                by rw [hrequired]; simp [Param.isRequired, Param.withDefault],
                fun other hother => Widens.withDefault _ (hwiden other hother)⟩
          | false =>
              simp only [hdefault, hvariadic, Bool.not_false, Bool.and_true] at hrequired
              exact ⟨hhead, hvariadic.symm, by rw [hrequired]; rfl,
                fun other hother => (hwiden other hother).imp id Or.inr⟩

/-! ## all positions -/

variable {name : String} {overloads : List MethodSig} {position : Nat} {param : Param}

/-- A position is in use if some overload has it. -/
theorem lt_width_iff :
    position < width overloads ↔ ∃ sig ∈ overloads, position < sig.params.length := by
  rw [width]
  suffices hfold : ∀ most, position < overloads.foldl (fun most sig => max most sig.params.length)
      most ↔ position < most ∨ ∃ sig ∈ overloads, position < sig.params.length by
    simpa using hfold 0
  induction overloads with
  | nil => simp
  | cons sig overloads ih =>
      intro most
      have hmax : position < max most sig.params.length ↔
          position < most ∨ position < sig.params.length := by omega
      rw [List.foldl_cons, ih, hmax, or_assoc]
      simp

theorem length_le_width {sig : MethodSig} (h : sig ∈ overloads) :
    sig.params.length ≤ width overloads := by
  by_contra hlt
  have hself := lt_width_iff.mpr ⟨sig, h, Nat.lt_of_not_le hlt⟩
  omega

theorem mem_paramsAt :
    param ∈ paramsAt overloads position ↔ ∃ sig ∈ overloads, sig.params[position]? = some param :=
  List.mem_filterMap

/-- Merging passes over no position in use. -/
theorem map_some_mergedParams (overloads : List MethodSig) :
    (mergedParams overloads).map some = (List.range (width overloads)).map fun position =>
      (paramsAt overloads position).head?.map fun head =>
        mergeParams ((paramsAt overloads position).length == overloads.length) head
          (paramsAt overloads position) := by
  rw [mergedParams, List.map_filterMap_some_eq_filter_map_isSome, List.filter_eq_self]
  intro found hfound
  obtain ⟨position, hposition, rfl⟩ := List.mem_map.mp hfound
  obtain ⟨sig, hsig, hlt⟩ := lt_width_iff.mp (List.mem_range.mp hposition)
  rw [Option.isSome_map, paramsAt, List.head?_filterMap, List.findSome?_isSome_iff]
  exact ⟨sig, hsig, by simpa using hlt⟩

/-- A merged method has as many parameters as the longest overload. -/
theorem length_params_mergeOverloads (name : String) (overloads : List MethodSig) :
    (mergeOverloads name overloads).params.length = width overloads := by
  match overloads with
  | [] => rfl
  | [only] => simp [mergeOverloads, width]
  | first :: second :: rest =>
      have hlength := congrArg List.length (map_some_mergedParams (first :: second :: rest))
      simpa [mergeOverloads] using hlength

/-- Every parameter of a merged method is made of those at its position. -/
theorem merges_mergeOverloads (h : (mergeOverloads name overloads).params[position]? = some param) :
    Merges (paramsAt overloads position)
      ((paramsAt overloads position).length == overloads.length) param := by
  match overloads with
  | [] => simp [mergeOverloads] at h
  | [only] =>
      have hat : paramsAt [only] position = [param] := List.filterMap_cons_some h
      rw [hat]
      exact merges_self param
  | first :: second :: rest =>
      have hlt := (List.getElem?_eq_some_iff.mp h).1
      rw [length_params_mergeOverloads] at hlt
      generalize hall : first :: second :: rest = overloads at *
      have hparams : (mergedParams overloads)[position]? = some param := by
        rw [← hall] at h ⊢
        exact h
      have hmap := congrArg (·[position]?) (map_some_mergedParams overloads)
      simp only [List.getElem?_map, List.getElem?_range hlt, hparams, Option.map_some,
        Option.some.injEq] at hmap
      cases hpresent : paramsAt overloads position with
      | nil => simp [hpresent] at hmap
      | cons head present =>
          rw [hpresent, List.head?_cons, Option.map_some, Option.some.injEq] at hmap
          rw [hmap]
          exact merges_mergeParams _ head present

/-- A merged method has every position of every overload. -/
theorem exists_merged (name : String) {sig : MethodSig} (hsig : sig ∈ overloads)
    (hlt : position < sig.params.length) :
    ∃ merged, (mergeOverloads name overloads).params[position]? = some merged := by
  refine ⟨_, List.getElem?_eq_getElem ?_⟩
  rw [length_params_mergeOverloads]
  exact lt_width_iff.mpr ⟨sig, hsig, hlt⟩

/-- A merged parameter has to be given if all overloads have one there that has to be. -/
theorem isRequired_merged_iff
    (h : (mergeOverloads name overloads).params[position]? = some param) :
    param.isRequired = true ↔ ∀ sig ∈ overloads,
      ∃ own, sig.params[position]? = some own ∧ own.isRequired = true := by
  have hmerges := merges_mergeOverloads h
  rw [hmerges.isRequired, Bool.and_eq_true, beq_iff_eq, List.all_eq_true, paramsAt,
    List.filterMap_length_eq_length]
  constructor
  · rintro ⟨heverywhere, hall⟩ sig hsig
    obtain ⟨own, hown⟩ := Option.isSome_iff_exists.mp (heverywhere sig hsig)
    exact ⟨own, hown, hall own (mem_paramsAt.mpr ⟨sig, hsig, hown⟩)⟩
  · intro hall
    constructor
    · intro sig hsig
      obtain ⟨own, hown, -⟩ := hall sig hsig
      rw [hown]
      rfl
    · intro own hown
      obtain ⟨sig, hsig, hat⟩ := mem_paramsAt.mp hown
      obtain ⟨own', hown', hrequired⟩ := hall sig hsig
      rw [hat, Option.some.injEq] at hown'
      exact hown' ▸ hrequired

/-- A merged parameter is variadic if some overload has a variadic one there. -/
theorem variadic_merged_iff
    (h : (mergeOverloads name overloads).params[position]? = some param) :
    param.variadic = true ↔ ∃ sig ∈ overloads,
      ∃ own, sig.params[position]? = some own ∧ own.variadic = true := by
  rw [(merges_mergeOverloads h).variadic, List.any_eq_true]
  constructor
  · rintro ⟨own, hown, hvariadic⟩
    obtain ⟨sig, hsig, hat⟩ := mem_paramsAt.mp hown
    exact ⟨sig, hsig, own, hat, hvariadic⟩
  · rintro ⟨sig, hsig, own, hat, hvariadic⟩
    exact ⟨own, mem_paramsAt.mpr ⟨sig, hsig, hat⟩, hvariadic⟩

/-! ## calls -/

/-- Whatever an overload accepts, the merged method takes. -/
theorem takes_of_accepts {sig : MethodSig} (hsig : sig ∈ overloads)
    (hlast : VariadicLast sig.params) (hfirst : RequiredFirst sig.params) {count : Nat}
    (h : sig.Accepts count) : (mergeOverloads name overloads).Takes count := by
  obtain ⟨henough, hmost⟩ := h
  constructor
  · -- where the merged method needs an argument, so does the overload
    refine neededCount_le fun position merged hmerged hrequired => ?_
    obtain ⟨own, hown, hrequired'⟩ := (isRequired_merged_iff hmerged).mp hrequired sig hsig
    exact (lt_leadingCount hlast hfirst hown hrequired').trans_le henough
  · rcases hmost with hmost | hmost
    · left
      rw [length_params_mergeOverloads]
      exact hmost.trans (length_le_width hsig)
    · right
      obtain ⟨position, last, hposition, hlast, hvariadic⟩ := endsVariadic_iff.mp hmost
      have hlt : position < sig.params.length := by omega
      obtain ⟨merged, hmerged⟩ := exists_merged name hsig hlt
      refine List.any_eq_true.mpr ⟨merged, List.mem_of_getElem? hmerged, ?_⟩
      exact (variadic_merged_iff hmerged).mpr ⟨sig, hsig, last, hlast, hvariadic⟩

/-- The result that merging makes is the common one or `mixed`. -/
theorem binding_mergedResult (overloads : List MethodSig) : (mergedResult overloads).binding =
    widen ((overloads.filterMap (·.result)).map (·.binding)) := by
  rw [mergedResult]
  split
  · rename_i hvoid
    exact (beq_iff_eq.mp hvoid).symm
  · rfl

/-- The result of a merged method, if all overloads have one or none has. -/
theorem binding_mergeOverloads
    (h : (∀ sig ∈ overloads, sig.result.isSome = true) ∨ ∀ sig ∈ overloads, sig.result = none)
    {sig : MethodSig} (hsig : sig ∈ overloads) :
    (mergeOverloads name overloads).result.map (·.binding) = sig.result.map (·.binding) ∨
      (mergeOverloads name overloads).result.map (·.binding) = some "mixed" := by
  match overloads with
  | [only] =>
      rw [List.mem_singleton.mp hsig]
      exact Or.inl rfl
  | first :: second :: rest =>
      change (first.result.map fun _ => mergedResult (first :: second :: rest)).map _ = _ ∨
        (first.result.map fun _ => mergedResult (first :: second :: rest)).map _ = _
      have hfirst : first ∈ first :: second :: rest := List.mem_cons_self
      generalize first :: second :: rest = overloads at *
      rcases h with h | h
      · obtain ⟨type, htype⟩ := Option.isSome_iff_exists.mp (h sig hsig)
        obtain ⟨type', htype'⟩ := Option.isSome_iff_exists.mp (h first hfirst)
        have hmem : type.binding ∈ (overloads.filterMap (·.result)).map (·.binding) :=
          List.mem_map_of_mem (List.mem_filterMap.mpr ⟨sig, hsig, htype⟩)
        simpa [htype, htype', binding_mergedResult] using widen_eq_or hmem
      · rw [h sig hsig, h first hfirst]
        exact Or.inl rfl

/-- **Every call of an overload is a call of the merged method**: it takes every number of
arguments that an overload accepts; where an overload has a parameter it has one whose type
is the same, takes null as well or is `mixed`; and its result is the one of the overload or
`mixed`. -/
theorem merged_takes_every_call (name : String) {overloads : List MethodSig}
    (hresult : (∀ sig ∈ overloads, sig.result.isSome = true) ∨
      ∀ sig ∈ overloads, sig.result = none)
    (hlast : ∀ sig ∈ overloads, VariadicLast sig.params)
    (hfirst : ∀ sig ∈ overloads, RequiredFirst sig.params) :
    ∀ sig ∈ overloads,
      (∀ count, sig.Accepts count → (mergeOverloads name overloads).Takes count) ∧
      (∀ (position : Nat) (own : Param), sig.params[position]? = some own →
        ∃ merged, (mergeOverloads name overloads).params[position]? = some merged ∧
          Widens own.type.binding merged.type.binding) ∧
      ((mergeOverloads name overloads).result.map (·.binding) = sig.result.map (·.binding) ∨
        (mergeOverloads name overloads).result.map (·.binding) = some "mixed") := by
  intro sig hsig
  refine ⟨fun count => takes_of_accepts hsig (hlast sig hsig) (hfirst sig hsig), ?_,
    binding_mergeOverloads hresult hsig⟩
  intro position own hown
  obtain ⟨merged, hmerged⟩ := exists_merged name hsig (List.getElem?_eq_some_iff.mp hown).1
  have hmem : own ∈ paramsAt overloads position := mem_paramsAt.mpr ⟨sig, hsig, hown⟩
  exact ⟨merged, hmerged, (merges_mergeOverloads hmerged).binding own hmem⟩

/-- An overload with a default and one that ends with a variadic parameter. -/
def insertOverloads : List MethodSig :=
  [{ name := "insert"
     params := [.make "node" (.same "Node"), (Param.make "at" (.same "int")).withDefault "0"]
     result := some (.same "void") },
   { name := "insert"
     params := [.make "text" (.same "string"), .make "at" (.same "int"),
       { Param.make "more" (.same "string") with variadic := true }]
     result := some (.same "int") }]

/-- The merged method takes one argument for the first overload and five for the second. -/
theorem insert_takes_every_call :
    (∀ sig ∈ insertOverloads,
      sig.result.isSome = true ∧ VariadicLast sig.params ∧ RequiredFirst sig.params) ∧
    (∀ count ∈ [1, 2, 5], insertOverloads.any (fun sig => sig.Accepts count) = true) ∧
    ∀ count ∈ [1, 2, 5], (mergeOverloads "insert" insertOverloads).Takes count := by
  have hshape : ∀ sig ∈ insertOverloads,
      sig.result.isSome = true ∧ VariadicLast sig.params ∧ RequiredFirst sig.params := by decide
  have hsome : ∀ count ∈ [1, 2, 5],
      insertOverloads.any (fun sig => sig.Accepts count) = true := by decide
  refine ⟨hshape, hsome, fun count hcount => ?_⟩
  obtain ⟨sig, hsig, haccepts⟩ := List.any_eq_true.mp (hsome count hcount)
  have hcalls := merged_takes_every_call "insert" (Or.inl fun sig hsig => (hshape sig hsig).1)
    (fun sig hsig => (hshape sig hsig).2.1) (fun sig hsig => (hshape sig hsig).2.2) sig hsig
  exact hcalls.1 count (of_decide_eq_true haccepts)

/-! ## the order of the parameters -/

section Shape

variable (hlast : ∀ sig ∈ overloads, VariadicLast sig.params)

include hlast

/-- Parameters that have to be given stay in front of those that may be left out. -/
theorem requiredFirst_mergeOverloads (name : String)
    (hfirst : ∀ sig ∈ overloads, RequiredFirst sig.params) :
    RequiredFirst (mergeOverloads name overloads).params := by
  refine List.pairwise_iff_getElem.mpr fun i j hi hj hlt hdefault => ?_
  have hmi := List.getElem?_eq_getElem hi
  have hmj := List.getElem?_eq_getElem hj
  generalize (mergeOverloads name overloads).params[i] = earlier at *
  generalize (mergeOverloads name overloads).params[j] = later at *
  by_contra hrequired
  rw [Bool.not_eq_false, isRequired_merged_iff hmj] at hrequired
  -- every overload needs the later one, so every overload needs the earlier one
  have hearlier : earlier.isRequired = true := by
    refine (isRequired_merged_iff hmi).mpr fun sig hsig => ?_
    obtain ⟨own, hown, hneeded⟩ := hrequired sig hsig
    have hshort := (List.getElem?_eq_some_iff.mp hown).1
    have hown' := List.getElem?_eq_getElem (hlt.trans hshort)
    exact ⟨_, hown', isRequired_of_lt (hlast sig hsig) (hfirst sig hsig) hlt hown' hown hneeded⟩
  obtain ⟨default, hsome⟩ := Option.isSome_iff_exists.mp hdefault
  simp [Param.isRequired, hsome] at hearlier

/-- Variadic parameters stay last if no overload goes on where another ends with one. -/
theorem variadicLast_mergeOverloads_iff (name : String) :
    VariadicLast (mergeOverloads name overloads).params ↔
      ∀ sig ∈ overloads, endsVariadic sig.params = true →
        sig.params.length = width overloads := by
  constructor
  · intro h sig hsig hends
    obtain ⟨position, last, hposition, hget, hvariadic⟩ := endsVariadic_iff.mp hends
    have hlt : position < sig.params.length := by omega
    obtain ⟨merged, hmerged⟩ := exists_merged name hsig hlt
    have hspread : merged.variadic = true :=
      (variadic_merged_iff hmerged).mpr ⟨sig, hsig, last, hget, hvariadic⟩
    have hend := h.eq_length hmerged hspread
    rw [length_params_mergeOverloads] at hend
    omega
  · intro h
    refine List.pairwise_iff_getElem.mpr fun i j hi hj hlt => ?_
    by_contra hspread
    rw [Bool.not_eq_false, variadic_merged_iff (List.getElem?_eq_getElem hi)] at hspread
    obtain ⟨sig, hsig, own, hown, hvariadic⟩ := hspread
    have hend := (hlast sig hsig).eq_length hown hvariadic
    have hlongest := h sig hsig (endsVariadic_iff.mpr ⟨i, own, hend, hown, hvariadic⟩)
    rw [length_params_mergeOverloads] at hj
    omega

end Shape

/-- **Merging keeps what has to be given in front, and variadic parameters last only at
full length**: if the parameters of every overload stand in order, no parameter of the
merged method that has to be given follows one with a default; and nothing follows a
variadic one if and only if every overload that ends with one is as long as any. -/
theorem merged_shape_iff (name : String) {overloads : List MethodSig}
    (hlast : ∀ sig ∈ overloads, VariadicLast sig.params)
    (hfirst : ∀ sig ∈ overloads, RequiredFirst sig.params) :
    RequiredFirst (mergeOverloads name overloads).params ∧
    (VariadicLast (mergeOverloads name overloads).params ↔
      ∀ sig ∈ overloads, endsVariadic sig.params = true →
        sig.params.length = width overloads) :=
  ⟨requiredFirst_mergeOverloads hlast name hfirst, variadicLast_mergeOverloads_iff hlast name⟩

/-- The variadic parameter of the longest overload stays last. -/
theorem insert_keeps_shape :
    (∀ sig ∈ insertOverloads, VariadicLast sig.params ∧ RequiredFirst sig.params) ∧
    VariadicLast (mergeOverloads "insert" insertOverloads).params ∧
    RequiredFirst (mergeOverloads "insert" insertOverloads).params := by
  have hshape : ∀ sig ∈ insertOverloads, VariadicLast sig.params ∧ RequiredFirst sig.params := by
    decide
  obtain ⟨hfirst, hlast⟩ := merged_shape_iff "insert" (fun sig hsig => (hshape sig hsig).1)
    fun sig hsig => (hshape sig hsig).2
  exact ⟨hshape, hlast.mpr (by decide), hfirst⟩

/-- An overload that is one variadic parameter, and a longer one. -/
def spreadOverloads : List MethodSig :=
  [{ name := "spread"
     params := [{ Param.make "parts" (.same "string") with variadic := true }] },
   { name := "spread"
     params := [.make "first" (.same "int"), .make "second" (.same "int")] }]

/-- A parameter follows the variadic one, although both overloads stand in order. -/
theorem spread_is_followed :
    (∀ sig ∈ spreadOverloads, VariadicLast sig.params ∧ RequiredFirst sig.params) ∧
    ¬ VariadicLast (mergeOverloads "spread" spreadOverloads).params := by
  decide

/-! ## names -/

/-- The names of the parameters. -/
def MethodSig.paramNames (sig : MethodSig) : List String :=
  sig.params.map (·.name)

/-- The overload that names a position: the first one that has it. -/
def namer? (overloads : List MethodSig) (position : Nat) : Option MethodSig :=
  overloads.find? fun sig => position < sig.params.length

/-- The overload that names a position names every later one that it has. -/
theorem namer?_of_le {sig : MethodSig} {later : Nat} (h : namer? overloads position = some sig)
    (hle : position ≤ later) (hlt : later < sig.params.length) :
    namer? overloads later = some sig := by
  rw [namer?, List.find?_eq_some_iff_append] at h ⊢
  obtain ⟨-, before, after, hsplit, hbefore⟩ := h
  refine ⟨by simpa using hlt, before, after, hsplit, fun other hother => ?_⟩
  have hshort := hbefore other hother
  simp only [Bool.not_eq_true', decide_eq_false_iff_not] at hshort ⊢
  omega

/-- The name of a position is the one that its overload has there. -/
theorem getElem?_paramNames (name : String) {sig : MethodSig}
    (h : namer? overloads position = some sig) :
    ∃ own, sig.params[position]? = some own ∧
      (mergeOverloads name overloads).paramNames[position]? = some own.name := by
  rw [namer?, List.find?_eq_some_iff_append] at h
  obtain ⟨hlt, before, after, hsplit, hbefore⟩ := h
  have hlt' : position < sig.params.length := of_decide_eq_true hlt
  have hown := List.getElem?_eq_getElem hlt'
  have hsig : sig ∈ overloads := hsplit ▸ List.mem_append_right before List.mem_cons_self
  obtain ⟨merged, hmerged⟩ := exists_merged name hsig hlt'
  have hnone : before.filterMap (fun other => other.params[position]?) = [] := by
    refine List.filterMap_eq_nil_iff.mpr fun other hother => ?_
    simpa using hbefore other hother
  have hname := (merges_mergeOverloads hmerged).name
  simp only [paramsAt, hsplit, List.filterMap_append, hnone, List.nil_append,
    List.filterMap_cons, hown, List.head?_cons, Option.map_some] at hname
  refine ⟨_, hown, ?_⟩
  rw [MethodSig.paramNames, List.getElem?_map, hmerged, Option.map_some, hname]

/-- Every position of a merged method is named by an overload. -/
theorem exists_namer (h : position < (mergeOverloads name overloads).paramNames.length) :
    ∃ sig, sig ∈ overloads ∧ namer? overloads position = some sig := by
  rw [MethodSig.paramNames, List.length_map, length_params_mergeOverloads, lt_width_iff] at h
  obtain ⟨other, hother, hlt⟩ := h
  have hsome : (namer? overloads position).isSome = true :=
    List.find?_isSome.mpr ⟨other, hother, decide_eq_true hlt⟩
  obtain ⟨sig, hsig⟩ := Option.isSome_iff_exists.mp hsome
  exact ⟨sig, List.mem_of_find?_eq_some hsig, hsig⟩

/-- **Names stay distinct unless a longer overload uses one again**: if every overload has
distinct parameter names, the merged method has if and only if no two positions have the
same name that are named by different overloads, the first of which ends before the second
position. -/
theorem merged_names_distinct_iff (name : String) {overloads : List MethodSig}
    (h : ∀ sig ∈ overloads, sig.paramNames.Nodup) :
    (mergeOverloads name overloads).paramNames.Nodup ↔
      ∀ (i j : Nat) (first second : MethodSig) (a b : Param),
        namer? overloads i = some first → first.params[i]? = some a →
        namer? overloads j = some second → second.params[j]? = some b →
        first.params.length ≤ j → a.name ≠ b.name := by
  rw [List.nodup_iff_getElem?_ne_getElem?]
  constructor
  · intro hdistinct i j first second a b hi ha hj hb hends hsame
    obtain ⟨own, hown, hname⟩ := getElem?_paramNames name hi
    obtain ⟨own', hown', hname'⟩ := getElem?_paramNames name hj
    rw [ha, Option.some.injEq] at hown
    rw [hb, Option.some.injEq] at hown'
    have hlt : i < first.params.length := (List.getElem?_eq_some_iff.mp ha).1
    refine hdistinct i j (by omega) (List.getElem?_eq_some_iff.mp hname').1 ?_
    rw [hname, hname', ← hown, ← hown', hsame]
  · intro hapart i j hlt hj hsame
    obtain ⟨first, hmem, hi⟩ := exists_namer (hlt.trans hj)
    obtain ⟨second, -, hj⟩ := exists_namer hj
    obtain ⟨a, ha, hname⟩ := getElem?_paramNames name hi
    obtain ⟨b, hb, hname'⟩ := getElem?_paramNames name hj
    rw [hname, hname', Option.some.injEq] at hsame
    by_cases hends : first.params.length ≤ j
    · exact hapart i j first second a b hi ha hj hb hends hsame
    · -- one overload names both positions, and its own names are distinct
      rw [namer?_of_le hi hlt.le (Nat.lt_of_not_le hends), Option.some.injEq] at hj
      rw [← hj] at hb
      refine List.nodup_iff_getElem?_ne_getElem?.mp (h first hmem) i j hlt ?_ ?_
      · simpa [MethodSig.paramNames] using Nat.lt_of_not_le hends
      · rw [MethodSig.paramNames, List.getElem?_map, List.getElem?_map, ha, hb, Option.map_some,
          Option.map_some, hsame]

/-- The longest overload comes first, so it names all positions. -/
def fillOverloads : List MethodSig :=
  [{ name := "fill", params := ["value", "start", "end"].map (.make · (.same "int")) },
   { name := "fill", params := ["start", "value"].map (.make · (.same "int")) }]

/-- Names that are used again by a shorter overload stay distinct. -/
theorem fill_names_are_distinct :
    (∀ sig ∈ fillOverloads, sig.paramNames.Nodup) ∧
    (mergeOverloads "fill" fillOverloads).paramNames.Nodup := by
  have hnames : ∀ sig ∈ fillOverloads, sig.paramNames.Nodup := by decide
  refine ⟨hnames, (merged_names_distinct_iff "fill" hnames).mpr ?_⟩
  intro i j first second a b hi ha hj hb hends
  -- no position is left for a second overload to name
  have hbound : ∀ sig ∈ fillOverloads, sig.params.length ≤ 3 := by decide
  have hlong : ∀ k < 3, (namer? fillOverloads k).map (·.params.length) = some 3 := by decide
  have hi' := (List.getElem?_eq_some_iff.mp ha).1.trans_le
    (hbound first (List.mem_of_find?_eq_some hi))
  have hj' := (List.getElem?_eq_some_iff.mp hb).1.trans_le
    (hbound second (List.mem_of_find?_eq_some hj))
  have hfirst := hlong i hi'
  rw [hi, Option.map_some, Option.some.injEq] at hfirst
  omega

/-- An image drawn at a place, scaled to a size, or cut out of a larger one. -/
def drawOverloads : List MethodSig :=
  [{ name := "draw", params := ["image", "dx", "dy"].map (.make · (.same "float")) },
   { name := "draw", params := ["image", "dx", "dy", "dw", "dh"].map (.make · (.same "float")) },
   { name := "draw"
     params := ["image", "sx", "sy", "sw", "sh", "dx", "dy", "dw", "dh"].map
       (.make · (.same "float")) }]

/-- Every overload has distinct names, and the merged method has four of them twice. -/
theorem draw_names_repeat :
    (∀ sig ∈ drawOverloads, sig.paramNames.Nodup) ∧
    ¬ (mergeOverloads "draw" drawOverloads).paramNames.Nodup := by
  decide

end WebIdl.Code
