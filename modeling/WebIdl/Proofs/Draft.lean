import WebIdl.Artifact.Target
import WebIdl.Proofs.Outcome

/-!
# WebIdl.Proofs.Draft

What a draft comes to, whatever was imported before.

A draft that comes to something splits into steps that do (`Yields`), and one that comes to
nothing fails in a step (`FailsFor`).  Drafts of types, parameters and methods are `Steady`:
imports are only added to, so a draft comes to one thing only.
-/

namespace WebIdl.Artifact

open WebIdl.Code

variable {α β : Type}

/-- A draft comes to something for some imports. -/
def Yields (x : Draft α) (a : α) : Prop :=
  ∃ before after, x.run.run before = (.ok a, after)

namespace Yields

/-- A draft without steps comes to its result only. -/
theorem pure_iff {a b : α} : Yields (pure a) b ↔ a = b := by
  constructor
  · rintro ⟨before, after, h⟩
    cases h
    rfl
  · rintro rfl
    exact ⟨{ own := "" }, _, rfl⟩

/-- A step outside of drafts comes to what it gives. -/
theorem lift_iff {x : Except Error α} {a : α} : Yields (liftM x) a ↔ x = .ok a := by
  constructor
  · rintro ⟨before, after, h⟩
    cases x with
    | error e => cases h
    | ok b =>
        cases h
        rfl
  · rintro rfl
    exact ⟨{ own := "" }, _, rfl⟩

/-- A draft that comes to something in two steps comes to something in each. -/
theorem bind {x : Draft α} {f : α → Draft β} {b : β} (h : Yields (x >>= f) b) :
    ∃ a, Yields x a ∧ Yields (f a) b := by
  obtain ⟨before, after, h⟩ := h
  cases hx : x.run.run before with
  | mk result middle =>
      rw [ExceptT.run_bind, StateT.run_bind, hx] at h
      cases result with
      | error e => cases h
      | ok a => exact ⟨a, ⟨before, middle, hx⟩, ⟨middle, after, h⟩⟩

/-- What is left out under a condition comes to nothing. -/
theorem of_ite {c : Prop} [Decidable c] {x : Draft (List α)} {xs : List α}
    (h : Yields (if c then x else pure []) xs) : c ∧ Yields x xs ∨ ¬ c ∧ xs = [] := by
  split at h
  · next hc => exact Or.inl ⟨hc, h⟩
  · next hc => exact Or.inr ⟨hc, (pure_iff.mp h).symm⟩

/-- A map that comes to something does so for every element, and to nothing else. -/
theorem mapM {f : α → Draft β} {xs : List α} {ys : List β} (h : Yields (xs.mapM f) ys) :
    (∀ x ∈ xs, ∃ y ∈ ys, Yields (f x) y) ∧ ∀ y ∈ ys, ∃ x ∈ xs, Yields (f x) y := by
  induction xs generalizing ys with
  | nil =>
      rw [List.mapM_nil, pure_iff] at h
      subst h
      simp
  | cons x xs ih =>
      rw [List.mapM_cons] at h
      obtain ⟨y, hy, h⟩ := h.bind
      obtain ⟨zs, hzs, h⟩ := h.bind
      rw [pure_iff] at h
      subst h
      obtain ⟨hto, hfrom⟩ := ih hzs
      constructor
      · intro u hu
        cases hu with
        | head => exact ⟨y, List.mem_cons_self, hy⟩
        | tail _ hu =>
            obtain ⟨v, hv, huv⟩ := hto u hu
            exact ⟨v, List.mem_cons_of_mem y hv, huv⟩
      · intro v hv
        cases hv with
        | head => exact ⟨x, List.mem_cons_self, hy⟩
        | tail _ hv =>
            obtain ⟨u, hu, huv⟩ := hfrom v hv
            exact ⟨u, List.mem_cons_of_mem x hu, huv⟩

/-- What holds of any two elements holds of what they come to. -/
theorem pairwise_mapM {R : α → α → Prop} {S : β → β → Prop} {f : α → Draft β} {xs : List α}
    {ys : List β} (h : Yields (xs.mapM f) ys) (hxs : xs.Pairwise R)
    (hstep : ∀ x x' y y', R x x' → Yields (f x) y → Yields (f x') y' → S y y') :
    ys.Pairwise S := by
  induction xs generalizing ys with
  | nil =>
      rw [List.mapM_nil, pure_iff] at h
      exact h ▸ List.Pairwise.nil
  | cons x xs ih =>
      rw [List.mapM_cons] at h
      obtain ⟨y, hy, h⟩ := h.bind
      obtain ⟨zs, hzs, h⟩ := h.bind
      rw [pure_iff] at h
      rw [List.pairwise_cons] at hxs
      rw [← h, List.pairwise_cons]
      refine ⟨fun z hz => ?_, ih hzs hxs.2⟩
      obtain ⟨x', hx', hz⟩ := hzs.mapM.2 z hz
      exact hstep x x' y z (hxs.1 x' hx') hy hz

end Yields

/-! ## drafts that fail -/

/-- Every failure of a draft has a cause of a kind. -/
def FailsFor (kind : Error → Prop) (x : Draft α) : Prop :=
  ∀ before after e, x.run.run before = (.error e, after) → kind e

namespace FailsFor

variable {kind : Error → Prop}

/-- A draft without steps does not fail. -/
theorem pure (a : α) : FailsFor kind (Pure.pure a : Draft α) := by
  intro before after e h
  cases h

/-- A step outside of drafts fails in a draft as it does by itself. -/
theorem lift {x : Except Error α} (h : FailsOnly kind x) : FailsFor kind (liftM x : Draft α) := by
  intro before after e hrun
  cases x with
  | ok a => cases hrun
  | error e' =>
      cases hrun
      exact h e rfl

/-- Noting imports does not fail. -/
theorem note (f : Imports → Imports) : FailsFor kind (modify f : Draft PUnit) := by
  intro before after e h
  cases h

/-- There may be more causes than needed. -/
theorem mono {x : Draft α} {kind' : Error → Prop} (hx : FailsFor kind x)
    (h : ∀ e, kind e → kind' e) : FailsFor kind' x := by
  intro before after e hrun
  exact h e (hx before after e hrun)

/-- The second of two steps runs on what the first one came to. -/
theorem bind {x : Draft α} {f : α → Draft β} (hx : FailsFor kind x)
    (hf : ∀ a, Yields x a → FailsFor kind (f a)) : FailsFor kind (x >>= f) := by
  intro before after e h
  rw [ExceptT.run_bind, StateT.run_bind] at h
  cases hrun : x.run.run before with
  | mk result middle =>
      rw [hrun] at h
      cases result with
      | error e' =>
          cases h
          exact hx before middle _ hrun
      | ok a => exact hf a ⟨before, middle, hrun⟩ middle after e h

/-- The elements of a list fail for their causes, one after another. -/
theorem mapM {f : α → Draft β} {xs : List α} (hf : ∀ x ∈ xs, FailsFor kind (f x)) :
    FailsFor kind (xs.mapM f) := by
  induction xs with
  | nil => exact pure []
  | cons x xs ih =>
      rw [List.mapM_cons]
      have hrest := ih fun y hy => hf y (List.mem_cons_of_mem x hy)
      exact (hf x List.mem_cons_self).bind fun y _ => hrest.bind fun ys _ => pure (y :: ys)

/-- What is left out under a condition fails only if it is there. -/
theorem of_ite {c : Prop} [Decidable c] {x : Draft (List α)} (h : c → FailsFor kind x) :
    FailsFor kind (if c then x else Pure.pure []) := by
  split
  next hc => exact h hc
  next => exact pure []

end FailsFor

/-! ## drafts that come to one thing -/

/-- A draft comes to one thing only. -/
def Steady (x : Draft α) : Prop :=
  ∀ a b, Yields x a → Yields x b → a = b

namespace Steady

theorem pure (a : α) : Steady (Pure.pure a : Draft α) := by
  intro b c hb hc
  rw [Yields.pure_iff] at hb hc
  exact hb.symm.trans hc

/-- A step outside of drafts comes to one thing. -/
theorem lift (x : Except Error α) : Steady (liftM x : Draft α) := by
  intro a b ha hb
  rw [Yields.lift_iff] at ha hb
  rw [ha] at hb
  exact Except.ok.inj hb

theorem note (f : Imports → Imports) : Steady (modify f : Draft PUnit) := by
  intro a b _ _
  rfl

/-- If two steps come to one thing each, so do both. -/
theorem bind {x : Draft α} {f : α → Draft β} (hx : Steady x) (hf : ∀ a, Steady (f a)) :
    Steady (x >>= f) := by
  intro b c hb hc
  obtain ⟨a, ha, hb⟩ := hb.bind
  obtain ⟨a', ha', hc⟩ := hc.bind
  have hsame := hx a a' ha ha'
  subst hsame
  exact hf a b c hb hc

/-- The elements of a list come to one list. -/
theorem mapM {f : α → Draft β} (hf : ∀ x, Steady (f x)) (xs : List α) : Steady (xs.mapM f) := by
  induction xs with
  | nil => exact pure []
  | cons x xs ih =>
      rw [List.mapM_cons]
      exact (hf x).bind fun y => ih.bind fun ys => pure (y :: ys)

end Steady

/-! ## methods -/

namespace Target

variable (t : Target)

/-- Whatever is imported, a type is rendered as one thing. -/
theorem steady_type (type : IdlType) (position : Position) : Steady (t.type type position) := by
  rw [Target.type]
  exact (Steady.lift _).bind fun _ => (Steady.lift _).bind fun _ => (Steady.lift _).bind fun _ =>
    (Steady.note _).bind fun _ => Steady.pure _

theorem steady_param (argument : Argument) : Steady (t.param argument) := by
  rw [Target.param]
  refine (t.steady_type _ _).bind fun type => ?_
  dsimp only
  split
  · exact Steady.pure _
  · split
    · split
      · exact (Steady.lift _).bind fun _ => Steady.pure _
      · exact Steady.pure _
    · exact Steady.pure _

theorem steady_operation (name : String) (overloads : List Signature) (isStatic : Bool) :
    Steady (t.operation name overloads isStatic) := by
  rw [Target.operation]
  refine (Steady.mapM (fun signature => ?_) overloads).bind fun sigs => Steady.pure _
  rw [Target.overload]
  exact (t.steady_type _ _).bind fun _ =>
    (Steady.mapM t.steady_param signature.arguments).bind fun _ => Steady.pure _

theorem steady_getter (name : String) (type : IdlType) (isStatic : Bool) :
    Steady (t.getter name type isStatic) := by
  rw [Target.getter]
  exact (t.steady_type _ _).bind fun _ => Steady.pure _

theorem steady_setter (name : String) (type : IdlType) (isStatic : Bool) :
    Steady (t.setter name type isStatic) := by
  rw [Target.setter]
  exact (t.steady_type _ _).bind fun _ => Steady.pure _

theorem steady_iterator (name : String) (key : Option IdlType) (value : IdlType) :
    Steady (t.iterator name key value) := by
  cases key with
  | some key =>
      exact (t.steady_type _ _).bind fun _ => (Steady.pure _).bind fun _ =>
        (t.steady_type _ _).bind fun _ => Steady.pure _
  | none => exact (Steady.pure _).bind fun _ => (t.steady_type _ _).bind fun _ => Steady.pure _

variable {t}

/-! ## names of methods -/

/-- A getter has the name that it is given. -/
theorem name_of_getter {name : String} {type : IdlType} {isStatic : Bool} {sig : MethodSig}
    (h : Yields (t.getter name type isStatic) sig) : sig.name = name := by
  obtain ⟨pair, -, h⟩ := h.bind
  rw [Yields.pure_iff] at h
  rw [← h]

/-- A setter has the name that it is given. -/
theorem name_of_setter {name : String} {type : IdlType} {isStatic : Bool} {sig : MethodSig}
    (h : Yields (t.setter name type isStatic) sig) : sig.name = name := by
  obtain ⟨pair, -, h⟩ := h.bind
  rw [Yields.pure_iff] at h
  rw [← h]

/-- An iterator has the name that it is given. -/
theorem name_of_iterator {name : String} {key : Option IdlType} {value : IdlType}
    {sig : MethodSig} (h : Yields (t.iterator name key value) sig) : sig.name = name := by
  cases key with
  | some key =>
      obtain ⟨pair, -, h⟩ := h.bind
      obtain ⟨doc, -, h⟩ := h.bind
      obtain ⟨pair', -, h⟩ := h.bind
      rw [Yields.pure_iff] at h
      rw [← h]
  | none =>
      obtain ⟨doc, -, h⟩ := h.bind
      obtain ⟨pair, -, h⟩ := h.bind
      rw [Yields.pure_iff] at h
      rw [← h]

/-- Merging overloads of one name makes a method of the name. -/
theorem name_mergeOverloads {name : String} {sigs : List MethodSig}
    (h : ∀ sig ∈ sigs, sig.name = name) : (mergeOverloads name sigs).name = name := by
  match sigs with
  | [] => rfl
  | [only] => exact h only List.mem_cons_self
  | first :: second :: rest => exact h first List.mem_cons_self

/-- All overloads of an operation make a method of its name. -/
theorem name_of_operation {name : String} {overloads : List Signature} {isStatic : Bool}
    {sig : MethodSig} (h : Yields (t.operation name overloads isStatic) sig) :
    sig.name = name := by
  obtain ⟨sigs, hsigs, h⟩ := h.bind
  rw [Yields.pure_iff] at h
  rw [← h]
  refine name_mergeOverloads fun overload hoverload => ?_
  obtain ⟨signature, -, hyields⟩ := hsigs.mapM.2 overload hoverload
  obtain ⟨result, -, hyields⟩ := hyields.bind
  obtain ⟨params, -, hyields⟩ := hyields.bind
  rw [Yields.pure_iff] at hyields
  rw [← hyields]

/-- A constructor has the name of all constructors. -/
theorem name_of_constructor {overloads : List (List Argument)} {sig : MethodSig}
    (h : Yields (t.constructor overloads) sig) : sig.name = "__construct" := by
  obtain ⟨sigs, hsigs, h⟩ := h.bind
  rw [Yields.pure_iff] at h
  rw [← h]
  refine name_mergeOverloads fun overload hoverload => ?_
  obtain ⟨arguments, -, hyields⟩ := hsigs.mapM.2 overload hoverload
  obtain ⟨params, -, hyields⟩ := hyields.bind
  rw [Yields.pure_iff] at hyields
  rw [← hyields]

end Target

end WebIdl.Artifact
