/-!
# WebIdl.Proofs.Outcome

Success and failure of steps that run one after another.

A run that succeeds splits into steps that succeed, so whatever every step keeps holds
at the end (`foldlM_ok_inv`), and whatever a step establishes and the later ones keep
holds of all the steps (`foldlM_ok_each`).  A run that fails has a step that fails, and
up to that step everything is kept (`foldlM_error`).
-/

namespace WebIdl

variable {ε α β σ : Type}

/-- A sequence of two steps succeeds if both do. -/
theorem bind_eq_ok {x : Except ε α} {f : α → Except ε β} {b : β} :
    x >>= f = .ok b ↔ ∃ a, x = .ok a ∧ f a = .ok b := by
  cases x with
  | error e => simp [bind, Except.bind]
  | ok a => simp [bind, Except.bind]

/-- A sequence of two steps fails as the first one that fails. -/
theorem bind_eq_error {x : Except ε α} {f : α → Except ε β} {e : ε} :
    x >>= f = .error e ↔ x = .error e ∨ ∃ a, x = .ok a ∧ f a = .error e := by
  cases x with
  | error e' => simp [bind, Except.bind]
  | ok a => simp [bind, Except.bind]

theorem pure_eq_ok {a b : α} : (pure a : Except ε α) = .ok b ↔ a = b := by
  simp [pure, Except.pure]

theorem eq_ok_of_toOption {x : Except ε α} {a : α} (h : x.toOption = some a) : x = .ok a := by
  cases x with
  | error e => cases h
  | ok b => rw [Option.some.inj h]

/-- What fails with its result forgotten fails. -/
theorem eq_error_of_map {x : Except ε α} {f : α → β} {e : ε} (h : x.map f = .error e) :
    x = .error e := by
  cases x with
  | error e' => exact congrArg Except.error (Except.error.inj h)
  | ok a => cases h

/-- A result of which something is known is there. -/
theorem ok_of_toOption_map {x : Except ε α} {f : α → β} {b : β}
    (h : x.toOption.map f = some b) : ∃ a, x = .ok a ∧ f a = b := by
  cases x with
  | error e => cases h
  | ok a => exact ⟨a, rfl, Option.some.inj h⟩

/-- A choice made before a step is a choice of the step. -/
theorem ite_bind {m : Type → Type} [Bind m] {p : Prop} [Decidable p] {x y : m α} {f : α → m β} :
    (if p then x >>= f else y >>= f) = (if p then x else y) >>= f := by
  split
  · rfl
  · rfl

/-! ## folds -/

/-- What every step keeps holds at the end of a run. -/
theorem foldlM_ok_inv {P : σ → Prop} {step : σ → α → Except ε σ} {xs : List α} {s s' : σ}
    (hstep : ∀ x ∈ xs, ∀ s s', P s → step s x = .ok s' → P s') (hs : P s)
    (h : xs.foldlM step s = .ok s') : P s' := by
  induction xs generalizing s with
  | nil =>
      rw [List.foldlM_nil, pure_eq_ok] at h
      exact h ▸ hs
  | cons x xs ih =>
      rw [List.foldlM_cons, bind_eq_ok] at h
      obtain ⟨t, ht, h⟩ := h
      have hPt : P t := hstep x List.mem_cons_self s t hs ht
      exact ih (fun y hy => hstep y (List.mem_cons_of_mem x hy)) hPt h

/-- What a step establishes and the later ones keep holds of all steps of a run. -/
theorem foldlM_ok_each {P : σ → Prop} {Q : α → σ → Prop} {step : σ → α → Except ε σ}
    {xs : List α} {s s' : σ}
    (hstep : ∀ x ∈ xs, ∀ s s', P s → step s x = .ok s' → P s' ∧ Q x s')
    (hkeep : ∀ x ∈ xs, ∀ y s s', P s → step s x = .ok s' → Q y s → Q y s') (hs : P s)
    (h : xs.foldlM step s = .ok s') : ∀ x ∈ xs, Q x s' := by
  induction xs generalizing s with
  | nil => intro x hx; cases hx
  | cons x xs ih =>
      rw [List.foldlM_cons, bind_eq_ok] at h
      obtain ⟨t, ht, h⟩ := h
      obtain ⟨hPt, hQt⟩ := hstep x List.mem_cons_self s t hs ht
      have hrest := ih (fun y hy => hstep y (List.mem_cons_of_mem x hy))
        (fun y hy => hkeep y (List.mem_cons_of_mem x hy)) hPt h
      have hfirst : P s' ∧ Q x s' := by
        refine foldlM_ok_inv (P := fun s => P s ∧ Q x s) ?_ ⟨hPt, hQt⟩ h
        intro y hy u u' hu hstep'
        have hy' := List.mem_cons_of_mem x hy
        exact ⟨(hstep y hy' u u' hu.1 hstep').1, hkeep y hy' x u u' hu.1 hstep' hu.2⟩
      intro y hy
      cases hy with
      | head => exact hfirst.2
      | tail _ hy => exact hrest y hy

/-- A run that fails stops at a step that fails, after steps that succeed. -/
theorem exists_stop_of_foldlM_error {step : σ → α → Except ε σ} {xs : List α} {s : σ} {e : ε}
    (h : xs.foldlM step s = .error e) :
    ∃ before x after t, xs = before ++ x :: after ∧ before.foldlM step s = .ok t ∧
      step t x = .error e := by
  induction xs generalizing s with
  | nil => cases h
  | cons x xs ih =>
      rw [List.foldlM_cons, bind_eq_error] at h
      cases h with
      | inl h => exact ⟨[], x, xs, s, rfl, rfl, h⟩
      | inr h =>
          obtain ⟨t, ht, h⟩ := h
          obtain ⟨before, y, after, u, rfl, hbefore, hfail⟩ := ih h
          refine ⟨x :: before, y, after, u, rfl, ?_, hfail⟩
          rw [List.foldlM_cons, bind_eq_ok]
          exact ⟨t, ht, hbefore⟩

/-- A run that fails has a step that fails, up to which everything is kept. -/
theorem foldlM_error {P : σ → Prop} {step : σ → α → Except ε σ} {xs : List α} {s : σ} {e : ε}
    (hstep : ∀ x ∈ xs, ∀ s s', P s → step s x = .ok s' → P s') (hs : P s)
    (h : xs.foldlM step s = .error e) : ∃ x ∈ xs, ∃ s, P s ∧ step s x = .error e := by
  obtain ⟨before, x, after, t, rfl, hbefore, hfail⟩ := exists_stop_of_foldlM_error h
  refine ⟨x, by simp, t, foldlM_ok_inv (fun y hy => ?_) hs hbefore, hfail⟩
  exact hstep y (List.mem_append_left _ hy)

/-- A run succeeds if every step does where the steps before it lead. -/
theorem foldlM_ok_of_steps {P : σ → Prop} {step : σ → α → Except ε σ} {xs : List α} {s : σ}
    (hstep : ∀ x ∈ xs, ∀ s, P s → ∃ s', step s x = .ok s' ∧ P s') (hs : P s) :
    ∃ s', xs.foldlM step s = .ok s' := by
  induction xs generalizing s with
  | nil => exact ⟨s, rfl⟩
  | cons x xs ih =>
      obtain ⟨t, ht, hPt⟩ := hstep x List.mem_cons_self s hs
      obtain ⟨s', hs'⟩ := ih (fun y hy => hstep y (List.mem_cons_of_mem x hy)) hPt
      refine ⟨s', ?_⟩
      rw [List.foldlM_cons, bind_eq_ok]
      exact ⟨t, ht, hs'⟩

/-- What each step adds, a run adds. -/
theorem foldlM_ok_iff {Q : σ → Prop} {R : α → Prop} {step : σ → α → Except ε σ} {xs : List α}
    {s s' : σ} (hstep : ∀ x s s', step s x = .ok s' → (Q s' ↔ Q s ∨ R x))
    (h : xs.foldlM step s = .ok s') : Q s' ↔ Q s ∨ ∃ x ∈ xs, R x := by
  induction xs generalizing s with
  | nil =>
      rw [List.foldlM_nil, pure_eq_ok] at h
      simp [h]
  | cons x xs ih =>
      rw [List.foldlM_cons, bind_eq_ok] at h
      obtain ⟨t, ht, h⟩ := h
      rw [ih h, hstep x s t ht, or_assoc]
      simp

/-- Steps that agree make the same run. -/
theorem foldlM_congr {f g : σ → α → Except ε σ} {xs : List α}
    (h : ∀ x ∈ xs, ∀ s, f s x = g s x) (s : σ) : xs.foldlM f s = xs.foldlM g s := by
  induction xs generalizing s with
  | nil => rfl
  | cons x xs ih =>
      rw [List.foldlM_cons, List.foldlM_cons, h x List.mem_cons_self s]
      cases g s x with
      | error e => rfl
      | ok t => exact ih (fun y hy => h y (List.mem_cons_of_mem x hy)) t

/-! ## maps and checks -/

/-- Checks that pass together pass one by one. -/
theorem forM_ok {f : α → Except ε Unit} {xs : List α} {u : Unit} (h : xs.forM f = .ok u) :
    ∀ x ∈ xs, f x = .ok u := by
  induction xs with
  | nil => intro x hx; cases hx
  | cons x xs ih =>
      change f x >>= (fun _ => xs.forM f) = .ok u at h
      rw [bind_eq_ok] at h
      obtain ⟨v, hv, h⟩ := h
      intro y hy
      cases hy with
      | head => exact hv
      | tail _ hy => exact ih h y hy

/-- Checks pass together if they pass one by one. -/
theorem forM_ok_iff {f : α → Except ε Unit} {xs : List α} :
    xs.forM f = .ok () ↔ ∀ x ∈ xs, f x = .ok () := by
  constructor
  · exact forM_ok
  · intro h
    induction xs with
    | nil => rfl
    | cons x xs ih =>
        change f x >>= (fun _ => xs.forM f) = .ok ()
        rw [h x List.mem_cons_self]
        exact ih fun y hy => h y (List.mem_cons_of_mem x hy)

/-- A map that succeeds has a value for every element, and no other values. -/
theorem mapM_ok {f : α → Except ε β} {xs : List α} {ys : List β} (h : xs.mapM f = .ok ys) :
    (∀ x ∈ xs, ∃ y ∈ ys, f x = .ok y) ∧ ∀ y ∈ ys, ∃ x ∈ xs, f x = .ok y := by
  induction xs generalizing ys with
  | nil =>
      rw [List.mapM_nil, pure_eq_ok] at h
      subst h
      simp
  | cons x xs ih =>
      rw [List.mapM_cons, bind_eq_ok] at h
      obtain ⟨y, hy, h⟩ := h
      rw [bind_eq_ok] at h
      obtain ⟨zs, hzs, h⟩ := h
      rw [pure_eq_ok] at h
      subst h
      obtain ⟨hto, hfrom⟩ := ih hzs
      constructor
      · intro u hu
        cases hu with
        | head => exact ⟨y, List.mem_cons_self, hy⟩
        | tail _ hu =>
            obtain ⟨v, hv, huv⟩ := hto u hu
            exact ⟨v, List.mem_cons_of_mem y hv, huv⟩
      · intro v hv
        cases hv with
        | head => exact ⟨x, List.mem_cons_self, hy⟩
        | tail _ hv =>
            obtain ⟨u, hu, huv⟩ := hfrom v hv
            exact ⟨u, List.mem_cons_of_mem x hu, huv⟩

/-! ## causes of failure -/

/-- Every failure has a cause of a kind. -/
def FailsOnly (kind : ε → Prop) (x : Except ε α) : Prop :=
  ∀ e, x = .error e → kind e

namespace FailsOnly

variable {kind : ε → Prop}

theorem ok (a : α) : FailsOnly kind (.ok a) := by
  intro e h
  cases h

theorem error {e : ε} (h : kind e) : FailsOnly (α := α) kind (.error e) := by
  intro e' h'
  cases h'
  exact h

/-- What is known to be there does not fail. -/
theorem of_ok {x : Except ε α} (h : ∃ a, x = .ok a) : FailsOnly kind x := by
  obtain ⟨a, rfl⟩ := h
  exact ok a

theorem mono {x : Except ε α} {kind' : ε → Prop} (hx : FailsOnly kind x)
    (h : ∀ e, kind e → kind' e) : FailsOnly kind' x := by
  intro e he
  exact h e (hx e he)

/-- The second of two steps runs on what the first one came to. -/
theorem bind_of_ok {x : Except ε α} {f : α → Except ε β} (hx : FailsOnly kind x)
    (hf : ∀ a, x = .ok a → FailsOnly kind (f a)) : FailsOnly kind (x >>= f) := by
  intro e h
  rcases bind_eq_error.mp h with h | ⟨a, ha, h⟩
  · exact hx e h
  · exact hf a ha e h

theorem bind {x : Except ε α} {f : α → Except ε β} (hx : FailsOnly kind x)
    (hf : ∀ a, FailsOnly kind (f a)) : FailsOnly kind (x >>= f) :=
  hx.bind_of_ok fun a _ => hf a

theorem foldlM {step : σ → α → Except ε σ} (hstep : ∀ s x, FailsOnly kind (step s x))
    (xs : List α) (s : σ) : FailsOnly kind (xs.foldlM step s) := by
  intro e h
  obtain ⟨x, -, t, -, hfail⟩ := WebIdl.foldlM_error (P := fun _ => True)
    (fun _ _ _ _ _ _ => trivial) trivial h
  exact hstep t x e hfail

theorem mapM_mem {f : α → Except ε β} {xs : List α} (hf : ∀ x ∈ xs, FailsOnly kind (f x)) :
    FailsOnly kind (xs.mapM f) := by
  induction xs with
  | nil => exact ok []
  | cons x xs ih =>
      rw [List.mapM_cons]
      have hrest := ih fun y hy => hf y (List.mem_cons_of_mem x hy)
      exact (hf x List.mem_cons_self).bind fun y => hrest.bind fun ys => ok (y :: ys)

theorem mapM {f : α → Except ε β} (hf : ∀ x, FailsOnly kind (f x)) (xs : List α) :
    FailsOnly kind (xs.mapM f) :=
  mapM_mem fun x _ => hf x

theorem anyM_mem {f : α → Except ε Bool} {xs : List α} (hf : ∀ x ∈ xs, FailsOnly kind (f x)) :
    FailsOnly kind (xs.anyM f) := by
  induction xs with
  | nil => exact ok false
  | cons x xs ih =>
      rw [List.anyM]
      refine (hf x List.mem_cons_self).bind fun found => ?_
      cases found with
      | true => exact ok true
      | false => exact ih fun y hy => hf y (List.mem_cons_of_mem x hy)

theorem forM {f : α → Except ε Unit} (hf : ∀ x, FailsOnly kind (f x)) (xs : List α) :
    FailsOnly kind (xs.forM f) := by
  induction xs with
  | nil => exact ok ()
  | cons x xs ih =>
      change FailsOnly kind (f x >>= fun _ => xs.forM f)
      exact (hf x).bind fun _ => ih

end FailsOnly

end WebIdl
