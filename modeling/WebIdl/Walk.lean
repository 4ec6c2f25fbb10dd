/-!
# WebIdl.Walk

Depth-first walks over named things, and how many of a list of names are still to
be met on a path. Both bound a recursion that follows references by name.
-/

namespace WebIdl

/-- How many of the names are not on the list `seen`. -/
def unseen (names seen : List String) : Nat :=
  names.countP fun name => !seen.contains name

/-- Having seen one name more leaves no more to see. -/
theorem unseen_cons_le (names seen : List String) (name : String) :
    unseen names (name :: seen) ≤ unseen names seen := by
  unfold unseen
  apply List.countP_mono_left
  intro other _ h
  simp only [List.contains_cons, Bool.not_or, Bool.and_eq_true] at h
  exact h.2

/-- Meeting one of the names for the first time leaves fewer to meet. -/
theorem unseen_cons_lt {names seen : List String} {name : String}
    (known : name ∈ names) (fresh : seen.contains name = false) :
    unseen names (name :: seen) < unseen names seen := by
  induction names with
  | nil => cases known
  | cons first rest ih =>
    have rest_le := unseen_cons_le rest seen name
    simp only [unseen, List.countP_cons, List.contains_cons] at rest_le ih ⊢
    by_cases same : first = name
    · subst same
      simp only [fresh, beq_self_eq_true, Bool.true_or, Bool.not_true, Bool.not_false] at *
      simp only [Bool.false_eq_true, ↓reduceIte, Nat.add_zero] at *
      omega
    · have known : name ∈ rest := by
        cases known with
        | head => exact absurd rfl same
        | tail _ known => exact known
      have less := ih known
      simp only [beq_eq_false_iff_ne.mpr same, Bool.false_or] at *
      omega

/-- The order in which names are met depth first: the names on the stack, each
followed by those it leads to, passing over what was seen and what is unknown. At
most `steps` names are met; as many as there are known names is always enough. -/
def visit (known : String → Bool) (next : String → List String) :
    (steps : Nat) → (seen stack : List String) → List String
  | 0, _, _ => []
  | steps + 1, seen, stack =>
    match stack.dropWhile fun name => seen.contains name || !known name with
    | [] => []
    | name :: rest => name :: visit known next steps (name :: seen) (next name ++ rest)

end WebIdl
