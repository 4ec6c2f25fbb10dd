import WebIdl.Walk
import Mathlib.Data.List.TakeWhile
import Mathlib.Logic.Relation

/-!
# WebIdl.Proofs.Walk

What a depth-first walk meets, on any graph and with cycles allowed.

A walk meets every name at most once (`nodup_visit`), never one that was seen or is
unknown (`fresh_of_mem_visit`), and only names that the stack leads to
(`reachable_of_mem_visit`).  As long as it may take as many steps as there are known
names to meet, it passes over nothing: it meets the fresh names of its stack
(`mem_visit_of_stack`) and those that a name it meets leads to (`mem_visit_of_next`).
-/

namespace WebIdl

open Relation

/-- Where a list stands after its leading elements with a property are dropped. -/
theorem of_dropWhile_eq_cons {α : Type} {p : α → Bool} {l rest : List α} {x : α}
    (h : l.dropWhile p = x :: rest) :
    p x = false ∧ x ∈ l ∧ (∀ y ∈ rest, y ∈ l) ∧ ∀ y ∈ l, p y = true ∨ y = x ∨ y ∈ rest := by
  induction l with
  | nil => simp at h
  | cons z l ih =>
      by_cases hz : p z = true
      · rw [List.dropWhile_cons_of_pos hz] at h
        obtain ⟨hx, hmem, hrest, hcover⟩ := ih h
        refine ⟨hx, List.mem_cons_of_mem z hmem,
          fun y hy => List.mem_cons_of_mem z (hrest y hy), ?_⟩
        intro y hy
        cases hy with
        | head => exact Or.inl hz
        | tail _ hy => exact hcover y hy
      · rw [List.dropWhile_cons_of_neg hz] at h
        injection h with hzx hl
        subst hzx
        subst hl
        refine ⟨by simpa using hz, List.mem_cons_self, fun y hy => List.mem_cons_of_mem z hy, ?_⟩
        intro y hy
        exact Or.inr (List.mem_cons.mp hy)

section

variable {known : String → Bool} {next : String → List String}

/-- A walk meets known names only, and none that was seen before it began. -/
theorem fresh_of_mem_visit {steps : Nat} {seen stack : List String} {name : String}
    (h : name ∈ visit known next steps seen stack) : known name = true ∧ name ∉ seen := by
  fun_induction visit known next steps seen stack with
  | case1 => cases h
  | case2 => cases h
  | case3 steps seen stack first rest hdrop ih =>
      obtain ⟨hfirst, -⟩ := of_dropWhile_eq_cons hdrop
      cases h with
      | head => simpa [and_comm] using hfirst
      | tail _ h =>
          obtain ⟨hknown, hunseen⟩ := ih h
          exact ⟨hknown, fun hseen => hunseen (List.mem_cons_of_mem first hseen)⟩

/-- A walk meets no name twice. -/
theorem nodup_visit (steps : Nat) (seen stack : List String) :
    (visit known next steps seen stack).Nodup := by
  fun_induction visit known next steps seen stack with
  | case1 => exact List.nodup_nil
  | case2 => exact List.nodup_nil
  | case3 steps seen stack first rest hdrop ih =>
      refine List.nodup_cons.mpr ⟨?_, ih⟩
      intro hagain
      exact (fresh_of_mem_visit hagain).2 List.mem_cons_self

/-- The stack leads to everything that a walk meets. -/
theorem reachable_of_mem_visit {steps : Nat} {seen stack : List String} {name : String}
    (h : name ∈ visit known next steps seen stack) :
    ∃ start ∈ stack, ReflTransGen (fun a b => b ∈ next a) start name := by
  fun_induction visit known next steps seen stack with
  | case1 => cases h
  | case2 => cases h
  | case3 steps seen stack first rest hdrop ih =>
      obtain ⟨-, hfirst, hrest, -⟩ := of_dropWhile_eq_cons hdrop
      cases h with
      | head => exact ⟨_, hfirst, ReflTransGen.refl⟩
      | tail _ h =>
          obtain ⟨start, hstart, hpath⟩ := ih h
          rcases List.mem_append.mp hstart with hnext | hstart
          · exact ⟨first, hfirst, ReflTransGen.head hnext hpath⟩
          · exact ⟨start, hrest start hstart, hpath⟩

/-! ## nothing is passed over -/

variable {names : List String}

/-- With no name left to meet, nothing is fresh. -/
theorem mem_seen_of_unseen_eq_zero {seen : List String} {name : String}
    (h : unseen names seen = 0) (hname : name ∈ names) : name ∈ seen := by
  rw [unseen, List.countP_eq_zero] at h
  simpa using h name hname

/-- A walk meets the fresh names of its stack. -/
theorem mem_visit_of_stack {steps : Nat} {seen stack : List String} {name : String}
    (hnames : ∀ name, known name = true → name ∈ names) (hsteps : unseen names seen ≤ steps)
    (hstack : name ∈ stack) (hknown : known name = true) (hfresh : name ∉ seen) :
    name ∈ visit known next steps seen stack := by
  fun_induction visit known next steps seen stack with
  | case1 seen stack =>
      have hzero : unseen names seen = 0 := by omega
      exact absurd (mem_seen_of_unseen_eq_zero hzero (hnames name hknown)) hfresh
  | case2 steps seen stack hdrop =>
      have hpassed := List.dropWhile_eq_nil_iff.mp hdrop name hstack
      simp [hknown, hfresh] at hpassed
  | case3 steps seen stack first rest hdrop ih =>
      obtain ⟨hfirst, -, -, hcover⟩ := of_dropWhile_eq_cons hdrop
      by_cases hsame : name = first
      · exact hsame ▸ List.mem_cons_self
      · have hrest : name ∈ rest := by
          rcases hcover name hstack with hpassed | hsame' | hrest
          · simp [hknown, hfresh] at hpassed
          · exact absurd hsame' hsame
          · exact hrest
        have hfirst' : known first = true ∧ seen.contains first = false := by
          simpa [and_comm] using hfirst
        have hless := unseen_cons_lt (hnames first hfirst'.1) hfirst'.2
        refine List.mem_cons_of_mem first (ih (by omega) (List.mem_append_right _ hrest) ?_)
        simp [hsame, hfresh]

/-- A walk meets the fresh names that a name it meets leads to. -/
theorem mem_visit_of_next {steps : Nat} {seen stack : List String} {name other : String}
    (hnames : ∀ name, known name = true → name ∈ names) (hsteps : unseen names seen ≤ steps)
    (h : name ∈ visit known next steps seen stack) (hnext : other ∈ next name)
    (hknown : known other = true) (hfresh : other ∉ seen) :
    other ∈ visit known next steps seen stack := by
  fun_induction visit known next steps seen stack with
  | case1 => cases h
  | case2 => cases h
  | case3 steps seen stack first rest hdrop ih =>
      obtain ⟨hfirst, -⟩ := of_dropWhile_eq_cons hdrop
      have hfirst' : known first = true ∧ seen.contains first = false := by
        simpa [and_comm] using hfirst
      have hless := unseen_cons_lt (hnames first hfirst'.1) hfirst'.2
      by_cases hsame : other = first
      · exact hsame ▸ List.mem_cons_self
      · have hfresh' : other ∉ first :: seen := by simp [hsame, hfresh]
        refine List.mem_cons_of_mem first ?_
        cases h with
        | head =>
            exact mem_visit_of_stack hnames (by omega) (List.mem_append_left _ hnext) hknown hfresh'
        | tail _ h => exact ih (by omega) h hfresh'

end

end WebIdl
