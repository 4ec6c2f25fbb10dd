import WebIdl.Proofs.Sharing

/-!
# WebIdl.Proofs.Attempts

The search for a free spelling ends, and it ends at the least one.

Nothing in the search bounds it: an attempt that is in use is followed by the next one
(`Retries`), however many there have been.  It ends because the attempts at a name are
pairwise different identifiers, also without regard to case (`attempt_injective`), of which
a scope holds finitely many (`finite_used_attempts`).  Counting them gives more: the attempts
before the one that is chosen are all in use, and so is the wanted name itself, so the number
that is chosen is at most the number of identifiers in use (`le_usedCount`).

* `least_free_spelling_is_chosen`: what a wanted name becomes, for every scope.
-/

namespace WebIdl

open Text

namespace Scope

/-- How many identifiers are in use. -/
def usedCount (scope : Scope) : Nat :=
  (scope.used.map (·.1)).dedup.length

/-- A turn of the search that does not end it: the attempt is in use, and the next follows. -/
def Retries (scope : Scope) (desired : String) (next attempt : Nat) : Prop :=
  scope.isUsed (numbered desired attempt) = true ∧ next = attempt + 1

variable {scope : Scope} {desired : String}

/-! ## attempts are different identifiers -/

theorem attempt_of_pos {wish : String} {k : Nat} (h : 1 ≤ k) :
    attempt wish k = numbered wish k := by
  cases k with
  | zero => omega
  | succ k => rfl

/-- Different attempts, the wanted name included, differ also without regard to case. -/
theorem attempt_injective (wish : String) :
    Function.Injective fun k => lowerAscii (attempt wish k) := by
  intro j k h
  have hlonger := length_lowerAscii_numbered wish
  cases j with
  | zero =>
      cases k with
      | zero => rfl
      | succ k =>
          have hlength := hlonger (k + 1)
          simp only [attempt] at h
          rw [← h] at hlength
          omega
  | succ j =>
      cases k with
      | zero =>
          have hlength := hlonger (j + 1)
          simp only [attempt] at h
          rw [h] at hlength
          omega
      | succ k => exact numbered_injective h

/-- A scope holds finitely many attempts at a name. -/
theorem finite_used_attempts (scope : Scope) (desired : String) :
    Set.Finite {k | scope.isUsed (attempt desired k) = true} := by
  have hkeys : Set.Finite {ident | ident ∈ scope.used.map (·.1)} := List.finite_toSet _
  refine (hkeys.preimage (attempt_injective desired).injOn).subset fun k hk => ?_
  exact isUsed_eq_true_iff.mp hk

/-- **The search ends**, wherever it starts. -/
theorem wellFounded_retries (scope : Scope) (desired : String) :
    WellFounded (scope.Retries desired) := by
  obtain ⟨last, hlast⟩ := (finite_used_attempts scope desired).bddAbove
  -- behind the last attempt that is in use there is nothing to retry, so what is left of the
  -- way to it gets shorter with every turn
  refine Subrelation.wf (r := InvImage (· < ·) fun k => last + 1 - k) ?_
    (InvImage.wf _ Nat.lt_wfRel.wf)
  rintro next k ⟨hused, rfl⟩
  have hle : k ≤ last := by
    rcases Nat.eq_zero_or_pos k with rfl | hpos
    · exact Nat.zero_le last
    · exact hlast (by rwa [Set.mem_ofPred_eq, attempt_of_pos hpos])
  change last + 1 - (k + 1) < last + 1 - k
  omega

/-! ## counting the attempts in use -/

/-- As many identifiers are in use as there are attempts in use. -/
theorem le_usedCount (desired : String) {k : Nat}
    (h : ∀ j < k, scope.isUsed (attempt desired j) = true) : k ≤ scope.usedCount := by
  let tried := (List.range k).map fun j => lowerAscii (attempt desired j)
  have hnodup : tried.Nodup := List.nodup_range.map (attempt_injective desired)
  have hsubset : tried ⊆ (scope.used.map (·.1)).dedup := by
    intro ident hident
    obtain ⟨j, hj, rfl⟩ := List.mem_map.mp hident
    exact List.mem_dedup.mpr (isUsed_eq_true_iff.mp (h j (List.mem_range.mp hj)))
  have hlength := (hnodup.subperm hsubset).length_le
  simpa [tried, usedCount] using hlength

/-- A search that may try far enough ends at the first attempt that is free. -/
theorem firstFree_eq {tries first k : Nat} (hfirst : first ≤ k) (hfar : k ≤ first + tries)
    (hbefore : ∀ j, first ≤ j → j < k → scope.isUsed (numbered desired j) = true)
    (hfree : scope.isUsed (numbered desired k) = false) :
    scope.firstFree desired tries first = numbered desired k := by
  induction tries generalizing first with
  | zero =>
      obtain rfl : first = k := by omega
      rfl
  | succ tries ih =>
      rw [firstFree]
      rcases Nat.eq_or_lt_of_le hfirst with rfl | hlt
      · rw [hfree, if_neg Bool.false_ne_true]
      · rw [if_pos (hbefore first (Nat.le_refl first) hlt)]
        exact ih hlt (by omega) fun j hj hjk => hbefore j (by omega) hjk

/-- A wanted name that is in use has a least free attempt, whose number is at most the number
of identifiers in use. -/
theorem exists_least_attempt (hused : scope.isUsed desired = true) :
    ∃ k, IsLeast {k | 1 ≤ k ∧ scope.isUsed (numbered desired k) = false} k ∧
      k ≤ scope.usedCount := by
  obtain ⟨k, hk, hchosen, hbefore⟩ := isUsed_before_firstFree scope desired scope.used.length 1
  have hfree := isUsed_firstFree scope desired
  rw [hchosen] at hfree
  refine ⟨k, ⟨⟨hk, hfree⟩, ?_⟩, le_usedCount desired fun j hjk => ?_⟩
  · rintro j ⟨hj, hunused⟩
    by_contra hjk
    rw [hbefore j hj (by omega)] at hunused
    cases hunused
  · cases j with
    | zero => exact hused
    | succ j => exact hbefore (j + 1) (by omega) hjk

theorem usedCount_le (scope : Scope) : scope.usedCount ≤ scope.used.length := by
  have hle := (List.dedup_sublist (scope.used.map (·.1))).length_le
  rwa [List.length_map] at hle

/-- **The least free spelling is chosen.**  The search for one ends.  A name that nobody holds
is given as it is wanted; one that an included mixin holds is refused, and the mixin is named;
any other becomes the numbered form with the least number, from one on, that is free.  The
number is at most the number of identifiers in use, and a search that may try more attempts
gives the same. -/
theorem least_free_spelling_is_chosen (scope : Scope) (desired : String) :
    WellFounded (scope.Retries desired) ∧
    (scope.isUsed desired = false → scope.free desired = .ok desired) ∧
    (∀ category mixin, scope.occupant? desired = some (.included category mixin) →
      scope.free desired = .error (.mixinConflict scope.definition mixin desired)) ∧
    ∀ occupant, scope.occupant? desired = some occupant →
      (∀ category mixin, occupant ≠ .included category mixin) →
      ∃ k, scope.free desired = .ok (numbered desired k) ∧
        IsLeast {k | 1 ≤ k ∧ scope.isUsed (numbered desired k) = false} k ∧
        k ≤ scope.usedCount ∧
        ∀ tries, scope.usedCount ≤ tries →
          scope.firstFree desired tries 1 = numbered desired k := by
  refine ⟨wellFounded_retries scope desired, fun hfree => ?_, fun category mixin hocc => ?_,
    fun occupant hocc hother => ?_⟩
  · have hnone : scope.occupant? desired = none := by simpa [isUsed] using hfree
    simp only [free, hnone]
  · simp only [free, hocc]
  · have hused : scope.isUsed desired = true := by rw [isUsed, hocc, Option.isSome_some]
    obtain ⟨k, hleast, hcount⟩ := exists_least_attempt hused
    have hsearch : ∀ tries, scope.usedCount ≤ tries →
        scope.firstFree desired tries 1 = numbered desired k := by
      intro tries htries
      refine firstFree_eq hleast.1.1 (by omega) (fun j hj hjk => ?_) hleast.1.2
      by_contra hfree
      exact absurd (hleast.2 ⟨hj, by simpa using hfree⟩) (by omega)
    refine ⟨k, ?_, hleast, hcount, hsearch⟩
    have hchosen := hsearch scope.used.length (usedCount_le scope)
    unfold free
    rw [hocc]
    cases occupant with
    | included category mixin => exact absurd rfl (hother category mixin)
    | builtin => simp only [hchosen]
    | own category => simp only [hchosen]
    | inherited category => simp only [hchosen]

/-- A scope in which a name and two numbered forms of it are held. -/
def crowded : Scope where
  definition := "Page"
  used := [("_3_open", .inherited .operation), ("open", .own .operation), ("_1_open", .builtin)]

/-- The number between those that are held is chosen. -/
theorem crowded_name_takes_the_gap :
    crowded.occupant? "Open" = some (.own .operation) ∧ crowded.usedCount = 3 ∧
      crowded.free "Open" = .ok "_2_Open" ∧
      IsLeast {k | 1 ≤ k ∧ crowded.isUsed (numbered "Open" k) = false} 2 := by
  have hholder : crowded.occupant? "Open" = some (.own .operation) := by decide +kernel
  have hchosen : crowded.free "Open" = .ok (numbered "Open" 2) := by decide +kernel
  obtain ⟨-, -, -, hnumbered⟩ := least_free_spelling_is_chosen crowded "Open"
  obtain ⟨k, hk, hleast, -⟩ := hnumbered _ hholder (fun _ _ h => by cases h)
  rw [hchosen, Except.ok.injEq] at hk
  obtain rfl : 2 = k := numbered_injective (by rw [hk])
  exact ⟨hholder, by decide +kernel, hchosen, hleast⟩

end Scope

end WebIdl
