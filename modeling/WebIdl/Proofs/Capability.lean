import WebIdl.Capability
import WebIdl.Proofs.Outcome

/-!
# WebIdl.Proofs.Capability

What the capabilities of a definition say about its surface: a role is played, a `length`
is counted and an iterable is declared exactly if some member on the surface does so; and
what they name as the source of a role or of the count is such a member (`sources`).
-/

namespace WebIdl

/-- A member plays a role. -/
inductive SurfaceMember.Plays (c : Catalog) (item : SurfaceMember) : SpecialKind → Prop where
  | operation {decl : Operation} {kind : SpecialKind} (h : item.member.kind = .operation decl)
      (hkind : c.specialKind decl.special decl.signature = .ok (some kind)) :
      item.Plays c kind
  | stringifier {decl : Attribute} (h : item.member.kind = .attribute decl)
      (hspecial : decl.special = .stringifier) : item.Plays c .stringifier

/-- A member is an integer attribute `length`. -/
def SurfaceMember.Counts (c : Catalog) (item : SurfaceMember) : Prop :=
  ∃ decl, item.member.kind = .attribute decl ∧ decl.name = "length" ∧
    c.isInteger decl.type = .ok true

/-- A member declares an iterable. -/
def SurfaceMember.Iterates (item : SurfaceMember) : Prop :=
  ∃ decl, item.member.kind = .iterable decl

namespace Capabilities

variable {c : Catalog} {caps caps' : Capabilities}

/-! ## one member -/

@[simp] theorem count_noteSpecial (caps : Capabilities) (kind : SpecialKind)
    (source : SpecialSource) : (caps.noteSpecial kind source).count = caps.count := by
  rw [noteSpecial]
  split
  · rfl
  · rfl

@[simp] theorem iterable_noteSpecial (caps : Capabilities) (kind : SpecialKind)
    (source : SpecialSource) : (caps.noteSpecial kind source).iterable = caps.iterable := by
  rw [noteSpecial]
  split
  · rfl
  · rfl

/-- Noting a role adds that role. -/
theorem hasSpecial_noteSpecial {kind other : SpecialKind} {source : SpecialSource} :
    (caps.noteSpecial kind source).hasSpecial other = true ↔
      caps.hasSpecial other = true ∨ other = kind := by
  rw [noteSpecial]
  split
  · next hknown =>
      constructor
      · exact Or.inl
      · rintro (h | rfl)
        · exact h
        · exact hknown
  · rw [hasSpecial, hasSpecial, special?, special?, List.lookup_append]
    by_cases hsame : other = kind
    · simp [hsame]
    · simp [hsame, List.lookup_cons, beq_eq_false_iff_ne.mpr hsame]

/-- What an attribute adds. -/
theorem noteAttribute_ok {owner : String} {decl : Attribute}
    (h : caps.noteAttribute c owner decl = .ok caps') :
    (∀ kind, caps'.hasSpecial kind = true ↔
      caps.hasSpecial kind = true ∨ kind = .stringifier ∧ decl.special = .stringifier) ∧
    (caps'.counts = true ↔
      caps.counts = true ∨ decl.name = "length" ∧ c.isInteger decl.type = .ok true) ∧
    caps'.iterable = caps.iterable := by
  rw [noteAttribute] at h
  generalize hnoted : (if decl.special == .stringifier then
    caps.noteSpecial .stringifier (.attribute owner decl.name) else caps) = noted at h
  have hnotes : (∀ kind, noted.hasSpecial kind = true ↔
      caps.hasSpecial kind = true ∨ kind = .stringifier ∧ decl.special = .stringifier) ∧
      noted.count = caps.count ∧ noted.iterable = caps.iterable := by
    rw [← hnoted]
    by_cases hspecial : decl.special = .stringifier
    · simp only [hspecial, beq_self_eq_true, if_true, and_true]
      exact ⟨fun kind => hasSpecial_noteSpecial, count_noteSpecial _ _ _,
        iterable_noteSpecial _ _ _⟩
    · simp [hspecial]
  obtain ⟨hspecials, hcount, hiterable⟩ := hnotes
  rw [counts, counts]
  dsimp only at h
  split at h
  · next hlength =>
      rw [Bool.and_eq_true_iff, beq_iff_eq, hcount] at hlength
      obtain ⟨hname, hnone⟩ := hlength
      rw [bind_eq_ok] at h
      obtain ⟨integer, hinteger, h⟩ := h
      have hopen : caps.count.isSome = false := by simpa using hnone
      cases integer with
      | true =>
          rw [if_pos rfl, pure_eq_ok] at h
          subst h
          exact ⟨hspecials, by simp [hname, hinteger], hiterable⟩
      | false =>
          rw [if_neg Bool.false_ne_true, pure_eq_ok] at h
          subst h
          exact ⟨hspecials, by simp [hcount, hopen, hinteger], hiterable⟩
  · next hlength =>
      rw [pure_eq_ok] at h
      subst h
      refine ⟨hspecials, ?_, hiterable⟩
      rw [hcount]
      constructor
      · exact Or.inl
      · rintro (hsome | ⟨hname, -⟩)
        · exact hsome
        · rw [Option.isSome_iff_ne_none]
          simpa [hname, hcount] using hlength

/-- What an operation adds. -/
theorem noteOperation_ok {owner : String} {decl : Operation}
    (h : caps.noteOperation c owner decl = .ok caps') :
    (∀ kind, caps'.hasSpecial kind = true ↔ caps.hasSpecial kind = true ∨
      c.specialKind decl.special decl.signature = .ok (some kind)) ∧
    caps'.count = caps.count ∧ caps'.iterable = caps.iterable := by
  rw [noteOperation, bind_eq_ok] at h
  obtain ⟨role, hrole, h⟩ := h
  cases role with
  | none =>
      rw [pure_eq_ok] at h
      subst h
      simp [hrole]
  | some kind =>
      have hsource : ∃ source, caps' = caps.noteSpecial kind source := by
        dsimp only at h
        split at h
        · exact ⟨_, (pure_eq_ok.mp h).symm⟩
        · exact ⟨_, (pure_eq_ok.mp h).symm⟩
      obtain ⟨source, rfl⟩ := hsource
      refine ⟨fun other => ?_, count_noteSpecial _ _ _, iterable_noteSpecial _ _ _⟩
      rw [hasSpecial_noteSpecial, hrole, Except.ok.injEq, Option.some.injEq]
      exact or_congr_right eq_comm

/-- A member of another kind plays no role. -/
theorem plays_iff {item : SurfaceMember} {kind : SpecialKind} :
    item.Plays c kind ↔ match item.member.kind with
      | .operation decl => c.specialKind decl.special decl.signature = .ok (some kind)
      | .attribute decl => kind = .stringifier ∧ decl.special = .stringifier
      | _ => False := by
  constructor
  · intro h
    cases h with
    | operation h hkind =>
        rw [h]
        exact hkind
    | stringifier h hspecial =>
        rw [h]
        exact ⟨rfl, hspecial⟩
  · intro h
    split at h
    · next hmember => exact .operation hmember h
    · next hmember =>
        obtain ⟨rfl, hspecial⟩ := h
        exact .stringifier hmember hspecial
    · exact h.elim

/-- What a member adds. -/
theorem note_ok {item : SurfaceMember} (h : caps.note c item = .ok caps') :
    (∀ kind, caps'.hasSpecial kind = true ↔ caps.hasSpecial kind = true ∨ item.Plays c kind) ∧
    (caps'.counts = true ↔ caps.counts = true ∨ item.Counts c) ∧
    (caps'.declaresIterable = true ↔ caps.declaresIterable = true ∨ item.Iterates) := by
  rw [note] at h
  simp only [plays_iff, SurfaceMember.Counts, SurfaceMember.Iterates]
  cases hkind : item.member.kind with
  | operation decl =>
      rw [hkind] at h
      obtain ⟨hspecials, hcount, hiterable⟩ := noteOperation_ok h
      refine ⟨hspecials, ?_, ?_⟩
      · simp [counts, hcount]
      · simp [declaresIterable, hiterable]
  | «attribute» decl =>
      rw [hkind] at h
      obtain ⟨hspecials, hcount, hiterable⟩ := noteAttribute_ok h
      refine ⟨hspecials, ?_, ?_⟩
      · rw [hcount]
        simp
      · simp [declaresIterable, hiterable]
  | iterable decl =>
      rw [hkind, Except.ok.injEq] at h
      subst h
      refine ⟨fun kind => ?_, ?_, ?_⟩
      · simp [hasSpecial, special?]
      · simp [counts]
      · simp [declaresIterable]
  | field decl =>
      rw [hkind, Except.ok.injEq] at h
      subst h
      simp
  | constant decl =>
      rw [hkind, Except.ok.injEq] at h
      subst h
      simp
  | constructor arguments =>
      rw [hkind, Except.ok.injEq] at h
      subst h
      simp

/-! ## keyed access -/

/-- What counts has keys. -/
theorem keyed_of_counts (h : caps.counts = true) : caps.keyed = true := by
  rw [keyed, h, Bool.or_true]

theorem keyed_of_hasSpecial {kind : SpecialKind} (h : caps.hasSpecial kind = true) :
    caps.keyed = true := by
  rw [hasSpecial, special?] at h
  cases hspecials : caps.specials with
  | nil =>
      rw [hspecials] at h
      cases h
  | cons => rw [keyed, hspecials]; rfl

/-- What an iterator follows from has keys. -/
theorem keyed_of_derivesIterator (h : caps.derivesIterator = true) : caps.keyed = true := by
  rw [derivesIterator, Bool.and_eq_true_iff, Bool.and_eq_true_iff] at h
  exact keyed_of_counts h.1.2

/-! ## a surface -/

section

variable {d : Definition} (h : Capabilities.of c d = .ok caps)
include h

/-- A role is played if a member on the surface plays it. -/
theorem hasSpecial_iff {kind : SpecialKind} :
    caps.hasSpecial kind = true ↔ ∃ item ∈ c.surface d, item.Plays c kind := by
  have hrun := foldlM_ok_iff (Q := fun caps => caps.hasSpecial kind = true)
    (fun item s s' hs => (note_ok hs).1 kind) h
  rw [hrun]
  exact or_iff_right Bool.false_ne_true

/-- There is a count if there is an integer `length` on the surface. -/
theorem counts_iff : caps.counts = true ↔ ∃ item ∈ c.surface d, item.Counts c := by
  have hrun := foldlM_ok_iff (Q := fun caps => caps.counts = true)
    (fun item s s' hs => (note_ok hs).2.1) h
  rw [hrun]
  exact or_iff_right Bool.false_ne_true

/-- An iterable is declared if a member on the surface declares one. -/
theorem declaresIterable_iff :
    caps.declaresIterable = true ↔ ∃ item ∈ c.surface d, item.Iterates := by
  have hrun := foldlM_ok_iff (Q := fun caps => caps.declaresIterable = true)
    (fun item s s' hs => (note_ok hs).2.2) h
  rw [hrun]
  exact or_iff_right Bool.false_ne_true

/-- Where something derives an iterator, all with a larger surface iterate. -/
theorem iterates_of_subset {o : Definition} {caps' : Capabilities}
    (h' : Capabilities.of c o = .ok caps') (hsurface : c.surface o ⊆ c.surface d)
    (hderives : caps'.derivesIterator = true) : caps.iterates = true := by
  rw [derivesIterator, Bool.and_eq_true_iff, Bool.and_eq_true_iff] at hderives
  obtain ⟨⟨hspecial, hcounts⟩, -⟩ := hderives
  obtain ⟨item, hitem, hplays⟩ := (hasSpecial_iff h').mp hspecial
  obtain ⟨item', hitem', hlength⟩ := (counts_iff h').mp hcounts
  have hspecial' := (hasSpecial_iff h).mpr ⟨item, hsurface hitem, hplays⟩
  have hcounts' := (counts_iff h).mpr ⟨item', hsurface hitem', hlength⟩
  rw [iterates, derivesIterator, hspecial', hcounts', Bool.true_and, Bool.true_and,
    Bool.or_not_self]

end

/-! ## sources -/

/-- A member is the source of a role. -/
inductive IsSource (c : Catalog) (item : SurfaceMember) : SpecialKind → SpecialSource → Prop where
  | unnamed {decl : Operation} {kind : SpecialKind} (h : item.member.kind = .operation decl)
      (hname : decl.name = none)
      (hkind : c.specialKind decl.special decl.signature = .ok (some kind)) :
      IsSource c item kind (.unnamed item.owner.name)
  | operation {decl : Operation} {kind : SpecialKind} {name : String}
      (h : item.member.kind = .operation decl) (hname : decl.name = some name)
      (hkind : c.specialKind decl.special decl.signature = .ok (some kind)) :
      IsSource c item kind (.operation item.owner.name name)
  | attribute {decl : Attribute} (h : item.member.kind = .attribute decl)
      (hspecial : decl.special = .stringifier) :
      IsSource c item .stringifier (.attribute item.owner.name decl.name)

/-- A member is the integer attribute that the count is read from. -/
def IsCount (c : Catalog) (item : SurfaceMember) (source : String × String) : Prop :=
  ∃ decl, item.member.kind = .attribute decl ∧ decl.name = "length" ∧
    c.isInteger decl.type = .ok true ∧ source = (item.owner.name, decl.name)

/-- A role is filled by what filled it before or by what was noted. -/
theorem special?_noteSpecial {kind other : SpecialKind} {source found : SpecialSource}
    (h : (caps.noteSpecial kind source).special? other = some found) :
    caps.special? other = some found ∨ other = kind ∧ found = source := by
  rw [noteSpecial] at h
  split at h
  · exact Or.inl h
  · rw [special?, List.lookup_append, Option.or_eq_some_iff] at h
    by_cases hsame : other = kind
    · subst hsame
      simp only [List.lookup_cons, beq_self_eq_true, Option.some.injEq] at h
      exact h.imp id fun h => ⟨rfl, h.2.symm⟩
    · simp only [List.lookup_cons, beq_eq_false_iff_ne.mpr hsame, List.lookup_nil,
        reduceCtorEq, and_false, or_false] at h
      exact Or.inl h

/-- What a member adds has the member as its source. -/
theorem source_note {item : SurfaceMember} (h : caps.note c item = .ok caps') :
    (∀ kind source, caps'.special? kind = some source →
      caps.special? kind = some source ∨ IsSource c item kind source) ∧
    ∀ source, caps'.count = some source → caps.count = some source ∨ IsCount c item source := by
  rw [note] at h
  cases hkind : item.member.kind with
  | operation decl =>
      simp only [hkind, noteOperation, bind_eq_ok] at h
      obtain ⟨role, hrole, h⟩ := h
      cases role with
      | none =>
          rw [pure_eq_ok] at h
          subst h
          exact ⟨fun _ _ => Or.inl, fun _ => Or.inl⟩
      | some role =>
          have hsource : ∃ source, caps' = caps.noteSpecial role source ∧
              IsSource c item role source := by
            cases hname : decl.name with
            | none =>
                simp only [hname, pure_eq_ok] at h
                exact ⟨_, h.symm, .unnamed hkind hname hrole⟩
            | some name =>
                simp only [hname, pure_eq_ok] at h
                exact ⟨_, h.symm, .operation hkind hname hrole⟩
          obtain ⟨source, rfl, hsource⟩ := hsource
          constructor
          · intro kind found hfound
            refine (special?_noteSpecial hfound).imp id ?_
            rintro ⟨rfl, rfl⟩
            exact hsource
          · intro found hfound
            rw [count_noteSpecial] at hfound
            exact Or.inl hfound
  | «attribute» decl =>
      simp only [hkind, noteAttribute] at h
      generalize hnoted : (if decl.special == .stringifier then
        caps.noteSpecial .stringifier (.attribute item.owner.name decl.name) else caps) = noted at h
      have hspecials : ∀ kind source, noted.special? kind = some source →
          caps.special? kind = some source ∨ IsSource c item kind source := by
        intro kind source hsource
        rw [← hnoted] at hsource
        split at hsource
        next hspecial =>
          refine (special?_noteSpecial hsource).imp id ?_
          rintro ⟨rfl, rfl⟩
          exact .attribute hkind (by simpa using hspecial)
        next => exact Or.inl hsource
      have hcount : noted.count = caps.count := by
        rw [← hnoted]
        split
        · exact count_noteSpecial _ _ _
        · rfl
      split at h
      next hlength =>
        rw [bind_eq_ok] at h
        obtain ⟨integer, hinteger, h⟩ := h
        cases integer with
        | true =>
            rw [if_pos rfl, pure_eq_ok] at h
            subst h
            refine ⟨hspecials, fun source hsource => Or.inr ?_⟩
            have hname : decl.name = "length" := by simp at hlength; exact hlength.1
            exact ⟨decl, hkind, hname, hinteger, (Option.some.inj hsource).symm⟩
        | false =>
            rw [if_neg Bool.false_ne_true, pure_eq_ok] at h
            subst h
            exact ⟨hspecials, fun source hsource => Or.inl (hcount ▸ hsource)⟩
      next =>
        rw [pure_eq_ok] at h
        subst h
        exact ⟨hspecials, fun source hsource => Or.inl (hcount ▸ hsource)⟩
  | iterable decl =>
      simp only [hkind, Except.ok.injEq] at h
      subst h
      exact ⟨fun _ _ => Or.inl, fun _ => Or.inl⟩
  | field decl =>
      simp only [hkind, Except.ok.injEq] at h
      subst h
      exact ⟨fun _ _ => Or.inl, fun _ => Or.inl⟩
  | constant decl =>
      simp only [hkind, Except.ok.injEq] at h
      subst h
      exact ⟨fun _ _ => Or.inl, fun _ => Or.inl⟩
  | constructor arguments =>
      simp only [hkind, Except.ok.injEq] at h
      subst h
      exact ⟨fun _ _ => Or.inl, fun _ => Or.inl⟩

section

variable {d : Definition} (h : Capabilities.of c d = .ok caps)
include h

/-- The sources of roles and of the count are on the surface. -/
theorem sources :
    (∀ kind source, caps.special? kind = some source →
      ∃ item ∈ c.surface d, IsSource c item kind source) ∧
    ∀ source, caps.count = some source → ∃ item ∈ c.surface d, IsCount c item source := by
  refine foldlM_ok_inv (P := fun caps => (∀ kind source, caps.special? kind = some source →
      ∃ item ∈ c.surface d, IsSource c item kind source) ∧
    ∀ source, caps.count = some source → ∃ item ∈ c.surface d, IsCount c item source) ?_ ?_ h
  · intro item hitem before after hbefore hstep
    obtain ⟨hspecials, hcount⟩ := source_note hstep
    constructor
    · intro kind source hsource
      rcases hspecials kind source hsource with hold | hnew
      · exact hbefore.1 kind source hold
      · exact ⟨item, hitem, hnew⟩
    · intro source hsource
      rcases hcount source hsource with hold | hnew
      · exact hbefore.2 source hold
      · exact ⟨item, hitem, hnew⟩
  · exact ⟨fun kind source hsource => (by cases hsource), fun source hsource => (by cases hsource)⟩

end

end Capabilities

end WebIdl
