import Mathlib

/-!
# WebIdl.Proofs.Spelling

How tokens are spelled: regular expressions over characters, and what can be said about a text
that fits one.

Membership is one equivalence for each way of putting expressions together.  Two facts are
read off an expression without taking its texts apart: what they can start with (`mem_heads`)
and what they can have in them (`mem_letters`).
-/

namespace WebIdl.Spelling

open RegularExpression (char)

/-- Whether a text is spelled as an expression says. -/
def Fits (r : RegularExpression Char) (text : String) : Prop :=
  text.toList ∈ r.matches'

instance (r : RegularExpression Char) (text : String) : Decidable (Fits r text) :=
  inferInstanceAs (Decidable (text.toList ∈ r.matches'))

/-- One of the characters of a text. -/
def oneOf (chars : String) : RegularExpression Char :=
  chars.toList.foldr (fun c others => char c + others) 0

/-- Once or more often. -/
def repeated (r : RegularExpression Char) : RegularExpression Char :=
  r * r.star

/-- Once or not at all. -/
def maybe (r : RegularExpression Char) : RegularExpression Char :=
  1 + r

/-- With a minus sign before it, or without one. -/
def signed (r : RegularExpression Char) : RegularExpression Char :=
  maybe (char '-') * r

/-! ## membership -/

variable {chars : String} {r s : RegularExpression Char} {c : Char} {w : List Char}

theorem mem_char : w ∈ (char c).matches' ↔ w = [c] :=
  Set.mem_singleton_iff

theorem mem_add : w ∈ (r + s).matches' ↔ w ∈ r.matches' ∨ w ∈ s.matches' :=
  Iff.rfl

theorem mem_mul : w ∈ (r * s).matches' ↔ ∃ u ∈ r.matches', ∃ v ∈ s.matches', u ++ v = w :=
  Language.mem_mul

/-- What starts with a character is that character and something more. -/
theorem mem_char_mul : w ∈ (char c * r).matches' ↔ ∃ v ∈ r.matches', w = c :: v := by
  rw [mem_mul]
  simp only [mem_char, exists_eq_left, List.singleton_append, eq_comm]

/-- One of some characters is a single character. -/
theorem mem_oneOf : w ∈ (oneOf chars).matches' ↔ ∃ c ∈ chars.toList, w = [c] := by
  rw [oneOf]
  induction chars.toList with
  | nil => simp
  | cons c cs ih => rw [List.foldr_cons, mem_add, mem_char, ih, List.exists_mem_cons_iff]

/-- What starts with one of some characters is such a character and something more. -/
theorem mem_oneOf_mul : w ∈ (oneOf chars * r).matches' ↔
    ∃ c ∈ chars.toList, ∃ v ∈ r.matches', w = c :: v := by
  rw [mem_mul]
  constructor
  · rintro ⟨u, hu, v, hv, rfl⟩
    obtain ⟨c, hc, rfl⟩ := mem_oneOf.mp hu
    exact ⟨c, hc, v, hv, rfl⟩
  · rintro ⟨c, hc, v, hv, rfl⟩
    exact ⟨[c], mem_oneOf.mpr ⟨c, hc, rfl⟩, v, hv, rfl⟩

/-- Some characters, repeated, are the texts that have no other ones. -/
theorem mem_star_oneOf : w ∈ (oneOf chars).star.matches' ↔ ∀ c ∈ w, c ∈ chars.toList := by
  rw [RegularExpression.matches'_star, Language.mem_kstar]
  constructor
  · rintro ⟨pieces, rfl, hpieces⟩ c hc
    obtain ⟨piece, hpiece, hmem⟩ := List.mem_flatten.mp hc
    obtain ⟨d, hd, rfl⟩ := mem_oneOf.mp (hpieces piece hpiece)
    rwa [List.mem_singleton.mp hmem]
  · intro h
    refine ⟨w.map fun c => [c], ?_, fun piece hpiece => ?_⟩
    · rw [← List.flatMap_def, List.flatMap_singleton']
    · obtain ⟨c, hc, rfl⟩ := List.mem_map.mp hpiece
      exact mem_oneOf.mpr ⟨c, h c hc, rfl⟩

/-- Repeated at least once, they are those that are not empty. -/
theorem mem_repeated_oneOf :
    w ∈ (repeated (oneOf chars)).matches' ↔ w ≠ [] ∧ ∀ c ∈ w, c ∈ chars.toList := by
  rw [repeated, mem_oneOf_mul]
  constructor
  · rintro ⟨c, hc, v, hv, rfl⟩
    exact ⟨List.cons_ne_nil c v, List.forall_mem_cons.mpr ⟨hc, mem_star_oneOf.mp hv⟩⟩
  · rintro ⟨hne, hw⟩
    obtain ⟨c, v, rfl⟩ := List.exists_cons_of_ne_nil hne
    obtain ⟨hc, hv⟩ := List.forall_mem_cons.mp hw
    exact ⟨c, hc, v, mem_star_oneOf.mpr hv, rfl⟩

/-- What may be left out is empty or there. -/
theorem mem_maybe : w ∈ (maybe r).matches' ↔ w = [] ∨ w ∈ r.matches' :=
  Iff.rfl

/-- A part may have others behind it. -/
theorem le_mul_star (r s : RegularExpression Char) : r.matches' ≤ (r * s.star).matches' :=
  le_mul_of_one_le_right' one_le_kstar

/-! ## what texts start with and have in them -/

/-- What a text can start with. -/
def heads : RegularExpression Char → List Char
  | .zero => []
  | .epsilon => []
  | .char c => [c]
  | .plus r s => heads r ++ heads s
  | .comp r s => if r.matchEpsilon then heads r ++ heads s else heads r
  | .star r => heads r

/-- A text starts with one of the characters that it can start with. -/
theorem mem_heads (h : c :: w ∈ r.matches') : c ∈ heads r := by
  induction r generalizing c w with
  | zero => cases h
  | epsilon => cases h
  | char d =>
      rw [(List.cons.inj (mem_char.mp h)).1]
      exact List.mem_singleton_self d
  | plus r s hr hs =>
      rcases mem_add.mp h with h | h
      · exact List.mem_append_left _ (hr h)
      · exact List.mem_append_right _ (hs h)
  | comp r s hr hs =>
      obtain ⟨u, hu, v, hv, huv⟩ := mem_mul.mp h
      rw [heads]
      cases u with
      | nil =>
          rw [← RegularExpression.rmatch_iff_matches', RegularExpression.rmatch] at hu
          rw [List.nil_append] at huv
          rw [if_pos hu]
          exact List.mem_append_right _ (hs (huv ▸ hv))
      | cons d u =>
          have hc : c ∈ heads r := hr ((List.cons.inj huv).1 ▸ hu)
          split
          · exact List.mem_append_left _ hc
          · exact hc
  | star r hr =>
      rw [RegularExpression.matches'_star, Language.mem_kstar_iff_exists_nonempty] at h
      obtain ⟨pieces, hw, hpieces⟩ := h
      cases pieces with
      | nil => cases hw
      | cons piece pieces =>
          obtain ⟨hpiece, hne⟩ := hpieces piece List.mem_cons_self
          obtain ⟨d, piece, rfl⟩ := List.exists_cons_of_ne_nil hne
          rw [List.flatten_cons, List.cons_append] at hw
          exact hr ((List.cons.inj hw).1 ▸ hpiece)

/-- What a text can have in it. -/
def letters : RegularExpression Char → List Char
  | .zero => []
  | .epsilon => []
  | .char c => [c]
  | .plus r s => letters r ++ letters s
  | .comp r s => letters r ++ letters s
  | .star r => letters r

/-- A text has no characters but those that it can have. -/
theorem mem_letters (h : w ∈ r.matches') (hc : c ∈ w) : c ∈ letters r := by
  induction r generalizing w with
  | zero => cases h
  | epsilon =>
      rw [show w = [] from h] at hc
      cases hc
  | char d =>
      rw [mem_char.mp h] at hc
      exact hc
  | plus r s hr hs =>
      rcases mem_add.mp h with h | h
      · exact List.mem_append_left _ (hr h hc)
      · exact List.mem_append_right _ (hs h hc)
  | comp r s hr hs =>
      obtain ⟨u, hu, v, hv, rfl⟩ := mem_mul.mp h
      rcases List.mem_append.mp hc with hc | hc
      · exact List.mem_append_left _ (hr hu hc)
      · exact List.mem_append_right _ (hs hv hc)
  | star r hr =>
      rw [RegularExpression.matches'_star, Language.mem_kstar] at h
      obtain ⟨pieces, rfl, hpieces⟩ := h
      obtain ⟨piece, hpiece, hc⟩ := List.mem_flatten.mp hc
      exact hr (hpieces piece hpiece) hc

/-! ## signs -/

/-- A sign is dropped, if no text starts with one by itself. -/
theorem cons_mem_signed (h : '-' ∉ heads r) :
    '-' :: w ∈ (signed r).matches' ↔ w ∈ r.matches' := by
  rw [signed, mem_mul]
  constructor
  · rintro ⟨u, hu, v, hv, huv⟩
    rcases mem_maybe.mp hu with rfl | hu
    · rw [List.nil_append] at huv
      exact absurd (mem_heads (huv ▸ hv)) h
    · obtain rfl := mem_char.mp hu
      exact (List.cons.inj huv).2 ▸ hv
  · intro hw
    exact ⟨['-'], mem_maybe.mpr (Or.inr (mem_char.mpr rfl)), w, hw, rfl⟩

/-- A text without a sign has none to drop. -/
theorem mem_signed_of_head (h : w.head? ≠ some '-') :
    w ∈ (signed r).matches' ↔ w ∈ r.matches' := by
  rw [signed, mem_mul]
  constructor
  · rintro ⟨u, hu, v, hv, rfl⟩
    rcases mem_maybe.mp hu with rfl | hu
    · exact hv
    · obtain rfl := mem_char.mp hu
      exact absurd rfl h
  · intro hw
    exact ⟨[], mem_maybe.mpr (Or.inl rfl), w, hw, rfl⟩

/-- A sign keeps one expression within another one. -/
theorem signed_le (h : r.matches' ≤ s.matches') : (signed r).matches' ≤ (signed s).matches' :=
  mul_le_mul' le_rfl h

/-- Expressions without signs that have no text in common have none in common with signs. -/
theorem signed_disjoint (hr : '-' ∉ heads r) (hs : '-' ∉ heads s)
    (h : ∀ w ∈ r.matches', w ∉ s.matches') (hw : w ∈ (signed r).matches') :
    w ∉ (signed s).matches' := by
  by_cases hsign : w.head? = some '-'
  · obtain ⟨v, rfl⟩ := List.head?_eq_some_iff.mp hsign
    rw [cons_mem_signed hr] at hw
    rw [cons_mem_signed hs]
    exact h v hw
  · rw [mem_signed_of_head hsign] at hw ⊢
    exact h w hw

end WebIdl.Spelling
