import WebIdl.Text.Split

/-!
# WebIdl.Proofs.Split

Texts with bars, cut and put together.

A cut at every bar sees a text put together from two as the pieces of both, with the two
that meet joined (`splitChars_append`).  A cut outside of brackets passes over what is
`Solid`: a text in which bars stand inside of brackets only, and brackets are closed.  Solid
texts with bars between them are cut at these bars (`splitTopLevel_joinWith`), and
everything between brackets is passed over (`solid_bracketed`).
-/

namespace WebIdl.Text

/-! ## joined texts -/

@[simp] theorem joinWith_nil (sep : String) : joinWith sep [] = "" :=
  String.intercalate_nil

@[simp] theorem joinWith_singleton (sep piece : String) : joinWith sep [piece] = piece := by
  simp [joinWith]

/-- The first piece is in front of the others, and a separator between. -/
theorem joinWith_cons {sep piece : String} {pieces : List String} (h : pieces ≠ []) :
    joinWith sep (piece :: pieces) = piece ++ sep ++ joinWith sep pieces := by
  cases pieces with
  | nil => exact absurd rfl h
  | cons next pieces => exact String.intercalate_cons_cons

/-- The last piece is behind the others, and a separator between. -/
theorem joinWith_snoc {sep piece : String} {pieces : List String} (h : pieces ≠ []) :
    joinWith sep (pieces ++ [piece]) = joinWith sep pieces ++ sep ++ piece := by
  induction pieces with
  | nil => exact absurd rfl h
  | cons first pieces ih =>
      cases pieces with
      | nil => rw [List.singleton_append, joinWith_cons (by simp)]; simp
      | cons next pieces =>
          rw [List.cons_append, joinWith_cons (by simp), ih (by simp),
            joinWith_cons (List.cons_ne_nil next pieces)]
          simp only [String.append_assoc]

/-- A character of a joined text comes from the separator or from a piece. -/
theorem mem_toList_joinWith {sep : String} {pieces : List String} {c : Char}
    (h : c ∈ (joinWith sep pieces).toList) :
    c ∈ sep.toList ∨ ∃ piece ∈ pieces, c ∈ piece.toList := by
  induction pieces with
  | nil => simp at h
  | cons piece pieces ih =>
      cases pieces with
      | nil => exact Or.inr ⟨piece, List.mem_cons_self, by simpa using h⟩
      | cons next pieces =>
          rw [joinWith_cons (by simp)] at h
          simp only [String.toList_append, List.mem_append] at h
          obtain (h | h) | h := h
          · exact Or.inr ⟨piece, List.mem_cons_self, h⟩
          · exact Or.inl h
          · exact (ih h).imp_right fun ⟨other, hother, h⟩ =>
              ⟨other, List.mem_cons_of_mem piece hother, h⟩

/-! ## cutting at every separator -/

variable {sep : Char}

/-- A text without the separator is one piece. -/
theorem splitChars_of_not_mem {cs : List Char} (h : sep ∉ cs) : splitChars sep cs = [cs] := by
  induction cs with
  | nil => rfl
  | cons c cs ih =>
      rw [List.mem_cons, not_or] at h
      rw [splitChars, ih h.2]
      simp [Ne.symm h.1, consHead]

/-- Every character but the separator is in a piece. -/
theorem exists_piece_of_mem {cs : List Char} {c : Char} (hc : c ∈ cs) (hsep : c ≠ sep) :
    ∃ piece ∈ splitChars sep cs, c ∈ piece := by
  induction cs with
  | nil => cases hc
  | cons first cs ih =>
      obtain ⟨head, pieces, hpieces⟩ := List.exists_cons_of_ne_nil (splitChars_ne_nil sep cs)
      rw [splitChars]
      rcases List.mem_cons.mp hc with rfl | hc
      · rw [if_neg (by simpa using hsep), hpieces, consHead]
        simp
      · obtain ⟨piece, hpiece, hc⟩ := ih hc
        split
        · exact ⟨piece, List.mem_cons_of_mem _ hpiece, hc⟩
        · rw [hpieces, List.mem_cons] at hpiece
          rw [hpieces, consHead]
          rcases hpiece with rfl | hpiece
          · exact ⟨first :: piece, List.mem_cons_self, List.mem_cons_of_mem _ hc⟩
          · exact ⟨piece, List.mem_cons_of_mem _ hpiece, hc⟩

/-- A separator cuts a text in two. -/
theorem splitChars_append_sep (a b : List Char) :
    splitChars sep (a ++ sep :: b) = splitChars sep a ++ splitChars sep b := by
  induction a with
  | nil => simp [splitChars]
  | cons c a ih =>
      rw [List.cons_append, splitChars, splitChars, ih]
      split
      · rfl
      · cases ha : splitChars sep a with
        | nil => exact absurd ha (splitChars_ne_nil sep a)
        | cons piece pieces => rfl

/-- Two texts in a row: their pieces, with the two that meet joined. -/
theorem splitChars_append (a b : List Char) : ∃ init last first rest,
    splitChars sep a = init ++ [last] ∧ splitChars sep b = first :: rest ∧
      splitChars sep (a ++ b) = init ++ (last ++ first) :: rest := by
  induction a with
  | nil =>
      obtain ⟨first, rest, hb⟩ := List.exists_cons_of_ne_nil (splitChars_ne_nil sep b)
      exact ⟨[], [], first, rest, rfl, hb, by simpa using hb⟩
  | cons c a ih =>
      obtain ⟨init, last, first, rest, ha, hb, hab⟩ := ih
      rw [List.cons_append, splitChars, splitChars, ha, hab]
      split
      · exact ⟨[] :: init, last, first, rest, rfl, hb, rfl⟩
      · cases init with
        | nil => exact ⟨[], c :: last, first, rest, rfl, hb, rfl⟩
        | cons piece init => exact ⟨(c :: piece) :: init, last, first, rest, rfl, hb, rfl⟩

/-- The pieces of a text that have a separator on both sides. -/
def innerPieces (sep : Char) (cs : List Char) : List (List Char) :=
  (splitChars sep cs).tail.dropLast

/-- A text without the separator has no inner pieces. -/
theorem innerPieces_of_not_mem {cs : List Char} (h : sep ∉ cs) : innerPieces sep cs = [] := by
  rw [innerPieces, splitChars_of_not_mem h]
  rfl

/-- A text without a separator goes to the first piece of what it stands before. -/
theorem splitChars_append_left {pre cs : List Char} (h : sep ∉ pre) : ∃ first rest,
    splitChars sep cs = first :: rest ∧ splitChars sep (pre ++ cs) = (pre ++ first) :: rest := by
  obtain ⟨init, last, first, rest, hpre, hcs, hall⟩ := @splitChars_append sep pre cs
  rw [splitChars_of_not_mem h, List.singleton_eq_append_iff] at hpre
  obtain ⟨rfl, hlast⟩ | ⟨-, hlast⟩ := hpre
  · rw [List.singleton_inj.mp hlast] at hall
    exact ⟨first, rest, hcs, hall⟩
  · cases hlast

/-- What stands at the ends of a text is not between separators. -/
theorem innerPieces_append_left {pre cs : List Char} (h : sep ∉ pre) :
    innerPieces sep (pre ++ cs) = innerPieces sep cs := by
  obtain ⟨first, rest, hcs, hall⟩ := @splitChars_append_left sep pre cs h
  rw [innerPieces, innerPieces, hall, hcs]
  rfl

/-- Nothing without the separator that is put behind a text changes its inner pieces. -/
theorem innerPieces_append_right {cs post : List Char} (h : sep ∉ post) :
    innerPieces sep (cs ++ post) = innerPieces sep cs := by
  obtain ⟨init, last, first, rest, hcs, hpost, hall⟩ := @splitChars_append sep cs post
  rw [splitChars_of_not_mem h, List.cons.injEq] at hpost
  obtain ⟨-, rfl⟩ := hpost
  rw [innerPieces, innerPieces, hall, hcs]
  cases init <;> simp

/-- What joins two texts without a separator, and cannot be in a piece, keeps the pieces of
the two apart. -/
theorem mem_innerPieces_append {a mid b piece : List Char} {mark : Char} (hsep : sep ∉ mid)
    (hmark : mark ∈ mid) (hpiece : mark ∉ piece) :
    piece ∈ innerPieces sep (a ++ (mid ++ b)) ↔
      piece ∈ innerPieces sep a ∨ piece ∈ innerPieces sep b := by
  obtain ⟨first, rest, hb, hmid⟩ := @splitChars_append_left sep mid b hsep
  obtain ⟨init, last, first', rest', ha, hmid', hall⟩ :=
    @splitChars_append sep a (mid ++ b)
  rw [hmid, List.cons.injEq] at hmid'
  obtain ⟨rfl, rfl⟩ := hmid'
  have hne : piece ≠ last ++ (mid ++ first) := by
    rintro rfl
    simp [hmark] at hpiece
  rw [innerPieces, innerPieces, innerPieces, hall, ha, hb]
  cases init with
  | nil => simp
  | cons piece' init => cases rest <;> simp [hne, List.dropLast_append_of_ne_nil]

/-! ## pieces of texts with separators between them -/

/-- A joined text is cut where its parts are cut, and between them. -/
theorem splitChars_intercalate {parts : List (List Char)} (h : parts ≠ []) :
    splitChars sep ([sep].intercalate parts) = parts.flatMap (splitChars sep) := by
  induction parts with
  | nil => exact absurd rfl h
  | cons part parts ih =>
      cases parts with
      | nil => simp
      | cons next parts =>
          rw [List.intercalate_cons_cons, List.append_assoc, List.singleton_append,
            splitChars_append_sep, ih (by simp), ← List.flatMap_cons]

/-- A piece of a text is the whole of it or has separators on both sides. -/
def Sheltered (sep : Char) (piece part : List Char) : Prop :=
  piece ∈ splitChars sep part → part = piece ∨ piece ∈ innerPieces sep part

/-- A text without the separator is one piece itself. -/
theorem sheltered_of_not_mem {part : List Char} (piece : List Char) (h : sep ∉ part) :
    Sheltered sep piece part := by
  intro hpiece
  rw [splitChars_of_not_mem h, List.mem_singleton] at hpiece
  exact Or.inl hpiece.symm

/-- Ends that cannot be in a piece shelter it. -/
theorem sheltered_bracketed {opening inner closing piece : List Char} {left right : Char}
    (hopening : sep ∉ opening) (hclosing : sep ∉ closing) (hleft : left ∈ opening)
    (hright : right ∈ closing) (hpieceLeft : left ∉ piece) (hpieceRight : right ∉ piece) :
    Sheltered sep piece (opening ++ (inner ++ closing)) := by
  intro hpiece
  -- The first piece has the left mark in it and the last piece the right one.
  obtain ⟨first, rest, hrest, hall⟩ :=
    @splitChars_append_left sep opening (inner ++ closing) hopening
  obtain ⟨init, last, first', rest', -, hlast, hinner⟩ :=
    @splitChars_append sep inner closing
  rw [splitChars_of_not_mem hclosing, List.cons.injEq] at hlast
  obtain ⟨rfl, rfl⟩ := hlast
  right
  rw [innerPieces, hall, List.tail_cons]
  rw [hall, List.mem_cons] at hpiece
  rw [hrest] at hinner
  rcases hpiece with rfl | hpiece
  · simp [hleft] at hpieceLeft
  · cases init with
    | nil =>
        obtain ⟨-, rfl⟩ := List.cons.inj hinner
        cases hpiece
    | cons _ init =>
        rw [List.cons_append, List.cons.injEq] at hinner
        obtain ⟨-, rfl⟩ := hinner
        rw [List.dropLast_concat]
        rcases List.mem_append.mp hpiece with hpiece | hpiece
        · exact hpiece
        · rw [List.mem_singleton.mp hpiece] at hpieceRight
          simp [hright] at hpieceRight

namespace Sheltered

variable {piece : List Char}

/-- A sheltered piece of a text is the whole text or an inner piece. -/
theorem mem_splitChars_iff {part : List Char} (h : Sheltered sep piece part) (hsep : sep ∉ piece) :
    piece ∈ splitChars sep part ↔ part = piece ∨ piece ∈ innerPieces sep part := by
  refine ⟨h, ?_⟩
  rintro (rfl | hinner)
  · simp [splitChars_of_not_mem hsep]
  · exact List.mem_of_mem_tail (List.dropLast_subset _ hinner)

/-- A sheltered piece that is not the first one is an inner piece. -/
theorem mem_tail_iff {part : List Char} (h : Sheltered sep piece part) (hsep : sep ∉ piece) :
    piece ∈ (splitChars sep part).tail ↔ piece ∈ innerPieces sep part := by
  refine ⟨fun htail => ?_, fun hinner => List.dropLast_subset _ hinner⟩
  rcases h (List.mem_of_mem_tail htail) with rfl | hinner
  · simp [splitChars_of_not_mem hsep] at htail
  · exact hinner

theorem mem_dropLast_iff {part : List Char} (h : Sheltered sep piece part) (hsep : sep ∉ piece) :
    piece ∈ (splitChars sep part).dropLast ↔ piece ∈ innerPieces sep part := by
  constructor
  · intro hinit
    rcases h (List.dropLast_subset _ hinit) with rfl | hinner
    · simp [splitChars_of_not_mem hsep] at hinit
    · exact hinner
  · rw [innerPieces, ← List.tail_dropLast]
    exact List.mem_of_mem_tail

end Sheltered

section Parts

variable {piece : List Char} {parts : List (List Char)}
  (hparts : ∀ part ∈ parts, Sheltered sep piece part) (hsep : sep ∉ piece)

include hparts hsep

/-- A sheltered piece of one of some parts is a part or an inner piece of one. -/
theorem mem_flatMap_splitChars :
    piece ∈ parts.flatMap (splitChars sep) ↔
      piece ∈ parts ∨ ∃ part ∈ parts, piece ∈ innerPieces sep part := by
  have hpart : ∀ part ∈ parts, (piece ∈ splitChars sep part ↔
      part = piece ∨ piece ∈ innerPieces sep part) := fun part hmem =>
    (hparts part hmem).mem_splitChars_iff hsep
  rw [List.mem_flatMap]
  grind

/-- Before the last piece, it is a part before the last one or an inner piece of any. -/
theorem mem_dropLast_flatMap :
    piece ∈ (parts.flatMap (splitChars sep)).dropLast ↔
      piece ∈ parts.dropLast ∨ ∃ part ∈ parts, piece ∈ innerPieces sep part := by
  induction parts with
  | nil => simp
  | cons part parts ih =>
      have hpart := hparts part List.mem_cons_self
      have hrest := ih fun other hother => hparts other (List.mem_cons_of_mem part hother)
      cases parts with
      | nil => simp [hpart.mem_dropLast_iff hsep]
      | cons next parts =>
          have hne : (next :: parts).flatMap (splitChars sep) ≠ [] := by
            simp [splitChars_ne_nil]
          rw [List.flatMap_cons, List.dropLast_append_of_ne_nil hne, List.mem_append,
            hpart.mem_splitChars_iff hsep, hrest, List.dropLast_cons_cons, List.mem_cons]
          grind

/-- A piece between separators of a text that has them between its parts: it is a part
between others, or between separators of a part. -/
theorem mem_innerPieces_intercalate :
    piece ∈ innerPieces sep ([sep].intercalate parts) ↔
      piece ∈ parts.tail.dropLast ∨ ∃ part ∈ parts, piece ∈ innerPieces sep part := by
  cases parts with
  | nil => simp [innerPieces, splitChars]
  | cons part parts =>
      have hpart := hparts part List.mem_cons_self
      have hrest := mem_dropLast_flatMap
        (fun other hother => hparts other (List.mem_cons_of_mem part hother)) hsep
      rw [innerPieces, splitChars_intercalate (by simp), List.flatMap_cons]
      cases parts with
      | nil => simp [innerPieces]
      | cons next parts =>
          have hne : (next :: parts).flatMap (splitChars sep) ≠ [] := by
            simp [splitChars_ne_nil]
          rw [List.tail_append_of_ne_nil (splitChars_ne_nil sep part),
            List.dropLast_append_of_ne_nil hne, List.mem_append, hpart.mem_tail_iff hsep, hrest,
            List.tail_cons]
          grind

end Parts

/-! ## texts that are cut nowhere -/

/-- From a depth of open brackets on, no bar in a text cuts it, and the depth after it is the
same. -/
def Passes (depth : Nat) (cs : List Char) : Prop :=
  ∀ rest, splitBars depth (cs ++ rest) = cs.foldr consHead (splitBars depth rest)

namespace Passes

variable {depth : Nat}

theorem nil : Passes depth [] := fun _ => rfl

/-- What no bar cuts, put behind something that no bar cuts, is cut by none. -/
theorem append {a b : List Char} (ha : Passes depth a) (hb : Passes depth b) :
    Passes depth (a ++ b) := by
  intro rest
  rw [List.append_assoc, ha, hb, List.foldr_append]

/-- A character that is no bar and no bracket. -/
theorem char {c : Char} (hbar : c ≠ '|') (hleft : c ≠ '<') (hright : c ≠ '>') :
    Passes depth [c] := by
  intro rest
  simp [splitBars, hbar, hleft, hright]

/-- A bar between brackets. -/
theorem bar : Passes (depth + 1) ['|'] := by
  intro rest
  simp [splitBars]

/-- Brackets around a text protect it one level deeper. -/
theorem bracketed {cs : List Char} (h : Passes (depth + 1) cs) :
    Passes depth ('<' :: (cs ++ ['>'])) := by
  intro rest
  have hinner := h ('>' :: rest)
  simp [splitBars, hinner]

end Passes

/-- Characters that are put in front go into the first piece. -/
theorem foldr_consHead_cons (cs piece : List Char) (pieces : List (List Char)) :
    cs.foldr consHead (piece :: pieces) = (cs ++ piece) :: pieces := by
  induction cs with
  | nil => rfl
  | cons c cs ih => rw [List.foldr_cons, ih]; rfl

/-- A text without bars and angle brackets. -/
def Plain (s : String) : Prop :=
  ∀ c ∈ s.toList, c ≠ '|' ∧ c ≠ '<' ∧ c ≠ '>'

instance (s : String) : Decidable (Plain s) :=
  List.decidableBAll _ s.toList

/-- A text that no cut outside of brackets divides. -/
def Solid (s : String) : Prop :=
  ∀ depth, Passes depth s.toList

/-- A text that no cut outside of brackets divides if it stands between brackets. -/
def Nested (s : String) : Prop :=
  ∀ depth, Passes (depth + 1) s.toList

/-- A text without bars and brackets cannot be cut. -/
theorem Plain.solid {s : String} (h : Plain s) : Solid s := by
  intro depth
  unfold Plain at h
  generalize s.toList = cs at h ⊢
  induction cs with
  | nil => exact Passes.nil
  | cons c cs ih =>
      obtain ⟨hc, hcs⟩ := List.forall_mem_cons.mp h
      exact (Passes.char hc.1 hc.2.1 hc.2.2).append (ih hcs)

/-- Plain texts put together are plain. -/
theorem Plain.append {a b : String} (ha : Plain a) (hb : Plain b) : Plain (a ++ b) := by
  intro c hc
  rw [String.toList_append, List.mem_append] at hc
  exact hc.elim (ha c) (hb c)

/-- What cannot be cut anywhere cannot be cut between brackets. -/
theorem Solid.nested {s : String} (h : Solid s) : Nested s :=
  fun depth => h (depth + 1)

theorem nested_bar : Nested "|" :=
  fun _ => Passes.bar

/-- Between brackets, joined texts cannot be cut if the separator and the parts cannot. -/
theorem nested_joinWith {sep : String} {parts : List String} (hsep : Nested sep)
    (h : ∀ part ∈ parts, Nested part) : Nested (joinWith sep parts) := by
  induction parts with
  | nil => exact fun _ => Passes.nil
  | cons part parts ih =>
      obtain ⟨hpart, hparts⟩ := List.forall_mem_cons.mp h
      cases parts with
      | nil => rwa [joinWith_singleton]
      | cons next parts =>
          intro depth
          rw [joinWith_cons (by simp), String.toList_append, String.toList_append]
          exact ((hpart depth).append (hsep depth)).append (ih hparts depth)

/-- Brackets and what is in front of them keep a text in one piece. -/
theorem solid_bracketed {head inner : String} (hhead : Plain head) (hinner : Nested inner) :
    Solid (head ++ "<" ++ inner ++ ">") := by
  intro depth
  have hsplit : (head ++ "<" ++ inner ++ ">").toList =
      head.toList ++ '<' :: (inner.toList ++ ['>']) := by
    simp
  rw [hsplit]
  exact (hhead.solid depth).append (Passes.bracketed (hinner depth))

/-- Solid texts with bars between them are cut at these bars. -/
theorem splitTopLevel_joinWith {parts : List String} (hne : parts ≠ [])
    (h : ∀ part ∈ parts, Solid part) : splitTopLevel (joinWith "|" parts) = parts := by
  induction parts with
  | nil => exact absurd rfl hne
  | cons part parts ih =>
      obtain ⟨hpart, hparts⟩ := List.forall_mem_cons.mp h
      cases parts with
      | nil =>
          have hall := hpart 0 []
          rw [List.append_nil, splitBars, foldr_consHead_cons, List.append_nil] at hall
          rw [joinWith_singleton, splitTopLevel, hall]
          simp
      | cons next parts =>
          have hcut : splitBars 0 ('|' :: (joinWith "|" (next :: parts)).toList) =
              [] :: splitBars 0 (joinWith "|" (next :: parts)).toList := by
            simp [splitBars]
          have hsplit : (joinWith "|" (part :: next :: parts)).toList =
              part.toList ++ '|' :: (joinWith "|" (next :: parts)).toList := by
            rw [joinWith_cons (by simp)]
            simp
          rw [splitTopLevel, hsplit, hpart, hcut, foldr_consHead_cons, List.append_nil,
            List.map_cons, String.ofList_toList]
          exact congrArg (part :: ·) (ih (by simp) hparts)

end WebIdl.Text
