import WebIdl.Artifact.Reflected
import WebIdl.Proofs.Matching
import WebIdl.Proofs.Scope

/-!
# WebIdl.Proofs.Keywords

How a getter that reflects an enumeration finds the value of a keyword.

The keywords of the table are in lower case as Unicode has it, while the getter looks up its
text with ASCII letters in lower case.  The two agree on a value exactly if no character in it
has a lower case beyond ASCII (`lowercase_eq_lowerAscii_iff`), and the getter finds the spellings
of all values exactly if they agree on all of them (`keywords_normalize_iff`).
-/

namespace WebIdl

open Text

/-! ## case -/

namespace Text

/-- The lower case of a character that is not ASCII is itself. -/
theorem toLower_of_not_ascii {c : Char} (h : ¬ c.toNat < 128) : c.toLower = c := by
  rw [Char.toLower, dif_neg]
  rintro ⟨-, hupper⟩
  have hle : c.toNat ≤ 'Z'.toNat := hupper
  have hlast : 'Z'.toNat < 128 := by decide
  omega

/-- What is the same for an ASCII character and its lower case is so for all characters. -/
theorem eq_toLower {α : Type} (f : Char → α)
    (h : ∀ c : Char, c.toNat < 128 → f c.toLower = f c) (c : Char) : f c.toLower = f c := by
  by_cases hc : c.toNat < 128
  · exact h c hc
  · rw [toLower_of_not_ascii hc]

/-- The lower case of an ASCII character is one too, and stays. -/
theorem toLower_ascii {c : Char} (hc : c.toNat < 128) :
    c.toLower.toNat < 128 ∧ c.toLower.toLower = c.toLower ∧ (c.toLower == 'Σ') = (c == 'Σ') :=
  Scope.of_ascii (P := fun c => c.toLower.toNat < 128 ∧ c.toLower.toLower = c.toLower ∧
    (c.toLower == 'Σ') = (c == 'Σ')) (by decide +kernel) hc

/-- Only ranges that start in ASCII have ASCII characters. -/
theorem inRanges_ascii (ranges : List (Nat × Nat)) {c : Char} (hc : c.toNat < 128) :
    inRanges ranges c = inRanges (ranges.filter (·.1 < 128)) c := by
  rw [inRanges, inRanges, List.any_filter]
  refine List.any_congr rfl fun range => ?_
  by_cases hstart : range.1 ≤ c.toNat
  · have hlow : range.1 < 128 := by omega
    simp [hlow]
  · simp [hstart]

theorem find?_lowerRuns_ascii {c : Char} (hc : c.toNat < 128) :
    lowerRuns.find? (·.covers c.toNat) =
      ([⟨0x41, 0x5A, 1, 32⟩] : List CaseRun).find? (·.covers c.toNat) := by
  have hlow : lowerRuns.filter (·.first < 128) = [⟨0x41, 0x5A, 1, 32⟩] := by decide +kernel
  rw [← hlow, List.find?_filter]
  congr 1
  funext run
  by_cases hstart : run.first ≤ c.toNat
  · have hfirst : run.first < 128 := by omega
    simp [hfirst]
  · simp [CaseRun.covers, hstart]

/-- A character that has no lower case but the one it has in ASCII. -/
def PlainCase (c : Char) : Prop :=
  lowerChar c = [c.toLower]

/-- ASCII characters have the lower case that every text has. -/
theorem plainCase_ascii {c : Char} (hc : c.toNat < 128) : PlainCase c := by
  have hexpansion : lowerExpansions.lookup c.toNat = none := by
    rw [List.lookup_eq_none_iff]
    have hbeyond : ∀ entry ∈ lowerExpansions, 128 ≤ entry.1 := by decide
    intro entry hentry
    have hentry := hbeyond entry hentry
    rw [bne_iff_ne]
    omega
  have hcapitals : lowerChar c = mapCase [⟨0x41, 0x5A, 1, 32⟩] [] c := by
    rw [lowerChar, mapCase, mapCase, hexpansion, find?_lowerRuns_ascii hc]
    rfl
  rw [PlainCase, hcapitals]
  exact Scope.of_ascii (P := fun c => mapCase [⟨0x41, 0x5A, 1, 32⟩] [] c = [c.toLower])
    (by decide +kernel) hc

/-- A sigma has no such lower case, for it depends on what is around it. -/
theorem not_plainCase_sigma : ¬ PlainCase 'Σ' := by
  rw [PlainCase, lowerChar, mapCase, show 'Σ'.toNat = 0x3A3 from rfl]
  decide +kernel

/-- Lowering ASCII letters first changes nothing. -/
theorem lowerChar_toLower (c : Char) : lowerChar c.toLower = lowerChar c := by
  refine eq_toLower lowerChar (fun c hc => ?_) c
  obtain ⟨hlower, hagain, -⟩ := toLower_ascii hc
  have hplain : lowerChar c.toLower = [c.toLower.toLower] := plainCase_ascii hlower
  rw [hplain, hagain]
  exact (plainCase_ascii hc).symm

theorem reachesCased_map_toLower (cs : List Char) :
    reachesCased (cs.map Char.toLower) = reachesCased cs := by
  have hignorable := eq_toLower (inRanges caseIgnorableRanges) fun c hc => by
    have hlow : caseIgnorableRanges.filter (·.1 < 128) =
        [(0x27, 0x27), (0x2E, 0x2E), (0x3A, 0x3A), (0x5E, 0x5E), (0x60, 0x60)] := by
      decide +kernel
    rw [inRanges_ascii _ (toLower_ascii hc).1, inRanges_ascii _ hc, hlow]
    exact Scope.of_ascii (P := fun c => inRanges _ c.toLower = inRanges _ c) (by decide +kernel) hc
  have hcased := eq_toLower (inRanges casedRanges) fun c hc => by
    have hlow : casedRanges.filter (·.1 < 128) = [(0x41, 0x5A), (0x61, 0x7A)] := by decide +kernel
    rw [inRanges_ascii _ (toLower_ascii hc).1, inRanges_ascii _ hc, hlow]
    exact Scope.of_ascii (P := fun c => inRanges _ c.toLower = inRanges _ c) (by decide +kernel) hc
  induction cs with
  | nil => rfl
  | cons c cs ih =>
      unfold reachesCased at ih ⊢
      rw [List.map_cons, List.dropWhile_cons, List.dropWhile_cons, hignorable]
      by_cases hc : inRanges caseIgnorableRanges c = true
      · rw [if_pos hc, if_pos hc, ih]
      · rw [if_neg hc, if_neg hc]
        exact hcased c

/-- Lower case does not depend on the case of ASCII letters. -/
theorem lowerFrom_map_toLower (before cs : List Char) :
    lowerFrom (before.map Char.toLower) (cs.map Char.toLower) = lowerFrom before cs := by
  induction cs generalizing before with
  | nil => rfl
  | cons c cs ih =>
      have hsigma := eq_toLower (· == 'Σ') (fun c hc => (toLower_ascii hc).2.2) c
      rw [List.map_cons, lowerFrom, lowerFrom, hsigma, lowerChar_toLower,
        reachesCased_map_toLower, reachesCased_map_toLower, ← List.map_cons, ih]

/-- A text has the lower case of its ASCII lower case. -/
theorem lowercase_lowerAscii (s : String) : lowercase (lowerAscii s) = lowercase s := by
  rw [lowercase, toList_lowerAscii, ← List.map_nil (f := Char.toLower), lowerFrom_map_toLower]
  rfl

/-- No character is lost in lower case. -/
theorem lowerChar_ne_nil (c : Char) : lowerChar c ≠ [] := by
  have hexpansions : ∀ entry ∈ lowerExpansions, entry.2 ≠ [] := by decide
  rw [lowerChar, mapCase]
  split
  next codes hcodes =>
    obtain ⟨front, back, hsplit, -⟩ := List.lookup_eq_some_iff.mp hcodes
    have hne := hexpansions (c.toNat, codes) (by simp [hsplit])
    simpa using hne
  next => split <;> simp

/-- So no text gets shorter. -/
theorem length_le_lowerFrom (before cs : List Char) :
    cs.length ≤ (lowerFrom before cs).length := by
  induction cs generalizing before with
  | nil => simp
  | cons c cs ih =>
      have hmapped : 0 < (lowerChar c).length := List.length_pos_iff.mpr (lowerChar_ne_nil c)
      rw [lowerFrom, List.length_append, List.length_cons]
      have hrest := ih (c :: before)
      split
      · simp only [List.length_singleton]
        omega
      · omega

/-- The two lower cases are the same if and only if they are for every character. -/
theorem lowerFrom_eq_map_iff (before cs : List Char) :
    lowerFrom before cs = cs.map Char.toLower ↔ ∀ c ∈ cs, PlainCase c := by
  induction cs generalizing before with
  | nil => simp [lowerFrom]
  | cons c cs ih =>
      rw [lowerFrom, List.map_cons, List.forall_mem_cons, ← ih (c :: before)]
      have hsigma : ['σ', 'ς'].all (· != 'Σ'.toLower) = true := by decide
      constructor
      · intro h
        split at h
        next hc =>
          -- a sigma has a lower case of its own
          obtain ⟨hlower, -⟩ := List.cons.inj h
          rw [beq_iff_eq.mp hc] at hlower
          split at hlower <;> simp [← hlower] at hsigma
        next =>
          -- nothing is dropped, so every character has become one
          have hlength := congrArg List.length h
          have hrest := length_le_lowerFrom (c :: before) cs
          have hmapped := List.length_pos_iff.mpr (lowerChar_ne_nil c)
          simp only [List.length_append, List.length_cons, List.length_map] at hlength
          have hone : (lowerChar c).length = 1 := by omega
          obtain ⟨lower, hlower⟩ := List.length_eq_one_iff.mp hone
          rw [hlower, List.singleton_append, List.cons.injEq] at h
          exact ⟨by rw [PlainCase, hlower, h.1], h.2⟩
      · rintro ⟨hc, hrest⟩
        have hne : ¬ (c == 'Σ') = true := fun hsigma =>
          not_plainCase_sigma (beq_iff_eq.mp hsigma ▸ hc)
        rw [if_neg hne, hc, hrest]
        rfl

/-- The two lower cases of a text agree exactly if its characters have none beyond ASCII. -/
theorem lowercase_eq_lowerAscii_iff {s : String} :
    lowercase s = lowerAscii s ↔ ∀ c ∈ s.toList, PlainCase c := by
  rw [← lowerFrom_eq_map_iff [], lowercase, lowerAscii, String.ofList_inj]

end Text

namespace Artifact

open WebIdl.Code

/-! ## tables -/

/-- Take a value into a table, unless its keyword is there. -/
def addKeyword (table : List (String × String)) (value : String) : List (String × String) :=
  if (table.lookup (lowercase value)).isSome then table else table ++ [(lowercase value, value)]

/-- The table has the values added one after another. -/
theorem keywordTable_eq (values : List String) : keywordTable values = values.foldl addKeyword [] :=
  rfl

/-- A value is added behind those of its key. -/
theorem lookup_addKeyword (table : List (String × String)) (value key : String) :
    (addKeyword table value).lookup key =
      (table.lookup key).or (if lowercase value == key then some value else none) := by
  rw [addKeyword]
  split
  next hsome =>
    split
    next hkey =>
      rw [← beq_iff_eq.mp hkey]
      obtain ⟨found, hfound⟩ := Option.isSome_iff_exists.mp hsome
      rw [hfound, Option.some_or]
    next => rw [Option.or_none]
  next =>
    rw [List.lookup_append, List.lookup_cons, List.lookup_nil, BEq.comm]
    cases lowercase value == key <;> rfl

/-- A keyword stands for the first value that is written so in lower case. -/
theorem lookup_keywordTable (values : List String) (key : String) :
    (keywordTable values).lookup key = values.find? fun value => lowercase value == key := by
  have hrun : ∀ table : List (String × String), (values.foldl addKeyword table).lookup key =
      (table.lookup key).or (values.find? fun value => lowercase value == key) := by
    induction values with
    | nil => simp
    | cons value values ih =>
        intro table
        rw [List.foldl_cons, ih, lookup_addKeyword, Option.or_assoc, List.find?_cons]
        cases lowercase value == key <;> rfl
  rw [keywordTable_eq, hrun []]
  rfl

/-- Adding a value repeats no key. -/
theorem nodup_addKeyword {table : List (String × String)} (h : (table.map (·.1)).Nodup)
    (value : String) : ((addKeyword table value).map (·.1)).Nodup := by
  rw [addKeyword]
  split
  · exact h
  next hnone =>
    rw [List.map_append, List.nodup_append]
    refine ⟨h, List.nodup_singleton _, fun key hkey other hother hsame => ?_⟩
    obtain ⟨entry, hentry, rfl⟩ := List.mem_map.mp hkey
    rw [Option.not_isSome_iff_eq_none, List.lookup_eq_none_iff] at hnone
    have hne := hnone entry hentry
    rw [hsame, List.mem_singleton.mp hother] at hne
    simp at hne

/-- No keyword is there twice. -/
theorem nodup_keywordTable (values : List String) : ((keywordTable values).map (·.1)).Nodup := by
  rw [keywordTable_eq]
  exact List.foldlRecOn values addKeyword (b := [])
    (motive := fun table => (table.map (·.1)).Nodup) List.nodup_nil
    fun _ h value _ => nodup_addKeyword h value

/-! ## getters -/

/-- The arms of a table and the one for everything else. -/
def keywordArms (table : List (String × String)) (invalid : String) : List Arm :=
  table.map (fun (keyword, value) => { patterns := [.literal keyword], result := quote value }) ++
  [{ patterns := [.word "default"], result := quote invalid }]

/-- The arms that a getter chooses from. -/
def getterArms? (body : List Stmt) : Option (List Arm) :=
  body.findSome? (Stmt.arms? "return match (strtolower($raw))")

/-- The arms of a table can be read back. -/
theorem readable_keywordArms (table : List (String × String)) (invalid : String) :
    ∀ arm ∈ keywordArms table invalid, arm.Readable := by
  have hword : "default".toList.all isWordChar = true := by decide
  intro arm harm
  rcases List.mem_append.mp harm with harm | harm
  · obtain ⟨entry, -, rfl⟩ := List.mem_map.mp harm
    exact ⟨by simp, by simp [Pattern.Readable]⟩
  · rw [List.mem_singleton.mp harm]
    refine ⟨by simp, ?_⟩
    rw [List.forall_mem_singleton]
    exact ⟨by simp, fun c hc => List.all_eq_true.mp hword c hc⟩

/-- The arms are written as the code of the getter has them. -/
theorem code_keywordArms (table : List (String × String)) (invalid : String) :
    (keywordArms table invalid).map (fun arm => Stmt.plain arm.code) =
      table.map (fun (keyword, value) => .plain (quote keyword ++ " => " ++ quote value ++ ",")) ++
        [.plain ("default => " ++ quote invalid ++ ",")] := by
  have hword : "default" ++ " => " = "default => " := rfl
  simp [keywordArms, Arm.code, Pattern.code, hword]

/-- The arms of a getter are those of its table. -/
theorem getterArms?_getterBody (content : String) (values : List String)
    (invalid missing : String) : getterArms? (getterBody (.enum content values invalid missing)) =
      some (keywordArms (keywordTable values) invalid) := by
  have hread := Stmt.arms?_matching "return match (strtolower($raw))"
    (readable_keywordArms (keywordTable values) invalid)
  rw [code_keywordArms] at hread
  have hcontrol : (Stmt.control "if ($raw === null)"
      [.plain ("return " ++ quote missing ++ ";")]).arms? "return match (strtolower($raw))" =
        none := by
    simp [Stmt.control, Stmt.arms?]
  rw [getterArms?, getterBody, List.findSome?_cons, List.findSome?_cons, List.findSome?_cons,
    List.findSome?_cons, hcontrol, hread]
  rfl

/-- A string is looked up in the table. -/
theorem resultFor?_keywordArms (table : List (String × String)) (invalid s : String) :
    resultFor? (fun _ => none) (keywordArms table invalid) s = (table.lookup s).map quote := by
  induction table with
  | nil => rfl
  | cons entry table ih =>
      obtain ⟨keyword, value⟩ := entry
      have hfirst : [Pattern.literal keyword].any (·.value? (fun _ => none) == some s) =
          (keyword == s) := by
        simp [Pattern.value?]
      rw [resultFor?, keywordArms, List.map_cons, List.cons_append, List.find?_cons,
        List.lookup_cons, BEq.comm (a := s)]
      dsimp only
      rw [hfirst]
      cases keyword == s with
      | true => rfl
      | false => exact ih

/-- They end with the value of what is invalid. -/
theorem fallback?_keywordArms (table : List (String × String)) (invalid : String) :
    fallback? (keywordArms table invalid) = some (quote invalid) := by
  induction table with
  | nil => rfl
  | cons entry table ih => exact ih

/-- No two arms have one pattern. -/
theorem nodup_patterns_keywordArms {table : List (String × String)} {invalid : String}
    (h : (table.map (·.1)).Nodup) : ((keywordArms table invalid).flatMap (·.patterns)).Nodup := by
  have hpatterns : (keywordArms table invalid).flatMap (·.patterns) =
      (table.map (·.1)).map Pattern.literal ++ [.word "default"] := by
    rw [keywordArms, List.flatMap_append, List.flatMap_map, List.map_map, List.map_eq_flatMap]
    rfl
  have hinjective : Function.Injective Pattern.literal := fun _ _ hsame => Pattern.literal.inj hsame
  rw [hpatterns, List.nodup_append]
  refine ⟨h.map hinjective, List.nodup_singleton _, ?_⟩
  rw [List.forall_mem_map]
  simp

/-- What arms are to do with a text that is looked up with its ASCII letters in lower case: one
that is a value up to the case of ASCII letters leads to such a value, any other to the arm for
everything else. -/
def Normalizes (values : List String) (arms : List Arm) (s : String) : Prop :=
  ((∃ value ∈ values, sameIgnoringCase value s = true) →
    ∃ value ∈ values, sameIgnoringCase value s = true ∧
      (resultFor? (fun _ => none) arms (lowerAscii s)).bind literalValue? = some value) ∧
  ((∀ value ∈ values, sameIgnoringCase value s = false) →
    resultFor? (fun _ => none) arms (lowerAscii s) = none)

/-- If the two lower cases of all values agree, a text is looked up as it should be. -/
theorem normalizes_of_agree {values : List String} {invalid : String}
    (h : ∀ value ∈ values, lowercase value = lowerAscii value) (s : String) :
    Normalizes values (keywordArms (keywordTable values) invalid) s := by
  rw [Normalizes, resultFor?_keywordArms, lookup_keywordTable]
  constructor
  · rintro ⟨value, hvalue, hsame⟩
    rw [sameIgnoringCase_iff] at hsame
    have hsome : (values.find? fun value => lowercase value == lowerAscii s).isSome = true := by
      rw [List.find?_isSome]
      exact ⟨value, hvalue, by rw [h value hvalue, hsame, beq_self_eq_true]⟩
    obtain ⟨found, hfound⟩ := Option.isSome_iff_exists.mp hsome
    have hmem := List.mem_of_find?_eq_some hfound
    refine ⟨found, hmem, ?_, by simp [hfound]⟩
    rw [sameIgnoringCase_iff, ← h found hmem]
    simpa using List.find?_some hfound
  · intro hnone
    rw [Option.map_eq_none_iff, List.find?_eq_none]
    intro value hvalue hkey
    have hdiffer := hnone value hvalue
    rw [Bool.eq_false_iff, ne_eq, sameIgnoringCase_iff, ← h value hvalue] at hdiffer
    exact hdiffer (by simpa using hkey)

/-- If a value itself is looked up as it should be, its two lower cases agree. -/
theorem agree_of_normalizes {values : List String} {invalid value : String}
    (hvalue : value ∈ values)
    (h : Normalizes values (keywordArms (keywordTable values) invalid) value) :
    lowercase value = lowerAscii value := by
  rw [Normalizes, resultFor?_keywordArms, lookup_keywordTable] at h
  obtain ⟨other, -, hsame, hresult⟩ := h.1 ⟨value, hvalue, by simp [sameIgnoringCase]⟩
  rw [sameIgnoringCase_iff] at hsame
  obtain ⟨code, hcode, hread⟩ := Option.bind_eq_some_iff.mp hresult
  obtain ⟨found, hfound, rfl⟩ := Option.map_eq_some_iff.mp hcode
  rw [literalValue?_quote, Option.some.injEq] at hread
  subst hread
  calc lowercase value = lowercase (lowerAscii value) := (lowercase_lowerAscii value).symm
    _ = lowercase (lowerAscii found) := by rw [hsame]
    _ = lowercase found := lowercase_lowerAscii found
    _ = lowerAscii value := by simpa using List.find?_some hfound

/-- **A getter finds all spellings of the values exactly if they have no case beyond ASCII.**
The keywords of its arms are distinct, and what is looked up leads to the first value that is
written so in lower case, or to the value for what is invalid.  Every text is looked up as it
should be if and only if no character of a value has a lower case other than that of ASCII. -/
theorem keywords_normalize_iff (content : String) (values : List String)
    (invalid missing : String) :
    ∃ arms, getterArms? (getterBody (.enum content values invalid missing)) = some arms ∧
      (arms.flatMap (·.patterns)).Nodup ∧
      (∀ s, resultFor? (fun _ => none) arms (lowerAscii s) =
        (values.find? fun value => lowercase value == lowerAscii s).map quote) ∧
      fallback? arms = some (quote invalid) ∧
      ((∀ s, Normalizes values arms s) ↔
        ∀ value ∈ values, ∀ c ∈ value.toList, lowerChar c = [c.toLower]) := by
  refine ⟨_, getterArms?_getterBody content values invalid missing, ?_, fun s => ?_,
    fallback?_keywordArms _ _, fun h value hvalue => ?_, fun h s => ?_⟩
  · exact nodup_patterns_keywordArms (nodup_keywordTable values)
  · rw [resultFor?_keywordArms, lookup_keywordTable]
  · exact lowercase_eq_lowerAscii_iff.mp (agree_of_normalizes hvalue (h value))
  · exact normalizes_of_agree
      (fun value hvalue => lowercase_eq_lowerAscii_iff.mpr (h value hvalue)) s

/-- A value in capitals beyond ASCII is not found under its own name. -/
theorem capital_is_not_found : ∃ arms,
    getterArms? (getterBody (.enum "dir" ["É"] "" "")) = some arms ∧
      ¬ Normalizes ["É"] arms "É" := by
  refine ⟨[{ patterns := [.literal "é"], result := "'É'" },
    { patterns := [.word "default"], result := "''" }], by decide +kernel, fun h => ?_⟩
  obtain ⟨value, -, -, hfound⟩ := h.1 ⟨"É", List.mem_singleton_self _, by decide⟩
  have hnone : resultFor? (fun _ => none) [{ patterns := [.literal "é"], result := "'É'" },
      { patterns := [.word "default"], result := "''" }] (lowerAscii "É") = none := by
    decide +kernel
  rw [hnone] at hfound
  cases hfound

end Artifact

end WebIdl
