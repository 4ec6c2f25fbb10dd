import WebIdl.Code.File

/-!
# WebIdl.Proofs.Layout

The text of a file that has imports only.

Lines that end with a semicolon are kept as they are (`line_semicolon`), a line and the blank
one after it are laid out together (`foldl_text_blank`), and a text that ends with a statement
is tidy (`Sink.tidy_semicolon`).  So the text of such a file is its heading with a line for
each import (`finishFile_preamble`).
-/

namespace WebIdl

open WebIdl.Text (LineBuffer)

namespace Text

/-- A semicolon at the end keeps a text from being trimmed. -/
theorem trimEnd_semicolon (s : String) : trimEnd (s ++ ";") = s ++ ";" := by
  have hsemicolon : isBlank ';' = false := by decide
  rw [← String.toList_inj, trimEnd, String.toList_ofList, String.toList_append]
  simp [hsemicolon]

/-- It opens no block either. -/
theorem endsWith_semicolon (s : String) : endsWith '\x7b' (s ++ ";") = false := by
  rw [endsWith, String.toList_append]
  simp

namespace LineBuffer

/-- So a statement is one more line at the same depth. -/
theorem line_semicolon (buf : LineBuffer) (s : String) :
    buf.line (s ++ ";") = { buf with lines := .text buf.depth (s ++ ";") :: buf.lines } := by
  have hne : ¬ (s ++ ";" == "") = true := by simp
  rw [line, trimEnd_semicolon, if_neg hne]

/-- A blank line stays behind a statement. -/
theorem blank_semicolon (s : String) (depth depth' : Nat) (lines : List Line)
    (fills : List (Option (List String))) :
    blank { lines := .text depth (s ++ ";") :: lines, depth := depth', fills } =
      { lines := .blank :: .text depth (s ++ ";") :: lines, depth := depth', fills } := by
  rw [blank]
  simp [endsWith_semicolon]

/-- At the outermost depth a text that closes no block is put as it is. -/
theorem put_zero (layout : Layout) {content : String} (h : startsWith '\x7d' content = false) :
    layout.put 0 content =
      { sink := ⟨layout.sink.text ++ (if layout.blankDue then "\n" else "") ++ content ++ "\n"⟩
        started := true } := by
  rw [Layout.put, h]
  cases layout.blankDue <;> simp [Sink.spaces, Sink.emit, Sink.newline]

/-- A text with a blank line behind it is put, and then the blank line. -/
theorem foldl_text_blank (buf : LineBuffer) (layout : Layout) (lines : List Line)
    {content : String} (h : startsWith '\x7d' content = false) :
    (.text 0 content :: .blank :: lines).foldl buf.layLine layout =
      lines.foldl buf.layLine
        { sink := ⟨layout.sink.text ++ (if layout.blankDue then "\n" else "") ++ content ++ "\n"⟩
          blankDue := true
          started := true } := by
  rw [List.foldl_cons, List.foldl_cons, layLine, layLine, put_zero layout h]

/-- Several texts are put one below the other. -/
theorem foldl_put {contents : List String} (hne : contents ≠ [])
    (h : ∀ content ∈ contents, startsWith '\x7d' content = false) (layout : Layout) :
    contents.foldl (fun layout content => layout.put 0 content) layout =
      { sink := ⟨layout.sink.text ++ (if layout.blankDue then "\n" else "") ++
          String.join (contents.map (· ++ "\n"))⟩
        started := true } := by
  induction contents generalizing layout with
  | nil => exact absurd rfl hne
  | cons content contents ih =>
      obtain ⟨hcontent, hcontents⟩ := List.forall_mem_cons.mp h
      rw [List.foldl_cons, put_zero layout hcontent]
      cases contents with
      | nil => simp [String.append_assoc]
      | cons next contents =>
          rw [ih (by simp) hcontents]
          simp [String.append_assoc]

end LineBuffer

/-- A text whose last line has something at its end is tidy already. -/
theorem Sink.tidy_line {s : String} {c : Char} (hlast : s.toList.getLast? = some c)
    (hc : isBlank c = false) : (Sink.trimBlankLines ⟨s ++ "\n"⟩).endLine.text = s ++ "\n" := by
  obtain ⟨init, hinit⟩ := List.getLast?_eq_some_iff.mp hlast
  have hend : c ≠ '\n' := by
    rintro rfl
    exact absurd hc (by decide)
  have hspace : c ≠ ' ' := by
    rintro rfl
    exact absurd hc (by decide)
  have hreverse : (s ++ "\n").toList.reverse = '\n' :: c :: init.reverse := by simp [hinit]
  have htrim : Sink.trimBlankLines ⟨s ++ "\n"⟩ = ⟨s ++ "\n"⟩ := by
    rw [Sink.trimBlankLines, hreverse, Sink.dropBlankLines, ← hreverse, List.reverse_reverse,
      String.ofList_toList]
    · simp [hend]
    · simp [hspace]
  rw [htrim, Sink.endLine]
  simp

/-- A text that ends with a statement is tidy already. -/
theorem Sink.tidy_semicolon (s : String) :
    (Sink.trimBlankLines ⟨s ++ ";" ++ "\n"⟩).endLine.text = s ++ ";" ++ "\n" :=
  Sink.tidy_line (c := ';') (by simp) (by decide)

end Text

namespace Code

/-- The first lines of every file. -/
def opening : String :=
  "<?php\n\ndeclare(strict_types=1);\n\n"

/-- What stands in front of the imports of a file: the first lines and its namespace. -/
def heading (kind : ArtifactKind) (root : String) : String :=
  opening ++ ("namespace " ++ kind.space root ++ ";") ++ "\n"

theorem preamble_eq (kind : ArtifactKind) (root : String) :
    preamble kind root =
      { lines := [.marker 0 0, .blank, .text 0 ("namespace " ++ kind.space root ++ ";"), .blank,
          .text 0 "declare(strict_types=1);", .blank, .text 0 "<?php"]
        fills := [none] } := by
  have hstart : ((({} : LineBuffer).line "<?php").blank.line "declare(strict_types=1);").blank =
      { lines := [.blank, .text 0 "declare(strict_types=1);", .blank, .text 0 "<?php"] } := by
    decide
  rw [preamble, hstart, Text.LineBuffer.line_semicolon, Text.LineBuffer.blank_semicolon]
  rfl

/-- The names of the imported definitions, in order. -/
def Imports.imported (imports : Imports) : List String :=
  imports.names.map (·.2)

/-- An import statement. -/
def useLine (root name : String) : String :=
  "use " ++ root ++ "\\" ++ name ++ ";"

/-- There is one line for each imported name, in order. -/
theorem lines_eq (imports : Imports) (root : String) :
    imports.lines root = imports.imported.map (useLine root) := by
  simp [Imports.lines, Imports.imported, useLine]

/-- No such line closes a block. -/
theorem startsWith_useLine (root name : String) :
    Text.startsWith '\x7d' (useLine root name) = false := by
  simp [Text.startsWith, useLine]

/-- What stands in front of the imports of a file. -/
theorem lay_heading (buf : LineBuffer) (kind : ArtifactKind) (root : String)
    (lines : List Text.Line) :
    (.text 0 "<?php" :: .blank :: .text 0 "declare(strict_types=1);" :: .blank ::
      .text 0 ("namespace " ++ kind.space root ++ ";") :: .blank :: lines).foldl buf.layLine {} =
      lines.foldl buf.layLine
        { sink := ⟨heading kind root⟩, blankDue := true, started := true } := by
  have hopening : Text.startsWith '\x7d' "<?php" = false := by decide +kernel
  have hdeclare : Text.startsWith '\x7d' "declare(strict_types=1);" = false := by decide +kernel
  have hnamespace : Text.startsWith '\x7d' ("namespace " ++ kind.space root ++ ";") = false := by
    simp [Text.startsWith]
  rw [LineBuffer.foldl_text_blank _ _ _ hopening, LineBuffer.foldl_text_blank _ _ _ hdeclare,
    LineBuffer.foldl_text_blank _ _ _ hnamespace]
  have hstart : "" ++ "" ++ "<?php" ++ "\n" ++ "\n" ++ "declare(strict_types=1);" ++ "\n" ++ "\n" =
      opening := by
    decide +kernel
  have hheading : "" ++ "" ++ "<?php" ++ "\n" ++ "\n" ++ "declare(strict_types=1);" ++ "\n" ++
      "\n" ++ ("namespace " ++ kind.space root ++ ";") ++ "\n" = heading kind root :=
    congrArg (fun start => start ++ ("namespace " ++ kind.space root ++ ";") ++ "\n") hstart
  simp only [Bool.false_eq_true, if_false, if_true, hheading]

/-- What fills the place of the imports is put there, line by line. -/
theorem lay_imports {buf : LineBuffer} {contents : List String}
    (hfill : buf.filling 0 = contents)
    (h : ∀ content ∈ contents, Text.startsWith '\x7d' content = false)
    (kind : ArtifactKind) (root : String) :
    (buf.layLine { sink := ⟨heading kind root⟩, blankDue := true, started := true }
      (.marker 0 0)).sink.text =
      heading kind root ++ (if contents = [] then "" else "\n") ++
        String.join (contents.map (· ++ "\n")) := by
  rw [LineBuffer.layLine, hfill]
  cases contents with
  | nil => simp
  | cons content contents =>
      dsimp only
      rw [LineBuffer.foldl_put (List.cons_ne_nil content contents) h,
        if_neg (List.cons_ne_nil content contents)]
      rfl

/-- The last line is the namespace or an import, and both end with a semicolon. -/
theorem exists_front (kind : ArtifactKind) (root : String) (names : List String) :
    ∃ front, heading kind root ++ (if names = [] then "" else "\n") ++
      String.join (names.map fun name => useLine root name ++ "\n") = front ++ ";" ++ "\n" := by
  have hassoc : ∀ a b : String, a ++ (b ++ ";") ++ "\n" = a ++ b ++ ";" ++ "\n" := by
    intro a b
    rw [@String.append_assoc a b ";"]
  have hassoc' : ∀ a b c : String, a ++ (b ++ (c ++ ";" ++ "\n")) = a ++ b ++ c ++ ";" ++ "\n" := by
    intro a b c
    simp only [String.append_assoc]
  rcases List.eq_nil_or_concat names with rfl | ⟨names, name, rfl⟩
  · refine ⟨_, Eq.trans ?_ (hassoc opening
      ("namespace " ++ kind.space root))⟩
    rw [if_pos rfl, List.map_nil, String.join_nil, String.append_empty, String.append_empty,
      heading]
  · refine ⟨_, Eq.trans ?_ (hassoc' (heading kind root ++ "\n")
      (String.join (names.map fun name => useLine root name ++ "\n"))
      ("use " ++ root ++ "\\" ++ name))⟩
    rw [if_neg (by simp), List.concat_eq_append, List.map_append, String.join_append,
      List.map_singleton, String.join_cons, String.join_nil, String.append_empty, useLine]

/-- The text of a file that has imports only. -/
theorem finishFile_preamble (kind : ArtifactKind) (root : String) (imports : Imports) :
    finishFile (preamble kind root) root imports =
      heading kind root ++ (if imports.imported = [] then "" else "\n") ++
        String.join (imports.imported.map fun name => useLine root name ++ "\n") := by
  have hstarts : ∀ content ∈ imports.lines root, Text.startsWith '\x7d' content = false := by
    intro content hcontent
    rw [lines_eq] at hcontent
    obtain ⟨name, -, rfl⟩ := List.mem_map.mp hcontent
    exact startsWith_useLine root name
  have hlines : ((preamble kind root).fill 0 (imports.lines root)).lines.reverse =
      [.text 0 "<?php", .blank, .text 0 "declare(strict_types=1);", .blank,
        .text 0 ("namespace " ++ kind.space root ++ ";"), .blank, .marker 0 0] := by
    rw [preamble_eq]
    rfl
  have hfilling : ((preamble kind root).fill 0 (imports.lines root)).filling 0 =
      imports.lines root := by
    rw [preamble_eq]
    rfl
  have htext := lay_imports hfilling hstarts kind root
  have hmap : (imports.lines root).map (· ++ "\n") =
      imports.imported.map fun name => useLine root name ++ "\n" := by
    rw [lines_eq, List.map_map]
    rfl
  have hnil : imports.lines root = [] ↔ imports.imported = [] := by
    rw [lines_eq, List.map_eq_nil_iff]
  obtain ⟨front, hfront⟩ := exists_front kind root imports.imported
  simp only [hmap, hnil, hfront] at htext
  rw [finishFile, LineBuffer.render, hlines, lay_heading, List.foldl_cons, List.foldl_nil, hfront]
  generalize LineBuffer.layLine _ _ _ = layout at htext ⊢
  have hsink : layout.sink = ⟨front ++ ";" ++ "\n"⟩ := by rw [← htext]
  rw [hsink]
  exact Text.Sink.tidy_semicolon front

end Code

end WebIdl
