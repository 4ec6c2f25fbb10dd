import Mathlib.Data.List.Chain
import Mathlib.Data.List.DropRight
import WebIdl.Proofs.Layout
import WebIdl.Proofs.Split

/-!
# WebIdl.Proofs.LineBuffer

What a buffer of lines renders, whatever was done to it.

An `Edit` is one thing that can be done to a buffer, and `eventsAll` tells what some edits
write, in order, with the blank lines left out.  The `outline` of these events is the text
that has to appear: every line at the depth it is written at, and in the place of a marker
what it is filled with last.  A buffer holds just its outline and some blank lines
(`written_applyAll`), and a rendered text is a list of rows, blank ones only between others
(`Laid`).  So:

* `text_is_well_laid`: no text is lost, and no blank line is where it should not be.
-/

namespace WebIdl.Text

/-! ## edits -/

/-- What can be done to a buffer, with what is done to it inside of a pair of braces. -/
inductive Edit where
  | line (content : String)
  | lines (contents : List String)
  | blank
  | indent
  | dedent
  | block (header : String) (body : List Edit)
  | inlineBlock (header : String) (body : List Edit)
  | braced (opening closing : String) (body : List Edit)
  | mark
  | fill (marker : Nat) (contents : List String)

mutual

/-- Do what an edit says. -/
def Edit.apply : Edit → LineBuffer → LineBuffer
  | .line content, buf => buf.line content
  | .lines contents, buf => buf.writeLines contents
  | .blank, buf => buf.blank
  | .indent, buf => buf.indent
  | .dedent, buf => buf.dedent
  | .block header body, buf => buf.block header (applyAll body)
  | .inlineBlock header body, buf => buf.inlineBlock header (applyAll body)
  | .braced opening closing body, buf => buf.braced opening closing (applyAll body)
  | .mark, buf => buf.mark
  | .fill marker contents, buf => buf.fill marker contents

/-- Do what some edits say, one after another. -/
def applyAll : List Edit → LineBuffer → LineBuffer
  | [], buf => buf
  | edit :: edits, buf => applyAll edits (edit.apply buf)

end

/-- What happens to the text of a buffer: a line is written, the depth changes, a marker is
left, or a marker is filled. -/
inductive Event where
  | text (content : String)
  | deeper
  | shallower
  | place
  | filling (marker : Nat) (contents : List String)
deriving DecidableEq

mutual

/-- What an edit does to the text. -/
def Edit.events : Edit → List Event
  | .line content => [.text content]
  | .lines contents => contents.map .text
  | .blank => []
  | .indent => [.deeper]
  | .dedent => [.shallower]
  | .block header body =>
    .text header :: .text "\x7b" :: .deeper :: eventsAll body ++ [.shallower, .text "\x7d"]
  | .inlineBlock header body =>
    .text (header ++ " \x7b") :: .deeper :: eventsAll body ++ [.shallower, .text "\x7d"]
  | .braced opening closing body =>
    .text opening :: .deeper :: eventsAll body ++ [.shallower, .text closing]
  | .mark => [.place]
  | .fill marker contents => [.filling marker contents]

/-- What some edits do to the text. -/
def eventsAll : List Edit → List Event
  | [] => []
  | edit :: edits => edit.events ++ eventsAll edits

end

/-! ## the outline of a text -/

/-- What an event fills a marker with. -/
def Event.filling? (marker : Nat) : Event → Option (List String)
  | .filling other contents => if other = marker then some contents else none
  | _ => none

/-- What a marker is filled with last; nothing if it is never filled. -/
def lastFilling (marker : Nat) (events : List Event) : List String :=
  (events.filterMap (Event.filling? marker)).getLast?.getD []

/-- The lines that some events write, each with its depth, where `depth` is the depth and
`marker` the number of markers before. -/
def outline (depth marker : Nat) : List Event → List (Nat × String)
  | [] => []
  | .text content :: events =>
    if trimEnd content = "" then outline depth marker events
    else (depth, trimEnd content) :: outline depth marker events
  | .deeper :: events => outline (depth + 1) marker events
  | .shallower :: events => outline (depth - 1) marker events
  | .place :: events =>
    (lastFilling marker events).map (depth, ·) ++ outline depth (marker + 1) events
  | .filling _ _ :: events => outline depth marker events

/-- A line that has something on it, and no white space at its end. -/
structure IsLine (content : String) : Prop where
  nonempty : content ≠ ""
  oneLine : '\n' ∉ content.toList
  trimmed : trimEnd content = content

/-- An event that writes no line end, and fills markers with proper lines. -/
def Event.Plain : Event → Prop
  | .text content => '\n' ∉ content.toList
  | .filling _ contents => ∀ content ∈ contents, IsLine content
  | .deeper => True
  | .shallower => True
  | .place => True

instance : DecidablePred IsLine := fun content =>
  decidable_of_iff (content ≠ "" ∧ '\n' ∉ content.toList ∧ trimEnd content = content)
    ⟨fun ⟨nonempty, oneLine, trimmed⟩ => ⟨nonempty, oneLine, trimmed⟩,
      fun h => ⟨h.nonempty, h.oneLine, h.trimmed⟩⟩

instance : DecidablePred Event.Plain
  | .text content => inferInstanceAs (Decidable ('\n' ∉ content.toList))
  | .filling _ contents => inferInstanceAs (Decidable (∀ content ∈ contents, IsLine content))
  | .deeper => isTrue trivial
  | .shallower => isTrue trivial
  | .place => isTrue trivial

theorem toList_trimEnd (s : String) : (trimEnd s).toList = s.toList.rdropWhile isBlank := by
  rw [trimEnd, String.toList_ofList, List.rdropWhile]

/-- Trimming twice is trimming once. -/
theorem trimEnd_trimEnd (s : String) : trimEnd (trimEnd s) = trimEnd s := by
  rw [← String.toList_inj, toList_trimEnd, toList_trimEnd, List.rdropWhile_idempotent]

/-- Trimming adds no character. -/
theorem mem_of_mem_trimEnd {s : String} {c : Char} (h : c ∈ (trimEnd s).toList) :
    c ∈ s.toList := by
  rw [toList_trimEnd] at h
  exact (List.rdropWhile_prefix _ _).subset h

/-- What fills a place consists of lines. -/
theorem isLine_of_mem_lastFilling {marker : Nat} {events : List Event}
    (h : ∀ event ∈ events, event.Plain) : ∀ content ∈ lastFilling marker events,
      IsLine content := by
  rw [lastFilling]
  cases hlast : (events.filterMap (Event.filling? marker)).getLast? with
  | none => simp
  | some contents =>
      obtain ⟨event, hevent, hfilling⟩ := List.mem_filterMap.mp (List.mem_of_getLast? hlast)
      have hplain := h event hevent
      cases event with
      | filling other contents' =>
          rw [Event.filling?] at hfilling
          split at hfilling
          · cases hfilling
            exact hplain
          · cases hfilling
      | _ => cases hfilling

/-- Everything in the outline is a proper line. -/
theorem isLine_of_mem_outline {events : List Event} (h : ∀ event ∈ events, event.Plain)
    {depth marker : Nat} : ∀ entry ∈ outline depth marker events, IsLine entry.2 := by
  fun_induction outline depth marker events with
  | case1 => simp
  | case2 depth marker content events hblank ih => exact ih (List.forall_mem_cons.mp h).2
  | case3 depth marker content events hblank ih =>
      obtain ⟨hcontent, hevents⟩ := List.forall_mem_cons.mp h
      refine List.forall_mem_cons.mpr ⟨⟨hblank, ?_, trimEnd_trimEnd content⟩, ih hevents⟩
      exact fun hmem => hcontent (mem_of_mem_trimEnd hmem)
  | case4 depth marker events ih => exact ih (List.forall_mem_cons.mp h).2
  | case5 depth marker events ih => exact ih (List.forall_mem_cons.mp h).2
  | case6 depth marker events ih =>
      obtain ⟨-, hevents⟩ := List.forall_mem_cons.mp h
      refine List.forall_mem_append.mpr ⟨?_, ih hevents⟩
      rintro _ hentry
      obtain ⟨content, hcontent, rfl⟩ := List.mem_map.mp hentry
      exact isLine_of_mem_lastFilling hevents content hcontent
  | case7 depth marker _ _ events ih => exact ih (List.forall_mem_cons.mp h).2

/-! ## what a buffer holds -/

namespace LineBuffer

/-- The buffer without its blank lines. -/
def dense (buf : LineBuffer) : LineBuffer :=
  { buf with lines := buf.lines.filter (· != .blank) }

/-- Record an event, where a line with nothing on it leaves no trace. -/
def record (buf : LineBuffer) : Event → LineBuffer
  | .text content =>
    if trimEnd content = "" then buf
    else { buf with lines := .text buf.depth (trimEnd content) :: buf.lines }
  | .deeper => buf.indent
  | .shallower => buf.dedent
  | .place => buf.mark
  | .filling marker contents => buf.fill marker contents

/-- A line is recorded as a text. -/
theorem dense_line (buf : LineBuffer) (content : String) :
    (buf.line content).dense = buf.dense.record (.text content) := by
  rw [line, record]
  by_cases h : trimEnd content = ""
  · simp [h, dense]
  · simp [h, dense]

/-- Several lines are recorded as texts, one after another. -/
theorem dense_writeLines (buf : LineBuffer) (contents : List String) :
    (buf.writeLines contents).dense = (contents.map .text).foldl record buf.dense := by
  induction contents generalizing buf with
  | nil => rfl
  | cons content contents ih =>
      rw [writeLines, List.foldl_cons, List.map_cons, List.foldl_cons, ← dense_line]
      exact ih (buf.line content)

/-- A blank line is not recorded. -/
theorem dense_blank (buf : LineBuffer) : buf.blank.dense = buf.dense := by
  rw [blank]
  split
  · rfl
  · rfl
  · split
    · rfl
    · simp [dense]
  · simp [dense]

theorem dense_indent (buf : LineBuffer) : buf.indent.dense = buf.dense.record .deeper := rfl

theorem dense_dedent (buf : LineBuffer) : buf.dedent.dense = buf.dense.record .shallower := rfl

/-- Trimming blank lines records nothing. -/
theorem dense_trimBlanks (buf : LineBuffer) : buf.trimBlanks.dense = buf.dense := by
  rw [trimBlanks, dense, dense]
  congr 1
  induction buf.lines with
  | nil => rfl
  | cons line lines ih => by_cases h : line = .blank <;> simp [h, ih]

/-- A block is recorded as its opening, what is inside one level deeper, and its closing. -/
theorem dense_braced (buf : LineBuffer) (opening closing : String)
    {body : LineBuffer → LineBuffer} {events : List Event}
    (hbody : ∀ buf, (body buf).dense = events.foldl record buf.dense) :
    (buf.braced opening closing body).dense =
      ([.text opening, .deeper] ++ events ++ [.shallower, .text closing] : List Event).foldl
        record buf.dense := by
  rw [braced, dense_line, dense_dedent, dense_trimBlanks, hbody, dense_indent, dense_line]
  simp

mutual

/-- An edit records its events, blank lines apart. -/
theorem dense_apply (edit : Edit) (buf : LineBuffer) :
    (edit.apply buf).dense = edit.events.foldl record buf.dense := by
  cases edit with
  | line content =>
      rw [Edit.apply, dense_line, Edit.events, List.foldl_cons, List.foldl_nil]
  | lines contents => exact buf.dense_writeLines contents
  | blank => exact buf.dense_blank
  | indent => exact buf.dense_indent
  | dedent => exact buf.dense_dedent
  | block header body =>
      rw [Edit.apply, block, dense_braced _ _ _ (dense_applyAll body), dense_line, Edit.events]
      simp
  | inlineBlock header body =>
      rw [Edit.apply, inlineBlock, dense_braced _ _ _ (dense_applyAll body)]
      rfl
  | braced opening closing body =>
      rw [Edit.apply, dense_braced _ _ _ (dense_applyAll body)]
      rfl
  | mark => rfl
  | fill marker contents => rfl

/-- Edits record their events in order. -/
theorem dense_applyAll (edits : List Edit) (buf : LineBuffer) :
    (applyAll edits buf).dense = (eventsAll edits).foldl record buf.dense := by
  cases edits with
  | nil => rfl
  | cons edit edits =>
      rw [applyAll, eventsAll, List.foldl_append, dense_applyAll edits, dense_apply edit]

end

/-- What a recorded line stands for, given what markers are filled with. -/
def entries (filling : Nat → List String) : Line → List (Nat × String)
  | .text depth content => [(depth, content)]
  | .blank => []
  | .marker depth id => (filling id).map (depth, ·)

/-- The lines that a buffer holds, each with its depth. -/
def written (buf : LineBuffer) : List (Nat × String) :=
  buf.lines.reverse.flatMap (entries buf.filling)

/-- Blank lines write nothing. -/
theorem written_dense (buf : LineBuffer) : buf.dense.written = buf.written := by
  have h : ∀ lines : List Line, (lines.filter (· != .blank)).flatMap (entries buf.filling) =
      lines.flatMap (entries buf.filling) := by
    intro lines
    induction lines with
    | nil => rfl
    | cons line lines ih =>
        by_cases hline : line = .blank
        · simp [hline, ih, entries]
        · simp [hline, ih]
  rw [written, written, dense, ← List.filter_reverse]
  exact h buf.lines.reverse

/-- A place has what it was filled with last. -/
theorem filling_fill {buf : LineBuffer} {marker id : Nat} {contents : List String}
    (h : id < buf.fills.length) : (buf.fill marker contents).filling id =
      ((Event.filling marker contents).filling? id).getD (buf.filling id) := by
  rw [filling, fill, Event.filling?]
  by_cases hsame : marker = id
  · simp [hsame, h]
  · simp [hsame, filling]

/-- A marker that is there already stands for what it is filled with last. -/
theorem filling_record (events : List Event) {buf : LineBuffer} {id : Nat}
    (h : id < buf.fills.length) : (events.foldl record buf).filling id =
      (events.filterMap (Event.filling? id)).getLast?.getD (buf.filling id) := by
  induction events generalizing buf with
  | nil => rfl
  | cons event events ih =>
      have hstep : id < (buf.record event).fills.length ∧
          (buf.record event).filling id = (event.filling? id).getD (buf.filling id) := by
        cases event with
        | text content =>
            rw [record]
            split
            · exact ⟨h, rfl⟩
            · exact ⟨h, rfl⟩
        | deeper => exact ⟨h, rfl⟩
        | shallower => exact ⟨h, rfl⟩
        | place =>
            refine ⟨?_, ?_⟩
            · simp only [record, mark, List.length_append, List.length_singleton]
              omega
            · simp [record, mark, filling, Event.filling?, List.getElem?_append_left h]
        | filling marker contents =>
            exact ⟨by simpa [record, fill] using h, filling_fill h⟩
      rw [List.foldl_cons, ih hstep.1, hstep.2, List.filterMap_cons]
      cases event.filling? id with
      | none => rfl
      | some contents => simp [List.getLast?_cons]

/-- What was there and what is recorded after it, with the final fillings of markers. -/
theorem flatMap_record (events : List Event) (buf : LineBuffer) :
    (events.foldl record buf).lines.reverse.flatMap
        (entries (events.foldl record buf).filling) =
      buf.lines.reverse.flatMap (entries (events.foldl record buf).filling) ++
        outline buf.depth buf.fills.length events := by
  induction events generalizing buf with
  | nil => simp [outline]
  | cons event events ih =>
      rw [List.foldl_cons, ih]
      cases event with
      | text content =>
          rw [record, outline]
          split
          · rfl
          · simp [entries]
      | deeper => simp [record, indent, outline]
      | shallower => simp [record, dedent, outline]
      | place =>
          have hlength : buf.fills.length < (buf.record .place).fills.length := by
            simp [record, mark]
          have hempty : (buf.record .place).filling buf.fills.length = [] := by
            simp [record, mark, filling]
          have hfilling := filling_record events hlength
          rw [hempty] at hfilling
          rw [outline, lastFilling, ← hfilling]
          simp [record, mark, nextMarker, entries]
      | filling marker contents => simp [record, fill, outline]

/-- **A buffer holds its outline**: the lines it holds are those that its edits write, with
the last filling of every marker. -/
theorem written_applyAll (edits : List Edit) :
    (applyAll edits {}).written = outline 0 0 (eventsAll edits) := by
  rw [← written_dense, dense_applyAll, written, flatMap_record]
  rfl

end LineBuffer

/-! ## rows -/

/-- A line at a depth. -/
def indented (depth : Nat) (content : String) : String :=
  String.ofList (List.replicate (depth * indentWidth) ' ') ++ content

/-- A row of a text: blank, or a line at a depth. -/
abbrev Row := Option (Nat × String)

/-- What stands in a row. -/
def Row.text : Row → String
  | none => ""
  | some (depth, content) => indented depth content

/-- The text of some rows. -/
def rowsText (rows : List Row) : String :=
  String.join (rows.map fun row => row.text ++ "\n")

/-- Rows are written one after another. -/
theorem rowsText_append (rows rows' : List Row) :
    rowsText (rows ++ rows') = rowsText rows ++ rowsText rows' := by
  simp [rowsText]

/-- Whether a row may come right before another: a blank one has a line after it, and one
that closes no brace. -/
def Row.Precedes (row next : Row) : Prop :=
  row = none → ∃ entry, next = some entry ∧ startsWith '\x7d' entry.2 = false

/-- Blank rows stand only between lines, one at a time, and not before a closing brace. -/
structure Spaced (rows : List Row) : Prop where
  first : rows.head? ≠ some none
  last : rows.getLast? ≠ some none
  chain : rows.IsChain Row.Precedes

namespace Spaced

variable {rows : List Row}

theorem nil : Spaced [] where
  first := by simp
  last := by simp
  chain := .nil

/-- A line may follow anything. -/
theorem line (h : Spaced rows) (entry : Nat × String) : Spaced (rows ++ [some entry]) where
  first := by
    cases rows with
    | nil => simp
    | cons row rows => simpa using h.first
  last := by simp
  chain := by
    refine h.chain.append (.singleton _) fun row hrow _ _ hblank => ?_
    exact absurd (hblank ▸ hrow) h.last

/-- A blank row may stand between a line and one that closes no brace. -/
theorem gap (h : Spaced rows) (hne : rows ≠ []) {entry : Nat × String}
    (hentry : startsWith '\x7d' entry.2 = false) : Spaced (rows ++ [none, some entry]) where
  first := by
    obtain ⟨row, rest, rfl⟩ := List.exists_cons_of_ne_nil hne
    simpa using h.first
  last := by simp
  chain := by
    refine h.chain.append ?_ fun row hrow _ _ hblank => ?_
    · exact .cons_cons (fun _ => ⟨entry, rfl, hentry⟩) (.singleton _)
    · exact absurd (hblank ▸ hrow) h.last

end Spaced

namespace LineBuffer

/-- What has been laid out are these rows. -/
structure Laid (rows : List Row) (layout : Layout) : Prop where
  text : layout.sink.text = rowsText rows
  spaced : Spaced rows
  due : layout.blankDue = true → rows ≠ []
  started : layout.started = true → rows ≠ []

namespace Laid

variable {rows : List Row} {layout : Layout}

theorem nil : Laid [] {} where
  text := rfl
  spaced := .nil
  due := nofun
  started := nofun

/-- A blank line is due only after a line. -/
theorem blank (h : Laid rows layout) : Laid rows { layout with blankDue := layout.started } where
  text := h.text
  spaced := h.spaced
  due := h.started
  started := h.started

/-- A line is laid out as one more row, with a blank row before it if one is due. -/
theorem put (h : Laid rows layout) (depth : Nat) (content : String) :
    ∃ rows', Laid rows' (layout.put depth content) ∧
      rows'.filterMap id = rows.filterMap id ++ [(depth, content)] := by
  by_cases hgap : (layout.blankDue && !startsWith '\x7d' content) = true
  · obtain ⟨hdue, hopen⟩ := by simpa using hgap
    refine ⟨rows ++ [none, some (depth, content)], ⟨?_, ?_, by simp, by simp⟩, by simp⟩
    · rw [Layout.put, if_pos hgap, rowsText_append, ← h.text]
      simp [rowsText, Row.text, indented, Sink.newline, Sink.emit, Sink.spaces,
        String.append_assoc]
    · exact h.spaced.gap (h.due hdue) hopen
  · refine ⟨rows ++ [some (depth, content)], ⟨?_, ?_, by simp, by simp⟩, by simp⟩
    · rw [Layout.put, if_neg hgap, rowsText_append, ← h.text]
      simp [rowsText, Row.text, indented, Sink.newline, Sink.emit, Sink.spaces,
        String.append_assoc]
    · exact h.spaced.line _

/-- Several texts are put as one row each. -/
theorem putAll (h : Laid rows layout) (depth : Nat) (contents : List String) :
    ∃ rows', Laid rows' (contents.foldl (fun layout content => layout.put depth content) layout) ∧
      rows'.filterMap id = rows.filterMap id ++ contents.map (depth, ·) := by
  induction contents generalizing rows layout with
  | nil => exact ⟨rows, h, by simp⟩
  | cons content contents ih =>
      obtain ⟨middle, hmiddle, hentry⟩ := h.put depth content
      obtain ⟨rows', hrows', hentries⟩ := ih hmiddle
      exact ⟨rows', hrows', by rw [hentries, hentry]; simp⟩

/-- A recorded line adds the rows of what it stands for. -/
theorem layLine (h : Laid rows layout) (buf : LineBuffer) (line : Line) :
    ∃ rows', Laid rows' (buf.layLine layout line) ∧
      rows'.filterMap id = rows.filterMap id ++ entries buf.filling line := by
  cases line with
  | text depth content => exact h.put depth content
  | blank => exact ⟨rows, h.blank, by simp [entries]⟩
  | marker depth id =>
      rw [LineBuffer.layLine, entries]
      cases hcontents : buf.filling id with
      | nil => exact ⟨rows, h, by simp⟩
      | cons content contents =>
          obtain ⟨rows', hrows', hentries⟩ := h.putAll depth (content :: contents)
          have hne : rows' ≠ [] := by
            rintro rfl
            simp at hentries
          exact ⟨rows', { hrows' with due := fun _ => hne }, hentries⟩

/-- Laying lines out keeps the layout and adds what the lines stand for. -/
theorem layLines (h : Laid rows layout) (buf : LineBuffer) (lines : List Line) :
    ∃ rows', Laid rows' (lines.foldl buf.layLine layout) ∧
      rows'.filterMap id = rows.filterMap id ++ lines.flatMap (entries buf.filling) := by
  induction lines generalizing rows layout with
  | nil => exact ⟨rows, h, by simp⟩
  | cons line lines ih =>
      obtain ⟨middle, hmiddle, hentry⟩ := h.layLine buf line
      obtain ⟨rows', hrows', hentries⟩ := ih hmiddle
      exact ⟨rows', hrows', by rw [hentries, hentry]; simp⟩

end Laid

end LineBuffer

/-! ## lines of a text -/

/-- What stands before each line end of a text. -/
def linesOf (s : String) : List String :=
  (splitChars '\n' s.toList).dropLast.map String.ofList

/-- A line in front of a text is its first line. -/
theorem linesOf_line {line : String} (h : '\n' ∉ line.toList) (s : String) :
    linesOf (line ++ "\n" ++ s) = line :: linesOf s := by
  have hsplit : splitChars '\n' (line ++ "\n" ++ s).toList =
      [line.toList] ++ splitChars '\n' s.toList := by
    rw [← splitChars_of_not_mem h, ← splitChars_append_sep]
    simp
  rw [linesOf, hsplit, List.singleton_append,
    List.dropLast_cons_of_ne_nil (splitChars_ne_nil _ _), List.map_cons, String.ofList_toList,
    linesOf]

/-- A line ends with a character that is not blank. -/
theorem IsLine.exists_last {content : String} (h : IsLine content) :
    ∃ init c, content.toList = init ++ [c] ∧ isBlank c = false := by
  have hne : content.toList ≠ [] := by simpa using h.nonempty
  refine ⟨_, _, (List.dropLast_append_getLast hne).symm, ?_⟩
  have htrim : content.toList.rdropWhile isBlank = content.toList := by
    rw [← toList_trimEnd, h.trimmed]
  have hlast := List.rdropWhile_eq_self_iff.mp htrim hne
  simpa using hlast

/-- A row of a line has no line break in it and is not empty. -/
theorem IsLine.row {entry : Nat × String} (h : IsLine entry.2) :
    '\n' ∉ (Row.text (some entry)).toList ∧ Row.text (some entry) ≠ "" := by
  constructor
  · have hspaces : ∀ n : Nat, '\n' ∉ List.replicate n ' ' := by simp
    simpa [Row.text, indented, hspaces] using h.oneLine
  · simp [Row.text, indented, h.nonempty]

/-- The lines of the text of some rows are the rows. -/
theorem linesOf_rowsText {rows : List Row} (h : ∀ entry, some entry ∈ rows → IsLine entry.2) :
    linesOf (rowsText rows) = rows.map Row.text := by
  induction rows with
  | nil => rfl
  | cons row rows ih =>
      have hrow : '\n' ∉ row.text.toList := by
        cases row with
        | none => simp [Row.text]
        | some entry => exact (h entry List.mem_cons_self).row.1
      have hcons : rowsText (row :: rows) = row.text ++ "\n" ++ rowsText rows := by
        simp [rowsText]
      rw [hcons, linesOf_line hrow, List.map_cons,
        ih fun entry hentry => h entry (List.mem_cons_of_mem _ hentry)]

/-- The rows that are not blank are those with something in them. -/
theorem filter_rows {rows : List Row} (h : ∀ entry, some entry ∈ rows → IsLine entry.2) :
    (rows.map Row.text).filter (· != "") = (rows.filterMap id).map fun entry =>
      indented entry.1 entry.2 := by
  induction rows with
  | nil => rfl
  | cons row rows ih =>
      have hrows := ih fun entry hentry => h entry (List.mem_cons_of_mem _ hentry)
      cases row with
      | none => simpa [Row.text] using hrows
      | some entry =>
          have hrow := (h entry List.mem_cons_self).row.2
          rw [List.map_cons, List.filter_cons_of_pos (by simpa using hrow), hrows]
          rfl

/-- A text of rows that do not end with a blank one is not changed when it is finished. -/
theorem tidy_rowsText {rows : List Row} (hspaced : Spaced rows)
    (h : ∀ entry, some entry ∈ rows → IsLine entry.2) :
    (Sink.trimBlankLines ⟨rowsText rows⟩).endLine.text = rowsText rows ∧
      (rowsText rows = "" ∨
        ∃ body, rowsText rows = body ++ "\n" ∧ endsWith '\n' body = false) := by
  rcases List.eq_nil_or_concat rows with rfl | ⟨init, row, rfl⟩
  · exact ⟨rfl, Or.inl rfl⟩
  · cases row with
    | none => exact absurd (by simp) hspaced.last
    | some entry =>
        obtain ⟨front, c, hchars, hc⟩ := (h entry (by simp)).exists_last
        have hbody : rowsText (init.concat (some entry)) =
            (rowsText init ++ indented entry.1 entry.2) ++ "\n" := by
          rw [List.concat_eq_append, rowsText_append]
          simp [rowsText, Row.text, String.append_assoc]
        have hlast : (rowsText init ++ indented entry.1 entry.2).toList.getLast? = some c := by
          simp [indented, hchars]
        rw [hbody]
        refine ⟨Sink.tidy_line hlast hc, Or.inr ⟨_, rfl, ?_⟩⟩
        rw [endsWith, hlast]
        have hend : c ≠ '\n' := by
          rintro rfl
          exact absurd hc (by decide)
        simpa using hend

/-! ## layout -/

namespace LineBuffer

/-- **A rendered text is a list of rows**: those that are not blank are what the buffer
holds. -/
theorem exists_rows (buf : LineBuffer) (h : ∀ entry ∈ buf.written, IsLine entry.2) :
    ∃ rows, buf.render = rowsText rows ∧ Spaced rows ∧ rows.filterMap id = buf.written ∧
      ∀ entry, some entry ∈ rows → IsLine entry.2 := by
  obtain ⟨rows, hrows, hentries⟩ := Laid.nil.layLines buf buf.lines.reverse
  have hwritten : rows.filterMap id = buf.written := by simpa [written] using hentries
  have hlines : ∀ entry, some entry ∈ rows → IsLine entry.2 := by
    intro entry hentry
    refine h entry (hwritten ▸ ?_)
    exact List.mem_filterMap.mpr ⟨some entry, hentry, rfl⟩
  refine ⟨rows, ?_, hrows.spaced, hwritten, hlines⟩
  rw [render, ← (tidy_rowsText hrows.spaced hlines).1, ← hrows.text]

end LineBuffer

/-- A text whose lines are laid out as an outline says. -/
structure WellLaid (outline : List (Nat × String)) (text : String) : Prop where
  /-- The text is empty or ends with exactly one line end. -/
  ending : text = "" ∨ ∃ body, text = body ++ "\n" ∧ endsWith '\n' body = false
  beginning : startsWith '\n' text = false
  /-- No two blank lines are in a row. -/
  apart : ¬ ["", ""] <:+: linesOf text
  /-- No line ends with white space. -/
  trimmed : ∀ line ∈ linesOf text, ∀ c, line.toList.getLast? = some c → isBlank c = false
  /-- The line after a blank one closes no brace. -/
  opens : ∀ before next after, linesOf text = before ++ "" :: next :: after →
    ∃ entry, outline[(before.filter (· != "")).length]? = some entry ∧
      next = indented entry.1 entry.2 ∧ startsWith '\x7d' entry.2 = false
  /-- The lines that are not blank are those of the outline. -/
  complete : (linesOf text).filter (· != "") = outline.map fun entry => indented entry.1 entry.2

section Rows

variable {rows : List Row} (hlines : ∀ entry, some entry ∈ rows → IsLine entry.2)
include hlines

/-- Only blank rows have no text. -/
theorem eq_none_of_text {row : Row} (hrow : row ∈ rows) (h : row.text = "") : row = none := by
  cases row with
  | none => rfl
  | some entry => exact absurd h (hlines entry hrow).row.2

/-- Well-spaced rows do not start with a blank line. -/
theorem startsWith_rowsText (hspaced : Spaced rows) : startsWith '\n' (rowsText rows) = false := by
  cases rows with
  | nil => rfl
  | cons row rest =>
      cases row with
      | none => exact absurd rfl hspaced.first
      | some entry =>
          obtain ⟨honeLine, hne⟩ := (hlines entry List.mem_cons_self).row
          obtain ⟨c, cs, hchars⟩ := List.exists_cons_of_ne_nil
            (show (Row.text (some entry)).toList ≠ [] by simpa using hne)
          rw [hchars, List.mem_cons, not_or] at honeLine
          simpa [startsWith, rowsText, hchars] using Ne.symm honeLine.1

/-- What comes after a blank row is a line that closes no brace. -/
theorem opens_rowsText (hspaced : Spaced rows) {before after : List String} {next : String}
    (h : linesOf (rowsText rows) = before ++ "" :: next :: after) :
    ∃ entry, (rows.filterMap id)[(before.filter (· != "")).length]? = some entry ∧
      next = indented entry.1 entry.2 ∧ startsWith '\x7d' entry.2 = false := by
  rw [linesOf_rowsText hlines] at h
  obtain ⟨above, below, rfl, rfl, hbelow⟩ := List.map_eq_append_iff.mp h
  obtain ⟨row, below, rfl, hblank, hbelow⟩ := List.map_eq_cons_iff.mp hbelow
  obtain ⟨following, below, rfl, rfl, -⟩ := List.map_eq_cons_iff.mp hbelow
  have hnone := eq_none_of_text hlines (by simp) hblank
  have hchain : [row, following].IsChain Row.Precedes :=
    hspaced.chain.infix ⟨above, below, by simp⟩
  obtain ⟨entry, rfl, hopen⟩ := (List.isChain_cons_cons.mp hchain).1 hnone
  refine ⟨entry, ?_, rfl, hopen⟩
  have habove : ∀ entry, some entry ∈ above → IsLine entry.2 :=
    fun entry hentry => hlines entry (List.mem_append_left _ hentry)
  rw [filter_rows habove, List.length_map, hnone]
  simp

/-- Well-spaced rows are well laid. -/
theorem wellLaid_rowsText (hspaced : Spaced rows) :
    WellLaid (rows.filterMap id) (rowsText rows) where
  ending := (tidy_rowsText hspaced hlines).2
  beginning := startsWith_rowsText hlines hspaced
  apart := by
    rintro ⟨before, after, hcut⟩
    have hcut : linesOf (rowsText rows) = before ++ "" :: "" :: after := by simp [← hcut]
    obtain ⟨entry, hentry, hempty, -⟩ := opens_rowsText hlines hspaced hcut
    have hmem := List.mem_of_getElem? hentry
    obtain ⟨row, hrow, rfl⟩ := List.mem_filterMap.mp hmem
    exact (hlines entry hrow).row.2 hempty.symm
  trimmed := by
    intro line hline c hc
    rw [linesOf_rowsText hlines] at hline
    obtain ⟨row, hrow, rfl⟩ := List.mem_map.mp hline
    cases row with
    | none => simp [Row.text] at hc
    | some entry =>
        obtain ⟨init, last, hchars, hlast⟩ := (hlines entry hrow).exists_last
        have hsame : last = c := by simpa [Row.text, indented, hchars] using hc
        exact hsame ▸ hlast
  opens := fun _ _ _ h => opens_rowsText hlines hspaced h
  complete := by rw [linesOf_rowsText hlines, filter_rows hlines]

end Rows

/-- **A text is well laid out and nothing of it is lost**, whatever is done to an empty
buffer: its lines are those of the outline, each at its depth and with the last filling of
every marker, and blank lines stand only between two of them, one at a time, and not before
a closing brace. -/
theorem text_is_well_laid (edits : List Edit)
    (h : ∀ event ∈ eventsAll edits, event.Plain) :
    WellLaid (outline 0 0 (eventsAll edits)) (applyAll edits {}).render := by
  have hwritten := LineBuffer.written_applyAll edits
  obtain ⟨rows, hrender, hspaced, hrows, hlines⟩ :=
    (applyAll edits {}).exists_rows (hwritten ▸ isLine_of_mem_outline h)
  rw [hrender, ← hwritten, ← hrows]
  exact wellLaid_rowsText hlines hspaced

/-- A function with a place for what it needs, and a blank line too many at its ends. -/
def boxEdits : List Edit :=
  [.blank, .mark, .mark, .blank,
   .block "function box()"
     [.blank, .line "first();  ", .inlineBlock "if (x)" [.mark, .line "second();", .blank],
      .line "", .blank],
   .blank, .fill 2 ["once();"], .fill 0 ["use A;", "use B;"], .fill 2 ["third();"], .blank]

theorem box_is_well_laid :
    (∀ event ∈ eventsAll boxEdits, event.Plain) ∧
      outline 0 0 (eventsAll boxEdits) =
        [(0, "use A;"), (0, "use B;"), (0, "function box()"), (0, "\x7b"), (1, "first();"),
         (1, "if (x) \x7b"), (2, "third();"), (2, "second();"), (1, "\x7d"), (0, "\x7d")] ∧
      (applyAll boxEdits {}).render =
        "use A;\nuse B;\n\nfunction box()\n\x7b\n    first();\n    if (x) \x7b\n" ++
          "        third();\n\n        second();\n    \x7d\n\x7d\n" ∧
      WellLaid (outline 0 0 (eventsAll boxEdits)) (applyAll boxEdits {}).render := by
  have hplain : ∀ event ∈ eventsAll boxEdits, event.Plain := by decide +kernel
  exact ⟨hplain, by decide +kernel, by decide +kernel, text_is_well_laid boxEdits hplain⟩

end WebIdl.Text
