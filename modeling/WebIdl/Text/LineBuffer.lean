import WebIdl.Text.Blank
import WebIdl.Text.Sink

/-!
# WebIdl.Text.LineBuffer

Lines of a file under construction. A line is recorded with the depth in effect
when it is written, and laid out only by `render`, so a marker can be given its
lines after later lines exist.

Layout rules: blank lines never come first, never in a row, and never right before
a line that closes a brace.
-/

namespace WebIdl.Text

/-- One recorded line. -/
inductive Line where
  | text (depth : Nat) (content : String)
  | blank
  | marker (depth : Nat) (id : Nat)
deriving Repr, DecidableEq

/-- Lines under construction, newest first, with the current depth and the lines
each marker stands for. -/
structure LineBuffer where
  lines : List Line := []
  depth : Nat := 0
  fills : List (Option (List String)) := []
deriving Repr, DecidableEq

/-- Spaces per level of depth. -/
def indentWidth : Nat := 4

/-- Whether the last character of a text is `c`. -/
def endsWith (c : Char) (s : String) : Bool :=
  s.toList.getLast? == some c

/-- Whether the first character of a text is `c`. -/
def startsWith (c : Char) (s : String) : Bool :=
  s.toList.head? == some c

namespace LineBuffer

/-- Whether no text was written yet; blank lines and markers do not count. -/
def isEmpty (buf : LineBuffer) : Bool :=
  buf.lines.all fun
    | .text .. => false
    | .blank => true
    | .marker .. => true

/-- Write one line at the current depth, without the white space at its end. A
line with nothing on it is blank. -/
def line (buf : LineBuffer) (content : String) : LineBuffer :=
  let content := trimEnd content
  if content == "" then { buf with lines := .blank :: buf.lines }
  else { buf with lines := .text buf.depth content :: buf.lines }

/-- Write several lines at the current depth. -/
def writeLines (buf : LineBuffer) (contents : List String) : LineBuffer :=
  contents.foldl line buf

/-- Write a blank line, except at the start, after another one, and right after
an opening brace. -/
def blank (buf : LineBuffer) : LineBuffer :=
  match buf.lines with
  | [] => buf
  | .blank :: _ => buf
  | .text _ content :: _ =>
    if endsWith '\x7b' content then buf else { buf with lines := .blank :: buf.lines }
  | .marker .. :: _ => { buf with lines := .blank :: buf.lines }

/-- One level deeper. -/
def indent (buf : LineBuffer) : LineBuffer :=
  { buf with depth := buf.depth + 1 }

/-- One level back, but not below the first. -/
def dedent (buf : LineBuffer) : LineBuffer :=
  { buf with depth := buf.depth - 1 }

/-- Forget the blank lines written last. -/
def trimBlanks (buf : LineBuffer) : LineBuffer :=
  { buf with lines := buf.lines.dropWhile (· == .blank) }

/-- An opening line, a body one level deeper, and a closing line. -/
def braced (buf : LineBuffer) (opening closing : String) (body : LineBuffer → LineBuffer) :
    LineBuffer :=
  ((body (buf.line opening).indent).trimBlanks.dedent).line closing

/-- A header, and a body between braces that stand on lines of their own. -/
def block (buf : LineBuffer) (header : String) (body : LineBuffer → LineBuffer) : LineBuffer :=
  (buf.line header).braced "\x7b" "\x7d" body

/-- A header with the opening brace on its line, a body, and the closing brace. -/
def inlineBlock (buf : LineBuffer) (header : String) (body : LineBuffer → LineBuffer) :
    LineBuffer :=
  buf.braced (header ++ " \x7b") "\x7d" body

/-- The number that the next marker gets. -/
def nextMarker (buf : LineBuffer) : Nat :=
  buf.fills.length

/-- Leave a place at the current depth for lines that are not known yet. -/
def mark (buf : LineBuffer) : LineBuffer :=
  { buf with
    lines := .marker buf.depth buf.nextMarker :: buf.lines
    fills := buf.fills ++ [none] }

/-- Set the lines a marker stands for; the last time counts. A number that no
marker has is ignored. -/
def fill (buf : LineBuffer) (id : Nat) (contents : List String) : LineBuffer :=
  { buf with fills := buf.fills.set id (some contents) }

/-- Layout in progress: the text so far, whether a blank line is due before the
next line, and whether there is a line already. -/
structure Layout where
  sink : Sink := {}
  blankDue : Bool := false
  started : Bool := false
deriving Repr, DecidableEq

/-- Lay out one line, with the blank line that is due unless it closes a brace. -/
def Layout.put (layout : Layout) (depth : Nat) (content : String) : Layout :=
  let sink :=
    if layout.blankDue && !startsWith '\x7d' content then layout.sink.newline else layout.sink
  { sink := ((sink.spaces (depth * indentWidth)).emit content).newline
    blankDue := false
    started := true }

/-- The lines a marker stands for; none if it was never filled. -/
def filling (buf : LineBuffer) (id : Nat) : List String :=
  ((buf.fills[id]?).join).getD []

/-- Lay out one recorded line. The lines of a marker are followed by a blank one. -/
def layLine (buf : LineBuffer) (layout : Layout) : Line → Layout
  | .blank => { layout with blankDue := layout.started }
  | .text depth content => layout.put depth content
  | .marker depth id =>
    match buf.filling id with
    | [] => layout
    | contents =>
      { contents.foldl (fun layout content => layout.put depth content) layout with
        blankDue := true }

/-- The finished text: empty, or with one line end at its end. -/
def render (buf : LineBuffer) : String :=
  (buf.lines.reverse.foldl buf.layLine {}).sink.trimBlankLines.endLine.text

end LineBuffer

end WebIdl.Text
