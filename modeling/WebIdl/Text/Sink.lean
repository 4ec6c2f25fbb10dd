/-!
# WebIdl.Text.Sink

The text that has been written so far, and the two ways its end is tidied: blank
lines at the end go, and a text that is not empty ends its last line.
-/

namespace WebIdl.Text

/-- Written text. -/
structure Sink where
  text : String := ""
deriving Repr, DecidableEq

namespace Sink

/-- Write a fragment. -/
def emit (sink : Sink) (fragment : String) : Sink :=
  ⟨sink.text ++ fragment⟩

/-- End the current line. -/
def newline (sink : Sink) : Sink :=
  sink.emit "\n"

/-- Write spaces. -/
def spaces (sink : Sink) (count : Nat) : Sink :=
  sink.emit (String.ofList (List.replicate count ' '))

/-- End the last line, unless nothing was written or it is ended already. -/
def endLine (sink : Sink) : Sink :=
  match sink.text.toList.getLast? with
  | none => sink
  | some c => if c == '\n' then sink else sink.newline

/-- On a text held last character first: drop the final line end as long as
another line end or a space stands before it. -/
def dropBlankLines : List Char → List Char
  | '\n' :: '\n' :: rest => dropBlankLines ('\n' :: rest)
  | '\n' :: ' ' :: rest => ' ' :: rest
  | cs => cs

/-- Drop blank lines at the end, leaving at most one line end there. -/
def trimBlankLines (sink : Sink) : Sink :=
  ⟨String.ofList (dropBlankLines sink.text.toList.reverse).reverse⟩

end Sink

end WebIdl.Text
