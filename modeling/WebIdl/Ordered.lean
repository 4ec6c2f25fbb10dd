/-!
# WebIdl.Ordered

Lists kept strictly increasing under a comparison. Inserting an element that
compares equal to one already there changes nothing, so such a list is a set, or a
table when the comparison looks at a key only.
-/

namespace WebIdl.Ordered

variable {α : Type}

/-- Insert an element at its place, unless one that compares equal is there. -/
def insert (cmp : α → α → Ordering) (x : α) : List α → List α
  | [] => [x]
  | y :: ys =>
    match cmp x y with
    | .lt => x :: y :: ys
    | .eq => y :: ys
    | .gt => y :: insert cmp x ys

/-- The increasing list of the elements of a list. -/
def ofList (cmp : α → α → Ordering) (xs : List α) : List α :=
  xs.foldl (fun acc x => insert cmp x acc) []

/-- Pairs by their first component, then by their second. -/
def comparePairs (a b : String × String) : Ordering :=
  (compare a.1 b.1).then (compare a.2 b.2)

end WebIdl.Ordered
