import WebIdl.Code.Signature

/-!
# WebIdl.Code.Overload

One method for all overloads of an operation. A position that some overloads do not have
becomes optional, and types that differ become `mixed`.
-/

namespace WebIdl.Code

open WebIdl.Text (joinWith splitTopLevel)

/-- One binding for several: the one they share, or `mixed`. -/
def widen (bindings : List String) : String :=
  match bindings with
  | [] => "mixed"
  | first :: rest => if rest.all (· == first) then first else "mixed"

/-- Add an alternative, unless it is there. -/
def addPart (parts : List String) (part : String) : List String :=
  if parts.contains part then parts else parts ++ [part]

/-- The union of documentation types: their alternatives, each once, null last. -/
def unionDoc (docs : List String) : String :=
  let all := docs.flatMap splitTopLevel
  let parts := (all.filter (· != "null")).foldl addPart []
  let text := joinWith "|" parts
  if all.contains "null" then if text == "" then "null" else text ++ "|null" else text

/-- The default that all parameters share. -/
def sharedDefault (params : List Param) : Option String :=
  match params with
  | [] => none
  | first :: rest =>
    match first.default with
    | some default => if rest.all (·.default == some default) then some default else none
    | none => none

/-- One parameter for those at one position, of which `head` is the first; `everywhere`
tells whether all overloads have one. -/
def mergeParams (everywhere : Bool) (head : Param) (present : List Param) : Param :=
  let merged : Param := {
    name := head.name
    type := ⟨widen (present.map (·.type.binding)), unionDoc (present.map (·.type.doc))⟩
    variadic := present.any (·.variadic) }
  if merged.variadic then merged
  else if everywhere then
    if present.any (·.default.isSome) then
      merged.withDefault ((sharedDefault present).getD "null")
    else merged
  else merged.withDefault "null"

/-- The parameters of some overloads at one position. -/
def paramsAt (overloads : List MethodSig) (position : Nat) : List Param :=
  overloads.filterMap fun sig => sig.params[position]?

/-- The greatest number of parameters. -/
def width (overloads : List MethodSig) : Nat :=
  overloads.foldl (fun most sig => max most sig.params.length) 0

/-- One parameter list for all. -/
def mergedParams (overloads : List MethodSig) : List Param :=
  (List.range (width overloads)).filterMap fun position =>
    let present := paramsAt overloads position
    present.head?.map fun head =>
      mergeParams (present.length == overloads.length) head present

/-- One result for all. Where nothing is returned only by some, it counts as null. -/
def mergedResult (overloads : List MethodSig) : TypePair :=
  let results := overloads.filterMap (·.result)
  let binding := widen (results.map (·.binding))
  if binding == "void" then .same "void"
  else
    let docs := results.map fun type => if type.doc == "void" then "null" else type.doc
    ⟨binding, unionDoc docs⟩

/-- One method for all overloads. -/
def mergeOverloads (name : String) (overloads : List MethodSig) : MethodSig :=
  match overloads with
  | [] => { name }
  | [only] => only
  | first :: _ =>
    { name := first.name
      params := mergedParams overloads
      result := first.result.map fun _ => mergedResult overloads
      isStatic := first.isStatic }

end WebIdl.Code
